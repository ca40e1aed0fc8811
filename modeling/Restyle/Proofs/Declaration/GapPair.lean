import Restyle.Proofs.Declaration.GapWord
import Restyle.Proofs.Declaration.Longhand

/-! # Two gaps in a row

The second pass over gaps recognises two gaps of axes, one directly behind the
other. The first of them may be the end of a longer name.
-/

namespace Restyle.Declaration

open Text

structure AxisGap where
  name : Text
  blanks : Text
  value : Text
  axis : name.map fold ∈ axisNames
  blank : Blank blanks
  ne_nil : value ≠ []
  free : ∀ c ∈ value, c ∉ [';', '{', '}']

namespace AxisGap

def text (g : AxisGap) : Text :=
  g.name ++ g.blanks ++ ':' :: g.value

def Matches (g g' : AxisGap) : Prop :=
  g.name.map fold ≠ g'.name.map fold ∧ trim g.value = trim g'.value

instance (g g' : AxisGap) : Decidable (g.Matches g') :=
  inferInstanceAs (Decidable (_ ∧ _))

/-- What the second pass writes for two gaps with white space between them. -/
def written (g g' : AxisGap) (w : Text) : Text :=
  if g.Matches g' then "gap: " ++ trim g.value ++ ";" else g.text ++ ';' :: (w ++ (g'.text ++ [';']))

end AxisGap

/-- The name and the value of a gap of one axis, and the rest behind its semicolon. -/
def axis? (t : Text) : Option (Text × Text × Text) :=
  (property? axisNames t).bind fun p => (value? p.2).map fun v => (p.1, v)

def rawValue? (p : Text) : Option Text :=
  (cut? (· == ':') p).map fun parts => trim parts.2

/-- A piece with a longer name that ends in an axis, and one with a gap of the other axis and the same
value. -/
def Joins (p q : Text) : Prop :=
  ∃ d e x name, ofPiece? p = some d ∧ ofPiece? q = some e ∧ d.property = x ++ '-' :: name ∧
    name.map fold ∈ axisNames ∧ e.name ∈ axisNames ∧ name.map fold ≠ e.name ∧ rawValue? p = rawValue? q

/-- A text with two pieces that join, one directly behind the other. -/
def Astride (t : Text) : Prop :=
  ∃ p q, [p, q] <:+: split (· == ';') t ∧ Joins p q

variable {b : Option Char} {c : Char} {t u v w p q x y out rest n : Text} {d e : Declaration}
  {ds : List Declaration} {g g' : AxisGap}

section Recognition

theorem AxisGap.notMem (g : AxisGap) : ';' ∉ g.value :=
  fun hc => g.free ';' hc List.mem_cons_self

theorem AxisGap.mem_gapNames (g : AxisGap) : g.name.map fold ∈ gapNames :=
  axisNames_subset g.axis

theorem AxisGap.text_append (g : AxisGap) (t : Text) :
    g.text ++ t = g.name ++ g.blanks ++ ':' :: (g.value ++ t) := by
  simp [AxisGap.text]

theorem AxisGap.exists_cons (g : AxisGap) (t : Text) :
    ∃ c u, g.text ++ t = c :: u ∧ isBlank c = false ∧ c ≠ ';' := by
  have htoken := isToken_of_gapName g.mem_gapNames
  obtain ⟨c, name, hname⟩ := List.exists_cons_of_ne_nil htoken.ne_nil
  have hmem : c ∈ g.name := hname ▸ List.mem_cons_self
  refine ⟨c, name ++ g.blanks ++ ':' :: (g.value ++ t), ?_, htoken.visible c hmem, ?_⟩
  · rw [g.text_append, hname]
    rfl
  · rintro rfl
    exact notMem_gapName g.mem_gapNames (by decide) hmem

theorem axis?_eq_some_iff : axis? t = some (n, v, rest) ↔
    ∃ g : AxisGap, g.name.map fold = n ∧ g.value = v ∧ t = g.text ++ ';' :: rest := by
  constructor
  · intro h
    obtain ⟨⟨m, u⟩, hproperty, h⟩ := Option.bind_eq_some_iff.mp h
    obtain ⟨⟨v', rest'⟩, hvalue, he⟩ := Option.map_eq_some_iff.mp h
    simp only [Prod.mk.injEq] at he
    obtain ⟨rfl, rfl, rfl⟩ := he
    obtain ⟨hm, name, blanks, rfl, rfl, hblanks⟩ := (property?_gapNames axisNames_subset).mp hproperty
    obtain ⟨rfl, hne, hfree⟩ := value?_eq_some_iff.mp hvalue
    let g : AxisGap := ⟨name, blanks, v', hm, hblanks, hne, hfree⟩
    exact ⟨g, rfl, rfl, (g.text_append _).symm⟩
  · rintro ⟨g, rfl, rfl, rfl⟩
    have hproperty : property? axisNames (g.text ++ ';' :: rest) =
        some (g.name.map fold, g.value ++ ';' :: rest) :=
      (property?_gapNames axisNames_subset).mpr
        ⟨g.axis, g.name, g.blanks, g.text_append _, rfl, g.blank⟩
    rw [axis?, hproperty, Option.bind_some, value?_append g.ne_nil g.free, Option.map_some]

theorem gapPair_eq (b : Option Char) (t : Text) : gapPair b t =
    if wordMayStart b = true then
      (axis? t).bind fun g => (axis? (trimStart g.2.2)).map fun g' =>
        (if g.1 ≠ g'.1 ∧ trim g.2.1 = trim g'.2.1 then "gap: " ++ trim g.2.1 ++ ";"
          else t.take (t.length - g'.2.2.length), g'.2.2)
    else none := by
  have hopen : gapPair b t = if !wordMayStart b then none else
      (property? axisNames t).bind fun p => (value? p.2).bind fun v =>
        (property? axisNames (trimStart v.2)).bind fun p' => (value? p'.2).bind fun v' =>
          if p.1 ≠ p'.1 ∧ trim v.1 = trim v'.1 then some ("gap: " ++ trim v.1 ++ ";", v'.2)
          else some (t.take (t.length - v'.2.length), v'.2) := rfl
  rw [hopen]
  cases wordMayStart b with
  | false => rfl
  | true =>
    rw [Bool.not_true, if_neg Bool.false_ne_true, if_pos rfl, axis?, Option.bind_assoc]
    refine Option.bind_congr fun p _ => ?_
    rw [Option.bind_map]
    refine Option.bind_congr fun v _ => ?_
    dsimp only [Function.comp]
    rw [axis?, Option.map_bind]
    refine Option.bind_congr fun p' _ => ?_
    dsimp only [Function.comp]
    rw [Option.map_map]
    cases value? p'.2 with
    | none => rfl
    | some v' =>
      rw [Option.bind_some, Option.map_some]
      dsimp only [Function.comp]
      split_ifs <;> rfl

theorem gapPair_eq_some_iff : gapPair b t = some (out, rest) ↔ wordMayStart b = true ∧
    ∃ (g g' : AxisGap) (w : Text), Blank w ∧ t = g.text ++ ';' :: (w ++ (g'.text ++ ';' :: rest)) ∧
      out = g.written g' w := by
  rw [gapPair_eq]
  have hout : ∀ (g g' : AxisGap) (w rest : Text),
      (if g.name.map fold ≠ g'.name.map fold ∧ trim g.value = trim g'.value then
        "gap: " ++ trim g.value ++ ";"
      else (g.text ++ ';' :: (w ++ (g'.text ++ ';' :: rest))).take
        ((g.text ++ ';' :: (w ++ (g'.text ++ ';' :: rest))).length - rest.length)) = g.written g' w := by
    intro g g' w rest
    have hsplit : g.text ++ ';' :: (w ++ (g'.text ++ ';' :: rest)) =
        g.text ++ ';' :: (w ++ (g'.text ++ [';'])) ++ rest := by simp
    rw [hsplit, List.length_append, Nat.add_sub_cancel, List.take_left]
    rfl
  constructor
  · intro h
    split_ifs at h with hstart
    obtain ⟨⟨n, v, u⟩, hg, h⟩ := Option.bind_eq_some_iff.mp h
    obtain ⟨⟨n', v', rest'⟩, hg', he⟩ := Option.map_eq_some_iff.mp h
    obtain ⟨rfl, rfl⟩ := Prod.mk.inj he
    obtain ⟨g, rfl, rfl, rfl⟩ := axis?_eq_some_iff.mp hg
    obtain ⟨g', rfl, rfl, htrim⟩ := axis?_eq_some_iff.mp hg'
    obtain ⟨w, hw, hu⟩ := exists_eq_trimStart u
    rw [htrim] at hu
    obtain rfl := hu
    exact ⟨hstart, g, g', w, hw, rfl, hout g g' w rest'⟩
  · rintro ⟨hstart, g, g', w, hw, rfl, rfl⟩
    have hg : axis? (g.text ++ ';' :: (w ++ (g'.text ++ ';' :: rest))) =
        some (g.name.map fold, g.value, w ++ (g'.text ++ ';' :: rest)) :=
      axis?_eq_some_iff.mpr ⟨g, rfl, rfl, rfl⟩
    have hg' : axis? (g'.text ++ ';' :: rest) = some (g'.name.map fold, g'.value, rest) :=
      axis?_eq_some_iff.mpr ⟨g', rfl, rfl, rfl⟩
    have htrim : trimStart (w ++ (g'.text ++ ';' :: rest)) = g'.text ++ ';' :: rest := by
      obtain ⟨c, u, hcons, hc, -⟩ := g'.exists_cons (';' :: rest)
      rw [trimStart_append hw, hcons, trimStart_cons_of_not_blank hc]
    rw [if_pos hstart, hg, Option.bind_some, htrim, hg', Option.map_some, hout]

theorem startsInNames_gapPair : StartsInNames gapPair := by
  intro b c t hc
  rw [gapPair_eq, axis?, property?_gapNames_cons axisNames_subset hc, Option.bind_none,
    Option.bind_none, ite_self]

end Recognition

section Pieces

theorem EndsIn.rawValue? {name blanks : Text} (h : EndsIn p d x name blanks v)
    (hname : name.map fold ∈ gapNames) (hblanks : Blank blanks) : rawValue? p = some (trim v) := by
  have hfree : ∀ c ∈ x ++ name ++ blanks, (c == ':') = false := by
    intro c hc
    refine beq_false_of_ne ?_
    rintro rfl
    simp only [List.mem_append] at hc
    rcases hc with (hc | hc) | hc
    · exact h.first hc
    · exact notMem_gapName hname (by decide) hc
    · exact hblanks.ne_of_mem hc (by decide : isBlank ':' = false) rfl
  have hsplit : p = x ++ name ++ blanks ++ ':' :: v := by rw [h.piece]; simp
  rw [Declaration.rawValue?, hsplit, cut?_append hfree (beq_self_eq_true ':')]
  rfl

theorem ofPiece?_ne_some (hw : Blank w) : ofPiece? w ≠ some d := by
  intro h
  obtain ⟨u, v, rfl, -⟩ := ofPiece?_eq_some_iff.mp h
  exact hw.ne_of_mem (List.mem_append_right u List.mem_cons_self) (by decide : isBlank ':' = false) rfl

theorem not_joins_blank_left (hw : Blank w) : ¬ Joins w q := by
  rintro ⟨d, e, x, name, hd, -⟩
  exact ofPiece?_ne_some hw hd

theorem not_joins_blank_right (hw : Blank w) : ¬ Joins p w := by
  rintro ⟨d, e, x, name, -, he, -⟩
  exact ofPiece?_ne_some hw he

/-- A whole name of an axis is not the end of a longer one. -/
theorem not_joins_of_axis (hp : Piece p d) (hd : d.name ∈ axisNames) : ¬ Joins p q := by
  rintro ⟨d', e, x, name, hd', -, hproperty, hname, -⟩
  obtain rfl := Option.some.inj (hp.reads.symm.trans hd')
  refine longer_notMem_gapNames (y := x) hname ?_
  rw [← hproperty]
  exact axisNames_subset hd

theorem astride_append_iff (hp : ∀ c ∈ p, (c == ';') = false) : Astride (p ++ ';' :: t) ↔
    (∃ q ps, split (· == ';') t = q :: ps ∧ Joins p q) ∨ Astride t := by
  have hsplit : split (· == ';') (p ++ ';' :: t) = p :: split (· == ';') t :=
    split_append_cons hp (beq_self_eq_true ';') t
  constructor
  · rintro ⟨p', q, hin, hjoins⟩
    rw [hsplit, List.infix_cons_iff] at hin
    rcases hin with hpre | hin
    · obtain ⟨rfl, ps, hps⟩ := List.cons_prefix_cons.mp hpre
      exact Or.inl ⟨q, ps, hps.symm, hjoins⟩
    · exact Or.inr ⟨p', q, hin, hjoins⟩
  · rintro (⟨q, ps, hq, hjoins⟩ | ⟨p', q, hin, hjoins⟩)
    · refine ⟨p, q, ?_, hjoins⟩
      rw [hsplit, hq]
      exact ⟨[], ps, rfl⟩
    · exact ⟨p', q, hsplit ▸ hin.trans (List.suffix_cons p _).isInfix, hjoins⟩

theorem not_astride_blank (hw : Blank w) : ¬ Astride w := by
  rintro ⟨p, q, hin, -⟩
  rw [split_eq_singleton hw.no_semicolon] at hin
  exact absurd hin.length_le (by simp)

theorem Spells.exists_piece (h : Spells (w ++ c :: u) ds) (hw : Blank w) (hc : isBlank c = false)
    (hsemicolon : c ≠ ';') : ∃ q t e es, w ++ c :: u = q ++ ';' :: t ∧ ds = e :: es ∧ Piece q e ∧
      Spells t es ∧ w.length ≤ q.length := by
  generalize ht : w ++ c :: u = t at h
  cases h with
  | blank hblank =>
    have hmem : c ∈ w ++ c :: u := by simp
    exact absurd (hblank c (ht ▸ hmem)) (by simp [hc])
  | @skip w' t _ hw' h =>
    have htrim := congrArg Text.trimStart ht
    rw [trimStart_append hw, trimStart_append hw', trimStart_cons_of_not_blank hc,
      trimStart_cons_of_not_blank (by decide)] at htrim
    exact absurd (List.cons.inj htrim).1 hsemicolon
  | @cons q t e es hq h =>
    refine ⟨q, t, e, es, rfl, rfl, hq, h, ?_⟩
    rcases List.append_eq_append_iff.mp ht with ⟨z, rfl, -⟩ | ⟨z, rfl, hz⟩
    · simp
    · rcases z with _ | ⟨l, z⟩
      · simp
      · obtain ⟨rfl, -⟩ := List.cons.inj hz
        exact absurd (hw ';' (by simp)) (by decide)

theorem EndsIn.property_of_blank {name blanks : Text} (h : EndsIn p d x name blanks v) (hx : Blank x) :
    d.property = name := by
  rcases h.place with ⟨-, hproperty⟩ | ⟨w, y, -, rfl, -⟩
  · exact hproperty
  · exact absurd (hx '-' (by simp)) (by decide)

theorem longer_inj {name name' : Text} (hname : name.map fold ∈ axisNames)
    (hname' : name'.map fold ∈ axisNames) (h : x ++ '-' :: name = y ++ '-' :: name') : name = name' := by
  have hno : ∀ {a a' : Text}, a.map fold ∈ axisNames → a'.map fold ∈ axisNames → ¬ '-' :: a <:+ a' := by
    rintro a a' ha ha' ⟨z, rfl⟩
    exact longer_notMem_gapNames ha (axisNames_subset ha')
  have hsuffix : '-' :: name <:+ y ++ '-' :: name' := ⟨x, h⟩
  rcases List.suffix_or_suffix_of_suffix hsuffix (List.suffix_append y _) with hs | hs
  · rcases List.suffix_cons_iff.mp hs with he | hs
    · exact (List.cons.inj he).2
    · exact absurd hs (hno hname hname')
  · rcases List.suffix_cons_iff.mp hs with he | hs
    · exact (List.cons.inj he).2.symm
    · exact absurd hs (hno hname' hname)

/-- Two gaps in a row join if the first is the end of a longer name and they match. -/
theorem joins_iff (hp : Piece p d) (hd : EndsIn p d x g.name g.blanks g.value) (hq : Piece q e)
    (he : EndsIn q e w g'.name g'.blanks g'.value) (hw : Blank w) :
    Joins p q ↔ ¬ Blank x ∧ g.Matches g' := by
  have hraw := hd.rawValue? g.mem_gapNames g.blank
  have hraw' := he.rawValue? g'.mem_gapNames g'.blank
  have hename : e.name = g'.name.map fold := congrArg (List.map fold) (he.property_of_blank hw)
  constructor
  · intro hjoins
    have hlonger : ¬ Blank x := by
      intro hx
      refine not_joins_of_axis hp ?_ hjoins
      rw [name, hd.property_of_blank hx]
      exact g.axis
    refine ⟨hlonger, ?_⟩
    obtain ⟨d', e', x', name, hd', he', hproperty, hname, -, hne, hsame⟩ := hjoins
    obtain rfl := Option.some.inj (hp.reads.symm.trans hd')
    obtain rfl := Option.some.inj (hq.reads.symm.trans he')
    obtain ⟨hx, -⟩ | ⟨-, y, -, -, hproperty'⟩ := hd.place
    · exact absurd hx hlonger
    obtain rfl := longer_inj hname g.axis (hproperty.symm.trans hproperty')
    rw [hraw, hraw'] at hsame
    exact ⟨hename ▸ hne, Option.some.inj hsame⟩
  · rintro ⟨hlonger, hne, hsame⟩
    obtain ⟨hx, -⟩ | ⟨-, y, -, -, hproperty⟩ := hd.place
    · exact absurd hx hlonger
    refine ⟨d, e, y, g.name, hp.reads, hq.reads, hproperty, g.axis, ?_, ?_, ?_⟩
    · rw [hename]
      exact g'.axis
    · rw [hename]
      exact hne
    · rw [hraw, hraw', hsame]

theorem Piece.exists_axisGap {name : Text} (hp : Piece p d) (hproperty : d.property = y ++ name)
    (hname : name.map fold ∈ axisNames) :
    ∃ (g : AxisGap) (w : Text), g.name = name ∧ Blank w ∧ p = w ++ y ++ g.text := by
  obtain ⟨w, w', v, hw, hw', hparts, -, -, hv, -⟩ := hp.exists_parts
  have hne : v ≠ [] := by
    rintro rfl
    exact hv .nil
  let g : AxisGap := ⟨name, w', v, hname, hw', hne, fun c hc => hp.free c (hparts ▸ by simp [hc])⟩
  refine ⟨g, w, rfl, hw, ?_⟩
  rw [hparts, hproperty]
  simp [g, AxisGap.text]

theorem Joins.not_passes (h : Joins p q) (hp : Piece p d) (hq : Piece q e) (b : Option Char) (t : Text) :
    ¬ gapPair.Passes b (p ++ [';']) (q ++ ';' :: t) := by
  obtain ⟨d', e', x, name, hd, he, hproperty, hname, hename, -⟩ := h
  obtain rfl := Option.some.inj (hp.reads.symm.trans hd)
  obtain rfl := Option.some.inj (hq.reads.symm.trans he)
  obtain ⟨g, w, rfl, hw, rfl⟩ := hp.exists_axisGap (y := x ++ ['-']) (by simp [hproperty]) hname
  obtain ⟨g', w', -, hw', rfl⟩ := hq.exists_axisGap (y := []) (List.nil_append _).symm hename
  have hstart : wordMayStart (lastOf b (w ++ (x ++ ['-']))) = true := by
    rw [← List.append_assoc, lastOf_append_cons, lastOf_nil]
    decide +kernel
  have hfound : gapPair (lastOf b (w ++ (x ++ ['-'])))
      (g.text ++ [';'] ++ (w' ++ [] ++ g'.text ++ ';' :: t)) = some (g.written g' w', t) :=
    gapPair_eq_some_iff.mpr ⟨hstart, g, g', w', hw', by simp, rfl⟩
  rw [List.append_assoc]
  exact Recogniser.not_passes (by simp) (by rw [hfound]; exact Option.some_ne_none _)

end Pieces

end Restyle.Declaration
