import Restyle.Proofs.Declaration.GapPair

/-! # What the passes over gaps keep

The second pass writes two gaps of different axes with one value as one gap. It
takes the end of a longer name for a gap too, so the declarations with other names
stay exactly where such an end never meets a gap of the other axis.
-/

namespace Restyle.Declaration

open Text

/-- A list and what the second pass makes of it, with the number of longer names that it cuts. -/
inductive Merged : ℕ → List Declaration → List Declaration → Prop
  | nil : Merged 0 [] []
  | keep {k : ℕ} {d : Declaration} {ds es : List Declaration} (h : Merged k ds es) :
      Merged k (d :: ds) (d :: es)
  | join {k : ℕ} {d e : Declaration} {ds es : List Declaration} (hd : d.name ∈ axisNames)
      (he : e.name ∈ axisNames) (hne : d.name ≠ e.name) (hv : d.value = e.value) (h : Merged k ds es) :
      Merged k (d :: e :: ds) (⟨"gap", d.value⟩ :: es)
  | cut {k : ℕ} {d e : Declaration} {x name : Text} {ds es : List Declaration}
      (hd : d.property = x ++ '-' :: name) (hname : name.map fold ∈ axisNames)
      (he : e.name ∈ axisNames) (h : Merged k ds es) :
      Merged (k + 1) (d :: e :: ds) (⟨x ++ "-gap", d.value⟩ :: es)

variable {b : Option Char} {t u v w p q x y out rest n : Text} {d e : Declaration}
  {ds es : List Declaration} {g g' : AxisGap} {k : ℕ}

section Run

theorem EndsIn.spells_gap (h : EndsIn p d x g.name g.blanks g.value) (hp : Piece p d) (hw : Blank w)
    (hx : x = w ++ y) (hproperty : d.property = y ++ g.name) :
    Spells (x ++ ("gap: " ++ trim g.value ++ ";")) [⟨y ++ "gap", d.value⟩] := by
  obtain ⟨-, -, -, -, -, -, hcolon, htoken, -⟩ := hp.exists_parts
  have hgap : ∀ c ∈ "gap".toList, isBlank c = false ∧ c ∉ [':', ';', '{', '}'] := by decide
  have hy : ∀ c ∈ y, c ∈ d.property := fun c hc => hproperty ▸ List.mem_append_left _ hc
  have htoken' : IsToken (y ++ "gap") := by
    refine ⟨by simp, fun c hc => ?_⟩
    rcases List.mem_append.mp hc with hc | hc
    · exact htoken.visible c (hy c hc)
    · exact (hgap c hc).1
  have hcolon' : ':' ∉ y ++ "gap".toList := by
    intro hc
    rcases List.mem_append.mp hc with hc | hc
    · exact hcolon (hy _ hc)
    · exact (hgap _ hc).2 List.mem_cons_self
  have hfree : ∀ c ∈ y ++ "gap".toList ++ trim g.value, c ∉ [';', '{', '}'] := by
    intro c hc
    simp only [List.mem_append] at hc
    rcases hc with (hc | hc) | hc
    · exact hp.free c (h.piece ▸ by simp [hx, hc])
    · exact fun hend => (hgap c hc).2 (List.mem_cons_of_mem _ hend)
    · obtain ⟨u, u', -, -, hv⟩ := exists_eq_trim g.value
      exact g.free c (hv ▸ by simp [hc])
  have hvalue : ¬ Blank (trim g.value) := by
    rw [← words_eq_nil_iff, words_trim, words_eq_nil_iff]
    exact h.full
  have htext := Spells.text (d := ⟨y ++ "gap", trim g.value⟩) htoken' hcolon' hvalue hfree
  have hspaced : spaced (trim g.value) = d.value := by rw [h.value, spaced, words_trim, spaced]
  rw [hspaced] at htext
  have hsplit : x ++ ("gap: " ++ trim g.value ++ ";") =
      w ++ Declaration.text ⟨y ++ "gap", trim g.value⟩ := by
    rw [hx]
    simp [Declaration.text]
  rw [hsplit]
  exact htext.blank_append hw

theorem value_eq_of_matches (h : EndsIn p d x g.name g.blanks g.value)
    (h' : EndsIn q e w g'.name g'.blanks g'.value) (hm : g.Matches g') : d.value = e.value := by
  rw [h.value, h'.value, spaced, ← words_trim, hm.2, words_trim, spaced]

theorem Piece.exists_pair (hp : Piece p d) (hd : Clear d) (h : Spells t ds) (hds : ∀ d ∈ ds, Clear d)
    (hxy : p ++ [';'] = x ++ y) (hy : y ≠ [])
    (hfound : gapPair (lastOf b x) (y ++ t) = some (out, rest)) :
    ∃ (g g' : AxisGap) (w q : Text) (e : Declaration) (es : List Declaration),
      EndsIn p d x g.name g.blanks g.value ∧ Blank w ∧ Piece q e ∧
      EndsIn q e w g'.name g'.blanks g'.value ∧ t = q ++ ';' :: rest ∧ ds = e :: es ∧ Spells rest es ∧ out = g.written g' w := by
  obtain ⟨hstart, g, g', w, hw, ht, rfl⟩ := gapPair_eq_some_iff.mp hfound
  have hwhole : p ++ ';' :: t = x ++ (g.name ++ g.blanks ++ ':' ::
      (g.value ++ ';' :: (w ++ (g'.text ++ ';' :: rest)))) := by
    rw [← g.text_append, ← ht, ← List.append_assoc, ← hxy]
    simp
  obtain ⟨hend, rfl⟩ := hp.endsIn hd hstart g.mem_gapNames g.blank g.notMem
    (length_le_of_concat hxy hy) hwhole
  obtain ⟨c, u, hcons, hc, hsemicolon⟩ := g'.exists_cons (';' :: rest)
  rw [hcons] at h
  obtain ⟨q, t, e, es, ht', rfl, hq, hes, hlen⟩ := h.exists_piece hw hc hsemicolon
  have hwhole' : q ++ ';' :: t =
      w ++ (g'.name ++ g'.blanks ++ ':' :: (g'.value ++ ';' :: rest)) := by
    rw [← ht', ← hcons, g'.text_append]
  obtain ⟨hend', rfl⟩ := hq.endsIn (hds e List.mem_cons_self) (apart_semicolon.lastOf hw).word
    g'.mem_gapNames g'.blank g'.notMem hlen hwhole'
  exact ⟨g, g', w, q, e, es, hend, hw, hq, hend', hcons ▸ ht', rfl, hes, rfl⟩

theorem substituteFrom_of_pair (hd : EndsIn p d x g.name g.blanks g.value)
    (he : EndsIn q e w g'.name g'.blanks g'.value) (hxy : p ++ [';'] = x ++ y)
    (hx : gapPair.Passes b x (y ++ (q ++ ';' :: rest)))
    (hfound : gapPair (lastOf b x) (y ++ (q ++ ';' :: rest)) = some (out, rest)) :
    substituteFrom gapPair 0 b (p ++ ';' :: (q ++ ';' :: rest)) =
      x ++ (out ++ substituteFrom gapPair 0 (some ';') rest) := by
  have hsplit : p ++ ';' :: (q ++ ';' :: rest) = p ++ [';'] ++ (q ++ ';' :: rest) := by simp
  have hmatched : y ++ (q ++ ';' :: rest) = g.text ++ ';' :: (w ++ (g'.text ++ [';'])) ++ rest := by
    have hy := hxy
    rw [hd.piece, List.append_assoc] at hy
    rw [← List.append_cancel_left hy, he.piece]
    simp [AxisGap.text]
  have hlast : lastOf (lastOf b x) (g.text ++ ';' :: (w ++ (g'.text ++ [';']))) = some ';' := by
    rw [← List.append_assoc w, lastOf_append_cons, lastOf_concat_semicolon]
  rw [hmatched] at hfound hx
  rw [hsplit, hxy, List.append_assoc, hmatched, hx.substituteFrom,
    substituteFrom_append (by simp) hfound, hlast]

theorem astride_of_passes (hp : Piece p d) (h : Spells t ds) (hpass : gapPair.Passes b (p ++ [';']) t) :
    Astride (p ++ ';' :: t) ↔ Astride t := by
  rw [astride_append_iff hp.no_semicolon]
  refine or_iff_right ?_
  rintro ⟨q, ps, hq, hjoins⟩
  cases h with
  | blank hw =>
    rw [split_eq_singleton hw.no_semicolon] at hq
    exact not_joins_blank_right hw ((List.cons.inj hq).1 ▸ hjoins)
  | skip hw _ =>
    rw [split_append_cons hw.no_semicolon (beq_self_eq_true ';')] at hq
    exact not_joins_blank_right hw ((List.cons.inj hq).1 ▸ hjoins)
  | cons hq' _ =>
    rw [split_append_cons hq'.no_semicolon (beq_self_eq_true ';')] at hq
    obtain rfl := (List.cons.inj hq).1
    exact hjoins.not_passes hp hq' b _ hpass

/-- Of two gaps in a row only the first can be astride. -/
theorem astride_of_pair (hp : Piece p d) (hd : EndsIn p d x g.name g.blanks g.value) (hq : Piece q e)
    (he : EndsIn q e w g'.name g'.blanks g'.value) (hw : Blank w) (t : Text) :
    Astride (p ++ ';' :: (q ++ ';' :: t)) ↔ (¬ Blank x ∧ g.Matches g') ∨ Astride t := by
  have hsplit : split (· == ';') (q ++ ';' :: t) = q :: split (· == ';') t :=
    split_append_cons hq.no_semicolon (beq_self_eq_true ';') t
  have haxis : e.name ∈ axisNames := by
    rw [name, he.property_of_blank hw]
    exact g'.axis
  rw [astride_append_iff hp.no_semicolon, astride_append_iff hq.no_semicolon, hsplit,
    ← joins_iff hp hd hq he hw]
  refine or_congr ⟨?_, fun h => ⟨q, _, rfl, h⟩⟩ (or_iff_right ?_)
  · rintro ⟨q', ps, hq', hjoins⟩
    exact (List.cons.inj hq').1 ▸ hjoins
  · rintro ⟨q', ps, -, hjoins⟩
    exact not_joins_of_axis hq haxis hjoins

theorem exists_merged_of_pair (hp : Piece p d) (hd : EndsIn p d x g.name g.blanks g.value)
    (hq : Piece q e) (he : EndsIn q e w g'.name g'.blanks g'.value) (hw : Blank w) (hu : Spells u es)
    (hm : Merged k ds es) : ∃ l es', Spells (x ++ (g.written g' w ++ u)) es' ∧
      Merged l (d :: e :: ds) es' ∧ (l ≠ 0 ↔ (¬ Blank x ∧ g.Matches g') ∨ k ≠ 0) := by
  have hename : e.name = g'.name.map fold := congrArg (List.map fold) (he.property_of_blank hw)
  have haxis : e.name ∈ axisNames := hename ▸ g'.axis
  by_cases hmatch : g.Matches g'
  · rw [AxisGap.written, if_pos hmatch, ← List.append_assoc]
    rcases hd.place with ⟨hx, hproperty⟩ | ⟨v, y, hv, rfl, hproperty⟩
    · have hdname : d.name = g.name.map fold := congrArg (List.map fold) hproperty
      have hout := hd.spells_gap hp (y := []) hx (by simp) hproperty
      refine ⟨k, ⟨"gap", d.value⟩ :: es, hout.append hu, ?_, by simp [hx]⟩
      refine .join ?_ haxis ?_ (value_eq_of_matches hd he hmatch) hm
      · exact hdname ▸ g.axis
      · rw [hdname, hename]
        exact hmatch.1
    · have hout := hd.spells_gap hp (y := y ++ ['-']) hv rfl (by simp [hproperty])
      have hcut : y ++ ['-'] ++ "gap".toList = y ++ "-gap".toList := List.append_assoc y _ _
      rw [hcut] at hout
      refine ⟨k + 1, ⟨y ++ "-gap", d.value⟩ :: es, hout.append hu, .cut hproperty g.axis haxis hm, ?_⟩
      have hlonger : ¬ Blank (v ++ (y ++ ['-'])) := fun h => absurd (h '-' (by simp)) (by decide)
      simp [hlonger, hmatch]
  · have hout : x ++ (g.written g' w ++ u) = p ++ ';' :: (q ++ ';' :: u) := by
      rw [AxisGap.written, if_neg hmatch, hd.piece, he.piece]
      simp [AxisGap.text]
    rw [hout]
    exact ⟨k, d :: e :: es, .cons hp (.cons hq hu), .keep (.keep hm), by simp [hmatch]⟩

/-- The second pass merges what it recognises, and cuts a longer name exactly where a gap is astride. -/
theorem Spells.substituteFrom_gapPair (h : Spells t ds) (hds : ∀ d ∈ ds, Clear d) :
    ∃ k es, Spells (substituteFrom gapPair 0 b t) es ∧ Merged k ds es ∧ (k ≠ 0 ↔ Astride t) := by
  -- What is recognised takes in two pieces at once, so the induction is on the length of the text.
  induction hlen : t.length using Nat.strongRecOn generalizing b t ds with
  | ind n ih =>
    subst hlen
    cases h with
    | blank hw =>
      rw [startsInNames_gapPair.substituteFrom_blank hw]
      exact ⟨0, [], .blank hw, .nil, by simp [not_astride_blank hw]⟩
    | @skip w t _ hw h =>
      obtain ⟨k, es, hes, hmerged, hk⟩ := ih t.length (by simp; omega) (b := some ';') h hds rfl
      refine ⟨k, es, ?_, hmerged, ?_⟩
      · rw [startsInNames_gapPair.substituteFrom_skip hw]
        exact .skip hw hes
      · rw [hk, astride_append_iff hw.no_semicolon]
        exact (or_iff_right fun ⟨q, ps, _, hjoins⟩ => not_joins_blank_left hw hjoins).symm
    | @cons p t d ds hp h =>
      obtain ⟨hd, hds⟩ := List.forall_mem_cons.mp hds
      have hsplit : p ++ ';' :: t = p ++ [';'] ++ t := by simp
      by_cases hpass : gapPair.Passes b (p ++ [';']) t
      · obtain ⟨k, es, hes, hmerged, hk⟩ := ih t.length (by simp; omega) (b := some ';') h hds rfl
        refine ⟨k, d :: es, ?_, .keep hmerged, hk.trans (astride_of_passes hp h hpass).symm⟩
        rw [hsplit, hpass.substituteFrom, lastOf_concat_semicolon, List.append_assoc]
        exact .cons hp hes
      · obtain ⟨x, y, ⟨out, rest⟩, hxy, hy, hx, hfound⟩ := Recogniser.exists_of_not_passes hpass
        obtain ⟨g, g', w, q, e, es, hend, hw, hq, hend', rfl, rfl, hrest, rfl⟩ :=
          hp.exists_pair hd h hds hxy hy hfound
        obtain ⟨k, es', hes, hmerged, hk⟩ := ih rest.length (by simp; omega) (b := some ';') hrest
          (fun d hd => hds d (List.mem_cons_of_mem e hd)) rfl
        obtain ⟨l, es'', hes', hmerged', hl⟩ := exists_merged_of_pair hp hend hq hend' hw hes hmerged
        refine ⟨l, es'', ?_, hmerged', ?_⟩
        · rw [substituteFrom_of_pair hend hend' hxy hx hfound]
          exact hes'
        · rw [hl, hk, astride_of_pair hp hend hq hend' hw]

end Run

section Kept

def otherLength (ds : List Declaration) : ℕ :=
  ((ds.filter isOther).flatMap (·.property)).length

theorem otherLength_cons (d : Declaration) (ds : List Declaration) :
    otherLength (d :: ds) = (if isOther d = true then d.property.length else 0) + otherLength ds := by
  rw [otherLength, List.filter_cons]
  split_ifs
  · rw [List.flatMap_cons, List.length_append, otherLength]
  · rw [Nat.zero_add, otherLength]

theorem isOther_of_axis (hd : d.name ∈ axisNames) : isOther d = false := by
  rw [← Bool.not_eq_true, isOther_iff, not_not]
  exact axisNames_subset hd

theorem isOther_gap (v : Text) : isOther ⟨"gap", v⟩ = false := rfl

theorem setsGap_gap (n v : Text) : setsGap n ⟨"gap", v⟩ = true :=
  Bool.or_eq_true_iff.mpr (Or.inr rfl)

theorem setsGap_of_axis (hd : d.name ∈ axisNames) : setsGap n d = decide (d.name = n) := by
  have hgap : decide (d.name = "gap".toList) = false := by
    refine decide_eq_false fun he => ?_
    exact absurd (he ▸ hd) (by decide)
  rw [setsGap, hgap, Bool.or_false]

namespace Merged

theorem otherLength_le (h : Merged k ds es) : otherLength es + k ≤ otherLength ds := by
  induction h with
  | nil => exact Nat.le_refl _
  | keep _ ih =>
    rw [otherLength_cons, otherLength_cons]
    omega
  | join hd he _ _ _ ih =>
    rw [otherLength_cons, otherLength_cons, otherLength_cons, isOther_of_axis hd, isOther_of_axis he,
      isOther_gap]
    simpa using ih
  | @cut k d e x name ds es hd hname he _ ih =>
    have hother : isOther d = true := by
      rw [isOther_iff, Declaration.name, hd]
      exact longer_notMem_gapNames hname
    have haxis : ∀ n ∈ axisNames, 7 ≤ n.length := by decide
    have hlong : 7 ≤ name.length := by simpa using haxis _ hname
    have hle : ∀ d : Declaration, (if isOther d = true then d.property.length else 0) ≤
        d.property.length := by
      intro d
      split_ifs <;> omega
    have hcut := hle ⟨x ++ "-gap", d.value⟩
    have hshort : (⟨x ++ "-gap", d.value⟩ : Declaration).property.length = x.length + 4 :=
      List.length_append
    have hlen : d.property.length = x.length + (name.length + 1) := by rw [hd, List.length_append]; rfl
    rw [otherLength_cons, otherLength_cons, otherLength_cons, isOther_of_axis he, if_pos hother, hlen,
      if_neg Bool.false_ne_true]
    omega

theorem filter_eq (h : Merged k ds es) (hk : k = 0) : es.filter isOther = ds.filter isOther := by
  induction h with
  | nil => rfl
  | keep _ ih => rw [List.filter_cons, List.filter_cons, ih hk]
  | join hd he _ _ _ ih =>
    rw [List.filter_cons_of_neg (Bool.eq_false_iff.mp (isOther_gap _)),
      List.filter_cons_of_neg (Bool.eq_false_iff.mp (isOther_of_axis hd)),
      List.filter_cons_of_neg (Bool.eq_false_iff.mp (isOther_of_axis he)), ih hk]
  | cut => exact absurd hk (Nat.succ_ne_zero _)

theorem gap?_eq (h : Merged k ds es) (hk : k = 0) (hn : n ∈ axisNames) : gap? es n = gap? ds n := by
  induction h with
  | nil => rfl
  | keep _ ih => rw [gap?_cons, gap?_cons, ih hk]
  | @join k d e ds es hd he hne hv _ ih =>
    have htwo : ∀ a ∈ axisNames, ∀ b ∈ axisNames, a ≠ b → ∀ n ∈ axisNames, n = a ∨ n = b := by decide
    rw [gap?_cons, gap?_cons, gap?_cons, ih hk, setsGap_gap, setsGap_of_axis hd, setsGap_of_axis he]
    rcases htwo _ hd _ he hne n hn with rfl | rfl
    · simp [Ne.symm hne]
    · simp [hne, hv]
  | cut => exact absurd hk (Nat.succ_ne_zero _)

end Merged

/-- The passes over gaps keep all other declarations of a list, and the gaps that are no bare words, if
and only if the first pass leaves no end of a longer name astride a gap of the other axis. -/
theorem gapPasses_keep_iff {css : Text} (h : list? css = some ds) (hds : ∀ d ∈ ds, Clear d) :
    (∃ es, list? (substitute gapPair (substitute gapWord css)) = some es ∧
      es.filter isOther = ds.filter isOther ∧
      ∀ n ∈ axisNames, (∀ v ∈ gap? ds n, isBareWord v = false) → gap? es n = gap? ds n) ↔
    ¬ Astride (substitute gapWord css) := by
  have hword := (list?_eq_some_iff.mp h).substituteFrom_gapWord hds apart_none
  have hclear : ∀ d ∈ ds.filterMap clean?, Clear d := by
    intro e he
    obtain ⟨d, hd, he⟩ := List.mem_filterMap.mp he
    exact (hds d hd).clean? he
  obtain ⟨k, es, hes, hmerged, hk⟩ := hword.substituteFrom_gapPair (b := none) hclear
  have hlist : list? (substitute gapPair (substitute gapWord css)) = some es := list?_eq_some_iff.mpr hes
  have hother := filter_filterMap_clean? ds
  change (k ≠ 0 ↔ Astride (substitute gapWord css)) at hk
  rw [← not_iff_not.mpr hk, not_not]
  constructor
  · rintro ⟨es', hes', hkeep, -⟩
    obtain rfl := Option.some.inj (hlist.symm.trans hes')
    -- A cut would have made the other names shorter.
    have hlen := hmerged.otherLength_le
    rw [otherLength, otherLength, hkeep, hother] at hlen
    omega
  · intro hk
    refine ⟨es, hlist, (hmerged.filter_eq hk).trans hother, fun n hn hbare => ?_⟩
    exact (hmerged.gap?_eq hk hn).trans (gap?_filterMap_clean? hbare)

def longerNames : Text :=
  "--my-gap:large;gap:large;row-gap:2px;Column-Gap : 2px;--my-row-gap:2px;"

def longerNamesDeclarations : List Declaration :=
  [⟨"--my-gap", "large"⟩, ⟨"gap", "large"⟩, ⟨"row-gap", "2px"⟩, ⟨"Column-Gap", "2px"⟩,
    ⟨"--my-row-gap", "2px"⟩]

theorem gapPasses_keep_longerNames : list? longerNames = some longerNamesDeclarations ∧
    (∀ d ∈ longerNamesDeclarations, Clear d) ∧ ¬ Astride (substitute gapWord longerNames) := by
  have hlist : list? longerNames = some longerNamesDeclarations := by decide +kernel
  have hletters : ∀ d ∈ longerNamesDeclarations, (∀ c ∈ d.property, c = '-' ∨ isWordChar c = true) ∧
      ¬ "gap:".toList <:+: (words d.value).flatten.map fold := by decide +kernel
  have hclear : ∀ d ∈ longerNamesDeclarations, Clear d := fun d hd =>
    clear_of_letters (hletters d hd).1 (hletters d hd).2
  refine ⟨hlist, hclear, (gapPasses_keep_iff hlist hclear).mp ⟨[⟨"--my-gap", "large"⟩,
    ⟨"gap", "2px"⟩, ⟨"--my-row-gap", "2px"⟩], ?_, ?_, ?_⟩⟩
  · decide +kernel
  · decide +kernel
  · decide +kernel

/-- In front of a column gap the end of a longer name is taken for a row gap. -/
theorem gapPasses_cut_longer_name :
    let css : Text := "--my-row-gap: 1px; column-gap: 1px;"
    let ds : List Declaration := [⟨"--my-row-gap", "1px"⟩, ⟨"column-gap", "1px"⟩]
    let es : List Declaration := [⟨"--my-gap", "1px"⟩]
    list? css = some ds ∧ replaceVariables css = "--my-gap: 1px;".toList ∧
      list? (substitute gapPair (substitute gapWord css)) = some es ∧
      es.filter isOther ≠ ds.filter isOther ∧
      gap? ds "column-gap" = some "1px".toList ∧ gap? es "column-gap" = none := by
  decide +kernel

end Kept

end Restyle.Declaration
