import Restyle.Declaration.Quad
import Restyle.Proofs.Declaration.PhysicalName
import Restyle.Proofs.Stylesheet.Tidying
import Restyle.Proofs.Text.Words

/-! # Lists of declarations

A text without braces is a list of declarations if semicolons end all of its
pieces that are not white space, each of them a word, a colon and some words.
Squeezing and trimming such a text, and what takes declarations out of it,
leave such texts.
-/

namespace Restyle

theorem Text.Blank.no_semicolon {w : Text} (hw : Text.Blank w) : ∀ c ∈ w, (c == ';') = false :=
  fun _ hc => beq_false_of_ne (hw.ne_of_mem hc (by decide))

namespace Declaration

open Text

/-- A declaration in a piece of a list; of white space in its value no more counts than that there is
some. -/
def ofPiece? (p : Text) : Option Declaration :=
  match cut? (· == ':') p with
  | none => none
  | some (u, v) => match words u with
    | [property] => if Blank v then none else some ⟨property, spaced v⟩
    | _ => none

def ofPieces? : List Text → Option (List Declaration)
  | [] => none
  | [w] => if Blank w then some [] else none
  | p :: q :: ps =>
    if Blank p then ofPieces? (q :: ps)
    else (ofPiece? p).bind fun d => (ofPieces? (q :: ps)).map (d :: ·)

def list? (css : Text) : Option (List Declaration) :=
  if ∀ c ∈ css, c ∉ ['{', '}'] then ofPieces? (split (· == ';') css) else none

/-- The name of the property, whatever the case of its letters. -/
def name (d : Declaration) : Text :=
  d.property.map fold

/-- The value that the first declaration of a property gives it. -/
def first? (ds : List Declaration) (n : Text) : Option Text :=
  (ds.find? (·.name = n)).map (·.value)

structure Piece (p : Text) (d : Declaration) : Prop where
  reads : ofPiece? p = some d
  free : ∀ c ∈ p, c ∉ [';', '{', '}']

/-- A text that is a list of declarations. -/
inductive Spells : Text → List Declaration → Prop
  | blank {w : Text} (hw : Blank w) : Spells w []
  | skip {w t : Text} {ds : List Declaration} (hw : Blank w) (h : Spells t ds) :
      Spells (w ++ ';' :: t) ds
  | cons {p t : Text} {d : Declaration} {ds : List Declaration} (hp : Piece p d) (h : Spells t ds) :
      Spells (p ++ ';' :: t) (d :: ds)

variable {c : Char} {t u v w p q rest n : Text} {d : Declaration} {ds es : List Declaration}

theorem ofPiece?_eq_some_iff : ofPiece? p = some d ↔ ∃ u v, p = u ++ ':' :: v ∧ ':' ∉ u ∧
    words u = [d.property] ∧ ¬ Blank v ∧ d.value = spaced v := by
  constructor
  · intro h
    unfold ofPiece? at h
    rcases hcut : cut? (· == ':') p with _ | ⟨u, v⟩ <;> rw [hcut] at h
    · exact absurd h (by simp)
    · obtain ⟨c, rfl, hc, hu⟩ := cut?_eq_some hcut
      obtain rfl : c = ':' := by simpa using hc
      have hcolon : ':' ∉ u := fun hm => by simpa using hu ':' hm
      dsimp only at h
      split at h
      · split_ifs at h with hv
        obtain rfl := Option.some.inj h
        exact ⟨u, v, rfl, hcolon, ‹_›, hv, rfl⟩
      · exact absurd h (by simp)
  · rintro ⟨u, v, rfl, hcolon, hu, hv, hvalue⟩
    have hfree : ∀ c ∈ u, (c == ':') = false := fun c hc =>
      beq_false_of_ne fun he => hcolon (he ▸ hc)
    rw [ofPiece?, cut?_append hfree (beq_self_eq_true ':')]
    dsimp only
    rw [hu]
    dsimp only
    rw [if_neg hv, ← hvalue]

namespace Piece

theorem not_blank (hp : Piece p d) : ¬ Blank p := by
  obtain ⟨u, v, rfl, -⟩ := ofPiece?_eq_some_iff.mp hp.reads
  intro h
  exact h.ne_of_mem (List.mem_append_right u List.mem_cons_self) (by decide : isBlank ':' = false) rfl

theorem value_ne_nil (hp : Piece p d) : d.value ≠ [] := by
  obtain ⟨u, v, -, -, -, hv, hvalue⟩ := ofPiece?_eq_some_iff.mp hp.reads
  rw [hvalue, ne_eq, spaced_eq_nil_iff]
  exact hv

theorem no_semicolon (hp : Piece p d) : ∀ c ∈ p, (c == ';') = false := by
  intro c hc
  have hfree := hp.free c hc
  simp only [List.mem_cons, not_or] at hfree
  exact beq_false_of_ne hfree.1

theorem blank_append (hp : Piece p d) (hw : Blank w) : Piece (w ++ p) d := by
  obtain ⟨u, v, rfl, hcolon, hu, hv⟩ := ofPiece?_eq_some_iff.mp hp.reads
  refine ⟨ofPiece?_eq_some_iff.mpr ⟨w ++ u, v, (List.append_assoc w u _).symm, ?_, ?_, hv⟩, ?_⟩
  · intro hc
    refine (List.mem_append.mp hc).elim (fun hc => ?_) hcolon
    exact hw.ne_of_mem hc (by decide : isBlank ':' = false) rfl
  · rw [words_blank_append hw, hu]
  · intro c hc
    exact (List.mem_append.mp hc).elim (fun hc => hw.notMem hc (by decide)) (hp.free c)

theorem trimStart (hp : Piece p d) : Piece (trimStart p) d := by
  obtain ⟨u, v, rfl, hcolon, hu, hv⟩ := ofPiece?_eq_some_iff.mp hp.reads
  obtain ⟨w, w', hw, hw', rfl, hproperty⟩ := words_eq_singleton_iff.mp hu
  obtain ⟨c, property, hcons⟩ := List.exists_cons_of_ne_nil hproperty.ne_nil
  have hvisible : isBlank c = false := hproperty.visible c (hcons ▸ List.mem_cons_self)
  have htrim : Text.trimStart (w ++ d.property ++ w' ++ ':' :: v) = d.property ++ w' ++ ':' :: v := by
    rw [List.append_assoc, List.append_assoc, trimStart_append hw, hcons, List.append_assoc]
    exact trimStart_cons_of_not_blank hvisible _
  rw [htrim]
  refine ⟨ofPiece?_eq_some_iff.mpr ⟨d.property ++ w', v, rfl, ?_, ?_, hv⟩, fun c hc => hp.free c ?_⟩
  · exact fun hc => hcolon (by simpa using Or.inr (List.mem_append.mp hc))
  · rw [words_append_blank _ hw', hproperty.words_eq]
  · rw [List.append_assoc, List.append_assoc]
    exact List.mem_append_right w (by rwa [← List.append_assoc])

theorem squeezeBlanks (hp : Piece p d) : Piece (squeezeBlanks p) d := by
  have hmem : ∀ t, ∀ c ∈ Text.squeezeBlanks t, c ∈ t ∨ c = ' ' := fun t c => mem_squeeze
  obtain ⟨u, v, rfl, hcolon, hu, hv, hvalue⟩ := ofPiece?_eq_some_iff.mp hp.reads
  refine ⟨ofPiece?_eq_some_iff.mpr ⟨Text.squeezeBlanks u, Text.squeezeBlanks v,
    squeeze_append_cons (by decide) _ _ u v, ?_, ?_, ?_, ?_⟩, ?_⟩
  · exact fun hc => (hmem u _ hc).elim hcolon (by decide)
  · rw [words_squeezeBlanks, hu]
  · rwa [← words_eq_nil_iff, words_squeezeBlanks, words_eq_nil_iff]
  · rw [hvalue, spaced, spaced, words_squeezeBlanks]
  · intro c hc
    rcases hmem _ c hc with hc | rfl
    · exact hp.free c hc
    · decide

end Piece

namespace Spells

theorem semicolon (h : Spells t ds) : Spells (';' :: t) ds :=
  .skip .nil h

theorem blank_append (h : Spells t ds) (hw : Blank w) : Spells (w ++ t) ds := by
  cases h with
  | blank hw' => exact .blank (hw.append hw')
  | skip hw' h =>
    rw [← List.append_assoc]
    exact .skip (hw.append hw') h
  | cons hp h =>
    rw [← List.append_assoc]
    exact .cons (hp.blank_append hw) h

theorem append (ht : Spells t ds) (hu : Spells u es) : Spells (t ++ u) (ds ++ es) := by
  induction ht with
  | blank hw => exact hu.blank_append hw
  | skip hw _ ih =>
    rw [List.append_assoc, List.cons_append]
    exact .skip hw ih
  | cons hp _ ih =>
    rw [List.append_assoc, List.cons_append]
    exact .cons hp ih

theorem trimStart (h : Spells t ds) : Spells (trimStart t) ds := by
  cases h with
  | blank hw =>
    rw [trimStart_eq_nil hw]
    exact .blank .nil
  | skip hw h =>
    rw [trimStart_append hw, trimStart_cons_of_not_blank (by decide)]
    exact h.semicolon
  | @cons p t d ds hp h =>
    have htrim : Text.trimStart (p ++ ';' :: t) = Text.trimStart p ++ ';' :: t := by
      rw [Text.trimStart, List.dropWhile_append, ← Text.trimStart, if_neg]
      intro hnil
      exact hp.not_blank (List.dropWhile_eq_nil_iff.mp (List.isEmpty_iff.mp hnil))
    rw [htrim]
    exact .cons hp.trimStart h

theorem trimEnd (h : Spells t ds) : Spells (trimEnd t) ds := by
  have hvisible : isBlank ';' = false := by decide
  induction h with
  | blank hw =>
    rw [trimEnd_eq_nil_iff.mpr hw]
    exact .blank .nil
  | skip hw _ ih =>
    rw [trimEnd_append_cons hvisible]
    exact .skip hw ih
  | cons hp _ ih =>
    rw [trimEnd_append_cons hvisible]
    exact .cons hp ih

theorem trim (h : Spells t ds) : Spells (trim t) ds :=
  h.trimStart.trimEnd

theorem squeezeBlanks (h : Spells t ds) : Spells (squeezeBlanks t) ds := by
  have hcut : ∀ u t : Text, Text.squeezeBlanks (u ++ ';' :: t) =
      Text.squeezeBlanks u ++ ';' :: Text.squeezeBlanks t :=
    squeeze_append_cons (by decide) ' ' false
  have hblank : ∀ {w : Text}, Blank w → Blank (Text.squeezeBlanks w) := by
    intro w hw
    rw [← words_eq_nil_iff, words_squeezeBlanks, words_eq_nil hw]
  induction h with
  | blank hw => exact .blank (hblank hw)
  | skip hw _ ih =>
    rw [hcut]
    exact .skip (hblank hw) ih
  | cons hp _ ih =>
    rw [hcut]
    exact .cons hp.squeezeBlanks ih

theorem squeezeSemicolons (h : Spells t ds) : Spells (squeezeSemicolons t) ds := by
  suffices hsqueeze : ∀ inRun, Spells (squeeze (· == ';') ';' inRun t) ds from hsqueeze false
  induction h with
  | blank hw =>
    intro inRun
    rw [squeeze_of_forall hw.no_semicolon]
    exact .blank hw
  | @skip w t ds hw _ ih =>
    intro inRun
    rcases eq_or_ne w [] with rfl | hne
    · rw [List.nil_append, squeeze, if_pos (beq_self_eq_true ';')]
      cases inRun with
      | true => exact ih true
      | false => exact (ih true).semicolon
    · rw [squeeze_append_of_forall hw.no_semicolon hne, squeeze, if_pos (beq_self_eq_true ';')]
      exact .skip hw (ih true)
  | @cons p t d ds hp _ ih =>
    intro inRun
    have hne : p ≠ [] := by
      rintro rfl
      exact hp.not_blank .nil
    rw [squeeze_append_of_forall hp.no_semicolon hne, squeeze, if_pos (beq_self_eq_true ';')]
    exact .cons hp (ih true)

theorem dropSemicolons (h : Spells t ds) : Spells (t.dropWhile (· == ';')) ds := by
  induction h with
  | @blank w hw =>
    exact .blank fun c hc => hw c (List.dropWhile_subset _ hc)
  | @skip w t ds hw h ih =>
    rcases w with _ | ⟨c, w⟩
    · exact ih
    · have hc := (hw.ne_of_mem List.mem_cons_self (by decide : isBlank ';' = false))
      rw [List.cons_append, List.dropWhile_cons_of_neg (by simpa using hc)]
      exact .skip hw h
  | @cons p t d ds hp h _ =>
    rcases p with _ | ⟨c, p⟩
    · exact absurd .nil hp.not_blank
    · have hc := hp.no_semicolon c List.mem_cons_self
      rw [List.cons_append, List.dropWhile_cons_of_neg (by simp [hc])]
      exact .cons hp h

theorem text (hword : IsToken d.property) (hcolon : ':' ∉ d.property)
    (hvalue : ¬ Blank d.value) (hfree : ∀ c ∈ d.property ++ d.value, c ∉ [';', '{', '}']) :
    Spells d.text [⟨d.property, spaced d.value⟩] := by
  have hpiece : Piece (d.property ++ ':' :: ' ' :: d.value) ⟨d.property, spaced d.value⟩ := by
    refine ⟨ofPiece?_eq_some_iff.mpr ⟨d.property, ' ' :: d.value, rfl, hcolon, hword.words_eq, ?_, ?_⟩,
      ?_⟩
    · exact fun h => hvalue (blank_cons.mp h).2
    · rw [spaced, spaced, words_cons_of_blank (by decide)]
    · intro c hc
      simp only [List.mem_append, List.mem_cons] at hc
      rcases hc with hc | rfl | rfl | hc
      · exact hfree c (List.mem_append_left _ hc)
      · decide
      · decide
      · exact hfree c (List.mem_append_right _ hc)
  have htext : d.text = d.property ++ ':' :: ' ' :: d.value ++ ';' :: [] := by simp [Declaration.text]
  rw [htext]
  exact .cons hpiece (.blank .nil)

theorem value_ne_nil (h : Spells t ds) : ∀ d ∈ ds, d.value ≠ [] := by
  induction h with
  | blank hw => exact fun d hd => absurd hd List.not_mem_nil
  | skip _ _ ih => exact ih
  | cons hp _ ih => exact List.forall_mem_cons.mpr ⟨hp.value_ne_nil, ih⟩

end Spells

theorem Spells.free (h : Spells t ds) : ∀ c ∈ t, c ∉ ['{', '}'] := by
  have hcut : ∀ {u t : Text}, (∀ c ∈ u, c ∉ ['{', '}']) → (∀ c ∈ t, c ∉ ['{', '}']) →
      ∀ c ∈ u ++ ';' :: t, c ∉ ['{', '}'] := by
    intro u t hu ht c hc
    rcases List.mem_append.mp hc with hc | hc
    · exact hu c hc
    · exact (List.forall_mem_cons (p := fun c => c ∉ ['{', '}']).mpr ⟨by decide, ht⟩) c hc
  induction h with
  | blank hw => exact fun c hc => hw.notMem hc (by decide)
  | skip hw _ ih => exact hcut (fun c hc => hw.notMem hc (by decide)) ih
  | cons hp _ ih => exact hcut (fun c hc => (not_or.mp (mt List.mem_cons.mpr (hp.free c hc))).2) ih

theorem list?_eq_some_iff : list? t = some ds ↔ Spells t ds := by
  constructor
  · intro h
    unfold list? at h
    split_ifs at h with hfree
    induction t using piece_induction (· == ';') generalizing ds with
    | piece t ht =>
      rw [split_eq_singleton ht, ofPieces?] at h
      split_ifs at h with hblank
      obtain rfl := Option.some.inj h
      exact .blank hblank
    | cut p c t hp hc ih =>
      obtain rfl : c = ';' := by simpa using hc
      have htail : ∀ c ∈ t, c ∉ ['{', '}'] := fun c hc =>
        hfree c (List.mem_append_right p (List.mem_cons_of_mem _ hc))
      obtain ⟨q, ps, hsplit⟩ := List.exists_cons_of_ne_nil (split_ne_nil (· == ';') t)
      rw [split_append_cons hp hc, hsplit, ofPieces?, ← hsplit] at h
      split_ifs at h with hblank
      · exact .skip hblank (ih htail h)
      · obtain ⟨d, hd, h⟩ := Option.bind_eq_some_iff.mp h
        obtain ⟨es, hes, rfl⟩ := Option.map_eq_some_iff.mp h
        refine .cons ⟨hd, fun c hc => ?_⟩ (ih htail hes)
        have hbrace := hfree c (List.mem_append_left _ hc)
        have hne : c ≠ ';' := by simpa using hp c hc
        exact fun hm => (List.mem_cons.mp hm).elim hne hbrace
  · intro h
    rw [list?, if_pos h.free]
    induction h with
    | blank hw =>
      rw [split_eq_singleton hw.no_semicolon, ofPieces?, if_pos hw]
    | @skip w t ds hw _ ih =>
      obtain ⟨q, ps, hsplit⟩ := List.exists_cons_of_ne_nil (split_ne_nil (· == ';') t)
      rw [split_append_cons hw.no_semicolon (beq_self_eq_true ';'), hsplit, ofPieces?, if_pos hw, ← hsplit, ih]
    | @cons p t d ds hp _ ih =>
      obtain ⟨q, ps, hsplit⟩ := List.exists_cons_of_ne_nil (split_ne_nil (· == ';') t)
      rw [split_append_cons hp.no_semicolon (beq_self_eq_true ';'), hsplit, ofPieces?,
        if_neg hp.not_blank, ← hsplit, ih, hp.reads]
      rfl

end Declaration

end Restyle
