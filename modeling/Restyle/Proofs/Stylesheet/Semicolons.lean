import Restyle.Proofs.Stylesheet.Chunk
import Restyle.Proofs.Stylesheet.Pending

/-! # Semicolons behind declarations

White space may stand in front of the semicolon that ends a declaration. Where a
declaration may end it makes no difference how many semicolons stand in a row. So
a text whose runs all stand there is read alike when they are squeezed.
-/

namespace Restyle

open Text Lexeme

namespace Text

variable {t x y part : Text}

theorem squeezeSemicolons_append_cons (x y : Text) :
    squeezeSemicolons (x ++ ';' :: ';' :: y) = squeezeSemicolons (x ++ ';' :: y) := by
  have hbehind : ∀ inRun, squeeze (· == ';') ';' inRun (x ++ ';' :: ';' :: y) =
      squeeze (· == ';') ';' inRun (x ++ ';' :: y) := by
    induction x with
    | nil => exact fun inRun => by simp [squeeze]
    | cons c x ih =>
      intro inRun
      simp only [List.cons_append, squeeze, ih]
  exact hbehind false

theorem squeezeSemicolons_eq_self (h : ∀ x y, t ≠ x ++ ';' :: ';' :: y) : squeezeSemicolons t = t := by
  have hsqueeze : ∀ inRun, (inRun = true → t.head? ≠ some ';') →
      squeeze (· == ';') ';' inRun t = t := by
    induction t with
    | nil => exact fun _ _ => rfl
    | cons c t ih =>
      intro inRun hrun
      have ht : ∀ x y, t ≠ x ++ ';' :: ';' :: y := by
        rintro x y rfl
        exact h (c :: x) y rfl
      by_cases hc : c = ';'
      · subst hc
        have hfalse : inRun = false := by
          by_contra hrun'
          exact hrun (by simpa using hrun') rfl
        have hhead : t.head? ≠ some ';' := by
          intro hhead
          obtain ⟨t, rfl⟩ := List.head?_eq_some_iff.mp hhead
          exact h [] t rfl
        rw [squeeze, if_pos (beq_self_eq_true ';'), hfalse, ih ht true fun _ => hhead]
        rfl
      · rw [squeeze, if_neg (by simpa using hc), ih ht false (by simp)]
  exact hsqueeze false (by simp)

/-- Of a run all semicolons but one can be left out one by one. -/
theorem squeezeSemicolons_induction {p : Text → Prop} (hone : ∀ t, (∀ x y, t ≠ x ++ ';' :: ';' :: y) → p t)
    (hstep : ∀ x y, p (x ++ ';' :: y) → p (x ++ ';' :: ';' :: y)) (t : Text) : p t := by
  induction hlen : t.length using Nat.strong_induction_on generalizing t with
  | h n ih =>
    by_cases h : ∃ x y, t = x ++ ';' :: ';' :: y
    · obtain ⟨x, y, rfl⟩ := h
      exact hstep x y (ih _ (by simp [← hlen]) _ rfl)
    · exact hone t fun x y he => h ⟨x, y, he⟩

theorem contains_squeezeSemicolons (hne : part ≠ []) (hpart : ';' ∉ part) (t : Text) :
    contains (squeezeSemicolons t) part = contains t part := by
  induction t using squeezeSemicolons_induction with
  | hone t h => rw [squeezeSemicolons_eq_self h]
  | hstep x y ih =>
    rw [squeezeSemicolons_append_cons, ih, contains_append_cons hne hpart, contains_append_cons hne hpart,
      contains_cons_of_notMem hne hpart]

end Text

theorem Yields.declaration_between {t w : Text} (h : Chunk t) (hw : Blank w) :
    Yields [.declaration t] (t ++ w ++ ";") := by
  have hscan : scan (t ++ w ++ ";") = scan t ++ (w.map .plain ++ [.plain ';']) := by
    have hsemicolon : scan ";" = [.plain ';'] := by rfl
    have hhead : (w ++ ";").head? ≠ some '*' := by
      rcases w with _ | ⟨c, w⟩
      · decide
      · rintro hc
        obtain rfl := Option.some.inj hc
        exact absurd (hw _ List.mem_cons_self) (by decide)
    rw [List.append_assoc, scan_append (h.apart hhead), scan_blank_append hw, hsemicolon]
  have htrim : trim (t ++ w) = t := by
    rw [trim_append_blank _ hw, h.trimmed.trim_eq]
  refine ⟨fun l hl => ?_, fun outer nodes => ?_⟩
  · rw [hscan, ← List.append_assoc, List.getLast?_concat] at hl
    obtain rfl := Option.some.inj hl
    rfl
  · have hne : t.reverse ≠ [] := by simp [h.ne_nil]
    rw [hscan, Draft.read_append, h.read, Draft.read_append, Draft.read_blank hw, if_neg hne]
    simp [Draft.read, Draft.step, Draft.closeDeclaration, Draft.flushed, Draft.add, htrim, h.ne_nil]

namespace Snippet

variable {t u x y : Text}

/-- Two texts that are read alike, whatever follows. -/
structure Alike (t u : Text) : Prop where
  read : ({} : Draft).read (scan t) = ({} : Draft).read (scan u)
  last : (scan t).getLast? = (scan u).getLast?

theorem Alike.trans {s : Text} (h : Alike s t) (h' : Alike t u) : Alike s u :=
  ⟨h.read.trans h'.read, h.last.trans h'.last⟩

theorem Alike.ending (h : Alike t u) (ht : Ending t) : Ending u :=
  ⟨h.last ▸ ht.closed, h.read ▸ ht.depth⟩

theorem Alike.pending (h : Alike t u) (ht : Pending t) : Pending u :=
  ⟨h.ending ht.toEnding, h.read ▸ ht.outer⟩

theorem Alike.ofText_eq (h : Alike t u) : Node.ofText t = Node.ofText u := by
  rw [Node.ofText_eq_finish, h.read, Node.ofText_eq_finish]

/-- Where a declaration may end, a semicolon ends what the one in front of it has ended. -/
theorem Ending.alike (h : Ending x) (y : Text) : Alike (x ++ ';' :: ';' :: y) (x ++ ';' :: y) := by
  have hone : ∀ z, scan (';' :: z) = .plain ';' :: scan z := fun z => scan_eq_plain (by simp) (by decide)
  have hscan : ∀ z, scan (x ++ ';' :: z) = scan x ++ .plain ';' :: scan z := by
    intro z
    rw [scan_append fun l hl => ⟨h.closed l hl, by simp⟩, hone]
  have hend : ∀ d : Draft, d.depth = 0 → d.step (.plain ';') = d.closeDeclaration :=
    fun d hd => if_pos ⟨rfl, hd⟩
  have htwice : ∀ d : Draft, d.depth = 0 → d.closeDeclaration.step (.plain ';') = d.closeDeclaration :=
    fun d hd => hend d.closeDeclaration hd
  have hread : ∀ (d : Draft) l ls, d.read (l :: ls) = (d.step l).read ls := fun _ _ _ => rfl
  constructor
  · rw [hscan, hscan, hone, Draft.read_append, Draft.read_append, hread, hread, hread, hend _ h.depth,
      htwice _ h.depth]
  · rw [hscan, hscan, hone]
    simp [List.getLast?_append, List.getLast?_cons]

/-- Semicolons stand in a row only where a declaration may end. -/
def Squeezable (t : Text) : Prop :=
  ∀ x y, t = x ++ ';' :: ';' :: y → Ending x

instance (t : Text) : Decidable (Squeezable t) :=
  decidable_of_iff (∀ n ∈ List.range t.length, startsWith (t.drop n) ";;" = true → Ending (t.take n)) <| by
    constructor
    · rintro h x y rfl
      have hx := h x.length (by simp) (by simp [startsWith])
      rwa [List.take_left] at hx
    · intro h n _ hstart
      obtain ⟨y, hy⟩ := List.isPrefixOf_iff_prefix.mp hstart
      refine h (t.take n) y ?_
      conv_lhs => rw [← List.take_append_drop n t, ← hy]
      rfl

theorem Squeezable.of_append (h : Squeezable (x ++ ';' :: ';' :: y)) : Squeezable (x ++ ';' :: y) := by
  have hx : Ending x := h x y rfl
  intro x' y' he
  rcases List.append_eq_append_iff.mp he with ⟨z, rfl, hz⟩ | ⟨z, rfl, hz⟩
  · rcases z with _ | ⟨c, z⟩
    · rwa [List.append_nil]
    · obtain ⟨rfl, rfl⟩ := List.cons.inj hz
      exact (hx.alike z).ending (h (x ++ ';' :: ';' :: z) y' (by simp))
  · rcases z with _ | ⟨c, _ | ⟨c', z⟩⟩
    · rwa [List.append_nil] at hx
    · obtain ⟨rfl, -⟩ := List.cons.inj hz
      exact h x' (';' :: y) (by simp)
    · obtain ⟨hc, hz⟩ := List.cons.inj hz
      obtain ⟨hc', -⟩ := List.cons.inj hz
      subst hc hc'
      exact h x' (z ++ ';' :: ';' :: y) (by simp)

theorem Squeezable.alike (h : Squeezable t) : Alike t (squeezeSemicolons t) := by
  induction t using squeezeSemicolons_induction with
  | hone t hone =>
    rw [squeezeSemicolons_eq_self hone]
    exact ⟨rfl, rfl⟩
  | hstep x y ih =>
    rw [squeezeSemicolons_append_cons]
    exact ((h x y rfl).alike y).trans (ih h.of_append)

theorem Closed.squeezable_of_append (ht : Closed t) (h : Squeezable (t ++ u)) : Squeezable u := by
  rintro x y rfl
  exact ht.ending_of_append (h (t ++ x) y (by simp))

theorem Closed.squeezable_append (ht : Closed t) (hsqueezable : Squeezable t) (hu : Squeezable u) :
    Squeezable (t ++ u) := by
  intro x y he
  rcases List.append_eq_append_iff.mp he with ⟨z, rfl, hz⟩ | ⟨z, rfl, hz⟩
  · exact ht.ending_append (hu z y hz)
  · rcases z with _ | ⟨c, _ | ⟨c', z⟩⟩
    · rw [List.append_nil] at ht
      exact ht.pending.toEnding
    · obtain ⟨rfl, -⟩ := List.cons.inj hz
      exact ht.ending_of_semicolon
    · obtain ⟨hc, hz⟩ := List.cons.inj hz
      obtain ⟨hc', -⟩ := List.cons.inj hz
      subst hc hc'
      exact hsqueezable x z (by simp)

theorem Squeezable.of_append_left (h : Squeezable (t ++ u)) : Squeezable t := by
  rintro x y rfl
  exact h x (y ++ u) (by simp)

end Snippet

end Restyle
