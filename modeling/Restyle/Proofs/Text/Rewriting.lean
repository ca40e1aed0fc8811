import Restyle.Proofs.Text.Substitution

/-! # Rewriting a text by a grammar

A grammar says which texts are replaced, and by what. A substitution whose
recogniser reads the grammar replaces all texts of the grammar at once, from
left to right. Substitutions by grammars of parentheses that leave alone what
the other ones have written come to the same as one substitution by all of them.
-/

namespace Restyle.Text

abbrev Grammar := Text → Text → Prop

variable {P Q : Grammar} {r : Recogniser Text} {t u v w f out rest : Text} {c : Char}

namespace Grammar

def Opens (P : Grammar) (t : Text) : Prop :=
  ∃ f out rest, P f out ∧ t = f ++ rest

def or (P Q : Grammar) : Grammar :=
  fun f out => P f out ∨ Q f out

/-- A text, and what it becomes where each text of the grammar in it is replaced, the first ones
first. -/
inductive AtOnce (P : Grammar) : Text → Text → Prop
  | nil : P.AtOnce [] []
  | keep {c : Char} {t u : Text} (hc : ¬ P.Opens (c :: t)) (h : P.AtOnce t u) :
      P.AtOnce (c :: t) (c :: u)
  | write {f out t u : Text} (hf : P f out) (h : P.AtOnce t u) : P.AtOnce (f ++ t) (out ++ u)

/-- Each text of the grammar and what replaces it begins with a parenthesis, and the text opens no
other one. -/
structure Bracketed (P : Grammar) : Prop where
  source : ∀ f out, P f out → ∃ inner, f = '(' :: inner ∧ '(' ∉ inner
  target : ∀ f out, P f out → out.head? = some '('

/-- No text of the second grammar begins inside of what the first one writes. -/
def LeftAloneBy (P Q : Grammar) : Prop :=
  ∀ f out, P f out → ∀ x y, out = x ++ y → y ≠ [] → ∀ rest, ¬ Q.Opens (y ++ rest)

end Grammar

/-- A recogniser finds a beginning exactly if it is a text of the grammar, none of which is empty. -/
structure Recogniser.Reads (r : Recogniser Text) (P : Grammar) : Prop where
  forward : r.Forward
  ne_nil : ∀ f out, P f out → f ≠ []
  eq_some_iff : ∀ t out rest, r none t = some (out, rest) ↔ ∃ f, t = f ++ rest ∧ P f out

namespace Recogniser.Reads

theorem eq_none_iff (hr : r.Reads P) : r none t = none ↔ ¬ P.Opens t := by
  rw [Option.eq_none_iff_forall_ne_some]
  constructor
  · rintro h ⟨f, out, rest, hf, he⟩
    exact h (out, rest) ((hr.eq_some_iff t out rest).mpr ⟨f, he, hf⟩)
  · rintro h ⟨out, rest⟩ hsome
    obtain ⟨f, he, hf⟩ := (hr.eq_some_iff t out rest).mp hsome
    exact h ⟨f, out, rest, hf, he⟩

theorem substitute_of_not_opens (hr : r.Reads P) (h : ¬ P.Opens (c :: t)) :
    substitute r (c :: t) = c :: substitute r t :=
  substitute_cons hr.forward (hr.eq_none_iff.mpr h)

theorem substitute_append (hr : r.Reads P) (hf : P f out) (t : Text) :
    substitute r (f ++ t) = out ++ substitute r t :=
  Text.substitute_append hr.forward (hr.ne_nil f out hf)
    ((hr.eq_some_iff (f ++ t) out t).mpr ⟨f, rfl, hf⟩)

theorem atOnce_substitute (hr : r.Reads P) (t : Text) : P.AtOnce t (substitute r t) := by
  -- The rest behind a text of the grammar is shorter than the whole, but not by one character.
  induction hn : t.length using Nat.strongRecOn generalizing t with
  | ind n ih =>
    by_cases hopens : P.Opens t
    · obtain ⟨f, out, rest, hf, rfl⟩ := hopens
      have hpos := List.length_pos_iff.mpr (hr.ne_nil f out hf)
      rw [hr.substitute_append hf]
      exact .write hf (ih rest.length (by rw [← hn, List.length_append]; omega) rest rfl)
    · rcases t with _ | ⟨c, t⟩
      · exact .nil
      · rw [hr.substitute_of_not_opens hopens]
        exact .keep hopens (ih t.length (by rw [← hn]; exact Nat.lt_succ_self _) t rfl)

/-- Substitution is the rewriting at once, and there is no other one. -/
theorem atOnce_iff (hr : r.Reads P) : P.AtOnce t u ↔ substitute r t = u := by
  constructor
  · intro h
    induction h with
    | nil => rfl
    | keep hc h ih => rw [hr.substitute_of_not_opens hc, ih]
    | write hf h ih => rw [hr.substitute_append hf, ih]
  · rintro rfl
    exact hr.atOnce_substitute t

/-- What no text of the grammar begins in stays in front of anything. -/
theorem substitute_left (hr : r.Reads P)
    (hw : ∀ x y, w = x ++ y → y ≠ [] → ¬ P.Opens (y ++ t)) :
    substitute r (w ++ t) = w ++ substitute r t := by
  induction w with
  | nil => rfl
  | cons c w ih =>
    have hfirst := hw [] (c :: w) rfl (List.cons_ne_nil c w)
    rw [List.cons_append] at hfirst ⊢
    rw [hr.substitute_of_not_opens hfirst, ih fun x y hxy => hw (c :: x) y (congrArg (c :: ·) hxy),
      List.cons_append]

end Recogniser.Reads

namespace Grammar

theorem opens_or_iff : (P.or Q).Opens t ↔ P.Opens t ∨ Q.Opens t := by
  constructor
  · rintro ⟨f, out, rest, hf | hf, he⟩
    · exact Or.inl ⟨f, out, rest, hf, he⟩
    · exact Or.inr ⟨f, out, rest, hf, he⟩
  · rintro (⟨f, out, rest, hf, he⟩ | ⟨f, out, rest, hf, he⟩)
    · exact ⟨f, out, rest, Or.inl hf, he⟩
    · exact ⟨f, out, rest, Or.inr hf, he⟩

theorem Bracketed.mono (h : ∀ f out, P f out → Q f out) (hQ : Q.Bracketed) : P.Bracketed where
  source f out hf := hQ.source f out (h f out hf)
  target f out hf := hQ.target f out (h f out hf)

theorem LeftAloneBy.mono {P' Q' : Grammar} (h : ∀ f out, P f out → P' f out)
    (h' : ∀ f out, Q f out → Q' f out) (hleft : P'.LeftAloneBy Q') : P.LeftAloneBy Q := by
  rintro f out hf x y hxy hy rest ⟨g, out', rest', hg, he⟩
  exact hleft f out (h f out hf) x y hxy hy rest ⟨g, out', rest', h' g out' hg, he⟩

namespace AtOnce

theorem of_append (hP : P.Bracketed) (hw : '(' ∉ w) (h : P.AtOnce (w ++ t) u) :
    ∃ v, u = w ++ v ∧ P.AtOnce t v := by
  induction w generalizing u with
  | nil => exact ⟨u, rfl, h⟩
  | cons c w ih =>
    rw [List.mem_cons, not_or] at hw
    generalize hs : c :: w ++ t = s at h
    cases h with
    | nil => simp at hs
    | keep hc h =>
      obtain ⟨rfl, rfl⟩ := List.cons.inj hs
      obtain ⟨v, rfl, hv⟩ := ih hw.2 h
      exact ⟨v, rfl, hv⟩
    | write hf h =>
      obtain ⟨inner, rfl, -⟩ := hP.source _ _ hf
      exact absurd (List.cons.inj hs).1.symm hw.1

theorem to_append (hP : P.Bracketed) (hw : '(' ∉ w) (h : P.AtOnce t (w ++ u)) :
    ∃ v, t = w ++ v ∧ P.AtOnce v u := by
  induction w generalizing t with
  | nil => exact ⟨t, rfl, h⟩
  | cons c w ih =>
    rw [List.mem_cons, not_or] at hw
    generalize hs : c :: w ++ u = s at h
    cases h with
    | nil => simp at hs
    | keep hc h =>
      obtain ⟨rfl, rfl⟩ := List.cons.inj hs
      obtain ⟨v, rfl, hv⟩ := ih hw.2 h
      exact ⟨v, rfl, hv⟩
    | write hf h =>
      obtain ⟨inner, hinner⟩ := List.head?_eq_some_iff.mp (hP.target _ _ hf)
      rw [hinner] at hs
      exact absurd (List.cons.inj hs).1.symm hw.1

theorem of_source (hP : P.Bracketed) (hQ : Q.Bracketed) (hf : Q f out)
    (h : P.AtOnce t u) (he : c :: t = f ++ rest) : ∃ v, c :: u = f ++ v ∧ P.AtOnce rest v := by
  obtain ⟨inner, rfl, hinner⟩ := hQ.source f out hf
  obtain ⟨rfl, rfl⟩ := List.cons.inj he
  obtain ⟨v, rfl, hv⟩ := h.of_append hP hinner
  exact ⟨v, rfl, hv⟩

theorem to_source (hP : P.Bracketed) (hQ : Q.Bracketed) (hf : Q f out)
    (h : P.AtOnce t u) (he : c :: u = f ++ rest) : ∃ v, c :: t = f ++ v ∧ P.AtOnce v rest := by
  obtain ⟨inner, rfl, hinner⟩ := hQ.source f out hf
  obtain ⟨rfl, rfl⟩ := List.cons.inj he
  obtain ⟨v, rfl, hv⟩ := h.to_append hP hinner
  exact ⟨v, rfl, hv⟩

/-- A second substitution that leaves alone what the first one has written finds in its result just
what it would have found in the text. -/
theorem substitute (hP : P.Bracketed) (hQ : Q.Bracketed) (hleft : P.LeftAloneBy Q) (hr : r.Reads Q)
    (h : P.AtOnce t u) : (P.or Q).AtOnce t (substitute r u) := by
  induction hn : u.length using Nat.strongRecOn generalizing t u with
  | ind n ih =>
    cases h with
    | nil => exact .nil
    | @write f out t u hf h =>
      have hlen : u.length < n := by
        obtain ⟨inner, hinner⟩ := List.head?_eq_some_iff.mp (hP.target _ _ hf)
        rw [← hn, hinner, List.length_append, List.length_cons]
        omega
      rw [hr.substitute_left fun x y hxy hy => hleft f out hf x y hxy hy u]
      exact .write (Or.inl hf) (ih u.length hlen h rfl)
    | @keep c t u hc h =>
      by_cases hopens : Q.Opens (c :: u)
      · obtain ⟨f, out, rest, hf, he⟩ := hopens
        obtain ⟨v, hv, hrest⟩ := h.to_source hP hQ hf he
        have hlen : rest.length < n := by
          have hpos := List.length_pos_iff.mpr (hr.ne_nil f out hf)
          rw [← hn, he, List.length_append]
          omega
        rw [he, hv, hr.substitute_append hf]
        exact .write (Or.inr hf) (ih rest.length hlen hrest rfl)
      · rw [hr.substitute_of_not_opens hopens]
        refine .keep ?_ (ih u.length (by rw [← hn]; exact Nat.lt_succ_self _) h rfl)
        rw [opens_or_iff, not_or]
        refine ⟨hc, fun ⟨f, out, rest, hf, he⟩ => hopens ?_⟩
        obtain ⟨v, hv, -⟩ := h.of_source hP hQ hf he
        exact ⟨f, out, v, hf, hv⟩

theorem not_opens (hP : P.Bracketed) (hleft : P.LeftAloneBy P) (h : P.AtOnce t u) (hv : v <:+ u) :
    ¬ P.Opens v := by
  have hnil : ¬ P.Opens [] := by
    rintro ⟨f, out, rest, hf, he⟩
    obtain ⟨inner, rfl, -⟩ := hP.source f out hf
    exact List.cons_ne_nil _ _ he.symm
  induction h with
  | nil =>
    obtain rfl := List.suffix_nil.mp hv
    exact hnil
  | @keep c t u hc h ih =>
    rcases List.suffix_cons_iff.mp hv with rfl | hv
    · rintro ⟨f, out, rest, hf, he⟩
      obtain ⟨v, hv, -⟩ := h.to_source hP hP hf he
      exact hc ⟨f, out, v, hf, hv⟩
    · exact ih hv
  | @write f out t u hf h ih =>
    obtain ⟨x, hx⟩ := hv
    rcases List.append_eq_append_iff.mp hx with ⟨y, rfl, rfl⟩ | ⟨y, rfl, rfl⟩
    · rcases eq_or_ne y [] with rfl | hy
      · exact ih (List.suffix_refl u)
      · exact hleft f _ hf x y rfl hy u
    · exact ih (List.suffix_append y v)

end AtOnce

end Grammar

end Restyle.Text
