import Restyle.Proofs.Text.Substitution

/-! # Recognisers that look back

What a recogniser finds in a text may depend on the character in front of it. A
search and a substitution pass over a stretch in which nothing is recognised and
go on behind a stretch that is recognised as a whole.
-/

namespace Restyle.Text

variable {α : Type} {r : Recogniser α} {b : Option Char} {c : Char} {t u v out : Text} {a : α}

/-- The character in front of what follows a text, which has a character in front of it. -/
def lastOf (b : Option Char) (t : Text) : Option Char :=
  t.foldl (fun _ c => some c) b

@[simp] theorem lastOf_nil (b : Option Char) : lastOf b [] = b := rfl

theorem lastOf_append (b : Option Char) (t u : Text) : lastOf b (t ++ u) = lastOf (lastOf b t) u :=
  List.foldl_append

theorem lastOf_append_cons (b : Option Char) (t : Text) (c : Char) (u : Text) :
    lastOf b (t ++ c :: u) = lastOf (some c) u :=
  lastOf_append b t (c :: u)

/-- Nothing is recognised that begins in the first text, in front of the second one. -/
def Recogniser.Passes (r : Recogniser α) : Option Char → Text → Text → Prop
  | _, [], _ => True
  | b, c :: t, u => r b (c :: (t ++ u)) = none ∧ r.Passes (some c) t u

instance decidablePasses (r : Recogniser α) [∀ b t, Decidable (r b t = none)] :
    (b : Option Char) → (t u : Text) → Decidable (r.Passes b t u)
  | _, [], _ => .isTrue trivial
  | b, c :: t, u =>
    have := decidablePasses r (some c) t u
    inferInstanceAs (Decidable (r b (c :: (t ++ u)) = none ∧ r.Passes (some c) t u))

namespace Recogniser

theorem passes_append : r.Passes b (t ++ u) v ↔ r.Passes b t (u ++ v) ∧ r.Passes (lastOf b t) u v := by
  induction t generalizing b with
  | nil => simp [Passes]
  | cons c t ih =>
    rw [List.cons_append, Passes, ih, Passes, List.append_assoc, and_assoc]
    rfl

theorem passes_iff_findFrom? : r.Passes b t [] ↔ findFrom? r b t = none := by
  induction t generalizing b with
  | nil => simp [Passes, findFrom?]
  | cons c t ih =>
    rw [Passes, List.append_nil, ih, findFrom?]
    cases r b (c :: t) <;> simp

theorem Passes.findAllFrom (h : r.Passes b t u) :
    findAllFrom r 0 b (t ++ u) = findAllFrom r 0 (lastOf b t) u := by
  induction t generalizing b with
  | nil => rfl
  | cons c t ih =>
    rw [List.cons_append, Text.findAllFrom, h.1]
    exact ih h.2

theorem Passes.substituteFrom {r : Recogniser Text} (h : r.Passes b t u) :
    substituteFrom r 0 b (t ++ u) = t ++ substituteFrom r 0 (lastOf b t) u := by
  induction t generalizing b with
  | nil => rfl
  | cons c t ih =>
    rw [List.cons_append, Text.substituteFrom, h.1]
    exact congrArg (c :: ·) (ih h.2)

theorem Passes.map {β : Type} {f : α × Text → β × Text} (h : r.Passes b t u) :
    Recogniser.Passes (fun before t => (r before t).map f) b t u := by
  induction t generalizing b with
  | nil => trivial
  | cons c t ih => exact ⟨Option.map_eq_none_iff.mpr h.1, ih h.2⟩

theorem not_passes (hu : u ≠ []) (h : r (lastOf b t) (u ++ v) ≠ none) : ¬ r.Passes b (t ++ u) v := by
  obtain ⟨c, u, rfl⟩ := List.exists_cons_of_ne_nil hu
  exact fun hp => h (passes_append.mp hp).2.1

theorem exists_of_not_passes (h : ¬ r.Passes b t u) : ∃ x y found, t = x ++ y ∧ y ≠ [] ∧
    r.Passes b x (y ++ u) ∧ r (lastOf b x) (y ++ u) = some found := by
  induction t generalizing b with
  | nil => exact absurd trivial h
  | cons c t ih =>
    rcases hr : r b (c :: (t ++ u)) with _ | found
    · obtain ⟨x, y, found, rfl, hy, hx, hfound⟩ := ih fun ht => h ⟨hr, ht⟩
      rw [List.append_assoc] at hr
      exact ⟨c :: x, y, found, rfl, hy, ⟨hr, hx⟩, hfound⟩
    · exact ⟨[], c :: t, found, rfl, List.cons_ne_nil c t, trivial, hr⟩

theorem passes_of_forall (h : ∀ c ∈ t, ∀ b u, r b (c :: u) = none) : r.Passes b t u := by
  induction t generalizing b with
  | nil => trivial
  | cons c t ih =>
    obtain ⟨hc, ht⟩ := List.forall_mem_cons.mp h
    exact ⟨hc b _, ih ht⟩

end Recogniser

theorem findAllFrom_length (r : Recogniser α) (b : Option Char) (t u : Text) :
    findAllFrom r t.length b (t ++ u) = findAllFrom r 0 (lastOf b t) u := by
  induction t generalizing b with
  | nil => rfl
  | cons c t ih => exact ih (some c)

theorem substituteFrom_length_append (r : Recogniser Text) (b : Option Char) (t u : Text) :
    substituteFrom r t.length b (t ++ u) = substituteFrom r 0 (lastOf b t) u := by
  induction t generalizing b with
  | nil => rfl
  | cons c t ih => exact ih (some c)

theorem findAllFrom_append (ht : t ≠ []) (h : r b (t ++ u) = some (a, u)) :
    findAllFrom r 0 b (t ++ u) = a :: findAllFrom r 0 (lastOf b t) u := by
  obtain ⟨c, t, rfl⟩ := List.exists_cons_of_ne_nil ht
  rw [List.cons_append] at h ⊢
  have hlen : (t ++ u).length - u.length = t.length := by simp
  rw [findAllFrom, h]
  simp only [hlen, findAllFrom_length]
  rfl

theorem substituteFrom_append {r : Recogniser Text} (ht : t ≠ []) (h : r b (t ++ u) = some (out, u)) :
    substituteFrom r 0 b (t ++ u) = out ++ substituteFrom r 0 (lastOf b t) u := by
  obtain ⟨c, t, rfl⟩ := List.exists_cons_of_ne_nil ht
  rw [List.cons_append] at h ⊢
  have hlen : (t ++ u).length - u.length = t.length := by simp
  rw [substituteFrom, h]
  simp only [hlen, substituteFrom_length_append]
  rfl

theorem substituteFrom_eq_of_kept {r : Recogniser Text}
    (h : ∀ x y out rest, t = x ++ y → y ≠ [] → r (lastOf b x) (y ++ u) = some (out, rest) →
      out = y ∧ rest = u) :
    substituteFrom r 0 b (t ++ u) = t ++ substituteFrom r 0 (lastOf b t) u := by
  induction t generalizing b with
  | nil => rfl
  | cons c t ih =>
    rcases hr : r b (c :: t ++ u) with _ | ⟨out, rest⟩
    · have hpass : r.Passes b [c] (t ++ u) := ⟨hr, trivial⟩
      have hrest := ih fun x y out rest ht => h (c :: x) y out rest (congrArg (c :: ·) ht)
      exact hpass.substituteFrom.trans (congrArg (c :: ·) hrest)
    · obtain ⟨rfl, rfl⟩ := h [] (c :: t) out rest rfl (List.cons_ne_nil c t) hr
      exact substituteFrom_append (List.cons_ne_nil c t) hr

end Restyle.Text
