import Mathlib.Data.List.Basic
import Restyle.Text.Basic

/-! # Cutting texts

A cut at the first character of some kind leaves none of that kind in front of
it, a cut at the last one leaves none behind it. A cut behind some bytes leaves
that many in front of it.
-/

namespace Restyle.Text

variable {p : Char → Bool} {c : Char} {t u v w : Text}

theorem cut?_append (ht : ∀ d ∈ t, p d = false) (hc : p c = true) (u : Text) :
    cut? p (t ++ c :: u) = some (t, u) := by
  induction t with
  | nil => simp [cut?, hc]
  | cons d t ih =>
    have hd := ht d List.mem_cons_self
    rw [List.cons_append, cut?, hd, ih fun e he => ht e (List.mem_cons_of_mem d he)]
    rfl

theorem cut?_eq_none (ht : ∀ d ∈ t, p d = false) : cut? p t = none := by
  induction t with
  | nil => rfl
  | cons d t ih =>
    rw [cut?, ht d List.mem_cons_self, ih fun e he => ht e (List.mem_cons_of_mem d he)]
    rfl

theorem cut?_cases (p : Char → Bool) (t : Text) :
    (∀ d ∈ t, p d = false) ∨
      ∃ u c v, t = u ++ c :: v ∧ (∀ d ∈ u, p d = false) ∧ p c = true := by
  induction t with
  | nil => simp
  | cons d t ih =>
    cases hd : p d with
    | true => exact Or.inr ⟨[], d, t, rfl, by simp, hd⟩
    | false =>
      rcases ih with h | ⟨u, c, v, rfl, hu, hc⟩
      · exact Or.inl (List.forall_mem_cons.mpr ⟨hd, h⟩)
      · exact Or.inr ⟨d :: u, c, v, rfl, List.forall_mem_cons.mpr ⟨hd, hu⟩, hc⟩

theorem cut?_eq_some (h : cut? p t = some (u, v)) :
    ∃ c, t = u ++ c :: v ∧ p c = true ∧ ∀ d ∈ u, p d = false := by
  rcases cut?_cases p t with hn | ⟨x, c, y, rfl, hx, hc⟩
  · rw [cut?_eq_none hn] at h
    exact absurd h (by simp)
  · rw [cut?_append hx hc, Option.some.injEq, Prod.mk.injEq] at h
    obtain ⟨rfl, rfl⟩ := h
    exact ⟨c, rfl, hc, hx⟩

theorem cutLast?_append (t : Text) (hc : p c = true) (hu : ∀ d ∈ u, p d = false) :
    cutLast? p (t ++ c :: u) = some (t, u) := by
  have hreverse : (t ++ c :: u).reverse = u.reverse ++ c :: t.reverse := by simp
  rw [cutLast?, hreverse, cut?_append (fun d hd => hu d (List.mem_reverse.mp hd)) hc]
  simp

theorem cutLast?_eq_none (ht : ∀ d ∈ t, p d = false) : cutLast? p t = none := by
  rw [cutLast?, cut?_eq_none fun d hd => ht d (List.mem_reverse.mp hd)]
  rfl

theorem cutLast?_eq_some (h : cutLast? p t = some (u, v)) :
    ∃ c, t = u ++ c :: v ∧ p c = true ∧ ∀ d ∈ v, p d = false := by
  rcases cut?_cases p t.reverse with hn | ⟨x, c, y, he, hx, hc⟩
  · rw [cutLast?, cut?_eq_none hn] at h
    simp at h
  · rw [cutLast?, he, cut?_append hx hc, Option.map_some, Option.some.injEq, Prod.mk.injEq] at h
    obtain ⟨rfl, rfl⟩ := h
    refine ⟨c, ?_, hc, fun d hd => hx d (List.mem_reverse.mp hd)⟩
    rw [← List.reverse_reverse t, he]
    simp

theorem beq_eq_false_of_notMem (hc : c ∉ t) : ∀ d ∈ t, (d == c) = false :=
  fun _ hd => beq_eq_false_iff_ne.mpr (ne_of_mem_of_not_mem hd hc)

theorem append_cons_inj_of_first {x y : Text} (hx : c ∉ x) (hy : c ∉ y)
    (h : x ++ c :: t = y ++ c :: u) : x = y ∧ t = u := by
  have hcut : ∀ z v : Text, c ∉ z → cut? (· == c) (z ++ c :: v) = some (z, v) := fun z v hz =>
    cut?_append (beq_eq_false_of_notMem hz) (beq_self_eq_true c) v
  have he := (hcut x t hx).symm.trans (h ▸ hcut y u hy)
  exact Prod.mk.inj (Option.some.inj he)

theorem append_cons_inj_of_last {x y : Text} (hx : c ∉ x) (hy : c ∉ y)
    (h : t ++ c :: x = u ++ c :: y) : t = u ∧ x = y := by
  have hcut : ∀ z v : Text, c ∉ v → cutLast? (· == c) (z ++ c :: v) = some (z, v) := fun z v hv =>
    cutLast?_append z (beq_self_eq_true c) (beq_eq_false_of_notMem hv)
  have he := (hcut t x hx).symm.trans (h ▸ hcut u y hy)
  exact Prod.mk.inj (Option.some.inj he)

@[simp] theorem byteSize_nil : byteSize [] = 0 := rfl

theorem byteSize_append (t u : Text) : byteSize (t ++ u) = byteSize t + byteSize u := by
  have hfrom : ∀ (t : Text) (n : Nat), t.foldl (fun n c => n + c.utf8Size) n = n + byteSize t := by
    intro t
    induction t with
    | nil => simp
    | cons c t ih =>
      intro n
      simp only [byteSize, List.foldl_cons] at ih ⊢
      rw [ih, ih (0 + c.utf8Size)]
      omega
  rw [byteSize, List.foldl_append, hfrom u]
  rfl

theorem byteSize_cons (c : Char) (t : Text) : byteSize (c :: t) = c.utf8Size + byteSize t := by
  simpa [byteSize] using byteSize_append [c] t

theorem byteSize_eq_zero_iff : byteSize t = 0 ↔ t = [] := by
  cases t with
  | nil => simp
  | cons c t =>
    have hpos := c.utf8Size_pos
    simp [byteSize_cons]
    omega

theorem dropBytes?_byteSize (t u : Text) : dropBytes? t.byteSize (t ++ u) = some u := by
  induction t with
  | nil => cases u <;> rfl
  | cons c t ih =>
    have hpos := c.utf8Size_pos
    obtain ⟨n, hn⟩ : ∃ n, c.utf8Size + byteSize t = n + 1 := ⟨c.utf8Size + byteSize t - 1, by omega⟩
    rw [byteSize_cons, hn, List.cons_append, dropBytes?, if_pos (by omega), ← hn,
      Nat.add_sub_cancel_left, ih]

theorem dropBytes?_eq_some_iff {n : Nat} :
    dropBytes? n t = some u ↔ ∃ v, t = v ++ u ∧ v.byteSize = n := by
  constructor
  · intro h
    induction t generalizing n with
    | nil =>
      cases n with
      | zero => exact ⟨[], Option.some.inj h, rfl⟩
      | succ n => simp [dropBytes?] at h
    | cons c t ih =>
      cases n with
      | zero => exact ⟨[], Option.some.inj h, rfl⟩
      | succ n =>
        rw [dropBytes?] at h
        split_ifs at h with hle
        obtain ⟨v, rfl, hv⟩ := ih h
        exact ⟨c :: v, rfl, by rw [byteSize_cons]; omega⟩
  · rintro ⟨v, rfl, rfl⟩
    exact dropBytes?_byteSize v u

theorem prefix_of_byteSize_le (h : t ++ u = v ++ w) (hle : t.byteSize ≤ v.byteSize) :
    ∃ x, v = t ++ x ∧ u = x ++ w := by
  rcases List.append_eq_append_iff.mp h with ⟨x, rfl, rfl⟩ | ⟨x, rfl, rfl⟩
  · exact ⟨x, rfl, rfl⟩
  · have hx : x = [] := by
      rw [← byteSize_eq_zero_iff]
      rw [byteSize_append] at hle
      omega
    exact ⟨[], by simp [hx]⟩

end Restyle.Text
