import Mathlib.Data.List.Induction
import Mathlib.Data.List.Nodup
import Mathlib.Data.List.Perm.Basic
import Restyle.Table

/-! # Tables that agree

Two tables may agree under every key but one. Setting values, changing them and
going on from such tables in the same way keeps this, whatever happens under the
one key.
-/

namespace Restyle.Table

variable {α β γ : Type} {t u v : Table β} {key k : Text} {value : β}

theorem get?_cons (k key : Text) (value : β) (t : Table β) :
    get? ((key, value) :: t) k = if k = key then some value else t.get? k := by
  rw [get?, List.lookup_cons]
  by_cases h : k = key
  · rw [if_pos h, beq_iff_eq.mpr h]
  · rw [if_neg h, beq_eq_false_iff_ne.mpr h]
    rfl

theorem get?_set (t : Table β) (key : Text) (value : β) (k : Text) :
    (t.set key value).get? k = if k = key then some value else t.get? k := by
  induction t with
  | nil => exact get?_cons k key value []
  | cons entry t ih =>
    obtain ⟨key', value'⟩ := entry
    rw [set]
    by_cases h : key' = key
    · subst h
      rw [if_pos rfl, get?_cons, get?_cons]
      split_ifs <;> rfl
    · rw [if_neg h, get?_cons, ih, get?_cons]
      split_ifs with h₁ h₂
      · exact absurd (h₁.symm.trans h₂) h
      all_goals rfl

theorem get?_set_self (t : Table β) (key : Text) (value : β) :
    (t.set key value).get? key = some value := by
  rw [get?_set, if_pos rfl]

theorem get?_set_of_ne (h : k ≠ key) (t : Table β) (value : β) :
    (t.set key value).get? k = t.get? k := by
  rw [get?_set, if_neg h]

theorem get?_map (f : β → γ) (t : Table β) (k : Text) :
    get? (t.map fun (key, value) => (key, f value)) k = (t.get? k).map f := by
  induction t with
  | nil => rfl
  | cons entry t ih =>
    rw [List.map_cons, get?_cons, get?_cons, ih]
    split_ifs <;> rfl

theorem keys_map (f : β → γ) (t : Table β) :
    keys (t.map fun (key, value) => (key, f value)) = t.keys := by
  simp [keys, Function.comp_def]

theorem mem_of_get? (h : t.get? k = some value) : (k, value) ∈ t := by
  induction t with
  | nil => simp [get?] at h
  | cons entry t ih =>
    rw [get?_cons] at h
    split_ifs at h with hk
    · obtain rfl := Option.some.inj h
      exact hk ▸ List.mem_cons_self
    · exact List.mem_cons_of_mem _ (ih h)

theorem get?_eq_none (h : k ∉ t.keys) : t.get? k = none := by
  cases hv : t.get? k with
  | none => rfl
  | some value => exact absurd (List.mem_map_of_mem (mem_of_get? hv)) h

theorem mem_set {e : Text × β} (h : e ∈ t.set key value) : e = (key, value) ∨ e ∈ t := by
  induction t with
  | nil => exact Or.inl (List.mem_singleton.mp h)
  | cons entry t ih =>
    obtain ⟨key', value₀⟩ := entry
    rw [set] at h
    split_ifs at h with hk
    · subst hk
      exact (List.mem_cons.mp h).imp_right (List.mem_cons_of_mem _)
    · rcases List.mem_cons.mp h with rfl | h
      · exact Or.inr List.mem_cons_self
      · exact (ih h).imp_right (List.mem_cons_of_mem _)

theorem mem_set_of_ne {e : Text × β} (he : e ∈ t) (hne : e.1 ≠ key) : e ∈ t.set key value := by
  induction t with
  | nil => exact absurd he List.not_mem_nil
  | cons entry t ih =>
    obtain ⟨key', value₀⟩ := entry
    rw [set]
    split_ifs with hk
    · refine List.mem_cons_of_mem _ ((List.mem_cons.mp he).resolve_left ?_)
      rintro rfl
      exact hne hk
    · rcases List.mem_cons.mp he with rfl | he
      · exact List.mem_cons_self
      · exact List.mem_cons_of_mem _ (ih he)

theorem mem_values_set {value' : β} (h : value' ∈ (t.set key value).values) :
    value' = value ∨ value' ∈ t.values := by
  obtain ⟨e, he, rfl⟩ := List.mem_map.mp h
  rcases mem_set he with rfl | he
  · exact Or.inl rfl
  · exact Or.inr (List.mem_map_of_mem he)

theorem filterMap_set {f : Text × β → Option γ} (hf : ∀ value, f (key, value) = none) (t : Table β)
    (value : β) : (t.set key value).filterMap f = t.filterMap f := by
  induction t with
  | nil => exact List.filterMap_cons_none (hf value)
  | cons entry t ih =>
    obtain ⟨key', value'⟩ := entry
    rw [set]
    split_ifs with h
    · rw [← h] at hf
      rw [List.filterMap_cons_none (hf value), List.filterMap_cons_none (hf value')]
    · rw [List.filterMap_cons, List.filterMap_cons, ih]

theorem keys_set (t : Table β) (key : Text) (value : β) :
    (t.set key value).keys = if key ∈ t.keys then t.keys else t.keys ++ [key] := by
  induction t with
  | nil => rfl
  | cons entry t ih =>
    obtain ⟨key', value'⟩ := entry
    by_cases h : key' = key
    · subst h
      simp [set, keys]
    · have hne : key ≠ key' := Ne.symm h
      rw [set, if_neg h]
      simp only [keys, List.map_cons, List.mem_cons, hne, false_or] at ih ⊢
      rw [ih]
      by_cases hk : key ∈ List.map (·.1) t <;> simp [hk]

theorem keys_subset_set (t : Table β) (key : Text) (value : β) :
    t.keys ⊆ (t.set key value).keys := by
  rw [keys_set]
  split_ifs
  · exact List.Subset.refl _
  · exact List.subset_append_left _ _

theorem keys_subset_foldl {f : Table β → α → Table β} (hf : ∀ t a, t.keys ⊆ (f t a).keys)
    (as : List α) (t : Table β) : t.keys ⊆ (as.foldl f t).keys := by
  induction as generalizing t with
  | nil => exact List.Subset.refl _
  | cons a as ih => exact List.Subset.trans (hf t a) (ih _)

theorem nodup_keys_set (h : t.keys.Nodup) (key : Text) (value : β) :
    (t.set key value).keys.Nodup := by
  rw [keys_set]
  split_ifs with hk
  · exact h
  · exact List.nodup_append.mpr ⟨h, List.nodup_singleton key, by
      intro a ha b hb he
      rw [List.mem_singleton] at hb
      exact hk (hb ▸ he ▸ ha)⟩

theorem nodup_keys_foldl {f : Table β → α → Table β} (hf : ∀ t a, t.keys.Nodup → (f t a).keys.Nodup)
    (h : t.keys.Nodup) (as : List α) : (as.foldl f t).keys.Nodup := by
  induction as generalizing t with
  | nil => exact h
  | cons a as ih => exact ih (hf t a h)

theorem notMem_keys_set (h : k ∉ t.keys) (hk : key ≠ k) (value : β) : k ∉ (t.set key value).keys := by
  rw [keys_set]
  split_ifs
  · exact h
  · intro hmem
    rcases List.mem_append.mp hmem with hmem | hmem
    · exact h hmem
    · exact hk (List.mem_singleton.mp hmem).symm

theorem get?_foldl {f : Table β → α → Table β} {as : List α}
    (hf : ∀ t, ∀ a ∈ as, (f t a).get? k = t.get? k) (t : Table β) :
    (as.foldl f t).get? k = t.get? k := by
  induction as generalizing t with
  | nil => rfl
  | cons a as ih =>
    exact (ih (fun t b hb => hf t b (List.mem_cons_of_mem a hb)) _).trans (hf t a List.mem_cons_self)

theorem get?_of_mem (h : t.keys.Nodup) (hm : (k, value) ∈ t) : t.get? k = some value := by
  induction t with
  | nil => exact absurd hm List.not_mem_nil
  | cons entry t ih =>
    obtain ⟨key', value'⟩ := entry
    obtain ⟨hkey, hnodup⟩ := List.nodup_cons.mp h
    rw [get?_cons]
    rcases List.mem_cons.mp hm with he | htail
    · obtain ⟨rfl, rfl⟩ := Prod.mk.inj he
      exact if_pos rfl
    · have hne : k ≠ key' := by
        rintro rfl
        exact hkey (List.mem_map.mpr ⟨_, htail, rfl⟩)
      rw [if_neg hne, ih hnodup htail]

theorem nodup_keys_setAll (h : t.keys.Nodup) (pairs : List (Text × β)) :
    (setAll pairs t).keys.Nodup :=
  nodup_keys_foldl (fun _ p ht => nodup_keys_set ht p.1 p.2) h pairs

theorem nodup_keys_ofList (pairs : List (Text × β)) : (ofList pairs).keys.Nodup :=
  nodup_keys_setAll (t := []) List.nodup_nil pairs

theorem mem_of_mem_setAll {e : Text × β} (h : e ∈ setAll u t) : e ∈ u ∨ e ∈ t := by
  induction u generalizing t with
  | nil => exact Or.inr h
  | cons entry u ih =>
    rcases ih h with h | h
    · exact Or.inl (List.mem_cons_of_mem entry h)
    · rcases mem_set h with rfl | h
      · exact Or.inl List.mem_cons_self
      · exact Or.inr h

theorem mem_of_mem_ofList {pairs : List (Text × β)} {e : Text × β} (h : e ∈ ofList pairs) :
    e ∈ pairs :=
  (mem_of_mem_setAll h).resolve_right List.not_mem_nil

theorem get?_setAll (h : u.keys.Nodup) (t : Table β) (k : Text) :
    (setAll u t).get? k = (u.get? k).or (t.get? k) := by
  induction u generalizing t with
  | nil => rfl
  | cons entry u ih =>
    obtain ⟨key', value'⟩ := entry
    obtain ⟨hkey, hnodup⟩ := List.nodup_cons.mp h
    have hstep : setAll ((key', value') :: u) t = setAll u (t.set key' value') := rfl
    rw [hstep, ih hnodup, get?_cons, get?_set]
    split_ifs with hk
    · subst hk
      rw [get?_eq_none hkey]
      rfl
    · rfl

theorem get?_ofList_map (key : β → Text) (values : List β) (k : Text) :
    (ofList (values.map fun value => (key value, value))).get? k =
      (values.filter (key · = k)).getLast? := by
  induction values using List.reverseRecOn with
  | nil => rfl
  | append_singleton values value ih =>
    have hsnoc : ofList ((values ++ [value]).map fun value => (key value, value)) =
        (ofList (values.map fun value => (key value, value))).set (key value) value := by
      simp [ofList, setAll]
    rw [hsnoc, get?_set, ih, List.filter_append]
    by_cases hk : k = key value
    · rw [if_pos hk, List.filter_cons_of_pos (by simp [hk])]
      simp
    · rw [if_neg hk, List.filter_cons_of_neg (by simpa using Ne.symm hk), List.filter_nil,
        List.append_nil]

/-- Of several items that set one key the last one counts. -/
theorem get?_foldl_set (key : α → Text) (value : α → β) (as : List α) (t : Table β) (k : Text) :
    (as.foldl (fun t a => t.set (key a) (value a)) t).get? k =
      ((as.filter (key · = k)).getLast?.map value).or (t.get? k) := by
  induction as using List.reverseRecOn with
  | nil => rfl
  | append_singleton as a ih =>
    rw [List.foldl_append, List.foldl_cons, List.foldl_nil, get?_set, ih, List.filter_append]
    by_cases hk : k = key a
    · subst hk
      simp
    · simp [hk, Ne.symm hk]

theorem set_of_notMem (h : key ∉ t.keys) (value : β) : t.set key value = t ++ [(key, value)] := by
  induction t with
  | nil => rfl
  | cons entry t ih =>
    obtain ⟨key', value'⟩ := entry
    obtain ⟨hne, htail⟩ := not_or.mp (mt List.mem_cons.mpr h)
    rw [set, if_neg (Ne.symm hne), ih htail, List.cons_append]

theorem setAll_eq_append (h : (t.keys ++ u.keys).Nodup) : setAll u t = t ++ u := by
  induction u generalizing t with
  | nil => exact (List.append_nil t).symm
  | cons entry u ih =>
    obtain ⟨key', value'⟩ := entry
    have hnew : key' ∉ t.keys := fun hmem =>
      (List.nodup_append.mp h).2.2 key' hmem key' List.mem_cons_self rfl
    have hkeys : keys (t ++ [(key', value')]) ++ keys u = t.keys ++ keys ((key', value') :: u) := by
      simp [keys]
    calc setAll ((key', value') :: u) t
      _ = setAll u (t ++ [(key', value')]) := congrArg (setAll u) (set_of_notMem hnew value')
      _ = t ++ (key', value') :: u := by rw [ih (hkeys ▸ h), List.append_assoc, List.singleton_append]

theorem ofList_eq_self (h : t.keys.Nodup) : ofList t = t :=
  setAll_eq_append (t := []) h

theorem keys_setAll_of_subset (h : u.keys ⊆ t.keys) : (setAll u t).keys = t.keys := by
  induction u generalizing t with
  | nil => rfl
  | cons entry u ih =>
    obtain ⟨key', value'⟩ := entry
    have hkeys : (t.set key' value').keys = t.keys := by
      rw [keys_set, if_pos (h List.mem_cons_self)]
    calc (setAll ((key', value') :: u) t).keys
      _ = (setAll u (t.set key' value')).keys := rfl
      _ = (t.set key' value').keys := ih (hkeys ▸ fun k hk => h (List.mem_cons_of_mem key' hk))
      _ = t.keys := hkeys

theorem set_map (f : β → γ) (t : Table β) (key : Text) (value : β) :
    set key (f value) (t.map fun e => (e.1, f e.2)) = (t.set key value).map fun e => (e.1, f e.2) := by
  induction t with
  | nil => rfl
  | cons entry t ih =>
    obtain ⟨key', value'⟩ := entry
    simp only [List.map_cons, set, ih]
    split_ifs <;> rfl

theorem setAll_map (f : β → γ) (pairs : List (Text × β)) (t : Table β) :
    setAll (pairs.map fun e => (e.1, f e.2)) (t.map fun e => (e.1, f e.2)) =
      (setAll pairs t).map fun e => (e.1, f e.2) := by
  induction pairs generalizing t with
  | nil => rfl
  | cons p pairs ih =>
    simp only [setAll, List.map_cons, List.foldl_cons, set_map] at ih ⊢
    exact ih _

theorem keys_setAll_congr (h : u.keys = v.keys) {t t' : Table β} (ht : t.keys = t'.keys) :
    (setAll u t).keys = (setAll v t').keys := by
  induction u generalizing v t t' with
  | nil =>
    obtain rfl : v = [] := List.map_eq_nil_iff.mp h.symm
    exact ht
  | cons e u ih =>
    rcases v with _ | ⟨e', v⟩
    · simp [keys] at h
    · obtain ⟨he, hrest⟩ := List.cons.inj h
      apply ih hrest
      rw [keys_set, keys_set, ht, show e.1 = e'.1 from he]

/-- Tables with the same keys in the same order and the same values under them are equal. -/
theorem ext_get? (ht : t.keys.Nodup) (hkeys : t.keys = u.keys)
    (hget : ∀ k, t.get? k = u.get? k) : t = u := by
  induction t generalizing u with
  | nil => exact (List.map_eq_nil_iff.mp hkeys.symm).symm
  | cons entry t ih =>
    obtain ⟨key₁, value₁⟩ := entry
    rcases u with _ | ⟨⟨key₂, value₂⟩, u⟩
    · exact absurd hkeys (List.cons_ne_nil _ _)
    obtain ⟨rfl, htail⟩ := List.cons.inj hkeys
    obtain ⟨hnew, hnodup⟩ := List.nodup_cons.mp ht
    have hnew' : key₁ ∉ keys u := fun hmem => hnew (htail.symm ▸ hmem)
    have hvalue := hget key₁
    rw [get?_cons, get?_cons, if_pos rfl, if_pos rfl, Option.some.injEq] at hvalue
    have hrest : t = u := by
      refine ih hnodup htail fun k => ?_
      by_cases hk : k = key₁
      · rw [hk, get?_eq_none hnew, get?_eq_none hnew']
      · have hget := hget k
        rwa [get?_cons, get?_cons, if_neg hk, if_neg hk] at hget
    rw [hvalue, hrest]

theorem get?_erase (t : Table β) (key k : Text) :
    (t.erase key).get? k = if k = key then none else t.get? k := by
  induction t with
  | nil => exact (ite_self none).symm
  | cons entry t ih =>
    obtain ⟨key', value⟩ := entry
    rw [erase, List.filter_cons, get?_cons]
    by_cases hkey : key' = key
    · subst hkey
      rw [if_neg (by simp), ← erase, ih]
      split_ifs <;> rfl
    · rw [if_pos (by simpa using hkey), ← erase, get?_cons, ih]
      by_cases hk : k = key'
      · rw [if_pos hk, if_pos hk, if_neg (hk ▸ hkey)]
      · rw [if_neg hk, if_neg hk]

theorem get?_append_erase_perm (h : t.keys.Nodup) (k : Text) :
    ((t.get? k).toList ++ (t.erase k).values).Perm t.values := by
  induction t with
  | nil => exact .refl _
  | cons entry t ih =>
    obtain ⟨key', value'⟩ := entry
    obtain ⟨hkey, hnodup⟩ := List.nodup_cons.mp h
    rw [get?_cons, erase, List.filter_cons]
    by_cases hk : k = key'
    · subst hk
      have hrest : t.filter (fun e => decide (e.1 ≠ k)) = t := by
        refine List.filter_eq_self.mpr fun e he => ?_
        have hne : e.1 ≠ k := fun hek => hkey (List.mem_map.mpr ⟨e, he, hek⟩)
        simpa using hne
      rw [if_pos rfl, if_neg (by simp), hrest]
      exact .refl _
    · rw [if_neg hk, if_pos (by simpa using Ne.symm hk)]
      exact List.perm_middle.trans ((ih hnodup).cons value')

def change (t : Table β) (key : Text) (f : β → β) : Table β :=
  (t.get? key).elim t fun value => t.set key (f value)

/-- Agreement under every key but one. -/
def SameExcept (key : Text) (t u : Table β) : Prop :=
  ∀ k ≠ key, t.get? k = u.get? k

namespace SameExcept

theorem refl (key : Text) (t : Table β) : SameExcept key t t :=
  fun _ _ => rfl

theorem symm (h : SameExcept key t u) : SameExcept key u t :=
  fun k hk => (h k hk).symm

theorem trans (h : SameExcept key t u) (h' : SameExcept key u v) : SameExcept key t v :=
  fun k hk => (h k hk).trans (h' k hk)

theorem set (h : SameExcept key t u) (k : Text) (value : β) :
    SameExcept key (t.set k value) (u.set k value) := by
  intro k' hk'
  rw [get?_set, get?_set, h k' hk']

theorem set_left (h : SameExcept key t u) (value : β) : SameExcept key (t.set key value) u := by
  intro k hk
  rw [get?_set_of_ne hk, h k hk]

theorem change (h : SameExcept key t u) (k : Text) (f : β → β) :
    SameExcept key (t.change k f) (u.change k f) := by
  by_cases hk : k = key
  · subst hk
    have hself : ∀ v : Table β, SameExcept k (v.change k f) v := by
      intro v
      rw [Table.change]
      cases v.get? k with
      | none => exact refl k v
      | some value => exact (refl k v).set_left _
    exact (hself t).trans (h.trans (hself u).symm)
  · rw [Table.change, Table.change, h k hk]
    cases u.get? k with
    | none => exact h
    | some value => exact h.set k _

theorem map (h : SameExcept key t u) (f : β → γ) :
    SameExcept key (t.map fun (k, value) => (k, f value)) (u.map fun (k, value) => (k, f value)) := by
  intro k hk
  rw [get?_map, get?_map, h k hk]

theorem foldl {f g : Table β → α → Table β} (as : List α)
    (hf : ∀ t u, ∀ a ∈ as, SameExcept key t u → SameExcept key (f t a) (g u a))
    (h : SameExcept key t u) : SameExcept key (as.foldl f t) (as.foldl g u) := by
  induction as generalizing t u with
  | nil => exact h
  | cons a as ih =>
    exact ih (fun t u b hb => hf t u b (List.mem_cons_of_mem a hb)) (hf t u a List.mem_cons_self h)

theorem setAll (h : SameExcept key t u) (pairs : List (Text × β)) :
    SameExcept key (Table.setAll pairs t) (Table.setAll pairs u) :=
  foldl pairs (fun _ _ p _ htu => htu.set p.1 p.2) h

theorem foldl_filter {f : Table β → α → Table β} {p : α → Bool} {as : List α}
    (hf : ∀ t u, ∀ a ∈ as, p a = true → SameExcept key t u → SameExcept key (f t a) (f u a))
    (hp : ∀ t, ∀ a ∈ as, p a = false → SameExcept key (f t a) t) (h : SameExcept key t u) :
    SameExcept key (as.foldl f t) ((as.filter p).foldl f u) := by
  induction as generalizing t u with
  | nil => exact h
  | cons a as ih =>
    have hf' := fun t u b hb => hf t u b (List.mem_cons_of_mem a hb)
    have hp' := fun t b hb => hp t b (List.mem_cons_of_mem a hb)
    cases ha : p a with
    | true =>
      rw [List.filter_cons_of_pos ha]
      exact ih hf' hp' (hf t u a List.mem_cons_self ha h)
    | false =>
      rw [List.filter_cons_of_neg (by simp [ha])]
      exact ih hf' hp' ((hp t a List.mem_cons_self ha).trans h)

end SameExcept

end Restyle.Table
