import Restyle.Proofs.Table
import Restyle.Stylesheet.Rule

/-! # Rules under their selectors

Rules without conditions are printed selector by selector: the bodies of the
token itself first, then a block for every other selector. Of bodies that occur
again under one selector only the first is printed.
-/

namespace Restyle

open Text

section Repetition

variable {α β : Type} [BEq α] [LawfulBEq α] [BEq β] [LawfulBEq β] {l : List α} {f : α → β}

theorem eraseDups_concat (l : List α) (a : α) :
    (l ++ [a]).eraseDups = if l.contains a then l.eraseDups else l.eraseDups ++ [a] := by
  rw [List.eraseDups_append]
  split_ifs with h
  · simp [List.removeAll, List.contains_iff_mem.mp h]
  · have ha : a ∉ l := mt List.contains_iff_mem.mpr h
    simp [List.removeAll, ha, List.eraseDups_cons]

theorem nodup_eraseDups (l : List α) : l.eraseDups.Nodup := by
  induction l using List.reverseRecOn with
  | nil => exact List.nodup_nil
  | append_singleton l a ih =>
    rw [eraseDups_concat]
    split_ifs with h
    · exact ih
    · refine List.nodup_append.mpr ⟨ih, List.nodup_singleton a, ?_⟩
      rintro x hx _ hy rfl
      rw [List.mem_singleton] at hy
      exact h (List.contains_iff_mem.mpr (hy ▸ List.mem_eraseDups.mp hx))

theorem eraseDups_map (hf : ∀ x ∈ l, ∀ y ∈ l, f x = f y → x = y) :
    (l.map f).eraseDups = l.eraseDups.map f := by
  induction l using List.reverseRecOn with
  | nil => rfl
  | append_singleton l a ih =>
    have hmem : (l.map f).contains (f a) = l.contains a := by
      rw [Bool.eq_iff_iff, List.contains_iff_mem, List.contains_iff_mem]
      refine ⟨fun h => ?_, List.mem_map_of_mem⟩
      obtain ⟨x, hx, hxa⟩ := List.mem_map.mp h
      exact hf x (by simp [hx]) a (by simp) hxa ▸ hx
    rw [List.map_append, List.map_singleton, eraseDups_concat, eraseDups_concat,
      ih fun x hx y hy => hf x (by simp [hx]) y (by simp [hy]), hmem]
    split_ifs
    · rfl
    · rw [List.map_append, List.map_singleton]

theorem eraseDups_filter (p : α → Bool) (l : List α) :
    (l.filter p).eraseDups = l.eraseDups.filter p := by
  induction l using List.reverseRecOn with
  | nil => rfl
  | append_singleton l a ih =>
    rw [List.filter_append, eraseDups_concat l a]
    cases hp : p a with
    | false =>
      have hnone : [a].filter p = [] := List.filter_cons_of_neg (by simp [hp])
      rw [hnone, List.append_nil, ih]
      split_ifs
      · rfl
      · rw [List.filter_append, hnone, List.append_nil]
    | true =>
      have hone : [a].filter p = [a] := List.filter_cons_of_pos hp
      have hmem : (l.filter p).contains a = l.contains a := by
        rw [Bool.eq_iff_iff, List.contains_iff_mem, List.contains_iff_mem, List.mem_filter]
        exact and_iff_left hp
      rw [hone, eraseDups_concat, hmem, ih]
      split_ifs
      · rfl
      · rw [List.filter_append, hone]

/-- Of values that repeat only the first is kept, so the last one that is kept is the one that occurs
last for the first time. -/
theorem getLast?_eraseDups_eq_some_iff {a : α} (ha : a ∈ l) :
    l.eraseDups.getLast? = some a ↔ ∀ x ∈ l, l.idxOf x ≤ l.idxOf a := by
  induction l using List.reverseRecOn with
  | nil => exact absurd ha List.not_mem_nil
  | append_singleton l b ih =>
    have hold : ∀ x ∈ l, (l ++ [b]).idxOf x = l.idxOf x := fun x hx => List.idxOf_append_of_mem hx
    rw [eraseDups_concat]
    split_ifs with hb
    · have hb : b ∈ l := List.contains_iff_mem.mp hb
      have hmem : ∀ x, x ∈ l ++ [b] ↔ x ∈ l := by
        intro x
        simp only [List.mem_append, List.mem_singleton, or_iff_left_iff_imp]
        rintro rfl
        exact hb
      simp only [hmem] at ha ⊢
      rw [ih ha]
      refine forall₂_congr fun x hx => ?_
      rw [hold x hx, hold a ha]
    · have hb : b ∉ l := mt List.contains_iff_mem.mpr hb
      have hnew : (l ++ [b]).idxOf b = l.length := by
        rw [List.idxOf_append_of_notMem hb]
        simp
      rw [List.getLast?_concat, Option.some.injEq]
      constructor
      · rintro rfl x hx
        rw [hnew]
        rcases List.mem_append.mp hx with hx | hx
        · rw [hold x hx]
          exact Nat.le_of_lt (List.idxOf_lt_length_of_mem hx)
        · exact Nat.le_of_eq (by rw [List.mem_singleton.mp hx, hnew])
      · intro h
        by_contra hne
        have ha' : a ∈ l := (List.mem_append.mp ha).resolve_right fun h =>
          hne (List.mem_singleton.mp h).symm
        have hle := h b (List.mem_append_right l (List.mem_singleton_self b))
        rw [hnew, hold a ha'] at hle
        exact absurd (List.idxOf_lt_length_of_mem ha') (Nat.not_lt.mpr hle)

end Repetition

namespace Table

variable {β γ : Type} {t : Table β}

theorem flatMap_of_key (h : t.keys.Nodup) (k : Text) (f : β → List γ) :
    t.flatMap (fun e => if e.1 = k then f e.2 else []) = ((t.get? k).map f).getD [] := by
  induction t with
  | nil => rfl
  | cons e t ih =>
    obtain ⟨key, value⟩ := e
    obtain ⟨hkey, h⟩ := List.nodup_cons.mp h
    rw [List.flatMap_cons, ih h, get?_cons]
    by_cases hk : key = k
    · subst hk
      rw [if_pos rfl, if_pos rfl, get?_eq_none hkey]
      exact List.append_nil _
    · rw [if_neg hk, if_neg (Ne.symm hk)]
      rfl

/-- Values gathered under keys, each added to those before it. -/
def gather {α : Type} (f : α → List α → List α) (pairs : List (Text × α)) : Table (List α) :=
  pairs.foldl (fun t p => t.update p.1 [] (f p.2)) []

section Gather

variable {α : Type} {f : α → List α → List α} {pairs : List (Text × α)} {k : Text} {vs : List α}

theorem gather_concat (f : α → List α → List α) (pairs : List (Text × α)) (p : Text × α) :
    gather f (pairs ++ [p]) = (gather f pairs).update p.1 [] (f p.2) := by
  rw [gather, List.foldl_append]
  rfl

theorem mem_gather (hf : ∀ v vs, f v vs ≠ [] ∧ ∀ x ∈ f v vs, x = v ∨ x ∈ vs)
    (h : (k, vs) ∈ gather f pairs) : vs ≠ [] ∧ ∀ v ∈ vs, (k, v) ∈ pairs := by
  induction pairs using List.reverseRecOn generalizing vs with
  | nil => cases h
  | append_singleton pairs p ih =>
    rw [gather_concat] at h
    rcases mem_set h with he | h
    · obtain ⟨rfl, rfl⟩ := Prod.mk.inj he
      refine ⟨(hf p.2 _).1, fun v hv => ?_⟩
      rcases (hf p.2 _).2 v hv with rfl | hv
      · simp
      · rcases hget : (gather f pairs).get? p.1 with _ | old
        · rw [hget] at hv
          cases hv
        · rw [hget] at hv
          exact List.mem_append_left _ ((ih (mem_of_get? hget)).2 v hv)
    · obtain ⟨hne, hvs⟩ := ih h
      exact ⟨hne, fun v hv => List.mem_append_left _ (hvs v hv)⟩

theorem gather_ne_nil (h : pairs ≠ []) : gather f pairs ≠ [] := by
  obtain ⟨pairs, p, rfl⟩ := (List.eq_nil_or_concat pairs).resolve_left h
  rw [List.concat_eq_append, gather_concat, update]
  intro hnil
  have hkeys := congrArg (get? · p.1) hnil
  rw [get?_set_self] at hkeys
  cases hkeys

theorem mem_group (h : (k, vs) ∈ group pairs) : vs ≠ [] ∧ ∀ v ∈ vs, (k, v) ∈ pairs := by
  refine mem_gather (f := fun v vs => vs ++ [v]) (fun v vs => ⟨by simp, fun x hx => ?_⟩) h
  simpa [or_comm] using hx

theorem group_ne_nil (h : pairs ≠ []) : group pairs ≠ [] :=
  gather_ne_nil (f := fun v vs => vs ++ [v]) h

end Gather

end Table

namespace Rule

variable {pairs : List (Text × Text)} {rules : List Rule} {k : Text} {bodies : List Text}

def bodiesOf (pairs : List (Text × Text)) (k : Text) : List Text :=
  ((pairs.filter (·.1 = k)).map (·.2)).eraseDups

theorem groupBodies_concat (pairs : List (Text × Text)) (k body : Text) :
    groupBodies (pairs ++ [(k, body)]) = (groupBodies pairs).update k []
      fun bodies => if bodies.contains body then bodies else bodies ++ [body] := by
  unfold groupBodies
  rw [List.foldl_append]
  rfl

theorem nodup_keys_groupBodies (pairs : List (Text × Text)) :
    (groupBodies pairs).keys.Nodup := by
  unfold groupBodies
  exact Table.nodup_keys_foldl (fun _ _ ht => Table.nodup_keys_set ht _ _) (by decide) pairs

theorem getD_groupBodies (pairs : List (Text × Text)) (k : Text) :
    ((groupBodies pairs).get? k).getD [] = bodiesOf pairs k := by
  induction pairs using List.reverseRecOn with
  | nil => rfl
  | append_singleton pairs p ih =>
    obtain ⟨k', body⟩ := p
    rw [groupBodies_concat, Table.update, Table.get?_set, bodiesOf, List.filter_append]
    by_cases h : k' = k
    · subst h
      have hlast : [(k', body)].filter (fun p => decide (p.1 = k')) = [(k', body)] := by simp
      have hmem : (bodiesOf pairs k').contains body =
          ((pairs.filter (·.1 = k')).map (·.2)).contains body := by
        rw [Bool.eq_iff_iff, List.contains_iff_mem, List.contains_iff_mem]
        exact List.mem_eraseDups
      rw [if_pos rfl, Option.getD_some, ih, hlast, List.map_append, List.map_singleton,
        eraseDups_concat, hmem]
      rfl
    · have hlast : [(k', body)].filter (fun p => decide (p.1 = k)) = [] := by simp [h]
      rw [if_neg (Ne.symm h), ih, hlast, List.append_nil, bodiesOf]

theorem eq_bodiesOf_of_mem (h : (k, bodies) ∈ groupBodies pairs) : bodies = bodiesOf pairs k := by
  rw [← getD_groupBodies, Table.get?_of_mem (nodup_keys_groupBodies pairs) h, Option.getD_some]

def addBody (body : Text) (bodies : List Text) : List Text :=
  if bodies.contains body then bodies else bodies ++ [body]

theorem mem_groupBodies (h : (k, bodies) ∈ groupBodies pairs) :
    bodies ≠ [] ∧ ∀ body ∈ bodies, (k, body) ∈ pairs := by
  refine Table.mem_gather (f := addBody) (fun body bodies => ?_) h
  rw [addBody]
  split_ifs with hcontains
  · exact ⟨List.ne_nil_of_mem (List.contains_iff_mem.mp hcontains), fun x => Or.inr⟩
  · refine ⟨by simp, fun x hx => ?_⟩
    simpa [or_comm] using hx

theorem groupBodies_ne_nil (h : pairs ≠ []) : groupBodies pairs ≠ [] :=
  Table.gather_ne_nil (f := addBody) h

theorem exists_of_mem_groupBodies (h : (k, bodies) ∈ groupBodies pairs) :
    ∃ body, (k, body) ∈ pairs := by
  obtain ⟨hne, hbodies⟩ := mem_groupBodies h
  obtain ⟨body, hbody⟩ := List.exists_mem_of_ne_nil bodies hne
  exact ⟨body, hbodies body hbody⟩

theorem bodiesOf_filter_ne {other : Text} (h : k ≠ other) :
    bodiesOf (pairs.filter (·.1 ≠ other)) k = bodiesOf pairs k := by
  rw [bodiesOf, List.filter_filter, bodiesOf]
  congr 2
  refine List.filter_congr fun p _ => ?_
  by_cases hk : p.1 = k <;> simp [hk, h]

def bodyPairs (rules : List Rule) : List (Text × Text) :=
  rules.map fun r => (r.selector, r.declarations)

def nestedBodies (rules : List Rule) : Table (List Text) :=
  groupBodies ((bodyPairs rules).filter (·.1 ≠ "&"))

theorem render_of_unconditional (h : ∀ r ∈ rules, r.conditions = []) :
    render rules false = join "\n"
      ((if bodiesOf (bodyPairs rules) "&" = [] then []
          else [join "\n" (bodiesOf (bodyPairs rules) "&")]) ++
        (nestedBodies rules).map fun (selector, bodies) => braced selector (join "\n" bodies)) := by
  have hdepth : depth rules = 0 := by
    unfold depth
    refine List.foldlRecOn (motive := fun d => d = 0) rules _ rfl fun d hd r hr => ?_
    rw [hd, h r hr]
    rfl
  have hplain : (rules.filterMap fun r =>
      if r.conditions.isEmpty then some (r.selector, r.declarations) else none) =
        bodyPairs rules := by
    rw [bodyPairs, ← List.filterMap_eq_map]
    refine List.filterMap_congr fun r hr => ?_
    rw [h r hr]
    rfl
  have hroot : ∀ p : Text × Text, (p.1 == ['&'] && !false) = decide (p.1 = "&") := by
    intro p
    rw [Bool.not_false, Bool.and_true, Bool.eq_iff_iff, beq_iff_eq, decide_eq_true_iff]
    rfl
  have hbodies : bodiesOf ((bodyPairs rules).filter fun p => p.1 = "&") "&" =
      bodiesOf (bodyPairs rules) "&" := by
    rw [bodiesOf, List.filter_filter]
    simp [bodiesOf]
  rw [render, hdepth, renderWithin]
  simp only [hplain, hroot, getD_groupBodies, hbodies, List.append_nil]
  simp only [List.isEmpty_iff, nestedBodies, ne_eq, decide_not]

end Rule

end Restyle
