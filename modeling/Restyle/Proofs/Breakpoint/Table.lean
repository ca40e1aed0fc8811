import Mathlib
import Restyle.Breakpoint.Resolver
import Restyle.Proofs.Table
import Restyle.Proofs.Text.Blank

/-! # The table of breakpoints

Whatever overrides there are, the table of breakpoints has every key once. Its
keys are clean and not empty, and its widths are positive, so every breakpoint
has a media condition.
-/

namespace Restyle

open Text

namespace Breakpoint

theorem cleanKey_cleanKey (t : Text) : cleanKey (cleanKey t) = cleanKey t := by
  have hlower : lower (cleanKey t) = cleanKey t := by
    refine (List.map_congr_left fun c hc => ?_).trans (List.map_id _)
    obtain ⟨d, -, rfl⟩ := List.mem_map.mp (List.mem_of_mem_filter hc)
    exact Char.toLower_toLower_eq_toLower d
  rw [cleanKey, hlower]
  simp [cleanKey]

structure Sound (e : Text × Breakpoint) : Prop where
  key : e.2.key = e.1
  clean : cleanKey e.1 = e.1
  ne_nil : e.1 ≠ []
  width : 0 < e.2.width

variable {t : Table Breakpoint} {o : Override} {b : Breakpoint} {bs : List Breakpoint}

theorem sound_builtin : ∀ e ∈ builtin, Sound e := by
  have h : ∀ e ∈ builtin, e.2.key = e.1 ∧ cleanKey e.1 = e.1 ∧ e.1 ≠ [] ∧ 0 < e.2.width := by
    decide
  exact fun e he => ⟨(h e he).1, (h e he).2.1, (h e he).2.2.1, (h e he).2.2.2⟩

theorem maxWidth_pos : 0 < maxWidth := by decide

theorem widthOfReal?_pos {x : Binary64} {width : Nat} (h : Override.widthOfReal? x = some width) :
    0 < width := by
  have hmax := maxWidth_pos
  cases x with
  | finite negative m e =>
    simp only [Override.widthOfReal?] at h
    split_ifs at h with hz
    simp only [Bool.or_eq_true, decide_eq_true_eq, not_or] at hz
    obtain rfl := Option.some.inj h
    exact Nat.lt_min.mpr ⟨Nat.pos_of_ne_zero hz.2, hmax⟩
  | infinite negative =>
    simp only [Override.widthOfReal?] at h
    split_ifs at h
    exact Option.some.inj h ▸ hmax
  | nan => exact Option.some.inj h ▸ hmax

theorem widthOf?_pos {j : Json} {width : Nat} (h : Override.widthOf? j = some width) :
    0 < width := by
  unfold Override.widthOf? at h
  split at h
  · split_ifs at h
    have hmax := maxWidth_pos
    obtain rfl := Option.some.inj h
    omega
  · exact widthOfReal?_pos h
  · obtain ⟨x, -, hx⟩ := Option.bind_eq_some_iff.mp h
    exact widthOfReal?_pos hx
  · exact absurd h (by simp)

theorem cleanKey_keyOf (j : Json) : cleanKey (Override.keyOf j) = Override.keyOf j := by
  unfold Override.keyOf
  split
  · exact cleanKey_cleanKey _
  · exact cleanKey_cleanKey _
  · rfl

theorem sound_ofJson? {j : Json} (h : Override.ofJson? j = some o) :
    Sound (o.key, ⟨o.key, .most, o.width⟩) := by
  simp only [Override.ofJson?] at h
  split at h
  · exact absurd h (by simp)
  · next width hw =>
    split_ifs at h with hkey
    obtain ⟨j', -, hj'⟩ := Option.bind_eq_some_iff.mp hw
    obtain rfl := Option.some.inj h
    refine ⟨rfl, ?_, by simpa using hkey, widthOf?_pos hj'⟩
    dsimp only
    cases j.get? "key" with
    | none => rfl
    | some k => exact cleanKey_keyOf k

theorem sound_override (ht : ∀ e ∈ t, Sound e) (ho : Sound (o.key, ⟨o.key, .most, o.width⟩)) :
    ∀ e ∈ override t o, Sound e := by
  intro e he
  unfold override at he
  split_ifs at he
  · rcases Table.mem_set he with rfl | he
    · have hmax := maxWidth_pos
      have hdesktop : cleanKey desktop = desktop ∧ desktop ≠ [] := by decide
      exact ⟨rfl, hdesktop.1, hdesktop.2, Nat.lt_min.mpr ⟨Nat.succ_pos _, hmax⟩⟩
    · exact ht e he
  · rcases Table.mem_set he with rfl | he
    · exact ho
    · exact ht e he

theorem nodup_keys_override (ht : t.keys.Nodup) (o : Override) : (override t o).keys.Nodup := by
  unfold override
  split_ifs <;> exact Table.nodup_keys_set ht _ _

def overridden (entries : List Json) : Table Breakpoint :=
  (entries.filterMap Override.ofJson?).foldl override builtin

theorem sound_foldl {os : List Override} (hos : ∀ o ∈ os, Sound (o.key, ⟨o.key, .most, o.width⟩))
    (ht : ∀ e ∈ t, Sound e) : ∀ e ∈ os.foldl override t, Sound e := by
  induction os generalizing t with
  | nil => exact ht
  | cons o os ih =>
    obtain ⟨ho, hos⟩ := List.forall_mem_cons.mp hos
    exact ih hos (sound_override ht ho)

theorem sound_overridden (entries : List Json) : ∀ e ∈ overridden entries, Sound e := by
  refine sound_foldl (fun o ho => ?_) sound_builtin
  obtain ⟨j, -, hj⟩ := List.mem_filterMap.mp ho
  exact sound_ofJson? hj

theorem nodup_keys_overridden (entries : List Json) : (overridden entries).keys.Nodup :=
  Table.nodup_keys_foldl (fun _ o ht => nodup_keys_override ht o) (by decide) _

theorem insertByWidth_perm (b : Breakpoint) (bs : List Breakpoint) :
    (insertByWidth b bs).Perm (b :: bs) := by
  induction bs with
  | nil => exact .refl _
  | cons c bs ih =>
    rw [insertByWidth]
    split_ifs
    · exact .refl _
    · exact (ih.cons c).trans (.swap b c bs)

theorem sortByWidth_perm (bs : List Breakpoint) : (sortByWidth bs).Perm bs := by
  induction bs with
  | nil => exact .refl _
  | cons b bs ih => exact (insertByWidth_perm b _).trans (ih.cons b)

theorem table_perm (entries : List Json) : (table entries).Perm (overridden entries) := by
  have hnodup := nodup_keys_overridden entries
  have hvalues := ((sortByWidth_perm _).append_left ((overridden entries).get? desktop).toList).trans
    (Table.get?_append_erase_perm hnodup desktop)
  have hkeys : (overridden entries).values.map (fun b => (b.key, b)) = overridden entries := by
    rw [Table.values, List.map_map]
    refine (List.map_congr_left fun e he => ?_).trans (List.map_id _)
    exact Prod.ext (sound_overridden entries e he).key rfl
  have hmap := hvalues.map fun b => (b.key, b)
  rwa [hkeys] at hmap

theorem sound_table (entries : List Json) : ∀ e ∈ table entries, Sound e :=
  fun e he => sound_overridden entries e ((table_perm entries).mem_iff.mp he)

theorem nodup_keys_table (entries : List Json) : (table entries).keys.Nodup :=
  ((table_perm entries).map Prod.fst).nodup_iff.mpr (nodup_keys_overridden entries)

end Breakpoint

namespace Resolver

def run (r : Resolver) (sts : List Step) : Resolver :=
  sts.foldl (fun r st => (r.step st).2) r

/-- What a resolver remembers is the table of its overrides. -/
structure Coherent (r : Resolver) : Prop where
  known : ∀ t ∈ r.known, t = Breakpoint.table r.overrides

variable {r : Resolver}

theorem coherent_ofOverrides (overrides : List Json) : (ofOverrides overrides).Coherent :=
  ⟨by simp [ofOverrides]⟩

namespace Coherent

theorem breakpoints_eq (h : r.Coherent) : r.breakpoints = Breakpoint.table r.overrides := by
  unfold breakpoints
  rcases hk : r.known with _ | t
  · rfl
  · exact h.known t hk

theorem remember (h : r.Coherent) : r.remember.Coherent :=
  ⟨fun _ ht => (Option.some.inj ht).symm.trans h.breakpoints_eq⟩

theorem nodup_keys (h : r.Coherent) : r.breakpoints.keys.Nodup :=
  h.breakpoints_eq ▸ Breakpoint.nodup_keys_table r.overrides

theorem sound (h : r.Coherent) : ∀ e ∈ r.breakpoints, Breakpoint.Sound e :=
  h.breakpoints_eq ▸ Breakpoint.sound_table r.overrides

theorem queries_eq (h : r.Coherent) (range : Bool) :
    r.queries range = r.breakpoints.map fun (key, b) => (key, b.condition range) := by
  unfold queries
  rw [← List.filterMap_eq_map]
  refine List.filterMap_congr fun ⟨key, b⟩ he => ?_
  exact if_neg (h.sound _ he).width.ne'

/-- No question and no change makes a resolver remember anything else. -/
theorem step (h : r.Coherent) (st : Step) : (r.step st).2.Coherent := by
  cases st with
  | setOverrides overrides => exact ⟨by simp [Resolver.step, setOverrides, forget]⟩
  | forget => exact ⟨by simp [Resolver.step, Resolver.forget]⟩
  | breakpoints => exact h.remember
  | queries range => exact h.remember
  | query key => exact h.remember
  | isBreakpoint key => exact h.remember
  | keysIn settings => exact h.remember

theorem run (h : r.Coherent) (sts : List Step) : (r.run sts).Coherent := by
  induction sts generalizing r with
  | nil => exact h
  | cons st sts ih => exact ih (h.step st)

end Coherent

theorem coherent_run (overrides : List Json) (sts : List Step) :
    ((ofOverrides overrides).run sts).Coherent :=
  (coherent_ofOverrides overrides).run sts

end Resolver

end Restyle
