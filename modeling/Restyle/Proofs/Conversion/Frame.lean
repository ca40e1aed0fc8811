import Mathlib.Data.List.Perm.Basic
import Restyle.Proofs.Conversion.Reading

/-! # What declarations are made of

Settings have the same declarations if they agree under the keys that
declarations are read from, whatever else they hold: no such key has a colon,
and none holds references to classes. The order of the settings does not count,
nor does that of the entries of a map in them, at any depth.
-/

namespace Restyle

namespace Setting

mutual

theorem Alike.refl : ∀ s : Setting, Alike s s
  | .none => .none
  | .scalar t => .scalar t
  | .list items => .list (AlikeItems.refl items)
  | .map entries => .map rfl (alikeAt_get?_self entries)

theorem AlikeItems.refl : ∀ items : List Setting, AlikeItems items items
  | [] => .nil
  | s :: items => .cons (Alike.refl s) (AlikeItems.refl items)

theorem alikeAt_get?_self : ∀ (entries : List (Text × Setting)) (key : Text),
    AlikeAt (Table.get? entries key) (Table.get? entries key)
  | [], _ => .none
  | (k, s) :: entries, key => by
    rw [Table.get?_cons]
    split_ifs
    · exact .some (Alike.refl s)
    · exact alikeAt_get?_self entries key

end

theorem AlikeAt.refl (a : Option Setting) : AlikeAt a a := by
  cases a with
  | none => exact .none
  | some s => exact .some (Alike.refl s)

mutual

/-- The same setting with the entries of maps in another order, at any depth. Lists keep theirs. -/
inductive Rearranged : Setting → Setting → Prop where
  | none : Rearranged none none
  | scalar (t : Text) : Rearranged (scalar t) (scalar t)
  | list {items items' : List Setting} (h : RearrangedItems items items') :
      Rearranged (list items) (list items')
  | map {entries moved entries' : Table Setting} (hkeys : entries.keys.Nodup)
      (h : RearrangedEntries entries moved) (hperm : moved.Perm entries') :
      Rearranged (map entries) (map entries')

inductive RearrangedItems : List Setting → List Setting → Prop where
  | nil : RearrangedItems [] []
  | cons {s s' : Setting} {items items' : List Setting} (h : Rearranged s s')
      (ht : RearrangedItems items items') : RearrangedItems (s :: items) (s' :: items')

inductive RearrangedEntries : List (Text × Setting) → List (Text × Setting) → Prop where
  | nil : RearrangedEntries [] []
  | cons {s s' : Setting} {entries entries' : List (Text × Setting)} (key : Text)
      (h : Rearranged s s') (ht : RearrangedEntries entries entries') :
      RearrangedEntries ((key, s) :: entries) ((key, s') :: entries')

end

theorem RearrangedEntries.keys_eq {entries entries' : Table Setting}
    (h : RearrangedEntries entries entries') : entries.keys = entries'.keys := by
  induction entries generalizing entries' with
  | nil =>
    cases h
    rfl
  | cons e entries ih =>
    cases h with
    | cons key _ ht => exact congrArg (key :: ·) (ih ht)

theorem get?_perm {entries entries' : Table Setting} (hkeys : entries.keys.Nodup)
    (h : entries.Perm entries') (key : Text) : entries.get? key = entries'.get? key := by
  have hkeys' : entries'.keys.Nodup := (h.map Prod.fst).nodup_iff.mp hkeys
  cases hget : entries'.get? key with
  | some s => exact Table.get?_of_mem hkeys (h.mem_iff.mpr (Table.mem_of_get? hget))
  | none =>
    refine Table.get?_eq_none fun hmem => ?_
    obtain ⟨e, he, rfl⟩ := List.mem_map.mp hmem
    have hsome := Table.get?_of_mem hkeys' (h.mem_iff.mp he)
    exact absurd (hget.symm.trans hsome) (by simp)

mutual

theorem Rearranged.alike : ∀ {s s' : Setting}, Rearranged s s' → Alike s s'
  | .none, _, .none => .none
  | .scalar t, _, .scalar _ => .scalar t
  | .list _, _, .list h => .list h.alike
  | .map _, _, .map hkeys h hperm => by
    refine .map ?_ fun key => ?_
    · have hlength := congrArg List.length h.keys_eq
      rw [Table.keys, Table.keys, List.length_map, List.length_map] at hlength
      rw [Bool.eq_iff_iff, List.isEmpty_iff_length_eq_zero, List.isEmpty_iff_length_eq_zero,
        hlength, hperm.length_eq]
    · rw [← get?_perm (h.keys_eq ▸ hkeys) hperm]
      exact h.alikeAt key

theorem RearrangedItems.alike : ∀ {items items' : List Setting}, RearrangedItems items items' →
    AlikeItems items items'
  | [], _, .nil => .nil
  | _ :: _, _, .cons h ht => .cons h.alike ht.alike

theorem RearrangedEntries.alikeAt : ∀ {entries entries' : List (Text × Setting)},
    RearrangedEntries entries entries' → ∀ key,
      AlikeAt (Table.get? entries key) (Table.get? entries' key)
  | [], _, .nil, _ => .none
  | _ :: _, _, .cons k h ht, key => by
    rw [Table.get?_cons, Table.get?_cons]
    split_ifs
    · exact .some h.alike
    · exact ht.alikeAt key

end

end Setting

namespace Settings

def Rearranged (s s' : Settings) : Prop :=
  Setting.Rearranged (.map s) (.map s')

/-- Agreement under all keys that declarations can come from. -/
def SameDeclared (s s' : Settings) : Prop :=
  ∀ key, Declares key → Table.get? s key = Table.get? s' key

def SameNamed (s s' : Settings) : Prop :=
  ∀ key, ':' ∉ key → Table.get? s key = Table.get? s' key

variable {s s' : Settings}

theorem Rearranged.alike (h : s.Rearranged s') : s.Alike s' :=
  fun key _ => (Setting.Rearranged.alike h).get? key

/-- The order of settings does not show in their declarations. -/
theorem plainCss_rearranged (h : s.Rearranged s') :
    Conversion.plainCss s = Conversion.plainCss s' :=
  h.alike.plainCss

def faded : Settings :=
  [("_padding", .map [("top", .scalar "1px"), ("left", .scalar "2px")]),
    ("_gradient", .map [("type", .scalar "radial"),
      ("colors", .list [.map [("color", .scalar "red"), ("stop", .scalar "10")], .scalar "blue"])])]

def fadedBackwards : Settings :=
  [("_gradient", .map [
      ("colors", .list [.map [("stop", .scalar "10"), ("color", .scalar "red")], .scalar "blue"]),
      ("type", .scalar "radial")]),
    ("_padding", .map [("left", .scalar "2px"), ("top", .scalar "1px")])]

theorem plainCss_rearranged_faded : faded.Rearranged fadedBackwards ∧ faded.keys ≠ fadedBackwards.keys ∧
    Conversion.plainCss faded = Conversion.plainCss fadedBackwards := by
  have hpair : ∀ {k l : Text} {a a' b b' : Setting}, k ≠ l → Setting.Rearranged a a' →
      Setting.Rearranged b b' → Setting.Rearranged (.map [(k, a), (l, b)]) (.map [(l, b'), (k, a')]) :=
    fun hne ha hb => .map (by simpa [Table.keys] using hne) (.cons _ ha (.cons _ hb .nil)) (.swap _ _ _)
  have hfaded : faded.Rearranged fadedBackwards := by
    refine hpair (by decide) (hpair (by decide) (.scalar _) (.scalar _)) (hpair (by decide) (.scalar _) ?_)
    exact .list (.cons (hpair (by decide) (.scalar _) (.scalar _)) (.cons (.scalar _) .nil))
  exact ⟨hfaded, by decide, plainCss_rearranged hfaded⟩

namespace SameDeclared

theorem alike (h : s.SameDeclared s') : s.Alike s' := by
  intro key hkey
  rw [h key hkey]
  exact .refl _

theorem declarations (h : s.SameDeclared s') :
    Conversion.declarations s = Conversion.declarations s' :=
  h.alike.declarations

theorem plainCss (h : s.SameDeclared s') : Conversion.plainCss s = Conversion.plainCss s' :=
  h.alike.plainCss

end SameDeclared

namespace SameNamed

theorem sameDeclared (h : s.SameNamed s') : s.SameDeclared s' :=
  fun key hk => h key hk.1

theorem declarations (h : s.SameNamed s') :
    Conversion.declarations s = Conversion.declarations s' :=
  h.sameDeclared.declarations

theorem plainCss (h : s.SameNamed s') : Conversion.plainCss s = Conversion.plainCss s' :=
  h.sameDeclared.plainCss

end SameNamed

theorem sameNamed_filter {p : Text × Setting → Bool}
    (hp : ∀ e ∈ s, ':' ∉ e.1 → p e = true) : SameNamed (s.filter p) s := by
  intro key hk
  induction s with
  | nil => rfl
  | cons e s ih =>
    obtain ⟨key', value⟩ := e
    have ih := ih fun e he => hp e (List.mem_cons_of_mem _ he)
    rw [List.filter_cons, Table.get?_cons]
    split_ifs with hkept heq heq
    · rw [Table.get?_cons, if_pos heq]
    · rw [Table.get?_cons, if_neg heq, ih]
    · exact absurd (hp _ List.mem_cons_self (heq ▸ hk)) hkept
    · exact ih

end Settings

end Restyle
