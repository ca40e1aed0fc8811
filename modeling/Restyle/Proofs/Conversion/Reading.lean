import Mathlib.Data.List.Basic
import Restyle.Conversion.Basic
import Restyle.Proofs.Table
import Restyle.Reference.Basic

/-! # What declarations read

The groups of declarations look settings up under fixed keys, and in maps again
under fixed keys, and nothing but the text, the list or the map that is found
counts. So settings have the same declarations if they are alike: if under the
same keys they hold the same, however their entries are ordered and whatever
stands where nothing can be read.
-/

namespace Restyle

namespace Setting

/-- Nothing can be read: there is no setting, or it is nothing or an empty text. -/
def Unset (a : Option Setting) : Prop :=
  ∀ s ∈ a, s = none ∨ s = scalar []

mutual

/-- Settings that hold the same under the same keys. -/
inductive Alike : Setting → Setting → Prop where
  | none : Alike none none
  | scalar (t : Text) : Alike (scalar t) (scalar t)
  | list {items items' : List Setting} (h : AlikeItems items items') :
      Alike (list items) (list items')
  | map {entries entries' : Table Setting} (hempty : entries.isEmpty = entries'.isEmpty)
      (h : ∀ key, AlikeAt (entries.get? key) (entries'.get? key)) :
      Alike (map entries) (map entries')

inductive AlikeItems : List Setting → List Setting → Prop where
  | nil : AlikeItems [] []
  | cons {s s' : Setting} {items items' : List Setting} (h : Alike s s')
      (ht : AlikeItems items items') : AlikeItems (s :: items) (s' :: items')

inductive AlikeAt : Option Setting → Option Setting → Prop where
  | unset {a b : Option Setting} (ha : Unset a) (hb : Unset b) : AlikeAt a b
  | some {s s' : Setting} (h : Alike s s') : AlikeAt (some s) (some s')

end

/-- A reading that takes an empty text for nothing and does not tell alike settings apart. -/
structure Reads {α : Type} (f : Setting → α) (default : α) : Prop where
  none : f none = default
  empty : f (scalar []) = default
  alike : ∀ {s s' : Setting}, Alike s s' → f s = f s'

variable {α : Type} {s s' : Setting} {a b : Option Setting} {items items' : List Setting}
  {f : Setting → α} {d : α}

theorem unset_none : Unset .none := by simp [Unset]

theorem Unset.getD_map (h : Unset a) (hf : Reads f d) : (a.map f).getD d = d := by
  cases a with
  | none => rfl
  | some s =>
    rcases h s rfl with rfl | rfl
    · exact hf.none
    · exact hf.empty

namespace AlikeAt

theorem none : AlikeAt .none .none :=
  .unset unset_none unset_none

theorem getD_map (h : AlikeAt a b) (hf : Reads f d) : (a.map f).getD d = (b.map f).getD d := by
  cases h with
  | unset ha hb => rw [ha.getD_map hf, hb.getD_map hf]
  | some h => exact hf.alike h

theorem bind {f : Setting → Option α} (h : AlikeAt a b) (hf : Reads f .none) :
    a.bind f = b.bind f := by
  have hbind : ∀ a : Option Setting, a.bind f = (a.map f).getD .none := by
    rintro (_ | s) <;> rfl
  rw [hbind, hbind, h.getD_map hf]

theorem any {p : Setting → Bool} (h : AlikeAt a b) (hp : Reads p false) : a.any p = b.any p := by
  have hany : ∀ a : Option Setting, a.any p = (a.map p).getD false := by
    rintro (_ | s) <;> rfl
  rw [hany, hany, h.getD_map hp]

end AlikeAt

namespace Alike

theorem get? (h : Alike s s') (key : Text) : AlikeAt (s.get? key) (s'.get? key) := by
  cases h with
  | map _ h => exact h key
  | _ => exact .none

theorem isEmpty (h : Alike s s') : s.isEmpty = s'.isEmpty := by
  cases h with
  | list h => cases h <;> rfl
  | map hempty _ => exact hempty
  | _ => rfl

end Alike

theorem reads_text : Reads text? .none where
  none := rfl
  empty := rfl
  alike h := by cases h <;> rfl

theorem reads_present : Reads present? .none where
  none := rfl
  empty := rfl
  alike h := by cases h <;> rfl

theorem reads_scalar (p : Option Text → α) (hp : p (.some []) = p .none) :
    Reads (fun s => p s.scalar?) (p .none) where
  none := rfl
  empty := hp
  alike h := by cases h <;> rfl

theorem reads_color : Reads color? .none where
  none := rfl
  empty := rfl
  alike h := by
    cases h with
    | map _ h => exact (h "raw").bind reads_text
    | _ => rfl

theorem reads_truthy : Reads isTruthy false where
  none := rfl
  empty := rfl
  alike h := by
    cases h with
    | list h => exact congrArg (!·) (Alike.list h).isEmpty
    | map hempty h => exact congrArg (!·) (Alike.map hempty h).isEmpty
    | _ => rfl

theorem Unset.filter_eq_none (h : Unset a) : a.filter (!·.isEmpty) = .none := by
  rcases a with _ | s
  · rfl
  · rcases h s rfl with rfl | rfl <;> rfl

theorem AlikeAt.filter (h : AlikeAt a b) :
    Option.Rel Alike (a.filter (!·.isEmpty)) (b.filter (!·.isEmpty)) := by
  cases h with
  | unset ha hb =>
    rw [ha.filter_eq_none, hb.filter_eq_none]
    exact .none
  | some h =>
    rw [Option.filter_some, Option.filter_some, h.isEmpty]
    split_ifs
    · exact .some h
    · exact .none

theorem map_eq_of_rel (h : Option.Rel Alike a b) (hf : ∀ {s s'}, Alike s s' → f s = f s') :
    a.map f = b.map f := by
  cases h with
  | some h => rw [Option.map_some, Option.map_some, hf h]
  | none => rfl

theorem bind_eq_of_rel {f : Setting → Option α} (h : Option.Rel Alike a b)
    (hf : ∀ {s s'}, Alike s s' → f s = f s') : a.bind f = b.bind f := by
  cases h with
  | some h => rw [Option.bind_some, Option.bind_some, hf h]
  | none => rfl

theorem AlikeItems.filterMap {f : Setting → Option α} (h : AlikeItems items items')
    (hf : ∀ {s s'}, Alike s s' → f s = f s') : items.filterMap f = items'.filterMap f := by
  induction items generalizing items' with
  | nil =>
    cases h
    rfl
  | cons s items ih =>
    cases h with
    | cons hs ht => rw [List.filterMap_cons, List.filterMap_cons, hf hs, ih ht]

end Setting

namespace Settings

/-- A key without a colon that holds no references to classes. -/
def Declares (key : Text) : Prop :=
  ':' ∉ key ∧ key ≠ Reference.globalKey ∧ key ≠ Reference.namesKey

instance (key : Text) : Decidable (Declares key) :=
  inferInstanceAs (Decidable (_ ∧ _))

def Alike (s s' : Settings) : Prop :=
  ∀ key, Declares key → Setting.AlikeAt (Table.get? s key) (Table.get? s' key)

end Settings

namespace Setting.Alike

open Restyle.Group

variable {s s' : Setting} (h : s.Alike s')

include h

theorem textOf? (key : Text) : textOf? s key = textOf? s' key :=
  (h.get? key).bind reads_text

theorem colorOf? (key : Text) : colorOf? s key = colorOf? s' key :=
  (h.get? key).bind reads_color

theorem sideOrZero (side : Text) : sideOrZero s side = sideOrZero s' side :=
  congrArg (·.getD "0") ((h.get? side).bind reads_present)

theorem ofFields (fields : Table Text) : ofFields s fields = ofFields s' fields := by
  unfold Group.ofFields
  simp only [h.textOf?]

theorem calls? {read : Setting → Option Text} (hread : Reads read .none) (parts : Table Text) :
    calls? s parts read = calls? s' parts read := by
  have hpart : ∀ name, (s.get? name).bind read = (s'.get? name).bind read := fun name =>
    (h.get? name).bind hread
  unfold Group.calls?
  simp only [hpart]

end Setting.Alike

namespace Group

open Setting

theorem reads_backgroundImage : Reads backgroundImage [] where
  none := rfl
  empty := rfl
  alike h := by
    unfold backgroundImage
    simp only [h.textOf?]

theorem background_congr {s s' : Setting} (h : s.Alike s') : background s = background s' := by
  unfold background
  rw [h.colorOf?, (h.get? "image").getD_map reads_backgroundImage]

theorem gradientColor?_congr {s s' : Setting} (h : s.Alike s') :
    gradientColor? s = gradientColor? s' := by
  unfold gradientColor?
  rw [h.colorOf?, h.textOf?]

theorem reads_gradientColors :
    Reads (fun s => s.list?.map (·.filterMap gradientColor?)) .none where
  none := rfl
  empty := rfl
  alike h := by
    cases h with
    | list h => exact congrArg some (h.filterMap gradientColor?_congr)
    | _ => rfl

theorem gradient?_eq (s : Setting) : gradient? s =
    ((s.get? "colors").bind fun colors => colors.list?.map (·.filterMap gradientColor?)).bind
      fun (colors : List Text) => if colors.isEmpty then none else
        some ⟨"background-image",
          (if (s.get? "type").any (fun type => type.scalar?.any fun (t : Text) => t = "radial")
            then ("radial-gradient(" : Text) else "linear-gradient(") ++
          Text.join ", " colors ++ ")"⟩ := by
  have hradial : ((s.get? "type").bind scalar?).any (fun (t : Text) => t = "radial") =
      (s.get? "type").any fun type => type.scalar?.any fun (t : Text) => t = "radial" := by
    cases s.get? "type" <;> rfl
  unfold gradient?
  rw [hradial]
  rcases s.get? "colors" with _ | colors
  · rfl
  · cases colors <;> rfl

theorem gradient_congr {s s' : Setting} (h : s.Alike s') :
    (gradient? s).toList = (gradient? s').toList := by
  rw [gradient?_eq, gradient?_eq, (h.get? "colors").bind reads_gradientColors,
    (h.get? "type").any (reads_scalar (·.any fun (t : Text) => t = "radial") rfl)]

theorem reads_fourSides (all one : Text → Text) : Reads (fourSides all one) .none where
  none := rfl
  empty := rfl
  alike h := by
    cases h with
    | @map entries entries' hempty hmap =>
      have h := Alike.map hempty hmap
      simp only [fourSides, hempty, h.sideOrZero]
    | _ => rfl

theorem border_congr {s s' : Setting} (h : s.Alike s') : border s = border s' := by
  unfold border
  rw [(h.get? "width").bind (reads_fourSides _ _), h.textOf?, h.colorOf?,
    (h.get? "radius").bind (reads_fourSides _ _)]

theorem typography_congr {s s' : Setting} (h : s.Alike s') : typography s = typography s' := by
  unfold typography
  rw [h.ofFields, h.colorOf?, h.ofFields]

theorem spacing_congr {s s' : Setting} (h : s.Alike s') : spacing s = spacing s' := by
  unfold spacing
  rw [h.textOf?, h.textOf?]

theorem reads_ofCompound : Reads SideValues.ofCompound {} where
  none := rfl
  empty := rfl
  alike h := by
    cases h with
    | map _ h =>
      have hside : ∀ key, _ = _ := fun key => (h key).bind reads_present
      simp only [SideValues.ofCompound, hside]
    | _ => rfl

theorem shadowOfMap?_congr {s s' : Setting} (h : s.Alike s') : shadowOfMap? s = shadowOfMap? s' := by
  unfold shadowOfMap?
  rw [(h.get? "inset").any reads_truthy, h.colorOf?]
  refine map_eq_of_rel (h.get? "values").filter fun hvalues => ?_
  simp only [hvalues.sideOrZero]

theorem transform?_congr {s s' : Setting} (h : s.Alike s') : transform? s = transform? s' := by
  cases h with
  | map hempty h => exact (Alike.map hempty h).calls? reads_text transformParts
  | _ => rfl

theorem filter?_congr {s s' : Setting} (h : s.Alike s') : filter? s = filter? s' := by
  cases h with
  | map hempty h => exact (Alike.map hempty h).calls? reads_present filterParts
  | _ => rfl

theorem shadow?_congr {s s' : Setting} (h : s.Alike s') : shadow? s = shadow? s' := by
  cases h with
  | map hempty h => exact shadowOfMap?_congr (.map hempty h)
  | _ => rfl

end Group

namespace Settings.Alike

open Declaration

variable {s s' : Settings} {key : Text} {entries : Table Text} (h : s.Alike s')

include h

theorem text? (hk : Declares key) : s.text? key = s'.text? key :=
  (h key hk).bind Setting.reads_text

theorem present? (hk : Declares key) : s.present? key = s'.present? key :=
  (h key hk).bind Setting.reads_present

theorem nonEmpty? (hk : Declares key) :
    Option.Rel Setting.Alike (s.nonEmpty? key) (s'.nonEmpty? key) :=
  (h key hk).filter

theorem bind_nonEmpty? {f : Setting → Option Text} (hk : Declares key)
    (hf : ∀ {s s'}, Setting.Alike s s' → f s = f s') :
    (s.nonEmpty? key).bind f = (s'.nonEmpty? key).bind f :=
  Setting.bind_eq_of_rel (h.nonEmpty? hk) hf

theorem ofTexts (hk : ∀ e ∈ entries, Declares e.1) : ofTexts s entries = ofTexts s' entries := by
  unfold Declaration.ofTexts
  refine List.flatMap_congr fun ⟨key, property⟩ he => ?_
  dsimp only
  rw [h.text? (hk _ he)]

theorem ofPresent (hk : ∀ e ∈ entries, Declares e.1) :
    ofPresent s entries = ofPresent s' entries := by
  unfold Declaration.ofPresent
  refine List.flatMap_congr fun ⟨key, property⟩ he => ?_
  dsimp only
  rw [h.present? (hk _ he)]

theorem layout : Group.layout s = Group.layout s' := by
  unfold Group.layout
  rw [h.ofTexts (by decide), h.ofPresent (by decide)]

theorem flexDirection? : Group.flexDirection? s = Group.flexDirection? s' := by
  unfold Group.flexDirection?
  rw [h.text? (by decide), h.text? (by decide)]

theorem flexContainer : Group.flexContainer s = Group.flexContainer s' := by
  unfold Group.flexContainer
  rw [h.flexDirection?, h.ofTexts (by decide), h.ofPresent (by decide)]

theorem flexDisplay : Group.flexDisplay s = Group.flexDisplay s' := by
  unfold Group.flexDisplay
  rw [h.flexContainer, h.flexDirection?, h.text? (by decide)]

theorem flexbox : Group.flexbox s = Group.flexbox s' := by
  unfold Group.flexbox
  simp (disch := decide) only [h.flexDisplay, h.flexContainer, h.ofTexts, h.ofPresent]

theorem gridPlacement {axis : Text} (ha : ':' ∉ axis) (property : Text) :
    Group.gridPlacement s axis property = Group.gridPlacement s' axis property := by
  have hkey : ∀ t : Text, ':' ∉ t → Declares (("_gridItem" : Text) ++ axis ++ t) := by
    intro t ht
    have hstart {u : Text} (hu : u.take 2 = ['_', 'c']) : ("_gridItem" : Text) ++ axis ++ t ≠ u := by
      rintro rfl
      exact absurd hu (by simp)
    refine ⟨fun hmem => ?_, hstart (by decide), hstart (by decide)⟩
    rcases List.mem_append.mp hmem with hmem | hmem
    · exact (List.mem_append.mp hmem).elim (by decide) ha
    · exact ht hmem
  have hlines (start stop : Text) : ∀ e ∈ [(("_gridItem" : Text) ++ axis ++ "Start", start),
      (("_gridItem" : Text) ++ axis ++ "End", stop)], Declares e.1 := by
    intro e he
    rcases List.mem_pair.mp he with rfl | rfl <;> exact hkey _ (by decide)
  unfold Group.gridPlacement
  dsimp only
  rw [h.ofTexts (hlines _ _), h.text? (hkey _ (by decide))]

theorem grid : Group.grid s = Group.grid s' := by
  unfold Group.grid
  simp (disch := decide) only [h.gridPlacement, h.ofTexts, h.ofPresent]

theorem sizing : Group.sizing s = Group.sizing s' := by
  have hbounds : ∀ e ∈ Group.sizeBounds, Declares e.1 ∧ Declares e.2.1 := by decide
  unfold Group.sizing Group.width
  simp (disch := decide) only [h.text?, h.ofTexts]
  congr 2
  refine List.flatMap_congr fun e he => ?_
  rw [h.text? (hbounds e he).1, h.text? (hbounds e he).2]

theorem read {compound : Option Text} {keys : Group.SideKeys}
    (hc : ∀ key ∈ compound, Declares key)
    (hk : ∀ key ∈ [keys.top, keys.right, keys.bottom, keys.left], Declares key) :
    Group.SideValues.read s compound keys = Group.SideValues.read s' compound keys := by
  have hcompound : Setting.AlikeAt (compound.bind (Table.get? s)) (compound.bind (Table.get? s')) := by
    cases compound with
    | none => exact .none
    | some key => exact h key (hc key rfl)
  unfold Group.SideValues.read
  rw [hcompound.getD_map Group.reads_ofCompound, h.present? (hk keys.top (by simp)),
    h.present? (hk keys.right (by simp)), h.present? (hk keys.bottom (by simp)),
    h.present? (hk keys.left (by simp))]

theorem marginPadding : Group.marginPadding s = Group.marginPadding s' := by
  unfold Group.marginPadding
  rw [h.read (by decide) (by decide), h.read (by decide) (by decide)]

theorem position : Group.position s = Group.position s' := by
  unfold Group.position
  rw [h.ofTexts (by decide), h.read (by decide) (by decide)]

theorem effects : Group.effects s = Group.effects s' := by
  unfold Group.effects
  simp (disch := decide) only [h.bind_nonEmpty? _ Group.transform?_congr,
    h.bind_nonEmpty? _ Group.filter?_congr, h.bind_nonEmpty? _ Group.shadow?_congr, h.ofTexts]

theorem content : Conversion.content s = Conversion.content s' := by
  have hread : Setting.Reads (fun s => s.scalar?.getD []) ([] : Text) :=
    Setting.reads_scalar (·.getD []) rfl
  have hscalar : ∀ a : Option Setting, (a.bind Setting.scalar?).getD [] =
      (a.map fun s => s.scalar?.getD []).getD [] := by
    rintro (_ | s) <;> rfl
  have hkey : Declares "_content" := by decide
  unfold Conversion.content
  rw [hscalar, (h _ hkey).getD_map hread, hscalar]

theorem ofFirst {keys : List Text} (hk : ∀ key ∈ keys, Declares key)
    {convert : Setting → List Declaration}
    (hconvert : ∀ {s s'}, Setting.Alike s s' → convert s = convert s') :
    Conversion.ofFirst s keys convert = Conversion.ofFirst s' keys convert := by
  have hfirst : Option.Rel Setting.Alike (keys.findSome? (s.nonEmpty? ·))
      (keys.findSome? (s'.nonEmpty? ·)) := by
    induction keys with
    | nil => exact .none
    | cons key keys ih =>
      obtain ⟨hkey, hkeys⟩ := List.forall_mem_cons.mp hk
      have hhead := h.nonEmpty? hkey
      rw [List.findSome?_cons, List.findSome?_cons]
      revert hhead
      generalize s.nonEmpty? key = a
      generalize s'.nonEmpty? key = b
      rintro (hs | _)
      · exact .some hs
      · exact ih hkeys
  unfold Conversion.ofFirst
  rw [Setting.map_eq_of_rel hfirst hconvert]

/-- The declarations of settings depend only on what can be read under the keys of declarations. -/
theorem declarations : Conversion.declarations s = Conversion.declarations s' := by
  unfold Conversion.declarations
  rw [h.content, h.layout, h.flexbox, h.grid, h.sizing, h.marginPadding, h.position, h.effects,
    h.ofFirst (by decide) Group.background_congr, h.ofFirst (by decide) Group.gradient_congr,
    h.ofFirst (by decide) Group.border_congr, h.ofFirst (by decide) Group.typography_congr,
    h.ofFirst (by decide) Group.spacing_congr]

theorem plainCss : Conversion.plainCss s = Conversion.plainCss s' := by
  unfold Conversion.plainCss
  rw [h.declarations]

end Settings.Alike

end Restyle
