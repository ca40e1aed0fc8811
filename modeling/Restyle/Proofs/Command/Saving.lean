import Restyle.Command.Run
import Restyle.Proofs.Session.Conversion
import Restyle.Proofs.Store.Persistence

/-! # Saving a conversion

A conversion is saved in two commits, first the styles with their map and then
the declarations of utility classes. Each is all or nothing, but both together
are so only if the second one does not fail alone: what it leaves is the styles
of this run beside the declarations of an earlier one.
-/

namespace Restyle

namespace Session

open Table

theorem nodup_keys_register {u : Utility} (h : u.inline.keys.Nodup) (c : GlobalClass) :
    (u.register c).inline.keys.Nodup := by
  have hremember : ∀ name, (u.remember name).inline = u.inline := by
    intro name
    unfold Utility.remember
    split <;> rfl
  unfold Utility.register
  dsimp only
  split_ifs
  · exact h
  · rwa [hremember]
  · refine nodup_keys_setAll ?_ _
    rwa [hremember]

theorem nodup_keys_foldl_add {sorting : Sorting} (h : sorting.utility.inline.keys.Nodup)
    (cs : List GlobalClass) : (cs.foldl Sorting.add sorting).utility.inline.keys.Nodup := by
  induction cs generalizing sorting with
  | nil => exact h
  | cons c cs ih =>
    refine ih ?_
    unfold Sorting.add
    split_ifs
    · exact nodup_keys_register h c
    · exact h
    · exact h

theorem nodup_keys_inline (s : Session) (classes : List GlobalClass) (items : List Item) :
    (s.convert classes items).1.inline.keys.Nodup := by
  have hreset : ({ utility := s.utility.reset } : Sorting).utility.inline.keys.Nodup :=
    List.nodup_nil
  exact nodup_keys_foldl_add hreset _

theorem nodup_keys_styleMap (s : Session) (classes : List GlobalClass) (items : List Item) :
    (s.convert classes items).1.styleMap.keys.Nodup :=
  nodup_keys_foldl (t := []) (fun _ _ ht => nodup_keys_setAll ht _) List.nodup_nil _

end Session

namespace Command

open Store

/-- The document of the first commit: the styles and the map of a conversion, in a new version. -/
def firstDocument (d : Document) (o : Session.Output) : Document :=
  importedDocument { document := d } o.styles.values o.styleMap

/-- The document of the second commit. -/
def secondDocument (d : Document) (o : Session.Output) : Document :=
  { firstDocument d o with inline := o.inline }

section

variable {σ : Type} [FileSystem (StateM σ)] {path : Text} {w w₁ w₂ : σ} {d : Document}
  {o : Session.Output} {e : StoreError}

/-- A save that fails leaves in the file what was found there before. -/
def AllOrNothing (path : Text) (o : Session.Output) (w : σ) : Prop :=
  ∀ e, ((save path o : StateM σ _).run w).1 = .error e →
    found path ((save path o : StateM σ _).run w).2 = found path w

theorem ordered_firstDocument (hd : d.Ordered) (ho : o.styleMap.keys.Nodup) :
    (firstDocument d o).Ordered :=
  ⟨Table.nodup_keys_ofList _, ho, hd.inline⟩

theorem ordered_secondDocument (d : Document) (ho : o.styleMap.keys.Nodup)
    (hinline : o.inline.keys.Nodup) : (secondDocument d o).Ordered :=
  ⟨Table.nodup_keys_ofList _, ho, hinline⟩

theorem firstDocument_ne (d : Document) (o : Session.Output) : firstDocument d o ≠ d := by
  intro h
  have hversion : d.version + 1 = d.version := congrArg Document.version h
  simp at hversion

theorem importStyles_run {r : Except StoreError Unit}
    (hfirst : (writeAt path (firstDocument d o) : StateM σ _).run w = (r, w₁)) :
    (importStyles (writeAt path) o.styles.values o.styleMap { document := d } : StateM σ _).run w =
      (written { document := d } (importSummary { document := d } o.styles.values o.styleMap)
        (firstDocument d o) r, w₁) := by
  rw [importStyles_eq_written, map_eq_pure_bind]
  exact run_bind_of_eq hfirst _

theorem save_run_error (h : WritesWhole σ path) (hd : found path w = .ok d)
    (hfirst : (writeAt path (firstDocument d o) : StateM σ _).run w = (.error e, w₁)) :
    (save path o : StateM σ _).run w = (.error e, w₁) := by
  have hopen := openAt_run h w
  rw [hd] at hopen
  have himport := importStyles_run hfirst
  rw [save, run_bind_of_eq hopen]
  dsimp only [Except.map]
  rw [importAll, bind_assoc, run_bind_of_eq himport]
  rfl

theorem save_run_ok (h : WritesWhole σ path) (hd : found path w = .ok d)
    {r : Except StoreError Unit}
    (hfirst : (writeAt path (firstDocument d o) : StateM σ _).run w = (.ok (), w₁))
    (hsecond : (writeAt path (secondDocument d o) : StateM σ _).run w₁ = (r, w₂)) :
    (save path o : StateM σ _).run w =
      (r.map fun _ => importSummary { document := d } o.styles.values o.styleMap, w₂) := by
  have hopen := openAt_run h w
  rw [hd] at hopen
  have himport := importStyles_run hfirst
  have hsave : (saveInline (writeAt path) o.inline
      (rebuild { document := firstDocument d o }) : StateM σ _).run w₁ =
      (saved (rebuild { document := firstDocument d o }) (secondDocument d o) r, w₂) := by
    rw [saveInline_eq_saved, map_eq_pure_bind]
    exact run_bind_of_eq hsecond _
  rw [save, run_bind_of_eq hopen]
  dsimp only [Except.map]
  rw [importAll, bind_assoc, run_bind_of_eq himport]
  dsimp only [written]
  rw [bind_assoc, run_bind_of_eq hsave]
  cases r <;> rfl

/-- If the second commit fails alone, then the first document stays in the file. -/
theorem found_of_second_failed (h : WritesWhole σ path) (hd : found path w = .ok d)
    (ho : o.styleMap.keys.Nodup)
    (hfirst : (writeAt path (firstDocument d o) : StateM σ _).run w = (.ok (), w₁))
    (hsecond : (writeAt path (secondDocument d o) : StateM σ _).run w₁ = (.error e, w₂)) :
    (save path o : StateM σ _).run w = (.error e, w₂) ∧
      found path w₂ = .ok (firstDocument d o) := by
  have hordered := ordered_firstDocument (ordered_of_documentIn hd) ho
  refine ⟨save_run_ok h hd hfirst hsecond, ?_⟩
  rw [found_of_failed h hsecond, found_of_written h hordered hfirst]

theorem allOrNothing_iff (h : WritesWhole σ path) (hd : found path w = .ok d)
    (ho : o.styleMap.keys.Nodup) {r₁ r₂ : Except StoreError Unit}
    (hfirst : (writeAt path (firstDocument d o) : StateM σ _).run w = (r₁, w₁))
    (hsecond : (writeAt path (secondDocument d o) : StateM σ _).run w₁ = (r₂, w₂)) :
    AllOrNothing path o w ↔ (r₁ = .ok () → r₂ = .ok ()) := by
  cases r₁ with
  | error e =>
    refine iff_of_true (fun _ _ => ?_) fun hok => ?_
    · rw [save_run_error h hd hfirst]
      exact found_of_failed h hfirst
    · cases hok
  | ok _ =>
    cases r₂ with
    | error e =>
      obtain ⟨hrun, hfound⟩ := found_of_second_failed h hd ho hfirst hsecond
      refine iff_of_false (fun hall => ?_) fun hok => ?_
      · have hsame := hall e (by rw [hrun])
        rw [hrun, hfound, hd] at hsame
        exact firstDocument_ne d o (Except.ok.inj hsame)
      · cases hok rfl
    | ok _ =>
      refine iff_of_true (fun e he => ?_) fun _ => rfl
      rw [save_run_ok h hd hfirst hsecond] at he
      cases he

/-- Saving a conversion is all or nothing exactly if the second commit does not fail after the first
one has succeeded. If it does, then the styles, the map and the version of this run stay in the file
beside the declarations that were there before. -/
theorem save_allOrNothing_iff (h : WritesWhole σ path) (w : σ) (d : Document)
    (hd : found path w = .ok d) (session : Session) (classes : List GlobalClass)
    (items : List Item) :
    let o := (session.convert classes items).1
    let first := (writeAt path (firstDocument d o) : StateM σ _).run w
    let second := (writeAt path (secondDocument d o) : StateM σ _).run first.2
    let result := (save path o : StateM σ _).run w
    (AllOrNothing path o w ↔ (first.1 = .ok () → second.1 = .ok ())) ∧
    (∀ e, first.1 = .ok () → second.1 = .error e →
      result.1 = .error e ∧ found path result.2 = .ok (firstDocument d o) ∧
        firstDocument d o ≠ d) ∧
    (first.1 = .ok () → second.1 = .ok () →
      (∃ summary, result.1 = .ok summary) ∧ found path result.2 = .ok (secondDocument d o)) := by
  intro o first second result
  have ho : o.styleMap.keys.Nodup := session.nodup_keys_styleMap classes items
  have hinline : o.inline.keys.Nodup := session.nodup_keys_inline classes items
  refine ⟨allOrNothing_iff h hd ho rfl rfl, fun e hfirst hsecond => ?_, fun hfirst hsecond => ?_⟩
  · obtain ⟨hrun, hfound⟩ :=
      found_of_second_failed h hd ho (Prod.ext hfirst rfl) (Prod.ext hsecond rfl)
    exact ⟨congrArg (·.1) hrun, (congrArg (found path ·.2) hrun).trans hfound,
      firstDocument_ne d o⟩
  · have hrun := save_run_ok h hd (Prod.ext hfirst rfl) (Prod.ext hsecond rfl)
    have hordered := ordered_secondDocument d ho hinline
    exact ⟨⟨_, congrArg (·.1) hrun⟩,
      (congrArg (found path ·.2) hrun).trans (found_of_written h hordered (Prod.ext hsecond rfl))⟩

end

def cardOutput : Session.Output :=
  (({ options := { restrict := false } } : Session).convert
    [⟨"c1", "card", [], [("_display", .scalar "grid")]⟩] []).1

theorem save_allOrNothing_iff_refused :
    AllOrNothing nestedPath cardOutput (⟨.empty, [some .isDirectory]⟩ : Unsteady FileTree) := by
  have h : WritesWhole (Unsteady FileTree) nestedPath :=
    (FileTree.writesWhole isPlain_nestedPath).unsteady
  refine (save_allOrNothing_iff h ⟨.empty, [some .isDirectory]⟩ {} rfl _ _ _).1.mpr fun hfirst => ?_
  cases hfirst

/-- The second commit fails, and a new version with the style of the class stays in the file. -/
theorem save_halfway :
    let u : Unsteady FileTree := ⟨.empty, [none, some .isDirectory]⟩
    let result := (save nestedPath cardOutput : StateM (Unsteady FileTree) _).run u
    found nestedPath u = .ok {} ∧ result.1 = .error (.write nestedPath .isDirectory) ∧
      found nestedPath result.2 = .ok (firstDocument {} cardOutput) ∧
      ¬ AllOrNothing nestedPath cardOutput u := by
  intro u result
  have h : WritesWhole (Unsteady FileTree) nestedPath :=
    (FileTree.writesWhole isPlain_nestedPath).unsteady
  have ho : cardOutput.styleMap.keys.Nodup := Session.nodup_keys_styleMap _ _ _
  have hd : found nestedPath u = .ok {} := rfl
  have hwrites : ∀ d₁ d₂ : Document, ∃ w₁ w₂,
      (writeAt nestedPath d₁ : StateM (Unsteady FileTree) _).run u = (.ok (), w₁) ∧
      (writeAt nestedPath d₂ : StateM (Unsteady FileTree) _).run w₁ =
        (.error (.write nestedPath .isDirectory), w₂) := fun _ _ => ⟨_, _, rfl, rfl⟩
  obtain ⟨w₁, w₂, hfirst, hsecond⟩ :=
    hwrites (firstDocument {} cardOutput) (secondDocument {} cardOutput)
  obtain ⟨hrun, hfound⟩ := found_of_second_failed h hd ho hfirst hsecond
  have hresult : result = (.error (.write nestedPath .isDirectory), w₂) := hrun
  rw [hresult]
  refine ⟨hd, rfl, hfound, (allOrNothing_iff h hd ho hfirst hsecond).not.mpr fun hok => ?_⟩
  cases hok rfl

end Command

end Restyle
