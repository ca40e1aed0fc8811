import Mathlib.Data.List.DropRight
import Restyle.Proofs.Breakpoint.Table
import Restyle.Reference.Scanner

/-! # Which classes are referenced

A scan finds content if one of its items qualifies. After any steps a class is
referenced if the index says so; an empty index speaks for every class, unless
the latest scan since the scanner was reset has found content.
-/

namespace Restyle

open Text

namespace PostType

variable {seen ts : List Text} {t : Text} {items : List Item} {i : Item}

theorem clean_clean (t : Text) : clean (clean t) = clean t :=
  Breakpoint.cleanKey_cleanKey t

def see (seen : List Text) (t : Text) : List Text :=
  if (clean t).isEmpty || seen.contains (clean t) then seen else seen ++ [clean t]

theorem resolve_eq (postTypes : List Text) : resolve postTypes =
    if (postTypes.foldl see []).isEmpty then defaults else postTypes.foldl see [] := rfl

structure AllClean (ts : List Text) : Prop where
  nodup : ts.Nodup
  clean_eq : ∀ t ∈ ts, clean t = t
  ne_nil : ∀ t ∈ ts, t ≠ []

namespace AllClean

theorem see (h : AllClean seen) (t : Text) : AllClean (see seen t) := by
  unfold PostType.see
  split_ifs with hskip
  · exact h
  · simp only [Bool.or_eq_true, List.isEmpty_iff, List.contains_iff_mem, not_or] at hskip
    constructor
    case nodup =>
      refine List.nodup_append.mpr ⟨h.nodup, List.nodup_singleton _, ?_⟩
      rintro u hu _ hv rfl
      exact hskip.2 (List.mem_singleton.mp hv ▸ hu)
    case clean_eq =>
      intro u hu
      rcases List.mem_append.mp hu with hu | hu
      · exact h.clean_eq u hu
      · rw [List.mem_singleton.mp hu, clean_clean]
    case ne_nil =>
      intro u hu
      rcases List.mem_append.mp hu with hu | hu
      · exact h.ne_nil u hu
      · exact List.mem_singleton.mp hu ▸ hskip.1

theorem foldl (h : AllClean seen) (ts : List Text) : AllClean (ts.foldl PostType.see seen) := by
  induction ts generalizing seen with
  | nil => exact h
  | cons t ts ih => exact ih (h.see t)

theorem defaults : AllClean defaults :=
  ⟨by decide, by decide, by decide⟩

theorem resolve (postTypes : List Text) : AllClean (resolve postTypes) := by
  rw [resolve_eq]
  split_ifs
  · exact defaults
  · exact foldl ⟨List.nodup_nil, by simp, by simp⟩ postTypes

theorem append (h : AllClean seen) (ht : AllClean [t]) (hnot : t ∉ seen) : AllClean (seen ++ [t]) := by
  constructor
  case nodup =>
    refine List.nodup_append.mpr ⟨h.nodup, ht.nodup, ?_⟩
    rintro u hu _ hv rfl
    exact hnot (List.mem_singleton.mp hv ▸ hu)
  case clean_eq =>
    exact fun u hu => (List.mem_append.mp hu).elim (h.clean_eq u) (ht.clean_eq u)
  case ne_nil =>
    exact fun u hu => (List.mem_append.mp hu).elim (h.ne_nil u) (ht.ne_nil u)

theorem foldl_see_eq (h : AllClean (seen ++ ts)) : ts.foldl PostType.see seen = seen ++ ts := by
  induction ts generalizing seen with
  | nil => rw [List.append_nil, List.foldl_nil]
  | cons t ts ih =>
    have hmem : t ∈ seen ++ t :: ts := List.mem_append_right _ List.mem_cons_self
    have hnot : t ∉ seen := fun hs => (List.nodup_append.mp h.nodup).2.2 t hs t List.mem_cons_self rfl
    have hsee : PostType.see seen t = seen ++ [t] := by
      simp [PostType.see, h.clean_eq t hmem, h.ne_nil t hmem, hnot]
    rw [List.append_cons] at h
    rw [List.foldl_cons, hsee, ih h, ← List.append_cons]

theorem resolve_eq_self (h : AllClean ts) (hne : ts ≠ []) : PostType.resolve ts = ts := by
  have hfold : ts.foldl PostType.see [] = ts := foldl_see_eq h
  rw [resolve_eq, hfold, if_neg (by simpa using hne)]

end AllClean

theorem resolve_ne_nil (postTypes : List Text) : resolve postTypes ≠ [] := by
  rw [resolve_eq]
  split_ifs with h
  · exact List.cons_ne_nil _ _
  · simpa using h

theorem mem_select {postTypes : List Text} : i ∈ select items postTypes ↔
    i ∈ items ∧ i.postType ∈ resolve postTypes ∧ i.hasContent = true := by
  simp [select, List.mem_filter]

end PostType

namespace Scanner

/-- An item that a scan for some post types looks at. -/
structure Qualifies (postTypes : List Text) (i : Item) : Prop where
  postType : i.postType ∈ PostType.resolve postTypes ∨ i.postType = templates
  content : i.elements ≠ [] ∨ i.wrapper.isEmpty = false ∨ i.page.isEmpty = false

theorem hasContent_iff (i : Item) : i.hasContent = true ↔
    i.elements ≠ [] ∨ i.wrapper.isEmpty = false ∨ i.page.isEmpty = false := by
  simp [Item.hasContent, or_assoc]

variable {items : List Item} {postTypes : List Text} {i : Item}

theorem resolve_asked (postTypes : List Text) :
    let resolved := PostType.resolve postTypes
    PostType.resolve (if resolved.contains templates then resolved else resolved ++ [templates]) =
      if resolved.contains templates then resolved else resolved ++ [templates] := by
  have hclean := PostType.AllClean.resolve postTypes
  intro resolved
  split_ifs with h
  · exact hclean.resolve_eq_self (PostType.resolve_ne_nil postTypes)
  · have htemplates : PostType.AllClean [templates] := ⟨by decide, by decide, by decide⟩
    refine (hclean.append htemplates ?_).resolve_eq_self (by simp)
    simpa using h

theorem mem_itemsToScan : i ∈ itemsToScan items postTypes ↔ i ∈ items ∧ Qualifies postTypes i := by
  have htypes : i.postType ∈ (if (PostType.resolve postTypes).contains templates then
        PostType.resolve postTypes else PostType.resolve postTypes ++ [templates]) ↔
      i.postType ∈ PostType.resolve postTypes ∨ i.postType = templates := by
    split_ifs with h
    · rw [List.contains_iff_mem] at h
      exact ⟨Or.inl, fun hi => hi.elim id fun he => he ▸ h⟩
    · rw [List.mem_append, List.mem_singleton]
  unfold itemsToScan
  dsimp only
  rw [PostType.mem_select, resolve_asked, htypes, hasContent_iff]
  exact and_congr_right fun _ => ⟨fun h => ⟨h.1, h.2⟩, fun h => ⟨h.postType, h.content⟩⟩

structure Scan where
  items : List Item
  postTypes : List Text

def Scan.FindsContent (s : Scan) : Prop :=
  ∃ i ∈ s.items, Qualifies s.postTypes i

theorem Scan.findsContent_iff (s : Scan) :
    s.FindsContent ↔ (itemsToScan s.items s.postTypes).isEmpty = false := by
  rw [← Bool.not_eq_true, List.isEmpty_iff]
  constructor
  · rintro ⟨i, hi, hqualifies⟩
    exact List.ne_nil_of_mem (mem_itemsToScan.mpr ⟨hi, hqualifies⟩)
  · intro hne
    obtain ⟨i, hi⟩ := List.exists_mem_of_ne_nil _ hne
    exact ⟨i, mem_itemsToScan.mp hi⟩

/-- The scan that a step makes; counting scans too, if it is restricted to references. -/
def Step.scan? : Step → Option Scan
  | .scan items postTypes => some ⟨items, postTypes⟩
  | .count _ items postTypes true => some ⟨items, postTypes⟩
  | _ => none

def Step.isReset : Step → Bool
  | .reset => true
  | _ => false

/-- The latest scan since the last reset. -/
def lastScan? (sts : List Step) : Option Scan :=
  ((sts.rtakeWhile (!·.isReset)).filterMap Step.scan?).getLast?

theorem lastScan?_concat (sts : List Step) (st : Step) :
    lastScan? (sts ++ [st]) = if st.isReset then none else st.scan?.or (lastScan? sts) := by
  rw [lastScan?, List.rtakeWhile_concat]
  cases st.isReset with
  | true => rfl
  | false =>
    have hsplit : ∀ l : List Step, (l ++ [st]).filterMap Step.scan? =
        l.filterMap Step.scan? ++ st.scan?.toList := by
      intro l
      rw [List.filterMap_append]
      cases h : st.scan? <;> simp [h]
    simp only [Bool.not_false, if_true, Bool.false_eq_true, if_false]
    rw [hsplit, List.getLast?_append]
    cases st.scan? <;> rfl

namespace State

def run (s : State) (sts : List Step) : State :=
  sts.foldl (fun s st => (s.step st).2) s

theorem run_concat (s : State) (sts : List Step) (st : Step) :
    s.run (sts ++ [st]) = ((s.run sts).step st).2 := by
  simp [run]

/-- A reset forgets that content was found, and a scan finds out anew. -/
theorem scanned_step (s : State) (st : Step) : (s.step st).2.scanner.scanned =
    if st.isReset then false
    else (st.scan?.map fun a => !(itemsToScan a.items a.postTypes).isEmpty).getD
      s.scanner.scanned := by
  cases st with
  | count classes items postTypes restrict => cases restrict <;> rfl
  | _ => rfl

theorem scanned_run (index : List Text) (sts : List Step) :
    ((⟨{}, index⟩ : State).run sts).scanner.scanned = true ↔
      ∃ a ∈ lastScan? sts, a.FindsContent := by
  induction sts using List.reverseRecOn with
  | nil => simp [run, lastScan?]
  | append_singleton sts st ih =>
    rw [run_concat, scanned_step, lastScan?_concat]
    cases st.isReset with
    | true => simp
    | false =>
      simp only [Bool.false_eq_true, if_false]
      cases st.scan? with
      | none => exact ih
      | some a => simp [Scan.findsContent_iff]

end State

/-- After any steps a class is referenced exactly if the index is empty and the latest scan since the
last reset, if there was one, found no content, or if its id, its name or the name of the imported
class is in the index. A scan that finds no content leaves the index empty. -/
theorem isReferenced_run (index : List Text) (sts : List Step) (c : GlobalClass) :
    let s := (⟨{}, index⟩ : State).run sts
    (s.scanner.isReferenced c s.index = true ↔
      (s.index = [] ∧ ∀ a ∈ lastScan? sts, ¬ a.FindsContent) ∨
      (s.index ≠ [] ∧ ((c.id.trim ≠ [] ∧ c.id.trim ∈ s.index) ∨
        (c.name.trim ≠ [] ∧ (c.name.trim ∈ s.index ∨ importMark ++ c.name.trim ∈ s.index))))) ∧
    ∀ (scanner : Scanner) (a : Scan), ¬ a.FindsContent → (scanner.scan a.items a.postTypes).1 = [] := by
  intro s
  constructor
  · have hscanned := State.scanned_run index sts
    by_cases hindex : s.index = []
    · have hnone : (∀ a ∈ lastScan? sts, ¬ a.FindsContent) ↔ s.scanner.scanned = false := by
        rw [← Bool.not_eq_true, hscanned]
        simp
      rw [hnone]
      simp [isReferenced, hindex]
    · simp [isReferenced, hindex]
  · intro scanner a ha
    rw [Scan.findsContent_iff, Bool.not_eq_false, List.isEmpty_iff] at ha
    simp [scan, ha, Reference.index]

end Scanner

end Restyle
