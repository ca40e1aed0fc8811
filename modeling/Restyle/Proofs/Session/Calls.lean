import Restyle.Proofs.Session.Conversion

/-! # Calls of a session

Of all that a session holds, a call asks for the overrides, the utility stylesheet
and the options only, and no call changes these. So every call answers as in a
session that was just started. A conversion sorts just the classes that a count of
the same classes and content counts, less those with neither id nor name.
-/

namespace Restyle

open Text

namespace Utility

theorem source_remember (u : Utility) (name : Text) : (u.remember name).source = u.source := by
  unfold remember
  split_ifs <;> rfl

theorem source_register (u : Utility) (c : GlobalClass) : (u.register c).source = u.source := by
  unfold register
  dsimp only
  split_ifs
  · rfl
  · exact source_remember u _
  · exact source_remember u _

end Utility

namespace Session

def start (overrides : List Json) (stylesheet : Text) (options : Options) : Session :=
  { resolver := .ofOverrides overrides, utility := .ofStylesheet stylesheet, options }

/-- The session that was started as this one was. -/
def afresh (s : Session) : Session :=
  start s.resolver.overrides s.utility.source s.options

def answers : Session → List Step → List Answer
  | _, [] => []
  | s, st :: sts => (s.step st).1 :: (s.step st).2.answers sts

theorem newRun_eq_afresh (s : Session) : s.newRun = s.afresh := rfl

theorem source_add (sorting : Sorting) (c : GlobalClass) :
    (sorting.add c).utility.source = sorting.utility.source := by
  unfold Sorting.add
  split_ifs
  · exact Utility.source_register _ c
  · rfl
  · rfl

theorem source_foldl_add (cs : List GlobalClass) (sorting : Sorting) :
    (cs.foldl Sorting.add sorting).utility.source = sorting.utility.source := by
  induction cs generalizing sorting with
  | nil => rfl
  | cons c cs ih => exact (ih (sorting.add c)).trans (source_add sorting c)

theorem afresh_step (s : Session) (st : Step) : (s.step st).2.afresh = s.afresh := by
  cases st with
  | convert classes items =>
    have hsource : (s.convert classes items).2.utility.source = s.utility.source :=
      source_foldl_add _ _
    exact congrArg (start s.resolver.overrides · s.options) hsource
  | count classes items =>
    simp only [step, count, Scanner.count]
    split_ifs <;> rfl
  | references items => rfl
  | newRun => rfl

/-- A conversion and a count start afresh, and a search for references asks for the options only. -/
theorem answer_step (s : Session) (st : Step) : (s.step st).1 = (s.afresh.step st).1 := by
  have hnew : s.afresh.newRun = s.newRun := by
    rw [newRun_eq_afresh, newRun_eq_afresh]
    rfl
  cases st with
  | convert classes items => simp only [step, convert, hnew]
  | count classes items => simp only [step, count, hnew]
  | references items => rfl
  | newRun => rfl

/-- Whatever a session remembers, each call in a list of calls answers as the first call of a new
session with the same overrides, utility stylesheet and options. -/
theorem answers_eq (s : Session) (sts : List Step) :
    s.answers sts =
      sts.map fun st => ((start s.resolver.overrides s.utility.source s.options).step st).1 := by
  induction sts generalizing s with
  | nil => rfl
  | cons st sts ih =>
    have hstart : start (s.step st).2.resolver.overrides (s.step st).2.utility.source
        (s.step st).2.options = s.afresh := afresh_step s st
    rw [answers, List.map_cons, ih, hstart, answer_step]
    rfl

/-- The id or the name of a class is more than blanks. -/
def isNamed (c : GlobalClass) : Bool :=
  !(c.id.trim.isEmpty && c.name.trim.isEmpty)

/-- Whether a class, counted alone with some content, is one of those to migrate. -/
def isCounted (s : Session) (items : List Item) (c : GlobalClass) : Bool :=
  (s.count [c] items).1.toMigrate = 1

def isWanted (s : Session) (items : List Item) (c : GlobalClass) : Bool :=
  let (index, scanner) := ({} : Scanner).scan items s.options.postTypes
  !s.options.restrict || scanner.isReferenced c index

theorem count_isWanted (s : Session) (classes : List GlobalClass) (items : List Item) :
    (s.count classes items).1 = ⟨classes.length, (classes.filter (s.isWanted items)).length⟩ := by
  obtain ⟨resolver, scanner, utility, postTypes, restrict⟩ := s
  cases restrict with
  | true => rfl
  | false =>
    have hall : classes.length = (classes.filter fun _ => true).length := by rw [List.filter_true]
    exact congrArg (Scanner.Counts.mk classes.length) hall

theorem isCounted_eq_isWanted (s : Session) (items : List Item) (c : GlobalClass) :
    s.isCounted items c = s.isWanted items c := by
  rw [isCounted, count_isWanted]
  cases h : s.isWanted items c <;> simp [h]

theorem takesPart_eq (s : Session) (items : List Item) (c : GlobalClass) :
    let (index, scanner) := ({} : Scanner).scan items s.options.postTypes
    ({ s with scanner } : Session).takesPart index c = (isNamed c && s.isCounted items c) := by
  rw [isCounted_eq_isWanted]
  rfl

theorem excluded_add (sorting : Sorting) (c : GlobalClass) :
    (sorting.add c).excluded = sorting.excluded + if isCandidate c then 0 else 1 := by
  unfold Sorting.add isCandidate
  by_cases hu : Utility.isUtility c = true
  · simp [hu]
  · by_cases he : Exclusion.excludes c = true <;> simp [hu, he]

theorem excluded_foldl_add (cs : List GlobalClass) (sorting : Sorting) :
    (cs.foldl Sorting.add sorting).excluded =
      sorting.excluded + (cs.filter (!isCandidate ·)).length := by
  induction cs generalizing sorting with
  | nil => rfl
  | cons c cs ih =>
    rw [List.foldl_cons, ih, excluded_add, List.filter_cons]
    cases isCandidate c with
    | true => simp
    | false => simp [Nat.add_assoc, Nat.add_comm]

theorem convert_excluded (s : Session) (classes : List GlobalClass) (items : List Item) :
    (s.convert classes items).1.excluded =
      ((classes.filter fun c => isNamed c && s.isCounted items c).filter (!isCandidate ·)).length := by
  simp only [convert, sort, excluded_foldl_add, Nat.zero_add]
  rw [← funext (s.takesPart_eq items)]
  rfl

theorem converted_eq (s : Session) (classes : List GlobalClass) (items : List Item) :
    s.converted classes items =
      (classes.filter fun c => isNamed c && s.isCounted items c).filter isCandidate := by
  rw [converted, List.filter_filter]
  refine List.filter_congr fun c _ => ?_
  rw [Bool.and_comm, ← takesPart_eq]
  rfl

/-- A conversion deals with just those classes that a count of the same classes and content counts
and that have an id or a name: it converts or excludes each of them. -/
theorem converted_add_excluded (s : Session) (classes : List GlobalClass) (items : List Item) :
    (s.count classes items).1 = ⟨classes.length, (classes.filter (s.isCounted items)).length⟩ ∧
      (s.convert classes items).1.converted + (s.convert classes items).1.excluded =
        ((classes.filter (s.isCounted items)).filter isNamed).length := by
  constructor
  · rw [count_isWanted, funext (s.isCounted_eq_isWanted items)]
  · rw [convert_converted, convert_excluded, converted_eq, List.filter_filter (p := isNamed)]
    exact (List.length_eq_length_filter_add isCandidate).symm

end Session

end Restyle
