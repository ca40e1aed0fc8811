import Restyle.Store.File

/-! # Imports are all or nothing

A store in memory is stepped any number of times, and any of the steps may be
refused when it commits. A refused step changes nothing, so a run ends in the
state of its accepted steps alone, and no staged change outlives its step.
-/

namespace Restyle.Store

/-- A step of a store in memory, and whether the store refuses to save it. -/
structure Attempt where
  step : Step
  rejected : Bool

def attempt (s : Store) (a : Attempt) : Except StoreError Answer × Store :=
  Id.run (step (writeMemory a.rejected) a.step s)

def run : List Attempt → Store → List (Except StoreError Answer) × Store
  | [], s => ([], s)
  | a :: as, s =>
    let (r, s) := s.attempt a
    let (rs, s) := run as s
    (r :: rs, s)

/-- The attempts that the store does not refuse. -/
def accepted (as : List Attempt) : List Attempt :=
  as.filter (!·.rejected)

def imported (s : Store) (styles : List Style) (styleMap : StyleMap) : Document :=
  { s.document with
    styles := Style.merge s.document.styles (Style.incoming styles)
    styleMap
    version := s.document.version + 1 }

variable {s : Store}

theorem attempt_rejected (h : s.pending = none) (step : Step) :
    s.attempt ⟨step, true⟩ = (.error .rejected, s) := by
  obtain ⟨document, pending, signals, invalidations⟩ := s
  obtain rfl : pending = none := h
  cases step <;> rfl

theorem attempt_importStyles (h : s.pending = none) (styles : List Style) (styleMap : StyleMap) :
    s.attempt ⟨.importStyles styles styleMap, false⟩ =
      (.ok (.imported ⟨(Style.incoming styles).length, (s.imported styles styleMap).styles.length,
          s.document.version + 1⟩),
        rebuild { s with document := s.imported styles styleMap }) := by
  obtain ⟨document, pending, signals, invalidations⟩ := s
  obtain rfl : pending = none := h
  rfl

theorem attempt_saveInline (h : s.pending = none) (inline : Table Text) :
    s.attempt ⟨.saveInline inline, false⟩ =
      (.ok .saved, { s with document := { s.document with inline } }) := by
  obtain ⟨document, pending, signals, invalidations⟩ := s
  obtain rfl : pending = none := h
  rfl

theorem pending_attempt (h : s.pending = none) (a : Attempt) : (s.attempt a).2.pending = none := by
  obtain ⟨step, rejected⟩ := a
  cases rejected with
  | true => rwa [attempt_rejected h]
  | false =>
    cases step with
    | importStyles styles styleMap => rw [attempt_importStyles h]; exact h
    | saveInline inline => rw [attempt_saveInline h]; exact h

theorem run_cons (a : Attempt) (as : List Attempt) (s : Store) :
    run (a :: as) s =
      ((s.attempt a).1 :: (run as (s.attempt a).2).1, (run as (s.attempt a).2).2) := rfl

theorem run_append (as bs : List Attempt) (s : Store) :
    run (as ++ bs) s =
      ((run as s).1 ++ (run bs (run as s).2).1, (run bs (run as s).2).2) := by
  induction as generalizing s with
  | nil => rfl
  | cons a as ih => rw [List.cons_append, run_cons, ih, run_cons]; rfl

theorem length_answers (as : List Attempt) (s : Store) : (run as s).1.length = as.length := by
  induction as generalizing s with
  | nil => rfl
  | cons a as ih => simp [run_cons, ih]

theorem pending_run (h : s.pending = none) (as : List Attempt) : (run as s).2.pending = none := by
  induction as generalizing s with
  | nil => exact h
  | cons a as ih => exact ih (pending_attempt h a)

/-- A run ends where the run of its accepted steps ends. -/
theorem run_accepted (h : s.pending = none) (as : List Attempt) :
    (run (accepted as) s).2 = (run as s).2 := by
  induction as generalizing s with
  | nil => rfl
  | cons a as ih =>
    obtain ⟨step, rejected⟩ := a
    cases rejected with
    | true =>
      calc (run (accepted as) s).2
        _ = (run as s).2 := ih h
        _ = (run (⟨step, true⟩ :: as) s).2 := by rw [run_cons, attempt_rejected h]
    | false =>
      calc (run (⟨step, false⟩ :: accepted as) s).2
        _ = (run (accepted as) (s.attempt ⟨step, false⟩).2).2 := by rw [run_cons]
        _ = (run as (s.attempt ⟨step, false⟩).2).2 := ih (pending_attempt h _)
        _ = (run (⟨step, false⟩ :: as) s).2 := by rw [run_cons]

/-- In every run, a refused step answers so and changes nothing, an accepted import makes the next
version with the merged styles and signals it, an accepted save of declarations changes nothing
else, and the end is that of the accepted steps alone. -/
theorem run_atomic (s : Store) (h : s.pending = none) (as : List Attempt) :
    (run as s).2 = (run (accepted as) s).2 ∧
    ∀ before a after, as = before ++ a :: after →
      let s₁ := (run before s).2
      let s₂ := (run (before ++ [a]) s).2
      let answer := (run as s).1[before.length]?
      s₂.pending = none ∧
      (a.rejected = true → answer = some (.error .rejected) ∧ s₂ = s₁) ∧
      (a.rejected = false → ∀ styles styleMap, a.step = .importStyles styles styleMap →
        answer = some (.ok (.imported ⟨(Style.incoming styles).length, s₂.document.styles.length,
          s₂.document.version⟩)) ∧
        (s₁.document.version.toNat + 1 < UInt64.size →
          s₂.document.version.toNat = s₁.document.version.toNat + 1) ∧
        s₂.document.styles = Style.merge s₁.document.styles (Style.incoming styles) ∧
        s₂.document.styleMap = styleMap ∧
        s₂.document.inline = s₁.document.inline ∧
        s₂.signals = s₁.signals ++ [.stylesUpdated, .rebuildCss] ∧
        s₂.invalidations = s₁.invalidations + 2) ∧
      (a.rejected = false → ∀ inline, a.step = .saveInline inline →
        answer = some (.ok .saved) ∧
        s₂ = { s₁ with document := { s₁.document with inline } }) := by
  refine ⟨(run_accepted h as).symm, ?_⟩
  rintro before ⟨step, rejected⟩ after rfl s₁ s₂ answer
  have hs₁ : s₁.pending = none := pending_run h before
  have hs₂ : s₂ = (s₁.attempt ⟨step, rejected⟩).2 := by
    simp only [s₂, run_append]
    rfl
  have ha : answer = some (s₁.attempt ⟨step, rejected⟩).1 := by
    simp only [answer, run_append, run_cons]
    rw [List.getElem?_append_right (Nat.le_of_eq (length_answers before s)), length_answers, Nat.sub_self]
    rfl
  refine ⟨pending_run h _, ?_, ?_, ?_⟩
  · rintro rfl
    rw [attempt_rejected hs₁] at hs₂ ha
    exact ⟨ha, hs₂⟩
  · rintro rfl styles styleMap rfl
    rw [attempt_importStyles hs₁] at hs₂ ha
    have hv (hlt : s₁.document.version.toNat + 1 < UInt64.size) :
        (s₁.document.version + 1).toNat = s₁.document.version.toNat + 1 := by
      rw [UInt64.toNat_add]
      exact Nat.mod_eq_of_lt hlt
    rw [ha, hs₂]
    exact ⟨rfl, hv, rfl, rfl, rfl, rfl, rfl⟩
  · rintro rfl inline rfl
    rw [attempt_saveInline hs₁] at hs₂ ha
    exact ⟨ha, hs₂⟩

def mixedAttempts : List Attempt :=
  [⟨.importStyles [Style.ofSelector "1" ".a" "color: red;"] [], true⟩,
    ⟨.saveInline [("u1", "gap: 0;")], false⟩,
    ⟨.importStyles [Style.ofSelector "2" ".b" "color: blue;"] [("b", ⟨"2", ".b"⟩)], false⟩]

theorem run_atomic_mixed :
    ({} : Store).pending = none ∧
    (run mixedAttempts {}).2 = (run (accepted mixedAttempts) {}).2 ∧
    (run mixedAttempts {}).1[0]? = some (.error .rejected) ∧
    (run (mixedAttempts.take 1) {}).2 = {} ∧
    (run mixedAttempts {}).2.document.version.toNat = 1 ∧
    (run mixedAttempts {}).2.document.inline = [("u1".toList, "gap: 0;".toList)] ∧
    (run mixedAttempts {}).2.signals = [.stylesUpdated, .rebuildCss] := by
  obtain ⟨hrun, hstep⟩ := run_atomic {} rfl mixedAttempts
  have hfirst := (hstep [] _ (mixedAttempts.drop 1) rfl).2.1 rfl
  have hlast := (hstep (mixedAttempts.take 2) _ [] rfl).2.2.1 rfl _ _ rfl
  obtain ⟨-, hversion, -, -, hinline, hsignals, -⟩ := hlast
  exact ⟨rfl, hrun, hfirst.1, hfirst.2, hversion (by decide), hinline, hsignals⟩

end Restyle.Store
