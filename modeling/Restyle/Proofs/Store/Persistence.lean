import Restyle.Proofs.Files.Writing
import Restyle.Proofs.Store.Document
import Restyle.Proofs.Store.Merging

/-! # Stores and their files

A store in a file is stepped any number of times, and its file is opened again
in between. Writes may fail at any time. As long as they do so as a whole, the
file always holds the document of the store.
-/

namespace Restyle.Store

open Style FileSystem

section

variable {m : Type → Type} [Monad m] [FileSystem m]

/-- A step on a store in a file: a change, or opening the file again. -/
inductive FileStep where
  | change (step : Step)
  | reopen

/-- Step a store in a file. If the file cannot be opened, then the store stays. -/
def fileStep (path : Text) : FileStep → Store → m (Except StoreError (Option Answer) × Store)
  | .change step, s => do
    let (r, s) ← s.step (writeAt path) step
    return (r.map some, s)
  | .reopen, s => do
    match ← openAt path with
    | .ok s => return (.ok none, s)
    | .error e => return (.error e, s)

/-- The answers of a list of steps, and the store behind them. -/
def runFile (path : Text) :
    List FileStep → Store → m (List (Except StoreError (Option Answer)) × Store)
  | [], s => return ([], s)
  | step :: steps, s => do
    let (r, s) ← fileStep path step s
    let (rs, s) ← runFile path steps s
    return (r :: rs, s)

end

section

variable {m : Type → Type} [Monad m] {ε : Type}

def saved (s : Store) (d : Document) : Except ε Unit → Except ε Unit × Store
  | .ok () => (.ok (), { s with document := d, pending := none })
  | .error e => (.error e, { s with pending := none })

theorem saveInline_eq_saved [LawfulMonad m] (write : Document → m (Except ε Unit))
    (inline : Table Text) (s : Store) :
    s.saveInline write inline =
      s.saved { s.staged with inline } <$> write { s.staged with inline } := by
  rw [saveInline, map_eq_pure_bind]
  simp only [commit, stage]
  congr
  funext r
  cases r <;> rfl

def accept (s : Store) : Step → Answer × Store
  | .importStyles styles styleMap =>
    (.imported (s.importSummary styles styleMap),
      rebuild { s with document := s.importedDocument styles styleMap, pending := none })
  | .saveInline inline =>
    (.saved, { s with document := { s.staged with inline }, pending := none })

def answered (s : Store) (step : Step) : Except ε Unit → Except ε Answer × Store
  | .ok () => (.ok (s.accept step).1, (s.accept step).2)
  | .error e => (.error e, { s with pending := none })

theorem step_eq_answered [LawfulMonad m] (write : Document → m (Except ε Unit)) (step : Step)
    (s : Store) :
    s.step write step = s.answered step <$> write (s.accept step).2.document := by
  cases step with
  | importStyles styles styleMap =>
    rw [Store.step, importStyles_eq_written, map_eq_pure_bind, map_eq_pure_bind, bind_assoc]
    simp only [pure_bind]
    congr
    funext r
    cases r <;> rfl
  | saveInline inline =>
    rw [Store.step, saveInline_eq_saved, map_eq_pure_bind, map_eq_pure_bind, bind_assoc]
    simp only [pure_bind]
    congr
    funext r
    cases r <;> rfl

end

def Step.Ordered : Step → Prop
  | .importStyles _ styleMap => styleMap.keys.Nodup
  | .saveInline inline => inline.keys.Nodup

def FileStep.Ordered : FileStep → Prop
  | .change step => step.Ordered
  | .reopen => True

theorem ordered_accept {s : Store} (h : s.document.Ordered) (hs : s.pending = none) {step : Step}
    (hstep : step.Ordered) : (s.accept step).2.document.Ordered := by
  have hstaged : s.staged = s.document := by rw [staged, hs, Option.getD_none]
  cases step with
  | importStyles styles styleMap =>
    exact ⟨Table.nodup_keys_ofList _, hstep, (congrArg Document.inline hstaged) ▸ h.inline⟩
  | saveInline inline =>
    rw [accept, hstaged]
    exact ⟨h.styles, h.styleMap, hstep⟩

section

variable {σ : Type} [FileSystem (StateM σ)] {path : Text} {w w' : σ} {d : Document} {e : StoreError}

/-- The document that is found in the file at a path. -/
def found (path : Text) (w : σ) : Except StoreError Document :=
  documentIn path (contents path w)

theorem openAt_run (h : WritesWhole σ path) (w : σ) :
    (openAt path : StateM σ _).run w = ((found path w).map fun document => { document }, w) := by
  have hread : (FileSystem.read path : StateM σ _).run w = (contents path w, w) :=
    Prod.ext rfl (h.steady w)
  rw [openAt, run_bind_of_eq hread, found]
  cases documentIn path (contents path w) <;> rfl

theorem documentIn_toText (h : d.Ordered) (path : Text) : documentIn path (.ok d.toText) = .ok d := by
  rw [documentIn, Document.ofText?_toText h]
  rfl

theorem ordered_of_documentIn {r : Except FileError Text} (h : documentIn path r = .ok d) :
    d.Ordered := by
  cases r with
  | ok text =>
    rw [documentIn] at h
    cases hd : Document.ofText? text with
    | none =>
      rw [hd] at h
      cases h
    | some d' =>
      rw [hd] at h
      obtain rfl := Except.ok.inj h
      exact Document.ordered_of_ofText? hd
  | error cause =>
    cases cause with
    | missing =>
      obtain rfl := Except.ok.inj h
      exact Document.ordered_empty
    | _ => cases h

/-- Before the file itself is written nothing changes in it. -/
theorem writeAt_cases (h : WritesWhole σ path) (d : Document) (w : σ) :
    ∃ w₁, contents path w₁ = contents path w ∧
      ((∃ e, (writeAt path d : StateM σ _).run w = (.error e, w₁)) ∨
        ∃ r w₂, (FileSystem.write path d.toText : StateM σ _).run w₁ = (r, w₂) ∧
          (writeAt path d : StateM σ _).run w = (r.mapError (.write path), w₂)) := by
  cases hparent : Path.parent? path with
  | none => exact ⟨w, rfl, Or.inr ⟨_, _, rfl, by rw [writeAt, hparent]; rfl⟩⟩
  | some directory =>
    cases hmade : (FileSystem.makeDirectories directory : StateM σ _).run w with
    | mk r w₁ =>
      have hsame := h.made w hparent
      rw [hmade] at hsame
      refine ⟨w₁, hsame, ?_⟩
      cases r with
      | error cause =>
        refine Or.inl ⟨.write path cause, ?_⟩
        rw [writeAt, hparent]
        exact run_bind_of_eq hmade _
      | ok _ =>
        refine Or.inr ⟨_, _, rfl, ?_⟩
        rw [writeAt, hparent]
        exact run_bind_of_eq hmade _

theorem found_of_written (h : WritesWhole σ path) (hd : d.Ordered)
    (hw : (writeAt path d : StateM σ _).run w = (.ok (), w')) : found path w' = .ok d := by
  obtain ⟨w₁, -, ⟨e, he⟩ | ⟨r, w₂, hr, he⟩⟩ := writeAt_cases h d w
  · rw [he] at hw
    cases hw
  · rw [he] at hw
    cases r with
    | error cause => cases hw
    | ok _ =>
      obtain rfl := (Prod.mk.inj hw).2
      rw [found, h.written hr, documentIn_toText hd]

theorem found_of_failed (h : WritesWhole σ path)
    (hw : (writeAt path d : StateM σ _).run w = (.error e, w')) : found path w' = found path w := by
  obtain ⟨w₁, hsame, ⟨e, he⟩ | ⟨r, w₂, hr, he⟩⟩ := writeAt_cases h d w
  · rw [he] at hw
    obtain rfl := (Prod.mk.inj hw).2
    rw [found, hsame, found]
  · rw [he] at hw
    cases r with
    | ok _ => cases hw
    | error cause =>
      obtain rfl := (Prod.mk.inj hw).2
      rw [found, h.failed hr, hsame, found]

/-- A store has settled if its file holds its document and nothing is staged. -/
structure Settled (path : Text) (s : Store) (w : σ) : Prop where
  pending : s.pending = none
  ordered : s.document.Ordered
  found : found path w = .ok s.document

/-- What a step does to a settled store: opening the file again finds the document, a change that is
written is kept, and one that is not changes neither the store nor what is found. -/
def Outcome (path : Text) (s s' : Store) (w w' : σ) :
    FileStep → Except StoreError (Option Answer) → Prop
  | .reopen, r => r = .ok none ∧ s' = { document := s.document } ∧ w' = w
  | .change _, .error _ => s' = s ∧ found path w' = found path w
  | .change step, .ok a => some (s.accept step).1 = a ∧ s' = (s.accept step).2

variable {s : Store}

theorem settled_open (h : WritesWhole σ path) (hs : ((openAt path : StateM σ _).run w).1 = .ok s) :
    Settled path s w := by
  rw [openAt_run h] at hs
  cases hfound : found path w with
  | error e =>
    rw [hfound] at hs
    cases hs
  | ok d =>
    rw [hfound] at hs
    obtain rfl := Except.ok.inj hs
    exact ⟨rfl, ordered_of_documentIn hfound, hfound⟩

/-- A step of a settled store has its outcome, and the store is settled again. -/
theorem fileStep_settled (h : WritesWhole σ path) (hs : Settled path s w) {step : FileStep}
    (hstep : step.Ordered) {r : Except StoreError (Option Answer)} {s' : Store}
    (hrun : (fileStep path step s : StateM σ _).run w = ((r, s'), w')) :
    Settled path s' w' ∧ Outcome path s s' w w' step r := by
  cases step with
  | reopen =>
    have hopen := openAt_run h w
    rw [hs.found] at hopen
    rw [fileStep, run_bind_of_eq hopen] at hrun
    obtain ⟨hr, rfl⟩ := Prod.mk.inj hrun
    obtain ⟨rfl, rfl⟩ := Prod.mk.inj hr
    exact ⟨⟨rfl, hs.ordered, hs.found⟩, rfl, rfl, rfl⟩
  | change step =>
    have hd := ordered_accept hs.ordered hs.pending hstep
    obtain ⟨q, w₁, hw⟩ : ∃ q w₁, (writeAt path (s.accept step).2.document : StateM σ _).run w =
      (q, w₁) := ⟨_, _, rfl⟩
    rw [fileStep, step_eq_answered, map_eq_pure_bind, bind_assoc, run_bind_of_eq hw,
      pure_bind] at hrun
    obtain ⟨hanswer, rfl⟩ := Prod.mk.inj hrun
    cases q with
    | ok _ =>
      obtain ⟨rfl, rfl⟩ : .ok (some (s.accept step).1) = r ∧ (s.accept step).2 = s' :=
        Prod.mk.inj hanswer
      refine ⟨⟨?_, hd, found_of_written h hd hw⟩, rfl, rfl⟩
      cases step <;> rfl
    | error e =>
      obtain ⟨rfl, hs'⟩ : .error e = r ∧ { s with pending := none } = s' := Prod.mk.inj hanswer
      obtain rfl : s = s' := by rw [← hs', ← hs.pending]
      have hfound := found_of_failed h hw
      exact ⟨⟨hs.pending, hs.ordered, hfound.trans hs.found⟩, rfl, hfound⟩

theorem runFile_cons_run (path : Text) (step : FileStep) (steps : List FileStep) (s : Store) (w : σ) :
    (runFile path (step :: steps) s : StateM σ _).run w =
      let first := (fileStep path step s : StateM σ _).run w
      let rest := (runFile path steps first.1.2 : StateM σ _).run first.2
      ((first.1.1 :: rest.1.1, rest.1.2), rest.2) := rfl

theorem runFile_append_run (path : Text) (steps more : List FileStep) (s : Store) (w : σ) :
    (runFile path (steps ++ more) s : StateM σ _).run w =
      let first := (runFile path steps s : StateM σ _).run w
      let rest := (runFile path more first.1.2 : StateM σ _).run first.2
      ((first.1.1 ++ rest.1.1, rest.1.2), rest.2) := by
  induction steps generalizing s w with
  | nil => rfl
  | cons step steps ih =>
    simp only [List.cons_append, runFile_cons_run, ih]

theorem length_answers_runFile (path : Text) (steps : List FileStep) (s : Store) (w : σ) :
    ((runFile path steps s : StateM σ _).run w).1.1.length = steps.length := by
  induction steps generalizing s w with
  | nil => rfl
  | cons step steps ih => exact congrArg (· + 1) (ih _ _)

theorem settled_run (h : WritesWhole σ path) {steps : List FileStep}
    (hsteps : ∀ step ∈ steps, step.Ordered) (hs : Settled path s w) :
    Settled path ((runFile path steps s : StateM σ _).run w).1.2
      ((runFile path steps s : StateM σ _).run w).2 := by
  induction steps generalizing s w with
  | nil => exact hs
  | cons step steps ih =>
    obtain ⟨hstep, hrest⟩ := List.forall_mem_cons.mp hsteps
    exact ih hrest (fileStep_settled h hs hstep rfl).1

/-- Every document is found again, with all keys in their order, in the text that is written for it.
In every run of changes and openings from a store that has been opened, whatever writes fail, opening
the file after any step gives the document of the store; a step that fails changes neither the store
nor what is found, and one that does not has its outcome. -/
theorem runFile_kept (h : WritesWhole σ path) (w : σ) (s : Store)
    (hs : ((openAt path : StateM σ _).run w).1 = .ok s) (steps : List FileStep)
    (hsteps : ∀ step ∈ steps, step.Ordered) :
    (∀ d : Document, d.Ordered → documentIn path (.ok d.toText) = .ok d) ∧
    ∀ before step after, steps = before ++ step :: after →
      let first := (runFile path before s : StateM σ _).run w
      let next := (runFile path (before ++ [step]) s : StateM σ _).run w
      (openAt path : StateM σ _).run next.2 = (.ok { document := next.1.2.document }, next.2) ∧
      ∃ r, ((runFile path steps s : StateM σ _).run w).1.1[before.length]? = some r ∧
        Outcome path first.1.2 next.1.2 first.2 next.2 step r := by
  refine ⟨fun d hd => documentIn_toText hd path, ?_⟩
  rintro before step after rfl first next
  obtain ⟨hbefore, hrest⟩ := List.forall_mem_append.mp hsteps
  have hstep := hrest step List.mem_cons_self
  have hsettled : Settled path first.1.2 first.2 := settled_run h hbefore (settled_open h hs)
  obtain ⟨r, s', w', hrun⟩ : ∃ r s' w',
      (fileStep path step first.1.2 : StateM σ _).run first.2 = ((r, s'), w') := ⟨_, _, _, rfl⟩
  obtain ⟨hsettled', houtcome⟩ := fileStep_settled h hsettled hstep hrun
  have hnext : next = ((first.1.1 ++ [r], s'), w') := by
    simp only [next, runFile_append_run, runFile_cons_run]
    rw [hrun]
    rfl
  have hanswer : ((runFile path (before ++ step :: after) s : StateM σ _).run w).1.1[before.length]? =
      some r := by
    simp only [runFile_append_run, runFile_cons_run]
    rw [List.getElem?_append_right (length_answers_runFile path before s w).le,
      length_answers_runFile, Nat.sub_self, hrun]
    rfl
  rw [hnext]
  refine ⟨?_, r, hanswer, houtcome⟩
  rw [openAt_run h, hsettled'.found]
  rfl

end

def nestedPath : Text := "store/styles.json"

theorem isPlain_nestedPath : Path.IsPlain nestedPath where
  relative := rfl
  names := by
    intro name hname
    rcases List.mem_pair.mp hname with rfl | rfl <;> exact ⟨rfl, by decide, by decide⟩

def mixedSteps : List FileStep :=
  let styles := [Style.ofSelector "" ".a" "color: red;"]
  [.change (.importStyles styles [("a", ⟨"1", ".a"⟩)]),
    .change (.importStyles styles [("a", ⟨"1", ".a"⟩)]), .change (.saveInline [("u1", "gap: 0;")]),
    .reopen]

def mixedWorld : Unsteady FileTree :=
  ⟨.empty, [some .isDirectory, none, some .isDirectory]⟩

theorem runFile_kept_mixed :
    let run : StateM (Unsteady FileTree) _ := runFile nestedPath mixedSteps {}
    let reopen : StateM (Unsteady FileTree) _ := openAt nestedPath
    let last := run.run mixedWorld
    (reopen.run mixedWorld).1 = .ok {} ∧
    reopen.run last.2 = (.ok { document := last.1.2.document }, last.2) ∧
    last.1.1[0]? = some (.error (.write nestedPath .isDirectory)) ∧
    last.1.1[3]? = some (.ok none) ∧ last.1.2.document.version = 1 := by
  have h : WritesWhole (Unsteady FileTree) nestedPath :=
    (FileTree.writesWhole isPlain_nestedPath).unsteady
  have hordered : ∀ step ∈ mixedSteps, step.Ordered := by
    simp [mixedSteps, FileStep.Ordered, Step.Ordered, Table.keys]
  obtain ⟨-, hrun⟩ := runFile_kept h mixedWorld {} rfl mixedSteps hordered
  obtain ⟨hopen, r, hr, houtcome⟩ := hrun (mixedSteps.take 3) .reopen [] rfl
  obtain ⟨rfl, hstore, -⟩ := houtcome
  have hversion : ((runFile nestedPath (mixedSteps.take 3) {} : StateM (Unsteady FileTree) _).run
    mixedWorld).1.2.document.version = 1 := by decide +kernel
  refine ⟨rfl, hopen, by rfl, hr, ?_⟩
  exact (congrArg (·.document.version) hstore).trans hversion

end Restyle.Store
