import Mathlib.Data.List.Basic
import Mathlib.Data.List.Induction
import Restyle.Command.Basic

/-! # The grammar of the command line

A command is written as its name and then the arguments that it needs, in any
order. An argument fills a slot, and a later one for the same slot overwrites
it; post types and files have no slot and add up. What is read as a command is
exactly what is written so, even if a value looks like a flag.
-/

namespace Restyle

inductive Switch where
  | all
  | dryRun
  | fix
  deriving DecidableEq, Repr

def Switch.name : Switch → Text
  | all => Flag.all
  | dryRun => Flag.dryRun
  | fix => Flag.fix

inductive Argument where
  | valued (flag : Flag) (value : Text)
  | switch (s : Switch)
  | file (path : Text)
  deriving DecidableEq, Repr

/-- What an argument sets, be it a value or a switch, and a later one overwrites. -/
inductive Slot where
  | flag (f : Flag)
  | switch (s : Switch)
  deriving DecidableEq, Repr

/-- The slot of a flag with a value; post types have none, as they add up. -/
def Flag.slot? : Flag → Option Slot
  | postType => none
  | f => some (.flag f)

namespace Argument

def slot? : Argument → Option Slot
  | valued f _ => f.slot?
  | switch s => some (.switch s)
  | file _ => none

def ifSet (s : Switch) : Bool → List Argument
  | true => [switch s]
  | false => []

def spellings : Argument → List (List Text)
  | valued f value => [[f.name, value], [f.shortName, value]]
  | switch s => [[s.name]]
  | file path => [[path]]

/-- Arguments are written one behind the other, each in one of its ways. -/
inductive Spells : List Argument → List Text → Prop
  | nil : Spells [] []
  | cons {a : Argument} {as : List Argument} {u args : List Text} (hu : u ∈ a.spellings)
      (h : Spells as args) : Spells (a :: as) (u ++ args)

/-- The arguments that no later one overwrites. -/
def effective : List Argument → List Argument
  | [] => []
  | a :: as =>
    if a.slot? ≠ none ∧ ∃ b ∈ as, b.slot? = a.slot? then effective as else a :: effective as

def inSlot (k : Option Slot) (as : List Argument) : List Argument :=
  as.filter (·.slot? = k)

/-- The same arguments in another order, in which those that add up keep theirs. -/
structure Reordered (as bs : List Argument) : Prop where
  perm : as.Perm bs
  addends : inSlot none as = inSlot none bs

/-- Of the arguments for one slot the last one counts, of those without a slot all do. -/
def latest : Option Slot → List Argument → List Argument
  | none, as => as
  | some _, as => as.getLast?.toList

variable {a b : Argument} {as bs : List Argument} {args u : List Text} {k : Option Slot}

@[simp] theorem mem_inSlot : a ∈ inSlot k as ↔ a ∈ as ∧ a.slot? = k := by
  simp [inSlot]

@[simp] theorem inSlot_nil (k : Option Slot) : inSlot k [] = [] := rfl

@[simp] theorem inSlot_append (k : Option Slot) (as bs : List Argument) :
    inSlot k (as ++ bs) = inSlot k as ++ inSlot k bs :=
  List.filter_append as bs

theorem inSlot_cons (k : Option Slot) (a : Argument) (as : List Argument) :
    inSlot k (a :: as) = if a.slot? = k then a :: inSlot k as else inSlot k as := by
  simp [inSlot, List.filter_cons]

theorem inSlot_map_valued (k : Option Slot) (flag : Flag) (values : List Text) :
    inSlot k (values.map (valued flag)) =
      if flag.slot? = k then values.map (valued flag) else [] := by
  rw [inSlot, List.filter_map]
  split_ifs with h <;> simp [Function.comp_def, slot?, h]

theorem inSlot_map_file (k : Option Slot) (paths : List Text) :
    inSlot k (paths.map file) = if none = k then paths.map file else [] := by
  rw [inSlot, List.filter_map]
  split_ifs with h <;> simp [Function.comp_def, slot?, h]

theorem inSlot_ifSet (k : Option Slot) (s : Switch) (b : Bool) :
    inSlot k (ifSet s b) = if some (.switch s) = k then ifSet s b else [] := by
  cases b with
  | true => exact inSlot_cons k (switch s) []
  | false => exact (ite_self _).symm

theorem inSlot_eq_nil_iff : inSlot k as = [] ↔ ∀ a ∈ as, a.slot? ≠ k := by
  simp [inSlot, List.filter_eq_nil_iff]

theorem count_inSlot (a : Argument) (as : List Argument) :
    (inSlot a.slot? as).count a = as.count a :=
  List.count_filter (decide_eq_true rfl)

theorem valued_injective (flag : Flag) : Function.Injective (valued flag) :=
  fun _ _ h => (valued.inj h).2

@[simp] theorem ifSet_true (s : Switch) : ifSet s true = [switch s] := rfl

@[simp] theorem ifSet_false (s : Switch) : ifSet s false = [] := rfl

theorem ifSet_injective (s : Switch) : Function.Injective (ifSet s) := by
  intro b b' h
  cases b <;> cases b' <;> first | rfl | cases h

theorem exists_eq_valued {f : Flag} (h : a.slot? = some (.flag f)) : ∃ value, a = valued f value := by
  rcases a with ⟨f', value⟩ | s | path
  · exact ⟨value, by cases f' <;> cases f <;> first | rfl | cases h⟩
  · cases h
  · cases h

theorem eq_switch {s : Switch} (h : a.slot? = some (.switch s)) : a = switch s := by
  rcases a with ⟨_ | _, value⟩ | s' | path <;> first | (cases h; rfl) | cases h

theorem latest_concat (k : Option Slot) (as : List Argument) (a : Argument) :
    latest k (as ++ [a]) = if k = none then latest k as ++ [a] else [a] := by
  cases k <;> simp [latest]

theorem inSlot_effective (k : Option Slot) (as : List Argument) :
    inSlot k (effective as) = latest k (inSlot k as) := by
  induction as with
  | nil => cases k <;> rfl
  | cons a as ih =>
    rw [effective, inSlot_cons]
    by_cases hk : a.slot? = k
    · rw [if_pos hk]
      split_ifs with hover
      · obtain ⟨hslot, b, hb, hsame⟩ := hover
        obtain ⟨s, rfl⟩ := Option.ne_none_iff_exists'.mp (hk ▸ hslot)
        have hmem : b ∈ inSlot (some s) as := mem_inSlot.mpr ⟨hb, hsame.trans hk⟩
        obtain ⟨c, cs, hcs⟩ := List.exists_cons_of_ne_nil (List.ne_nil_of_mem hmem)
        rw [ih, hcs, latest, latest, List.getLast?_cons_cons]
      · rw [inSlot_cons, if_pos hk, ih]
        cases k with
        | none => rfl
        | some s =>
          have hnil : inSlot (some s) as = [] := by
            simpa [hk, inSlot_eq_nil_iff] using hover
          rw [hnil]
          rfl
    · rw [if_neg hk, ← ih]
      split_ifs
      · rfl
      · rw [inSlot_cons, if_neg hk]

theorem forall_mem_of_effective {p : Argument → Prop}
    (hp : ∀ {a b : Argument}, a.slot? ≠ none → b.slot? = a.slot? → p b → p a)
    (h : ∀ b ∈ effective as, p b) : ∀ a ∈ as, p a := by
  intro a ha
  have hslot : a ∈ inSlot a.slot? as := mem_inSlot.mpr ⟨ha, rfl⟩
  cases hs : a.slot? with
  | none =>
    rw [hs] at hslot
    have heff : a ∈ inSlot none (effective as) := (inSlot_effective none as).symm ▸ hslot
    exact h a (mem_inSlot.mp heff).1
  | some s =>
    rw [hs] at hslot
    have hlast := List.getLast?_eq_getLast_of_ne_nil (List.ne_nil_of_mem hslot)
    have heff : (inSlot (some s) as).getLast (List.ne_nil_of_mem hslot) ∈
        inSlot (some s) (effective as) := by
      rw [inSlot_effective, latest, hlast]
      exact List.mem_singleton_self _
    obtain ⟨hb, hsame⟩ := mem_inSlot.mp heff
    exact hp (by simp [hs]) (hsame.trans hs.symm) (h _ hb)

/-- Arguments are the same in another order exactly if they are the same in each slot. -/
theorem reordered_effective_iff : Reordered (effective as) bs ↔
    ∀ k, latest k (inSlot k as) = inSlot k bs := by
  constructor
  · intro h k
    rw [← inSlot_effective]
    cases k with
    | none => exact h.addends
    | some s =>
      have hperm : (inSlot (some s) (effective as)).Perm (inSlot (some s) bs) := h.perm.filter _
      rw [inSlot_effective, latest] at hperm ⊢
      cases hlast : (inSlot (some s) as).getLast? with
      | none => simpa [hlast] using hperm
      | some b => simpa [hlast] using hperm
  · intro h
    refine ⟨List.perm_iff_count.mpr fun a => ?_, (inSlot_effective none as).trans (h none)⟩
    rw [← count_inSlot, inSlot_effective, h, count_inSlot]

def ofInput (t : Text) : Argument :=
  if t = Flag.fix then switch .fix else file t

theorem spells_map_ofInput (args : List Text) : Spells (args.map ofInput) args := by
  induction args with
  | nil => exact .nil
  | cons t args ih =>
    refine .cons (u := [t]) ?_ ih
    unfold ofInput
    split_ifs with h <;> simp [spellings, Switch.name, h]

theorem eq_map_ofInput (h : Spells as args) (hinput : ∀ a ∈ as, ∃ t, a = ofInput t) :
    as = args.map ofInput := by
  induction h with
  | nil => rfl
  | @cons a as u args hu _ ih =>
    obtain ⟨⟨t, rfl⟩, hrest⟩ := List.forall_mem_cons.mp hinput
    obtain rfl : u = [t] := by
      unfold ofInput at hu
      split_ifs at hu with h <;> simpa [spellings, Switch.name, h] using hu
    rw [ih hrest]
    rfl

theorem exists_eq_ofInput_of_slot (hslot : a.slot? ≠ none) (h : b.slot? = a.slot?)
    (hb : ∃ t, b = ofInput t) : ∃ t, a = ofInput t := by
  obtain ⟨t, rfl⟩ := hb
  unfold ofInput at h
  split_ifs at h with ht
  · exact ⟨Flag.fix, eq_switch h.symm⟩
  · exact absurd h.symm hslot

end Argument

open Argument

theorem Flag.ofName?_eq_some_iff {t : Text} {f : Flag} :
    Flag.ofName? t = some f ↔ t = f.name ∨ t = f.shortName := by
  constructor
  · intro h
    simpa using List.find?_some h
  · rintro (rfl | rfl) <;> cases f <;> rfl

def Verb.Takes (verb : Verb) : Argument → Prop
  | .valued f _ => f = .store → verb = .convert
  | .switch .all => True
  | .switch .dryRun => verb = .convert
  | .switch .fix | .file _ => False

namespace Verb

@[simp] theorem takes_valued_iff {verb : Verb} {f : Flag} {value : Text} :
    verb.Takes (.valued f value) ↔ (f = .store → verb = .convert) :=
  Iff.rfl

@[simp] theorem takes_all (verb : Verb) : verb.Takes (.switch .all) := trivial

@[simp] theorem takes_dryRun_iff {verb : Verb} : verb.Takes (.switch .dryRun) ↔ verb = .convert :=
  Iff.rfl

theorem takes_of_slot {verb : Verb} {a b : Argument} (hslot : a.slot? ≠ none)
    (h : b.slot? = a.slot?) (hb : verb.Takes b) : verb.Takes a := by
  cases hs : a.slot? with
  | none => exact absurd hs hslot
  | some slot =>
    cases slot with
    | flag f =>
      obtain ⟨value, rfl⟩ := exists_eq_valued hs
      obtain ⟨value', rfl⟩ := exists_eq_valued (h.trans hs)
      exact hb
    | switch s => rwa [eq_switch hs, ← eq_switch (h.trans hs)]

end Verb

namespace Flags

variable {verb : Verb} {f g : Flags} {a : Argument} {as : List Argument} {args u : List Text}

def take (f : Flags) : Argument → Flags
  | .valued flag value => f.set value flag
  | .switch .all => { f with allClasses := true }
  | .switch .dryRun => { f with dryRun := true }
  | .switch .fix | .file _ => f

theorem read_spelling (ha : verb.Takes a) (hu : u ∈ a.spellings) (f : Flags) (args : List Text) :
    read verb f (u ++ args) = read verb (f.take a) args := by
  cases a with
  | valued flag value =>
    have hstore : ¬ (flag = .store ∧ verb ≠ .convert) := fun h => h.2 (ha h.1)
    have hname : ∀ {name : Text}, name = flag.name ∨ name = flag.shortName →
        read verb f (name :: value :: args) = read verb (f.set value flag) args := fun h => by
      simp only [read, Flag.ofName?_eq_some_iff.mpr h, if_neg hstore]
    simp only [spellings, List.mem_cons, List.not_mem_nil, or_false] at hu
    rcases hu with rfl | rfl
    · exact hname (.inl rfl)
    · exact hname (.inr rfl)
  | switch s =>
    obtain rfl := List.mem_singleton.mp hu
    cases s with
    | all => rfl
    | dryRun => cases (show verb = .convert from ha); rfl
    | fix => exact ha.elim
  | file path => exact ha.elim

theorem exists_spelling_of_read {arg : Text} (h : read verb f (arg :: args) = .ok g) :
    ∃ a u rest, arg :: args = u ++ rest ∧ u ≠ [] ∧ u ∈ a.spellings ∧ verb.Takes a := by
  rw [read] at h
  cases hflag : Flag.ofName? arg with
  | none =>
    rw [hflag] at h
    by_cases hall : arg = Flag.all
    · exact ⟨.switch .all, [arg], args, rfl, by simp, by simp [spellings, hall, Switch.name],
        verb.takes_all⟩
    by_cases hdry : arg = Flag.dryRun
    · by_cases hverb : verb = .convert
      · exact ⟨.switch .dryRun, [arg], args, rfl, by simp, by simp [spellings, hdry, Switch.name],
          hverb⟩
      · have hne : ¬ Flag.dryRun = Flag.all := by decide
        simp [switch, hdry, hverb, hne] at h
    · simp [switch, hall, hdry] at h
  | some flag =>
    rw [hflag] at h
    dsimp only at h
    split_ifs at h with hstore
    cases args with
    | nil => simp at h
    | cons value args =>
      have hname := Flag.ofName?_eq_some_iff.mp hflag
      refine ⟨.valued flag value, [arg, value], args, rfl, by simp, ?_, fun he => ?_⟩
      · simpa [spellings] using hname
      · exact by_contra fun hne => hstore ⟨he, hne⟩

/-- The flags of a command are read exactly from the spellings of arguments that it takes. -/
theorem read_eq_ok_iff : read verb f args = .ok g ↔
    ∃ as, Spells as args ∧ (∀ a ∈ as, verb.Takes a) ∧ as.foldl take f = g := by
  constructor
  · -- A flag with a value takes two texts at once, so the induction is on their number.
    intro h
    induction hn : args.length using Nat.strongRecOn generalizing args f with
    | _ n ih =>
      subst hn
      cases args with
      | nil => exact ⟨[], .nil, by simp, by simpa [read] using h⟩
      | cons arg args =>
        obtain ⟨a, u, rest, he, hne, hu, ha⟩ := exists_spelling_of_read h
        rw [he, read_spelling ha hu] at h
        have hlt : rest.length < (arg :: args).length := by
          rw [he, List.length_append]
          have hpos := List.length_pos_iff.mpr hne
          omega
        obtain ⟨as, has, htakes, hg⟩ := ih rest.length hlt h rfl
        exact ⟨a :: as, he ▸ .cons hu has, List.forall_mem_cons.mpr ⟨ha, htakes⟩, hg⟩
  · rintro ⟨as, h, htakes, rfl⟩
    induction h generalizing f with
    | nil => rfl
    | cons hu _ ih =>
      obtain ⟨ha, htakes⟩ := List.forall_mem_cons.mp htakes
      rw [read_spelling ha hu, ih htakes]
      rfl

/-- The arguments that flags were read from, as far as they can be told from them. -/
def stated (f : Flags) : Option Slot → List Argument
  | none => f.postTypes.map (.valued .postType)
  | some (.flag .content) => f.content.toList.map (.valued .content)
  | some (.flag .classes) => f.classes.toList.map (.valued .classes)
  | some (.flag .config) => f.config.toList.map (.valued .config)
  | some (.flag .store) => f.store.toList.map (.valued .store)
  | some (.switch .all) => ifSet .all f.allClasses
  | some (.switch .dryRun) => ifSet .dryRun f.dryRun
  | some (.flag .postType) | some (.switch .fix) => []

theorem stated_take (ha : verb.Takes a) (f : Flags) (k : Option Slot) :
    (f.take a).stated k =
      if a.slot? = k then if k = none then f.stated k ++ [a] else [a] else f.stated k := by
  by_cases hk : a.slot? = k
  · subst hk
    cases a with
    | valued flag value => cases flag <;> simp [slot?, Flag.slot?, take, set, stated]
    | switch s => cases s <;> first | rfl | exact ha.elim
    | file path => exact ha.elim
  · -- The other slots hold fields that are not set.
    rw [if_neg hk]
    cases a with
    | valued flag value =>
      cases flag <;> rcases k with _ | (_ | _) | (_ | _) <;> first | rfl | exact absurd rfl hk
    | switch s =>
      cases s <;> rcases k with _ | (_ | _) | (_ | _) <;> first | rfl | exact absurd rfl hk
    | file path => exact ha.elim

theorem stated_foldl_take (h : ∀ a ∈ as, verb.Takes a) (k : Option Slot) :
    (as.foldl take {}).stated k = latest k (inSlot k as) := by
  induction as using List.reverseRecOn with
  | nil => rcases k with _ | (_ | _) | (_ | _) <;> rfl
  | append_singleton as a ih =>
    have ha : verb.Takes a := h a (by simp)
    have ih := ih fun b hb => h b (List.mem_append_left _ hb)
    rw [List.foldl_append, List.foldl_cons, List.foldl_nil, stated_take ha, ih, inSlot_append,
      inSlot_cons, inSlot_nil]
    split_ifs
    · rw [latest_concat, if_pos ‹_›]
    · rw [latest_concat, if_neg ‹_›]
    · rw [List.append_nil]

/-- Only a conversion has a store or goes without one. -/
def Fits (f : Flags) (verb : Verb) : Prop :=
  verb ≠ .convert → f.store = none ∧ f.dryRun = false

theorem fits_foldl_take (h : ∀ a ∈ as, verb.Takes a) : (as.foldl take {}).Fits verb := by
  have hstep : ∀ {f : Flags} {a : Argument}, verb.Takes a → f.Fits verb → (f.take a).Fits verb := by
    intro f a ha hf hne
    obtain ⟨hstore, hdry⟩ := hf hne
    rcases a with ⟨_ | _, value⟩ | (_ | _) | path <;>
      first
      | exact ⟨hstore, hdry⟩
      | exact absurd (ha rfl) hne
      | exact absurd ha hne
  induction as using List.reverseRecOn with
  | nil => exact fun _ => ⟨rfl, rfl⟩
  | append_singleton as a ih =>
    rw [List.foldl_append]
    exact hstep (h a (by simp)) (ih fun b hb => h b (List.mem_append_left _ hb))

theorem ext_stated (h : ∀ k, f.stated k = g.stated k) : f = g := by
  obtain ⟨content, classes, config, postTypes, allClasses, store, dryRun⟩ := f
  obtain ⟨content', classes', config', postTypes', allClasses', store', dryRun'⟩ := g
  have hvalue : ∀ {o o' : Option Text} (flag : Flag),
      o.toList.map (valued flag) = o'.toList.map (valued flag) → o = o' := by
    intro o o' flag he
    have hlist := List.map_injective_iff.mpr (valued_injective flag) he
    cases o <;> cases o' <;> simp_all
  obtain rfl := List.map_injective_iff.mpr (valued_injective .postType) (h none)
  obtain rfl := hvalue _ (h (some (.flag .content)))
  obtain rfl := hvalue _ (h (some (.flag .classes)))
  obtain rfl := hvalue _ (h (some (.flag .config)))
  obtain rfl := hvalue _ (h (some (.flag .store)))
  obtain rfl := ifSet_injective _ (h (some (.switch .all)))
  obtain rfl := ifSet_injective _ (h (some (.switch .dryRun)))
  rfl

end Flags

def Sources.arguments (s : Sources) : List Argument :=
  .valued .content s.content :: s.config.toList.map (.valued .config) ++
    s.postTypes.map (.valued .postType) ++ ifSet .all s.allClasses

def Target.arguments : Target → List Argument
  | .store path => [.valued .store path]
  | .report unused => .switch .dryRun :: unused.toList.map (.valued .store)

def Sources.flags (s : Sources) (classes : Option Text) : Flags where
  content := some s.content
  classes := classes
  config := s.config
  postTypes := s.postTypes
  allClasses := s.allClasses

namespace Command

def name : Command → Text
  | scan .. => Verb.scan.name
  | count .. => Verb.count.name
  | convert .. => Verb.convert.name
  | validate .. => "validate"
  | help => "help"

def arguments : Command → List Argument
  | scan s classes => s.arguments ++ classes.toList.map (.valued .classes)
  | count s classes => s.arguments ++ [.valued .classes classes]
  | convert s classes target => s.arguments ++ [.valued .classes classes] ++ target.arguments
  | validate files fix => files.map .file ++ ifSet .fix fix
  | help => []

/-- A command that can be written. One that reads content has all that it needs by its type. -/
def Legal : Command → Prop
  | scan .. | count .. | convert .. => True
  | validate files _ => files ≠ [] ∧ Flag.fix ∉ files
  | help => False

/-- A command is written with its arguments in any order, those that add up in their own one, each in
one of its spellings, and with earlier arguments that are overwritten. -/
def Renders (c : Command) (args : List Text) : Prop :=
  ∃ as rest, args = c.name :: rest ∧ Spells as rest ∧ Reordered (effective as) c.arguments

inductive MadeOf : Command → Verb → Flags → Prop
  | scan (s : Sources) (classes : Option Text) : MadeOf (scan s classes) .scan (s.flags classes)
  | count (s : Sources) (classes : Text) : MadeOf (count s classes) .count (s.flags (some classes))
  | store (s : Sources) (classes path : Text) :
      MadeOf (convert s classes (.store path)) .convert
        { s.flags (some classes) with store := some path }
  | report (s : Sources) (classes : Text) (unused : Option Text) :
      MadeOf (convert s classes (.report unused)) .convert
        { s.flags (some classes) with store := unused, dryRun := true }

variable {c : Command} {verb : Verb} {f : Flags} {as : List Argument} {args rest : List Text}

theorem inSlot_arguments (h : MadeOf c verb f) (k : Option Slot) :
    inSlot k c.arguments = f.stated k := by
  cases h with
  | scan | count | store | report =>
    rcases k with _ | (_ | _) | (_ | _) <;>
      simp [arguments, Sources.arguments, Target.arguments, Sources.flags, Flags.stated, inSlot_cons,
        inSlot_map_valued, inSlot_ifSet, slot?, Flag.slot?]

theorem takes_arguments (h : MadeOf c verb f) : ∀ a ∈ c.arguments, verb.Takes a := by
  have hall : ∀ b, ∀ a ∈ ifSet .all b, verb.Takes a := by
    intro b
    cases b <;> simp
  cases h with
  | scan | count | store | report =>
    simpa [arguments, Sources.arguments, Target.arguments, or_imp, forall_and] using hall _

theorem ofFlags_eq_ok_iff (hf : f.Fits verb) : ofFlags verb f = .ok c ↔ MadeOf c verb f := by
  constructor
  · intro h
    obtain ⟨content, classes, config, postTypes, allClasses, store, dryRun⟩ := f
    cases content with
    | none => cases h
    | some content =>
      let s : Sources := { content, config, postTypes, allClasses }
      cases verb with
      | scan =>
        obtain ⟨rfl, rfl⟩ := hf (by decide)
        cases h
        exact .scan s classes
      | count =>
        obtain ⟨rfl, rfl⟩ := hf (by decide)
        cases classes <;> cases h
        exact .count s _
      | convert =>
        cases classes with
        | none => cases h
        | some classes =>
          cases dryRun with
          | true =>
            cases h
            exact .report s classes store
          | false =>
            cases store <;> cases h
            exact .store s classes _
  · intro h
    cases h <;> rfl

/-- A verb makes a command exactly of what spells the arguments of that command. -/
theorem ofVerb_eq_ok_iff : ofVerb verb rest = .ok c ↔
    (∃ f, MadeOf c verb f) ∧ ∃ as, Spells as rest ∧ Reordered (effective as) c.arguments := by
  have hread : ofVerb verb rest = .ok c ↔
      ∃ f, Flags.read verb {} rest = .ok f ∧ ofFlags verb f = .ok c := by
    rw [ofVerb]
    cases Flags.read verb {} rest <;> simp [bind, Except.bind]
  rw [hread]
  constructor
  · rintro ⟨f, hf, hc⟩
    obtain ⟨as, hspells, htakes, rfl⟩ := Flags.read_eq_ok_iff.mp hf
    have hmade := (ofFlags_eq_ok_iff (Flags.fits_foldl_take htakes)).mp hc
    refine ⟨⟨_, hmade⟩, as, hspells, reordered_effective_iff.mpr fun k => ?_⟩
    rw [inSlot_arguments hmade, Flags.stated_foldl_take htakes]
  · rintro ⟨⟨f, hmade⟩, as, hspells, hsame⟩
    have htakes : ∀ a ∈ as, verb.Takes a :=
      forall_mem_of_effective Verb.takes_of_slot fun b hb =>
        takes_arguments hmade b (hsame.perm.subset hb)
    obtain rfl : as.foldl Flags.take {} = f := Flags.ext_stated fun k => by
      rw [Flags.stated_foldl_take htakes, reordered_effective_iff.mp hsame,
        inSlot_arguments hmade]
    exact ⟨_, Flags.read_eq_ok_iff.mpr ⟨as, hspells, htakes, rfl⟩,
      (ofFlags_eq_ok_iff (Flags.fits_foldl_take htakes)).mpr hmade⟩

theorem inSlot_validate (files : List Text) (fix : Bool) (k : Option Slot) :
    inSlot k (validate files fix).arguments =
      (if k = none then files.map .file else []) ++
        if k = some (.switch .fix) then ifSet .fix fix else [] := by
  rw [arguments, inSlot_append, inSlot_map_file, inSlot_ifSet]
  simp only [eq_comm]

theorem latest_inSlot_map_ofInput (k : Option Slot) (args : List Text) :
    latest k (inSlot k (args.map ofInput)) =
      inSlot k (validate (args.filter (· ≠ Flag.fix)) (args.contains Flag.fix)).arguments := by
  rw [inSlot_validate]
  induction args using List.reverseRecOn with
  | nil => rcases k with _ | (_ | _) | (_ | _) <;> rfl
  | append_singleton args t ih =>
    rw [List.map_append, inSlot_append, List.map_singleton, inSlot_cons, inSlot_nil]
    by_cases ht : t = Flag.fix
    · subst ht
      rcases eq_or_ne k (some (.switch .fix)) with rfl | hk
      · simp [ofInput, slot?, latest]
      · simpa [ofInput, slot?, hk, hk.symm] using ih
    · cases k with
      | none => simpa [ofInput, slot?, ht, latest] using ih
      | some slot => simpa [ofInput, slot?, ht, Ne.symm ht] using ih

theorem ofFiles_eq_ok_iff : ofFiles rest = .ok c ↔
    (∃ files fix, c = validate files fix) ∧ c.Legal ∧
      ∃ as, Spells as rest ∧ Reordered (effective as) c.arguments := by
  constructor
  · intro h
    rw [ofFiles] at h
    split_ifs at h with hempty
    cases h
    have hlegal : (validate (rest.filter (· ≠ Flag.fix)) (rest.contains Flag.fix)).Legal :=
      ⟨by simpa using hempty, by simp⟩
    exact ⟨⟨_, _, rfl⟩, hlegal, rest.map ofInput, spells_map_ofInput rest,
      reordered_effective_iff.mpr fun k => latest_inSlot_map_ofInput k rest⟩
  · rintro ⟨⟨files, fix, rfl⟩, ⟨hne, hfix⟩, as, hspells, hsame⟩
    have hinput : ∀ a ∈ as, ∃ t, a = ofInput t := by
      refine forall_mem_of_effective exists_eq_ofInput_of_slot fun b hb => ?_
      rcases List.mem_append.mp (hsame.perm.subset hb) with hb | hb
      · obtain ⟨path, hpath, rfl⟩ := List.mem_map.mp hb
        have hother : path ≠ Flag.fix := fun he => hfix (he ▸ hpath)
        exact ⟨path, (if_neg hother).symm⟩
      · cases fix with
        | true => exact ⟨Flag.fix, List.mem_singleton.mp hb⟩
        | false => exact absurd hb List.not_mem_nil
    obtain rfl := eq_map_ofInput hspells hinput
    have hslots : ∀ k,
        inSlot k (validate (rest.filter (· ≠ Flag.fix)) (rest.contains Flag.fix)).arguments =
          inSlot k (validate files fix).arguments := fun k => by
      rw [← latest_inSlot_map_ofInput, reordered_effective_iff.mp hsame]
    simp only [inSlot_validate] at hslots
    obtain rfl : rest.filter (· ≠ Flag.fix) = files := by
      have hfiles : (rest.filter (· ≠ Flag.fix)).map Argument.file = files.map .file := by
        simpa using hslots none
      exact List.map_injective_iff.mpr (fun _ _ h => Argument.file.inj h) hfiles
    obtain rfl : rest.contains Flag.fix = fix :=
      ifSet_injective .fix (hslots (some (.switch .fix)))
    exact if_neg (by simpa using hne)

theorem ofArgs_verb (verb : Verb) (rest : List Text) :
    ofArgs (verb.name :: rest) = ofVerb verb rest := by
  cases verb <;> rfl

theorem ofArgs_cases (h : ofArgs args = .ok c) : c = .help ∨
    (∃ verb rest, args = verb.name :: rest ∧ ofVerb verb rest = .ok c) ∨
    ∃ rest, args = ("validate" : Text) :: rest ∧ ofFiles rest = .ok c := by
  cases args with
  | nil =>
    cases h
    exact .inl rfl
  | cons name rest =>
    rw [ofArgs] at h
    cases hverb : [Verb.scan, .count, .convert].find? (·.name = name) with
    | some verb =>
      rw [hverb] at h
      have hname : verb.name = name := by simpa using List.find?_some hverb
      exact .inr (.inl ⟨verb, rest, by rw [hname], h⟩)
    | none =>
      rw [hverb] at h
      dsimp only at h
      split_ifs at h with hvalidate hhelp
      · exact .inr (.inr ⟨rest, by rw [hvalidate], h⟩)
      · cases h
        exact .inl rfl

/-- A command other than help is read from exactly what it is written as, and only a legal one is. -/
theorem ofArgs_eq_ok_iff_renders (c : Command) (args : List Text) :
    ofArgs args = .ok c ∧ c ≠ .help ↔ c.Legal ∧ c.Renders args := by
  constructor
  · rintro ⟨h, hhelp⟩
    rcases ofArgs_cases h with rfl | ⟨verb, rest, rfl, hc⟩ | ⟨rest, rfl, hc⟩
    · exact absurd rfl hhelp
    · obtain ⟨⟨f, hmade⟩, as, hspells, hsame⟩ := ofVerb_eq_ok_iff.mp hc
      cases hmade with
      | scan | count | store | report => exact ⟨trivial, as, rest, rfl, hspells, hsame⟩
    · obtain ⟨⟨files, fix, rfl⟩, hlegal, as, hspells, hsame⟩ := ofFiles_eq_ok_iff.mp hc
      exact ⟨hlegal, as, rest, rfl, hspells, hsame⟩
  · rintro ⟨hlegal, as, rest, rfl, hspells, hsame⟩
    have hverb : ∀ {verb f}, MadeOf c verb f → c.name = verb.name →
        ofArgs (c.name :: rest) = .ok c := by
      intro verb f hmade hname
      rw [hname, ofArgs_verb]
      exact ofVerb_eq_ok_iff.mpr ⟨⟨f, hmade⟩, as, hspells, hsame⟩
    cases c with
    | scan s classes => exact ⟨hverb (.scan s classes) rfl, by simp⟩
    | count s classes => exact ⟨hverb (.count s classes) rfl, by simp⟩
    | convert s classes target =>
      cases target with
      | store path => exact ⟨hverb (.store s classes path) rfl, by simp⟩
      | report unused => exact ⟨hverb (.report s classes unused) rfl, by simp⟩
    | validate files fix =>
      exact ⟨ofFiles_eq_ok_iff.mpr ⟨⟨files, fix, rfl⟩, hlegal, as, hspells, hsame⟩, by simp⟩
    | help => exact hlegal.elim

example : ofArgs ["convert", "-o", "a", "--dry-run", "-t", "--all", "-d", "--content", "-g", "-g",
      "--store", "-o", "--dry-run"] =
    .ok (convert { content := "--content", postTypes := ["--all"] } "-g" (.report (some "-o"))) :=
  rfl

end Command

end Restyle
