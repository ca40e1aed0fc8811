import Restyle.Proofs.Declaration.TokenPass
import Restyle.Proofs.Session.Calls
import Restyle.Proofs.Table
import Restyle.Proofs.Utility.RuleSearch
import Restyle.Selector.Basic

/-! # Looking up utility classes

Whatever was asked before, the declarations of a class are those that the
stylesheet has for it. In a flat stylesheet they are those of the first rule
whose prelude ends with the class, which need not be the first rule that has the
class as one of its selectors.
-/

namespace Restyle.Utility

open Text

def run (u : Utility) (sts : List Step) : Utility :=
  sts.foldl (fun u st => (u.step st).2) u

structure Coherent (u : Utility) : Prop where
  loaded : u.loaded = u.source
  lookups : ∀ name t, u.lookups.get? name = some t → t = declarationsIn u.source name

variable {u : Utility} {name source t : Text} {rules : List FlatRule}

theorem coherent_ofStylesheet (source : Text) : (ofStylesheet source).Coherent :=
  ⟨rfl, fun _ _ h => absurd h.symm (Option.some_ne_none _)⟩

namespace Coherent

theorem declarations_eq (h : u.Coherent) (name : Text) :
    u.declarations name = declarationsIn u.source name := by
  rw [declarations, h.loaded]
  rcases hk : u.lookups.get? name with _ | t
  · rfl
  · exact h.lookups name t hk

theorem remember (h : u.Coherent) (name : Text) : (u.remember name).Coherent := by
  rw [Utility.remember]
  split_ifs
  · exact h
  · refine ⟨h.loaded, fun key t ht => ?_⟩
    rw [Table.get?_set, h.loaded] at ht
    split_ifs at ht with hkey
    · rw [hkey]
      exact (Option.some.inj ht).symm
    · exact h.lookups key t ht

theorem register (h : u.Coherent) (c : GlobalClass) : (u.register c).Coherent := by
  rw [Utility.register]
  dsimp only
  split_ifs
  · exact h
  · exact h.remember _
  · obtain ⟨hloaded, hlookups⟩ := h.remember (bareName c.name.trim)
    exact ⟨hloaded, hlookups⟩

theorem step (h : u.Coherent) (st : Step) : (u.step st).2.Coherent := by
  cases st with
  | reset => exact coherent_ofStylesheet u.source
  | isUtility c => exact h
  | register c => exact h.register c
  | declarations name => exact h.remember name
  | inline => exact h

theorem run (h : u.Coherent) (sts : List Step) : (u.run sts).Coherent := by
  induction sts generalizing u with
  | nil => exact h
  | cons st sts ih => exact ih (h.step st)

end Coherent

theorem source_step (u : Utility) (st : Step) : (u.step st).2.source = u.source := by
  cases st with
  | reset => rfl
  | isUtility c => rfl
  | register c => exact source_register u c
  | declarations name => exact source_remember u name
  | inline => rfl

theorem source_run (u : Utility) (sts : List Step) : (u.run sts).source = u.source := by
  induction sts generalizing u with
  | nil => rfl
  | cons st sts ih => exact (ih (u.step st).2).trans (source_step u st)

theorem declarations_run (source name : Text) (sts : List Step) :
    ((ofStylesheet source).run sts).declarations name = declarationsIn source name := by
  rw [((coherent_ofStylesheet source).run sts).declarations_eq, source_run]
  rfl

/-- The declarations of a rule, if there is one. -/
def declarationsOf (r? : Option FlatRule) : Text :=
  (r?.map fun r => Declaration.replaceBareHsl (trim r.body)).getD []

/-- A class is a selector of its own in a rule. -/
def Selects (name : Text) (r : FlatRule) : Prop :=
  '.' :: name ∈ Selector.splitList r.prelude

instance (name : Text) (r : FlatRule) : Decidable (Selects name r) :=
  inferInstanceAs (Decidable (_ ∈ _))

theorem declarationsIn_flatSheet (hname : ∀ c ∈ name, isNameChar c = true) (rules : List FlatRule)
    {rest : Text} (hrest : Braceless rest) : declarationsIn (flatSheet rules rest) name =
      declarationsOf (rules.find? fun r => EndsNamed isSeparator name r.prelude) := by
  rw [declarationsIn, find?_rule, bodyBehind?_flatSheet hname (by decide) (by decide) rules hrest]
  cases rules.find? fun r => EndsNamed isSeparator name r.prelude <;> rfl

section Bodies

def tally (n : Nat) : Text :=
  List.replicate (n + 1) 'x'

theorem braceless_tally (n : Nat) : Braceless (tally n) := by
  constructor <;> exact fun h => absurd (List.eq_of_mem_replicate h) (by decide)

theorem trim_tally (n : Nat) : trim (tally n) = tally n := by
  have hvisible : ∀ c ∈ tally n, isBlank c = false := fun c hc => by
    rw [List.eq_of_mem_replicate hc]
    decide
  exact (trimmed_of_visible hvisible).trim_eq

theorem hslFree_tally (n : Nat) : Declaration.HslFree (tally n) := by
  rw [Declaration.HslFree, ← Bool.not_eq_true, contains_iff_isInfix]
  intro hin
  have hdash : '-' ∈ (tally n).map fold := hin.subset (by decide)
  rw [tally, List.map_replicate] at hdash
  exact absurd (List.eq_of_mem_replicate hdash) (by decide)

def numbered : Nat → List FlatRule → List FlatRule
  | _, [] => []
  | n, r :: rules =>
    ⟨r.prelude, tally n, r.prelude_braceless, braceless_tally n⟩ :: numbered (n + 1) rules

theorem numbered_preludes (n : Nat) (rules : List FlatRule) :
    (numbered n rules).map (·.prelude) = rules.map (·.prelude) := by
  induction rules generalizing n with
  | nil => rfl
  | cons r rules ih => rw [numbered, List.map_cons, List.map_cons, ih]

theorem length_declarationsOf_numbered (p : Text → Bool) (n : Nat) (rules : List FlatRule) :
    (declarationsOf ((numbered n rules).find? (p ·.prelude))).length =
      ((rules.findIdx? (p ·.prelude)).map (· + n + 1)).getD 0 := by
  induction rules generalizing n with
  | nil => rfl
  | cons r rules ih =>
    rw [numbered, List.findIdx?_cons]
    cases hp : p r.prelude with
    | true =>
      rw [List.find?_cons_of_pos (by exact hp), declarationsOf, Option.map_some, trim_tally,
        Declaration.replaceBareHsl, Declaration.substitute_bareHsl_of_hslFree (hslFree_tally n)]
      simp [tally]
    | false =>
      have hshift : ((· + n + 1) ∘ (· + 1) : Nat → Nat) = (· + (n + 1) + 1) := by
        funext i
        simp only [Function.comp_apply]
        omega
      rw [List.find?_cons_of_neg (by simp [hp]), ih, if_neg (by decide), Option.map_map, hshift]

/-- Where two searches always give the same declarations, they stop at the same rule. -/
theorem declarationsOf_find?_eq_iff (p q : Text → Bool) (rules : List FlatRule) :
    (∀ rules' : List FlatRule, rules'.map (·.prelude) = rules.map (·.prelude) →
      declarationsOf (rules'.find? (p ·.prelude)) =
        declarationsOf (rules'.find? (q ·.prelude))) ↔
      rules.findIdx? (p ·.prelude) = rules.findIdx? (q ·.prelude) := by
  constructor
  · intro h
    have hlength := congrArg List.length (h _ (numbered_preludes 0 rules))
    rw [length_declarationsOf_numbered, length_declarationsOf_numbered] at hlength
    have hinj : ∀ a b : Option Nat,
        (a.map (· + 0 + 1)).getD 0 = (b.map (· + 0 + 1)).getD 0 → a = b := by
      rintro (_ | i) (_ | j) he <;> simp_all
    exact hinj _ _ hlength
  · intro h rules' hsame
    have hidx : ∀ (p : Text → Bool) (rules : List FlatRule),
        rules.findIdx? (p ·.prelude) = (rules.map (·.prelude)).findIdx? p :=
      fun p rules => List.findIdx?_map.symm
    rw [hidx, hidx, ← hsame, ← hidx, ← hidx] at h
    rw [List.find?_eq_bind_findIdx?_getElem?, List.find?_eq_bind_findIdx?_getElem?, h]

end Bodies

/-- A lookup gives the same text whenever it is made. In a flat stylesheet it gives the declarations
of the first rule that has the class as a selector, whatever the bodies of the rules are, exactly if
this is the first rule whose prelude ends with the class behind white space, a comma or nothing. -/
theorem lookup_finds_own_iff (hname : ∀ c ∈ name, isNameChar c = true) (rules : List FlatRule) :
    (∀ source sts key, ((ofStylesheet source).run sts).declarations key =
      (ofStylesheet source).declarations key) ∧
      (∀ rest sts, Braceless rest →
        ((ofStylesheet (flatSheet rules rest)).run sts).declarations name =
          declarationsOf (rules.find? fun r => EndsNamed isSeparator name r.prelude)) ∧
      ((∀ rules' : List FlatRule, rules'.map (·.prelude) = rules.map (·.prelude) →
        ∀ rest sts, Braceless rest →
          ((ofStylesheet (flatSheet rules' rest)).run sts).declarations name =
            declarationsOf (rules'.find? (Selects name ·))) ↔
        rules.findIdx? (EndsNamed isSeparator name ·.prelude) = rules.findIdx? (Selects name ·)) := by
  have hfound : ∀ rules' rest sts, Braceless rest →
      ((ofStylesheet (flatSheet rules' rest)).run sts).declarations name =
        declarationsOf (rules'.find? fun r => EndsNamed isSeparator name r.prelude) :=
    fun rules' rest sts hrest => by rw [declarations_run, declarationsIn_flatSheet hname rules' hrest]
  refine ⟨fun source sts key => ?_, hfound rules, ?_⟩
  · rw [declarations_run]
    rfl
  · refine Iff.trans ?_ (declarationsOf_find?_eq_iff (EndsNamed isSeparator name ·)
      (fun t => '.' :: name ∈ Selector.splitList t) rules)
    constructor
    · intro h rules' hsame
      have hempty : Braceless [] := by decide
      rw [← hfound rules' [] [] hempty]
      exact h rules' hsame [] [] hempty
    · intro h rules' hsame rest sts hrest
      rw [hfound rules' rest sts hrest]
      exact h rules' hsame

/-- A rule for a longer name in front of the rule for the class. -/
theorem lookup_passes_longer_name : (∀ c ∈ ("text--xl" : Text), isNameChar c = true) ∧
    ∀ sts, ((ofStylesheet
      (".x-text--xl{font-size:9rem}\n.text--xl{font-size:2rem}" : String)).run sts).declarations
        "text--xl" = "font-size:2rem" := by
  have hname : ∀ c ∈ ("text--xl" : Text), isNameChar c = true := by decide
  exact ⟨hname, fun sts => (lookup_finds_own_iff hname
    [⟨".x-text--xl", "font-size:9rem", by decide, by decide⟩,
      ⟨"\n.text--xl", "font-size:2rem", by decide, by decide⟩]).2.1 [] sts (by decide)⟩

/-- The rule for a descendant is taken for the rule of the class, and a rule that has the class and
another selector behind it is not. -/
theorem lookup_finds_descendant :
    (ofStylesheet (".dark .card{color:red}" : String)).declarations "card" = "color:red" ∧
      (ofStylesheet (".card, .other{color:red}" : String)).declarations "card" = [] ∧
      ¬ ∀ name : Text, (∀ c ∈ name, isNameChar c = true) →
        ∀ rules : List FlatRule, (ofStylesheet (flatSheet rules [])).declarations name =
          declarationsOf (rules.find? (Selects name ·)) := by
  refine ⟨by decide, by decide, fun h => ?_⟩
  have hdark := h "card" (by decide) [⟨".dark .card", "color:red", by decide, by decide⟩]
  exact absurd hdark (by decide)

end Restyle.Utility
