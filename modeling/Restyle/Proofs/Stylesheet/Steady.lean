import Restyle.Proofs.Stylesheet.Cleanness
import Restyle.Proofs.Stylesheet.Grouping

/-! # Texts that are printed again as they are

What a stylesheet is printed with is read back and printed again, line by line
the same apart from the white space in front. It stays so in a body that is set
in any number of times, so that blocks can be put into one another.
-/

namespace Restyle

open Text Node

/-- Wherever the text is set in, it is read as nodes that are printed as the text, apart from the
white space in front of its lines. -/
structure Steady (t : Text) : Prop where
  trimmed : Trimmed t
  ne_nil : t ≠ []
  single : SingleReturns t
  rereads : ∀ m, ∃ ns, Yields ns (reline^[m] t) ∧ Trimmed (formatBody ns) ∧ formatBody ns ≠ [] ∧
    unindent (formatBody ns) = unindent (reline^[m] t)

namespace Steady

variable {t u s gap : Text} {ns ms : List Node} {parts : List Text}

theorem formatBody_append (h : formatBody ns ≠ []) (h' : formatBody ms ≠ []) :
    formatBody (ns ++ ms) = formatBody ns ++ '\n' :: formatBody ms := by
  have hall : ∀ ns : List Node, formatBody ns ≠ [] → formatAll ns ≠ [] := by
    intro ns hne hnil
    rw [formatBody, hnil] at hne
    exact hne rfl
  have hsplit : formatAll (ns ++ ms) = formatAll ns ++ formatAll ms := by
    clear h h'
    induction ns with
    | nil => rfl
    | cons n ns ih => rw [List.cons_append, formatAll, formatAll, ih, List.append_assoc]
  rw [formatBody, hsplit, join_append _ (hall ns h) (hall ms h')]
  rfl

theorem declaration (hd : Paired t) (hc : Chunk t) (hs : SingleReturns t) : Steady (t ++ ";") := by
  have htrimmed : ∀ u : Text, Chunk u → Trimmed (u ++ ";") := by
    intro u hu
    have happend := hu.trimmed.append (by decide : Trimmed [';']) hu.ne_nil (by simp) []
    simpa using happend
  refine ⟨htrimmed t hc, by simp, hs.append_cons (.of_notMem (by simp)) (by decide) (by decide),
    fun m => ?_⟩
  have hpaired : Paired (reline^[m] t) := Function.Iterate.rec Paired hd (fun _ h => h.reline) m
  have hchunk : Chunk (reline^[m] t) := Function.Iterate.rec Chunk hc (fun _ h => h.reline) m
  have hspelled : reline^[m] (t ++ ";") = reline^[m] t ++ ";" := by
    have hnil : reline^[m] [] = [] := Function.iterate_fixed rfl m
    have happend := reline_iterate_append hc.trimmed.endsVisibly [';'] m
    rw [reline_iterate_cons (by decide) (by decide), hnil] at happend
    exact happend
  have hformat : formatBody [.declaration (reline^[m] t)] = reline^[m] t ++ ";" := by
    simp [formatBody, formatAll, Node.format, hpaired.format]
  refine ⟨[.declaration (reline^[m] t)], ?_, ?_, ?_, ?_⟩
  · rw [hspelled]
    exact .declaration hchunk
  · rw [hformat]
    exact htrimmed _ hchunk
  · simp [hformat]
  · rw [hformat, hspelled]

theorem blank_margin (n : ℕ) : Blank ('\n' :: List.replicate n ' ') := by
  refine blank_cons.mpr ⟨by decide, fun c hc => ?_⟩
  rw [List.eq_of_mem_replicate hc]
  decide

theorem append (ht : Steady t) (hu : Steady u) : Steady (t ++ '\n' :: u) := by
  refine ⟨?_, by simp, ht.single.append_feed ht.trimmed.endsVisibly hu.single, fun m => ?_⟩
  · have happend := ht.trimmed.append hu.trimmed ht.ne_nil hu.ne_nil ['\n']
    simpa using happend
  · obtain ⟨ns, hns, htrim, hne, heq⟩ := ht.rereads m
    obtain ⟨ms, hms, htrim', hne', heq'⟩ := hu.rereads m
    have hspelled : reline^[m] (t ++ '\n' :: u) =
        reline^[m] t ++ '\n' :: (List.replicate (2 * m) ' ' ++ reline^[m] u) := by
      have hfeed := reline_iterate_append_feed ht.trimmed.endsVisibly hu.trimmed hu.ne_nil 0 m
      rwa [Nat.zero_add] at hfeed
    refine ⟨ns ++ ms, ?_, ?_, ?_, ?_⟩
    · rw [hspelled]
      exact hns.append (hms.blank_append (blank_margin (2 * m)))
    · rw [formatBody_append hne hne']
      have happend := htrim.append htrim' hne hne' ['\n']
      simpa using happend
    · rw [formatBody_append hne hne']
      simp
    · rw [formatBody_append hne hne', hspelled, unindent_append_feed, unindent_append_margin, heq, heq']

theorem endsVisibly_head (head : Text) : EndsVisibly (head ++ [' ', '{']) := by
  intro c hc
  rw [List.getLast?_append_of_ne_nil _ (List.cons_ne_nil _ _)] at hc
  obtain rfl := Option.some.inj hc
  decide

theorem braced_eq (ht : Trimmed t) (hne : t ≠ []) (head : Text) :
    Restyle.braced head t = (head ++ [' ', '{']) ++
      '\n' :: (List.replicate 2 ' ' ++ (reline t ++ '\n' :: ['}'])) := by
  rw [Restyle.braced, indent_eq ht hne]
  simp [List.replicate_succ]

theorem formatBody_block (hh : AtRule.IsHead s gap) (hs : s ≠ []) (hne : formatBody ns ≠ []) :
    formatBody [.block s ns] = Restyle.braced (s ++ gap) (formatBody ns) := by
  have hhead : (AtRule.condition? s).getD s = s ++ gap := hh.head_eq
  have hbody : join "\n" (formatAll ns) = formatBody ns := rfl
  have hempty : ((s ++ gap).isEmpty || (formatBody ns).isEmpty) = false := by simp [hs, hne]
  rw [formatBody, formatAll, formatAll, List.append_nil, Node.format]
  simp only [hhead, hbody, hempty, Bool.false_eq_true, if_false, join_singleton]

theorem trimmed_braced (hs : Trimmed s) (hne : s ≠ []) (gap t : Text) :
    Trimmed (Restyle.braced (s ++ gap) t) := by
  have happend := hs.append (by decide : Trimmed ['}']) hne (List.cons_ne_nil _ _)
    (gap ++ " \x7b\n" ++ indent t ++ "\n")
  simpa [Restyle.braced] using happend

theorem singleReturns_braced (hs : SingleReturns s) (hgap : gap = [] ∨ gap = [' ']) (ht : Steady t) :
    SingleReturns (Restyle.braced (s ++ gap) t) := by
  have hhead : SingleReturns (s ++ gap ++ [' ', '{']) := by
    rcases hgap with rfl | rfl
    · rw [List.append_nil]
      exact hs.append_cons (.of_notMem (by simp)) (by decide) (by decide)
    · rw [List.append_assoc]
      exact hs.append_cons (.of_notMem (by simp)) (by decide) (by decide)
  have hbody : SingleReturns (reline t ++ '\n' :: ['}']) :=
    (singleReturns_reline ht.single).append_feed (trimmed_reline ht.trimmed).endsVisibly
      (.of_notMem (by simp))
  rw [braced_eq ht.trimmed ht.ne_nil]
  exact hhead.append_feed (endsVisibly_head _) ((hbody.cons (by decide)).cons (by decide))

theorem reline_iterate_braced (hs : Trimmed s) (hgap : gap = [] ∨ gap = [' ']) (ht : Trimmed t)
    (hne : t ≠ []) (m : ℕ) : reline^[m] (Restyle.braced (s ++ gap) t) =
      (reline^[m] s ++ gap ++ [' ', '{']) ++ '\n' :: (List.replicate (2 + 2 * m) ' ' ++
        (reline^[m + 1] t ++ '\n' :: (List.replicate (2 * m) ' ' ++ ['}']))) := by
  have hbrace : Trimmed ['}'] := by decide
  have hinner : Trimmed (reline t ++ '\n' :: ['}']) := by
    have happend := (trimmed_reline ht).append hbrace (reline_ne_nil hne) (List.cons_ne_nil _ _) ['\n']
    simpa using happend
  have hopen : reline^[m] (s ++ gap ++ [' ', '{']) = reline^[m] s ++ gap ++ [' ', '{'] := by
    rw [List.append_assoc, reline_iterate_append hs.endsVisibly, List.append_assoc]
    rcases hgap with rfl | rfl <;> exact congrArg _ (Function.iterate_fixed rfl m)
  have hclose : reline^[m] ['}'] = ['}'] := Function.iterate_fixed rfl m
  have hlast := reline_iterate_append_feed (trimmed_reline ht).endsVisibly hbrace
    (List.cons_ne_nil _ _) 0 m
  rw [List.replicate_zero, List.nil_append, Nat.zero_add, hclose, ← Function.iterate_succ_apply]
    at hlast
  rw [braced_eq ht hne, reline_iterate_append_feed (endsVisibly_head _) hinner (by simp), hopen, hlast]

theorem braced {head : Text} (hhead : AtRule.Printable head) (ht : Steady t) :
    Steady (Restyle.braced head t) := by
  obtain ⟨s, gap, rfl, hh, hc, hs⟩ := hhead
  have hgap : gap = [] ∨ gap = [' '] := by
    cases hh with
    | bare => exact Or.inr rfl
    | _ => exact Or.inl rfl
  refine ⟨?_, ?_, ?_, fun m => ?_⟩
  · exact trimmed_braced hc.trimmed hc.ne_nil gap t
  · simp [Restyle.braced]
  · exact singleReturns_braced hs hgap ht
  · obtain ⟨ns, hns, htrim, hne, heq⟩ := ht.rereads (m + 1)
    have hhead : AtRule.IsHead (reline^[m] s) gap :=
      Function.Iterate.rec (AtRule.IsHead · gap) hh (fun _ h => h.reline) m
    have hchunk : Chunk (reline^[m] s) := Function.Iterate.rec Chunk hc (fun _ h => h.reline) m
    have hsingle : SingleReturns (reline^[m] t) :=
      Function.Iterate.rec SingleReturns ht.single (fun _ h => singleReturns_reline h) m
    have hspelled := reline_iterate_braced hc.trimmed hgap ht.trimmed ht.ne_nil m
    have hformat := formatBody_block hhead hchunk.ne_nil hne
    refine ⟨[.block (reline^[m] s) ns], ?_, ?_, ?_, ?_⟩
    · have hblank : Blank (gap ++ [' ']) := by
        rcases hgap with rfl | rfl <;> decide
      have hbody : Yields ns (('\n' :: List.replicate (2 + 2 * m) ' ') ++
          (reline^[m + 1] t ++ '\n' :: List.replicate (2 * m) ' ')) := by
        have hlast := hns.append (.of_blank (blank_margin (2 * m)))
        rw [List.append_nil] at hlast
        exact hlast.blank_append (blank_margin (2 + 2 * m))
      have hblock := Yields.braces hchunk hblank hbody
      rw [hspelled]
      simpa using hblock
    · rw [hformat]
      exact trimmed_braced hchunk.trimmed hchunk.ne_nil gap _
    · rw [hformat]
      simp [Restyle.braced]
    · rw [hformat, hspelled, braced_eq htrim hne, unindent_append_margin, unindent_append_margin,
        unindent_append_margin, unindent_append_feed, unindent_reline, heq,
        Function.iterate_succ_apply', hsingle.dropReturns_unindent_reline]

theorem join (h : ∀ t ∈ parts, Steady t) (hne : parts ≠ []) : Steady (join "\n" parts) :=
  join_induction (fun _ _ ht hu => ht.append hu) h hne

end Steady

mutual

theorem Node.steady_of_mem_format : ∀ n : Node, n.Clean → ∀ t ∈ n.format, Steady t
  | .declaration d, h => by
    intro t ht
    rw [Node.format, Option.mem_toList] at ht
    obtain ⟨d, rfl, hpaired, hchunk, hsingle⟩ := exists_paired h ht
    exact .declaration hpaired hchunk hsingle
  | .block selector body, h => by
    obtain ⟨hselector, hbody⟩ := h
    have hall := steady_of_mem_formatAll body hbody
    intro t ht
    rw [Node.format] at ht
    split_ifs at ht with hempty
    · cases ht
    · rw [Bool.or_eq_true, List.isEmpty_iff, List.isEmpty_iff, not_or] at hempty
      obtain rfl := List.mem_singleton.mp ht
      have hne : selector ≠ [] := by
        rintro rfl
        exact hempty.1 rfl
      have hlines : formatAll body ≠ [] := by
        intro hnil
        rw [hnil] at hempty
        exact hempty.2 rfl
      exact .braced (AtRule.printable_head hselector hne) (.join hall hlines)

theorem Node.steady_of_mem_formatAll : ∀ ns : List Node, CleanAll ns → ∀ t ∈ formatAll ns, Steady t
  | [], _ => by simp [formatAll]
  | n :: ns, h => by
    intro t ht
    rw [formatAll] at ht
    rcases List.mem_append.mp ht with ht | ht
    · exact steady_of_mem_format n h.1 t ht
    · exact steady_of_mem_formatAll ns h.2 t ht

end

theorem Node.steady_formatBody {ns : List Node} (h : CleanAll ns) (hne : formatBody ns ≠ []) :
    Steady (formatBody ns) := by
  refine .join (steady_of_mem_formatAll ns h) fun hnil => ?_
  rw [formatBody, hnil] at hne
  exact hne rfl

namespace Rule

structure Printable (r : Rule) : Prop where
  conditions : ∀ c ∈ r.conditions, AtRule.Printable c
  selector : AtRule.Printable r.selector
  declarations : Steady r.declarations

variable {rules inner : List Rule} {wrapRoot : Bool} {r : Rule} {c t : Text}

def plainPairs (rules : List Rule) : List (Text × Text) :=
  rules.filterMap fun r => if r.conditions.isEmpty then some (r.selector, r.declarations) else none

def isRoot (wrapRoot : Bool) (p : Text × Text) : Bool :=
  p.1 == ['&'] && !wrapRoot

/-- What is printed of rules without conditions: the token itself first, unless it is to be
wrapped too, then other selectors. -/
def plainParts (wrapRoot : Bool) (rules : List Rule) : List Text :=
  let root := ((groupBodies ((plainPairs rules).filter (isRoot wrapRoot))).get? "&").getD []
  (if root.isEmpty then [] else [join "\n" root]) ++
    (groupBodies ((plainPairs rules).filter (!isRoot wrapRoot ·))).map fun (selector, bodies) =>
      braced selector (join "\n" bodies)

theorem renderWithin_zero (rules : List Rule) (wrapRoot : Bool) :
    renderWithin 0 rules wrapRoot = join "\n" (plainParts wrapRoot rules) := by
  rw [renderWithin, List.append_nil]
  rfl

theorem renderWithin_succ (depth : Nat) (rules : List Rule) (wrapRoot : Bool) :
    renderWithin (depth + 1) rules wrapRoot =
      join "\n" (plainParts wrapRoot rules ++
        (groupConditions rules).map fun (c, inner) => braced c (renderWithin depth inner true)) := by
  rw [renderWithin]
  rfl

theorem printable_of_mem_plainPairs {p : Text × Text} (h : ∀ r ∈ rules, r.Printable)
    (hp : p ∈ plainPairs rules) : AtRule.Printable p.1 ∧ Steady p.2 := by
  obtain ⟨r, hr, he⟩ := List.mem_filterMap.mp hp
  split_ifs at he
  obtain rfl := Option.some.inj he
  exact ⟨(h r hr).selector, (h r hr).declarations⟩

theorem steady_of_mem_plainParts (h : ∀ r ∈ rules, r.Printable) (ht : t ∈ plainParts wrapRoot rules) :
    Steady t := by
  rcases List.mem_append.mp ht with ht | ht
  · rw [getD_groupBodies] at ht
    split_ifs at ht with hempty
    · cases ht
    · obtain rfl := List.mem_singleton.mp ht
      refine .join (fun body hbody => ?_) (by simpa using hempty)
      rw [bodiesOf, List.mem_eraseDups] at hbody
      obtain ⟨p, hp, rfl⟩ := List.mem_map.mp hbody
      have hpair := List.mem_of_mem_filter (List.mem_of_mem_filter hp)
      exact (printable_of_mem_plainPairs h hpair).2
  · obtain ⟨⟨selector, bodies⟩, hmem, rfl⟩ := List.mem_map.mp ht
    obtain ⟨hne, hbodies⟩ := mem_groupBodies hmem
    have hpair : ∀ body ∈ bodies, AtRule.Printable selector ∧ Steady body := fun body hbody =>
      printable_of_mem_plainPairs h (List.mem_of_mem_filter (hbodies body hbody))
    obtain ⟨body, hbody⟩ := List.exists_mem_of_ne_nil bodies hne
    exact .braced (hpair body hbody).1 (.join (fun body hbody => (hpair body hbody).2) hne)

theorem plainParts_ne_nil (hr : r ∈ rules) (hc : r.conditions = []) :
    plainParts wrapRoot rules ≠ [] := by
  have hp : (r.selector, r.declarations) ∈ plainPairs rules := by
    refine List.mem_filterMap.mpr ⟨r, hr, ?_⟩
    rw [hc]
    rfl
  rw [plainParts, getD_groupBodies]
  intro hnil
  obtain ⟨hroot, hnested⟩ := List.append_eq_nil_iff.mp hnil
  by_cases hisRoot : isRoot wrapRoot (r.selector, r.declarations) = true
  · have hselector : r.selector = "&" := by simpa using (Bool.and_eq_true_iff.mp hisRoot).1
    have hmem : r.declarations ∈ bodiesOf ((plainPairs rules).filter (isRoot wrapRoot)) "&" := by
      rw [bodiesOf, List.mem_eraseDups]
      refine List.mem_map.mpr ⟨_, List.mem_filter.mpr ⟨List.mem_filter.mpr ⟨hp, hisRoot⟩, ?_⟩, rfl⟩
      simpa using hselector
    rw [List.isEmpty_eq_false_iff.mpr (List.ne_nil_of_mem hmem)] at hroot
    cases hroot
  · have hmem : (r.selector, r.declarations) ∈ (plainPairs rules).filter (!isRoot wrapRoot ·) :=
      List.mem_filter.mpr ⟨hp, by simpa using hisRoot⟩
    exact groupBodies_ne_nil (List.ne_nil_of_mem hmem) (List.map_eq_nil_iff.mp hnested)

theorem mem_groupConditions (h : (c, inner) ∈ groupConditions rules) :
    inner ≠ [] ∧ ∀ r ∈ inner, { r with conditions := c :: r.conditions } ∈ rules := by
  obtain ⟨hne, hinner⟩ := Table.mem_group h
  refine ⟨hne, fun r hr => ?_⟩
  obtain ⟨⟨conditions, selector, declarations⟩, hr', he⟩ := List.mem_filterMap.mp (hinner r hr)
  rcases conditions with _ | ⟨c', conditions⟩
  · cases he
  · obtain ⟨rfl, rfl⟩ := Prod.mk.inj (Option.some.inj he)
    exact hr'

theorem groupConditions_ne_nil (hr : r ∈ rules) (hc : r.conditions ≠ []) :
    groupConditions rules ≠ [] := by
  obtain ⟨conditions, selector, declarations⟩ := r
  obtain ⟨c, conditions, rfl⟩ := List.exists_cons_of_ne_nil hc
  exact Table.group_ne_nil (List.ne_nil_of_mem (List.mem_filterMap.mpr ⟨_, hr, rfl⟩))

theorem steady_renderWithin (depth : Nat) (h : ∀ r ∈ rules, r.Printable)
    (hdepth : ∀ r ∈ rules, r.conditions.length ≤ depth) (hne : rules ≠ []) (wrapRoot : Bool) :
    Steady (renderWithin depth rules wrapRoot) := by
  induction depth generalizing rules wrapRoot with
  | zero =>
    obtain ⟨r, hr⟩ := List.exists_mem_of_ne_nil rules hne
    have hconditions : r.conditions = [] := List.length_eq_zero_iff.mp (Nat.le_zero.mp (hdepth r hr))
    rw [renderWithin_zero]
    exact .join (fun t => steady_of_mem_plainParts h) (plainParts_ne_nil hr hconditions)
  | succ depth ih =>
    rw [renderWithin_succ]
    refine .join (fun t ht => ?_) fun hnil => ?_
    · rcases List.mem_append.mp ht with ht | ht
      · exact steady_of_mem_plainParts h ht
      · obtain ⟨⟨c, inner⟩, hmem, rfl⟩ := List.mem_map.mp ht
        obtain ⟨hinner, hrules⟩ := mem_groupConditions hmem
        have hprintable : ∀ r ∈ inner, AtRule.Printable c ∧ r.Printable := by
          intro r hr
          obtain ⟨hconditions, hselector, hdeclarations⟩ := h _ (hrules r hr)
          obtain ⟨hc, hconditions⟩ := List.forall_mem_cons.mp hconditions
          exact ⟨hc, hconditions, hselector, hdeclarations⟩
        have hlength : ∀ r ∈ inner, r.conditions.length ≤ depth := fun r hr =>
          Nat.le_of_succ_le_succ (hdepth _ (hrules r hr))
        obtain ⟨r, hr⟩ := List.exists_mem_of_ne_nil inner hinner
        exact .braced (hprintable r hr).1 (ih (fun r hr => (hprintable r hr).2) hlength hinner true)
    · obtain ⟨r, hr⟩ := List.exists_mem_of_ne_nil rules hne
      obtain ⟨hparts, hconditional⟩ := List.append_eq_nil_iff.mp hnil
      by_cases hconditions : r.conditions = []
      · exact plainParts_ne_nil hr hconditions hparts
      · exact groupConditions_ne_nil hr hconditions (List.map_eq_nil_iff.mp hconditional)

theorem length_le_depth (hr : r ∈ rules) : r.conditions.length ≤ depth rules := by
  have hmax : ∀ (rules : List Rule) (d : Nat),
      d ≤ rules.foldl (fun d r => max d r.conditions.length) d ∧
        ∀ r ∈ rules, r.conditions.length ≤ rules.foldl (fun d r => max d r.conditions.length) d := by
    intro rules
    induction rules with
    | nil => simp
    | cons r rules ih =>
      intro d
      obtain ⟨hle, hrules⟩ := ih (max d r.conditions.length)
      rw [List.foldl_cons, List.forall_mem_cons]
      exact ⟨(Nat.le_max_left _ _).trans hle, (Nat.le_max_right _ _).trans hle, hrules⟩
  exact (hmax rules 0).2 r hr

theorem steady_render (h : ∀ r ∈ rules, r.Printable) (hne : rules ≠ []) (wrapRoot : Bool) :
    Steady (render rules wrapRoot) :=
  steady_renderWithin (depth rules) h (fun _ => length_le_depth) hne wrapRoot

end Rule

end Restyle
