import Restyle.Proofs.Declaration.Renaming
import Restyle.Proofs.Table
import Restyle.Proofs.Text.Run

/-! # Logical properties, run by run

The pass to logical properties replaces whole runs of name characters. A run is
replaced if it is a physical name in front of a colon and stands in no prelude
of a rule about sizes, and the white space before the colon goes with it. The
pass takes a rule for one about sizes as soon as its name begins like one.
-/

namespace Restyle.Declaration

open Text

variable {b t u v w name blanks rest : Text} {c : Char} {e : Text × Text} {ws : List Text}

def colonNext (ws : List Text) : Bool :=
  (ws.dropWhile (·.all isBlank)).head? == some [':']

def logicalName? (w : Text) (ws : List Text) : Option Text :=
  if colonNext ws then logicalNames.get? (lower w) else none

/-- Where a run stands: right behind an `@`, in the prelude of a rule, or elsewhere. -/
inductive Region
  | outside
  | behindAt
  | prelude
  deriving DecidableEq

/-- Where a run puts itself and what follows it, for rules of some names. -/
def Region.step (rule : Text → Bool) : Region → Text → Region
  | .outside, w => if w = ['@'] then .behindAt else .outside
  | .behindAt, w => if rule w then .prelude else if w = ['@'] then .behindAt else .outside
  | .prelude, w => if w = ['{'] ∨ w = [';'] then .outside else .prelude

def regionOf (rule : Text → Bool) (ws : List Text) : Region :=
  ws.foldl (Region.step rule) .outside

/-- Replace physical names outside the preludes of some rules, and leave out the white space between
such a name and its colon. -/
def respell (rule : Text → Bool) : Region → Bool → List Text → Text
  | _, _, [] => []
  | r, behindName, w :: ws =>
    let r := r.step rule w
    if behindName && w.all isBlank then respell rule r true ws
    else if r = .prelude then w ++ respell rule r false ws
    else match logicalName? w ws with
      | some name => name ++ respell rule r true ws
      | none => w ++ respell rule r false ws

def isSizeRule (w : Text) : Bool :=
  lower w == "media" || lower w == "container"

def beginsSizeRule (w : Text) : Bool :=
  (lower w).startsWith "media" || (lower w).startsWith "container"

section Names

theorem lower_eq_iff (he : e ∈ logicalNames) : lower w = e.1 ↔ w.map fold = e.1.map fold := by
  have hall : ∀ e ∈ logicalNames, e.1.map fold = e.1 := by decide +kernel
  constructor
  · intro h
    have hw : (lower w).map fold = w.map fold := by
      rw [lower, List.map_map]
      exact List.map_congr_left fun c _ => fold_toLower c
    rw [← hw, h]
  · intro h
    have hp : Physical e w [] := ⟨he, h, .nil⟩
    rw [← hall e he, ← h]
    exact (List.map_congr_left fun c hc => fold_eq_toLower (hp.isNameChar_of_mem hc)).symm

theorem get?_logicalNames_iff {logical : Text} : logicalNames.get? (lower w) = some logical ↔
    ∃ e ∈ logicalNames, w.map fold = e.1.map fold ∧ e.2 = logical := by
  have hnodup : logicalNames.keys.Nodup := by decide +kernel
  constructor
  · intro h
    have hmem := Table.mem_of_get? h
    exact ⟨_, hmem, (lower_eq_iff hmem).mp rfl, rfl⟩
  · rintro ⟨e, he, hw, rfl⟩
    rw [(lower_eq_iff he).mpr hw]
    exact Table.get?_of_mem hnodup he

theorem physical_of_logicalName? {logical : Text} (h : logicalName? w ws = some logical) :
    ∃ e, Physical e w [] ∧ e.2 = logical := by
  rw [logicalName?] at h
  split_ifs at h
  obtain ⟨e, he, hw, hlogical⟩ := get?_logicalNames_iff.mp h
  exact ⟨e, ⟨he, hw, .nil⟩, hlogical⟩

theorem logicalName?_eq_none (h : ∀ c ∈ w, isNameChar c = false) (ws : List Text) :
    logicalName? w ws = none := by
  refine Option.eq_none_iff_forall_ne_some.mpr fun logical hname => ?_
  obtain ⟨e, hp, -⟩ := physical_of_logicalName? hname
  obtain ⟨c, u, rfl, hc⟩ := hp.exists_cons
  rw [h c List.mem_cons_self] at hc
  exact Bool.false_ne_true hc

theorem colonNext_runs_iff : colonNext (runs t) = true ↔
    ∃ blanks rest, Blank blanks ∧ t = blanks ++ ':' :: rest := by
  have hskip : ∀ blanks u, Blank blanks →
      colonNext (runs (blanks ++ u)) = colonNext (runs u) := by
    intro blanks u hblank
    rw [runs_blank_append hblank, colonNext, colonNext, List.dropWhile_append_of_pos]
    intro w hw
    obtain ⟨c, hc, rfl⟩ := List.mem_map.mp hw
    simp [hblank c hc]
  constructor
  · intro h
    have hblank : Blank (t.takeWhile isBlank) := fun c hc => List.mem_takeWhile_imp hc
    have hhead := List.head?_dropWhile_not isBlank t
    rw [← List.takeWhile_append_dropWhile (p := isBlank) (l := t), hskip _ _ hblank] at h
    rcases eq_or_ne (t.dropWhile isBlank) [] with hnil | hne
    · rw [hnil] at h
      exact absurd h (by decide)
    · obtain ⟨w, u, hsplit, hrun⟩ := exists_isRun hne
      rw [hsplit] at hhead
      obtain ⟨c, v, rfl⟩ := List.exists_cons_of_ne_nil hrun.ne_nil
      have hvisible : (c :: v).all isBlank = false := by
        have hc : isBlank c = false := by simpa using hhead
        rw [List.all_cons, hc, Bool.false_and]
      rw [hsplit, hrun.runs_append, colonNext, List.dropWhile_cons_of_neg (by simp [hvisible])] at h
      have hcolon : c :: v = [':'] := by simpa using h
      refine ⟨_, u, hblank, ?_⟩
      rw [← List.singleton_append, ← hcolon, ← hsplit, List.takeWhile_append_dropWhile]
  · rintro ⟨blanks, rest, hblank, rfl⟩
    have hrun : IsRun [':'] rest := .other (by decide) rest
    rw [hskip _ _ hblank, ← List.singleton_append, hrun.runs_append]
    rfl

theorem logicalName?_runs_iff {logical : Text} : logicalName? w (runs t) = some logical ↔
    ∃ e blanks rest, Physical e w blanks ∧ t = blanks ++ ':' :: rest ∧ e.2 = logical := by
  rw [logicalName?]
  constructor
  · intro h
    split_ifs at h with hcolon
    obtain ⟨blanks, rest, hblank, ht⟩ := colonNext_runs_iff.mp hcolon
    obtain ⟨e, he, hw, hlogical⟩ := get?_logicalNames_iff.mp h
    exact ⟨e, blanks, rest, ⟨he, hw, hblank⟩, ht, hlogical⟩
  · rintro ⟨e, blanks, rest, hp, rfl, hlogical⟩
    rw [if_pos (colonNext_runs_iff.mpr ⟨blanks, rest, hp.blank, rfl⟩)]
    exact get?_logicalNames_iff.mpr ⟨e, hp.listed, hp.spelled, hlogical⟩

theorem Physical.isRun (h : Physical e name blanks) : IsRun name (blanks ++ ':' :: rest) := by
  refine .name h.ne_nil (fun c hc => h.isNameChar_of_mem hc) fun c hc => ?_
  rcases blanks with _ | ⟨d, blanks⟩
  · rw [← Option.some.inj hc]
    decide
  · obtain rfl : d = c := Option.some.inj hc
    exact isNameChar_of_blank (h.blank d List.mem_cons_self)

end Names

section Rules

theorem sizePrelude?_ne_none_iff (h : IsRun w t) :
    sizePrelude? ('@' :: (w ++ t)) ≠ none ↔ beginsSizeRule w = true := by
  have hkeyword : ∀ keyword : Text, (lower ('@' :: (w ++ t))).startsWith ('@' :: keyword) =
      (lower (w ++ t)).startsWith keyword := by
    intro keyword
    have hat : Char.toLower '@' = '@' := by decide
    rw [startsWith, startsWith, lower, List.map_cons, hat, List.isPrefixOf, beq_self_eq_true,
      Bool.true_and]
    rfl
  have hmedia := (hkeyword "media").trans (h.startsWith_append (by decide))
  have hcontainer := (hkeyword "container").trans (h.startsWith_append (by decide))
  unfold sizePrelude?
  dsimp only
  split_ifs with hrule
  · refine iff_of_true (Option.some_ne_none _) ?_
    rwa [beginsSizeRule, ← hmedia, ← hcontainer]
  · refine iff_of_false (fun hne => hne rfl) ?_
    rwa [beginsSizeRule, ← hmedia, ← hcontainer]

theorem eq_of_isPreludeEnd (h : IsRun w t) (hc : isPreludeEnd c = true) (hmem : c ∈ w) :
    w = ['{'] ∨ w = [';'] := by
  have hends : c = '{' ∨ c = ';' := by simpa [isPreludeEnd] using hc
  rcases hends with rfl | rfl
  · exact Or.inl (h.eq_singleton (by decide) hmem)
  · exact Or.inr (h.eq_singleton (by decide) hmem)

theorem not_isPreludeEnd_of_rule (h : IsRun w t) (hrule : beginsSizeRule w = true) (hc : c ∈ w) :
    isPreludeEnd c = false := by
  by_contra hend
  rcases eq_of_isPreludeEnd h (by simpa using hend) hc with rfl | rfl <;>
    exact absurd hrule (by decide)

theorem inPrelude_append {p : Text} (hv : v ≠ []) (hends : ∀ d ∈ v, isPreludeEnd d = false)
    (hsize : sizePrelude? (v ++ c :: t) ≠ none) (hc : isPreludeEnd c = false) :
    InPrelude (p ++ v) (c :: t) := by
  obtain ⟨⟨prelude, rest⟩, hfound⟩ := Option.ne_none_iff_exists'.mp hsize
  refine ⟨p, v, prelude, rest, rfl, hv, hfound, ?_⟩
  have hall : ∀ d ∈ v, (!isPreludeEnd d) = true := fun d hd => by rw [hends d hd, Bool.not_false]
  rw [(sizePrelude?_eq_some hfound).1, List.takeWhile_append_of_pos hall,
    List.takeWhile_cons_of_pos (by rw [hc, Bool.not_false]), List.length_append, List.length_cons]
  omega

end Rules

namespace Region

variable {r : Region}

/-- What a region means for the preludes of a text. -/
def Holds : Region → Text → Text → Prop
  | .outside, b, t => ¬ InPrelude b t
  | .behindAt, b, t => ∃ a, b = a ++ ['@'] ∧ ¬ InPrelude a ('@' :: t)
  | .prelude, b, t => ∃ p v, b = p ++ v ∧ v ≠ [] ∧ (∀ c ∈ v, isPreludeEnd c = false) ∧
      sizePrelude? (v ++ t) ≠ none

theorem Holds.inPrelude_iff (h : r.Holds b (w ++ t)) (hw : IsRun w t) :
    InPrelude b (w ++ t) ↔ r.step beginsSizeRule w = .prelude := by
  obtain ⟨c, u, rfl⟩ := List.exists_cons_of_ne_nil hw.ne_nil
  cases r with
  | outside =>
    refine iff_of_false h ?_
    rw [step]
    split_ifs <;> decide
  | behindAt =>
    obtain ⟨a, rfl, hout⟩ := h
    rw [step]
    split_ifs with hrule hat
    · refine iff_of_true (inPrelude_append (List.cons_ne_nil _ _) (by decide)
        ((sizePrelude?_ne_none_iff hw).mpr hrule) ?_) rfl
      exact not_isPreludeEnd_of_rule hw hrule List.mem_cons_self
    all_goals
      refine iff_of_false (fun hin => ?_) (by decide)
      rcases hin.of_snoc with hin | ⟨found, hfound⟩
      · exact hout hin
      · refine hrule ((sizePrelude?_ne_none_iff hw).mp ?_)
        rw [hfound]
        exact Option.some_ne_none found
  | prelude =>
    obtain ⟨p, v, rfl, hv, hends, hsize⟩ := h
    rw [step]
    split_ifs with hend
    · refine iff_of_false ?_ (by decide)
      rcases hend with he | he <;> rw [he] <;> exact InPrelude.not_cons (by decide)
    · refine iff_of_true (inPrelude_append hv hends hsize ?_) rfl
      by_contra hc
      exact hend (eq_of_isPreludeEnd hw (by simpa using hc) List.mem_cons_self)

theorem step_eq_outside {rule : Text → Bool} (hw : w ≠ ['@']) (h : r.step rule w ≠ .prelude) :
    r.step rule w = .outside := by
  revert h
  cases r with
  | outside => rw [step, if_neg hw]; exact fun _ => rfl
  | behindAt => rw [step, if_neg hw]; split_ifs <;> simp
  | prelude => rw [step]; split_ifs <;> simp

theorem holds_of_not_inPrelude (h : ¬ InPrelude b (w ++ t)) (hw : IsRun w t) :
    (if w = ['@'] then behindAt else outside).Holds (b ++ w) t := by
  split_ifs with hat
  · subst hat
    exact ⟨b, rfl, h⟩
  · exact fun hin => h (hin.of_append fun hmem => hat (hw.eq_singleton (by decide) hmem))

theorem Holds.step (h : r.Holds b (w ++ t)) (hw : IsRun w t) :
    (r.step beginsSizeRule w).Holds (b ++ w) t := by
  have hin := h.inPrelude_iff hw
  cases r with
  | outside => exact holds_of_not_inPrelude h hw
  | behindAt =>
    rw [Region.step] at hin ⊢
    split_ifs at hin ⊢ with hrule hat
    · obtain ⟨a, rfl, -⟩ := h
      refine ⟨a, '@' :: w, by simp, List.cons_ne_nil _ _, ?_,
        (sizePrelude?_ne_none_iff hw).mpr hrule⟩
      refine List.forall_mem_cons.mpr ⟨by decide, fun c hc => ?_⟩
      exact not_isPreludeEnd_of_rule hw hrule hc
    · have hout := holds_of_not_inPrelude (hin.not.mpr (by decide)) hw
      rwa [if_pos hat] at hout
    · have hout := holds_of_not_inPrelude (hin.not.mpr (by decide)) hw
      rwa [if_neg hat] at hout
  | prelude =>
    rw [Region.step] at hin ⊢
    split_ifs at hin ⊢ with hend
    · have hout := holds_of_not_inPrelude (hin.not.mpr (by decide)) hw
      rwa [if_neg (by rintro rfl; exact absurd hend (by decide))] at hout
    · obtain ⟨p, v, rfl, hv, hends, hsize⟩ := h
      refine ⟨p, v ++ w, List.append_assoc p v w, by simp [hv], ?_, by rwa [List.append_assoc]⟩
      intro c hc
      rcases List.mem_append.mp hc with hc | hc
      · exact hends c hc
      · by_contra hc'
        exact hend (eq_of_isPreludeEnd hw (by simpa using hc') hc)

end Region

section Edits

theorem not_exposed_inside (hw : IsRun w t) {x y : Text} (hx : x ≠ []) (hy : y ≠ [])
    (hxy : w = x ++ y) : ¬ Exposed (b ++ x) (y ++ t) := by
  cases hw with
  | other =>
    rcases List.singleton_eq_append_iff.mp hxy with ⟨rfl, -⟩ | ⟨-, rfl⟩
    · exact absurd rfl hx
    · exact absurd rfl hy
  | name hne hw =>
    exact not_exposed_append hx fun c hc => hw c (hxy ▸ List.mem_append_left y hc)

theorem exposed_iff (hw : IsRun w t)
    (hb : ∀ c ∈ (w ++ t).head?, isNameChar c = true → nameBefore b.getLast? = false) :
    Exposed b (w ++ t) ↔ ¬ InPrelude b (w ++ t) ∧ logicalName? w (runs t) ≠ none := by
  rw [Option.ne_none_iff_exists']
  constructor
  · rintro ⟨hout, -, e, name, blanks, rest, hp, ht⟩
    rw [List.append_assoc] at ht
    obtain ⟨rfl, rfl⟩ := hw.unique hp.isRun ht
    exact ⟨hout, e.2, logicalName?_runs_iff.mpr ⟨e, blanks, rest, hp, rfl, rfl⟩⟩
  · rintro ⟨hout, logical, hlogical⟩
    obtain ⟨e, blanks, rest, hp, rfl, -⟩ := logicalName?_runs_iff.mp hlogical
    obtain ⟨c, u, rfl, hc⟩ := hp.exists_cons
    exact ⟨hout, hb c rfl hc, e, _, blanks, rest, hp, by rw [List.append_assoc]⟩

namespace Edited

/-- The pass keeps a part in which nothing is exposed. -/
theorem exists_of_kept (hw : ∀ x y, w = x ++ y → y ≠ [] → ¬ Exposed (b ++ x) (y ++ t))
    (h : Edited b (w ++ t) u) : ∃ v, u = w ++ v ∧ Edited (b ++ w) t v := by
  induction w generalizing b u with
  | nil => exact ⟨u, rfl, by rwa [List.append_nil]⟩
  | cons c w ih =>
    have hfirst := hw [] (c :: w) rfl (List.cons_ne_nil c w)
    rw [List.append_nil] at hfirst
    generalize ht : c :: w ++ t = t' at h hfirst
    cases h with
    | nil => exact absurd ht (List.cons_ne_nil _ _)
    | @keep _ d _ u hd h =>
      obtain ⟨rfl, rfl⟩ := List.cons.inj ht
      obtain ⟨v, rfl, hv⟩ := ih (fun x y hxy hy => by
        rw [← List.append_cons]
        exact hw (c :: x) y (by rw [hxy, List.cons_append]) hy) h
      exact ⟨v, rfl, by rwa [← List.append_cons] at hv⟩
    | edit hp he h => exact absurd he hfirst

theorem exists_of_exposed (hp : Physical e name blanks)
    (he : Exposed b (name ++ (blanks ++ ':' :: rest)))
    (h : Edited b (name ++ (blanks ++ ':' :: rest)) u) :
    ∃ v, u = e.2 ++ ':' :: v ∧ Edited (b ++ (name ++ blanks ++ [':'])) rest v := by
  generalize ht : name ++ (blanks ++ ':' :: rest) = t at h he
  cases h with
  | nil => exact absurd (List.append_eq_nil_iff.mp ht).1 hp.ne_nil
  | keep hc h => exact absurd he hc
  | @edit _ name' blanks' rest' v e' hp' he' h =>
    have ht' : name' ++ blanks' ++ [':'] ++ rest' = name' ++ (blanks' ++ ':' :: rest') := by simp
    obtain ⟨rfl, hgap⟩ := hp.isRun.unique hp'.isRun (ht.trans ht')
    have hblanks := congrArg (List.takeWhile isBlank) hgap
    rw [takeWhile_append_cons (by decide), takeWhile_append_cons (by decide),
      List.takeWhile_eq_self_iff.mpr hp.blank, List.takeWhile_eq_self_iff.mpr hp'.blank] at hblanks
    subst hblanks
    obtain rfl : rest = rest' := (List.cons.inj (List.append_cancel_left hgap)).2
    have hname := logicalName?_runs_iff.mpr ⟨e, blanks, rest, hp, rfl, rfl⟩
    rw [logicalName?_runs_iff.mpr ⟨e', blanks, rest, hp', rfl, rfl⟩] at hname
    exact ⟨v, by rw [← Option.some.inj hname, List.append_assoc]; rfl, h⟩

end Edited

theorem respell_gap (rule : Text → Bool) (hw : Blank blanks) (rest : Text) :
    respell rule .outside true (runs (blanks ++ ':' :: rest)) =
      ':' :: respell rule .outside false (runs rest) := by
  induction blanks with
  | nil =>
    have hcolon : IsRun [':'] rest := .other (by decide) rest
    have hvisible : (true && ([':'] : Text).all isBlank) = false := by decide
    rw [List.nil_append, ← List.singleton_append, hcolon.runs_append, respell, hvisible,
      logicalName?_eq_none (by decide)]
    rfl
  | cons c blanks ih =>
    obtain ⟨hc, hw⟩ := blank_cons.mp hw
    have hrun := runs_blank_append (blank_cons.mpr ⟨hc, .nil⟩) (blanks ++ ':' :: rest)
    have hat : [c] ≠ ['@'] := by
      rintro he
      rw [List.singleton_inj.mp he] at hc
      exact absurd hc (by decide)
    rw [List.cons_append, ← List.singleton_append, hrun, ← ih hw]
    rw [List.map_singleton, List.singleton_append, respell]
    simp [hc, Region.step, hat]

theorem nameBefore_of_isRun (hw : IsRun w t) (b : Text) :
    ∀ c ∈ t.head?, isNameChar c = true → nameBefore (b ++ w).getLast? = false := by
  intro c hhead hc
  cases hw with
  | other hd => simpa [nameBefore] using hd
  | name _ _ ht =>
    rw [ht c hhead] at hc
    exact absurd hc Bool.false_ne_true

/-- What the pass makes of a text that begins with a run is its respelling. -/
theorem Edited.eq_respell {r : Region} (h : Edited b t u) (hr : r.Holds b t)
    (hb : ∀ c ∈ t.head?, isNameChar c = true → nameBefore b.getLast? = false) :
    u = respell beginsSizeRule r false (runs t) := by
  induction hn : t.length using Nat.strongRecOn generalizing b t u r with
  | ind n ih =>
    rcases eq_or_ne t [] with rfl | hne
    · exact h.eq_nil rfl
    obtain ⟨w, t, rfl, hw⟩ := exists_isRun hne
    have hlen : t.length < n := by
      have hpos := List.length_pos_iff.mpr hw.ne_nil
      rw [← hn, List.length_append]
      omega
    have hin := hr.inPrelude_iff hw
    have hexposed := exposed_iff hw hb
    rw [hw.runs_append, respell, Bool.false_and, if_neg Bool.false_ne_true]
    by_cases he : Exposed b (w ++ t)
    · -- The run, the white space and the colon behind it are taken together.
      obtain ⟨hout, hname⟩ := hexposed.mp he
      obtain ⟨logical, hlogical⟩ := Option.ne_none_iff_exists'.mp hname
      obtain ⟨e, blanks, rest, hp, rfl, rfl⟩ := logicalName?_runs_iff.mp hlogical
      obtain ⟨v, rfl, hv⟩ := h.exists_of_exposed hp he
      have hat : w ≠ ['@'] := by
        rintro rfl
        exact absurd (hp.isNameChar_of_mem List.mem_cons_self) (by decide)
      have hstep : r.step beginsSizeRule w ≠ .prelude := fun hs => hout (hin.mpr hs)
      have hrest : Region.outside.Holds (b ++ (w ++ blanks ++ [':'])) rest := by
        intro hin
        have hback := hin.of_append hp.at_notMem
        simp only [List.append_assoc, List.singleton_append] at hback
        exact hout hback
      rw [if_neg hstep, hlogical]
      dsimp only
      rw [Region.step_eq_outside hat hstep, respell_gap _ hp.blank,
        ← ih rest.length ?_ hv hrest ?_ rfl]
      · simp only [List.length_append, List.length_cons] at hlen
        omega
      · have hlast : (b ++ (w ++ blanks ++ [':'])).getLast? = some ':' := by simp
        intro c _ _
        rw [hlast]
        decide
    · obtain ⟨v, rfl, hv⟩ := h.exists_of_kept fun x y hxy hy => by
        rcases eq_or_ne x [] with rfl | hx
        · rw [List.nil_append] at hxy
          rwa [List.append_nil, ← hxy]
        · exact not_exposed_inside hw hx hy hxy
      rw [← ih t.length hlen hv (hr.step hw) (nameBefore_of_isRun hw b) rfl]
      split_ifs with hstep
      · rfl
      · have hnone : logicalName? w (runs t) = none := by
          by_contra hname
          exact he (hexposed.mpr ⟨fun h => hstep (hin.mp h), hname⟩)
        rw [hnone]

end Edits

/-- The pass replaces physical names run by run, outside the preludes of rules whose names begin like
those of rules about sizes. -/
theorem toLogical_eq_respell (css : Text) :
    toLogical css = respell beginsSizeRule .outside false (runs (replaceVariables css)) := by
  refine (edited_toLogical css).eq_respell ?_ fun c _ _ => rfl
  rintro ⟨p, v, prelude, rest, hsplit, hv, -⟩
  exact hv (List.append_eq_nil_iff.mp hsplit.symm).2

example : toLogical "@media (width: 1px)\x7b.a\x7b--width: 0; border-left-width: 0; Left : 0\x7d\x7d" =
    "@media (width: 1px)\x7b.a\x7b--width: 0; border-left-width: 0; inset-inline-start: 0\x7d\x7d" := by
  decide +kernel

section Comparison

variable {r r' : Region}

theorem beginsSizeRule_of_isSizeRule (h : isSizeRule w = true) : beginsSizeRule w = true := by
  rw [isSizeRule, Bool.or_eq_true, beq_iff_eq, beq_iff_eq] at h
  rcases h with h | h <;> rw [beginsSizeRule, h] <;> decide

/-- Rules of more names have preludes in more places, up to the same ends. -/
theorem Region.step_eq_or (h : r = r' ∨ r = .prelude) (w : Text) :
    r.step beginsSizeRule w = r'.step isSizeRule w ∨ r.step beginsSizeRule w = .prelude := by
  rcases h with rfl | rfl
  · cases r with
    | outside => exact Or.inl rfl
    | behindAt =>
      by_cases hw : beginsSizeRule w = true
      · exact Or.inr (if_pos hw)
      · have hw' : ¬ isSizeRule w = true := fun h => hw (beginsSizeRule_of_isSizeRule h)
        rw [step, step, if_neg hw, if_neg hw']
        exact Or.inl rfl
    | prelude => exact Or.inl rfl
  · by_cases hend : w = ['{'] ∨ w = [';']
    · rcases hend with rfl | rfl <;> cases r' <;> exact Or.inl (by decide)
    · exact Or.inr (if_neg hend)

theorem forall_split_cons {Q : List Text → Text → List Text → Prop} :
    (∀ x v y, w :: ws = x ++ v :: y → Q x v y) ↔
      Q [] w ws ∧ ∀ x v y, ws = x ++ v :: y → Q (w :: x) v y := by
  constructor
  · exact fun h => ⟨h [] w ws rfl, fun x v y hsplit => h (w :: x) v y (by rw [hsplit]; rfl)⟩
  · rintro ⟨hfirst, hrest⟩ (_ | ⟨a, x⟩) v y hsplit
    · obtain ⟨rfl, rfl⟩ := List.cons.inj hsplit
      exact hfirst
    · obtain ⟨rfl, rfl⟩ := List.cons.inj hsplit
      exact hrest x v y rfl

theorem respell_eq_iff (h : r = r' ∨ r = .prelude) (behindName : Bool) :
    respell beginsSizeRule r behindName ws = respell isSizeRule r' behindName ws ↔
      ∀ x w y, ws = x ++ w :: y → logicalName? w y ≠ none →
        (x ++ [w]).foldl (Region.step beginsSizeRule) r = .prelude →
          (x ++ [w]).foldl (Region.step isSizeRule) r' = .prelude := by
  induction ws generalizing r r' behindName with
  | nil => exact iff_of_true rfl fun x w y hsplit => absurd hsplit (by simp)
  | cons w ws ih =>
    have hstep := Region.step_eq_or h w
    rw [forall_split_cons, respell, respell]
    simp only [List.cons_append, List.nil_append, List.foldl_cons, List.foldl_nil]
    by_cases hgap : (behindName && w.all isBlank) = true
    · obtain ⟨-, hblank⟩ := Bool.and_eq_true_iff.mp hgap
      have hnone : logicalName? w ws = none :=
        logicalName?_eq_none (fun c hc => isNameChar_of_blank (List.all_eq_true.mp hblank c hc)) ws
      rw [if_pos hgap, if_pos hgap, ih hstep]
      exact (and_iff_right fun hname => absurd hnone hname).symm
    · rw [if_neg hgap, if_neg hgap]
      by_cases hr : r.step beginsSizeRule w = .prelude
      · rw [if_pos hr]
        by_cases hr' : r'.step isSizeRule w = .prelude
        · rw [if_pos hr', List.append_cancel_left_eq, ih hstep]
          exact (and_iff_right fun _ _ => hr').symm
        · rw [if_neg hr']
          cases hname : logicalName? w ws with
          | none =>
            dsimp only
            rw [List.append_cancel_left_eq, ih hstep]
            exact (and_iff_right fun hne => absurd rfl hne).symm
          | some logical =>
            obtain ⟨e, hp, rfl⟩ := physical_of_logicalName? hname
            refine iff_of_false (hp.clash.append _ _).ne fun hall => ?_
            exact hr' (hall.1 (Option.some_ne_none _) hr)
      · have hr' : ¬ r'.step isSizeRule w = .prelude := by
          rwa [← hstep.resolve_right hr]
        rw [if_neg hr, if_neg hr']
        cases logicalName? w ws with
        | none =>
          dsimp only
          rw [List.append_cancel_left_eq, ih hstep]
          exact (and_iff_right fun _ h => absurd h hr).symm
        | some logical =>
          dsimp only
          rw [List.append_cancel_left_eq, ih hstep]
          exact (and_iff_right fun _ h => absurd h hr).symm

end Comparison

/-- The pass replaces physical names run by run, outside the preludes of `@media` and `@container`,
exactly if no name that would be replaced stands in the prelude of another rule whose name begins
like these. -/
theorem toLogical_replaces_runs_iff (css : Text) :
    toLogical css = respell isSizeRule .outside false (runs (replaceVariables css)) ↔
      ∀ x w y, runs (replaceVariables css) = x ++ w :: y → logicalName? w y ≠ none →
        regionOf beginsSizeRule (x ++ [w]) = .prelude → regionOf isSizeRule (x ++ [w]) = .prelude := by
  rw [toLogical_eq_respell]
  exact respell_eq_iff (Or.inl rfl) false

/-- The prelude of a rule whose name begins like that of `@media` is left as it is. -/
theorem longer_rule_kept :
    replaceVariables "@mediaquery (left:0)\x7ba\x7bcolor:red\x7d\x7d" =
        "@mediaquery (left:0)\x7ba\x7bcolor:red\x7d\x7d" ∧
      toLogical "@mediaquery (left:0)\x7ba\x7bcolor:red\x7d\x7d" =
        "@mediaquery (left:0)\x7ba\x7bcolor:red\x7d\x7d" ∧
      respell isSizeRule .outside false (runs "@mediaquery (left:0)\x7ba\x7bcolor:red\x7d\x7d") =
        "@mediaquery (inset-inline-start:0)\x7ba\x7bcolor:red\x7d\x7d" ∧
      toLogical "@mediaquery (left:0)\x7ba\x7bcolor:red\x7d\x7d" ≠
        respell isSizeRule .outside false
          (runs (replaceVariables "@mediaquery (left:0)\x7ba\x7bcolor:red\x7d\x7d")) := by
  decide +kernel

end Restyle.Declaration
