import Restyle.Proofs.Selector.List
import Restyle.Proofs.Text.Lines

/-! # Lists that are split back

Selectors joined by commas, with any white space around them, are split back
exactly if each of them closes its brackets and holds its commas in them. The
strings of a selector are read like the rest of it, so a bracket in a string
counts, and a comma in a string needs a bracket around it.
-/

namespace Restyle.Selector

open Text

/-- What stands between the quotes of a string, where a backslash shields the next character. -/
inductive StringBody (quote : Char) : Text → Prop where
  | nil : StringBody quote []
  | char {c : Char} {t : Text} (hquote : c ≠ quote) (hshield : c ≠ '\\')
      (ht : StringBody quote t) : StringBody quote (c :: t)
  | shielded (c : Char) {t : Text} (ht : StringBody quote t) : StringBody quote ('\\' :: c :: t)

/-- Outside of strings the brackets of a text close each other, and its commas stand between
brackets or in strings. The text itself may stand inside of brackets; `allowed` says which strings
may stand inside of brackets and which outside. -/
inductive Bracketed (allowed : Bool → Text → Prop) : Bool → Text → Prop where
  | nil (inside : Bool) : Bracketed allowed inside []
  | char {inside : Bool} {c : Char} {t : Text} (hc : c ∉ ['(', ')', '[', ']', '"', '\''])
      (hcomma : inside = true ∨ c ≠ ',') (ht : Bracketed allowed inside t) :
      Bracketed allowed inside (c :: t)
  | string {inside : Bool} {quote : Char} {body t : Text} (hquote : quote = '"' ∨ quote = '\'')
      (hbody : StringBody quote body) (hallowed : allowed inside body)
      (ht : Bracketed allowed inside t) : Bracketed allowed inside (quote :: (body ++ quote :: t))
  | parens {inside : Bool} {u t : Text} (hu : Bracketed allowed true u)
      (ht : Bracketed allowed inside t) : Bracketed allowed inside ('(' :: (u ++ ')' :: t))
  | brackets {inside : Bool} {u t : Text} (hu : Bracketed allowed true u)
      (ht : Bracketed allowed inside t) : Bracketed allowed inside ('[' :: (u ++ ']' :: t))

/-- A string without brackets, and without commas unless there are brackets around it. -/
def TameString (inside : Bool) (body : Text) : Prop :=
  (∀ c ∈ body, c ∉ ['(', ')', '[', ']']) ∧ (inside = true ∨ ',' ∉ body)

structure ListEntry where
  before : Text
  selector : Text
  after : Text
  blank_before : Blank before
  blank_after : Blank after
  ne_nil : selector ≠ []
  trimmed : Trimmed selector

def ListEntry.text (e : ListEntry) : Text :=
  e.before ++ e.selector ++ e.after

/-- The list that selectors and the white space around them make. -/
def joined (entries : List ListEntry) : Text :=
  join "," (entries.map (·.text))

/-- If strings are read like the rest, no selector has a comma outside of brackets, and no bracket
is open behind any of them but the last. -/
structure ClosedInTurn (entries : List ListEntry) : Prop where
  closed : ∀ e ∈ entries.dropLast, depthBehind? 0 e.selector = some 0
  last : ∀ e ∈ entries.getLast?, (depthBehind? 0 e.selector).isSome

variable {t u : Text} {depth : Nat} {inside : Bool} {e : ListEntry} {entries : List ListEntry}

theorem depthBehind?_cons_of_notMem {c : Char} (hc : c ∉ ['(', ')', '[', ']'])
    (hcomma : c = ',' → 0 < depth) (t : Text) :
    depthBehind? depth (c :: t) = depthBehind? depth t := by
  simp only [List.mem_cons, List.not_mem_nil, or_false, not_or] at hc
  rw [depthBehind?, if_neg (by simp [hc]), if_neg (by simp [hc]), if_neg]
  rintro ⟨rfl, hdepth⟩
  exact (hcomma rfl).ne' hdepth

theorem TameString.depthBehind? (h : TameString inside t) (hdepth : inside = true → 0 < depth) :
    Selector.depthBehind? depth t = some depth := by
  obtain ⟨hbrackets, hcommas⟩ := h
  induction t with
  | nil => rfl
  | cons c t ih =>
    rw [depthBehind?_cons_of_notMem (hbrackets c List.mem_cons_self)]
    · exact ih (fun d hd => hbrackets d (List.mem_cons_of_mem c hd))
        (hcommas.imp_right (mt (List.mem_cons_of_mem c)))
    · rintro rfl
      exact hdepth (hcommas.resolve_right (by simp))

/-- The text between two brackets leaves the depth in front of them. -/
theorem depthBehind?_between {opening closing : Char} (hopening : opening = '(' ∨ opening = '[')
    (hclosing : closing = ')' ∨ closing = ']') (hu : depthBehind? (depth + 1) u = some (depth + 1))
    (t : Text) : depthBehind? depth (opening :: (u ++ closing :: t)) = depthBehind? depth t := by
  have hclosed : ¬ (closing = '(' ∨ closing = '[') := by
    rcases hclosing with rfl | rfl <;> decide
  rw [depthBehind?, if_pos hopening, depthBehind?_append hu, depthBehind?, if_neg hclosed,
    if_pos hclosing, Nat.add_sub_cancel]

/-- A well bracketed text with tame strings leaves as many brackets open as there were. -/
theorem Bracketed.depthBehind? (h : Bracketed TameString inside t)
    (hdepth : inside = true → 0 < depth) : Selector.depthBehind? depth t = some depth := by
  induction h generalizing depth with
  | nil => rfl
  | char hc hcomma _ ih =>
    rw [depthBehind?_cons_of_notMem (fun h => hc (by simp at h ⊢; tauto)), ih hdepth]
    exact fun he => hdepth (hcomma.resolve_right (not_not_intro he))
  | @string _ quote body t hquote _ htame _ ih =>
    have hpass : ∀ u, Selector.depthBehind? depth (quote :: u) = Selector.depthBehind? depth u := by
      intro u
      rcases hquote with rfl | rfl <;> exact depthBehind?_cons_of_notMem (by decide) (by simp) u
    rw [hpass, depthBehind?_append (htame.depthBehind? hdepth), hpass, ih hdepth]
  | parens _ _ ihu iht =>
    rw [depthBehind?_between (.inl rfl) (.inl rfl) (ihu fun _ => depth.succ_pos), iht hdepth]
  | brackets _ _ ihu iht =>
    rw [depthBehind?_between (.inr rfl) (.inr rfl) (ihu fun _ => depth.succ_pos), iht hdepth]

namespace ListEntry

theorem depthBehind?_text (h : depthBehind? 0 e.selector = some depth) :
    depthBehind? 0 e.text = some depth := by
  rw [text, List.append_assoc, depthBehind?_append (depthBehind?_of_blank e.blank_before 0),
    depthBehind?_append h, depthBehind?_of_blank e.blank_after]

theorem part_text (e : ListEntry) : part e.text = [e.selector] := by
  rw [text, part_append_blank _ e.blank_after, part_blank_append e.blank_before,
    part_of_trimmed e.trimmed e.ne_nil]

end ListEntry

theorem joined_cons (e : ListEntry) (h : entries ≠ []) :
    joined (e :: entries) = e.text ++ ',' :: joined entries := by
  rw [joined, List.map_cons, join_cons_of_ne_nil _ _ (by simpa using h)]
  rfl

theorem closedInTurn_singleton (e : ListEntry) :
    ClosedInTurn [e] ↔ (depthBehind? 0 e.selector).isSome :=
  ⟨fun h => h.last e rfl, fun h => ⟨by simp, by simpa using h⟩⟩

theorem closedInTurn_cons (h : entries ≠ []) :
    ClosedInTurn (e :: entries) ↔ depthBehind? 0 e.selector = some 0 ∧ ClosedInTurn entries := by
  have hdrop := List.dropLast_cons_of_ne_nil h (x := e)
  have hlast : (e :: entries).getLast? = entries.getLast? := List.getLast?_cons_of_ne_nil h
  constructor
  · rintro ⟨hclosed, hsome⟩
    rw [hdrop] at hclosed
    obtain ⟨he, hclosed⟩ := List.forall_mem_cons.mp hclosed
    exact ⟨he, hclosed, hlast ▸ hsome⟩
  · rintro ⟨he, hclosed, hsome⟩
    exact ⟨hdrop ▸ List.forall_mem_cons.mpr ⟨he, hclosed⟩, hlast ▸ hsome⟩

theorem exists_splitFrom_eq_cons {current : Text} (h : ¬ Blank current) (depth : Nat) (t : Text) :
    ∃ v rest, splitFrom depth current t = trim (current.reverse ++ v) :: rest := by
  have hpart : ∀ {current : Text}, ¬ Blank current → part current.reverse = [trim current.reverse] := by
    intro current h
    have hne : trim current.reverse ≠ [] := fun he =>
      h (List.reverse_reverse current ▸ (trim_eq_nil_iff.mp he).reverse)
    simp [part, hne]
  induction t generalizing depth current with
  | nil => exact ⟨[], [], by rw [splitFrom, hpart h, List.append_nil]⟩
  | cons c t ih =>
    have hgrown : ¬ Blank (c :: current) := fun hb => h (blank_cons.mp hb).2
    have hnext : ∀ depth, ∃ v rest,
        splitFrom depth (c :: current) t = trim (current.reverse ++ v) :: rest := by
      intro depth
      obtain ⟨v, rest, he⟩ := ih hgrown depth
      exact ⟨c :: v, rest, by simpa using he⟩
    rw [splitFrom]
    split_ifs
    · exact hnext _
    · exact hnext _
    · exact ⟨[], splitFrom 0 [] t, by rw [hpart h, List.append_nil, List.singleton_append]⟩
    · exact hnext _

/-- A selector that is split off at a comma behind it has no bracket open there. -/
theorem depth_eq_zero_of_splitList {selectors : List Text} (hdepth : depthBehind? 0 e.selector = some depth)
    (h : splitList (e.text ++ ',' :: u) = e.selector :: selectors) : depth = 0 := by
  by_contra hpos
  have hvisible : ¬ Blank (',' :: e.text.reverse) := fun hb => absurd (blank_cons.mp hb).1 (by decide)
  obtain ⟨v, rest, hsplit⟩ := exists_splitFrom_eq_cons hvisible depth u
  rw [splitList, splitFrom_append (ListEntry.depthBehind?_text hdepth), List.append_nil, splitFrom,
    if_neg (by decide), if_neg (by decide), if_neg (fun hc => hpos hc.2), hsplit] at h
  obtain ⟨w, w', hw, hw', htrim⟩ := exists_eq_trim ((',' :: e.text.reverse).reverse ++ v)
  rw [(List.cons.inj h).1] at htrim
  -- Trimming takes no comma away, so the comma behind the selector would be one of its own.
  have hcount := congrArg (List.count ',') htrim
  have hno : ∀ {w : Text}, Blank w → w.count ',' = 0 := fun hw =>
    List.count_eq_zero.mpr fun hmem => absurd (hw _ hmem) (by decide)
  simp only [List.reverse_cons, List.reverse_reverse, ListEntry.text, List.count_append, hno hw, hno hw',
    hno e.blank_before, hno e.blank_after, List.count_cons_self, List.count_nil] at hcount
  omega

theorem splitList_joined (h : ClosedInTurn entries) :
    splitList (joined entries) = entries.map (·.selector) := by
  induction entries with
  | nil => rfl
  | cons e entries ih =>
    rcases eq_or_ne entries [] with rfl | hne
    · obtain ⟨depth, hdepth⟩ := Option.isSome_iff_exists.mp ((closedInTurn_singleton e).mp h)
      have hjoined : joined [e] = e.text := join_singleton _ _
      rw [hjoined, splitList_of_depthBehind? (ListEntry.depthBehind?_text hdepth), e.part_text,
        List.map_singleton]
    · obtain ⟨he, hclosed⟩ := (closedInTurn_cons hne).mp h
      rw [joined_cons e hne, splitList_append_comma (ListEntry.depthBehind?_text he), e.part_text,
        ih hclosed, List.singleton_append, List.map_cons]

theorem closedInTurn_of_splitList (h : splitList (joined entries) = entries.map (·.selector)) :
    ClosedInTurn entries := by
  induction entries with
  | nil => exact ⟨by simp, by simp⟩
  | cons e entries ih =>
    have hsome : (depthBehind? 0 e.selector).isSome := by
      apply isSome_depthBehind?_of_mem_splitList (t := joined (e :: entries))
      rw [h]
      exact List.mem_cons_self
    rcases eq_or_ne entries [] with rfl | hne
    · exact (closedInTurn_singleton e).mpr hsome
    · obtain ⟨depth, hdepth⟩ := Option.isSome_iff_exists.mp hsome
      rw [joined_cons e hne, List.map_cons] at h
      obtain rfl := depth_eq_zero_of_splitList hdepth h
      rw [splitList_append_comma (ListEntry.depthBehind?_text hdepth), e.part_text,
        List.singleton_append] at h
      exact (closedInTurn_cons hne).mpr ⟨hdepth, ih (List.cons.inj h).2⟩

/-- A list is split back exactly if its selectors close their brackets in turn, and so whenever
they are well bracketed and have tame strings. -/
theorem splitList_joined_iff (entries : List ListEntry) :
    (splitList (joined entries) = entries.map (·.selector) ↔ ClosedInTurn entries) ∧
      ((∀ e ∈ entries, Bracketed TameString false e.selector) →
        splitList (joined entries) = entries.map (·.selector)) := by
  refine ⟨⟨closedInTurn_of_splitList, splitList_joined⟩, fun h => splitList_joined ?_⟩
  have hclosed : ∀ e ∈ entries, depthBehind? 0 e.selector = some 0 := fun e he =>
    (h e he).depthBehind? (by simp)
  refine ⟨fun e he => hclosed e (List.dropLast_subset _ he), fun e he => ?_⟩
  rw [hclosed e (List.mem_of_mem_getLast? he)]
  rfl

def bracketStrings : List ListEntry :=
  [⟨[], "[a=\"(\"]", [], by decide, by decide, by decide, by decide⟩,
    ⟨" ", "[a=\"],\"]", [], by decide, by decide, by decide, by decide⟩]

/-- A list is not split behind a string with an opening bracket, nor kept together where a string
closes a bracket in front of a comma. -/
theorem splitList_bracketStrings :
    (∀ e ∈ bracketStrings, Bracketed (fun _ _ => True) false e.selector) ∧
      splitList (joined bracketStrings) = ["[a=\"(\"], [a=\"],\"]"] ∧
      splitList (joined bracketStrings.tail) = ["[a=\"]", "\"]"] := by
  have hstring : ∀ body : Text, StringBody '"' body →
      Bracketed (fun _ _ => True) false ('[' :: ('a' :: '=' :: '"' :: (body ++ ['"']) ++ [']'])) :=
    fun _ hbody => .brackets (.char (by decide) (.inl rfl) (.char (by decide) (.inl rfl)
      (.string (.inl rfl) hbody trivial (.nil true)))) (.nil false)
  refine ⟨List.forall_mem_cons.mpr ⟨?_, List.forall_mem_singleton.mpr ?_⟩, by decide, by decide⟩
  · exact hstring "(" (.char (by decide) (by decide) .nil)
  · exact hstring "]," (.char (by decide) (by decide) (.char (by decide) (by decide) .nil))

end Restyle.Selector
