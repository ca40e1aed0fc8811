import Restyle.Proofs.Element.Meeting
import Restyle.Proofs.Session.Overwriting
import Restyle.Proofs.Stylesheet.Grouping

/-! # The styles of elements that share an id

Elements are filed under their target ids, and the elements of one id make one
style. Its CSS is that of its elements, one behind the other in the order of
the document, with white space between them.
-/

namespace Restyle

open Text

namespace Text

/-- Pieces one behind the other, with white space between any two. -/
inductive Separated : List Text → Text → Prop
  | nil : Separated [] []
  | single (p : Text) : Separated [p] p
  | snoc {ps : List Text} {t gap p : Text} (h : Separated ps t) (hps : ps ≠ []) (hgap : Blank gap)
      (hne : gap ≠ []) : Separated (ps ++ [p]) (t ++ gap ++ p)

def putBehind (t piece : Text) : Text :=
  trim (trim t ++ "\n  " ++ piece)

/-- Pieces put behind each other from left to right. -/
def joined (pieces : List Text) : Text :=
  pieces.foldl putBehind []

variable {pieces ps : List Text} {t piece : Text}

theorem Separated.eq_nil_iff (h : Separated ps t) (hps : ∀ p ∈ ps, p ≠ []) : t = [] ↔ ps = [] := by
  cases h with
  | nil => simp
  | single => simpa using hps t
  | snoc h _ _ hne => simp [hne]

theorem joined_concat (pieces : List Text) (piece : Text) :
    joined (pieces ++ [piece]) = putBehind (joined pieces) piece := by
  rw [joined, List.foldl_append]
  rfl

theorem trimmed_joined (pieces : List Text) : Trimmed (joined pieces) := by
  rcases List.eq_nil_or_concat pieces with rfl | ⟨pieces, piece, rfl⟩
  · decide
  · rw [List.concat_eq_append, joined_concat]
    exact trimmed_trim _

theorem blank_gap : Blank ("\n  " : Text) := by
  decide

theorem putBehind_cases (ht : Trimmed t) (piece : Text) :
    (trim piece = [] ∧ putBehind t piece = t) ∨
      (trim piece ≠ [] ∧ t = [] ∧ putBehind t piece = trim piece) ∨
      (trim piece ≠ [] ∧ t ≠ [] ∧
        ∃ gap, Blank gap ∧ gap ≠ [] ∧ putBehind t piece = t ++ gap ++ trim piece) := by
  rw [putBehind, ht.trim_eq]
  by_cases hpiece : trim piece = []
  · refine Or.inl ⟨hpiece, ?_⟩
    rw [trim_append_blank _ (trim_eq_nil_iff.mp hpiece), trim_append_blank t blank_gap, ht.trim_eq]
  right
  by_cases hnil : t = []
  · subst hnil
    exact Or.inl ⟨hpiece, rfl, trim_blank_append blank_gap piece⟩
  · obtain ⟨w, w', hw, hw', he⟩ := exists_eq_trim piece
    have hall : t ++ "\n  " ++ piece = t ++ ("\n  " ++ w) ++ trim piece ++ w' := by
      calc t ++ "\n  " ++ piece
        _ = t ++ "\n  " ++ (w ++ trim piece ++ w') := congrArg (t ++ "\n  " ++ ·) he
        _ = t ++ ("\n  " ++ w) ++ trim piece ++ w' := by simp only [List.append_assoc]
    refine Or.inr ⟨hpiece, hnil, "\n  " ++ w, blank_gap.append hw, by simp, ?_⟩
    rw [hall, trim_append_blank _ hw']
    exact (ht.append (trimmed_trim piece) hnil hpiece _).trim_eq

theorem separated_joined (pieces : List Text) : Separated (nonblank pieces) (joined pieces) := by
  induction pieces using List.reverseRecOn with
  | nil => exact .nil
  | append_singleton pieces piece ih =>
    have hnil := ih.eq_nil_iff fun p hp => ne_nil_of_mem_nonblank hp
    rw [nonblank_concat, joined_concat]
    rcases putBehind_cases (trimmed_joined pieces) piece with
      ⟨hp, he⟩ | ⟨hp, ht, he⟩ | ⟨hp, ht, gap, hgap, hne, he⟩
    · rw [he, if_pos hp, List.append_nil]
      exact ih
    · rw [he, hnil.mp ht, if_neg hp]
      exact .single _
    · rw [he, if_neg hp]
      exact .snoc ih (mt hnil.mpr ht) hgap hne

end Text

namespace Table

variable {α β : Type} {f : α → Text} {g g' : α → β} {l : List α} {a : α}

theorem get?_entries (hf : ∀ x ∈ l, f x = f a → x = a) (ha : a ∈ l) :
    get? (l.map fun x => (f x, g x)) (f a) = some (g a) := by
  induction l with
  | nil => exact absurd ha List.not_mem_nil
  | cons x l ih =>
    rw [List.map_cons, get?_cons]
    split_ifs with h
    · rw [hf x List.mem_cons_self h.symm]
    · have hx : a ≠ x := fun he => h (congrArg f he)
      exact ih (fun y hy => hf y (List.mem_cons_of_mem x hy)) ((List.mem_cons.mp ha).resolve_left hx)

theorem set_entries (hf : ∀ x ∈ l, f x = f a → x = a) (hl : l.Nodup) (ha : a ∈ l)
    (hg : ∀ x ∈ l, x ≠ a → g' x = g x) :
    set (f a) (g' a) (l.map fun x => (f x, g x)) = l.map fun x => (f x, g' x) := by
  induction l with
  | nil => exact absurd ha List.not_mem_nil
  | cons x l ih =>
    obtain ⟨hx, hl⟩ := List.nodup_cons.mp hl
    rw [List.map_cons, List.map_cons, set]
    split_ifs with h
    · obtain rfl := hf x List.mem_cons_self h
      refine congrArg ((f x, g' x) :: ·) (List.map_congr_left fun y hy => ?_)
      have hne : y ≠ x := fun he => hx (he ▸ hy)
      rw [hg y (List.mem_cons_of_mem x hy) hne]
    · have hne : x ≠ a := fun he => h (congrArg f he)
      rw [hg x List.mem_cons_self hne, ih (fun y hy => hf y (List.mem_cons_of_mem x hy)) hl
        ((List.mem_cons.mp ha).resolve_left hne.symm) fun y hy => hg y (List.mem_cons_of_mem x hy)]

end Table

namespace Element

variable {r : Resolver} {es : List Element} {id : Text}

def IsStyled (r : Resolver) (e : Element) : Prop :=
  targetId e.id ≠ [] ∧ settingsCss r e.settings ≠ []

instance (r : Resolver) (e : Element) : Decidable (IsStyled r e) :=
  inferInstanceAs (Decidable (_ ∧ _))

def styled (r : Resolver) (items : List Item) (postTypes : List Text) : List Element :=
  ((PostType.select items postTypes).flatMap (·.elements)).filter (IsStyled r ·)

def targetIds (es : List Element) : List Text :=
  (es.map fun e => targetId e.id).eraseDups

def logicalCss (r : Resolver) (e : Element) : Text :=
  Declaration.toLogical (settingsCss r e.settings)

/-- The CSS of the elements with a target id, in order. -/
def piecesOf (r : Resolver) (es : List Element) (id : Text) : List Text :=
  (es.filter fun e => targetId e.id = id).map (logicalCss r)

/-- Elements with different target ids have different style ids. -/
def ToldApart (es : List Element) : Prop :=
  ∀ e ∈ es, ∀ e' ∈ es, Style.elementId (targetId e.id) = Style.elementId (targetId e'.id) →
    targetId e.id = targetId e'.id

def entryOf (id css : Text) : Style :=
  ⟨Style.elementId id, Style.classKind, '#' :: id, Style.defaultCollection, css, false⟩

theorem addStyle_of_none {styles : StyleSet} (h : styles.get? (Style.elementId id) = none)
    (css : Text) : addStyle styles id css =
      styles.set (Style.elementId id) (entryOf id (putBehind [] (Declaration.toLogical css))) := by
  have hfirst : putBehind [] (Declaration.toLogical css) = trim (Declaration.toLogical css) :=
    trim_blank_append blank_gap _
  unfold addStyle
  dsimp only
  rw [h, hfirst]
  rfl

theorem addStyle_of_some {styles : StyleSet} {t : Text}
    (h : styles.get? (Style.elementId id) = some (entryOf id t)) (css : Text) :
    addStyle styles id css =
      styles.set (Style.elementId id) (entryOf id (putBehind t (Declaration.toLogical css))) := by
  unfold addStyle
  dsimp only
  rw [h]
  rfl

theorem mem_targetIds : id ∈ targetIds es ↔ ∃ e ∈ es, targetId e.id = id := by
  rw [targetIds, List.mem_eraseDups, List.mem_map]

theorem piecesOf_concat (r : Resolver) (es : List Element) (e : Element) (id : Text) :
    piecesOf r (es ++ [e]) id =
      if targetId e.id = id then piecesOf r es id ++ [logicalCss r e] else piecesOf r es id := by
  rw [piecesOf, List.filter_append, List.map_append]
  split_ifs with h
  · rw [List.filter_cons_of_pos (by simpa using h)]
    rfl
  · rw [List.filter_cons_of_neg (by simpa using h)]
    exact List.append_nil _

theorem piecesOf_eq_nil (h : id ∉ targetIds es) : piecesOf r es id = [] := by
  refine List.map_eq_nil_iff.mpr (List.filter_eq_nil_iff.mpr fun e he hid => h ?_)
  exact mem_targetIds.mpr ⟨e, he, by simpa using hid⟩

/-- The styles of some elements: an entry for each target id, with the CSS of its elements joined. -/
def foldedStyles (r : Resolver) (es : List Element) : StyleSet :=
  (targetIds es).map fun id => (Style.elementId id, entryOf id (joined (piecesOf r es id)))

/-- One more element adds an entry or goes behind the CSS of its entry. -/
theorem addStyle_foldedStyles {e : Element} (h : ToldApart (es ++ [e])) :
    addStyle (foldedStyles r es) (targetId e.id) (settingsCss r e.settings) =
      foldedStyles r (es ++ [e]) := by
  have hlast : e ∈ es ++ [e] := by simp
  have hids : ∀ id ∈ targetIds es, Style.elementId id = Style.elementId (targetId e.id) →
      id = targetId e.id := by
    intro id hid
    obtain ⟨e', he', rfl⟩ := mem_targetIds.mp hid
    exact h e' (List.mem_append_left _ he') e hlast
  have hnew : joined (piecesOf r (es ++ [e]) (targetId e.id)) =
      putBehind (joined (piecesOf r es (targetId e.id))) (logicalCss r e) := by
    rw [piecesOf_concat, if_pos rfl, joined_concat]
  have hold : ∀ id ∈ targetIds es, id ≠ targetId e.id →
      entryOf id (joined (piecesOf r (es ++ [e]) id)) =
        entryOf id (joined (piecesOf r es id)) := by
    intro id _ hne
    rw [piecesOf_concat, if_neg hne.symm]
  have htargets : targetIds (es ++ [e]) =
      if targetId e.id ∈ targetIds es then targetIds es else targetIds es ++ [targetId e.id] := by
    simp only [targetIds, List.map_append, List.map_singleton, eraseDups_concat,
      List.contains_iff_mem, List.mem_eraseDups]
  by_cases hmem : targetId e.id ∈ targetIds es
  · rw [if_pos hmem] at htargets
    have hentry : (foldedStyles r es).get? (Style.elementId (targetId e.id)) =
        some (entryOf (targetId e.id) (joined (piecesOf r es (targetId e.id)))) :=
      Table.get?_entries hids hmem
    rw [addStyle_of_some hentry, ← logicalCss, ← hnew, foldedStyles, foldedStyles, htargets]
    exact Table.set_entries hids (nodup_eraseDups _) hmem hold
  · rw [if_neg hmem] at htargets
    have hkey : Style.elementId (targetId e.id) ∉ Table.keys (foldedStyles r es) := by
      intro hkey
      obtain ⟨_, hentry, hid⟩ := List.mem_map.mp hkey
      obtain ⟨id, hid', rfl⟩ := List.mem_map.mp hentry
      exact hmem (hids id hid' hid ▸ hid')
    rw [piecesOf_eq_nil hmem] at hnew
    rw [addStyle_of_none (Table.get?_eq_none hkey), Table.set_of_notMem hkey, foldedStyles,
      foldedStyles, htargets, List.map_append, List.map_singleton, hnew]
    refine congrArg (· ++ _) (List.map_congr_left fun id hid => ?_)
    rw [hold id hid fun he => hmem (he ▸ hid)]

theorem ToldApart.of_append {es' : List Element} (h : ToldApart (es ++ es')) : ToldApart es :=
  fun e he e' he' => h e (List.mem_append_left _ he) e' (List.mem_append_left _ he')

theorem foldl_addStyle (h : ToldApart es) :
    es.foldl (fun styles e => addStyle styles (targetId e.id) (settingsCss r e.settings)) [] =
      foldedStyles r es := by
  induction es using List.reverseRecOn with
  | nil => rfl
  | append_singleton es e ih =>
    rw [List.foldl_append, ih h.of_append]
    exact addStyle_foldedStyles h

theorem settingsCss_nil (r : Resolver) : settingsCss r [] = [] := by
  have hnone : Settings.OnlyReferences [] := fun e he => absurd he List.not_mem_nil
  rw [settingsCss, hnone.css_eq_nil, hnone.responsiveCss_eq_nil]
  rfl

/-- Elements without a target id, without settings or without CSS add nothing. -/
theorem collect_styles (r : Resolver) (items : List Item) (postTypes : List Text) :
    (collect r items postTypes).styles = (styled r items postTypes).foldl
      (fun styles e => addStyle styles (targetId e.id) (settingsCss r e.settings)) [] := by
  have hstep : ∀ styles e, addSettings r styles e =
      if IsStyled r e then addStyle styles (targetId e.id) (settingsCss r e.settings)
      else styles := by
    intro styles e
    unfold addSettings IsStyled
    by_cases hid : targetId e.id = [] <;> by_cases hcss : settingsCss r e.settings = [] <;>
      simp [hid, hcss]
  have hstyled : ∀ es : List Element, (es.filter (!·.settings.isEmpty)).filter (IsStyled r ·) =
      es.filter (IsStyled r ·) := by
    intro es
    rw [List.filter_filter]
    refine List.filter_congr fun e _ => ?_
    cases hs : e.settings with
    | nil => simp [IsStyled, hs, settingsCss_nil]
    | cons => simp
  have hfold : ∀ es : List Element, es.foldl (addSettings r) [] =
      (es.filter (IsStyled r ·)).foldl
        (fun styles e => addStyle styles (targetId e.id) (settingsCss r e.settings)) [] := by
    intro es
    rw [List.foldl_filter]
    simp only [funext₂ hstep, decide_eq_true_eq]
  unfold collect
  dsimp only
  rw [hfold, hstyled, styled]

theorem targetId_of_name (hne : stem id ≠ []) (h : (stem id).all isNameChar = true) :
    targetId id = targetMark ++ stem id := by
  rcases bareId_cases id with ⟨-, hid⟩ | ⟨-, hid⟩ | ⟨-, hid, htarget, hsource⟩
  · rw [targetId, hid, startsWith_eq_isSome, dropStart?_append]
    rfl
  · rw [targetId, hid, dropStart?_append]
    rfl
  · have hclean : (stem id).filter isNameChar = stem id :=
      List.filter_eq_self.mpr (List.all_eq_true.mp h)
    rw [hid] at htarget hsource
    unfold targetId
    simp [startsWith_eq_isSome, hid, htarget, hsource, hclean, hne]

/-- The styles of the selected elements have one entry for each target id of an element with CSS, in
the order in which these ids come first. Its CSS is that of all the elements with this id in the
order of the document, whichever mark their ids have, with white space in between. -/
theorem collect_folds (r : Resolver) (items : List Item) (postTypes : List Text)
    (h : ToldApart (styled r items postTypes)) :
    (∃ css : Text → Text,
      (collect r items postTypes).styles = (targetIds (styled r items postTypes)).map
        (fun id => (Style.elementId id, entryOf id (css id))) ∧
      ∀ id, Separated (nonblank (piecesOf r (styled r items postTypes) id)) (css id)) ∧
    ∀ id, stem id ≠ [] → (stem id).all isNameChar = true → targetId id = targetMark ++ stem id := by
  refine ⟨⟨fun id => joined (piecesOf r (styled r items postTypes) id), ?_, fun id => ?_⟩,
    fun id => targetId_of_name⟩
  · rw [collect_styles, foldl_addStyle h]
    rfl
  · exact separated_joined _

def spellings : List Element :=
  [shown "brxe-abc", shown "#etch-abc", shown " abc"]

def spelled : Item :=
  ⟨"1", "page", ⟨"abc", "div", []⟩ :: spellings, .none, .none⟩

theorem styled_spelled : styled {} [spelled] [] = spellings := by
  have hselect : (PostType.select [spelled] []).flatMap (·.elements) =
      ⟨"abc", "div", []⟩ :: spellings := rfl
  have hempty : ¬ IsStyled {} ⟨"abc", "div", []⟩ := fun h => h.2 (settingsCss_nil {})
  have hshown : ∀ e ∈ spellings, IsStyled {} e := by
    simp only [spellings, List.forall_mem_cons, IsStyled]
    have hcss : ∀ id, settingsCss {} (shown id).settings ≠ [] := by
      intro id
      rw [settingsCss_shown]
      decide
    exact ⟨⟨by decide, hcss _⟩, ⟨by decide, hcss _⟩, ⟨by decide, hcss _⟩, by simp⟩
  rw [styled, hselect, List.filter_cons_of_neg (by simpa using hempty)]
  exact List.filter_eq_self.mpr fun e he => decide_eq_true (hshown e he)

theorem collect_folds_spelled :
    ToldApart (styled {} [spelled] []) ∧
      ∃ css : Text, (collect {} [spelled] []).styles =
          [(Style.elementId "etch-abc", entryOf "etch-abc" css)] ∧
        Separated [("display: block;" : Text), "display: block;", "display: block;"] css := by
  have hid : ∀ e ∈ styled {} [spelled] [], targetId e.id = "etch-abc" := by
    rw [styled_spelled]
    simp only [spellings, List.forall_mem_cons]
    exact ⟨by decide, by decide, by decide, by simp⟩
  have htold : ToldApart (styled {} [spelled] []) := by
    intro e he e' he' _
    rw [hid e he, hid e' he']
  obtain ⟨⟨css, hstyles, hcss⟩, -⟩ := collect_folds {} [spelled] [] htold
  have htargets : targetIds (styled {} [spelled] []) = [("etch-abc" : Text)] := by
    rw [styled_spelled]
    decide
  have hlogical : ∀ id, logicalCss {} (shown id) = "display: block;" := by
    intro id
    rw [logicalCss, settingsCss_shown]
    decide +kernel
  have hall : (styled {} [spelled] []).filter (fun e => targetId e.id = "etch-abc") = spellings := by
    rw [← styled_spelled]
    exact List.filter_eq_self.mpr fun e he => decide_eq_true (hid e he)
  have hcss := hcss "etch-abc"
  rw [piecesOf, hall, spellings, List.map_cons, List.map_cons, List.map_singleton, hlogical,
    hlogical, hlogical] at hcss
  refine ⟨htold, css "etch-abc", ?_, hcss⟩
  rw [hstyles, htargets]
  rfl

end Element

end Restyle
