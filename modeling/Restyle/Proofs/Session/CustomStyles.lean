import Restyle.Proofs.Stylesheet.Tidying
import Restyle.Proofs.Table
import Restyle.Session.Basic

/-! # Styles of a shared custom stylesheet

The custom CSS of all classes is one stylesheet. Where one class's part of it is
closed and mentions nothing but the class, the part may be left out without
changing the style of any other class or element.
-/

namespace Restyle

open Text Table

namespace Node

variable {names : List Text} {name : Text}

def seeName (seen : List Text) (name : Text) : List Text :=
  if seen.contains name then seen else seen ++ [name]

theorem filter_seeName (p : Text → Bool) (seen : List Text) (name : Text) :
    (seeName seen name).filter p =
      if p name then seeName (seen.filter p) name else seen.filter p := by
  cases hp : p name with
  | false =>
    rw [if_neg Bool.false_ne_true, seeName]
    split
    · rfl
    · simp [List.filter_append, hp]
  | true =>
    have hmem : (seen.filter p).contains name = seen.contains name := by
      simp [List.contains_eq_mem, List.mem_filter, hp]
    rw [if_pos rfl, seeName, seeName, hmem]
    split
    · rfl
    · simp [List.filter_append, hp]

theorem filter_foldl_seeName (p : Text → Bool) (seen names : List Text) :
    (names.foldl seeName seen).filter p = (names.filter p).foldl seeName (seen.filter p) := by
  induction names generalizing seen with
  | nil => rfl
  | cons name names ih =>
    rw [List.foldl_cons, ih, filter_seeName]
    cases hp : p name with
    | true => rw [List.filter_cons_of_pos hp, if_pos rfl, List.foldl_cons]
    | false => rw [List.filter_cons_of_neg (by simp [hp]), if_neg Bool.false_ne_true]

theorem filter_distinct (p : Text → Bool) (names : List Text) :
    (distinct names).filter p = distinct (names.filter p) :=
  filter_foldl_seeName p [] names

theorem mem_foldl_seeName {seen : List Text} (h : name ∈ names.foldl seeName seen) :
    name ∈ seen ∨ name ∈ names := by
  induction names generalizing seen with
  | nil => exact Or.inl h
  | cons n names ih =>
    rcases ih h with h | h
    · rw [seeName] at h
      split_ifs at h
      · exact Or.inl h
      · rcases List.mem_append.mp h with h | h
        · exact Or.inl h
        · rw [List.mem_singleton.mp h]
          exact Or.inr List.mem_cons_self
    · exact Or.inr (List.mem_cons_of_mem n h)

theorem mem_of_mem_distinct (h : name ∈ distinct names) : name ∈ names :=
  (mem_foldl_seeName h).resolve_left List.not_mem_nil

end Node

namespace StyleMap

variable {m : StyleMap} {name : Text} {r : StyleRef}

/-- Every class is tracked under the id of its selector. -/
def Regular (m : StyleMap) : Prop :=
  ∀ r ∈ m.values, ∃ name, r = ⟨Style.classId ('.' :: name), '.' :: name⟩

theorem Regular.id_eq (hm : m.Regular) (h : m.forClass? name = some r) :
    r.id = Style.classId ('.' :: name) := by
  obtain ⟨name', rfl⟩ := hm r (List.mem_of_find?_eq_some h)
  have hname := List.find?_some h
  have hdrop : dropStart? ('.' :: name') "." = some name' := dropStart?_append ['.'] name'
  rw [decide_eq_true_eq, hdrop] at hname
  rw [← hname]
  rfl

end StyleMap

def addClassCss (css : Text) (tracked : StyleMap) (styles : StyleSet) (name : Text) : StyleSet :=
  match tracked.forClass? name with
  | none => styles
  | some r =>
    let body := nestedCss css ('.' :: name)
    if body.isEmpty then styles else styles.set r.id (Style.ofSelector r.id ('.' :: name) body)

def addIdCss (css : Text) (styles : StyleSet) (name : Text) : StyleSet :=
  let body := nestedCss css ('#' :: name)
  if body.isEmpty then styles
  else
    let id := Style.elementId name
    styles.set id (Style.ofSelector id ('#' :: name) body)

theorem classStyles_eq (css : Text) (tracked : StyleMap) :
    classStyles css tracked = (selectorNames (Selector.renameIds css) '.').foldl
      (addClassCss (Selector.renameIds css) tracked) [] := rfl

theorem idStyles_eq (css : Text) :
    idStyles css = (selectorNames (Selector.renameIds css) '#').foldl
      (addIdCss (Selector.renameIds css)) [] := rfl

variable {css css' name key : Text} {m : StyleMap} {styles styles' : StyleSet}

theorem addClassCss_congr (h : SameExcept key styles styles') (name : Text)
    (hcss : nestedCss css ('.' :: name) = nestedCss css' ('.' :: name)) :
    SameExcept key (addClassCss css m styles name) (addClassCss css' m styles' name) := by
  simp only [addClassCss, hcss]
  cases m.forClass? name with
  | none => exact h
  | some r =>
    dsimp only
    split_ifs
    · exact h
    · exact h.set _ _

theorem sameExcept_addClassCss (hm : m.Regular) (css : Text) (styles : StyleSet) (name : Text) :
    SameExcept (Style.classId ('.' :: name)) (addClassCss css m styles name) styles := by
  rw [addClassCss]
  cases hr : m.forClass? name with
  | none => exact .refl _ _
  | some r =>
    dsimp only
    split_ifs
    · exact .refl _ _
    · rw [hm.id_eq hr]
      exact (SameExcept.refl _ _).set_left _

/-- A custom stylesheet, and what it is without a closed part that mentions one class only. -/
structure OwnPart (name css css' : Text) where
  before : Text
  own : Text
  after : Text
  complete : Snippet.Complete before
  closed : Snippet.Closed own
  mentions : Node.MentionOnly ('.' :: name) (Node.ofText own)
  tidied_eq : CustomCss.tidied css = before ++ (own ++ after)
  tidied_eq' : CustomCss.tidied css' = before ++ after

namespace OwnPart

theorem nestedCss_eq (h : OwnPart name css css') {k : Token} (hk : k.text ≠ '.' :: name) :
    nestedCss (CustomCss.tidied css) k.text = nestedCss (CustomCss.tidied css') k.text := by
  rw [h.tidied_eq, h.tidied_eq']
  exact nestedCss_leave_out h.complete h.closed (h.mentions.not_mentioned hk) h.after

theorem namesOfAll_eq (h : OwnPart name css css') (sigil : Char) :
    Node.namesOfAll sigil (Node.ofText (CustomCss.tidied css)) =
        Node.namesOfAll sigil (Node.ofText h.before) ++
          (Node.namesOfAll sigil (Node.ofText h.own) ++
            Node.namesOfAll sigil (Node.ofText h.after)) ∧
      Node.namesOfAll sigil (Node.ofText (CustomCss.tidied css')) =
        Node.namesOfAll sigil (Node.ofText h.before) ++
          Node.namesOfAll sigil (Node.ofText h.after) := by
  have hbefore := (h.complete (fun _ => false) fun _ => rfl).toClosed
  rw [h.tidied_eq, h.tidied_eq', hbefore.ofText_append, hbefore.ofText_append,
    h.closed.ofText_append]
  simp only [Node.namesOfAll_append, and_self]

theorem filter_selectorNames (h : OwnPart name css css') :
    (selectorNames (CustomCss.tidied css) '.').filter (· ≠ name) =
      (selectorNames (CustomCss.tidied css') '.').filter (· ≠ name) := by
  have hown : (Node.namesOfAll '.' (Node.ofText h.own)).filter (· ≠ name) = [] := by
    refine List.filter_eq_nil_iff.mpr fun n hn => ?_
    have heq := h.mentions.eq_of_mem_names (Or.inl rfl) hn
    simpa using heq
  rw [selectorNames, selectorNames, Node.filter_distinct, Node.filter_distinct,
    (h.namesOfAll_eq '.').1, (h.namesOfAll_eq '.').2]
  simp only [List.filter_append, hown, List.nil_append]

theorem selectorNames_id (h : OwnPart name css css') :
    selectorNames (CustomCss.tidied css) '#' = selectorNames (CustomCss.tidied css') '#' := by
  have hown : Node.namesOfAll '#' (Node.ofText h.own) = [] := by
    refine List.eq_nil_iff_forall_not_mem.mpr fun n hn => ?_
    have heq := h.mentions.eq_of_mem_names (Or.inr rfl) hn
    exact absurd (List.cons.inj heq).1 (by decide)
  rw [selectorNames, selectorNames, (h.namesOfAll_eq '#').1, (h.namesOfAll_eq '#').2, hown,
    List.nil_append]

theorem exists_token {sigil : Char} (hs : sigil = '.' ∨ sigil = '#') {n : Text}
    (hn : n ∈ selectorNames css sigil) : ∃ k : Token, k.text = sigil :: n := by
  have hmem := Node.mem_of_mem_distinct hn
  rw [Node.namesOfAll_eq] at hmem
  obtain ⟨s, -, hmem⟩ := List.mem_flatMap.mp hmem
  obtain ⟨k, rfl, rfl, -⟩ := Token.exists_of_mem_names hs hmem
  exact ⟨k, rfl⟩

theorem sameExcept_classStyles (h : OwnPart name css css') (hm : m.Regular) :
    SameExcept (Style.classId ('.' :: name)) (classStyles (Declaration.tidyCustomCss css) m)
      (classStyles (Declaration.tidyCustomCss css') m) := by
  have hleave : ∀ (sheet : Text) (names : List Text), SameExcept (Style.classId ('.' :: name))
      (names.foldl (addClassCss sheet m) [])
      ((names.filter (· ≠ name)).foldl (addClassCss sheet m) []) := by
    intro sheet names
    refine SameExcept.foldl_filter (fun t u n _ _ htu => addClassCss_congr htu n rfl) ?_ (.refl _ _)
    intro t n _ hn
    obtain rfl : n = name := by simpa using hn
    exact sameExcept_addClassCss hm sheet t n
  rw [classStyles_eq, classStyles_eq, CustomCss.selectorNames_tidied,
    CustomCss.selectorNames_tidied]
  refine (hleave _ _).trans (.trans ?_ (hleave _ _).symm)
  rw [h.filter_selectorNames]
  refine SameExcept.foldl _ (fun t u n hn htu => addClassCss_congr htu n ?_) (.refl _ _)
  obtain ⟨hn, hne⟩ := List.mem_filter.mp hn
  obtain ⟨k, hk⟩ := exists_token (Or.inl rfl) hn
  have hown : k.text ≠ '.' :: name := by
    rw [hk]
    simpa using hne
  rw [← hk, CustomCss.nestedCss_tidied, CustomCss.nestedCss_tidied, h.nestedCss_eq hown]

theorem idStyles_eq (h : OwnPart name css css') :
    idStyles (Declaration.tidyCustomCss css) = idStyles (Declaration.tidyCustomCss css') := by
  rw [Restyle.idStyles_eq, Restyle.idStyles_eq, CustomCss.selectorNames_tidied,
    CustomCss.selectorNames_tidied, h.selectorNames_id]
  refine List.foldl_ext _ _ _ fun styles n hn => ?_
  obtain ⟨k, hk⟩ := exists_token (Or.inr rfl) hn
  have hown : k.text ≠ '.' :: name := by
    rw [hk]
    intro he
    exact absurd (List.cons.inj he).1 (by decide)
  have hcss := h.nestedCss_eq hown
  rw [← CustomCss.nestedCss_tidied, ← CustomCss.nestedCss_tidied, hk] at hcss
  rw [addIdCss, addIdCss, hcss]

theorem sameExcept_customStyles (h : OwnPart name css css') (hm : m.Regular) :
    SameExcept (Style.classId ('.' :: name)) (Session.customStyles css m)
      (Session.customStyles css' m) := by
  have hall := (h.sameExcept_classStyles hm).setAll (idStyles (Declaration.tidyCustomCss css))
  have hmap := hall.map fun s : Style => { s with css := Declaration.toLogical (trim s.css) }
  rw [Session.customStyles, Session.customStyles, ← h.idStyles_eq]
  exact hmap

end OwnPart

namespace Session

theorem nodup_keys_customStyles (css : Text) (m : StyleMap) : (customStyles css m).keys.Nodup := by
  have hclass : (classStyles (Declaration.tidyCustomCss css) m).keys.Nodup := by
    rw [classStyles_eq]
    have hnil : (keys ([] : StyleSet)).Nodup := List.nodup_nil
    refine nodup_keys_foldl (fun styles name hs => ?_) hnil _
    rw [addClassCss]
    split
    · exact hs
    · dsimp only
      split
      · exact hs
      · exact nodup_keys_set hs _ _
  have hall : (setAll (idStyles (Declaration.tidyCustomCss css))
      (classStyles (Declaration.tidyCustomCss css) m)).keys.Nodup :=
    nodup_keys_foldl (fun styles p hs => nodup_keys_set hs p.1 p.2) hclass _
  have hkeys : (customStyles css m).keys = (setAll (idStyles (Declaration.tidyCustomCss css))
      (classStyles (Declaration.tidyCustomCss css) m)).keys := by
    rw [customStyles, keys, List.map_map]
    rfl
  rwa [hkeys]

/-- Custom styles depend on what is tracked for the classes of the stylesheet. -/
theorem customStyles_congr {m' : StyleMap}
    (h : ∀ name ∈ selectorNames (Selector.renameIds (Declaration.tidyCustomCss css)) '.',
      m.forClass? name = m'.forClass? name) : customStyles css m = customStyles css m' := by
  have hclass : classStyles (Declaration.tidyCustomCss css) m =
      classStyles (Declaration.tidyCustomCss css) m' := by
    rw [classStyles_eq, classStyles_eq]
    refine List.foldl_ext _ _ _ fun styles name hname => ?_
    rw [addClassCss, addClassCss, h name hname]
  rw [customStyles, customStyles, hclass]

theorem notMem_keys_idStyles (css : Text) (hid : ∀ name, Style.elementId name ≠ key) :
    key ∉ (idStyles css).keys := by
  have hstep : ∀ (styles : StyleSet) (name : Text), key ∉ styles.keys →
      key ∉ (addIdCss (Selector.renameIds css) styles name).keys := by
    intro styles name hs
    rw [addIdCss]
    dsimp only
    split_ifs
    · exact hs
    · exact notMem_keys_set hs (hid name) _
  have hfold : ∀ (names : List Text) (styles : StyleSet), key ∉ styles.keys →
      key ∉ (names.foldl (addIdCss (Selector.renameIds css)) styles).keys := by
    intro names
    induction names with
    | nil => exact fun styles hs => hs
    | cons name names ih =>
      intro styles hs
      rw [List.foldl_cons]
      exact ih _ (hstep styles name hs)
  rw [idStyles_eq]
  exact hfold _ [] List.not_mem_nil

theorem get?_customStyles_eq_none (hid : ∀ name, Style.elementId name ≠ key)
    (h : ∀ name r, m.forClass? name = some r → r.id = key →
      nestedCss (CustomCss.tidied css) ('.' :: name) = []) :
    (customStyles css m).get? key = none := by
  have hclass : (classStyles (Declaration.tidyCustomCss css) m).get? key = none := by
    rw [classStyles_eq, get?_foldl]
    · rfl
    · intro styles name _
      rw [addClassCss]
      cases hr : m.forClass? name with
      | none => rfl
      | some r =>
        dsimp only
        by_cases hkey : r.id = key
        · rw [CustomCss.nestedCss_tidied, h name r hr hkey]
          rfl
        · split_ifs
          · rfl
          · exact get?_set_of_ne (Ne.symm hkey) _ _
  have hids := notMem_keys_idStyles (Declaration.tidyCustomCss css) hid
  have hall : (setAll (idStyles (Declaration.tidyCustomCss css))
      (classStyles (Declaration.tidyCustomCss css) m)).get? key = none := by
    rw [setAll, get?_foldl, hclass]
    intro styles p hp
    refine get?_set_of_ne (fun hk => hids ?_) _ _
    rw [hk]
    exact List.mem_map_of_mem hp
  have hmap := get?_map (fun s : Style => { s with css := Declaration.toLogical (trim s.css) })
    (setAll (idStyles (Declaration.tidyCustomCss css))
      (classStyles (Declaration.tidyCustomCss css) m)) key
  rw [hall] at hmap
  exact hmap

def behind (current : Option Style) (s : Style) : Style :=
  match current with
  | none => s
  | some c => { c with css := Style.joinCss c.css s.css }

theorem mergeStyle_eq (styles : StyleSet) (entry : Text × Style) :
    mergeStyle styles entry = styles.set entry.1 (behind (styles.get? entry.1) entry.2) := by
  rw [mergeStyle]
  cases styles.get? entry.1 <;> rfl

theorem sameExcept_mergeStyle (hs : SameExcept key styles styles') (entry : Text × Style) :
    SameExcept key (mergeStyle styles entry) (mergeStyle styles' entry) := by
  rw [mergeStyle_eq, mergeStyle_eq]
  by_cases hk : entry.1 = key
  · rw [hk]
    exact (hs.set_left _).trans ((SameExcept.refl _ styles').set_left _).symm
  · rw [hs entry.1 hk]
    exact hs.set _ _

theorem get?_foldl_mergeStyle {entries : StyleSet} (h : entries.keys.Nodup) (styles : StyleSet)
    (k : Text) : Table.get? (entries.foldl mergeStyle styles) k =
      match entries.get? k with
      | none => styles.get? k
      | some s => some (behind (styles.get? k) s) := by
  induction entries generalizing styles with
  | nil => rfl
  | cons entry entries ih =>
    obtain ⟨key, s⟩ := entry
    obtain ⟨hkey, hentries⟩ := List.nodup_cons.mp h
    rw [List.foldl_cons, ih hentries, mergeStyle_eq, get?_set, get?_cons]
    by_cases hk : k = key
    · subst hk
      rw [get?_eq_none hkey, if_pos rfl, if_pos rfl]
    · rw [if_neg hk, if_neg hk]

theorem sameExcept_foldl_mergeStyle {entries entries' : StyleSet} (he : SameExcept key entries entries')
    (h : entries.keys.Nodup) (h' : entries'.keys.Nodup) (hs : SameExcept key styles styles') :
    SameExcept key (entries.foldl mergeStyle styles) (entries'.foldl mergeStyle styles') := by
  intro k hk
  rw [get?_foldl_mergeStyle h, get?_foldl_mergeStyle h', he k hk, hs k hk]

theorem addBlocks_eq {ref : StyleRef} {entry : Text × List Text} (h : m.get? entry.1 = some ref)
    (styles : StyleSet) : addBlocks m styles entry = styles.change ref.id fun s =>
      { s with css := s.css ++ entry.2.flatMap ('\n' :: '\n' :: ·) } := by
  rw [addBlocks, h, change]
  dsimp only
  cases styles.get? ref.id <;> rfl

theorem sameExcept_addBlocks (hs : SameExcept key styles styles') (m : StyleMap)
    (entry : Text × List Text) :
    SameExcept key (addBlocks m styles entry) (addBlocks m styles' entry) := by
  cases h : m.get? entry.1 with
  | none =>
    rw [addBlocks, addBlocks, h]
    exact hs
  | some ref =>
    rw [addBlocks_eq h, addBlocks_eq h]
    exact hs.change ref.id _

end Session

end Restyle
