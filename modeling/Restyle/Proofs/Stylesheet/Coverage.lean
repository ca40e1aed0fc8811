import Restyle.Proofs.Session.CustomStyles
import Restyle.Proofs.Stylesheet.Holding

/-! # Styles for all names of a stylesheet, and for no others

The names of a stylesheet are read off its selectors character by character,
its rules are found by a search for whole tokens in the parts of selector
lists. Both agree where selectors have no quotes and brackets, so that every
name that a rule with a body mentions has a style.
-/

namespace Restyle

open Text Selector

/-- A selector without quotes and square brackets. -/
def Selector.Plain (s : Text) : Prop :=
  ∀ c ∈ s, c ∉ ['"', '\'', '[', ']']

instance (s : Text) : Decidable (Plain s) :=
  inferInstanceAs (Decidable (∀ c ∈ s, _))

namespace Token

variable {k : Token} {s t rest name : Text} {sigil c : Char} {quote : Option Char} {brackets : Nat}

theorem isName_of_mem_namesFrom (h : name ∈ namesFrom sigil quote brackets t) :
    isName sigil name = true := by
  induction t generalizing quote brackets with
  | nil => cases quote <;> simp [namesFrom] at h
  | cons c t ih =>
    cases quote with
    | some q => exact ih h
    | none =>
      rw [namesFrom] at h
      split_ifs at h with h₁ h₂ h₃ h₄
      · exact ih h
      · exact ih h
      · exact ih h
      · rcases List.mem_append.mp h with h | h
        · by_cases hname : isName sigil (t.takeWhile isNameChar) = true
          · rw [if_pos hname] at h
            rwa [List.mem_singleton.mp h]
          · rw [if_neg hname] at h
            cases h
        · exact ih h
      · exact ih h

theorem namesFrom_cons (hc : c ∉ ['"', '\'', '[', ']']) :
    namesFrom sigil none 0 (c :: t) =
      (if c = sigil ∧ isName sigil (t.takeWhile isNameChar) = true then [t.takeWhile isNameChar]
        else []) ++ namesFrom sigil none 0 t := by
  simp only [List.mem_cons, List.not_mem_nil, or_false, not_or] at hc
  rw [namesFrom]
  by_cases hs : c = sigil
  · subst hs
    simp [hc]
  · simp [hc, hs]

theorem takeWhile_name_append (h : nameGoesOn rest = false) :
    (k.name ++ rest).takeWhile isNameChar = k.name := by
  rw [List.takeWhile_append_of_pos fun c hc => k.isNameChar_of_mem hc]
  rcases rest with _ | ⟨c, rest⟩
  · exact List.append_nil _
  · have hc : isNameChar c = false := h
    simp [hc]

theorem mem_names_iff (hs : Plain s) :
    k.name ∈ names k.sigil s ↔ isName k.sigil k.name = true ∧ k.Mentioned s := by
  constructor
  · intro h
    obtain ⟨k', hsigil, hname, hm⟩ := exists_of_mem_names k.sigil_eq h
    have htext : k'.text = k.text := by rw [text, hsigil, hname, text]
    rw [Mentioned, htext] at hm
    exact ⟨isName_of_mem_namesFrom h, hm⟩
  · rintro ⟨hname, before, rest, rfl, hrest⟩
    rw [names]
    induction before with
    | nil =>
      rw [List.nil_append, text, List.cons_append,
        namesFrom_cons (hs _ List.mem_cons_self), takeWhile_name_append hrest, if_pos ⟨rfl, hname⟩]
      exact List.mem_append_left _ (List.mem_singleton_self _)
    | cons b before ih =>
      obtain ⟨hb, hs⟩ := List.forall_mem_cons.mp hs
      rw [List.cons_append, namesFrom_cons hb]
      exact List.mem_append_right _ (ih hs)

end Token

namespace Node

variable {names : List Text} {name : Text}

theorem nodup_foldl_seeName {seen : List Text} (h : seen.Nodup) :
    (names.foldl seeName seen).Nodup := by
  induction names generalizing seen with
  | nil => exact h
  | cons n names ih =>
    refine ih ?_
    rw [seeName]
    split_ifs with hn
    · exact h
    · refine List.nodup_append.mpr ⟨h, List.nodup_singleton n, ?_⟩
      rintro x hx _ hy rfl
      exact hn (List.contains_iff_mem.mpr (List.mem_singleton.mp hy ▸ hx))

theorem mem_foldl_seeName_iff {seen : List Text} :
    name ∈ names.foldl seeName seen ↔ name ∈ seen ∨ name ∈ names := by
  refine ⟨mem_foldl_seeName, fun h => ?_⟩
  induction names generalizing seen with
  | nil => exact h.resolve_right List.not_mem_nil
  | cons n names ih =>
    have hseen : name ∈ seen ∨ name = n → name ∈ seeName seen n := by
      intro h
      rw [seeName]
      split_ifs with hn
      · rcases h with h | rfl
        · exact h
        · exact List.contains_iff_mem.mp hn
      · simpa using h
    rw [List.mem_cons, ← or_assoc] at h
    exact ih (h.imp_left hseen)

theorem nodup_distinct (names : List Text) : (distinct names).Nodup :=
  nodup_foldl_seeName List.nodup_nil

theorem mem_distinct_iff : name ∈ distinct names ↔ name ∈ names :=
  mem_foldl_seeName_iff.trans (or_iff_right List.not_mem_nil)

end Node

namespace Token

variable {k k' : Token} {sheet : Text}

/-- The stylesheet holds a rule with a body that mentions the token, and the token is a name. -/
def StyledIn (k : Token) (sheet : Text) : Prop :=
  isName k.sigil k.name = true ∧ ∃ n ∈ Node.ofText sheet, ∃ s body, n.Holds s body ∧
    k.Mentioned s ∧ Node.formatBody body ≠ []

/-- The entry for a token under an id: its nested CSS in the stylesheet. -/
def entry (k : Token) (id sheet : Text) : Text × Style :=
  (id, ⟨id, Style.classKind, k.text, Style.defaultCollection, nestedCss sheet k.text, false⟩)

theorem nestedCss_ne_nil_iff : nestedCss sheet k.text ≠ [] ↔
    ∃ n ∈ Node.ofText sheet, ∃ s body, n.Holds s body ∧ k.Mentioned s ∧
      Node.formatBody body ≠ [] := by
  rw [Ne, nestedCss_eq_nil_iff, Rule.extract, Rule.ofNodes_eq_nil_iff]
  push Not
  rfl

/-- The two traversals agree: the names with CSS are those that a rule with a body mentions. -/
theorem styledIn_iff (hs : ∀ s ∈ Node.selectorsOfAll (Node.ofText sheet), Plain s) :
    k.StyledIn sheet ↔ k.name ∈ selectorNames sheet k.sigil ∧ nestedCss sheet k.text ≠ [] := by
  rw [StyledIn, ← nestedCss_ne_nil_iff, selectorNames, Node.mem_distinct_iff, Node.namesOfAll_eq,
    List.mem_flatMap]
  refine and_congr_left fun hcss => ?_
  constructor
  · intro hname
    obtain ⟨n, hn, s, body, hholds, hm, -⟩ := nestedCss_ne_nil_iff.mp hcss
    have hmem : s ∈ Node.selectorsOfAll (Node.ofText sheet) :=
      (Node.mem_selectorsOfAll_iff _).mpr ⟨n, hn, body, hholds⟩
    exact ⟨s, hmem, (mem_names_iff (hs s hmem)).mpr ⟨hname, hm⟩⟩
  · rintro ⟨s, hmem, hname⟩
    exact ((mem_names_iff (hs s hmem)).mp hname).1

end Token

namespace Table

variable {α β : Type}

theorem foldl_set_eq_filterMap {f : α → Option (Text × β)} {as : List α}
    (h : (keys (as.filterMap f)).Nodup) :
    as.foldl (fun (t : Table β) a => (f a).elim t fun e => t.set e.1 e.2) [] = as.filterMap f := by
  have hset : ∀ (as : List α) (t : Table β),
      as.foldl (fun t a => (f a).elim t fun e => t.set e.1 e.2) t = setAll (as.filterMap f) t := by
    intro as
    induction as with
    | nil => exact fun t => rfl
    | cons a as ih =>
      intro t
      cases hfa : f a with
      | none =>
        rw [List.filterMap_cons_none hfa, List.foldl_cons, hfa]
        exact ih t
      | some e =>
        rw [List.filterMap_cons_some hfa, List.foldl_cons, hfa]
        exact ih (t.set e.1 e.2)
  rw [hset]
  exact setAll_eq_append (t := []) h

end Table

def entryFor? (sheet : Text) (sigil : Char) (idOf : Text → Option Text) (name : Text) :
    Option (Text × Style) :=
  (idOf name).bind fun id =>
    if nestedCss sheet (sigil :: name) = [] then none
    else some (id, ⟨id, Style.classKind, sigil :: name, Style.defaultCollection,
      nestedCss sheet (sigil :: name), false⟩)

def stylesFor (sheet : Text) (sigil : Char) (idOf : Text → Option Text) : StyleSet :=
  (selectorNames sheet sigil).foldl
    (fun styles name => (entryFor? sheet sigil idOf name).elim styles fun e => styles.set e.1 e.2) []

section StylesFor

variable {sheet name : Text} {sigil : Char} {idOf : Text → Option Text} {e : Text × Style} {k : Token}

theorem ofSelector_nestedCss (id token : Text) : Style.ofSelector id token (nestedCss sheet token) =
    ⟨id, Style.classKind, token, Style.defaultCollection, nestedCss sheet token, false⟩ := by
  rw [Style.ofSelector, nestedCss, (trimmed_trim _).trim_eq]

theorem classStyles_eq_stylesFor (css : Text) (m : StyleMap) : classStyles css m =
    stylesFor (renameIds css) '.' fun name => (m.forClass? name).map (·.id) := by
  rw [classStyles_eq, stylesFor]
  refine List.foldl_ext _ _ _ fun styles name _ => ?_
  rw [addClassCss, entryFor?]
  cases m.forClass? name with
  | none => rfl
  | some r =>
    simp only [Option.map_some, Option.bind_some, List.isEmpty_iff, ofSelector_nestedCss]
    split_ifs <;> rfl

theorem idStyles_eq_stylesFor (css : Text) : idStyles css =
    stylesFor (renameIds css) '#' (some ∘ Style.elementId) := by
  rw [idStyles_eq, stylesFor]
  refine List.foldl_ext _ _ _ fun styles name _ => ?_
  rw [addIdCss, entryFor?]
  simp only [List.isEmpty_iff, ofSelector_nestedCss]
  split_ifs <;> rfl

theorem nodup_keys_stylesFor (sheet : Text) (sigil : Char) (idOf : Text → Option Text) :
    (stylesFor sheet sigil idOf).keys.Nodup := by
  have hnil : (Table.keys ([] : StyleSet)).Nodup := List.nodup_nil
  refine Table.nodup_keys_foldl (fun styles name hs => ?_) hnil _
  cases entryFor? sheet sigil idOf name with
  | none => exact hs
  | some e => exact Table.nodup_keys_set hs e.1 e.2

theorem entryFor?_eq_some_iff : entryFor? sheet k.sigil idOf k.name = some e ↔
    ∃ id, idOf k.name = some id ∧ nestedCss sheet k.text ≠ [] ∧ e = k.entry id sheet := by
  rw [entryFor?, Option.bind_eq_some_iff]
  refine exists_congr fun id => and_congr_right fun _ => ?_
  split_ifs with h
  · exact iff_of_false (by simp) fun hne => hne.1 h
  · rw [Option.some.injEq, eq_comm]
    exact (and_iff_right h).symm

def KeptApart (sheet : Text) (sigil : Char) (idOf : Text → Option Text) : Prop :=
  ∀ k k' : Token, k.sigil = sigil → k'.sigil = sigil → k.StyledIn sheet → k'.StyledIn sheet →
    ∀ id, idOf k.name = some id → idOf k'.name = some id → k.name = k'.name

def IsEntry (sheet : Text) (sigil : Char) (idOf : Text → Option Text) (e : Text × Style) : Prop :=
  ∃ k : Token, k.sigil = sigil ∧ k.StyledIn sheet ∧
    ∃ id, idOf k.name = some id ∧ e = k.entry id sheet

variable (hs : ∀ s ∈ Node.selectorsOfAll (Node.ofText sheet), Plain s)
  (hsigil : sigil = '.' ∨ sigil = '#')

include hs hsigil

theorem mem_filterMap_entryFor?_iff :
    e ∈ (selectorNames sheet sigil).filterMap (entryFor? sheet sigil idOf) ↔
      IsEntry sheet sigil idOf e := by
  rw [List.mem_filterMap]
  constructor
  · rintro ⟨name, hname, he⟩
    obtain ⟨k, hk⟩ := OwnPart.exists_token hsigil hname
    obtain ⟨rfl, rfl⟩ := List.cons.inj hk
    obtain ⟨id, hid, hcss, rfl⟩ := entryFor?_eq_some_iff.mp he
    exact ⟨k, rfl, (k.styledIn_iff hs).mpr ⟨hname, hcss⟩, id, hid, rfl⟩
  · rintro ⟨k, rfl, hstyled, id, hid, rfl⟩
    obtain ⟨hname, hcss⟩ := (k.styledIn_iff hs).mp hstyled
    exact ⟨k.name, hname, entryFor?_eq_some_iff.mpr ⟨id, hid, hcss, rfl⟩⟩

theorem nodup_keys_filterMap_entryFor? (h : KeptApart sheet sigil idOf) :
    (Table.keys ((selectorNames sheet sigil).filterMap (entryFor? sheet sigil idOf))).Nodup := by
  have hname : ∀ name name' e, e ∈ entryFor? sheet sigil idOf name →
      e ∈ entryFor? sheet sigil idOf name' → name = name' := by
    have hselector : ∀ name e, e ∈ entryFor? sheet sigil idOf name → e.2.selector = sigil :: name := by
      intro name e he
      obtain ⟨id, -, he⟩ := Option.bind_eq_some_iff.mp he
      split_ifs at he
      obtain rfl := Option.some.inj he
      rfl
    intro name name' e he he'
    exact (List.cons.inj ((hselector name e he).symm.trans (hselector name' e he'))).2
  refine List.Nodup.map_on ?_ ((Node.nodup_distinct _).filterMap hname)
  intro e he e' he' hid
  obtain ⟨k, hk, hstyled, id, hkid, rfl⟩ := (mem_filterMap_entryFor?_iff hs hsigil).mp he
  obtain ⟨k', hk', hstyled', id', hkid', rfl⟩ := (mem_filterMap_entryFor?_iff hs hsigil).mp he'
  obtain rfl : id = id' := hid
  have htext : k.text = k'.text := by
    rw [Token.text, Token.text, hk, hk', h k k' hk hk' hstyled hstyled' id hkid hkid']
  rw [Token.entry, Token.entry, htext]

/-- There is one entry for each name exactly if the names with styles have different ids. -/
theorem mem_stylesFor_iff :
    (∀ e, e ∈ stylesFor sheet sigil idOf ↔ IsEntry sheet sigil idOf e) ↔
      KeptApart sheet sigil idOf := by
  constructor
  · intro h k k' hk hk' hstyled hstyled' id hid hid'
    have hkeys := nodup_keys_stylesFor sheet sigil idOf
    have hmem := (h (k.entry id sheet)).mpr ⟨k, hk, hstyled, id, hid, rfl⟩
    have hmem' := (h (k'.entry id sheet)).mpr ⟨k', hk', hstyled', id, hid', rfl⟩
    have hstyle := Table.get?_of_mem hkeys hmem
    rw [Table.get?_of_mem hkeys hmem'] at hstyle
    have htext : k'.text = k.text := congrArg Style.selector (Option.some.inj hstyle)
    exact (List.cons.inj htext).2.symm
  · intro h e
    rw [stylesFor, Table.foldl_set_eq_filterMap (nodup_keys_filterMap_entryFor? hs hsigil h)]
    exact mem_filterMap_entryFor?_iff hs hsigil

end StylesFor

namespace StyleMap

variable {m : StyleMap} {name : Text}

/-- The first entry whose selector is a class with or without its dot. -/
def firstFor? (m : StyleMap) (name : Text) : Option StyleRef :=
  m.values.find? fun r => r.selector = '.' :: name ∨ r.selector = name

theorem forClass?_eq (m : StyleMap) (h : name.head? ≠ some '.') :
    m.forClass? name = m.firstFor? name := by
  have hselector : ∀ selector : Text, (selector.dropStart? ".").getD selector = name ↔
      selector = '.' :: name ∨ selector = name := by
    rintro (_ | ⟨c, t⟩)
    · exact ⟨Or.inr, fun he => he.resolve_left (List.cons_ne_nil _ _).symm⟩
    · by_cases hc : c = '.'
      · subst hc
        have hdrop : dropStart? ('.' :: t) "." = some t := dropStart?_append ['.'] t
        have hne : '.' :: t ≠ name := by
          rintro rfl
          exact h rfl
        rw [hdrop, Option.getD_some, List.cons.injEq]
        simp [hne]
      · have hdrop : dropStart? (c :: t) "." = none := by simp [dropStart?, Ne.symm hc]
        rw [hdrop, Option.getD_none, List.cons.injEq]
        simp [hc]
  rw [forClass?, firstFor?]
  refine congrArg (List.find? · m.values) (funext fun r => ?_)
  simp only [hselector]

/-- Entries with different selectors have different ids. -/
def KeepsApart (m : StyleMap) : Prop :=
  ∀ r ∈ m.values, ∀ r' ∈ m.values, r.selector ≠ r'.selector → r.id ≠ r'.id

instance (m : StyleMap) : Decidable m.KeepsApart :=
  inferInstanceAs (Decidable (∀ r ∈ m.values, _))

end StyleMap

theorem keptApart_forClass? {m : StyleMap} (hm : m.KeepsApart) (sheet : Text) :
    KeptApart sheet '.' fun name => (m.forClass? name).map (·.id) := by
  intro k k' _ _ _ _ id hid hid'
  obtain ⟨r, hr, rfl⟩ := Option.map_eq_some_iff.mp hid
  obtain ⟨r', hr', hsame⟩ := Option.map_eq_some_iff.mp hid'
  have hselector : r.selector = r'.selector := by
    by_contra hne
    exact hm r (List.mem_of_find?_eq_some hr) r' (List.mem_of_find?_eq_some hr') hne hsame.symm
  have hname := List.find?_some hr
  have hname' := List.find?_some hr'
  rw [decide_eq_true_eq] at hname hname'
  rw [← hname, ← hname', hselector]

/-- A class is styled exactly if it is tracked and the stylesheet holds a rule with a body for it,
under the id of the first entry of the style map for it; and each id that the stylesheet holds such a
rule for has one entry exactly if these ids have different style ids. -/
theorem classStyles_and_idStyles_exact (css : Text) (m : StyleMap)
    (hs : ∀ s ∈ Node.selectorsOfAll (Node.ofText (renameIds css)), Plain s) (hm : m.KeepsApart) :
    ((classStyles css m).keys.Nodup ∧ ∀ e, e ∈ classStyles css m ↔
      ∃ k : Token, k.sigil = '.' ∧ k.StyledIn (renameIds css) ∧
        ∃ r, m.firstFor? k.name = some r ∧ e = k.entry r.id (renameIds css)) ∧
    (((idStyles css).keys.Nodup ∧ ∀ e, e ∈ idStyles css ↔
      ∃ k : Token, k.sigil = '#' ∧ k.StyledIn (renameIds css) ∧
        e = k.entry (Style.elementId k.name) (renameIds css)) ↔
      ∀ k k' : Token, k.sigil = '#' → k'.sigil = '#' → k.StyledIn (renameIds css) →
        k'.StyledIn (renameIds css) → Style.elementId k.name = Style.elementId k'.name →
          k.name = k'.name) := by
  constructor
  · rw [classStyles_eq_stylesFor]
    refine ⟨nodup_keys_stylesFor _ _ _, fun e => ?_⟩
    rw [(mem_stylesFor_iff hs (Or.inl rfl)).mpr (keptApart_forClass? hm _) e]
    refine exists_congr fun k => and_congr_right fun _ => and_congr_right fun _ => ?_
    have hdot : k.name.head? ≠ some '.' := by
      intro h
      exact absurd (k.isNameChar_of_mem (List.mem_of_mem_head? h)) (by decide)
    simp only [m.forClass?_eq hdot, Option.map_eq_some_iff]
    constructor
    · rintro ⟨_, ⟨r, hr, rfl⟩, he⟩
      exact ⟨r, hr, he⟩
    · rintro ⟨r, hr, he⟩
      exact ⟨_, ⟨r, hr, rfl⟩, he⟩
  · rw [idStyles_eq_stylesFor, and_iff_right (nodup_keys_stylesFor _ _ _)]
    have hexact : (∀ e, e ∈ stylesFor (renameIds css) '#' (some ∘ Style.elementId) ↔
        IsEntry (renameIds css) '#' (some ∘ Style.elementId) e) ↔
          KeptApart (renameIds css) '#' (some ∘ Style.elementId) :=
      mem_stylesFor_iff hs (Or.inr rfl)
    simpa [IsEntry, KeptApart, eq_comm] using hexact

def listed : Text :=
  ".card, .card-title\x7bcolor:red\x7d@media print\x7b#brxe-hero .card\x7bmargin:0\x7d\x7d"

def twice : StyleMap :=
  [("k", ⟨"c", ".card"⟩), ("l", ⟨"d", "card"⟩)]

def cardClass : Token :=
  ⟨'.', "card", Or.inl rfl, by decide, by decide⟩

theorem hash_isSigil : '#' = '.' ∨ '#' = '#' :=
  Or.inr rfl

def heroId : Token :=
  ⟨'#', "etch-hero", hash_isSigil, by decide, by decide⟩

theorem classStyles_and_idStyles_exact_listed :
    (∀ s ∈ Node.selectorsOfAll (Node.ofText (renameIds listed)), Plain s) ∧
      twice.KeepsApart ∧ cardClass.entry "c" (renameIds listed) ∈ classStyles listed twice ∧
      heroId.entry "id_c57de643" (renameIds listed) ∈ idStyles listed := by
  have hs : ∀ s ∈ Node.selectorsOfAll (Node.ofText (renameIds listed)), Plain s := by
    decide +kernel
  have hcard : cardClass.StyledIn (renameIds listed) :=
    (cardClass.styledIn_iff hs).mpr ⟨by decide +kernel, by decide +kernel⟩
  have hhero : heroId.StyledIn (renameIds listed) :=
    (heroId.styledIn_iff hs).mpr ⟨by decide +kernel, by decide +kernel⟩
  have hnames : selectorNames (renameIds listed) '#' = [("etch-hero" : Text)] := by
    decide +kernel
  have hm : twice.KeepsApart := by decide
  obtain ⟨hclass, hid⟩ := classStyles_and_idStyles_exact listed twice hs hm
  refine ⟨hs, hm, ?_, ?_⟩
  · exact (hclass.2 _).mpr ⟨cardClass, rfl, hcard, ⟨"c", ".card"⟩, by decide, rfl⟩
  · have hone : ∀ k : Token, k.sigil = '#' → k.StyledIn (renameIds listed) →
        k.name = "etch-hero" := by
      intro k hk hstyled
      have hmem := ((k.styledIn_iff hs).mp hstyled).1
      rw [hk, hnames] at hmem
      exact List.mem_singleton.mp hmem
    have hentries := (hid.mpr fun k k' hk hk' h h' _ => (hone k hk h).trans (hone k' hk' h').symm).2
    refine (hentries _).mpr ⟨heroId, rfl, hhero, ?_⟩
    have hdigest : Style.elementId heroId.name = "id_c57de643" := by decide +kernel
    rw [hdigest]

def colliding : Text :=
  "#ackk\x7bcolor:red\x7d#goeq\x7bcolor:blue\x7d"

def lostId : Token :=
  ⟨'#', "ackk", hash_isSigil, by decide, by decide⟩

def keptId : Token :=
  ⟨'#', "goeq", hash_isSigil, by decide, by decide⟩

/-- Of two ids whose digests begin alike only the second has an entry, since both would have the same
key. -/
theorem colliding_id_lost :
    (∀ s ∈ Node.selectorsOfAll (Node.ofText (renameIds colliding)), Plain s) ∧
      (∀ c ∈ colliding, c ∉ ['(', ')']) ∧
      lostId.StyledIn (renameIds colliding) ∧ keptId.StyledIn (renameIds colliding) ∧
      idStyles colliding = [keptId.entry "id_0255cc20" (renameIds colliding)] ∧
      ¬ ∀ e, e ∈ idStyles colliding ↔ ∃ k : Token, k.sigil = '#' ∧
        k.StyledIn (renameIds colliding) ∧
          e = k.entry (Style.elementId k.name) (renameIds colliding) := by
  have hs : ∀ s ∈ Node.selectorsOfAll (Node.ofText (renameIds colliding)), Plain s := by
    decide +kernel
  have hlost : lostId.StyledIn (renameIds colliding) :=
    (lostId.styledIn_iff hs).mpr ⟨by decide +kernel, by decide +kernel⟩
  have hkept : keptId.StyledIn (renameIds colliding) :=
    (keptId.styledIn_iff hs).mpr ⟨by decide +kernel, by decide +kernel⟩
  have hstyles : idStyles colliding = [keptId.entry "id_0255cc20" (renameIds colliding)] := by
    decide +kernel
  refine ⟨hs, by decide, hlost, hkept, hstyles, fun h => ?_⟩
  have hmem := (h _).mpr ⟨lostId, rfl, hlost, rfl⟩
  rw [hstyles, List.mem_singleton] at hmem
  exact absurd (congrArg (fun e : Text × Style => e.2.selector) hmem) (by decide)

end Restyle
