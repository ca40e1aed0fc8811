import Mathlib.Data.List.Basic
import Restyle.Json.Reader
import Restyle.Proofs.Json.Printer

/-! # Texts and what they denote

The texts in a value are those of the tokens it was read from. A token takes up
more of a text than it denotes, so a value holds shorter texts than the one
that it was read from. A text that denotes an array or an object begins with a
bracket, apart from white space.
-/

namespace Restyle.Json

open Token

mutual

/-- The texts that are values somewhere in a value; names do not count. -/
def texts : Json → List Text
  | string t => [t]
  | array items => itemTexts items
  | object entries => entryTexts entries
  | _ => []

def itemTexts : List Json → List Text
  | [] => []
  | j :: items => j.texts ++ itemTexts items

def entryTexts : List (Text × Json) → List Text
  | [] => []
  | (_, j) :: entries => j.texts ++ entryTexts entries

end

namespace Outline

mutual

def texts : Outline → List Text
  | string t => t.toList
  | array items => itemTexts items
  | object entries => entryTexts entries
  | _ => []

def itemTexts : List Outline → List Text
  | [] => []
  | o :: items => o.texts ++ itemTexts items

def entryTexts : List (Option Text × Outline) → List Text
  | [] => []
  | (_, o) :: entries => o.texts ++ entryTexts entries

end

theorem mem_itemTexts {t : Text} {items : List Outline} :
    t ∈ itemTexts items ↔ ∃ o ∈ items, t ∈ o.texts := by
  induction items with
  | nil => simp [itemTexts]
  | cons o items ih => simp [itemTexts, ih]

theorem mem_entryTexts {t : Text} {entries : List (Option Text × Outline)} :
    t ∈ entryTexts entries ↔ ∃ e ∈ entries, t ∈ e.2.texts := by
  induction entries with
  | nil => simp [entryTexts]
  | cons e entries ih => simp [entryTexts, ih]

mutual

theorem texts_of_value? : ∀ {room : Nat} {o : Outline} {j : Json},
    o.value? room = some j → j.texts = o.texts
  | _, null, j, h => by
    obtain rfl := Option.some.inj h
    rfl
  | _, bool b, j, h => by
    obtain rfl := Option.some.inj h
    rfl
  | _, number n, j, h => by
    obtain ⟨n, -, rfl⟩ := Option.map_eq_some_iff.mp h
    rfl
  | _, string t, j, h => by
    obtain ⟨t, rfl, rfl⟩ := Option.map_eq_some_iff.mp h
    rfl
  | room, array items, j, h => by
    rw [value?] at h
    split_ifs at h
    obtain ⟨js, hjs, rfl⟩ := Option.map_eq_some_iff.mp h
    exact texts_of_items? hjs
  | room, object entries, j, h => by
    rw [value?] at h
    split_ifs at h
    obtain ⟨js, hjs, rfl⟩ := Option.map_eq_some_iff.mp h
    exact texts_of_entries? hjs

theorem texts_of_items? : ∀ {room : Nat} {items : List Outline} {js : List Json},
    items? room items = some js → Json.itemTexts js = itemTexts items
  | _, [], js, h => by
    obtain rfl := Option.some.inj h
    rfl
  | room, o :: items, js, h => by
    simp only [items?, Option.bind_eq_bind, Option.pure_def, Option.bind_eq_some_iff,
      Option.some.injEq] at h
    obtain ⟨j, hj, js, hjs, rfl⟩ := h
    rw [Json.itemTexts, itemTexts, texts_of_value? hj, texts_of_items? hjs]

theorem texts_of_entries? : ∀ {room : Nat} {entries : List (Option Text × Outline)}
    {js : List (Text × Json)},
    entries? room entries = some js → Json.entryTexts js = entryTexts entries
  | _, [], js, h => by
    obtain rfl := Option.some.inj h
    rfl
  | room, (key, o) :: entries, js, h => by
    simp only [entries?, Option.bind_eq_bind, Option.pure_def, Option.bind_eq_some_iff,
      Option.some.injEq] at h
    obtain ⟨k, -, j, hj, js, hjs, rfl⟩ := h
    rw [Json.entryTexts, entryTexts, texts_of_value? hj, texts_of_entries? hjs]

end

end Outline

def Token.texts : Token → List Text
  | .string t => t.toList
  | _ => []

def Frame.texts : Frame → List Text
  | .array items => Outline.itemTexts items
  | .object entries _ => Outline.entryTexts entries

namespace Reader

def texts : Reader → List Text
  | value outer => outer.flatMap Frame.texts
  | firstItem outer => outer.flatMap Frame.texts
  | firstKey outer => outer.flatMap Frame.texts
  | nextItem items outer => Outline.itemTexts items ++ outer.flatMap Frame.texts
  | nextKey entries outer => Outline.entryTexts entries ++ outer.flatMap Frame.texts
  | colon entries _ outer => Outline.entryTexts entries ++ outer.flatMap Frame.texts
  | nextEntry entries outer => Outline.entryTexts entries ++ outer.flatMap Frame.texts
  | done o => o.texts

variable {r r' : Reader} {token : Token} {outer : List Frame}

theorem texts_supply (o : Outline) (outer : List Frame) :
    (supply o outer).texts ⊆ o.texts ++ outer.flatMap Frame.texts := by
  rcases outer with _ | ⟨⟨items⟩ | ⟨entries, key⟩, outer⟩ <;>
    simp [supply, texts, Frame.texts, Outline.itemTexts, Outline.entryTexts]

theorem texts_begin? (h : begin? outer token = some r) :
    r.texts ⊆ token.texts ++ outer.flatMap Frame.texts := by
  cases token with
  | null | bool b | number n | string t =>
    obtain rfl := Option.some.inj h
    exact texts_supply _ outer
  | openArray | openObject =>
    obtain rfl := Option.some.inj h
    exact List.Subset.refl _
  | closeArray | closeObject | comma | colon => exact absurd h (Option.some_ne_none r).symm

theorem texts_supply_array (items : List Outline) (outer : List Frame) :
    (supply (.array items.reverse) outer).texts ⊆ (nextItem items outer).texts := by
  intro t ht
  rcases List.mem_append.mp (texts_supply _ outer ht) with ht | ht
  · obtain ⟨o, ho, ht⟩ := Outline.mem_itemTexts.mp ht
    exact List.mem_append_left _ (Outline.mem_itemTexts.mpr ⟨o, List.mem_reverse.mp ho, ht⟩)
  · exact List.mem_append_right _ ht

theorem texts_supply_object (entries : List (Option Text × Outline)) (outer : List Frame) :
    (supply (.object entries.reverse) outer).texts ⊆ (nextEntry entries outer).texts := by
  intro t ht
  rcases List.mem_append.mp (texts_supply _ outer ht) with ht | ht
  · obtain ⟨e, he, ht⟩ := Outline.mem_entryTexts.mp ht
    exact List.mem_append_left _ (Outline.mem_entryTexts.mpr ⟨e, List.mem_reverse.mp he, ht⟩)
  · exact List.mem_append_right _ ht

theorem texts_step? (h : r.step? token = some r') : r'.texts ⊆ token.texts ++ r.texts := by
  unfold step? at h
  split at h
  case h_1 => exact texts_begin? h
  case h_3 =>
    have hbegin := texts_begin? h
    exact hbegin
  case h_12 => exact absurd h (Option.some_ne_none r').symm
  all_goals
    obtain rfl := Option.some.inj h
    refine List.subset_append_of_subset_right _ ?_
  case h_2 outer => exact texts_supply (.array []) outer
  case h_5 items outer => exact texts_supply_array items outer
  case h_6 outer => exact texts_supply (.object []) outer
  case h_11 entries outer => exact texts_supply_object entries outer
  all_goals exact List.Subset.refl _

theorem texts_steps? {ts : List Token} (h : r.steps? ts = some r') :
    r'.texts ⊆ ts.flatMap Token.texts ++ r.texts := by
  induction ts generalizing r with
  | nil =>
    obtain rfl := Option.some.inj h
    exact List.Subset.refl _
  | cons token ts ih =>
    rw [steps?] at h
    split at h
    · next next hnext =>
      intro t ht
      rw [List.flatMap_cons, List.append_assoc]
      rcases List.mem_append.mp (ih h ht) with ht | ht
      · exact List.mem_append_right _ (List.mem_append_left _ ht)
      · rcases List.mem_append.mp (texts_step? hnext ht) with ht | ht
        · exact List.mem_append_left _ ht
        · exact List.mem_append_right _ (List.mem_append_right _ ht)
    · exact absurd h (Option.some_ne_none r').symm

end Reader

namespace Token

def Below (n : Nat) (ts : List Token) : Prop :=
  ∀ s ∈ ts.flatMap texts, s.length < n

variable {n m : Nat} {token : Token} {ts : List Token} {c : Char} {word : Text}

theorem Below.nil (n : Nat) : Below n [] := by
  simp [Below]

theorem Below.mono (h : Below n ts) (hn : n ≤ m) : Below m ts :=
  fun s hs => Nat.lt_of_lt_of_le (h s hs) hn

theorem Below.cons (h : Below n ts) (ht : ∀ s ∈ token.texts, s.length < n) :
    Below n (token :: ts) := by
  intro s hs
  exact (List.mem_append.mp hs).elim (ht s) (h s)

theorem texts_of_mark? (h : mark? c = some token) : token.texts = [] := by
  unfold mark? at h
  split at h <;> cases h <;> rfl

theorem ofWord?_cases (h : ofWord? word = some token) :
    token = null ∨ (∃ b, token = bool b) ∨ ∃ n, token = number n := by
  unfold ofWord? at h
  split_ifs at h
  · exact Or.inl (Option.some.inj h).symm
  · exact Or.inr (Or.inl ⟨true, (Option.some.inj h).symm⟩)
  · exact Or.inr (Or.inl ⟨false, (Option.some.inj h).symm⟩)
  · obtain ⟨n, -, rfl⟩ := Option.map_eq_some_iff.mp h
    exact Or.inr (Or.inr ⟨n, rfl⟩)

theorem texts_of_ofWord? (h : ofWord? word = some token) : token.texts = [] := by
  obtain rfl | ⟨b, rfl⟩ | ⟨n, rfl⟩ := ofWord?_cases h <;> rfl

theorem length_text?_lt {q : Quoted} {s : Text} (h : s ∈ (string q.text?).texts) (t : Text) :
    s.length < q.chars.length + ('"' :: t).length := by
  have hs : q.text? = some s := Option.mem_toList.mp h
  rw [Quoted.text?] at hs
  split_ifs at hs
  obtain rfl := Option.some.inj hs
  simp only [List.length_reverse, List.length_cons]
  omega

theorem length_chars_pushUnit (q : Quoted) (unit : Nat) :
    (q.pushUnit unit).chars.length ≤ q.chars.length + 1 := by
  rw [Quoted.pushUnit]
  split_ifs
  · split <;> simp
  · simp [Quoted.settle]
  · simp [Quoted.push]

/-- Reading with `read`, the texts are shorter than `n`. -/
def ReadsBelow (n : Nat) (read : Option (List Token)) : Prop :=
  ∀ ts, read = some ts → Below n ts

variable {t : Text} {read : Option (List Token)}

theorem ReadsBelow.mono (h : ReadsBelow n read) (hn : n ≤ m) : ReadsBelow m read :=
  fun ts hts => (h ts hts).mono hn

theorem ReadsBelow.cons (h : ReadsBelow n read) (ht : ∀ s ∈ token.texts, s.length < n) :
    ReadsBelow n (read.map (token :: ·)) := by
  intro ts hts
  obtain ⟨us, hus, rfl⟩ := Option.map_eq_some_iff.mp hts
  exact (h us hus).cons ht

theorem ReadsBelow.none : ReadsBelow n none :=
  fun ts h => absurd h (Option.some_ne_none ts).symm

theorem readsBelow_space (hc : isSpace c = true) (h : ReadsBelow t.length (scan t)) :
    ReadsBelow (c :: t).length (scan (c :: t)) := by
  rw [scan_space hc]
  exact h.mono (Nat.le_succ _)

theorem readsBelow_quote (h : ReadsBelow (({} : Quoted).chars.length + t.length) (scanQuoted {} t)) :
    ReadsBelow ('"' :: t).length (scan ('"' :: t)) := by
  rw [scan_quote]
  exact h.mono (by simp)

theorem readsBelow_mark (hc : mark? c = some token) (h : ReadsBelow t.length (scan t)) :
    ReadsBelow (c :: t).length (scan (c :: t)) := by
  rw [scan_mark hc]
  exact (h.mono (Nat.le_succ _)).cons (by simp [texts_of_mark? hc])

/-- Where a word ends, the texts are those behind it. -/
theorem readsBelow_end (hc : isWordChar c = false) (word : Text)
    (h : ReadsBelow (c :: t).length (scan (c :: t))) :
    ReadsBelow (c :: t).length (scanWord word (c :: t)) := by
  have hends : EndsWord (c :: t) := fun d hd => Option.some.inj hd ▸ hc
  rw [scanWord_end hends]
  intro ts hts
  obtain ⟨w, hw, hts⟩ := Option.bind_eq_some_iff.mp hts
  exact h.cons (by simp [texts_of_ofWord? hw]) ts hts

/-- A token takes up more of a text than it denotes. -/
theorem readsBelow :
    (∀ t, ReadsBelow t.length (scan t)) ∧ (∀ word t, ReadsBelow t.length (scanWord word t)) ∧
      ∀ q t, ReadsBelow (q.chars.length + t.length) (scanQuoted q t) := by
  apply scan.mutual_induct (fun t => ReadsBelow t.length (scan t))
    (fun word t => ReadsBelow t.length (scanWord word t))
    (fun q t => ReadsBelow (q.chars.length + t.length) (scanQuoted q t))
  case case1 =>
    intro ts h
    rw [scan] at h
    obtain rfl := Option.some.inj h
    exact .nil _
  case case2 =>
    intro c t hs ih
    exact readsBelow_space hs ih
  case case3 =>
    intro t _ ih
    exact readsBelow_quote ih
  case case4 =>
    intro c t _ _ m hm ih
    exact readsBelow_mark hm ih
  case case5 =>
    intro c t hs hq hm ih
    rw [scan_word (isWordChar_iff.mpr ⟨by simpa using hs, hq, hm⟩)]
    exact ih.mono (Nat.le_succ _)
  case case6 =>
    intro word ts h
    rw [scanWord] at h
    obtain ⟨w, hw, rfl⟩ := Option.map_eq_some_iff.mp h
    exact (Below.nil 0).cons (by simp [texts_of_ofWord? hw])
  case case7 =>
    intro word c t hs ih
    exact readsBelow_end (by simp [isWordChar, hs]) word (readsBelow_space hs ih)
  case case8 =>
    intro word t _ ih
    exact readsBelow_end (by decide) word (readsBelow_quote ih)
  case case9 =>
    intro word c t _ _ m hm ih
    exact readsBelow_end (by simp [isWordChar, hm]) word (readsBelow_mark hm ih)
  case case10 =>
    intro word c t hs hq hm ih
    rw [scanWord, if_neg hs, if_neg hq, hm]
    exact ih.mono (Nat.le_succ _)
  case case11 =>
    intro q
    rw [scanQuoted]
    exact .none
  case case12 =>
    intro q t ih
    rw [scanQuoted]
    refine (ih.mono ?_).cons fun s hs => length_text?_lt hs t
    rw [List.length_cons]
    omega
  case case13 =>
    intro q a b c d t unit hunit ih
    have hpush := length_chars_pushUnit q unit
    rw [scanQuoted, hunit]
    refine ih.mono ?_
    simp only [List.length_cons]
    omega
  case case14 =>
    intro q a b c d t hunit
    rw [scanQuoted, hunit]
    exact .none
  case case15 =>
    intro q c t hu e he ih
    rw [scanQuoted, he]
    · refine ih.mono ?_
      simp only [Quoted.push, List.length_cons]
      omega
    · exact hu
  case case16 =>
    intro q c t hu he
    rw [scanQuoted, he]
    · exact .none
    · exact hu
  case case17 =>
    intro q c t h₁ h₂ h₃ hc
    rw [scanQuoted, if_pos hc]
    · exact .none
    · exact h₁
    · exact h₂
    · exact h₃
  case case18 =>
    intro q c t h₁ h₂ h₃ hc ih
    rw [scanQuoted, if_neg hc]
    · refine ih.mono ?_
      simp only [Quoted.push, List.length_cons]
      omega
    · exact h₁
    · exact h₂
    · exact h₃

end Token

theorem exists_steps_of_ofText? {t : Text} {j : Json} (h : ofText? t = some j) :
    ∃ ts o, Token.scan t = some ts ∧ (Reader.value []).steps? ts = some (.done o) ∧
      o.value? Outline.depthLimit = some j := by
  obtain ⟨o, ho, hj⟩ := Option.bind_eq_some_iff.mp h
  rw [Outline.ofText?] at ho
  split at ho
  · exact absurd ho (Option.some_ne_none o).symm
  · next ts hts =>
    split at ho
    · next o' hsteps =>
      obtain rfl := Option.some.inj ho
      exact ⟨ts, o', hts, hsteps, hj⟩
    · exact absurd ho (Option.some_ne_none o).symm

/-- The texts in a value are shorter than the text it was read from. -/
theorem length_lt_of_ofText? {t s : Text} {j : Json} (h : ofText? t = some j) (hs : s ∈ j.texts) :
    s.length < t.length := by
  obtain ⟨ts, o, hts, hsteps, hj⟩ := exists_steps_of_ofText? h
  rw [Outline.texts_of_value? hj] at hs
  refine Token.readsBelow.1 t ts hts s ?_
  have htexts := Reader.texts_steps? hsteps hs
  rwa [Reader.texts, List.flatMap_nil, List.append_nil] at htexts

section Brackets

variable {t : Text} {ts : List Token} {token : Token} {c : Char} {j : Json}

def isContainer : Json → Bool
  | array _ => true
  | object _ => true
  | _ => false

def Token.opens : Token → Bool
  | .openArray => true
  | .openObject => true
  | _ => false

theorem opens_of_ofWord? {word : Text} (h : ofWord? word = some token) : token.opens = false := by
  obtain rfl | ⟨b, rfl⟩ | ⟨n, rfl⟩ := ofWord?_cases h <;> rfl

theorem opens_head?_scanWord {word : Text} (h : scanWord word t = some ts) :
    ∀ token ∈ ts.head?, token.opens = false := by
  induction t generalizing word with
  | nil =>
    rw [scanWord] at h
    obtain ⟨w, hw, rfl⟩ := Option.map_eq_some_iff.mp h
    exact fun token hm => Option.some.inj hm ▸ opens_of_ofWord? hw
  | cons c t ih =>
    by_cases hc : isWordChar c = true
    · obtain ⟨hs, hq, hm⟩ := isWordChar_iff.mp hc
      rw [scanWord, if_neg (by simp [hs]), if_neg hq, hm] at h
      exact ih h
    · have hends : EndsWord (c :: t) := fun d hd => by
        obtain rfl := Option.some.inj hd
        simpa using hc
      rw [scanWord_end hends] at h
      obtain ⟨w, hw, h⟩ := Option.bind_eq_some_iff.mp h
      obtain ⟨us, -, rfl⟩ := Option.map_eq_some_iff.mp h
      exact fun token hm => Option.some.inj hm ▸ opens_of_ofWord? hw

theorem opens_head?_scanQuoted {q : Quoted} (h : scanQuoted q t = some ts) :
    ∀ token ∈ ts.head?, token.opens = false := by
  induction hn : t.length using Nat.strongRecOn generalizing q t with
  | ind n ih =>
    subst hn
    unfold scanQuoted at h
    split at h
    · exact absurd h (Option.some_ne_none ts).symm
    · obtain ⟨us, -, rfl⟩ := Option.map_eq_some_iff.mp h
      exact fun token hm => Option.some.inj hm ▸ rfl
    · split at h
      · exact ih _ (by simp only [List.length_cons]; omega) h rfl
      · exact absurd h (Option.some_ne_none ts).symm
    · split at h
      · exact ih _ (by simp only [List.length_cons]; omega) h rfl
      · exact absurd h (Option.some_ne_none ts).symm
    · split_ifs at h
      exact ih _ (by simp only [List.length_cons]; omega) h rfl

theorem exists_opens_of_steps? {o : Outline} {room : Nat}
    (h : (Reader.value []).steps? ts = some (.done o)) (ho : o.value? room = some j)
    (hj : j.isContainer = true) : ∃ token ∈ ts.head?, token.opens = true := by
  rcases ts with _ | ⟨token, ts⟩
  · exact absurd (Option.some.inj h) nofun
  · refine ⟨token, rfl, ?_⟩
    have hdone : ∀ o' : Outline, (Reader.done o').steps? ts = some (.done o) → o' = o := by
      intro o' h'
      rcases ts with _ | ⟨next, ts⟩
      · exact Reader.done.inj (Option.some.inj h')
      · exact absurd h' (Option.some_ne_none _).symm
    cases token with
    | null | bool b =>
      obtain rfl := hdone _ h
      obtain rfl := Option.some.inj ho
      exact absurd hj Bool.false_ne_true
    | number n | string s =>
      obtain rfl := hdone _ h
      obtain ⟨v, -, rfl⟩ := Option.map_eq_some_iff.mp ho
      exact absurd hj Bool.false_ne_true
    | openArray | openObject => rfl
    | closeArray | closeObject | comma | colon => exact absurd h (Option.some_ne_none _).symm

theorem opens_of_mark? (h : mark? c = some token) (hc : ¬ (c = '[' ∨ c = '\x7b')) :
    token.opens = false := by
  unfold mark? at h
  split at h <;> cases h <;> first | rfl | exact absurd (by simp) hc

theorem exists_bracket_of_scan (h : scan t = some ts) (ht : ∃ token ∈ ts.head?, token.opens = true) :
    ∃ w c u, t = w ++ c :: u ∧ (∀ a ∈ w, isSpace a = true) ∧ (c = '[' ∨ c = '\x7b') := by
  have hnot : ¬ ∀ token ∈ ts.head?, token.opens = false := by
    intro hall
    obtain ⟨token, hm, hopens⟩ := ht
    rw [hall token hm] at hopens
    exact Bool.false_ne_true hopens
  induction t with
  | nil =>
    rw [scan] at h
    obtain rfl := Option.some.inj h
    exact absurd (fun token hm => absurd hm (by simp)) hnot
  | cons c t ih =>
    by_cases hs : isSpace c = true
    · rw [scan_space hs] at h
      obtain ⟨w, d, u, rfl, hw, hd⟩ := ih h
      exact ⟨c :: w, d, u, rfl, List.forall_mem_cons.mpr ⟨hs, hw⟩, hd⟩
    · by_cases hc : c = '[' ∨ c = '\x7b'
      · exact ⟨[], c, t, rfl, by simp, hc⟩
      · refine absurd ?_ hnot
        by_cases hq : c = '"'
        · subst hq
          rw [scan_quote] at h
          exact opens_head?_scanQuoted h
        · rcases hm : mark? c with _ | m
          · rw [scan_word (isWordChar_iff.mpr ⟨by simpa using hs, hq, hm⟩)] at h
            exact opens_head?_scanWord h
          · rw [scan_mark hm] at h
            obtain ⟨us, -, rfl⟩ := Option.map_eq_some_iff.mp h
            exact fun token hmem => Option.some.inj hmem ▸ opens_of_mark? hm hc

theorem exists_bracket_of_ofText? (h : ofText? t = some j) (hj : j.isContainer = true) :
    ∃ w c u, t = w ++ c :: u ∧ (∀ a ∈ w, isSpace a = true) ∧ (c = '[' ∨ c = '\x7b') := by
  obtain ⟨ts, o, hts, hsteps, ho⟩ := exists_steps_of_ofText? h
  exact exists_bracket_of_scan hts (exists_opens_of_steps? hsteps ho hj)

/-- White space in front of a text does not change what it denotes. -/
theorem ofText?_space_append {w : Text} (hw : ∀ a ∈ w, isSpace a = true) (t : Text) :
    ofText? (w ++ t) = ofText? t := by
  have hscan : scan (w ++ t) = scan t := by
    rw [SpellsApart.space hw]
    simp
  rw [ofText?, Outline.ofText?, hscan]
  rfl

end Brackets

end Restyle.Json
