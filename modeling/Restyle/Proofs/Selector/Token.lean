import Mathlib.Order.Bounds.Basic
import Restyle.Proofs.Text.Cut
import Restyle.Proofs.Text.Lines
import Restyle.Proofs.Text.Substitution
import Restyle.Selector.Nesting

/-! # Tokens in a selector

A token is a class or an id as a selector writes it. A text falls into tokens
and single characters from left to right; since no token begins inside
another, the search for a token and its replacement miss none that the text
mentions. The search finds the first occurrence at an offset or behind it, and
the replacement cuts the text at all of them.
-/

namespace Restyle

open Text Selector

/-- A class or an id as a selector writes it. -/
structure Token where
  sigil : Char
  name : Text
  sigil_eq : sigil = '.' ∨ sigil = '#'
  name_ne_nil : name ≠ []
  all_isNameChar : name.all isNameChar = true

namespace Token

def text (k : Token) : Text :=
  k.sigil :: k.name

/-- The token occurs in a text where its name goes on no further. -/
def Mentioned (k : Token) (t : Text) : Prop :=
  ∃ before rest, t = before ++ (k.text ++ rest) ∧ nameGoesOn rest = false

/-- The token occurs in a text behind a part of it, where its name goes on no further. -/
def OccursBehind (k : Token) (t before : Text) : Prop :=
  ∃ rest, t = before ++ (k.text ++ rest) ∧ nameGoesOn rest = false

def OccursAt (k : Token) (t : Text) (n : Nat) : Prop :=
  ∃ before, k.OccursBehind t before ∧ before.byteSize = n

/-- The texts in front of the places where pieces are joined by a token. -/
inductive Seam (token : Text) : List Text → Text → Prop
  | first (piece : Text) {pieces : List Text} (h : pieces ≠ []) : Seam token (piece :: pieces) piece
  | later (piece : Text) {pieces : List Text} {before : Text} (h : Seam token pieces before) :
      Seam token (piece :: pieces) (piece ++ (token ++ before))

variable {k : Token} {t before rest : Text} {c : Char}

theorem text_ne_nil (k : Token) : k.text ≠ [] :=
  List.cons_ne_nil _ _

theorem isNameChar_of_mem (k : Token) (h : c ∈ k.name) : isNameChar c = true :=
  List.all_eq_true.mp k.all_isNameChar c h

theorem isNameChar_sigil (k : Token) : isNameChar k.sigil = false := by
  rcases k.sigil_eq with h | h <;> rw [h] <;> decide

theorem sigil_notMem_name (k : Token) : k.sigil ∉ k.name := by
  intro h
  have hs := k.isNameChar_of_mem h
  rw [k.isNameChar_sigil] at hs
  exact Bool.false_ne_true hs

/-- A text is empty, begins with the token, or begins with another character. -/
theorem induction (k : Token) {P : Text → Prop} (nil : P [])
    (token : ∀ rest, P rest → P (k.text ++ rest))
    (char : ∀ c t, dropStart? (c :: t) k.text = none → P t → P (c :: t)) (t : Text) : P t := by
  induction hn : t.length using Nat.strongRecOn generalizing t with
  | ind n ih =>
    cases t with
    | nil => exact nil
    | cons c t =>
      cases h : dropStart? (c :: t) k.text with
      | none => exact char c t h (ih t.length (by simp [← hn]) t rfl)
      | some rest =>
        rw [dropStart?_eq_some.mp h] at hn ⊢
        refine token rest (ih rest.length ?_ rest rfl)
        simp only [← hn, text, List.length_append, List.length_cons]
        omega

theorem not_occursBehind_nil (k : Token) (before : Text) : ¬ k.OccursBehind [] before := by
  rintro ⟨rest, h, -⟩
  simp [text] at h

theorem occursBehind_cons (h : dropStart? (c :: t) k.text = none) :
    k.OccursBehind (c :: t) before ↔ ∃ u, before = c :: u ∧ k.OccursBehind t u := by
  constructor
  · rintro ⟨rest, he, hr⟩
    cases before with
    | nil => exact absurd he (dropStart?_eq_none.mp h rest)
    | cons b u =>
      obtain ⟨rfl, ht⟩ := List.cons.inj he
      exact ⟨u, rfl, rest, ht, hr⟩
  · rintro ⟨u, rfl, rest, rfl, hr⟩
    exact ⟨rest, rfl, hr⟩

/-- No occurrence begins inside the token, so a longer name hides none. -/
theorem occursBehind_text_append : k.OccursBehind (k.text ++ rest) before ↔
    (before = [] ∧ nameGoesOn rest = false) ∨ ∃ u, before = k.text ++ u ∧ k.OccursBehind rest u := by
  constructor
  · rintro ⟨r, he, hr⟩
    rcases List.append_eq_append_iff.mp he with ⟨u, rfl, hrest⟩ | ⟨u, hu, he⟩
    · exact .inr ⟨u, rfl, r, hrest, hr⟩
    · cases before with
      | nil =>
        obtain rfl : u = k.text := hu.symm
        obtain rfl := List.append_cancel_left he
        exact .inl ⟨rfl, hr⟩
      | cons b before =>
        cases u with
        | nil => exact .inr ⟨[], by simpa using hu.symm, r, by simpa using he.symm, hr⟩
        | cons d u =>
          obtain ⟨rfl, -⟩ := List.cons.inj he
          obtain ⟨-, hname⟩ := List.cons.inj hu
          exact absurd (hname ▸ by simp) k.sigil_notMem_name
  · rintro (⟨rfl, hr⟩ | ⟨u, rfl, r, rfl, hr⟩)
    · exact ⟨rest, rfl, hr⟩
    · exact ⟨r, by simp, hr⟩

theorem not_mentioned_nil (k : Token) : ¬ k.Mentioned [] := by
  rintro ⟨before, h⟩
  exact k.not_occursBehind_nil before h

theorem mentioned_cons (h : dropStart? (c :: t) k.text = none) :
    k.Mentioned (c :: t) ↔ k.Mentioned t := by
  constructor
  · rintro ⟨before, hb⟩
    obtain ⟨u, -, hu⟩ := (occursBehind_cons h).mp hb
    exact ⟨u, hu⟩
  · rintro ⟨u, hu⟩
    exact ⟨c :: u, (occursBehind_cons h).mpr ⟨u, rfl, hu⟩⟩

theorem Mentioned.append (h : k.Mentioned t) (before : Text) : k.Mentioned (before ++ t) := by
  obtain ⟨b, rest, rfl, hr⟩ := h
  exact ⟨before ++ b, rest, by rw [List.append_assoc], hr⟩

theorem mentioned_append (h : k.sigil ∉ before) :
    k.Mentioned (before ++ t) ↔ k.Mentioned t := by
  induction before with
  | nil => rfl
  | cons b before ih =>
    rw [List.mem_cons, not_or] at h
    rw [List.cons_append, mentioned_cons, ih h.2]
    exact dropStart?_eq_none.mpr fun rest he => h.1 (List.cons.inj he).1.symm

theorem mentioned_text_append (k : Token) (rest : Text) :
    k.Mentioned (k.text ++ rest) ↔ nameGoesOn rest = false ∨ k.Mentioned rest := by
  constructor
  · rintro ⟨before, hb⟩
    rcases occursBehind_text_append.mp hb with ⟨-, hr⟩ | ⟨u, -, hu⟩
    · exact .inl hr
    · exact .inr ⟨u, hu⟩
  · rintro (hr | ⟨u, hu⟩)
    · exact ⟨[], occursBehind_text_append.mpr (.inl ⟨rfl, hr⟩)⟩
    · exact ⟨k.text ++ u, occursBehind_text_append.mpr (.inr ⟨u, rfl, hu⟩)⟩

theorem cutTokenFrom?_length (token t u : Text) :
    cutTokenFrom? token t.length (t ++ u) =
      (cutTokenFrom? token 0 u).map fun (l, r) => (t ++ l, r) := by
  induction t with
  | nil => simp
  | cons c t ih => simp [cutTokenFrom?, ih, Function.comp_def]

theorem cutToken?_nil (k : Token) : cutToken? [] k.text = none := rfl

theorem cutToken?_cons (h : dropStart? (c :: t) k.text = none) :
    cutToken? (c :: t) k.text = (cutToken? t k.text).map fun (l, r) => (c :: l, r) := by
  have he : k.text.isEmpty = false := rfl
  simp [cutToken?, cutTokenFrom?, h, he]

theorem cutToken?_text_append (k : Token) (rest : Text) :
    cutToken? (k.text ++ rest) k.text =
      if nameGoesOn rest then (cutToken? rest k.text).map fun (l, r) => (k.text ++ l, r)
      else some ([], rest) := by
  have hd : dropStart? (k.sigil :: (k.name ++ rest)) k.text = some rest :=
    dropStart?_append k.text rest
  have hlen : k.text.length - 1 = k.name.length := rfl
  have he : k.text.isEmpty = false := rfl
  have ht : k.text ++ rest = k.sigil :: (k.name ++ rest) := rfl
  rw [ht, cutToken?, he, if_neg Bool.false_ne_true, cutTokenFrom?]
  simp only [hd, hlen, cutTokenFrom?_length, cutToken?, he, Bool.false_eq_true, if_false]
  split
  · rw [Option.map_map]
    rfl
  · rfl

theorem isSome_cutToken?_iff (k : Token) (t : Text) :
    (cutToken? t k.text).isSome ↔ k.Mentioned t := by
  induction t using k.induction with
  | nil => simp [cutToken?_nil, k.not_mentioned_nil]
  | token rest ih =>
    rw [cutToken?_text_append, mentioned_text_append]
    cases h : nameGoesOn rest with
    | false => simp
    | true => simp [ih]
  | char c t h ih => rw [cutToken?_cons h, mentioned_cons h, Option.isSome_map, ih]

instance (k : Token) (t : Text) : Decidable (k.Mentioned t) :=
  decidable_of_iff _ (k.isSome_cutToken?_iff t)

theorem isSome_relativeTo?_iff (k : Token) (t : Text) :
    (relativeTo? t k.text).isSome ↔ k.Mentioned t := by
  rw [← isSome_cutToken?_iff, relativeTo?]
  rcases cutToken? t k.text with _ | ⟨_ | _, _⟩ <;> rfl

def relative (k : Token) (selector : Text) : Text :=
  (relativeTo? selector k.text).getD selector

theorem filterMap_relativeTo? (k : Token) (selectors : List Text) :
    selectors.filterMap (relativeTo? · k.text) =
      (selectors.filter fun s => k.Mentioned s).map k.relative := by
  induction selectors with
  | nil => rfl
  | cons s selectors ih =>
    by_cases h : k.Mentioned s
    · obtain ⟨r, hr⟩ := Option.isSome_iff_exists.mp ((k.isSome_relativeTo?_iff s).mpr h)
      simp [h, hr, relative, ih]
    · have hr : relativeTo? s k.text = none := by
        rw [← Option.not_isSome_iff_eq_none, isSome_relativeTo?_iff]
        exact h
      simp [h, hr, ih]

theorem forward_token (token new : Text) : (Selector.token token new).Forward :=
  fun _ _ => rfl

@[simp] theorem replaceToken_nil (token new : Text) : replaceToken [] token new = [] := rfl

theorem replaceToken_cons (h : dropStart? (c :: t) k.text = none) (new : Text) :
    replaceToken (c :: t) k.text new = c :: replaceToken t k.text new := by
  refine substitute_cons (forward_token _ _) ?_
  simp [Selector.token, h]

theorem replaceToken_text_append (k : Token) (rest new : Text) :
    replaceToken (k.text ++ rest) k.text new =
      (if nameGoesOn rest then k.text else new) ++ replaceToken rest k.text new := by
  refine substitute_append (forward_token _ _) k.text_ne_nil ?_
  simp [Selector.token, text_ne_nil]

theorem occursBehind_of_cutToken? (h : cutToken? t k.text = some (before, rest)) :
    k.OccursBehind t before ∧ ∀ u, k.OccursBehind t u → before <+: u := by
  induction t using k.induction generalizing before rest with
  | nil => simp [cutToken?_nil] at h
  | token r ih =>
    rw [cutToken?_text_append] at h
    split_ifs at h with hname
    · obtain ⟨⟨l, r'⟩, hl, he⟩ := Option.map_eq_some_iff.mp h
      obtain ⟨rfl, rfl⟩ := Prod.mk.inj he
      obtain ⟨hbehind, hfirst⟩ := ih hl
      refine ⟨occursBehind_text_append.mpr (.inr ⟨l, rfl, hbehind⟩), fun u hu => ?_⟩
      rcases occursBehind_text_append.mp hu with ⟨-, hstop⟩ | ⟨v, rfl, hv⟩
      · simp [hname] at hstop
      · exact (List.prefix_append_right_inj _).mpr (hfirst v hv)
    · obtain ⟨rfl, rfl⟩ := Prod.mk.inj (Option.some.inj h)
      exact ⟨occursBehind_text_append.mpr (.inl ⟨rfl, by simpa using hname⟩), fun u _ => List.nil_prefix⟩
  | char c t hc ih =>
    rw [cutToken?_cons hc] at h
    obtain ⟨⟨l, r'⟩, hl, he⟩ := Option.map_eq_some_iff.mp h
    obtain ⟨rfl, rfl⟩ := Prod.mk.inj he
    obtain ⟨hbehind, hfirst⟩ := ih hl
    refine ⟨(occursBehind_cons hc).mpr ⟨l, rfl, hbehind⟩, fun u hu => ?_⟩
    obtain ⟨v, rfl, hv⟩ := (occursBehind_cons hc).mp hu
    exact List.cons_prefix_cons.mpr ⟨rfl, hfirst v hv⟩

theorem occursAt_append_iff (k : Token) (before rest : Text) (n : Nat) :
    before.byteSize ≤ n ∧ k.OccursAt (before ++ rest) n ↔
      ∃ u, k.OccursBehind rest u ∧ before.byteSize + u.byteSize = n := by
  constructor
  · rintro ⟨hle, v, ⟨r, he, hr⟩, rfl⟩
    obtain ⟨x, rfl, rfl⟩ := prefix_of_byteSize_le he hle
    exact ⟨x, ⟨r, rfl, hr⟩, (byteSize_append before x).symm⟩
  · rintro ⟨u, ⟨r, rfl, hr⟩, rfl⟩
    exact ⟨Nat.le_add_right _ _, before ++ u, ⟨r, by simp, hr⟩, byteSize_append before u⟩

theorem findToken?_append (k : Token) (before rest : Text) :
    findToken? (before ++ rest) k.text before.byteSize =
      (cutToken? rest k.text).map fun cut => before.byteSize + cut.1.byteSize := by
  rw [findToken?, dropBytes?_byteSize, Option.bind_some]

theorem isLeast_of_findToken? {n : Nat}
    (h : findToken? (before ++ rest) k.text before.byteSize = some n) :
    IsLeast {m | before.byteSize ≤ m ∧ k.OccursAt (before ++ rest) m} n := by
  rw [findToken?_append] at h
  obtain ⟨⟨l, r⟩, hcut, rfl⟩ := Option.map_eq_some_iff.mp h
  obtain ⟨hbehind, hfirst⟩ := occursBehind_of_cutToken? hcut
  constructor
  · exact (occursAt_append_iff k before rest _).mpr ⟨l, hbehind, rfl⟩
  · intro m hm
    obtain ⟨u, hu, rfl⟩ := (occursAt_append_iff k before rest m).mp hm
    obtain ⟨v, rfl⟩ := hfirst u hu
    simp only [byteSize_append]
    omega

theorem findToken?_eq_none_iff (k : Token) (before rest : Text) :
    findToken? (before ++ rest) k.text before.byteSize = none ↔
      ∀ n, before.byteSize ≤ n → ¬ k.OccursAt (before ++ rest) n := by
  rw [findToken?_append, Option.map_eq_none_iff, ← Option.not_isSome_iff_eq_none,
    isSome_cutToken?_iff]
  constructor
  · intro h n hle hn
    obtain ⟨u, ⟨r, hr⟩, -⟩ := (occursAt_append_iff k before rest n).mp ⟨hle, hn⟩
    exact h ⟨u, r, hr⟩
  · rintro h ⟨u, r, hr⟩
    obtain ⟨hle, hn⟩ := (occursAt_append_iff k before rest _).mpr ⟨u, ⟨r, hr⟩, rfl⟩
    exact h _ hle hn

/-- The search finds the first occurrence that begins at the offset or behind it. -/
theorem findToken?_eq_some_iff (k : Token) (before rest : Text) (n : Nat) :
    findToken? (before ++ rest) k.text before.byteSize = some n ↔
      IsLeast {m | before.byteSize ≤ m ∧ k.OccursAt (before ++ rest) m} n := by
  refine ⟨isLeast_of_findToken?, fun h => ?_⟩
  cases hfind : findToken? (before ++ rest) k.text before.byteSize with
  | none => exact absurd h.1.2 ((findToken?_eq_none_iff k before rest).mp hfind n h.1.1)
  | some m => rw [(isLeast_of_findToken? hfind).unique h]

variable {token piece u : Text} {pieces : List Text}

theorem not_seam_singleton (token piece before : Text) : ¬ Seam token [piece] before := by
  rintro (⟨_, h⟩ | ⟨_, h⟩)
  · exact h rfl
  · cases h

theorem seam_append_cons :
    Seam token ((u ++ piece) :: pieces) before ↔
      ∃ v, before = u ++ v ∧ Seam token (piece :: pieces) v := by
  constructor
  · rintro (⟨_, h⟩ | ⟨_, h⟩)
    · exact ⟨piece, rfl, .first piece h⟩
    · exact ⟨_, List.append_assoc _ _ _, .later piece h⟩
  · rintro ⟨v, rfl, ⟨_, h⟩ | ⟨_, h⟩⟩
    · exact .first _ h
    · rw [← List.append_assoc]
      exact .later _ h

theorem seam_nil_cons (h : pieces ≠ []) :
    Seam token ([] :: pieces) before ↔
      before = [] ∨ ∃ v, before = token ++ v ∧ Seam token pieces v := by
  constructor
  · rintro (_ | ⟨_, hv⟩)
    · exact .inl rfl
    · exact .inr ⟨_, rfl, hv⟩
  · rintro (rfl | ⟨v, rfl, hv⟩)
    · exact .first [] h
    · exact .later [] hv

/-- A text is cut at the occurrences of a token, and a replacement joins the pieces again. -/
theorem exists_pieces (k : Token) (t : Text) : ∃ piece pieces, t = join k.text (piece :: pieces) ∧
    (∀ new, replaceToken t k.text new = join new (piece :: pieces)) ∧
    ∀ before, k.OccursBehind t before ↔ Seam k.text (piece :: pieces) before := by
  induction t using k.induction with
  | nil =>
    exact ⟨[], [], rfl, fun _ => rfl, fun before =>
      iff_of_false (k.not_occursBehind_nil before) (not_seam_singleton _ _ _)⟩
  | token rest ih =>
    obtain ⟨piece, pieces, hrest, hreplace, hseam⟩ := ih
    by_cases hname : nameGoesOn rest = true
    · refine ⟨k.text ++ piece, pieces, ?_, fun new => ?_, fun before => ?_⟩
      · rw [join_append_cons, ← hrest]
      · rw [replaceToken_text_append, if_pos hname, hreplace, join_append_cons]
      · rw [occursBehind_text_append, seam_append_cons]
        simp [hname, hseam]
    · refine ⟨[], piece :: pieces, ?_, fun new => ?_, fun before => ?_⟩
      · rw [join_cons_cons, ← hrest, List.nil_append]
      · rw [replaceToken_text_append, if_neg hname, hreplace, join_cons_cons, List.nil_append]
      · rw [occursBehind_text_append, seam_nil_cons (List.cons_ne_nil _ _)]
        simp [hname, hseam]
  | char c t hc ih =>
    obtain ⟨piece, pieces, ht, hreplace, hseam⟩ := ih
    refine ⟨[c] ++ piece, pieces, ?_, fun new => ?_, fun before => ?_⟩
    · rw [join_append_cons, ← ht, List.singleton_append]
    · rw [replaceToken_cons hc, hreplace, join_append_cons, List.singleton_append]
    · rw [occursBehind_cons hc, seam_append_cons]
      simp [hseam]

theorem occursAt_iff (k : Token) (t : Text) (n : Nat) :
    k.OccursAt t n ↔ ∃ rest, t.dropBytes? n = some (k.text ++ rest) ∧
      t.dropBytes? (n + k.text.byteSize) = some rest ∧ nameGoesOn rest = false := by
  constructor
  · rintro ⟨before, ⟨rest, rfl, hr⟩, rfl⟩
    refine ⟨rest, dropBytes?_byteSize _ _, ?_, hr⟩
    rw [← byteSize_append, ← List.append_assoc, dropBytes?_byteSize]
  · rintro ⟨rest, h, -, hr⟩
    obtain ⟨before, rfl, hsize⟩ := dropBytes?_eq_some_iff.mp h
    exact ⟨before, ⟨rest, rfl, hr⟩, hsize⟩

/-- From any place between two characters of a text the search finds the first occurrence of a token
there or behind it, or none if there is none. It lies between characters, as what is behind it does.
A replacement writes the pieces of the text between all occurrences, with the new text in place of
each. -/
theorem findToken?_and_replaceToken_exact (k : Token) (before rest : Text) :
    (∀ n, findToken? (before ++ rest) k.text before.byteSize = some n ↔
      IsLeast {m | before.byteSize ≤ m ∧ k.OccursAt (before ++ rest) m} n) ∧
    (findToken? (before ++ rest) k.text before.byteSize = none ↔
      ∀ n, before.byteSize ≤ n → ¬ k.OccursAt (before ++ rest) n) ∧
    (∀ n, k.OccursAt (before ++ rest) n ↔
      ∃ u, dropBytes? n (before ++ rest) = some (k.text ++ u) ∧
        dropBytes? (n + byteSize k.text) (before ++ rest) = some u ∧ nameGoesOn u = false) ∧
    ∃ piece pieces, before ++ rest = join k.text (piece :: pieces) ∧
      (∀ u, k.OccursBehind (before ++ rest) u ↔ Seam k.text (piece :: pieces) u) ∧
      ∀ new, replaceToken (before ++ rest) k.text new = join new (piece :: pieces) := by
  obtain ⟨piece, pieces, ht, hreplace, hseam⟩ := k.exists_pieces (before ++ rest)
  exact ⟨k.findToken?_eq_some_iff before rest, k.findToken?_eq_none_iff before rest,
    k.occursAt_iff (before ++ rest), piece, pieces, ht, hseam, hreplace⟩

end Token

end Restyle
