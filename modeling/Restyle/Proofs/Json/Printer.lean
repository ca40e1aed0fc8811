import Mathlib.Data.List.Forall2
import Restyle.Json.Printer
import Restyle.Json.Token
import Restyle.Proofs.Json.Number
import Restyle.Proofs.Text.Lines

/-! # Tokens of a written value

A value that is written on several lines is read again as its own tokens. A
word is read as far as it goes, so what follows a value must not go on with it;
marks, quoted texts and white space end where they end.
-/

namespace Restyle.Json

open Token

def isWordChar (c : Char) : Bool :=
  !(isSpace c || c == '"' || (mark? c).isSome)

def EndsWord (t : Text) : Prop :=
  ∀ c ∈ t.head?, isWordChar c = false

/-- A text is read as tokens, if no word goes on behind it. -/
def Spells (t : Text) (ts : List Token) : Prop :=
  ∀ rest, EndsWord rest → scan (t ++ rest) = (scan rest).map (ts ++ ·)

/-- A text is read as tokens, whatever stands behind it. -/
def SpellsApart (t : Text) (ts : List Token) : Prop :=
  ∀ rest, scan (t ++ rest) = (scan rest).map (ts ++ ·)

mutual

def tokens : Json → List Token
  | null => [.null]
  | bool b => [.bool b]
  | number n => [.number (some n)]
  | string t => [.string (some t)]
  | array items => .openArray :: [Token.comma].intercalate (itemTokens items) ++ [.closeArray]
  | object entries =>
    .openObject :: [Token.comma].intercalate (entryTokens entries) ++ [.closeObject]

def itemTokens : List Json → List (List Token)
  | [] => []
  | j :: items => j.tokens :: itemTokens items

def entryTokens : List (Text × Json) → List (List Token)
  | [] => []
  | (k, j) :: entries => (.string (some k) :: .colon :: j.tokens) :: entryTokens entries

end

mutual

/-- Every number is an integer of 64 bits, and at most `room` containers lie inside each other. -/
def Exact (room : Nat) : Json → Prop
  | number (.integer n) => Number.fits n = true
  | number (.real _) => False
  | array items => 0 < room ∧ ExactItems (room - 1) items
  | object entries => 0 < room ∧ ExactEntries (room - 1) entries
  | _ => True

def ExactItems (room : Nat) : List Json → Prop
  | [] => True
  | j :: items => Exact room j ∧ ExactItems room items

def ExactEntries (room : Nat) : List (Text × Json) → Prop
  | [] => True
  | (_, j) :: entries => Exact room j ∧ ExactEntries room entries

end

variable {t u rest : Text} {ts us : List Token} {c : Char} {m : Token}

theorem scan_space (h : isSpace c = true) (t : Text) : scan (c :: t) = scan t := by
  rw [scan, if_pos h]

theorem scan_quote (t : Text) : scan ('"' :: t) = scanQuoted {} t := by
  rw [scan, if_neg (by decide), if_pos rfl]

theorem scan_mark (h : mark? c = some m) (t : Text) : scan (c :: t) = (scan t).map (m :: ·) := by
  have hs : isSpace c = false := by
    by_contra hs
    simp only [isSpace, Bool.not_eq_false, Bool.or_eq_true, beq_iff_eq] at hs
    rcases hs with ((rfl | rfl) | rfl) | rfl <;> simp [mark?] at h
  have hq : c ≠ '"' := by
    rintro rfl
    simp [mark?] at h
  rw [scan, if_neg (by simp [hs]), if_neg hq, h]

theorem isWordChar_iff :
    isWordChar c = true ↔ isSpace c = false ∧ c ≠ '"' ∧ mark? c = none := by
  simp [isWordChar, and_assoc]

theorem scan_word (h : isWordChar c = true) (t : Text) : scan (c :: t) = scanWord [c] t := by
  obtain ⟨hs, hq, hm⟩ := isWordChar_iff.mp h
  rw [scan, if_neg (by simp [hs]), if_neg hq, hm]

theorem scanWord_append (h : ∀ c ∈ t, isWordChar c = true) (seen rest : Text) :
    scanWord seen (t ++ rest) = scanWord (t.reverse ++ seen) rest := by
  induction t generalizing seen with
  | nil => rfl
  | cons c t ih =>
    obtain ⟨hc, ht⟩ := List.forall_mem_cons.mp h
    obtain ⟨hs, hq, hm⟩ := isWordChar_iff.mp hc
    rw [List.cons_append, scanWord, if_neg (by simp [hs]), if_neg hq, hm]
    simp [ih ht]

theorem scanWord_end (h : EndsWord rest) (seen : Text) :
    scanWord seen rest = (ofWord? seen.reverse).bind fun w => (scan rest).map (w :: ·) := by
  rcases rest with _ | ⟨c, rest⟩
  · rw [scanWord, scan]
    cases ofWord? seen.reverse <;> rfl
  · have hc := h c rfl
    rw [scanWord]
    by_cases hs : isSpace c = true
    · rw [if_pos hs, scan_space hs]
      cases ofWord? seen.reverse <;> cases scan rest <;> rfl
    · rw [if_neg hs]
      by_cases hq : c = '"'
      · subst hq
        rw [if_pos rfl, scan_quote]
        cases ofWord? seen.reverse <;> cases scanQuoted {} rest <;> rfl
      · obtain ⟨m, hm⟩ : ∃ m, mark? c = some m := by
          simpa [isWordChar, hs, hq, Option.isSome_iff_exists] using hc
        rw [if_neg hq, hm, scan_mark hm]
        cases ofWord? seen.reverse <;> cases scan rest <;> rfl

theorem EndsWord.append (ht : EndsWord t) (hrest : EndsWord rest) : EndsWord (t ++ rest) := by
  rcases t with _ | ⟨c, t⟩
  · exact hrest
  · exact ht

namespace SpellsApart

theorem spells (h : SpellsApart t ts) : Spells t ts :=
  fun rest _ => h rest

theorem append_spells (ht : SpellsApart t ts) (hu : Spells u us) : Spells (t ++ u) (ts ++ us) := by
  intro rest hrest
  rw [List.append_assoc, ht, hu rest hrest, Option.map_map]
  simp [Function.comp_def]

theorem append (ht : SpellsApart t ts) (hu : SpellsApart u us) :
    SpellsApart (t ++ u) (ts ++ us) := by
  intro rest
  rw [List.append_assoc, ht, hu, Option.map_map]
  simp [Function.comp_def]

theorem space (h : ∀ c ∈ t, isSpace c = true) : SpellsApart t [] := by
  intro rest
  induction t with
  | nil => simp
  | cons c t ih =>
    obtain ⟨hc, ht⟩ := List.forall_mem_cons.mp h
    rw [List.cons_append, scan_space hc, ih ht]

theorem mark (h : mark? c = some m) : SpellsApart [c] [m] :=
  fun rest => scan_mark h rest

theorem margin (level : Nat) : SpellsApart (margin level) [] :=
  space fun c hc => by
    rw [List.eq_of_mem_replicate hc]
    rfl

end SpellsApart

namespace Spells

theorem append (ht : Spells t ts) (hu : Spells u us) (h : EndsWord u) :
    Spells (t ++ u) (ts ++ us) := by
  intro rest hrest
  rw [List.append_assoc, ht _ (h.append hrest), hu rest hrest, Option.map_map]
  simp [Function.comp_def]

theorem append_apart (ht : Spells t ts) (hu : SpellsApart u us) (h : EndsWord u) (hne : u ≠ []) :
    SpellsApart (t ++ u) (ts ++ us) := by
  intro rest
  have hends : EndsWord (u ++ rest) := by
    intro c hc
    rw [List.head?_append_of_ne_nil _ hne] at hc
    exact h c hc
  rw [List.append_assoc, ht _ hends, hu, Option.map_map]
  simp [Function.comp_def]

theorem word (hne : t ≠ []) (h : t.all isWordChar = true) (hw : ofWord? t = some m) :
    Spells t [m] := by
  intro rest hrest
  obtain ⟨c, t, rfl⟩ := List.exists_cons_of_ne_nil hne
  obtain ⟨hc, ht⟩ := List.forall_mem_cons.mp (List.all_eq_true.mp h)
  have hseen : (t.reverse ++ [c]).reverse = c :: t := by simp
  rw [List.cons_append, scan_word hc, scanWord_append ht, scanWord_end hrest, hseen, hw]
  rfl

end Spells

theorem hexValue?_hexDigit : ∀ n < 16, hexValue? (hexDigit n) = some n := by
  decide

theorem unit?_control {n : Nat} (h : n < 0x20) :
    unit? '0' '0' (hexDigit (n / 16)) (hexDigit (n % 16)) = some n := by
  have hzero : hexValue? '0' = some 0 := rfl
  have hhigh := hexValue?_hexDigit (n / 16) (by omega)
  have hlow := hexValue?_hexDigit (n % 16) (by omega)
  simp only [unit?, hzero, hhigh, hlow, Option.bind_eq_bind, Option.bind_some, Option.pure_def,
    Option.some.injEq]
  omega

theorem pushUnit_control (seen : Text) {n : Nat} (h : n < 0x20) :
    Quoted.pushUnit ⟨seen, none, true⟩ n = ⟨Char.ofNat n :: seen, none, true⟩ := by
  have hleading : isLeading n = false := by simp [isLeading]; omega
  have htrailing : isTrailing n = false := by simp [isTrailing]; omega
  rw [Quoted.pushUnit, htrailing, hleading]
  rfl

theorem scanQuoted_escape (seen : Text) (c : Char) (rest : Text) :
    scanQuoted ⟨seen, none, true⟩ (escape c ++ rest) =
      scanQuoted ⟨c :: seen, none, true⟩ rest := by
  unfold escape
  split
  case h_8 hquote hshield _ _ _ _ _ =>
    by_cases hc : c.toNat < 0x20
    · have hpush := pushUnit_control seen hc
      rw [Char.ofNat_toNat] at hpush
      rw [if_pos hc]
      show scanQuoted _ ('\\' :: 'u' :: '0' :: '0' :: hexDigit (c.toNat / 16) ::
        hexDigit (c.toNat % 16) :: rest) = _
      rw [scanQuoted, unit?_control hc]
      exact congrArg (scanQuoted · rest) hpush
    · rw [if_neg hc, List.singleton_append]
      rw [scanQuoted, if_neg hc]
      · rfl
      · exact hquote
      · exact fun _ _ _ _ _ hb => absurd hb hshield
      · exact fun _ _ hb => absurd hb hshield
  all_goals simp [scanQuoted, unescape?, Quoted.push, Quoted.settle]

theorem scanQuoted_escaped (seen t rest : Text) :
    scanQuoted ⟨seen, none, true⟩ (t.flatMap escape ++ '"' :: rest) =
      (scan rest).map (Token.string (some (seen.reverse ++ t)) :: ·) := by
  induction t generalizing seen with
  | nil =>
    rw [List.flatMap_nil, List.nil_append, scanQuoted, List.append_nil]
    rfl
  | cons c t ih =>
    rw [List.flatMap_cons, List.append_assoc, scanQuoted_escape, ih]
    simp

theorem spellsApart_quote (t : Text) : SpellsApart (quote t) [.string (some t)] := by
  intro rest
  calc scan (quote t ++ rest)
    _ = scan ('"' :: (t.flatMap escape ++ '"' :: rest)) := by simp [quote]
    _ = (scan rest).map ([Token.string (some t)] ++ ·) := by
      rw [scan_quote]
      exact scanQuoted_escaped [] t rest

theorem isWordChar_of_isDigit (h : c.isDigit = true) : isWordChar c = true := by
  have hall : ∀ n < 58, 48 ≤ n → isWordChar (Char.ofNat n) = true := by decide
  have hc : 48 ≤ c.toNat ∧ c.toNat ≤ 57 := by
    simpa [Char.isDigit, UInt32.le_iff_toNat_le] using h
  rw [← Char.ofNat_toNat c]
  exact hall c.toNat (by omega) hc.1

theorem spells_integer {n : Int} (h : Number.fits n = true) :
    Spells (Number.integer n).toText [.number (some (.integer n))] := by
  have hmem := fun c => Number.eq_minus_or_isDigit_of_mem (n := n) (c := c)
  have hchars : ∀ c ∈ (Number.integer n).toText, isWordChar c = true := by
    intro c hc
    rcases hmem c hc with rfl | hc
    · rfl
    · exact isWordChar_of_isDigit hc
  have hname : ∀ name : Text, (∃ c ∈ name, c ≠ '-' ∧ c.isDigit = false) →
      (Number.integer n).toText ≠ name := by
    rintro name ⟨c, hc, hne, hdigit⟩ rfl
    rcases hmem c hc with rfl | hc
    · exact hne rfl
    · rw [hc] at hdigit
      exact Bool.false_ne_true hdigit.symm
  refine .word Number.toText_ne_nil (List.all_eq_true.mpr hchars) ?_
  rw [ofWord?, if_neg (hname "null" ⟨'n', List.mem_cons_self, by decide, rfl⟩),
    if_neg (hname "true" ⟨'t', List.mem_cons_self, by decide, rfl⟩),
    if_neg (hname "false" ⟨'f', List.mem_cons_self, by decide, rfl⟩), Number.ofWord?_toText h,
    Option.map_some]

theorem spells_separated {space : Text} {parts : List Text} {tss : List (List Token)}
    (hcomma : SpellsApart (',' :: space) [.comma]) (h : List.Forall₂ Spells parts tss) :
    Spells (Text.join (',' :: space) parts) ([Token.comma].intercalate tss) := by
  induction h with
  | nil => exact (SpellsApart.space (t := []) (by simp)).spells
  | @cons part ts parts tss hpart hparts ih =>
    cases hparts with
    | nil => simpa [Text.join, List.intercalate] using hpart
    | cons hnext hrest =>
      have hends : ∀ t : Text, EndsWord (',' :: space ++ t) := fun t c hc => by
        obtain rfl : ',' = c := by simpa using hc
        rfl
      have hall := hpart.append (hcomma.append_spells ih) (hends _)
      rw [Text.join_cons_cons, List.intercalate_cons_cons]
      simpa using hall

theorem spells_join {lines : List Text} {tss : List (List Token)} (level : Nat)
    (h : List.Forall₂ Spells lines tss) :
    Spells (Text.join ",\n" (lines.map (margin level ++ ·))) ([Token.comma].intercalate tss) := by
  have hcomma : SpellsApart (",\n" : Text) [.comma] :=
    (SpellsApart.mark (c := ',') rfl).append (.space (t := ['\n']) (by simp [isSpace]))
  refine spells_separated hcomma (List.forall₂_map_left_iff.mpr (h.imp fun line ts hline => ?_))
  exact (SpellsApart.margin level).append_spells hline

theorem spellsApart_block {lines : List Text} {tss : List (List Token)} {opening closing : Char}
    {first last : Token} (ho : mark? opening = some first) (hc : mark? closing = some last)
    (level : Nat) (h : List.Forall₂ Spells lines tss) :
    SpellsApart (block opening closing level lines)
      (first :: [Token.comma].intercalate tss ++ [last]) := by
  by_cases hlines : lines = []
  · subst hlines
    cases h
    exact (SpellsApart.mark ho).append (SpellsApart.mark hc)
  · have hfeed : SpellsApart ['\n'] [] := .space (by simp [isSpace])
    have hclose := (hfeed.append (.margin level)).append (.mark hc)
    have hopen := (SpellsApart.mark ho).append hfeed
    have hbody := (spells_join (level + 1) h).append_apart hclose
      (by simp [EndsWord, isWordChar, isSpace]) (by simp)
    have hall := hopen.append hbody
    rw [block, if_neg (by simpa using hlines)]
    simpa using hall

mutual

theorem spells_wide {room : Nat} (level : Nat) :
    ∀ {j : Json}, j.Exact room → Spells (j.wide level) j.tokens
  | null, _ => .word (t := "null") (List.cons_ne_nil _ _) rfl rfl
  | bool true, _ => .word (t := "true") (List.cons_ne_nil _ _) rfl rfl
  | bool false, _ => .word (t := "false") (List.cons_ne_nil _ _) rfl rfl
  | number (.integer _), h => spells_integer h
  | string t, _ => (spellsApart_quote t).spells
  | array _, h => (spellsApart_block rfl rfl level (spells_wideItems (level + 1) h.2)).spells
  | object _, h =>
    (spellsApart_block rfl rfl level (spells_wideEntries (level + 1) h.2)).spells

theorem spells_wideItems {room : Nat} (level : Nat) :
    ∀ {items : List Json}, ExactItems room items →
      List.Forall₂ Spells (wideItems level items) (itemTokens items)
  | [], _ => .nil
  | _ :: _, h => .cons (spells_wide level h.1) (spells_wideItems level h.2)

theorem spells_wideEntries {room : Nat} (level : Nat) :
    ∀ {entries : List (Text × Json)}, ExactEntries room entries →
      List.Forall₂ Spells (wideEntries level entries) (entryTokens entries)
  | [], _ => .nil
  | (k, _) :: _, h => by
    have hcolon : SpellsApart (": " : Text) [.colon] :=
      (SpellsApart.mark (c := ':') rfl).append (.space (t := [' ']) (by simp [isSpace]))
    have hentry := ((spellsApart_quote k).append hcolon).append_spells (spells_wide level h.1)
    exact .cons hentry (spells_wideEntries level h.2)

end

theorem spellsApart_parts {parts : List Text} {tss : List (List Token)} {opening closing : Char}
    {first last : Token} (ho : mark? opening = some first) (hc : mark? closing = some last)
    (h : List.Forall₂ Spells parts tss) :
    SpellsApart (opening :: Text.join "," parts ++ [closing])
      (first :: [Token.comma].intercalate tss ++ [last]) := by
  have hends : EndsWord [closing] := by
    simp [EndsWord, isWordChar, hc]
  have hcomma : SpellsApart (",".toList) [.comma] := .mark rfl
  have hbody := (spells_separated hcomma h).append_apart (.mark hc) hends (by simp)
  exact (SpellsApart.mark ho).append hbody

mutual

/-- A value that is written on one line is read as its tokens. -/
theorem spells_compact {room : Nat} : ∀ {j : Json}, j.Exact room → Spells j.compact j.tokens
  | null, _ => .word (t := "null") (List.cons_ne_nil _ _) rfl rfl
  | bool true, _ => .word (t := "true") (List.cons_ne_nil _ _) rfl rfl
  | bool false, _ => .word (t := "false") (List.cons_ne_nil _ _) rfl rfl
  | number (.integer _), h => spells_integer h
  | string t, _ => (spellsApart_quote t).spells
  | array _, h => (spellsApart_parts rfl rfl (spells_compactItems h.2)).spells
  | object _, h => (spellsApart_parts rfl rfl (spells_compactEntries h.2)).spells

theorem spells_compactItems {room : Nat} : ∀ {items : List Json}, ExactItems room items →
    List.Forall₂ Spells (compactItems items) (itemTokens items)
  | [], _ => .nil
  | _ :: _, h => .cons (spells_compact h.1) (spells_compactItems h.2)

theorem spells_compactEntries {room : Nat} :
    ∀ {entries : List (Text × Json)}, ExactEntries room entries →
      List.Forall₂ Spells (compactEntries entries) (entryTokens entries)
  | [], _ => .nil
  | (k, _) :: _, h => by
    have hcolon : SpellsApart (":" : Text) [.colon] := .mark rfl
    have hentry := ((spellsApart_quote k).append hcolon).append_spells (spells_compact h.1)
    exact .cons hentry (spells_compactEntries h.2)

end

end Restyle.Json
