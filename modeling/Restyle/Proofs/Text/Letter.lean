import Restyle.Proofs.Text.Blank
import Restyle.Proofs.Text.Substitution
import Restyle.Text.Letter
import Restyle.Text.WordChar

/-! # Words in any case

A word is recognised by folding it and the text. Apart from the long s and the
Kelvin sign only name characters fold to name characters.
-/

namespace Restyle.Text

variable {c : Char} {t u word rest : Text}

def codePoints (ranges : List (Nat × Nat)) : List Nat :=
  ranges.flatMap fun r => List.range' r.1 (r.2 + 1 - r.1)

theorem toNat_mem_codePoints {ranges : List (Nat × Nat)} (h : inRanges ranges c = true) :
    c.toNat ∈ codePoints ranges := by
  obtain ⟨r, hr, hc⟩ := List.any_eq_true.mp h
  simp only [Bool.and_eq_true, decide_eq_true_eq] at hc
  refine List.mem_flatMap.mpr ⟨r, hr, List.mem_range'_1.mpr ?_⟩
  omega

theorem foldedNameChar_wordChar_of_blank (h : isBlank c = true) :
    isFoldedNameChar c = false ∧ isWordChar c = false := by
  have hall : ((codePoints blankRanges).all fun n =>
      !isFoldedNameChar (Char.ofNat n) && !isWordChar (Char.ofNat n)) = true := by decide +kernel
  have hc := List.all_eq_true.mp hall c.toNat (toNat_mem_codePoints h)
  rw [Char.ofNat_toNat] at hc
  simpa using hc

theorem isFoldedNameChar_of_blank (h : isBlank c = true) : isFoldedNameChar c = false :=
  (foldedNameChar_wordChar_of_blank h).1

theorem isWordChar_of_blank (h : isBlank c = true) : isWordChar c = false :=
  (foldedNameChar_wordChar_of_blank h).2

theorem dropWord?_append_cons (hc : ∀ l ∈ word, fold l ≠ fold c) (t u : Text) :
    dropWord? word (t ++ c :: u) = (dropWord? word t).map (· ++ c :: u) := by
  induction word generalizing t with
  | nil => cases t <;> rfl
  | cons l word ih =>
    have hl : fold l ≠ fold c := hc l List.mem_cons_self
    cases t with
    | nil => simp [dropWord?, hl]
    | cons b t =>
      rw [List.cons_append, dropWord?, dropWord?, ih fun m hm => hc m (List.mem_cons_of_mem l hm)]
      split <;> rfl

theorem toNat_lt_of_isNameChar (h : isNameChar c = true) : c.toNat < 128 := by
  have halpha : c.isAlpha = (c.isUpper || c.isLower) := rfl
  have hupper : c.isUpper = true → c.toNat ≤ 'Z'.toNat := fun h => (of_decide_eq_true h).2
  have hlower : c.isLower = true → c.toNat ≤ 'z'.toNat := fun h =>
    of_decide_eq_true (Bool.and_eq_true_iff.mp h).2
  have hdigit : c.isDigit = true → c.toNat ≤ '9'.toNat := fun h =>
    of_decide_eq_true (Bool.and_eq_true_iff.mp h).2
  simp only [isNameChar, Char.isAlphanum, halpha, Bool.or_eq_true, beq_iff_eq] at h
  rcases h with (((h | h) | h) | rfl) | rfl
  · exact Nat.lt_of_le_of_lt (hupper h) (by decide)
  · exact Nat.lt_of_le_of_lt (hlower h) (by decide)
  · exact Nat.lt_of_le_of_lt (hdigit h) (by decide)
  · decide
  · decide

theorem fold_toLower (c : Char) : fold c.toLower = fold c := by
  rcases toLower_cases c with h | ⟨hc, hl⟩
  · rw [h]
  · have hc : c.toNat < 128 := by omega
    have hl : c.toLower.toNat < 128 := by omega
    rw [fold, if_pos hl, fold, if_pos hc]
    exact (toLower_cases c.toLower).resolve_right (by omega)

theorem fold_eq_toLower (h : isNameChar c = true) : fold c = c.toLower :=
  if_pos (toNat_lt_of_isNameChar h)

theorem nameChar_of_ascii (hc : c.toNat < 128) : isNameChar c.toLower = isNameChar c ∧
    (isNameChar c = true → isFoldedNameChar c = true) ∧
    (isNameChar (fold c) = true → isNameChar c = true) := by
  have hall : ∀ n < 128, isNameChar (Char.ofNat n).toLower = isNameChar (Char.ofNat n) ∧
      (isNameChar (Char.ofNat n) = true → isFoldedNameChar (Char.ofNat n) = true) ∧
      (isNameChar (fold (Char.ofNat n)) = true → isNameChar (Char.ofNat n) = true) := by
    decide +kernel
  have hascii := hall c.toNat hc
  rwa [Char.ofNat_toNat] at hascii

theorem isNameChar_toLower (c : Char) : isNameChar c.toLower = isNameChar c := by
  rcases toLower_cases c with h | ⟨hc, -⟩
  · rw [h]
  · exact (nameChar_of_ascii (by omega)).1

theorem isFoldedNameChar_of_isNameChar (h : isNameChar c = true) :
    isFoldedNameChar c = true :=
  (nameChar_of_ascii (toNat_lt_of_isNameChar h)).2.1 h

/-- Apart from two letters, what is not ASCII does not fold to ASCII. -/
theorem fold_of_not_ascii (hc : 128 ≤ c.toNat) :
    fold c = 's' ∨ fold c = 'k' ∨ 128 ≤ (fold c).toNat := by
  rw [fold, if_neg (by omega)]
  cases hr : foldRuns.find? (·.holds c.toNat) with
  | none => exact Or.inr (Or.inr hc)
  | some r =>
    have hruns : ∀ r ∈ foldRuns, r.last < 128 ∨
        r.first = r.last ∧ (Char.ofNat (r.first + r.shift).toNat = 's' ∨
          Char.ofNat (r.first + r.shift).toNat = 'k') ∨
        128 ≤ r.first + r.shift ∧ (r.last + r.shift < 0xD800 ∨
          0xDFFF < r.first + r.shift ∧ r.last + r.shift < 0x110000) := by decide +kernel
    have hholds := List.find?_some hr
    simp only [FoldRun.holds, Bool.and_eq_true, decide_eq_true_eq] at hholds
    dsimp only
    rcases hruns r (List.mem_of_find?_eq_some hr) with hlast | ⟨heq, hchar⟩ | ⟨hfirst, hvalid⟩
    · omega
    · have hn : c.toNat = r.first := by omega
      rw [hn]
      exact hchar.imp_right Or.inl
    · have hchar : ((c.toNat + r.shift).toNat).isValidChar := by
        rcases hvalid with h | h
        · exact Or.inl (by omega)
        · exact Or.inr (by omega)
      have hnat : (Char.ofNat (c.toNat + r.shift).toNat).toNat = (c.toNat + r.shift).toNat :=
        congrArg Char.toNat (dif_pos hchar)
      refine Or.inr (Or.inr ?_)
      rw [hnat]
      omega

/-- An ASCII character that is no lower case letter comes from itself only. -/
theorem eq_of_fold_eq {d : Char} (hd : d.toNat < 97) (h : fold c = d) : c = d := by
  by_cases hc : c.toNat < 128
  · rw [fold, if_pos hc] at h
    exact eq_of_toLower_eq (by omega) h
  · rcases fold_of_not_ascii (Nat.le_of_not_lt hc) with hs | hk | hlt
    · exact absurd hd (by rw [← h, hs]; decide)
    · exact absurd hd (by rw [← h, hk]; decide)
    · rw [h] at hlt
      omega

theorem isNameChar_of_fold (h : isNameChar (fold c) = true) (hs : fold c ≠ 's')
    (hk : fold c ≠ 'k') : isNameChar c = true := by
  by_cases hc : c.toNat < 128
  · exact (nameChar_of_ascii hc).2.2 h
  · have hlt := toNat_lt_of_isNameChar h
    rcases fold_of_not_ascii (Nat.le_of_not_lt hc) with he | he | hle
    · exact absurd he hs
    · exact absurd he hk
    · omega

theorem dropWord?_eq_some_iff :
    dropWord? word t = some rest ↔ ∃ name, t = name ++ rest ∧ name.map fold = word.map fold := by
  induction word generalizing t with
  | nil => simp [dropWord?, eq_comm]
  | cons l word ih =>
    cases t with
    | nil => simp [dropWord?]
    | cons c t =>
      rw [dropWord?]
      constructor
      · intro h
        split_ifs at h with hl
        obtain ⟨name, rfl, hname⟩ := ih.mp h
        exact ⟨c :: name, rfl, by rw [List.map_cons, List.map_cons, hl, hname]⟩
      · rintro ⟨_ | ⟨d, name⟩, ht, hname⟩
        · simp at hname
        · obtain ⟨rfl, rfl⟩ := List.cons.inj ht
          obtain ⟨hl, hname⟩ := List.cons.inj hname
          rw [if_pos hl.symm]
          exact ih.mpr ⟨name, rfl, hname⟩

theorem dropWordEnd?_eq_some_iff :
    dropWordEnd? word t = some rest ↔ ∃ name, t = rest ++ name ∧ name.map fold = word.map fold := by
  rw [dropWordEnd?, Option.map_eq_some_iff]
  constructor
  · rintro ⟨u, hu, rfl⟩
    obtain ⟨name, ht, hname⟩ := dropWord?_eq_some_iff.mp hu
    refine ⟨name.reverse, ?_, ?_⟩
    · rw [← List.reverse_append, ← ht, List.reverse_reverse]
    · rw [List.map_reverse, hname, ← List.map_reverse, List.reverse_reverse]
  · rintro ⟨name, rfl, hname⟩
    refine ⟨rest.reverse, dropWord?_eq_some_iff.mpr ⟨name.reverse, ?_, ?_⟩, List.reverse_reverse _⟩
    · rw [List.reverse_append]
    · rw [List.map_reverse, List.map_reverse, hname]

theorem dropStart?_trimStart_iff (hc : isBlank c = false) :
    dropStart? (trimStart t) (c :: u) = some rest ↔ ∃ w, Blank w ∧ t = w ++ c :: (u ++ rest) := by
  rw [dropStart?_eq_some]
  constructor
  · intro h
    obtain ⟨w, hw, ht⟩ := exists_eq_trimStart t
    exact ⟨w, hw, by rw [← List.cons_append, ← h, ← ht]⟩
  · rintro ⟨w, hw, rfl⟩
    rw [trimStart_append hw, trimStart_cons_of_not_blank hc, List.cons_append]

/-- Of words of which none begins another the one that opens a text is recognised. -/
theorem dropAnyWord?_eq_some_iff {ws : List Text}
    (hws : ∀ m ∈ ws, ∀ n ∈ ws, m.map fold <+: n.map fold → m = n) :
    dropAnyWord? ws t = some (word, rest) ↔ word ∈ ws ∧ dropWord? word t = some rest := by
  have hopens : ∀ {m u : Text}, dropWord? m t = some u → m.map fold <+: t.map fold := by
    intro m u h
    obtain ⟨name, rfl, hname⟩ := dropWord?_eq_some_iff.mp h
    exact ⟨u.map fold, by rw [← hname, List.map_append]⟩
  have hfound : ∀ {m u : Text}, dropAnyWord? ws t = some (m, u) → m ∈ ws ∧ dropWord? m t = some u := by
    intro m u h
    obtain ⟨m', hm', h⟩ := List.exists_of_findSome?_eq_some h
    obtain ⟨u', hu', he⟩ := Option.map_eq_some_iff.mp h
    obtain ⟨rfl, rfl⟩ := Prod.mk.inj he
    exact ⟨hm', hu'⟩
  refine ⟨hfound, ?_⟩
  rintro ⟨hword, hdrop⟩
  have hsome : (dropAnyWord? ws t).isSome := by
    rw [dropAnyWord?, List.findSome?_isSome_iff]
    exact ⟨word, hword, by simp [hdrop]⟩
  obtain ⟨⟨m, u⟩, h⟩ := Option.isSome_iff_exists.mp hsome
  obtain ⟨hm, hu⟩ := hfound h
  have hsame : m = word := by
    rcases List.prefix_or_prefix_of_prefix (hopens hu) (hopens hdrop) with hpre | hpre
    · exact hws m hm word hword hpre
    · exact (hws word hword m hm hpre).symm
  subst hsame
  obtain rfl := Option.some.inj (hu.symm.trans hdrop)
  exact h

theorem dropWord?_eq_none (h : ¬ word.map fold <:+: t.map fold) (hu : u <:+ t) :
    dropWord? word u = none := by
  refine Option.eq_none_iff_forall_ne_some.mpr fun rest hrest => h ?_
  obtain ⟨name, rfl, hname⟩ := dropWord?_eq_some_iff.mp hrest
  obtain ⟨before, rfl⟩ := hu
  exact ⟨before.map fold, rest.map fold, by simp [hname]⟩

end Restyle.Text
