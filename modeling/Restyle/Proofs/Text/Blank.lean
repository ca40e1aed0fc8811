import Mathlib.Data.List.DropRight
import Restyle.Text.Basic

/-! # White space around a text

Trimming takes a text out of the white space around it and leaves a text alone
that has a visible character at either end.
-/

namespace Restyle.Text

/-- What holds of all characters of a text is decided on the text, not on all characters there are. -/
instance (priority := 2000) (t : Text) (p : Char → Prop) [DecidablePred p] :
    Decidable (∀ c ∈ t, p c) :=
  List.decidableBAll p t

def Blank (t : Text) : Prop :=
  ∀ c ∈ t, isBlank c = true

def Trimmed (t : Text) : Prop :=
  (∀ c ∈ t.head?, isBlank c = false) ∧ ∀ c ∈ t.getLast?, isBlank c = false

instance (t : Text) : Decidable (Blank t) :=
  decidable_of_iff (t.all isBlank = true) List.all_eq_true

instance (t : Text) : Decidable (Trimmed t) :=
  decidable_of_iff (t.head?.all (!isBlank ·) = true ∧ t.getLast?.all (!isBlank ·) = true)
    (by simp [Trimmed, Option.all_eq_true])

variable {t u w : Text} {c : Char}

theorem Blank.nil : Blank [] := by simp [Blank]

theorem Blank.append (ht : Blank t) (hu : Blank u) : Blank (t ++ u) := by
  intro c hc
  exact (List.mem_append.mp hc).elim (ht c) (hu c)

theorem Blank.reverse (ht : Blank t) : Blank t.reverse :=
  fun c hc => ht c (List.mem_reverse.mp hc)

theorem blank_cons : Blank (c :: t) ↔ isBlank c = true ∧ Blank t := by
  simp [Blank]

theorem not_blank_of_mem (h : c ∈ t) (hc : isBlank c = false) : ¬ Blank t :=
  fun hb => Bool.false_ne_true (hc.symm.trans (hb c h))

theorem Trimmed.not_blank (h : Trimmed t) (hne : t ≠ []) : ¬ Blank t := by
  obtain ⟨c, t, rfl⟩ := List.exists_cons_of_ne_nil hne
  exact not_blank_of_mem List.mem_cons_self (h.1 c rfl)

theorem trimmed_of_visible (h : ∀ c ∈ t, isBlank c = false) : Trimmed t :=
  ⟨fun c hc => h c (List.mem_of_mem_head? hc), fun c hc => h c (List.mem_of_mem_getLast? hc)⟩

theorem notMem_of_all {p : Char → Bool} {l : List Char} (hl : l.all p = true)
    (hc : p c = false) : c ∉ l := by
  intro h
  rw [List.all_eq_true.mp hl c h] at hc
  exact Bool.false_ne_true hc.symm

theorem Blank.notMem {l : List Char} (hw : Blank w) (hc : c ∈ w)
    (hl : (l.all fun d => !isBlank d) = true) : c ∉ l :=
  notMem_of_all hl (by simp [hw c hc])

theorem Blank.ne_of_mem (ht : Blank t) (hc : c ∈ t) {d : Char} (hd : isBlank d = false) :
    c ≠ d := by
  rintro rfl
  simp [ht c hc] at hd

theorem trimEnd_eq_rdropWhile (t : Text) : trimEnd t = t.rdropWhile isBlank := rfl

@[simp] theorem trim_nil : trim [] = [] := rfl

theorem trimStart_eq_nil (h : Blank t) : trimStart t = [] :=
  List.dropWhile_eq_nil_iff.mpr h

theorem trimStart_append (h : Blank w) (t : Text) : trimStart (w ++ t) = trimStart t :=
  List.dropWhile_append_of_pos h

theorem trimEnd_append (t : Text) (h : Blank w) : trimEnd (t ++ w) = trimEnd t := by
  simp only [trimEnd, dropEndWhile, List.reverse_append]
  rw [List.dropWhile_append_of_pos fun c hc => h c (List.mem_reverse.mp hc)]

@[simp] theorem trimStart_cons_of_not_blank (h : isBlank c = false) (t : Text) :
    trimStart (c :: t) = c :: t := by
  simp [trimStart, h]

theorem trimEnd_eq_nil_iff : trimEnd t = [] ↔ Blank t :=
  List.rdropWhile_eq_nil_iff

theorem trimEnd_append_of_ne_nil (t : Text) (h : trimEnd u ≠ []) :
    trimEnd (t ++ u) = t ++ trimEnd u := by
  have hd : (u.reverse.dropWhile isBlank).isEmpty = false := by
    simpa [trimEnd, dropEndWhile] using h
  simp [trimEnd, dropEndWhile, List.dropWhile_append, hd]

theorem trimEnd_append_cons (hc : isBlank c = false) (t u : Text) :
    trimEnd (t ++ c :: u) = t ++ c :: trimEnd u := by
  have hcons : trimEnd (c :: u) = c :: trimEnd u := by
    by_cases hu : trimEnd u = []
    · have hblank := trimEnd_append [c] (trimEnd_eq_nil_iff.mp hu)
      rw [List.singleton_append] at hblank
      rw [hblank, hu]
      simp [trimEnd, dropEndWhile, hc]
    · exact trimEnd_append_of_ne_nil [c] hu
  rw [trimEnd_append_of_ne_nil t (by simp [hcons]), hcons]

theorem trim_blank_append (h : Blank w) (t : Text) : trim (w ++ t) = trim t := by
  rw [trim, trimStart_append h, trim]

theorem trim_append_blank (t : Text) (h : Blank w) : trim (t ++ w) = trim t := by
  rcases hs : trimStart t with _ | ⟨c, u⟩
  · have ht : Blank t := List.dropWhile_eq_nil_iff.mp hs
    rw [trim, trim, hs, trimStart_eq_nil (ht.append h)]
  · have hw : trimStart (t ++ w) = trimStart t ++ w := by
      rw [trimStart, List.dropWhile_append, ← trimStart, hs]
      rfl
    rw [trim, hw, trimEnd_append _ h, trim]

theorem trim_eq_nil (h : Blank t) : trim t = [] := by
  rw [trim, trimStart_eq_nil h]
  rfl

theorem exists_eq_trimStart (t : Text) : ∃ w, Blank w ∧ t = w ++ trimStart t :=
  ⟨t.takeWhile isBlank, fun _ hc => List.mem_takeWhile_imp hc, List.takeWhile_append_dropWhile.symm⟩

theorem exists_eq_trimEnd (t : Text) : ∃ w, Blank w ∧ t = trimEnd t ++ w := by
  refine ⟨t.rtakeWhile isBlank, fun _ hc => List.mem_rtakeWhile_imp hc, ?_⟩
  rw [trimEnd_eq_rdropWhile, List.rdropWhile_append_rtakeWhile]

theorem exists_eq_trim (t : Text) : ∃ w w', Blank w ∧ Blank w' ∧ t = w ++ trim t ++ w' := by
  obtain ⟨w, hw, ht⟩ := exists_eq_trimStart t
  obtain ⟨w', hw', ht'⟩ := exists_eq_trimEnd (trimStart t)
  refine ⟨w, w', hw, hw', ?_⟩
  rw [trim, List.append_assoc, ← ht']
  exact ht

theorem trim_eq_nil_iff : trim t = [] ↔ Blank t := by
  refine ⟨fun h => ?_, trim_eq_nil⟩
  obtain ⟨w, w', hw, hw', he⟩ := exists_eq_trim t
  rw [h, List.append_nil] at he
  exact he ▸ hw.append hw'

theorem blank_trimEnd_iff : Blank (trimEnd t) ↔ Blank t := by
  refine ⟨fun h => ?_, fun h => ?_⟩
  · obtain ⟨w, hw, ht⟩ := exists_eq_trimEnd t
    exact ht ▸ h.append hw
  · rw [trimEnd_eq_nil_iff.mpr h]
    exact .nil

theorem blank_trim_iff : Blank (trim t) ↔ Blank t := by
  refine ⟨fun h => ?_, fun h => ?_⟩
  · obtain ⟨w, w', hw, hw', ht⟩ := exists_eq_trim t
    exact ht ▸ (hw.append h).append hw'
  · rw [trim_eq_nil h]
    exact .nil

theorem Trimmed.trimStart_eq (h : Trimmed t) : trimStart t = t := by
  cases t with
  | nil => rfl
  | cons c t => exact trimStart_cons_of_not_blank (h.1 c rfl) t

theorem trimEnd_eq_self (h : ∀ c ∈ t.getLast?, isBlank c = false) : trimEnd t = t := by
  rw [trimEnd_eq_rdropWhile, List.rdropWhile_eq_self_iff]
  intro ht
  simp [h _ (List.getLast?_eq_some_getLast ht)]

theorem Trimmed.trim_eq (h : Trimmed t) : trim t = t := by
  rw [trim, h.trimStart_eq, trimEnd_eq_self h.2]

theorem Trimmed.trim_between (h : Trimmed t) (hw : Blank w) (hu : Blank u) :
    trim (w ++ t ++ u) = t := by
  rw [trim_append_blank _ hu, trim_blank_append hw, h.trim_eq]

theorem getLast?_trimEnd (t : Text) : ∀ c ∈ (trimEnd t).getLast?, isBlank c = false := by
  intro c hc
  have hne : t.rdropWhile isBlank ≠ [] := by
    rintro he
    rw [trimEnd_eq_rdropWhile, he] at hc
    simp at hc
  have hl := List.rdropWhile_last_not isBlank _ hne
  rw [trimEnd_eq_rdropWhile, List.getLast?_eq_some_getLast hne] at hc
  cases hc
  simpa using hl

theorem trimmed_trim (t : Text) : Trimmed (trim t) := by
  have hhead : ∀ c ∈ (trimStart t).head?, isBlank c = false := by
    intro c hc
    have hd := List.head?_dropWhile_not isBlank t
    rw [← trimStart, hc] at hd
    simpa using hd
  constructor
  · intro c hc
    obtain ⟨u, hu⟩ := List.rdropWhile_prefix isBlank (l := trimStart t)
    apply hhead
    rw [← hu, List.head?_append]
    rw [trim, trimEnd_eq_rdropWhile] at hc
    simp [Option.mem_def.mp hc]
  · exact getLast?_trimEnd (trimStart t)

theorem Trimmed.append (ht : Trimmed t) (hu : Trimmed u) (ht' : t ≠ []) (hu' : u ≠ [])
    (v : Text) : Trimmed (t ++ v ++ u) := by
  constructor
  · intro c hc
    rw [List.append_assoc, List.head?_append_of_ne_nil _ ht'] at hc
    exact ht.1 c hc
  · intro c hc
    rw [List.getLast?_append_of_ne_nil _ hu'] at hc
    exact hu.2 c hc

theorem head?_trim_append (ht : Trimmed t) (hne : t ≠ []) (u : Text) :
    (trim (t ++ u)).head? = t.head? := by
  obtain ⟨c, t, rfl⟩ := List.exists_cons_of_ne_nil hne
  have hc : isBlank c = false := ht.1 c rfl
  obtain ⟨v, hv⟩ := List.rdropWhile_prefix isBlank (l := c :: (t ++ u))
  have hne : trimEnd (c :: (t ++ u)) ≠ [] := by
    rw [ne_eq, trimEnd_eq_nil_iff, blank_cons, hc]
    simp
  rw [List.cons_append, trim, trimStart_cons_of_not_blank hc, ← List.head?_append_of_ne_nil _ hne,
    trimEnd_eq_rdropWhile, hv]
  rfl

theorem toLower_cases (c : Char) :
    c.toLower = c ∨ (65 ≤ c.toNat ∧ c.toNat ≤ 90) ∧ c.toLower.toNat = c.toNat + 32 := by
  by_cases h : 'A'.val ≤ c.val ∧ c.val ≤ 'Z'.val
  · right
    have h₁ : 65 ≤ c.toNat := UInt32.le_iff_toNat_le.mp h.1
    have h₂ : c.toNat ≤ 90 := UInt32.le_iff_toNat_le.mp h.2
    refine ⟨⟨h₁, h₂⟩, ?_⟩
    have hv : c.toLower.val = c.val + 32 := congrArg Char.val (dif_pos h)
    have hn : c.toLower.toNat = (c.val + 32).toNat := congrArg UInt32.toNat hv
    rw [hn, UInt32.toNat_add]
    have : c.val.toNat = c.toNat := rfl
    simp only [this, UInt32.reduceToNat]
    omega
  · exact Or.inl (dif_neg h)

theorem isBlank_of_visible (h : 33 ≤ c.toNat) (h' : c.toNat ≤ 132) : isBlank c = false := by
  simp [isBlank, inRanges, blankRanges]
  omega

theorem isBlank_of_isNameChar (h : isNameChar c = true) : isBlank c = false := by
  have hranges : ((decide (c.val ≥ 'A'.val ∧ c.val ≤ 'Z'.val) || (c.val ≥ 'a'.val && c.val ≤ 'z'.val)) ||
      (c.val ≥ '0'.val && c.val ≤ '9'.val) || c == '_' || c == '-') = true := h
  simp only [Bool.or_eq_true, Bool.and_eq_true, decide_eq_true_eq, beq_iff_eq, ge_iff_le,
    UInt32.le_iff_toNat_le] at hranges
  have hv : c.val.toNat = c.toNat := rfl
  have hends : 'A'.val.toNat = 65 ∧ 'Z'.val.toNat = 90 ∧ 'a'.val.toNat = 97 ∧
      'z'.val.toNat = 122 ∧ '0'.val.toNat = 48 ∧ '9'.val.toNat = 57 := by decide
  rcases hranges with (h | rfl) | rfl
  · rw [hv] at h
    exact isBlank_of_visible (by omega) (by omega)
  · decide
  · decide

theorem isNameChar_of_blank (h : isBlank c = true) : isNameChar c = false := by
  by_contra hname
  rw [isBlank_of_isNameChar (by simpa using hname)] at h
  exact Bool.false_ne_true h

theorem isBlank_toLower (c : Char) : isBlank c.toLower = isBlank c := by
  rcases toLower_cases c with h | ⟨hc, hl⟩
  · rw [h]
  · rw [isBlank_of_visible (by omega) (by omega), isBlank_of_visible (by omega) (by omega)]

theorem eq_of_toLower_eq {d : Char} (hd : ¬ (97 ≤ d.toNat ∧ d.toNat ≤ 122)) (h : c.toLower = d) :
    c = d := by
  rcases toLower_cases c with hc | ⟨hc, hl⟩
  · rw [← h, hc]
  · rw [h] at hl
    omega

end Restyle.Text
