import Mathlib.Data.List.Chain
import Restyle.Stylesheet.Lexeme

/-! # Lexemes and the text they spell

Scanning loses nothing: the lexemes spell the text again. The lists of lexemes
that scanning yields are those of sound lexemes any two of which may stand side
by side, so such lists can be joined and cut between lexemes.
-/

namespace Restyle.Lexeme

def closed : Lexeme → Bool
  | plain _ => true
  | quoted _ closed => closed
  | comment _ closed => closed

def textOf (ls : List Lexeme) : Text :=
  ls.flatMap text

/-- A lexeme that is scanned from its own text. -/
def Sound (l : Lexeme) : Prop :=
  scan l.text = [l]

/-- The first lexeme ends before the second, and the two do not open a comment. -/
def Beside (l m : Lexeme) : Prop :=
  l.closed = true ∧ ¬ (l = plain '/' ∧ m = plain '*')

structure Scannable (ls : List Lexeme) : Prop where
  sound : ∀ l ∈ ls, l.Sound
  beside : ls.IsChain Beside

/-- The last lexeme goes on no further when a text follows. -/
def Apart (ls : List Lexeme) (t : Text) : Prop :=
  ∀ l ∈ ls.getLast?, l.closed = true ∧ (l = plain '/' → t.head? ≠ some '*')

variable {l m : Lexeme} {ls ms : List Lexeme} {t u : Text} {c : Char}

@[simp] theorem textOf_nil : textOf [] = [] := rfl

@[simp] theorem textOf_cons (l : Lexeme) (ls : List Lexeme) :
    textOf (l :: ls) = l.text ++ textOf ls := rfl

@[simp] theorem textOf_append (ls ms : List Lexeme) :
    textOf (ls ++ ms) = textOf ls ++ textOf ms :=
  List.flatMap_append

@[simp] theorem textOf_plain (t : Text) : textOf (t.map plain) = t := by
  simp [textOf, List.flatMap_map, text]

theorem scan_cons_of_ne (h : c ≠ '/' ∨ t.head? ≠ some '*') (hq : ¬ (c = '"' ∨ c = '\'')) :
    scan (c :: t) = plain c :: scan t := by
  rw [scan.eq_3, if_neg hq]
  rintro t' rfl rfl
  simp at h

theorem scan_quote (h : c = '"' ∨ c = '\'') (t : Text) : scan (c :: t) = scanQuoted c [c] t := by
  rw [scan.eq_3, if_pos h]
  rintro t' rfl
  simp at h

theorem scan_eq_plain (hs : ¬ (c = '/' ∧ t.head? = some '*')) (hq : ¬ (c = '"' ∨ c = '\'')) :
    scan (c :: t) = plain c :: scan t :=
  scan_cons_of_ne (not_and_or.mp hs) hq

section Readers

variable {q : Char} {seen v : Text}

theorem scanQuoted_shield (q : Char) (seen : Text) (c : Char) (t : Text) :
    scanQuoted q seen ('\\' :: c :: t) = scanQuoted q (c :: '\\' :: seen) t := by
  rw [scanQuoted]

theorem scanQuoted_end (hq : q ≠ '\\') (seen t : Text) :
    scanQuoted q seen (q :: t) = quoted (q :: seen).reverse true :: scan t := by
  rw [scanQuoted.eq_3 _ _ _ _ fun _ _ hc _ => hq hc, if_pos rfl]

theorem scanQuoted_char (hc : c ≠ q) (ht : c = '\\' → t = []) :
    scanQuoted q seen (c :: t) = scanQuoted q (c :: seen) t := by
  rw [scanQuoted.eq_3, if_neg hc]
  rintro d u hb rfl
  exact absurd (ht hb) (List.cons_ne_nil d u)

theorem scanComment_end (seen t : Text) :
    scanComment seen ('*' :: '/' :: t) = comment ('/' :: '*' :: seen).reverse true :: scan t := by
  rw [scanComment]

theorem scanComment_char (h : ¬ (c = '*' ∧ t.head? = some '/')) :
    scanComment seen (c :: t) = scanComment (c :: seen) t := by
  rw [scanComment.eq_3]
  rintro u hc rfl
  exact h ⟨hc, rfl⟩

theorem scanQuoted_append (hq : q ∉ u) (hshield : '\\' ∉ u) (seen t : Text) :
    scanQuoted q seen (u ++ t) = scanQuoted q (u.reverse ++ seen) t := by
  induction u generalizing seen with
  | nil => rfl
  | cons c u ih =>
    have hc : c ≠ '\\' := (List.ne_of_not_mem_cons hshield).symm
    rw [List.cons_append, scanQuoted_char (List.ne_of_not_mem_cons hq).symm (absurd · hc),
      ih (List.not_mem_of_not_mem_cons hq) (List.not_mem_of_not_mem_cons hshield)]
    simp

theorem scanComment_append (h : '*' ∉ u) (seen t : Text) :
    scanComment seen (u ++ t) = scanComment (u.reverse ++ seen) t := by
  induction u generalizing seen with
  | nil => rfl
  | cons c u ih =>
    have hc : c ≠ '*' := (List.ne_of_not_mem_cons h).symm
    rw [List.cons_append, scanComment_char (fun hend => hc hend.1),
      ih (List.not_mem_of_not_mem_cons h)]
    simp

theorem scan_plain_append (h : ∀ c ∈ u, c ∉ ['"', '\'', '/']) (t : Text) :
    scan (u ++ t) = u.map plain ++ scan t := by
  induction u with
  | nil => rfl
  | cons c u ih =>
    obtain ⟨hc, h⟩ := List.forall_mem_cons.mp h
    simp only [List.mem_cons, List.not_mem_nil, or_false, not_or] at hc
    rw [List.cons_append, scan_cons_of_ne (Or.inl hc.2.2) (not_or.mpr ⟨hc.1, hc.2.1⟩), ih h]
    rfl

/-- Induction over a text in which a backslash shields the next character. -/
theorem shielded_induction {P : Text → Prop} (nil : P [])
    (shield : ∀ c t, P t → P ('\\' :: c :: t))
    (char : ∀ c t, (c = '\\' → t = []) → P t → P (c :: t)) (t : Text) : P t := by
  induction hn : t.length using Nat.strongRecOn generalizing t with
  | ind n ih =>
    rcases t with _ | ⟨c, _ | ⟨d, t⟩⟩
    · exact nil
    · exact char c [] (fun _ => rfl) nil
    · by_cases hc : c = '\\'
      · subst hc
        exact shield d t (ih t.length (by simp only [← hn, List.length_cons]; omega) t rfl)
      · exact char c (d :: t) (absurd · hc) (ih (d :: t).length (by simp [← hn]) _ rfl)

/-- A reader inside a lexeme takes the beginning of a text, and all of it if nothing ends the
lexeme. -/
def Takes (read : Text → Text → List Lexeme) (lexeme : Text → Bool → Lexeme) (seen t : Text) :
    Prop :=
  ∃ body closed rest, t = body ++ rest ∧ (closed = true → body ≠ []) ∧
    (closed = false → rest = []) ∧ ∀ u, (closed = false → u = []) →
      read seen (body ++ u) = lexeme (seen.reverse ++ body) closed :: scan u

namespace Takes

variable {read : Text → Text → List Lexeme} {lexeme : Text → Bool → Lexeme} {p : Text}

theorem nil (h : read seen [] = [lexeme seen.reverse false]) : Takes read lexeme seen [] := by
  refine ⟨[], false, [], rfl, by simp, fun _ => rfl, fun u hu => ?_⟩
  rw [hu rfl, List.append_nil, h]
  simp [scan]

theorem stop (hp : p ≠ []) (h : ∀ u, read seen (p ++ u) = lexeme (seen.reverse ++ p) true :: scan u)
    (t : Text) : Takes read lexeme seen (p ++ t) :=
  ⟨p, true, t, rfl, fun _ => hp, by simp, fun u _ => h u⟩

theorem goOn (hp : p ≠ []) (hread : ∀ u, u = [] ∨ u.head? = t.head? →
    read seen (p ++ u) = read (p.reverse ++ seen) u)
    (h : Takes read lexeme (p.reverse ++ seen) t) : Takes read lexeme seen (p ++ t) := by
  obtain ⟨body, closed, rest, rfl, hbody, hrest, htake⟩ := h
  refine ⟨p ++ body, closed, rest, by simp, by simp [hp], hrest, fun u hu => ?_⟩
  have hhead : body ++ u = [] ∨ (body ++ u).head? = (body ++ rest).head? := by
    rcases body with _ | ⟨c, body⟩
    · cases closed with
      | true => exact absurd rfl (hbody rfl)
      | false => exact Or.inl (hu rfl)
    · exact Or.inr rfl
  rw [List.append_assoc, hread _ hhead, htake u hu]
  simp

end Takes

theorem takes_scanQuoted (hq : q ≠ '\\') (seen t : Text) : Takes (scanQuoted q) quoted seen t := by
  induction t using shielded_induction generalizing seen with
  | nil => exact .nil (by rw [scanQuoted])
  | shield c t ih =>
    exact .goOn (List.cons_ne_nil _ [c]) (fun u _ => scanQuoted_shield q seen c u) (ih _)
  | char c t hc ih =>
    by_cases h : c = q
    · subst h
      refine .stop (List.cons_ne_nil c []) (fun u => ?_) t
      rw [List.singleton_append, scanQuoted_end hq]
      simp
    · refine .goOn (List.cons_ne_nil c []) (fun u hu => scanQuoted_char h fun hb => ?_) (ih _)
      rw [hc hb] at hu
      simpa using hu

theorem takes_scanComment (seen t : Text) : Takes scanComment comment seen t := by
  induction t generalizing seen with
  | nil => exact .nil (by rw [scanComment])
  | cons c t ih =>
    by_cases h : c = '*' ∧ t.head? = some '/'
    · obtain ⟨rfl, ht⟩ := h
      obtain ⟨t, rfl⟩ := List.head?_eq_some_iff.mp ht
      refine .stop (List.cons_ne_nil '*' ['/']) (fun u => ?_) t
      rw [List.cons_append, List.singleton_append, scanComment_end]
      simp
    · refine .goOn (List.cons_ne_nil c []) (fun u hu => scanComment_char ?_) (ih _)
      rintro ⟨hc, hhead⟩
      rcases hu with rfl | hu
      · simp at hhead
      · exact h ⟨hc, hu ▸ hhead⟩

end Readers

theorem apart_cons (h : ls ≠ []) : Apart (l :: ls) t ↔ Apart ls t := by
  obtain ⟨m, ls, rfl⟩ := List.exists_cons_of_ne_nil h
  simp [Apart, List.getLast?_cons_cons]

theorem apart_singleton : Apart [l] t ↔ l.closed = true ∧ (l = plain '/' → t.head? ≠ some '*') := by
  simp [Apart]

theorem Apart.tail (h : Apart (l :: ls) t) : Apart ls t := by
  rcases ls with _ | ⟨m, ls⟩
  · simp [Apart]
  · exact (apart_cons (List.cons_ne_nil _ _)).mp h

theorem Apart.append (h : Apart [l] t) (ht : t ≠ []) (u : Text) : Apart [l] (t ++ u) := by
  rw [apart_singleton, List.head?_append_of_ne_nil _ ht]
  exact apart_singleton.mp h

/-- Scanning takes the lexeme from the beginning of a text, unless it goes on there. -/
def Taken (l : Lexeme) : Prop :=
  ∀ u, (u ≠ [] → Apart [l] u) → scan (l.text ++ u) = l :: scan u

theorem Taken.sound (h : l.Taken) : l.Sound := by
  have hscan := h [] (absurd rfl)
  rwa [List.append_nil, scan] at hscan

theorem Sound.text_ne_nil (h : l.Sound) : l.text ≠ [] := by
  intro he
  rw [Sound, he] at h
  simp [scan] at h

theorem Takes.exists_taken {read : Text → Text → List Lexeme} {lexeme : Text → Bool → Lexeme}
    {seen : Text} (hread : ∀ u, scan (seen.reverse ++ u) = read seen u)
    (hl : ∀ t b, (lexeme t b).text = t ∧ (lexeme t b).closed = b ∧ ∀ c, lexeme t b ≠ plain c)
    (h : Takes read lexeme seen t) :
    ∃ l rest, seen.reverse ++ t = l.text ++ rest ∧ l.Taken ∧ (rest ≠ [] → Apart [l] rest) := by
  obtain ⟨body, closed, rest, rfl, -, hrest, htake⟩ := h
  obtain ⟨htext, hclosed, hplain⟩ := hl (seen.reverse ++ body) closed
  refine ⟨lexeme (seen.reverse ++ body) closed, rest, by simp [htext], ?_, ?_⟩
  · intro u hu
    rw [htext, List.append_assoc, hread]
    refine htake u fun hc => ?_
    by_contra hne
    rw [← hclosed, (apart_singleton.mp (hu hne)).1] at hc
    exact Bool.false_ne_true hc.symm
  · intro hne
    refine apart_singleton.mpr ⟨?_, fun he => absurd he (hplain '/')⟩
    rw [hclosed]
    by_contra hc
    exact hne (hrest (by simpa using hc))

theorem exists_taken (c : Char) (t : Text) :
    ∃ l rest, c :: t = l.text ++ rest ∧ l.Taken ∧ (rest ≠ [] → Apart [l] rest) := by
  by_cases hs : c = '/' ∧ t.head? = some '*'
  · obtain ⟨rfl, ht⟩ := hs
    obtain ⟨t, rfl⟩ := List.head?_eq_some_iff.mp ht
    refine (takes_scanComment ['*', '/'] t).exists_taken (fun u => ?_) fun _ _ => ⟨rfl, rfl, by simp⟩
    exact scan.eq_2 u
  · by_cases hq : c = '"' ∨ c = '\''
    · have hne : c ≠ '\\' := by rcases hq with rfl | rfl <;> decide
      refine (takes_scanQuoted hne [c] t).exists_taken (fun u => ?_) fun _ _ => ⟨rfl, rfl, by simp⟩
      exact scan_quote hq u
    · refine ⟨plain c, t, rfl, fun u hu => ?_, fun _ => apart_singleton.mpr ⟨rfl, fun hc => ?_⟩⟩
      · refine scan_eq_plain (fun hsu => ?_) hq
        rcases u with _ | ⟨d, u⟩
        · simp at hsu
        · exact (apart_singleton.mp (hu (List.cons_ne_nil d u))).2 (congrArg plain hsu.1) hsu.2
      · exact fun ht => hs ⟨by simpa using hc, ht⟩

/-- Induction over the lexemes of a text. -/
theorem scan_induction {P : Text → Prop} (nil : P [])
    (cons : ∀ l rest, Taken l → (rest ≠ [] → Apart [l] rest) → P rest → P (l.text ++ rest))
    (t : Text) : P t := by
  induction hn : t.length using Nat.strongRecOn generalizing t with
  | ind n ih =>
    rcases t with _ | ⟨c, t⟩
    · exact nil
    · obtain ⟨l, rest, he, hl, hrest⟩ := exists_taken c t
      have hpos := List.length_pos_iff.mpr hl.sound.text_ne_nil
      rw [he] at hn ⊢
      refine cons l rest hl hrest (ih rest.length ?_ rest rfl)
      rw [← hn, List.length_append]
      omega

theorem textOf_scan (t : Text) : textOf (scan t) = t := by
  induction t using scan_induction with
  | nil => rw [scan, textOf_nil]
  | cons l rest hl hrest ih => rw [hl rest hrest, textOf_cons, ih]

theorem scan_eq_nil : scan t = [] ↔ t = [] := by
  constructor
  · intro h
    rw [← textOf_scan t, h]
    rfl
  · rintro rfl
    rw [scan]

/-- Where a lexeme ends with a text, what follows is scanned on its own. -/
theorem scan_append (h : Apart (scan t) u) : scan (t ++ u) = scan t ++ scan u := by
  induction t using scan_induction with
  | nil => rw [scan, List.nil_append, List.nil_append]
  | cons l rest hl hrest ih =>
    rw [hl rest hrest] at h ⊢
    by_cases hne : rest = []
    · subst hne
      rw [scan] at h ⊢
      rw [List.append_nil, hl u fun _ => h, List.singleton_append]
    · have hapart := (hrest hne).append hne u
      rw [List.append_assoc, hl _ fun _ => hapart, ih h.tail, List.cons_append]

theorem Scannable.nil : Scannable [] := ⟨by simp, .nil⟩

theorem Scannable.cons (hs : l.Sound) (hb : ∀ m ∈ ms.head?, Beside l m) (h : Scannable ms) :
    Scannable (l :: ms) := by
  constructor
  · intro m hm
    rcases List.mem_cons.mp hm with rfl | hm
    · exact hs
    · exact h.sound m hm
  · exact List.isChain_cons.mpr ⟨hb, h.beside⟩

theorem Scannable.tail (h : Scannable (l :: ls)) : Scannable ls :=
  ⟨fun m hm => h.sound m (List.mem_cons_of_mem l hm), (List.isChain_cons.mp h.beside).2⟩

theorem head?_of_scan (h : plain c ∈ (scan t).head?) : t.head? = some c := by
  obtain ⟨ls, hls⟩ : ∃ ls, scan t = plain c :: ls := by
    rcases hs : scan t with _ | ⟨m, ls⟩ <;> rw [hs] at h <;> simp at h
    exact ⟨ls, h ▸ rfl⟩
  rw [← textOf_scan t, hls]
  rfl

/-- Scanning yields sound lexemes that may stand side by side. -/
theorem scannable_scan (t : Text) : Scannable (scan t) := by
  induction t using scan_induction with
  | nil =>
    rw [scan]
    exact .nil
  | cons l rest hl hrest ih =>
    rw [hl rest hrest]
    refine .cons hl.sound (fun m hm => ?_) ih
    have hne : rest ≠ [] := by
      rintro rfl
      simp [scan] at hm
    obtain ⟨hclosed, hnot⟩ := apart_singleton.mp (hrest hne)
    refine ⟨hclosed, ?_⟩
    rintro ⟨hslash, rfl⟩
    exact hnot hslash (head?_of_scan hm)

theorem Sound.eq_plain (h : l.Sound) (hc : l.text.head? = some '*') : l = plain '*' := by
  obtain ⟨t, ht⟩ := List.head?_eq_some_iff.mp hc
  rw [Sound, ht, scan_cons_of_ne (by simp) (by simp)] at h
  exact (List.cons.inj h).1.symm

theorem Sound.cases (h : l.Sound) :
    (∃ c, l = plain c ∧ ¬ (c = '"' ∨ c = '\'')) ∨
      (∃ c t closed, l = quoted (c :: t) closed ∧ (c = '"' ∨ c = '\'')) ∨
        ∃ t closed, l = comment ('/' :: '*' :: t) closed := by
  obtain ⟨c, t, ht⟩ := List.exists_cons_of_ne_nil h.text_ne_nil
  rw [Sound, ht] at h
  by_cases hs : c = '/' ∧ t.head? = some '*'
  · obtain ⟨rfl, hstar⟩ := hs
    obtain ⟨u, rfl⟩ := List.head?_eq_some_iff.mp hstar
    obtain ⟨body, closed, rest, rfl, -, hrest, htake⟩ := takes_scanComment ['*', '/'] u
    rw [scan, htake rest hrest] at h
    exact Or.inr (Or.inr ⟨body, closed, (List.cons.inj h).1.symm⟩)
  by_cases hq : c = '"' ∨ c = '\''
  · have hne : c ≠ '\\' := by rcases hq with rfl | rfl <;> decide
    obtain ⟨body, closed, rest, rfl, -, hrest, htake⟩ := takes_scanQuoted hne [c] t
    rw [scan_quote hq, htake rest hrest] at h
    exact Or.inr (Or.inl ⟨c, body, closed, (List.cons.inj h).1.symm, hq⟩)
  · rw [scan_eq_plain hs hq] at h
    exact Or.inl ⟨c, (List.cons.inj h).1.symm, hq⟩

theorem Sound.isQuote {closed : Bool} (h : (quoted (c :: t) closed).Sound) :
    c = '"' ∨ c = '\'' := by
  obtain ⟨d, he, -⟩ | ⟨d, u, b, he, hd⟩ | ⟨u, b, he⟩ := h.cases
  · cases he
  · cases he
    exact hd
  · cases he

theorem Sound.not_quote (h : (plain c).Sound) : ¬ (c = '"' ∨ c = '\'') := by
  obtain ⟨d, he, hd⟩ | ⟨d, u, b, he, -⟩ | ⟨u, b, he⟩ := h.cases
  · cases he
    exact hd
  · cases he
  · cases he

theorem Sound.isComment {closed : Bool} (h : (comment t closed).Sound) :
    ∃ u, t = '/' :: '*' :: u := by
  obtain ⟨d, he, -⟩ | ⟨d, u, b, he, -⟩ | ⟨u, b, he⟩ := h.cases
  · cases he
  · cases he
  · cases he
    exact ⟨u, rfl⟩

/-- The text that scannable lexemes spell is scanned into them again. -/
theorem Scannable.scan_textOf (h : Scannable ls) : scan (textOf ls) = ls := by
  induction ls with
  | nil => rfl
  | cons l ls ih =>
    have hl : l.Sound := h.sound l List.mem_cons_self
    have ha : ls ≠ [] → Apart (scan l.text) (textOf ls) := by
      intro hne
      obtain ⟨m, ls, rfl⟩ := List.exists_cons_of_ne_nil hne
      obtain ⟨hclosed, hnot⟩ := (List.isChain_cons.mp h.beside).1 m rfl
      have hm : m.Sound := h.tail.sound m List.mem_cons_self
      rw [show scan l.text = [l] from hl, apart_singleton]
      refine ⟨hclosed, fun he hc => hnot ⟨he, hm.eq_plain ?_⟩⟩
      rwa [textOf_cons, List.head?_append_of_ne_nil _ hm.text_ne_nil] at hc
    rcases eq_or_ne ls [] with rfl | hne
    · rw [textOf_cons, textOf_nil, List.append_nil]
      exact hl
    · rw [textOf_cons, scan_append (ha hne), ih h.tail, show scan l.text = [l] from hl]
      rfl

theorem Scannable.of_append (h : Scannable (ls ++ ms)) : Scannable ls ∧ Scannable ms := by
  have hc := List.isChain_append.mp h.beside
  exact ⟨⟨fun l hl => h.sound l (List.mem_append_left _ hl), hc.1⟩,
    ⟨fun l hl => h.sound l (List.mem_append_right _ hl), hc.2.1⟩⟩

theorem Scannable.append (hl : Scannable ls) (hm : Scannable ms)
    (h : ∀ l ∈ ls.getLast?, l.closed = true ∧ l ≠ plain '/') : Scannable (ls ++ ms) := by
  constructor
  · intro l hmem
    exact (List.mem_append.mp hmem).elim (hl.sound l) (hm.sound l)
  · refine List.isChain_append.mpr ⟨hl.beside, hm.beside, fun l hmem m _ => ?_⟩
    exact ⟨(h l hmem).1, fun he => (h l hmem).2 he.1⟩

def Plain (t : Text) : Prop :=
  (∀ c ∈ t, ¬ (c = '"' ∨ c = '\'')) ∧ t.IsChain fun a b => ¬ (a = '/' ∧ b = '*')

instance (t : Text) : Decidable (Plain t) :=
  decidable_of_iff ((t.all fun c => !decide (c = '"' ∨ c = '\'')) = true ∧
      t.IsChain fun a b => ¬ (a = '/' ∧ b = '*'))
    (by simp [Plain])

theorem Plain.nil : Plain [] := ⟨by simp, .nil⟩

theorem Plain.append (ht : Plain t) (hu : Plain u)
    (h : t.getLast? ≠ some '/' ∨ u.head? ≠ some '*') : Plain (t ++ u) := by
  constructor
  · intro c hc
    exact (List.mem_append.mp hc).elim (ht.1 c) (hu.1 c)
  · refine List.isChain_append.mpr ⟨ht.2, hu.2, ?_⟩
    rintro a ha b hb ⟨rfl, rfl⟩
    exact h.elim (· ha) (· hb)

theorem Plain.of_forall (h : ∀ c ∈ t, c ∉ ['"', '\'', '/']) : Plain t := by
  constructor
  · intro c hc hq
    have hn := h c hc
    simp only [List.mem_cons, List.not_mem_nil, or_false, not_or] at hn
    exact hq.elim hn.1 hn.2.1
  · refine List.isChain_iff_getElem.mpr ?_
    rintro i hi ⟨he, -⟩
    have hn := h _ (List.getElem_mem (by omega : i < t.length))
    simp [he] at hn

theorem Plain.append_cons (ht : Plain t) (hu : Plain u) (hc : c ∉ ['"', '\'', '/', '*']) :
    Plain (t ++ c :: u) := by
  simp only [List.mem_cons, List.not_mem_nil, or_false, not_or] at hc
  have hs : Plain [c] := .of_forall (by simp [hc])
  refine ht.append (hs.append hu (Or.inl ?_)) (Or.inr ?_)
  · simp [hc]
  · simp [hc]

theorem Plain.scan_eq (h : Plain t) : scan t = t.map plain := by
  have hs : Scannable (t.map plain) := by
    constructor
    · intro l hl
      obtain ⟨c, hc, rfl⟩ := List.mem_map.mp hl
      rw [Sound, text, scan_cons_of_ne (by simp) (h.1 c hc)]
      rfl
    · refine (List.isChain_map plain).mpr (h.2.imp ?_)
      rintro a b hab
      exact ⟨rfl, fun he => hab ⟨by simpa using he.1, by simpa using he.2⟩⟩
  have ht : textOf (t.map plain) = t := by
    simp [textOf, List.flatMap_map, text]
  rw [← hs.scan_textOf, ht]

def extend (u : Text) : Lexeme → Lexeme
  | plain c => plain c
  | quoted t closed => quoted (t ++ u) closed
  | comment t closed => comment (t ++ u) closed

def Inert (t : Text) : Prop :=
  ∀ c ∈ t, c ∉ ['"', '\'', '\\', '/']

instance (t : Text) : Decidable (Inert t) :=
  decidable_of_iff ((t.all fun c => !decide (c ∈ ['"', '\'', '\\', '/'])) = true) (by simp [Inert])

theorem Inert.tail (h : Inert (c :: t)) : Inert t :=
  fun d hd => h d (List.mem_cons_of_mem c hd)

theorem Inert.head_ne (h : Inert (c :: t)) {d : Char} (hd : d ∈ ['"', '\'', '\\', '/']) : c ≠ d := by
  rintro rfl
  exact h c List.mem_cons_self hd

theorem scanQuoted_of_inert {q : Char} (hq : q = '"' ∨ q = '\'') (h : Inert t) (seen : Text) :
    scanQuoted q seen t = [quoted (seen.reverse ++ t) false] := by
  induction t generalizing seen with
  | nil => simp [scanQuoted]
  | cons c t ih =>
    have hc : c ≠ q := h.head_ne (by rcases hq with rfl | rfl <;> simp)
    rw [scanQuoted_char hc fun hb => absurd hb (h.head_ne (by simp)), ih h.tail]
    simp

theorem scanComment_of_inert (h : Inert t) (seen : Text) :
    scanComment seen t = [comment (seen.reverse ++ t) false] := by
  induction t generalizing seen with
  | nil => simp [scanComment]
  | cons c t ih =>
    rw [scanComment_char, ih h.tail]
    · simp
    · rintro ⟨-, ht⟩
      obtain ⟨u, rfl⟩ := List.head?_eq_some_iff.mp ht
      exact h.tail.head_ne (by simp) rfl

section Open

variable {q : Char} {seen v : Text}

theorem scanQuoted_append_of_inert (hq : q = '"' ∨ q = '\'') (hu : Inert u)
    (h : scanQuoted q seen t = [quoted v false]) :
    scanQuoted q seen (t ++ u) = [quoted (v ++ u) false] := by
  have hne : q ≠ '\\' := by rcases hq with rfl | rfl <;> decide
  induction t using shielded_induction generalizing seen with
  | nil =>
    rw [scanQuoted] at h
    obtain rfl : seen.reverse = v := by simpa using h
    exact scanQuoted_of_inert hq hu seen
  | shield c t ih =>
    rw [scanQuoted_shield] at h
    rw [List.cons_append, List.cons_append, scanQuoted_shield, ih h]
  | char c t hc ih =>
    by_cases hcq : c = q
    · rw [hcq, scanQuoted_end hne] at h
      simp at h
    · rw [scanQuoted_char hcq hc] at h
      by_cases hb : c = '\\'
      · -- A backslash at the end shields the first character of what follows.
        obtain rfl := hc hb
        obtain rfl := hb
        rw [scanQuoted] at h
        obtain rfl : ('\\' :: seen).reverse = v := by simpa using h
        rcases u with _ | ⟨d, u⟩
        · rw [List.append_nil, scanQuoted_char hcq fun _ => rfl, scanQuoted, List.append_nil]
        · rw [List.singleton_append, scanQuoted_shield, scanQuoted_of_inert hq hu.tail]
          simp
      · rw [List.cons_append, scanQuoted_char hcq (absurd · hb), ih h]

theorem scanComment_append_of_inert (hu : Inert u) (h : scanComment seen t = [comment v false]) :
    scanComment seen (t ++ u) = [comment (v ++ u) false] := by
  induction t generalizing seen with
  | nil =>
    rw [scanComment] at h
    obtain rfl : seen.reverse = v := by simpa using h
    exact scanComment_of_inert hu seen
  | cons c t ih =>
    by_cases hc : c = '*' ∧ t.head? = some '/'
    · obtain ⟨rfl, ht⟩ := hc
      obtain ⟨t, rfl⟩ := List.head?_eq_some_iff.mp ht
      rw [scanComment_end] at h
      simp at h
    · rw [scanComment_char hc] at h
      rw [List.cons_append, scanComment_char, ih h]
      rintro ⟨rfl, hhead⟩
      rcases t with _ | ⟨d, t⟩
      · obtain ⟨u, rfl⟩ := List.head?_eq_some_iff.mp hhead
        exact hu.head_ne (by simp) rfl
      · exact hc ⟨rfl, hhead⟩

end Open

/-- What cannot end an open lexeme becomes part of it. -/
theorem Sound.scan_extend (h : l.Sound) (hl : l.closed = false) (hu : Inert u) :
    scan (l.text ++ u) = [l.extend u] := by
  cases l with
  | plain c => exact absurd hl.symm Bool.false_ne_true
  | quoted v closed =>
    obtain rfl : closed = false := hl
    obtain ⟨c, v, rfl⟩ := List.exists_cons_of_ne_nil h.text_ne_nil
    have hq := h.isQuote
    rw [Sound, text, scan_quote hq] at h
    rw [text, List.cons_append, scan_quote hq]
    exact scanQuoted_append_of_inert hq hu h
  | comment v closed =>
    obtain rfl : closed = false := hl
    obtain ⟨v, rfl⟩ := h.isComment
    rw [Sound, text, scan] at h
    rw [text, List.cons_append, List.cons_append, scan]
    exact scanComment_append_of_inert hu h

/-- What cannot end the open lexeme at the end of a text becomes part of it. -/
theorem scan_append_of_open (hu : Inert u) (h : scan t = ls ++ [l]) (hl : l.closed = false) :
    scan (t ++ u) = ls ++ [l.extend u] := by
  induction t using scan_induction generalizing ls with
  | nil => simp [scan] at h
  | cons m rest hm hrest ih =>
    rw [hm rest hrest] at h
    rcases ls with _ | ⟨n, ls⟩
    · obtain ⟨rfl, hnil⟩ := List.cons.inj h
      obtain rfl := scan_eq_nil.mp hnil
      rw [List.append_nil, hm.sound.scan_extend hl hu, List.nil_append]
    · obtain ⟨rfl, hscan⟩ := List.cons.inj h
      have hne : rest ≠ [] := by
        rintro rfl
        simp [scan] at hscan
      have hapart := (hrest hne).append hne u
      rw [List.append_assoc, hm _ fun _ => hapart, ih hscan, List.cons_append]

end Restyle.Lexeme
