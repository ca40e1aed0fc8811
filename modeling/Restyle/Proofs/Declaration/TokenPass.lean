import Restyle.Proofs.Declaration.ColorToken
import Restyle.Proofs.Text.Cut
import Restyle.Proofs.Text.Spacing

/-! # Passes over colour tokens

Whatever the passes over uses of colour tokens rewrite has the end `-hsl` of a
name in front of its first closing parenthesis. So in a text with one such name
only the use of this name is rewritten.
-/

namespace Restyle.Declaration

open Text

variable {b s t u w x y z f out name word : Text} {c : Char}

/-- No name ends in `-hsl`, in any case. -/
def HslFree (t : Text) : Prop :=
  contains (t.map fold) "-hsl" = false

instance (t : Text) : Decidable (HslFree t) :=
  inferInstanceAs (Decidable (_ = false))

namespace HslFree

theorem of_isInfix (h : HslFree t) (hu : u <:+: t) : HslFree u := by
  rw [HslFree, ← Bool.not_eq_true, contains_iff_isInfix] at h ⊢
  exact fun hin => h (hin.trans (hu.map fold))

theorem append_cons (ht : HslFree t) (hc : fold c ∉ ("-hsl" : Text)) (hu : HslFree u) :
    HslFree (t ++ c :: u) := by
  rw [HslFree, List.map_append, List.map_cons, contains_append_cons (by decide) hc, ht, hu]
  rfl

theorem not_isInfix (h : HslFree t) (hu : u.map fold = "-hsl") : ¬ u <:+: t := by
  intro hin
  have hu' := h.of_isInfix hin
  rw [HslFree, hu] at hu'
  exact absurd hu' (by decide)

end HslFree

section Fronts

def front (t : Text) : Text :=
  t.takeWhile (· ≠ ')')

theorem front_isPrefix (t : Text) : front t <+: t :=
  List.takeWhile_prefix _

theorem front_append_close (t u : Text) : front (t ++ ')' :: u) = front t :=
  takeWhile_append_cons (by decide) t u

theorem front_of_notMem (h : ')' ∉ t) : front t = t :=
  List.takeWhile_eq_self_iff.mpr fun _ hc => decide_eq_true fun he => h (he ▸ hc)

theorem front_append (hs : HslFree s) (hx : ')' ∉ x) (h : ¬ HslFree (front (s ++ x))) :
    front (s ++ x) = s ++ x := by
  by_cases hmem : ')' ∈ s
  · obtain ⟨s, u, rfl⟩ := List.append_of_mem hmem
    rw [List.append_assoc, List.cons_append, front_append_close] at h
    exact absurd (hs.of_isInfix ((front_isPrefix s).trans (List.prefix_append s _)).isInfix) h
  · exact front_of_notMem fun hmem' => (List.mem_append.mp hmem').elim hmem hx

theorem notMem_of_map_fold {u : Text} (h : w.map fold = u) (hc : fold c ∉ u) : c ∉ w :=
  fun hmem => hc (h ▸ List.mem_map_of_mem hmem)

theorem TokenUse.exists_brackets (h : TokenUse f name) :
    ∃ word inner, f = word ++ '(' :: inner ++ [')'] ∧ word.length = 3 ∧
      (∀ c ∈ word ++ inner, c ≠ '(' ∧ c ≠ ')') ∧ ¬ HslFree inner := by
  cases h with
  | @intro word blanks name ending blanks' hword hblank hne hname hending hblank' =>
    refine ⟨word, _, rfl, ?_, ?_, fun hfree => ?_⟩
    · rw [← List.length_map fold, hword]
      rfl
    · have hall : ∀ d, fold d ∉ ("var" : Text) → isBlank d = false → isFoldedNameChar d = false →
          d ∉ word ++ (blanks ++ "--" ++ (name ++ ending) ++ blanks') := by
        intro d hd hvisible hd' hmem
        have hdash : d ≠ '-' := by
          rintro rfl
          exact absurd hd' (by decide)
        simp only [List.mem_append] at hmem
        rcases hmem with hmem | ((hmem | hmem) | hmem) | hmem
        · exact notMem_of_map_fold hword hd hmem
        · exact absurd (hblank d hmem) (by simp [hvisible])
        · exact hdash (by simpa using hmem)
        · exact absurd (hname d (List.mem_append.mpr hmem)) (by simp [hd'])
        · exact absurd (hblank' d hmem) (by simp [hvisible])
      rintro c hc
      constructor <;> rintro rfl <;> exact hall _ (by decide) (by decide) (by decide) hc
    · exact hfree.not_isInfix hending ⟨blanks ++ "--" ++ name, blanks', by simp⟩

theorem BareUse.front_of_opens (h : BareUse.Opens t) :
    ∃ word inner name, TokenUse (front t ++ [')']) name ∧ front t = word ++ '(' :: inner ∧
      word.length = 3 ∧ '(' ∉ inner ∧ ¬ HslFree (front t) := by
  obtain ⟨f, out, rest, ⟨hf⟩, rfl⟩ := h
  obtain ⟨word, inner, rfl, hlen, hclear, hhsl⟩ := hf.exists_brackets
  have hclosed : ')' ∉ word ++ '(' :: inner := by
    simp only [List.mem_append, List.mem_cons, not_or]
    exact ⟨fun h => (hclear _ (List.mem_append_left _ h)).2 rfl, by decide,
      fun h => (hclear _ (List.mem_append_right _ h)).2 rfl⟩
  have hfront : front (word ++ '(' :: inner ++ [')'] ++ rest) = word ++ '(' :: inner := by
    rw [List.append_assoc, List.singleton_append, front_append_close, front_of_notMem hclosed]
  rw [hfront]
  exact ⟨word, inner, _, hf, rfl, hlen, fun h => (hclear _ (List.mem_append_right word h)).1 rfl,
    fun hfree => hhsl (hfree.of_isInfix ⟨word ++ ['('], [], by simp⟩)⟩

theorem FunctionUse.front_of_opens (h : FunctionUse.Opens t) :
    ∃ word gap inner, front t = word ++ '(' :: (gap ++ '(' :: inner) ∧ word.length = 3 ∧
      '(' ∉ gap ∧ '(' ∉ inner ∧ ¬ HslFree (front t) := by
  obtain ⟨f, out, rest, hf, rfl⟩ := h
  obtain ⟨word, blanks, g, name, behind, hword, hblank, hg, rfl⟩ : ∃ word blanks g name behind : Text,
      word.map fold = "hsl" ∧ Blank blanks ∧ TokenUse g name ∧
        f = word ++ '(' :: (blanks ++ g ++ behind) := by
    cases hf with
    | @plain word blanks g name blanks' hword hblank hg =>
      exact ⟨word, blanks, g, name, blanks' ++ [')'], hword, hblank, hg, by simp⟩
    | @mixed word blanks g name blanks' alpha hword hblank hg =>
      exact ⟨word, blanks, g, name, blanks' ++ '/' :: alpha ++ [')'], hword, hblank, hg, by simp⟩
  obtain ⟨v, inner, rfl, -, hclear, hhsl⟩ := hg.exists_brackets
  have hlen : word.length = 3 := by
    rw [← List.length_map fold, hword]
    rfl
  have hclosed : ')' ∉ word ++ '(' :: (blanks ++ v ++ '(' :: inner) := by
    simp only [List.mem_append, List.mem_cons, not_or]
    exact ⟨notMem_of_map_fold hword (by decide), by decide,
      ⟨fun h => absurd (hblank _ h) (by decide),
        fun h => (hclear _ (List.mem_append_left _ h)).2 rfl⟩, by decide,
      fun h => (hclear _ (List.mem_append_right _ h)).2 rfl⟩
  have hfront : front (word ++ '(' :: (blanks ++ (v ++ '(' :: inner ++ [')']) ++ behind) ++ rest) =
      word ++ '(' :: (blanks ++ v ++ '(' :: inner) := by
    have hsplit : word ++ '(' :: (blanks ++ (v ++ '(' :: inner ++ [')']) ++ behind) ++ rest =
        word ++ '(' :: (blanks ++ v ++ '(' :: inner) ++ ')' :: (behind ++ rest) := by simp
    rw [hsplit, front_append_close, front_of_notMem hclosed]
  rw [hfront]
  refine ⟨word, blanks ++ v, inner, rfl, hlen, fun h => ?_,
    fun h => (hclear _ (List.mem_append_right v h)).1 rfl,
    fun hfree => hhsl (hfree.of_isInfix ⟨word ++ '(' :: (blanks ++ v ++ ['(']), [], by simp⟩)⟩
  rcases List.mem_append.mp h with h | h
  · exact absurd (hblank _ h) (by decide)
  · exact (hclear _ (List.mem_append_left _ h)).1 rfl

theorem front_eq_of_split (hb : HslFree b) (hx : ')' ∉ x) (hsplit : b ++ x = y ++ s)
    (h : ¬ HslFree (front s)) : front s = s := by
  rcases List.append_eq_append_iff.mp hsplit with ⟨z, rfl, hz⟩ | ⟨z, rfl, rfl⟩
  · exact front_of_notMem fun hmem => hx (hz ▸ List.mem_append_right z hmem)
  · exact front_append (hb.of_isInfix (List.suffix_append y z).isInfix) hx h

/-- A bare use begins in front of its own word only. -/
theorem BareUse.eq_of_opens (hb : HslFree b) (hword : word.length = 3) (hopen : '(' ∉ x)
    (hclosed : ')' ∉ word ++ '(' :: x) (hsplit : b ++ (word ++ '(' :: x) = y ++ s)
    (h : BareUse.Opens (s ++ ')' :: u)) : y = b := by
  obtain ⟨w, inner, name, -, hfront, hlen, hinner, hhsl⟩ := BareUse.front_of_opens h
  rw [front_append_close] at hfront hhsl
  rw [front_eq_of_split hb hclosed hsplit hhsl] at hfront
  rw [hfront, ← List.append_assoc, ← List.append_assoc] at hsplit
  obtain ⟨hbefore, -⟩ := append_cons_inj_of_last hopen hinner hsplit
  exact (List.append_inj_left' hbefore (by rw [hword, hlen])).symm

/-- A use inside `hsl( )` begins in front of the first word only. -/
theorem FunctionUse.eq_of_opens {gap : Text} (hb : HslFree b) (hword : word.length = 3)
    (hgap : '(' ∉ gap) (hopen : '(' ∉ x) (hclosed : ')' ∉ word ++ '(' :: (gap ++ '(' :: x))
    (hsplit : b ++ (word ++ '(' :: (gap ++ '(' :: x)) = y ++ s)
    (h : FunctionUse.Opens (s ++ ')' :: u)) : y = b := by
  obtain ⟨w, gap', inner, hfront, hlen, hgap', hinner, hhsl⟩ := FunctionUse.front_of_opens h
  rw [front_append_close] at hfront hhsl
  rw [front_eq_of_split hb hclosed hsplit hhsl] at hfront
  have houter : b ++ word ++ '(' :: gap ++ '(' :: x = y ++ w ++ '(' :: gap' ++ '(' :: inner := by
    simpa [hfront] using hsplit
  obtain ⟨hinside, -⟩ := append_cons_inj_of_last hopen hinner houter
  obtain ⟨hbefore, -⟩ := append_cons_inj_of_last hgap hgap' hinside
  exact (List.append_inj_left' hbefore (by rw [hword, hlen])).symm

end Fronts

section Passes

variable {P : Grammar} {r : Recogniser Text}

theorem substitute_of_hslFree (hr : r.Reads P) (hP : ∀ t, P.Opens t → ¬ HslFree (front t))
    (h : HslFree t) : substitute r t = t := by
  have hleft := hr.substitute_left (w := t) (t := []) fun x y hxy _ hopens => by
    rw [List.append_nil] at hopens
    refine hP y hopens (h.of_isInfix ?_)
    exact (front_isPrefix y).isInfix.trans (hxy ▸ (List.suffix_append x y).isInfix)
  rwa [List.append_nil, substitute_nil, List.append_nil] at hleft

theorem substitute_hslFunction_of_hslFree (h : HslFree t) : substitute hslFunction t = t := by
  refine substitute_of_hslFree reads_hslFunction (fun u hu => ?_) h
  obtain ⟨-, -, -, -, -, -, -, hhsl⟩ := FunctionUse.front_of_opens hu
  exact hhsl

theorem substitute_bareHsl_of_hslFree (h : HslFree t) : substitute bareHsl t = t := by
  refine substitute_of_hslFree reads_bareHsl (fun u hu => ?_) h
  obtain ⟨-, -, -, -, -, -, -, hhsl⟩ := BareUse.front_of_opens hu
  exact hhsl

theorem substitute_hslFunction {gap : Text} (hb : HslFree b) (hu : HslFree u)
    (hword : word.length = 3) (hgap : '(' ∉ gap) (hopen : '(' ∉ x)
    (hclosed : ')' ∉ word ++ '(' :: (gap ++ '(' :: x))
    (hf : FunctionUse (word ++ '(' :: (gap ++ '(' :: x) ++ ')' :: z) out) :
    substitute hslFunction (b ++ (word ++ '(' :: (gap ++ '(' :: x) ++ ')' :: z) ++ u) =
      b ++ out ++ u := by
  rw [List.append_assoc, reads_hslFunction.substitute_left, reads_hslFunction.substitute_append hf,
    substitute_hslFunction_of_hslFree hu, List.append_assoc]
  rintro y s rfl hs hopens
  have hsplit : y ++ s ++ (word ++ '(' :: (gap ++ '(' :: x)) =
      y ++ (s ++ (word ++ '(' :: (gap ++ '(' :: x))) := List.append_assoc _ _ _
  have hy := FunctionUse.eq_of_opens (u := z ++ u) hb hword hgap hopen hclosed hsplit
    (by simpa using hopens)
  exact hs (List.self_eq_append_right.mp hy)

theorem substitute_bareHsl_of_use (hb : HslFree b) (hu : HslFree u) (hword : word.length = 3)
    (hopen : '(' ∉ x) (hclosed : ')' ∉ word ++ '(' :: x)
    (hf : TokenUse (word ++ '(' :: x ++ [')']) name) :
    substitute bareHsl (b ++ (word ++ '(' :: x ++ [')']) ++ u) = b ++ useOf name ++ u := by
  rw [List.append_assoc, reads_bareHsl.substitute_left, reads_bareHsl.substitute_append (.intro hf),
    substitute_bareHsl_of_hslFree hu, List.append_assoc]
  rintro y s rfl hs hopens
  have hsplit : y ++ s ++ (word ++ '(' :: x) = y ++ (s ++ (word ++ '(' :: x)) :=
    List.append_assoc _ _ _
  have hy := BareUse.eq_of_opens (u := u) hb hword hopen hclosed hsplit (by simpa using hopens)
  exact hs (List.self_eq_append_right.mp hy)

theorem substitute_bareHsl_of_not_use (hb : HslFree b) (hu : HslFree u) (hword : word.length = 3)
    (hopen : '(' ∉ x) (hclosed : ')' ∉ word ++ '(' :: x)
    (hf : ∀ name, ¬ TokenUse (word ++ '(' :: x ++ [')']) name) :
    substitute bareHsl (b ++ (word ++ '(' :: x ++ [')']) ++ u) =
      b ++ (word ++ '(' :: x ++ [')']) ++ u := by
  have hrest : HslFree (')' :: u) := HslFree.append_cons (t := []) (by decide) (by decide) hu
  have hsplit : b ++ (word ++ '(' :: x ++ [')']) ++ u = b ++ (word ++ '(' :: x) ++ ')' :: u := by simp
  rw [hsplit, reads_bareHsl.substitute_left, substitute_bareHsl_of_hslFree hrest]
  intro y s hys hs hopens
  obtain rfl := BareUse.eq_of_opens hb hword hopen hclosed hys hopens
  obtain rfl := List.append_cancel_left hys
  obtain ⟨-, -, name, huse, -⟩ := BareUse.front_of_opens hopens
  rw [front_append_close, front_of_notMem hclosed] at huse
  exact hf name huse

end Passes

end Restyle.Declaration
