import Restyle.Proofs.Declaration.PhysicalName
import Restyle.Proofs.Declaration.PropertyName

/-! # What the pass to logical properties leaves alone

The pass keeps the lexemes of a stylesheet apart from the names it replaces, so
a statement is read in the same way before and after it. Nothing but property
names has changed exactly if each place where the pass renames something stands
in a property name.
-/

namespace Restyle.Declaration

open Text Lexeme

variable {b p p' q q' t u x x' y y' w name blanks seen seen' : Text} {e : Text × Text} {c : Char}

/-- Two texts that differ at a place both have. -/
def Clash (x y : Text) : Prop :=
  ∃ d ∈ x.zip y, d.1 ≠ d.2

namespace Clash

theorem ne (h : Clash x y) : x ≠ y := by
  rintro rfl
  obtain ⟨d, hd, hne⟩ := h
  induction x with
  | nil => simp at hd
  | cons a x ih =>
    rcases List.mem_cons.mp hd with rfl | hd
    · exact hne rfl
    · exact ih hd

theorem append (h : Clash x y) (x' y' : Text) : Clash (x ++ x') (y ++ y') := by
  obtain ⟨d, hd, hne⟩ := h
  refine ⟨d, ?_, hne⟩
  induction x generalizing y with
  | nil => simp at hd
  | cons a x ih =>
    cases y with
    | nil => simp at hd
    | cons b y =>
      rw [List.zip_cons_cons] at hd
      rw [List.cons_append, List.cons_append, List.zip_cons_cons]
      exact (List.mem_cons.mp hd).elim (· ▸ List.mem_cons_self) fun hd =>
        List.mem_cons_of_mem _ (ih hd)

theorem prepend (h : Clash x y) (w : Text) : Clash (w ++ x) (w ++ y) := by
  obtain ⟨d, hd, hne⟩ := h
  refine ⟨d, ?_, hne⟩
  rw [List.zip_append rfl]
  exact List.mem_append_right _ hd

theorem of_map {f : Char → Char} (h : Clash (x.map f) (y.map f)) : Clash x y := by
  obtain ⟨d, hd, hne⟩ := h
  rw [List.zip_map] at hd
  obtain ⟨⟨a, b⟩, hab, rfl⟩ := List.mem_map.mp hd
  refine ⟨(a, b), hab, fun he => hne (congrArg f he)⟩

end Clash

theorem Physical.clash (h : Physical e name blanks) : Clash name e.2 := by
  have hall : ∀ e ∈ logicalNames,
      (((e.1.map fold).zip (e.2.map fold)).any fun d => d.1 != d.2) = true := by decide +kernel
  obtain ⟨d, hd, hne⟩ := List.any_eq_true.mp (hall e h.listed)
  apply Clash.of_map (f := fold)
  rw [h.spelled]
  exact ⟨d, hd, bne_iff_ne.mp hne⟩

/-- A part of a text and what becomes of it: where nothing is exposed it stays, and else the two
clash. -/
def Part (b p p' t : Text) : Prop :=
  (p = p' ∧ ∀ x y, p = x ++ y → y ≠ [] → ¬ Exposed (b ++ x) (y ++ t)) ∨
    (Clash p p' ∧ ∃ x y, p = x ++ y ∧ y ≠ [] ∧ Exposed (b ++ x) (y ++ t))

namespace Part

theorem nil (b t : Text) : Part b [] [] t := by
  refine Or.inl ⟨rfl, fun x y hxy hy => ?_⟩
  exact absurd (List.append_eq_nil_iff.mp hxy.symm).2 hy

theorem keep (h : ¬ Exposed b (c :: t)) : Part b [c] [c] t := by
  refine Or.inl ⟨rfl, fun x y hxy hy => ?_⟩
  rcases List.singleton_eq_append_iff.mp hxy with ⟨rfl, rfl⟩ | ⟨-, rfl⟩
  · rwa [List.append_nil]
  · exact absurd rfl hy

theorem edit (hp : Physical e name blanks) (he : Exposed b (name ++ blanks ++ [':'] ++ t)) :
    Part b (name ++ blanks ++ [':']) (e.2 ++ [':']) t := by
  refine Or.inr ⟨?_, [], _, rfl, by simp, by rwa [List.append_nil]⟩
  rw [List.append_assoc]
  exact hp.clash.append _ _

theorem append (h : Part b p p' (q ++ t)) (h' : Part (b ++ p) q q' t) :
    Part b (p ++ q) (p' ++ q') t := by
  rcases h with ⟨rfl, hp⟩ | ⟨hclash, x, y, rfl, hy, he⟩
  · rcases h' with ⟨rfl, hq⟩ | ⟨hclash, x, y, rfl, hy, he⟩
    · refine Or.inl ⟨rfl, fun x y hxy hy => ?_⟩
      rcases List.append_eq_append_iff.mp hxy with ⟨z, rfl, rfl⟩ | ⟨z, rfl, rfl⟩
      · rw [← List.append_assoc]
        exact hq z y rfl hy
      · rcases eq_or_ne z [] with rfl | hz
        · have hnot := hq [] q rfl (by simpa using hy)
          rwa [List.append_nil, List.append_nil] at hnot
        · rw [List.append_assoc]
          exact hp x z rfl hz
    · refine Or.inr ⟨hclash.prepend p, p ++ x, y, by rw [List.append_assoc], hy, ?_⟩
      rwa [← List.append_assoc]
  · refine Or.inr ⟨hclash.append q q', x, y ++ q, by rw [List.append_assoc], by simp [hy], ?_⟩
    rwa [List.append_assoc]

theorem cons (hc : ¬ Exposed b (c :: (q ++ t))) (h : Part (b ++ [c]) q q' t) :
    Part b (c :: q) (c :: q') t :=
  (keep hc).append h

end Part

def Steady (t : Text) : Prop :=
  ∀ c ∈ t, c ∉ ['/', '*', '"', '\'', '\\']

namespace Steady

theorem tail (h : Steady (c :: t)) : Steady t :=
  fun d hd => h d (List.mem_cons_of_mem c hd)

theorem notMem (h : Steady w) {c : Char} (hc : c ∈ ['/', '*', '"', '\'', '\\']) : c ∉ w :=
  fun hmem => h c hmem hc

theorem scan_append (h : Steady w) (t : Text) : scan (w ++ t) = w.map plain ++ scan t := by
  refine scan_plain_append (fun c hc => ?_) t
  have hsteady := h c hc
  simp only [List.mem_cons, List.not_mem_nil, or_false, not_or] at hsteady ⊢
  exact ⟨hsteady.2.2.1, hsteady.2.2.2.1, hsteady.1⟩

theorem scanComment_append (h : Steady w) (seen t : Text) :
    scanComment seen (w ++ t) = scanComment (w.reverse ++ seen) t :=
  Lexeme.scanComment_append (h.notMem (by decide)) seen t

theorem scanQuoted_append {q : Char} (hq : q = '"' ∨ q = '\'') (h : Steady w) (seen t : Text) :
    scanQuoted q seen (w ++ t) = scanQuoted q (w.reverse ++ seen) t := by
  have hquote : q ∉ w := h.notMem (by rcases hq with rfl | rfl <;> decide)
  exact Lexeme.scanQuoted_append hquote (h.notMem (by decide)) seen t

/-- A backslash shields the first of some characters, and so all of them stay quoted. -/
theorem scanQuoted_shield {q : Char} (hq : q = '"' ∨ q = '\'') (h : Steady w) (hw : w ≠ [])
    (seen t : Text) :
    scanQuoted q seen ('\\' :: w ++ t) = scanQuoted q (('\\' :: w).reverse ++ seen) t := by
  obtain ⟨c, w, rfl⟩ := List.exists_cons_of_ne_nil hw
  rw [List.cons_append, List.cons_append, Lexeme.scanQuoted_shield, h.tail.scanQuoted_append hq]
  simp

end Steady

theorem dull_of_nameChars (h : ∀ c ∈ t, isNameChar c = true) : Cursor.Dull t := by
  intro c hc
  have hnone : ([':', ';', '{', '}', '(', ')', '@', '/', '*', '"', '\'', '\\'].all
      fun d => !isNameChar d) = true := by decide
  exact notMem_of_all hnone (by simp [h c hc])

namespace Physical

theorem dull (h : Physical e name blanks) : Cursor.Dull (name ++ blanks) := by
  intro c hc
  rcases List.mem_append.mp hc with hc | hc
  · exact dull_of_nameChars (fun d hd => h.isNameChar_of_mem hd) c hc
  · exact h.blank.notMem hc (by decide)

theorem dull_logical (h : Physical e name blanks) : Cursor.Dull e.2 :=
  dull_of_nameChars fun _ hc => h.isNameChar_of_mem_logical hc

theorem exists_cons (h : Physical e name blanks) :
    ∃ c t, name = c :: t ∧ isNameChar c = true := by
  obtain ⟨c, t, rfl⟩ := List.exists_cons_of_ne_nil h.ne_nil
  exact ⟨c, t, rfl, h.isNameChar_of_mem List.mem_cons_self⟩

theorem exists_cons_logical (h : Physical e name blanks) :
    ∃ c t, e.2 = c :: t ∧ isNameChar c = true := by
  have hall : ∀ e ∈ logicalNames, e.2 ≠ [] := by decide +kernel
  obtain ⟨c, t, ht⟩ := List.exists_cons_of_ne_nil (hall e h.listed)
  exact ⟨c, t, ht, h.isNameChar_of_mem_logical (ht ▸ List.mem_cons_self)⟩

end Physical

theorem Steady.of_dull (h : Cursor.Dull t) : Steady (t ++ [':']) := by
  intro c hc
  rcases List.mem_append.mp hc with hc | hc
  · have hall := h c hc
    simp only [List.mem_cons, not_or] at hall ⊢
    exact hall.2.2.2.2.2.2.2
  · rw [List.mem_singleton.mp hc]
    decide

namespace Edited

theorem eq_nil (h : Edited b t u) (ht : t = []) : u = [] := by
  cases h with
  | nil => rfl
  | keep => exact absurd ht (List.cons_ne_nil _ _)
  | edit => simp at ht

theorem exists_tail (h : Edited b t u) (hc : isNameChar c = false) (ht : t = c :: x) :
    ∃ y, u = c :: y ∧ ¬ Exposed b (c :: x) ∧ Edited (b ++ [c]) x y := by
  cases h with
  | nil => exact absurd ht.symm (List.cons_ne_nil c x)
  | keep hd h =>
    obtain ⟨rfl, rfl⟩ := List.cons.inj ht
    exact ⟨_, rfl, hd, h⟩
  | edit hp he h =>
    obtain ⟨d, n, rfl, hd⟩ := hp.exists_cons
    rw [(List.cons.inj ht).1, hc] at hd
    exact absurd hd Bool.false_ne_true

theorem head?_iff (h : Edited b t u) (hc : isNameChar c = false) :
    u.head? = some c ↔ t.head? = some c := by
  cases h with
  | nil => rfl
  | keep => rfl
  | edit hp he h =>
    obtain ⟨d, n, rfl, hd⟩ := hp.exists_cons
    obtain ⟨d', n', hn', hd'⟩ := hp.exists_cons_logical
    have hne : d ≠ c := by
      rintro rfl
      simp [hc] at hd
    have hne' : d' ≠ c := by
      rintro rfl
      simp [hc] at hd'
    simp [hn', hne, hne']

end Edited

/-- A reader inside a lexeme takes a part of a text, and the part that the pass makes of it from
what the pass makes of the text. -/
def Reads (read : Text → Text → List Lexeme) (lexeme : Text → Bool → Lexeme)
    (b seen seen' t u : Text) : Prop :=
  ∃ p p' closed rest rest', t = p ++ rest ∧ u = p' ++ rest' ∧
    read seen t = lexeme (seen.reverse ++ p) closed :: scan rest ∧
    read seen' u = lexeme (seen'.reverse ++ p') closed :: scan rest' ∧
    Part b p p' rest ∧ Edited (b ++ p) rest rest'

namespace Reads

variable {read : Text → Text → List Lexeme} {lexeme : Text → Bool → Lexeme}

theorem nil (h : ∀ seen, read seen [] = [lexeme seen.reverse false]) :
    Reads read lexeme b seen seen' [] [] := by
  refine ⟨[], [], false, [], [], rfl, rfl, ?_, ?_, .nil b [], .nil⟩
  · rw [h, List.append_nil, scan]
  · rw [h, List.append_nil, scan]

theorem stop (p : Text) (h : ∀ seen u, read seen (p ++ u) = lexeme (seen.reverse ++ p) true :: scan u)
    (hp : Part b p p t) (ht : Edited (b ++ p) t u) :
    Reads read lexeme b seen seen' (p ++ t) (p ++ u) :=
  ⟨p, p, true, t, u, rfl, rfl, h seen t, h seen' u, hp, ht⟩

theorem goOn (p p' : Text) (hread : read seen (p ++ t) = read (p.reverse ++ seen) t)
    (hread' : read seen' (p' ++ u) = read (p'.reverse ++ seen') u) (hp : Part b p p' t)
    (h : Reads read lexeme (b ++ p) (p.reverse ++ seen) (p'.reverse ++ seen') t u) :
    Reads read lexeme b seen seen' (p ++ t) (p' ++ u) := by
  obtain ⟨q, q', closed, rest, rest', rfl, rfl, hq, hq', hpart, hrest⟩ := h
  refine ⟨p ++ q, p' ++ q', closed, rest, rest', by simp, by simp, ?_, ?_, hp.append hpart, ?_⟩
  · rw [hread, hq]
    simp
  · rw [hread', hq']
    simp
  · rwa [← List.append_assoc]

end Reads

theorem reads_comment (h : Edited b t u) :
    Reads scanComment comment b seen seen' t u := by
  induction h generalizing seen seen' with
  | nil => exact .nil fun seen => by rw [scanComment]
  | @keep b c t u hc h ih =>
    by_cases hend : c = '*' ∧ t.head? = some '/'
    · obtain ⟨rfl, ht⟩ := hend
      obtain ⟨t, rfl⟩ := List.head?_eq_some_iff.mp ht
      obtain ⟨u, rfl, hd, h⟩ := h.exists_tail (by decide) rfl
      have hpart : Part b ['*', '/'] ['*', '/'] t := .cons hc (.keep hd)
      refine .stop ['*', '/'] (fun seen u => ?_) hpart (by rwa [List.append_cons])
      rw [List.cons_append, List.singleton_append, scanComment_end]
      simp
    · have hend' : ¬ (c = '*' ∧ u.head? = some '/') := by
        rwa [h.head?_iff (by decide)]
      exact .goOn [c] [c] (scanComment_char hend) (scanComment_char hend')
        (.keep hc) ih
  | @edit b name blanks t u e hp he h ih =>
    exact .goOn _ _ ((Steady.of_dull hp.dull).scanComment_append seen t)
      ((Steady.of_dull hp.dull_logical).scanComment_append seen' u) (.edit hp he) ih

theorem reads_quoted {q : Char} (hq : q = '"' ∨ q = '\'') (h : Edited b t u) :
    Reads (scanQuoted q) quoted b seen seen' t u := by
  have hne : q ≠ '\\' := by rcases hq with rfl | rfl <;> decide
  induction hn : t.length using Nat.strongRecOn generalizing b t u seen seen' with
  | ind n ih =>
    cases h with
    | nil => exact .nil fun seen => by rw [scanQuoted]
    | @edit _ name blanks t u e hp he h =>
      refine .goOn _ _ ((Steady.of_dull hp.dull).scanQuoted_append hq seen t)
        ((Steady.of_dull hp.dull_logical).scanQuoted_append hq seen' u) (.edit hp he)
        (ih t.length ?_ h rfl)
      simp only [← hn, List.length_append, List.length_cons]
      omega
    | @keep _ c t u hc h =>
      by_cases hcq : c = q
      · subst hcq
        refine .stop [c] (fun seen u => ?_) (.keep hc) h
        rw [List.singleton_append, scanQuoted_end hne]
        simp
      · by_cases hb : c = '\\' ∧ t ≠ []
        · obtain ⟨rfl, ht⟩ := hb
          cases h with
          | nil => exact absurd rfl ht
          | @keep _ d t u hd h =>
            refine .goOn ['\\', d] ['\\', d] (scanQuoted_shield q seen d t)
              (scanQuoted_shield q seen' d u) (.cons hc (.keep hd))
              (ih t.length ?_ (by rwa [List.append_cons]) rfl)
            simp only [← hn, List.length_cons]
            omega
          | @edit _ name blanks t u e hp he h =>
            refine .goOn ('\\' :: (name ++ blanks ++ [':'])) ('\\' :: (e.2 ++ [':']))
              ((Steady.of_dull hp.dull).scanQuoted_shield hq (by simp) seen t)
              ((Steady.of_dull hp.dull_logical).scanQuoted_shield hq (by simp) seen' u)
              (.cons hc (.edit hp he)) (ih t.length ?_ (by rwa [List.append_cons]) rfl)
            simp only [← hn, List.length_append, List.length_cons]
            omega
        · have ht : c = '\\' → t = [] := fun hc => by_contra fun ht => hb ⟨hc, ht⟩
          have hu : c = '\\' → u = [] := fun hc => h.eq_nil (ht hc)
          refine .goOn [c] [c] (scanQuoted_char hcq ht) (scanQuoted_char hcq hu) (.keep hc)
            (ih t.length ?_ h rfl)
          rw [← hn, List.length_cons]
          omega

/-- Lexemes of one kind; plain characters only if they are the same. -/
inductive Alike : Lexeme → Lexeme → Prop
  | plain (c : Char) : Alike (.plain c) (.plain c)
  | quoted (t u : Text) (closed : Bool) : Alike (.quoted t closed) (.quoted u closed)
  | comment (t u : Text) (closed : Bool) : Alike (.comment t closed) (.comment u closed)

inductive Recast : Text → List Lexeme → List Lexeme → Prop
  | nil {b : Text} : Recast b [] []
  | lexeme {b : Text} {l l' : Lexeme} {ls ms : List Lexeme} (hl : Alike l l') (hne : l.text ≠ [])
      (hp : Part b l.text l'.text (textOf ls)) (h : Recast (b ++ l.text) ls ms) :
      Recast b (l :: ls) (l' :: ms)
  | name {b name blanks : Text} {e : Text × Text} {ls ms : List Lexeme}
      (hp : Physical e name blanks) (he : Exposed b (name ++ blanks ++ [':'] ++ textOf ls))
      (h : Recast (b ++ (name ++ blanks ++ [':'])) ls ms) :
      Recast b ((name ++ blanks ++ [':']).map .plain ++ ls) ((e.2 ++ [':']).map .plain ++ ms)

theorem Recast.of_reads {read : Text → Text → List Lexeme} {lexeme : Text → Bool → Lexeme} {v : Text}
    (hv : v ≠ []) (hscan : ∀ u, scan (v ++ u) = read v.reverse u)
    (hlexeme : ∀ t u closed, (lexeme t closed).text = t ∧ Alike (lexeme t closed) (lexeme u closed))
    (hpart : Part b v v t) (h : Reads read lexeme (b ++ v) v.reverse v.reverse t u)
    (ih : ∀ b' t' u', t'.length ≤ t.length → Edited b' t' u' → Recast b' (scan t') (scan u')) :
    Recast b (scan (v ++ t)) (scan (v ++ u)) := by
  obtain ⟨p, p', closed, rest, rest', rfl, rfl, hread, hread', hp, hrest⟩ := h
  obtain ⟨htext, halike⟩ := hlexeme (v ++ p) (v ++ p') closed
  obtain ⟨htext', -⟩ := hlexeme (v ++ p') (v ++ p') closed
  rw [List.reverse_reverse] at hread hread'
  rw [hscan, hscan, hread, hread']
  refine .lexeme halike ?_ ?_ (ih _ _ _ ?_ ?_)
  · rw [htext]
    exact fun he => hv (List.append_eq_nil_iff.mp he).1
  · rw [htext, htext', textOf_scan]
    exact hpart.append hp
  · rw [List.length_append]
    omega
  · rwa [htext, ← List.append_assoc]

/-- Scanning keeps in step with the pass. -/
theorem recast_scan (h : Edited b t u) : Recast b (scan t) (scan u) := by
  induction hn : t.length using Nat.strongRecOn generalizing b t u with
  | ind n ih =>
    cases h with
    | nil =>
      rw [scan]
      exact .nil
    | @edit _ name blanks t u e hp he h =>
      have hlen : t.length < n := by
        simp only [← hn, List.length_append, List.length_cons]
        omega
      rw [(Steady.of_dull hp.dull).scan_append, (Steady.of_dull hp.dull_logical).scan_append]
      exact .name hp (by rwa [textOf_scan]) (ih t.length hlen h rfl)
    | @keep _ c t u hc h =>
      rw [List.length_cons] at hn
      by_cases hs : c = '/' ∧ t.head? = some '*'
      · obtain ⟨rfl, ht⟩ := hs
        obtain ⟨t, rfl⟩ := List.head?_eq_some_iff.mp ht
        obtain ⟨u, rfl, hd, h⟩ := h.exists_tail (by decide) rfl
        refine .of_reads (v := ['/', '*']) (by simp) (fun u => scan.eq_2 u)
          (fun t u closed => ⟨rfl, .comment t u closed⟩) (.cons hc (.keep hd))
          (reads_comment (by rwa [List.append_cons])) ?_
        exact fun b' t' u' hlen h' => ih t'.length (by rw [← hn, List.length_cons]; omega) h' rfl
      · by_cases hq : c = '"' ∨ c = '\''
        · refine .of_reads (v := [c]) (List.cons_ne_nil c []) (fun u => scan_quote hq u)
            (fun t u closed => ⟨rfl, .quoted t u closed⟩) (.keep hc) (reads_quoted hq h) ?_
          exact fun b' t' u' hlen h' => ih t'.length (by omega) h' rfl
        · have hs' : ¬ (c = '/' ∧ u.head? = some '*') := by
            rwa [h.head?_iff (by decide)]
          rw [scan_eq_plain hs hq, scan_eq_plain hs' hq]
          exact .lexeme (.plain c) (List.cons_ne_nil c []) (by rw [textOf_scan]; exact .keep hc)
            (ih t.length (by omega) h rfl)

namespace Alike

variable {l l' : Lexeme} {k : Cursor} {ls ms : List Lexeme}

theorem step_eq (h : Alike l l') (k : Cursor) : k.step l = k.step l' := by
  cases h <;> rfl

theorem inName_eq (h : Alike l l') (hdeclares : ∀ d, Cursor.declares d ls = Cursor.declares d ms) :
    k.inName l ls = k.inName l' ms := by
  cases h with
  | plain c => rw [Cursor.inName, Cursor.inName, hdeclares]
  | quoted t u closed => rfl
  | comment t u closed => rfl

end Alike

namespace Recast

variable {ls ms : List Lexeme}

theorem opensBlock_eq (h : Recast b ls ms) (depth : Nat) :
    Cursor.opensBlock depth ls = Cursor.opensBlock depth ms := by
  induction h generalizing depth with
  | nil => rfl
  | lexeme hl hne hp h ih =>
    cases hl with
    | plain c => rw [Cursor.opensBlock, Cursor.opensBlock, ih]
    | quoted t u closed => exact ih depth
    | comment t u closed => exact ih depth
  | name hp he h ih =>
    rw [hp.dull.opensBlock_name, hp.dull_logical.opensBlock_name, ih]

theorem declares_eq (h : Recast b ls ms) (depth : Nat) :
    Cursor.declares depth ls = Cursor.declares depth ms := by
  induction h generalizing depth with
  | nil => rfl
  | lexeme hl hne hp h ih =>
    cases hl with
    | plain c => rw [Cursor.declares, Cursor.declares, ih, h.opensBlock_eq]
    | quoted t u closed => rfl
    | comment t u closed => exact ih depth
  | name hp he h ih =>
    rw [hp.dull.declares_name, hp.dull_logical.declares_name, h.opensBlock_eq]

end Recast

theorem forall_exposed_append {Q : Text → Prop}
    (hp : ∀ x y, p = x ++ y → y ≠ [] → Exposed (b ++ x) (y ++ t) → Q x) :
    (∀ x y, p ++ t = x ++ y → Exposed (b ++ x) y → Q x) ↔
      ∀ x y, t = x ++ y → Exposed (b ++ p ++ x) y → Q (p ++ x) := by
  constructor
  · rintro h x y rfl he
    refine h (p ++ x) y (List.append_assoc p x y).symm ?_
    rwa [← List.append_assoc]
  · intro h x y hxy he
    rcases List.append_eq_append_iff.mp hxy with ⟨z, rfl, rfl⟩ | ⟨z, rfl, rfl⟩
    · exact h z y rfl (by rwa [List.append_assoc])
    · rcases eq_or_ne z [] with rfl | hz
      · have hstart := h [] t rfl
        simp only [List.append_nil, List.nil_append] at he hstart ⊢
        exact hstart he
      · exact hp x z rfl hz he

namespace Recast

variable {ls ms : List Lexeme}

/-- Outside the names nothing has changed exactly if whatever is renamed stands in a name. -/
theorem withoutNames_eq_iff (h : Recast b ls ms) (k : Cursor) :
    k.withoutNames ls = k.withoutNames ms ↔
      ∀ x y, textOf ls = x ++ y → Exposed (b ++ x) y → k.Inside ls x := by
  induction h generalizing k with
  | nil =>
    refine iff_of_true rfl fun x y hxy he => ?_
    obtain ⟨c, t, rfl, -⟩ := he.exists_cons
    simp at hxy
  | @lexeme b l l' ls ms hl hne hp h ih =>
    have hin := hl.inName_eq (k := k) h.declares_eq
    rw [textOf_cons, Cursor.withoutNames, Cursor.withoutNames, ← hin, ← hl.step_eq]
    rcases hp with ⟨htext, hnot⟩ | ⟨hclash, x, y, hxy, hy, he⟩
    · rw [← htext, List.append_cancel_left_eq, ih,
        forall_exposed_append fun x y hxy hy he => absurd he (hnot x y hxy hy)]
      simp only [Cursor.inside_append hne]
    · -- Only a quoted text or a comment becomes another one, and it is no part of a name.
      have hname : k.inName l ls = false := by
        cases hl with
        | plain c => exact absurd rfl hclash.ne
        | quoted t u closed => rfl
        | comment t u closed => rfl
      rw [if_neg (by simp [hname]), if_neg (by simp [hname])]
      refine iff_of_false (hclash.append _ _).ne fun hall => ?_
      have hinside := hall x (y ++ textOf ls) (by rw [hxy, List.append_assoc]) he
      rcases eq_or_ne x [] with rfl | hx
      · rw [Cursor.inside_nil hne, hname] at hinside
        exact Bool.false_ne_true hinside
      · refine Cursor.not_inside hx ?_ hinside
        have hpos := List.length_pos_iff.mpr hy
        rw [hxy, List.length_append]
        omega
  | @name b name blanks e ls ms hp he h ih =>
    have hvisible : ∃ c u, name ++ blanks = c :: u ∧ isBlank c = false := by
      obtain ⟨c, u, rfl, hc⟩ := hp.exists_cons
      exact ⟨c, u ++ blanks, rfl, isBlank_of_isNameChar hc⟩
    have hvisible' : ∃ c u, e.2 = c :: u ∧ isBlank c = false := by
      obtain ⟨c, u, hu, hc⟩ := hp.exists_cons_logical
      exact ⟨c, u, hu, isBlank_of_isNameChar hc⟩
    have hnames : k.names ms = k.names ls := by
      rw [Cursor.names, Cursor.names, h.opensBlock_eq]
    have hfirst := Cursor.inside_name_nil hp.dull hvisible k ls
    rw [Cursor.withoutNames_name hp.dull hvisible,
      Cursor.withoutNames_name hp.dull_logical hvisible', hnames, textOf_append,
      textOf_plain]
    cases hname : k.names ls with
    | true =>
      rw [if_pos rfl, if_pos rfl, List.nil_append, List.nil_append, List.cons_inj_right, ih,
        forall_exposed_append fun x y hxy hy he => ?_]
      · simp only [Cursor.inside_name_append hp.dull]
      · rcases eq_or_ne x [] with rfl | hx
        · exact hfirst.mpr hname
        · exact absurd he (hp.not_exposed hx hy hxy)
    | false =>
      rw [if_neg Bool.false_ne_true, if_neg Bool.false_ne_true]
      have hclash : Clash (name ++ blanks) e.2 := by
        have hlonger := hp.clash.append blanks []
        rwa [List.append_nil] at hlonger
      refine iff_of_false (hclash.append _ _).ne fun hall => ?_
      have hinside := hall [] _ rfl (by rwa [List.append_nil])
      rw [hfirst, hname] at hinside
      exact Bool.false_ne_true hinside

end Recast

/-- The pass changes nothing but property names exactly if whatever it renames stands in one. -/
theorem withoutNames_toLogical_iff (css : Text) :
    withoutNames (toLogical css) = withoutNames (replaceVariables css) ↔
      ∀ before after, replaceVariables css = before ++ after → Exposed before after →
        StandsInName before after := by
  have h := (recast_scan (edited_toLogical css)).withoutNames_eq_iff {}
  rw [textOf_scan] at h
  rw [withoutNames, withoutNames, eq_comm, h]
  constructor
  · intro hall before after hsplit he
    rw [StandsInName, ← hsplit]
    exact hall before after hsplit he
  · intro hall before after hsplit he
    rw [hsplit]
    exact hall before after hsplit he

example : withoutNames (toLogical ".card:hover\x7bleft :0\x7d") = ".card:hover\x7b:0\x7d" := by
  decide +kernel

/-- The selector of a rule is renamed. -/
theorem selector_renamed :
    replaceVariables ".left:hover\x7bcolor:red\x7d" = ".left:hover\x7bcolor:red\x7d" ∧
      toLogical ".left:hover\x7bcolor:red\x7d" = ".inset-inline-start:hover\x7bcolor:red\x7d" ∧
      withoutNames (toLogical ".left:hover\x7bcolor:red\x7d") ≠
        withoutNames (replaceVariables ".left:hover\x7bcolor:red\x7d") := by
  decide +kernel

end Restyle.Declaration
