import Restyle.Proofs.Stylesheet.Chunk

/-! # What is read as one declaration

In front of a semicolon only a chunk is read as one declaration with the text
that it has. No character of a declaration is made up, so braces and comments
would be missing in it, and a semicolon outside parentheses ends it early.
-/

namespace Restyle

open Text Lexeme

theorem Text.count_trim_le (t : Text) (a : Char) : (trim t).count a ≤ t.count a := by
  obtain ⟨w, w', -, -, he⟩ := exists_eq_trim t
  conv_rhs => rw [he, List.count_append, List.count_append]
  omega

def declaredText (ns : List Node) : Text :=
  ns.flatMap fun
    | .declaration t => t
    | .block _ _ => []

def Lexeme.loose : Lexeme → Text
  | quoted t _ => t
  | comment _ _ => []
  | plain c => if c = '{' ∨ c = '}' then [] else [c]

def Lexeme.IsLoose : Lexeme → Prop
  | quoted _ _ => True
  | comment _ _ => False
  | plain c => ¬ (c = '{' ∨ c = '}')

namespace Draft

/-- The texts of all declarations that may be outermost in the end, the unfinished one included. -/
def loose (d : Draft) : Text :=
  (d.outer.flatMap fun f => declaredText f.before) ++ declaredText d.nodes ++ d.text

variable {d : Draft} {a : Char} {l : Lexeme} {ls : List Lexeme} {n : Nat}

theorem count_loose (d : Draft) (a : Char) : d.loose.count a =
    (d.outer.flatMap fun f => declaredText f.before).count a + (declaredText d.nodes).count a +
      d.text.count a := by
  rw [loose, List.count_append, List.count_append]

theorem count_declaredText_flushed_le (d : Draft) (a : Char) :
    (declaredText d.flushed).count a ≤ (declaredText d.nodes).count a + d.text.count a := by
  have htrim : (trim d.text.reverse).count a ≤ d.text.count a := by
    have h := count_trim_le d.text.reverse a
    rwa [List.count_reverse] at h
  rw [flushed]
  split
  · omega
  · simp only [declaredText, List.flatMap_cons, List.count_append]
    omega

theorem count_loose_add (d : Draft) (t : Text) (a : Char) :
    (d.add t).loose.count a = d.loose.count a + t.count a := by
  rw [count_loose, count_loose]
  simp only [add, List.count_append, List.count_reverse]
  omega

theorem count_loose_closeBlock_le (d : Draft) (a : Char) :
    d.closeBlock.loose.count a ≤ d.loose.count a := by
  rw [count_loose, count_loose]
  rcases h : d.outer with _ | ⟨f, outer⟩
  · simp only [closeBlock, h, List.count_nil]
    omega
  · rw [closeBlock_of_cons h]
    simp only [List.flatMap_cons, List.count_append, declaredText, List.count_nil, List.nil_append]
    omega

theorem count_loose_openBlock_le (d : Draft) (a : Char) :
    d.openBlock.loose.count a ≤ d.loose.count a := by
  rw [count_loose, count_loose]
  simp only [openBlock, List.flatMap_cons, List.count_append, declaredText, List.flatMap_nil,
    List.count_nil]
  omega

theorem count_loose_closeDeclaration_le (d : Draft) (a : Char) :
    d.closeDeclaration.loose.count a ≤ d.loose.count a := by
  have hflushed := count_declaredText_flushed_le d a
  rw [count_loose, count_loose]
  simp only [closeDeclaration, List.count_nil]
  omega

theorem count_loose_addChar_le (d : Draft) (c a : Char) :
    (d.addChar c).loose.count a ≤ d.loose.count a + [c].count a := by
  rw [addChar]
  split
  · exact Nat.le_add_right _ _
  · exact (count_loose_add d [c] a).le

theorem count_loose_step_le (d : Draft) (l : Lexeme) (a : Char) :
    (d.step l).loose.count a ≤ d.loose.count a + l.loose.count a := by
  cases l with
  | quoted t closed => exact (count_loose_add d t a).le
  | comment t closed => exact Nat.le_add_right _ _
  | plain c =>
    by_cases hbrace : c = '{' ∨ c = '}'
    · rw [Lexeme.loose, if_pos hbrace, List.count_nil, Nat.add_zero]
      rcases hbrace with rfl | rfl
      · exact count_loose_openBlock_le d a
      · exact count_loose_closeBlock_le d a
    · rw [Lexeme.loose, if_neg hbrace, step]
      simp only [not_or] at hbrace
      rw [if_neg hbrace.1, if_neg hbrace.2]
      split_ifs
      · exact (count_loose_add d [c] a).le
      · exact (count_loose_add d [c] a).le
      · exact (count_loose_closeDeclaration_le d a).trans (Nat.le_add_right _ _)
      · exact count_loose_addChar_le d c a

theorem count_loose_read_le (d : Draft) (ls : List Lexeme) (a : Char) :
    (d.read ls).loose.count a ≤ d.loose.count a + (ls.flatMap Lexeme.loose).count a := by
  induction ls generalizing d with
  | nil => exact le_rfl
  | cons l ls ih =>
    have hstep := count_loose_step_le d l a
    have hrest : ((d.step l).read ls).loose.count a ≤ _ := ih (d.step l)
    rw [List.flatMap_cons, List.count_append]
    exact hrest.trans (by omega)

theorem count_declaredText_finish_le (d : Draft) (a : Char) :
    (declaredText d.finish).count a ≤ d.loose.count a := by
  have hreverse (ns : List Node) : (declaredText ns.reverse).count a = (declaredText ns).count a :=
    (List.reverse_perm ns).flatMap_right _ |>.count_eq a
  rw [count_loose, finish]
  rcases h : d.outer.getLast? with _ | f
  · have hflushed := count_declaredText_flushed_le d a
    rw [hreverse]
    omega
  · obtain ⟨outer, ho⟩ := List.getLast?_eq_some_iff.mp h
    rw [hreverse, ho]
    simp only [List.flatMap_append, List.flatMap_cons, List.flatMap_nil, List.count_append]
    omega

end Draft

section Loose

variable {t u : Text} {l : Lexeme} {ls ms : List Lexeme} {a : Char}

theorem count_declaredText_ofText_le (css : Text) (a : Char) :
    (declaredText (Node.ofText css)).count a ≤ ((scan css).flatMap Lexeme.loose).count a := by
  rw [Node.ofText_eq_finish]
  refine (Draft.count_declaredText_finish_le _ a).trans ?_
  simpa [Draft.loose, declaredText] using Draft.count_loose_read_le {} (scan css) a

theorem Lexeme.loose_sublist (l : Lexeme) : l.loose.Sublist l.text := by
  cases l with
  | quoted t closed => exact List.Sublist.refl t
  | comment t closed => exact List.nil_sublist t
  | plain c =>
    rw [loose]
    split
    · exact List.nil_sublist _
    · exact List.Sublist.refl _

/-- Of a lexeme that is lost something is missing, and that is no semicolon alone. -/
theorem Lexeme.Sound.exists_count_loose_lt (hl : l.Sound) (h : ¬ l.IsLoose) :
    ∃ a, a ≠ ';' ∧ l.loose.count a < l.text.count a := by
  cases l with
  | quoted t closed => exact absurd trivial h
  | comment t closed =>
    obtain ⟨u, rfl⟩ := hl.isComment
    exact ⟨'*', by decide, by simp [loose, text]⟩
  | plain c =>
    have hc : c = '{' ∨ c = '}' := not_not.mp h
    refine ⟨c, ?_, by simp [loose, text, hc]⟩
    rintro rfl
    simp at hc

theorem count_flatMap_loose_le (ls : List Lexeme) (a : Char) :
    (ls.flatMap Lexeme.loose).count a ≤ (textOf ls).count a := by
  induction ls with
  | nil => exact le_rfl
  | cons l ls ih =>
    rw [List.flatMap_cons, textOf_cons, List.count_append, List.count_append]
    exact Nat.add_le_add (l.loose_sublist.count_le a) ih

theorem count_flatMap_loose_lt (hl : l ∈ ls) (h : l.loose.count a < l.text.count a) :
    (ls.flatMap Lexeme.loose).count a < (textOf ls).count a := by
  obtain ⟨pre, post, rfl⟩ := List.append_of_mem hl
  have hpre := count_flatMap_loose_le pre a
  have hpost := count_flatMap_loose_le post a
  simp only [List.flatMap_append, List.flatMap_cons, textOf_append, textOf_cons, List.count_append]
  omega

theorem isLoose_of_ofText (h : Node.ofText (t ++ ";") = [.declaration t]) :
    ∀ l ∈ scan (t ++ ";"), l.IsLoose := by
  intro l hl
  by_contra hlost
  obtain ⟨a, ha, hlt⟩ := ((scannable_scan _).sound l hl).exists_count_loose_lt hlost
  have hall := count_declaredText_ofText_le (t ++ ";") a
  have hsome := count_flatMap_loose_lt hl hlt
  have hone : declaredText [.declaration t] = t := List.append_nil t
  have hmark : (";" : Text).count a = 0 := List.count_eq_zero.mpr (by simpa using ha)
  rw [h, hone] at hall
  rw [textOf_scan, List.count_append, hmark] at hsome
  omega

theorem depthBehind?_eq_some_or (hls : ∀ l ∈ ls, l.IsLoose) (depth : Nat) :
    (∃ n, depthBehind? depth ls = some n) ∨
      ∃ ps qs, ls = ps ++ .plain ';' :: qs ∧ depthBehind? depth ps = some 0 := by
  induction ls generalizing depth with
  | nil => exact Or.inl ⟨depth, rfl⟩
  | cons l ls ih =>
    obtain ⟨hl, hls⟩ := List.forall_mem_cons.mp hls
    -- What the lexeme leads to, if the depth behind it is known.
    have hgo (next : Nat) (hnext : ∀ ms, depthBehind? depth (l :: ms) = depthBehind? next ms) :
        (∃ n, depthBehind? depth (l :: ls) = some n) ∨
          ∃ ps qs, l :: ls = ps ++ .plain ';' :: qs ∧ depthBehind? depth ps = some 0 := by
      rcases ih hls next with ⟨n, hn⟩ | ⟨ps, qs, rfl, hps⟩
      · exact Or.inl ⟨n, (hnext ls).trans hn⟩
      · exact Or.inr ⟨l :: ps, qs, rfl, (hnext ps).trans hps⟩
    cases l with
    | quoted t closed => exact hgo depth fun _ => rfl
    | comment t closed => exact absurd hl id
    | plain c =>
      have hbrace : c ≠ '{' ∧ c ≠ '}' := not_or.mp hl
      by_cases h₁ : c = '('
      · exact hgo (depth + 1) fun ms => by rw [depthBehind?, if_pos h₁]
      by_cases h₂ : c = ')'
      · exact hgo (depth - 1) fun ms => by rw [depthBehind?, if_neg h₁, if_pos h₂]
      by_cases h₃ : c = ';' ∧ depth = 0
      · obtain ⟨rfl, rfl⟩ := h₃
        exact Or.inr ⟨[], ls, rfl, rfl⟩
      · exact hgo depth fun ms => by
          rw [depthBehind?, if_neg h₁, if_neg h₂, if_neg (by simp [hbrace, h₃])]

theorem Lexeme.Scannable.closed_of_append (h : Scannable (ls ++ l :: ms)) :
    ∀ m ∈ ls.getLast?, m.closed = true :=
  fun m hm => ((List.isChain_append.mp h.beside).2.2 m hm l rfl).1

theorem chunk_of_scan_eq {ps : List Lexeme} (hscan : scan (t ++ ";") = ps ++ [.plain ';'])
    (hdepth : depthBehind? 0 ps = some 0) (ht : Trimmed t) (hne : t ≠ []) : Chunk t := by
  have hscannable := scannable_scan (t ++ ";")
  have htext := textOf_scan (t ++ ";")
  rw [hscan] at hscannable htext
  obtain rfl : textOf ps = t := by
    rw [textOf_append] at htext
    exact List.append_cancel_right htext
  have hps : scan (textOf ps) = ps := hscannable.of_append.1.scan_textOf
  refine ⟨?_, ?_, ht, hne⟩
  · rw [hps]
    exact hdepth
  · rw [hps]
    exact hscannable.closed_of_append

theorem read_of_semicolon {ps : List Lexeme} (hdepth : depthBehind? 0 ps = some 0)
    (hv : ∀ c, ps.head? = some (.plain c) → isBlank c = false) (hls : ∀ l ∈ ps, l.Sound)
    (hne : trim (textOf ps) ≠ []) :
    ({} : Draft).read (ps ++ [.plain ';']) = { nodes := [.declaration (trim (textOf ps))] } := by
  rw [Draft.read_append, Draft.read_of_depthBehind? hdepth (fun _ => hv) hls]
  simp [Draft.read, Draft.step, Draft.closeDeclaration, Draft.flushed, hne]

theorem trim_textOf_eq {ps qs : List Lexeme} (h : Node.ofText (t ++ ";") = [.declaration t])
    (hscan : scan (t ++ ";") = ps ++ .plain ';' :: qs) (hdepth : depthBehind? 0 ps = some 0)
    (ht : Trimmed t) (hne : t ≠ []) (hs : t.head? ≠ some ';') : trim (textOf ps) = t := by
  obtain ⟨c, u, rfl⟩ := List.exists_cons_of_ne_nil hne
  have hc : isBlank c = false := ht.1 c rfl
  have htext := textOf_scan (c :: u ++ ";")
  rw [hscan, textOf_append, textOf_cons] at htext
  -- The first lexeme begins with the first character, which is no semicolon.
  obtain ⟨v, hv⟩ : ∃ v, textOf ps = c :: v := by
    rcases hps : textOf ps with _ | ⟨d, v⟩ <;> rw [hps] at htext
    · exact absurd (congrArg some (List.cons.inj htext).1.symm) hs
    · exact ⟨v, by rw [(List.cons.inj htext).1]⟩
  have hhead : ∀ d, ps.head? = some (.plain d) → isBlank d = false := by
    intro d hd
    obtain ⟨ls, rfl⟩ := List.head?_eq_some_iff.mp hd
    rwa [(List.cons.inj hv).1]
  have hvisible : trim (textOf ps) ≠ [] := by
    rw [Ne, trim_eq_nil_iff, hv, blank_cons, hc]
    exact fun hb => Bool.false_ne_true hb.1
  have hsound := (scannable_scan (c :: u ++ ";")).sound
  rw [hscan] at hsound
  have hread := read_of_semicolon hdepth hhead (fun l hl => hsound l (List.mem_append_left _ hl)) hvisible
  have hmem : .declaration (trim (textOf ps)) ∈ Node.ofText (c :: u ++ ";") := by
    rw [Node.ofText_eq_finish, hscan, List.append_cons, Draft.read_append, hread]
    exact Draft.bottom_subset_finish _ (Draft.bottom_subset_read _ qs List.mem_cons_self)
  rw [h, List.mem_singleton] at hmem
  exact Node.declaration.inj hmem

/-- In front of a semicolon exactly the chunks are read as they are written. -/
theorem ofText_append_semicolon_iff (ht : Trimmed t) (hne : t ≠ []) (hs : t.head? ≠ some ';') :
    Node.ofText (t ++ ";") = [.declaration t] ↔ Chunk t := by
  refine ⟨fun h => ?_, fun h => (Yields.declaration h).ofText⟩
  have htrim : Trimmed (t ++ ";") := by
    simpa using ht.append (by decide : Trimmed ";") hne (by decide) []
  rcases depthBehind?_eq_some_or (isLoose_of_ofText h) 0 with ⟨n, hn⟩ | ⟨ps, qs, hscan, hps⟩
  · -- Without such a semicolon the declaration ends with the text.
    have hhead : ∀ c, (scan (t ++ ";")).head? = some (.plain c) → isBlank c = false :=
      fun c hc => htrim.1 c (head?_of_scan hc)
    have hflush : ({ text := (t ++ ";").reverse, depth := n } : Draft).finish =
        [.declaration (t ++ ";")] := by
      simp only [Draft.finish, Draft.flushed, List.reverse_reverse, htrim.trim_eq]
      simp
    rw [Node.ofText_eq_finish, Draft.read_of_depthBehind? hn (fun _ => hhead) (scannable_scan _).sound,
      textOf_scan, List.append_nil, hflush] at h
    simp at h
  · obtain ⟨w, w', -, -, he⟩ := exists_eq_trim (textOf ps)
    have htext := textOf_scan (t ++ ";")
    rw [hscan, textOf_append, textOf_cons, he, trim_textOf_eq h hscan hps ht hne hs] at htext
    have hlength : w.length + w'.length + (textOf qs).length = 0 := by
      have hall := congrArg List.length htext
      simp [Lexeme.text] at hall
      omega
    have hqs : textOf qs = [] := List.eq_nil_of_length_eq_zero (by omega)
    have hsound := (scannable_scan (t ++ ";")).sound
    rw [hscan] at hsound
    rcases qs with _ | ⟨l, qs⟩
    · exact chunk_of_scan_eq hscan hps ht hne
    · have hl : l.Sound := hsound l (by simp)
      exact absurd (List.append_eq_nil_iff.mp hqs).1 hl.text_ne_nil

end Loose
end Restyle
