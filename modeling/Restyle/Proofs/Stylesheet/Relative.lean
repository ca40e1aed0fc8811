import Restyle.Proofs.Selector.Nesting
import Restyle.Proofs.Stylesheet.Pointer
import Restyle.Proofs.Stylesheet.SingleRule

/-! # Nested selectors as they are written

The nested form of a selector is read as it is written if the selector is. The
selectors of a list need not be: behind a quoted bracket that closes another a
comma in the quotes cuts a selector in two, of which neither closes the quote.
-/

namespace Restyle

open Text

namespace Pointer

variable {t u : Text} {n : Nat}

theorem isDull_of_mem_text {k : Token} {c : Char} (hc : c ∈ k.text) : IsDull c := by
  rcases List.mem_cons.mp hc with rfl | hc
  · rcases k.sigil_eq with h | h <;> rw [h] <;> decide
  · exact notMem_of_all (p := fun d => !isNameChar d) (by decide) (by simp [k.isNameChar_of_mem hc])

theorem run?_replaceToken (k : Token) (s : Pointer) (t : Text) :
    s.run? (Selector.replaceToken t k.text "&") = s.run? t := by
  have hamp : Neutral "&" := neutral_of_dull (by simp) (by decide)
  have htext : Neutral k.text := neutral_of_dull k.text_ne_nil fun c => isDull_of_mem_text
  induction t using k.induction generalizing s with
  | nil => rfl
  | char c t hc ih =>
    rw [Token.replaceToken_cons hc]
    exact run?_congr ih s c
  | token rest ih =>
    have hname : s.run? (k.text ++ Selector.replaceToken rest k.text "&") = s.run? (k.text ++ rest) := by
      rw [run?_append, run?_append]
      simp only [ih]
    rw [Token.replaceToken_text_append]
    split_ifs
    · exact hname
    · exact (hamp.run?_eq htext s _).trans hname

theorem leaves_trimStart (t : Text) : Leaves {} (trimStart t) n ↔ Leaves {} t n := by
  have hblank : ∀ c ∈ t.takeWhile isBlank, IsDull c := fun c hc =>
    isDull_of_blank (List.mem_takeWhile_imp hc)
  have ht : t.takeWhile isBlank ++ trimStart t = t := List.takeWhile_append_dropWhile
  conv_rhs => rw [← ht]
  exact (leaves_dull_append rfl hblank (trimStart t) n).symm

theorem Leaves.append_comma (ht : Leaves {} t 0) (hu : Leaves {} u 0) :
    Leaves {} (t ++ (", " ++ u)) 0 := by
  obtain ⟨s, hs, hout, hdepth⟩ := ht
  have hcomma : s.run? ", " = some s.calm := neutral_of_dull (by simp) (by decide) s
  have hcalm : s.calm = {} := by
    obtain ⟨m, depth⟩ := s
    obtain rfl : depth = 0 := hdepth
    rcases hout with rfl | rfl <;> rfl
  rwa [leaves_append hs, leaves_append hcomma, hcalm]

end Pointer

namespace Selector

variable {t u : Text} {k : Token}

theorem singleReturns_replaceToken (k : Token) (before : Text) (h : SingleReturns (before ++ t)) :
    SingleReturns (before ++ replaceToken t k.text "&") := by
  induction t using k.induction generalizing before with
  | nil => exact h
  | char c t hc ih =>
    have hnext := ih (before ++ [c]) (by simpa using h)
    rw [Token.replaceToken_cons hc]
    simpa using hnext
  | token rest ih =>
    rw [Token.replaceToken_text_append]
    split_ifs
    · have hnext := ih (before ++ k.text) (by simpa using h)
      simpa using hnext
    · have hbefore : SingleReturns before := h.mono (List.prefix_append _ _).isInfix
      have hrest : SingleReturns rest := h.mono ⟨before ++ k.text, [], by simp⟩
      exact hbefore.append_cons (ih [] hrest) (by decide) (by decide)

theorem singleReturns_nestPart (descendant : Bool) (h : SingleReturns t) :
    SingleReturns (nestPart descendant t) := by
  rcases t with _ | ⟨c, t⟩
  · exact .of_notMem (by simp [nestPart])
  · rw [nestPart]
    split_ifs with hamp hcombinator
    · exact h
    · have hc : c ≠ '\r' := by
        rintro rfl
        exact absurd hcombinator (by decide)
      have ht : SingleReturns (trimStart t) := h.tail.mono (List.dropWhile_suffix isBlank).isInfix
      have hlonger : SingleReturns ('&' :: ' ' :: c :: ' ' :: trimStart t) :=
        (((ht.cons (by decide)).cons hc).cons (by decide)).cons (by decide)
      exact hlonger.mono (List.rdropWhile_prefix isBlank _).isInfix
    · exact (h.cons (by decide)).cons (by decide)
    · exact h.cons (by decide)

theorem singleReturns_join {parts : List Text} (h : ∀ t ∈ parts, SingleReturns t) :
    SingleReturns (join ", " parts) := by
  rcases eq_or_ne parts [] with rfl | hne
  · exact .of_notMem (by simp [join])
  · exact join_induction
      (fun _ _ ht hu => ht.append_cons (hu.cons (by decide)) (by decide) (by decide)) h hne

theorem infix_of_cutToken? {left : Text} (h : cutToken? t k.text = some (left, u)) : u <:+: t := by
  induction t using k.induction generalizing left with
  | nil =>
    rw [Token.cutToken?_nil] at h
    cases h
  | char c t hc ih =>
    rw [Token.cutToken?_cons hc] at h
    obtain ⟨⟨l, r⟩, hcut, he⟩ := Option.map_eq_some_iff.mp h
    obtain ⟨-, rfl⟩ := Prod.mk.inj he
    exact (ih hcut).trans (List.suffix_cons c t).isInfix
  | token rest ih =>
    rw [Token.cutToken?_text_append] at h
    split_ifs at h
    · obtain ⟨⟨l, r⟩, hcut, he⟩ := Option.map_eq_some_iff.mp h
      obtain ⟨-, rfl⟩ := Prod.mk.inj he
      exact (ih hcut).trans (List.suffix_append k.text rest).isInfix
    · obtain ⟨-, rfl⟩ := Prod.mk.inj (Option.some.inj h)
      exact (List.suffix_append k.text rest).isInfix

theorem singleReturns_nestSuffix (h : SingleReturns t) : SingleReturns (nestSuffix t k.text) := by
  rw [nestSuffix]
  split_ifs
  · exact .of_notMem (by simp)
  · refine singleReturns_join fun u hu => ?_
    obtain ⟨v, hv, rfl⟩ := List.mem_map.mp hu
    have hreplaced := singleReturns_replaceToken k [] (singleReturns_trim h)
    exact singleReturns_nestPart _ (hreplaced.mono (infix_of_mem_splitList hv))

theorem singleReturns_relativeTo? (ht : SingleReturns t) (h : relativeTo? t k.text = some u) :
    SingleReturns u := by
  rw [relativeTo?] at h
  rcases hcut : cutToken? t k.text with _ | ⟨_ | ⟨c, l⟩, rest⟩ <;> rw [hcut] at h
  · cases h
  · obtain rfl := Option.some.inj h
    exact singleReturns_nestSuffix (ht.mono (infix_of_cutToken? hcut))
  · obtain rfl := Option.some.inj h
    exact singleReturns_replaceToken k [] ht

/-- A selector that is read as it is written, and not as an at-rule. -/
structure Proper (t : Text) : Prop where
  chunk : Chunk t
  head?_ne : t.head? ≠ some '@'

instance (t : Text) : Decidable (Proper t) :=
  decidable_of_iff (Chunk t ∧ t.head? ≠ some '@') ⟨fun h => ⟨h.1, h.2⟩, fun h => ⟨h.1, h.2⟩⟩

theorem Proper.leaves (h : Proper t) : Pointer.Leaves {} t 0 :=
  (chunk_iff.mp h.chunk).1

theorem Proper.condition? (h : Proper t) : AtRule.condition? t = none := by
  rcases hc : AtRule.condition? t with _ | c
  · rfl
  · have hat := AtRule.startsWith_of_condition? hc
    obtain ⟨u, hu⟩ := List.isPrefixOf_iff_prefix.mp hat
    exact absurd (hu ▸ rfl) h.head?_ne

theorem Proper.append_comma (ht : Proper t) (hu : Proper u) : Proper (t ++ (", " ++ u)) := by
  have htrimmed := ht.chunk.trimmed.append hu.chunk.trimmed ht.chunk.ne_nil hu.chunk.ne_nil ", "
  rw [List.append_assoc] at htrimmed
  refine ⟨chunk_iff.mpr ⟨ht.leaves.append_comma hu.leaves, htrimmed, by simp [ht.chunk.ne_nil]⟩, ?_⟩
  rw [List.head?_append_of_ne_nil t ht.chunk.ne_nil]
  exact ht.head?_ne

theorem proper_join {parts : List Text} (h : ∀ t ∈ parts, Proper t) (hne : parts ≠ []) :
    Proper (join ", " parts) :=
  join_induction (fun _ _ ht hu => ht.append_comma hu) h hne

theorem proper_trim_cons_amp (h : Pointer.Leaves {} t 0) : Proper (trim ('&' :: t)) := by
  have hhead : (trim ('&' :: t)).head? = some '&' :=
    head?_trim_append (by decide : Trimmed ['&']) (by simp) t
  refine ⟨chunk_iff.mpr ⟨?_, trimmed_trim _, fun hnil => ?_⟩, ?_⟩
  · rw [Pointer.leaves_trim, ← List.singleton_append, Pointer.leaves_dull_append rfl (by decide)]
    exact h
  · rw [hnil] at hhead
    cases hhead
  · rw [hhead]
    decide

theorem proper_nestPart (descendant : Bool) (h : Chunk t) : Proper (nestPart descendant t) := by
  obtain ⟨hleaves, htrimmed, hne⟩ := chunk_iff.mp h
  have hbehind : ∀ w : Text, (∀ c ∈ w, Pointer.IsDull c) → Proper ('&' :: (w ++ t)) := by
    intro w hw
    have hamp : Trimmed ['&'] := by decide
    have hwhole : Trimmed ('&' :: (w ++ t)) := hamp.append htrimmed (by simp) hne w
    rw [← hwhole.trim_eq]
    exact proper_trim_cons_amp ((Pointer.leaves_dull_append rfl hw t 0).mpr hleaves)
  obtain ⟨c, t, rfl⟩ := List.exists_cons_of_ne_nil hne
  rw [nestPart]
  split_ifs with hc hcombinator
  · subst hc
    exact ⟨h, by simp⟩
  · have hdull : Pointer.IsDull c := by
      simp only [isCombinator, Bool.or_eq_true, beq_iff_eq] at hcombinator
      rcases hcombinator with (rfl | rfl) | rfl <;> decide
    have hspaced : ∀ d ∈ [' ', c, ' '], Pointer.IsDull d := by
      simp only [List.forall_mem_cons]
      exact ⟨by decide, hdull, by decide, by simp⟩
    rw [← List.singleton_append, Pointer.leaves_dull_append rfl (by simpa using hdull),
      ← Pointer.leaves_trimStart, ← Pointer.leaves_dull_append rfl hspaced] at hleaves
    exact proper_trim_cons_amp hleaves
  · exact hbehind [' '] (by decide)
  · exact hbehind [] (by simp)

theorem replaceToken_ne_nil (k : Token) (hne : t ≠ []) : replaceToken t k.text "&" ≠ [] := by
  induction t using k.induction with
  | nil => exact absurd rfl hne
  | char c t hc _ => simp [Token.replaceToken_cons hc]
  | token rest _ =>
    rw [Token.replaceToken_text_append]
    split_ifs <;> simp [k.text_ne_nil]

theorem endsVisibly_append (hne : u ≠ []) : EndsVisibly (t ++ u) ↔ EndsVisibly u := by
  rw [EndsVisibly, List.getLast?_append_of_ne_nil t hne, EndsVisibly]

theorem endsVisibly_replaceToken (k : Token) (h : EndsVisibly t) :
    EndsVisibly (replaceToken t k.text "&") := by
  induction t using k.induction with
  | nil => exact h
  | char c t hc ih =>
    rw [Token.replaceToken_cons hc]
    rcases eq_or_ne t [] with rfl | hne
    · exact h
    · rw [← List.singleton_append, endsVisibly_append hne] at h
      rw [← List.singleton_append, endsVisibly_append (replaceToken_ne_nil k hne)]
      exact ih h
  | token rest ih =>
    rw [Token.replaceToken_text_append]
    rcases eq_or_ne rest [] with rfl | hne
    · rw [Token.replaceToken_nil, List.append_nil]
      split_ifs
      · exact k.trimmed_text.endsVisibly
      · exact (by decide : Trimmed ['&']).endsVisibly
    · rw [endsVisibly_append (replaceToken_ne_nil k hne)]
      exact ih ((endsVisibly_append hne).mp h)

theorem chunk_replaceToken (k : Token) (h : Chunk t) : Chunk (replaceToken t k.text "&") := by
  obtain ⟨hleaves, htrimmed, hne⟩ := chunk_iff.mp h
  refine chunk_iff.mpr ⟨?_, ⟨fun c hc => ?_, ?_⟩, replaceToken_ne_nil k hne⟩
  · rwa [Pointer.Leaves, Pointer.run?_replaceToken]
  · rcases k.head?_replaceToken t with ⟨hamp, -⟩ | ⟨hsame, -⟩
    · rw [hamp] at hc
      obtain rfl := Option.some.inj hc
      decide
    · rw [hsame] at hc
      exact htrimmed.1 c hc
  · exact endsVisibly_replaceToken k htrimmed.endsVisibly

theorem Proper.replaceToken (k : Token) (h : Proper t) : Proper (replaceToken t k.text "&") := by
  refine ⟨chunk_replaceToken k h.chunk, ?_⟩
  rcases k.head?_replaceToken t with ⟨hamp, -⟩ | ⟨hsame, -⟩
  · rw [hamp]
    decide
  · rw [hsame]
    exact h.head?_ne

theorem proper_nestSuffix (k : Token) (h : Pointer.Leaves {} t 0) (hdepth : (depthBehind? 0 t).isSome) :
    Proper (nestSuffix t k.text) := by
  rw [nestSuffix]
  split_ifs with hempty
  · decide
  · obtain ⟨depth, hdepth⟩ := Option.isSome_iff_exists.mp (isSome_depthBehind?_trim hdepth)
    rw [← k.depthBehind?_replaceToken] at hdepth
    have htrim : Chunk (trim t) :=
      chunk_iff.mpr ⟨(Pointer.leaves_trim t).mpr h, trimmed_trim t, by simpa using hempty⟩
    have hchunk := chunk_replaceToken k htrim
    rw [splitList_of_depthBehind? hdepth, part_of_trimmed hchunk.trimmed hchunk.ne_nil,
      List.map_singleton, join_singleton]
    exact proper_nestPart _ hchunk

theorem Proper.relativeTo? (h : Proper t) (hdepth : (depthBehind? 0 t).isSome)
    (hu : relativeTo? t k.text = some u) : Proper u := by
  by_cases hstarts : k.Starts t
  · obtain ⟨raw, rfl, hraw⟩ := hstarts
    rw [Selector.relativeTo?, Token.cutToken?_of_starts hraw] at hu
    obtain rfl := Option.some.inj hu
    refine proper_nestSuffix k ?_ ?_
    · exact (Pointer.leaves_dull_append rfl (fun c => Pointer.isDull_of_mem_text) raw 0).mp h.leaves
    · rwa [depthBehind?_append (k.depthBehind?_text 0)] at hdepth
  · have hmentioned : k.Mentioned t := by
      rw [← k.isSome_relativeTo?_iff, hu]
      rfl
    rw [Token.relativeTo?_of_not_starts hstarts hmentioned] at hu
    obtain rfl := Option.some.inj hu
    exact h.replaceToken k

end Selector

namespace Token

open Selector

variable {k : Token} {list : Text}

theorem chunk_text (k : Token) : Chunk k.text := by
  have hrun := Pointer.neutral_of_dull k.text_ne_nil (fun c => Pointer.isDull_of_mem_text) {}
  exact chunk_iff.mpr ⟨⟨_, hrun, Or.inl rfl, rfl⟩, k.trimmed_text, k.text_ne_nil⟩

/-- No comma has cut a selector of the list that mentions the token inside quotes or parentheses, and
none of these is read as an at-rule. -/
def Separated (k : Token) (list : Text) : Prop :=
  ∀ s ∈ splitList list, k.Mentioned s → Proper s

instance (k : Token) (list : Text) : Decidable (k.Separated list) :=
  inferInstanceAs (Decidable (∀ s ∈ _, _))

theorem Separated.proper (h : k.Separated list)
    (hne : (splitList list).filterMap (relativeTo? · k.text) ≠ []) :
    Proper (join ", " ((splitList list).filterMap (relativeTo? · k.text))) := by
  refine proper_join (fun u hu => ?_) hne
  obtain ⟨s, hs, hrelative⟩ := List.mem_filterMap.mp hu
  have hmentioned : k.Mentioned s := by
    rw [← k.isSome_relativeTo?_iff, hrelative]
    rfl
  exact (h s hs hmentioned).relativeTo? (isSome_depthBehind?_of_mem_splitList hs) hrelative

end Token

end Restyle
