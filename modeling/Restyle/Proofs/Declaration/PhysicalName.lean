import Restyle.Declaration.Logical
import Restyle.Proofs.Text.Letter

/-! # Where physical names stand before a colon

The pass to logical properties renames a physical name wherever it stands as a
whole in front of a colon, except in the preludes of rules about sizes. What it
makes of a text is the text with each of these names replaced.
-/

namespace Restyle.Declaration

open Text

/-- A physical name in any case with its logical one, and the white space before its colon. -/
structure Physical (e : Text × Text) (name blanks : Text) : Prop where
  listed : e ∈ logicalNames
  spelled : name.map fold = e.1.map fold
  blank : Blank blanks

/-- A place inside the prelude of a rule about sizes. -/
def InPrelude (before after : Text) : Prop :=
  ∃ p v prelude rest, before = p ++ v ∧ v ≠ [] ∧ sizePrelude? (v ++ after) = some (prelude, rest) ∧
    v.length < prelude.length

/-- A whole physical name in front of a colon, where the pass renames it. -/
structure Exposed (before after : Text) : Prop where
  outside : ¬ InPrelude before after
  whole : nameBefore before.getLast? = false
  physical : ∃ e name blanks rest, Physical e name blanks ∧ after = name ++ blanks ++ ':' :: rest

variable {b t u w name blanks rest out before after : Text} {e : Text × Text} {c : Char}

namespace Physical

theorem ne_nil (h : Physical e name blanks) : name ≠ [] := by
  have hall : ∀ e ∈ logicalNames, e.1.map fold ≠ [] := by decide +kernel
  rintro rfl
  exact hall e h.listed h.spelled.symm

theorem isNameChar_of_mem (h : Physical e name blanks) (hc : c ∈ name) : isNameChar c = true := by
  have hall : ∀ e ∈ logicalNames, ((e.1.map fold).all fun l =>
      isNameChar l && (l != 's' && l != 'k')) = true := by decide +kernel
  have hfold := List.all_eq_true.mp (hall e h.listed) (fold c) (h.spelled ▸ List.mem_map_of_mem hc)
  simp only [Bool.and_eq_true, bne_iff_ne] at hfold
  exact isNameChar_of_fold hfold.1 hfold.2.1 hfold.2.2

theorem isNameChar_of_mem_logical (h : Physical e name blanks) (hc : c ∈ e.2) :
    isNameChar c = true := by
  have hall : ∀ e ∈ logicalNames, e.2.all isNameChar = true := by decide +kernel
  exact List.all_eq_true.mp (hall e h.listed) c hc

end Physical

theorem property?_eq_some_iff {physical n : Text} : property? [physical] t = some (n, rest) ↔
    n = physical ∧ ∃ name blanks, t = name ++ blanks ++ ':' :: rest ∧
      name.map fold = physical.map fold ∧ Blank blanks := by
  have hword : dropAnyWord? [physical] t = (dropWord? physical t).map (physical, ·) := by
    simp [dropAnyWord?]
  constructor
  · intro h
    obtain ⟨⟨m, u⟩, hdrop, h⟩ := Option.bind_eq_some_iff.mp h
    rw [hword] at hdrop
    obtain ⟨u', hu, he⟩ := Option.map_eq_some_iff.mp hdrop
    obtain ⟨rfl, rfl⟩ := Prod.mk.inj he
    obtain ⟨r, hcolon, h⟩ := Option.bind_eq_some_iff.mp h
    obtain ⟨rfl, rfl⟩ := Prod.mk.inj (Option.some.inj h)
    obtain ⟨name, rfl, hname⟩ := dropWord?_eq_some_iff.mp hu
    have hsplit : u' = u'.takeWhile isBlank ++ ':' :: r := by
      have htrim : u'.dropWhile isBlank = ':' :: r := dropStart?_eq_some.mp hcolon
      rw [← htrim, List.takeWhile_append_dropWhile]
    refine ⟨rfl, name, u'.takeWhile isBlank, ?_, hname, fun c hc => List.mem_takeWhile_imp hc⟩
    rw [List.append_assoc, ← hsplit]
  · rintro ⟨rfl, name, blanks, rfl, hname, hblank⟩
    have hdrop : dropWord? n (name ++ blanks ++ ':' :: rest) = some (blanks ++ ':' :: rest) :=
      dropWord?_eq_some_iff.mpr ⟨name, by simp, hname⟩
    have htrim : trimStart (blanks ++ ':' :: rest) = ':' :: rest := by
      rw [trimStart_append hblank]
      rfl
    rw [property?, hword, hdrop]
    simp [htrim, dropStart?]

theorem property?_iff_mem {names : List Text} {n : Text}
    (hnames : ∀ m ∈ names, ∀ n ∈ names, m.map fold <+: n.map fold → m = n) :
    property? names t = some (n, rest) ↔ n ∈ names ∧ ∃ name blanks,
      t = name ++ blanks ++ ':' :: rest ∧ name.map fold = n.map fold ∧ Blank blanks := by
  have hsingle : dropAnyWord? [n] t = (dropWord? n t).map (n, ·) := by
    simp [dropAnyWord?]
  have hone : property? names t = some (n, rest) ↔
      n ∈ names ∧ property? [n] t = some (n, rest) := by
    constructor
    · intro h
      obtain ⟨⟨m, u⟩, hdrop, h⟩ := Option.bind_eq_some_iff.mp h
      obtain ⟨hm, hu⟩ := (dropAnyWord?_eq_some_iff hnames).mp hdrop
      obtain ⟨r, hcolon, he⟩ := Option.bind_eq_some_iff.mp h
      obtain ⟨rfl, rfl⟩ := Prod.mk.inj (Option.some.inj he)
      refine ⟨hm, ?_⟩
      rw [property?, hsingle, hu]
      exact h
    · rintro ⟨hn, h⟩
      rw [property?, hsingle] at h
      obtain ⟨⟨m, u⟩, hdrop, h⟩ := Option.bind_eq_some_iff.mp h
      obtain ⟨u', hu, he⟩ := Option.map_eq_some_iff.mp hdrop
      obtain ⟨rfl, rfl⟩ := Prod.mk.inj he
      rw [property?, (dropAnyWord?_eq_some_iff hnames).mpr ⟨hn, hu⟩]
      exact h
  rw [hone, property?_eq_some_iff, eq_self_iff_true, true_and]

theorem physicalProperty?_eq_none_iff {before : Option Char} : physicalProperty? before t = none ↔
    ∀ e name blanks rest, Physical e name blanks → t ≠ name ++ blanks ++ ':' :: rest := by
  rw [physicalProperty?, List.findSome?_eq_none_iff]
  constructor
  · rintro h e name blanks rest hp rfl
    have hprop : property? [e.1] (name ++ blanks ++ ':' :: rest) = some (e.1, rest) :=
      property?_eq_some_iff.mpr ⟨rfl, name, blanks, rfl, hp.spelled, hp.blank⟩
    have hnone := Option.map_eq_none_iff.mp (h e hp.listed)
    rw [hprop] at hnone
    exact absurd hnone (Option.some_ne_none _)
  · intro h e he
    cases hprop : property? [e.1] t with
    | none => simp [hprop]
    | some found =>
      obtain ⟨-, name, blanks, ht, hname, hblank⟩ := property?_eq_some_iff.mp hprop
      exact absurd ht (h e name blanks found.2 ⟨he, hname, hblank⟩)

theorem exists_of_physicalProperty? {before : Option Char}
    (h : physicalProperty? before t = some (out, rest)) :
    ∃ e name blanks, Physical e name blanks ∧ t = name ++ blanks ++ ':' :: rest ∧
      out = if nameBefore before then name ++ blanks ++ ":" else e.2 ++ ":" := by
  obtain ⟨e, he, h⟩ := List.exists_of_findSome?_eq_some h
  obtain ⟨⟨n, r⟩, hprop, h⟩ := Option.map_eq_some_iff.mp h
  obtain ⟨hout, rfl⟩ := Prod.mk.inj h
  obtain ⟨-, name, blanks, rfl, hname, hblank⟩ := property?_eq_some_iff.mp hprop
  refine ⟨e, name, blanks, ⟨he, hname, hblank⟩, rfl, ?_⟩
  rw [← hout]
  split_ifs
  · have hsplit : name ++ blanks ++ ':' :: r = name ++ blanks ++ ":" ++ r := by simp
    rw [hsplit, List.length_append, Nat.add_sub_cancel, List.take_left]
  · rfl

namespace Exposed

theorem exists_cons (h : Exposed before after) :
    ∃ c t, after = c :: t ∧ isNameChar c = true := by
  obtain ⟨e, name, blanks, rest, hp, rfl⟩ := h.physical
  obtain ⟨c, name, rfl⟩ := List.exists_cons_of_ne_nil hp.ne_nil
  exact ⟨c, _, rfl, hp.isNameChar_of_mem List.mem_cons_self⟩

end Exposed

theorem not_exposed_cons (hc : isNameChar c = false) : ¬ Exposed before (c :: t) := by
  intro h
  obtain ⟨d, u, he, hd⟩ := h.exists_cons
  rw [← (List.cons.inj he).1, hc] at hd
  exact Bool.false_ne_true hd

theorem not_exposed_append (hne : w ≠ []) (hw : ∀ c ∈ w, isNameChar c = true) :
    ¬ Exposed (before ++ w) after := by
  intro h
  have hlast := List.getLast?_eq_some_getLast hne
  have hwhole := h.whole
  rw [List.getLast?_append, hlast] at hwhole
  have hname := hw _ (List.getLast_mem hne)
  simp [nameBefore, hname] at hwhole

/-- Within a name, white space and a colon nothing more is renamed. -/
theorem Physical.not_exposed (h : Physical e name blanks) {x y : Text} (hx : x ≠ []) (hy : y ≠ [])
    (hxy : name ++ blanks ++ [':'] = x ++ y) : ¬ Exposed (b ++ x) (y ++ t) := by
  have hgap : ∀ c ∈ blanks ++ [':'], isNameChar c = false := by
    intro c hc
    rcases List.mem_append.mp hc with hc | hc
    · exact isNameChar_of_blank (h.blank c hc)
    · rw [List.mem_singleton.mp hc]
      decide
  rw [List.append_assoc] at hxy
  rcases List.append_eq_append_iff.mp hxy with ⟨z, rfl, hz⟩ | ⟨z, rfl, rfl⟩
  · rcases eq_or_ne z [] with rfl | hne
    · rw [List.append_nil]
      exact not_exposed_append h.ne_nil fun c hc => h.isNameChar_of_mem hc
    · obtain ⟨c, y, rfl⟩ := List.exists_cons_of_ne_nil hy
      exact not_exposed_cons (hgap c (hz ▸ List.mem_append_right z List.mem_cons_self))
  · exact not_exposed_append hx fun c hc => h.isNameChar_of_mem (List.mem_append_left z hc)

section Preludes

variable {prelude : Text}

def isPreludeEnd (c : Char) : Bool :=
  c == '{' || c == ';'

theorem sizePrelude?_eq_some (h : sizePrelude? t = some (prelude, rest)) :
    prelude = t.takeWhile (!isPreludeEnd ·) ∧ rest = t.dropWhile (!isPreludeEnd ·) := by
  unfold sizePrelude? at h
  dsimp only at h
  split_ifs at h
  obtain ⟨rfl, rfl⟩ := Prod.mk.inj (Option.some.inj h)
  exact ⟨rfl, rfl⟩

theorem eq_at_of_sizePrelude? (h : sizePrelude? (c :: t) = some (prelude, rest)) : c = '@' := by
  by_contra hc
  have hlower : c.toLower ≠ '@' := fun he => hc (eq_of_toLower_eq (by decide) he)
  have hkeyword : ∀ keyword : Text, keyword.head? = some '@' →
      (lower (c :: t)).startsWith keyword = false := by
    intro keyword hk
    obtain ⟨keyword, rfl⟩ := List.head?_eq_some_iff.mp hk
    have hhead : ('@' == c.toLower) = false := beq_false_of_ne (Ne.symm hlower)
    rw [startsWith, lower, List.map_cons, List.isPrefixOf, hhead, Bool.false_and]
  unfold sizePrelude? at h
  dsimp only at h
  rw [hkeyword _ rfl, hkeyword _ rfl] at h
  exact absurd h (by simp)

namespace InPrelude

theorem of_snoc (h : InPrelude (b ++ [c]) t) :
    InPrelude b (c :: t) ∨ ∃ found, sizePrelude? (c :: t) = some found := by
  obtain ⟨p, v, prelude, rest, hsplit, hv, hfound, hlen⟩ := h
  obtain ⟨v, d, rfl⟩ := (List.eq_nil_or_concat v).resolve_left hv
  rw [List.concat_eq_append] at hsplit hfound hlen
  rw [← List.append_assoc] at hsplit
  obtain ⟨rfl, hd⟩ := List.append_inj' hsplit rfl
  obtain rfl := List.singleton_inj.mp hd
  rw [List.append_assoc, List.singleton_append] at hfound
  rcases eq_or_ne v [] with rfl | hne
  · exact Or.inr ⟨_, hfound⟩
  · refine Or.inl ⟨p, v, prelude, rest, rfl, hne, hfound, ?_⟩
    rw [List.length_append] at hlen
    omega

theorem of_append (hw : '@' ∉ w) (h : InPrelude (b ++ w) t) : InPrelude b (w ++ t) := by
  induction w generalizing b with
  | nil => rwa [List.append_nil] at h
  | cons c w ih =>
    rw [List.append_cons] at h
    have hrest := ih (fun hmem => hw (List.mem_cons_of_mem c hmem)) h
    refine hrest.of_snoc.resolve_right ?_
    rintro ⟨found, hfound⟩
    exact hw (eq_at_of_sizePrelude? hfound ▸ List.mem_cons_self)

theorem not_cons (hc : isPreludeEnd c = true) : ¬ InPrelude b (c :: t) := by
  rintro ⟨p, v, prelude, rest, -, -, hfound, hlen⟩
  have hprelude : prelude = v.takeWhile (!isPreludeEnd ·) := by
    rw [(sizePrelude?_eq_some hfound).1]
    exact takeWhile_append_cons (by simp [hc]) v t
  have hle := (List.takeWhile_prefix (l := v) (!isPreludeEnd ·)).length_le
  rw [← hprelude] at hle
  omega

theorem not_nil : ¬ InPrelude b [] := by
  rintro ⟨p, v, prelude, rest, -, -, hfound, hlen⟩
  have hle := (List.takeWhile_prefix (l := v ++ []) (!isPreludeEnd ·)).length_le
  rw [← (sizePrelude?_eq_some hfound).1, List.append_nil] at hle
  omega

theorem not_behind (h : sizePrelude? t = some (prelude, rest)) : ¬ InPrelude b rest := by
  cases hrest : rest with
  | nil => exact not_nil
  | cons c u =>
    have hhead := List.head?_dropWhile_not (!isPreludeEnd ·) t
    rw [← (sizePrelude?_eq_some h).2, hrest] at hhead
    exact not_cons (by simpa using hhead)

end InPrelude

end Preludes

/-- A text and what the pass makes of it behind some text: what is exposed is renamed, and the rest
stays. -/
inductive Edited : Text → Text → Text → Prop
  | nil {b : Text} : Edited b [] []
  | keep {b : Text} {c : Char} {t u : Text} (hc : ¬ Exposed b (c :: t)) (h : Edited (b ++ [c]) t u) :
      Edited b (c :: t) (c :: u)
  | edit {b name blanks t u : Text} {e : Text × Text} (hp : Physical e name blanks)
      (he : Exposed b (name ++ blanks ++ [':'] ++ t))
      (h : Edited (b ++ (name ++ blanks ++ [':'])) t u) :
      Edited b (name ++ blanks ++ [':'] ++ t) (e.2 ++ [':'] ++ u)

namespace Edited

theorem keepAll (hw : ∀ x y, w = x ++ y → y ≠ [] → ¬ Exposed (b ++ x) (y ++ t))
    (h : Edited (b ++ w) t u) : Edited b (w ++ t) (w ++ u) := by
  induction w generalizing b with
  | nil => rwa [List.append_nil] at h
  | cons c w ih =>
    refine .keep ?_ (ih (fun x y hxy hy => ?_) (by rwa [← List.append_cons]))
    · have hfirst := hw [] (c :: w) rfl (List.cons_ne_nil c w)
      rwa [List.append_nil] at hfirst
    · have hrest := hw (c :: x) y (by rw [hxy, List.cons_append]) hy
      rwa [List.append_cons] at hrest

end Edited

theorem substituteFrom_take (r : Recogniser Text) (b w t : Text) :
    substituteFrom r w.length b.getLast? (w ++ t) = substituteFrom r 0 (b ++ w).getLast? t := by
  induction w generalizing b with
  | nil => rw [List.append_nil]; rfl
  | cons c w ih =>
    have hlast : some c = (b ++ [c]).getLast? := by simp
    rw [List.length_cons, List.cons_append, substituteFrom, hlast, ih, ← List.append_cons]

theorem substituteFrom_some {r : Recogniser Text} (hw : w ≠ [])
    (h : r b.getLast? (w ++ t) = some (out, t)) :
    substituteFrom r 0 b.getLast? (w ++ t) = out ++ substituteFrom r 0 (b ++ w).getLast? t := by
  obtain ⟨c, w, rfl⟩ := List.exists_cons_of_ne_nil hw
  have hlast : some c = (b ++ [c]).getLast? := by simp
  rw [List.cons_append] at h ⊢
  rw [substituteFrom, h]
  dsimp only
  rw [List.length_append, Nat.add_sub_cancel, hlast, substituteFrom_take, ← List.append_cons]

theorem logicalProperty_at (before : Option Char) (t : Text) :
    logicalProperty before ('@' :: t) = sizePrelude? ('@' :: t) := rfl

theorem logicalProperty_of_ne (hc : c ≠ '@') (before : Option Char) (t : Text) :
    logicalProperty before (c :: t) = physicalProperty? before (c :: t) := by
  rw [logicalProperty]
  exact fun u he => hc (List.cons.inj he).1

theorem Physical.at_notMem (h : Physical e name blanks) : '@' ∉ name ++ blanks ++ [':'] := by
  intro hmem
  rcases List.mem_append.mp hmem with hmem | hmem
  · rcases List.mem_append.mp hmem with hmem | hmem
    · exact absurd (h.isNameChar_of_mem hmem) (by decide)
    · exact absurd (h.blank _ hmem) (by decide)
  · exact absurd hmem (by decide)

theorem Edited.prelude {prelude : Text} (h : sizePrelude? (prelude ++ rest) = some (prelude, rest))
    (hu : Edited (b ++ prelude) rest u) : Edited b (prelude ++ rest) (prelude ++ u) := by
  refine .keepAll (fun x y hxy hy => ?_) hu
  rcases eq_or_ne x [] with rfl | hx
  · obtain ⟨c, y, rfl⟩ := List.exists_cons_of_ne_nil hy
    obtain rfl := eq_at_of_sizePrelude? (hxy ▸ h)
    exact not_exposed_cons (by decide)
  · refine fun he => he.outside ⟨b, x, prelude, rest, rfl, hx, ?_, ?_⟩
    · rw [← List.append_assoc, ← hxy, h]
    · have hpos := List.length_pos_iff.mpr hy
      rw [hxy, List.length_append]
      omega

theorem Edited.longer (hp : Physical e name blanks) (hb : nameBefore b.getLast? = true)
    (hu : Edited (b ++ (name ++ blanks ++ [':'])) rest u) :
    Edited b (name ++ blanks ++ [':'] ++ rest) (name ++ blanks ++ [':'] ++ u) := by
  refine .keepAll (fun x y hxy hy => ?_) hu
  rcases eq_or_ne x [] with rfl | hx
  · intro he
    have hwhole := he.whole
    rw [List.append_nil, hb] at hwhole
    exact absurd hwhole (by decide)
  · exact hp.not_exposed hx hy hxy

theorem of_logicalProperty_none (h : ¬ InPrelude b (c :: t))
    (hnone : logicalProperty b.getLast? (c :: t) = none) :
    ¬ Exposed b (c :: t) ∧ ¬ InPrelude (b ++ [c]) t := by
  constructor
  · by_cases hc : c = '@'
    · exact not_exposed_cons (hc ▸ by decide)
    · rw [logicalProperty_of_ne hc, physicalProperty?_eq_none_iff] at hnone
      rintro ⟨-, -, e, name, blanks, rest, hp, he⟩
      exact hnone e name blanks rest hp he
  · intro hin
    rcases hin.of_snoc with hin | ⟨found, hfound⟩
    · exact h hin
    · obtain rfl := eq_at_of_sizePrelude? hfound
      rw [logicalProperty_at, hfound] at hnone
      exact absurd hnone (Option.some_ne_none _)

/-- What is recognised stays or is edited, and behind it the pass goes on outside preludes. -/
theorem of_logicalProperty_some (h : ¬ InPrelude b (c :: t))
    (hsome : logicalProperty b.getLast? (c :: t) = some (out, rest)) :
    ∃ w, w ≠ [] ∧ c :: t = w ++ rest ∧ ¬ InPrelude (b ++ w) rest ∧
      ∀ u, Edited (b ++ w) rest u → Edited b (w ++ rest) (out ++ u) := by
  by_cases hc : c = '@'
  · subst hc
    rw [logicalProperty_at] at hsome
    obtain ⟨hout, hrest⟩ := sizePrelude?_eq_some hsome
    have hsplit : '@' :: t = out ++ rest := by
      rw [hout, hrest, List.takeWhile_append_dropWhile]
    refine ⟨out, hout ▸ List.cons_ne_nil _ _, hsplit, InPrelude.not_behind hsome, fun u hu => ?_⟩
    exact .prelude (hsplit ▸ hsome) hu
  · rw [logicalProperty_of_ne hc] at hsome
    obtain ⟨e, name, blanks, hp, ht, rfl⟩ := exists_of_physicalProperty? hsome
    have hsplit : c :: t = name ++ blanks ++ [':'] ++ rest := ht.trans (List.append_cons _ _ _)
    rw [hsplit] at h
    refine ⟨name ++ blanks ++ [':'], by simp, hsplit, fun hin => h (hin.of_append hp.at_notMem), ?_⟩
    intro u hu
    split_ifs with hb
    · exact .longer hp hb hu
    · exact .edit hp ⟨h, by simpa using hb, e, name, blanks, rest, hp,
        (List.append_cons _ _ _).symm⟩ hu

/-- Outside preludes the pass edits what is exposed and keeps the rest. -/
theorem edited_substituteFrom (h : ¬ InPrelude b t) :
    Edited b t (substituteFrom logicalProperty 0 b.getLast? t) := by
  induction hn : t.length using Nat.strongRecOn generalizing b t with
  | ind n ih =>
    rcases t with _ | ⟨c, t⟩
    · exact .nil
    cases hfound : logicalProperty b.getLast? (c :: t) with
    | none =>
      obtain ⟨hnot, hstay⟩ := of_logicalProperty_none h hfound
      have hlast : some c = (b ++ [c]).getLast? := by simp
      rw [substituteFrom, hfound]
      dsimp only
      rw [hlast]
      exact .keep hnot (ih t.length (by rw [← hn]; exact Nat.lt_succ_self _) hstay rfl)
    | some found =>
      obtain ⟨out, rest⟩ := found
      obtain ⟨w, hne, hsplit, hstay, hedit⟩ := of_logicalProperty_some h hfound
      rw [hsplit] at hn hfound
      rw [hsplit, substituteFrom_some hne hfound]
      have hpos := List.length_pos_iff.mpr hne
      exact hedit _ (ih rest.length (by rw [← hn, List.length_append]; omega) hstay rfl)

theorem edited_toLogical (css : Text) : Edited [] (replaceVariables css) (toLogical css) := by
  refine edited_substituteFrom ?_
  rintro ⟨p, v, prelude, rest, hsplit, hv, -⟩
  exact hv (List.append_eq_nil_iff.mp hsplit.symm).2

end Restyle.Declaration
