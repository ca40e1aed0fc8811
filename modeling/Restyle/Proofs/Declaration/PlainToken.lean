import Mathlib
import Restyle.Proofs.Declaration.AlphaValue
import Restyle.Proofs.Declaration.TokenPass

/-! # Uses of plain tokens

A use inside `hsl( )` of a token that ends in `-hsl` becomes a use of the plain
token, and the text around it stays. An alpha value is read up to its first
closing parenthesis only, and the name of the plain token is read a second time.
-/

namespace Restyle.Declaration

open Text

variable {a b t u v out name before after : Text} {c : Char}

/-- A use inside `hsl( )` of the token with `-hsl` behind a name. -/
def hslUse (t behind : Text) : Text :=
  "hsl(" ++ useOf (t ++ "-hsl") ++ behind ++ ")"

/-- The use of a plain token that is mixed with transparency. -/
def mixedUse (name alpha : Text) : Text :=
  "color-mix(in oklab, " ++ useOf name ++ " " ++ alphaPercentage alpha ++ ", transparent)"

/-- A name ends in `-hsl`, in any case, and is not only that. -/
def EndsInHsl (t : Text) : Prop :=
  ("-hsl" : Text) <:+ lower t ∧ lower t ≠ "-hsl"

instance (t : Text) : Decidable (EndsInHsl t) :=
  inferInstanceAs (Decidable (_ ∧ _))

theorem endsInHsl_iff : EndsInHsl t ↔ ∃ n : Text, n ≠ [] ∧ lower t = n ++ "-hsl" := by
  constructor
  · rintro ⟨⟨n, hn⟩, hne⟩
    refine ⟨n, ?_, hn.symm⟩
    rintro rfl
    exact hne hn.symm
  · rintro ⟨n, hn, hsplit⟩
    exact ⟨⟨n, hsplit.symm⟩, fun h => hn (List.self_eq_append_left.mp (h.symm.trans hsplit))⟩

theorem hslVariable?_useOf (ht : ∀ c ∈ t, isFoldedNameChar c = true) :
    hslVariable? (useOf t) = (dropWordEnd? "-hsl" t).bind fun n =>
      if n.isEmpty then none else some (lower n, []) := by
  have hused : usedName? (useOf t) = some (t, []) :=
    usedName?_eq_some_iff.mpr ⟨"var", [], [], by decide, .nil, .nil, ht, by rw [List.append_nil]; rfl⟩
  rw [hslVariable?, hused]
  rfl

theorem tokenUse_useOf_iff (ht : ∀ c ∈ t, isFoldedNameChar c = true) : TokenUse (useOf t) name ↔
    ∃ n ending : Text, n ≠ [] ∧ ending.map fold = "-hsl" ∧ t = n ++ ending ∧ name = lower n := by
  have hread : hslVariable? (useOf t) = some (name, []) ↔ TokenUse (useOf t) name := by
    rw [hslVariable?_eq_some_iff]
    simp
  rw [← hread, hslVariable?_useOf ht, Option.bind_eq_some_iff]
  constructor
  · rintro ⟨n, hn, he⟩
    split_ifs at he with hne
    obtain ⟨ending, rfl, hending⟩ := dropWordEnd?_eq_some_iff.mp hn
    exact ⟨n, ending, by simpa using hne, hending.trans (by decide), rfl,
      (Prod.mk.inj (Option.some.inj he)).1.symm⟩
  · rintro ⟨n, ending, hne, hending, rfl, rfl⟩
    exact ⟨n, dropWordEnd?_eq_some_iff.mpr ⟨ending, rfl, hending.trans (by decide)⟩,
      if_neg (by simpa using hne)⟩

theorem useOf_eq (t : Text) : useOf t = ("var" : Text) ++ '(' :: ("--" ++ t) ++ [')'] := rfl

theorem paren_notMem (ht : ∀ c ∈ t, isNameChar c = true) :
    '(' ∉ ("--" : Text) ++ t ∧ ')' ∉ ("--" : Text) ++ t := by
  have hall : ∀ c, isNameChar c = false → c ∉ ("--" : Text) ++ t := by
    intro c hc hmem
    rcases List.mem_append.mp hmem with hmem | hmem
    · have hdash : isNameChar c = true :=
        List.all_eq_true.mp (by decide : (("--" : Text).all isNameChar) = true) c hmem
      exact Bool.false_ne_true (hc.symm.trans hdash)
    · exact Bool.false_ne_true (hc.symm.trans (ht c hmem))
  exact ⟨hall _ (by decide), hall _ (by decide)⟩

variable (hne : t ≠ []) (ht : ∀ c ∈ t, isNameChar c = true)

include ht in
theorem isNameChar_of_mem_lower : ∀ c ∈ lower t, isNameChar c = true := by
  intro c hc
  obtain ⟨d, hd, rfl⟩ := List.mem_map.mp hc
  rw [isNameChar_toLower, ht d hd]

include ht in
theorem close_notMem_lower : ')' ∉ lower t := by
  intro hmem
  exact absurd (isNameChar_of_mem_lower ht _ hmem) (by decide)

include ht in
theorem isNameChar_of_mem_hsl : ∀ c ∈ t ++ "-hsl", isNameChar c = true := by
  intro c hc
  rcases List.mem_append.mp hc with hc | hc
  · exact ht c hc
  · exact List.all_eq_true.mp (by decide : (("-hsl" : Text).all isNameChar) = true) c hc

include ht in
/-- The plain token is itself read as a use exactly if its name ends in `-hsl`. -/
theorem tokenUse_lower_iff : TokenUse (useOf (lower t)) name ↔
    ∃ n : Text, n ≠ [] ∧ lower t = n ++ "-hsl" ∧ name = lower n := by
  have hchars := isNameChar_of_mem_lower ht
  rw [tokenUse_useOf_iff fun c hc => isFoldedNameChar_of_isNameChar (hchars c hc)]
  constructor
  · rintro ⟨n, ending, hn, hending, hsplit, rfl⟩
    refine ⟨n, hn, ?_, rfl⟩
    have hfold : ending.map fold = ending := by
      refine (List.map_congr_left fun c hc => ?_).trans (List.map_id _)
      have hmem : c ∈ lower t := hsplit ▸ List.mem_append_right n hc
      obtain ⟨d, -, rfl⟩ := List.mem_map.mp hmem
      rw [fold_eq_toLower (hchars _ hmem), Char.toLower_toLower_eq_toLower]
      rfl
    rw [hsplit, ← hending, hfold]
  · rintro ⟨n, hn, hsplit, rfl⟩
    exact ⟨n, "-hsl", hn, by decide, hsplit, rfl⟩

include hne ht in
theorem tokenUse_hsl : TokenUse (useOf (t ++ "-hsl")) (lower t) :=
  (tokenUse_useOf_iff fun c hc => isFoldedNameChar_of_isNameChar (isNameChar_of_mem_hsl ht c hc)).mpr
    ⟨t, "-hsl", hne, by decide, rfl, rfl⟩

theorem hslUse_eq (t behind : Text) : hslUse t behind =
    ("hsl" : Text) ++ '(' :: (("var" : Text) ++ '(' :: ("--" ++ (t ++ "-hsl"))) ++ ')' :: (behind ++ ")") := by
  have hform : hslUse t behind = ("hsl(var(--" : Text) ++ (t ++ "-hsl") ++ ")" ++ behind ++ ")" := rfl
  simp only [hform, List.append_assoc, List.cons_append]
  rfl

include hne ht in
theorem functionUse_plain : FunctionUse (hslUse t "") (useOf (lower t)) := by
  have hword : ("hsl" : Text).map fold = "hsl" := by decide
  exact FunctionUse.plain hword .nil (tokenUse_hsl hne ht) .nil

include hne ht in
theorem functionUse_mixed (ha : ')' ∉ a) :
    FunctionUse (hslUse t (" / " ++ a)) (mixedUse (lower t) a) := by
  have hword : ("hsl" : Text).map fold = "hsl" := by decide
  have hblank : Blank (" " : Text) := by
    rw [Blank]
    decide
  have halpha : alphaPercentage (' ' :: a) = alphaPercentage a := by
    have htrim : trim (' ' :: a) = trim a := trim_blank_append hblank a
    rw [alphaPercentage, alphaPercentage, htrim]
  have huse := FunctionUse.mixed hword .nil (tokenUse_hsl hne ht) hblank
    (List.cons_ne_nil ' ' a) (List.not_mem_cons_of_ne_of_not_mem (by decide) ha)
  rw [halpha, List.append_assoc _ (" " : Text)] at huse
  exact huse

include ht in
theorem replaceHsl_hslUse {behind : Text} (hf : FunctionUse (hslUse t behind) out)
    (hb : HslFree b) (hu : HslFree u) :
    replaceHsl (b ++ hslUse t behind ++ u) = replaceBareHsl (b ++ out ++ u) := by
  obtain ⟨hopen, hclosed⟩ := paren_notMem (isNameChar_of_mem_hsl ht)
  have hguard : contains (lower (b ++ hslUse t behind ++ u)) "-hsl" = true := by
    have hin : ("-hsl" : Text) <:+: b ++ hslUse t behind ++ u := by
      rw [hslUse_eq]
      exact ⟨b ++ ("hsl" ++ '(' :: ("var" ++ '(' :: ("--" ++ t))), ')' :: (behind ++ ")") ++ u, by simp⟩
    have hlower : lower "-hsl" = "-hsl" := by decide
    rw [contains_iff_isInfix, ← hlower]
    exact hin.map Char.toLower
  rw [hslUse_eq] at hf
  rw [replaceHsl, if_pos hguard, hslUse_eq,
    substitute_hslFunction hb hu rfl (by decide) hopen (by simpa using hclosed) hf]

include ht in
/-- The second pass leaves a plain token, unless its name ends in `-hsl` itself. -/
theorem exists_replaceBareHsl : ∃ name : Text, ')' ∉ name ∧ (name = lower t ↔ ¬ EndsInHsl t) ∧
    ∀ b u, HslFree b → HslFree u →
      replaceBareHsl (b ++ useOf (lower t) ++ u) = b ++ useOf name ++ u := by
  obtain ⟨hopen, hclosed⟩ := paren_notMem (isNameChar_of_mem_lower ht)
  have hclosed' : ')' ∉ ("var" : Text) ++ '(' :: ("--" ++ lower t) := by simpa using hclosed
  by_cases hend : EndsInHsl t
  · obtain ⟨n, hn, hsplit⟩ := endsInHsl_iff.mp hend
    have huse := (tokenUse_lower_iff ht).mpr ⟨n, hn, hsplit, rfl⟩
    rw [useOf_eq] at huse
    have hn' : ∀ c ∈ n, isNameChar c = true := fun c hc =>
      isNameChar_of_mem_lower ht c (hsplit ▸ List.mem_append_left _ hc)
    refine ⟨lower n, close_notMem_lower hn', iff_of_false (fun he => ?_) (not_not_intro hend), ?_⟩
    · have hlen := congrArg List.length he
      rw [hsplit, lower, List.length_map, List.length_append] at hlen
      exact absurd hlen (by simp)
    · intro b u hb hu
      rw [replaceBareHsl, useOf_eq, substitute_bareHsl_of_use hb hu rfl hopen hclosed' huse]
  · refine ⟨lower t, close_notMem_lower ht, iff_of_true rfl hend, ?_⟩
    intro b u hb hu
    rw [replaceBareHsl, useOf_eq, substitute_bareHsl_of_not_use hb hu rfl hopen hclosed' fun name huse => ?_]
    rw [← useOf_eq, tokenUse_lower_iff ht] at huse
    obtain ⟨n, hn, hsplit, -⟩ := huse
    exact hend (endsInHsl_iff.mpr ⟨n, hn, hsplit⟩)

theorem useOf_append_inj {n m : Text} (hn : ')' ∉ n) (hm : ')' ∉ m)
    (h : useOf n ++ u = useOf m ++ v) : n = m ∧ u = v := by
  have hclosed : ∀ n : Text, ')' ∉ n → ')' ∉ ("var(--" : Text) ++ n := by
    intro n hn hmem
    exact (List.mem_append.mp hmem).elim (by decide) hn
  have hform : ∀ n u : Text, useOf n ++ u = ("var(--" : Text) ++ n ++ ')' :: u :=
    fun n u => List.append_assoc _ _ _
  rw [hform, hform] at h
  obtain ⟨hnm, huv⟩ := append_cons_inj_of_first (hclosed n hn) (hclosed m hm) h
  exact ⟨List.append_cancel_left hnm, huv⟩

theorem fold_ne_of_isPercentageChar (h : isPercentageChar c = true) : fold c ≠ 'h' := by
  have hascii : c.toNat < 128 := by
    simp only [isPercentageChar, Bool.or_eq_true, beq_iff_eq] at h
    rcases h with ((h | rfl) | rfl) | rfl
    · exact toNat_lt_of_isNameChar (by simp [isNameChar, Char.isAlphanum, h])
    all_goals decide
  have hall : ∀ n < 128, isPercentageChar (Char.ofNat n) = true → fold (Char.ofNat n) ≠ 'h' := by
    decide +kernel
  have hc := hall c.toNat hascii
  rw [Char.ofNat_toNat] at hc
  exact hc h

theorem hslFree_alphaPercentage (h : HslFree a) : HslFree (alphaPercentage a) := by
  have htrim : HslFree (trim a) := by
    obtain ⟨w, w', -, -, he⟩ := exists_eq_trim a
    exact h.of_isInfix ⟨w, w', he.symm⟩
  rcases alphaPercentage_cases a with he | he | hall
  · rwa [he]
  · rw [he]
    have hcalc : HslFree ("calc" ++ '(' :: (trim a ++ ' ' :: "* 100%)")) :=
      .append_cons (by decide) (by decide) (.append_cons htrim (by decide) (by decide))
    simpa using hcalc
  · rw [HslFree, ← Bool.not_eq_true, contains_iff_isInfix]
    intro hin
    obtain ⟨c, hc, hfold⟩ := List.mem_map.mp (hin.subset (by decide : 'h' ∈ ("-hsl" : Text)))
    exact fold_ne_of_isPercentageChar (hall c hc) hfold

theorem mixedUse_eq (before name a after : Text) : before ++ mixedUse name a ++ after =
    before ++ 'c' :: "olor-mix(in oklab, " ++ useOf name ++
      ' ' :: (alphaPercentage a ++ ',' :: (" transparent" ++ ')' :: after)) := by
  have hform : mixedUse name a = ("color-mix(in oklab, " : Text) ++ useOf name ++ " " ++
    alphaPercentage a ++ ", transparent)" := rfl
  simp only [hform, List.append_assoc]
  rfl

theorem mixedUse_append_inj {n m a a' after after' : Text} (hn : ')' ∉ n) (hm : ')' ∉ m)
    (h : before ++ mixedUse n a ++ after = before ++ mixedUse m a' ++ after') :
    n = m ∧ alphaPercentage a ++ ',' :: (" transparent" ++ ')' :: after) =
      alphaPercentage a' ++ ',' :: (" transparent" ++ ')' :: after') := by
  rw [mixedUse_eq, mixedUse_eq, List.append_assoc _ (useOf n), List.append_assoc _ (useOf m)] at h
  obtain ⟨hname, htail⟩ := useOf_append_inj hn hm (List.append_cancel_left h)
  exact ⟨hname, (List.cons.inj htail).2⟩

include hne ht in
/-- A use with an alpha value that no parenthesis closes is mixed, with the name that both passes
leave. -/
theorem exists_replaceHsl_mixed : ∃ name : Text, ')' ∉ name ∧ (name = lower t ↔ ¬ EndsInHsl t) ∧
    ∀ before a after, HslFree before → HslFree a → HslFree after → ')' ∉ a →
      replaceHsl (before ++ hslUse t (" / " ++ a) ++ after) = before ++ mixedUse name a ++ after := by
  obtain ⟨name, hname, hends, hsecond⟩ := exists_replaceBareHsl ht
  refine ⟨name, hname, hends, fun before a after hbefore ha hafter hclosed => ?_⟩
  have hb : HslFree (before ++ 'c' :: "olor-mix(in oklab, ") :=
    hbefore.append_cons (by decide) (by decide)
  have hu : HslFree (' ' :: (alphaPercentage a ++ ',' :: (" transparent" ++ ')' :: after))) :=
    .append_cons (t := []) (by decide) (by decide)
      ((hslFree_alphaPercentage ha).append_cons (by decide)
        (.append_cons (by decide) (by decide) hafter))
  rw [replaceHsl_hslUse ht (functionUse_mixed hne ht hclosed) hbefore hafter, mixedUse_eq,
    mixedUse_eq, hsecond _ _ hb hu]

/-- A use with an alpha value in balanced parentheses, and no other name that ends in `-hsl`: it is
mixed in its place exactly if the alpha value has no parentheses and the name of the plain token does
not end in `-hsl` itself. Without an alpha value it becomes the plain use unless the name does. -/
theorem replaceHsl_mixes_iff (hne : t ≠ []) (ht : ∀ c ∈ t, isNameChar c = true)
    (hbefore : HslFree before) (hafter : HslFree after) (ha : HslFree a)
    (hbalanced : balancedBehind 0 a = true) :
    (replaceHsl (before ++ hslUse t (" / " ++ a) ++ after) = before ++ mixedUse (lower t) a ++ after ↔
      ')' ∉ a ∧ ¬ EndsInHsl t) ∧
    (replaceHsl (before ++ hslUse t "" ++ after) = before ++ useOf (lower t) ++ after ↔
      ¬ EndsInHsl t) := by
  have hlower := close_notMem_lower ht
  constructor
  · obtain ⟨name, hname, hends, hmixed⟩ := exists_replaceHsl_mixed hne ht
    by_cases hclosed : ')' ∈ a
    · -- The first closing parenthesis ends the use, and what is behind it stays.
      refine iff_of_false (fun h => ?_) fun h => h.1 hclosed
      obtain ⟨u, w, rfl, hu⟩ := List.eq_append_cons_of_mem hclosed
      have hsplit : before ++ hslUse t (" / " ++ (u ++ ')' :: w)) ++ after =
          before ++ hslUse t (" / " ++ u) ++ (w ++ ')' :: after) := by
        simp only [hslUse_eq, List.append_assoc, List.cons_append]
        rfl
      have hrest : HslFree (w ++ ')' :: after) :=
        .append_cons (ha.of_isInfix ⟨u ++ [')'], [], by simp⟩) (by decide) hafter
      rw [hsplit, hmixed _ _ _ hbefore (ha.of_isInfix (List.prefix_append u _).isInfix) hrest hu] at h
      obtain ⟨-, htail⟩ := mixedUse_append_inj hname hlower h
      exact alphaPercentage_append_ne (open_mem_of_balanced hbalanced hu) hu w _ _ htail
    · rw [hmixed before a after hbefore ha hafter hclosed, ← hends]
      refine ⟨fun h => ⟨hclosed, (mixedUse_append_inj hname hlower h).1⟩, ?_⟩
      rintro ⟨-, rfl⟩
      rfl
  · obtain ⟨name, hname, hends, hsecond⟩ := exists_replaceBareHsl ht
    rw [replaceHsl_hslUse ht (functionUse_plain hne ht) hbefore hafter, hsecond _ _ hbefore hafter,
      ← hends, List.append_assoc, List.append_assoc, List.append_cancel_left_eq]
    refine ⟨fun h => (useOf_append_inj hname hlower h).1, ?_⟩
    rintro rfl
    rfl

theorem replaceHsl_mixes_button :
    (HslFree ".a\x7bcolor: " ∧ HslFree ";--b:calc(1)\x7d" ∧
        HslFree "50%" ∧ HslFree "calc(1 - var(--x))") ∧
      replaceHsl (".a\x7bcolor: " ++ hslUse "Primary" (" / " ++ "50%") ++ ";--b:calc(1)\x7d") =
        ".a\x7bcolor: " ++ mixedUse (lower "Primary") "50%" ++ ";--b:calc(1)\x7d" ∧
      replaceHsl (".a\x7bcolor: " ++ hslUse "Primary" (" / " ++ "calc(1 - var(--x))") ++
          ";--b:calc(1)\x7d") ≠
        ".a\x7bcolor: " ++ mixedUse (lower "Primary") "calc(1 - var(--x))" ++ ";--b:calc(1)\x7d" ∧
      replaceHsl (".a\x7bcolor: " ++ hslUse "Primary" "" ++ ";--b:calc(1)\x7d") =
        ".a\x7bcolor: " ++ useOf (lower "Primary") ++ ";--b:calc(1)\x7d" := by
  have hne : ("Primary" : Text) ≠ [] := by decide
  have ht : ∀ c ∈ ("Primary" : Text), isNameChar c = true := by decide
  have hbefore : HslFree ".a\x7bcolor: " := by decide
  have hafter : HslFree ";--b:calc(1)\x7d" := by decide
  have hhalf : HslFree "50%" := by decide
  have hcalc : HslFree "calc(1 - var(--x))" := by decide
  have hends : ¬ EndsInHsl "Primary" := by decide
  obtain ⟨hmixed, hplain⟩ := replaceHsl_mixes_iff hne ht hbefore hafter hhalf (by decide)
  obtain ⟨hnested, -⟩ := replaceHsl_mixes_iff hne ht hbefore hafter hcalc (by decide)
  exact ⟨⟨hbefore, hafter, hhalf, hcalc⟩, hmixed.mpr ⟨by decide, hends⟩,
    fun h => (hnested.mp h).1 (by decide), hplain.mpr hends⟩

/-- The use of a token as an alpha value is cut at its parenthesis. -/
theorem nestedAlpha_cut :
    replaceHsl "color: hsl(var(--primary-hsl) / var(--alpha));" =
        "color: color-mix(in oklab, var(--primary) calc(var(--alpha * 100%), transparent));" ∧
      replaceHsl ("color: " ++ hslUse "primary" (" / " ++ "var(--alpha)") ++ ";") ≠
        "color: " ++ mixedUse (lower "primary") "var(--alpha)" ++ ";" := by
  decide +kernel

end Restyle.Declaration
