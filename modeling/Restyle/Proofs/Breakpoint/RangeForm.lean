import Restyle.Proofs.Breakpoint.Feature
import Restyle.Proofs.Breakpoint.Table
import Restyle.Proofs.Json.Number

/-! # All features in range form at once

A condition is put in range form by three passes, one for each kind of feature.
They come to the same as one pass that writes all features at once, and leave no
feature. So the older conditions of the breakpoints, put in range form, are
their conditions in range form.
-/

namespace Restyle.Condition

open Text

variable {t u f out name relation size word rest : Text}

def feature : Recogniser Text :=
  fun before t => comparisons.findSome? fun r => r before t

def names : List Text :=
  "min-width" :: "max-width" :: sizes

/-- A name in any case behind the parenthesis of a feature. -/
def Names (word t : Text) : Prop :=
  (dropWord? word (trimStart t.tail)).isSome

theorem Names.unique (hn : name ∈ names) (hw : word ∈ names) (h : Names name t)
    (h' : Names word t) : name = word := by
  have hopens : ∀ n ∈ names, ∀ m ∈ names, n.map fold <+: m.map fold → n = m := by decide
  have hfold : ∀ {word u : Text}, (dropWord? word u).isSome → word.map fold <+: u.map fold := by
    intro word u h
    obtain ⟨rest, h⟩ := Option.isSome_iff_exists.mp h
    obtain ⟨spelled, rfl, he⟩ := dropWord?_eq_some_iff.mp h
    rw [List.map_append, he]
    exact List.prefix_append _ _
  rcases List.prefix_or_prefix_of_prefix (hfold h) (hfold h') with hle | hle
  · exact hopens name hn word hw hle
  · exact (hopens word hw name hn hle).symm

theorem names_spelled {l : Char} {w spelled : Text} (hl : fold l ∈ ['m', 'w', 'i', 'b', 'p'])
    (hw : Blank w) (h : spelled.map fold = (l :: word).map fold) (t : Text) :
    Names (l :: word) ('(' :: (w ++ (spelled ++ t))) :=
  Option.isSome_iff_exists.mpr ⟨t, (dropWord?_trimStart_iff hl).mpr ⟨w, spelled, hw, h, rfl⟩⟩

theorem Bound.names {l : Char} (hl : fold l ∈ ['m', 'w', 'i', 'b', 'p'])
    (h : Bound (l :: word) relation f out) (rest : Text) : Names (l :: word) (f ++ rest) := by
  cases h with
  | spell hw hname hw' hp =>
    simpa using names_spelled hl hw hname _

theorem Range.exists_names (h : Range f out) (rest : Text) :
    ∃ size ∈ sizes, Names size (f ++ rest) := by
  cases h with
  | spell hsize hrelation hw hname hw' hp =>
    obtain ⟨l, word, rfl, hl⟩ := exists_letter_of_mem_sizes hsize
    exact ⟨_, hsize, by simpa using names_spelled hl hw hname _⟩

theorem bound_eq_none {l : Char} (hl : fold l ∈ ['m', 'w', 'i', 'b', 'p'])
    (hbound : l :: word ∈ names) (relation : Text) (hname : name ∈ names) (hne : name ≠ l :: word)
    (h : Names name t) : bound (l :: word) relation none t = none := by
  rw [(reads_bound hl relation).eq_none_iff]
  rintro ⟨f, out, rest, hf, rfl⟩
  exact hne (h.unique hname hbound (hf.names hl rest))

theorem reads_min : (bound "min-width" ">=").Reads (Bound "min-width" ">=") :=
  reads_bound (by decide) _

theorem reads_max : (bound "max-width" "<=").Reads (Bound "max-width" "<=") :=
  reads_bound (by decide) _

theorem reads_feature : feature.Reads Feature where
  forward _ _ := rfl
  ne_nil f out h := by
    obtain ⟨inner, rfl, -⟩ := h.exists_inner
    exact List.cons_ne_nil _ _
  eq_some_iff := by
    intro t out rest
    constructor
    · intro h
      obtain ⟨r, hr, h⟩ := List.exists_of_findSome?_eq_some h
      simp only [comparisons, List.mem_cons, List.not_mem_nil, or_false] at hr
      rcases hr with rfl | rfl | rfl
      · exact ((reads_min.eq_some_iff t out rest).mp h).imp fun f hf => hf.imp_right (Or.inl ∘ Or.inl)
      · exact ((reads_max.eq_some_iff t out rest).mp h).imp fun f hf => hf.imp_right (Or.inl ∘ Or.inr)
      · exact ((reads_range.eq_some_iff t out rest).mp h).imp fun f hf => hf.imp_right Or.inr
    · rintro ⟨f, rfl, h⟩
      rcases h with (h | h) | h
      · have hsome := (reads_min.eq_some_iff (f ++ rest) out rest).mpr ⟨f, rfl, h⟩
        simp only [feature, comparisons, List.findSome?_cons, hsome]
      · have hname := h.names (by decide) rest
        have hmin : bound "min-width" ">=" none (f ++ rest) = none :=
          bound_eq_none (by decide) (by decide) _ (by decide) (by decide) hname
        have hsome := (reads_max.eq_some_iff (f ++ rest) out rest).mpr ⟨f, rfl, h⟩
        simp only [feature, comparisons, List.findSome?_cons, hmin, hsome]
      · obtain ⟨size, hsize, hname⟩ := h.exists_names rest
        have hother : ∀ s ∈ sizes, s ∈ names ∧ s ≠ "min-width" ∧ s ≠ "max-width" := by decide
        obtain ⟨hmem, hnemin, hnemax⟩ := hother size hsize
        have hmin : bound "min-width" ">=" none (f ++ rest) = none :=
          bound_eq_none (by decide) (by decide) _ hmem hnemin hname
        have hmax : bound "max-width" "<=" none (f ++ rest) = none :=
          bound_eq_none (by decide) (by decide) _ hmem hnemax hname
        have hsome := (reads_range.eq_some_iff (f ++ rest) out rest).mpr ⟨f, rfl, h⟩
        simp only [feature, comparisons, List.findSome?_cons, hmin, hmax, hsome]

/-- Three passes write all features of a condition at once. -/
theorem atOnce_normalize (h : ¬ ("to-rem(" : Text) <:+: t) : Grammar.AtOnce Feature t (normalize t) := by
  have hmin : ∀ f out, Bound "min-width" ">=" f out → Feature f out := fun _ _ => Or.inl ∘ Or.inl
  have hmax : ∀ f out, Bound "max-width" "<=" f out → Feature f out := fun _ _ => Or.inl ∘ Or.inr
  have hbounds : ∀ f out, Grammar.or (Bound "min-width" ">=") (Bound "max-width" "<=") f out →
      Feature f out := fun _ _ => Or.inl
  have hrange : ∀ f out, Range f out → Feature f out := fun _ _ => Or.inr
  have hfirst := reads_min.atOnce_substitute t
  have hsecond := hfirst.substitute (Feature.bracketed.mono hmin) (Feature.bracketed.mono hmax)
    (Feature.leftAlone.mono hmin hmax) reads_max
  have hthird := hsecond.substitute (Feature.bracketed.mono hbounds) (Feature.bracketed.mono hrange)
    (Feature.leftAlone.mono hbounds hrange) reads_range
  rw [normalize_eq, if_neg (by rwa [contains_iff_isInfix])]
  exact hthird

theorem atOnce_iff_normalize (h : ¬ ("to-rem(" : Text) <:+: t) :
    Grammar.AtOnce Feature t u ↔ normalize t = u := by
  rw [← reads_feature.atOnce_iff.mp (atOnce_normalize h)]
  exact reads_feature.atOnce_iff

theorem not_infix_normalize (h : ¬ ("to-rem(" : Text) <:+: t) (hf : Feature f out) :
    ¬ f <:+: normalize t := by
  rintro ⟨before, rest, he⟩
  have hsuffix : f ++ rest <:+ normalize t := ⟨before, by rw [← he, List.append_assoc]⟩
  exact (atOnce_normalize h).not_opens Feature.bracketed Feature.leftAlone hsuffix
    ⟨f, out, rest, hf, rfl⟩

end Restyle.Condition

namespace Restyle.Breakpoint

open Text Condition

theorem number_ofNat (n : Nat) : Condition.Number (Text.ofNat n) :=
  .whole ⟨Text.ofNat_ne_nil n, fun c hc => by simp [isDigit, isDigit_of_mem_ofNat hc]⟩

theorem pixels_ofNat (n : Nat) : Pixels (Text.ofNat n) (' ' :: (Text.ofNat n ++ "px)")) := by
  have hblank : Blank [' '] := by
    rw [Blank]
    decide
  exact .spell hblank (number_ofNat n) rfl Blank.nil

theorem mark_not_infix_condition (b : Breakpoint) : ¬ ("to-rem(" : Text) <:+: b.condition false := by
  intro h
  have ho : 'o' ∈ b.condition false := h.subset (by decide)
  have hdigits : 'o' ∉ Text.ofNat b.width := fun hc =>
    absurd (isDigit_of_mem_ofNat hc) (by decide)
  obtain ⟨key, side, width⟩ := b
  cases side <;> simp [condition, hdigits] at ho

theorem normalize_condition (b : Breakpoint) : normalize (b.condition false) = b.condition true := by
  rw [← atOnce_iff_normalize (mark_not_infix_condition b)]
  suffices hf : Feature (b.condition false) (b.condition true) by
    simpa using Grammar.AtOnce.write hf .nil
  have hp := pixels_ofNat b.width
  obtain ⟨key, side, width⟩ := b
  cases side with
  | least => exact Or.inl (Or.inl (.spell Blank.nil rfl Blank.nil hp))
  | most => exact Or.inl (Or.inr (.spell Blank.nil rfl Blank.nil hp))

end Restyle.Breakpoint

namespace Restyle.Resolver

open Text Condition

variable {r : Resolver}

namespace Coherent

theorem map_normalize_queries (h : r.Coherent) :
    (r.queries false).map (fun (key, q) => (key, normalize q)) = r.queries true := by
  rw [h.queries_eq, h.queries_eq, List.map_map]
  exact List.map_congr_left fun (key, b) _ => congrArg (key, ·) b.normalize_condition

theorem query?_eq (h : r.Coherent) (key : Text) : r.query? key =
    ((r.queries true).get? (Breakpoint.cleanKey key)).map fun q => ("@media " : Text) ++ q := by
  have hget := Table.get?_map (fun b : Breakpoint => b.condition true) r.breakpoints
    (Breakpoint.cleanKey key)
  rw [h.queries_eq, hget, query?]
  cases hb : r.breakpoints.get? (Breakpoint.cleanKey key) with
  | none => rfl
  | some b =>
    have hwidth := (h.sound _ (Table.mem_of_get? hb)).width.ne'
    simp [hwidth]

end Coherent

end Restyle.Resolver

namespace Restyle.Condition

open Text

/-- A condition in range form stays as it is. One that is not final becomes what writing all its
features at once makes of it, and has none left. So the older conditions that a resolver knows
become the newer ones, and these are what its media queries consist of. -/
theorem normalize_writes_features :
    (∀ t, normalize (normalize t) = normalize t) ∧
      (∀ t, ("to-rem(" : Text) <:+: t → normalize t = t) ∧
      (∀ t, ¬ ("to-rem(" : Text) <:+: t →
        (∀ u, Grammar.AtOnce Feature t u ↔ normalize t = u) ∧
          ∀ f out, Feature f out → ¬ f <:+: normalize t) ∧
      ∀ overrides sts, let r := (Resolver.ofOverrides overrides).run sts
        (r.queries false).map (fun (key, q) => (key, normalize q)) = r.queries true ∧
          ∀ key, r.query? key =
            ((r.queries true).get? (Breakpoint.cleanKey key)).map fun q => ("@media " : Text) ++ q := by
  refine ⟨fun t => (settled_normalize t).normalize_eq, fun t h => ?_, fun t h => ?_,
    fun overrides sts => ?_⟩
  · exact Settled.normalize_eq (Or.inl (contains_iff_isInfix.mpr h))
  · exact ⟨fun u => atOnce_iff_normalize h, fun f out hf => not_infix_normalize h hf⟩
  · have hr := Resolver.coherent_run overrides sts
    exact ⟨hr.map_normalize_queries, hr.query?_eq⟩

/-- A condition with features of all kinds, and one in units that are not written. -/
theorem normalize_writes_features_screen :
    ¬ ("to-rem(" : Text) <:+: "screen and (MIN-width :768px) and (inline-size< 20.5px) or (max-width:9em)" ∧
      (∀ f out, Feature f out → ¬ f <:+: normalize
        "screen and (MIN-width :768px) and (inline-size< 20.5px) or (max-width:9em)") ∧
      normalize "screen and (MIN-width :768px) and (inline-size< 20.5px) or (max-width:9em)" =
        "screen and (width >= to-rem(768px)) and (inline-size < to-rem(20.5px)) or (max-width:9em)" := by
  have hmark : ¬ ("to-rem(" : Text) <:+:
      "screen and (MIN-width :768px) and (inline-size< 20.5px) or (max-width:9em)" := by
    rw [← contains_iff_isInfix]
    decide
  exact ⟨hmark, (normalize_writes_features.2.2.1 _ hmark).2, by decide +kernel⟩

end Restyle.Condition
