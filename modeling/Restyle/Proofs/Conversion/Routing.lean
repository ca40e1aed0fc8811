import Restyle.Proofs.Breakpoint.Table
import Restyle.Proofs.Conversion.Frame
import Restyle.Proofs.Text.Cut
import Restyle.Proofs.Text.Substitution

/-! # Where settings go

A key that goes on with a known breakpoint belongs to the media block of that
breakpoint and to nothing else. There is one block for a breakpoint at most, in
the order of the breakpoints, and it is made of the settings for its breakpoint
alone.
-/

namespace Restyle.Conversion

open Text Resolver

/-- The breakpoint that a key goes on with, and the part in front of it. -/
def breakpointKey? (r : Resolver) (key : Text) : Option (Text × Text) :=
  match cutLast? (· == ':') key with
  | none => none
  | some (base, suffix) =>
    if base.isEmpty || !r.isBreakpoint suffix then none
    else some (Breakpoint.cleanKey suffix, base)

/-- The settings whose keys go on with a breakpoint. -/
def responsive (r : Resolver) (s : Settings) : Settings :=
  s.filter fun e => (breakpointKey? r e.1).isSome

/-- The settings without those, custom CSS apart. -/
def unresponsive (r : Resolver) (s : Settings) : Settings :=
  s.filter fun e => (breakpointKey? r e.1).isNone || e.1.startsWith customCssMark

/-- The settings for one breakpoint, under the parts in front of it. -/
def settingsFor (r : Resolver) (s : Settings) (breakpoint : Text) : Settings :=
  Table.ofList (s.filterMap fun (key, value) =>
    (breakpointKey? r key).bind fun (b, base) =>
      if b = breakpoint then some (base, value) else none)

def mediaBlock (query css : Text) : Text :=
  let body := trim css
  if body.isEmpty then []
  else "\n@media " ++ query ++ " \x7b\n" ++ indentDeclarations body ++ "\n\x7d"

variable {r : Resolver} {s : Settings} {key base suffix b : Text}

theorem bucket_snoc (entries : List (Text × Text × Setting)) (name key : Text) (value : Setting) :
    bucket (entries ++ [(name, key, value)]) =
      (bucket entries).set name ((((bucket entries).get? name).getD []).set key value) := by
  unfold bucket
  rw [List.foldl_append]
  rfl

theorem ofList_snoc (pairs : List (Text × Setting)) (key : Text) (value : Setting) :
    Table.ofList (pairs ++ [(key, value)]) = (Table.ofList pairs).set key value := by
  unfold Table.ofList Table.setAll
  rw [List.foldl_append]
  rfl

theorem getD_bucket (entries : List (Text × Text × Setting)) (name : Text) :
    ((bucket entries).get? name).getD [] =
      Table.ofList (entries.filterMap fun e => if e.1 = name then some e.2 else none) := by
  induction entries using List.reverseRecOn with
  | nil => rfl
  | append_singleton entries e ih =>
    obtain ⟨name', key, value⟩ := e
    rw [bucket_snoc, Table.get?_set, List.filterMap_append]
    by_cases h : name' = name
    · subst h
      have hlast : [(name', key, value)].filterMap
          (fun e => if e.1 = name' then some e.2 else none) = [(key, value)] :=
        List.filterMap_cons_some (if_pos rfl)
      rw [if_pos rfl, Option.getD_some, ih, hlast, ofList_snoc]
    · have hlast : [(name', key, value)].filterMap
          (fun e => if e.1 = name then some e.2 else none) = [] :=
        List.filterMap_cons_none (if_neg h)
      rw [if_neg (Ne.symm h), hlast, List.append_nil, ih]

theorem css_nil (r : Resolver) (className : Option Text) : css r [] className = [] := by
  have h : declarations [] = [] := by decide
  rw [css, h]
  rfl

theorem has_queries (h : r.Coherent) (range : Bool) (key : Text) :
    (r.queries range).has key = r.breakpoints.has key := by
  rw [h.queries_eq, Table.has, Table.has,
    Table.get?_map (fun b : Breakpoint => b.condition range), Option.isSome_map]

theorem buckets_eq (h : r.Coherent) (s : Settings) :
    buckets r s = bucket (s.filterMap fun (key, value) =>
      (breakpointKey? r key).map fun (b, base) => (b, base, value)) := by
  have hknown (base suffix : Text) :
      ((Breakpoint.cleanKey suffix).isEmpty || base.isEmpty ||
        !(r.queries true).has (Breakpoint.cleanKey suffix)) =
      (base.isEmpty || !r.isBreakpoint suffix) := by
    rw [has_queries h, isBreakpoint, Bool.not_and, Bool.not_not, Bool.or_comm _ base.isEmpty,
      Bool.or_assoc]
  unfold buckets
  congr 1
  refine List.filterMap_congr fun ⟨key, value⟩ _ => ?_
  dsimp only
  unfold breakpointKey?
  rcases cutLast? (· == ':') key with _ | ⟨base, suffix⟩
  · rfl
  · simp only [hknown]
    split_ifs <;> rfl

/-- The media blocks stand in the order of the breakpoints, and each is made of the settings for
its breakpoint. -/
theorem responsiveCss_eq (h : r.Coherent) (s : Settings) (className : Option Text) :
    responsiveCss r s className = r.breakpoints.flatMap fun (key, b) =>
      mediaBlock (b.condition true) (css r (settingsFor r s key) className) := by
  have hbody (key : Text) : trim ((((buckets r s).get? key).map (css r · className)).getD []) =
      trim (css r (settingsFor r s key) className) := by
    have hget := getD_bucket (s.filterMap fun (key, value) =>
      (breakpointKey? r key).map fun (b, base) => (b, base, value)) key
    rw [← buckets_eq h, List.filterMap_filterMap] at hget
    have hsettings : ((buckets r s).get? key).getD [] = settingsFor r s key := by
      rw [hget, settingsFor]
      congr 1
      refine List.filterMap_congr fun ⟨key', value⟩ _ => ?_
      dsimp only
      cases breakpointKey? r key' <;> rfl
    rw [← hsettings]
    cases (buckets r s).get? key with
    | none => rw [Option.map_none, Option.getD_none, Option.getD_none, css_nil]
    | some settings => rw [Option.map_some, Option.getD_some, Option.getD_some]
  unfold responsiveCss mediaBlock
  rw [h.queries_eq, List.flatMap_map]
  simp only [hbody]

theorem settingsFor_responsive (r : Resolver) (s : Settings) (breakpoint : Text) :
    settingsFor r (responsive r s) breakpoint = settingsFor r s breakpoint := by
  unfold settingsFor responsive
  rw [List.filterMap_filter]
  congr 1
  refine List.filterMap_congr fun ⟨key, value⟩ _ => ?_
  dsimp only
  cases breakpointKey? r key <;> rfl

theorem exists_of_breakpointKey? (h : breakpointKey? r key = some (b, base)) :
    ∃ suffix, key = base ++ ':' :: suffix ∧ ':' ∉ suffix ∧ b = Breakpoint.cleanKey suffix ∧
      b ≠ [] ∧ b ∈ r.breakpoints.keys := by
  unfold breakpointKey? at h
  rcases hcut : cutLast? (· == ':') key with _ | ⟨base', suffix⟩
  · simp [hcut] at h
  · obtain ⟨c, hkey, hc, hsuffix⟩ := cutLast?_eq_some hcut
    obtain rfl := beq_iff_eq.mp hc
    simp only [hcut] at h
    split_ifs at h with hb
    simp only [isBreakpoint, Bool.or_eq_true, Bool.not_eq_true', Bool.and_eq_false_iff,
      Bool.not_eq_false', not_or, Bool.not_eq_false, Option.some.injEq, Prod.mk.injEq] at hb h
    obtain ⟨rfl, rfl⟩ := h
    refine ⟨suffix, hkey, fun hmem => ?_, rfl, by simpa using hb.2.1, ?_⟩
    · exact absurd (hsuffix ':' hmem) (by simp)
    · by_contra hmem
      rw [Table.has, Table.get?_eq_none hmem] at hb
      exact absurd hb.2.2 (by simp)

theorem mem_keysIn (hb : b ∈ r.breakpoints.keys) (s : Settings) : b ∈ r.keysIn s := by
  unfold keysIn
  refine List.foldlRecOn (motive := fun keys => b ∈ keys) _ _ hb fun keys hkeys k _ => ?_
  split
  · exact hkeys
  · dsimp only
    split_ifs
    · exact hkeys
    · exact List.mem_append_left _ hkeys

theorem variantKey?_eq_none (h : breakpointKey? r key = some (b, base)) (s : Settings) :
    variantKey? (((r.keysIn s).map Breakpoint.cleanKey).filter (!·.isEmpty)) key = none := by
  obtain ⟨suffix, rfl, hsuffix, rfl, hne, hmem⟩ := exists_of_breakpointKey? h
  have hcontains : ((r.keysIn s).map Breakpoint.cleanKey |>.filter (!·.isEmpty)).contains
      (Breakpoint.cleanKey suffix) = true := by
    refine List.contains_iff_mem.mpr (List.mem_filter.mpr ⟨?_, by simpa using hne⟩)
    exact List.mem_map.mpr ⟨_, mem_keysIn hmem s, Breakpoint.cleanKey_cleanKey suffix⟩
  have hp : ∀ d ∈ suffix, (d == ':') = false := fun d hd =>
    beq_false_of_ne fun hd' => hsuffix (hd' ▸ hd)
  unfold variantKey?
  split_ifs
  · rfl
  -- The cut at the first colon leaves at its end what the cut at the last one leaves.
  · rcases cut?_cases (· == ':') base with hbase | ⟨u, c, v, rfl, hu, hc⟩
    · rw [cut?_append hbase (beq_self_eq_true ':')]
      dsimp only
      rw [cutLast?_eq_none hp, Option.map_none, Option.getD_none, hcontains, Bool.or_true]
      rfl
    · obtain rfl := beq_iff_eq.mp hc
      rw [List.append_assoc, List.cons_append, cut?_append hu hc]
      dsimp only
      rw [cutLast?_append (p := (· == ':')) v hc hp, Option.map_some, Option.getD_some, hcontains, Bool.or_true]
      rfl

theorem exists_of_not_unresponsive {e : Text × Setting}
    (h : ¬ ((breakpointKey? r e.1).isNone || e.1.startsWith customCssMark) = true) :
    (∃ b base, breakpointKey? r e.1 = some (b, base)) ∧ dropStart? e.1 customCssMark = none := by
  simp only [Bool.or_eq_true, not_or, Bool.not_eq_true, Option.isNone_eq_false_iff,
    Option.isSome_iff_exists] at h
  obtain ⟨⟨⟨b, base⟩, hb⟩, hmark⟩ := h
  refine ⟨⟨b, base, hb⟩, dropStart?_eq_none.mpr fun rest he => ?_⟩
  rw [he, startsWith, List.isPrefixOf_iff_prefix.mpr (List.prefix_append _ _)] at hmark
  exact absurd hmark (by simp)

theorem keysIn_filter {p : Text × Setting → Bool} (r : Resolver)
    (hp : ∀ e ∈ s, p e = false → dropStart? e.1 customCssMark = none) :
    r.keysIn (s.filter p) = r.keysIn s := by
  unfold keysIn Table.keys
  rw [List.foldl_map, List.foldl_map, List.foldl_filter]
  refine List.foldl_ext _ _ _ fun keys e he => ?_
  split_ifs with h
  · rfl
  · rw [hp e he (Bool.eq_false_iff.mpr h)]

theorem variants_filter {p : Text × Setting → Bool} (r : Resolver)
    (hp : ∀ e ∈ s, p e = false → dropStart? e.1 customCssMark = none ∧
      variantKey? (((r.keysIn s).map Breakpoint.cleanKey).filter (!·.isEmpty)) e.1 = none) :
    variants r (s.filter p) = variants r s := by
  unfold variants
  rw [keysIn_filter r fun e he h => (hp e he h).1]
  dsimp only
  rw [List.filterMap_filter]
  congr 1
  refine List.filterMap_congr fun e he => ?_
  split_ifs with h
  · rfl
  · rw [(hp e he (Bool.eq_false_iff.mpr h)).2, Option.map_none]

/-- Leaving out the settings for breakpoints leaves out no custom CSS. -/
theorem variants_unresponsive (r : Resolver) (s : Settings) :
    variants r (unresponsive r s) = variants r s := by
  refine variants_filter r fun e _ h => ?_
  obtain ⟨⟨b, base, hb⟩, hmark⟩ := exists_of_not_unresponsive (Bool.eq_false_iff.mp h)
  exact ⟨hmark, variantKey?_eq_none hb s⟩

theorem sameNamed_unresponsive (r : Resolver) (s : Settings) :
    (unresponsive r s).SameNamed s := by
  refine Settings.sameNamed_filter fun e _ hcolon => ?_
  by_contra h
  obtain ⟨⟨b, base, hb⟩, -⟩ := exists_of_not_unresponsive h
  obtain ⟨suffix, he, -⟩ := exists_of_breakpointKey? hb
  exact hcolon (he ▸ List.mem_append_right _ List.mem_cons_self)

theorem css_unresponsive (r : Resolver) (s : Settings) (className : Option Text) :
    css r (unresponsive r s) className = css r s className := by
  unfold css variantCss
  rw [variants_unresponsive, (sameNamed_unresponsive r s).declarations]

/-- A setting for a breakpoint goes to the media block of its breakpoint and to no other place,
and every breakpoint has one media block at most, made of the settings for it. -/
theorem responsive_routing (overrides : List Json) (asked : List Step) (s : Settings)
    (className : Option Text) :
    let r := (ofOverrides overrides).run asked
    responsiveCss r s className = responsiveCss r (responsive r s) className ∧
    plainCss (unresponsive r s) = plainCss s ∧
    css r (unresponsive r s) className = css r s className ∧
    r.breakpoints.keys.Nodup ∧
    responsiveCss r s className = r.breakpoints.flatMap fun (key, b) =>
      mediaBlock (b.condition true) (css r (settingsFor r s key) className) := by
  intro r
  have hr : r.Coherent := coherent_run overrides asked
  refine ⟨?_, (sameNamed_unresponsive r s).plainCss, css_unresponsive r s className,
    hr.nodup_keys, responsiveCss_eq hr s className⟩
  rw [responsiveCss_eq hr, responsiveCss_eq hr]
  simp only [settingsFor_responsive]

def spellings : Settings :=
  [("_display", .scalar "flex"), ("_opacity:hover:Tablet_Portrait", .scalar "0"),
    ("_cssCustom:tablet_portrait", .scalar ".a"), ("_width:tablet_portrait", .scalar "50%")]

example : settingsFor (ofOverrides []) spellings "tablet_portrait" =
    ([("_opacity:hover", .scalar "0"), ("_cssCustom", .scalar ".a"),
      ("_width", .scalar "50%")] : Settings) := by rfl

example : (unresponsive (ofOverrides []) spellings).keys =
    ["_display", "_cssCustom:tablet_portrait"] := by decide

end Restyle.Conversion
