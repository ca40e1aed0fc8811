import Restyle.Proofs.Store.Repetition
import Restyle.Proofs.Stylesheet.Grouping
import Restyle.Proofs.Text.Lines

/-! # Styles that come in again

The bodies that come in for one selector are put together one by one. A body is
passed over if it is all that is there already, but not if it is one of several.
So the CSS is made of the different bodies exactly if a body comes again only
before any other, and no new body is what those before it make together.
-/

namespace Restyle.Style

open Text

variable {css more : Text} {csses : List Text}

theorem trim_joinCss (css more : Text) :
    trim (joinCss css more) =
      if trim more = [] then trim css
      else if trim css = [] then trim more else trim css ++ "\n  " ++ trim more := by
  simp only [joinCss, List.isEmpty_iff]
  split_ifs with hmore hcss
  · exact (trimmed_trim css).trim_eq
  · exact (trimmed_trim more).trim_eq
  · exact ((trimmed_trim css).append (trimmed_trim more) hcss hmore _).trim_eq

theorem addCss_eq_self_iff : addCss css more = css ↔ trim more = [] ∨ trim more = trim css := by
  constructor
  · intro h
    by_contra hnew
    have htrim := congrArg trim h
    rw [addCss, if_neg hnew, trim_joinCss, if_neg (fun hm => hnew (.inl hm))] at htrim
    split_ifs at htrim with hcss
    · exact hnew (.inr htrim)
    · simpa using congrArg List.length htrim
  · intro h
    exact if_pos h

/-- The bodies that styles bring for a selector. -/
def bodies (x : Text) (styles : List Style) : List Text :=
  nonblank ((withSelector x styles).map (·.css))

def together (bodies : List Text) : Text :=
  join "\n  " bodies

/-- The bodies that stay of those that come in: each that is not all there is already. -/
def gathered (bodies : List Text) : List Text :=
  bodies.foldl (fun there b => if b = together there then there else there ++ [b]) []

/-- A body comes again only before any other, and no new body is what the different ones before it
make together. -/
structure Orderly (bodies : List Text) : Prop where
  again : ∀ seen b, seen ++ [b] <+: bodies → b ∈ seen → ∀ c ∈ seen, c = b
  whole : ∀ seen b, seen ++ [b] <+: bodies → b ∉ seen → b ≠ together seen.eraseDups

variable {bs : List Text} {b c : Text}

theorem together_singleton (b : Text) : together [b] = b :=
  join_singleton _ b

theorem together_concat (h : bs ≠ []) (b : Text) :
    together (bs ++ [b]) = together bs ++ "\n  " ++ b := by
  rw [together, join_append _ h (List.cons_ne_nil b []), join_singleton, ← List.append_assoc,
    together]

theorem together_eq_nil_iff (h : [] ∉ bs) : together bs = [] ↔ bs = [] := by
  constructor
  · intro hjoin
    by_contra hne
    obtain ⟨b, bs, rfl⟩ := List.exists_cons_of_ne_nil hne
    have hb : b ≠ [] := fun he => h (he ▸ List.mem_cons_self)
    exact join_ne_nil List.mem_cons_self hb hjoin
  · rintro rfl
    rfl

theorem gathered_concat (bs : List Text) (b : Text) :
    gathered (bs ++ [b]) =
      if b = together (gathered bs) then gathered bs else gathered bs ++ [b] := by
  rw [gathered, List.foldl_append]
  rfl

theorem gathered_subset (bs : List Text) : gathered bs ⊆ bs := by
  induction bs using List.reverseRecOn with
  | nil => exact List.Subset.refl _
  | append_singleton bs b ih =>
    rw [gathered_concat]
    split_ifs
    · exact List.subset_append_of_subset_left _ ih
    · exact List.append_subset.mpr ⟨List.subset_append_of_subset_left _ ih, by simp⟩

theorem length_le_together (hb : b ∈ bs) : b.length ≤ (together bs).length := by
  induction bs using List.reverseRecOn with
  | nil => exact absurd hb List.not_mem_nil
  | append_singleton bs c ih =>
    rcases eq_or_ne bs [] with rfl | hne
    · rw [List.mem_singleton.mp hb, List.nil_append, together_singleton]
    · simp only [together_concat hne, List.length_append]
      rcases List.mem_append.mp hb with hb | hb
      · have hle := ih hb
        omega
      · rw [List.mem_singleton.mp hb]
        omega

theorem eq_singleton_of_together_mem (h : together bs ∈ bs) : bs = [together bs] := by
  rcases List.eq_nil_or_concat bs with rfl | ⟨bs, c, rfl⟩
  · exact absurd h List.not_mem_nil
  rw [List.concat_eq_append] at h ⊢
  rcases eq_or_ne bs [] with rfl | hne
  · rw [List.nil_append, together_singleton]
  · have hgap : ("\n  ".toList).length = 3 := rfl
    rcases List.mem_append.mp h with h | h
    · have hle := length_le_together h
      simp only [together_concat hne, List.length_append] at hle
      omega
    · have hlen := congrArg List.length (List.mem_singleton.mp h)
      simp only [together_concat hne, List.length_append] at hlen
      omega

theorem eraseDups_concat_of_mem (h : b ∈ bs) : (bs ++ [b]).eraseDups = bs.eraseDups := by
  rw [eraseDups_concat, if_pos (List.contains_iff_mem.mpr h)]

theorem eraseDups_concat_of_notMem (h : b ∉ bs) :
    (bs ++ [b]).eraseDups = bs.eraseDups ++ [b] := by
  rw [eraseDups_concat, if_neg (mt List.contains_iff_mem.mp h)]

theorem concat_prefix_concat_iff {seen : List Text} {c : Text} :
    seen ++ [c] <+: bs ++ [b] ↔ (seen = bs ∧ c = b) ∨ seen ++ [c] <+: bs := by
  rw [List.prefix_concat_iff, ← List.concat_eq_append, ← List.concat_eq_append, List.concat_inj]

theorem orderly_concat : Orderly (bs ++ [b]) ↔
    Orderly bs ∧ (b ∈ bs → ∀ c ∈ bs, c = b) ∧ (b ∉ bs → b ≠ together bs.eraseDups) := by
  constructor
  · intro h
    have hbegins : ∀ {seen : List Text}, seen <+: bs → seen <+: bs ++ [b] := fun hs =>
      hs.trans (List.prefix_append bs [b])
    exact ⟨⟨fun seen c hs => h.again seen c (hbegins hs), fun seen c hs => h.whole seen c (hbegins hs)⟩,
      h.again bs b (List.prefix_refl _), h.whole bs b (List.prefix_refl _)⟩
  · rintro ⟨h, hagain, hwhole⟩
    constructor
    · intro seen c hs
      rcases concat_prefix_concat_iff.mp hs with ⟨rfl, rfl⟩ | hs
      · exact hagain
      · exact h.again seen c hs
    · intro seen c hs
      rcases concat_prefix_concat_iff.mp hs with ⟨rfl, rfl⟩ | hs
      · exact hwhole
      · exact h.whole seen c hs

theorem eraseDups_eq_singleton (h : b ∈ bs) (hall : ∀ c ∈ bs, c = b) : bs.eraseDups = [b] := by
  have hnodup := nodup_eraseDups bs
  have heq : ∀ c ∈ bs.eraseDups, c = b := fun c hc => hall c (List.mem_eraseDups.mp hc)
  rcases hs : bs.eraseDups with _ | ⟨c, _ | ⟨d, rest⟩⟩
  · have hb := List.mem_eraseDups.mpr h
    simp [hs] at hb
  · rw [heq c (by simp [hs])]
  · have hcd : c = d := (heq c (by simp [hs])).trans (heq d (by simp [hs])).symm
    simp [hs, hcd] at hnodup

theorem eq_of_prefix_concat {l m : List Text} (hb : l ++ [b] <+: m) (hc : l ++ [c] <+: m) :
    b = c := by
  obtain ⟨rest, rfl⟩ := hb
  rw [List.append_assoc, List.prefix_append_right_inj, List.singleton_append,
    List.cons_prefix_cons] at hc
  exact hc.1.symm

/-- If the bodies that stay are the first of the different ones, then they are all of those, or the
next one is what they make together. -/
theorem gathered_prefix_cases (h : gathered bs <+: bs.eraseDups) :
    gathered bs = bs.eraseDups ∨ gathered bs ++ [together (gathered bs)] <+: bs.eraseDups := by
  induction bs using List.reverseRecOn with
  | nil => exact .inl rfl
  | append_singleton bs b ih =>
    rw [gathered_concat] at h ⊢
    by_cases hskip : b = together (gathered bs) <;> by_cases hmem : b ∈ bs
    · rw [if_pos hskip, eraseDups_concat_of_mem hmem] at h ⊢
      exact ih h
    · rw [if_pos hskip, eraseDups_concat_of_notMem hmem] at h ⊢
      rcases List.prefix_concat_iff.mp h with he | h
      · have hb : b ∈ gathered bs := he ▸ by simp
        exact absurd (gathered_subset bs hb) hmem
      · rcases ih h with he | hnext
        · rw [he, hskip, he]
          exact .inr (List.prefix_refl _)
        · exact .inr (hnext.trans (List.prefix_append _ _))
    · rw [if_neg hskip, eraseDups_concat_of_mem hmem] at h ⊢
      rcases ih ((List.prefix_append _ _).trans h) with he | hnext
      · exact absurd h.length_le (by simp [he])
      · exact absurd (eq_of_prefix_concat h hnext) hskip
    · rw [if_neg hskip, eraseDups_concat_of_notMem hmem] at h ⊢
      rcases List.prefix_concat_iff.mp h with he | h
      · exact .inl he
      · have hb : b ∈ bs.eraseDups := h.subset (by simp)
        exact absurd (List.mem_eraseDups.mp hb) hmem

/-- The bodies that stay are the different ones exactly if the bodies come in orderly. -/
theorem gathered_eq_eraseDups_iff : gathered bs = bs.eraseDups ↔ Orderly bs := by
  induction bs using List.reverseRecOn with
  | nil => exact ⟨fun _ => ⟨by simp, by simp⟩, fun _ => rfl⟩
  | append_singleton bs b ih =>
    rw [orderly_concat, ← ih, gathered_concat]
    constructor
    · intro h
      by_cases hskip : b = together (gathered bs) <;> by_cases hmem : b ∈ bs
      · rw [if_pos hskip, eraseDups_concat_of_mem hmem] at h
        have htogether : together (gathered bs) ∈ gathered bs :=
          hskip ▸ h ▸ List.mem_eraseDups.mpr hmem
        have hsingle := eq_singleton_of_together_mem htogether
        refine ⟨h, fun _ c hc => ?_, fun hnew => absurd hmem hnew⟩
        rw [← List.mem_eraseDups, ← h, hsingle, List.mem_singleton] at hc
        exact hc.trans hskip.symm
      · rw [if_pos hskip, eraseDups_concat_of_notMem hmem] at h
        have hb : b ∈ gathered bs := h ▸ by simp
        exact absurd (gathered_subset bs hb) hmem
      · -- A body that was passed over before would have been all there was at that time.
        rw [if_neg hskip, eraseDups_concat_of_mem hmem] at h
        rcases gathered_prefix_cases (h ▸ List.prefix_append _ _) with he | hnext
        · simpa [he] using congrArg List.length h
        · exact absurd (eq_of_prefix_concat (h ▸ List.prefix_refl _) hnext) hskip
      · rw [if_neg hskip, eraseDups_concat_of_notMem hmem] at h
        have he := List.append_cancel_right h
        exact ⟨he, fun hb => absurd hb hmem, fun _ => he ▸ hskip⟩
    · rintro ⟨he, hagain, hwhole⟩
      rw [he]
      by_cases hmem : b ∈ bs
      · have hsingle := eraseDups_eq_singleton hmem (hagain hmem)
        rw [eraseDups_concat_of_mem hmem, hsingle, if_pos (together_singleton b).symm]
      · rw [eraseDups_concat_of_notMem hmem, if_neg (hwhole hmem)]

theorem trim_combinedCss_concat (csses : List Text) (css : Text) :
    trim (combinedCss (csses ++ [css])) = trim (addCss (combinedCss csses) css) := by
  cases csses with
  | nil => by_cases h : trim css = [] <;> simp [combinedCss, addCss, h, trim_joinCss]
  | cons first more => simp [combinedCss, List.foldl_append]

theorem trim_combinedCss (csses : List Text) :
    trim (combinedCss csses) = together (gathered (nonblank csses)) := by
  induction csses using List.reverseRecOn with
  | nil => rfl
  | append_singleton csses css ih =>
    have hnil : [] ∉ gathered (nonblank csses) := fun h =>
      ne_nil_of_mem_nonblank (gathered_subset _ h) rfl
    rw [trim_combinedCss_concat, nonblank_concat]
    by_cases hblank : trim css = []
    · rw [addCss, if_pos (.inl hblank), ih, if_pos hblank, List.append_nil]
    rw [if_neg hblank, gathered_concat, ← ih]
    by_cases hsame : trim css = trim (combinedCss csses)
    · rw [addCss, if_pos (.inr hsame), if_pos hsame, ih]
    rw [addCss, if_neg (not_or.mpr ⟨hblank, hsame⟩), if_neg hsame, trim_joinCss, if_neg hblank, ih]
    by_cases hfirst : gathered (nonblank csses) = []
    · rw [if_pos ((together_eq_nil_iff hnil).mpr hfirst), hfirst, List.nil_append,
        together_singleton]
    · rw [if_neg (mt (together_eq_nil_iff hnil).mp hfirst), together_concat hfirst]

variable {stored : StyleSet} {styles : List Style} {s t e : Style} {x : Text}

def amend (x more : Text) (s : Style) : Style :=
  if s.selector = x then { s with css := addCss s.css more } else s

theorem amend_of_eq (h : s.selector = x) (more : Text) :
    amend x more s = { s with css := addCss s.css more } :=
  if_pos h

theorem amend_of_ne (h : s.selector ≠ x) (more : Text) : amend x more s = s :=
  if_neg h

theorem amend_eq_self_iff (x more : Text) (s : Style) :
    amend x more s = s ↔ (s.selector = x → trim more = [] ∨ trim more = trim s.css) := by
  by_cases h : s.selector = x
  · rw [amend_of_eq h, ← addCss_eq_self_iff]
    exact ⟨fun he _ => congrArg Style.css he, fun he => by rw [he h]⟩
  · exact iff_of_true (amend_of_ne h more) fun he => absurd he h

@[simp] theorem id_amend (x more : Text) (s : Style) : (amend x more s).id = s.id := by
  unfold amend
  split <;> rfl

theorem withId_amend (x more : Text) (s : Style) :
    withId (amend x more s) = amend x more (withId s) := by
  unfold withId amend
  by_cases hid : s.id.isEmpty <;> by_cases hx : s.selector = x <;> simp [hid, hx]

theorem exists_combine? (h : HasSelector styles x) :
    ∃ first, combine? (withSelector x styles) = some first := by
  obtain ⟨s, hs, hsel⟩ := h
  have hne := List.ne_nil_of_mem (mem_withSelector.mpr ⟨hs, hsel⟩)
  obtain ⟨first, more, hw⟩ := List.exists_cons_of_ne_nil hne
  exact ⟨_, congrArg combine? hw⟩

theorem kept?_concat (stored : StyleSet) (h : HasSelector styles e.selector) (x : Text) :
    kept? stored (styles ++ [e]) x = (kept? stored styles x).map (amend e.selector e.css) := by
  by_cases hx : x = []
  · simp [kept?, hx]
  by_cases he : e.selector = x
  · obtain ⟨first, hfirst⟩ := exists_combine? (he ▸ h)
    have hamend := amend_of_eq ((selector_combine? hfirst).trans he.symm) e.css
    simp only [kept?, if_neg hx, withSelector_snoc, if_pos he, combine?_snoc, hfirst, Option.some_or,
      Option.map_some, Option.elim_some, hamend]
  · have hkept : kept? stored (styles ++ [e]) x = kept? stored styles x := by
      simp only [kept?, withSelector_snoc, if_neg he, List.append_nil]
    rw [hkept]
    cases hs : kept? stored styles x with
    | none => rfl
    | some s =>
      have hne : s.selector ≠ e.selector := fun hsel => he (hsel ▸ selector_kept? hs)
      rw [Option.map_some, amend_of_ne hne]

theorem keys_incoming_concat (h : HasSelector styles e.selector) :
    (incoming (styles ++ [e])).keys = (incoming styles).keys := by
  have hstep : incoming (styles ++ [e]) = addIncoming (incoming styles) e := by
    simp [incoming]
  rw [hstep, addIncoming]
  split_ifs with hempty
  · rfl
  · obtain ⟨first, hfirst⟩ := exists_combine? h
    have hget : (incoming styles).get? e.selector = some first := by
      rw [get?_incoming, hfirst, if_neg (by simpa using hempty)]
    have hmem : e.selector ∈ (incoming styles).keys :=
      List.mem_map_of_mem (f := (·.1)) (Table.mem_of_get? hget)
    rw [hget]
    dsimp only
    split_ifs
    · rfl
    · rw [Table.keys_set, if_pos hmem]

theorem keptStyles_concat (stored : StyleSet) (h : HasSelector styles e.selector) :
    keptStyles stored (styles ++ [e]) =
      (keptStyles stored styles).map fun entry => (entry.1, amend e.selector e.css entry.2) := by
  refine Table.ext_get? (nodup_keys_keptStyles stored _) ?_ fun x => ?_
  · rw [Table.keys_map]
    exact Table.keys_setAll_congr (keys_incoming_concat h) rfl
  · rw [Table.get?_map, keptStyles, get?_setAll_incoming, keptStyles, get?_setAll_incoming,
      kept?_concat stored h]

theorem byId_map {f : Style → Style} (hid : ∀ s, (f s).id = s.id)
    (hf : ∀ s, withId (f s) = f (withId s)) (styles : List Style) :
    byId (styles.map f) = (byId styles).map fun entry => (entry.1, f entry.2) := by
  have hpairs : ((styles.map f).map withId).map (fun s => (s.id, s)) =
      ((styles.map withId).map fun s => (s.id, s)).map fun p => (p.1, f p.2) := by
    simp [Function.comp_def, hf, hid]
  rw [byId, hpairs]
  exact Table.setAll_map f _ []

/-- One more style with a selector that came in already amends the style with that selector. -/
theorem merge_concat (stored : StyleSet) (h : HasSelector styles e.selector) :
    merge stored (incoming (styles ++ [e])) =
      (merge stored (incoming styles)).map fun entry =>
        (entry.1, amend e.selector e.css entry.2) := by
  have hvalues : (keptStyles stored (styles ++ [e])).values =
      (keptStyles stored styles).values.map (amend e.selector e.css) := by
    rw [keptStyles_concat stored h]
    simp [Table.values, Function.comp_def]
  calc merge stored (incoming (styles ++ [e]))
    _ = byId (keptStyles stored (styles ++ [e])).values := rfl
    _ = byId ((keptStyles stored styles).values.map (amend e.selector e.css)) := by rw [hvalues]
    _ = _ := byId_map (id_amend _ _) (withId_amend _ _) _

theorem merge_concat_eq_iff (stored : StyleSet) (h : e ∈ styles) :
    merge stored (incoming (styles ++ [e])) = merge stored (incoming styles) ↔
      ∀ t ∈ (merge stored (incoming styles)).values, t.selector = e.selector →
        trim e.css = [] ∨ trim e.css = trim t.css := by
  have hmap : ∀ l : StyleSet, (l.map fun entry => (entry.1, amend e.selector e.css entry.2)) = l ↔
      ∀ entry ∈ l, amend e.selector e.css entry.2 = entry.2 := fun l => by
    simpa [Prod.ext_iff] using List.map_inj_left (l := l)
      (f := fun entry => (entry.1, amend e.selector e.css entry.2)) (g := fun entry => entry)
  rw [merge_concat stored ⟨e, h, rfl⟩, hmap]
  simp only [Table.values, List.forall_mem_map, amend_eq_self_iff]

/-- The CSS of an imported selector is made of the bodies that stay. -/
theorem trim_css_merge (h : t ∈ (merge stored (incoming styles)).values)
    (himported : HasSelector styles t.selector) :
    trim t.css = together (gathered (bodies t.selector styles)) := by
  obtain ⟨s, hs, ht⟩ := exists_kept?_of_mem h
  obtain ⟨u, hu, hsel⟩ := himported
  have hne := (kept?_cases hs).1
  obtain ⟨s', hs', hcss⟩ := kept?_imported stored hu (hsel ▸ hne)
  rw [hsel] at hs' hcss
  obtain rfl : s = s' := Option.some.inj (hs.symm.trans hs')
  have hkept : t.css = combinedCss ((withSelector t.selector styles).map (·.css)) := by
    rw [← hcss, ht, css_withId]
  rw [hkept, trim_combinedCss, bodies]

instance (bs : List Text) : Decidable (Orderly bs) :=
  decidable_of_iff _ gathered_eq_eraseDups_iff

end Restyle.Style

namespace Restyle.Store

open Text Style

variable {m : Type → Type} [Monad m] {ε : Type}

/-- An import writes a document in which an entry that comes in again changes nothing exactly if its
CSS is blank, or is all the CSS that there is for its selector; and the CSS of an imported selector
is made of the bodies that stay, which are the different ones exactly if they come in orderly. -/
theorem importStyles_repeated_iff [LawfulMonad m] (write : Document → m (Except ε Unit))
    (styles : List Style) (styleMap : StyleMap) (s : Store) :
    (∀ es, s.importStyles write es styleMap =
      s.written (s.importSummary es styleMap) (s.importedDocument es styleMap) <$>
        write (s.importedDocument es styleMap)) ∧
    (∀ e ∈ styles,
      (s.importedDocument (styles ++ [e]) styleMap).styles =
          (s.importedDocument styles styleMap).styles ↔
        ∀ t ∈ (s.importedDocument styles styleMap).styles.values, t.selector = e.selector →
          trim e.css = [] ∨ trim e.css = trim t.css) ∧
    ∀ t ∈ (s.importedDocument styles styleMap).styles.values, HasSelector styles t.selector →
      trim t.css = together (gathered (bodies t.selector styles)) ∧
      (gathered (bodies t.selector styles) = (bodies t.selector styles).eraseDups ↔
        Orderly (bodies t.selector styles)) :=
  ⟨fun es => importStyles_eq_written write es styleMap s,
    fun _ he => merge_concat_eq_iff s.document.styles he,
    fun _ ht himported => ⟨trim_css_merge ht himported, gathered_eq_eraseDups_iff⟩⟩

def twiceFirst : List Style :=
  [Style.ofSelector "1" ".a" "color: red;", Style.ofSelector "1" ".a" " color: red;",
    Style.ofSelector "1" ".a" "gap: 0;"]

theorem importStyles_repeated_iff_twiceFirst :
    ∃ e ∈ twiceFirst, ∃ t ∈ (Store.importedDocument {} twiceFirst []).styles.values,
      HasSelector twiceFirst t.selector ∧
      (Store.importedDocument {} (twiceFirst ++ [e]) []).styles ≠
        (Store.importedDocument {} twiceFirst []).styles ∧
      trim t.css = together (bodies t.selector twiceFirst).eraseDups := by
  obtain ⟨-, hagain, hcss⟩ := importStyles_repeated_iff (m := Id) (writeMemory false) twiceFirst [] {}
  have hfirst : Style.ofSelector "1" ".a" "color: red;" ∈ twiceFirst := by decide
  have hstored : Style.ofSelector "1" ".a" "color: red;\n  gap: 0;" ∈
      (Store.importedDocument {} twiceFirst []).styles.values := by decide
  obtain ⟨htogether, hiff⟩ := hcss _ hstored (by decide)
  refine ⟨_, hfirst, _, hstored, by decide, fun he => ?_, ?_⟩
  · exact absurd ((hagain _ hfirst).mp he _ hstored rfl) (by decide)
  · rw [htogether, hiff.mpr (by decide)]

/-- A body that came in before another one is put behind both if it comes in again. -/
theorem repeated_style_added :
    ∃ styles, ∃ e ∈ styles, ∃ s s' : Store, ∃ summary summary',
      importStyles (writeMemory false) styles [] {} = (.ok summary, s) ∧
      importStyles (writeMemory false) (styles ++ [e]) [] {} = (.ok summary', s') ∧
      s'.document.styles ≠ s.document.styles ∧
      ∃ t ∈ s'.document.styles.values,
        trim t.css ≠ together (bodies t.selector (styles ++ [e])).eraseDups :=
  ⟨[Style.ofSelector "1" ".a" "color: red;", Style.ofSelector "1" ".a" "gap: 0;"],
    Style.ofSelector "1" ".a" "color: red;", by decide, _, _, _, _, rfl, rfl, by decide, by decide⟩

end Restyle.Store
