import Mathlib.Data.List.Induction
import Restyle.Proofs.Table
import Restyle.Store.File

/-! # What an import keeps

The stored and the imported styles meet twice: under their selectors, and then
under their ids. For every selector one style is kept, but of two kept styles
with one id only the later one stays. So an import loses no style exactly when
the kept styles have ids of their own.
-/

namespace Restyle.Style

open Text

/-- CSS with more behind it, unless that says nothing new. -/
def addCss (css more : Text) : Text :=
  if trim more = [] ∨ trim more = trim css then css else joinCss css more

def combinedCss : List Text → Text
  | [] => []
  | first :: more => more.foldl addCss first

def combine? : List Style → Option Style
  | [] => none
  | s :: more => some { s with css := combinedCss (s.css :: more.map (·.css)) }

def HasSelector (styles : List Style) (x : Text) : Prop :=
  ∃ s ∈ styles, s.selector = x

def withSelector (x : Text) (styles : List Style) : List Style :=
  styles.filter (·.selector = x)

/-- The style that an import keeps for a selector: what the imported ones make together, or else
the last stored one. -/
def kept? (stored : StyleSet) (imported : List Style) (x : Text) : Option Style :=
  if x = [] then none
  else (combine? (withSelector x imported)).or (withSelector x stored.values).getLast?

/-- No two kept styles have one id. -/
def DistinctIds (stored : StyleSet) (imported : List Style) : Prop :=
  ∀ x y s t, kept? stored imported x = some s → kept? stored imported y = some t →
    (withId s).id = (withId t).id → x = y

/-- Stored styles with one selector, if it is not imported again, have the same CSS. -/
def StoredAgree (stored : StyleSet) (imported : List Style) : Prop :=
  ∀ s ∈ stored.values, ∀ t ∈ stored.values, s.selector ≠ [] →
    ¬ HasSelector imported s.selector → s.selector = t.selector → s.css = t.css

/-- Stored and imported styles are all there with their CSS, and no selector is there twice. -/
structure LosesNothing (stored : StyleSet) (imported : List Style) (merged : StyleSet) : Prop where
  stored : ∀ s ∈ stored.values, s.selector ≠ [] → ¬ HasSelector imported s.selector →
    ∃ t ∈ merged.values, t.selector = s.selector ∧ t.css = s.css
  imported : ∀ s ∈ imported, s.selector ≠ [] → ∃ t ∈ merged.values, t.selector = s.selector ∧
    t.css = combinedCss ((withSelector s.selector imported).map (·.css))
  nodup : (merged.values.map (·.selector)).Nodup

variable {stored : StyleSet} {imported styles : List Style} {s t : Style} {x : Text}

@[simp] theorem selector_withId (s : Style) : (withId s).selector = s.selector := by
  unfold withId
  split <;> rfl

@[simp] theorem css_withId (s : Style) : (withId s).css = s.css := by
  unfold withId
  split <;> rfl

theorem mem_withSelector : s ∈ withSelector x styles ↔ s ∈ styles ∧ s.selector = x := by
  simp [withSelector]

theorem withSelector_snoc (x : Text) (styles : List Style) (s : Style) :
    withSelector x (styles ++ [s]) =
      withSelector x styles ++ if s.selector = x then [s] else [] := by
  unfold withSelector
  rw [List.filter_append, List.filter_singleton]
  split_ifs <;> simp_all

theorem withSelector_eq_nil (h : ¬ HasSelector styles x) : withSelector x styles = [] :=
  List.filter_eq_nil_iff.mpr fun s hs hx => h ⟨s, hs, by simpa using hx⟩

theorem combine?_snoc (styles : List Style) (s : Style) :
    combine? (styles ++ [s]) = some ((combine? styles).elim s fun first =>
      { first with css := addCss first.css s.css }) := by
  cases styles with
  | nil => rfl
  | cons first more =>
    simp [combine?, combinedCss, List.foldl_append]

theorem selector_combine? (h : combine? (withSelector x styles) = some s) : s.selector = x := by
  rcases hw : withSelector x styles with _ | ⟨first, more⟩
  · simp [hw, combine?] at h
  · have hf : first ∈ withSelector x styles := hw ▸ List.mem_cons_self
    rw [hw, combine?, Option.some.injEq] at h
    rw [← h]
    exact (mem_withSelector.mp hf).2

theorem get?_addIncoming (styles : Table Style) (s : Style) (x : Text) :
    (addIncoming styles s).get? x =
      if x = s.selector ∧ x ≠ [] then
        some ((styles.get? x).elim s fun first => { first with css := addCss first.css s.css })
      else styles.get? x := by
  unfold addIncoming
  by_cases hs : s.selector = []
  · rw [if_pos (by simp [hs]), if_neg (by simp_all)]
  rw [if_neg (by simpa using hs)]
  by_cases hx : x = s.selector
  · subst hx
    rw [if_pos ⟨rfl, hs⟩]
    cases hget : styles.get? s.selector with
    | none => exact Table.get?_set_self styles _ s
    | some first =>
      dsimp only [Option.elim_some, addCss]
      by_cases hnew : trim s.css = [] ∨ trim s.css = trim first.css
      · rw [if_pos (by simpa using hnew), if_pos hnew, hget]
      · rw [if_neg (by simpa using hnew), if_neg hnew, Table.get?_set_self]
  · rw [if_neg (fun h => hx h.1)]
    split
    · exact Table.get?_set_of_ne hx styles s
    · split
      · rfl
      · exact Table.get?_set_of_ne hx styles _

theorem get?_incoming (styles : List Style) (x : Text) :
    (incoming styles).get? x = if x = [] then none else combine? (withSelector x styles) := by
  induction styles using List.reverseRecOn with
  | nil => simp [incoming, Table.get?, withSelector, combine?]
  | append_singleton styles s ih =>
    have hsnoc : incoming (styles ++ [s]) = addIncoming (incoming styles) s := by
      simp [incoming]
    rw [hsnoc, get?_addIncoming, ih, withSelector_snoc]
    by_cases hx : x = []
    · simp [hx]
    · by_cases hs : x = s.selector
      · rw [if_pos ⟨hs, hx⟩, if_neg hx, if_neg hx, if_pos hs.symm, combine?_snoc]
      · rw [if_neg (fun h => hs h.1), if_neg hx, if_neg hx, if_neg (Ne.symm hs), List.append_nil]

theorem nodup_keys_incoming (styles : List Style) : (incoming styles).keys.Nodup := by
  refine Table.nodup_keys_foldl (t := []) (fun t s ht => ?_) List.nodup_nil styles
  unfold addIncoming
  split
  · exact ht
  · split
    · exact Table.nodup_keys_set ht _ _
    · split
      · exact ht
      · exact Table.nodup_keys_set ht _ _

theorem get?_bySelector (stored : StyleSet) (x : Text) :
    (bySelector stored).get? x =
      if x = [] then none else (withSelector x stored.values).getLast? := by
  have hfilter : (stored.values.filter (!·.selector.isEmpty)).filter (·.selector = x) =
      if x = [] then [] else withSelector x stored.values := by
    rw [List.filter_filter]
    split_ifs with hx
    · simp [hx]
    · refine List.filter_congr fun s _ => ?_
      by_cases hs : s.selector = x <;> simp [hs, hx]
  rw [bySelector, Table.get?_ofList_map, hfilter]
  split_ifs <;> rfl

theorem get?_setAll_incoming (stored : StyleSet) (imported : List Style) (x : Text) :
    (Table.setAll (incoming imported) (bySelector stored)).get? x = kept? stored imported x := by
  rw [Table.get?_setAll (nodup_keys_incoming imported), get?_incoming, get?_bySelector, kept?]
  split_ifs <;> rfl

theorem nodup_keys_setAll_incoming (stored : StyleSet) (imported : List Style) :
    (Table.setAll (incoming imported) (bySelector stored)).keys.Nodup :=
  Table.nodup_keys_setAll (Table.nodup_keys_ofList _) _

theorem selector_kept? (h : kept? stored imported x = some s) : s.selector = x := by
  unfold kept? at h
  split_ifs at h
  rcases Option.or_eq_some_iff.mp h with h | ⟨-, h⟩
  · exact selector_combine? h
  · exact (mem_withSelector.mp (List.mem_of_getLast? h)).2

theorem kept?_imported (stored : StyleSet) (hs : s ∈ imported) (hne : s.selector ≠ []) :
    ∃ t, kept? stored imported s.selector = some t ∧
      t.css = combinedCss ((withSelector s.selector imported).map (·.css)) := by
  have hmem : s ∈ withSelector s.selector imported := mem_withSelector.mpr ⟨hs, rfl⟩
  obtain ⟨first, more, hw⟩ := List.exists_cons_of_ne_nil (List.ne_nil_of_mem hmem)
  rw [kept?, if_neg hne, hw]
  exact ⟨_, rfl, rfl⟩

theorem kept?_stored (hs : s ∈ stored.values) (hne : s.selector ≠ [])
    (hi : ¬ HasSelector imported s.selector) :
    ∃ t ∈ stored.values, kept? stored imported s.selector = some t := by
  have hmem : s ∈ withSelector s.selector stored.values := mem_withSelector.mpr ⟨hs, rfl⟩
  obtain ⟨t, ht⟩ := Option.ne_none_iff_exists'.mp
    (mt List.getLast?_eq_none_iff.mp (List.ne_nil_of_mem hmem))
  refine ⟨t, (mem_withSelector.mp (List.mem_of_getLast? ht)).1, ?_⟩
  rw [kept?, if_neg hne, withSelector_eq_nil hi, ht]
  rfl

theorem kept?_cases (h : kept? stored imported x = some s) :
    x ≠ [] ∧ (HasSelector imported x ∨
      ¬ HasSelector imported x ∧ HasSelector stored.values x) := by
  have hx : x ≠ [] := by
    rintro rfl
    simp [kept?] at h
  refine ⟨hx, ?_⟩
  by_cases hi : HasSelector imported x
  · exact Or.inl hi
  · rw [kept?, if_neg hx, withSelector_eq_nil hi, combine?, Option.none_or] at h
    exact Or.inr ⟨hi, s, mem_withSelector.mp (List.mem_of_getLast? h)⟩

theorem mem_selectors (h : kept? stored imported x = some s) :
    x ∈ (imported ++ stored.values).map (·.selector) := by
  rw [List.map_append, List.mem_append]
  obtain ⟨-, ⟨t, ht, rfl⟩ | ⟨-, t, ht, rfl⟩⟩ := kept?_cases h
  · exact Or.inl (List.mem_map_of_mem ht)
  · exact Or.inr (List.mem_map_of_mem ht)

instance : Decidable (HasSelector styles x) :=
  inferInstanceAs (Decidable (∃ s ∈ styles, s.selector = x))

instance : Decidable (DistinctIds stored imported) :=
  let selectors := (imported ++ stored.values).map (·.selector)
  decidable_of_iff (∀ x ∈ selectors, ∀ y ∈ selectors, ∀ s ∈ kept? stored imported x,
      ∀ t ∈ kept? stored imported y, (withId s).id = (withId t).id → x = y)
    ⟨fun h x y s t hs ht => h x (mem_selectors hs) y (mem_selectors ht) s hs t ht,
      fun h x _ y _ s hs t ht => h x y s t hs ht⟩

instance : Decidable (StoredAgree stored imported) :=
  inferInstanceAs (Decidable (∀ s ∈ stored.values, ∀ t ∈ stored.values, s.selector ≠ [] →
    ¬ HasSelector imported s.selector → s.selector = t.selector → s.css = t.css))

instance (merged : StyleSet) : Decidable (LosesNothing stored imported merged) :=
  decidable_of_iff ((∀ s ∈ stored.values, s.selector ≠ [] → ¬ HasSelector imported s.selector →
      ∃ t ∈ merged.values, t.selector = s.selector ∧ t.css = s.css) ∧
      (∀ s ∈ imported, s.selector ≠ [] → ∃ t ∈ merged.values, t.selector = s.selector ∧
        t.css = combinedCss ((withSelector s.selector imported).map (·.css))) ∧
      (merged.values.map (·.selector)).Nodup)
    ⟨fun h => ⟨h.1, h.2.1, h.2.2⟩, fun h => ⟨h.stored, h.imported, h.nodup⟩⟩

theorem mem_values_kept :
    s ∈ (Table.setAll (incoming imported) (bySelector stored)).values ↔
      kept? stored imported s.selector = some s := by
  constructor
  · intro h
    obtain ⟨⟨x, s⟩, hmem, rfl⟩ := List.mem_map.mp h
    have hkept := Table.get?_of_mem (nodup_keys_setAll_incoming stored imported) hmem
    rw [get?_setAll_incoming] at hkept
    exact (selector_kept? hkept).symm ▸ hkept
  · intro h
    rw [← get?_setAll_incoming] at h
    exact List.mem_map_of_mem (f := (·.2)) (Table.mem_of_get? h)

theorem id_eq_key (h : (x, t) ∈ byId styles) : t.id = x := by
  have hlast := Table.get?_of_mem (Table.nodup_keys_ofList _) h
  rw [Table.get?_ofList_map] at hlast
  simpa using List.of_mem_filter (List.mem_of_getLast? hlast)

/-- Of several styles with one id the last one stays. -/
theorem mem_values_byId :
    t ∈ (byId styles).values ↔
      ((styles.map withId).filter (·.id = t.id)).getLast? = some t := by
  constructor
  · intro h
    obtain ⟨⟨id, t⟩, hmem, rfl⟩ := List.mem_map.mp h
    rw [← Table.get?_ofList_map]
    exact Table.get?_of_mem (Table.nodup_keys_ofList _) ((id_eq_key hmem).symm ▸ hmem)
  · intro h
    rw [← Table.get?_ofList_map] at h
    exact List.mem_map_of_mem (f := (·.2)) (Table.mem_of_get? h)

theorem exists_kept?_of_mem (h : t ∈ (merge stored (incoming imported)).values) :
    ∃ s, kept? stored imported t.selector = some s ∧ t = withId s := by
  have hmem := List.mem_of_mem_filter (List.mem_of_getLast? (mem_values_byId.mp h))
  obtain ⟨s, hs, rfl⟩ := List.mem_map.mp hmem
  exact ⟨s, (selector_withId s).symm ▸ mem_values_kept.mp hs, rfl⟩

theorem eq_of_id_eq (hs : s ∈ (merge stored (incoming imported)).values)
    (ht : t ∈ (merge stored (incoming imported)).values) (h : s.id = t.id) : s = t := by
  have hs' := mem_values_byId.mp hs
  rw [h, mem_values_byId.mp ht] at hs'
  exact (Option.some.inj hs').symm

theorem eq_of_selector_eq (hs : s ∈ (merge stored (incoming imported)).values)
    (ht : t ∈ (merge stored (incoming imported)).values) (h : s.selector = t.selector) : s = t := by
  obtain ⟨s', hs', he⟩ := exists_kept?_of_mem hs
  obtain ⟨t', ht', he'⟩ := exists_kept?_of_mem ht
  rw [h, ht', Option.some.injEq] at hs'
  rw [he, he', hs']

theorem DistinctIds.mem_values (h : DistinctIds stored imported)
    (hs : kept? stored imported x = some s) :
    withId s ∈ (merge stored (incoming imported)).values := by
  obtain rfl := selector_kept? hs
  set candidates := (Table.setAll (incoming imported) (bySelector stored)).values with hcandidates
  have hmem : withId s ∈ (candidates.map withId).filter (·.id = (withId s).id) :=
    List.mem_filter.mpr ⟨List.mem_map_of_mem (mem_values_kept.mpr hs), by simp⟩
  obtain ⟨t, ht⟩ := Option.ne_none_iff_exists'.mp
    (mt List.getLast?_eq_none_iff.mp (List.ne_nil_of_mem hmem))
  obtain ⟨ht', hid⟩ := List.mem_filter.mp (List.mem_of_getLast? ht)
  obtain ⟨u, hu, rfl⟩ := List.mem_map.mp ht'
  have hu' := mem_values_kept.mp hu
  have hsel := h _ _ _ _ hu' hs (by simpa using hid)
  obtain rfl : u = s := by
    rw [hsel, hs] at hu'
    exact (Option.some.inj hu').symm
  exact mem_values_byId.mpr ht

theorem nodup_selectors_merge (stored : StyleSet) (imported : List Style) :
    ((merge stored (incoming imported)).values.map (·.selector)).Nodup := by
  have hkeys : (merge stored (incoming imported)).keys.Nodup := Table.nodup_keys_ofList _
  rw [Table.keys, List.nodup_iff_pairwise_ne, List.pairwise_map] at hkeys
  rw [Table.values, List.map_map, List.nodup_iff_pairwise_ne, List.pairwise_map]
  refine hkeys.imp_of_mem fun {e f} he hf hne hsel => hne ?_
  have hstyle : e.2 = f.2 :=
    eq_of_selector_eq (List.mem_map_of_mem he) (List.mem_map_of_mem hf) hsel
  rw [← id_eq_key he, ← id_eq_key hf, hstyle]

theorem LosesNothing.mem_values
    (h : LosesNothing stored imported (merge stored (incoming imported)))
    (hs : kept? stored imported x = some s) :
    withId s ∈ (merge stored (incoming imported)).values := by
  obtain ⟨t, ht, hx⟩ :
      ∃ t ∈ (merge stored (incoming imported)).values, t.selector = x := by
    obtain ⟨hne, ⟨t, ht, rfl⟩ | ⟨hi, t, ht, rfl⟩⟩ := kept?_cases hs
    · obtain ⟨u, hu, hsel, -⟩ := h.imported t ht hne
      exact ⟨u, hu, hsel⟩
    · obtain ⟨u, hu, hsel, -⟩ := h.stored t ht hne hi
      exact ⟨u, hu, hsel⟩
  obtain ⟨s', hs', rfl⟩ := exists_kept?_of_mem ht
  rw [hx, hs, Option.some.injEq] at hs'
  rwa [hs']

theorem LosesNothing.distinctIds
    (h : LosesNothing stored imported (merge stored (incoming imported))) :
    DistinctIds stored imported := by
  intro x y s t hs ht hid
  have hstyle := eq_of_id_eq (h.mem_values hs) (h.mem_values ht) hid
  rw [← selector_kept? hs, ← selector_kept? ht, ← selector_withId s, ← selector_withId t, hstyle]

theorem LosesNothing.storedAgree
    (h : LosesNothing stored imported (merge stored (incoming imported))) :
    StoredAgree stored imported := by
  intro s hs t ht hne hi hsel
  obtain ⟨u, hu, husel, hucss⟩ := h.stored s hs hne hi
  obtain ⟨v, hv, hvsel, hvcss⟩ := h.stored t ht (hsel ▸ hne) (hsel ▸ hi)
  have huv : u = v := eq_of_selector_eq hu hv (by rw [husel, hvsel, hsel])
  rw [← hucss, ← hvcss, huv]

theorem DistinctIds.losesNothing (h : DistinctIds stored imported)
    (hagree : StoredAgree stored imported) :
    LosesNothing stored imported (merge stored (incoming imported)) where
  stored s hs hne hi := by
    obtain ⟨t, ht, hkept⟩ := kept?_stored hs hne hi
    have hsel := selector_kept? hkept
    refine ⟨withId t, h.mem_values hkept, (selector_withId t).trans hsel, ?_⟩
    exact (css_withId t).trans (hagree s hs t ht hne hi hsel.symm).symm
  imported s hs hne := by
    obtain ⟨t, hkept, hcss⟩ := kept?_imported stored hs hne
    exact ⟨withId t, h.mem_values hkept, (selector_withId t).trans (selector_kept? hkept),
      (css_withId t).trans hcss⟩
  nodup := nodup_selectors_merge stored imported

/-- Merging loses nothing exactly if the kept styles have ids of their own, and the stored ones that
stay under one selector agree. -/
theorem losesNothing_merge_iff (stored : StyleSet) (imported : List Style) :
    LosesNothing stored imported (merge stored (incoming imported)) ↔
      DistinctIds stored imported ∧ StoredAgree stored imported :=
  ⟨fun h => ⟨h.distinctIds, h.storedAgree⟩, fun h => h.1.losesNothing h.2⟩

end Restyle.Style

namespace Restyle.Store

open Style

variable {m : Type → Type} [Monad m] {ε : Type}

/-- The answer of an import that wrote a document, and the store behind it. -/
def written (s : Store) (summary : Summary) (d : Document) : Except ε Unit → Except ε Summary × Store
  | .ok () => (.ok summary, rebuild { s with document := d, pending := none })
  | .error e => (.error e, { s with pending := none })

def importedDocument (s : Store) (styles : List Style) (styleMap : StyleMap) : Document :=
  { s.staged with
    styles := merge s.document.styles (incoming styles)
    styleMap
    version := s.staged.version + 1 }

def importSummary (s : Store) (styles : List Style) (styleMap : StyleMap) : Summary :=
  ⟨(incoming styles).length, (s.importedDocument styles styleMap).styles.length,
    (s.importedDocument styles styleMap).version⟩

/-- An import writes one document, which a store keeps if it could be written. -/
theorem importStyles_eq_written [LawfulMonad m] (write : Document → m (Except ε Unit))
    (styles : List Style) (styleMap : StyleMap) (s : Store) :
    s.importStyles write styles styleMap =
      s.written (s.importSummary styles styleMap) (s.importedDocument styles styleMap) <$>
        write (s.importedDocument styles styleMap) := by
  rw [importStyles, map_eq_pure_bind]
  simp only [commit, stage, bind_assoc]
  congr
  funext r
  cases r <;> simp only [pure_bind] <;> rfl

theorem importStyles_eq [LawfulMonad m] (write : Document → m (Except ε Unit)) (styles : List Style)
    (styleMap : StyleMap) (s : Store) :
    ∃ summary, ∃ d : Document, d.styles = merge s.document.styles (incoming styles) ∧
      s.importStyles write styles styleMap = s.written summary d <$> write d :=
  ⟨_, _, rfl, importStyles_eq_written write styles styleMap s⟩

/-- An import that is written leaves every stored and every imported style in the store exactly if
the kept styles have ids of their own, and the stored ones that stay under one selector agree. -/
theorem importStyles_losesNothing_iff [LawfulMonad m] (write : Document → m (Except ε Unit))
    (styles : List Style) (styleMap : StyleMap) (s : Store) :
    ∃ summary, ∃ d : Document,
      s.importStyles write styles styleMap = s.written summary d <$> write d ∧
      (LosesNothing s.document.styles styles d.styles ↔
        DistinctIds s.document.styles styles ∧ StoredAgree s.document.styles styles) := by
  obtain ⟨summary, d, hd, he⟩ := importStyles_eq write styles styleMap s
  exact ⟨summary, d, he, hd ▸ losesNothing_merge_iff s.document.styles styles⟩

def besideStore : Store :=
  { document := { styles := [("1", Style.ofSelector "1" ".a" "color: red;")] } }

theorem importStyles_losesNothing_beside :
    ∃ summary, ∃ d : Document,
      besideStore.importStyles (writeMemory false) [Style.ofSelector "2" ".b" "gap: 0;"] [] =
        besideStore.written summary d (.ok ()) ∧
      LosesNothing besideStore.document.styles [Style.ofSelector "2" ".b" "gap: 0;"] d.styles := by
  obtain ⟨summary, d, he, hiff⟩ := importStyles_losesNothing_iff (m := Id) (writeMemory false)
    [Style.ofSelector "2" ".b" "gap: 0;"] [] besideStore
  exact ⟨summary, d, he, hiff.mpr (by decide)⟩

/-- A stored style whose id an imported one has too is lost, for all that its selector is another. -/
theorem stored_style_lost :
    ∃ summary, ∃ s : Store,
      besideStore.importStyles (writeMemory false) [Style.ofSelector "1" ".b" "gap: 0;"] [] =
        (.ok summary, s) ∧
      ¬ LosesNothing besideStore.document.styles [Style.ofSelector "1" ".b" "gap: 0;"]
        s.document.styles :=
  ⟨_, _, rfl, by decide⟩

end Restyle.Store
