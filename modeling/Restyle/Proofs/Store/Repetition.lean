import Restyle.Proofs.Store.Merging

/-! # Importing the same again

An import puts its styles in the places they have by selector and keys them by
id. If different selectors have different ids then both orders are one, every
style keeps its id, and the same import once more finds everything in place.
-/

namespace Restyle.Style

/-- Styles with different selectors have different ids, where a blank id counts as the one made
from the selector. A style without a selector is never kept, so its id does not matter. -/
def OwnIds (styles : List Style) : Prop :=
  ∀ s ∈ styles, ∀ t ∈ styles, s.selector ≠ [] → t.selector ≠ [] →
    (withId s).id = (withId t).id → s.selector = t.selector

instance (styles : List Style) : Decidable (OwnIds styles) :=
  inferInstanceAs (Decidable (∀ s ∈ styles, ∀ t ∈ styles, s.selector ≠ [] → t.selector ≠ [] →
    (withId s).id = (withId t).id → s.selector = t.selector))

/-- The styles that an import keeps, in the order and under the names of their selectors. -/
def keptStyles (stored : StyleSet) (imported : List Style) : Table Style :=
  Table.setAll (incoming imported) (bySelector stored)

variable {stored : StyleSet} {imported : List Style} {s : Style} {x : Text}

theorem withId_withId (s : Style) : withId (withId s) = withId s := by
  by_cases h : s.id.isEmpty
  · have hs : withId s = { s with id := classId s.selector } := if_pos h
    rw [hs]
    unfold withId
    split <;> rfl
  · have hs : withId s = s := if_neg h
    rw [hs, hs]

theorem exists_id_of_kept? (h : kept? stored imported x = some s) :
    ∃ t ∈ stored.values ++ imported, t.selector = x ∧ (withId t).id = (withId s).id := by
  unfold kept? at h
  split_ifs at h
  rcases Option.or_eq_some_iff.mp h with h | ⟨-, h⟩
  · rcases hw : withSelector x imported with _ | ⟨first, more⟩
    · simp [hw, combine?] at h
    · obtain ⟨hmem, hsel⟩ := mem_withSelector.mp (hw ▸ List.mem_cons_self)
      rw [hw, combine?, Option.some.injEq] at h
      refine ⟨first, List.mem_append_right _ hmem, hsel, ?_⟩
      rw [← h]
      unfold withId
      split <;> rfl
  · obtain ⟨hmem, hsel⟩ := mem_withSelector.mp (List.mem_of_getLast? h)
    exact ⟨s, List.mem_append_left _ hmem, hsel, rfl⟩

theorem OwnIds.distinctIds (h : OwnIds (stored.values ++ imported)) :
    DistinctIds stored imported := by
  intro x y s t hs ht hid
  have hx := (kept?_cases hs).1
  have hy := (kept?_cases ht).1
  obtain ⟨s', hs', rfl, hids⟩ := exists_id_of_kept? hs
  obtain ⟨t', ht', rfl, hidt⟩ := exists_id_of_kept? ht
  exact h s' hs' t' ht' hx hy (by rw [hids, hidt, hid])

theorem nodup_keys_keptStyles (stored : StyleSet) (imported : List Style) :
    (keptStyles stored imported).keys.Nodup :=
  nodup_keys_setAll_incoming stored imported

theorem kept?_of_mem {e : Text × Style} (h : e ∈ keptStyles stored imported) :
    kept? stored imported e.1 = some e.2 := by
  rw [← get?_setAll_incoming]
  exact Table.get?_of_mem (nodup_keys_keptStyles stored imported) h

theorem keys_incoming_subset (stored : StyleSet) (imported : List Style) :
    (incoming imported).keys ⊆ (keptStyles stored imported).keys := by
  intro x hx
  obtain ⟨⟨x, s⟩, hs, rfl⟩ := List.mem_map.mp hx
  have hget := Table.get?_of_mem (nodup_keys_incoming imported) hs
  have hkept : (keptStyles stored imported).get? x = some s := by
    rw [keptStyles, Table.get?_setAll (nodup_keys_incoming imported), hget, Option.some_or]
  exact List.mem_map_of_mem (f := (·.1)) (Table.mem_of_get? hkept)

/-- With ids of their own all kept styles stay, in the order of their selectors. -/
theorem DistinctIds.values_merge (h : DistinctIds stored imported) :
    (merge stored (incoming imported)).values = (keptStyles stored imported).values.map withId := by
  have hpairs : ((keptStyles stored imported).values.map withId).map (fun s => (s.id, s)) =
      (keptStyles stored imported).map fun e => ((withId e.2).id, withId e.2) := by
    simp [Table.values, Function.comp_def]
  have hids : (Table.keys ((keptStyles stored imported).map fun e =>
      ((withId e.2).id, withId e.2))).Nodup := by
    have hkeys := nodup_keys_keptStyles stored imported
    rw [Table.keys, List.nodup_iff_pairwise_ne, List.pairwise_map] at hkeys
    rw [Table.keys, List.map_map, List.nodup_iff_pairwise_ne, List.pairwise_map]
    refine hkeys.imp_of_mem fun he hf hne hid => hne ?_
    exact h _ _ _ _ (kept?_of_mem he) (kept?_of_mem hf) hid
  calc (merge stored (incoming imported)).values
    _ = Table.values (Table.ofList (((keptStyles stored imported).values.map withId).map
          fun s => (s.id, s))) := rfl
    _ = Table.values ((keptStyles stored imported).map fun e => ((withId e.2).id, withId e.2)) := by
      rw [hpairs, Table.ofList_eq_self hids]
    _ = (keptStyles stored imported).values.map withId := by
      simp [Table.values, Function.comp_def]

theorem DistinctIds.bySelector_merge (h : DistinctIds stored imported) :
    bySelector (merge stored (incoming imported)) =
      (keptStyles stored imported).map fun e => (e.1, withId e.2) := by
  have hsel : ∀ e ∈ keptStyles stored imported, e.2.selector = e.1 ∧ e.1 ≠ [] := fun e he =>
    ⟨selector_kept? (kept?_of_mem he), (kept?_cases (kept?_of_mem he)).1⟩
  have hfilter : ((keptStyles stored imported).values.map withId).filter (!·.selector.isEmpty) =
      (keptStyles stored imported).values.map withId := by
    refine List.filter_eq_self.mpr fun s hs => ?_
    obtain ⟨t, ht, rfl⟩ := List.mem_map.mp hs
    obtain ⟨e, he, rfl⟩ := List.mem_map.mp ht
    simpa [(hsel e he).1] using (hsel e he).2
  have hpairs : ((keptStyles stored imported).values.map withId).map (fun s => (s.selector, s)) =
      (keptStyles stored imported).map fun e => (e.1, withId e.2) := by
    rw [Table.values, List.map_map, List.map_map]
    refine List.map_congr_left fun e he => ?_
    simp [(hsel e he).1]
  rw [bySelector, h.values_merge, hfilter, hpairs]
  refine Table.ofList_eq_self ?_
  rw [Table.keys_map]
  exact nodup_keys_keptStyles stored imported

/-- With ids of their own the styles of a second merge are kept in the same order, and differ at
most in ids that are filled in. -/
theorem DistinctIds.keptStyles_merge (h : DistinctIds stored imported) :
    (keptStyles (merge stored (incoming imported)) imported).values.map withId =
      (keptStyles stored imported).values.map withId := by
  have hvalues : ∀ t : Table Style, t.values.map withId =
      Table.values (t.map fun e => (e.1, withId e.2)) := fun t => by
    simp [Table.values, Function.comp_def]
  have hsubset : (incoming imported).keys ⊆
      Table.keys ((keptStyles stored imported).map fun e => (e.1, withId e.2)) := by
    rw [Table.keys_map]
    exact keys_incoming_subset stored imported
  rw [hvalues, hvalues]
  refine congrArg Table.values (Table.ext_get? ?_ ?_ fun x => ?_)
  · rw [Table.keys_map]
    exact nodup_keys_keptStyles _ imported
  · rw [Table.keys_map, keptStyles, h.bySelector_merge, Table.keys_setAll_of_subset hsubset]
  · rw [Table.get?_map, Table.get?_map, keptStyles, h.bySelector_merge,
      Table.get?_setAll (nodup_keys_incoming imported), Table.get?_map, keptStyles,
      Table.get?_setAll (nodup_keys_incoming imported)]
    cases (incoming imported).get? x with
    | some s => rfl
    | none => simp [Function.comp_def, withId_withId]

/-- With ids of their own a second merge changes nothing. -/
theorem DistinctIds.merge_merge (h : DistinctIds stored imported) :
    merge (merge stored (incoming imported)) (incoming imported) =
      merge stored (incoming imported) := by
  have hbyId : ∀ t u : List Style, t.map withId = u.map withId → byId t = byId u := by
    intro t u htu
    rw [byId, htu, byId]
  exact hbyId _ _ h.keptStyles_merge

end Restyle.Style

namespace Restyle.Store

open Style

variable {m : Type → Type} [Monad m] {ε : Type}

/-- If different selectors have different ids, stored or imported, then importing the same styles
and style map once more leaves the styles, their order and the style map as they are; only the
version, the signals and the invalidations go on. -/
theorem importStyles_again [LawfulMonad m] (write : Document → m (Except ε Unit))
    (styles : List Style) (styleMap : StyleMap) (s : Store)
    (h : OwnIds (s.document.styles.values ++ styles)) :
    ∃ first : Summary, ∃ d : Document,
      s.importStyles write styles styleMap = s.written first d <$> write d ∧
      ∀ s₁, s.written first d (.ok () : Except ε Unit) = (.ok first, s₁) →
        ∃ second : Summary, ∃ d' : Document,
          s₁.importStyles write styles styleMap = s₁.written second d' <$> write d' ∧
          (∀ e : ε, s₁.written second d' (.error e) = (.error e, s₁)) ∧
          s₁.written second d' (.ok () : Except ε Unit) =
            (.ok { first with version := first.version + 1 },
              { s₁ with
                document := { s₁.document with version := s₁.document.version + 1 }
                signals := s₁.signals ++ [.stylesUpdated, .rebuildCss]
                invalidations := s₁.invalidations + 2 }) := by
  refine ⟨_, _, importStyles_eq_written write styles styleMap s, ?_⟩
  rintro s₁ hs₁
  obtain rfl := (Prod.mk.inj hs₁).2
  refine ⟨_, _, importStyles_eq_written write styles styleMap _, fun e => rfl, ?_⟩
  have hmerge := h.distinctIds.merge_merge
  simp [written, rebuild, importSummary, importedDocument, staged, hmerge]

def doubledStore : Store :=
  { document := { styles := [("1", Style.ofSelector "1" ".a" "color: red;"),
      ("2", Style.ofSelector "2" ".a" "color: blue;")] } }

def doubledStyles : List Style :=
  [Style.ofSelector "" ".b" "gap: 0;", Style.ofSelector "3" ".b" "color: green;"]

theorem importStyles_again_doubled :
    OwnIds (doubledStore.document.styles.values ++ doubledStyles) ∧
    ∃ first second : Summary, ∃ s₁ s₂ : Store,
      doubledStore.importStyles (writeMemory false) doubledStyles [] = (.ok first, s₁) ∧
      s₁.importStyles (writeMemory false) doubledStyles [] = (.ok second, s₂) ∧
      s₂.document.styles = s₁.document.styles ∧ s₂.document.styleMap = s₁.document.styleMap ∧
      s₂.document.version = s₁.document.version + 1 := by
  have h : OwnIds (doubledStore.document.styles.values ++ doubledStyles) := by decide +kernel
  obtain ⟨first, d, hfirst, hagain⟩ :=
    importStyles_again (m := Id) (writeMemory false) doubledStyles [] doubledStore h
  obtain ⟨second, d', hsecond, -, hs₂⟩ := hagain _ rfl
  exact ⟨h, _, _, _, _, hfirst, hsecond.trans hs₂, rfl, rfl, rfl⟩

end Restyle.Store
