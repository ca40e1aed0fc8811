import Restyle.Proofs.Json.Reader
import Restyle.Proofs.Table
import Restyle.Store.Document

/-! # Documents in texts

A document whose tables have every key once is read from its text as it was
written, with all keys in their order, and every document that is read from a
text is of this kind.
-/

namespace Restyle

namespace Json

/-- A value that is read back if its parts of this shape are asked for. -/
def ReadsBack (s : Shape) (j : Json) : Prop :=
  Outline.read? s j.outline = some j

variable {j : Json} {s : Shape} {fields : List (Text × Shape)} {entries : List (Text × Json)}

theorem readsBack_whole (h : j.Exact Outline.depthLimit) : ReadsBack .whole j := by
  have hread : Outline.read? .whole j.outline = j.outline.value? Outline.depthLimit := by
    cases j <;> rfl
  rw [ReadsBack, hread, Outline.value?_outline h]

theorem readsBack_table (h : ∀ e ∈ entries, ReadsBack s e.2) :
    ReadsBack (.table s) (.object entries) := by
  suffices Outline.table? s (entryOutlines entries) = some entries by
    rw [ReadsBack, outline, Outline.read?, this, Option.map_some]
  induction entries with
  | nil => rfl
  | cons entry entries ih =>
    obtain ⟨hentry, hrest⟩ := List.forall_mem_cons.mp h
    rw [entryOutlines, Outline.table?, hentry, ih hrest]
    rfl

theorem readsBack_record (h : ∀ e ∈ entries, ∃ s, fields.lookup e.1 = some s ∧ ReadsBack s e.2) :
    ReadsBack (.record fields) (.object entries) := by
  suffices Outline.fields? fields (entryOutlines entries) = some entries by
    rw [ReadsBack, outline, Outline.read?, this, Option.map_some]
  induction entries with
  | nil => rfl
  | cons entry entries ih =>
    obtain ⟨⟨s, hs, hentry⟩, hrest⟩ := List.forall_mem_cons.mp h
    rw [entryOutlines, Outline.fields?, hs]
    dsimp only
    rw [hentry, ih hrest]
    rfl

theorem exactEntries_iff {room : Nat} :
    ExactEntries room entries ↔ ∀ e ∈ entries, e.2.Exact room := by
  induction entries with
  | nil => simp [ExactEntries]
  | cons entry entries ih => simp [ExactEntries, ih]

end Json

namespace Table

open Json

variable {β : Type} {write : β → Json} {t : Table β}

theorem exact_toJson {room : Nat} (hroom : 0 < room) (h : ∀ value, (write value).Exact (room - 1))
    (t : Table β) : (t.toJson write).Exact room := by
  refine ⟨hroom, exactEntries_iff.mpr fun e he => ?_⟩
  obtain ⟨⟨key, value⟩, -, rfl⟩ := List.mem_map.mp he
  exact h value

theorem readsBack_toJson {s : Shape} (h : ∀ value, ReadsBack s (write value)) (t : Table β) :
    ReadsBack (.table s) (t.toJson write) := by
  refine readsBack_table fun e he => ?_
  obtain ⟨⟨key, value⟩, -, rfl⟩ := List.mem_map.mp he
  exact h value

theorem table?_toJson {read : Json → Option β} (h : ∀ value, read (write value) = some value)
    (ht : t.keys.Nodup) : table? read (t.toJson write) = some t := by
  have hentries : (t.map fun entry => (entry.1, write entry.2)).mapM
      (fun entry : Text × Json => (read entry.2).map (entry.1, ·)) = some t := by
    clear ht
    induction t with
    | nil => rfl
    | cons entry t ih =>
      rw [List.map_cons, List.mapM_cons, ih, h]
      rfl
  calc table? read (t.toJson write)
    _ = ((t.map fun entry => (entry.1, write entry.2)).mapM
          fun entry : Text × Json => (read entry.2).map (entry.1, ·)).map ofList := rfl
    _ = some t := by rw [hentries, Option.map_some, ofList_eq_self ht]

theorem nodup_keys_table? {read : Json → Option β} {j : Json} (h : table? read j = some t) :
    t.keys.Nodup := by
  cases j with
  | object entries =>
    obtain ⟨pairs, -, rfl⟩ := Option.map_eq_some_iff.mp h
    exact nodup_keys_ofList pairs
  | _ => exact absurd h (by simp [table?])

theorem nodup_keys_fieldOr? {read : Json → Option β} {fields : Table Json} {name : Text}
    (h : fieldOr? fields name [] (table? read) = some t) : t.keys.Nodup := by
  unfold fieldOr? at h
  split at h
  · rw [← Option.some.inj h]
    exact List.nodup_nil
  · exact nodup_keys_table? h

end Table

namespace Style

open Json

theorem exact_toJson (s : Style) {room : Nat} (h : 0 < room) : s.toJson.Exact room :=
  ⟨h, trivial, trivial, trivial, trivial, trivial, trivial, trivial⟩

theorem readsBack_toJson (s : Style) : ReadsBack shape s.toJson := by
  refine readsBack_record fun e he => ?_
  simp only [List.mem_cons, List.not_mem_nil, or_false] at he
  rcases he with rfl | rfl | rfl | rfl | rfl | rfl <;> exact ⟨.whole, rfl, readsBack_whole trivial⟩

theorem ofJson?_toJson (s : Style) : ofJson? s.toJson = some s := rfl

end Style

namespace StyleRef

open Json

theorem exact_toJson (r : StyleRef) {room : Nat} (h : 0 < room) : r.toJson.Exact room :=
  ⟨h, trivial, trivial, trivial⟩

theorem readsBack_toJson (r : StyleRef) : ReadsBack shape r.toJson := by
  refine readsBack_record fun e he => ?_
  simp only [List.mem_cons, List.not_mem_nil, or_false] at he
  rcases he with rfl | rfl <;> exact ⟨.whole, rfl, readsBack_whole trivial⟩

theorem ofJson?_toJson (r : StyleRef) : ofJson? r.toJson = some r := rfl

end StyleRef

namespace Document

open Json

structure Ordered (d : Document) : Prop where
  styles : d.styles.keys.Nodup
  styleMap : d.styleMap.keys.Nodup
  inline : d.inline.keys.Nodup

variable {d : Document} {j : Json} {t : Text}

theorem fits_version (version : UInt64) : Number.fits version.toNat = true := by
  have h := version.toNat_lt_size
  simp only [UInt64.size] at h
  simp only [Number.fits, Bool.and_eq_true, decide_eq_true_eq]
  omega

theorem exact_toJson (d : Document) : d.toJson.Exact Outline.depthLimit := by
  have hstring : ∀ t : Text, (Json.string t).Exact (Outline.depthLimit - 1 - 1) := fun _ => trivial
  exact ⟨by decide, fits_version d.version,
    Table.exact_toJson (by decide) (fun s => s.exact_toJson (by decide)) d.styles,
    Table.exact_toJson (by decide) (fun r => r.exact_toJson (by decide)) d.styleMap,
    Table.exact_toJson (by decide) hstring d.inline, trivial⟩

theorem readsBack_toJson (d : Document) : ReadsBack (.record fields) d.toJson := by
  have hinline : ∀ t : Text, ReadsBack .whole (.string t) := fun t => readsBack_whole trivial
  refine readsBack_record fun e he => ?_
  simp only [styleFields, List.mem_cons, List.not_mem_nil, or_false] at he
  rcases he with rfl | rfl | rfl | rfl
  · exact ⟨_, rfl, readsBack_whole (fits_version d.version)⟩
  · exact ⟨_, rfl, Table.readsBack_toJson Style.readsBack_toJson d.styles⟩
  · exact ⟨_, rfl, Table.readsBack_toJson StyleRef.readsBack_toJson d.styleMap⟩
  · exact ⟨_, rfl, Table.readsBack_toJson hinline d.inline⟩

theorem ofJson?_toJson (h : d.Ordered) : ofJson? d.toJson = some d := by
  have hversion : nat? (.number (.integer d.version.toNat)) = some d.version.toNat := rfl
  have hstyles := Table.table?_toJson Style.ofJson?_toJson h.styles
  have hstyleMap := Table.table?_toJson StyleRef.ofJson?_toJson h.styleMap
  have hinline : table? text? (Table.toJson .string d.inline) = some d.inline :=
    Table.table?_toJson (fun _ => rfl) h.inline
  calc ofJson? d.toJson
    _ = do
      let version ← nat? (.number (.integer d.version.toNat))
      let styles ← table? Style.ofJson? (d.styles.toJson Style.toJson)
      let styleMap ← table? StyleRef.ofJson? (d.styleMap.toJson StyleRef.toJson)
      let inline ← table? text? (d.inline.toJson Json.string)
      return ⟨UInt64.ofNat version, styles, styleMap, inline⟩ := rfl
    _ = some d := by
      rw [hversion, hstyles, hstyleMap, hinline]
      simp

theorem ofText?_toText (h : d.Ordered) : ofText? d.toText = some d := by
  have hvisible : ¬ d.toText.trim.isEmpty = true := by
    obtain ⟨t, ht⟩ : ∃ t, d.toText = '{' :: t := ⟨_, rfl⟩
    rw [List.isEmpty_iff, Text.trim_eq_nil_iff, ht]
    exact fun hblank => absurd (hblank _ List.mem_cons_self) (by decide)
  have hparts : partsOfText? (.record fields) d.toText = some d.toJson := by
    rw [partsOfText?, toText, Outline.ofText?_wide d.exact_toJson]
    exact d.readsBack_toJson
  rw [ofText?, if_neg hvisible, hparts]
  exact ofJson?_toJson h

theorem ordered_empty : Ordered {} :=
  ⟨List.nodup_nil, List.nodup_nil, List.nodup_nil⟩

theorem ordered_of_ofJson? (h : ofJson? j = some d) : d.Ordered := by
  simp only [ofJson?, Option.bind_eq_bind, Option.bind_eq_some_iff, Option.pure_def,
    Option.some.injEq] at h
  obtain ⟨fields, -, version, -, styles, hstyles, styleMap, hstyleMap, inline, hinline, rfl⟩ := h
  exact ⟨Table.nodup_keys_fieldOr? hstyles, Table.nodup_keys_fieldOr? hstyleMap,
    Table.nodup_keys_fieldOr? hinline⟩

theorem ordered_of_ofText? (h : ofText? t = some d) : d.Ordered := by
  unfold ofText? at h
  split_ifs at h
  · rw [← Option.some.inj h]
    exact ordered_empty
  · obtain ⟨j, -, hj⟩ := Option.bind_eq_some_iff.mp h
    exact ordered_of_ofJson? hj

end Document

end Restyle
