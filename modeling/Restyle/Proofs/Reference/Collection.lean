import Restyle.Proofs.Reference.Migration
import Restyle.Proofs.Stylesheet.Grouping
import Restyle.Proofs.Text.Words

/-! # Where references stand

Every reference in the content has a position: the item, the settings in it and
the steps into containers. A scan that finds them in the order of their
positions collects exactly the references that stand at most eight steps deep,
each at its first position.
-/

namespace Restyle

open Text

namespace Reference

/-- The steps down to a reference, outermost first. Positions are ordered as in a dictionary. -/
abbrev Position := List Nat

/-- The texts that a relation puts at positions, in the order of these. -/
def Enumerates (At : Position → Text → Prop) (ts : List Text) : Prop :=
  ∃ ps : List (Position × Text), ps.map (·.2) = ts ∧ ps.Pairwise (·.1 < ·.1) ∧
    ∀ p t, (p, t) ∈ ps ↔ At p t

namespace Enumerates

variable {α : Type} {At Bt : Position → Text → Prop} {ts us : List Text}

theorem congr (h : Enumerates At ts) (hAt : ∀ p t, At p t ↔ Bt p t) : Enumerates Bt ts := by
  obtain ⟨ps, hts, hsorted, hmem⟩ := h
  exact ⟨ps, hts, hsorted, fun p t => (hmem p t).trans (hAt p t)⟩

theorem nil (h : ∀ p t, ¬ At p t) : Enumerates At [] :=
  ⟨[], rfl, .nil, fun p t => by simp [h p t]⟩

theorem singleton (t : Text) : Enumerates (fun p u => p = [] ∧ u = t) [t] :=
  ⟨[([], t)], rfl, List.pairwise_singleton _ _, fun p u => by simp⟩

theorem append (ht : Enumerates At ts) (hu : Enumerates Bt us)
    (hlt : ∀ p t q u, At p t → Bt q u → p < q) :
    Enumerates (fun p t => At p t ∨ Bt p t) (ts ++ us) := by
  obtain ⟨ps, rfl, hps, hmem⟩ := ht
  obtain ⟨qs, rfl, hqs, hmem'⟩ := hu
  refine ⟨ps ++ qs, List.map_append, List.pairwise_append.mpr ⟨hps, hqs, ?_⟩, ?_⟩
  · rintro ⟨p, t⟩ hp ⟨q, u⟩ hq
    exact hlt p t q u ((hmem p t).mp hp) ((hmem' q u).mp hq)
  · intro p t
    rw [List.mem_append, hmem, hmem']

theorem shift (h : Enumerates At ts) (k : Nat) :
    Enumerates (fun p t => ∃ q, p = k :: q ∧ At q t) ts := by
  obtain ⟨ps, rfl, hsorted, hmem⟩ := h
  refine ⟨ps.map fun e => (k :: e.1, e.2), ?_, ?_, ?_⟩
  · rw [List.map_map]
    rfl
  · refine List.pairwise_map.mpr (hsorted.imp fun {a b} hab => ?_)
    exact List.cons_lt_cons_iff.mpr (Or.inr ⟨rfl, hab⟩)
  · intro p t
    rw [List.mem_map]
    constructor
    · rintro ⟨⟨q, u⟩, hq, he⟩
      obtain ⟨rfl, rfl⟩ := Prod.mk.inj he
      exact ⟨q, rfl, (hmem q u).mp hq⟩
    · rintro ⟨q, rfl, hq⟩
      exact ⟨(q, t), (hmem q t).mpr hq, rfl⟩

theorem mem_iff {t : Text} (h : Enumerates At ts) : t ∈ ts ↔ ∃ p, At p t := by
  obtain ⟨ps, rfl, -, hmem⟩ := h
  rw [List.mem_map]
  constructor
  · rintro ⟨⟨p, t⟩, hp, rfl⟩
    exact ⟨p, (hmem p t).mp hp⟩
  · rintro ⟨p, hp⟩
    exact ⟨(p, t), (hmem p t).mpr hp, rfl⟩

theorem filter (h : Enumerates At ts) (keep : Text → Bool) :
    Enumerates (fun p t => At p t ∧ keep t = true) (ts.filter keep) := by
  obtain ⟨ps, rfl, hsorted, hmem⟩ := h
  refine ⟨ps.filter fun e => keep e.2, ?_, hsorted.filter _, fun p t => ?_⟩
  · rw [List.filter_map]
    rfl
  · rw [List.mem_filter, hmem]

theorem flatMap {f : α → List Text} {At : α → Position → Text → Prop} {xs : List α}
    (h : ∀ x ∈ xs, Enumerates (At x) (f x)) (k : Nat) :
    Enumerates (fun p t => ∃ i x q, p = (k + i) :: q ∧ xs[i]? = some x ∧ At x q t)
      (xs.flatMap f) := by
  induction xs generalizing k with
  | nil => exact .nil fun p t => by simp
  | cons x xs ih =>
    obtain ⟨hx, hxs⟩ := List.forall_mem_cons.mp h
    refine ((hx.shift k).append (ih hxs (k + 1)) ?_).congr fun p t => ?_
    · rintro p t q u ⟨p, rfl, -⟩ ⟨i, y, q, rfl, -⟩
      exact List.cons_lt_cons_iff.mpr (Or.inl (by omega))
    · constructor
      · rintro (⟨q, rfl, hq⟩ | ⟨i, y, q, rfl, hy, hq⟩)
        · exact ⟨0, x, q, rfl, rfl, hq⟩
        · exact ⟨i + 1, y, q, by rw [Nat.add_assoc, Nat.add_comm 1 i], hy, hq⟩
      · rintro ⟨_ | i, y, q, rfl, hy, hq⟩
        · obtain rfl := Option.some.inj hy
          exact Or.inl ⟨q, rfl, hq⟩
        · exact Or.inr ⟨i, y, q, by rw [Nat.add_assoc, Nat.add_comm 1 i], hy, hq⟩

/-- Of texts that repeat the first is kept, so each stands before all positions of those after it. -/
theorem pairwise_eraseDups (h : Enumerates At ts) :
    ts.eraseDups.Pairwise fun t u => ∃ p, At p t ∧ ∀ q, At q u → p < q := by
  obtain ⟨ps, rfl, hsorted, hmem⟩ := h
  suffices hpairs : (ps.map (·.2)).eraseDups.Pairwise fun t u =>
      ∃ p, (p, t) ∈ ps ∧ ∀ q, (q, u) ∈ ps → p < q by
    simpa only [hmem] using hpairs
  clear hmem
  induction ps using List.reverseRecOn with
  | nil => exact .nil
  | append_singleton ps e ih =>
    obtain ⟨hsorted, -, hlast⟩ := List.pairwise_append.mp hsorted
    have hbefore : ∀ d ∈ ps, d.1 < e.1 := fun d hd => hlast d hd e (List.mem_singleton_self e)
    have hold : (ps.map (·.2)).eraseDups.Pairwise fun t u =>
        ∃ p, (p, t) ∈ ps ++ [e] ∧ ∀ q, (q, u) ∈ ps ++ [e] → p < q := by
      refine (ih hsorted).imp fun {t u} ⟨p, hp, hlt⟩ => ⟨p, List.mem_append_left _ hp, fun q hq => ?_⟩
      rcases List.mem_append.mp hq with hq | hq
      · exact hlt q hq
      · obtain rfl := List.mem_singleton.mp hq
        exact hbefore _ hp
    rw [List.map_append, List.map_singleton, eraseDups_concat]
    split_ifs with hseen
    · exact hold
    · refine List.pairwise_append.mpr ⟨hold, List.pairwise_singleton _ _, ?_⟩
      rintro t ht u hu
      obtain rfl := List.mem_singleton.mp hu
      obtain ⟨⟨p, t⟩, hp, rfl⟩ := List.mem_map.mp (List.mem_eraseDups.mp ht)
      refine ⟨p, List.mem_append_left _ hp, fun q hq => ?_⟩
      rcases List.mem_append.mp hq with hq | hq
      · exact absurd (List.contains_iff_mem.mpr (List.mem_map.mpr ⟨_, hq, rfl⟩)) hseen
      · rw [← List.mem_singleton.mp hq] at hbefore
        exact hbefore _ hp

end Enumerates

def members : Setting → List Setting
  | .list items => items
  | s => [s]

/-- A reference stands in a setting, at most some steps into containers deep. Ids come before names,
and these before what stands deeper; nothing is looked for in the settings that hold references. -/
inductive Stands : Nat → Setting → Position → Text → Prop
  | id {steps : Nat} {entries : Settings} {s : Setting} {i : Nat} {t : Text}
      (hs : Table.get? entries globalKey = some s) (ht : (members s)[i]? = some (.scalar t)) :
      Stands steps (.map entries) [0, i] (trim t)
  | name {steps : Nat} {entries : Settings} {s : Setting} {i j : Nat} {t w : Text}
      (hs : Table.get? entries namesKey = some s) (ht : (members s)[i]? = some (.scalar t))
      (hw : (words t)[j]? = some w) : Stands steps (.map entries) [1, i, j] w
  | entry {steps : Nat} {entries : Settings} {key : Text} {s : Setting} {i : Nat} {p : Position}
      {t : Text} (hs : entries[i]? = some (key, s)) (hglobal : key ≠ globalKey)
      (hnames : key ≠ namesKey) (h : Stands steps s p t) :
      Stands (steps + 1) (.map entries) ((2 + i) :: p) t
  | item {steps : Nat} {items : List Setting} {s : Setting} {i : Nat} {p : Position} {t : Text}
      (hs : items[i]? = some s) (h : Stands steps s p t) :
      Stands (steps + 1) (.list items) (i :: p) t

def settingsOf (i : Item) : List Setting :=
  i.elements.map (fun e => .map e.settings) ++ [i.wrapper, i.page]

/-- A reference stands in some items that a scan for some post types looks at. -/
def StandsIn (items : List Item) (postTypes : List Text) (p : Position) (t : Text) : Prop :=
  t ≠ [] ∧ ∃ m i n s q, p = m :: n :: q ∧ items[m]? = some i ∧ Scanner.Qualifies postTypes i ∧
    (settingsOf i)[n]? = some s ∧ Stands 8 s q t

theorem scalars_eq (s : Setting) : scalars s = (members s).flatMap (·.scalar?.toList) := by
  cases s with
  | list items => exact List.filterMap_eq_flatMap_toList _ items
  | _ => rfl

theorem ofItems_eq (levels : Nat) (items : List Setting) :
    ofItems levels items = items.flatMap (ofSetting levels) := by
  induction items with
  | nil => rw [ofItems, List.flatMap_nil]
  | cons s items ih => rw [ofItems, ih, List.flatMap_cons]

theorem ofEntries_eq (levels : Nat) (entries : Settings) : ofEntries levels entries =
    entries.flatMap fun e => if e.1 = globalKey ∨ e.1 = namesKey then [] else ofSetting levels e.2 := by
  induction entries with
  | nil => rw [ofEntries, List.flatMap_nil]
  | cons e entries ih => rw [ofEntries, ih, List.flatMap_cons]

theorem ofSetting_zero (s : Setting) : ofSetting 0 s = [] := by
  cases s <;> rfl

theorem enumerates_scalars {f : Text → List Text} {At : Text → Position → Text → Prop}
    (hf : ∀ u, Enumerates (At u) (f u)) (s : Setting) :
    Enumerates (fun p t => ∃ i u q, p = i :: q ∧ (members s)[i]? = some (.scalar u) ∧ At u q t)
      ((scalars s).flatMap f) := by
  rw [scalars_eq, List.flatMap_assoc]
  have hmember : ∀ m ∈ members s, Enumerates (fun p t => ∃ u, m = .scalar u ∧ At u p t)
      (m.scalar?.toList.flatMap f) := by
    intro m _
    cases m with
    | scalar u =>
      have hself : (Setting.scalar u).scalar?.toList.flatMap f = f u := List.append_nil (f u)
      rw [hself]
      refine (hf u).congr fun p t => ?_
      constructor
      · exact fun h => ⟨u, rfl, h⟩
      · rintro ⟨v, hv, h⟩
        exact Setting.scalar.inj hv ▸ h
    | _ => exact .nil fun p t => by simp
  refine (Enumerates.flatMap hmember 0).congr fun p t => ?_
  constructor
  · rintro ⟨i, m, q, rfl, hm, u, rfl, h⟩
    exact ⟨i, u, q, by rw [Nat.zero_add], hm, h⟩
  · rintro ⟨i, u, q, rfl, hm, h⟩
    exact ⟨i, _, q, by rw [Nat.zero_add], hm, u, rfl, h⟩

theorem enumerates_under {f : Text → List Text} {At : Text → Position → Text → Prop}
    (hf : ∀ u, Enumerates (At u) (f u)) (entries : Settings) (key : Text) :
    Enumerates (fun p t => ∃ s i u q, p = i :: q ∧ Table.get? entries key = some s ∧
        (members s)[i]? = some (.scalar u) ∧ At u q t)
      (((((Table.get? entries key).map scalars).getD []).flatMap f)) := by
  cases hs : Table.get? entries key with
  | none => exact .nil fun p t => by simp
  | some s =>
    refine (enumerates_scalars hf s).congr fun p t => ?_
    constructor
    · rintro ⟨i, u, q, hp, hm, h⟩
      exact ⟨s, i, u, q, hp, rfl, hm, h⟩
    · rintro ⟨s', i, u, q, hp, hs', hm, h⟩
      obtain rfl := Option.some.inj hs'
      exact ⟨i, u, q, hp, hm, h⟩

theorem trim_of_mem_words {t w : Text} (h : w ∈ words t) : trim w = w := by
  have hw := isToken_of_mem_words h
  refine Trimmed.trim_eq ⟨fun c hc => ?_, fun c hc => ?_⟩
  · exact hw.visible c (List.mem_of_head? hc)
  · exact hw.visible c (List.mem_of_getLast? hc)

def StandsHere (entries : Settings) (p : Position) (t : Text) : Prop :=
  (∃ s i u, p = [0, i] ∧ Table.get? entries globalKey = some s ∧
      (members s)[i]? = some (.scalar u) ∧ t = trim u) ∨
    ∃ s i u j, p = [1, i, j] ∧ Table.get? entries namesKey = some s ∧
      (members s)[i]? = some (.scalar u) ∧ (words u)[j]? = some t

theorem enumerates_getElem? (ts : List Text) :
    Enumerates (fun p t => ∃ j, p = [j] ∧ ts[j]? = some t) ts := by
  have h := Enumerates.flatMap (fun w (_ : w ∈ ts) => Enumerates.singleton w) 0
  rw [List.flatMap_singleton'] at h
  refine h.congr fun p t => ?_
  constructor
  · rintro ⟨j, w, q, rfl, hw, rfl, rfl⟩
    exact ⟨j, by rw [Nat.zero_add], hw⟩
  · rintro ⟨j, rfl, hw⟩
    exact ⟨j, t, [], by rw [Nat.zero_add], hw, rfl, rfl⟩

theorem map_trim_flatMap_words (ts : List Text) : (ts.flatMap words).map trim = ts.flatMap words := by
  refine (List.map_congr_left fun w hw => ?_).trans (List.map_id _)
  obtain ⟨t, -, hw⟩ := List.mem_flatMap.mp hw
  exact trim_of_mem_words hw

theorem enumerates_own (entries : Settings) :
    Enumerates (StandsHere entries) ((own entries).map trim) := by
  have hids := enumerates_under (fun u => Enumerates.singleton (trim u)) entries globalKey
  have hnames := enumerates_under (fun u => enumerates_getElem? (words u)) entries namesKey
  have hown : (own entries).map trim =
      (((Table.get? entries globalKey).map scalars).getD []).flatMap (fun u => [trim u]) ++
        (((Table.get? entries namesKey).map scalars).getD []).flatMap words := by
    rw [own, List.map_append, map_trim_flatMap_words, List.map_eq_flatMap]
  rw [hown]
  refine ((hids.shift 0).append (hnames.shift 1) ?_).congr fun p t => ?_
  · rintro p t q u ⟨p, rfl, -⟩ ⟨q, rfl, -⟩
    exact List.cons_lt_cons_iff.mpr (Or.inl Nat.zero_lt_one)
  · constructor
    · rintro (⟨q, rfl, s, i, u, _, rfl, hs, hu, rfl, rfl⟩ | ⟨q, rfl, s, i, u, _, rfl, hs, hu, j, rfl, hw⟩)
      · exact Or.inl ⟨s, i, u, rfl, hs, hu, rfl⟩
      · exact Or.inr ⟨s, i, u, j, rfl, hs, hu, hw⟩
    · rintro (⟨s, i, u, rfl, hs, hu, rfl⟩ | ⟨s, i, u, j, rfl, hs, hu, hw⟩)
      · exact Or.inl ⟨_, rfl, s, i, u, _, rfl, hs, hu, rfl, rfl⟩
      · exact Or.inr ⟨_, rfl, s, i, u, _, rfl, hs, hu, j, rfl, hw⟩

/-- A reference is within the levels that are looked at, one more than the steps to it. -/
def Reached (levels : Nat) (s : Setting) (p : Position) (t : Text) : Prop :=
  ∃ steps, levels = steps + 1 ∧ Stands steps s p t

@[simp] theorem not_reached_zero (s : Setting) (p : Position) (t : Text) : ¬ Reached 0 s p t := by
  simp [Reached]

@[simp] theorem reached_succ {levels : Nat} {s : Setting} {p : Position} {t : Text} :
    Reached (levels + 1) s p t ↔ Stands levels s p t := by
  simp [Reached]

theorem enumerates_list {levels : Nat} {items : List Setting}
    (h : ∀ s ∈ items, Enumerates (Reached levels s) ((ofSetting levels s).map trim)) :
    Enumerates (Stands levels (.list items)) ((ofSetting (levels + 1) (.list items)).map trim) := by
  rw [ofSetting, ofItems_eq, List.map_flatMap]
  refine (Enumerates.flatMap h 0).congr fun p t => ?_
  constructor
  · rintro ⟨i, s, q, rfl, hs, steps, rfl, hstands⟩
    rw [Nat.zero_add]
    exact .item hs hstands
  · intro hstands
    cases hstands with
    | item hs hstands => exact ⟨_, _, _, by rw [Nat.zero_add], hs, _, rfl, hstands⟩

theorem enumerates_map {levels : Nat} {entries : Settings}
    (h : ∀ s, Enumerates (Reached levels s) ((ofSetting levels s).map trim)) :
    Enumerates (Stands levels (.map entries)) ((ofSetting (levels + 1) (.map entries)).map trim) := by
  have hentry : ∀ e ∈ entries, Enumerates
      (fun p t => (e.1 ≠ globalKey ∧ e.1 ≠ namesKey) ∧ Reached levels e.2 p t)
      ((if e.1 = globalKey ∨ e.1 = namesKey then [] else ofSetting levels e.2).map trim) := by
    intro e _
    split_ifs with hkey
    · exact .nil fun p t h => hkey.elim h.1.1 h.1.2
    · refine (h e.2).congr fun p t => ?_
      rw [and_iff_right (not_or.mp hkey)]
  rw [ofSetting, ofEntries_eq, List.map_append, List.map_flatMap]
  refine ((enumerates_own entries).append (Enumerates.flatMap hentry 2) ?_).congr fun p t => ?_
  · -- The own references stand at the places 0 and 1, and the entries come behind these.
    rintro p t q u hp ⟨i, e, q, rfl, -⟩
    rcases hp with ⟨s, j, v, rfl, -⟩ | ⟨s, j, v, k, rfl, -⟩
    all_goals exact List.cons_lt_cons_iff.mpr (Or.inl (by omega))
  · constructor
    · rintro ((⟨s, i, u, rfl, hs, hu, rfl⟩ | ⟨s, i, u, j, rfl, hs, hu, hw⟩) |
        ⟨i, ⟨key, s⟩, q, rfl, hs, hkey, steps, rfl, hstands⟩)
      · exact .id hs hu
      · exact .name hs hu hw
      · exact .entry hs hkey.1 hkey.2 hstands
    · intro hstands
      cases hstands with
      | id hs hu => exact Or.inl (Or.inl ⟨_, _, _, rfl, hs, hu, rfl⟩)
      | name hs hu hw => exact Or.inl (Or.inr ⟨_, _, _, _, rfl, hs, hu, hw⟩)
      | entry hs hglobal hnames hstands =>
        exact Or.inr ⟨_, _, _, rfl, hs, ⟨hglobal, hnames⟩, _, rfl, hstands⟩

theorem enumerates_ofSetting (levels : Nat) (s : Setting) :
    Enumerates (Reached levels s) ((ofSetting levels s).map trim) := by
  induction levels generalizing s with
  | zero =>
    rw [ofSetting_zero]
    exact .nil (not_reached_zero s)
  | succ levels ih =>
    cases s with
    | scalar u => exact .nil fun p t h => nomatch reached_succ.mp h
    | none => exact .nil fun p t h => nomatch reached_succ.mp h
    | list items => exact (enumerates_list fun s _ => ih s).congr fun p t => reached_succ.symm
    | map entries => exact (enumerates_map ih).congr fun p t => reached_succ.symm

theorem enumerates_ofItem (i : Item) : Enumerates (fun p t => ∃ n s q, p = n :: q ∧
    (settingsOf i)[n]? = some s ∧ Stands 8 s q t) ((ofItem i).map trim) := by
  have hitem : ofItem i = (settingsOf i).flatMap (ofSetting levels) := by
    simp [ofItem, settingsOf, List.flatMap_map]
  have h := Enumerates.flatMap (fun s (_ : s ∈ settingsOf i) => enumerates_ofSetting levels s) 0
  rw [hitem, List.map_flatMap]
  refine h.congr fun p t => ?_
  constructor
  · rintro ⟨n, s, q, rfl, hs, steps, hsteps, hstands⟩
    obtain rfl : 8 = steps := Nat.succ.inj hsteps
    exact ⟨n, s, q, by rw [Nat.zero_add], hs, hstands⟩
  · rintro ⟨n, s, q, rfl, hs, hstands⟩
    exact ⟨n, s, q, by rw [Nat.zero_add], hs, 8, rfl, hstands⟩

theorem foldl_insert (ts : List Text) :
    ts.foldl insert [] = ((ts.map trim).filter (!·.isEmpty)).eraseDups := by
  induction ts using List.reverseRecOn with
  | nil => rfl
  | append_singleton ts t ih =>
    rw [List.foldl_append, ih, List.map_append, List.filter_append, List.foldl_cons, List.foldl_nil,
      insert]
    by_cases hblank : (trim t).isEmpty = true
    · simp [hblank]
    · have hmem : ((ts.map trim).filter (!·.isEmpty)).eraseDups.contains (trim t) =
          ((ts.map trim).filter (!·.isEmpty)).contains (trim t) := by
        rw [Bool.eq_iff_iff, List.contains_iff_mem, List.contains_iff_mem, List.mem_eraseDups]
      have hone : ([t].map trim).filter (!·.isEmpty) = [trim t] :=
        List.filter_cons_of_pos (by simpa using hblank)
      rw [hone, eraseDups_concat, hmem, eq_false_of_ne_true hblank, Bool.false_or]

theorem exists_filter_eq_itemsToScan (items : List Item) (postTypes : List Text) :
    ∃ keep : Item → Bool, Scanner.itemsToScan items postTypes = items.filter keep ∧
      ∀ i, keep i = true ↔ Scanner.Qualifies postTypes i := by
  refine ⟨_, rfl, fun i => ?_⟩
  have hone : i ∈ Scanner.itemsToScan [i] postTypes ↔ Scanner.Qualifies postTypes i := by
    rw [Scanner.mem_itemsToScan]
    exact and_iff_right (List.mem_singleton_self i)
  rw [← hone, Scanner.itemsToScan, PostType.select, List.mem_filter]
  exact (and_iff_right (List.mem_singleton_self i)).symm

/-- A scan finds the references in the order of their positions. -/
theorem enumerates_scan (items : List Item) (postTypes : List Text) :
    Enumerates (StandsIn items postTypes)
      ((((Scanner.itemsToScan items postTypes).flatMap ofItem).map trim).filter (!·.isEmpty)) := by
  obtain ⟨keep, hitems, hkeep⟩ := exists_filter_eq_itemsToScan items postTypes
  have hitem : ∀ i ∈ items, Enumerates (fun p t => Scanner.Qualifies postTypes i ∧
      ∃ n s q, p = n :: q ∧ (settingsOf i)[n]? = some s ∧ Stands 8 s q t)
      ((if keep i then ofItem i else []).map trim) := by
    intro i _
    split_ifs with hi
    · refine (enumerates_ofItem i).congr fun p t => ?_
      exact (and_iff_right ((hkeep i).mp hi)).symm
    · exact .nil fun p t h => hi ((hkeep i).mpr h.1)
  have hfound : (Scanner.itemsToScan items postTypes).flatMap ofItem =
      items.flatMap fun i => if keep i then ofItem i else [] := by
    rw [hitems]
    clear hitems hitem
    induction items with
    | nil => rfl
    | cons i items ih => cases hi : keep i <;> simp [hi, ih]
  rw [hfound, List.map_flatMap]
  refine ((Enumerates.flatMap hitem 0).filter _).congr fun p t => ?_
  constructor
  · rintro ⟨⟨m, i, _, rfl, hi, hqualifies, n, s, q, rfl, hs, hstands⟩, hne⟩
    refine ⟨by simpa using hne, m, i, n, s, q, ?_, hi, hqualifies, hs, hstands⟩
    rw [Nat.zero_add]
  · rintro ⟨hne, m, i, n, s, q, rfl, hi, hqualifies, hs, hstands⟩
    refine ⟨⟨m, i, n :: q, ?_, hi, hqualifies, n, s, q, rfl, hs, hstands⟩, by simpa using hne⟩
    rw [Nat.zero_add]

/-- A scan collects every reference that stands in an item that qualifies, at most eight steps into
containers deep, no other text, and none twice. One text is collected before another if it stands at
some position before all those of the other. -/
theorem scan_collects (scanner : Scanner) (items : List Item) (postTypes : List Text) :
    let index := (scanner.scan items postTypes).1
    index.Nodup ∧ (∀ t, t ∈ index ↔ ∃ p, StandsIn items postTypes p t) ∧
      index.Pairwise fun t u => ∃ p, StandsIn items postTypes p t ∧
        ∀ q, StandsIn items postTypes q u → p < q := by
  have hfound := enumerates_scan items postTypes
  have hindex : (scanner.scan items postTypes).1 =
      ((((Scanner.itemsToScan items postTypes).flatMap ofItem).map trim).filter
        (!·.isEmpty)).eraseDups := foldl_insert _
  dsimp only
  rw [hindex]
  refine ⟨?_, fun t => ?_, hfound.pairwise_eraseDups⟩
  · refine hfound.pairwise_eraseDups.imp ?_
    rintro t _ ⟨p, hp, hlt⟩ rfl
    exact List.lt_irrefl p (hlt p hp)
  · rw [List.mem_eraseDups]
    exact hfound.mem_iff

def referring : Item where
  id := "1"
  postType := "page"
  elements := [⟨"a", "div", [("_cssGlobalClasses", .list [.scalar "x1", .none, .scalar " x2 "]),
    ("_cssClasses", .scalar "hero  wide"), ("items", .list [.map [("_cssClasses", .scalar "x1 deep")]])]⟩]
  wrapper := .map [("_cssClasses", .list [.scalar "outer hero"])]
  page := .none

example : (({} : Scanner).scan [referring] []).1 = ["x1", "x2", "hero", "wide", "deep", "outer"] := by
  decide +kernel

end Reference

end Restyle
