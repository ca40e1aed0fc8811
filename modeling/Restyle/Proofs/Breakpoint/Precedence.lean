import Restyle.Proofs.Breakpoint.Table

/-! # Which override counts

Of the usable overrides for one breakpoint the last one counts. Breakpoints of
equal width come in the order in which their keys were first mentioned, the
builtin ones in front. A resolver answers as if it had just been made from the
overrides that were set last.
-/

namespace Restyle

namespace Override

variable {j : Json} {o : Override}

/-- An object with a width, and with a key of which something is left once it is clean. -/
structure Usable (j : Json) (o : Override) : Prop where
  object : ∃ fields, j = .object fields
  key : ∃ k, j.get? "key" = some k ∧ keyOf k = o.key
  key_ne_nil : o.key ≠ []
  width : ∃ w, j.get? "width" = some w ∧ widthOf? w = some o.width
  base : o.base = ((j.get? "base").map flagOf).getD false

theorem exists_object {name : Text} {value : Json} (h : j.get? name = some value) :
    ∃ fields, j = .object fields := by
  cases j with
  | object fields => exact ⟨fields, rfl⟩
  | _ => exact absurd h (by simp [Json.get?])

theorem ofJson?_eq_some_iff : ofJson? j = some o ↔ Usable j o := by
  constructor
  · intro h
    simp only [ofJson?] at h
    split at h
    · exact absurd h (by simp)
    · next width hw =>
      split_ifs at h with hkey
      obtain rfl := Option.some.inj h
      obtain ⟨w, hwidth, hw⟩ := Option.bind_eq_some_iff.mp hw
      have hne : ((j.get? "key").map keyOf).getD [] ≠ [] := by simpa using hkey
      refine ⟨exists_object hwidth, ?_, hne, ⟨w, hwidth, hw⟩, rfl⟩
      cases hk : j.get? "key" with
      | none => exact absurd (by rw [hk]; rfl) hne
      | some k => exact ⟨k, rfl, rfl⟩
  · rintro ⟨-, ⟨k, hk, hkey⟩, hne, ⟨w, hw, hwidth⟩, hbase⟩
    simp only [ofJson?, hk, hw, hkey, hwidth, hne, Option.map_some, Option.getD_some,
      Option.bind_some, List.isEmpty_iff, if_false, ← hbase]

theorem widthOfReal?_le {x : Binary64} {width : Nat} (h : widthOfReal? x = some width) :
    width ≤ Breakpoint.maxWidth := by
  cases x with
  | finite negative m e =>
    simp only [widthOfReal?] at h
    split_ifs at h
    obtain rfl := Option.some.inj h
    exact Nat.min_le_right _ _
  | infinite negative =>
    simp only [widthOfReal?] at h
    split_ifs at h
    exact (Option.some.inj h).ge
  | nan => exact (Option.some.inj h).ge

theorem widthOf?_le {j : Json} {width : Nat} (h : widthOf? j = some width) :
    width ≤ Breakpoint.maxWidth := by
  unfold widthOf? at h
  split at h
  · split_ifs at h
    obtain rfl := Option.some.inj h
    exact Nat.min_le_right _ _
  · exact widthOfReal?_le h
  · obtain ⟨x, -, hx⟩ := Option.bind_eq_some_iff.mp h
    exact widthOfReal?_le hx
  · exact absurd h (by simp)

abbrev usable (entries : List Json) : List Override :=
  entries.filterMap ofJson?

def movesDesktop (o : Override) : Bool :=
  o.key = Breakpoint.desktop || o.base

def isFor (k : Text) (o : Override) : Bool :=
  !o.movesDesktop && o.key = k

def last? (p : Override → Bool) (os : List Override) : Option Override :=
  (os.filter p).getLast?

theorem last?_concat (p : Override → Bool) (os : List Override) (o : Override) :
    last? p (os ++ [o]) = if p o then some o else last? p os := by
  unfold last?
  rw [List.filter_append]
  cases h : p o with
  | true => simp [h]
  | false => simp [h]

end Override

namespace Breakpoint

open Override

variable {os : List Override} {o : Override} {b c : Breakpoint} {bs : List Breakpoint} {k : Text}

def mentioned (os : List Override) : List Text :=
  builtin.keys ++ (os.filter (!·.movesDesktop)).map (·.key)

/-- The lower bound of the desktop, one pixel above the width of the last override about it. -/
def desktopWidth (os : List Override) : Nat :=
  ((last? movesDesktop os).map fun o => min (o.width + 1) maxWidth).getD 1200

/-- What a table of breakpoints is like under some usable overrides. -/
structure TableOf (os : List Override) (t : Table Breakpoint) : Prop where
  head : ∃ d rest, t = (desktop, d) :: rest ∧ d.side = .least ∧ ∀ e ∈ rest, e.2.side = .most
  order : t.tail.Pairwise fun e f => f.2.width < e.2.width ∨
    f.2.width = e.2.width ∧ (mentioned os).idxOf e.1 < (mentioned os).idxOf f.1
  nodup_keys : t.keys.Nodup
  sound : ∀ e ∈ t, Sound e
  width_le : ∀ e ∈ t, e.2.width ≤ maxWidth
  builtin_keys : ∀ k ∈ builtin.keys, k ∈ t.keys
  width_desktop : (t.get? desktop).map (·.width) = some (desktopWidth os)
  width_other : ∀ k ≠ desktop, (t.get? k).map (·.width) =
    ((last? (isFor k) os).map (·.width)).or ((builtin.get? k).map (·.width))

def under (os : List Override) : Table Breakpoint :=
  os.foldl override builtin

theorem under_concat (os : List Override) (o : Override) :
    under (os ++ [o]) = override (under os) o := by
  simp [under]

theorem override_eq (t : Table Breakpoint) (o : Override) :
    override t o = if o.movesDesktop then t.set desktop ⟨desktop, .least, min (o.width + 1) maxWidth⟩
      else t.set o.key ⟨o.key, .most, o.width⟩ := by
  simp [override, movesDesktop]

theorem isFor_eq_false (h : o.movesDesktop = true) (k : Text) : o.isFor k = false := by
  simp [isFor, h]

theorem isFor_iff (h : o.movesDesktop = false) : o.isFor k = true ↔ o.key = k := by
  simp [isFor, h]

theorem get?_under_desktop (os : List Override) :
    (under os).get? desktop = some ⟨desktop, .least, desktopWidth os⟩ := by
  induction os using List.reverseRecOn with
  | nil => rfl
  | append_singleton os o ih =>
    rw [under_concat, override_eq, desktopWidth, last?_concat]
    cases h : o.movesDesktop with
    | true => exact Table.get?_set_self _ _ _
    | false =>
      have hne : desktop ≠ o.key := by
        rintro he
        simp [movesDesktop, he] at h
      simp only [Bool.false_eq_true, if_false]
      rw [Table.get?_set_of_ne hne, ih, desktopWidth]

/-- Any other breakpoint has its width from the last override for it. -/
theorem get?_under (hk : k ≠ desktop) (os : List Override) :
    (under os).get? k =
      ((last? (isFor k) os).map fun o => ⟨k, .most, o.width⟩).or (builtin.get? k) := by
  induction os using List.reverseRecOn with
  | nil => rfl
  | append_singleton os o ih =>
    rw [under_concat, override_eq, last?_concat]
    cases h : o.movesDesktop with
    | true =>
      simp only [if_true, isFor_eq_false h, Bool.false_eq_true, if_false]
      rw [Table.get?_set_of_ne hk, ih]
    | false =>
      simp only [Bool.false_eq_true, if_false, isFor_iff h]
      rw [Table.get?_set]
      by_cases he : o.key = k
      · subst he
        simp
      · rw [if_neg (Ne.symm he), if_neg he, ih]

theorem mentioned_concat (os : List Override) (o : Override) :
    mentioned (os ++ [o]) = mentioned os ++ if o.movesDesktop then [] else [o.key] := by
  unfold mentioned
  rw [List.filter_append, List.map_append, ← List.append_assoc]
  cases h : o.movesDesktop with
  | true => simp [h]
  | false => simp [h]

theorem desktop_mem_mentioned (os : List Override) : desktop ∈ mentioned os :=
  List.mem_append_left _ (by decide)

theorem keys_under (os : List Override) :
    (∀ k, k ∈ (under os).keys ↔ k ∈ mentioned os) ∧
      (under os).keys.Pairwise fun k l => (mentioned os).idxOf k < (mentioned os).idxOf l := by
  induction os using List.reverseRecOn with
  | nil =>
    constructor
    · intro k
      exact (List.append_nil builtin.keys ▸ Iff.rfl)
    · decide
  | append_singleton os o ih =>
    obtain ⟨hmem, hord⟩ := ih
    have hlater : ∀ ks, (under os).keys.Pairwise fun k l =>
        (mentioned os ++ ks).idxOf k < (mentioned os ++ ks).idxOf l := by
      intro ks
      refine hord.imp_of_mem fun hk hl hlt => ?_
      rwa [List.idxOf_append_of_mem ((hmem _).mp hk), List.idxOf_append_of_mem ((hmem _).mp hl)]
    rw [under_concat, override_eq, mentioned_concat]
    cases h : o.movesDesktop with
    | true =>
      have hdesktop := (hmem desktop).mpr (desktop_mem_mentioned os)
      simp only [if_true, Table.keys_set, hdesktop, List.append_nil]
      exact ⟨hmem, hord⟩
    | false =>
      simp only [Bool.false_eq_true, if_false, Table.keys_set]
      by_cases hkey : o.key ∈ (under os).keys
      · rw [if_pos hkey]
        constructor
        · intro k
          rw [List.mem_append, List.mem_singleton, hmem]
          constructor
          · exact Or.inl
          · rintro (hk | rfl)
            · exact hk
            · exact (hmem _).mp hkey
        · exact hlater _
      · rw [if_neg hkey]
        constructor
        · intro k
          rw [List.mem_append, List.mem_append, hmem]
        · refine List.pairwise_append.mpr ⟨hlater _, List.pairwise_singleton _ _, ?_⟩
          intro k hk l hl
          obtain rfl := List.mem_singleton.mp hl
          have hnot : o.key ∉ mentioned os := fun hm => hkey ((hmem _).mpr hm)
          rw [List.idxOf_append_of_mem ((hmem k).mp hk), List.idxOf_append_of_notMem hnot]
          have hlt := List.idxOf_lt_length_of_mem ((hmem k).mp hk)
          omega

theorem width_le_under (hos : ∀ o ∈ os, o.width ≤ maxWidth) :
    ∀ e ∈ under os, e.2.width ≤ maxWidth := by
  induction os using List.reverseRecOn with
  | nil => decide
  | append_singleton os o ih =>
    have ho := hos o (by simp)
    have ih := ih fun o ho => hos o (List.mem_append_left _ ho)
    intro e he
    rw [under_concat, override_eq] at he
    split_ifs at he
    · rcases Table.mem_set he with rfl | he
      · exact Nat.min_le_right _ _
      · exact ih e he
    · rcases Table.mem_set he with rfl | he
      · exact ho
      · exact ih e he

theorem side_under (os : List Override) :
    ∀ e ∈ under os, e.1 ≠ desktop → e.2.side = .most := by
  induction os using List.reverseRecOn with
  | nil => decide
  | append_singleton os o ih =>
    intro e he hne
    rw [under_concat, override_eq] at he
    split_ifs at he
    · rcases Table.mem_set he with rfl | he
      · exact absurd rfl hne
      · exact ih e he hne
    · rcases Table.mem_set he with rfl | he
      · rfl
      · exact ih e he hne

variable {R : Breakpoint → Breakpoint → Prop}

theorem pairwise_insertByWidth (hb : ∀ c ∈ bs, R b c)
    (h : bs.Pairwise fun b c => c.width < b.width ∨ c.width = b.width ∧ R b c) :
    (insertByWidth b bs).Pairwise fun b c => c.width < b.width ∨ c.width = b.width ∧ R b c := by
  induction bs with
  | nil => exact List.pairwise_singleton _ _
  | cons c bs ih =>
    obtain ⟨hc, hbs⟩ := List.pairwise_cons.mp h
    rw [insertByWidth]
    split_ifs with hle
    · refine List.pairwise_cons.mpr ⟨?_, h⟩
      intro d hd
      have hR := hb d hd
      rcases List.mem_cons.mp hd with rfl | hd
      · rcases Nat.lt_or_eq_of_le hle with hlt | heq
        · exact Or.inl hlt
        · exact Or.inr ⟨heq, hR⟩
      · have hdc : d.width ≤ c.width := by
          rcases hc d hd with hlt | ⟨heq, -⟩ <;> omega
        rcases Nat.lt_or_eq_of_le (hdc.trans hle) with hlt | heq
        · exact Or.inl hlt
        · exact Or.inr ⟨heq, hR⟩
    · refine List.pairwise_cons.mpr ⟨?_, ih (fun d hd => hb d (List.mem_cons_of_mem c hd)) hbs⟩
      intro d hd
      rcases List.mem_cons.mp ((insertByWidth_perm b bs).mem_iff.mp hd) with rfl | hd
      · exact Or.inl (by omega)
      · exact hc d hd

theorem pairwise_sortByWidth (h : bs.Pairwise R) :
    (sortByWidth bs).Pairwise fun b c => c.width < b.width ∨ c.width = b.width ∧ R b c := by
  induction bs with
  | nil => exact .nil
  | cons b bs ih =>
    obtain ⟨hb, hbs⟩ := List.pairwise_cons.mp h
    apply pairwise_insertByWidth
    · intro c hc
      exact hb c ((sortByWidth_perm bs).mem_iff.mp hc)
    · exact ih hbs

theorem overridden_eq (entries : List Json) : overridden entries = under (usable entries) := rfl

theorem table_eq (entries : List Json) : table entries =
    (desktop, ⟨desktop, .least, desktopWidth (usable entries)⟩) ::
      (sortByWidth ((under (usable entries)).erase desktop).values).map fun b => (b.key, b) := by
  have hd := get?_under_desktop (usable entries)
  unfold table
  dsimp only
  rw [← under, hd]
  rfl

theorem mem_erase_values (h : b ∈ ((under os).erase desktop).values) :
    ∃ e ∈ under os, e.1 ≠ desktop ∧ e.2 = b := by
  obtain ⟨e, he, rfl⟩ := List.mem_map.mp h
  obtain ⟨he, hne⟩ := List.mem_filter.mp he
  exact ⟨e, he, by simpa using hne, rfl⟩

/-- In the table the keys of equally wide breakpoints are in the order in which they came. -/
theorem order_table (entries : List Json) :
    (table entries).tail.Pairwise fun e f => f.2.width < e.2.width ∨ f.2.width = e.2.width ∧
      (mentioned (usable entries)).idxOf e.1 < (mentioned (usable entries)).idxOf f.1 := by
  have hsound : ∀ e ∈ (under (usable entries)).erase desktop, e.2.key = e.1 := by
    intro e he
    exact (sound_overridden entries e (List.mem_filter.mp he).1).key
  rw [table_eq, List.tail_cons, List.pairwise_map]
  apply pairwise_sortByWidth (R := fun b c =>
    (mentioned (usable entries)).idxOf b.key < (mentioned (usable entries)).idxOf c.key)
  have hkeys := (keys_under (usable entries)).2
  rw [Table.keys, List.pairwise_map] at hkeys
  rw [Table.values, List.pairwise_map]
  refine (hkeys.filter _).imp_of_mem fun he hf hlt => ?_
  rwa [hsound _ he, hsound _ hf]

theorem get?_table (entries : List Json) (k : Text) :
    (table entries).get? k = (under (usable entries)).get? k := by
  rw [← overridden_eq]
  have hperm := table_perm entries
  cases h : (overridden entries).get? k with
  | some b =>
    have hmem := hperm.mem_iff.mpr (Table.mem_of_get? h)
    exact Table.get?_of_mem (nodup_keys_table entries) hmem
  | none =>
    refine Table.get?_eq_none fun hk => ?_
    obtain ⟨e, he, rfl⟩ := List.mem_map.mp hk
    have hget := Table.get?_of_mem (nodup_keys_overridden entries) (hperm.mem_iff.mp he)
    exact absurd (hget.symm.trans h) (by simp)

theorem tableOf_table (entries : List Json) : TableOf (usable entries) (table entries) where
  head := by
    refine ⟨_, _, table_eq entries, rfl, ?_⟩
    intro e he
    obtain ⟨b, hb, rfl⟩ := List.mem_map.mp he
    obtain ⟨e, hmem, hne, rfl⟩ := mem_erase_values ((sortByWidth_perm _).mem_iff.mp hb)
    exact side_under _ e hmem hne
  order := order_table entries
  nodup_keys := nodup_keys_table entries
  sound := sound_table entries
  width_le := by
    intro e he
    refine width_le_under ?_ e ((table_perm entries).mem_iff.mp he)
    intro o ho
    obtain ⟨j, -, hj⟩ := List.mem_filterMap.mp ho
    obtain ⟨w, -, hw⟩ := (ofJson?_eq_some_iff.mp hj).width
    exact widthOf?_le hw
  builtin_keys := by
    intro k hk
    have hmem := ((keys_under (usable entries)).1 k).mpr (List.mem_append_left _ hk)
    exact (((table_perm entries).map Prod.fst).mem_iff).mpr hmem
  width_desktop := by
    rw [get?_table, get?_under_desktop]
    rfl
  width_other := by
    intro k hk
    rw [get?_table, get?_under hk]
    cases last? (isFor k) (usable entries) <;> rfl

end Breakpoint

namespace Resolver

def Step.sets? : Step → Option (List Json)
  | .setOverrides overrides => some overrides
  | _ => none

/-- The overrides that some steps leave, of which the first ones were there before. -/
def lastSet (overrides : List Json) (sts : List Step) : List Json :=
  (sts.filterMap Step.sets?).getLast?.getD overrides

theorem run_concat (r : Resolver) (sts : List Step) (st : Step) :
    r.run (sts ++ [st]) = ((r.run sts).step st).2 := by
  simp [run]

theorem overrides_step (r : Resolver) (st : Step) :
    (r.step st).2.overrides = st.sets?.getD r.overrides := by
  cases st <;> rfl

theorem overrides_run (overrides : List Json) (sts : List Step) :
    ((ofOverrides overrides).run sts).overrides = lastSet overrides sts := by
  induction sts using List.reverseRecOn with
  | nil => rfl
  | append_singleton sts st ih =>
    rw [run_concat, overrides_step, ih, lastSet, lastSet, List.filterMap_append]
    cases h : st.sets? with
    | none => simp [h]
    | some os => simp [h]

/-- A resolver answers from its table alone. -/
theorem answer_congr {r r' : Resolver} (h : r.breakpoints = r'.breakpoints) (st : Step) :
    (r.step st).1 = (r'.step st).1 := by
  cases st with
  | setOverrides overrides => rfl
  | forget => rfl
  | breakpoints => simp only [step, h]
  | queries range => simp only [step, queries, h]
  | query key => simp only [step, query?, h]
  | isBreakpoint key => simp only [step, isBreakpoint, h]
  | keysIn settings => simp only [step, keysIn, h]

/-- After any steps a resolver answers like one that was just made from the overrides last set, and
these determine the breakpoints that it knows. -/
theorem answer_run (overrides : List Json) (sts : List Step) (st : Step) :
    (((ofOverrides overrides).run sts).step st).1 =
        ((ofOverrides (lastSet overrides sts)).step st).1 ∧
      Breakpoint.TableOf (Override.usable (lastSet overrides sts))
        ((ofOverrides overrides).run sts).breakpoints ∧
      ∀ j o, Override.ofJson? j = some o ↔ Override.Usable j o := by
  have hknown : ((ofOverrides overrides).run sts).breakpoints =
      Breakpoint.table (lastSet overrides sts) := by
    rw [(coherent_run overrides sts).breakpoints_eq, overrides_run]
  refine ⟨?_, ?_, fun j o => Override.ofJson?_eq_some_iff⟩
  · apply answer_congr
    exact hknown.trans (coherent_ofOverrides _).breakpoints_eq.symm
  · rw [hknown]
    exact Breakpoint.tableOf_table _

end Resolver

end Restyle
