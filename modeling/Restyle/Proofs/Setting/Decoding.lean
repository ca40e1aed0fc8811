import Mathlib.Logic.Relation
import Restyle.Json.Printer
import Restyle.Proofs.Json.Denotation
import Restyle.Proofs.Json.Reader
import Restyle.Proofs.Table
import Restyle.Proofs.Text.Blank
import Restyle.Setting

/-! # Settings in disguise

A setting is the same whether its arrays and objects stand as they are or as
texts that hold them, at any depth and through any number of levels. What
decoding yields is in normal form: none of its scalars can be read further, and
written as JSON it is decoded to itself.
-/

namespace Restyle

open Text

namespace Text

theorem dropEndWhile_subset (p : Char → Bool) (t : Text) : dropEndWhile p t ⊆ t := by
  intro c hc
  exact List.mem_reverse.mp ((List.dropWhile_sublist p).subset (List.mem_reverse.mp hc))

end Text

namespace Number

def Unbracketed (t : Text) : Prop :=
  ∀ c ∈ t, Setting.opensContainer [c] = false

variable {t u : Text}

theorem Unbracketed.append (ht : Unbracketed t) (hu : Unbracketed u) : Unbracketed (t ++ u) :=
  fun c hc => (List.mem_append.mp hc).elim (ht c) (hu c)

theorem Unbracketed.subset (ht : Unbracketed t) (h : u ⊆ t) : Unbracketed u :=
  fun c hc => ht c (h hc)

instance (t : Text) : Decidable (Unbracketed t) :=
  decidable_of_iff ((t.all fun c => !Setting.opensContainer [c]) = true) (by simp [Unbracketed])

theorem unbracketed_ofNat (n : Nat) : Unbracketed (Text.ofNat n) := by
  intro c hc
  have hdigit := Text.isDigit_of_mem_ofNat hc
  have hne : ∀ d, d.isDigit = false → c ≠ d := by
    rintro d hd rfl
    exact Bool.false_ne_true (hd.symm.trans hdigit)
  simp [Setting.opensContainer, hne '[' (by decide), hne '\x7b' (by decide)]

theorem unbracketed_zeros (n : Nat) : Unbracketed (List.replicate n '0') := by
  intro c hc
  rw [List.eq_of_mem_replicate hc]
  rfl

theorem unbracketed_layout (ht : Unbracketed t) (power : Int) :
    Unbracketed (Binary64.layout t power) := by
  have htake := fun n => ht.subset (List.take_subset n t)
  have hdrop := fun n => ht.subset (List.drop_subset n t)
  have hfraction : Unbracketed (if t.length = 1 then [] else '.' :: t.drop 1) := by
    split_ifs
    · decide
    · exact .append (t := ['.']) (by decide) (hdrop 1)
  have hsign : ∀ p : Prop, [Decidable p] → Unbracketed (if p then ("-" : Text) else "+") := by
    intro p _
    split_ifs <;> decide
  rw [Binary64.layout]
  dsimp only
  split
  · exact (ht.append (unbracketed_zeros _)).append (by decide)
  · split
    · exact ((htake _).append (by decide)).append (hdrop _)
    · split
      · exact (Unbracketed.append (by decide) (unbracketed_zeros _)).append ht
      · exact ((((htake 1).append hfraction).append (by decide)).append (hsign _)).append
          (unbracketed_ofNat _)

theorem unbracketed_real (x : Binary64) : Unbracketed x.toText := by
  cases x with
  | nan => decide
  | infinite negative => cases negative <;> decide
  | finite negative m e =>
    have hsign : Unbracketed (if negative then ("-" : Text) else "") := by
      cases negative <;> decide
    rw [Binary64.toText]
    dsimp only
    split
    · exact hsign.append (by decide)
    · have hdigits := unbracketed_ofNat (Binary64.shortestDigits m e).1
      exact hsign.append (unbracketed_layout (hdigits.subset (dropEndWhile_subset _ _)) _)

theorem unbracketed_toText (n : Number) : Unbracketed n.toText := by
  cases n with
  | real x => exact unbracketed_real x
  | integer n =>
    cases n with
    | ofNat n => exact unbracketed_ofNat n
    | negSucc n => exact .append (t := ['-']) (by decide) (unbracketed_ofNat (n + 1))

end Number

namespace Setting

variable {t : Text} {j : Json} {f g : Text → Setting}

mutual

theorem decodeWith_congr : ∀ {j : Json}, (∀ t ∈ j.texts, f t = g t) →
    decodeWith f j = decodeWith g j
  | .null, _ => rfl
  | .bool _, _ => rfl
  | .number _, _ => rfl
  | .string t, h => h t (List.mem_singleton.mpr rfl)
  | .array _, h => congrArg list (decodeItems_congr h)
  | .object _, h => congrArg (map ∘ Table.ofList) (decodeEntries_congr h)

theorem decodeItems_congr : ∀ {items : List Json}, (∀ t ∈ Json.itemTexts items, f t = g t) →
    decodeItems f items = decodeItems g items
  | [], _ => rfl
  | j :: items, h => by
    have hj := decodeWith_congr fun t ht => h t (List.mem_append_left (Json.itemTexts items) ht)
    have hitems := decodeItems_congr fun t ht => h t (List.mem_append_right j.texts ht)
    rw [decodeItems, decodeItems, hj, hitems]

theorem decodeEntries_congr : ∀ {entries : List (Text × Json)},
    (∀ t ∈ Json.entryTexts entries, f t = g t) → decodeEntries f entries = decodeEntries g entries
  | [], _ => rfl
  | (k, j) :: entries, h => by
    have hj := decodeWith_congr fun t ht => h t (List.mem_append_left (Json.entryTexts entries) ht)
    have hentries := decodeEntries_congr fun t ht => h t (List.mem_append_right j.texts ht)
    rw [decodeEntries, decodeEntries, hj, hentries]

end

theorem length_trimStart_le (t : Text) : t.trimStart.length ≤ t.length :=
  (List.dropWhile_sublist isBlank).length_le

/-- With one level more than a text has characters inside, it is decoded as what it denotes. -/
theorem ofTextWithin_succ {n : Nat} (h : ∀ s, s.length < t.length → ofTextWithin n s = f s) :
    ofTextWithin (n + 1) t =
      if opensContainer t.trimStart then
        ((Json.ofText? t.trimStart).map (decodeWith f)).getD (scalar t)
      else scalar t := by
  rw [ofTextWithin]
  refine if_congr Iff.rfl ?_ rfl
  cases hj : Json.ofText? t.trimStart with
  | none => rfl
  | some j =>
    refine decodeWith_congr fun s hs => h s ?_
    exact Nat.lt_of_lt_of_le (Json.length_lt_of_ofText? hj hs) (length_trimStart_le t)

/-- As many levels as a text has characters are enough for it. -/
theorem ofTextWithin_congr {n m : Nat} (hn : t.length ≤ n) (hm : t.length ≤ m) :
    ofTextWithin n t = ofTextWithin m t := by
  induction n generalizing m t with
  | zero =>
    obtain rfl := List.length_eq_zero_iff.mp (Nat.le_zero.mp hn)
    cases m <;> rfl
  | succ n ih =>
    cases m with
    | zero =>
      obtain rfl := List.length_eq_zero_iff.mp (Nat.le_zero.mp hm)
      rfl
    | succ m =>
      rw [ofTextWithin_succ (f := ofTextWithin m) fun s hs => ih (by omega) (by omega),
        ofTextWithin_succ fun _ _ => rfl]

theorem ofText_eq (t : Text) : ofText t =
    if opensContainer t.trimStart then ((Json.ofText? t.trimStart).map ofJson).getD (scalar t)
    else scalar t := by
  rcases t with _ | ⟨c, t⟩
  · rfl
  · exact ofTextWithin_succ fun s hs => ofTextWithin_congr (Nat.le_of_lt_succ hs) (Nat.le_refl _)

theorem ofText_of_unbracketed (h : Number.Unbracketed t) : ofText t = scalar t := by
  rw [ofText_eq, if_neg]
  rcases ht : t.trimStart with _ | ⟨c, u⟩
  · exact Bool.false_ne_true
  · have hc : c ∈ t := by
      have hmem : c ∈ t.trimStart := ht ▸ List.mem_cons_self
      exact (List.dropWhile_sublist isBlank).subset hmem
    have hopens : opensContainer (c :: u) = opensContainer [c] := rfl
    rw [hopens, h c hc]
    exact Bool.false_ne_true

theorem ofText_of_ofText? (h : Json.ofText? t = some j) (hj : j.isContainer = true) :
    ofText t = ofJson j := by
  obtain ⟨w, c, u, rfl, hw, hc⟩ := Json.exists_bracket_of_ofText? h hj
  have hblank : Blank w := by
    intro a ha
    have hspace := hw a ha
    simp only [Json.Token.isSpace, Bool.or_eq_true, beq_iff_eq] at hspace
    rcases hspace with ((rfl | rfl) | rfl) | rfl <;> decide
  have hvisible : isBlank c = false := by
    rcases hc with rfl | rfl <;> decide
  have hstart : trimStart (w ++ c :: u) = c :: u := by
    rw [trimStart_append hblank, trimStart_cons_of_not_blank hvisible]
  have hopens : opensContainer (c :: u) = true := by
    rcases hc with rfl | rfl <;> rfl
  rw [Json.ofText?_space_append hw] at h
  rw [ofText_eq, hstart, if_pos hopens, h]
  rfl

/-- A text that holds a value: as one of the two printers writes it, with integers of 64 bits and
no deeper than it can be read, or in any other way that is read as the value. -/
def HoldsJson (t : Text) (j : Json) : Prop :=
  j.Exact Json.Outline.depthLimit ∧ (t = j.compact ∨ t = j.wide 0) ∨ Json.ofText? t = some j

theorem HoldsJson.ofText?_eq (h : HoldsJson t j) : Json.ofText? t = some j := by
  rcases h with ⟨hj, rfl | rfl⟩ | h
  · exact Json.ofText?_of_spells (Json.spells_compact hj) hj
  · exact Json.ofText?_of_spells (Json.spells_wide 0 hj) hj
  · exact h

/-- One array or object somewhere in a value is replaced by a text that holds it. -/
inductive Encodes : Json → Json → Prop where
  | text {j : Json} {t : Text} (hj : j.isContainer = true) (ht : HoldsJson t j) :
      Encodes j (.string t)
  | item {j j' : Json} (before after : List Json) (h : Encodes j j') :
      Encodes (.array (before ++ j :: after)) (.array (before ++ j' :: after))
  | entry {j j' : Json} (before after : List (Text × Json)) (key : Text) (h : Encodes j j') :
      Encodes (.object (before ++ (key, j) :: after)) (.object (before ++ (key, j') :: after))

theorem decodeItems_eq_map (items : List Json) :
    decodeItems f items = items.map (decodeWith f) := by
  induction items with
  | nil => rfl
  | cons j items ih => rw [decodeItems, ih, List.map_cons]

theorem decodeEntries_eq_map (entries : List (Text × Json)) :
    decodeEntries f entries = entries.map fun e => (e.1, decodeWith f e.2) := by
  induction entries with
  | nil => rfl
  | cons e entries ih => rw [decodeEntries, ih, List.map_cons]

/-- Encoding one part does not change what is decoded. -/
theorem Encodes.ofJson_eq {j' : Json} (h : Encodes j j') : ofJson j' = ofJson j := by
  induction h with
  | text hj ht => exact ofText_of_ofText? ht.ofText?_eq hj
  | @item j j' before after h ih =>
    have hj : decodeWith ofText j' = decodeWith ofText j := ih
    simp only [ofJson, decodeWith, decodeItems_eq_map, List.map_append, List.map_cons, hj]
  | @entry j j' before after key h ih =>
    have hj : decodeWith ofText j' = decodeWith ofText j := ih
    simp only [ofJson, decodeWith, decodeEntries_eq_map, List.map_append, List.map_cons, hj]

/-- Nor does encoding any parts of what encoding has made, again and again. -/
theorem ofJson_eq_of_encodes {j' : Json} (h : Relation.ReflTransGen Encodes j j') :
    ofJson j' = ofJson j := by
  induction h with
  | refl => rfl
  | tail _ hstep ih => exact hstep.ofJson_eq.trans ih

mutual

/-- No scalar is a text that would be decoded further, and no map has a key twice. -/
def Normal : Setting → Prop
  | scalar t => ofText t = scalar t
  | list items => NormalItems items
  | map entries => (Table.keys entries).Nodup ∧ NormalEntries entries
  | none => True

def NormalItems : List Setting → Prop
  | [] => True
  | s :: items => s.Normal ∧ NormalItems items

def NormalEntries : List (Text × Setting) → Prop
  | [] => True
  | (_, s) :: entries => s.Normal ∧ NormalEntries entries

end

mutual

/-- A setting written as JSON: scalars as texts, nothing as `null`. -/
def toJson : Setting → Json
  | scalar t => .string t
  | list items => .array (itemsToJson items)
  | map entries => .object (entriesToJson entries)
  | none => .null

def itemsToJson : List Setting → List Json
  | [] => []
  | s :: items => s.toJson :: itemsToJson items

def entriesToJson : List (Text × Setting) → List (Text × Json)
  | [] => []
  | (k, s) :: entries => (k, s.toJson) :: entriesToJson entries

end

mutual

theorem Normal.ofJson_toJson : ∀ {s : Setting}, s.Normal → ofJson s.toJson = s
  | scalar _, h => h
  | none, _ => rfl
  | list _, h => congrArg list (NormalItems.decodeItems_toJson h)
  | map _, h => by
    have hentries := NormalEntries.decodeEntries_toJson h.2
    rw [toJson, ofJson, decodeWith, hentries, Table.ofList_eq_self h.1]

theorem NormalItems.decodeItems_toJson : ∀ {items : List Setting}, NormalItems items →
    decodeItems ofText (itemsToJson items) = items
  | [], _ => rfl
  | _ :: _, h =>
    congrArg₂ List.cons h.1.ofJson_toJson (NormalItems.decodeItems_toJson h.2)

theorem NormalEntries.decodeEntries_toJson : ∀ {entries : List (Text × Setting)},
    NormalEntries entries → decodeEntries ofText (entriesToJson entries) = entries
  | [], _ => rfl
  | (k, _) :: _, h =>
    congrArg₂ (fun s entries => (k, s) :: entries) h.1.ofJson_toJson
      (NormalEntries.decodeEntries_toJson h.2)

end

theorem normalEntries_iff {entries : List (Text × Setting)} :
    NormalEntries entries ↔ ∀ e ∈ entries, e.2.Normal := by
  induction entries with
  | nil => simp [NormalEntries]
  | cons e entries ih => simp [NormalEntries, ih]

mutual

theorem normal_decodeWith : ∀ {j : Json}, (∀ t ∈ j.texts, (f t).Normal) →
    (decodeWith f j).Normal
  | .null, _ => trivial
  | .bool false, _ => trivial
  | .bool true, _ => ofText_of_unbracketed (by decide)
  | .number n, _ => ofText_of_unbracketed n.unbracketed_toText
  | .string t, h => h t (List.mem_singleton.mpr rfl)
  | .array _, h => normal_decodeItems h
  | .object entries, h => by
    refine ⟨Table.nodup_keys_ofList _, normalEntries_iff.mpr fun e he => ?_⟩
    exact normalEntries_iff.mp (normal_decodeEntries h) e (Table.mem_of_mem_ofList he)

theorem normal_decodeItems : ∀ {items : List Json}, (∀ t ∈ Json.itemTexts items, (f t).Normal) →
    NormalItems (decodeItems f items)
  | [], _ => trivial
  | j :: items, h =>
    ⟨normal_decodeWith fun t ht => h t (List.mem_append_left (Json.itemTexts items) ht),
      normal_decodeItems fun t ht => h t (List.mem_append_right j.texts ht)⟩

theorem normal_decodeEntries : ∀ {entries : List (Text × Json)},
    (∀ t ∈ Json.entryTexts entries, (f t).Normal) → NormalEntries (decodeEntries f entries)
  | [], _ => trivial
  | (_, j) :: entries, h =>
    ⟨normal_decodeWith fun t ht => h t (List.mem_append_left (Json.entryTexts entries) ht),
      normal_decodeEntries fun t ht => h t (List.mem_append_right j.texts ht)⟩

end

/-- A text is decoded to normal form, by induction on its length. -/
theorem normal_ofText (t : Text) : (ofText t).Normal := by
  induction hn : t.length using Nat.strongRecOn generalizing t with
  | ind n ih =>
    subst hn
    have hscalar : ofText t = scalar t → (ofText t).Normal := by
      intro h
      rw [h]
      exact h
    by_cases hopens : opensContainer t.trimStart = true
    · rcases hj : Json.ofText? t.trimStart with _ | j
      · exact hscalar (by simp [ofText_eq t, hopens, hj])
      · have hvalue : ofText t = ofJson j := by
          rw [ofText_eq, if_pos hopens, hj]
          rfl
        rw [hvalue]
        refine normal_decodeWith fun s hs => ih s.length ?_ s rfl
        exact Nat.lt_of_lt_of_le (Json.length_lt_of_ofText? hj hs) (length_trimStart_le t)
    · exact hscalar (by rw [ofText_eq, if_neg hopens])

theorem normal_ofJson (j : Json) : (ofJson j).Normal :=
  normal_decodeWith fun t _ => normal_ofText t

/-- Decoding does not see how often parts of a value have been encoded, and what it yields is in
normal form: written as JSON and decoded again it stays the same. -/
theorem ofJson_encodes_and_normal :
    (∀ j j', Relation.ReflTransGen Encodes j j' → ofJson j' = ofJson j) ∧
      ∀ j, (ofJson j).Normal ∧ ofJson (ofJson j).toJson = ofJson j :=
  ⟨fun _ _ => ofJson_eq_of_encodes, fun j => ⟨normal_ofJson j, (normal_ofJson j).ofJson_toJson⟩⟩

def pair : Json :=
  .array [.number (.integer 1), .string "x\"[y"]

def encodedPair : Json :=
  .string ((Json.object [("a", .string pair.compact)]).wide 0)

theorem ofJson_encodes_and_normal_pair :
    Relation.ReflTransGen Encodes (.object [("a", pair)]) encodedPair ∧
      ofJson encodedPair = ofJson (.object [("a", pair)]) ∧
      ofJson encodedPair = map [("a", list [scalar "1", scalar "x\"[y"])] ∧
      ofJson (ofJson encodedPair).toJson = ofJson encodedPair := by
  have hpair : HoldsJson pair.compact pair :=
    Or.inl ⟨⟨by decide, rfl, trivial, trivial⟩, Or.inl rfl⟩
  have hobject : HoldsJson ((Json.object [("a", .string pair.compact)]).wide 0)
      (.object [("a", .string pair.compact)]) :=
    Or.inl ⟨⟨by decide, trivial, trivial⟩, Or.inr rfl⟩
  have h : Relation.ReflTransGen Encodes (.object [("a", pair)]) encodedPair :=
    .tail (.single (.entry [] [] "a" (.text rfl hpair))) (.text rfl hobject)
  have heq := ofJson_encodes_and_normal.1 _ _ h
  exact ⟨h, heq, heq.trans rfl, (ofJson_encodes_and_normal.2 encodedPair).2⟩

end Setting

end Restyle
