import Restyle.Json.Reader
import Restyle.Proofs.Json.Printer

/-! # Values read from their tokens

The tokens of a value bring the reader from where a value is awaited to where
it has been supplied, as the outline that says what the value says.
-/

namespace Restyle.Json

mutual

def outline : Json → Outline
  | null => .null
  | bool b => .bool b
  | number n => .number (some n)
  | string t => .string (some t)
  | array items => .array (itemOutlines items)
  | object entries => .object (entryOutlines entries)

def itemOutlines : List Json → List Outline
  | [] => []
  | j :: items => j.outline :: itemOutlines items

def entryOutlines : List (Text × Json) → List (Option Text × Outline)
  | [] => []
  | (k, j) :: entries => (some k, j.outline) :: entryOutlines entries

end

theorem exists_intercalate_tokens (j : Json) (items : List Json) :
    ∃ ts, [Token.comma].intercalate (itemTokens (j :: items)) = j.tokens ++ ts := by
  cases items with
  | nil => exact ⟨[], by simp [itemTokens]⟩
  | cons next items =>
    exact ⟨.comma :: [Token.comma].intercalate (itemTokens (next :: items)), by simp [itemTokens]⟩

namespace Reader

theorem steps?_firstItem (j : Json) (outer : List Frame) (ts : List Token) :
    (firstItem outer).steps? (j.tokens ++ ts) =
      (value (.array [] :: outer)).steps? (j.tokens ++ ts) := by
  obtain ⟨token, us, he, hstep⟩ : ∃ token us, j.tokens = token :: us ∧
      (firstItem outer).step? token = (value (.array [] :: outer)).step? token := by
    cases j <;> exact ⟨_, _, rfl, rfl⟩
  rw [he, List.cons_append, steps?, steps?, hstep]

theorem steps?_key {r : Reader} {before : List (Option Text × Outline)} {outer : List Frame}
    {k : Option Text} (h : r.step? (.string k) = some (colon before k outer)) (ts : List Token) :
    r.steps? (.string k :: .colon :: ts) = (value (.object before k :: outer)).steps? ts := by
  rw [steps?, h]
  rfl

mutual

theorem steps?_tokens : ∀ (j : Json) (outer : List Frame) (ts : List Token),
    (value outer).steps? (j.tokens ++ ts) = (supply j.outline outer).steps? ts
  | .null, _, _ => rfl
  | .bool _, _, _ => rfl
  | .number _, _, _ => rfl
  | .string _, _, _ => rfl
  | .array [], _, _ => rfl
  | .array (j :: items), outer, ts => by
    have hitems := steps?_items (j :: items) (List.cons_ne_nil j items) [] outer ts
    obtain ⟨us, hus⟩ := exists_intercalate_tokens j items
    have hopen : (value outer).steps? (.openArray :: (j.tokens ++ (us ++ .closeArray :: ts))) =
        (firstItem outer).steps? (j.tokens ++ (us ++ .closeArray :: ts)) := rfl
    rw [hus, List.append_assoc, ← steps?_firstItem] at hitems
    simpa [tokens, outline, hus] using hopen.trans hitems
  | .object [], _, _ => rfl
  | .object (entry :: entries), outer, ts => by
    have hentries := steps?_entries (entry :: entries) (List.cons_ne_nil entry entries) []
      outer (firstKey outer) (fun _ => rfl) ts
    have hopen (us : List Token) :
        (value outer).steps? (.openObject :: us) = (firstKey outer).steps? us := rfl
    simpa [tokens, outline] using (hopen _).trans hentries

theorem steps?_items : ∀ (items : List Json) (_ : items ≠ []) (before : List Outline)
    (outer : List Frame) (ts : List Token),
    (value (.array before :: outer)).steps?
        ([Token.comma].intercalate (itemTokens items) ++ .closeArray :: ts) =
      (supply (.array (before.reverse ++ itemOutlines items)) outer).steps? ts
  | [], hne, _, _, _ => absurd rfl hne
  | [j], _, before, outer, ts => by
    have hj := steps?_tokens j (.array before :: outer) (.closeArray :: ts)
    have hclose : (nextItem (j.outline :: before) outer).steps? (.closeArray :: ts) =
        (supply (.array (j.outline :: before).reverse) outer).steps? ts := rfl
    simpa [itemTokens, itemOutlines] using hj.trans hclose
  | j :: next :: items, _, before, outer, ts => by
    let rest := [Token.comma].intercalate (itemTokens (next :: items)) ++ .closeArray :: ts
    have hj := steps?_tokens j (.array before :: outer) (.comma :: rest)
    have hcomma : (nextItem (j.outline :: before) outer).steps? (.comma :: rest) =
        (value (.array (j.outline :: before) :: outer)).steps? rest := rfl
    have hrest := steps?_items (next :: items) (List.cons_ne_nil next items) (j.outline :: before)
      outer ts
    simpa [itemTokens, itemOutlines, rest] using hj.trans (hcomma.trans hrest)

/-- The tokens of entries supply an object, read where a key may come. -/
theorem steps?_entries : ∀ (entries : List (Text × Json)) (_ : entries ≠ [])
    (before : List (Option Text × Outline)) (outer : List Frame) (r : Reader)
    (_ : ∀ k, r.step? (.string k) = some (colon before k outer)) (ts : List Token),
    r.steps? ([Token.comma].intercalate (entryTokens entries) ++ .closeObject :: ts) =
      (supply (.object (before.reverse ++ entryOutlines entries)) outer).steps? ts
  | [], hne, _, _, _, _, _ => absurd rfl hne
  | [(k, j)], _, before, outer, r, hr, ts => by
    have hkey := steps?_key (hr (some k)) (j.tokens ++ .closeObject :: ts)
    have hj := steps?_tokens j (.object before k :: outer) (.closeObject :: ts)
    have hclose : (nextEntry ((some k, j.outline) :: before) outer).steps? (.closeObject :: ts) =
        (supply (.object ((some k, j.outline) :: before).reverse) outer).steps? ts := rfl
    simpa [entryTokens, entryOutlines] using hkey.trans (hj.trans hclose)
  | (k, j) :: next :: entries, _, before, outer, r, hr, ts => by
    let rest := [Token.comma].intercalate (entryTokens (next :: entries)) ++ .closeObject :: ts
    have hkey := steps?_key (hr (some k)) (j.tokens ++ .comma :: rest)
    have hj := steps?_tokens j (.object before k :: outer) (.comma :: rest)
    have hcomma : (nextEntry ((some k, j.outline) :: before) outer).steps? (.comma :: rest) =
        (nextKey ((some k, j.outline) :: before) outer).steps? rest := rfl
    have hrest := steps?_entries (next :: entries) (List.cons_ne_nil next entries)
      ((some k, j.outline) :: before) outer (nextKey ((some k, j.outline) :: before) outer)
      (fun _ => rfl) ts
    simpa [entryTokens, entryOutlines, rest] using hkey.trans (hj.trans (hcomma.trans hrest))

end

end Reader

theorem Outline.ofText?_of_spells {t : Text} {j : Json} (h : Spells t j.tokens) :
    Outline.ofText? t = some j.outline := by
  have hscan := h [] (by simp [EndsWord])
  have hsteps := Reader.steps?_tokens j [] []
  simp only [List.append_nil, Token.scan, Option.map_some] at hscan hsteps
  rw [Outline.ofText?, hscan]
  dsimp only
  rw [hsteps]
  rfl

theorem Outline.ofText?_wide {room : Nat} {j : Json} (h : j.Exact room) :
    Outline.ofText? (j.wide 0) = some j.outline :=
  ofText?_of_spells (spells_wide 0 h)

mutual

/-- The outline of a value has the value, if there is room for its containers. -/
theorem Outline.value?_outline : ∀ {room : Nat} {j : Json}, j.Exact room →
    j.outline.value? room = some j
  | _, .null, _ => rfl
  | _, .bool _, _ => rfl
  | _, .number _, _ => rfl
  | _, .string _, _ => rfl
  | _, .array _, h => by
    rw [outline, value?, if_neg (Nat.ne_of_gt h.1), Outline.items?_outlines h.2, Option.map_some]
  | _, .object _, h => by
    rw [outline, value?, if_neg (Nat.ne_of_gt h.1), Outline.entries?_outlines h.2, Option.map_some]

theorem Outline.items?_outlines : ∀ {room : Nat} {items : List Json}, ExactItems room items →
    items? room (itemOutlines items) = some items
  | _, [], _ => rfl
  | _, _ :: _, h => by
    rw [itemOutlines, items?, Outline.value?_outline h.1, Outline.items?_outlines h.2]
    rfl

theorem Outline.entries?_outlines : ∀ {room : Nat} {entries : List (Text × Json)},
    ExactEntries room entries → entries? room (entryOutlines entries) = some entries
  | _, [], _ => rfl
  | _, (_, _) :: _, h => by
    rw [entryOutlines, entries?, Outline.value?_outline h.1, Outline.entries?_outlines h.2]
    rfl

end

theorem ofText?_of_spells {t : Text} {j : Json} (ht : Spells t j.tokens)
    (hj : j.Exact Outline.depthLimit) : ofText? t = some j := by
  rw [ofText?, Outline.ofText?_of_spells ht, Option.bind_some, Outline.value?_outline hj]

end Restyle.Json
