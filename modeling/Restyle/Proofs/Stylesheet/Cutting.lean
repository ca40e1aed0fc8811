import Restyle.Proofs.Stylesheet.Draft
import Restyle.Stylesheet.Nested

/-! # Reading what is left of a stylesheet

Outermost blocks of some kind are found in a stylesheet and cut out of its
text, and what is left is read again. A cutter does both in one run: beside the
draft of the whole text it keeps the draft of the text without those blocks.
-/

namespace Restyle

open Text

/-- The draft of the whole text, whether its current node has begun, the draft of what is kept, and
that of what was kept in front of the current outermost node. -/
structure Cutter where
  whole : Draft := {}
  begun : Bool := false
  kept : Draft := {}
  saved : Draft := {}

namespace Cutter

def cuts (skips : Node → Bool) (d : Draft) (l : Lexeme) : Bool :=
  match d.outer with
  | [f] => l == .plain '}' && skips (.block f.selector d.flushed.reverse)
  | _ => false

/-- Whether a node has begun behind a lexeme: white space begins none. -/
def begins (begun : Bool) (depth : Nat) : Lexeme → Bool
  | .plain c =>
    if c = '{' ∨ c = '}' ∨ c = ';' ∧ depth = 0 then false else begun || !isBlank c
  | _ => true

def step (skips : Node → Bool) (c : Cutter) (l : Lexeme) : Cutter :=
  let whole := c.whole.step l
  let begun := begins c.begun c.whole.depth l
  let kept := if cuts skips c.whole l then c.saved else c.kept.step l
  { whole, begun, kept, saved := if whole.outer.isEmpty && !begun then kept else c.saved }

def read (skips : Node → Bool) (c : Cutter) (ls : List Lexeme) : Cutter :=
  ls.foldl (step skips) c

theorem read_append (skips : Node → Bool) (c : Cutter) (ls ms : List Lexeme) :
    c.read skips (ls ++ ms) = (c.read skips ls).read skips ms :=
  List.foldl_append

theorem whole_read (skips : Node → Bool) (c : Cutter) (ls : List Lexeme) :
    (c.read skips ls).whole = c.whole.read ls := by
  induction ls generalizing c with
  | nil => rfl
  | cons l ls ih => exact ih _

end Cutter

def Within : Nat → List Span → Nat → Prop
  | position, [], stop => position ≤ stop
  | position, s :: ss, stop => position ≤ s.start ∧ s.start ≤ s.stop ∧ Within s.stop ss stop

theorem Within.le {position stop : Nat} {ss : List Span} (h : Within position ss stop) :
    position ≤ stop := by
  induction ss generalizing position with
  | nil => exact h
  | cons s ss ih => exact (h.1.trans h.2.1).trans (ih h.2.2)

theorem Within.mono {position stop stop' : Nat} {ss : List Span} (h : Within position ss stop)
    (hle : stop ≤ stop') : Within position ss stop' := by
  induction ss generalizing position with
  | nil => exact Nat.le_trans h hle
  | cons s ss ih => exact ⟨h.1, h.2.1, ih h.2.2⟩

theorem Within.snoc {position start stop : Nat} {ss : List Span} (h : Within position ss start)
    (hle : start ≤ stop) : Within position (ss ++ [⟨start, stop⟩]) stop := by
  induction ss generalizing position with
  | nil => exact ⟨h, hle, Nat.le_refl _⟩
  | cons s ss ih => exact ⟨h.1, h.2.1, ih h.2.2⟩

theorem Within.stop_add_length_drop {position : Nat} {s : Span} {ss : List Span} {t : Text}
    (h : Within position (s :: ss) (position + t.length)) :
    s.stop + (t.drop (s.stop - position)).length = position + t.length := by
  obtain ⟨hstart, hstop, hss⟩ := h
  have hle := hss.le
  rw [List.length_drop]
  omega

theorem cutOut_append {position : Nat} {ss : List Span} {t : Text}
    (h : Within position ss (position + t.length)) (u : Text) :
    cutOut position ss (t ++ u) = cutOut position ss t ++ u := by
  induction ss generalizing position t with
  | nil => rfl
  | cons s ss ih =>
    have hlen := h.stop_add_length_drop
    obtain ⟨hstart, hstop, hss⟩ := h
    have hle := hss.le
    rw [cutOut, cutOut, List.take_append_of_le_length (by omega),
      List.drop_append_of_le_length (by omega), ih (hlen ▸ hss), List.append_assoc]

theorem cutOut_snoc {position : Nat} {ss : List Span} {t : Text}
    (h : Within position ss (position + t.length)) (u : Text) :
    cutOut position (ss ++ [⟨position + t.length, position + (t ++ u).length⟩]) (t ++ u) =
      cutOut position ss t := by
  induction ss generalizing position t with
  | nil => simp [cutOut]
  | cons s ss ih =>
    have hlen := h.stop_add_length_drop
    obtain ⟨hstart, hstop, hss⟩ := h
    have hle := hss.le
    have hlen' : s.stop + (t.drop (s.stop - position) ++ u).length =
        position + (t ++ u).length := by
      simp only [List.length_append] at hlen ⊢
      omega
    rw [List.cons_append, cutOut, cutOut, List.take_append_of_le_length (by omega),
      List.drop_append_of_le_length (by omega), ← hlen, ← hlen', ih (hlen ▸ hss)]

namespace Piece.Reader

def bottom (r : Reader) : List Piece :=
  match r.outer.getLast? with
  | none => r.pieces
  | some f => f.before

def front (r : Reader) : Nat :=
  match r.outer.getLast? with
  | none => r.opening
  | some f => f.start

variable {r : Reader} {c : Char} {t : Text} {l : Lexeme}

theorem position_step (r : Reader) (l : Lexeme) :
    (r.step l).position = r.position + l.text.length := by
  cases l with
  | quoted t closed => rfl
  | comment t closed => rfl
  | plain c =>
    simp only [step]
    split_ifs
    · rfl
    · rfl
    · rfl
    · rcases h : r.outer with _ | ⟨f, outer⟩ <;> simp [closeBlock, h, Lexeme.text]
    · rfl
    · rfl

theorem isSome_start_add (r : Reader) (c : Char) (t : Text) :
    (r.add (c :: t)).start.isSome = (r.start.isSome || !isBlank c) := by
  rcases h : r.start with _ | p
  · cases hb : isBlank c <;> simp [add, h, hb]
  · simp [add, h]

theorem opening_add (h : (r.add (c :: t)).start ≠ none) : (r.add (c :: t)).opening = r.opening := by
  rcases hs : r.start with _ | p
  · cases hb : isBlank c
    · simp [opening, add, hs, hb]
    · simp [add, hs, hb] at h
  · simp [opening, add, hs]

/-- What a step that neither begins nor ends a node leaves alone. -/
structure GoesOn (r r' : Reader) (l : Lexeme) : Prop where
  outer : r'.outer = r.outer
  pieces : r'.pieces = r.pieces
  start : r'.start.isSome = Cutter.begins r.start.isSome r.depth l
  opening : r'.start ≠ none → r'.opening = r.opening

/-- A step opens a block, closes one, ends a declaration or goes on. -/
theorem step_cases (hl : l.Sound) (r : Reader) :
    l = .plain '{' ∧ r.step l = r.openBlock ∨ l = .plain '}' ∧ r.step l = r.closeBlock ∨
      (l = .plain ';' ∧ r.depth = 0) ∧ r.step l = r.closeDeclaration ∨
      l ≠ .plain '}' ∧ GoesOn r (r.step l) l := by
  cases l with
  | quoted t closed =>
    obtain ⟨c, t, rfl⟩ := List.exists_cons_of_ne_nil hl.text_ne_nil
    have hb : isBlank c = false := by rcases hl.isQuote with rfl | rfl <;> decide
    refine Or.inr (Or.inr (Or.inr ⟨by simp, rfl, rfl, ?_, opening_add⟩))
    simp [step, isSome_start_add, hb, Cutter.begins]
  | comment t closed => exact Or.inr (Or.inr (Or.inr ⟨by simp, rfl, rfl, rfl, fun _ => rfl⟩))
  | plain c =>
    simp only [step, Lexeme.plain.injEq]
    split_ifs with h₁ h₂ h₃ h₄ h₅
    · subst h₁
      exact Or.inr (Or.inr (Or.inr ⟨by decide, rfl, rfl, isSome_start_add r '(' [], opening_add⟩))
    · subst h₂
      exact Or.inr (Or.inr (Or.inr ⟨by decide, rfl, rfl, isSome_start_add r ')' [], opening_add⟩))
    · exact Or.inl ⟨h₃, rfl⟩
    · exact Or.inr (Or.inl ⟨h₄, rfl⟩)
    · exact Or.inr (Or.inr (Or.inl ⟨h₅, rfl⟩))
    · have hne : Lexeme.plain c ≠ .plain '}' := by simpa using h₄
      refine Or.inr (Or.inr (Or.inr ⟨hne, rfl, rfl, ?_, opening_add⟩))
      rw [isSome_start_add, Cutter.begins, if_neg (by tauto)]

theorem isSome_start_step (hl : l.Sound) (r : Reader) :
    (r.step l).start.isSome = Cutter.begins r.start.isSome r.depth l := by
  rcases step_cases hl r with ⟨rfl, h⟩ | ⟨rfl, h⟩ | ⟨⟨rfl, hd⟩, h⟩ | ⟨-, h⟩
  · rw [h]
    rfl
  · rw [h]
    rcases ho : r.outer with _ | ⟨f, outer⟩ <;> simp [closeBlock, ho, Cutter.begins]
  · rw [h]
    simp [closeDeclaration, Cutter.begins, hd]
  · exact h.start

/-- The nodes in front of the outermost one change only when a node ends there. -/
theorem bottom_step_of_open (hl : l.Sound) (ho : (r.step l).outer ≠ []) :
    (r.step l).bottom = r.bottom ∧ (r.step l).front = r.front := by
  rcases step_cases hl r with ⟨-, h⟩ | ⟨-, h⟩ | ⟨-, h⟩ | ⟨-, h⟩
  · rw [h]
    rcases hr : r.outer.getLast? with _ | f
    · rw [List.getLast?_eq_none_iff] at hr
      simp [bottom, front, openBlock, hr]
    · simp [bottom, front, openBlock, List.getLast?_cons, hr]
  · rw [h] at ho ⊢
    rcases hr : r.outer with _ | ⟨f, _ | ⟨g, outer⟩⟩
    · simp [closeBlock, hr] at ho
    · simp [closeBlock, hr] at ho
    · obtain ⟨e, he⟩ : ∃ e, (g :: outer).getLast? = some e := ⟨_, List.getLast?_cons⟩
      simp [bottom, front, closeBlock, hr, List.getLast?_cons_cons, he]
  · rw [h] at ho ⊢
    obtain ⟨f, hf⟩ := Option.ne_none_iff_exists'.mp (mt List.getLast?_eq_none_iff.mp ho)
    have hf' : r.outer.getLast? = some f := hf
    simp [bottom, front, hf, hf']
  · obtain ⟨f, hf⟩ := Option.ne_none_iff_exists'.mp (mt List.getLast?_eq_none_iff.mp ho)
    have hf' : r.outer.getLast? = some f := h.outer ▸ hf
    simp [bottom, front, hf, hf']

theorem goesOn_of_begun (hl : l.Sound) (ho : (r.step l).outer = [])
    (hs : (r.step l).start ≠ none) : GoesOn r (r.step l) l := by
  rcases step_cases hl r with ⟨-, hr⟩ | ⟨-, hr⟩ | ⟨-, hr⟩ | ⟨-, hg⟩
  · rw [hr] at ho
    simp [openBlock] at ho
  · rw [hr] at hs
    rcases hr' : r.outer <;> simp [closeBlock, hr'] at hs
  · rw [hr] at hs
    simp [closeDeclaration] at hs
  · exact hg

theorem bottom_of_outer_eq_nil (h : r.outer = []) : r.bottom = r.pieces := by
  simp [bottom, h]

theorem front_of_outer_eq_nil (h : r.outer = []) : r.front = r.opening := by
  simp [front, h]

end Piece.Reader

namespace Cutter

open Lexeme Piece

variable {skips : Node → Bool} {r : Reader} {c : Cutter} {front since before : List Lexeme}
  {l : Lexeme}

def spans (skips : Node → Bool) (r : Reader) : List Span :=
  ((r.bottom.filter (skips ·.node)).map (·.span)).reverse

/-- A cutter and a reader behind the same lexemes: those in front of the outermost node being read,
of which `before` are left, and those since. -/
structure Tracks (skips : Node → Bool) (r : Reader) (c : Cutter)
    (front since before : List Lexeme) : Prop where
  drafted : r.Drafted c.whole
  begun : c.begun = r.start.isSome
  position : r.position = (textOf (front ++ since)).length
  start : r.front = (textOf front).length
  saved : c.saved = ({} : Draft).read before
  kept : c.kept = ({} : Draft).read (before ++ since)
  within : Within 0 (spans skips r) (textOf front).length
  cut : textOf before = cutOut 0 (spans skips r) (textOf front)
  scannable : Scannable before
  ends : ∀ l ∈ before.getLast?, l.closed = true ∧ l ≠ plain '/'
  since_eq_nil : r.outer = [] → r.start = none → since = []

theorem outer_isEmpty {d : Draft} (h : r.Drafted d) : d.outer.isEmpty = r.outer.isEmpty := by
  have ho := congrArg List.isEmpty h.outer
  simpa using ho

theorem cuts_of_drafted {d : Draft} (h : r.Drafted d) (skips : Node → Bool) (l : Lexeme) :
    cuts skips d l = match r.outer with
      | [f] => l == .plain '}' && skips (.block f.selector (r.flushed.map (·.node)).reverse)
      | _ => false := by
  have houter := h.outer
  rw [cuts]
  rcases hr : r.outer with _ | ⟨f, _ | ⟨g, outer⟩⟩ <;> rw [hr] at houter
  · rw [List.map_eq_nil_iff.mp houter]
  · obtain ⟨f', outer', hd, hf, hnil⟩ := List.map_eq_cons_iff.mp houter
    rw [List.map_nil, List.map_eq_nil_iff] at hnil
    have hselector : f'.selector = f.selector := (Prod.mk.inj hf).2
    simp only [hd, hnil, h.flushed, hselector]
  · obtain ⟨f', outer', hd, -, ho⟩ := List.map_eq_cons_iff.mp houter
    obtain ⟨g', outer'', hd', -⟩ := List.map_eq_cons_iff.mp ho
    rw [hd, hd']

theorem ends_of_begins {begun : Bool} {depth : Nat} (h : begins begun depth l = false) :
    l.closed = true ∧ l ≠ plain '/' := by
  cases l with
  | quoted t closed => simp [begins] at h
  | comment t closed => simp [begins] at h
  | plain c =>
    refine ⟨rfl, ?_⟩
    rintro ⟨⟩
    have hb : isBlank '/' = false := by decide
    simp [begins, hb] at h

theorem spans_of_outer_eq_nil (h : r.outer = []) :
    spans skips r = ((r.pieces.filter (skips ·.node)).map (·.span)).reverse := by
  rw [spans, Reader.bottom_of_outer_eq_nil h]

theorem filter_flushed (hskips : ∀ t, skips (.declaration t) = false) (r : Reader) :
    r.flushed.filter (skips ·.node) = r.pieces.filter (skips ·.node) := by
  rw [Reader.flushed]
  split
  · rfl
  · rw [List.filter_cons_of_neg]
    simp [hskips]

namespace Tracks

theorem begins_step (h : Tracks skips r c front since before) (hl : l.Sound) :
    begins c.begun c.whole.depth l = (r.step l).start.isSome := by
  rw [Reader.isSome_start_step hl, h.begun, h.drafted.depth]

theorem position_step (h : Tracks skips r c front since before) :
    (r.step l).position = (textOf (front ++ (since ++ [l]))).length := by
  rw [Reader.position_step, h.position, ← List.append_assoc, textOf_append _ [l],
    List.length_append]
  simp

theorem kept_step (h : Tracks skips r c front since before) (hc : cuts skips c.whole l = false) :
    (c.step skips l).kept = ({} : Draft).read (before ++ (since ++ [l])) := by
  simp only [step, hc, Bool.false_eq_true, if_false]
  rw [h.kept, ← List.append_assoc, Draft.read_append _ (before ++ since)]
  rfl

theorem saved_step (h : Tracks skips r c front since before) (hl : l.Sound) :
    (c.step skips l).saved =
      if (r.step l).outer = [] ∧ (r.step l).start = none then (c.step skips l).kept
      else c.saved := by
  simp only [step, h.begins_step hl, outer_isEmpty (h.drafted.step hl)]
  congr 1
  simp

theorem front_step (h : Tracks skips r c front since before) (ho : (r.step l).outer = [])
    (hs : (r.step l).start = none) :
    (r.step l).front = (textOf (front ++ (since ++ [l]))).length := by
  rw [Reader.front_of_outer_eq_nil ho, Reader.opening, hs]
  exact h.position_step

theorem within_front (h : Tracks skips r c front since before) :
    Within 0 (spans skips r) (0 + (textOf front).length) := by
  rw [Nat.zero_add]
  exact h.within

theorem goOn (h : Tracks skips r c front since before) (hl : l.Sound)
    (hb : spans skips (r.step l) = spans skips r) (hf : (r.step l).front = r.front)
    (hn : ¬ ((r.step l).outer = [] ∧ (r.step l).start = none))
    (hc : cuts skips c.whole l = false) :
    Tracks skips (r.step l) (c.step skips l) front (since ++ [l]) before := by
  refine ⟨h.drafted.step hl, h.begins_step hl, h.position_step, hf.trans h.start, ?_,
    h.kept_step hc, hb ▸ h.within, hb ▸ h.cut, h.scannable, h.ends,
    fun ho hs => absurd ⟨ho, hs⟩ hn⟩
  rw [h.saved_step hl, if_neg hn]
  exact h.saved

theorem settle (h : Tracks skips r c front since before) (hl : l.Sound)
    (hb : spans skips (r.step l) = spans skips r) (ho : (r.step l).outer = [])
    (hs : (r.step l).start = none) (hc : cuts skips c.whole l = false)
    (hend : l.closed = true ∧ l ≠ plain '/') (hsince : Scannable (since ++ [l])) :
    Tracks skips (r.step l) (c.step skips l) (front ++ (since ++ [l])) []
      (before ++ (since ++ [l])) := by
  refine ⟨h.drafted.step hl, h.begins_step hl, ?_, h.front_step ho hs, ?_, ?_, ?_, ?_,
    h.scannable.append hsince h.ends, ?_, fun _ _ => rfl⟩
  · rw [List.append_nil]
    exact h.position_step
  · rw [h.saved_step hl, if_pos ⟨ho, hs⟩]
    exact h.kept_step hc
  · rw [List.append_nil]
    exact h.kept_step hc
  · rw [hb]
    exact h.within.mono (by simp)
  · rw [hb, textOf_append front, cutOut_append h.within_front, ← h.cut, textOf_append]
  · intro m hm
    rw [← List.append_assoc, List.getLast?_append] at hm
    cases hm
    exact hend

theorem cutOff (h : Tracks skips r c front since before) (hl : l.Sound)
    (hb : spans skips (r.step l) = spans skips r ++ [⟨r.front, (r.step l).position⟩])
    (ho : (r.step l).outer = []) (hs : (r.step l).start = none)
    (hc : cuts skips c.whole l = true) :
    Tracks skips (r.step l) (c.step skips l) (front ++ (since ++ [l])) [] before := by
  have hkept : (c.step skips l).kept = ({} : Draft).read before := by
    simp only [step, hc, if_true]
    exact h.saved
  have hsplit : textOf (front ++ (since ++ [l])) = textOf front ++ textOf (since ++ [l]) :=
    textOf_append _ _
  refine ⟨h.drafted.step hl, h.begins_step hl, ?_, h.front_step ho hs, ?_, ?_, ?_, ?_,
    h.scannable, h.ends, fun _ _ => rfl⟩
  · rw [List.append_nil]
    exact h.position_step
  · rw [h.saved_step hl, if_pos ⟨ho, hs⟩]
    exact hkept
  · rw [List.append_nil]
    exact hkept
  · rw [hb, h.position_step, h.start]
    exact h.within.snoc (by simp [hsplit])
  · have hsnoc := cutOut_snoc h.within_front (textOf (since ++ [l]))
    rw [Nat.zero_add, Nat.zero_add] at hsnoc
    rw [hb, h.position_step, h.start, hsplit, hsnoc, h.cut]

theorem cuts_eq_false_of_open (h : Tracks skips r c front since before)
    (ho : (r.step l).outer ≠ []) : cuts skips c.whole l = false := by
  rw [cuts_of_drafted h.drafted]
  rcases hr : r.outer with _ | ⟨f, _ | ⟨g, outer⟩⟩
  · rfl
  · by_contra hc
    simp only [Bool.not_eq_false, Bool.and_eq_true, beq_iff_eq] at hc
    obtain ⟨rfl, -⟩ := hc
    have hs : r.step (.plain '}') = r.closeBlock := rfl
    rw [hs] at ho
    simp [Reader.closeBlock, hr] at ho
  · rfl

theorem step_settled (h : Tracks skips r c front since before)
    (hskips : ∀ t, skips (.declaration t) = false) (hl : l.Sound)
    (ho : (r.step l).outer = []) (hs : (r.step l).start = none) :
    spans skips (r.step l) = spans skips r ∧ cuts skips c.whole l = false ∨
      spans skips (r.step l) = spans skips r ++ [⟨r.front, (r.step l).position⟩] ∧
        cuts skips c.whole l = true := by
  have hc := cuts_of_drafted h.drafted skips l
  rcases Reader.step_cases hl r with ⟨-, hr⟩ | ⟨rfl, hr⟩ | ⟨-, hr⟩ | ⟨-, hr⟩
  · rw [hr] at ho
    simp [Reader.openBlock] at ho
  · rw [hr] at ho ⊢
    rcases ho' : r.outer with _ | ⟨f, _ | ⟨g, outer⟩⟩ <;> rw [ho'] at hc
    · refine Or.inl ⟨?_, hc⟩
      rw [spans_of_outer_eq_nil ho, spans_of_outer_eq_nil ho']
      simp [Reader.closeBlock, ho']
    · have hpieces : r.closeBlock.pieces =
          ⟨.block f.selector (r.flushed.map (·.node)).reverse, ⟨f.start, r.position + 1⟩⟩ ::
            f.before := by
        simp [Reader.closeBlock, ho']
      have hpos : r.closeBlock.position = r.position + 1 := by simp [Reader.closeBlock, ho']
      have hbottom : r.bottom = f.before := by simp [Reader.bottom, ho']
      have hfront : r.front = f.start := by simp [Reader.front, ho']
      rw [spans_of_outer_eq_nil ho, hpieces, hpos, hfront, spans, hbottom, hc]
      cases hskip : skips (.block f.selector (r.flushed.map (·.node)).reverse) with
      | false =>
        refine Or.inl ⟨?_, hskip⟩
        rw [List.filter_cons_of_neg (by rw [hskip]; simp)]
      | true =>
        refine Or.inr ⟨?_, hskip⟩
        rw [List.filter_cons_of_pos (by rw [hskip])]
        simp
    · simp [Reader.closeBlock, ho'] at ho
  · rw [hr] at ho ⊢
    have ho' : r.outer = [] := ho
    refine Or.inl ⟨?_, ?_⟩
    · rw [spans_of_outer_eq_nil ho, spans_of_outer_eq_nil ho', ← filter_flushed hskips r]
      rfl
    · rw [hc, ho']
  · have ho' : r.outer = [] := hr.outer ▸ ho
    refine Or.inl ⟨?_, ?_⟩
    · rw [spans_of_outer_eq_nil ho, spans_of_outer_eq_nil ho', hr.pieces]
    · rw [hc, ho']

theorem step (h : Tracks skips r c front since before)
    (hskips : ∀ t, skips (.declaration t) = false) (hl : Scannable (since ++ [l])) :
    ∃ front' since' before', front' ++ since' = front ++ since ++ [l] ∧
      Tracks skips (r.step l) (c.step skips l) front' since' before' := by
  have hsound : l.Sound := hl.sound l (by simp)
  by_cases hn : (r.step l).outer = [] ∧ (r.step l).start = none
  · obtain ⟨ho, hs⟩ := hn
    rcases h.step_settled hskips hsound ho hs with ⟨hb, hc⟩ | ⟨hb, hc⟩
    · have hbegins : begins c.begun c.whole.depth l = false := by
        rw [h.begins_step hsound, hs]
        rfl
      exact ⟨_, _, _, by simp, h.settle hsound hb ho hs hc (ends_of_begins hbegins) hl⟩
    · exact ⟨_, _, _, by simp, h.cutOff hsound hb ho hs hc⟩
  · refine ⟨front, since ++ [l], before, by simp, ?_⟩
    by_cases ho : (r.step l).outer = []
    · have hs : (r.step l).start ≠ none := fun hs => hn ⟨ho, hs⟩
      have hg := Reader.goesOn_of_begun hsound ho hs
      have ho' : r.outer = [] := hg.outer ▸ ho
      refine h.goOn hsound ?_ ?_ hn ?_
      · rw [spans_of_outer_eq_nil ho, spans_of_outer_eq_nil ho', hg.pieces]
      · rw [Reader.front_of_outer_eq_nil ho, Reader.front_of_outer_eq_nil ho', hg.opening hs]
      · rw [cuts_of_drafted h.drafted, ho']
    · obtain ⟨hb, hf⟩ := Reader.bottom_step_of_open hsound ho
      exact h.goOn hsound (by rw [spans, spans, hb]) hf hn (h.cuts_eq_false_of_open ho)

theorem read (h : Tracks skips r c front since before)
    (hskips : ∀ t, skips (.declaration t) = false) {ls : List Lexeme}
    (hls : Scannable (front ++ since ++ ls)) :
    ∃ front' since' before', front' ++ since' = front ++ since ++ ls ∧
      Tracks skips (ls.foldl Reader.step r) (c.read skips ls) front' since' before' := by
  induction ls generalizing r c front since before with
  | nil => exact ⟨front, since, before, by simp, h⟩
  | cons l ls ih =>
    have hl : Scannable (since ++ [l]) := by
      have hs : Scannable (front ++ ((since ++ [l]) ++ ls)) := by simpa using hls
      exact hs.of_append.2.of_append.1
    obtain ⟨front', since', before', he, h'⟩ := h.step hskips hl
    have hls' : Scannable (front' ++ since' ++ ls) := by
      rw [he]
      simpa using hls
    obtain ⟨front'', since'', before'', he', h''⟩ := ih h' hls'
    exact ⟨front'', since'', before'', by rw [he', he]; simp, h''⟩

end Tracks

theorem spans_eq_of_finish (hskips : ∀ t, skips (.declaration t) = false) (r : Reader) :
    (r.finish.filter (skips ·.node)).map (·.span) = spans skips r := by
  rw [Reader.finish, spans, Reader.bottom]
  rcases r.outer.getLast? with _ | f
  · rw [List.filter_reverse, List.map_reverse, filter_flushed hskips]
  · rw [List.filter_reverse, List.map_reverse]

theorem exists_tracks (hskips : ∀ t, skips (.declaration t) = false) (css : Text) :
    ∃ front since before, front ++ since = scan css ∧
      Tracks skips ((scan css).foldl Reader.step {}) (({} : Cutter).read skips (scan css))
        front since before := by
  have h₀ : Tracks skips {} {} [] [] [] :=
    ⟨⟨rfl, rfl, rfl, rfl⟩, rfl, rfl, rfl, rfl, rfl, Nat.le_refl 0, rfl, .nil, by simp,
      fun _ _ => rfl⟩
  exact h₀.read hskips (scannable_scan css)

/-- The nodes of a text without its outermost blocks of some kind are those that a cutter keeps. -/
theorem ofText_cutOut (hskips : ∀ t, skips (.declaration t) = false) (css : Text) :
    Node.ofText (cutOut 0 (((Piece.ofText css).filter (skips ·.node)).map (·.span)) css) =
      (({} : Cutter).read skips (scan css)).kept.finish := by
  obtain ⟨front, since, before, hls, h⟩ := exists_tracks hskips css
  have hscannable : Scannable (before ++ since) :=
    h.scannable.append (hls ▸ scannable_scan css).of_append.2 h.ends
  have hcut : cutOut 0 (((Piece.ofText css).filter (skips ·.node)).map (·.span)) css =
      textOf (before ++ since) := by
    have htext : css = textOf front ++ textOf since := by
      rw [← textOf_append, hls, textOf_scan]
    rw [Piece.ofText, Piece.ofLexemes, spans_eq_of_finish hskips, textOf_append, h.cut,
      ← cutOut_append h.within_front, ← htext]
  rw [hcut, Node.ofText_eq_finish, hscannable.scan_textOf, h.kept]

end Cutter

end Restyle
