import Restyle.Proofs.Stylesheet.Lexeme
import Restyle.Proofs.Text.Blank
import Restyle.Stylesheet.Node

/-! # Reading without positions

A draft is what a reader has made of a stylesheet so far, without positions and
without the white space in front of a node. Nodes that were complete before a
text play no part in reading it, so stylesheets can be read piece by piece.
-/

namespace Restyle

structure Draft.Frame where
  before : List Node
  selector : Text

/-- The open blocks, innermost first, the nodes and the visible text since the last of them, both
last first, and the depth of open parentheses. -/
structure Draft where
  outer : List Draft.Frame := []
  nodes : List Node := []
  text : Text := []
  depth : Nat := 0

namespace Draft

open Text

def flushed (d : Draft) : List Node :=
  let t := trim d.text.reverse
  if t.isEmpty then d.nodes else .declaration t :: d.nodes

def add (d : Draft) (t : Text) : Draft :=
  { d with text := t.reverse ++ d.text }

def addChar (d : Draft) (c : Char) : Draft :=
  if d.text.isEmpty && isBlank c then d else d.add [c]

def closeDeclaration (d : Draft) : Draft :=
  { d with nodes := d.flushed, text := [] }

def openBlock (d : Draft) : Draft :=
  { outer := ⟨d.nodes, trim d.text.reverse⟩ :: d.outer }

def closeBlock (d : Draft) : Draft :=
  match d.outer with
  | [] => { d with text := [] }
  | f :: outer => { outer, nodes := .block f.selector d.flushed.reverse :: f.before }

def step (d : Draft) : Lexeme → Draft
  | .quoted t _ => d.add t
  | .comment _ _ => d
  | .plain c =>
    if c = '(' then { d.add [c] with depth := d.depth + 1 }
    else if c = ')' then { d.add [c] with depth := d.depth - 1 }
    else if c = '{' then d.openBlock
    else if c = '}' then d.closeBlock
    else if c = ';' ∧ d.depth = 0 then d.closeDeclaration
    else d.addChar c

def read (d : Draft) (ls : List Lexeme) : Draft :=
  ls.foldl step d

/-- The nodes at the end of the text: all of them, or those before the outermost open block. -/
def finish (d : Draft) : List Node :=
  match d.outer.getLast? with
  | none => d.flushed.reverse
  | some f => f.before.reverse

variable {d : Draft} {c : Char} {t : Text} {ns : List Node}

theorem read_append (d : Draft) (ls ms : List Lexeme) :
    d.read (ls ++ ms) = (d.read ls).read ms :=
  List.foldl_append

end Draft

open Text Piece

structure Piece.Reader.Drafted (r : Reader) (d : Draft) : Prop where
  outer : d.outer.map (fun f => (f.before, f.selector)) =
    r.outer.map fun f => (f.before.map (·.node), f.selector)
  nodes : d.nodes = r.pieces.map (·.node)
  text : d.text = trimEnd r.text
  depth : d.depth = r.depth

namespace Piece.Reader.Drafted

variable {r : Reader} {d : Draft} {c : Char}

theorem trim_text (h : r.Drafted d) : trim d.text.reverse = trim r.text.reverse := by
  have hd : d.text.reverse = trimStart r.text.reverse := by
    rw [h.text, trimEnd, dropEndWhile, List.reverse_reverse, trimStart]
  rw [hd, trim, trim, trimStart, trimStart, List.dropWhile_idempotent]

theorem flushed (h : r.Drafted d) : d.flushed = r.flushed.map (·.node) := by
  simp only [Draft.flushed, Reader.flushed, h.trim_text, h.nodes]
  split <;> rfl

theorem add_of_not_blank (h : r.Drafted d) (hc : isBlank c = false) (t : Text) :
    (r.add (c :: t)).Drafted (d.add (c :: t)) := by
  refine ⟨h.outer, h.nodes, ?_, h.depth⟩
  have hv : trimEnd (t.reverse ++ [c]) = t.reverse ++ [c] := by
    simp [trimEnd, dropEndWhile, hc]
  by_cases ht : trimEnd r.text = []
  · simp only [Draft.add, Reader.add, h.text, ht]
    rw [List.reverse_cons, trimEnd_append _ (trimEnd_eq_nil_iff.mp ht), hv, List.append_nil]
  · simp only [Draft.add, Reader.add, h.text]
    rw [trimEnd_append_of_ne_nil _ ht]

theorem addChar (h : r.Drafted d) (c : Char) : (r.add [c]).Drafted (d.addChar c) := by
  cases hc : isBlank c with
  | false =>
    rw [Draft.addChar, hc, Bool.and_false]
    exact h.add_of_not_blank hc []
  | true =>
    by_cases ht : trimEnd r.text = []
    · have hd : d.addChar c = d := by simp [Draft.addChar, h.text, ht, hc]
      rw [hd]
      refine ⟨h.outer, h.nodes, ?_, h.depth⟩
      rw [h.text, ht, eq_comm, trimEnd_eq_nil_iff]
      exact blank_cons.mpr ⟨hc, trimEnd_eq_nil_iff.mp ht⟩
    · have hd : d.addChar c = d.add [c] := by simp [Draft.addChar, h.text, ht]
      rw [hd]
      refine ⟨h.outer, h.nodes, ?_, h.depth⟩
      simp only [Draft.add, Reader.add, h.text]
      rw [trimEnd_append_of_ne_nil _ ht]

theorem pass (h : r.Drafted d) (t : Text) : (r.pass t).Drafted d :=
  ⟨h.outer, h.nodes, h.text, h.depth⟩

theorem closeDeclaration (h : r.Drafted d) : r.closeDeclaration.Drafted d.closeDeclaration :=
  ⟨h.outer, h.flushed, rfl, h.depth⟩

theorem openBlock (h : r.Drafted d) : r.openBlock.Drafted d.openBlock := by
  refine ⟨?_, rfl, rfl, rfl⟩
  simp [Reader.openBlock, Draft.openBlock, h.outer, h.nodes, h.trim_text]

theorem closeBlock (h : r.Drafted d) : r.closeBlock.Drafted d.closeBlock := by
  have houter := h.outer
  rcases hr : r.outer with _ | ⟨f, outer⟩ <;> rw [hr] at houter
  · have hd : d.outer = [] := List.map_eq_nil_iff.mp houter
    simp only [Reader.closeBlock, Draft.closeBlock, hr, hd]
    exact ⟨rfl, h.nodes, rfl, h.depth⟩
  · obtain ⟨g, outer', hd, hfg, houter⟩ := List.map_eq_cons_iff.mp houter
    obtain ⟨hbefore, hselector⟩ := Prod.mk.inj hfg
    simp only [Reader.closeBlock, Draft.closeBlock, hr, hd]
    refine ⟨houter, ?_, rfl, rfl⟩
    simp [hbefore, hselector, h.flushed]

theorem step (h : r.Drafted d) {l : Lexeme} (hl : l.Sound) :
    (r.step l).Drafted (d.step l) := by
  cases l with
  | quoted t closed =>
    obtain ⟨c, t, rfl⟩ := List.exists_cons_of_ne_nil hl.text_ne_nil
    exact h.add_of_not_blank (by rcases hl.isQuote with rfl | rfl <;> decide) t
  | comment t closed => exact h.pass t
  | plain c =>
    simp only [Reader.step, Draft.step, h.depth]
    split_ifs with h₁ h₂
    · subst h₁
      obtain ⟨houter, hnodes, htext, -⟩ := h.add_of_not_blank (c := '(') (by decide) []
      exact ⟨houter, hnodes, htext, rfl⟩
    · subst h₂
      obtain ⟨houter, hnodes, htext, -⟩ := h.add_of_not_blank (c := ')') (by decide) []
      exact ⟨houter, hnodes, htext, rfl⟩
    · exact h.openBlock
    · exact h.closeBlock
    · exact h.closeDeclaration
    · exact h.addChar c

theorem foldl (h : r.Drafted d) {ls : List Lexeme} (hls : ∀ l ∈ ls, l.Sound) :
    (ls.foldl Reader.step r).Drafted (d.read ls) := by
  induction ls generalizing r d with
  | nil => exact h
  | cons l ls ih =>
    exact ih (h.step (hls l List.mem_cons_self)) fun m hm => hls m (List.mem_cons_of_mem l hm)

theorem finish (h : r.Drafted d) : d.finish = r.finish.map (·.node) := by
  have hlast := congrArg List.getLast? h.outer
  rw [List.getLast?_map, List.getLast?_map] at hlast
  rw [Draft.finish, Reader.finish]
  rcases hd : d.outer.getLast? with _ | f <;> rcases hr : r.outer.getLast? with _ | g <;>
    simp only [hd, hr, Option.map_none, Option.map_some, Option.some.injEq, reduceCtorEq] at hlast
  · simp [h.flushed]
  · simp [(Prod.mk.inj hlast).1]

end Piece.Reader.Drafted

/-- The nodes of a stylesheet are those that its draft ends with. -/
theorem Node.ofText_eq_finish (css : Text) :
    Node.ofText css = (({} : Draft).read (Lexeme.scan css)).finish := by
  have h : ({} : Reader).Drafted {} := ⟨rfl, rfl, rfl, rfl⟩
  rw [(h.foldl (Lexeme.scannable_scan css).sound).finish]
  rfl

end Restyle
