import Restyle.Proofs.Stylesheet.Draft
import Restyle.Stylesheet.Names

/-! # Stylesheets without some of their comments

Comments may be deleted from a stylesheet, whatever they contain and wherever
they stand: its rules and the names it uses stay the same. Only where a slash
stands in front of a comment the two lexemes around it could open another one.
-/

namespace Restyle

open Text Lexeme

namespace Lexeme

/-- Some of the comments are deleted, none of them directly behind a slash. -/
inductive Strips : List Lexeme → List Lexeme → Prop where
  | nil : Strips [] []
  | keep {ls ms : List Lexeme} (l : Lexeme) (h : Strips ls ms)
      (slash : l = plain '/' → ms.head? = ls.head?) : Strips (l :: ls) (l :: ms)
  | delete {ls ms : List Lexeme} (t : Text) (closed : Bool) (h : Strips ls ms) :
      Strips (comment t closed :: ls) ms

variable {l : Lexeme} {ls ms : List Lexeme}

theorem Strips.subset (h : Strips ls ms) : ms ⊆ ls := by
  induction h with
  | nil => exact List.Subset.refl _
  | keep l _ _ ih => exact List.cons_subset_cons l ih
  | delete t closed _ ih => exact List.Subset.trans ih (List.subset_cons_self _ _)

theorem strips_nil_iff : Strips [] ms ↔ ms = [] := by
  constructor
  · rintro ⟨⟩
    rfl
  · rintro rfl
    exact .nil

theorem strips_cons_iff : Strips (l :: ls) ms ↔
    (ms.head? = some l ∧ Strips ls ms.tail ∧ (l = plain '/' → ms.tail.head? = ls.head?)) ∨
      (l = comment l.text l.closed ∧ Strips ls ms) := by
  constructor
  · intro h
    cases h with
    | keep _ h slash => exact Or.inl ⟨rfl, h, slash⟩
    | delete t closed h => exact Or.inr ⟨rfl, h⟩
  · rintro (⟨hhead, h, slash⟩ | ⟨hl, h⟩)
    · obtain ⟨ms, rfl⟩ := List.head?_eq_some_iff.mp hhead
      exact .keep l h slash
    · exact hl ▸ .delete l.text l.closed h

instance instDecidableStrips : ∀ ls ms, Decidable (Strips ls ms)
  | [], _ => decidable_of_iff _ strips_nil_iff.symm
  | _ :: ls, ms =>
    have := instDecidableStrips ls ms.tail
    have := instDecidableStrips ls ms
    decidable_of_iff _ strips_cons_iff.symm

theorem Strips.closed (h : Strips ls ms) (hl : (l :: ls).IsChain Beside) (hms : ms ≠ []) :
    l.closed = true := by
  have hls : ls ≠ [] := by
    rintro rfl
    exact hms (List.subset_nil.mp h.subset)
  obtain ⟨m, ls, rfl⟩ := List.exists_cons_of_ne_nil hls
  exact (List.isChain_cons_cons.mp hl).1.1

theorem Strips.isChain (h : Strips ls ms) (hls : ls.IsChain Beside) : ms.IsChain Beside := by
  induction h with
  | nil => exact List.isChain_nil
  | delete t closed _ ih => exact ih hls.tail
  | @keep ls ms l h slash ih =>
    rcases ms with _ | ⟨m, ms⟩
    · exact List.isChain_singleton l
    · refine List.isChain_cons_cons.mpr ⟨⟨h.closed hls (List.cons_ne_nil m ms), ?_⟩, ih hls.tail⟩
      rintro ⟨rfl, rfl⟩
      -- Behind a slash nothing is deleted, so the two stood side by side before.
      obtain ⟨ls, rfl⟩ := List.head?_eq_some_iff.mp (slash rfl).symm
      exact (List.isChain_cons_cons.mp hls).1.2 ⟨rfl, rfl⟩

theorem Strips.scannable (h : Strips ls ms) (hls : Scannable ls) : Scannable ms :=
  ⟨fun l hl => hls.sound l (h.subset hl), h.isChain hls.beside⟩

end Lexeme

/-- A draft passes over comments. -/
theorem Draft.read_of_strips {ls ms : List Lexeme} (h : Strips ls ms) (d : Draft) :
    d.read ms = d.read ls := by
  induction h generalizing d with
  | nil => rfl
  | keep l _ _ ih => exact ih (d.step l)
  | delete t closed _ ih => exact ih d

theorem Node.ofText_of_strips {css : Text} {ms : List Lexeme} (h : Strips (scan css) ms) :
    Node.ofText (textOf ms) = Node.ofText css := by
  rw [Node.ofText_eq_finish, (h.scannable (scannable_scan css)).scan_textOf,
    Draft.read_of_strips h, Node.ofText_eq_finish]

/-- The rules of a stylesheet for a token and the names it uses do not depend on its comments. -/
theorem extract_and_selectorNames_of_strips {css : Text} {ms : List Lexeme}
    (h : Strips (scan css) ms) (token : Text) (sigil : Char) :
    Rule.extract (textOf ms) token = Rule.extract css token ∧
      selectorNames (textOf ms) sigil = selectorNames css sigil := by
  have hnodes := Node.ofText_of_strips h
  constructor
  · rw [Rule.extract, hnodes, Rule.extract]
  · rw [selectorNames, hnodes, selectorNames]

def commented : Text :=
  "@media/*\x7b*/(x)\x7b.a/*\"*/ .b\x7btop/*;*/:0//**/*1/*!*/\x7d\x7d/*\x7d*//* */.c\x7b"

def stripped : Text :=
  "@media(x)\x7b.a .b\x7btop:0//**/*1/*!*/\x7d\x7d.c\x7b"

theorem extract_and_selectorNames_of_strips_commented :
    Strips (scan commented) (scan stripped) ∧ textOf (scan stripped) = stripped ∧
      Rule.extract (textOf (scan stripped)) ".b" = Rule.extract commented ".b" ∧
      selectorNames (textOf (scan stripped)) '.' = selectorNames commented '.' ∧
      selectorNames commented '.' = ["a", "b"] := by
  have h : Strips (scan commented) (scan stripped) := by decide +kernel
  obtain ⟨hrules, hnames⟩ := extract_and_selectorNames_of_strips h ".b" '.'
  exact ⟨h, textOf_scan stripped, hrules, hnames, by decide +kernel⟩

end Restyle
