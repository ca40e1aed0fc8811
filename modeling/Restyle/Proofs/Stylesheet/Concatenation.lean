import Restyle.Proofs.Stylesheet.Joining
import Restyle.Proofs.Stylesheet.Partition

/-! # Rules of concatenated stylesheets

Where reading a stylesheet comes to rest, the rules of what follows come behind
its own. What follows need not be balanced: of a text in which a block is never
closed the rules in front of that block remain.
-/

namespace Restyle

open Text Lexeme Piece

namespace Piece.Reader

structure AtRest (r : Reader) : Prop where
  outer : r.outer = []
  text : Blank r.text
  depth : r.depth = 0

/-- A block is open, and nothing stands before the outermost one. -/
def OpensFirst (r : Reader) : Prop :=
  ∃ f ∈ r.outer.getLast?, f.before = []

instance (r : Reader) : Decidable r.AtRest :=
  decidable_of_iff (r.outer.isEmpty = true ∧ Blank r.text ∧ r.depth = 0)
    ⟨fun h => ⟨List.isEmpty_iff.mp h.1, h.2.1, h.2.2⟩,
      fun h => ⟨List.isEmpty_iff.mpr h.outer, h.text, h.depth⟩⟩

instance (r : Reader) : Decidable r.OpensFirst :=
  decidable_of_iff ((r.outer.getLast?.any fun f => f.before.isEmpty) = true)
    (by simp [OpensFirst, Option.any_eq_true])

variable {r : Reader} {d : Draft}

theorem AtRest.settled (h : r.AtRest) (hd : r.Drafted d) : d.Settled := by
  refine ⟨?_, ?_, hd.depth.trans h.depth⟩
  · have houter := hd.outer
    rw [h.outer] at houter
    exact List.map_eq_nil_iff.mp houter
  · rw [hd.text]
    exact trimEnd_eq_nil_iff.mpr h.text

theorem OpensFirst.finish_eq_nil (h : r.OpensFirst) : r.finish = [] := by
  obtain ⟨f, hf, hbefore⟩ := h
  have hlast : r.outer.getLast? = some f := hf
  rw [finish, hlast]
  exact congrArg List.reverse hbefore

end Piece.Reader

namespace Snippet

def reader (t : Text) : Reader :=
  (scan t).foldl Reader.step {}

/-- Reading the text ends outside every block, parenthesis, quote and comment, and only white
space and comments have come since the last node. -/
structure Rests (t : Text) : Prop where
  closed : ∀ l ∈ (scan t).getLast?, l.closed = true
  reader : (reader t).AtRest

instance (t : Text) : Decidable (Rests t) :=
  decidable_of_iff ((∀ l ∈ (scan t).getLast?, l.closed = true) ∧ (Snippet.reader t).AtRest)
    ⟨fun h => ⟨h.1, h.2⟩, fun h => ⟨h.closed, h.reader⟩⟩

/-- The text begins with a block that nothing closes. -/
def Unclosed (t : Text) : Prop :=
  (reader t).OpensFirst

instance (t : Text) : Decidable (Unclosed t) :=
  inferInstanceAs (Decidable (reader t).OpensFirst)

variable {a b c d token : Text}

theorem drafted_reader (t : Text) : (reader t).Drafted (({} : Draft).read (scan t)) := by
  have h : ({} : Reader).Drafted {} := ⟨rfl, rfl, rfl, rfl⟩
  exact h.foldl (scannable_scan t).sound

theorem Rests.toClosed (h : Rests a) : Closed a :=
  ⟨h.closed, h.reader.settled (drafted_reader a)⟩

theorem Unclosed.ofText_eq_nil (h : Unclosed d) : Node.ofText d = [] := by
  have hfinish : Piece.ofText d = [] := h.finish_eq_nil
  rw [Node.ofText, hfinish, List.map_nil]

theorem Closed.extract_append (h : Closed a) (b token : Text) :
    Rule.extract (a ++ b) token = Rule.extract a token ++ Rule.extract b token := by
  rw [Rule.extract, h.ofText_append, Rule.ofNodes_append, Rule.extract, Rule.extract]

theorem Unclosed.extract_eq_nil (h : Unclosed d) (token : Text) : Rule.extract d token = [] := by
  rw [Rule.extract, h.ofText_eq_nil, Rule.ofNodes]

end Snippet

open Snippet

/-- Behind a stylesheet that comes to rest, any text adds its own rules; if the text goes on with
a block that nothing closes, it adds those in front of the block. -/
theorem Rule.extract_append_of_rests {a : Text} (ha : Rests a) :
    (∀ b token, extract (a ++ b) token = extract a token ++ extract b token) ∧
    ∀ c d token, Rests c → Unclosed d →
      extract (a ++ (c ++ d)) token = extract a token ++ extract c token := by
  have happend : ∀ b token, extract (a ++ b) token = extract a token ++ extract b token :=
    fun b token => ha.toClosed.extract_append b token
  refine ⟨happend, fun c d token hc hd => ?_⟩
  calc extract (a ++ (c ++ d)) token
    _ = extract a token ++ extract (c ++ d) token := happend (c ++ d) token
    _ = extract a token ++ (extract c token ++ extract d token) :=
      congrArg _ (hc.toClosed.extract_append d token)
    _ = extract a token ++ extract c token := by rw [hd.extract_eq_nil, List.append_nil]

def resting : Text :=
  ".a\x7bcontent:\"\x7d\"/* \x7b */\x7d /* \x7b */"

def unclosed : Text :=
  ".b .a\x7btop:0\x7d .c\x7b.a\x7bleft:0\x7d"

theorem Rule.extract_append_of_rests_resting :
    Rests resting ∧ Rests ".b .a\x7btop:0\x7d " ∧ Unclosed ".c\x7b.a\x7bleft:0\x7d" ∧
      extract (resting ++ unclosed) ".a" = extract resting ".a" ++ extract unclosed ".a" ∧
      extract (resting ++ (".b .a\x7btop:0\x7d " ++ ".c\x7b.a\x7bleft:0\x7d")) ".a" =
        extract resting ".a" ++ extract ".b .a\x7btop:0\x7d " ".a" := by
  have ha : Rests resting := by decide +kernel
  have hc : Rests ".b .a\x7btop:0\x7d " := by decide +kernel
  have hd : Unclosed ".c\x7b.a\x7bleft:0\x7d" := by decide +kernel
  exact ⟨ha, hc, hd, (extract_append_of_rests ha).1 unclosed ".a",
    (extract_append_of_rests ha).2 _ _ ".a" hc hd⟩

end Restyle
