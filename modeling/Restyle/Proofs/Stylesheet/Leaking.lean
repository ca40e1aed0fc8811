import Restyle.Element.Styles
import Restyle.Proofs.Stylesheet.Mention
import Restyle.Proofs.Stylesheet.Reading

/-! # What an open text does to the rule behind it

A text that is not closed takes what follows it into its last quote, comment,
block or declaration. There is always a rule that gets lost in this way.
-/

namespace Restyle

open Text Lexeme

namespace Token

variable {k : Token} {t u : Text}

/-- No mention begins in front of a text and ends inside it, unless a name goes on there. -/
theorem Mentioned.of_append (h : k.Mentioned (t ++ u)) (hu : k.sigil ∉ u)
    (hgoes : Selector.nameGoesOn u = false) : k.Mentioned t := by
  obtain ⟨before, rest, he, hr⟩ := h
  rcases List.append_eq_append_iff.mp he with ⟨x, rfl, hx⟩ | ⟨x, rfl, hx⟩
  · refine absurd ?_ hu
    rw [hx]
    exact List.mem_append_right _ (List.mem_append_left _ List.mem_cons_self)
  · rcases List.append_eq_append_iff.mp hx with ⟨y, rfl, hy⟩ | ⟨y, hk, hy⟩
    · refine ⟨before, y, rfl, ?_⟩
      rcases y with _ | ⟨c, y⟩
      · rfl
      · rwa [hy] at hr
    · rcases y with _ | ⟨c, y⟩
      · exact ⟨before, [], by rw [hk, List.append_nil, List.append_nil], rfl⟩
      · exfalso
        have hc : c ∈ u := by
          rw [hy]
          exact List.mem_cons_self
        have hmem : c ∈ k.text := by
          rw [hk]
          exact List.mem_append_right _ List.mem_cons_self
        rcases List.mem_cons.mp hmem with rfl | hmem
        · exact hu hc
        · rw [hy] at hgoes
          exact Bool.false_ne_true (hgoes.symm.trans (k.isNameChar_of_mem hmem))

end Token

namespace Draft

variable {d : Draft} {t u : Text}

theorem selectorsOfAll_finish (d : Draft) :
    Node.selectorsOfAll d.finish = Node.selectorsOfAll d.bottom.reverse := by
  rw [finish, bottom]
  rcases d.outer.getLast? with _ | f
  · dsimp only
    rw [flushed]
    split
    · rfl
    · rw [List.reverse_cons, Node.selectorsOfAll_append]
      exact List.append_nil _
  · rfl

theorem bottom_readText (hd : d.outer ≠ []) (hu : bracesBehind? 0 u = some 0) :
    (d.readText u).bottom = d.bottom := by
  obtain ⟨inner, hlen, ho⟩ := outer_readText [] d.outer hu rfl
  rw [List.length_eq_zero_iff.mp hlen] at ho
  exact bottom_eq_of_outer_eq ho hd

theorem isBlank_getLast?_text (t : Text) :
    ∀ c ∈ (({} : Draft).read (scan t)).text.getLast?, isBlank c = false := by
  have h : ({} : Piece.Reader).Drafted {} := ⟨rfl, rfl, rfl, rfl⟩
  rw [(h.foldl (scannable_scan t).sound).text]
  exact getLast?_trimEnd _

end Draft

namespace Snippet

variable {t u : Text} {a : Char}

/-- What the selectors of a text mention, and what stands at its end in front of no body, is one
token at most. -/
structure KeepsTo (own t : Text) : Prop where
  nodes : Node.MentionOnly own (Node.ofText t)
  pending : (({} : Draft).read (scan t)).outer = [] →
    ∀ k : Token, k.Mentioned (({} : Draft).read (scan t)).text.reverse → k.text = own

def plainRule (name : Text) : Text :=
  '.' :: name ++ "\x7bc:d\x7d"

def conditionalRule (name : Text) : Text :=
  "@media x\x7b" ++ plainRule name ++ "\x7d"

def precededRule (name : Text) : Text :=
  "@x;" ++ plainRule name

def rulesFor (name : Text) : List Text :=
  [plainRule name, conditionalRule name, precededRule name]

variable {k : Token} {own : Text}

theorem selectorsOfAll_append_of_open (hu : Inert u)
    (h : ∃ l ∈ (scan t).getLast?, l.closed = false) :
    Node.selectorsOfAll (Node.ofText (t ++ u)) = Node.selectorsOfAll (Node.ofText t) := by
  obtain ⟨l, hlast, hl⟩ := h
  obtain ⟨ls, hls⟩ := List.getLast?_eq_some_iff.mp hlast
  have hbottom : ∀ d : Draft, (d.step (l.extend u)).bottom = (d.step l).bottom := by
    intro d
    cases l <;> rfl
  rw [Node.ofText_eq_finish, Node.ofText_eq_finish, Draft.selectorsOfAll_finish,
    Draft.selectorsOfAll_finish, scan_append_of_open hu hls hl, hls, Draft.read_append,
    Draft.read_append]
  exact congrArg (fun ns => Node.selectorsOfAll ns.reverse) (hbottom _)

theorem read_append_of_closed (h : ∀ l ∈ (scan t).getLast?, l.closed = true) (hu : Plain u)
    (hhead : u.head? ≠ some '*') :
    ({} : Draft).read (scan (t ++ u)) = (({} : Draft).read (scan t)).readText u := by
  rw [scan_append fun l hl => ⟨h l hl, fun _ => hhead⟩, Draft.read_append, hu.scan_eq]
  rfl

theorem startsWith_trim {c : Char} (hc : isBlank c = false) (t : Text) :
    (trim (c :: t)).startsWith "@" = decide ('@' = c) := by
  have hhead := head?_trim_append (t := [c]) ⟨by simp [hc], by simp [hc]⟩ (List.cons_ne_nil _ _) t
  obtain ⟨v, hv⟩ := List.head?_eq_some_iff.mp hhead
  rw [List.singleton_append] at hv
  rw [hv]
  exact Bool.and_true _

theorem not_mentioned_of_read {n : Node} {nodes : List Node} {text : Text} {depth : Nat}
    (hown : Node.MentionOnly own (Node.ofText t)) (hne : k.text ≠ own)
    (ht : ({} : Draft).read (scan t) = ⟨[], nodes, text, depth⟩)
    (hu : ({} : Draft).read (scan (t ++ u)) = ⟨[], n :: nodes, [], 0⟩)
    (hn : ∀ s ∈ n.selectors, ¬ k.Mentioned s) :
    ∀ s ∈ Node.selectorsOfAll (Node.ofText (t ++ u)), ¬ k.Mentioned s := by
  have hnodes := hown.not_mentioned hne
  rw [Node.ofText_eq_finish, Draft.selectorsOfAll_finish, ht] at hnodes
  rw [Node.ofText_eq_finish, Draft.selectorsOfAll_finish, hu]
  have hsplit : Node.selectorsOfAll (n :: nodes).reverse =
      Node.selectorsOfAll nodes.reverse ++ n.selectors := by
    rw [List.reverse_cons, Node.selectorsOfAll_append]
    exact congrArg _ (List.append_nil _)
  intro s hs
  have hs' : s ∈ Node.selectorsOfAll nodes.reverse ++ n.selectors := hsplit ▸ hs
  rcases List.mem_append.mp hs' with hs' | hs'
  · exact hnodes s hs'
  · exact hn s hs'

theorem selectors_of_declaration {selector : Text} (h : selector.startsWith "@" = true) (u : Text) :
    (Node.block selector [.declaration u]).selectors = [] := by
  rw [Node.selectors, if_pos h]
  split <;> rfl

section Rules

variable (ha : a = 'b' ∨ a = 'c') (nodes : List Node) (c : Char) (text : Text) (depth : Nat)

include ha

theorem readText_plainRule :
    (⟨[], nodes, c :: text, depth⟩ : Draft).readText (CustomCss.apart (plainRule [a])) =
      ⟨[], .block (trim ((c :: text).reverse ++ ['\n', '.', a])) [.declaration "c:d"] :: nodes, [],
        0⟩ := by
  have hreverse : (c :: text).reverse ++ ['\n', '.', a] = (a :: '.' :: '\n' :: c :: text).reverse := by
    simp
  rw [hreverse]
  rcases ha with rfl | rfl <;> rfl

theorem readText_conditionalRule :
    (⟨[], nodes, c :: text, depth⟩ : Draft).readText (CustomCss.apart (conditionalRule [a])) =
      ⟨[], .block (trim ((c :: text).reverse ++ "\n@media x"))
        [.block ['.', a] [.declaration "c:d"]] :: nodes, [], 0⟩ := by
  have hreverse : (c :: text).reverse ++ ("\n@media x" : Text) =
      (("x aidem@\n" : Text) ++ c :: text).reverse := by
    simp
  rw [hreverse]
  rcases ha with rfl | rfl <;> rfl

theorem readText_precededRule :
    (⟨[], nodes, [], depth + 1⟩ : Draft).readText (CustomCss.apart (precededRule [a])) =
      ⟨[], .block ("@x;." ++ [a]) [.declaration "c:d"] :: nodes, [], 0⟩ := by
  rcases ha with rfl | rfl <;> rfl

end Rules

theorem plainRule_mem (name : Text) : plainRule name ∈ rulesFor name :=
  List.mem_cons_self

theorem conditionalRule_mem (name : Text) : conditionalRule name ∈ rulesFor name :=
  List.mem_cons_of_mem _ List.mem_cons_self

theorem precededRule_mem (name : Text) : precededRule name ∈ rulesFor name :=
  List.mem_cons_of_mem _ (List.mem_cons_of_mem _ List.mem_cons_self)

theorem read_append_rule (ha : a = 'b' ∨ a = 'c') (ht : ∀ l ∈ (scan t).getLast?, l.closed = true)
    {rule : Text} (hr : rule ∈ rulesFor [a]) :
    ({} : Draft).read (scan (t ++ CustomCss.apart rule)) =
      (({} : Draft).read (scan t)).readText (CustomCss.apart rule) := by
  have hplain : ∀ rule ∈ rulesFor [a], Plain (CustomCss.apart rule) := by
    rcases ha with rfl | rfl <;> decide
  exact read_append_of_closed ht (hplain rule hr) (by simp [CustomCss.apart])

/-- A pending text swallows the rule behind it, or the selector of that rule. -/
theorem exists_rule_lost_of_text (ha : a = 'b' ∨ a = 'c') (hk : k.text = ['.', a])
    (hown : KeepsTo own t) (hne : k.text ≠ own) (ht : ∀ l ∈ (scan t).getLast?, l.closed = true)
    {nodes : List Node} {c : Char} {text : Text} {depth : Nat}
    (hd : ({} : Draft).read (scan t) = ⟨[], nodes, c :: text, depth⟩) :
    ∃ rule ∈ rulesFor [a], ∀ s ∈ Node.selectorsOfAll (Node.ofText (t ++ CustomCss.apart rule)),
      ¬ k.Mentioned s := by
  have hvisible := Draft.isBlank_getLast?_text t
  have hpending := hown.pending
  rw [hd] at hvisible hpending
  obtain ⟨e, he⟩ : ∃ e, (c :: text).getLast? = some e := ⟨_, List.getLast?_cons⟩
  obtain ⟨rest, hrest⟩ : ∃ rest, (c :: text).reverse = e :: rest := by
    rw [← List.head?_reverse] at he
    exact List.head?_eq_some_iff.mp he
  have hstart : ∀ u, (trim ((c :: text).reverse ++ u)).startsWith "@" = decide ('@' = e) := by
    intro u
    rw [hrest]
    exact startsWith_trim (hvisible e he) _
  by_cases hat : '@' = e
  · have hmem := plainRule_mem [a]
    have hu := (hd ▸ read_append_rule ha ht hmem).trans (readText_plainRule ha nodes c text depth)
    refine ⟨_, hmem, not_mentioned_of_read hown.nodes hne hd hu ?_⟩
    rw [selectors_of_declaration ((hstart _).trans (decide_eq_true hat))]
    exact fun s hs => absurd hs List.not_mem_nil
  · have hmem := conditionalRule_mem [a]
    have hu := (hd ▸ read_append_rule ha ht hmem).trans
      (readText_conditionalRule ha nodes c text depth)
    refine ⟨_, hmem, not_mentioned_of_read hown.nodes hne hd hu ?_⟩
    intro s hs hm
    rw [Node.selectors, hstart, if_neg (by simp [hat]), List.mem_singleton] at hs
    have hsigil : k.sigil ∉ ("\n@media x" : Text) := by
      rw [(List.cons.inj hk).1]
      decide
    exact hne (hpending rfl k ((hs ▸ hm).of_trim.of_append hsigil (by decide)))

/-- Behind a text that is not closed and does not mention a class, one of the rules for the class
is lost. -/
theorem exists_rule_lost (ha : a = 'b' ∨ a = 'c') (hk : k.text = ['.', a]) (hown : KeepsTo own t)
    (hne : k.text ≠ own) (ht : ¬ Closed t) :
    ∃ rule ∈ rulesFor [a], ∀ s ∈ Node.selectorsOfAll (Node.ofText (t ++ CustomCss.apart rule)),
      ¬ k.Mentioned s := by
  have hnodes := hown.nodes.not_mentioned hne
  have hmem := plainRule_mem [a]
  by_cases hlast : ∃ l ∈ (scan t).getLast?, l.closed = false
  · have hinert : ∀ rule ∈ rulesFor [a], Inert (CustomCss.apart rule) := by
      rcases ha with rfl | rfl <;> decide
    refine ⟨_, hmem, ?_⟩
    rwa [selectorsOfAll_append_of_open (hinert _ hmem) hlast]
  · have hclosed : ∀ l ∈ (scan t).getLast?, l.closed = true := by
      intro l hl
      by_contra hc
      exact hlast ⟨l, hl, Bool.eq_false_iff.mpr hc⟩
    rcases hd : ({} : Draft).read (scan t) with ⟨_ | ⟨f, outer⟩, nodes, _ | ⟨c, text⟩, depth⟩
    · rcases depth with _ | depth
      · exact absurd ⟨hclosed, hd ▸ ⟨rfl, rfl, rfl⟩⟩ ht
      · have hmem := precededRule_mem [a]
        have hu := (hd ▸ read_append_rule ha hclosed hmem).trans
          (readText_precededRule ha nodes depth)
        refine ⟨_, hmem, not_mentioned_of_read hown.nodes hne hd hu ?_⟩
        rw [selectors_of_declaration rfl]
        exact fun s hs => absurd hs List.not_mem_nil
    · exact exists_rule_lost_of_text ha hk hown hne hclosed hd
    all_goals
      refine ⟨_, hmem, ?_⟩
      have hbraces : bracesBehind? 0 (CustomCss.apart (plainRule [a])) = some 0 := by
        rcases ha with rfl | rfl <;> decide
      rw [Node.ofText_eq_finish, Draft.selectorsOfAll_finish] at hnodes
      rwa [Node.ofText_eq_finish, Draft.selectorsOfAll_finish, read_append_rule ha hclosed hmem,
        Draft.bottom_readText (by rw [hd]; exact List.cons_ne_nil _ _) hbraces]

end Snippet

end Restyle
