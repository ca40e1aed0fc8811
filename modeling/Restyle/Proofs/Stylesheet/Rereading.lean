import Restyle.Proofs.Stylesheet.Partition
import Restyle.Proofs.Stylesheet.Relative
import Restyle.Proofs.Stylesheet.Steady

/-! # Nested CSS read again

The nested CSS for a token, put in the braces of a rule for the token, is read
as the nested CSS that it is, apart from the white space in front of its lines.
For that, no selector list may be cut inside quotes, and no line may end with
more than one carriage return.
-/

namespace Restyle

open Text Selector

namespace Rule

variable {k : Token} {conditions : List Text} {r : Rule}

/-- What a rule for a token is printed with, apart from its selector. -/
structure Regular (r : Rule) : Prop where
  conditions : ∀ c ∈ r.conditions, AtRule.Printable c
  single : SingleReturns r.selector
  declarations : Steady r.declarations

theorem regular_of_mem_ofBlock {selector : Text} {body : List Node}
    (hs : SingleReturns selector) (hbody : Node.CleanAll body)
    (hc : ∀ c ∈ conditions, AtRule.Printable c)
    (hr : r ∈ ofBlock k.text conditions selector body) : r.Regular := by
  obtain ⟨-, hdeclarations, rfl⟩ := mem_ofBlock_iff.mp hr
  refine ⟨hc, singleReturns_join fun t ht => ?_, Node.steady_formatBody hbody hdeclarations⟩
  obtain ⟨s, hs', hrelative⟩ := List.mem_filterMap.mp ht
  exact singleReturns_relativeTo? (hs.mono (infix_of_mem_splitList hs')) hrelative

mutual

theorem regular_of_mem_ofNode : ∀ (n : Node) (conditions : List Text), n.Clean →
    (∀ c ∈ conditions, AtRule.Printable c) → ∀ r ∈ ofNode k.text conditions n, r.Regular
  | .declaration t, _, _, _ => by simp [ofNode]
  | .block selector body, conditions, h, hc => by
    intro r hr
    rw [ofNode] at hr
    split_ifs at hr with hat
    · rcases hcondition : AtRule.condition? selector with _ | c <;> rw [hcondition] at hr
      · cases hr
      · have hne : selector ≠ [] := by
          rintro rfl
          cases hat
        have hprintable : AtRule.Printable c := by
          have hhead := AtRule.printable_head h.1 hne
          rwa [AtRule.head, hcondition] at hhead
        refine regular_of_mem_ofNodes body (conditions ++ [c]) h.2 ?_ r hr
        exact List.forall_mem_append.mpr ⟨hc, by simpa using hprintable⟩
    · exact regular_of_mem_ofBlock h.1.single h.2 hc hr

theorem regular_of_mem_ofNodes : ∀ (ns : List Node) (conditions : List Text), Node.CleanAll ns →
    (∀ c ∈ conditions, AtRule.Printable c) → ∀ r ∈ ofNodes k.text conditions ns, r.Regular
  | [], _, _, _ => by simp [ofNodes]
  | n :: ns, conditions, h, hc => by
    intro r hr
    rw [ofNodes] at hr
    rcases List.mem_append.mp hr with hr | hr
    · exact regular_of_mem_ofNode n conditions h.1 hc r hr
    · exact regular_of_mem_ofNodes ns conditions h.2 hc r hr

end

theorem Regular.printable (h : r.Regular) (hselector : Proper r.selector) : r.Printable := by
  have hclean : Clean r.selector := ⟨hselector.leaves, hselector.chunk.trimmed, h.single⟩
  have hprintable := AtRule.printable_head hclean hselector.chunk.ne_nil
  rw [AtRule.head, hselector.condition?] at hprintable
  exact ⟨h.conditions, hprintable, h.declarations⟩

mutual

theorem proper_of_mem_ofNode : ∀ (n : Node) (conditions : List Text),
    (∀ s ∈ n.selectors, k.Separated s) → ∀ r ∈ ofNode k.text conditions n, Proper r.selector
  | .declaration t, _, _ => by simp [ofNode]
  | .block selector body, conditions, h => by
    intro r hr
    rw [Node.selectors] at h
    rw [ofNode] at hr
    split_ifs at hr h with hat hcondition
    · obtain ⟨c, hc⟩ := Option.isSome_iff_exists.mp hcondition
      rw [hc] at hr
      exact proper_of_mem_ofNodes body _ h r hr
    · rw [Option.not_isSome_iff_eq_none.mp hcondition] at hr
      cases hr
    · obtain ⟨hselectors, -, rfl⟩ := mem_ofBlock_iff.mp hr
      exact (h selector List.mem_cons_self).proper hselectors

theorem proper_of_mem_ofNodes : ∀ (ns : List Node) (conditions : List Text),
    (∀ s ∈ Node.selectorsOfAll ns, k.Separated s) →
      ∀ r ∈ ofNodes k.text conditions ns, Proper r.selector
  | [], _, _ => by simp [ofNodes]
  | n :: ns, conditions, h => by
    intro r hr
    rw [Node.selectorsOfAll, List.forall_mem_append] at h
    rw [ofNodes] at hr
    rcases List.mem_append.mp hr with hr | hr
    · exact proper_of_mem_ofNode n conditions h.1 r hr
    · exact proper_of_mem_ofNodes ns conditions h.2 r hr

end

/-- The rules of a stylesheet without comments in which no brace stands in parentheses. -/
theorem regular_of_mem_extract {css : Text} (hcomments : Uncommented css) (hparens : ClosesParens css)
    (hreturns : SingleReturns css) (hr : r ∈ extract css k.text) : r.Regular := by
  rw [extract, ofNodes_eq_flatMap] at hr
  obtain ⟨n, hn, hr⟩ := List.mem_flatMap.mp hr
  rcases Node.clean_or_declaration hcomments hparens hreturns n hn with hclean | ⟨t, rfl⟩
  · exact regular_of_mem_ofNode n [] hclean (by simp) r hr
  · cases hr

end Rule

namespace ConditionalBlock

variable {token c t : Text} {n : Node}

theorem exists_of_ofNode? (h : ofNode? token n = some (c, t)) :
    ∃ rules ≠ [], Rule.ofNode token [] n = rules.map (Rule.under c) ∧ t = Rule.render rules true := by
  rcases n with d | ⟨selector, body⟩
  · cases h
  · rw [ofNode?] at h
    rcases hc : AtRule.condition? selector with _ | condition <;> rw [hc] at h
    · cases h
    · dsimp only at h
      split_ifs at h with hempty
      obtain ⟨rfl, rfl⟩ := Prod.mk.inj (Option.some.inj h)
      refine ⟨Rule.ofNodes token [] body, by simpa using hempty, ?_, rfl⟩
      rw [Rule.ofNode, if_pos (AtRule.startsWith_of_condition? hc), hc]
      exact Rule.ofNodes_cons token condition [] body

theorem steady_of_ofNode? (h : ofNode? token n = some (c, t))
    (hrules : ∀ r ∈ Rule.ofNode token [] n, r.Printable) : AtRule.Printable c ∧ Steady t := by
  obtain ⟨rules, hne, hn, rfl⟩ := exists_of_ofNode? h
  have hunder : ∀ r ∈ rules, AtRule.Printable c ∧ r.Printable := by
    intro r hr
    obtain ⟨hconditions, hselector, hdeclarations⟩ :=
      hrules (Rule.under c r) (hn ▸ List.mem_map_of_mem hr)
    obtain ⟨hc, hconditions⟩ := List.forall_mem_cons.mp hconditions
    exact ⟨hc, hconditions, hselector, hdeclarations⟩
  obtain ⟨r, hr⟩ := List.exists_mem_of_ne_nil rules hne
  exact ⟨(hunder r hr).1, Rule.steady_render (fun r hr => (hunder r hr).2) hne true⟩

end ConditionalBlock

open ConditionalBlock

variable {k : Token} {css : Text} {nodes rest : List Node}

theorem steady_nestedOf (hrules : ∀ r ∈ Rule.ofNodes k.text [] nodes, r.Printable)
    (hrest : rest ⊆ nodes) :
    nestedOf k.text nodes rest = [] ∨ Steady (nestedOf k.text nodes rest) := by
  simp only [Rule.ofNodes_eq_flatMap, List.mem_flatMap] at hrules
  have hplain : ∀ r ∈ Rule.ofNodes k.text [] rest, r.Printable := by
    intro r hr
    rw [Rule.ofNodes_eq_flatMap] at hr
    obtain ⟨n, hn, hr⟩ := List.mem_flatMap.mp hr
    exact hrules r ⟨n, hrest hn, hr⟩
  have hblocks : ∀ p ∈ Table.group (nodes.filterMap (ofNode? k.text)),
      Steady (braced p.1 (join "\n" p.2)) := by
    rintro ⟨c, bodies⟩ hp
    obtain ⟨hne, hbodies⟩ := Table.mem_group hp
    have hblock : ∀ body ∈ bodies, AtRule.Printable c ∧ Steady body := by
      intro body hbody
      obtain ⟨n, hn, hblock⟩ := List.mem_filterMap.mp (hbodies body hbody)
      exact steady_of_ofNode? hblock fun r hr => hrules r ⟨n, hn, hr⟩
    obtain ⟨body, hbody⟩ := List.exists_mem_of_ne_nil bodies hne
    exact .braced (hblock body hbody).1 (.join (fun body hbody => (hblock body hbody).2) hne)
  rw [nestedOf]
  dsimp only
  generalize hparts : (if (Rule.render (Rule.ofNodes k.text [] rest) false).isEmpty then []
    else [Rule.render (Rule.ofNodes k.text [] rest) false]) ++ _ = parts
  have hsteady : ∀ t ∈ parts, Steady t := by
    subst hparts
    refine List.forall_mem_append.mpr ⟨?_, List.forall_mem_map.mpr hblocks⟩
    split_ifs with hempty
    · simp
    · rw [List.forall_mem_singleton]
      refine Rule.steady_render hplain (fun hnil => ?_) false
      rw [hnil] at hempty
      exact hempty rfl
  rcases eq_or_ne parts [] with rfl | hne
  · exact Or.inl rfl
  · have hjoin := Steady.join hsteady hne
    rw [hjoin.trimmed.trim_eq]
    exact Or.inr hjoin

/-- Nested CSS leaves nothing open, and is read back from a rule for the token as it is, apart from
white space at the beginning of its lines. -/
theorem nestedCss_reread (k : Token) (hcomments : Uncommented css) (hparens : ClosesParens css)
    (hreturns : SingleReturns css)
    (hselectors : ∀ s ∈ Node.selectorsOfAll (Node.ofText css), k.Separated s) :
    Snippet.Closed (nestedCss css k.text) ∧
      unindent (nestedCss (k.text ++ " \x7b" ++ nestedCss css k.text ++ "\x7d") k.text) =
        unindent (nestedCss css k.text) := by
  have hrules : ∀ r ∈ Rule.extract css k.text, r.Printable := fun r hr =>
    (Rule.regular_of_mem_extract hcomments hparens hreturns hr).printable
      (Rule.proper_of_mem_ofNodes _ _ hselectors r hr)
  have hsteady : nestedCss css k.text = [] ∨ Steady (nestedCss css k.text) := by
    rw [nestedCss_eq, remaining_eq_filter (holds_declaration k.text) hparens]
    exact steady_nestedOf hrules (List.filter_subset_self _)
  obtain ⟨ns, hns, htrimmed, hformat⟩ : ∃ ns, Yields ns (nestedCss css k.text) ∧
      Trimmed (Node.formatBody ns) ∧
      unindent (Node.formatBody ns) = unindent (nestedCss css k.text) := by
    rcases hsteady with hnil | hsteady
    · rw [hnil]
      exact ⟨[], .nil, by decide, rfl⟩
    · obtain ⟨ns, hns, htrimmed, -, hformat⟩ := hsteady.rereads 0
      exact ⟨ns, hns, htrimmed, hformat⟩
  have hrule : Node.ofText (k.text ++ " \x7b" ++ nestedCss css k.text ++ "\x7d") =
      [.block k.text ns] := by
    have hblock := (Yields.braces k.chunk_text (by decide : Blank [' ']) hns).ofText
    simpa using hblock
  refine ⟨hns.toClosed, ?_⟩
  rw [k.nestedCss_block hrule, htrimmed.trim_eq, hformat]

theorem nestedCss_reread_layered :
    let k : Token := ⟨'.', "a", by decide, by decide, by decide⟩
    let css : Text := "x,.a:is(.b,.c)>d[e=\"\x7d,\"]\x7bf:g;@media (max-width:767px)\x7bh:i\x7d\x7d" ++
      "@media print\x7b.a y\x7bj:k\x7d\x7d"
    (Uncommented css ∧ ClosesParens css ∧ SingleReturns css ∧
        ∀ s ∈ Node.selectorsOfAll (Node.ofText css), k.Separated s) ∧
      Snippet.Closed (nestedCss css k.text) ∧
      unindent (nestedCss (k.text ++ " \x7b" ++ nestedCss css k.text ++ "\x7d") k.text) =
        unindent (nestedCss css k.text) := by
  intro k css
  have hcomments : Uncommented css := by decide +kernel
  have hparens : ClosesParens css := by decide +kernel
  have hreturns : SingleReturns css := .of_notMem (by decide +kernel)
  have hselectors : ∀ s ∈ Node.selectorsOfAll (Node.ofText css), k.Separated s := by decide +kernel
  exact ⟨⟨hcomments, hparens, hreturns, hselectors⟩,
    nestedCss_reread k hcomments hparens hreturns hselectors⟩

/-- A comma behind a quoted bracket cuts a selector inside its quotes, and the quote that is left
open hides all that follows. -/
theorem cut_selector_lost :
    let css : Text := ".a[data-x=\"],x\"]\x7bcolor:red\x7d"
    Uncommented css ∧ ClosesParens css ∧ '\r' ∉ css ∧
      nestedCss css ".a" = ("&[data-x=\"] \x7b\n  color: red;\n\x7d" : Text) ∧
      unindent (nestedCss (".a \x7b" ++ nestedCss css ".a" ++ "\x7d") ".a") ≠
        unindent (nestedCss css ".a") := by
  decide +kernel

end Restyle
