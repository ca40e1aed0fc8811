import Restyle.Proofs.Stylesheet.Joining

/-! # Where blocks stand

The span of an outermost block covers its head and its body in braces. What
stands in the braces, read as a stylesheet of its own, has the nodes of the
block, for a block is read inside as if nothing stood around it.
-/

namespace Restyle

open Text Lexeme Piece

def Span.slice (s : Span) (t : Text) : Text :=
  (t.drop s.start).take (s.stop - s.start)

def blockBody (t : Text) : Text :=
  textOf (((scan t).dropWhile (· ≠ .plain '{')).drop 1).dropLast

namespace Draft

def inside (d : Draft) (f : Frame) : Draft :=
  { d with outer := d.outer ++ [f] }

variable {d : Draft} {f : Frame} {l : Lexeme}

theorem outer_inside_ne_nil (d : Draft) (f : Frame) : (d.inside f).outer ≠ [] := by
  simp [inside]

/-- What stands around a block plays no part in a step that does not close it. -/
theorem step_inside (h : d.outer = [] → l ≠ .plain '}') :
    (d.inside f).step l = (d.step l).inside f := by
  cases l with
  | quoted t closed => rfl
  | comment t closed => rfl
  | plain c =>
    have hdepth : (d.inside f).depth = d.depth := rfl
    simp only [step, hdepth]
    split_ifs with _ _ _ hclose
    · rfl
    · rfl
    · rfl
    · rcases ho : d.outer with _ | ⟨g, outer⟩
      · exact absurd (congrArg Lexeme.plain hclose) (h ho)
      · have ho' : (d.inside f).outer = g :: (outer ++ [f]) := by simp [inside, ho]
        rw [closeBlock, ho', closeBlock, ho]
        rfl
    · rfl
    · have htext : (d.inside f).text = d.text := rfl
      rw [addChar, addChar, htext]
      split_ifs <;> rfl

end Draft

def inBraces (head body : List Lexeme) : List Lexeme :=
  head ++ .plain '{' :: (body ++ [.plain '}'])

/-- A block with some nodes stands in a list of lexemes where a span says. -/
def Span.Holds (s : Span) (ls : List Lexeme) (nodes : List Node) : Prop :=
  ∃ front head body rest,
    ls = front ++ inBraces head body ++ rest ∧
    .plain '{' ∉ head ∧
    s = ⟨(textOf front).length, (textOf (front ++ inBraces head body)).length⟩ ∧
    (({} : Draft).read body).finish = nodes

theorem Span.Holds.append {s : Span} {ls : List Lexeme} {nodes : List Node}
    (h : s.Holds ls nodes) (ms : List Lexeme) : s.Holds (ls ++ ms) nodes := by
  obtain ⟨front, head, body, rest, rfl, h⟩ := h
  exact ⟨front, head, body, rest ++ ms, by simp, h⟩

/-- What has been read of the outermost node: part of its head, or its head and part of its body. -/
inductive Draft.Current (d : Draft) (since : List Lexeme) : Prop
  | head (ho : d.outer = []) (hs : .plain '{' ∉ since)
  | body (head body : List Lexeme) (f : Frame) (hs : since = head ++ .plain '{' :: body)
      (hh : .plain '{' ∉ head) (hd : d = (({} : Draft).read body).inside f)

theorem Draft.Current.step_of_open {d : Draft} {l : Lexeme} {since : List Lexeme}
    (hc : d.Current since) (hopens : d.outer = [] → l = .plain '{') (ho : (d.step l).outer ≠ []) :
    (d.step l).Current (since ++ [l]) := by
  cases hc with
  | head hod hs =>
    obtain rfl := hopens hod
    refine .body since [] ⟨d.nodes, trim d.text.reverse⟩ rfl hs ?_
    have hstep : d.step (.plain '{') = d.openBlock := rfl
    rw [hstep, Draft.openBlock, hod]
    rfl
  | body head body f hs hh hd =>
    have hinside : (({} : Draft).read body).outer = [] → l ≠ .plain '}' := by
      rintro hnil rfl
      have hstep : d.step (.plain '}') = d.closeBlock := rfl
      have houter : ((({} : Draft).read body).inside f).outer = [f] := by
        simp [Draft.inside, hnil]
      rw [hstep, hd, Draft.closeBlock_of_cons houter] at ho
      exact ho rfl
    refine .body head (body ++ [l]) f (by simp [hs]) hh ?_
    rw [hd, Draft.step_inside hinside, Draft.read_append]
    rfl

/-- A reader behind lexemes, with its draft: where it is, where the outermost blocks in front
stand, and what has been read of the next one. -/
structure Piece.Reader.Located (ls : List Lexeme) (r : Reader) (d : Draft) : Prop where
  drafted : r.Drafted d
  position : r.position = (textOf ls).length
  holds : ∀ p ∈ r.bottom, ∀ selector nodes, p.node = .block selector nodes → p.span.Holds ls nodes
  current : ∃ front since, ls = front ++ since ∧ r.front = (textOf front).length ∧
    d.Current since

namespace Piece.Reader.Located

variable {ls : List Lexeme} {r : Reader} {d : Draft} {l : Lexeme}

theorem outer_eq_nil_iff (h : r.Drafted d) : d.outer = [] ↔ r.outer = [] := by
  have ho := Cutter.outer_isEmpty h
  rw [← List.isEmpty_iff, ← List.isEmpty_iff, ho]

theorem outer_closeBlock (r : Reader) : r.closeBlock.outer = r.outer.tail := by
  rcases h : r.outer with _ | ⟨f, outer⟩ <;> simp [closeBlock, h]

theorem mem_of_mem_flushed {p : Piece} (hp : p ∈ r.flushed) {selector : Text} {nodes : List Node}
    (hn : p.node = .block selector nodes) : p ∈ r.pieces := by
  unfold flushed at hp
  dsimp only at hp
  split_ifs at hp
  · exact hp
  · rcases List.mem_cons.mp hp with rfl | hp
    · exact absurd hn Node.noConfusion
    · exact hp

theorem position_step (h : Located ls r d) :
    (r.step l).position = (textOf (ls ++ [l])).length := by
  rw [Reader.position_step, h.position, textOf_append, List.length_append]
  simp

theorem eq_brace_of_opens (hl : l.Sound) (ho : r.outer = []) (h : (r.step l).outer ≠ []) :
    l = .plain '{' := by
  rcases Reader.step_cases hl r with ⟨hl', -⟩ | ⟨-, hr⟩ | ⟨-, hr⟩ | ⟨-, hr⟩
  · exact hl'
  · rw [hr, outer_closeBlock, ho] at h
    exact absurd rfl h
  · rw [hr] at h
    exact absurd ho h
  · rw [hr.outer] at h
    exact absurd ho h

theorem step_of_open (h : Located ls r d) (hl : l.Sound) (ho : (r.step l).outer ≠ []) :
    Located (ls ++ [l]) (r.step l) (d.step l) := by
  obtain ⟨hbottom, hfront⟩ := bottom_step_of_open hl ho
  have hdrafted := h.drafted.step hl
  refine ⟨hdrafted, h.position_step, fun p hp selector nodes hn => ?_, ?_⟩
  · exact (h.holds p (hbottom ▸ hp) selector nodes hn).append [l]
  · obtain ⟨front, since, rfl, hf, hc⟩ := h.current
    refine ⟨front, since ++ [l], by simp, hfront.trans hf, hc.step_of_open (fun hod => ?_) ?_⟩
    · exact eq_brace_of_opens hl ((outer_eq_nil_iff h.drafted).mp hod) ho
    · exact mt (outer_eq_nil_iff hdrafted).mp ho

theorem step_of_begun (h : Located ls r d) (hl : l.Sound) (ho : (r.step l).outer = [])
    (hs : (r.step l).start ≠ none) : Located (ls ++ [l]) (r.step l) (d.step l) := by
  have hg := goesOn_of_begun hl ho hs
  have ho' : r.outer = [] := hg.outer ▸ ho
  have hdrafted := h.drafted.step hl
  refine ⟨hdrafted, h.position_step, fun p hp selector nodes hn => ?_, ?_⟩
  · rw [bottom_of_outer_eq_nil ho, hg.pieces, ← bottom_of_outer_eq_nil ho'] at hp
    exact (h.holds p hp selector nodes hn).append [l]
  · obtain ⟨front, since, rfl, hf, hc⟩ := h.current
    refine ⟨front, since ++ [l], by simp, ?_, .head ((outer_eq_nil_iff hdrafted).mpr ho) ?_⟩
    · rw [front_of_outer_eq_nil ho, hg.opening hs, ← front_of_outer_eq_nil ho', hf]
    · have hsince : Lexeme.plain '{' ∉ since := by
        cases hc with
        | head _ hs => exact hs
        | body _ _ f _ _ hd =>
          exact absurd ((outer_eq_nil_iff h.drafted).mpr ho') (hd ▸ Draft.outer_inside_ne_nil _ f)
      have hl' : l ≠ .plain '{' := by
        rintro rfl
        exact absurd ho (List.cons_ne_nil _ _)
      simpa [List.mem_append, hsince] using Ne.symm hl'

theorem holds_of_closeBlock (h : Located ls r d) {f : Piece.Frame} (ho : r.outer = [f]) :
    Span.Holds ⟨f.start, r.position + 1⟩ (ls ++ [.plain '}'])
      (r.flushed.map (·.node)).reverse := by
  have hdo : d.outer ≠ [] := mt (outer_eq_nil_iff h.drafted).mp (by simp [ho])
  obtain ⟨front, since, hls, hf, hc⟩ := h.current
  cases hc with
  | head hod _ => exact absurd hod hdo
  | body head body g hs hh hd =>
    have houter : (({} : Draft).read body).outer = [] := by
      have hlen := congrArg List.length h.drafted.outer
      simpa [hd, ho, Draft.inside] using hlen
    have hfront : r.front = f.start := by simp [Reader.front, ho]
    have hlexemes : ls ++ [.plain '}'] = front ++ inBraces head body := by
      simp [hls, hs, inBraces]
    refine ⟨front, head, body, [], by rw [hlexemes, List.append_nil], hh, ?_, ?_⟩
    · rw [← hlexemes, textOf_append, List.length_append, ← h.position, ← hf, hfront]
      rfl
    · rw [← h.drafted.flushed, hd, Draft.finish, houter]
      rfl

theorem holds_of_mem_closeBlock (h : Located ls r d) (ho : r.closeBlock.outer = []) {p : Piece}
    (hp : p ∈ r.closeBlock.pieces) {selector : Text} {nodes : List Node}
    (hn : p.node = .block selector nodes) : p.span.Holds (ls ++ [.plain '}']) nodes := by
  rcases ho' : r.outer with _ | ⟨f, _ | ⟨g, outer⟩⟩
  · have hpieces : r.closeBlock.pieces = r.bottom := by
      rw [bottom_of_outer_eq_nil ho']
      simp [closeBlock, ho']
    exact (h.holds p (hpieces ▸ hp) selector nodes hn).append _
  · have hbottom : r.bottom = f.before := by simp [bottom, ho']
    simp only [closeBlock, ho', List.mem_cons] at hp
    rcases hp with rfl | hp
    · obtain ⟨-, rfl⟩ := Node.block.inj hn
      exact h.holds_of_closeBlock ho'
    · exact (h.holds p (hbottom ▸ hp) selector nodes hn).append _
  · rw [outer_closeBlock, ho'] at ho
    exact absurd ho (List.cons_ne_nil _ _)

theorem step_of_settled (h : Located ls r d) (hl : l.Sound) (ho : (r.step l).outer = [])
    (hs : (r.step l).start = none) : Located (ls ++ [l]) (r.step l) (d.step l) := by
  have hdrafted := h.drafted.step hl
  have hposition := h.position_step (l := l)
  refine ⟨hdrafted, hposition, fun p hp selector nodes hn => ?_, ls ++ [l], [], by simp, ?_,
    .head ((outer_eq_nil_iff hdrafted).mpr ho) (by simp)⟩
  · rw [bottom_of_outer_eq_nil ho] at hp
    rcases Reader.step_cases hl r with ⟨-, he⟩ | ⟨rfl, he⟩ | ⟨-, he⟩ | ⟨-, hg⟩
    · rw [he] at ho
      exact absurd ho (List.cons_ne_nil _ _)
    · rw [he] at ho hp
      exact h.holds_of_mem_closeBlock ho hp hn
    · rw [he] at ho hp
      have ho' : r.outer = [] := ho
      have hmem := mem_of_mem_flushed hp hn
      rw [← bottom_of_outer_eq_nil ho'] at hmem
      exact (h.holds p hmem selector nodes hn).append _
    · rw [hg.pieces, ← bottom_of_outer_eq_nil (hg.outer ▸ ho)] at hp
      exact (h.holds p hp selector nodes hn).append _
  · rw [front_of_outer_eq_nil ho, opening, hs]
    exact hposition

theorem step (h : Located ls r d) (hl : l.Sound) :
    Located (ls ++ [l]) (r.step l) (d.step l) := by
  by_cases ho : (r.step l).outer = []
  · by_cases hs : (r.step l).start = none
    · exact h.step_of_settled hl ho hs
    · exact h.step_of_begun hl ho hs
  · exact h.step_of_open hl ho

theorem foldl (h : Located ls r d) {ms : List Lexeme} (hms : ∀ m ∈ ms, m.Sound) :
    Located (ls ++ ms) (ms.foldl Reader.step r) (d.read ms) := by
  induction ms generalizing ls r d with
  | nil =>
    rw [List.append_nil]
    exact h
  | cons m ms ih =>
    have h' := ih (h.step (hms m List.mem_cons_self)) fun n hn => hms n (List.mem_cons_of_mem m hn)
    rwa [List.append_assoc] at h'

end Piece.Reader.Located

end Restyle
