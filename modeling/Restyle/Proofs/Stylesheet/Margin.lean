import Mathlib.Data.List.Infix
import Restyle.Proofs.Text.Lines
import Restyle.Stylesheet.Rule

/-! # Lines set in

The body of a rule is set in as a whole, also the further lines of a value or a
selector in it. A text that is set in differs from what it was in the white
space at the beginning of its lines, and in the carriage returns in front of
line feeds, of which each line loses one.
-/

namespace Restyle

namespace Text

/-- The text without the white space at the beginning of its lines; `fresh` if nothing visible has
come on the first line yet. -/
def unindentFrom (fresh : Bool) : Text → Text
  | [] => []
  | c :: t =>
    if c = '\n' then c :: unindentFrom true t
    else if fresh && isBlank c then unindentFrom true t
    else c :: unindentFrom false t

def unindent (t : Text) : Text :=
  unindentFrom true t

/-- Without the carriage return in front of each line feed. -/
def dropReturns : Text → Text
  | [] => []
  | '\r' :: '\n' :: t => '\n' :: dropReturns t
  | c :: t => c :: dropReturns t

def setIn : Text → Text
  | [] => []
  | c :: t =>
    if c = '\n' ∧ t.head?.any (· != '\n') then c :: ' ' :: ' ' :: setIn t else c :: setIn t

/-- The lines set in as inside braces, but for the first. -/
def reline (t : Text) : Text :=
  setIn (dropReturns t)

/-- No line ends with two carriage returns. -/
def SingleReturns (t : Text) : Prop :=
  ¬ ['\r', '\r', '\n'] <:+: t

variable {t u v w : Text} {c : Char} {fresh : Bool}

theorem split_cons_of_ne {p : Char → Bool} (hc : p c = false) (t : Text) :
    ∃ w ws, split p t = w :: ws ∧ split p (c :: t) = (c :: w) :: ws := by
  obtain ⟨w, ws, hw⟩ := List.exists_cons_of_ne_nil (split_ne_nil p t)
  refine ⟨w, ws, hw, ?_⟩
  rw [split, hc, hw]
  rfl

theorem unindentFrom_append_feed (fresh : Bool) (t u : Text) :
    unindentFrom fresh (t ++ '\n' :: u) = unindentFrom fresh t ++ '\n' :: unindent u := by
  induction t generalizing fresh with
  | nil => rfl
  | cons c t ih =>
    simp only [List.cons_append, unindentFrom, ih]
    split_ifs <;> rfl

theorem unindent_append_feed (t u : Text) :
    unindent (t ++ '\n' :: u) = unindent t ++ '\n' :: unindent u :=
  unindentFrom_append_feed true t u

theorem unindent_join (parts : List Text) :
    unindent (join "\n" parts) = join "\n" (parts.map unindent) := by
  induction parts with
  | nil => rfl
  | cons t parts ih =>
    rcases parts with _ | ⟨u, parts⟩
    · rw [List.map_singleton, join_singleton, join_singleton]
    · rw [List.map_cons, List.map_cons, join_cons_cons, join_cons_cons, ← List.map_cons, ← ih]
      exact unindent_append_feed t _

theorem unindent_eq_trimStart (h : '\n' ∉ t) : unindent t = trimStart t := by
  have hvisible : ∀ t : Text, '\n' ∉ t → unindentFrom false t = t := by
    intro t h
    induction t with
    | nil => rfl
    | cons c t ih =>
      rw [List.mem_cons, not_or] at h
      rw [unindentFrom, if_neg (Ne.symm h.1), ih h.2]
      rfl
  induction t with
  | nil => rfl
  | cons c t ih =>
    rw [List.mem_cons, not_or] at h
    rw [unindent, unindentFrom, if_neg (Ne.symm h.1), trimStart, List.dropWhile_cons]
    cases hc : isBlank c with
    | true => exact ih h.2
    | false => exact congrArg (c :: ·) (hvisible t h.2)

theorem join_split (t : Text) : join "\n" (t.split (· == '\n')) = t := by
  induction t with
  | nil => rfl
  | cons c t ih =>
    by_cases hc : c = '\n'
    · subst hc
      have hsplit : split (· == '\n') ('\n' :: t) = [] :: split (· == '\n') t := rfl
      rw [hsplit, join_cons_of_ne_nil _ _ (split_ne_nil _ t), ih]
      rfl
    · obtain ⟨w, ws, hw, hcw⟩ := split_cons_of_ne (p := (· == '\n')) (beq_false_of_ne hc) t
      rw [hw] at ih
      rw [hcw, ← ih]
      rcases ws with _ | ⟨v, ws⟩
      · rfl
      · rw [join_cons_cons, join_cons_cons]
        rfl

/-- Read line by line, each line is trimmed at its beginning. -/
theorem unindent_eq (t : Text) : unindent t = join "\n" ((t.split (· == '\n')).map trimStart) := by
  conv_lhs => rw [← join_split t, unindent_join]
  congr 1
  exact List.map_congr_left fun line hline => unindent_eq_trimStart (notMem_of_mem_split t line hline)

theorem unindent_space (t : Text) : unindent (' ' :: t) = unindent t := rfl

theorem unindentFrom_setIn (fresh : Bool) (t : Text) :
    unindentFrom fresh (setIn t) = unindentFrom fresh t := by
  induction t generalizing fresh with
  | nil => rfl
  | cons c t ih =>
    rw [setIn]
    split_ifs with h
    · rw [h.1]
      exact congrArg ('\n' :: ·) (ih true)
    · simp only [unindentFrom, ih]

theorem unindent_setIn (t : Text) : unindent (setIn t) = unindent t :=
  unindentFrom_setIn true t

theorem dropReturns_cons (h : c = '\r' → t.head? ≠ some '\n') :
    dropReturns (c :: t) = c :: dropReturns t := by
  rw [dropReturns.eq_3]
  rintro u hc rfl
  exact h hc rfl

theorem dropReturns_feed (t : Text) : dropReturns ('\r' :: '\n' :: t) = '\n' :: dropReturns t := by
  rw [dropReturns]

/-- Induction over a text with or without a carriage return in front of a line feed. -/
theorem returns_induction {P : Text → Prop} (nil : P [])
    (feed : ∀ t, P t → P ('\r' :: '\n' :: t))
    (char : ∀ c t, (c = '\r' → t.head? ≠ some '\n') → P t → P (c :: t)) (t : Text) : P t := by
  induction t using dropReturns.induct with
  | case1 => exact nil
  | case2 t ih => exact feed t ih
  | case3 c t h ih =>
    refine char c t (fun hc hhead => ?_) ih
    obtain ⟨u, rfl⟩ := List.head?_eq_some_iff.mp hhead
    exact h u hc rfl

theorem head?_unindentFrom_false (t : Text) : (unindentFrom false t).head? = t.head? := by
  cases t with
  | nil => rfl
  | cons c t =>
    rw [unindentFrom]
    split_ifs <;> first | rfl | contradiction

theorem unindentFrom_dropReturns (fresh : Bool) (t : Text) :
    unindentFrom fresh (dropReturns t) = dropReturns (unindentFrom fresh t) := by
  induction t using returns_induction generalizing fresh with
  | nil => rfl
  | feed t ih =>
    have hfeed : dropReturns ('\n' :: unindentFrom true t) =
        '\n' :: dropReturns (unindentFrom true t) := dropReturns_cons fun h => absurd h (by decide)
    rw [dropReturns_feed]
    cases fresh with
    | true => exact (congrArg ('\n' :: ·) (ih true)).trans hfeed.symm
    | false => exact (congrArg ('\n' :: ·) (ih true)).trans (dropReturns_feed _).symm
  | char c t h ih =>
    rw [dropReturns_cons h, unindentFrom, unindentFrom]
    split_ifs with hc hb
    · rw [ih, dropReturns_cons]
      rintro rfl
      exact absurd hc (by decide)
    · exact ih true
    · rw [ih, dropReturns_cons]
      rwa [head?_unindentFrom_false]

theorem unindent_reline (t : Text) : unindent (reline t) = dropReturns (unindent t) :=
  (unindent_setIn _).trans (unindentFrom_dropReturns true t)

theorem head?_dropReturns (h : (dropReturns t).head? = some '\n') :
    t.head? = some '\n' ∨ ∃ u, t = '\r' :: '\n' :: u := by
  induction t using returns_induction with
  | nil => exact absurd h (by simp [dropReturns])
  | feed t _ => exact Or.inr ⟨t, rfl⟩
  | char c t hc _ =>
    rw [dropReturns_cons hc] at h
    exact Or.inl h

theorem SingleReturns.mono (h : SingleReturns t) (hu : u <:+: t) : SingleReturns u :=
  fun hin => h (hin.trans hu)

theorem SingleReturns.tail (h : SingleReturns (c :: t)) : SingleReturns t :=
  h.mono (List.suffix_cons c t).isInfix

theorem SingleReturns.dropReturns_dropReturns (h : SingleReturns t) :
    dropReturns (dropReturns t) = dropReturns t := by
  induction t using returns_induction with
  | nil => rfl
  | feed t ih =>
    rw [dropReturns_feed, dropReturns_cons (fun hc => absurd hc (by decide)), ih h.tail.tail]
  | char c t hc ih =>
    rw [dropReturns_cons hc, dropReturns_cons, ih h.tail]
    rintro rfl hhead
    rcases head?_dropReturns hhead with hhead | ⟨u, rfl⟩
    · exact hc rfl hhead
    · exact h (List.prefix_append ['\r', '\r', '\n'] u).isInfix

theorem infix_append_cons {pattern : Text} (hc : c ∉ pattern) (t u : Text) :
    pattern <:+: t ++ c :: u → pattern <:+: t ∨ pattern <:+: u := by
  have hcut : ∀ t : Text, pattern <+: t ++ c :: u → pattern <+: t := by
    intro t h
    have hsnoc : t ++ [c] <+: t ++ c :: u := ⟨u, by simp⟩
    rcases List.prefix_or_prefix_of_prefix h hsnoc with h | ⟨r, hr⟩
    · rcases List.prefix_concat_iff.mp h with rfl | h
      · exact absurd (by simp) hc
      · exact h
    · exact absurd (hr ▸ by simp) hc
  intro h
  induction t with
  | nil =>
    rcases List.infix_cons_iff.mp h with h | h
    · exact Or.inl (hcut [] h).isInfix
    · exact Or.inr h
  | cons d t ih =>
    rcases List.infix_cons_iff.mp h with h | h
    · exact Or.inl (hcut (d :: t) h).isInfix
    · exact (ih h).imp_left fun h => h.trans (List.suffix_cons d t).isInfix

theorem SingleReturns.append_cons (ht : SingleReturns t) (hu : SingleReturns u)
    (hc : c ≠ '\r') (hn : c ≠ '\n') : SingleReturns (t ++ c :: u) := by
  intro h
  exact (infix_append_cons (by simp [hc, hn]) t u h).elim ht hu

theorem SingleReturns.cons (ht : SingleReturns t) (hc : c ≠ '\r') : SingleReturns (c :: t) := by
  intro h
  rcases List.infix_cons_iff.mp h with h | h
  · exact hc (List.cons_prefix_cons.mp h).1.symm
  · exact ht h

theorem SingleReturns.of_notMem (h : '\r' ∉ t) : SingleReturns t :=
  fun hin => h (hin.subset List.mem_cons_self)

theorem singleReturns_trim (h : SingleReturns t) : SingleReturns (trim t) := by
  obtain ⟨w, w', -, -, ht⟩ := exists_eq_trim t
  exact h.mono ⟨w, w', ht.symm⟩

def EndsVisibly (t : Text) : Prop :=
  ∀ c ∈ t.getLast?, isBlank c = false

theorem Trimmed.endsVisibly (h : Trimmed t) : EndsVisibly t :=
  h.2

theorem EndsVisibly.tail (h : EndsVisibly (c :: t)) : EndsVisibly t := by
  intro d hd
  refine h d ?_
  rw [List.getLast?_cons, Option.mem_def.mp hd]
  rfl

theorem dropReturns_append (ht : EndsVisibly t) (u : Text) :
    dropReturns (t ++ u) = dropReturns t ++ dropReturns u := by
  induction t using returns_induction with
  | nil => rfl
  | feed t ih =>
    have h := ih ht.tail.tail
    rw [List.cons_append, List.cons_append, dropReturns_feed, dropReturns_feed, h, List.cons_append]
  | char c t hc ih =>
    rw [List.cons_append, dropReturns_cons hc, dropReturns_cons, ih ht.tail, List.cons_append]
    rintro rfl
    rcases t with _ | ⟨d, t⟩
    · exact absurd (ht '\r' rfl) (by decide)
    · exact hc rfl

theorem setIn_cons_of_ne (hc : c ≠ '\n') (t : Text) : setIn (c :: t) = c :: setIn t := by
  rw [setIn, if_neg fun h => hc h.1]

theorem setIn_append (ht : EndsVisibly t) (u : Text) : setIn (t ++ u) = setIn t ++ setIn u := by
  induction t with
  | nil => rfl
  | cons c t ih =>
    rw [List.cons_append, setIn, setIn, ih ht.tail]
    rcases t with _ | ⟨d, t⟩
    · have hc : c ≠ '\n' := by
        rintro rfl
        exact absurd (ht '\n' rfl) (by decide)
      simp [hc]
    · by_cases h : c = '\n' ∧ (d :: t).head?.any (· != '\n') = true
      · rw [if_pos h, if_pos (by simpa using h)]
        rfl
      · rw [if_neg h, if_neg (by simpa using h)]
        rfl

theorem getLast?_dropReturns (t : Text) : (dropReturns t).getLast? = t.getLast? := by
  induction t using returns_induction with
  | nil => rfl
  | feed t ih => rw [dropReturns_feed, List.getLast?_cons, ih, List.getLast?_cons_cons, List.getLast?_cons]
  | char c t hc ih => rw [dropReturns_cons hc, List.getLast?_cons, ih, List.getLast?_cons]

theorem getLast?_setIn (t : Text) : (setIn t).getLast? = t.getLast? := by
  induction t with
  | nil => rfl
  | cons c t ih =>
    rw [setIn]
    split_ifs with h
    · obtain ⟨d, u, rfl⟩ : ∃ d u, t = d :: u := by
        cases t with
        | nil => exact absurd h.2 (by simp)
        | cons d u => exact ⟨d, u, rfl⟩
      rw [List.getLast?_cons_cons, List.getLast?_cons_cons, List.getLast?_cons, ih,
        List.getLast?_cons_cons, List.getLast?_cons]
      rfl
    · rw [List.getLast?_cons, ih, List.getLast?_cons]

theorem getLast?_reline (t : Text) : (reline t).getLast? = t.getLast? :=
  (getLast?_setIn _).trans (getLast?_dropReturns t)

theorem endsVisibly_reline (ht : EndsVisibly t) : EndsVisibly (reline t) := by
  rwa [EndsVisibly, getLast?_reline]

theorem reline_append (ht : EndsVisibly t) (u : Text) : reline (t ++ u) = reline t ++ reline u := by
  have hdrop : EndsVisibly (dropReturns t) := by
    rwa [EndsVisibly, getLast?_dropReturns]
  rw [reline, dropReturns_append ht, setIn_append hdrop, reline, reline]

theorem reline_cons (hc : c ≠ '\r') (hn : c ≠ '\n') (t : Text) :
    reline (c :: t) = c :: reline t := by
  rw [reline, dropReturns_cons fun h => absurd h hc, setIn_cons_of_ne hn, reline]

theorem visible_ne (hc : isBlank c = false) : c ≠ '\r' ∧ c ≠ '\n' := by
  constructor
  · rintro rfl
    exact absurd hc (by decide)
  · rintro rfl
    exact absurd hc (by decide)

theorem reline_feed (n : Nat) (hc : isBlank c = false) (t : Text) :
    reline ('\n' :: (List.replicate n ' ' ++ c :: t)) =
      '\n' :: (List.replicate (n + 2) ' ' ++ reline (c :: t)) := by
  obtain ⟨hr, hn⟩ := visible_ne hc
  have hspaces : ∀ n, dropReturns (List.replicate n ' ' ++ c :: t) =
      List.replicate n ' ' ++ c :: dropReturns t := by
    intro n
    induction n with
    | zero => exact dropReturns_cons fun h => absurd h hr
    | succ n ih =>
      rw [List.replicate_succ, List.cons_append, dropReturns_cons fun h => absurd h (by decide), ih]
      rfl
  have hset : ∀ n u, setIn (List.replicate n ' ' ++ u) = List.replicate n ' ' ++ setIn u := by
    intro n u
    induction n with
    | zero => rfl
    | succ n ih =>
      rw [List.replicate_succ, List.cons_append, setIn_cons_of_ne (by decide), ih]
      rfl
  have hfeed : ∀ u : Text, u.head?.any (· != '\n') = true →
      setIn ('\n' :: u) = '\n' :: ' ' :: ' ' :: setIn u := by
    intro u hu
    rw [setIn, if_pos ⟨rfl, hu⟩]
  have hhead : (List.replicate n ' ' ++ c :: dropReturns t).head?.any (· != '\n') = true := by
    cases n with
    | zero => simpa using hn
    | succ n => rfl
  rw [reline, dropReturns_cons (fun h => absurd h (by decide)), hspaces, hfeed _ hhead, hset,
    reline, dropReturns_cons (fun h => absurd h hr)]
  rfl

theorem mem_of_mem_dropReturns (h : c ∈ dropReturns t) : c ∈ t := by
  induction t using returns_induction with
  | nil => exact h
  | feed t ih =>
    rw [dropReturns_feed] at h
    exact List.mem_cons_of_mem _ ((List.mem_cons.mp h).elim (· ▸ List.mem_cons_self)
      fun h => List.mem_cons_of_mem _ (ih h))
  | char d t hd ih =>
    rw [dropReturns_cons hd] at h
    exact (List.mem_cons.mp h).elim (· ▸ List.mem_cons_self) fun h => List.mem_cons_of_mem _ (ih h)

theorem mem_of_mem_setIn (hc : c ≠ ' ') (h : c ∈ setIn t) : c ∈ t := by
  induction t with
  | nil => exact h
  | cons d t ih =>
    rw [setIn] at h
    split_ifs at h <;> simp only [List.mem_cons, hc, false_or] at h ⊢ <;> exact h.imp_right ih

theorem notMem_reline (hc : c ≠ ' ') (h : c ∉ t) : c ∉ reline t :=
  fun hmem => h (mem_of_mem_dropReturns (mem_of_mem_setIn hc hmem))

theorem trimmed_reline (h : Trimmed t) : Trimmed (reline t) := by
  refine ⟨?_, endsVisibly_reline h.2⟩
  rcases t with _ | ⟨c, t⟩
  · exact h.1
  · obtain ⟨hr, hn⟩ := visible_ne (h.1 c rfl)
    rw [reline_cons hr hn]
    exact h.1

theorem reline_ne_nil (h : t ≠ []) : reline t ≠ [] := by
  intro he
  have hlast := getLast?_reline t
  rw [he, eq_comm, List.getLast?_nil, List.getLast?_eq_none_iff] at hlast
  exact h hlast

theorem dropReturn_cons (h : t = [] → c ≠ '\r') : dropReturn (c :: t) = c :: dropReturn t := by
  rcases t with _ | ⟨d, t⟩
  · simp [dropReturn, h rfl]
  · rw [dropReturn, dropReturn, List.getLast?_cons_cons, List.dropLast_cons_cons]
    split_ifs <;> rfl

theorem split_feed (t : Text) : split (· == '\n') ('\n' :: t) = [] :: split (· == '\n') t := rfl

theorem head?_of_split {ws : List Text} (h : split (· == '\n') t = [] :: ws) :
    (t = [] ∧ ws = []) ∨ t.head? = some '\n' := by
  rcases t with _ | ⟨c, t⟩
  · exact Or.inl ⟨rfl, (List.cons.inj h).2.symm⟩
  · by_cases hc : c = '\n'
    · exact Or.inr (congrArg some hc)
    · obtain ⟨w, ws', -, hcons⟩ := split_cons_of_ne (p := (· == '\n')) (beq_false_of_ne hc) t
      rw [h] at hcons
      exact absurd (List.cons.inj hcons).1.symm (List.cons_ne_nil c w)

theorem split_dropReturns (t : Text) :
    split (· == '\n') (dropReturns t) =
      (split (· == '\n') t).dropLast.map dropReturn ++ (split (· == '\n') t).getLast?.toList := by
  induction t using returns_induction with
  | nil => rfl
  | feed t ih =>
    obtain ⟨w, ws, hw⟩ := List.exists_cons_of_ne_nil (split_ne_nil (· == '\n') t)
    have hsplit : split (· == '\n') ('\r' :: '\n' :: t) = ['\r'] :: split (· == '\n') t := rfl
    rw [dropReturns_feed, split_feed, hsplit, ih, hw]
    rfl
  | char c t hc ih =>
    obtain ⟨w, ws, hw⟩ := List.exists_cons_of_ne_nil (split_ne_nil (· == '\n') t)
    rw [dropReturns_cons hc]
    by_cases hn : c = '\n'
    · subst hn
      rw [split_feed, split_feed, ih, hw]
      rfl
    · rw [hw] at ih
      rw [split, split, if_neg (by simpa using hn), if_neg (by simpa using hn), ih, hw]
      rcases ws with _ | ⟨v, ws⟩
      · rfl
      · have hreturn : w = [] → c ≠ '\r' := by
          rintro rfl rfl
          refine hc rfl ?_
          rcases t with _ | ⟨d, t⟩
          · simp [split] at hw
          · by_cases hd : d = '\n'
            · rw [hd]
              rfl
            · obtain ⟨w', ws', -, hcons⟩ :=
                split_cons_of_ne (p := (· == '\n')) (beq_false_of_ne hd) t
              rw [hw] at hcons
              exact absurd (List.cons.inj hcons).1.symm (List.cons_ne_nil d w')
        simp [dropReturn_cons hreturn]

theorem lines_eq (h : EndsVisibly t) (hne : t ≠ []) :
    lines t = split (· == '\n') (dropReturns t) := by
  have hlast : (split (· == '\n') t).getLast?.filter (!·.isEmpty) =
      (split (· == '\n') t).getLast? := by
    have hsplit := split_ne_nil (· == '\n') t
    rw [List.getLast?_eq_getLast_of_ne_nil hsplit, Option.filter_some, if_pos]
    rw [Bool.not_eq_true', List.isEmpty_eq_false_iff]
    intro hempty
    have hjoin := join_split t
    rw [← List.dropLast_append_getLast hsplit, hempty] at hjoin
    by_cases hinit : (split (· == '\n') t).dropLast = []
    · rw [hinit] at hjoin
      exact hne hjoin.symm
    · rw [join_append _ hinit (List.cons_ne_nil _ _)] at hjoin
      have hfeed : t.getLast? = some '\n' := by
        rw [← hjoin, join_singleton, List.append_nil]
        exact List.getLast?_concat
      exact absurd (h '\n' hfeed) (by decide)
  rw [split_dropReturns, lines, hlast]

def setLine (line : Text) : Text :=
  if line.isEmpty then line else "  " ++ line

theorem join_map_setLine (t : Text) :
    join "\n" ((split (· == '\n') t).map setLine) =
      (if t.head?.any (· != '\n') then [' ', ' '] else []) ++ setIn t := by
  induction t with
  | nil => rfl
  | cons c t ih =>
    obtain ⟨w, ws, hw⟩ := List.exists_cons_of_ne_nil (split_ne_nil (· == '\n') t)
    by_cases hn : c = '\n'
    · subst hn
      rw [split_feed, List.map_cons, join_cons_of_ne_nil _ _ (by simp [split_ne_nil]), ih, setIn]
      split_ifs <;> simp_all [setLine]
    · obtain ⟨r, hr⟩ : ∃ r, ∀ x, join "\n" (x :: ws.map setLine) = x ++ r := by
        rcases ws with _ | ⟨v, ws⟩
        · exact ⟨[], by simp⟩
        · exact ⟨_, fun x => join_cons_cons _ x _ _⟩
      have hsplit : split (· == '\n') (c :: t) = (c :: w) :: ws := by
        rw [split, if_neg (by simpa using hn), hw]
      have htail : w ++ r = setIn t := by
        rw [hw, List.map_cons, hr] at ih
        rcases w with _ | ⟨d, w⟩
        · have hempty : t.head?.any (· != '\n') = false := by
            rcases head?_of_split hw with ⟨rfl, -⟩ | h
            · rfl
            · rw [h]
              rfl
          rw [hempty] at ih
          exact ih
        · have hhead : t.head?.any (· != '\n') = true := by
            rcases t with _ | ⟨e, t⟩
            · exact absurd (List.cons.inj hw).1.symm (List.cons_ne_nil d w)
            · by_cases he : e = '\n'
              · rw [he, split_feed] at hw
                exact absurd (List.cons.inj hw).1.symm (List.cons_ne_nil d w)
              · simpa using he
          rw [hhead] at ih
          exact (List.cons.inj (List.cons.inj ih).2).2
      rw [hsplit, List.map_cons, hr, setIn_cons_of_ne hn, if_pos (by simpa using hn), ← htail]
      rfl

theorem singleReturns_dropReturns (h : SingleReturns t) : SingleReturns (dropReturns t) := by
  have hpair : ∀ t : Text, ¬ ['\r', '\r', '\n'] <:+: t → ¬ ['\r', '\n'] <+: dropReturns t := by
    intro t ht hfront
    induction t using returns_induction with
    | nil => simp [dropReturns] at hfront
    | feed t _ =>
      rw [dropReturns_feed, List.cons_prefix_cons] at hfront
      exact absurd hfront.1 (by decide)
    | char c t hc _ =>
      rw [dropReturns_cons hc, List.cons_prefix_cons] at hfront
      obtain ⟨rfl, v, hv⟩ := hfront
      have hfeed : (dropReturns t).head? = some '\n' := by
        rw [← hv]
        rfl
      rcases head?_dropReturns hfeed with hhead | ⟨u, rfl⟩
      · exact hc rfl hhead
      · exact ht (List.prefix_append ['\r', '\r', '\n'] u).isInfix
  induction t using returns_induction with
  | nil => exact h
  | feed t ih =>
    rw [dropReturns_feed]
    exact (ih h.tail.tail).cons (by decide)
  | char c t hc ih =>
    rw [dropReturns_cons hc]
    intro hin
    rcases List.infix_cons_iff.mp hin with hfront | hin
    · exact hpair t h.tail (List.cons_prefix_cons.mp hfront).2
    · exact ih h.tail hin

theorem head?_setIn (t : Text) : (setIn t).head? = t.head? := by
  cases t with
  | nil => rfl
  | cons c t =>
    rw [setIn]
    split_ifs <;> rfl

theorem singleReturns_setIn (h : SingleReturns t) : SingleReturns (setIn t) := by
  have hpair : ∀ t : Text, ['\r', '\n'] <+: setIn t → ['\r', '\n'] <+: t := by
    rintro (_ | ⟨c, t⟩) hfront
    · exact hfront
    · rw [setIn] at hfront
      split_ifs at hfront with hc
      · exact absurd ((List.cons_prefix_cons.mp hfront).1.trans hc.1) (by decide)
      · obtain ⟨rfl, v, hv⟩ := List.cons_prefix_cons.mp hfront
        have hhead := head?_setIn t
        rw [← hv] at hhead
        obtain ⟨u, rfl⟩ := List.head?_eq_some_iff.mp hhead.symm
        exact List.prefix_append ['\r', '\n'] u
  induction t with
  | nil => exact h
  | cons c t ih =>
    have hrest := ih h.tail
    rw [setIn]
    split_ifs with hc
    · exact ((hrest.cons (by decide)).cons (by decide)).cons (by simp [hc.1])
    · intro hin
      rcases List.infix_cons_iff.mp hin with hfront | hin
      · obtain ⟨hr, htail⟩ := List.cons_prefix_cons.mp hfront
        exact h (List.cons_prefix_cons.mpr ⟨hr, hpair t htail⟩).isInfix
      · exact hrest hin

theorem singleReturns_reline (h : SingleReturns t) : SingleReturns (reline t) :=
  singleReturns_setIn (singleReturns_dropReturns h)

/-- What is set in has lost all its carriage returns, if each line has no more than one. -/
theorem SingleReturns.dropReturns_unindent_reline (h : SingleReturns t) :
    dropReturns (unindent (reline t)) = unindent (reline t) := by
  have hswap : ∀ u, dropReturns (unindent u) = unindent (dropReturns u) := fun u =>
    (unindentFrom_dropReturns true u).symm
  rw [unindent_reline, hswap, hswap, h.dropReturns_dropReturns]

/-! ## Set in several times -/

theorem reline_iterate_append (ht : EndsVisibly t) (u : Text) (m : ℕ) :
    reline^[m] (t ++ u) = reline^[m] t ++ reline^[m] u := by
  induction m with
  | zero => rfl
  | succ m ih =>
    have hends : EndsVisibly (reline^[m] t) := 
      Function.Iterate.rec EndsVisibly ht (fun _ h => endsVisibly_reline h) m
    simp only [Function.iterate_succ_apply', ih, reline_append hends]

theorem reline_iterate_cons (hr : c ≠ '\r') (hn : c ≠ '\n') (t : Text) (m : ℕ) :
    reline^[m] (c :: t) = c :: reline^[m] t := by
  induction m with
  | zero => rfl
  | succ m ih => simp only [Function.iterate_succ_apply', ih, reline_cons hr hn]

theorem reline_iterate_append_feed (ht : EndsVisibly t) (hu : Trimmed u) (hne : u ≠ []) (n m : ℕ) :
    reline^[m] (t ++ '\n' :: (List.replicate n ' ' ++ u)) =
      reline^[m] t ++ '\n' :: (List.replicate (n + 2 * m) ' ' ++ reline^[m] u) := by
  obtain ⟨c, u, rfl⟩ := List.exists_cons_of_ne_nil hne
  have hc : isBlank c = false := hu.1 c rfl
  obtain ⟨hr, hn⟩ := visible_ne hc
  rw [reline_iterate_append ht]
  congr 1
  induction m with
  | zero => rfl
  | succ m ih =>
    simp only [Function.iterate_succ_apply', ih, reline_iterate_cons hr hn, reline_feed _ hc]
    rfl

theorem unindent_append_margin (t : Text) (n : ℕ) (u : Text) :
    unindent (t ++ '\n' :: (List.replicate n ' ' ++ u)) = unindent t ++ '\n' :: unindent u := by
  have hspaces : unindent (List.replicate n ' ' ++ u) = unindent u := by
    induction n with
    | zero => rfl
    | succ n ih => rwa [List.replicate_succ, List.cons_append, unindent_space]
  rw [unindent_append_feed, hspaces]

theorem SingleReturns.append_feed (ht : SingleReturns t) (hends : EndsVisibly t)
    (hu : SingleReturns u) : SingleReturns (t ++ '\n' :: u) := by
  have hfeed : SingleReturns ('\n' :: u) := hu.cons (by decide)
  rcases List.eq_nil_or_concat t with rfl | ⟨t, c, rfl⟩
  · exact hfeed
  · obtain ⟨hr, hn⟩ := visible_ne (hends c (by simp))
    rw [List.concat_eq_append, List.append_assoc]
    exact (ht.mono ⟨[], [c], by simp⟩).append_cons hfeed hr hn

end Text

open Text

theorem indent_eq {t : Text} (h : Trimmed t) (hne : t ≠ []) : indent t = "  " ++ reline t := by
  have hhead : (dropReturns t).head?.any (· != '\n') = true := by
    obtain ⟨c, t, rfl⟩ := List.exists_cons_of_ne_nil hne
    obtain ⟨hr, hn⟩ := visible_ne (h.1 c rfl)
    rw [dropReturns_cons fun hc => absurd hc hr]
    simpa using hn
  have hlines : indent t = join "\n" ((split (· == '\n') (dropReturns t)).map setLine) := by
    rw [indent, lines_eq h.2 hne]
    rfl
  rw [hlines, join_map_setLine, if_pos hhead]
  rfl

end Restyle
