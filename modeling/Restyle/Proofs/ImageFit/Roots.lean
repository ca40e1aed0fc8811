import Restyle.Proofs.ImageFit.Finding
import Restyle.Proofs.Stylesheet.Semicolons
import Restyle.Proofs.Stylesheet.Pointer

/-! # Root declarations that move

If a search finds the root declarations of the fit and nothing else, these are
what moves, and the nodes of what stays are the other nodes. Between them may
stand declarations, blocks and comments in which nothing is found.
-/

namespace Restyle.ImageFit

open Text Declaration Lexeme

def fit? (t : Text) : Option Declaration :=
  (ofText? t).bind fun d =>
    if fitNames.contains (lower d.property) then some ⟨lower d.property, d.value⟩ else none

/-- The declaration of the fit in a node. -/
def fitOf? : Node → Option Declaration
  | .declaration t => fit? t
  | .block _ _ => none

/-- What stands in front of a root declaration of the fit. It leaves nothing open, and no fit declaration
is found that begins in it. -/
structure Leads (p d : Text) : Prop where
  closed : Snippet.Closed p
  unfit : ∀ n ∈ Node.ofText p, fitOf? n = none
  unfound : Recogniser.Passes fitDeclaration none p (d ++ ";")

/-- A root declaration of the fit that a search does not end in. -/
structure IsRoot (d : Text) (e : Declaration) : Prop where
  chunk : Chunk d
  fit : fit? d = some e
  free : ∀ c ∈ d, c ∉ [';', '{', '}']

/-- What follows the last root declaration of the fit. It leaves nothing open but a declaration, and no
fit declaration is found in it. -/
structure IsRest (t : Text) : Prop where
  pending : Snippet.Pending t
  unfit : ∀ n ∈ Node.ofText t, fitOf? n = none
  unfound : find? fitDeclaration t = none

/-- Only root declarations of the fit are found, each with a semicolon behind it. -/
inductive Rooted : Text → Prop
  | rest {t : Text} (h : IsRest t) : Rooted t
  | root {p d w t : Text} {e : Declaration} (hp : Leads p (d ++ w)) (hd : IsRoot d e) (hw : Blank w)
      (h : Rooted t) : Rooted (p ++ (d ++ w ++ ';' :: t))

/-- What moves out of a text, what stays of the text, and the nodes that stay. -/
inductive Moves : Text → List Declaration → Text → List Node → Prop
  | rest {t : Text} (h : IsRest t) : Moves t [] t (Node.ofText t)
  | root {p d w t u : Text} {e : Declaration} {ds : List Declaration} {ns : List Node}
      (hp : Leads p (d ++ w)) (hd : IsRoot d e) (hw : Blank w) (h : Moves t ds u ns) :
      Moves (p ++ (d ++ w ++ ';' :: t)) (e :: ds) (p ++ u) (Node.ofText p ++ ns)

def removing : Recogniser Text := fun before t =>
  (fitDeclaration before t).map fun d => ([], d.2)

variable {b b' : Option Char} {d p t u w name : Text} {e : Declaration} {ds : List Declaration}
  {ns : List Node}

theorem Rooted.exists_moves (h : Rooted t) : ∃ ds u ns, Moves t ds u ns := by
  induction h with
  | rest h => exact ⟨[], _, _, .rest h⟩
  | @root p d w t e hp hd hw _ ih =>
    obtain ⟨ds, u, ns, h⟩ := ih
    exact ⟨e :: ds, _, _, .root hp hd hw h⟩

section Parts

theorem map_fold_eq_lower (h : ∀ c ∈ lower name, c.toNat < 128) : name.map fold = lower name := by
  refine List.map_congr_left fun c hc => ?_
  have hlower := h _ (List.mem_map_of_mem hc)
  have hc : c.toNat < 128 := by
    rcases toLower_cases c with he | ⟨hc, -⟩
    · rwa [he] at hlower
    · omega
  exact if_pos hc

theorem lt_of_mem_fitNames {n : Text} (hn : n ∈ fitNames) : ∀ c ∈ n, c.toNat < 128 := by
  have hall : ∀ n ∈ fitNames, ∀ c ∈ n, c.toNat < 128 := by decide
  exact hall n hn

theorem fit?_eq_some (h : fit? t = some e) : ∃ u v, t = u ++ ':' :: v ∧ trim v ≠ [] ∧
    lower (trim u) ∈ fitNames ∧ e = ⟨lower (trim u), trim v⟩ := by
  obtain ⟨d, hd, h⟩ := Option.bind_eq_some_iff.mp h
  unfold ofText? at hd
  rcases hcut : cut? (· == ':') t with _ | ⟨u, v⟩ <;> rw [hcut] at hd
  · exact absurd hd (by simp)
  · obtain ⟨c, rfl, hc, -⟩ := cut?_eq_some hcut
    obtain rfl := beq_iff_eq.mp hc
    dsimp only at hd
    split_ifs at hd with hnil
    obtain rfl := Option.some.inj hd
    dsimp only at h
    split_ifs at h with hname
    exact ⟨u, v, rfl, (not_or.mp hnil).2, List.contains_iff_mem.mp hname, (Option.some.inj h).symm⟩

theorem IsRoot.exists_parts (hd : IsRoot d e) : ∃ name blanks value,
    d = name ++ blanks ++ ':' :: value ∧ Parts name blanks value ∧ e = ⟨lower name, trim value⟩ := by
  obtain ⟨u, v, rfl, hv, hname, rfl⟩ := fit?_eq_some hd.fit
  have hu : trim u ≠ [] := by
    intro hnil
    rw [hnil] at hname
    exact absurd hname (by decide)
  have hstart : trimStart u = u := by
    rcases u with _ | ⟨c, u⟩
    · rfl
    · exact trimStart_cons_of_not_blank (hd.chunk.trimmed.1 c rfl) u
  have hsplit : u = trim u ++ u.rtakeWhile isBlank := by
    conv_lhs => rw [← List.rdropWhile_append_rtakeWhile (p := isBlank) (l := u)]
    rw [trim, hstart, trimEnd_eq_rdropWhile]
  refine ⟨trim u, u.rtakeWhile isBlank, v, by rw [← hsplit], ⟨?_, ?_, ?_, ?_⟩, rfl⟩
  · rwa [map_fold_eq_lower (lt_of_mem_fitNames hname)]
  · exact fun c hc => List.mem_rtakeWhile_imp hc
  · rintro rfl
    exact hv rfl
  · exact fun c hc => hd.free c (by simp [hc])

end Parts

section Search

theorem wordMayStart_lastOf (hb : wordMayStart b = true) (hp : Snippet.Closed p) :
    wordMayStart (lastOf b p) = true := by
  have hother : ∀ c ∈ ['"', '\'', '\\', '/', '*', '\x7b', '\x7d', ';'], wordMayStart (some c) = true := by
    decide +kernel
  rcases List.eq_nil_or_concat p with rfl | ⟨p, c, rfl⟩
  · exact hb
  · rw [List.concat_eq_append] at hp ⊢
    rw [lastOf_append_cons, lastOf_nil]
    by_cases hc : c ∈ ['"', '\'', '\\', '/', '*', '\x7b', '\x7d', ';']
    · exact hother c hc
    · have hword := isWordChar_of_blank (hp.isBlank_of_concat hc)
      simp [wordMayStart, hword]

theorem wordMayStart_semicolon : wordMayStart (some ';') = true := by
  decide +kernel

theorem passes_congr (h : wordMayStart b = wordMayStart b') (hp : Recogniser.Passes fitDeclaration b t u) :
    Recogniser.Passes fitDeclaration b' t u := by
  cases t with
  | nil => trivial
  | cons c t => exact ⟨(fitDeclaration_congr h _).symm.trans hp.1, hp.2⟩

theorem IsRest.passes (h : IsRest t) (hb : wordMayStart b = true) :
    Recogniser.Passes fitDeclaration b t [] :=
  passes_congr (by rw [hb]; rfl) (Recogniser.passes_iff_findFrom?.mpr h.unfound)

/-- What is not found up to a semicolon is not found where more follows. -/
theorem Leads.passes (h : Leads p d) (hb : wordMayStart b = true) (t : Text) :
    Recogniser.Passes fitDeclaration b p (d ++ ';' :: t) := by
  have hbehind : ∀ {b}, Recogniser.Passes fitDeclaration b p (d ++ ";") →
      Recogniser.Passes fitDeclaration b p (d ++ ';' :: t) := by
    generalize p = p
    induction p with
    | nil => exact fun _ => trivial
    | cons c p ih =>
      refine fun hpasses => ⟨?_, ih hpasses.2⟩
      have hnone := hpasses.1
      rw [← List.append_assoc] at hnone
      have hsplit : c :: (p ++ (d ++ ';' :: t)) = c :: (p ++ d) ++ ';' :: t := by simp
      rw [hsplit, fitDeclaration_append]
      exact (congrArg _ hnone).trans rfl
  exact hbehind (passes_congr (by rw [hb]; rfl) h.unfound)

end Search

namespace Moves

theorem fitDeclaration_root (hb : wordMayStart b = true) (hd : IsRoot d e) (hw : Blank w) (t : Text) :
    fitDeclaration b (d ++ w ++ ';' :: t) = some (e, t) := by
  obtain ⟨name, blanks, value, rfl, hp, rfl⟩ := hd.exists_parts
  refine fitDeclaration_eq_some_iff.mpr ⟨hb, name, blanks, value ++ w, hp.append_blank hw, by simp, ?_⟩
  rw [trim_append_blank _ hw]

theorem findAllFrom (h : Moves t ds u ns) (hb : wordMayStart b = true) :
    findAllFrom fitDeclaration 0 b t = ds := by
  induction h generalizing b with
  | @rest t h =>
    have hpass := (h.passes hb).findAllFrom
    rwa [List.append_nil] at hpass
  | @root p d w t u e ds ns hp hd hw _ ih =>
    have hfound := fitDeclaration_root (wordMayStart_lastOf hb hp.closed) hd hw t
    have hlast : lastOf (lastOf b p) (d ++ w ++ [';']) = some ';' := lastOf_append_cons _ (d ++ w) ';' []
    rw [(hp.passes hb t).findAllFrom, List.append_cons (d ++ w) ';' t]
    rw [List.append_cons (d ++ w) ';' t] at hfound
    rw [findAllFrom_append (by simp) hfound, hlast, ih wordMayStart_semicolon]

theorem substituteFrom (h : Moves t ds u ns) (hb : wordMayStart b = true) :
    substituteFrom removing 0 b t = u := by
  induction h generalizing b with
  | @rest t h =>
    have hpass : Recogniser.Passes removing b t [] := (h.passes hb).map
    have hself := hpass.substituteFrom
    rw [List.append_nil] at hself
    exact hself.trans (List.append_nil t)
  | @root p d w t u e ds ns hp hd hw _ ih =>
    have hfound : removing (lastOf b p) (d ++ w ++ ';' :: t) = some ([], t) := by
      rw [removing, fitDeclaration_root (wordMayStart_lastOf hb hp.closed) hd hw t]
      rfl
    have hlast : lastOf (lastOf b p) (d ++ w ++ [';']) = some ';' := lastOf_append_cons _ (d ++ w) ';' []
    have hpass : Recogniser.Passes removing b p (d ++ w ++ ';' :: t) := (hp.passes hb t).map
    rw [hpass.substituteFrom, List.append_cons (d ++ w) ';' t]
    rw [List.append_cons (d ++ w) ';' t] at hfound
    rw [substituteFrom_append (by simp) hfound, hlast, ih wordMayStart_semicolon, List.nil_append]

theorem ofText (h : Moves t ds u ns) : (Node.ofText t).filterMap fitOf? = ds ∧
    (Node.ofText t).filter (fun n => (fitOf? n).isNone) = ns := by
  have hunfit : ∀ {ns : List Node}, (∀ n ∈ ns, fitOf? n = none) →
      ns.filterMap fitOf? = [] ∧ ns.filter (fun n => (fitOf? n).isNone) = ns := by
    refine fun h => ⟨List.filterMap_eq_nil_iff.mpr h, List.filter_eq_self.mpr fun n hn => ?_⟩
    rw [h n hn]
    rfl
  induction h with
  | rest h => exact hunfit h.unfit
  | @root p d w t u e ds ns hp hd hw _ ih =>
    have hfit : fitOf? (.declaration d) = some e := hd.fit
    have hyields : Yields [.declaration d] (d ++ w ++ [';']) := .declaration_between hd.chunk hw
    have hread : Node.ofText (p ++ (d ++ w ++ ';' :: t)) =
        Node.ofText p ++ .declaration d :: Node.ofText t := by
      rw [List.append_cons (d ++ w) ';' t, hp.closed.ofText_append, hyields.toClosed.ofText_append,
        hyields.ofText]
      rfl
    obtain ⟨hmoved, hkept⟩ := hunfit hp.unfit
    rw [hread, List.filterMap_append, hmoved, List.filterMap_cons_some hfit, ih.1, List.filter_append, hkept,
      List.filter_cons_of_neg (by simp [hfit]), ih.2]
    exact ⟨rfl, rfl⟩

/-- What stays has the nodes that stay, and leaves nothing open but a declaration. -/
theorem ofText_kept (h : Moves t ds u ns) : Snippet.Pending u ∧ Node.ofText u = ns := by
  induction h with
  | rest h => exact ⟨h.pending, rfl⟩
  | root hp _ _ _ ih =>
    rw [hp.closed.ofText_append, ih.2]
    exact ⟨hp.closed.pending_append ih.1, rfl⟩

end Moves

structure IsFit (e : Declaration) : Prop where
  property : e.property ∈ fitNames
  value : e.value ≠ []
  chunk : Chunk e.bare

theorem isDull_of_mem_fitNames {n : Text} (hn : n ∈ fitNames) {c : Char} (hc : c ∈ n) :
    isNameChar c = true ∧ Pointer.IsDull c ∧ isBlank c = false := by
  have hnames : ∀ n ∈ fitNames, ∀ c ∈ n, isNameChar c = true ∧ Pointer.IsDull c ∧ isBlank c = false := by
    decide
  exact hnames n hn c hc

theorem Parts.isDull {blanks value : Text} (h : Parts name blanks value) :
    ∀ c ∈ name ++ blanks ++ [':'], Pointer.IsDull c := by
  have hfolded : ∀ c, isFoldedNameChar c = true → Pointer.IsDull c := by
    have hspecial : ∀ c ∈ ['"', '\'', '\\', '/', '*', '(', ')', '{', '}', ';'],
        isFoldedNameChar c = false := by decide
    intro c hc hmem
    exact Bool.false_ne_true ((hspecial c hmem).symm.trans hc)
  have hcolon : Pointer.IsDull ':' := by decide
  intro c hc
  rcases List.mem_append.mp hc with hc | hc
  · rcases List.mem_append.mp hc with hc | hc
    · exact hfolded c (isDull_of_mem_fitNames h.spelled (List.mem_map_of_mem hc)).1
    · exact Pointer.isDull_of_blank (h.blank c hc)
  · exact List.mem_singleton.mp hc ▸ hcolon

theorem IsRoot.isFit (hd : IsRoot d e) : IsFit e := by
  obtain ⟨u, v, -, hv, hname, he⟩ := fit?_eq_some hd.fit
  obtain ⟨name, blanks, value, rfl, hp, rfl⟩ := hd.exists_parts
  obtain ⟨hproperty, hvalue⟩ := Declaration.mk.inj he
  rw [← hproperty] at hname
  rw [← hvalue] at hv
  refine ⟨hname, hv, chunk_iff.mpr ⟨?_, ⟨?_, ?_⟩, by simp [Declaration.bare]⟩⟩
  · have hbare : ∀ c ∈ lower name ++ ": ", Pointer.IsDull c := by
      have hcolon : ∀ c ∈ (": " : Text), Pointer.IsDull c := by decide
      intro c hc
      rcases List.mem_append.mp hc with hc | hc
      · exact (isDull_of_mem_fitNames hname hc).2.1
      · exact hcolon c hc
    have hleaves := (chunk_iff.mp hd.chunk).1
    rw [List.append_cons, Pointer.leaves_dull_append rfl hp.isDull, ← Pointer.leaves_trim] at hleaves
    rw [Declaration.bare, Pointer.leaves_dull_append rfl hbare]
    exact hleaves
  · intro c hc
    have hne : lower name ≠ [] := fun hnil => absurd (hnil ▸ hname) (by decide)
    rw [Declaration.bare, List.append_assoc, List.head?_append_of_ne_nil _ hne] at hc
    exact (isDull_of_mem_fitNames hname (List.mem_of_head? hc)).2.2
  · intro c hc
    rw [Declaration.bare, List.getLast?_append_of_ne_nil _ hv] at hc
    exact (trimmed_trim value).2 c hc

theorem Moves.isFit (h : Moves t ds u ns) : ∀ e ∈ ds, IsFit e := by
  induction h with
  | rest h => exact fun e he => absurd he List.not_mem_nil
  | root _ hd _ _ ih => exact List.forall_mem_cons.mpr ⟨hd.isFit, ih⟩

end Restyle.ImageFit
