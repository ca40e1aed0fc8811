import Restyle.Proofs.Declaration.Listing

/-! # Finding and taking out a longhand

In a list of declarations the first declaration of a longhand is found, and
declarations of it are taken out. What is taken out lends its semicolons to no
other declaration, so of two in a row one stays.
-/

namespace Restyle.Declaration

open Text

variable {c : Char} {t u v w p rest n : Text} {d : Declaration} {ds es : List Declaration}

structure IsName (n : Text) : Prop where
  ne_nil : n ≠ []
  name : ∀ c ∈ n, isNameChar c = true
  folded : n.map fold = n

instance (n : Text) : Decidable (IsName n) :=
  decidable_of_iff (n ≠ [] ∧ (∀ c ∈ n, isNameChar c = true) ∧ n.map fold = n)
    ⟨fun h => ⟨h.1, h.2.1, h.2.2⟩, fun h => ⟨h.1, h.2, h.3⟩⟩

/-- A declaration of a property behind a semicolon. -/
def closing (n : Text) : Recogniser Text := fun _ t =>
  (dropStart? t ";").bind (declarationOf? n)

def removing (n : Text) : Recogniser Text := fun before t =>
  (closing n before t).map fun (_, rest) => (";", rest)

/-- Where only what begins visibly is read, reading begins at the first visible character. -/
theorem behindBlanks?_eq {α : Type} {read : Text → Option α}
    (h : ∀ c t, isBlank c = true → read (c :: t) = none) (t : Text) :
    behindBlanks? read t = read (trimStart t) := by
  induction t with
  | nil => rfl
  | cons c t ih =>
    rw [behindBlanks?]
    cases hc : isBlank c with
    | true =>
      have htrim : trimStart (c :: t) = trimStart t := List.dropWhile_cons_of_pos hc
      rw [if_pos rfl, ih, h c t hc, htrim]
      cases read (trimStart t) <;> rfl
    | false => rw [if_neg (by simp), trimStart_cons_of_not_blank hc]

variable (hn : IsName n)

include hn in
theorem property?_cons_eq_none (hc : isFoldedNameChar c = false) (t : Text) :
    property? [n] (c :: t) = none := by
  refine Option.eq_none_iff_forall_ne_some.mpr ?_
  rintro ⟨m, rest⟩ h
  obtain ⟨-, name, blanks, ht, hname, -⟩ := property?_eq_some_iff.mp h
  obtain ⟨l, m, rfl⟩ := List.exists_cons_of_ne_nil hn.ne_nil
  rcases name with _ | ⟨d, name⟩
  · simp at hname
  · obtain ⟨rfl, -⟩ := List.cons.inj ht
    have hfold : fold c = fold l := (List.cons.inj hname).1
    rw [hn.folded] at hname
    have hl := hn.name l List.mem_cons_self
    rw [isFoldedNameChar, (List.cons.inj hname).1, hl] at hc
    exact Bool.false_ne_true hc.symm

include hn in
theorem declarationOf?_eq (t : Text) : declarationOf? n t =
    (property? [n] (trimStart t)).bind fun found =>
      (value? found.2).map fun value => (trim value.1, value.2) := by
  rw [declarationOf?, behindBlanks?_eq]
  · cases property? [n] (trimStart t) with
    | none => rfl
    | some found => cases hv : value? found.2 <;> simp [hv]
  · intro c t hc
    rw [property?_cons_eq_none hn (isFoldedNameChar_of_blank hc)]
    rfl

theorem value?_append (hne : v ≠ []) (hv : ∀ c ∈ v, c ∉ [';', '{', '}']) (t : Text) :
    value? (v ++ ';' :: t) = some (v, t) := by
  have hend : ∀ c ∈ v, (!(c == ';' || c == '{' || c == '}')) = true := by
    intro c hc
    have hfree := hv c hc
    simp only [List.mem_cons, List.not_mem_nil, or_false, not_or] at hfree
    simp [hfree]
  have htake : (v ++ ';' :: t).takeWhile (fun c => !(c == ';' || c == '{' || c == '}')) = v := by
    rw [List.takeWhile_append_of_pos hend]
    simp
  have hdrop : (v ++ ';' :: t).dropWhile (fun c => !(c == ';' || c == '{' || c == '}')) = ';' :: t := by
    rw [List.dropWhile_append_of_pos hend]
    simp
  have hempty : v.isEmpty = false := by simpa using hne
  have hvalue : value? (v ++ ';' :: t) =
      (dropStart? ((v ++ ';' :: t).dropWhile fun c => !(c == ';' || c == '{' || c == '}')) ";").bind
        fun rest =>
          let value := (v ++ ';' :: t).takeWhile fun c => !(c == ';' || c == '{' || c == '}')
          if value.isEmpty then none else some (value, rest) := rfl
  rw [hvalue, htake, hdrop]
  simp [hempty, dropStart?]

theorem value?_eq_some_iff : value? t = some (v, rest) ↔
    t = v ++ ';' :: rest ∧ v ≠ [] ∧ ∀ c ∈ v, c ∉ [';', '{', '}'] := by
  constructor
  · intro h
    obtain ⟨rest', hrest, h⟩ := Option.bind_eq_some_iff.mp h
    dsimp only at h
    split_ifs at h with hempty
    obtain ⟨rfl, rfl⟩ := Prod.mk.inj (Option.some.inj h)
    refine ⟨?_, by simpa using hempty, fun c hc => ?_⟩
    · have hdrop := dropStart?_eq_some.mp hrest
      conv_lhs => rw [← List.takeWhile_append_dropWhile (p := fun c => !(c == ';' || c == '{' || c == '}'))
        (l := t), hdrop]
      rfl
    · have hend := List.mem_takeWhile_imp hc
      simpa [and_assoc] using hend
  · rintro ⟨rfl, hne, hfree⟩
    exact value?_append hne hfree rest

theorem eq_of_spelled {name blanks property w rest' : Text} (hn : IsName n)
    (h : name ++ blanks ++ ':' :: rest = property ++ w ++ ':' :: rest') (hname : name.map fold = n)
    (hblanks : Blank blanks) (hproperty : IsToken property) (hcolon : ':' ∉ property)
    (hw : Blank w) : name = property := by
  have hchar : ∀ c ∈ name, isFoldedNameChar c = true := fun c hc =>
    hn.name _ (hname ▸ List.mem_map_of_mem hc)
  have hfree : ∀ {a b : Text}, ':' ∉ a → Blank b → ∀ c ∈ a ++ b, (c == ':') = false := by
    intro a b ha hb c hc
    refine beq_false_of_ne fun he => ?_
    subst he
    exact (List.mem_append.mp hc).elim ha fun hc => hb.ne_of_mem hc (by decide) rfl
  have hcolon' : ':' ∉ name := fun hc => absurd (hchar _ hc) (by decide)
  have hcut := congrArg (cut? (· == ':')) h
  rw [cut?_append (hfree hcolon' hblanks) (beq_self_eq_true ':'),
    cut?_append (hfree hcolon hw) (beq_self_eq_true ':')] at hcut
  have hparts : name ++ blanks = property ++ w := congrArg Prod.fst (Option.some.inj hcut)
  have htoken : IsToken name := by
    refine ⟨?_, fun c hc => ?_⟩
    · rintro rfl
      exact hn.ne_nil hname.symm
    · by_contra hblank
      have hfolded := isFoldedNameChar_of_blank (by simpa using hblank)
      rw [hchar c hc] at hfolded
      exact Bool.false_ne_true hfolded.symm
  have hwords := congrArg words hparts
  rw [words_append_blank _ hblanks, words_append_blank _ hw, htoken.words_eq, hproperty.words_eq]
    at hwords
  exact List.singleton_inj.mp hwords

theorem Piece.declarationOf? (hn : IsName n) (hp : Piece p d) (t : Text) :
    ∃ v, spaced v = d.value ∧ (∀ c ∈ v, c ∉ [';', '{', '}']) ∧
      declarationOf? n (p ++ ';' :: t) = if d.name = n then some (v, t) else none := by
  obtain ⟨u, v, rfl, hcolon, hu, hv, hvalue⟩ := ofPiece?_eq_some_iff.mp hp.reads
  obtain ⟨w, w', hw, hw', rfl, hproperty⟩ := words_eq_singleton_iff.mp hu
  obtain ⟨c, property, hcons⟩ := List.exists_cons_of_ne_nil hproperty.ne_nil
  have hvisible : isBlank c = false := hproperty.visible c (hcons ▸ List.mem_cons_self)
  have htrim : Text.trimStart (w ++ d.property ++ w' ++ ':' :: v ++ ';' :: t) =
      d.property ++ w' ++ ':' :: (v ++ ';' :: t) := by
    simp only [List.append_assoc]
    rw [trimStart_append hw, hcons, List.cons_append, trimStart_cons_of_not_blank hvisible]
    rfl
  have hcolon' : ':' ∉ d.property := fun hc => hcolon (by simp [hc])
  have hfree : ∀ c ∈ v, c ∉ [';', '{', '}'] := fun c hc => hp.free c (by simp [hc])
  refine ⟨trim v, by rw [hvalue, spaced, spaced, words_trim], ?_, ?_⟩
  · obtain ⟨w, w', -, -, hv⟩ := exists_eq_trim v
    exact fun c hc => hfree c (by rw [hv]; simp [hc])
  rw [declarationOf?_eq hn, htrim]
  split_ifs with hname
  · have hfound : property? [n] (d.property ++ w' ++ ':' :: (v ++ ';' :: t)) = some (n, v ++ ';' :: t) :=
      property?_eq_some_iff.mpr ⟨rfl, d.property, w', rfl, hname.trans hn.folded.symm, hw'⟩
    have hne : v ≠ [] := by
      rintro rfl
      exact hv .nil
    rw [hfound, Option.bind_some, value?_append hne hfree, Option.map_some]
  · have hnone : property? [n] (d.property ++ w' ++ ':' :: (v ++ ';' :: t)) = none := by
      refine Option.eq_none_iff_forall_ne_some.mpr ?_
      rintro ⟨m, rest⟩ hfound
      obtain ⟨-, name, blanks, ht, hspelled, hblanks⟩ := property?_eq_some_iff.mp hfound
      rw [hn.folded] at hspelled
      have heq := eq_of_spelled hn ht.symm hspelled hblanks hproperty hcolon' hw'
      rw [heq] at hspelled
      exact hname hspelled
    rw [hnone]
    rfl

include hn in
theorem declarationOf?_blank (hw : Blank w) : declarationOf? n w = none := by
  rw [declarationOf?_eq hn, trimStart_eq_nil hw]
  obtain ⟨c, m, rfl⟩ := List.exists_cons_of_ne_nil hn.ne_nil
  rfl

include hn in
theorem declarationOf?_blank_append (hw : Blank w) (t : Text) :
    declarationOf? n (w ++ ';' :: t) = none := by
  rw [declarationOf?_eq hn, trimStart_append hw, trimStart_cons_of_not_blank (by decide),
    property?_cons_eq_none hn (by decide)]
  rfl

theorem forward_closing (n : Text) : (closing n).Forward :=
  fun _ _ => rfl

theorem forward_removing (n : Text) : (removing n).Forward :=
  fun _ _ => rfl

theorem closing_semicolon (n t : Text) : closing n none (';' :: t) = declarationOf? n t := by
  simp [closing, dropStart?]

theorem closing_cons (hc : c ≠ ';') (n t : Text) : closing n none (c :: t) = none := by
  simp [closing, dropStart?, Ne.symm hc]

theorem sideDeclaration_some (n : Text) (b : Char) (t : Text) :
    sideDeclaration n (some b) t = closing n none t := by
  simp [sideDeclaration, closing]

theorem findFrom?_sideDeclaration (n : Text) (b : Char) (t : Text) :
    findFrom? (sideDeclaration n) (some b) t = find? (closing n) t := by
  induction t generalizing b with
  | nil => rfl
  | cons c t ih =>
    rw [findFrom?, sideDeclaration_some, ih, find?_cons (forward_closing n)]
    cases closing n none (c :: t) <;> rfl

theorem substituteFrom_sideDeclaration (n : Text) (skip : Nat) (b : Char) (t : Text) :
    substituteFrom (fun before t => (sideDeclaration n before t).map fun (_, rest) => (";", rest)) skip
      (some b) t = substituteFrom (removing n) skip (some b) t := by
  induction t generalizing skip b with
  | nil => cases skip <;> rfl
  | cons c t ih =>
    cases skip with
    | succ skip => exact ih skip c
    | zero =>
      have hclosing : closing n (some b) (c :: t) = closing n none (c :: t) := rfl
      simp only [substituteFrom, sideDeclaration_some, removing, hclosing, ih]

include hn in
/-- The start of a text is as good as a semicolon for finding a declaration. -/
theorem find?_sideDeclaration (t : Text) :
    find? (sideDeclaration n) t = find? (closing n) (';' :: t) := by
  rw [find?_cons (forward_closing n), closing_semicolon]
  cases t with
  | nil =>
    rw [declarationOf?_blank hn .nil]
    rfl
  | cons c t =>
    rw [find?, findFrom?, findFrom?_sideDeclaration, find?_cons (forward_closing n)]
    have hside : sideDeclaration n none (c :: t) =
        (declarationOf? n (c :: t) <|> closing n none (c :: t)) := rfl
    rw [hside]
    cases declarationOf? n (c :: t) with
    | some found => rfl
    | none => cases closing n none (c :: t) <;> rfl

theorem find?_closing_append (hp : ∀ c ∈ p, (c == ';') = false) (t : Text) :
    find? (closing n) (p ++ t) = find? (closing n) t := by
  induction p with
  | nil => rfl
  | cons c p ih =>
    obtain ⟨hc, hp⟩ := List.forall_mem_cons.mp hp
    rw [List.cons_append, find?_cons (forward_closing n), closing_cons (by simpa using hc), ih hp]
    rfl

theorem substitute_removing_append (hp : ∀ c ∈ p, (c == ';') = false) (t : Text) :
    substitute (removing n) (p ++ t) = p ++ substitute (removing n) t := by
  induction p with
  | nil => rfl
  | cons c p ih =>
    obtain ⟨hc, hp⟩ := List.forall_mem_cons.mp hp
    have hnone : removing n none (c :: (p ++ t)) = none := by
      have hclosing : closing n none (c :: (p ++ t)) = none := closing_cons (by simpa using hc) n _
      rw [removing, hclosing]
      rfl
    rw [List.cons_append, substitute_cons (forward_removing n) hnone, ih hp, List.cons_append]

theorem substitute_removing_semicolon (h : declarationOf? n t = none) :
    substitute (removing n) (';' :: t) = ';' :: substitute (removing n) t := by
  refine substitute_cons (forward_removing n) ?_
  rw [removing, closing_semicolon, h]
  rfl

theorem first?_cons (d : Declaration) (ds : List Declaration) (n : Text) :
    first? (d :: ds) n = if d.name = n then some d.value else first? ds n := by
  rw [first?, List.find?_cons]
  by_cases h : d.name = n <;> simp [h, first?]

theorem Spells.find?_sideDeclaration (hn : IsName n) (h : Spells t ds) :
    (find? (sideDeclaration n) t = none ∧ first? ds n = none) ∨
      ∃ v, find? (sideDeclaration n) t = some v ∧ first? ds n = some (spaced v) ∧
        ∀ c ∈ v, c ∉ [';', '{', '}'] := by
  rw [Declaration.find?_sideDeclaration hn]
  induction h with
  | @blank w hw =>
    have hfind := find?_closing_append (n := n) hw.no_semicolon []
    rw [List.append_nil] at hfind
    rw [find?_cons (forward_closing n), closing_semicolon, declarationOf?_blank hn hw, hfind]
    exact Or.inl ⟨rfl, rfl⟩
  | @skip w t ds hw _ ih =>
    rw [find?_cons (forward_closing n), closing_semicolon, declarationOf?_blank_append hn hw,
      find?_closing_append hw.no_semicolon]
    exact ih
  | @cons p t d ds hp _ ih =>
    obtain ⟨v, hv, hfree, hfound⟩ := hp.declarationOf? hn t
    rw [find?_cons (forward_closing n), closing_semicolon, hfound,
      find?_closing_append hp.no_semicolon, first?_cons]
    split_ifs
    · exact Or.inr ⟨v, rfl, congrArg some hv.symm, hfree⟩
    · exact ih

/-- What is taken out leaves a list, also where no declaration is looked for at its start; only
declarations of the one property are missing in it. -/
theorem Spells.substitute_removing (hn : IsName n) (h : Spells t ds) :
    (∃ u es, substitute (removing n) (';' :: t) = ';' :: u ∧ Spells u es ∧
      es.filter (·.name ≠ n) = ds.filter (·.name ≠ n)) ∧
    ∃ es, Spells (substitute (removing n) t) es ∧
      es.filter (·.name ≠ n) = ds.filter (·.name ≠ n) := by
  induction h with
  | @blank w hw =>
    have hself : substitute (removing n) w = w := by
      have happend := substitute_removing_append (n := n) hw.no_semicolon []
      rwa [List.append_nil, substitute_nil, List.append_nil] at happend
    rw [substitute_removing_semicolon (declarationOf?_blank hn hw), hself]
    exact ⟨⟨w, [], rfl, .blank hw, rfl⟩, [], .blank hw, rfl⟩
  | @skip w t ds hw _ ih =>
    obtain ⟨⟨u, es, hu, hes, hkeep⟩, -⟩ := ih
    rw [substitute_removing_semicolon (declarationOf?_blank_append hn hw t),
      substitute_removing_append hw.no_semicolon, hu]
    exact ⟨⟨_, es, rfl, .skip hw hes, hkeep⟩, es, .skip hw hes, hkeep⟩
  | @cons p t d ds hp _ ih =>
    obtain ⟨⟨u, es, hu, hes, hkeep⟩, es', hes', hkeep'⟩ := ih
    obtain ⟨v, -, -, hfound⟩ := hp.declarationOf? hn t
    have hstay : Spells (substitute (removing n) (p ++ ';' :: t)) (d :: es) := by
      rw [substitute_removing_append hp.no_semicolon, hu]
      exact .cons hp hes
    have hstays : (d :: es).filter (·.name ≠ n) = (d :: ds).filter (·.name ≠ n) := by
      rw [List.filter_cons, List.filter_cons, hkeep]
    refine ⟨?_, d :: es, hstay, hstays⟩
    by_cases hname : d.name = n
    · -- The semicolon behind the declaration is gone, so the next piece stays whatever it is.
      rw [if_pos hname] at hfound
      have hsplit : ';' :: (p ++ ';' :: t) = (';' :: p ++ [';']) ++ t := by simp
      have hremove : removing n none ((';' :: p ++ [';']) ++ t) = some ([';'], t) := by
        rw [← hsplit, removing, closing_semicolon, hfound]
        rfl
      have hout := substitute_append (forward_removing n) (List.cons_ne_nil ';' (p ++ [';'])) hremove
      refine ⟨_, es', ?_, hes', ?_⟩
      · rw [hsplit]
        exact hout
      · rw [hkeep', List.filter_cons_of_neg (by simp [hname])]
    · rw [if_neg hname] at hfound
      rw [substitute_removing_semicolon hfound]
      exact ⟨_, d :: es, rfl, hstay, hstays⟩

theorem withoutSide_eq (h : declarationOf? n t = none) :
    withoutSide t n = substitute (removing n) t := by
  rcases t with _ | ⟨c, t⟩
  · rfl
  · have hside : sideDeclaration n none (c :: t) =
        (declarationOf? n (c :: t) <|> closing n none (c :: t)) := rfl
    have hclosing : sideDeclaration n none (c :: t) = closing n none (c :: t) := by
      rw [hside, h]
      rfl
    simp only [withoutSide, substitute, substituteFrom, hclosing, removing,
      substituteFrom_sideDeclaration]

/-- Without the declarations of a property a list keeps all others in order. -/
theorem Spells.withoutSide (hn : IsName n) (h : Spells t ds) :
    ∃ es, Spells (withoutSide t n) es ∧ es.filter (·.name ≠ n) = ds.filter (·.name ≠ n) := by
  cases h with
  | blank hw =>
    rw [withoutSide_eq (declarationOf?_blank hn hw)]
    exact (Spells.substitute_removing hn (.blank hw)).2
  | skip hw h =>
    rw [withoutSide_eq (declarationOf?_blank_append hn hw _)]
    exact (Spells.substitute_removing hn (.skip hw h)).2
  | @cons p t d ds hp h =>
    obtain ⟨v, -, -, hfound⟩ := hp.declarationOf? hn t
    split_ifs at hfound with hname
    · obtain ⟨-, es, hes, hkeep⟩ := Spells.substitute_removing hn h
      rcases p with _ | ⟨c, p⟩
      · exact absurd .nil hp.not_blank
      · have hside : sideDeclaration n none (c :: (p ++ ';' :: t)) = some (v, t) := by
          have hor : sideDeclaration n none (c :: (p ++ ';' :: t)) =
              (declarationOf? n (c :: p ++ ';' :: t) <|> closing n none (c :: (p ++ ';' :: t))) := rfl
          rw [hor, hfound]
          rfl
        have hlen : (p ++ ';' :: t).length - t.length = (p ++ [';']).length := by
          simp only [List.length_append, List.length_cons, List.length_nil]
          omega
        have hsplit : p ++ ';' :: t = (p ++ [';']) ++ t := by simp
        have hout : Declaration.withoutSide (c :: p ++ ';' :: t) n =
            ';' :: substitute (removing n) t := by
          rw [Declaration.withoutSide, substitute, List.cons_append, substituteFrom, hside]
          simp only [Option.map_some]
          rw [hlen, substituteFrom_sideDeclaration, hsplit, substituteFrom_length (forward_removing n)]
          rfl
        rw [hout, List.filter_cons_of_neg (by simp [hname])]
        exact ⟨es, hes.semicolon, hkeep⟩
    · rw [withoutSide_eq hfound]
      exact (Spells.substitute_removing hn (.cons hp h)).2

end Restyle.Declaration
