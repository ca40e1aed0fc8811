import Restyle.Proofs.Stylesheet.Respacing

/-! # Thinning out white space and semicolons

A pass that changes every run of white space and semicolons on its own, and
leaves something of it, changes no lexeme but in such runs: no quote is shielded
or laid bare, and no comment opened or ended. So it changes the quoted strings
of a stylesheet one by one, and what stands outside as if they were not there.
-/

namespace Restyle

open Text Lexeme

def Text.isIdle (c : Char) : Bool :=
  isBlank c || c == ';'

def Text.Idle (t : Text) : Prop :=
  ∀ c ∈ t, isIdle c = true

structure Thinning (g : Text → Text) : Prop where
  nil : g [] = []
  cut : ∀ t c u, isIdle c = false → g (t ++ c :: u) = g t ++ c :: g u
  idle : ∀ w, Idle w → Idle (g w)
  ne_nil : ∀ w, Idle w → w ≠ [] → g w ≠ []

def Lexeme.quotedString? : Lexeme → Option Text
  | .quoted t true => some t
  | _ => none

/-- The text of a lexeme, with a double quote for a quoted string. -/
def Lexeme.unquoted : Lexeme → Text
  | .quoted _ true => ['"']
  | l => l.text

/-- The quoted strings of a stylesheet. -/
def quotedStrings (css : Text) : List Text :=
  (scan css).filterMap quotedString?

/-- A stylesheet with a double quote in the place of every quoted string. -/
def unquoted (css : Text) : Text :=
  (scan css).flatMap Lexeme.unquoted

variable {g : Text → Text} {c d q : Char} {p seen t u w : Text}

namespace Thinning

theorem cons (hg : Thinning g) (hc : isIdle c = false) (u : Text) : g (c :: u) = c :: g u := by
  have hcut := hg.cut [] c u hc
  rwa [List.nil_append, hg.nil, List.nil_append] at hcut

theorem concat (hg : Thinning g) (hc : isIdle c = false) (p : Text) : g (p ++ [c]) = g p ++ [c] := by
  rw [hg.cut p c [] hc, hg.nil]

theorem append_last (hg : Thinning g) (hc : isIdle c = false) (p u : Text) :
    g (p ++ [c] ++ u) = g (p ++ [c]) ++ g u := by
  rw [hg.concat hc, List.append_assoc, List.singleton_append, hg.cut p c u hc]
  simp

theorem exists_cons_of_idle (hg : Thinning g) (hd : isIdle d = true) (u : Text) :
    ∃ e v, g (d :: u) = e :: v ∧ isIdle e = true := by
  -- The run that the character begins ends with the text or in front of another character.
  obtain ⟨w, hw, v, hv⟩ : ∃ w, Idle (d :: w) ∧ ∃ v, g (d :: u) = g (d :: w) ++ v := by
    rcases cut?_cases (fun c => !isIdle c) u with hu | ⟨w, c, v, rfl, hw, hc⟩
    · refine ⟨u, List.forall_mem_cons.mpr ⟨hd, fun c hc => by simpa using hu c hc⟩, [], ?_⟩
      rw [List.append_nil]
    · refine ⟨w, List.forall_mem_cons.mpr ⟨hd, fun c hc => by simpa using hw c hc⟩, c :: g v, ?_⟩
      exact hg.cut (d :: w) c v (by simpa using hc)
  obtain ⟨e, x, he⟩ := List.exists_cons_of_ne_nil (hg.ne_nil _ hw (List.cons_ne_nil d w))
  refine ⟨e, x ++ v, by rw [hv, he, List.cons_append], hg.idle _ hw e ?_⟩
  rw [he]
  exact List.mem_cons_self

theorem head?_eq_some_iff (hg : Thinning g) (hc : isIdle c = false) (u : Text) :
    (g u).head? = some c ↔ u.head? = some c := by
  rcases u with _ | ⟨d, u⟩
  · rw [hg.nil]
  · cases hd : isIdle d with
    | true =>
      obtain ⟨e, v, he, hidle⟩ := hg.exists_cons_of_idle hd u
      have hne (a : Char) (ha : isIdle a = true) : some a ≠ some c := by
        rintro ⟨⟩
        exact Bool.false_ne_true (hc.symm.trans ha)
      rw [he]
      exact iff_of_false (hne e hidle) (hne d hd)
    | false => rw [hg.cons hd, List.head?_cons, List.head?_cons]

/-- Of a text and of what becomes of it, a reader inside a lexeme takes parts that correspond. -/
def Retakes (g : Text → Text) (read : Text → Text → List Lexeme) (lexeme : Text → Bool → Lexeme)
    (t : Text) : Prop :=
  ∀ seen seen', ∃ body closed rest, rest.length ≤ t.length ∧ (closed = false → rest = []) ∧
    (∀ v, (closed = false → v = []) → g (body ++ v) = g body ++ g v) ∧
      read seen t = lexeme (seen.reverse ++ body) closed :: scan rest ∧
        read seen' (g t) = lexeme (seen'.reverse ++ g body) closed :: scan (g rest)

section Retakes

variable {read : Text → Text → List Lexeme} {lexeme : Text → Bool → Lexeme}

theorem Retakes.all (hg : Thinning g) (ht : ∀ seen, read seen t = [lexeme (seen.reverse ++ t) false])
    (hgt : ∀ seen, read seen (g t) = [lexeme (seen.reverse ++ g t) false]) :
    Retakes g read lexeme t := by
  refine fun seen seen' => ⟨t, false, [], Nat.zero_le _, fun _ => rfl, fun v hv => ?_, ?_, ?_⟩
  · rw [hv rfl, hg.nil, List.append_nil, List.append_nil]
  · rw [ht, scan]
  · rw [hgt, hg.nil, scan]

theorem Retakes.stop (hp : ∀ u, g (p ++ u) = g p ++ g u)
    (h : ∀ seen, read seen (p ++ t) = lexeme (seen.reverse ++ p) true :: scan t)
    (h' : ∀ seen, read seen (g p ++ g t) = lexeme (seen.reverse ++ g p) true :: scan (g t)) :
    Retakes g read lexeme (p ++ t) := by
  refine fun seen seen' => ⟨p, true, t, by simp, by simp, fun v _ => hp v, h seen, ?_⟩
  rw [hp]
  exact h' seen'

theorem Retakes.goOn (hp : ∀ u, g (p ++ u) = g p ++ g u)
    (h : ∀ seen, read seen (p ++ t) = read (p.reverse ++ seen) t)
    (h' : ∀ seen, read seen (g p ++ g t) = read ((g p).reverse ++ seen) (g t))
    (ht : Retakes g read lexeme t) : Retakes g read lexeme (p ++ t) := by
  intro seen seen'
  obtain ⟨body, closed, rest, hlength, hrest, hbody, hread, hread'⟩ :=
    ht (p.reverse ++ seen) ((g p).reverse ++ seen')
  refine ⟨p ++ body, closed, rest, ?_, hrest, fun v hv => ?_, ?_, ?_⟩
  · rw [List.length_append]
    omega
  · rw [List.append_assoc, hp, hbody v hv, hp, List.append_assoc]
  · rw [h, hread]
    simp
  · rw [hp, h', hread', hp]
    simp

end Retakes

theorem isIdle_ne (hc : isIdle c = true) (hd : isIdle d = false) : c ≠ d := by
  rintro rfl
  exact Bool.false_ne_true (hd.symm.trans hc)

theorem scanQuoted_idle_append (hq : isIdle q = false) (hw : Idle w)
    (seen t : Text) : scanQuoted q seen (w ++ t) = scanQuoted q (w.reverse ++ seen) t :=
  scanQuoted_append (fun hmem => isIdle_ne (hw q hmem) hq rfl)
    (fun hmem => isIdle_ne (hw _ hmem) (by decide) rfl) seen t

theorem scanComment_idle_append (hw : Idle w) (seen t : Text) :
    scanComment seen (w ++ t) = scanComment (w.reverse ++ seen) t :=
  scanComment_append (fun hmem => isIdle_ne (hw _ hmem) (by decide) rfl) seen t

theorem scan_idle_append (hw : Idle w) (t : Text) :
    scan (w ++ t) = w.map plain ++ scan t := by
  refine scan_plain_append (fun c hc => ?_) t
  have hidle := hw c hc
  simp only [List.mem_cons, List.not_mem_nil, or_false, not_or]
  exact ⟨isIdle_ne hidle (by decide), isIdle_ne hidle (by decide), isIdle_ne hidle (by decide)⟩

theorem idle_cases (t : Text) : Idle t ∨
    ∃ w c u, t = w ++ c :: u ∧ Idle w ∧ isIdle c = false := by
  rcases cut?_cases (fun c => !isIdle c) t with ht | ⟨w, c, u, rfl, hw, hc⟩
  · exact Or.inl fun c hc => by simpa using ht c hc
  · exact Or.inr ⟨w, c, u, rfl, fun c hc => by simpa using hw c hc, by simpa using hc⟩

section Quoted

variable (hq : isIdle q = false)

include hq in
theorem scanQuoted_idle (hw : Idle w) (seen : Text) :
    scanQuoted q seen w = [quoted (seen.reverse ++ w) false] := by
  have hrun := scanQuoted_idle_append hq hw seen []
  rw [List.append_nil, scanQuoted] at hrun
  simpa using hrun

include hq in
theorem scanQuoted_idle_end (hne : q ≠ '\\') (hw : Idle w) (u seen : Text) :
    scanQuoted q seen (w ++ [q] ++ u) = quoted (seen.reverse ++ (w ++ [q])) true :: scan u := by
  rw [List.append_assoc, scanQuoted_idle_append hq hw, List.singleton_append, scanQuoted_end hne]
  simp

include hq in
theorem scanQuoted_idle_shield (hw : Idle w) (d : Char) (u seen : Text) :
    scanQuoted q seen (w ++ ['\\'] ++ [d] ++ u) =
      scanQuoted q ((w ++ ['\\'] ++ [d]).reverse ++ seen) u := by
  rw [List.append_assoc, List.append_assoc, scanQuoted_idle_append hq hw, List.singleton_append,
    List.singleton_append, scanQuoted_shield]
  simp

include hq in
/-- A quoted text goes on behind a character that does not end it and shields nothing but an idle
character. -/
theorem scanQuoted_idle_char (hw : Idle w) (hc : c ≠ q)
    (ht : c = '\\' → ∀ d ∈ t.head?, isIdle d = true) (seen : Text) :
    scanQuoted q seen (w ++ [c] ++ t) = scanQuoted q ((w ++ [c]).reverse ++ seen) t := by
  rw [List.append_assoc, scanQuoted_idle_append hq hw, List.singleton_append, List.reverse_append]
  by_cases hshield : c = '\\' ∧ t ≠ []
  · obtain ⟨rfl, hne⟩ := hshield
    obtain ⟨d, t, rfl⟩ := List.exists_cons_of_ne_nil hne
    have hd : Idle [d] := by simpa [Idle] using ht rfl d rfl
    rw [scanQuoted_shield]
    exact (scanQuoted_idle_append hq hd _ t).symm
  · exact scanQuoted_char hc fun hb => not_not.mp fun hne => hshield ⟨hb, hne⟩

end Quoted

theorem retakes_scanQuoted (hg : Thinning g) (hquote : q = '"' ∨ q = '\'') (t : Text) :
    Retakes g (scanQuoted q) quoted t := by
  have hq : isIdle q = false := by rcases hquote with rfl | rfl <;> decide
  have hne : q ≠ '\\' := by rcases hquote with rfl | rfl <;> decide
  induction hn : t.length using Nat.strong_induction_on generalizing t with
  | _ n ih =>
    rcases idle_cases t with ht | ⟨w, c, u, rfl, hw, hc⟩
    · exact .all hg (scanQuoted_idle hq ht) (scanQuoted_idle hq (hg.idle t ht))
    · have hgw := hg.idle w hw
      have hlength : u.length < n := by
        rw [← hn, List.length_append, List.length_cons]
        omega
      by_cases hcq : c = q
      · subst hcq
        rw [List.append_cons]
        refine .stop (hg.append_last hc w) (scanQuoted_idle_end hq hne hw u) ?_
        rw [hg.concat hc]
        exact scanQuoted_idle_end hq hne hgw (g u)
      · by_cases hshield : c = '\\' ∧ ∃ d, u.head? = some d ∧ isIdle d = false
        · obtain ⟨rfl, d, hd, hdfirm⟩ := hshield
          obtain ⟨u, rfl⟩ := List.head?_eq_some_iff.mp hd
          rw [List.append_cons, List.append_cons]
          refine .goOn (hg.append_last hdfirm _) (scanQuoted_idle_shield hq hw d u) ?_ (ih _ ?_ u rfl)
          · rw [hg.concat hdfirm, hg.concat hc]
            exact scanQuoted_idle_shield hq hgw d (g u)
          · rw [List.length_cons] at hlength
            omega
        · rw [List.append_cons]
          have hidle : c = '\\' → ∀ d, u.head? = some d → isIdle d = true := by
            intro hb d hd
            by_contra hdf
            exact hshield ⟨hb, d, hd, by simpa using hdf⟩
          refine .goOn (hg.append_last hc w) (scanQuoted_idle_char hq hw hcq hidle) ?_
            (ih _ hlength u rfl)
          rw [hg.concat hc]
          refine scanQuoted_idle_char hq hgw hcq fun hb d hd => ?_
          by_contra hdf
          have hdf' : isIdle d = false := by simpa using hdf
          exact hdf (hidle hb d ((hg.head?_eq_some_iff hdf' u).mp hd))

theorem scanComment_idle (hw : Idle w) (seen : Text) :
    scanComment seen w = [comment (seen.reverse ++ w) false] := by
  have hrun := scanComment_idle_append hw seen []
  rw [List.append_nil, scanComment] at hrun
  simpa using hrun

theorem scanComment_idle_end (hw : Idle w) (u seen : Text) :
    scanComment seen (w ++ ['*'] ++ ['/'] ++ u) =
      comment (seen.reverse ++ (w ++ ['*'] ++ ['/'])) true :: scan u := by
  rw [List.append_assoc, List.append_assoc, scanComment_idle_append hw, List.singleton_append,
    List.singleton_append, scanComment_end]
  simp

theorem scanComment_idle_char (hw : Idle w) (h : ¬ (c = '*' ∧ u.head? = some '/')) (seen : Text) :
    scanComment seen (w ++ [c] ++ u) = scanComment ((w ++ [c]).reverse ++ seen) u := by
  rw [List.append_assoc, scanComment_idle_append hw, List.singleton_append, scanComment_char h]
  simp

theorem retakes_scanComment (hg : Thinning g) (t : Text) :
    Retakes g scanComment comment t := by
  have hslash : isIdle '/' = false := by decide
  induction hn : t.length using Nat.strong_induction_on generalizing t with
  | _ n ih =>
    rcases idle_cases t with ht | ⟨w, c, u, rfl, hw, hc⟩
    · exact .all hg (scanComment_idle ht) (scanComment_idle (hg.idle t ht))
    · have hgw := hg.idle w hw
      rw [List.append_cons]
      by_cases hcomment : c = '*' ∧ u.head? = some '/'
      · obtain ⟨rfl, hhead⟩ := hcomment
        obtain ⟨u, rfl⟩ := List.head?_eq_some_iff.mp hhead
        rw [List.append_cons]
        refine .stop (hg.append_last hslash _) (scanComment_idle_end hw u) ?_
        rw [hg.concat hslash, hg.concat hc]
        exact scanComment_idle_end hgw (g u)
      · refine .goOn (hg.append_last hc w) (scanComment_idle_char hw hcomment) ?_ (ih u.length ?_ u rfl)
        · rw [hg.concat hc]
          refine scanComment_idle_char hgw ?_
          rwa [hg.head?_eq_some_iff hslash]
        · rw [← hn, List.length_append, List.length_cons]
          omega

theorem quotedStrings_of_scan {l : Lexeme} {rest : Text} (h : scan t = l :: scan rest) :
    quotedStrings t = l.quotedString?.toList ++ quotedStrings rest := by
  rw [quotedStrings, h, List.filterMap_cons]
  cases l.quotedString? <;> rfl

theorem unquoted_of_scan {l : Lexeme} {rest : Text} (h : scan t = l :: scan rest) :
    unquoted t = l.unquoted ++ unquoted rest := by
  rw [unquoted, h]
  rfl

theorem idle_append (hw : Idle w) (t : Text) :
    quotedStrings (w ++ t) = quotedStrings t ∧ unquoted (w ++ t) = w ++ unquoted t := by
  have hplain : (w.map plain).filterMap Lexeme.quotedString? = [] ∧
      (w.map plain).flatMap Lexeme.unquoted = w := by
    simp [Lexeme.quotedString?, List.flatMap_map, Lexeme.unquoted, Lexeme.text]
  constructor
  · rw [quotedStrings, scan_idle_append hw, List.filterMap_append, hplain.1]
    rfl
  · rw [unquoted, scan_idle_append hw, List.flatMap_append, hplain.2]
    rfl

/-- The pass changes every quoted string on its own, and the rest as if they were not there. -/
structure Strings (g : Text → Text) (t : Text) : Prop where
  quoted : quotedStrings (g t) = (quotedStrings t).map g
  unquoted : unquoted (g t) = g (unquoted t)

namespace Strings

theorem of_idle (hg : Thinning g) (ht : Idle t) : Strings g t := by
  have hidle : ∀ w, Idle w → quotedStrings w = [] ∧ Restyle.unquoted w = w := by
    intro w hw
    have hrun := idle_append hw []
    rw [List.append_nil] at hrun
    exact ⟨hrun.1, hrun.2.trans (List.append_nil w)⟩
  obtain ⟨hquoted, hunquoted⟩ := hidle t ht
  obtain ⟨hquoted', hunquoted'⟩ := hidle (g t) (hg.idle t ht)
  exact ⟨by rw [hquoted, hquoted']; rfl, by rw [hunquoted, hunquoted']⟩

theorem lexeme (hg : Thinning g) {l m : Lexeme} {rest : Text}
    (hw : Idle w) (hc : isIdle c = false) (hscan : scan (c :: u) = l :: scan rest)
    (hscan' : scan (c :: g u) = m :: scan (g rest)) (hquoted : m.quotedString? = l.quotedString?.map g)
    (hunquoted : g (w ++ (l.unquoted ++ Restyle.unquoted rest)) =
      g w ++ (m.unquoted ++ g (Restyle.unquoted rest)))
    (h : Strings g rest) : Strings g (w ++ c :: u) := by
  obtain ⟨hq, hu⟩ := idle_append hw (c :: u)
  obtain ⟨hq', hu'⟩ := idle_append (hg.idle w hw) (c :: g u)
  rw [quotedStrings_of_scan hscan] at hq
  rw [quotedStrings_of_scan hscan'] at hq'
  rw [unquoted_of_scan hscan] at hu
  rw [unquoted_of_scan hscan'] at hu'
  constructor
  · rw [hg.cut w c u hc, hq', hq, List.map_append, hquoted, h.quoted]
    cases l.quotedString? <;> rfl
  · rw [hg.cut w c u hc, hu', hu, h.unquoted, hunquoted]

theorem comment (hg : Thinning g) (hw : Idle w)
    (h : ∀ rest : Text, rest.length ≤ u.length → Strings g rest) :
    Strings g (w ++ '/' :: '*' :: u) := by
  have hslash : isIdle '/' = false := by decide
  have hstar : isIdle '*' = false := by decide
  obtain ⟨body, closed, rest, hrest, hopen, hbody, hread, hread'⟩ :=
    hg.retakes_scanComment u ['*', '/'] ['*', '/']
  have hscan' : scan ('/' :: g ('*' :: u)) =
      .comment ('/' :: '*' :: g body) closed :: scan (g rest) := by
    rw [hg.cons hstar, scan.eq_2]
    exact hread'
  have hsplit : g (w ++ (('/' :: '*' :: body) ++ Restyle.unquoted rest)) =
      g w ++ (('/' :: '*' :: g body) ++ g (Restyle.unquoted rest)) := by
    have hv : closed = false → Restyle.unquoted rest = [] := by
      intro hopen'
      rw [hopen hopen']
      rfl
    rw [List.cons_append, List.cons_append, hg.cut w '/' _ hslash, hg.cons hstar, hbody _ hv]
    rfl
  exact .lexeme hg hw hslash ((scan.eq_2 u).trans hread) hscan' rfl hsplit (h rest hrest)

theorem quote (hg : Thinning g) (hw : Idle w) (hc : isIdle c = false) (hquote : c = '"' ∨ c = '\'')
    (h : ∀ rest : Text, rest.length ≤ u.length → Strings g rest) : Strings g (w ++ c :: u) := by
  obtain ⟨body, closed, rest, hrest, hopen, hbody, hread, hread'⟩ :=
    hg.retakes_scanQuoted hquote u [c] [c]
  have hscan := (scan_quote hquote u).trans hread
  have hscan' := (scan_quote hquote (g u)).trans hread'
  cases closed with
  | true =>
    refine .lexeme hg hw hc hscan hscan' ?_ (hg.cut w '"' _ (by decide)) (h rest hrest)
    exact congrArg some (hg.cons hc body).symm
  | false =>
    refine .lexeme hg hw hc hscan hscan' rfl ?_ (h rest hrest)
    have hcut := hbody (Restyle.unquoted rest) fun _ => by rw [hopen rfl]; rfl
    exact (hg.cut w c _ hc).trans (congrArg (g w ++ c :: ·) hcut)

end Strings

/-- A thinning reaches every quoted string, and joins nothing across one. -/
theorem strings (hg : Thinning g) (t : Text) : Strings g t := by
  induction hn : t.length using Nat.strong_induction_on generalizing t with
  | _ n ih =>
    rcases idle_cases t with ht | ⟨w, c, u, rfl, hw, hc⟩
    · exact .of_idle hg ht
    · have hlength : u.length < n := by
        rw [← hn, List.length_append, List.length_cons]
        omega
      by_cases hcomment : c = '/' ∧ u.head? = some '*'
      · obtain ⟨rfl, hhead⟩ := hcomment
        obtain ⟨u, rfl⟩ := List.head?_eq_some_iff.mp hhead
        rw [List.length_cons] at hlength
        exact .comment hg hw fun rest hrest => ih rest.length (by omega) rest rfl
      · have hcomment' : ¬ (c = '/' ∧ (g u).head? = some '*') := by
          rwa [hg.head?_eq_some_iff (by decide)]
        by_cases hquote : c = '"' ∨ c = '\''
        · exact .quote hg hw hc hquote fun rest hrest => ih rest.length (by omega) rest rfl
        · refine .lexeme hg hw hc (scan_eq_plain hcomment hquote) (scan_eq_plain hcomment' hquote) rfl ?_
            (ih u.length hlength u rfl)
          exact hg.cut w c _ hc

end Thinning

end Restyle
