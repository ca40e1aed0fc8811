import Restyle.Declaration.Gap
import Restyle.Proofs.Declaration.Listing
import Restyle.Proofs.Text.LookBehind

/-! # Names of gaps in a list of declarations

Both passes over gaps look for a name of a gap, white space and a colon where a
word may start. A hyphen lets a word start, so in a list of declarations such a
name is a whole property name or the end of a longer one behind a hyphen.
-/

namespace Restyle.Declaration

open Text

def axisNames : List Text :=
  ["row-gap", "column-gap"]

def gapNames : List Text :=
  ["row-gap", "column-gap", "gap"]

/-- A declaration in which no name of a gap stands behind anything but a hyphen or a character of words,
also none in the value with a colon behind it. -/
structure Clear (d : Declaration) : Prop where
  property : ∀ x c n, d.property = x ++ c :: n → n.map fold ∈ gapNames → c = '-' ∨ isWordChar c = true
  value : ¬ "gap:".toList <:+: (words d.value).flatten.map fold

def isOther (d : Declaration) : Bool :=
  !gapNames.contains d.name

/-- Whether a declaration sets the gap of an axis; a gap sets both. -/
def setsGap (n : Text) (d : Declaration) : Bool :=
  d.name = n || d.name = "gap"

/-- The gap that an axis has in the end. -/
def gap? (ds : List Declaration) (n : Text) : Option Text :=
  (ds.reverse.find? (setsGap n)).map (·.value)

/-- A name of a gap with its value at the end of a piece, as a whole property name or behind the hyphen
of a longer one. -/
structure EndsIn (p : Text) (d : Declaration) (x name blanks v : Text) : Prop where
  piece : p = x ++ (name ++ blanks ++ ':' :: v)
  first : ':' ∉ x
  value : d.value = spaced v
  full : ¬ Blank v
  place : (Blank x ∧ d.property = name) ∨
    ∃ w y, Blank w ∧ x = w ++ (y ++ ['-']) ∧ d.property = y ++ '-' :: name

def StartsInNames (r : Recogniser Text) : Prop :=
  ∀ b c t, isNameChar c = false → r b (c :: t) = none

structure Apart (b : Option Char) : Prop where
  word : wordMayStart b = true
  name : nameBefore b = false

variable {b : Option Char} {c : Char} {t u v w p x name blanks rest : Text} {d : Declaration}

theorem isOther_iff : isOther d = true ↔ d.name ∉ gapNames := by
  rw [isOther, Bool.not_eq_true', ← Bool.not_eq_true, List.contains_iff_mem]

theorem gap?_cons (d : Declaration) (ds : List Declaration) (n : Text) :
    gap? (d :: ds) n = (gap? ds n).or (if setsGap n d = true then some d.value else none) := by
  have hone : ([d].find? (setsGap n)).map (·.value) =
      if setsGap n d = true then some d.value else none := by
    rw [List.find?_singleton]
    split_ifs <;> rfl
  rw [gap?, List.reverse_cons, List.find?_append, Option.map_or, hone, gap?]

section Characters

theorem apart_none : Apart none :=
  ⟨rfl, rfl⟩

theorem apart_semicolon : Apart (some ';') :=
  ⟨by decide +kernel, by decide⟩

theorem Apart.lastOf (hb : Apart b) (hw : Blank w) : Apart (lastOf b w) := by
  rcases List.eq_nil_or_concat w with rfl | ⟨w, c, rfl⟩
  · exact hb
  · rw [List.concat_eq_append] at hw ⊢
    have hc : isBlank c = true := hw c (by simp)
    rw [lastOf_append_cons, lastOf_nil]
    exact ⟨by simp [wordMayStart, isWordChar_of_blank hc], by simp [nameBefore, isNameChar_of_blank hc]⟩

theorem lastOf_concat_semicolon (b : Option Char) (p : Text) : lastOf b (p ++ [';']) = some ';' :=
  lastOf_append_cons b p ';' []

end Characters

namespace StartsInNames

variable {r : Recogniser Text} (hr : StartsInNames r) (hw : Blank w)
include hr hw

theorem passes (b : Option Char) (u : Text) : r.Passes b w u :=
  Recogniser.passes_of_forall fun c hc b u => hr b c u (isNameChar_of_blank (hw c hc))

theorem substituteFrom_blank (b : Option Char) : substituteFrom r 0 b w = w := by
  have hpass := (hr.passes hw b []).substituteFrom
  rw [List.append_nil] at hpass
  exact hpass.trans (List.append_nil w)

theorem substituteFrom_skip (b : Option Char) (t : Text) :
    substituteFrom r 0 b (w ++ ';' :: t) = w ++ ';' :: substituteFrom r 0 (some ';') t := by
  have hpass : r.Passes (Text.lastOf b w) [';'] t := ⟨hr _ ';' t (by decide), trivial⟩
  rw [(hr.passes hw b _).substituteFrom]
  exact congrArg (w ++ ·) hpass.substituteFrom

end StartsInNames

section Names

theorem axisNames_subset : axisNames ⊆ gapNames := by
  decide

theorem map_fold_of_mem_gapNames {n : Text} (hn : n ∈ gapNames) : n.map fold = n := by
  have hall : ∀ n ∈ gapNames, n.map fold = n := by decide
  exact hall n hn

theorem isNameChar_of_gapName (hname : name.map fold ∈ gapNames) (hc : c ∈ name) :
    isNameChar c = true := by
  have hall : ∀ n ∈ gapNames, ∀ l ∈ n, isNameChar l = true ∧ l ≠ 's' ∧ l ≠ 'k' := by decide
  obtain ⟨hfold, hs, hk⟩ := hall _ hname _ (List.mem_map_of_mem hc)
  exact isNameChar_of_fold hfold hs hk

theorem ne_nil_of_gapName (hname : name.map fold ∈ gapNames) : name ≠ [] := by
  rintro rfl
  exact absurd hname (by decide)

theorem isToken_of_gapName (hname : name.map fold ∈ gapNames) : IsToken name := by
  refine ⟨ne_nil_of_gapName hname, fun c hc => ?_⟩
  by_contra hblank
  have hnot := isNameChar_of_blank (by simpa using hblank)
  rw [isNameChar_of_gapName hname hc] at hnot
  exact Bool.false_ne_true hnot.symm

theorem notMem_gapName (hname : name.map fold ∈ gapNames) (hc : isNameChar c = false) : c ∉ name := by
  intro hmem
  rw [isNameChar_of_gapName hname hmem] at hc
  exact Bool.false_ne_true hc.symm

theorem property?_gapNames {n : Text} {names : List Text} (hnames : names ⊆ gapNames) :
    property? names t = some (n, rest) ↔ n ∈ names ∧ ∃ name blanks,
      t = name ++ blanks ++ ':' :: rest ∧ name.map fold = n ∧ Blank blanks := by
  have hall : ∀ m ∈ gapNames, ∀ n ∈ gapNames, m.map fold <+: n.map fold → m = n := by decide
  rw [property?_iff_mem fun m hm n hn => hall m (hnames hm) n (hnames hn)]
  refine and_congr_right fun hn => ?_
  rw [map_fold_of_mem_gapNames (hnames hn)]

theorem property?_gapNames_cons {names : List Text} (hnames : names ⊆ gapNames)
    (hc : isNameChar c = false) (t : Text) : property? names (c :: t) = none := by
  refine Option.eq_none_iff_forall_ne_some.mpr ?_
  rintro ⟨n, rest⟩ h
  obtain ⟨hn, name, blanks, ht, rfl, -⟩ := (property?_gapNames hnames).mp h
  obtain ⟨c', name, rfl⟩ := List.exists_cons_of_ne_nil (ne_nil_of_gapName (hnames hn))
  obtain ⟨rfl, -⟩ := List.cons.inj ht
  exact notMem_gapName (hnames hn) hc List.mem_cons_self

/-- No name of an axis ends another name of a gap behind a hyphen. -/
theorem longer_notMem_gapNames {y : Text} (hname : name.map fold ∈ axisNames) :
    (y ++ '-' :: name).map fold ∉ gapNames := by
  have hall : ∀ n ∈ gapNames, ∀ a ∈ axisNames, ¬ '-' :: a <:+ n := by decide
  intro hmem
  refine hall _ hmem _ hname ⟨y.map fold, ?_⟩
  have hhyphen : fold '-' = '-' := by decide
  rw [List.map_append, List.map_cons, hhyphen]

end Names

section Pieces

theorem Piece.exists_parts (hp : Piece p d) : ∃ w w' v, Blank w ∧ Blank w' ∧
    p = w ++ (d.property ++ w' ++ ':' :: v) ∧ ':' ∉ d.property ∧ IsToken d.property ∧ ¬ Blank v ∧
      d.value = spaced v := by
  obtain ⟨u, v, rfl, hcolon, hu, hv, hvalue⟩ := ofPiece?_eq_some_iff.mp hp.reads
  obtain ⟨w, w', hw, hw', rfl, hproperty⟩ := words_eq_singleton_iff.mp hu
  refine ⟨w, w', v, hw, hw', by simp, fun hc => hcolon (by simp [hc]), hproperty, hv, hvalue⟩

theorem exists_value (hname : name.map fold ∈ gapNames) (hblanks : Blank blanks)
    (hx : x.length ≤ p.length) (h : p ++ ';' :: t = x ++ (name ++ blanks ++ ':' :: rest)) :
    ∃ v, p = x ++ (name ++ blanks ++ ':' :: v) ∧ rest = v ++ ';' :: t := by
  have hfree : ';' ∉ name ++ blanks ++ [':'] := by
    simp only [List.mem_append, List.mem_singleton, not_or]
    refine ⟨⟨notMem_gapName hname (by decide), fun hc => ?_⟩, by decide⟩
    exact hblanks.ne_of_mem hc (by decide : isBlank ';' = false) rfl
  have hsplit : ∀ v, name ++ blanks ++ ':' :: v = name ++ blanks ++ [':'] ++ v := by simp
  obtain ⟨z, rfl, hz⟩ : ∃ z, p = x ++ z ∧ z ++ ';' :: t = name ++ blanks ++ ':' :: rest := by
    rcases List.append_eq_append_iff.mp h with ⟨z, rfl, hz⟩ | ⟨z, rfl, hz⟩
    · rw [List.length_append] at hx
      obtain rfl : z = [] := List.eq_nil_of_length_eq_zero (by omega)
      exact ⟨[], by simp, by simpa using hz⟩
    · exact ⟨z, rfl, hz.symm⟩
  rw [hsplit] at hz
  rcases List.append_eq_append_iff.mp hz with ⟨v, hv, hrest⟩ | ⟨v, rfl, rfl⟩
  · rcases v with _ | ⟨c, v⟩
    · rw [List.append_nil] at hv
      exact ⟨[], by rw [hv], hrest.symm⟩
    · obtain ⟨rfl, -⟩ := List.cons.inj hrest
      exact absurd (hv ▸ by simp) hfree
  · exact ⟨v, by simp, rfl⟩

/-- Behind the colon of a clear declaration no name of a gap has a colon. -/
theorem Clear.colon_notMem (hd : Clear d) (hp : Piece p d) (hname : name.map fold ∈ gapNames)
    (hblanks : Blank blanks) (h : p = x ++ (name ++ blanks ++ ':' :: v)) : ':' ∉ x := by
  rcases cut?_cases (· == ':') x with hfree | ⟨u, c, x', rfl, hu, hc⟩
  · exact fun hmem => by simpa using hfree ':' hmem
  · obtain rfl : c = ':' := by simpa using hc
    have hu : ':' ∉ u := fun hmem => by simpa using hu ':' hmem
    obtain ⟨u', v', hp', hu', -, -, hvalue⟩ := ofPiece?_eq_some_iff.mp hp.reads
    have hcut : u' ++ ':' :: v' = u ++ ':' :: (x' ++ (name ++ blanks ++ ':' :: v)) := by
      rw [← hp', h, List.append_assoc, List.cons_append]
    obtain ⟨-, rfl⟩ := append_cons_inj_of_first hu' hu hcut
    refine absurd ?_ hd.value
    rw [hvalue, words_spaced, flatten_words]
    have hgap : ∀ n ∈ gapNames, "gap".toList <:+ n := by decide
    obtain ⟨n, hn⟩ := hgap _ hname
    have hvisible : name.filter (!isBlank ·) = name :=
      List.filter_eq_self.mpr fun c hc => by simp [(isToken_of_gapName hname).visible c hc]
    have hblank : blanks.filter (!isBlank ·) = [] :=
      List.filter_eq_nil_iff.mpr fun c hc => by simp [hblanks c hc]
    have hcolon : isBlank ':' = false := by decide
    have hfold : fold ':' = ':' := by decide
    refine ⟨(x'.filter (!isBlank ·)).map fold ++ n, (v.filter (!isBlank ·)).map fold, ?_⟩
    simp [hvisible, hblank, hcolon, hfold, ← hn]

theorem Piece.endsIn (hp : Piece p d) (hd : Clear d) (hb : wordMayStart (lastOf b x) = true)
    (hname : name.map fold ∈ gapNames) (hblanks : Blank blanks) (hfree : ';' ∉ v)
    (hx : x.length ≤ p.length)
    (h : p ++ ';' :: t = x ++ (name ++ blanks ++ ':' :: (v ++ ';' :: rest))) :
    EndsIn p d x name blanks v ∧ rest = t := by
  obtain ⟨v', hpiece, hrest⟩ := exists_value hname hblanks hx h
  have hfree' : ';' ∉ v' := fun hc => absurd List.mem_cons_self (hp.free ';' (hpiece ▸ by simp [hc]))
  obtain ⟨rfl, rfl⟩ := append_cons_inj_of_first hfree hfree' hrest
  have htoken := isToken_of_gapName hname
  have hfirst : ':' ∉ x := hd.colon_notMem hp hname hblanks hpiece
  have hcolon : ':' ∉ x ++ name ++ blanks := by
    simp only [List.mem_append, not_or]
    refine ⟨⟨hfirst, notMem_gapName hname (by decide)⟩, fun hc => ?_⟩
    exact hblanks.ne_of_mem hc (by decide : isBlank ':' = false) rfl
  obtain ⟨u, v'', hp', hu, hwords, hv, hvalue⟩ := ofPiece?_eq_some_iff.mp hp.reads
  have hcut : u ++ ':' :: v'' = x ++ name ++ blanks ++ ':' :: v := by
    rw [← hp', hpiece, List.append_assoc, List.append_assoc, List.append_assoc]
  obtain ⟨rfl, rfl⟩ := append_cons_inj_of_first hu hcolon hcut
  rw [words_append_blank _ hblanks] at hwords
  obtain ⟨w, w', hw, hw', hsplit, hproperty⟩ := words_eq_singleton_iff.mp hwords
  refine ⟨⟨hpiece, hfirst, hvalue, hv, ?_⟩, rfl⟩
  obtain rfl : w' = [] := by
    rcases List.eq_nil_or_concat w' with hnil | ⟨w', c, rfl⟩
    · exact hnil
    · obtain ⟨name, l, rfl⟩ := (List.eq_nil_or_concat name).resolve_left htoken.ne_nil
      simp only [List.concat_eq_append, ← List.append_assoc] at hsplit
      obtain rfl := List.singleton_inj.mp (List.append_inj' hsplit rfl).2
      exact absurd (htoken.visible l (by simp)) (by simp [hw' l (by simp)])
  rw [List.append_nil] at hsplit
  rcases List.append_eq_append_iff.mp hsplit with ⟨z, rfl, hz⟩ | ⟨y, rfl, hy⟩
  · rcases z with _ | ⟨c, z⟩
    · rw [List.append_nil] at hw
      exact Or.inl ⟨hw, hz.symm⟩
    · exact absurd (htoken.visible c (hz ▸ List.mem_cons_self)) (by simp [hw c (by simp)])
  · rcases List.eq_nil_or_concat y with rfl | ⟨y, c, rfl⟩
    · exact Or.inl ⟨by simpa using hw, by simpa using hy⟩
    · rw [List.concat_eq_append] at hy hb ⊢
      have hproperty : d.property = y ++ c :: name := by simpa using hy
      rcases hd.property y c name hproperty hname with rfl | hword
      · exact Or.inr ⟨w, y, hw, rfl, hproperty⟩
      · rw [← List.append_assoc, lastOf_append_cons, lastOf_nil] at hb
        simp [wordMayStart, hword] at hb

theorem length_le_of_concat {y : Text} (h : p ++ [c] = x ++ y) (hy : y ≠ []) : x.length ≤ p.length := by
  have hpos := List.length_pos_iff.mpr hy
  have hsum := congrArg List.length h
  simp only [List.length_append, List.length_singleton] at hsum
  omega

theorem nameBefore_hyphen (b : Option Char) (w y : Text) :
    nameBefore (lastOf b (w ++ (y ++ ['-']))) = true := by
  rw [← List.append_assoc, lastOf_append_cons, lastOf_nil]
  decide

end Pieces

end Restyle.Declaration
