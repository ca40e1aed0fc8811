import Restyle.Files.System
import Restyle.Proofs.Text.Lines

/-! # Writing files

A file is written as a whole or not at all, and nobody else writes it. Trees of
files are so at every path that names one entry below another, and stay so where
writes are refused at any time.
-/

namespace Restyle

namespace Path

structure IsName (name : Text) : Prop where
  moves : stays name = false
  ne_up : name ≠ up
  fits : name.byteSize ≤ maxName

/-- A relative path of names. -/
structure IsPlain (path : Text) : Prop where
  relative : relativeParts path = .ok (parts path)
  names : ∀ name ∈ parts path, IsName name

variable {path directory : Text}

theorem filter_moving {names : List Text} (h : ∀ name ∈ names, IsName name) :
    names.filter (!stays ·) = names :=
  List.filter_eq_self.mpr fun name hname => by simp [(h name hname).moves]

theorem relativeParts_eq_ok {ps : List Text} (h : relativeParts path = .ok ps) :
    ps = parts path ∧ path.startsWith "/" = false := by
  unfold relativeParts at h
  split_ifs at h with _ _ hrelative
  rw [Bool.or_eq_true, not_or, Bool.not_eq_true, Bool.not_eq_true] at hrelative
  exact ⟨(Except.ok.inj h).symm, hrelative.2⟩

theorem IsPlain.relative_start (h : IsPlain path) : path.startsWith "/" = false :=
  (relativeParts_eq_ok h.relative).2

theorem IsPlain.exists_last (h : IsPlain path) :
    ∃ names name, parts path = names ++ [name] ∧ name ≠ [] := by
  have hne : parts path ≠ [] := Text.split_ne_nil _ path
  have hlast := (h.names _ (List.getLast_mem hne)).moves
  refine ⟨_, _, (List.dropLast_append_getLast hne).symm, fun hnil => ?_⟩
  rw [hnil] at hlast
  cases hlast

theorem IsPlain.parts_parent? (h : IsPlain path) (hd : parent? path = some directory) :
    ∃ name, parts path = parts directory ++ [name] := by
  have hnames := filter_moving h.names
  rw [parent?, hnames, h.relative_start, if_neg Bool.false_ne_true] at hd
  split_ifs at hd with hempty
  have hdirs : (parts path).dropLast ≠ [] := by simpa using hempty
  have hne : parts path ≠ [] := fun hnil => hdirs (by rw [hnil]; rfl)
  have hslash : ∀ name ∈ (parts path).dropLast, '/' ∉ name := fun name hname =>
    Text.notMem_of_mem_split path name (List.dropLast_subset _ hname)
  have hparts : parts directory = (parts path).dropLast := by
    rw [← Option.some.inj hd]
    exact Text.split_join hdirs hslash
  exact ⟨(parts path).getLast hne, by rw [hparts, List.dropLast_append_getLast]⟩

end Path

namespace FileTree

def below? (t : FileTree) : List Text → Except FileError FileTree
  | [] => .ok t
  | name :: names =>
    match t with
    | file _ => .error .notDirectory
    | directory entries => (entries.lookup name).elim (.error .missing) (below? · names)

def textOf : FileTree → Except FileError Text
  | file text => .ok text
  | directory _ => .error .isDirectory

variable {t u : FileTree} {names : List Text} {name : Text} {entries : List (Text × FileTree)}

theorem lookup_insert (name : Text) (t : FileTree) (entries : List (Text × FileTree)) :
    (insert name t entries).lookup name = some t := by
  induction entries with
  | nil => simp [insert]
  | cons entry entries ih =>
    obtain ⟨n, u⟩ := entry
    rw [insert]
    split_ifs with hn
    · simp
    · simp
    · rw [List.lookup_cons, beq_false_of_ne (Ne.symm hn)]
      exact ih

end FileTree

namespace Place

open FileTree Restyle.Path

variable {p q : Place} {names : List Text} {name : Text} {entries : List (Text × FileTree)}

theorem step_name (h : IsName name) (hp : p.here = .directory entries) :
    p.step name = (entries.lookup name).elim (.error .missing) fun t => .ok (p.down name t) := by
  rw [step, hp]
  dsimp only
  rw [if_neg (by simp [h.moves]), if_neg h.ne_up, if_neg (Nat.not_lt.mpr h.fits)]

theorem step_file {text : Text} (hp : p.here = .file text) (name : Text) :
    p.step name = .error .notDirectory := by
  rw [step, hp]

theorem map_follow (h : ∀ name ∈ names, IsName name) (p : Place) :
    (p.follow names).map (·.here) = p.here.below? names := by
  induction names generalizing p with
  | nil => rfl
  | cons name names ih =>
    obtain ⟨hname, hnames⟩ := List.forall_mem_cons.mp h
    cases hp : p.here with
    | file text =>
      rw [follow, step_file hp]
      rfl
    | directory entries =>
      rw [follow, step_name hname hp, below?]
      cases hget : entries.lookup name with
      | none => rfl
      | some t => exact ih hnames (p.down name t)

theorem tree_down (hp : p.here = .directory entries) (name : Text) (t u : FileTree) :
    (Place.mk u (p.down name t).above).tree =
      (Place.mk (.directory (insert name u entries)) p.above).tree := by
  rw [down, hp]
  rfl

theorem exists_of_follow (hname : IsName name) (hq : p.follow (name :: names) = .ok q) :
    ∃ entries t, p.here = .directory entries ∧ (p.down name t).follow names = .ok q := by
  cases hp : p.here with
  | file text =>
    rw [follow, step_file hp] at hq
    cases hq
  | directory entries =>
    rw [follow, step_name hname hp] at hq
    cases hget : entries.lookup name with
    | none =>
      rw [hget] at hq
      cases hq
    | some t =>
      rw [hget] at hq
      exact ⟨entries, t, rfl, hq⟩

/-- A first directory can be made in a directory only. Below it nothing is found that has not been
there before. -/
theorem exists_of_make (hname : IsName name) (hq : p.make (name :: names) = .ok q) :
    ∃ entries t, p.here = .directory entries ∧ (p.down name t).make names = .ok q ∧
      ∀ last, t.below? (names ++ [last]) = p.here.below? (name :: names ++ [last]) := by
  cases hp : p.here with
  | file text =>
    rw [make, step_file hp] at hq
    cases hq
  | directory entries =>
    rw [make, step_name hname hp] at hq
    cases hget : entries.lookup name with
    | none =>
      simp only [hget, Option.elim_none, if_neg hname.ne_up] at hq
      refine ⟨entries, .empty, rfl, hq, fun last => ?_⟩
      rw [List.cons_append, below?, hget]
      cases names <;> rfl
    | some t =>
      simp only [hget, Option.elim_some] at hq
      refine ⟨entries, t, rfl, ?_, fun last => by rw [List.cons_append, below?, hget]; rfl⟩
      cases t with
      | file text => cases hq
      | directory inner => exact hq

theorem tree_follow (h : ∀ name ∈ names, IsName name) (hq : p.follow names = .ok q) (u : FileTree) :
    ∃ t, (Place.mk u q.above).tree = (Place.mk t p.above).tree ∧
      ∀ more, t.below? (names ++ more) = u.below? more := by
  induction names generalizing p with
  | nil =>
    obtain rfl := Except.ok.inj hq
    exact ⟨u, rfl, fun more => rfl⟩
  | cons name names ih =>
    obtain ⟨hname, hnames⟩ := List.forall_mem_cons.mp h
    obtain ⟨entries, t, hp, hfollow⟩ := exists_of_follow hname hq
    obtain ⟨t', htree, hbelow⟩ := ih hnames hfollow
    refine ⟨.directory (insert name t' entries), htree.trans (tree_down hp name t t'), fun more => ?_⟩
    rw [List.cons_append, below?, lookup_insert]
    exact hbelow more

theorem tree_make (h : ∀ name ∈ names, IsName name) (hq : p.make names = .ok q) :
    ∃ t, q.tree = (Place.mk t p.above).tree ∧
      ∀ name, t.below? (names ++ [name]) = p.here.below? (names ++ [name]) := by
  induction names generalizing p with
  | nil =>
    obtain rfl := Except.ok.inj hq
    exact ⟨p.here, rfl, fun name => rfl⟩
  | cons name names ih =>
    obtain ⟨hname, hnames⟩ := List.forall_mem_cons.mp h
    obtain ⟨entries, t, hp, hmake, hsame⟩ := exists_of_make hname hq
    obtain ⟨t', htree, hbelow⟩ := ih hnames hmake
    refine ⟨.directory (insert name t' entries), htree.trans (tree_down hp name t t'), fun last => ?_⟩
    rw [List.cons_append, below?, lookup_insert]
    exact (hbelow last).trans (hsame last)

end Place

namespace FileTree

open Restyle.Path

variable {t t' : FileTree} {path directory text : Text}

theorem read_eq (h : IsPlain path) (t : FileTree) :
    t.read path = (t.below? (parts path)).bind textOf := by
  have hfollow := Place.map_follow h.names ⟨t, []⟩
  have hpath : t.follow path = Place.follow ⟨t, []⟩ (parts path) := by
    rw [FileTree.follow, h.relative]
    rfl
  rw [read, hpath, ← hfollow]
  cases Place.follow ⟨t, []⟩ (parts path) with
  | error e => rfl
  | ok p =>
    obtain ⟨here, above⟩ := p
    cases here <;> rfl

theorem writeName_eq_ok {p : Place} {name : Text} (hw : writeName p name text = .ok t') :
    ∃ entries, t' = (Place.mk (.directory (insert name (.file text) entries)) p.above).tree := by
  unfold writeName at hw
  split at hw
  · cases hw
  · rename_i entries hp
    split_ifs at hw
    split at hw
    · cases hw
    · rw [← Except.ok.inj hw, Place.down, hp]
      exact ⟨entries, rfl⟩

theorem read_write (h : IsPlain path) (hw : t.write path text = .ok t') :
    t'.read path = .ok text := by
  obtain ⟨names, name, hparts, hname⟩ := h.exists_last
  have hnamed : ((parts path).reverse.dropWhile (·.isEmpty)).reverse = parts path := by
    simp [hparts, hname]
  have hlast : (parts path).getLast? = some name := by rw [hparts, List.getLast?_concat]
  have hinit : (parts path).dropLast = names := by rw [hparts, List.dropLast_concat]
  have hnames : ∀ name ∈ names, IsName name := fun name hname =>
    h.names name (hparts ▸ List.mem_append_left _ hname)
  have hwrite : t.write path text = (Place.follow ⟨t, []⟩ names).bind (writeName · name text) := by
    rw [write, h.relative]
    show ((Place.follow ⟨t, []⟩ _).bind fun p => writeName p _ text) = _
    rw [hnamed, hinit, if_neg (Nat.lt_irrefl _), hlast, Option.getD_some]
  rw [hwrite] at hw
  cases hp : Place.follow ⟨t, []⟩ names with
  | error e =>
    rw [hp] at hw
    cases hw
  | ok p =>
    rw [hp] at hw
    obtain ⟨entries, rfl⟩ := writeName_eq_ok hw
    obtain ⟨u, htree, hbelow⟩ :=
      Place.tree_follow hnames hp (.directory (insert name (.file text) entries))
    have hroot : (Place.mk u []).tree = u := rfl
    rw [htree, read_eq h, hparts, hroot, hbelow, below?, lookup_insert]
    rfl

theorem read_makeDirectories (h : IsPlain path) (hd : parent? path = some directory)
    (hm : t.makeDirectories directory = .ok t') : t'.read path = t.read path := by
  obtain ⟨last, hlast⟩ := h.parts_parent? hd
  have hnames : ∀ name ∈ parts directory, IsName name := fun name hname =>
    h.names name (hlast ▸ List.mem_append_left _ hname)
  rw [makeDirectories] at hm
  cases hrel : relativeParts directory with
  | error e =>
    rw [hrel] at hm
    cases hm
  | ok names =>
    obtain rfl := (relativeParts_eq_ok hrel).1
    rw [hrel] at hm
    replace hm : (Place.make ⟨t, []⟩ ((parts directory).filter (!stays ·))).map (·.tree) =
        .ok t' := hm
    rw [filter_moving hnames] at hm
    cases hp : Place.make ⟨t, []⟩ (parts directory) with
    | error e =>
      rw [hp] at hm
      cases hm
    | ok p =>
      rw [hp] at hm
      obtain ⟨u, htree, hbelow⟩ := Place.tree_make hnames hp
      obtain rfl : u = t' := htree.symm.trans (Except.ok.inj hm)
      rw [read_eq h, read_eq h, hlast, hbelow]

end FileTree

theorem run_bind_of_eq {σ α β : Type} {x : StateM σ α} {w w' : σ} {a : α} (hx : x.run w = (a, w'))
    (f : α → StateM σ β) : (x >>= f).run w = (f a).run w' := by
  rw [StateT.run_bind, hx]
  rfl

section

variable {σ : Type} [FileSystem (StateM σ)] {path : Text}

def FileSystem.contents (path : Text) (w : σ) : Except FileError Text :=
  ((FileSystem.read path : StateM σ _).run w).1

/-- Reading the file at a path changes nothing. A write to it happens as a whole or not at all, and
making its directory does not change what is read. -/
structure WritesWhole (σ : Type) [FileSystem (StateM σ)] (path : Text) : Prop where
  steady (w : σ) : ((FileSystem.read path : StateM σ _).run w).2 = w
  written {w w' : σ} {text : Text} :
    (FileSystem.write path text : StateM σ _).run w = (.ok (), w') →
      FileSystem.contents path w' = .ok text
  failed {w w' : σ} {text : Text} {e : FileError} :
    (FileSystem.write path text : StateM σ _).run w = (.error e, w') →
      FileSystem.contents path w' = FileSystem.contents path w
  made {directory : Text} (w : σ) : Path.parent? path = some directory →
    FileSystem.contents path ((FileSystem.makeDirectories directory : StateM σ _).run w).2 =
      FileSystem.contents path w

/-- A world of files in which writes may be refused. For every write to come there is an error or
none; behind them no write is refused. -/
structure Unsteady (σ : Type) where
  world : σ
  refusals : List (Option FileError)

namespace Unsteady

def through {α : Type} (f : StateM σ α) : StateM (Unsteady σ) α :=
  fun u => ((f.run u.world).1, { u with world := (f.run u.world).2 })

def write (path text : Text) : StateM (Unsteady σ) (Except FileError Unit) :=
  fun u => match u.refusals with
    | [] => through (FileSystem.write path text) u
    | none :: refusals => through (FileSystem.write path text) { u with refusals }
    | some e :: refusals => (.error e, { u with refusals })

instance : FileSystem (StateM (Unsteady σ)) where
  read path := through (FileSystem.read path)
  write := write
  makeDirectories path := through (FileSystem.makeDirectories path)
  directory? path := through (FileSystem.directory? path)

end Unsteady

/-- Files are written whole whichever writes are refused. -/
theorem WritesWhole.unsteady (h : WritesWhole σ path) : WritesWhole (Unsteady σ) path where
  steady u := by
    obtain ⟨world, refusals⟩ := u
    exact congrArg (Unsteady.mk · refusals) (h.steady world)
  written {u u' text} hw := by
    obtain ⟨world, _ | ⟨_ | e, refusals⟩⟩ := u
    · obtain ⟨hr, rfl⟩ := Prod.mk.inj hw
      exact h.written (Prod.ext hr rfl)
    · obtain ⟨hr, rfl⟩ := Prod.mk.inj hw
      exact h.written (Prod.ext hr rfl)
    · cases hw
  failed {u u' text e} hw := by
    obtain ⟨world, _ | ⟨_ | e, refusals⟩⟩ := u
    · obtain ⟨hr, rfl⟩ := Prod.mk.inj hw
      exact h.failed (Prod.ext hr rfl)
    · obtain ⟨hr, rfl⟩ := Prod.mk.inj hw
      exact h.failed (Prod.ext hr rfl)
    · obtain ⟨-, rfl⟩ := Prod.mk.inj hw
      rfl
  made u hd := h.made u.world hd

end

namespace FileTree

variable {path : Text}

theorem change_ok {f : FileTree → Except FileError FileTree} {t t' : FileTree} (h : f t = .ok t') :
    (change f).run t = (.ok (), t') := by
  simp only [change, StateT.run_bind, StateT.run_get, pure_bind, h]
  rfl

theorem change_error {f : FileTree → Except FileError FileTree} {t : FileTree} {e : FileError}
    (h : f t = .error e) : (change f).run t = (.error e, t) := by
  simp only [change, StateT.run_bind, StateT.run_get, pure_bind, h]
  rfl

theorem writesWhole (h : Path.IsPlain path) : WritesWhole FileTree path where
  steady t := rfl
  written {t t' text} hw := by
    replace hw : (change (·.write path text)).run t = (.ok (), t') := hw
    cases htree : t.write path text with
    | ok u =>
      rw [change_ok htree] at hw
      obtain rfl := (Prod.mk.inj hw).2
      exact read_write h htree
    | error e =>
      rw [change_error htree] at hw
      cases hw
  failed {t t' text e} hw := by
    replace hw : (change (·.write path text)).run t = (.error e, t') := hw
    cases htree : t.write path text with
    | ok u =>
      rw [change_ok htree] at hw
      cases hw
    | error e =>
      rw [change_error htree] at hw
      obtain rfl := (Prod.mk.inj hw).2
      rfl
  made {directory} t hd := by
    show FileSystem.contents path ((change (·.makeDirectories directory)).run t).2 = _
    cases htree : t.makeDirectories directory with
    | ok u =>
      rw [change_ok htree]
      exact read_makeDirectories h hd htree
    | error e => rw [change_error htree]

end FileTree

end Restyle
