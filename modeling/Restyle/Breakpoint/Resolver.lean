import Restyle.Breakpoint.Override

/-! # Resolving breakpoints

A resolver holds override entries and remembers the table of breakpoints once
it has been asked for. Setting new overrides forgets the table.
-/

namespace Restyle

structure Resolver where
  overrides : List Json := []
  known : Option (Table Breakpoint) := none

namespace Resolver

def ofOverrides (overrides : List Json) : Resolver :=
  { overrides }

def breakpoints (r : Resolver) : Table Breakpoint :=
  r.known.getD (Breakpoint.table r.overrides)

def remember (r : Resolver) : Resolver :=
  { r with known := some r.breakpoints }

def forget (r : Resolver) : Resolver :=
  { r with known := none }

def setOverrides (r : Resolver) (overrides : List Json) : Resolver :=
  { r with overrides }.forget

/-- The media condition of every breakpoint with a positive width. -/
def queries (r : Resolver) (range : Bool) : Table Text :=
  r.breakpoints.filterMap fun (key, b) =>
    if b.width = 0 then none else some (key, b.condition range)

/-- The media query of a breakpoint. -/
def query? (r : Resolver) (key : Text) : Option Text :=
  match r.breakpoints.get? (Breakpoint.cleanKey key) with
  | some b => if b.width = 0 then none else some ("@media " ++ b.condition true)
  | none => none

def isBreakpoint (r : Resolver) (key : Text) : Bool :=
  let key := Breakpoint.cleanKey key
  !key.isEmpty && r.breakpoints.has key

def customCssMark : Text := "_cssCustom:"

/-- The known keys, and behind them the keys that custom CSS settings name. -/
def keysIn (r : Resolver) (settings : Settings) : List Text :=
  settings.keys.foldl (fun keys k =>
    match Text.dropStart? k customCssMark with
    | none => keys
    | some key =>
      let key := Breakpoint.cleanKey key
      if key.isEmpty || keys.contains key then keys else keys ++ [key]) r.breakpoints.keys

/-- What can be asked of a resolver, one thing after the other. -/
inductive Step where
  | setOverrides (overrides : List Json)
  | forget
  | breakpoints
  | queries (range : Bool)
  | query (key : Text)
  | isBreakpoint (key : Text)
  | keysIn (settings : Settings)

inductive Answer where
  | done
  | breakpoints (t : Table Breakpoint)
  | queries (t : Table Text)
  | query (q : Option Text)
  | truth (b : Bool)
  | keys (ks : List Text)

def step (r : Resolver) : Step → Answer × Resolver
  | .setOverrides overrides => (.done, r.setOverrides overrides)
  | .forget => (.done, r.forget)
  | .breakpoints => (.breakpoints r.breakpoints, r.remember)
  | .queries range => (.queries (r.queries range), r.remember)
  | .query key => (.query (r.query? key), r.remember)
  | .isBreakpoint key => (.truth (r.isBreakpoint key), r.remember)
  | .keysIn settings => (.keys (r.keysIn settings), r.remember)

end Resolver

end Restyle
