import Restyle.Glob.Basic

/-! # Reading globs

`?` is one byte and `*` any bytes; `**` between slashes or at an end is any
directories. Brackets hold a class of bytes, braces hold branches, which may be
nested, and a backslash takes away the meaning of the next character. A bracket
without its counterpart spoils the glob, or stands for itself where that is
allowed, and so do the brackets behind it.
-/

namespace Restyle.Glob

/-- The open branch, its parts last first; and for every open group, from the innermost, its
finished branches, last first, and the parts before it, last first. -/
structure Draft where
  parts : List Part := []
  groups : List (List (List Part) × List Part) := []

namespace Draft

def push (d : Draft) (p : Part) : Draft :=
  { d with parts := p :: d.parts }

def pushChar (d : Draft) (c : Char) : Draft :=
  (Text.toBytes [c]).foldl (fun d b => d.push (.byte b)) d

def openGroup (d : Draft) : Draft :=
  ⟨[], ([], d.parts) :: d.groups⟩

/-- A comma ends a branch; outside of groups it is a plain character. -/
def comma (d : Draft) : Draft :=
  match d.groups with
  | [] => d.pushChar ','
  | (finished, before) :: groups => ⟨[], (d.parts.reverse :: finished, before) :: groups⟩

/-- Whether a branch can only leave a path as it is. -/
def isBlank (branch : List Part) : Bool :=
  branch.all fun
    | .choice [] => true
    | _ => false

/-- Close the innermost group; blank branches do not count. -/
def closeGroup? (d : Draft) : Option Draft :=
  match d.groups with
  | [] => none
  | (finished, before) :: groups =>
    let branches := (d.parts.reverse :: finished).reverse.filter (!isBlank ·)
    some ⟨.choice branches :: before, groups⟩

/-- Put a part in the place of the slash before it, unless that slash is taken up already. -/
def replaceSlash (d : Draft) (p : Part) : Draft :=
  match d.parts with
  | .leading :: _ => d
  | .inside :: _ => d
  | parts => { d with parts := p :: parts.drop 1 }

/-- Take two stars between the character before them and the next one. True says that the next
one is taken, too. -/
def twoStars (d : Draft) (before next : Option Char) : Draft × Bool :=
  let plain := ((d.push .anyBytes).push .anyBytes, false)
  if d.parts.isEmpty then
    if next.all (· = '/') then (d.push .leading, next.isSome) else plain
  else
    let inGroup := !d.groups.isEmpty
    let behind := before = some '/' || (inGroup && (before = some ',' || before = some '{'))
    let atEnd := next.isNone || (inGroup && (next = some ',' || next = some '}'))
    if !behind then plain
    else if atEnd then (d.replaceSlash .inside, false)
    else if next = some '/' then (d.replaceSlash .inner, true)
    else plain

end Draft

/-- What the next character belongs to. -/
inductive Mode where
  | plain
  | escaped
  /-- One star, and the character before it. -/
  | star (before : Option Char)
  /-- Two stars, and the character before them. -/
  | stars (before : Option Char)
  | classStart
  /-- A class with its ranges, last first; the last of them may still be open. -/
  | inClass (negated : Bool) (ranges : List (Char × Char)) (isOpen : Bool)

structure Reader where
  draft : Draft := {}
  mode : Mode := .plain
  before : Option Char := none
  /-- Whether brackets open classes. -/
  classes : Bool := true

/-- The byte ranges of a range of characters: their first and last bytes make up the range, and
their other bytes stand for themselves. -/
def byteRanges (range : Char × Char) : List (UInt8 × UInt8) :=
  let single := (Text.toBytes [range.1]).map fun b => (b, b)
  if range.1 = range.2 then single
  else
    match single.getLast?, (Text.toBytes [range.2]).map fun b => (b, b) with
    | some low, high :: others => single.dropLast ++ (low.1, high.1) :: others
    | _, _ => single

/-- One character of a class. -/
def classStep? (d : Draft) (negated : Bool) (ranges : List (Char × Char)) (isOpen : Bool)
    (c : Char) : Option (Draft × Mode) :=
  match ranges with
  | [] => some (d, .inClass negated [(c, c)] false)
  | (low, high) :: others =>
    if c = ']' then
      let ranges := if isOpen then ('-', '-') :: ranges else ranges
      some (d.push (.oneOf negated (ranges.reverse.flatMap byteRanges)), .plain)
    else if isOpen then
      if c < low then none else some (d, .inClass negated ((low, c) :: others) false)
    else if c = '-' then some (d, .inClass negated ((low, high) :: others) true)
    else some (d, .inClass negated ((c, c) :: ranges) false)

def plainStep? (classes : Bool) (d : Draft) (before : Option Char) (c : Char) :
    Option (Draft × Mode) :=
  match c with
  | '?' => some (d.push .anyByte, .plain)
  | '*' => some (d, .star before)
  | '[' => some (if classes then (d, .classStart) else (d.pushChar c, .plain))
  | '{' => some (d.openGroup, .plain)
  | '}' => d.closeGroup?.map (·, .plain)
  | ',' => some (d.comma, .plain)
  | '\\' => some (d, .escaped)
  | c => some (d.pushChar c, .plain)

namespace Reader

def modeStep? (r : Reader) (c : Char) : Option (Draft × Mode) :=
  match r.mode with
  | .plain => plainStep? r.classes r.draft r.before c
  | .escaped => some (r.draft.pushChar c, .plain)
  | .star before =>
    if c = '*' then some (r.draft, .stars before)
    else plainStep? r.classes (r.draft.push .anyBytes) r.before c
  | .stars before =>
    match r.draft.twoStars before (some c) with
    | (d, true) => some (d, .plain)
    | (d, false) => plainStep? r.classes d r.before c
  | .classStart =>
    if c = '!' ∨ c = '^' then some (r.draft, .inClass true [] false)
    else classStep? r.draft false [] false c
  | .inClass negated ranges isOpen => classStep? r.draft negated ranges isOpen c

def step? (r : Reader) (c : Char) : Option Reader :=
  (r.modeStep? c).map fun (draft, mode) => { r with draft, mode, before := some c }

/-- Whether the class that has just been opened goes on to the end of a text. -/
def runsOut (r : Reader) : Text → Bool
  | [] => true
  | c :: t =>
    match r.step? c with
    | none => false
    | some r =>
      match r.mode with
      | .inClass .. => r.runsOut t
      | _ => false

/-- Read a text. If open classes are allowed, the bracket of a class that is never closed stands
for itself, like all brackets behind it. -/
def steps? (openClasses : Bool) (r : Reader) : Text → Option Reader
  | [] => some r
  | c :: t =>
    match r.step? c with
    | none => none
    | some next =>
      match next.mode with
      | .classStart =>
        if openClasses && next.runsOut t then
          let r := { r with classes := false }
          (r.step? c).bind (·.steps? openClasses t)
        else next.steps? openClasses t
      | _ => next.steps? openClasses t

/-- The glob that has been read, if it is complete. -/
def finish? (r : Reader) : Option Glob :=
  let draft? := match r.mode with
    | .plain => some r.draft
    | .star _ => some (r.draft.push .anyBytes)
    | .stars before => some (r.draft.twoStars before none).1
    | _ => none
  draft?.bind fun d => if d.groups.isEmpty then some ⟨d.parts.reverse⟩ else none

end Reader

/-- The glob that a text denotes, with or without open classes. -/
def ofText? (openClasses : Bool) (t : Text) : Option Glob :=
  (Reader.steps? openClasses {} t).bind Reader.finish?

end Restyle.Glob
