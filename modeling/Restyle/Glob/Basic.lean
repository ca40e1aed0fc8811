import Restyle.Text.Basic

/-! # Globs

A glob describes whole paths, byte by byte in UTF-8. Whether its single and
repeated wildcards pass over a `/` is up to whoever matches it. Matching goes
from part to part and keeps every rest of the path that a part may leave. A
glob may be only so deep; groups, choices, sequences, repetitions and classes
are its levels.
-/

namespace Restyle

abbrev Bytes := List UInt8

def Text.toBytes (t : Text) : Bytes :=
  (String.ofList t).toUTF8.toList

namespace Glob

inductive Part where
  | byte (b : UInt8)
  | anyByte
  | anyBytes
  /-- Any directories at the beginning of the path, or none. -/
  | leading
  /-- Everything below a directory. -/
  | inside
  /-- One `/`, or any directories between two of them. -/
  | inner
  | oneOf (negated : Bool) (ranges : List (UInt8 × UInt8))
  /-- One of some branches; nothing at all if there is none. -/
  | choice (branches : List (List Part))

def slash : UInt8 := 47

/-- The rests of a path behind any bytes that a wildcard may pass over. -/
def rests (mayPass : UInt8 → Bool) : Bytes → List Bytes
  | [] => [[]]
  | b :: t => (b :: t) :: if mayPass b then rests mayPass t else []

/-- The rests of a path behind each `/`. -/
def behindSlashes : Bytes → List Bytes
  | [] => []
  | b :: t => (if b = slash then [t] else []) ++ behindSlashes t

/-- The rest of a path behind a first byte with a property. -/
def behindByte (p : UInt8 → Bool) : Bytes → List Bytes
  | b :: t => if p b then [t] else []
  | [] => []

def inRanges (ranges : List (UInt8 × UInt8)) (b : UInt8) : Bool :=
  ranges.any fun r => r.1 ≤ b && b ≤ r.2

mutual

/-- The rests that a part may leave of a path. -/
def Part.rests (mayPass : UInt8 → Bool) : Part → Bytes → List Bytes
  | .byte b, t => behindByte (· = b) t
  | .anyByte, t => behindByte mayPass t
  | .anyBytes, t => Glob.rests mayPass t
  | .leading, t => t :: behindSlashes t
  | .inside, t => (behindByte (· = slash) t).flatMap (Glob.rests fun _ => true)
  | .inner, t => (behindByte (· = slash) t).flatMap fun t => t :: behindSlashes t
  | .oneOf negated ranges, t => behindByte (fun b => inRanges ranges b != negated) t
  | .choice [], t => [t]
  | .choice (branch :: branches), t => branchRests mayPass (branch :: branches) t

def branchRests (mayPass : UInt8 → Bool) : List (List Part) → Bytes → List Bytes
  | [], _ => []
  | branch :: branches, t =>
    sequenceRests mayPass branch [t] ++ branchRests mayPass branches t

/-- The distinct rests that parts one behind the other may leave of some paths. -/
def sequenceRests (mayPass : UInt8 → Bool) : List Part → List Bytes → List Bytes
  | [], ts => ts
  | p :: parts, ts => sequenceRests mayPass parts (ts.flatMap (p.rests mayPass)).eraseDups

end

end Glob

structure Glob where
  parts : List Glob.Part

namespace Glob

/-- How wildcards treat a `/`. -/
inductive Slashes where
  | pass
  | stop
  deriving DecidableEq, Repr

def Slashes.mayPass : Slashes → UInt8 → Bool
  | pass, _ => true
  | stop, b => b ≠ slash

/-- The depth of pieces side by side, given how many there are and how deep the deepest is. -/
def levelsOf (pieces deepest : Nat) : Nat :=
  if pieces ≤ 1 then deepest else deepest + 1

mutual

/-- How many pieces a part is made of side by side, and the depth of the deepest. -/
def Part.levels (slashes : Slashes) : Part → Nat × Nat
  | .byte _ => (1, 0)
  | .anyByte => (1, if slashes = .pass then 0 else 1)
  | .anyBytes => (1, if slashes = .pass then 1 else 2)
  | .leading => (1, 4)
  | .inside => (2, 1)
  | .inner => (1, 4)
  | .oneOf _ ranges => (1, levelsOf ranges.length 1)
  | .choice [] => (0, 0)
  | .choice (branch :: branches) =>
    (1, levelsOf (branches.length + 1) (branchLevels slashes (branch :: branches)) + 1)

def branchLevels (slashes : Slashes) : List (List Part) → Nat
  | [] => 0
  | branch :: branches =>
    let (pieces, deepest) := sequenceLevels slashes branch
    max (levelsOf pieces deepest) (branchLevels slashes branches)

def sequenceLevels (slashes : Slashes) : List Part → Nat × Nat
  | [] => (0, 0)
  | p :: parts =>
    let (pieces, deepest) := p.levels slashes
    let (others, othersDeepest) := sequenceLevels slashes parts
    (pieces + others, max deepest othersDeepest)

end

/-- The depth of a whole glob, between the marks for the ends of a path. -/
def depth (g : Glob) (slashes : Slashes) : Nat :=
  (sequenceLevels slashes g.parts).2 + 1

/-- The greatest depth at which a glob can be used. -/
def depthLimit : Nat := 250

/-- Whether a glob describes a path. Leading directories alone describe every path. -/
def isMatch (g : Glob) (slashes : Slashes) (path : Text) : Bool :=
  match g.parts with
  | [.leading] => true
  | parts => (sequenceRests slashes.mayPass parts [path.toBytes]).contains []

end Glob

end Restyle
