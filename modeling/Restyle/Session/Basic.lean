import Restyle.Declaration.Value
import Restyle.Session.ClassCss
import Restyle.Stylesheet.Names

/-! # Conversion sessions

A session converts classes and the elements of the content into one set of
styles. It owns everything that is remembered during a run, and starts every
conversion and every count afresh.
-/

namespace Restyle

open Text

structure Session.Options where
  postTypes : List Text := []
  /-- Convert referenced classes only. -/
  restrict : Bool := true

structure Session where
  resolver : Resolver := {}
  scanner : Scanner := {}
  utility : Utility := {}
  options : Session.Options := {}

namespace Session

structure Output where
  styles : StyleSet
  styleMap : StyleMap
  inline : Table Text
  converted : Nat
  excluded : Nat

/-- A style of one of the target builder's own elements, which nobody changes. -/
def builtin (id selector css : Text) : Text × Style :=
  (id, { Style.ofSelector id selector css with kind := "element", readonly := true })

def builtinStyles : StyleSet :=
  [builtin "etch-section-style" ":where([data-etch-element=\"section\"])"
      "inline-size: 100%; display: flex; flex-direction: column; align-items: center;",
    builtin "etch-container-style" ":where([data-etch-element=\"container\"])"
      ("inline-size: 100%; display: flex; flex-direction: column; " ++
        "max-inline-size: var(--content-width, 1366px); align-self: center;"),
    builtin "etch-iframe-style" ":where([data-etch-element=\"iframe\"])"
      "inline-size: 100%; block-size: auto; aspect-ratio: 16/9;"]

/-- Forget everything that was remembered. -/
def newRun (s : Session) : Session :=
  { s with resolver := s.resolver.forget, scanner := s.scanner.reset, utility := s.utility.reset }

/-- The references in the content. -/
def references (s : Session) (items : List Item) : List Text × Session :=
  let (index, scanner) := s.scanner.scan items s.options.postTypes
  (index, { s with scanner })

def count (s : Session) (classes : List GlobalClass) (items : List Item) :
    Scanner.Counts × Session :=
  let s := s.newRun
  let (counts, scanner) :=
    s.scanner.count classes items s.options.postTypes s.options.restrict
  (counts, { s with scanner })

/-- The classes that become styles, last first, the number of those that do not, and the utility
classes registered. -/
structure Sorting where
  candidates : List GlobalClass := []
  excluded : Nat := 0
  utility : Utility

/-- Whether a class takes part in a conversion. -/
def takesPart (s : Session) (index : List Text) (c : GlobalClass) : Bool :=
  !(c.id.trim.isEmpty && c.name.trim.isEmpty) &&
    (!s.options.restrict || s.scanner.isReferenced c index)

def Sorting.add (s : Sorting) (c : GlobalClass) : Sorting :=
  if Utility.isUtility c then
    { s with excluded := s.excluded + 1, utility := s.utility.register c }
  else if Exclusion.excludes c then { s with excluded := s.excluded + 1 }
  else { s with candidates := c :: s.candidates }

/-- Sort the classes that take part. -/
def sort (s : Session) (index : List Text) (classes : List GlobalClass) : Sorting :=
  (classes.filter (s.takesPart index)).foldl Sorting.add { utility := s.utility }

def addClass (r : Resolver) (styles : StyleSet) (c : GlobalClass) : StyleSet :=
  let id := Style.classId c.selector
  styles.set id (Style.ofSelector id c.selector (c.css r))

/-- Map the id and the name of a class to its style. -/
def mapClass (m : StyleMap) (c : GlobalClass) : StyleMap :=
  let keys := [c.id.trim, c.name.trim].filter (!·.isEmpty)
  Table.setAll (keys.map (·, ⟨Style.classId c.selector, c.selector⟩)) m

/-- Add a style, behind the CSS that its key has already. -/
def mergeStyle (styles : StyleSet) (entry : Text × Style) : StyleSet :=
  match styles.get? entry.1 with
  | none => styles.set entry.1 entry.2
  | some s => styles.set entry.1 { s with css := Style.joinCss s.css entry.2.css }

/-- The styles of a custom stylesheet, in logical properties. -/
def customStyles (css : Text) (m : StyleMap) : StyleSet :=
  let css := Declaration.tidyCustomCss css
  (Table.setAll (idStyles css) (classStyles css m)).map fun (key, s) =>
    (key, { s with css := Declaration.toLogical (trim s.css) })

/-- Put blocks for breakpoints behind the style that a key is mapped to. -/
def addBlocks (m : StyleMap) (styles : StyleSet) (entry : Text × List Text) : StyleSet :=
  match m.get? entry.1 with
  | none => styles
  | some ref =>
    match styles.get? ref.id with
    | none => styles
    | some s => styles.set ref.id { s with css := s.css ++ entry.2.flatMap ('\n' :: '\n' :: ·) }

def finish (s : Style) : Style :=
  if s.css.isEmpty then s else { s with css := Declaration.finalCss s.css }

/-- All styles of a list of classes and the content. -/
def stylesOf (r : Resolver) (candidates : List GlobalClass) (m : StyleMap) (items : List Item)
    (postTypes : List Text) : StyleSet :=
  let elements := Element.collect r items postTypes
  let elementCss := if elements.customCss.isEmpty then [] else CustomCss.apart elements.customCss
  let customCss := candidates.flatMap (·.customCss) ++ elementCss
  let blocks := Table.group (candidates.flatMap fun c => (c.breakpointBlocks r).map (c.key, ·))
  let styles := candidates.foldl (addClass r) builtinStyles
  let styles := elements.styles.foldl mergeStyle styles
  let styles := (customStyles customCss m).foldl mergeStyle styles
  (blocks.foldl (addBlocks m) styles).map fun (key, s) => (key, finish s)

/-- Convert classes and content. -/
def convert (s : Session) (classes : List GlobalClass) (items : List Item) : Output × Session :=
  let s := s.newRun
  let scanner := s.scanner.keep classes
  let (index, scanner) := scanner.scan items s.options.postTypes
  let s := { s with scanner, resolver := s.resolver.remember }
  let sorted := s.sort index (s.scanner.classList classes)
  let candidates := sorted.candidates.reverse
  let m := candidates.foldl mapClass []
  let styles := stylesOf s.resolver candidates m items s.options.postTypes
  (⟨styles, m, sorted.utility.inline, candidates.length, sorted.excluded⟩,
    { s with utility := sorted.utility })

inductive Step where
  | convert (classes : List GlobalClass) (items : List Item)
  | count (classes : List GlobalClass) (items : List Item)
  | references (items : List Item)
  | newRun

inductive Answer where
  | converted (o : Output)
  | counts (c : Scanner.Counts)
  | references (index : List Text)
  | done

def step (s : Session) : Step → Answer × Session
  | .convert classes items =>
    let (o, s) := s.convert classes items
    (.converted o, s)
  | .count classes items =>
    let (c, s) := s.count classes items
    (.counts c, s)
  | .references items =>
    let (index, s) := s.references items
    (.references index, s)
  | .newRun => (.done, s.newRun)

end Session

end Restyle
