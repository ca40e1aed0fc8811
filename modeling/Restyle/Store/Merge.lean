import Restyle.Style.Basic

/-! # Merging imported styles

Imported styles with one selector become one style. A stored style stays unless
its selector is imported again. A style without an id gets that of a class.
-/

namespace Restyle.Style

open Text

/-- Add an imported style to those before it: behind the CSS of the one with its selector, if it
says anything new. -/
def addIncoming (styles : Table Style) (s : Style) : Table Style :=
  if s.selector.isEmpty then styles
  else match styles.get? s.selector with
    | none => styles.set s.selector s
    | some first =>
      if (trim s.css).isEmpty || trim s.css = trim first.css then styles
      else styles.set s.selector { first with css := joinCss first.css s.css }

/-- Imported styles by their selectors. -/
def incoming (styles : List Style) : Table Style :=
  styles.foldl addIncoming []

/-- Stored styles by their selectors. -/
def bySelector (stored : StyleSet) : Table Style :=
  Table.ofList ((stored.values.filter (!·.selector.isEmpty)).map fun s => (s.selector, s))

def withId (s : Style) : Style :=
  if s.id.isEmpty then { s with id := classId s.selector } else s

def byId (styles : List Style) : StyleSet :=
  Table.ofList ((styles.map withId).map fun s => (s.id, s))

/-- The stored styles with imported ones put in their places or behind them. -/
def merge (stored : StyleSet) (incoming : Table Style) : StyleSet :=
  byId (Table.setAll incoming (bySelector stored)).values

end Restyle.Style
