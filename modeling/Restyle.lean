import Restyle.Breakpoint.Resolver
import Restyle.Json.Printer
import Restyle.Conversion.Basic
import Restyle.Declaration.Logical
import Restyle.Declaration.Value
import Restyle.Session.Basic
import Restyle.Stylesheet.Names
import Restyle.Stylesheet.Check
import Restyle.Text.WordChar
import Restyle.Store.File
import Restyle.Command.Run
import Restyle.Main
import Restyle.Proofs.Store.Atomicity
import Restyle.Proofs.Store.Merging
import Restyle.Proofs.Stylesheet.Extraction
import Restyle.Proofs.Stylesheet.Partition
import Restyle.Proofs.Stylesheet.Cascade
import Restyle.Proofs.Selector.Nesting
import Restyle.Proofs.Session.Isolation
import Restyle.Proofs.Conversion.Routing
import Restyle.Proofs.Breakpoint.Precedence
import Restyle.Proofs.Session.Integrity
import Restyle.Proofs.Session.Overwriting
import Restyle.Proofs.Declaration.Renaming
import Restyle.Proofs.Session.Calls
import Restyle.Proofs.Reference.Migration
import Restyle.Proofs.Element.Meeting
import Restyle.Proofs.Store.Repetition
import Restyle.Proofs.Store.Document
import Restyle.Proofs.Files.Writing
import Restyle.Proofs.Store.Persistence
import Restyle.Proofs.Command.Saving
import Restyle.Proofs.Stylesheet.Checking
import Restyle.Proofs.Stylesheet.Concatenation
import Restyle.Proofs.Stylesheet.Comments
import Restyle.Proofs.Setting.Decoding
import Restyle.Proofs.Stylesheet.Rereading
import Restyle.Proofs.Group.Sides
import Restyle.Proofs.Declaration.Collapsing
import Restyle.Proofs.Conversion.Wrapping
import Restyle.Proofs.ImageFit.Moving
import Restyle.Proofs.Conversion.Suffix
import Restyle.Proofs.Breakpoint.RangeForm
import Restyle.Proofs.Declaration.Respelling
import Restyle.Proofs.Declaration.PlainToken
import Restyle.Proofs.Reference.Collection
import Restyle.Proofs.Element.Folding
import Restyle.Proofs.Stylesheet.Coverage
import Restyle.Proofs.Declaration.GapMerging
import Restyle.Proofs.Declaration.ContentValue
import Restyle.Proofs.Stylesheet.Mending
import Restyle.Proofs.Utility.Lookup
import Restyle.Proofs.Session.BreakpointCss
import Restyle.Proofs.Selector.Joining
import Restyle.Proofs.Breakpoint.Malformed
import Restyle.Proofs.Conversion.BlankValue
import Restyle.Proofs.Store.Gathering
import Restyle.Proofs.Command.Grammar
