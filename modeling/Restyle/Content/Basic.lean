import Restyle.Json.Reader
import Restyle.Json.Record
import Restyle.Setting

/-! # Content

A content item is a post, page or template with the builder's elements.
Identifiers may be numbers. Elements may come as a text that holds them; among
them, entries that are no elements are dropped.
-/

namespace Restyle

/-- A trimmed text, or the digits of a number; anything else is blank. -/
def Json.identifier : Json → Text
  | .string t => t.trim
  | .number n => n.toText
  | _ => []

structure Element where
  id : Text
  name : Text
  settings : Settings

structure Item where
  id : Text
  postType : Text
  elements : List Element
  wrapper : Setting
  page : Setting

/-- A class of the source builder. -/
structure GlobalClass where
  id : Text
  name : Text
  category : Text
  settings : Settings

namespace Element

def ofJson? (j : Json) : Option Element := do
  let fields ← j.record? ["id", "name", "settings"]
  let id ← Json.fieldOr? fields "id" [] (some ·.identifier)
  let name ← Json.fieldOr? fields "name" [] Json.text?
  let settings ← Json.fieldOr? fields "settings" [] (some <| Settings.ofJson ·)
  return ⟨id, name, settings⟩

/-- The items of an array that are objects and can be read. -/
def objectsOf {α : Type} (read : Json → Option α) (items : List Json) : List α :=
  items.filterMap fun j =>
    match j with
    | .object _ => read j
    | _ => none

def listOfJson (j : Json) : List Element :=
  let j := match j with
    | .string t => ((Json.ofText? t).map Json.merged).getD .null
    | j => j
  match j with
  | .array items => objectsOf ofJson? items
  | _ => []

end Element

namespace Item

def defaultPostType : Text := "page"

def ofJson? (j : Json) : Option Item := do
  let fields ← j.record? ["id", "post_type", "elements", "wrapper_settings", "page_settings"]
  let id ← Json.fieldOr? fields "id" [] (some ·.identifier)
  let postType ← Json.fieldOr? fields "post_type" defaultPostType Json.text?
  let elements ← Json.fieldOr? fields "elements" [] (some <| Element.listOfJson ·)
  let wrapper ← Json.fieldOr? fields "wrapper_settings" .none (some <| Setting.ofJson ·)
  let page ← Json.fieldOr? fields "page_settings" .none (some <| Setting.ofJson ·)
  return ⟨id, postType, elements, wrapper, page⟩

def hasContent (i : Item) : Bool :=
  !i.elements.isEmpty || !i.wrapper.isEmpty || !i.page.isEmpty

/-- The items of a content file: one item, or an array of items. -/
def listOfText? (t : Text) : Option (List Item) :=
  match (Json.ofText? t).map Json.merged with
  | none => none
  | some (.array items) => items.mapM ofJson?
  | some j => (ofJson? j).map ([·])

end Item

namespace GlobalClass

def ofJson? (j : Json) : Option GlobalClass := do
  let fields ← j.record? ["id", "name", "category", "settings"]
  let id ← Json.fieldOr? fields "id" [] (some ·.identifier)
  let name ← Json.fieldOr? fields "name" [] (some ·.identifier)
  let category ← Json.fieldOr? fields "category" [] (some ·.identifier)
  let settings ← Json.fieldOr? fields "settings" [] (some <| Settings.ofJson ·)
  return ⟨id, name, category, settings⟩

/-- The classes of an array or of the values of an object. -/
def listOfJson : Json → List GlobalClass
  | .array items => Element.objectsOf ofJson? items
  | .object entries => Element.objectsOf ofJson? (Table.values entries)
  | _ => []

/-- The classes of a class file, which may hold its JSON as a text inside JSON. -/
def listOfText? (t : Text) : Option (List GlobalClass) :=
  match (Json.ofText? t).map Json.merged with
  | none => none
  | some (.string inner) => ((Json.ofText? inner).map Json.merged).map listOfJson
  | some j => some (listOfJson j)

end GlobalClass

end Restyle
