import Restyle.Content.Basic

/-! # Post types -/

namespace Restyle.PostType

def defaults : List Text :=
  ["post", "page", "bricks_template"]

def clean (t : Text) : Text :=
  t.lower.filter Text.isNameChar

/-- The distinct cleaned post types, or the default ones if none is left. -/
def resolve (postTypes : List Text) : List Text :=
  let resolved := postTypes.foldl (fun seen t =>
    let t := clean t
    if t.isEmpty || seen.contains t then seen else seen ++ [t]) []
  if resolved.isEmpty then defaults else resolved

/-- The items with content of some post types. -/
def select (items : List Item) (postTypes : List Text) : List Item :=
  let postTypes := resolve postTypes
  items.filter fun i => postTypes.contains i.postType && i.hasContent

end Restyle.PostType
