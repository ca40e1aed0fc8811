import Restyle.Reference.Scanner

/-! # Classes that stay behind

Classes of the system, the builder and the shop never migrate, nor do a few
utilities that only content uses.
-/

namespace Restyle.Exclusion

open Text

def starts : List Text :=
  ["brxe-", "bricks-", "brx-", "wp-", "wp-block-", "has-", "is-", "woocommerce-", "wc-",
    "product-", "cart-", "checkout-"]

def names : List Text :=
  ["bg--ultra-light", "bg--ultra-dark", "fr-lede", "fr-intro", "fr-note", "fr-notes", "text--l"]

/-- Background classes of the utility framework start with `is-bg` and pass. -/
def byStart (name : Text) : Bool :=
  starts.any fun start => name.startsWith start && !(start = "is-" && name.startsWith "is-bg")

/-- The name without the mark of an imported utility class and without dots before it. -/
def bareName (name : Text) : Text :=
  ((name.dropStart? Scanner.importMark).getD name).dropWhile (· == '.')

def excludes (c : GlobalClass) : Bool :=
  c.name.isEmpty || byStart c.name || names.contains (bareName c.name)

end Restyle.Exclusion
