/-
  Globs: patterns for slash-separated paths.

  Backslashes count as slashes, in the glob and in the path. A glob stands for
  a regular expression that has to match the whole path, with one fragment for
  each item: `(?:.*/)?` for `folders`, `.*` for `text`, `[^/]*` for `name`,
  `[^/]` for `char`, and the escaped character for `literal`. The dot leaves out
  the line feed, the other classes do not. So a path matches if it can be cut
  into pieces, one for each item in order, and no expression is built. Every glob
  has one; only the limit on the size of an expression, which a very long glob
  would exceed, is left out.

  Matching does not search: it keeps, for every position of the path, whether
  the items so far can end there, and moves these marks over one item at a time.
-/
import CilCoverage.Text.Blank
import CilCoverage.Text.CaseFold

namespace CilCoverage.Glob

/-- An item of a glob. -/
inductive Item where
  /-- `**/`: nothing, or text without line feeds that ends in a slash. -/
  | folders
  /-- `**`: text without line feeds. -/
  | text
  /-- `*`: text without slashes. -/
  | name
  /-- `?`: a character other than a slash. -/
  | char
  /-- A character that stands for itself. -/
  | literal (c : Char)
  deriving DecidableEq, Repr

/-- Items of a glob that is written with slashes. -/
def itemsOf : List Char → List Item
  | '*' :: '*' :: '/' :: rest => .folders :: itemsOf rest
  | '*' :: '*' :: rest => .text :: itemsOf rest
  | '*' :: rest => .name :: itemsOf rest
  | '?' :: rest => .char :: itemsOf rest
  | c :: rest => .literal c :: itemsOf rest
  | [] => []

/-- Items of a glob. -/
def parse (glob : List Char) : List Item := itemsOf (Text.slashes glob)

/-! ## Moving marks

A mark before each character of the path, and one at its end, tells that the
items so far can end there. -/

/-- Marks after one character that satisfies `p`. -/
def afterOne (p : Char → Bool) (path : List Char) (marks : List Bool) : List Bool :=
  false :: List.zipWith (fun c m => m && p c) path marks

/-- Marks after any number of characters that satisfy `p`; `carry` tells that the character
before can be the last but one. -/
def afterMany (p : Char → Bool) : (carry : Bool) → List Char → List Bool → List Bool
  | carry, c :: path, m :: marks =>
    (carry || m) :: afterMany p ((carry || m) && p c) path marks
  | carry, [], m :: _ => [carry || m]
  | _, _, [] => []

/-- Marks after nothing or after text without line feeds that ends in a slash; `running`
tells that such a text can go on, `ended` that it can end here. -/
def afterFolders : (running ended : Bool) → List Char → List Bool → List Bool
  | running, ended, c :: path, m :: marks =>
    let here := running || m
    (ended || m) :: afterFolders (here && c != '\n') (here && c == '/') path marks
  | _, ended, [], m :: _ => [ended || m]
  | _, _, _, [] => []

/-- Marks after one item. -/
def Item.advance (ignoreCase : Bool) (path : List Char) (marks : List Bool) : Item → List Bool
  | folders => afterFolders false false path marks
  | text => afterMany (· != '\n') false path marks
  | name => afterMany (· != '/') false path marks
  | char => afterOne (· != '/') path marks
  | literal c => afterOne (Text.sameLetter ignoreCase c) path marks

/-- The mark before the first character. -/
def initialMarks (path : List Char) : List Bool :=
  true :: path.map fun _ => false

/-- The items cover the whole path, which is written with slashes. -/
def coverAll (ignoreCase : Bool) (items : List Item) (path : List Char) : Bool :=
  let marks := items.foldl (fun marks item => item.advance ignoreCase path marks)
    (initialMarks path)
  marks.getLast? == some true

/-- The whole path matches. -/
def isMatch (ignoreCase : Bool) (items : List Item) (path : List Char) : Bool :=
  coverAll ignoreCase items (Text.slashes path)

end CilCoverage.Glob
