/-
  The coverage of files by folder, as a tree.

  Files are grouped by the names along their paths, in order of first
  appearance. A group with more than one file is a folder, with its groups
  below it; a group with a single file is that file, with the rest of its path
  as its name.
-/
import CilCoverage.Summary
import CilCoverage.Text.Blank

namespace CilCoverage

/-- What a row of the tree stands for. -/
inductive RowKind where
  | root
  | folder
  | file
  deriving DecidableEq, Repr

/-- Name of a kind in documents. -/
def RowKind.name : RowKind → String
  | root => "root"
  | folder => "folder"
  | file => "file"

/-- A row of the tree, with the rows below it. -/
inductive SummaryRow where
  | mk (level : Nat) (name fullName : String) (kind : RowKind) (files : List SourceFile)
      (summary : Summary) (children : List SummaryRow)

namespace SummaryRow

/-- Number of rows above. -/
def level : SummaryRow → Nat
  | mk level .. => level

/-- Name within the row above. -/
def name : SummaryRow → String
  | mk _ name .. => name

def fullName : SummaryRow → String
  | mk _ _ fullName .. => fullName

def kind : SummaryRow → RowKind
  | mk _ _ _ kind .. => kind

/-- The files that the row describes. -/
def files : SummaryRow → List SourceFile
  | mk _ _ _ _ files .. => files

def summary : SummaryRow → Summary
  | mk _ _ _ _ _ summary _ => summary

def children : SummaryRow → List SummaryRow
  | mk _ _ _ _ _ _ children => children

mutual

/-- The row and all rows below it, each one before those below it. -/
def flatten : SummaryRow → List SummaryRow
  | mk level name fullName kind files summary children =>
    mk level name fullName kind files summary children :: flattenAll children

/-- The rows and all rows below them. -/
def flattenAll : List SummaryRow → List SummaryRow
  | [] => []
  | row :: rows => row.flatten ++ flattenAll rows

end

mutual

/-- The document of a row and of the rows below it. -/
def toValue : SummaryRow → Json.Value
  | mk level name fullName kind _ summary children =>
    .object [("level", .integer level), ("name", .string name), ("full_name", .string fullName),
      ("kind", .string kind.name), ("summary", summary.toValue),
      ("children", .array (toValues children))]

/-- The documents of rows. -/
def toValues : List SummaryRow → List Json.Value
  | [] => []
  | row :: rows => row.toValue :: toValues rows

end

/-! ## Grouping -/

/-- Names along a path; slashes and backslashes divide it. -/
def segments (path : String) : List String :=
  ((Text.pieces (fun c => c == '/' || c == '\\') path.toList).filter fun s => !s.isEmpty).map
    String.ofList

/-- A file and the names along its path that were not used yet. -/
structure Item where
  segments : List String
  file : SourceFile

/-- Adds an item to the group of a name, which comes last if it is new. -/
def insertItem (name : String) (item : Item) : List (String × List Item) → List (String × List Item)
  | [] => [(name, [item])]
  | (other, items) :: rest =>
    if other = name then (other, items ++ [item]) :: rest
    else (other, items) :: insertItem name item rest

/-- The items by their next name, without it; items without a next name are left out. -/
def group (items : List Item) : List (String × List Item) :=
  items.foldl (fun groups item =>
    match item.segments with
    | [] => groups
    | name :: rest => insertItem name ⟨rest, item.file⟩ groups) []

/-- A name after the name of the row above. -/
def join (base name : String) : String := if base.isEmpty then name else base ++ "/" ++ name

/-- The rows of items, which have at most `depth` names left. -/
def rows (summarize : List SourceFile → Summary) :
    (depth level : Nat) → (base : String) → List Item → List SummaryRow
  | 0, _, _, _ => []
  | depth + 1, level, base, items =>
    (group items).map fun (name, members) =>
      let files := members.map (·.file)
      match members with
      | [item] =>
        let rest := "/".intercalate (name :: item.segments)
        mk level rest (join base rest) .file files (summarize files) []
      | _ =>
        let fullName := join base name
        mk level name fullName .folder files (summarize files)
          (rows summarize depth (level + 1) fullName members)

/-- Name of the row of all files. -/
def rootName : String := "All Files"

/-- The tree of files. -/
def tree (threshold : Threshold) (policy : HitPolicy) (hits : Hits) (files : List SourceFile) :
    SummaryRow :=
  let summarize := Summary.ofFiles threshold policy hits
  let items := files.map fun f => Item.mk (segments f.path) f
  let depth := (items.map fun i => i.segments.length).foldl max 0
  mk 0 rootName rootName .root files (summarize files) (rows summarize depth 1 "" items)

end SummaryRow

end CilCoverage
