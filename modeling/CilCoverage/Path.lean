/-
  Paths: texts whose parts, between slashes, lead from folder to folder.

  An empty part and `.` lead nowhere, `..` leads out of a folder, and any other
  part is the name of what it leads to. A path and a name that are joined lead
  as the two do one after the other (`steps_append`).
-/
import CilCoverage.Text.Blank

namespace CilCoverage

/-- What a part of a path does. -/
inductive PathStep where
  | into (name : String)
  | out
  deriving DecidableEq, Repr

namespace Path

/-- The texts between the slashes. -/
def parts (path : List Char) : List (List Char) := Text.pieces (· == '/') path

/-- What a part does, if it leads anywhere. -/
def step? (part : List Char) : Option PathStep :=
  if part = [] ∨ part = ['.'] then none
  else if part = ['.', '.'] then some .out
  else some (.into (String.ofList part))

/-- Where the path leads, step by step. -/
def steps (path : String) : List PathStep := (parts path.toList).filterMap step?

/-- The part at the end. -/
def lastPart (path : String) : List Char := (parts path.toList).getLast?.getD []

/-- The last part leads nowhere, so that the path can only lead to a folder. -/
def endsInFolder (path : String) : Bool := (step? (lastPart path)).isNone

/-- The last part that is not empty is a dot. -/
def endsInDot (path : String) : Bool :=
  ((parts path.toList).reverse.dropWhile List.isEmpty).head? == some ['.']

/-- The greatest number of bytes of a name. -/
def maxNameLength : Nat := 255

/-- The name is short enough. -/
def isShort (name : String) : Bool := decide (name.utf8ByteSize ≤ maxNameLength)

/-- The greatest number of bytes of a path. -/
def maxLength : Nat := 4095

/-- The text can be a path: it is not empty and short enough, and the character that ends texts
for the system is not in it. -/
def isValid (path : String) : Bool :=
  (!path.isEmpty && decide (path.utf8ByteSize ≤ maxLength)) && !path.toList.contains '\x00'

/-- The path can be that of a file: a short name is at its end. -/
def endsInName (path : String) : Bool :=
  match step? (lastPart path) with
  | some (.into name) => isShort name
  | _ => false

/-- A name or a path inside a folder; an absolute path stays as it is. -/
def join (folder name : String) : String :=
  if name.toList.head? = some '/' then name
  else if folder.isEmpty || folder.toList.getLast? == some '/' then folder ++ name
  else folder ++ "/" ++ name

/-! ## Extensions -/

/-- The text up to the last slash, and the name after it. -/
def split (path : List Char) : List Char × List Char :=
  let name := (path.reverse.takeWhile (· != '/')).reverse
  (path.take (path.length - name.length), name)

/-- A name before its extension, and the extension. The extension follows the last dot, before
which something has to come. -/
def divide (name : List Char) : List Char × Option (List Char) :=
  let reversed := name.reverse
  match reversed.dropWhile (· != '.') with
  | '.' :: c :: rest =>
    if name = ['.', '.'] then (name, none)
    else ((c :: rest).reverse, some (reversed.takeWhile (· != '.')).reverse)
  | _ => (name, none)

/-- The extension of a name. -/
def extension? (name : String) : Option String := (divide name.toList).2.map String.ofList

/-- What is left of a reversed path without the parts at its end that lead nowhere. -/
def dropIdle : List Char → List Char
  | '/' :: rest => dropIdle rest
  | '.' :: '/' :: rest => dropIdle rest
  | reversed => reversed

/-- The path with another extension of its name. The old one is taken off first; if there is no
name at the end of the text then, nothing is added. -/
def withExtension (path ext : String) : String :=
  let text := path.toList
  let kept := (dropIdle text.reverse).reverse
  let (slashed, name) := split kept
  match step? name with
  | some (.into _) =>
    let stem := (divide name).1
    if stem = ['.'] ∧ kept = text then String.ofList (slashed ++ ['.', '.'])
    else String.ofList (slashed ++ stem) ++ "." ++ ext
  | _ => path

/-! ## Joined paths -/

theorem parts_append (a b : List Char) : parts (a ++ '/' :: b) = parts a ++ parts b :=
  Text.pieces_append rfl a b

theorem steps_append (a b : String) : steps (a ++ "/" ++ b) = steps a ++ steps b := by
  have h : (a ++ "/" ++ b).toList = a.toList ++ '/' :: b.toList := by
    simp [String.toList_append]
  rw [steps, h, parts_append, List.filterMap_append]
  rfl

end Path

end CilCoverage
