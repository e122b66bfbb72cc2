/-
  Images: whether a file is a portable executable, and whether it holds managed
  code, which its header tells by a directory entry for the runtime.

  Only headers are looked at, with the names of sections. What is read has to
  lie inside the file, otherwise there is no answer.
-/
import CilCoverage.Bytes
import CilCoverage.Numeral

namespace CilCoverage.Image

/-- The number of `width` bytes at position `pos`. -/
def number? (width pos : Nat) (image : Bytes) : Option Nat :=
  (Bytes.readNat width (image.drop pos)).map (·.1)

/-- Position of the field that holds the position of the executable's header. -/
def headerField : Nat := 0x3c

/-- The bytes `PE\0\0`, read as a number. -/
def signature : Nat := 0x4550

/-- Index of the directory of the managed runtime. -/
def runtimeDirectory : Nat := 14

/-- The file starts as a portable executable does; too short a file has no answer. -/
def isPortable? (image : Bytes) : Option Bool :=
  if image.length < 16 then none
  else some (image.take 2 == [0x4d, 0x5a])

/-- The optional header at `start` has an entry for the managed runtime. -/
def hasRuntimeEntry? (image : Bytes) (start : Nat) : Option Bool := do
  let magic ← number? 2 start image
  let fixed ← match magic with
    | 0x10b => some 96
    | 0x20b => some 112
    | _ => none
  let count ← number? 4 (start + fixed - 4) image
  if 16 < count ∨ image.length < start + fixed + 8 * count then none
  else if count ≤ runtimeDirectory then some false
  else
    let entry ← number? 8 (start + fixed + 8 * runtimeDirectory) image
    some (entry != 0)

/-! ## Sections -/

/-- The text at a position; it ends before a zero byte or with the data. -/
def text? (pos : Nat) (data : Bytes) : Option String :=
  if pos < data.length then
    String.fromUTF8? ⟨((data.drop pos).takeWhile (· != 0)).toArray⟩
  else none

/-- The number in the name of a section whose own name is too long for its entry: in base 64
after two slashes, in decimal after one. -/
def longNameIndex? (digits : Bytes) : Option Nat :=
  match digits with
  | 0x2f :: digits => (text? 0 digits).bind fun t => Numeral.value64? t.toList
  | digits => (text? 0 digits).bind fun t => (Numeral.parse t.toList).toOption

/-- The name of a section can be read; long names start at `names`. -/
def hasName (image : Bytes) (names : Nat) (entry : Bytes) : Bool :=
  match entry with
  | 0x2f :: digits =>
    match longNameIndex? digits with
    | some index => (text? (names + index) image).isSome
    | none => false
  | _ => true

/-- Bytes of an entry in the table of sections. -/
def sectionSize : Nat := 40

/-- Bytes of the name of a section. -/
def nameSize : Nat := 8

/-- Bytes of an entry in the table of symbols, behind which the long names are. -/
def symbolSize : Nat := 18

/-- The entries in the table of sections at `table`, if they are all there. -/
def sections? (table count : Nat) (image : Bytes) : Option (List Bytes) :=
  if image.length / sectionSize < count then none
  else if count ≠ 0 ∧ image.length < table + sectionSize * count then none
  else some ((List.range count).map fun k => image.drop (table + sectionSize * k))

/-- The names of all sections can be read, for the header at `start`. -/
def hasSectionNames (image : Bytes) (start : Nat) (sections : List Bytes) : Option Bool := do
  let symbols ← number? 4 (start + 12) image
  let count ← number? 4 (start + 16) image
  some (sections.all fun s => hasName image (symbols + symbolSize * count) (s.take nameSize))

/-- The file is a portable executable with a managed runtime header; a malformed executable
has no answer. -/
def isManaged? (image : Bytes) : Option Bool := do
  if !(← isPortable? image) then some false
  else
    let start ← number? 4 headerField image
    let found ← number? 4 start image
    let sections ← number? 2 (start + 6) image
    let optionalSize ← number? 2 (start + 20) image
    let optionalStart := start + 24
    if found ≠ signature ∨ image.length < optionalStart then none
    else
      let managed ← if optionalSize = 0 then some false else hasRuntimeEntry? image optionalStart
      let entries ← sections? (optionalStart + optionalSize) sections image
      if ← hasSectionNames image start entries then some managed else none

end CilCoverage.Image
