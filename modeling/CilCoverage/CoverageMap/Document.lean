/-
  Coverage maps as JSON documents, and in files.

  A document names the version of its format; there is one version. What is
  left out if it says nothing: a missing source root and an empty list of
  conditions. `ofText` accepts the documents of valid maps only. A map is saved
  to a file as its text, and loaded from it (`save?`, `load`).
-/
import CilCoverage.CoverageMap
import CilCoverage.FileSystem
import CilCoverage.Json.Reader

namespace CilCoverage

open Json

/-- Why a text is no coverage map. -/
inductive DocumentError where
  | json (fault : Fault)
  | invalid (cause : MapError)
  deriving DecidableEq, Repr

namespace CoverageMap

/-- The version of the format. -/
def version : String := "1"

/-- Name of the member that tells the version. -/
def versionKey : String := "version"

/-! ## Writing -/

/-- A number. -/
def ofUInt32 (n : UInt32) : Value := .integer n.toNat

def branchValue (b : Branch) : Value :=
  .object [("hit_id", ofUInt32 b.hitId), ("offset", ofUInt32 b.offset),
    ("fallthrough", .bool b.fallthrough), ("instruction", .string b.instruction)]

def conditionValue (c : Condition) : Value :=
  .object [("offset", ofUInt32 c.offset), ("instruction", .string c.instruction),
    ("branches", .array (c.branches.map branchValue))]

def methodValue (m : MethodInfo) : Value :=
  .object [("declaring_type", .string m.declaringType), ("name", .string m.name),
    ("full_name", .string m.fullName)]

def sequenceValue (s : Sequence) : Value :=
  .object ([("hit_id", ofUInt32 s.hitId), ("offset", ofUInt32 s.offset),
      ("start_line", ofUInt32 s.startLine), ("start_column", ofUInt32 s.startColumn),
      ("end_line", ofUInt32 s.endLine), ("end_column", ofUInt32 s.endColumn),
      ("method", methodValue s.method), ("instruction", .string s.instruction)] ++
    if s.conditions.isEmpty then []
    else [("conditions", .array (s.conditions.map conditionValue))])

def fileValue (f : SourceFile) : Value :=
  .object [("path", .string f.path), ("sequences", .array (f.sequences.map sequenceValue))]

def assemblyValue (a : InstrumentedAssembly) : Value :=
  .object [("name", .string a.name), ("hash", .string a.hash),
    ("files", .array (a.sourceFiles.map fileValue))]

/-- The document of a map. -/
def toValue (m : CoverageMap) : Value :=
  .object ((versionKey, .string version) ::
    (match m.sourceRoot with
      | some root => [("source_root", .string root)]
      | none => []) ++
    [("hits_dir", .string m.hitsDir), ("assemblies", .array (m.assemblies.map assemblyValue))])

/-- The text of a map. -/
def toText (m : CoverageMap) : String := m.toValue.text

/-! ## Reading -/

/-- The list of a field that may be missing. -/
def listOrNil {α : Type} (f : Value → Option α) : Option Value → Option (List α)
  | none => some []
  | some v => v.list? f

def branchOf (v : Value) : Option Branch := do
  match ← v.fields? ["hit_id", "offset", "fallthrough", "instruction"] with
  | [some id, some offset, fallthrough, some instruction] =>
    some ⟨← id.uint32?, ← offset.uint32?, ← (fallthrough.getD (.bool false)).bool?,
      ← instruction.string?⟩
  | _ => none

def conditionOf (v : Value) : Option Condition := do
  match ← v.fields? ["offset", "instruction", "branches"] with
  | [some offset, some instruction, some branches] =>
    some ⟨← offset.uint32?, ← instruction.string?, ← branches.list? branchOf⟩
  | _ => none

def methodOf (v : Value) : Option MethodInfo := do
  match ← v.fields? ["declaring_type", "name", "full_name"] with
  | [some type, some name, some fullName] =>
    some ⟨← type.string?, ← name.string?, ← fullName.string?⟩
  | _ => none

def sequenceOf (v : Value) : Option Sequence := do
  match ← v.fields? ["hit_id", "offset", "start_line", "start_column", "end_line", "end_column",
      "method", "instruction", "conditions"] with
  | [some id, some offset, some startLine, some startColumn, some endLine, some endColumn,
      some method, some instruction, conditions] =>
    some ⟨← id.uint32?, ← offset.uint32?, ← startLine.uint32?, ← startColumn.uint32?,
      ← endLine.uint32?, ← endColumn.uint32?, ← methodOf method, ← instruction.string?,
      ← listOrNil conditionOf conditions⟩
  | _ => none

def fileOf (v : Value) : Option SourceFile := do
  match ← v.fields? ["path", "sequences"] with
  | [some path, some sequences] => some ⟨← path.string?, ← sequences.list? sequenceOf⟩
  | _ => none

def assemblyOf (v : Value) : Option InstrumentedAssembly := do
  match ← v.fields? ["name", "hash", "files"] with
  | [some name, some hash, some files] =>
    some ⟨← name.string?, ← hash.string?, ← files.list? fileOf⟩
  | _ => none

/-- The source root, which may be missing or null. -/
def rootOf : Option Value → Option (Option String)
  | none | some .null => some none
  | some v => v.string?.map some

/-- The map that a document without its version holds. -/
def ofValue (v : Value) : Option CoverageMap := do
  match ← v.fields? ["source_root", "hits_dir", "assemblies"] with
  | [root, some hitsDir, some assemblies] =>
    some ⟨← rootOf root, ← hitsDir.string?, ← assemblies.list? assemblyOf⟩
  | _ => none

/-- Reads the version. -/
def readVersion : Reader Unit := fun text => do
  match ← readStart .keep text with
  | (.scalar (.string s), rest) => if s = version then .ok ((), rest) else .error .mismatch
  | _ => .error .mismatch

/-- How many containers a member of a document may have inside each other. -/
def memberDepth : Nat := maxDepth - 1

/-- The members of a document up to its end, without the version, and whether that was
there; it must not be there twice. -/
def readMembers : (bound : Nat) → (first tagged : Bool) → Reader (Bool × List (String × Value))
  | 0, _, _, _ => .error .malformed
  | bound + 1, first, tagged, text => do
    match ← nextKey? .keep first text with
    | none => .ok ((tagged, []), text)
    | some (key, rest) =>
      if key = versionKey then
        if tagged then .error .mismatch
        else
          let rest ← after ':' rest
          let (_, rest) ← readVersion rest
          readMembers bound false true rest
      else
        let rest ← after ':' rest
        let (v, rest) ← readValue .keep memberDepth rest
        let ((tagged, members), rest) ← readMembers bound false tagged rest
        .ok ((tagged, (key, v) :: members), rest)

/-- The items of a document after its version, up to its end. -/
def readItemsAfter : (bound : Nat) → Reader (List Value)
  | 0, _ => .error .malformed
  | bound + 1, text => do
    match ← nextItem? false text with
    | none => .ok ([], text)
    | some text =>
      let (v, rest) ← readValue .keep memberDepth text
      let (vs, rest) ← readItemsAfter bound rest
      .ok (v :: vs, rest)

/-- The document without its version, up to the closing bracket. The version comes first in
an array and anywhere in an object. -/
def readTagged : Reader (Value × Char) := fun text => do
  match ← readStart .keep text with
  | (.object, rest) =>
    let ((tagged, members), rest) ← readMembers (rest.length + 1) true false rest
    if tagged then .ok ((.object members, '\x7d'), rest) else .error .mismatch
  | (.array, rest) =>
    match ← nextItem? true rest with
    | none => .error .mismatch
    | some rest =>
      let (_, rest) ← readVersion rest
      let (vs, rest) ← readItemsAfter (rest.length + 1) rest
      .ok ((.array vs, ']'), rest)
  | _ => .error .mismatch

/-- Reads a document. What the members say counts once all of them were read. -/
def read : Reader CoverageMap := fun text => do
  let ((v, close), rest) ← readTagged text
  let rest ← after close rest
  match ofValue v with
  | some m => .ok (m, rest)
  | none => .error .mismatch

/-- The map of a text, if it is valid. -/
def ofText (text : String) : Except DocumentError CoverageMap :=
  match readDocument read text with
  | .error fault => .error (.json fault)
  | .ok m =>
    match m.check with
    | .error cause => .error (.invalid cause)
    | .ok () => .ok m

end CoverageMap

/-! ## Files -/

/-- Why a file cannot be read as text. -/
inductive FileFault where
  | missing
  | isFolder
  | notText
  deriving DecidableEq, Repr

def FileFault.message : FileFault → String
  | missing => "No such file or directory (os error 2)"
  | isFolder => "Is a directory (os error 21)"
  | notText => "stream did not contain valid UTF-8"

/-- Why no coverage map could be loaded from a file. -/
inductive LoadError where
  | unreadable (cause : FileFault)
  | document (cause : DocumentError)
  deriving DecidableEq, Repr

/-- What was being done when the error arose, for the file at `path`. -/
def LoadError.context (path : String) : LoadError → String
  | unreadable _ => "unable to read coverage map " ++ path
  | document _ => "invalid coverage map " ++ path

namespace CoverageMap

/-- The text of a file. -/
def readText (fs : FileSystem) (path : String) : Except FileFault String :=
  match fs.find? path with
  | none => .error .missing
  | some .folder => .error .isFolder
  | some (.file data) =>
    match String.fromUTF8? ⟨data.toArray⟩ with
    | some text => .ok text
    | none => .error .notText

/-- Loads a map. -/
def load (fs : FileSystem) (path : String) : Except LoadError CoverageMap :=
  match readText fs path with
  | .error cause => .error (.unreadable cause)
  | .ok text => (ofText text).mapError .document

/-- Saves a map; nothing if the file cannot be written. -/
def save? (m : CoverageMap) (fs : FileSystem) (path : String) : Option FileSystem :=
  fs.write? path m.toText.toUTF8.toList

/-- The message where the file at `path` cannot be written. -/
def saveFailure (path : String) : String := "unable to write coverage map " ++ path

end CoverageMap

end CilCoverage
