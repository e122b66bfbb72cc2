/-
  Hit files: the hit counts of one process or test, in bytes.

  All numbers are little-endian. A file holds the version, a tag that tells
  whether a test name follows, the name after its length, and the counts after
  their number, each with its id.
-/
import CilCoverage.Bytes
import CilCoverage.Hits
import CilCoverage.Numeral

namespace CilCoverage

/-- Hit counts with the test that they belong to. -/
structure HitFile where
  version : UInt32
  test : Option String
  hits : Hits

/-- Why bytes are no hit file. -/
inductive HitFileError where
  /-- The data ends too early. -/
  | truncated
  | invalidText
  | invalidTag
  | unsupportedVersion (version : UInt32)
  deriving DecidableEq, Repr

def HitFileError.message : HitFileError → String
  | truncated => "unexpected end of file"
  | invalidText => "invalid text"
  | invalidTag => "invalid tag"
  | unsupportedVersion version =>
    "unsupported hit file version " ++ Numeral.decimal version.toNat

namespace HitFile

/-- The version that is written and read. -/
def currentVersion : UInt32 := 1

/-- A file of the current version. -/
def new (test : Option String) (hits : Hits) : HitFile := ⟨currentVersion, test, hits⟩

/-! ## Writing -/

/-- The test name, after its tag and its length. -/
def testBytes : Option String → Bytes
  | none => [0]
  | some name =>
    let text := name.toUTF8.toList
    1 :: Bytes.ofNat 8 text.length ++ text

/-- A count after its id. -/
def countBytes (c : HitId × UInt64) : Bytes :=
  Bytes.ofNat 4 c.1.toNat ++ Bytes.ofNat 8 c.2.toNat

/-- The bytes of a file. -/
def toBytes (f : HitFile) : Bytes :=
  Bytes.ofNat 4 f.version.toNat ++ testBytes f.test ++ Bytes.ofNat 8 f.hits.size ++
    f.hits.toList.flatMap countBytes

/-! ## Reading -/

/-- Reads a number. -/
def readNumber (width : Nat) (data : Bytes) : Except HitFileError (Nat × Bytes) :=
  match Bytes.readNat width data with
  | some r => .ok r
  | none => .error .truncated

/-- Reads text of a number of bytes. -/
def readText (length : Nat) (data : Bytes) : Except HitFileError (String × Bytes) :=
  if data.length < length then .error .truncated
  else match String.fromUTF8? ⟨(data.take length).toArray⟩ with
    | some text => .ok (text, data.drop length)
    | none => .error .invalidText

/-- Reads a tag and, if it says so, a test name. -/
def readTest (data : Bytes) : Except HitFileError (Option String × Bytes) := do
  let (tag, data) ← readNumber 1 data
  match tag with
  | 0 => .ok (none, data)
  | 1 =>
    let (length, data) ← readNumber 8 data
    let (name, data) ← readText length data
    .ok (some name, data)
  | _ => .error .invalidTag

/-- Reads counts; of several counts of an id the last one holds. -/
def readCounts : (number : Nat) → OrderedMap HitId UInt64 → Bytes →
    Except HitFileError (OrderedMap HitId UInt64)
  | 0, counts, _ => .ok counts
  | number + 1, counts, data => do
    let (id, data) ← readNumber 4 data
    let (n, data) ← readNumber 8 data
    readCounts number (counts.insert (UInt32.ofNat id) (UInt64.ofNat n)) data

/-- The file in some bytes. What follows it is ignored. Only the current version is accepted,
which is looked at last. -/
def ofBytes (data : Bytes) : Except HitFileError HitFile := do
  let (version, data) ← readNumber 4 data
  let (test, data) ← readTest data
  let (number, data) ← readNumber 8 data
  let counts ← readCounts number .empty data
  let version := UInt32.ofNat version
  if version = currentVersion then .ok ⟨version, test, ⟨counts⟩⟩
  else .error (.unsupportedVersion version)

end HitFile

end CilCoverage
