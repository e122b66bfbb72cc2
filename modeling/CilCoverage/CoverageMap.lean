/-
  Coverage maps: the points of a program whose execution can be recorded.

  A point is a sequence (a statement) or a branch of one of its conditions, and
  each has a hit id. A map is valid if it says where hits go, no id is used
  twice, no sequence ends before it starts and every condition branches
  (`check`).
-/
import CilCoverage.HitIds
import CilCoverage.Numeral
import CilCoverage.OrderedMap

namespace CilCoverage

/-- One outcome of a condition. -/
structure Branch where
  hitId : HitId
  /-- Code offset of the instruction that runs next. -/
  offset : UInt32
  /-- Going on with the instruction that follows. -/
  fallthrough : Bool
  instruction : String
  deriving DecidableEq, Repr

/-- An instruction that decides how to go on, with its outcomes. -/
structure Condition where
  offset : UInt32
  instruction : String
  branches : List Branch
  deriving DecidableEq, Repr

/-- Names of a method. -/
structure MethodInfo where
  declaringType : String
  name : String
  fullName : String
  deriving DecidableEq, Repr

/-- A statement. -/
structure Sequence where
  hitId : HitId
  offset : UInt32
  startLine : UInt32
  startColumn : UInt32
  endLine : UInt32
  endColumn : UInt32
  method : MethodInfo
  /-- The first instruction of the statement. -/
  instruction : String
  conditions : List Condition
  deriving DecidableEq, Repr

/-- Branches of all conditions. -/
def Sequence.branches (s : Sequence) : List Branch := s.conditions.flatMap (·.branches)

/-- The ids of the statement and of its branches. -/
def Sequence.hitIds (s : Sequence) : List HitId := s.hitId :: s.branches.map (·.hitId)

/-- The statements of a source file. -/
structure SourceFile where
  path : String
  sequences : List Sequence
  deriving DecidableEq, Repr

/-- The source files of an assembly. -/
structure InstrumentedAssembly where
  name : String
  /-- Digest of the image before it was instrumented, in hexadecimal. -/
  hash : String
  sourceFiles : List SourceFile
  deriving DecidableEq, Repr

/-- Number of statements. -/
def InstrumentedAssembly.sequenceCount (a : InstrumentedAssembly) : Nat :=
  (a.sourceFiles.flatMap (·.sequences)).length

/-- What a run of the instrumentation can record. -/
structure CoverageMap where
  sourceRoot : Option String
  /-- Directory that hits are recorded to. -/
  hitsDir : String
  assemblies : List InstrumentedAssembly
  deriving DecidableEq, Repr

/-- What is wrong with a coverage map. -/
inductive MapError where
  | noHitsDir
  | invertedLines (id : HitId) (path : String)
  | repeatedId (id : HitId)
  | tooFewBranches (offset : UInt32) (method : String)
  deriving DecidableEq, Repr

def MapError.message : MapError → String
  | noHitsDir => "coverage map has no hits dir"
  | invertedLines id path =>
    "sequence " ++ Numeral.decimal id.toNat ++ " in " ++ path ++ " ends before it starts"
  | repeatedId id => "hit id " ++ Numeral.decimal id.toNat ++ " is used more than once"
  | tooFewBranches offset method =>
    "condition at " ++ Numeral.codeLabel offset.toNat ++ " in " ++ method ++
      " has fewer than two branches"

namespace CoverageMap

/-- The files of all assemblies, where a file can occur several times. -/
def files (m : CoverageMap) : List SourceFile := m.assemblies.flatMap (·.sourceFiles)

/-- The files by path, each with its statements from all assemblies. -/
def sourceFiles (m : CoverageMap) : List SourceFile :=
  let byPath : OrderedMap String (List Sequence) := m.files.foldl
    (fun found f => found.upsert f.path fun before => before.getD [] ++ f.sequences) .empty
  byPath.entries.map fun (path, sequences) => ⟨path, sequences⟩

/-- The ids of all points. -/
def hitIds (m : CoverageMap) : List HitId :=
  m.files.flatMap fun f => f.sequences.flatMap (·.hitIds)

/-! ## Validity -/

/-- What is required of a point. -/
inductive Requirement where
  /-- The id was not met before. -/
  | unused (id : HitId)
  /-- The condition holds, or else there is an error. -/
  | holds (condition : Bool) (otherwise : MapError)
  deriving DecidableEq, Repr

/-- What is required of a condition of a method. -/
def conditionRequirements (method : MethodInfo) (c : Condition) : List Requirement :=
  .holds (decide (2 ≤ c.branches.length)) (.tooFewBranches c.offset method.fullName) ::
    c.branches.map fun b => .unused b.hitId

/-- What is required of a statement in a file. -/
def sequenceRequirements (path : String) (s : Sequence) : List Requirement :=
  .holds (decide (s.startLine ≤ s.endLine)) (.invertedLines s.hitId path) :: .unused s.hitId ::
    s.conditions.flatMap (conditionRequirements s.method)

/-- What is required of a map, in the order it is looked at. -/
def requirements (m : CoverageMap) : List Requirement :=
  .holds (!m.hitsDir.isEmpty) .noHitsDir ::
    m.files.flatMap fun f => f.sequences.flatMap (sequenceRequirements f.path)

/-- The first requirement that is not met, after the ids in `seen`. -/
def firstFailure (seen : List HitId) : List Requirement → Except MapError Unit
  | [] => .ok ()
  | .unused id :: rest =>
    if seen.contains id then .error (.repeatedId id) else firstFailure (id :: seen) rest
  | .holds condition otherwise :: rest =>
    if condition then firstFailure seen rest else .error otherwise

/-- Checks that the map is valid. -/
def check (m : CoverageMap) : Except MapError Unit := firstFailure [] m.requirements

end CoverageMap

end CilCoverage
