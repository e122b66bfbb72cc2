/-
  Method bodies that are to report hits.

  Everything that can be wrong with a method is found out first (`prepare`), so
  that a method that is left alone takes no ids. With the ids at hand, the body
  is put together again (`assemble`). A document below the source root is
  recorded relative to it, any other as it is (`SourcePath.recorded`).
-/
import CilCoverage.Config
import CilCoverage.Layout
import CilCoverage.MethodBody
import CilCoverage.StackDepth
import CilCoverage.Statement
import CilCoverage.Text.Blank

namespace CilCoverage

/-! ## Documents -/

namespace SourcePath

/-- The root without slashes at its end. -/
def rootPrefix (root : String) : List Char :=
  ((Text.slashes root.toList).reverse.dropWhile (· == '/')).reverse

/-- The path of a document below the root, with slashes; nothing for other documents. -/
def below? (root document : String) : Option String :=
  match (rootPrefix root).isPrefixOf? (Text.slashes document.toList) with
  | some ('/' :: rest) => some (String.ofList rest)
  | _ => none

/-- The path to record for a document. -/
def recorded (root : Option String) (document : String) : String :=
  match root with
  | some root => (below? root document).getD document
  | none => document

end SourcePath

/-! ## Methods -/

/-- Why a method was left as it was. -/
inductive SkipReason where
  | noBody
  | noSymbols
  | noCoverablePoints
  | alreadyInstrumented
  | misalignedPoint (offset : Nat)
  | invertedPoint (offset : Nat)
  | branchIntoInstruction (source offset : Nat)
  | fallthroughPastEnd (offset : Nat)
  | idsExhausted
  | invalidBody (cause : CodeError)
  deriving DecidableEq, Repr

namespace SkipReason

open Numeral (codeLabel)

def message : SkipReason → String
  | noBody => "method has no body"
  | noSymbols => "method has no symbols"
  | noCoverablePoints => "method has no instrumentable sequence points"
  | alreadyInstrumented => "method already calls the probe"
  | misalignedPoint offset =>
    "sequence point at " ++ codeLabel offset ++ " is not at an instruction"
  | invertedPoint offset => "sequence point at " ++ codeLabel offset ++ " ends before it starts"
  | branchIntoInstruction source offset =>
    codeLabel source ++ " refers to " ++ codeLabel offset ++ ", inside an instruction"
  | fallthroughPastEnd offset =>
    "decision at " ++ codeLabel offset ++ " can fall through past the end of the method"
  | idsExhausted => "no hit ids are left to allocate"
  | invalidBody cause => "unsupported method body: " ++ cause.message

/-- The input is bad, rather than there being nothing to do. -/
def isUnexpected : SkipReason → Bool
  | noBody | noSymbols | noCoverablePoints => false
  | _ => true

/-- The reason why a body cannot be divided into statements. -/
def ofSegmentError : SegmentError → SkipReason
  | .misaligned offset => misalignedPoint offset
  | .invertedLines offset => invertedPoint offset
  | .fallthroughPastEnd offset => fallthroughPastEnd offset

/-- The reason why a reference within a body cannot be resolved. -/
def ofNotABoundary (e : NotABoundary) : SkipReason := branchIntoInstruction e.source e.offset

end SkipReason

/-- A body that can be instrumented. -/
structure PreparedBody where
  stored : MethodBody
  /-- The instructions at their code offsets. -/
  code : List (Instruction Nat)
  labelled : LabelledBody
  statements : List Statement

namespace PreparedBody

/-- The sequence points of a method, of which there is at least one. -/
def readPoints (symbols : SymbolReader) (method : MethodDef) :
    Log × Except SkipReason (List SequencePoint) :=
  match symbols method.token with
  | .ok none | .ok (some []) => ([], .error .noSymbols)
  | .ok (some points) => ([], .ok points)
  | .error message =>
    ([⟨.warn, "unable to read symbols of " ++ method.fullName ++ ": " ++ message⟩],
      .error .noSymbols)

/-- A body that does not call the probe yet, its instructions, and these with indices as
targets. -/
def readCode (probe : Token) (data : Bytes) :
    Except SkipReason (MethodBody × List (Instruction Nat) × LabelledBody) := do
  let stored ← (MethodBody.ofBytes data).mapError .invalidBody
  let code ← (Code.decode stored.code).mapError .invalidBody
  if code.any (·.isCallTo probe) then .error .alreadyInstrumented
  else
    let clauses := stored.clauses.map (·.map UInt32.toNat)
    let labelled ← (LabelledBody.lower code clauses stored.code.length).mapError
      .ofNotABoundary
    .ok (stored, code, labelled)

/-- The document of a point takes part in the coverage. -/
def allows (config : Config) (p : SequencePoint) : Bool :=
  config.filter.accepts (SourcePath.recorded config.sourceRoot p.document)
    (isWindowsPath p.document)

/-- The statements of a body, of which there is at least one. -/
def readStatements (config : Config) (code : List (Instruction Nat))
    (labelled : LabelledBody) (points : List SequencePoint) :
    Log × Except SkipReason (List Statement) :=
  let (log, spans) := Span.segment code points (allows config)
  (log, do
    let spans ← spans.mapError .ofSegmentError
    if spans.isEmpty then .error .noCoverablePoints
    else (Statement.ofSpans config.branches labelled.instructions spans).mapError .ofSegmentError)

/-- Finds out all there is to know about a method, or why it is to be left alone. -/
def prepare (config : Config) (symbols : SymbolReader) (probe : Token) (method : MethodDef) :
    Log × Except SkipReason PreparedBody :=
  match method.body with
  | none => ([], .error .noBody)
  | some data =>
    match readPoints symbols method with
    | (log, .error reason) => (log, .error reason)
    | (log, .ok points) =>
      match readCode probe data with
      | .error reason => (log, .error reason)
      | .ok (stored, code, labelled) =>
        let (more, statements) := readStatements config code labelled points
        (log ++ more, statements.map fun statements => ⟨stored, code, labelled, statements⟩)

/-- The declared stack size of a body: what was declared before if that is enough, and one slot
more than before if the depth is not known. -/
def declaredStack (before : UInt16) : Option Nat → UInt16
  | some depth => max (UInt16.ofNat depth) before
  | none => UInt16.ofNat (min (before.toNat + 1) (UInt16.size - 1))

theorem toNat_declaredStack_some (before : UInt16) (depth : Nat) :
    (declaredStack before (some depth)).toNat =
      max (UInt16.ofNat depth).toNat before.toNat := by
  have hmax : declaredStack before (some depth) =
      if UInt16.ofNat depth ≤ before then before else UInt16.ofNat depth := rfl
  rw [hmax]
  split
  · next hle =>
    rw [UInt16.le_iff_toNat_le] at hle
    omega
  · next hnot =>
    rw [UInt16.le_iff_toNat_le] at hnot
    omega

theorem toNat_declaredStack_none (before : UInt16) :
    (declaredStack before none).toNat = min (before.toNat + 1) (UInt16.size - 1) := by
  have hsize : UInt16.size = 65536 := rfl
  exact UInt16.toNat_ofNat_of_lt' (by omega)

/-- The stored form of the body with the probes of a plan. -/
def assemble (p : PreparedBody) (plan : ProbePlan) (probe : Token)
    (callEffect : Token → Option StackEffect) (name : String) : Log × Except CodeError Bytes :=
  let body := p.labelled.insertProbes plan probe
  let depth := StackDepth.maxStack? body.instructions body.clauses callEffect
  let log := match depth with
    | some _ => []
    | none => [⟨.debug, "using conservative max stack for " ++ name⟩]
  match body.relink with
  | .error e => (log, .error e)
  | .ok relinked =>
    let promoted :=
      if relinked.promoted = 0 then []
      else [⟨.debug, name ++ ": promoted " ++ Numeral.decimal relinked.promoted ++
        " short branches"⟩]
    let stored : MethodBody :=
      { p.stored with
        maxStack := declaredStack p.stored.maxStack depth
        code := relinked.code
        clauses := relinked.clauses.map (·.map UInt32.ofNat) }
    (log ++ promoted, stored.toBytes)

end PreparedBody

end CilCoverage
