/-
  Coverage summaries of source files.

  Everything is counted first (`Tally`); counts of files add up. Ratios are
  taken at the end, and what there is nothing of counts as covered. Lines are
  counted once per file, however many statements they hold.
-/
import CilCoverage.CoverageMap
import CilCoverage.HitsStore
import CilCoverage.Threshold

namespace CilCoverage

/-- When a statement counts as covered. -/
inductive HitPolicy where
  /-- It was hit itself. -/
  | independent
  /-- It or one of its branches was hit. -/
  | branchImpliesSequence
  deriving DecidableEq, Repr

namespace HitPolicy

/-- Name of a policy in documents. -/
def name : HitPolicy → String
  | independent => "independent"
  | branchImpliesSequence => "branch_implies_sequence"

/-- The policy with a name. -/
def ofName? (name : String) : Option HitPolicy :=
  [independent, branchImpliesSequence].find? fun p => p.name == name

open Json in
/-- The policy that a JSON value denotes: its name, or an object with null under its name. -/
def ofValue? : Value → Option HitPolicy
  | .string name => ofName? name
  | .object [(name, .null)] => ofName? name
  | _ => none

open Json in
/-- The policy of a JSON text. -/
def ofText (text : String) : Except Fault HitPolicy := do
  match ofValue? (← readDocument (readValue .keep maxDepth) text) with
  | some policy => .ok policy
  | none => .error .mismatch

/-- The statement is covered. -/
def covers (policy : HitPolicy) (hits : Hits) (s : Sequence) : Bool :=
  hits.isHit s.hitId ||
    match policy with
    | independent => false
    | branchImpliesSequence => s.branches.any fun b => hits.isHit b.hitId

end HitPolicy

/-! ## Counting -/

/-- A range of lines, with its first and its last one. -/
abbrev LineRange := Nat × Nat

/-- The lines of a statement; one that ends before it starts has a single line. -/
def Sequence.lineRange (s : Sequence) : LineRange :=
  (s.startLine.toNat, max s.startLine.toNat s.endLine.toNat)

/-- Number of lines from `reached` on, of ranges by their first line. -/
def countLinesFrom (reached : Nat) : List LineRange → Nat
  | [] => 0
  | (first, last) :: rest =>
    (last + 1 - max reached first) + countLinesFrom (max reached (last + 1)) rest

/-- Number of lines that are in at least one range. -/
def countLines (ranges : List LineRange) : Nat :=
  countLinesFrom 0 (ranges.mergeSort fun a b => decide (a.1 ≤ b.1))

/-- How many there are of something, and how many of them are covered. -/
structure Count where
  total : Nat
  covered : Nat
  deriving DecidableEq, Repr

/-- The sum of two counts. -/
def Count.add (a b : Count) : Count := ⟨a.total + b.total, a.covered + b.covered⟩

/-- What was counted in some files. -/
structure Tally where
  statements : Count
  lines : Count
  branches : Count
  deriving DecidableEq, Repr

namespace Tally

/-- The count of no files. -/
def zero : Tally := ⟨⟨0, 0⟩, ⟨0, 0⟩, ⟨0, 0⟩⟩

/-- The sum of two counts. -/
def add (a b : Tally) : Tally :=
  ⟨a.statements.add b.statements, a.lines.add b.lines, a.branches.add b.branches⟩

/-- The count of a file. -/
def ofFile (policy : HitPolicy) (hits : Hits) (file : SourceFile) : Tally :=
  let covered := file.sequences.filter (policy.covers hits)
  let branches := file.sequences.flatMap Sequence.branches
  { statements := ⟨file.sequences.length, covered.length⟩
    lines := ⟨countLines (file.sequences.map Sequence.lineRange),
      countLines (covered.map Sequence.lineRange)⟩
    branches := ⟨branches.length, branches.countP fun b => hits.isHit b.hitId⟩ }

/-- The count of several files. -/
def ofFiles (policy : HitPolicy) (hits : Hits) (files : List SourceFile) : Tally :=
  (files.map (ofFile policy hits)).foldl add zero

end Tally

/-! ## Ratios -/

/-- A count with its ratio. -/
structure Metric where
  count : Count
  percentage : Float
  /-- The ratio reaches the threshold. -/
  pass : Bool

/-- The ratio of a count, measured against a threshold. -/
def Metric.ofCount (threshold : Threshold) (c : Count) : Metric :=
  let percentage :=
    if c.total = 0 then 1
    else (UInt64.ofNat c.covered).toFloat / (UInt64.ofNat c.total).toFloat
  ⟨c, percentage, threshold.value ≤ percentage⟩

/-- The document of a metric. -/
def Metric.toValue (m : Metric) : Json.Value :=
  .object [("total", .integer m.count.total), ("covered", .integer m.count.covered),
    ("percentage", .real m.percentage.toBits), ("pass", .bool m.pass)]

/-- Coverage of some files. -/
structure Summary where
  statements : Metric
  lines : Metric
  branches : Metric

namespace Summary

/-- All ratios reach the threshold. -/
def pass (s : Summary) : Bool := s.statements.pass && s.lines.pass && s.branches.pass

/-- The document of a summary. -/
def toValue (s : Summary) : Json.Value :=
  .object [("statements", s.statements.toValue), ("lines", s.lines.toValue),
    ("branches", s.branches.toValue)]

/-- The summary of a count. -/
def ofTally (threshold : Threshold) (t : Tally) : Summary :=
  ⟨.ofCount threshold t.statements, .ofCount threshold t.lines, .ofCount threshold t.branches⟩

/-- The summary of files. -/
def ofFiles (threshold : Threshold) (policy : HitPolicy) (hits : Hits) (files : List SourceFile) :
    Summary :=
  ofTally threshold (Tally.ofFiles policy hits files)

/-- The summary of a coverage map with the hits in its hits directory. -/
def ofMap (threshold : Threshold) (m : CoverageMap) (hits : HitsDir) : Summary :=
  ofFiles threshold .independent hits.read m.sourceFiles

end Summary

end CilCoverage
