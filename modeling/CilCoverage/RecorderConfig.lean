/-
  Configuration of a recording process, from its environment variables.

  A variable that is empty counts as unset.
-/
import CilCoverage.Config
import CilCoverage.Text.Blank

namespace CilCoverage

/-- How a process records hits. -/
structure RecorderConfig where
  hitsDir : String
  /-- Start of the names of hit files. -/
  runId : String
  /-- Milliseconds between flushes in the background, if there are any. -/
  flushInterval : Option UInt64
  /-- Name of the test that the hits belong to. -/
  test : Option String
  deriving DecidableEq, Repr

/-- The flush interval is no number. -/
structure IntervalError where
  text : String
  fault : Numeral.Fault
  deriving DecidableEq, Repr

namespace RecorderConfig

def hitsDirVar : String := "MINICOV_HITS_DIR"
def runIdVar : String := "MINICOV_RUN_ID"
def flushIntervalVar : String := "MINICOV_FLUSH_INTERVAL_MS"
def testVar : String := "MINICOV_TEST"

/-- The run id that holds if nothing is said. -/
def defaultRunId : String := "run"

/-- A configuration with nothing but a directory. -/
def new (hitsDir : String) : RecorderConfig := ⟨hitsDir, defaultRunId, none, none⟩

/-- The flush interval that a variable says; zero means none. -/
def parseInterval (text : String) : Except IntervalError (Option UInt64) :=
  match Numeral.parse (Text.trim text.toList) with
  | .error fault => .error ⟨text, fault⟩
  | .ok 0 => .ok none
  | .ok n => .ok (some (UInt64.ofNat n))

/-- The configuration that environment variables say. -/
def ofVars (vars : String → Option String) : Except IntervalError RecorderConfig := do
  let var := fun name => (vars name).filter fun value => !value.isEmpty
  let interval ← match var flushIntervalVar with
    | none => .ok none
    | some text => parseInterval text
  .ok {
    hitsDir := (var hitsDirVar).getD Config.defaultHitsDir
    runId := (var runIdVar).getD defaultRunId
    flushInterval := interval
    test := var testVar }

end RecorderConfig

def IntervalError.message (e : IntervalError) : String :=
  "invalid " ++ RecorderConfig.flushIntervalVar ++ ": " ++ e.text ++ ": " ++ e.fault.message

end CilCoverage
