/-
  Recording hits in a process.

  A hit is counted by the innermost context in scope on its thread, or else by
  the context that is installed for the process. Flushing a context writes all
  its counts to its own file, so that flushing again changes nothing. A context
  that is replaced is flushed, and the installed one is flushed at shutdown, by
  a hook that the first installation registers.
-/
import CilCoverage.Counters
import CilCoverage.HitsStore
import CilCoverage.RecorderConfig
import CilCoverage.Shutdown

namespace CilCoverage

/-- Counts, and the file that they are flushed to. -/
structure HitContext where
  counters : Counters
  hitsDir : String
  fileName : String
  test : Option String

/-- A context could not be flushed. -/
structure FlushError where
  /-- Path of its file. -/
  path : String
  cause : StoreError
  deriving DecidableEq, Repr

def FlushError.message (e : FlushError) : String :=
  "unable to flush hits to " ++ e.path ++ ": " ++ e.cause.message

namespace HitContext

/-- A context without hits; `unique` is a number that no other context has. -/
def new (config : RecorderConfig) (process unique : Nat) : HitContext where
  counters := .zero
  hitsDir := config.hitsDir
  fileName := HitsDir.newFileName config.runId process unique
  test := config.test

/-- Counts hits. -/
def hit (c : HitContext) (id : HitId) (times : Nat) : HitContext :=
  { c with counters := c.counters.incrementTimes id times }

/-- Writes all counts to the file of the context. -/
def flush (c : HitContext) (d : HitsDir) : HitsDir × Except FlushError Unit :=
  let (written, result) := d.write c.fileName (HitFile.new c.test c.counters.snapshot)
  (written, result.mapError (⟨d.filePath c.fileName, ·⟩))

end HitContext

/-- Number of a context among those of a process. -/
abbrev ContextId := Nat

/-- The context of a process. -/
structure InstalledContext where
  context : ContextId
  /-- It is flushed in the background, and once more when that ends. -/
  periodic : Bool
  deriving DecidableEq, Repr

/-- A recording process. -/
structure Recorder where
  /-- Number of the process. -/
  process : Nat
  /-- All contexts made so far. -/
  contexts : List HitContext
  installed : Option InstalledContext
  /-- The context in scope on the thread. -/
  scope : Option ContextId
  /-- The hook that flushes the installed context was registered, which is done once. -/
  hooked : Bool
  /-- What runs at shutdown. -/
  hooks : Shutdown
  /-- The files that hits are written to. -/
  files : FileSystem

namespace Recorder

/-- A process that has recorded nothing. -/
def start (process : Nat) : Recorder := ⟨process, [], none, none, false, .empty, .empty⟩

/-! ## Contexts -/

/-- The hits directory at a path. -/
def dir (r : Recorder) (path : String) : HitsDir := ⟨path, r.files⟩

/-- Takes over what became of the files in and around a hits directory. -/
def setDir (r : Recorder) (d : HitsDir) : Recorder := { r with files := d.files }

/-- Makes a context, whose file name no other context of the process has. -/
def newContext (r : Recorder) (config : RecorderConfig) : ContextId × Recorder :=
  let id := r.contexts.length
  (id, { r with contexts := r.contexts ++ [HitContext.new config r.process id] })

/-- Counts hits in a context. -/
def hitIn (r : Recorder) (context : ContextId) (id : HitId) (times : Nat) : Recorder :=
  { r with contexts := r.contexts.modify context fun c => c.hit id times }

/-- Flushes a context. -/
def flushContext (r : Recorder) (context : ContextId) : Recorder × Except FlushError Unit :=
  match r.contexts[context]? with
  | none => (r, .ok ())
  | some c =>
    let (d, result) := c.flush (r.dir c.hitsDir)
    (r.setDir d, result)

/-- Flushes a context and passes over a failure. -/
def tryFlush (r : Recorder) (context : ContextId) : Recorder := (r.flushContext context).1

/-! ## The current context -/

/-- The context that a thread records to, which has `scope` in scope. -/
def contextFor (r : Recorder) (scope : Option ContextId) : Option ContextId :=
  scope <|> r.installed.map (·.context)

/-- The context that the thread records to. -/
def current (r : Recorder) : Option ContextId := r.contextFor r.scope

/-- Counts hits on a thread that has `scope` in scope. -/
def hitFrom (r : Recorder) (scope : Option ContextId) (id : HitId) (times : Nat) : Recorder :=
  match r.contextFor scope with
  | some context => r.hitIn context id times
  | none => r

/-- Counts hits. -/
def hit (r : Recorder) (id : HitId) (times : Nat) : Recorder := r.hitFrom r.scope id times

/-- Runs `body` with a context in scope. However it ends, what was in scope before is again. -/
def withContext {α : Type} (r : Recorder) (context : ContextId) (body : Recorder → α × Recorder) :
    α × Recorder :=
  let (a, after) := body { r with scope := some context }
  (a, { after with scope := r.scope })

/-- Flushes the current context. -/
def flush (r : Recorder) : Recorder × Except FlushError Unit :=
  match r.current with
  | some context => r.flushContext context
  | none => (r, .ok ())

/-! ## The context of the process -/

/-- Flushes a context that is no longer installed, once more if it was flushed in the
background. -/
def release (r : Recorder) (previous : InstalledContext) : Recorder :=
  let r := r.tryFlush previous.context
  if previous.periodic then r.tryFlush previous.context else r

/-- The hook that flushes whatever context is installed when it runs. -/
def flushHook : Hook := .mk "flush" []

/-- Registers the hook, unless that was done before. -/
def hookOnce (r : Recorder) : Recorder :=
  if r.hooked then r else { r with hooked := true, hooks := r.hooks.register flushHook }

/-- Installs a new context in place of the present one. -/
def install (r : Recorder) (config : RecorderConfig) : ContextId × Recorder :=
  let (id, made) := r.newContext config
  let installed := { made.hookOnce with installed := some ⟨id, config.flushInterval.isSome⟩ }
  (id, match r.installed with
    | some previous => installed.release previous
    | none => installed)

/-- Flushes the installed context. -/
def flushInstalled (r : Recorder) : Recorder :=
  match r.installed with
  | some i => r.tryFlush i.context
  | none => r

/-- What the run of a hook changes but the hooks. -/
def afterHook (r : Recorder) (name : String) : Recorder :=
  if name = flushHook.name then r.flushInstalled else r

/-- Runs the hooks. -/
def shutdown (r : Recorder) : Recorder :=
  let t := r.hooks.execute
  t.ran.foldl afterHook { r with hooks := t.registered }

/-! ## Flushing in the background -/

/-- A context that is flushed at intervals. -/
structure PeriodicFlush where
  context : ContextId
  deriving DecidableEq, Repr

/-- What happens at the end of an interval. -/
def PeriodicFlush.tick (p : PeriodicFlush) (r : Recorder) : Recorder := r.tryFlush p.context

/-- The end of the flushing, which flushes one last time. -/
def PeriodicFlush.stop (p : PeriodicFlush) (r : Recorder) : Recorder := r.tryFlush p.context

/-- The file of a context exists. -/
def fileExists (r : Recorder) (context : ContextId) : Bool :=
  match r.contexts[context]? with
  | none => false
  | some c => (r.dir c.hitsDir).contains c.fileName

end Recorder

end CilCoverage
