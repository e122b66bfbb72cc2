/-
  Hooks that run when a process ends.

  Hooks run in the order in which they were registered and stay registered. A
  hook may register more hooks, and may run all hooks that are registered just
  then; those that are running are not among them.
-/

namespace CilCoverage

mutual

/-- A hook, with what it does each time it runs; after that it does nothing. -/
inductive Hook where
  | mk (name : String) (runs : List (List HookAction))

/-- What a hook can do. -/
inductive HookAction where
  | register (hook : Hook)
  | execute

end

namespace Hook

def name : Hook → String
  | mk name _ => name

mutual

/-- Number of the actions that a hook can do, with those of the hooks that it registers. -/
def weight : Hook → Nat
  | mk _ runs => weightOfRuns runs

def weightOfRuns : List (List HookAction) → Nat
  | [] => 0
  | run :: runs => weightOfRun run + weightOfRuns runs

def weightOfRun : List HookAction → Nat
  | [] => 0
  | action :: actions => weightOfAction action + weightOfRun actions

def weightOfAction : HookAction → Nat
  | .register hook => hook.weight + 1
  | .execute => 1

end

/-- Number of the actions that several hooks can do. -/
def weightOfHooks : List Hook → Nat
  | [] => 0
  | hook :: hooks => hook.weight + weightOfHooks hooks

end Hook

/-- The registered hooks in order. -/
structure Shutdown where
  hooks : List Hook

namespace Shutdown

/-- No hooks. -/
def empty : Shutdown := ⟨[]⟩

/-- Registers a hook. -/
def register (s : Shutdown) (hook : Hook) : Shutdown := ⟨s.hooks ++ [hook]⟩

/-- The registered hooks, and the names of those that ran. -/
structure Trace where
  registered : Shutdown
  ran : List String

/-- Does what a hook does, where `nested` runs all registered hooks. -/
def runActions (nested : Shutdown → Trace) (t : Trace) (actions : List HookAction) : Trace :=
  actions.foldl (fun t action =>
    match action with
    | .register hook => { t with registered := t.registered.register hook }
    | .execute =>
      let u := nested t.registered
      ⟨u.registered, t.ran ++ u.ran⟩) t

/-- Runs a hook; what is left of it is returned as well. -/
def runHook (nested : Shutdown → Trace) (t : Trace) : Hook → Hook × Trace
  | .mk name [] => (.mk name [], { t with ran := t.ran ++ [name] })
  | .mk name (actions :: later) =>
    (.mk name later, runActions nested { t with ran := t.ran ++ [name] } actions)

/-- Runs hooks in order. -/
def runHooks (nested : Shutdown → Trace) (t : Trace) : List Hook → List Hook × Trace
  | [] => ([], t)
  | hook :: rest =>
    let (hook, t) := runHook nested t hook
    let (rest, t) := runHooks nested t rest
    (hook :: rest, t)

/-- Runs all registered hooks, with at most `depth` runs inside each other. Hooks that are
registered meanwhile come after those that ran. -/
def executeWithin : (depth : Nat) → Shutdown → Trace
  | 0, s => ⟨s, []⟩
  | depth + 1, s =>
    let (hooks, t) := runHooks (executeWithin depth) ⟨empty, []⟩ s.hooks
    ⟨⟨hooks ++ t.registered.hooks⟩, t.ran⟩

/-- Runs all registered hooks. No more runs can be inside each other than there are actions. -/
def execute (s : Shutdown) : Trace :=
  executeWithin (Hook.weightOfHooks s.hooks + 1) s

end Shutdown

end CilCoverage
