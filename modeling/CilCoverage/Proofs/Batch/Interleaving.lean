/-
  Batches whose targets are worked on side by side.

  A target is a job of its own; the ids and the loader are shared. One step of
  a job makes one look-up, or works on one method, and so takes ids at most
  once (`Job.advance`); what it can make of the job is said by `Job.turn`. A
  schedule says whose turn it is (`Batch.run`).

  Working on the targets one after the other is one of the schedules: a job
  that has all the turns ends as `instrumentAssembly` says (`advances_alone`),
  so there is a schedule with the outcomes of `instrumentAll`
  (`exists_schedule`).
-/
import CilCoverage.Proofs.Outcomes
import Mathlib.Logic.Relation

namespace CilCoverage.Instrumenter

/-- What the jobs of a batch have in common. -/
structure Shared where
  ids : HitIds
  loader : Loader

/-- How far the work on a target has come. -/
inductive Stage where
  /-- Nothing was looked at. -/
  | waiting
  /-- The probe's assembly is there; these references are still to be looked up. -/
  | resolving (names : List String)
  /-- The probe was imported into `opened`; these methods are still to be worked on. -/
  | working (probe : Token) (opened : Module) (progress : Progress) (methods : List MethodDef)
  | finished (outcome : Except InstrumentError AssemblyOutcome) (module : Module)

/-- No method can be worked on yet. -/
inductive Stage.Early : Stage → Prop where
  | waiting : Early .waiting
  | resolving {names : List String} : Early (.resolving names)

/-- A target and the work on it. -/
structure Job where
  target : Target
  stage : Stage

namespace Job

/-- A target that nobody has looked at. -/
def start (t : Target) : Job := ⟨t, .waiting⟩

/-- The job is done, and the module is left like this. -/
def finish (j : Job) (outcome : Except InstrumentError AssemblyOutcome) (module : Module) : Job :=
  { j with stage := .finished outcome module }

/-- The job failed before the module was changed. -/
def fail (j : Job) (e : InstrumentError) : Job := j.finish (.error e) j.target.module

/-- One step of a job. Two jobs that miss one image in the loader at once are given the same
answer, so a look-up is one step. -/
def advance (config : Config) (resolver : Resolver) (s : Shared) (j : Job) : Shared × Job :=
  let module := j.target.module
  match j.stage with
  | .waiting =>
    if module.instrumented then (s, j.finish (.ok .alreadyInstrumented) module)
    else if (checkImage module).2 = false then (s, j.fail (.notManagedImage module.name))
    else
      let r := s.loader.load resolver config.probe.assembly
      let s := { s with loader := r.loader }
      match r.answer with
      | .error message => (s, j.fail (.resolver message))
      | .ok none => (s, j.fail (.probeAssemblyNotFound module.name config.probe.assembly))
      | .ok (some _) => (s, { j with stage := .resolving module.references })
  | .resolving (name :: names) =>
    let r := s.loader.load resolver name
    let s := { s with loader := r.loader }
    match r.answer with
    | .error message => (s, j.fail (.resolver message))
    | .ok _ => (s, { j with stage := .resolving names })
  | .resolving [] =>
    match module.importProbe config.probe with
    | .error cause => (s, j.fail (.probeImport module.name cause))
    | .ok (probe, opened) =>
      (s, { j with stage := .working probe opened (.start opened s.ids) opened.methods })
  | .working probe opened p (method :: methods) =>
    match ({ p with ids := s.ids }).run config j.target.symbols probe [method] with
    | (q, some e) => ({ s with ids := q.ids }, j.finish (.error e) q.module)
    | (q, none) => ({ s with ids := q.ids }, { j with stage := .working probe opened q methods })
  | .working _ opened p [] =>
    (s, j.finish
      (.ok (.instrumented ⟨opened.name, (Sha256.digest opened.image).toHex, p.sourceFiles⟩))
      p.module.mark)
  | .finished _ _ => (s, j)

/-- What became of the target, once the job is done. -/
def outcome? (j : Job) : Option NamedOutcome :=
  match j.stage with
  | .finished outcome _ => some (j.target.module.name, outcome)
  | _ => none

/-- What a step makes of the stage of a job and of the ids. -/
inductive Turn (config : Config) (ids : HitIds) (t : Target) : Stage → HitIds → Stage → Prop where
  | already : Turn config ids t .waiting ids (.finished (.ok .alreadyInstrumented) t.module)
  /-- A check or a look-up failed. -/
  | refused {stage : Stage} (hearly : stage.Early) (e : InstrumentError) :
    Turn config ids t stage ids (.finished (.error e) t.module)
  | lookedUp {stage : Stage} (hearly : stage.Early) (names : List String) :
    Turn config ids t stage ids (.resolving names)
  | opened {probe : Token} {opened : Module}
    (himport : t.module.importProbe config.probe = .ok (probe, opened)) :
    Turn config ids t (.resolving []) ids
      (.working probe opened (.start opened ids) opened.methods)
  | worked {probe : Token} {opened : Module} {p q : Progress} {method : MethodDef}
    {methods : List MethodDef}
    (hrun : ({ p with ids := ids }).run config t.symbols probe [method] = (q, none)) :
    Turn config ids t (.working probe opened p (method :: methods)) q.ids
      (.working probe opened q methods)
  | failed {probe : Token} {opened : Module} {p q : Progress} {method : MethodDef}
    {methods : List MethodDef} {e : InstrumentError}
    (hrun : ({ p with ids := ids }).run config t.symbols probe [method] = (q, some e)) :
    Turn config ids t (.working probe opened p (method :: methods)) q.ids
      (.finished (.error e) q.module)
  | closed {probe : Token} {opened : Module} {p : Progress} :
    Turn config ids t (.working probe opened p []) ids
      (.finished
        (.ok (.instrumented ⟨opened.name, (Sha256.digest opened.image).toHex, p.sourceFiles⟩))
        p.module.mark)
  | rested {outcome : Except InstrumentError AssemblyOutcome} {module : Module} :
    Turn config ids t (.finished outcome module) ids (.finished outcome module)

/-- Every step of a job is such a turn, and the job keeps its target. -/
theorem turn (config : Config) (resolver : Resolver) (s : Shared) (j : Job) :
    ∃ stage, (j.advance config resolver s).2 = ⟨j.target, stage⟩ ∧
      Turn config s.ids j.target j.stage (j.advance config resolver s).1.ids stage := by
  obtain ⟨t, stage⟩ := j
  unfold advance
  cases stage with
  | waiting =>
    dsimp only
    split
    · exact ⟨_, rfl, .already⟩
    · split
      · exact ⟨_, rfl, .refused .waiting _⟩
      · split
        · exact ⟨_, rfl, .refused .waiting _⟩
        · exact ⟨_, rfl, .refused .waiting _⟩
        · exact ⟨_, rfl, .lookedUp .waiting _⟩
  | resolving names =>
    cases names with
    | nil =>
      dsimp only
      split
      · exact ⟨_, rfl, .refused .resolving _⟩
      · next himport => exact ⟨_, rfl, .opened himport⟩
    | cons name names =>
      dsimp only
      split
      · exact ⟨_, rfl, .refused .resolving _⟩
      · exact ⟨_, rfl, .lookedUp .resolving _⟩
  | working probe opened p methods =>
    cases methods with
    | nil => exact ⟨_, rfl, .closed⟩
    | cons method methods =>
      dsimp only
      split
      · next hrun => exact ⟨_, rfl, .failed hrun⟩
      · next hrun => exact ⟨_, rfl, .worked hrun⟩
  | finished outcome module => exact ⟨_, rfl, .rested⟩

end Job

/-- The jobs of a batch. -/
structure Batch where
  shared : Shared
  jobs : List Job

namespace Batch

/-- Nothing was done. -/
def start (ids : HitIds) (loader : Loader) (targets : List Target) : Batch :=
  ⟨⟨ids, loader⟩, targets.map Job.start⟩

/-- It is the turn of job `k`, if there is one. -/
def advance (config : Config) (resolver : Resolver) (b : Batch) (k : Nat) : Batch :=
  match b.jobs[k]? with
  | none => b
  | some j =>
    let (shared, j) := j.advance config resolver b.shared
    ⟨shared, b.jobs.set k j⟩

/-- The jobs take turns. -/
def run (config : Config) (resolver : Resolver) (b : Batch) (schedule : List Nat) : Batch :=
  schedule.foldl (advance config resolver) b

/-- What became of the targets, once all jobs are done. -/
def outcomes? (b : Batch) : Option (List NamedOutcome) := b.jobs.mapM Job.outcome?

end Batch

/-! ## One job alone -/

/-- A job gets from one state to another if it has all the turns. -/
def Advances (config : Config) (resolver : Resolver) : Shared × Job → Shared × Job → Prop :=
  Relation.ReflTransGen fun a b => a.2.advance config resolver a.1 = b

variable {config : Config} {resolver : Resolver}

theorem advances_step {s : Shared} {j : Job} {b : Shared × Job}
    (h : j.advance config resolver s = b) : Advances config resolver (s, j) b :=
  .single h

/-- How the look-ups end. -/
def lookedUp (t : Target) : Except InstrumentError Unit → Job
  | .ok () => ⟨t, .resolving []⟩
  | .error e => (Job.start t).fail e

theorem advances_resolving (t : Target) (ids : HitIds) (loader : Loader) (names : List String) :
    let r := resolveReferences resolver t.module.name loader names
    Advances config resolver (⟨ids, loader⟩, ⟨t, .resolving names⟩)
      (⟨ids, r.2.1⟩, lookedUp t (r.2.2.mapError .resolver)) := by
  induction names generalizing loader with
  | nil => exact .refl
  | cons name names ih =>
    have hstep : ((⟨t, .resolving (name :: names)⟩ : Job).advance config resolver ⟨ids, loader⟩) =
        match (loader.load resolver name).answer with
        | .error message => (⟨ids, (loader.load resolver name).loader⟩,
            (Job.start t).fail (.resolver message))
        | .ok _ => (⟨ids, (loader.load resolver name).loader⟩, ⟨t, .resolving names⟩) := rfl
    unfold resolveReferences
    dsimp only
    cases hanswer : (loader.load resolver name).answer with
    | error message =>
      rw [hanswer] at hstep
      exact advances_step hstep
    | ok found =>
      rw [hanswer] at hstep
      exact .head hstep (ih _)

/-- A job whose target may be instrumented looks up the probe's assembly and then the references. -/
theorem advances_waiting (t : Target) (ids : HitIds) (loader : Loader)
    (hmark : t.module.instrumented = false) (himage : (checkImage t.module).2 = true) :
    let r := resolveAll resolver config.probe t.module loader
    Advances config resolver (⟨ids, loader⟩, Job.start t) (⟨ids, r.2.1⟩, lookedUp t r.2.2) := by
  have hstep : (Job.start t).advance config resolver ⟨ids, loader⟩ =
      let r := loader.load resolver config.probe.assembly
      match r.answer with
      | .error message => (⟨ids, r.loader⟩, (Job.start t).fail (.resolver message))
      | .ok none => (⟨ids, r.loader⟩,
          (Job.start t).fail (.probeAssemblyNotFound t.module.name config.probe.assembly))
      | .ok (some _) => (⟨ids, r.loader⟩, ⟨t, .resolving t.module.references⟩) := by
    simp only [Job.advance, Job.start, hmark, himage, Bool.false_eq_true, Bool.true_eq_false,
      if_false]
  unfold resolveAll
  dsimp only at hstep ⊢
  cases hanswer : (loader.load resolver config.probe.assembly).answer with
  | error message =>
    rw [hanswer] at hstep
    exact advances_step hstep
  | ok found =>
    rw [hanswer] at hstep
    cases found with
    | none => exact advances_step hstep
    | some image => exact .head hstep (advances_resolving t ids _ _)

/-- How the work on methods ends. -/
def worked (t : Target) (probe : Token) (opened : Module) : Progress × Option InstrumentError → Job
  | (q, none) => ⟨t, .working probe opened q []⟩
  | (q, some e) => (Job.start t).finish (.error e) q.module

theorem advances_working (t : Target) (probe : Token) (opened : Module) (p : Progress)
    (loader : Loader) (methods : List MethodDef) :
    Advances config resolver (⟨p.ids, loader⟩, ⟨t, .working probe opened p methods⟩)
      (⟨(p.run config t.symbols probe methods).1.ids, loader⟩,
        worked t probe opened (p.run config t.symbols probe methods)) := by
  induction methods generalizing p with
  | nil => exact .refl
  | cons method methods ih =>
    have hstep : ((⟨t, .working probe opened p (method :: methods)⟩ : Job).advance config resolver
          ⟨p.ids, loader⟩) =
        match p.run config t.symbols probe [method] with
        | (q, some e) => (⟨q.ids, loader⟩, (Job.start t).finish (.error e) q.module)
        | (q, none) => (⟨q.ids, loader⟩, ⟨t, .working probe opened q methods⟩) := rfl
    -- a turn works on one method, as the run over all of them does first
    rw [run_cons]
    cases hrun : p.run config t.symbols probe [method] with
    | mk q error =>
      rw [hrun] at hstep
      cases error with
      | none => exact .head hstep (ih q)
      | some e => exact advances_step hstep

/-- A module that passed all checks is instrumented as a whole. -/
theorem advances_methods (t : Target) (ids : HitIds) (loader : Loader) (probe : Token)
    (opened : Module) (log : Log) :
    let r := instrumentMethods config t.symbols opened ids probe loader log
    Advances config resolver
      (⟨ids, loader⟩, ⟨t, .working probe opened (.start opened ids) opened.methods⟩)
      (⟨r.ids, r.loader⟩, ⟨t, .finished r.outcome r.module⟩) := by
  have hwork : Advances config resolver
      (⟨ids, loader⟩, ⟨t, .working probe opened (.start opened ids) opened.methods⟩) _ :=
    advances_working t probe opened (.start opened ids) loader opened.methods
  unfold instrumentMethods
  cases hrun : (Progress.start opened ids).run config t.symbols probe opened.methods with
  | mk q error =>
    rw [hrun] at hwork
    cases error with
    | none => exact .tail hwork rfl
    | some e => exact hwork

/-- A job that has all the turns ends as if the target was the only one. -/
theorem advances_alone (t : Target) (ids : HitIds) (loader : Loader) :
    let r := instrumentAssembly config resolver t.symbols t.module ids loader
    Advances config resolver (⟨ids, loader⟩, Job.start t)
      (⟨r.ids, r.loader⟩, ⟨t, .finished r.outcome r.module⟩) := by
  -- the cases follow the checks; each one that fails ends the job
  unfold instrumentAssembly
  cases hmark : t.module.instrumented with
  | true =>
    apply advances_step
    simp [Job.advance, Job.start, Job.finish, hmark]
  | false =>
    cases himage : checkImage t.module with
    | mk log managed =>
      cases managed with
      | false =>
        apply advances_step
        simp [Job.advance, Job.start, Job.fail, Job.finish, hmark, himage]
      | true =>
        have hwaiting : Advances config resolver (⟨ids, loader⟩, Job.start t) _ :=
          advances_waiting t ids loader hmark (by rw [himage])
        simp only [Bool.false_eq_true, if_false]
        cases hresolve : resolveAll resolver config.probe t.module loader with
        | mk more rest =>
          obtain ⟨loader', result⟩ := rest
          rw [hresolve] at hwaiting
          cases result with
          | error e => exact hwaiting
          | ok found =>
            have himport : (lookedUp t (.ok found)).advance config resolver ⟨ids, loader'⟩ =
                match t.module.importProbe config.probe with
                | .error cause =>
                  (⟨ids, loader'⟩, (Job.start t).fail (.probeImport t.module.name cause))
                | .ok (probe, opened) => (⟨ids, loader'⟩,
                    ⟨t, .working probe opened (.start opened ids) opened.methods⟩) := rfl
            dsimp only
            cases hprobe : t.module.importProbe config.probe with
            | error cause =>
              rw [hprobe] at himport
              exact .tail hwaiting himport
            | ok imported =>
              obtain ⟨probe, opened⟩ := imported
              rw [hprobe] at himport
              exact .trans hwaiting (.head himport (advances_methods ..))

/-! ## One job after the other -/

/-- What one job does alone it does in a batch, when it has the turns. -/
theorem exists_turns {a b : Shared × Job} (h : Advances config resolver a b)
    (before after : List Job) :
    ∃ schedule, Batch.run config resolver ⟨a.1, before ++ a.2 :: after⟩ schedule =
      ⟨b.1, before ++ b.2 :: after⟩ := by
  induction h using Relation.ReflTransGen.head_induction_on with
  | refl => exact ⟨[], rfl⟩
  | @head a c hstep _ ih =>
    obtain ⟨schedule, hschedule⟩ := ih
    have hadvance : Batch.advance config resolver ⟨a.1, before ++ a.2 :: after⟩ before.length =
        ⟨c.1, before ++ c.2 :: after⟩ := by
      simp [Batch.advance, hstep]
    exact ⟨before.length :: schedule, by rw [Batch.run, List.foldl_cons, hadvance]; exact hschedule⟩

theorem run_append (b : Batch) (first second : List Nat) :
    b.run config resolver (first ++ second) =
      (b.run config resolver first).run config resolver second :=
  List.foldl_append

/-- Some schedule works on the targets one after the other. -/
theorem exists_schedule_from (targets : List Target) (before : List Job) (ids : HitIds)
    (loader : Loader) :
    let r := instrumentAll config resolver ids loader targets
    ∃ schedule done,
      Batch.run config resolver ⟨⟨ids, loader⟩, before ++ targets.map Job.start⟩ schedule =
        ⟨⟨r.ids, r.loader⟩, before ++ done⟩ ∧
      done.mapM Job.outcome? = some r.outcomes := by
  induction targets generalizing before ids loader with
  | nil => exact ⟨[], [], rfl, rfl⟩
  | cons t ts ih =>
    let a := instrumentAssembly config resolver t.symbols t.module ids loader
    let ended : Job := ⟨t, .finished a.outcome a.module⟩
    have halone : Advances config resolver (⟨ids, loader⟩, Job.start t)
        (⟨a.ids, a.loader⟩, ended) := advances_alone t ids loader
    -- the first target has the turns until it is done, and then counts as one of `before`
    obtain ⟨first, hfirst⟩ := exists_turns halone before (ts.map Job.start)
    obtain ⟨second, done, hsecond, houtcomes⟩ := ih (before ++ [ended]) a.ids a.loader
    refine ⟨first ++ second, ended :: done, ?_, ?_⟩
    · rw [run_append, List.map_cons, hfirst]
      simp only [List.append_assoc, List.singleton_append] at hsecond
      exact hsecond
    · rw [List.mapM_cons, houtcomes]
      rfl

/-- Working on the targets one after the other is one of the ways to take turns. -/
theorem exists_schedule (config : Config) (resolver : Resolver) (ids : HitIds) (loader : Loader)
    (targets : List Target) :
    let r := instrumentAll config resolver ids loader targets
    ∃ schedule,
      ((Batch.start ids loader targets).run config resolver schedule).outcomes? =
        some r.outcomes ∧
      ((Batch.start ids loader targets).run config resolver schedule).shared.ids = r.ids := by
  obtain ⟨schedule, done, hrun, houtcomes⟩ := exists_schedule_from targets [] ids loader
  refine ⟨schedule, ?_, ?_⟩
  · rw [Batch.start, Batch.outcomes?, ← houtcomes]
    exact congrArg (fun b : Batch => b.jobs.mapM Job.outcome?) hrun
  · exact congrArg (fun b : Batch => b.shared.ids) hrun

end CilCoverage.Instrumenter
