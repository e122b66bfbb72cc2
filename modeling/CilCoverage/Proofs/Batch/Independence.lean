/-
  The assemblies of a batch do not influence each other.

  Of the work before it, an assembly finds the loader and the ids that are left.
  The loader answers what the resolver does, whatever was loaded (`Faithful`),
  and with ids from another supply the outcome is the same but for the ids
  (`instrumentAssembly_alike`). So an assembly that two batches have in common
  ends up alike in both (`batch_independent`).
-/
import CilCoverage.Proofs.Loading
import CilCoverage.Proofs.Renumbering.Methods

namespace CilCoverage

namespace Instrumenter

open HitId HitIds Loader

variable {config : Config} {resolver : Resolver} {loader loader' : Loader} {d : Int} {n : Nat}
  {ids ids' : HitIds}

theorem resolveReferences_faithful (h : Faithful resolver loader) (h' : Faithful resolver loader')
    (assembly : String) (names : List String) :
    let r := resolveReferences resolver assembly loader names
    let r' := resolveReferences resolver assembly loader' names
    Faithful resolver r.2.1 ∧ r'.2.2 = r.2.2 := by
  induction names generalizing loader loader' with
  | nil => exact ⟨h, rfl⟩
  | cons name rest ih =>
    obtain ⟨hanswer, hload⟩ := h.load name
    obtain ⟨hanswer', hload'⟩ := h'.load name
    unfold resolveReferences
    dsimp only
    rw [hanswer, hanswer']
    cases resolver name with
    | error message => exact ⟨hload, rfl⟩
    | ok found => exact ih hload hload'

/-- Whether the assemblies can be resolved does not depend on what was loaded before. -/
theorem resolveAll_faithful (h : Faithful resolver loader) (h' : Faithful resolver loader')
    (probe : ProbeReference) (module : Module) :
    let r := resolveAll resolver probe module loader
    let r' := resolveAll resolver probe module loader'
    Faithful resolver r.2.1 ∧ r'.2.2 = r.2.2 := by
  obtain ⟨hanswer, hload⟩ := h.load probe.assembly
  obtain ⟨hanswer', hload'⟩ := h'.load probe.assembly
  unfold resolveAll
  dsimp only
  rw [hanswer, hanswer']
  cases resolver probe.assembly with
  | error message => exact ⟨hload, rfl⟩
  | ok found =>
    cases found with
    | none => exact ⟨hload, rfl⟩
    | some image =>
      obtain ⟨hfaithful, hresult⟩ :=
        resolveReferences_faithful hload hload' module.name module.references
      exact ⟨hfaithful, congrArg (Except.mapError InstrumentError.resolver) hresult⟩

/-! ## Assemblies -/

/-- What the checks say of a target. -/
inductive Verdict where
  | already
  | refused (e : InstrumentError)
  /-- The probe was imported into the module that is worked on. -/
  | opened (probe : Token) (module : Module)

/-- The checks of a target, with nothing loaded. -/
def Target.verdict (config : Config) (resolver : Resolver) (t : Target) : Verdict :=
  if t.module.instrumented then .already
  else if (checkImage t.module).2 then
    match (resolveAll resolver config.probe t.module .new).2.2 with
    | .error e => .refused e
    | .ok () =>
      match t.module.importProbe config.probe with
      | .error cause => .refused (.probeImport t.module.name cause)
      | .ok (probe, module) => .opened probe module
  else .refused (.notManagedImage t.module.name)

theorem probeToken?_of_verdict {t : Target} {probe : Token} {module : Module}
    (h : t.verdict config resolver = .opened probe module) : module.probeToken? = some probe := by
  unfold Target.verdict at h
  split at h
  · cases h
  · split at h
    · split at h
      · cases h
      · split at h
        · cases h
        · next himport =>
          cases h
          rcases Module.importProbe_eq_ok himport with ⟨hbefore, rfl⟩ | ⟨-, -, rfl⟩
          · rw [Module.probeToken?, hbefore, Option.map_some]
          · rfl
    · cases h

/-- With whatever loaded, the work on an assembly goes by what the checks say with nothing
loaded; only the log and the loader can tell the difference. -/
theorem instrumentAssembly_eq (config : Config) (t : Target) (ids : HitIds)
    (hloader : Faithful resolver loader) :
    ∃ after log, Faithful resolver after ∧
      instrumentAssembly config resolver t.symbols t.module ids loader =
        match t.verdict config resolver with
        | .already => ⟨.ok .alreadyInstrumented, t.module, ids, after, log⟩
        | .refused e => ⟨.error e, t.module, ids, after, log⟩
        | .opened probe module =>
          instrumentMethods config t.symbols module ids probe after log := by
  obtain ⟨hafter, hnew⟩ :=
    resolveAll_faithful hloader (faithful_new resolver) config.probe t.module
  unfold instrumentAssembly Target.verdict
  rw [hnew]
  split
  · exact ⟨_, _, hloader, rfl⟩
  · cases checkImage t.module with
    | mk log managed =>
      cases managed with
      | false => exact ⟨_, _, hloader, rfl⟩
      | true =>
        dsimp only
        rw [if_pos rfl]
        generalize resolveAll resolver config.probe t.module loader = a at hafter
        obtain ⟨more, after, result⟩ := a
        cases result with
        | error e => exact ⟨_, _, hafter, rfl⟩
        | ok found =>
          refine ⟨after, log ++ more, hafter, ?_⟩
          dsimp only
          cases t.module.importProbe config.probe <;> rfl

/-- The number of ids that a target takes. -/
def Target.demand (config : Config) (resolver : Resolver) (t : Target) : Nat :=
  match t.verdict config resolver with
  | .opened probe module => (module.methods.map (methodDemand config t.symbols probe)).sum
  | _ => 0

/-- What became of an assembly, with ids moved by `d`. -/
structure OutcomeAlike (d : Int) (o o' : Except InstrumentError AssemblyOutcome) : Prop where
  mapped : o' = o.map (AssemblyOutcome.mapIds (move d))
  shifted : ∀ id ∈ outcomeIds o, Shift d id (move d id)

theorem OutcomeAlike.error (d : Int) (e : InstrumentError) : OutcomeAlike d (.error e) (.error e) :=
  ⟨rfl, nofun⟩

theorem OutcomeAlike.alreadyInstrumented (d : Int) :
    OutcomeAlike d (.ok .alreadyInstrumented) (.ok .alreadyInstrumented) :=
  ⟨rfl, nofun⟩

theorem instrumentMethods_alike {symbols : SymbolReader} {probe : Token} {module : Module}
    (hprobe : module.probeToken? = some probe)
    (h : Apart d (module.methods.map (methodDemand config symbols probe)).sum ids ids')
    (log log' : Log) :
    let r := instrumentMethods config symbols module ids probe loader log
    let r' := instrumentMethods config symbols module ids' probe loader' log'
    OutcomeAlike d r.outcome r'.outcome ∧ Module.Alike (Shift d) r.module r'.module := by
  have hstart : Progress.Alike d probe _ (.start module ids) (.start module ids') :=
    ⟨.refl module, hprobe, h, rfl, nofun⟩
  obtain ⟨⟨hmodule, -, -, hfiles, hshifted⟩, herror⟩ :=
    Progress.run_alike (n := 0) config symbols module.methods hstart
  unfold instrumentMethods
  generalize (Progress.start module ids).run config symbols probe module.methods = q at *
  generalize (Progress.start module ids').run config symbols probe module.methods = q' at *
  obtain ⟨p, error⟩ := q
  obtain ⟨p', error'⟩ := q'
  dsimp only at hmodule hfiles hshifted herror
  subst herror
  cases error' with
  | some e => exact ⟨.error d e, hmodule⟩
  | none =>
    refine ⟨⟨?_, fun id hid => ?_⟩, hmodule.mark⟩
    · dsimp only
      rw [Progress.sourceFiles_mapIds hfiles]
      rfl
    · rw [outcomeIds_sourceFiles] at hid
      exact hshifted id hid

theorem ids_instrumentMethods (config : Config) (symbols : SymbolReader) (module : Module)
    (ids : HitIds) (probe : Token) (loader : Loader) (log : Log) :
    (instrumentMethods config symbols module ids probe loader log).ids =
      ((Progress.start module ids).run config symbols probe module.methods).1.ids := by
  unfold instrumentMethods
  split
  · next hrun => rw [hrun]
  · next hrun => rw [hrun]

theorem loader_instrumentMethods (config : Config) (symbols : SymbolReader) (module : Module)
    (ids : HitIds) (probe : Token) (loader : Loader) (log : Log) :
    (instrumentMethods config symbols module ids probe loader log).loader = loader := by
  unfold instrumentMethods
  split <;> rfl

theorem faithful_instrumentAssembly (config : Config) (t : Target) (ids : HitIds)
    (hloader : Faithful resolver loader) :
    Faithful resolver
      (instrumentAssembly config resolver t.symbols t.module ids loader).loader := by
  obtain ⟨after, log, hafter, hr⟩ := instrumentAssembly_eq config t ids hloader
  rw [hr]
  split
  · exact hafter
  · exact hafter
  · rw [loader_instrumentMethods]
    exact hafter

/-- What becomes of an assembly depends on the ids that are left in its own ids only, and on what
was loaded before not at all. -/
theorem instrumentAssembly_alike {t : Target} (hloader : Faithful resolver loader)
    (hloader' : Faithful resolver loader') (h : Apart d (t.demand config resolver) ids ids') :
    let r := instrumentAssembly config resolver t.symbols t.module ids loader
    let r' := instrumentAssembly config resolver t.symbols t.module ids' loader'
    OutcomeAlike d r.outcome r'.outcome ∧ Module.Alike (Shift d) r.module r'.module := by
  obtain ⟨after, log, -, hr⟩ := instrumentAssembly_eq config t ids hloader
  obtain ⟨after', log', -, hr'⟩ := instrumentAssembly_eq config t ids' hloader'
  rw [hr, hr']
  cases hverdict : t.verdict config resolver with
  | already => exact ⟨.alreadyInstrumented d, .refl _⟩
  | refused e => exact ⟨.error d e, .refl _⟩
  | opened probe module =>
    rw [Target.demand, hverdict] at h
    exact instrumentMethods_alike (probeToken?_of_verdict hverdict) h log log'

/-- An assembly takes the ids that it demands. -/
theorem next_instrumentAssembly (t : Target) (hloader : Faithful resolver loader)
    (hroom : ids.next.toNat + t.demand config resolver < UInt32.size) :
    (instrumentAssembly config resolver t.symbols t.module ids loader).ids.next.toNat =
      ids.next.toNat + t.demand config resolver := by
  obtain ⟨after, log, -, hr⟩ := instrumentAssembly_eq config t ids hloader
  rw [hr]
  unfold Target.demand at hroom ⊢
  cases hverdict : t.verdict config resolver with
  | already => rfl
  | refused e => rfl
  | opened probe module =>
    rw [hverdict] at hroom
    dsimp only
    rw [ids_instrumentMethods]
    exact Progress.next_run (fun _ hm => Module.isSome_method?_of_mem hm) hroom

/-! ## Batches -/

/-- The number of ids that the targets take together. -/
def demandAll (config : Config) (resolver : Resolver) (targets : List Target) : Nat :=
  (targets.map (Target.demand config resolver)).sum

theorem demandAll_cons (t : Target) (targets : List Target) :
    demandAll config resolver (t :: targets) =
      t.demand config resolver + demandAll config resolver targets := by
  rw [demandAll, List.map_cons, List.sum_cons]
  rfl

/-- What a batch has for a target is what comes of it alone, with some ids and some loader. -/
theorem instrumentAll_at {targets : List Target} (hloader : Faithful resolver loader)
    (hroom : ids.next.toNat + demandAll config resolver targets < UInt32.size) {k : Nat}
    {t : Target} (hk : targets[k]? = some t) :
    ∃ before loaded, Faithful resolver loaded ∧
      before.next.toNat + t.demand config resolver < UInt32.size ∧
        let a := instrumentAssembly config resolver t.symbols t.module before loaded
        let r := instrumentAll config resolver ids loader targets
        r.outcomes[k]? = some (t.module.name, a.outcome) ∧ r.modules[k]? = some a.module := by
  induction targets generalizing ids loader k with
  | nil => cases hk
  | cons first rest ih =>
    rw [demandAll_cons] at hroom
    cases k with
    | zero =>
      obtain rfl := Option.some.inj hk
      exact ⟨ids, loader, hloader, by omega, rfl, rfl⟩
    | succ k =>
      have hfirst : ids.next.toNat + first.demand config resolver < UInt32.size := by omega
      have hnext := next_instrumentAssembly first hloader hfirst
      exact ih (faithful_instrumentAssembly config first ids hloader) (by omega) hk

/-- What becomes of an assembly does not depend on the other assemblies of the batch, on their
order, or on the ids that are left when the batch starts, as long as there are enough: in any two
batches the outcome is the same but for the ids, and the module is the same byte for byte but for
the ids that are loaded for calls of the probe. All these ids are apart by one number. -/
theorem batch_independent (config : Config) (resolver : Resolver) {targets targets' : List Target}
    (hloader : Faithful resolver loader) (hloader' : Faithful resolver loader')
    (hroom : ids.next.toNat + demandAll config resolver targets < UInt32.size)
    (hroom' : ids'.next.toNat + demandAll config resolver targets' < UInt32.size) {k k' : Nat}
    {t : Target} (hk : targets[k]? = some t) (hk' : targets'[k']? = some t) :
    let r := instrumentAll config resolver ids loader targets
    let r' := instrumentAll config resolver ids' loader' targets'
    ∃ d o o' m m', r.outcomes[k]? = some (t.module.name, o) ∧
      r'.outcomes[k']? = some (t.module.name, o') ∧ r.modules[k]? = some m ∧
      r'.modules[k']? = some m' ∧ OutcomeAlike d o o' ∧ Module.Alike (Shift d) m m' := by
  intro r r'
  -- each batch comes to the assembly with some ids and some loader of its own
  obtain ⟨before, loaded, hfaithful, hleft, houtcome, hmodule⟩ :=
    instrumentAll_at hloader hroom hk
  obtain ⟨before', loaded', hfaithful', hright, houtcome', hmodule'⟩ :=
    instrumentAll_at hloader' hroom' hk'
  obtain ⟨d, hapart⟩ := exists_apart hleft hright
  obtain ⟨halike, hmodules⟩ := instrumentAssembly_alike hfaithful hfaithful' hapart
  exact ⟨d, _, _, _, _, houtcome, houtcome', hmodule, hmodule', halike, hmodules⟩

theorem batch_independent_reversed :
    let resolver : Resolver := fun _ => .ok (some [])
    let loader : Loader := ⟨[("Coverage.Runtime", [])], 3⟩
    let ids : HitIds := ⟨5⟩
    let ids' : HitIds := ⟨1000⟩
    let r := instrumentAll Config.standard resolver ids .new mixedTargets
    let r' := instrumentAll Config.standard resolver ids' loader mixedTargets.reverse
    Faithful resolver .new ∧ Faithful resolver loader ∧
      ids.next.toNat + demandAll Config.standard resolver mixedTargets < UInt32.size ∧
      ids'.next.toNat + demandAll Config.standard resolver mixedTargets.reverse < UInt32.size ∧
      r.outcomes.map (fun o => outcomeIds o.2) = [[5], [6, 7, 8], [], []] ∧
      r'.outcomes.map (fun o => outcomeIds o.2) = [[], [], [1000, 1001, 1002], [1003]] ∧
      ∃ d o o' m m', r.outcomes[0]? = some ("a", o) ∧ r'.outcomes[3]? = some ("a", o') ∧
        r.modules[0]? = some m ∧ r'.modules[3]? = some m' ∧ OutcomeAlike d o o' ∧
        Module.Alike (Shift d) m m' := by
  intro resolver loader ids ids' r r'
  have hloader : Faithful resolver loader := by
    intro name image hlookup
    rw [List.lookup_cons] at hlookup
    split at hlookup
    · exact congrArg Except.ok hlookup
    · cases hlookup
  have hroom : ids.next.toNat + demandAll Config.standard resolver mixedTargets < UInt32.size := by
    decide +kernel
  have hroom' : ids'.next.toNat + demandAll Config.standard resolver mixedTargets.reverse <
      UInt32.size := by
    decide +kernel
  have hk : mixedTargets[0]? = some mixedTargets[0] := rfl
  have hk' : mixedTargets.reverse[3]? = some mixedTargets[0] := rfl
  exact ⟨faithful_new resolver, hloader, hroom, hroom', by decide +kernel, by decide +kernel,
    batch_independent Config.standard resolver (faithful_new resolver) hloader hroom hroom' hk hk'⟩

end Instrumenter

end CilCoverage
