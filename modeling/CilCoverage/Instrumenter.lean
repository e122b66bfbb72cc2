/-
  Instrumenting methods, assemblies and batches of assemblies.

  A method that cannot be instrumented is left as it was and the next one is
  looked at; an assembly that fails does not stop the batch. Hit ids come from
  one supply, so that they never collide across assemblies.
-/
import CilCoverage.Image
import CilCoverage.Loader
import CilCoverage.PreparedBody
import CilCoverage.Sha256

namespace CilCoverage

/-- Why an assembly could not be instrumented. -/
inductive InstrumentError where
  | probeAssemblyNotFound (assembly probe : String)
  | notManagedImage (assembly : String)
  /-- The resolver failed. -/
  | resolver (message : String)
  | probeImport (assembly : String) (cause : ModuleError)
  | bodyReplacement (method : String) (cause : ModuleError)
  deriving DecidableEq

def InstrumentError.message : InstrumentError → String
  | probeAssemblyNotFound assembly probe =>
    "probe assembly `" ++ probe ++ "` needed by `" ++ assembly ++ "` could not be resolved"
  | notManagedImage assembly => "`" ++ assembly ++ "` is not a managed image"
  | resolver message => message
  | probeImport assembly cause =>
    "unable to import probe into " ++ assembly ++ ": " ++ cause.message
  | bodyReplacement method cause =>
    "unable to replace body of " ++ method ++ ": " ++ cause.message

/-- A sequence and the document it is in. -/
structure DocumentSequence where
  document : String
  sequence : Sequence
  deriving DecidableEq, Repr

/-- What became of a method. -/
inductive MethodOutcome where
  | instrumented (sequences : List DocumentSequence)
  | skipped (reason : SkipReason)
  deriving DecidableEq

/-- What became of an assembly. -/
inductive AssemblyOutcome where
  | instrumented (assembly : InstrumentedAssembly)
  | alreadyInstrumented
  deriving DecidableEq

namespace Instrumenter

/-! ## Methods -/

/-- The sequences of a method, each with its document. -/
def documentSequences (root : Option String) (code : List (Instruction Nat))
    (method : MethodDef) (statements : List NumberedStatement) : List DocumentSequence :=
  let info : MethodInfo := ⟨method.declaringType, method.name, method.fullName⟩
  statements.map fun s =>
    ⟨SourcePath.recorded root s.span.point.document, s.sequence code.toArray info⟩

/-- A new body for a method with the sequences it reports, or why there is none. -/
structure NewBody where
  result : Except SkipReason (Bytes × List DocumentSequence)
  ids : HitIds
  log : Log

/-- Puts the probes into the body of a method. -/
def newBody (config : Config) (symbols : SymbolReader) (callEffect : Token → Option StackEffect)
    (ids : HitIds) (probe : Token) (method : MethodDef) : NewBody :=
  match PreparedBody.prepare config symbols probe method with
  | (log, .error reason) => ⟨.error reason, ids, log⟩
  | (log, .ok p) =>
    match ids.reserve (Statement.idCountAll p.statements) with
    | none => ⟨.error .idsExhausted, ids, log⟩
    | some (first, ids) =>
      let numbered := NumberedStatement.number first p.statements
      let (more, body) :=
        p.assemble (NumberedStatement.plan numbered) probe callEffect method.fullName
      let sequences := documentSequences config.sourceRoot p.code method numbered
      ⟨(body.mapError .invalidBody).map (·, sequences), ids, log ++ more⟩

/-- What became of a method, and everything that the work on it can change. -/
structure MethodResult where
  outcome : Except InstrumentError MethodOutcome
  module : Module
  ids : HitIds
  log : Log

/-- Instruments a method of a module and replaces its body. -/
def instrumentMethod (config : Config) (symbols : SymbolReader) (module : Module) (ids : HitIds)
    (probe : Token) (method : MethodDef) : MethodResult :=
  let r := newBody config symbols module.callEffect? ids probe method
  match r.result with
  | .error reason => ⟨.ok (.skipped reason), module, r.ids, r.log⟩
  | .ok (body, sequences) =>
    match module.replaceBody method.token body with
    | .ok module => ⟨.ok (.instrumented sequences), module, r.ids, r.log⟩
    | .error cause =>
      ⟨.error (.bodyReplacement method.fullName cause), module, r.ids, r.log⟩

/-! ## Assemblies -/

/-- The log line about a method that was left alone. -/
def skipLine (assembly : String) (method : MethodDef) (reason : SkipReason) : LogLine :=
  ⟨if reason.isUnexpected then .warn else .debug,
    assembly ++ ": skipping " ++ method.fullName ++ ": " ++ reason.message⟩

/-- How far the work on an assembly has come. -/
structure Progress where
  module : Module
  ids : HitIds
  log : Log
  files : OrderedMap String (List Sequence)
  /-- Number of methods instrumented. -/
  instrumented : Nat
  /-- Number of methods left alone. -/
  skipped : Nat

namespace Progress

/-- Nothing has been done yet. -/
def start (module : Module) (ids : HitIds) : Progress := ⟨module, ids, [], .empty, 0, 0⟩

/-- Adds sequences to their files. -/
def addSequences (files : OrderedMap String (List Sequence)) (sequences : List DocumentSequence) :
    OrderedMap String (List Sequence) :=
  sequences.foldl (fun files s => files.upsert s.document fun before => before.getD [] ++ [s.sequence])
    files

/-- Works on the methods in order, up to the first error. -/
def run (config : Config) (symbols : SymbolReader) (probe : Token) (p : Progress) :
    List MethodDef → Progress × Option InstrumentError
  | [] => (p, none)
  | method :: rest =>
    let r := instrumentMethod config symbols p.module p.ids probe method
    let p := { p with module := r.module, ids := r.ids, log := p.log ++ r.log }
    match r.outcome with
    | .error e => (p, some e)
    | .ok (.instrumented sequences) =>
      run config symbols probe
        { p with files := addSequences p.files sequences, instrumented := p.instrumented + 1 } rest
    | .ok (.skipped reason) =>
      run config symbols probe
        { p with log := p.log ++ [skipLine p.module.name method reason], skipped := p.skipped + 1 }
        rest

/-- The source files by path. -/
def sourceFiles (p : Progress) : List SourceFile :=
  p.files.entries.map fun (path, sequences) => ⟨path, sequences⟩

/-- The log line about an assembly that was instrumented. -/
def summaryLine (p : Progress) (assembly : InstrumentedAssembly) : LogLine :=
  ⟨.info, "instrumented " ++ assembly.name ++ ": " ++ Numeral.decimal p.instrumented ++
    " methods, " ++ Numeral.decimal assembly.sequenceCount ++ " sequences, " ++
    Numeral.decimal p.skipped ++ " skipped"⟩

end Progress

/-- Whether an image can be instrumented; one that cannot be parsed cannot. A module built from
parts has no image to look at. -/
def checkImage (module : Module) : Log × Bool :=
  if module.image.isEmpty then ([], true)
  else match Image.isManaged? module.image with
    | some managed => ([], managed)
    | none => ([⟨.warn, module.name ++ ": unable to parse image"⟩], false)

/-- Looks up the references of an assembly; the first failure of the resolver ends it. -/
def resolveReferences (resolver : Resolver) (assembly : String) (loader : Loader) :
    List String → Log × Loader × Except String Unit
  | [] => ([], loader, .ok ())
  | name :: rest =>
    let r := loader.load resolver name
    match r.answer with
    | .error message => (r.log, r.loader, .error message)
    | .ok found =>
      let line := match found with
        | some _ => []
        | none => [⟨.warn, assembly ++ ": unable to resolve referenced assembly " ++ name⟩]
      let (more, loader, result) := resolveReferences resolver assembly r.loader rest
      (r.log ++ line ++ more, loader, result)

/-- Looks up the probe's assembly, which has to be there, and then the references. -/
def resolveAll (resolver : Resolver) (probe : ProbeReference) (module : Module) (loader : Loader) :
    Log × Loader × Except InstrumentError Unit :=
  let r := loader.load resolver probe.assembly
  match r.answer with
  | .error message => (r.log, r.loader, .error (.resolver message))
  | .ok none => (r.log, r.loader, .error (.probeAssemblyNotFound module.name probe.assembly))
  | .ok (some _) =>
    let (more, loader, result) :=
      resolveReferences resolver module.name r.loader module.references
    (r.log ++ more, loader, result.mapError .resolver)

/-- What became of an assembly, and everything that the work on it can change. -/
structure AssemblyResult where
  outcome : Except InstrumentError AssemblyOutcome
  module : Module
  ids : HitIds
  loader : Loader
  log : Log

/-- Instruments the methods of a module that passed all checks. -/
def instrumentMethods (config : Config) (symbols : SymbolReader) (module : Module)
    (ids : HitIds) (probe : Token) (loader : Loader) (log : Log) : AssemblyResult :=
  match (Progress.start module ids).run config symbols probe module.methods with
  | (p, some e) => ⟨.error e, p.module, p.ids, loader, log ++ p.log⟩
  | (p, none) =>
    let assembly : InstrumentedAssembly :=
      ⟨module.name, (Sha256.digest module.image).toHex, p.sourceFiles⟩
    ⟨.ok (.instrumented assembly), p.module.mark, p.ids, loader,
      log ++ p.log ++ [p.summaryLine assembly]⟩

/-- Instruments the methods of a module. -/
def instrumentAssembly (config : Config) (resolver : Resolver) (symbols : SymbolReader)
    (module : Module) (ids : HitIds) (loader : Loader) : AssemblyResult :=
  if module.instrumented then
    ⟨.ok .alreadyInstrumented, module, ids, loader,
      [⟨.info, module.name ++ " is already instrumented"⟩]⟩
  else match checkImage module with
    | (log, false) => ⟨.error (.notManagedImage module.name), module, ids, loader, log⟩
    | (log, true) =>
      match resolveAll resolver config.probe module loader with
      | (more, loader, .error e) => ⟨.error e, module, ids, loader, log ++ more⟩
      | (more, loader, .ok ()) =>
        match module.importProbe config.probe with
        | .error cause =>
          ⟨.error (.probeImport module.name cause), module, ids, loader, log ++ more⟩
        | .ok (probe, module) =>
          instrumentMethods config symbols module ids probe loader (log ++ more)

/-! ## Batches -/

/-- An assembly to instrument. -/
structure Target where
  module : Module
  symbols : SymbolReader

/-- What became of an assembly of a batch. -/
abbrev NamedOutcome := String × Except InstrumentError AssemblyOutcome

/-- What became of the assemblies of a batch, and everything that the work on them can change. -/
structure BatchResult where
  outcomes : List NamedOutcome
  modules : List Module
  ids : HitIds
  loader : Loader
  log : Log

/-- The log lines about an assembly that failed. -/
def failureLines (name : String) : Except InstrumentError AssemblyOutcome → Log
  | .ok _ => []
  | .error e => [⟨.error, "unable to instrument " ++ name ++ ": " ++ e.message⟩]

/-- Instruments assemblies one after the other. -/
def instrumentAll (config : Config) (resolver : Resolver) (ids : HitIds) (loader : Loader) :
    List Target → BatchResult
  | [] => ⟨[], [], ids, loader, []⟩
  | t :: ts =>
    let r := instrumentAssembly config resolver t.symbols t.module ids loader
    let name := t.module.name
    let rest := instrumentAll config resolver r.ids r.loader ts
    { outcomes := (name, r.outcome) :: rest.outcomes
      modules := r.module :: rest.modules
      ids := rest.ids
      loader := rest.loader
      log := r.log ++ failureLines name r.outcome ++ rest.log }

/-- The map of the assemblies that were instrumented. -/
def coverageMap (config : Config) (outcomes : List NamedOutcome) : CoverageMap where
  sourceRoot := config.sourceRoot
  hitsDir := config.hitsDir
  assemblies := outcomes.filterMap fun
    | (_, .ok (.instrumented assembly)) => some assembly
    | _ => none

end Instrumenter

end CilCoverage
