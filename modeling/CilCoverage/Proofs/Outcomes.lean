/-
  What instrumenting a method or an assembly leaves behind.

  Everything that can go wrong with a method is found before ids are reserved:
  the body that is put together then can be laid out, since it is well formed,
  and written, since it has as many clauses as before
  (`Numbered.exists_stored`). So a method either is left alone, with the module
  and the ids as they were, or takes its ids and gets a new body
  (`effect_of_instrumentMethod`). No method of a module is refused by it, so an
  assembly fails only before its first method (`run_eq_none`).
-/
import CilCoverage.Proofs.Idempotence

namespace CilCoverage

/-- A stored body has room for its clauses when they are written in the wide format. -/
def MethodDef.FewClauses (method : MethodDef) : Prop :=
  ∀ data stored, method.body = some data → MethodBody.ofBytes data = .ok stored →
    stored.clauses.length ≤ 699050

theorem MethodDef.fewClauses_of_count {method : MethodDef} (count : Nat)
    (h : (method.body.map fun data =>
      (MethodBody.ofBytes data).map fun b => b.clauses.length) = some (.ok count))
    (hcount : count ≤ 699050) : method.FewClauses := by
  intro data stored hdata hstored
  rw [hdata, Option.map_some, hstored] at h
  have hlen : stored.clauses.length = count := Except.ok.inj (Option.some.inj h)
  omega

namespace Instrumenter

open LabelledBody PreparedBody

/-! ## Methods -/

theorem Rewriting.length_clauses {symbols : SymbolReader} {probe : Token} {method : MethodDef}
    {p : PreparedBody} {ns : List NumberedStatement} {is : List (Instruction Nat)} {r : Relinked}
    (hw : Rewriting symbols probe method p ns is r) :
    r.clauses.length = p.stored.clauses.length := by
  have hlowered := hw.prepared.lowered.2.length_eq
  rw [List.length_map] at hlowered
  rw [hw.layout.clauses, clauses_insertProbes, List.length_map, List.length_map, hlowered]

section Method

variable {config : Config} {symbols : SymbolReader} {module : Module} {ids : HitIds}
  {probe : Token} {method : MethodDef}

/-- After ids were reserved nothing fails any more. -/
theorem Numbered.exists_stored {callEffect : Token → Option StackEffect} {p : PreparedBody}
    {first : HitId} {rest : HitIds} {is : List (Instruction Nat)} {r : Relinked}
    (hn : Numbered config symbols callEffect ids probe method p first rest is r)
    (hfew : method.FewClauses) :
    ∃ bytes, (newBody config symbols callEffect ids probe method).result =
      .ok (bytes, documentSequences config.sourceRoot p.code method
        (NumberedStatement.number first p.statements)) := by
  obtain ⟨data, hdata, hstored⟩ := hn.rewriting.prepared.stored
  have hlen : (rebuilt p (Instrumenter.probed p first probe) callEffect r).clauses.length ≤
      699050 := by
    have hclauses := hn.rewriting.length_clauses
    have hbound := hfew data p.stored hdata hstored
    show (r.clauses.map (Clause.map UInt32.ofNat)).length ≤ 699050
    rw [List.length_map]
    omega
  obtain ⟨bytes, hbytes⟩ := MethodBody.exists_toBytes_iff.mpr hlen
  exact ⟨bytes, by rw [hn.result, hbytes]; rfl⟩

/-- The ids of the sequences of a method, in the order they were given out. -/
theorem hitIds_documentSequences (root : Option String) (code : List (Instruction Nat))
    (method : MethodDef) (ns : List NumberedStatement) :
    (documentSequences root code method ns).flatMap (·.sequence.hitIds) =
      ns.flatMap NumberedStatement.ids := by
  rw [documentSequences, List.flatMap_map]
  exact List.flatMap_congr fun n _ => n.hitIds_sequence code _

theorem exists_newBody (hfew : method.FewClauses) {log : Log} {p : PreparedBody}
    {taken : HitId × HitIds} (hprepare : prepare config symbols probe method = (log, .ok p))
    (hreserve : ids.reserve (Statement.idCountAll p.statements) = some taken)
    (callEffect : Token → Option StackEffect) :
    ∃ new, (newBody config symbols callEffect ids probe method).result = .ok new := by
  rcases newBody_cases config symbols callEffect ids probe method with
    ⟨reason, log', -, hnone⟩ | ⟨q, first, rest, is, r, hn⟩
  · rw [probed?_of_prepare hprepare, hreserve] at hnone
    cases hnone
  · obtain ⟨bytes, hbytes⟩ := hn.exists_stored hfew
    exact ⟨_, hbytes⟩

/-- What instrumenting a method can do to the module and to the ids. -/
inductive Effect (module : Module) (ids : HitIds) (method : MethodDef) : MethodResult → Prop
  /-- Nothing. -/
  | skipped (reason : SkipReason) (log : Log) :
      Effect module ids method ⟨.ok (.skipped reason), module, ids, log⟩
  /-- The method has a new body, and its points have the ids that come next. -/
  | instrumented {sequences : List DocumentSequence} {module' : Module} {bytes : Bytes}
      {count : Nat} (log : Log) (hreplaced : module.replaceBody method.token bytes = .ok module')
      (hroom : ids.next.toNat + count < UInt32.size)
      (hids : sequences.flatMap (·.sequence.hitIds) = HitIds.block ids.next count) :
      Effect module ids method
        ⟨.ok (.instrumented sequences), module', ⟨ids.next + UInt32.ofNat count⟩, log⟩
  /-- The module knows no such method. -/
  | refused (e : InstrumentError) (ids' : HitIds) (log : Log)
      (hunknown : (module.method? method.token).isSome = false) :
      Effect module ids method ⟨.error e, module, ids', log⟩

theorem Effect.unchanged {r : MethodResult} (h : Effect module ids method r)
    {reason : SkipReason} (hskip : r.outcome = .ok (.skipped reason)) :
    r.module = module ∧ r.ids = ids := by
  cases h with
  | skipped => exact ⟨rfl, rfl⟩
  | instrumented => cases hskip
  | refused => cases hskip

theorem effect_of_instrumentMethod (config : Config) (symbols : SymbolReader) (module : Module)
    (ids : HitIds) (probe : Token) (hfew : method.FewClauses) :
    Effect module ids method (instrumentMethod config symbols module ids probe method) := by
  rcases newBody_cases config symbols module.callEffect? ids probe method with
    ⟨reason, log, hskip, -⟩ | ⟨p, first, rest, is, r, hn⟩
  · unfold instrumentMethod
    rw [hskip]
    exact .skipped reason log
  · obtain ⟨bytes, hresult⟩ := hn.exists_stored hfew
    obtain ⟨hfirst, hrest, hroom⟩ := HitIds.reserve_eq_some hn.reserved
    rcases instrumentMethod_cases config symbols module ids probe method with
      ⟨reason, hskip, -⟩ | ⟨bytes', sequences, module', hok, hreplaced, hr⟩ |
        ⟨new, e, -, hunknown, hr⟩
    · rw [hresult] at hskip
      cases hskip
    · rw [hresult] at hok
      cases hok
      subst hfirst hrest
      rw [hr, hn.left]
      refine .instrumented _ hreplaced hroom ?_
      rw [hitIds_documentSequences, (NumberedStatement.number_spec _ _).2]
    · rw [hr]
      exact .refused _ _ _ hunknown

/-- Only a method that the module does not know is refused. -/
theorem outcome_ok_of_isSome (config : Config) (symbols : SymbolReader) (ids : HitIds)
    (probe : Token) (hknown : (module.method? method.token).isSome = true) :
    ∃ o, (instrumentMethod config symbols module ids probe method).outcome = .ok o := by
  rcases instrumentMethod_cases config symbols module ids probe method with
    ⟨reason, -, hr⟩ | ⟨bytes, sequences, module', -, -, hr⟩ | ⟨new, e, -, hunknown, -⟩
  · exact ⟨.skipped reason, congrArg MethodResult.outcome hr⟩
  · exact ⟨.instrumented sequences, congrArg MethodResult.outcome hr⟩
  · rw [hknown] at hunknown
    cases hunknown

/-- A method that the module knows is instrumented if there is a new body for it. -/
theorem instrumented_of_newBody {config : Config} {symbols : SymbolReader} {probe : Token}
    {new : Bytes × List DocumentSequence}
    (hnew : (newBody config symbols module.callEffect? ids probe method).result = .ok new)
    (hknown : (module.method? method.token).isSome = true) :
    (instrumentMethod config symbols module ids probe method).outcome =
      .ok (.instrumented new.2) := by
  rcases instrumentMethod_cases config symbols module ids probe method with
    ⟨reason, hskip, -⟩ | ⟨bytes, sequences, module', hok, -, hr⟩ | ⟨new', e, -, hunknown, -⟩
  · rw [hnew] at hskip
    cases hskip
  · rw [hnew] at hok
    cases hok
    exact congrArg MethodResult.outcome hr
  · rw [hknown] at hunknown
    cases hunknown

/-- Instrumenting a method adds no methods and removes none. -/
theorem isSome_method?_of_instrumentMethod (config : Config) (symbols : SymbolReader)
    (module : Module) (ids : HitIds) (probe : Token) (method : MethodDef) (t : Token) :
    ((instrumentMethod config symbols module ids probe method).module.method? t).isSome =
      (module.method? t).isSome := by
  rcases instrumentMethod_cases config symbols module ids probe method with
    ⟨reason, -, hr⟩ | ⟨bytes, sequences, module', -, hreplaced, hr⟩ | ⟨new, e, -, -, hr⟩
  · rw [hr]
  · rw [hr]
    exact Module.isSome_method?_of_replaceBody hreplaced t
  · rw [hr]

end Method

/-! ## Assemblies -/

section Assembly

variable {config : Config} {symbols : SymbolReader} {probe : Token}

/-- Working on one method and then on the rest. -/
theorem run_cons (p : Progress) (method : MethodDef) (rest : List MethodDef) :
    p.run config symbols probe (method :: rest) =
      match p.run config symbols probe [method] with
      | (q, some e) => (q, some e)
      | (q, none) => q.run config symbols probe rest := by
  simp only [Progress.run]
  split <;> rfl

theorem module_of_run {p q : Progress} {method : MethodDef} {error : Option InstrumentError}
    (h : p.run config symbols probe [method] = (q, error)) :
    q.module = (instrumentMethod config symbols p.module p.ids probe method).module := by
  simp only [Progress.run] at h
  split at h <;> cases h <;> rfl

/-- The methods of a module are known to it whatever was done to its methods. -/
theorem known_of_run {p q : Progress} {method : MethodDef}
    {error : Option InstrumentError} (h : p.run config symbols probe [method] = (q, error))
    (t : Token) : (q.module.method? t).isSome = (p.module.method? t).isSome := by
  rw [module_of_run h]
  exact isSome_method?_of_instrumentMethod ..

/-- No method of a module stops the work on it. -/
theorem run_eq_none {p : Progress} {methods : List MethodDef}
    (hknown : ∀ m ∈ methods, (p.module.method? m.token).isSome = true) :
    (p.run config symbols probe methods).2 = none := by
  induction methods generalizing p with
  | nil => rfl
  | cons method rest ih =>
    have hone : (p.run config symbols probe [method]).2 = none := by
      obtain ⟨o, ho⟩ := outcome_ok_of_isSome config symbols p.ids probe
        (hknown method List.mem_cons_self)
      simp only [Progress.run]
      rw [ho]
      cases o <;> rfl
    rw [run_cons]
    cases hrun : p.run config symbols probe [method] with
    | mk q error =>
      rw [hrun] at hone
      subst hone
      refine ih fun m hm => ?_
      rw [known_of_run hrun]
      exact hknown m (List.mem_cons_of_mem _ hm)

theorem instrumentMethods_outcome (config : Config) (symbols : SymbolReader) (module : Module)
    (ids : HitIds) (probe : Token) (loader : Loader) (log : Log) :
    ∃ assembly, (instrumentMethods config symbols module ids probe loader log).outcome =
      .ok (.instrumented assembly) := by
  have hnone : ((Progress.start module ids).run config symbols probe module.methods).2 = none :=
    run_eq_none fun _ hm => Module.isSome_method?_of_mem hm
  unfold instrumentMethods
  split
  · next hrun =>
    rw [hrun] at hnone
    cases hnone
  · exact ⟨_, rfl⟩

end Assembly

/-- An assembly is instrumented or left as it was. -/
theorem instrumentAssembly_cases (config : Config) (resolver : Resolver) (symbols : SymbolReader)
    (module : Module) (ids : HitIds) (loader : Loader) :
    let a := instrumentAssembly config resolver symbols module ids loader
    (∃ assembly, a.outcome = .ok (.instrumented assembly)) ∨ a.module = module ∧ a.ids = ids := by
  intro a
  have ha : a = instrumentAssembly config resolver symbols module ids loader := rfl
  unfold instrumentAssembly at ha
  rw [ha]
  split
  · exact Or.inr ⟨rfl, rfl⟩
  · split
    · exact Or.inr ⟨rfl, rfl⟩
    · split
      · exact Or.inr ⟨rfl, rfl⟩
      · split
        · exact Or.inr ⟨rfl, rfl⟩
        · exact Or.inl (instrumentMethods_outcome ..)

/-- What is not instrumented is left as it was, and takes no ids: a method that is skipped, for
whatever reason, and an assembly that fails or was instrumented before. Once a method has its
ids, nothing fails. -/
theorem failure_keeps_state {method : MethodDef} (hfew : method.FewClauses) (config : Config)
    (resolver : Resolver) (symbols : SymbolReader) (module : Module) (ids : HitIds)
    (loader : Loader) (probe : Token) :
    let r := instrumentMethod config symbols module ids probe method
    let a := instrumentAssembly config resolver symbols module ids loader
    (∀ reason, r.outcome = .ok (.skipped reason) → r.module = module ∧ r.ids = ids) ∧
      ((∃ e, a.outcome = .error e) ∨ a.outcome = .ok .alreadyInstrumented →
        a.module = module ∧ a.ids = ids) ∧
      ∀ log p taken, prepare config symbols probe method = (log, .ok p) →
        ids.reserve (Statement.idCountAll p.statements) = some taken →
          (∃ new, (newBody config symbols module.callEffect? ids probe method).result = .ok new) ∧
          ((module.method? method.token).isSome = true →
            ∃ sequences, r.outcome = .ok (.instrumented sequences)) := by
  intro r a
  have heffect : Effect module ids method r :=
    effect_of_instrumentMethod config symbols module ids probe hfew
  refine ⟨fun reason hskip => heffect.unchanged hskip, ?_, ?_⟩
  · intro hfailed
    have hnot : ¬ ∃ assembly, a.outcome = .ok (.instrumented assembly) := by
      rintro ⟨assembly, hassembly⟩
      rcases hfailed with ⟨e, he⟩ | halready
      · rw [hassembly] at he
        cases he
      · rw [hassembly] at halready
        cases halready
    exact (instrumentAssembly_cases config resolver symbols module ids loader).resolve_left hnot
  · intro log p taken hprepare hreserve
    obtain ⟨new, hnew⟩ := exists_newBody hfew hprepare hreserve module.callEffect?
    exact ⟨⟨new, hnew⟩, fun hknown => ⟨new.2, instrumented_of_newBody hnew hknown⟩⟩

theorem failure_keeps_state_guarded :
    let module := { Module.new "a" [] with methods := [guarded] }
    let symbols : SymbolReader := fun _ => .ok (some [⟨0, "a.cs", 1, 1, 1, 9⟩])
    let probe : Token := ⟨0x0a000001⟩
    let last : HitIds := ⟨0xffffffff⟩
    let r := instrumentMethod Config.standard symbols module last probe guarded
    let a := instrumentAssembly Config.standard (fun _ => .ok none) symbols module last .new
    guarded.FewClauses ∧
      r.outcome = .ok (.skipped .idsExhausted) ∧ r.module = module ∧ r.ids = last ∧
      a.outcome = .error (.probeAssemblyNotFound "a" "Coverage.Runtime") ∧
        a.module = module ∧ a.ids = last ∧
      ∃ sequences, (instrumentMethod Config.standard symbols module .start probe guarded).outcome =
        .ok (.instrumented sequences) := by
  intro module symbols probe last r a
  have hfew : guarded.FewClauses :=
    MethodDef.fewClauses_of_count 1 (by decide +kernel) (by decide)
  have hskip : r.outcome = .ok (.skipped .idsExhausted) := by decide +kernel
  have hfail : a.outcome = .error (.probeAssemblyNotFound "a" "Coverage.Runtime") := by
    decide +kernel
  obtain ⟨hskipped, hfailed, -⟩ :=
    failure_keeps_state hfew Config.standard (fun _ => .ok none) symbols module last .new probe
  obtain ⟨hmodule, hids⟩ := hskipped _ hskip
  obtain ⟨hmodule', hids'⟩ := hfailed (Or.inl ⟨_, hfail⟩)
  refine ⟨hfew, hskip, hmodule, hids, hfail, hmodule', hids', ?_⟩
  -- with ids left, the method gets as far as its ids, and so it is instrumented
  have hgets : ((prepare Config.standard symbols probe guarded).2.toOption.map fun p =>
      (HitIds.start.reserve (Statement.idCountAll p.statements)).isSome) = some true := by
    decide +kernel
  obtain ⟨p, hp, hroom⟩ := Option.map_eq_some_iff.mp hgets
  obtain ⟨taken, htaken⟩ := Option.isSome_iff_exists.mp hroom
  obtain ⟨-, -, hnext⟩ :=
    failure_keeps_state hfew Config.standard (fun _ => .ok none) symbols module .start .new probe
  have hprepare : (prepare Config.standard symbols probe guarded).2 = .ok p := by
    cases hresult : (prepare Config.standard symbols probe guarded).2 with
    | error reason =>
      rw [hresult] at hp
      cases hp
    | ok q =>
      rw [hresult] at hp
      rw [Option.some.inj hp]
  exact (hnext _ p taken (Prod.ext rfl hprepare) htaken).2 rfl

end Instrumenter

end CilCoverage
