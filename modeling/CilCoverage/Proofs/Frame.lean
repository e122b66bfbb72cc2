/-
  What instrumenting an assembly leaves as it was.

  The new body of a method says in its header what the old one said, with no
  less room on the stack, and has the clauses of the old one in their order
  (`Numbered.replaces`). The work on a method of a module turns it into what
  becomes of it and leaves the others alone (`step_becomes`), and a run through
  all of them does so with each (`run_becomes`). Before the run the probe is
  imported. Put together: `instrumentAssembly_frame`.
-/
import CilCoverage.Proofs.Outcomes

namespace CilCoverage

/-! ## Bodies -/

theorem PreparedBody.before_le_declaredStack (before : UInt16) (depth : Option Nat) :
    before ≤ declaredStack before depth := by
  rw [UInt16.le_iff_toNat_le]
  cases depth with
  | some depth =>
    rw [toNat_declaredStack_some]
    exact Nat.le_max_right ..
  | none =>
    have hlt := before.toNat_lt_size
    have hsize : UInt16.size = 65536 := rfl
    rw [toNat_declaredStack_none]
    omega

namespace Instrumenter

open LabelledBody PreparedBody

/-- A body that is written to `bytes` takes the place of `old`. -/
structure Replaces (old written : MethodBody) (bytes : Bytes) : Prop where
  stored : written.toBytes = .ok bytes
  /-- Whatever the bytes are read as, it has what the header of the old body said. -/
  header : ∀ new, MethodBody.ofBytes bytes = .ok new →
    new.initLocals = old.initLocals ∧ new.localSig.row = old.localSig.row ∧
      old.maxStack ≤ new.maxStack
  /-- The header counts the code in 32 bits; behind it the clauses are found, one for each. -/
  clauses : written.code.length < 2 ^ 32 → ∃ new, MethodBody.ofBytes bytes = .ok new ∧
    new.code = written.code ∧ List.Forall₂ Clause.SameKind old.clauses new.clauses

/-- What is laid out has the clauses of the body that was there. -/
theorem Rewriting.sameKind_clauses {symbols : SymbolReader} {probe : Token} {method : MethodDef}
    {p : PreparedBody} {ns : List NumberedStatement} {is : List (Instruction Nat)} {r : Relinked}
    (hw : Rewriting symbols probe method p ns is r) :
    List.Forall₂ Clause.SameKind p.stored.clauses (r.clauses.map (Clause.map UInt32.ofNat)) := by
  rw [hw.layout.clauses, clauses_insertProbes, List.map_map, List.map_map,
    List.forall₂_map_right_iff]
  refine (List.forall₂_map_left_iff.mp hw.prepared.lowered.2).imp fun c d hcd => ?_
  have hread : c.SameKind (c.map UInt32.toNat) := c.kind_rel_map _
  have hmapped : ∀ (e : Clause Nat) (f : Nat → Nat), e.SameKind (e.map f) :=
    fun e f => e.kind_rel_map f
  exact (hread.trans hcd.sameKind).trans
    ((hmapped d _).trans ((hmapped _ _).trans (Clause.kind_rel_map _ _)))

theorem Numbered.replaces {config : Config} {symbols : SymbolReader}
    {callEffect : Token → Option StackEffect} {ids rest : HitIds} {probe : Token}
    {method : MethodDef} {p : PreparedBody} {first : HitId} {is : List (Instruction Nat)}
    {r : Relinked}
    (hn : Numbered config symbols callEffect ids probe method p first rest is r) {bytes : Bytes}
    (h : (rebuilt p (Instrumenter.probed p first probe) callEffect r).toBytes = .ok bytes) :
    Replaces p.stored (rebuilt p (Instrumenter.probed p first probe) callEffect r) bytes where
  stored := h
  header new hnew := by
    obtain ⟨hstack, hinit, hrow⟩ := MethodBody.header_of_ofBytes h hnew
    exact ⟨hinit, hrow, UInt16.le_trans (before_le_declaredStack _ _) hstack⟩
  clauses hsize := by
    obtain ⟨hparse, -⟩ := hn.rewriting.ofBytes_asStored hsize ⟨h, rfl, rfl⟩
    refine ⟨_, hparse, MethodBody.code_asStored _, ?_⟩
    rw [MethodBody.clauses_asStored]
    exact hn.rewriting.sameKind_clauses

/-! ## Methods -/

/-- What has become of a method, by the outcome of the work on it. -/
inductive Becomes (method : MethodDef) : Except InstrumentError MethodOutcome → MethodDef → Prop
  /-- A method that is skipped stays as it was. -/
  | skipped (reason : SkipReason) : Becomes method (.ok (.skipped reason)) method
  /-- A method that is instrumented has another body. -/
  | instrumented (sequences : List DocumentSequence) {data bytes : Bytes}
      {old written : MethodBody} (hdata : method.body = some data)
      (hold : MethodBody.ofBytes data = .ok old) (hreplaces : Replaces old written bytes) :
      Becomes method (.ok (.instrumented sequences)) { method with body := some bytes }

theorem Becomes.frame {method after : MethodDef} {o : Except InstrumentError MethodOutcome}
    (h : Becomes method o after) : after = { method with body := after.body } := by
  cases h <;> rfl

theorem Becomes.eq_of_skipped {method after : MethodDef} {reason : SkipReason}
    (h : Becomes method (.ok (.skipped reason)) after) : after = method := by
  cases h
  rfl

theorem Becomes.exists_of_instrumented {method after : MethodDef}
    {sequences : List DocumentSequence}
    (h : Becomes method (.ok (.instrumented sequences)) after) :
    ∃ data old written bytes, method.body = some data ∧ MethodBody.ofBytes data = .ok old ∧
      after.body = some bytes ∧ Replaces old written bytes := by
  cases h with
  | instrumented _ hdata hold hreplaces => exact ⟨_, _, _, _, hdata, hold, rfl, hreplaces⟩

/-- The work on a method after the work on some others. -/
def resultAfter (config : Config) (symbols : SymbolReader) (probe : Token) (p : Progress)
    (before : List MethodDef) (method : MethodDef) : MethodResult :=
  let q := (p.run config symbols probe before).1
  instrumentMethod config symbols q.module q.ids probe method

section Run

variable {config : Config} {symbols : SymbolReader} {probe : Token}

/-- The work on a method of a module turns it into what becomes of it, and nothing else. -/
theorem step_becomes (config : Config) (symbols : SymbolReader) (probe : Token) (ids : HitIds)
    {m : Module} {before rest : List MethodDef} {method : MethodDef}
    (hmethods : m.methods = before ++ method :: rest) (hasc : Module.Ascending m.methods) :
    ∃ after, Becomes method (instrumentMethod config symbols m ids probe method).outcome after ∧
      (instrumentMethod config symbols m ids probe method).module =
        { m with methods := before ++ after :: rest } := by
  have hknown : (m.method? method.token).isSome = true :=
    Module.isSome_method?_of_mem (by rw [hmethods]; simp)
  rcases instrumentMethod_cases config symbols m ids probe method with
    ⟨reason, -, hr⟩ | ⟨bytes, sequences, m', hnew, hreplaced, hr⟩ | ⟨new, e, -, hunknown, hr⟩
  · rw [hr]
    exact ⟨method, .skipped reason, by rw [← hmethods]⟩
  · obtain ⟨p, first, rest, is, r, hn, hbytes, -⟩ := numbered_of_newBody hnew
    obtain ⟨data, hdata, hold⟩ := hn.rewriting.prepared.stored
    rw [hr]
    exact ⟨_, .instrumented sequences hdata hold (hn.replaces hbytes),
      Module.replaceBody_at hmethods hasc hreplaced⟩
  · rw [hknown] at hunknown
    cases hunknown

/-- A run turns each method into what becomes of it after the methods before it. -/
theorem run_becomes (before : List MethodDef) {p q : Progress} {rest : List MethodDef}
    (hmethods : p.module.methods = before ++ rest) (hasc : Module.Ascending p.module.methods)
    (hrun : p.run config symbols probe rest = (q, none)) :
    ∃ rest', q.module = { p.module with methods := before ++ rest' } ∧
      rest'.length = rest.length ∧
      ∀ k method, rest[k]? = some method → ∃ after, rest'[k]? = some after ∧
        Becomes method (resultAfter config symbols probe p (rest.take k) method).outcome after := by
  induction rest generalizing p before with
  | nil =>
    cases hrun
    exact ⟨[], by rw [← hmethods], rfl, nofun⟩
  | cons method rest ih =>
    rw [run_cons] at hrun
    cases hone : p.run config symbols probe [method] with
    | mk next error =>
      rw [hone] at hrun
      cases error with
      | some e => cases hrun
      | none =>
        obtain ⟨after, hafter, hmodule⟩ :=
          step_becomes config symbols probe p.ids hmethods hasc
        rw [← module_of_run hone] at hmodule
        have hnext : next.module.methods = (before ++ [after]) ++ rest := by
          rw [hmodule, List.append_assoc]
          rfl
        have hascNext : Module.Ascending next.module.methods := by
          refine hasc.of_tokens ?_
          rw [hmodule, hmethods, hafter.frame]
          simp
        obtain ⟨rest', hq, hlength, hall⟩ := ih _ hnext hascNext hrun
        refine ⟨after :: rest', ?_, congrArg Nat.succ hlength, ?_⟩
        · rw [hq, hmodule, List.append_assoc]
          rfl
        · intro k d hd
          cases k with
          | zero =>
            obtain rfl := Option.some.inj hd
            exact ⟨after, rfl, hafter⟩
          | succ k =>
            -- the run up to a later method goes through the first one
            have hsame : resultAfter config symbols probe p ((method :: rest).take (k + 1)) d =
                resultAfter config symbols probe next (rest.take k) d := by
              rw [resultAfter, List.take_succ_cons, run_cons, hone]
              rfl
            rw [hsame]
            exact hall k d hd

end Run

/-! ## Assemblies -/

section Assembly

variable {config : Config} {resolver : Resolver} {symbols : SymbolReader} {module : Module}
  {ids : HitIds} {loader : Loader} {assembly : InstrumentedAssembly}

/-- The probe was imported into an assembly that is instrumented, and all its methods were worked
on. -/
theorem exists_run
    (h : (instrumentAssembly config resolver symbols module ids loader).outcome =
      .ok (.instrumented assembly)) :
    ∃ probe opened q, module.importProbe config.probe = .ok (probe, opened) ∧
      (Progress.start opened ids).run config symbols probe opened.methods = (q, none) ∧
      (instrumentAssembly config resolver symbols module ids loader).module = q.module.mark := by
  unfold instrumentAssembly at h ⊢
  split at h
  · cases h
  · split at h
    · cases h
    · split at h
      · cases h
      · split at h
        · cases h
        · next probe opened himport =>
          unfold instrumentMethods at h ⊢
          split at h
          · cases h
          · next q hrun => exact ⟨probe, opened, q, himport, hrun, by simp_all⟩

/-- Instrumenting an assembly changes the bodies of the methods that are instrumented, refers to
the probe and its assembly, and marks the module; nothing else. -/
theorem instrumentAssembly_frame (hbuilt : module.Built)
    (hroom : module.memberRefs.length < 2 ^ 24 - 1)
    (h : (instrumentAssembly config resolver symbols module ids loader).outcome =
      .ok (.instrumented assembly)) :
    let after := (instrumentAssembly config resolver symbols module ids loader).module
    let frame (m : MethodDef) := (m.token, m.declaringType, m.name)
    after.name = module.name ∧ after.image = module.image ∧
      after.methods.map frame = module.methods.map frame ∧
      (∃ probe opened, module.importProbe config.probe = .ok (probe, opened) ∧
        ∀ k method, module.methods[k]? = some method → ∃ new, after.methods[k]? = some new ∧
          Becomes method (resultAfter config symbols probe (.start opened ids)
            (module.methods.take k) method).outcome new) ∧
      after.references =
        (if config.probe.assembly ∈ module.references then module.references
          else module.references ++ [config.probe.assembly]) ∧
      (∀ token effect, module.callEffect? token = some effect →
        after.callEffect? token = some effect) ∧
      after.instrumented = true := by
  intro after frame
  obtain ⟨probe, opened, q, himport, hrun, hafter⟩ := exists_run h
  have hopened : opened.methods = module.methods := Module.methods_of_importProbe himport
  have hasc : Module.Ascending opened.methods := hopened ▸ hbuilt.ascending
  have hstart : (Progress.start opened ids).module.methods = [] ++ opened.methods := rfl
  obtain ⟨methods, hq, hlength, hall⟩ := run_becomes [] hstart hasc hrun
  have hmodule : after = { opened with methods := methods, instrumented := true } := by
    show (instrumentAssembly config resolver symbols module ids loader).module = _
    rw [hafter, hq]
    rfl
  have hrows : module.memberRefs.length + 1 < Token.rowLimit := by
    show _ < 2 ^ 24
    omega
  have hkept : opened.name = module.name ∧ opened.image = module.image := by
    rcases Module.importProbe_eq_ok himport with ⟨-, rfl⟩ | ⟨-, -, rfl⟩ <;> exact ⟨rfl, rfl⟩
  have hframe : methods.map frame = opened.methods.map frame := by
    refine List.ext_getElem? fun k => ?_
    rw [List.getElem?_map, List.getElem?_map]
    cases hk : opened.methods[k]? with
    | none =>
      rw [List.getElem?_eq_none (hlength ▸ List.getElem?_eq_none_iff.mp hk)]
    | some method =>
      obtain ⟨new, hnew, hbecomes⟩ := hall k method hk
      rw [hnew, hbecomes.frame]
      rfl
  have hreferences := hbuilt.references_of_importProbe himport
  have heffects : ∀ token effect, module.callEffect? token = some effect →
      opened.callEffect? token = some effect :=
    fun _ _ => Module.callEffect?_of_importProbe hrows himport
  rw [hopened] at hall hframe
  rw [hmodule]
  exact ⟨hkept.1, hkept.2, hframe, ⟨probe, opened, himport, hall⟩, hreferences, heffects, rfl⟩

/-- A module that refers to another one, with a method that has a handler and one without a
body. -/
def handling : Module :=
  let module := ((Module.new "a" []).addReference "System").addMemberRef "System::Write" ⟨2, 1⟩
  ((module.2.addMethod "A" "g" guarded.body).2.addMethod "A" "h" none).2

/-- The same, after the probe was imported. -/
def handlingOpened : Module :=
  { handling with
    references := ["System", "Coverage.Runtime"]
    memberRefs := [⟨"System::Write", ⟨2, 1⟩⟩,
      ⟨Config.standard.probe.memberName, ProbeReference.effect⟩]
    probe := some (Config.standard.probe, ⟨0x0a000002⟩) }

theorem instrumentAssembly_frame_handling :
    let symbols : SymbolReader := fun _ => .ok (some [⟨0, "a.cs", 1, 1, 1, 9⟩])
    let a := instrumentAssembly Config.standard (fun _ => .ok (some [])) symbols handling .start .new
    handling.Built ∧ handling.memberRefs.length < 2 ^ 24 - 1 ∧
      (∃ assembly, a.outcome = .ok (.instrumented assembly)) ∧
      a.module.methods.map (·.name) = ["g", "h"] ∧
      (∃ method bytes new, a.module.methods[0]? = some method ∧ method.body = some bytes ∧
        MethodBody.ofBytes bytes = .ok new ∧ new.initLocals = true ∧ new.localSig.row = 0 ∧
        8 ≤ new.maxStack ∧ new.clauses.map (·.kind) = [.finallyBlock]) ∧
      a.module.methods[1]? = handling.methods[1]? ∧
      a.module.references = ["System", "Coverage.Runtime"] ∧
      a.module.callEffect? ⟨0x0a000001⟩ = some ⟨2, 1⟩ ∧ a.module.instrumented = true := by
  intro symbols a
  have hbuilt : handling.Built :=
    .addMethod (.addMethod (.addMemberRef (.addReference (.new "a" []) _) _ _) _ _ _) _ _ _
  have hroom : handling.memberRefs.length < 2 ^ 24 - 1 := by decide
  have hdone : (a.outcome.toOption.any fun o => o != .alreadyInstrumented) = true := by
    decide +kernel
  obtain ⟨assembly, h⟩ : ∃ assembly, a.outcome = .ok (.instrumented assembly) := by
    cases ho : a.outcome with
    | error e =>
      rw [ho] at hdone
      cases hdone
    | ok o =>
      rw [ho] at hdone
      cases o with
      | alreadyInstrumented => cases hdone
      | instrumented assembly => exact ⟨assembly, rfl⟩
  obtain ⟨-, -, hframe, ⟨probe, opened, himport, hall⟩, hreferences, heffects, hmarked⟩ :=
    instrumentAssembly_frame hbuilt hroom h
  have himported : handling.importProbe Config.standard.probe =
      .ok (⟨0x0a000002⟩, handlingOpened) := by decide +kernel
  obtain ⟨rfl, rfl⟩ := Prod.mk.inj (Except.ok.inj (himported.symm.trans himport))
  refine ⟨hbuilt, hroom, ⟨assembly, h⟩, ?_, ?_, ?_, ?_, heffects _ _ (by decide), hmarked⟩
  · have hnames := congrArg (List.map (·.2.2)) hframe
    rw [List.map_map, List.map_map] at hnames
    exact hnames.trans (by decide)
  · have hinstrumented : (resultAfter Config.standard symbols ⟨0x0a000002⟩
        (.start handlingOpened .start) [] guarded).outcome =
          .ok (.instrumented [⟨"a.cs", guardedSequence⟩]) := by decide +kernel
    obtain ⟨method, hmethod, hbecomes⟩ := hall 0 guarded (by decide)
    rw [List.take_zero, hinstrumented] at hbecomes
    obtain ⟨data, old, written, bytes, hdata, hold, hbytes, hreplaces⟩ :=
      hbecomes.exists_of_instrumented
    have hsize : (a.module.methods[0]?.bind (·.body)).any (·.length < 2 ^ 32) = true := by
      decide +kernel
    rw [hmethod, Option.bind_some, hbytes] at hsize
    obtain ⟨new, hnew, -, hclauses⟩ := hreplaces.clauses
      (Nat.lt_of_le_of_lt (MethodBody.length_code_le hreplaces.stored) (of_decide_eq_true hsize))
    obtain ⟨hinit, hrow, hstack⟩ := hreplaces.header new hnew
    have hread : guarded.body.map MethodBody.ofBytes = some (.ok ⟨8, true, ⟨0⟩,
        [0x00, 0xde, 0x01, 0xdc, 0x2a], [⟨.finallyBlock, 0, 3, 3, 4⟩]⟩) := by decide +kernel
    rw [hdata, Option.map_some, hold] at hread
    obtain rfl := Except.ok.inj (Option.some.inj hread)
    obtain ⟨c, rest, hkind, hrest, hcons⟩ := List.forall₂_cons_left_iff.mp hclauses
    obtain rfl := List.forall₂_nil_left_iff.mp hrest
    have hfinally : c.kind = .finallyBlock := by
      unfold Clause.SameKind at hkind
      cases hc : c.kind <;> simp_all [ClauseKind.Rel]
    exact ⟨method, bytes, new, hmethod, hbytes, hnew, hinit, hrow, hstack,
      by rw [hcons, List.map_singleton, hfinally]⟩
  · have hskipped : (resultAfter Config.standard symbols ⟨0x0a000002⟩
        (.start handlingOpened .start) [guarded] ⟨⟨0x06000002⟩, "A", "h", none⟩).outcome =
          .ok (.skipped .noBody) := by decide +kernel
    obtain ⟨method, hmethod, hbecomes⟩ := hall 1 ⟨⟨0x06000002⟩, "A", "h", none⟩ (by decide)
    have hbefore : handling.methods.take 1 = [guarded] := by decide
    rw [hbefore, hskipped] at hbecomes
    rw [hmethod, hbecomes.eq_of_skipped]
    decide
  · exact hreferences.trans (by decide)

end Assembly

end Instrumenter

end CilCoverage
