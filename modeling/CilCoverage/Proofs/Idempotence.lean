/-
  Instrumenting a method a second time.

  What is stored for an instrumented method passes every check that a method has
  to pass (`Accepted`), up to the one that it does not call the probe: it does,
  since there is a statement with a probe before it. So the method is left alone
  the second time (`instrumented_again`).
-/
import CilCoverage.Proofs.Agreement

namespace CilCoverage

open Code LabelledBody Layout

/-! ## Bodies that call the probe -/

namespace PreparedBody

variable {config : Config} {symbols : SymbolReader} {probe : Token} {method : MethodDef}
  {data : Bytes} {stored : MethodBody} {code : List (Instruction Nat)}

theorem readCode_of_call (hstored : MethodBody.ofBytes data = .ok stored)
    (hcode : decode stored.code = .ok code) (hcall : ∃ i ∈ code, i.isCallTo probe = true) :
    readCode probe data = .error .alreadyInstrumented := by
  have hany : (code.any fun i => i.isCallTo probe) = true := List.any_eq_true.mpr hcall
  rw [readCode, hstored]
  simp only [Except.mapError, bind, Except.bind]
  rw [hcode]
  simp only [hany, if_true]

theorem prepare_of_call {points : List SequencePoint}
    (hpoints : readPoints symbols method = ([], .ok points)) (hdata : method.body = some data)
    (hstored : MethodBody.ofBytes data = .ok stored) (hcode : decode stored.code = .ok code)
    (hcall : ∃ i ∈ code, i.isCallTo probe = true) :
    prepare config symbols probe method = ([], .error .alreadyInstrumented) := by
  unfold prepare
  rw [hdata]
  dsimp only
  rw [hpoints]
  dsimp only
  rw [readCode_of_call hstored hcode hcall]

/-- Symbols are looked up by token. -/
theorem readPoints_of_token {m : MethodDef} (h : m.token = method.token)
    {points : List SequencePoint} (hpoints : readPoints symbols method = ([], .ok points)) :
    readPoints symbols m = ([], .ok points) := by
  unfold readPoints at hpoints ⊢
  rw [h]
  split at hpoints <;> cases hpoints
  rfl

end PreparedBody

namespace Instrumenter

open PreparedBody

/-- A method that cannot be prepared is left alone. -/
theorem instrumentMethod_of_prepare {config : Config} {symbols : SymbolReader} {probe : Token}
    {method : MethodDef} {log : Log} {reason : SkipReason}
    (h : prepare config symbols probe method = (log, .error reason)) (module : Module)
    (ids : HitIds) :
    instrumentMethod config symbols module ids probe method =
      ⟨.ok (.skipped reason), module, ids, log⟩ := by
  rw [instrumentMethod, newBody, h]

/-! ## The second time -/

/-- A stored body that passes the checks: it can be read, so can its code, whatever it refers to
is an instruction, and no range of a clause ends before it starts. -/
structure Accepted (data : Bytes) (stored : MethodBody) (code : List (Instruction Nat))
    (labelled : LabelledBody) : Prop where
  parsed : MethodBody.ofBytes data = .ok stored
  decoded : decode stored.code = .ok code
  lowered : lower code (stored.clauses.map (Clause.map UInt32.toNat)) stored.code.length =
    .ok labelled
  resolved : Resolved code (stored.clauses.map (Clause.map UInt32.toNat)) stored.code.length
  ordered : ∀ c ∈ stored.clauses, c.Ordered

namespace Rewriting

variable {symbols : SymbolReader} {probe : Token} {method : MethodDef} {p : PreparedBody}
  {ns : List NumberedStatement} {is : List (Instruction Nat)} {r : Relinked}
  (hw : Rewriting symbols probe method p ns is r)
include hw

/-- There is a statement, and its probe is called. -/
theorem exists_call : ∃ i ∈ laidOut is, i.isCallTo probe = true := by
  obtain ⟨s, hs⟩ := List.exists_mem_of_ne_nil _ hw.prepared.nonempty
  obtain ⟨n, hn, -⟩ := Result.exists_mem_right hw.numbers hs
  obtain ⟨-, -, -, ⟨-, i, hi, hcall⟩, -⟩ := hw.sequence_probe hn
  exact ⟨i, List.mem_of_getElem? hi, hcall⟩

theorem accepted (hsize : r.code.length < 2 ^ 31) {bytes : Bytes} {b : MethodBody}
    (hb : StoredAs r bytes b) :
    ∃ stored labelled, stored.code = r.code ∧ Accepted bytes stored (laidOut is) labelled := by
  obtain ⟨stored, hparse, hcode, hclauses, hordered⟩ := hw.ofBytes_eq (by omega) hb
  have hdecode := hw.layout.decode_eq hw.wellFormed (Nat.le_of_lt hsize)
  have hlower := hw.layout.lower_eq hw.wellFormed
  have hresolved : Resolved (laidOut is) r.clauses r.code.length := by
    rw [hw.layout.length_code, ← streamSize_laidOut] at hlower ⊢
    exact resolved_of_lower (contiguous_laidOut is) hlower
  rw [← hcode] at hdecode
  rw [← hcode, ← hclauses] at hlower hresolved
  exact ⟨stored, _, hcode, hparse, hdecode, hlower, hresolved, hordered⟩

end Rewriting

/-- What is stored for an instrumented method is well formed, and instrumenting the method again
changes nothing. -/
theorem instrumented_again {config : Config} {symbols : SymbolReader} {module : Module}
    {ids : HitIds} {probe : Token} {method : MethodDef} {sequences : List DocumentSequence}
    (h : (instrumentMethod config symbols module ids probe method).outcome =
      .ok (.instrumented sequences))
    (hsize : ∀ code, rewritten? config symbols ids probe method = some code →
      code.length < 2 ^ 31) :
    let module' := (instrumentMethod config symbols module ids probe method).module
    ∃ m bytes stored code labelled,
      module'.method? method.token = some m ∧ m.token = method.token ∧ m.body = some bytes ∧
      rewritten? config symbols ids probe method = some stored.code ∧
      Accepted bytes stored code labelled ∧
      ∀ config' ids', instrumentMethod config' symbols module' ids' probe m =
        ⟨.ok (.skipped .alreadyInstrumented), module', ids', []⟩ := by
  obtain ⟨p, ns, is, r, b, bytes, hw, hb, hcode, -, hreplaced⟩ := of_instrumentMethod h
  obtain ⟨m, hm, htoken, hbody⟩ := Module.method?_of_replaceBody hreplaced
  obtain ⟨points, hpoints⟩ := hw.prepared.points
  obtain ⟨stored, labelled, hstored, haccepted⟩ := hw.accepted (hsize _ hcode) hb
  refine ⟨m, bytes, stored, laidOut is, labelled, hm, htoken, hbody, by rw [hstored, hcode],
    haccepted, ?_⟩
  intro config' ids'
  refine instrumentMethod_of_prepare ?_ _ ids'
  exact prepare_of_call (readPoints_of_token htoken hpoints) hbody haccepted.parsed
    haccepted.decoded hw.exists_call

/-- A method with an empty block that is left for the end, and a handler for it:
`nop; leave.s L; endfinally; L: ret`. -/
def guarded : MethodDef where
  token := ⟨0x06000001⟩
  declaringType := "A"
  name := "g"
  body := some
    [0x1b, 0x30, 8, 0, 5, 0, 0, 0, 0, 0, 0, 0, 0x00, 0xde, 0x01, 0xdc, 0x2a, 0, 0, 0,
     0x01, 16, 0, 0, 2, 0, 0, 0, 3, 3, 0, 1, 0, 0, 0, 0]

/-- What is recorded of it. -/
def guardedSequence : Sequence where
  hitId := 1
  offset := 0
  startLine := 1
  startColumn := 1
  endLine := 1
  endColumn := 9
  method := ⟨"A", "g", "A::g"⟩
  instruction := "IL_0000: nop"
  conditions := []

theorem instrumented_again_guarded :
    let module := { Module.new "a" [] with methods := [guarded] }
    let symbols : SymbolReader := fun _ => .ok (some [⟨0, "a.cs", 1, 1, 1, 9⟩])
    let probe : Token := ⟨0x0a000001⟩
    let r := instrumentMethod Config.standard symbols module .start probe guarded
    r.outcome = .ok (.instrumented [⟨"a.cs", guardedSequence⟩]) ∧
      ∃ m bytes stored code labelled,
        r.module.method? guarded.token = some m ∧ m.token = guarded.token ∧
        m.body = some bytes ∧
        rewritten? Config.standard symbols .start probe guarded = some stored.code ∧
        stored.code.length < 2 ^ 31 ∧ Accepted bytes stored code labelled ∧
        ∀ config' ids', instrumentMethod config' symbols r.module ids' probe m =
          ⟨.ok (.skipped .alreadyInstrumented), r.module, ids', []⟩ := by
  intro module symbols probe r
  have h : r.outcome = .ok (.instrumented [⟨"a.cs", guardedSequence⟩]) := by decide +kernel
  have hsize : ∀ code, rewritten? Config.standard symbols .start probe guarded = some code →
      code.length < 2 ^ 31 := by decide +kernel
  obtain ⟨m, bytes, stored, code, labelled, hm, htoken, hbody, hcode, haccepted, hagain⟩ :=
    instrumented_again h hsize
  exact ⟨h, m, bytes, stored, code, labelled, hm, htoken, hbody, hcode, hsize _ hcode,
    haccepted, hagain⟩

end Instrumenter

end CilCoverage
