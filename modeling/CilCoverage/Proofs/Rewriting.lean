/-
  The stages of instrumenting a method.

  A method that was instrumented has been prepared, numbered, given its probes
  and laid out. What each stage established is kept in `Prepared` and
  `Rewriting`, so that the code that is stored can be traced back to the code
  that was there (`of_instrumentMethod`).
-/
import CilCoverage.Instrumenter
import CilCoverage.Proofs.Modules
import CilCoverage.Proofs.Numbering
import CilCoverage.Proofs.Relinking
import CilCoverage.Proofs.StoredBody

namespace CilCoverage

open Code LabelledBody

namespace PreparedBody

/-- What was found out about the body of a method. -/
structure Prepared (symbols : SymbolReader) (probe : Token) (method : MethodDef)
    (p : PreparedBody) : Prop where
  points : ∃ points, readPoints symbols method = ([], .ok points)
  stored : ∃ data, method.body = some data ∧ MethodBody.ofBytes data = .ok p.stored
  code : decode p.stored.code = .ok p.code
  noCall : ∀ i ∈ p.code, i.isCallTo probe = false
  labelled : lower p.code (p.stored.clauses.map (Clause.map UInt32.toNat))
    p.stored.code.length = .ok p.labelled
  nonempty : p.statements ≠ []
  apart : p.statements.Pairwise fun a b => a.span.stop ≤ b.span.start
  sound : ∀ s ∈ p.statements, s.Sound p.labelled.instructions

theorem of_readPoints {symbols : SymbolReader} {method : MethodDef} {log : Log}
    {points : List SequencePoint} (h : readPoints symbols method = (log, .ok points)) :
    log = [] := by
  unfold readPoints at h
  split at h
  · cases h
  · cases h
  · cases h
    rfl
  · cases h

theorem of_readCode {probe : Token} {data : Bytes} {stored : MethodBody}
    {code : List (Instruction Nat)} {labelled : LabelledBody}
    (h : readCode probe data = .ok (stored, code, labelled)) :
    MethodBody.ofBytes data = .ok stored ∧ decode stored.code = .ok code ∧
      (∀ i ∈ code, i.isCallTo probe = false) ∧
      lower code (stored.clauses.map (Clause.map UInt32.toNat)) stored.code.length =
        .ok labelled := by
  obtain ⟨stored', hstored, h⟩ := Result.bind_eq_ok.mp h
  obtain ⟨code', hcode, h⟩ := Result.bind_eq_ok.mp h
  split at h
  · cases h
  · next hcalls =>
    obtain ⟨labelled', hlabelled, h⟩ := Result.bind_eq_ok.mp h
    cases h
    refine ⟨Result.mapError_eq_ok.mp hstored, Result.mapError_eq_ok.mp hcode, ?_,
      Result.mapError_eq_ok.mp hlabelled⟩
    simpa using hcalls

theorem of_readStatements {config : Config} {code : List (Instruction Nat)}
    {labelled : LabelledBody} {points : List SequencePoint} {log : Log}
    {statements : List Statement} (hc : Contiguous 0 code)
    (hlen : labelled.instructions.length = code.length)
    (h : readStatements config code labelled points = (log, .ok statements)) :
    statements ≠ [] ∧ statements.Pairwise (fun a b => a.span.stop ≤ b.span.start) ∧
      ∀ s ∈ statements, s.Sound labelled.instructions := by
  unfold readStatements at h
  cases hsegment : Span.segment code points (allows config) with
  | mk log' spans =>
    rw [hsegment] at h
    obtain ⟨-, h⟩ := Prod.mk.inj h
    obtain ⟨spans', hspans, hrest⟩ := Result.bind_eq_ok.mp h
    rw [Result.mapError_eq_ok] at hspans
    subst hspans
    split at hrest
    · cases hrest
    · next hne =>
      rw [Result.mapError_eq_ok] at hrest
      obtain ⟨hapart, hwithin⟩ := Span.segment_spec (hc.ascending.imp Nat.le_of_lt) hsegment
      rw [← hlen] at hwithin
      obtain ⟨hmap, hsound⟩ := Statement.ofSpans_spec hwithin hrest
      rw [← hmap, List.pairwise_map] at hapart
      refine ⟨?_, hapart, hsound⟩
      rintro rfl
      exact hne (by rw [← hmap]; rfl)

theorem of_prepare {config : Config} {symbols : SymbolReader} {probe : Token}
    {method : MethodDef} {log : Log} {p : PreparedBody}
    (h : prepare config symbols probe method = (log, .ok p)) :
    Prepared symbols probe method p := by
  unfold prepare at h
  split at h
  · cases h
  · next data hdata =>
    split at h
    · cases h
    · next log' points hpoints =>
      split at h
      · cases h
      · next stored code labelled hcode =>
        obtain ⟨-, h⟩ := Prod.mk.inj h
        obtain ⟨statements, hstatements, rfl⟩ := Result.map_eq_ok.mp h
        obtain ⟨hstored, hdecode, hcalls, hlower⟩ := of_readCode hcode
        obtain ⟨hc, hsize, hreadable⟩ := of_decode hdecode
        rw [← hsize] at hlower
        have hlen := (of_lower hc hlower).1.length_eq
        obtain ⟨hne, hapart, hsound⟩ :=
          of_readStatements hc hlen.symm (Prod.ext rfl hstatements)
        rw [hsize] at hlower
        obtain rfl := of_readPoints hpoints
        exact ⟨⟨points, hpoints⟩, ⟨data, hdata, hstored⟩, hdecode, hcalls, hlower, hne, hapart,
          hsound⟩

namespace Prepared

variable {symbols : SymbolReader} {probe : Token} {method : MethodDef} {p : PreparedBody}
  (hp : Prepared symbols probe method p)
include hp

theorem contiguous : Contiguous 0 p.code := (of_decode hp.code).1

theorem size_eq : streamSize p.code = p.stored.code.length := (of_decode hp.code).2.1

theorem lowered : List.Forall₂ (Lowers p.code) p.code p.labelled.instructions ∧
    List.Forall₂ (Clause.Rel fun o k => k ≤ p.code.length ∧ position p.code k = o)
      (p.stored.clauses.map (Clause.map UInt32.toNat)) p.labelled.clauses := by
  apply of_lower hp.contiguous
  rw [hp.size_eq]
  exact hp.labelled

theorem length_labelled : p.labelled.instructions.length = p.code.length :=
  hp.lowered.1.length_eq.symm

theorem wellFormed : p.labelled.WellFormed := by
  have hlower := hp.labelled
  rw [← hp.size_eq] at hlower
  exact wellFormed_of_lower hp.contiguous (fun i hi => ((of_decode hp.code).2.2 i hi).fits) hlower

theorem noCallTo : NoCallTo probe p.labelled := by
  intro j hj
  obtain ⟨i, hi, hij⟩ := Result.exists_mem_left hp.lowered.1 hj
  rw [Instruction.isCallTo_eq_of_shape hij.opcode hij.shape]
  exact hp.noCall i hi

/-- Lowering keeps the order of positions. -/
theorem ordered : ∀ c ∈ p.labelled.clauses, c.Ordered := by
  intro d hd
  obtain ⟨data, -, hdata⟩ := hp.stored
  obtain ⟨c, hc, hcd⟩ := Result.exists_mem_left hp.lowered.2 hd
  obtain ⟨c, hc', rfl⟩ := List.mem_map.mp hc
  have hordered : (c.map UInt32.toNat).Ordered :=
    ((MethodBody.of_ofBytes hdata).2 c hc').map fun x _ y _ hxy => hxy
  refine hcd.ordered ?_ hordered
  intro x x' y y' hxy hxy' hle
  rcases Nat.lt_or_ge y' y with hlt | hge
  · have := position_lt hlt hxy.1
    omega
  · exact hge

/-- Offsets in a stored body fit 32 bits. -/
theorem size_lt : streamSize p.code < UInt32.size := by
  obtain ⟨data, -, hdata⟩ := hp.stored
  rw [hp.size_eq]
  exact (MethodBody.of_ofBytes hdata).1

end Prepared

end PreparedBody

/-! ## Rewriting -/

namespace Instrumenter

open PreparedBody

/-- What a method was rewritten to: the body of the method with the probes of its numbered
statements, laid out. -/
structure Rewriting (symbols : SymbolReader) (probe : Token) (method : MethodDef)
    (p : PreparedBody) (ns : List NumberedStatement) (is : List (Instruction Nat))
    (r : Relinked) : Prop where
  prepared : Prepared symbols probe method p
  numbers : List.Forall₂ NumberedStatement.NumbersAll p.statements ns
  nodup : (ns.flatMap NumberedStatement.ids).Nodup
  layout : LaidOutTo (p.labelled.insertProbes (NumberedStatement.plan ns) probe) is r

/-- The code that a method is rewritten to, if it can be prepared and there are ids left. -/
def rewritten? (config : Config) (symbols : SymbolReader) (ids : HitIds) (probe : Token)
    (method : MethodDef) : Option Bytes :=
  match (prepare config symbols probe method).2 with
  | .error _ => none
  | .ok p =>
    match ids.reserve (Statement.idCountAll p.statements) with
    | none => none
    | some (first, _) =>
      let plan := NumberedStatement.plan (NumberedStatement.number first p.statements)
      match (p.labelled.insertProbes plan probe).relink with
      | .error _ => none
      | .ok r => some r.code

/-- The body of a method with the probes of its statements, numbered from an id on. -/
def probed (p : PreparedBody) (first : HitId) (probe : Token) : LabelledBody :=
  p.labelled.insertProbes (NumberedStatement.plan (NumberedStatement.number first p.statements))
    probe

/-- The body with probes that a method gets, if it can be prepared and there are ids left. -/
def probed? (config : Config) (symbols : SymbolReader) (ids : HitIds) (probe : Token)
    (method : MethodDef) : Option LabelledBody :=
  match (prepare config symbols probe method).2 with
  | .error _ => none
  | .ok p => (ids.reserve (Statement.idCountAll p.statements)).map fun taken =>
    probed p taken.1 probe

theorem probed?_of_prepare {config : Config} {symbols : SymbolReader} {probe : Token}
    {method : MethodDef} {log : Log} {p : PreparedBody}
    (h : prepare config symbols probe method = (log, .ok p)) (ids : HitIds) :
    probed? config symbols ids probe method =
      (ids.reserve (Statement.idCountAll p.statements)).map fun taken =>
        probed p taken.1 probe := by
  rw [probed?, h]

/-- The stored form of a body that was rewritten, but for its header. -/
structure StoredAs (r : Relinked) (bytes : Bytes) (b : MethodBody) : Prop where
  bytes : b.toBytes = .ok bytes
  code : b.code = r.code
  clauses : b.clauses = r.clauses.map (Clause.map UInt32.ofNat)

/-- What is stored for a body with probes: the code and the clauses that it was laid out to, and
a stack size that goes by the depth found for the body. -/
def rebuilt (p : PreparedBody) (body : LabelledBody) (callEffect : Token → Option StackEffect)
    (r : Relinked) : MethodBody :=
  { p.stored with
    maxStack := declaredStack p.stored.maxStack
      (StackDepth.maxStack? body.instructions body.clauses callEffect)
    code := r.code
    clauses := r.clauses.map (Clause.map UInt32.ofNat) }

theorem assemble_of_relink {p : PreparedBody} {plan : ProbePlan} {probe : Token} {r : Relinked}
    (h : (p.labelled.insertProbes plan probe).relink = .ok r)
    (callEffect : Token → Option StackEffect) (name : String) :
    (p.assemble plan probe callEffect name).2 =
      (rebuilt p (p.labelled.insertProbes plan probe) callEffect r).toBytes := by
  unfold assemble
  dsimp only
  rw [h]
  rfl

/-- A method that got its ids: what it was rewritten to, and what that leads to. -/
structure Numbered (config : Config) (symbols : SymbolReader)
    (callEffect : Token → Option StackEffect) (ids : HitIds) (probe : Token) (method : MethodDef)
    (p : PreparedBody) (first : HitId) (rest : HitIds) (is : List (Instruction Nat))
    (r : Relinked) : Prop where
  prepared : ∃ log, prepare config symbols probe method = (log, .ok p)
  reserved : ids.reserve (Statement.idCountAll p.statements) = some (first, rest)
  rewriting : Rewriting symbols probe method p (NumberedStatement.number first p.statements) is r
  probed : probed? config symbols ids probe method = some (probed p first probe)
  rewritten : rewritten? config symbols ids probe method = some r.code
  left : (newBody config symbols callEffect ids probe method).ids = rest
  result : (newBody config symbols callEffect ids probe method).result =
    ((rebuilt p (Instrumenter.probed p first probe) callEffect r).toBytes.mapError
        .invalidBody).map
      (·, documentSequences config.sourceRoot p.code method
        (NumberedStatement.number first p.statements))

/-- With its ids at hand, the body of a method is assembled with the plan of its statements. -/
theorem newBody_of_reserve {config : Config} {symbols : SymbolReader} {ids rest : HitIds}
    {probe : Token} {method : MethodDef} {log : Log} {p : PreparedBody} {first : HitId}
    (callEffect : Token → Option StackEffect)
    (hprepare : prepare config symbols probe method = (log, .ok p))
    (hreserve : ids.reserve (Statement.idCountAll p.statements) = some (first, rest)) :
    let numbered := NumberedStatement.number first p.statements
    let a := p.assemble (NumberedStatement.plan numbered) probe callEffect method.fullName
    newBody config symbols callEffect ids probe method =
      ⟨(a.2.mapError .invalidBody).map
        (·, documentSequences config.sourceRoot p.code method numbered), rest, log ++ a.1⟩ := by
  unfold newBody
  rw [hprepare]
  dsimp only
  rw [hreserve]

/-- A method is left alone without taking ids, or takes ids and is rewritten. -/
theorem newBody_cases (config : Config) (symbols : SymbolReader)
    (callEffect : Token → Option StackEffect) (ids : HitIds) (probe : Token)
    (method : MethodDef) :
    (∃ reason log, newBody config symbols callEffect ids probe method =
        ⟨.error reason, ids, log⟩ ∧ probed? config symbols ids probe method = none) ∨
      ∃ p first rest is r,
        Numbered config symbols callEffect ids probe method p first rest is r := by
  cases hprepare : prepare config symbols probe method with
  | mk log result =>
    cases result with
    | error reason =>
      exact Or.inl ⟨reason, log, by rw [newBody, hprepare], by rw [probed?, hprepare]⟩
    | ok p =>
      cases hreserve : ids.reserve (Statement.idCountAll p.statements) with
      | none =>
        refine Or.inl ⟨.idsExhausted, log, ?_, ?_⟩
        · unfold newBody
          rw [hprepare]
          dsimp only
          rw [hreserve]
        · rw [probed?_of_prepare hprepare, hreserve]
          rfl
      | some taken =>
        obtain ⟨first, rest⟩ := taken
        have hp := of_prepare hprepare
        obtain ⟨hnumbers, hids⟩ := NumberedStatement.number_spec first p.statements
        have hfits := NumberedStatement.plan_fits hnumbers hp.sound
        obtain ⟨is, r, hr, hlaid⟩ := relink_ok (insertProbes_wellFormed hp.wellFormed hfits)
        have hnodup : ((NumberedStatement.number first p.statements).flatMap
            NumberedStatement.ids).Nodup := by
          rw [hids]
          exact HitIds.of_reserve hreserve
        have hnew := newBody_of_reserve callEffect hprepare hreserve
        have hstored : _ = (rebuilt p (probed p first probe) callEffect r).toBytes :=
          assemble_of_relink hr callEffect method.fullName
        refine Or.inr ⟨p, first, rest, is, r, ⟨log, hprepare⟩, hreserve,
          ⟨hp, hnumbers, hnodup, hlaid⟩, ?_, ?_, by rw [hnew], by rw [hnew, hstored]⟩
        · rw [probed?_of_prepare hprepare, hreserve]
          rfl
        · unfold rewritten?
          rw [hprepare]
          dsimp only
          rw [hreserve]
          dsimp only
          rw [hr]

/-- A method with a new body got its ids, and the new body was stored. -/
theorem numbered_of_newBody {config : Config} {symbols : SymbolReader}
    {callEffect : Token → Option StackEffect} {ids : HitIds} {probe : Token}
    {method : MethodDef} {bytes : Bytes} {sequences : List DocumentSequence}
    (h : (newBody config symbols callEffect ids probe method).result = .ok (bytes, sequences)) :
    ∃ p first rest is r, Numbered config symbols callEffect ids probe method p first rest is r ∧
      (rebuilt p (probed p first probe) callEffect r).toBytes = .ok bytes ∧
      sequences = documentSequences config.sourceRoot p.code method
        (NumberedStatement.number first p.statements) := by
  rcases newBody_cases config symbols callEffect ids probe method with
    ⟨reason, log, hskip, -⟩ | ⟨p, first, rest, is, r, hn⟩
  · rw [hskip] at h
    cases h
  · rw [hn.result] at h
    obtain ⟨stored, hstored, hpair⟩ := Result.map_eq_ok.mp h
    obtain ⟨rfl, rfl⟩ := Prod.mk.inj hpair
    exact ⟨p, first, rest, is, r, hn, Result.mapError_eq_ok.mp hstored, rfl⟩

theorem of_newBody {config : Config} {symbols : SymbolReader}
    {callEffect : Token → Option StackEffect} {ids : HitIds} {probe : Token}
    {method : MethodDef} {bytes : Bytes} {sequences : List DocumentSequence}
    (h : (newBody config symbols callEffect ids probe method).result = .ok (bytes, sequences)) :
    ∃ p ns is r b, Rewriting symbols probe method p ns is r ∧ StoredAs r bytes b ∧
      rewritten? config symbols ids probe method = some r.code ∧
      sequences = documentSequences config.sourceRoot p.code method ns := by
  obtain ⟨p, first, rest, is, r, hn, hbytes, hsequences⟩ := numbered_of_newBody h
  exact ⟨p, _, is, r, _, hn.rewriting, ⟨hbytes, rfl, rfl⟩, hn.rewritten, hsequences⟩

/-- How the work on a method ends: there is no new body, or the module takes it, or the module
does not know the method. -/
theorem instrumentMethod_cases (config : Config) (symbols : SymbolReader) (module : Module)
    (ids : HitIds) (probe : Token) (method : MethodDef) :
    let r := instrumentMethod config symbols module ids probe method
    let b := newBody config symbols module.callEffect? ids probe method
    (∃ reason, b.result = .error reason ∧
        r = ⟨.ok (.skipped reason), module, b.ids, b.log⟩) ∨
      (∃ bytes sequences module', b.result = .ok (bytes, sequences) ∧
        module.replaceBody method.token bytes = .ok module' ∧
        r = ⟨.ok (.instrumented sequences), module', b.ids, b.log⟩) ∨
      ∃ new e, b.result = .ok new ∧ (module.method? method.token).isSome = false ∧
        r = ⟨.error e, module, b.ids, b.log⟩ := by
  intro r b
  have hr : r = instrumentMethod config symbols module ids probe method := rfl
  unfold instrumentMethod at hr
  dsimp only at hr
  cases hresult : b.result with
  | error reason =>
    rw [hresult] at hr
    exact Or.inl ⟨reason, rfl, hr⟩
  | ok new =>
    obtain ⟨bytes, sequences⟩ := new
    rw [hresult] at hr
    dsimp only at hr
    cases hknown : (module.method? method.token).isSome with
    | true =>
      obtain ⟨module', hreplaced⟩ := Module.exists_replaceBody hknown bytes
      rw [hreplaced] at hr
      exact Or.inr (Or.inl ⟨bytes, sequences, module', rfl, hreplaced, hr⟩)
    | false =>
      rw [Module.replaceBody, if_neg (by rw [hknown]; decide)] at hr
      exact Or.inr (Or.inr ⟨(bytes, sequences), _, rfl, rfl, hr⟩)

/-- An instrumented method has a new body, which the module holds. -/
theorem newBody_of_instrumentMethod {config : Config} {symbols : SymbolReader} {module : Module}
    {ids : HitIds} {probe : Token} {method : MethodDef} {sequences : List DocumentSequence}
    (h : (instrumentMethod config symbols module ids probe method).outcome =
      .ok (.instrumented sequences)) :
    ∃ bytes,
      (newBody config symbols module.callEffect? ids probe method).result =
        .ok (bytes, sequences) ∧
      module.replaceBody method.token bytes =
        .ok (instrumentMethod config symbols module ids probe method).module := by
  rcases instrumentMethod_cases config symbols module ids probe method with
    ⟨reason, -, hr⟩ | ⟨bytes, sequences', module', hresult, hreplaced, hr⟩ | ⟨new, e, -, -, hr⟩
  · rw [hr] at h
    cases h
  · rw [hr] at h ⊢
    cases h
    exact ⟨bytes, hresult, hreplaced⟩
  · rw [hr] at h
    cases h

/-- A new body of a method that the module knows is put into the module. -/
theorem instrumentMethod_of_newBody {config : Config} {symbols : SymbolReader} {module : Module}
    {ids : HitIds} {probe : Token} {method : MethodDef} {bytes : Bytes}
    {sequences : List DocumentSequence} (hknown : (module.method? method.token).isSome = true)
    (h : (newBody config symbols module.callEffect? ids probe method).result =
      .ok (bytes, sequences)) :
    (instrumentMethod config symbols module ids probe method).outcome =
        .ok (.instrumented sequences) ∧
      module.replaceBody method.token bytes =
        .ok (instrumentMethod config symbols module ids probe method).module := by
  rcases instrumentMethod_cases config symbols module ids probe method with
    ⟨reason, hresult, -⟩ | ⟨bytes', sequences', module', hresult, hreplaced, hr⟩ |
      ⟨new, e, -, hunknown, -⟩
  · cases h.symm.trans hresult
  · obtain ⟨rfl, rfl⟩ := Prod.mk.inj (Except.ok.inj (h.symm.trans hresult))
    rw [hr]
    exact ⟨rfl, hreplaced⟩
  · cases hknown.symm.trans hunknown

/-- An instrumented method was rewritten, and the module holds its new body. -/
theorem of_instrumentMethod {config : Config} {symbols : SymbolReader} {module : Module}
    {ids : HitIds} {probe : Token} {method : MethodDef} {sequences : List DocumentSequence}
    (h : (instrumentMethod config symbols module ids probe method).outcome =
      .ok (.instrumented sequences)) :
    ∃ p ns is r b bytes, Rewriting symbols probe method p ns is r ∧ StoredAs r bytes b ∧
      rewritten? config symbols ids probe method = some r.code ∧
      sequences = documentSequences config.sourceRoot p.code method ns ∧
      module.replaceBody method.token bytes =
        .ok (instrumentMethod config symbols module ids probe method).module := by
  obtain ⟨bytes, hresult, hmodule⟩ := newBody_of_instrumentMethod h
  obtain ⟨p, ns, is, r, b, hrewriting, hstored, hcode, hsequences⟩ := of_newBody hresult
  exact ⟨p, ns, is, r, b, bytes, hrewriting, hstored, hcode, hsequences, hmodule⟩

/-! ## The stored form -/

namespace Rewriting

variable {symbols : SymbolReader} {probe : Token} {method : MethodDef} {p : PreparedBody}
  {ns : List NumberedStatement} {is : List (Instruction Nat)} {r : Relinked}
  (hw : Rewriting symbols probe method p ns is r)
include hw

theorem fits : (NumberedStatement.plan ns).Fits p.labelled :=
  NumberedStatement.plan_fits hw.numbers hw.prepared.sound

theorem wellFormed :
    (p.labelled.insertProbes (NumberedStatement.plan ns) probe).WellFormed :=
  insertProbes_wellFormed hw.prepared.wellFormed hw.fits

theorem ordered : ∀ c ∈ r.clauses, c.Ordered := by
  intro c hc
  rw [hw.layout.clauses, clauses_insertProbes, List.map_map] at hc
  obtain ⟨d, hd, rfl⟩ := List.mem_map.mp hc
  have hentry : (d.map (entry (NumberedStatement.plan ns) probe p.labelled)).Ordered :=
    (hw.prepared.ordered d hd).map fun x _ y hy hxy =>
      entry_mono _ probe hxy (hw.prepared.wellFormed.clauses d hd y hy)
  exact hentry.map fun x _ y _ hxy => position_mono hxy

theorem positions_le : ∀ c ∈ r.clauses, ∀ o ∈ c.positions, o ≤ r.code.length := by
  intro c hc o ho
  rw [hw.layout.clauses] at hc
  obtain ⟨d, -, rfl⟩ := List.mem_map.mp hc
  rw [Clause.positions_map] at ho
  obtain ⟨k, -, rfl⟩ := List.mem_map.mp ho
  rw [hw.layout.length_code]
  exact position_le is k

variable (hsize : r.code.length < 2 ^ 32)
include hsize

theorem toNat_ofNat_position : ∀ c ∈ r.clauses, ∀ o ∈ c.positions,
    (UInt32.ofNat o).toNat = o := by
  intro c hc o ho
  have := hw.positions_le c hc o ho
  exact UInt32.toNat_ofNat_of_lt' (Nat.lt_of_le_of_lt this hsize)

/-- What is stored can be read back. -/
theorem ofBytes_asStored {bytes : Bytes} {b : MethodBody} (hb : StoredAs r bytes b) :
    MethodBody.ofBytes bytes = .ok b.asStored ∧ ∀ c ∈ b.asStored.clauses, c.Ordered := by
  have hordered : ∀ c ∈ b.clauses, c.Ordered := by
    intro c hc
    rw [hb.clauses] at hc
    obtain ⟨d, hd, rfl⟩ := List.mem_map.mp hc
    apply (hw.ordered d hd).map
    intro x hx y hy hxy
    rw [UInt32.le_iff_toNat_le, hw.toNat_ofNat_position hsize d hd x hx,
      hw.toNat_ofNat_position hsize d hd y hy]
    exact hxy
  have hparse := MethodBody.ofBytes_toBytes hb.bytes (by rwa [hb.code]) hordered []
  rw [List.append_nil] at hparse
  rw [← b.clauses_asStored] at hordered
  exact ⟨hparse, hordered⟩

theorem clauses_asStored_eq {bytes : Bytes} {b : MethodBody} (hb : StoredAs r bytes b) :
    b.asStored.clauses.map (Clause.map UInt32.toNat) = r.clauses := by
  have hback : ∀ c ∈ r.clauses, (c.map UInt32.ofNat).map UInt32.toNat = c := by
    intro c hc
    rw [Clause.map_map]
    exact Clause.map_eq_self (hw.toNat_ofNat_position hsize c hc)
  rw [b.clauses_asStored, hb.clauses, List.map_map]
  exact (List.map_congr_left hback).trans (List.map_id _)

/-- What is read back of the stored body. -/
theorem ofBytes_eq {bytes : Bytes} {b : MethodBody} (hb : StoredAs r bytes b) :
    ∃ stored, MethodBody.ofBytes bytes = .ok stored ∧ stored.code = r.code ∧
      stored.clauses.map (Clause.map UInt32.toNat) = r.clauses ∧
      ∀ c ∈ stored.clauses, c.Ordered := by
  obtain ⟨hparse, hordered⟩ := hw.ofBytes_asStored hsize hb
  exact ⟨b.asStored, hparse, b.code_asStored.trans hb.code, hw.clauses_asStored_eq hsize hb,
    hordered⟩

end Rewriting

end Instrumenter

end CilCoverage
