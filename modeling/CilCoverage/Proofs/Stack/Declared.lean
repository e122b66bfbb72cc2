/-
  The declared stack size of an instrumented method is enough.

  If the depth of the new body could be computed, it is declared, and it is
  exact. If not, because the effect of a call is not known, one slot more than
  before is declared, which is what probes need (`bounds_insertProbes`). Either
  way the number that is read back is no less, also from a tiny header, and the
  body that is read back has the same walks (`LaidOutTo.bounds_settled`).

  This takes a module with rows for all its member references. With one more,
  the row of the probe can be given out again, and the module tells something
  else about a call of the probe (`declaredStack_falls_short`).
-/
import CilCoverage.Proofs.Modules
import CilCoverage.Proofs.Rewriting
import CilCoverage.Proofs.Stack.Exactness
import CilCoverage.Proofs.Stack.Probed

namespace CilCoverage

open StackDepth

/-- What a stored body is read as, with its code as instructions that refer to each other. -/
structure Opens (data : Bytes) (stored : MethodBody) (body : LabelledBody) : Prop where
  parsed : MethodBody.ofBytes data = .ok stored
  lowered : ∃ code, Code.decode stored.code = .ok code ∧
    LabelledBody.lower code (stored.clauses.map (Clause.map UInt32.toNat)) stored.code.length =
      .ok body

theorem Opens.unique {data : Bytes} {stored stored' : MethodBody} {body body' : LabelledBody}
    (h : Opens data stored body) (h' : Opens data stored' body') :
    stored' = stored ∧ body' = body := by
  obtain rfl := Except.ok.inj (h.parsed.symm.trans h'.parsed)
  obtain ⟨code, hcode, hbody⟩ := h.lowered
  obtain ⟨code', hcode', hbody'⟩ := h'.lowered
  obtain rfl := Except.ok.inj (hcode.symm.trans hcode')
  exact ⟨rfl, (Except.ok.inj (hbody.symm.trans hbody')).symm⟩

namespace PreparedBody

theorem le_declaredStack (before : UInt16) {depth : Nat} (h : depth < UInt16.size) :
    depth ≤ (declaredStack before (some depth)).toNat := by
  rw [toNat_declaredStack_some, UInt16.toNat_ofNat_of_lt' h]
  exact Nat.le_max_left ..

theorem declaredStack_none {before : UInt16} (h : before.toNat < 65535) :
    (declaredStack before none).toNat = before.toNat + 1 := by
  have hsize : UInt16.size = 65536 := rfl
  rw [toNat_declaredStack_none]
  omega

end PreparedBody

namespace LabelledBody

open Layout in
/-- A body that was laid out has the walks that it had before. -/
theorem LaidOutTo.bounds_settled {body : LabelledBody} {is : List (Instruction Nat)}
    {r : Relinked} (hr : LaidOutTo body is r) {callEffect : Token → Option StackEffect}
    {bound : Nat} (hb : Bounds body callEffect bound) :
    Bounds ⟨settled is, body.clauses⟩ callEffect bound := by
  have halike : List.Forall₂ (Alike callEffect) body.instructions (settled is) :=
    forall₂_settled
      (hr.stretched.imp fun i j hij =>
        hij.opcode.elim (alike_of_opcode_eq hij.operand) (alike_of_longForm? hij.operand))
      fun i j offset hij => ⟨hij.effect, hij.clearsStack, hij.fallsThrough, hij.targets⟩
  have hclauses : (⟨settled is, body.clauses⟩ : LabelledBody).clauses = body.clauses := rfl
  exact fun n hn => hb n (occurs_of_alike hclauses halike hn)

end LabelledBody

/-- What was found out about a body is what is read of it. -/
theorem PreparedBody.Prepared.opens {symbols : SymbolReader} {probe : Token}
    {method : MethodDef} {p : PreparedBody} (hp : Prepared symbols probe method p) :
    ∃ data, method.body = some data ∧ Opens data p.stored p.labelled := by
  obtain ⟨data, hdata, hstored⟩ := hp.stored
  exact ⟨data, hdata, hstored, p.code, hp.code, hp.labelled⟩

namespace Instrumenter

open LabelledBody PreparedBody

/-- What is stored is read as the body that was laid out. -/
theorem Rewriting.opens {symbols : SymbolReader} {probe : Token} {method : MethodDef}
    {p : PreparedBody} {ns : List NumberedStatement} {is : List (Instruction Nat)} {r : Relinked}
    (hw : Rewriting symbols probe method p ns is r) (hsize : r.code.length ≤ 2 ^ 31)
    {bytes : Bytes} {b : MethodBody} (hb : StoredAs r bytes b) :
    ∃ stored, Opens bytes stored ⟨Layout.settled is,
      (p.labelled.insertProbes (NumberedStatement.plan ns) probe).clauses⟩ := by
  obtain ⟨stored, hparse, hcode, hclauses, -⟩ := hw.ofBytes_eq (by omega) hb
  refine ⟨stored, hparse, Layout.laidOut is, ?_, ?_⟩
  · rw [hcode]
    exact hw.layout.decode_eq hw.wellFormed hsize
  · rw [hcode, hclauses]
    exact hw.layout.lower_eq hw.wellFormed

/-- The stack size written for a body with probes is enough for it, if the one before was. -/
theorem bounds_rebuilt {p : PreparedBody} {plan : ProbePlan} {probe : Token}
    {callEffect more : Token → Option StackEffect} (hwf : p.labelled.WellFormed)
    (hfits : plan.Fits p.labelled) (hprobe : callEffect probe = some ProbeReference.effect)
    (hext : Extends more callEffect) (hroom : p.stored.maxStack.toNat < 65535)
    (hb : Bounds p.labelled more p.stored.maxStack.toNat) (r : Relinked) :
    Bounds (p.labelled.insertProbes plan probe) more
      (rebuilt p (p.labelled.insertProbes plan probe) callEffect r).maxStack.toNat := by
  show Bounds _ more (declaredStack p.stored.maxStack (maxStack? _ _ callEffect)).toNat
  cases hdepth : maxStack? (p.labelled.insertProbes plan probe).instructions
      (p.labelled.insertProbes plan probe).clauses callEffect with
  | some depth =>
    have hle := le_declaredStack p.stored.maxStack (lt_of_maxStack? hdepth)
    exact (bounds_of_maxStack? hdepth hext).mono hle
  | none =>
    rw [declaredStack_none hroom]
    exact bounds_insertProbes hwf.closed hfits.covers (hext _ _ hprobe) hb

/-- In a module with rows for all its member references: if the stack size of a method was enough,
so is the one that is read back after the method was instrumented, whatever else is told about
calls. -/
theorem declaredStack_suffices {config : Config} {symbols : SymbolReader} {module : Module}
    {ids : HitIds} {probe : Token} {method : MethodDef} {sequences : List DocumentSequence}
    (hbuilt : module.Built) (hrows : module.memberRefs.length ≤ 2 ^ 24)
    (hprobe : module.probeToken? = some probe)
    (h : (instrumentMethod config symbols module ids probe method).outcome =
      .ok (.instrumented sequences)) :
    let module' := (instrumentMethod config symbols module ids probe method).module
    ∃ data stored old new code m bytes,
      method.body = some data ∧ Opens data stored old ∧
      probed? config symbols ids probe method = some new ∧
      rewritten? config symbols ids probe method = some code ∧
      module'.method? method.token = some m ∧ m.body = some bytes ∧
      ∀ more, Extends more module.callEffect? → stored.maxStack.toNat < 65535 →
        Bounds old more stored.maxStack.toNat →
          (∀ stored', MethodBody.ofBytes bytes = .ok stored' →
            Bounds new more stored'.maxStack.toNat) ∧
          (code.length ≤ 2 ^ 31 → ∃ stored' new', Opens bytes stored' new' ∧
            Bounds new' more stored'.maxStack.toNat) := by
  obtain ⟨bytes, hresult, hreplaced⟩ := newBody_of_instrumentMethod h
  obtain ⟨m, hm, -, hbody⟩ := Module.method?_of_replaceBody hreplaced
  obtain ⟨p, first, rest, is, r, hn, hbytes, -⟩ := numbered_of_newBody hresult
  have hw := hn.rewriting
  obtain ⟨data, hdata, hopens⟩ := hw.prepared.opens
  refine ⟨data, p.stored, p.labelled, probed p first probe, r.code, m, bytes, hdata, hopens,
    hn.probed, hn.rewritten, hm, hbody, ?_⟩
  intro more hext hroom hb
  have heffect : module.callEffect? probe = some ProbeReference.effect :=
    hbuilt.callEffect?_probe hrows hprobe
  have hwritten : Bounds (probed p first probe) more
      (rebuilt p (probed p first probe) module.callEffect? r).maxStack.toNat :=
    bounds_rebuilt hw.prepared.wellFormed hw.fits heffect hext hroom hb r
  have hread : ∀ stored', MethodBody.ofBytes bytes = .ok stored' →
      Bounds (probed p first probe) more stored'.maxStack.toNat := by
    intro stored' hstored'
    have hle := (MethodBody.header_of_ofBytes hbytes hstored').1
    exact hwritten.mono (UInt16.le_iff_toNat_le.mp hle)
  refine ⟨hread, ?_⟩
  intro hsize
  obtain ⟨stored', hopens'⟩ := hw.opens hsize ⟨hbytes, rfl, rfl⟩
  exact ⟨stored', _, hopens', hw.layout.bounds_settled (hread stored' hopens'.parsed)⟩

/-- A body with room for one value that gives one to a method about which nothing is known:
`ldc.i4.1; call 06000002; ret`. -/
def callingBytes : Bytes :=
  [0x03, 0x30, 1, 0, 7, 0, 0, 0, 1, 0, 0, 0x11, 0x17, 0x28, 2, 0, 0, 0x06, 0x2a]

def calling : MethodDef := ⟨⟨0x06000001⟩, "A", "c", some callingBytes⟩

def callingStored : MethodBody where
  maxStack := 1
  initLocals := false
  localSig := ⟨0x11000001⟩
  code := [0x17, 0x28, 2, 0, 0, 0x06, 0x2a]
  clauses := []

def callingBody : LabelledBody where
  instructions := [⟨0, .ldcI41, .none⟩, ⟨1, .call, .token ⟨0x06000002⟩⟩, ⟨6, .ret, .none⟩]
  clauses := []

theorem opens_calling : Opens callingBytes callingStored callingBody :=
  ⟨by decide +kernel, callingBody.instructions, by decide +kernel, by decide +kernel⟩

/-- Its one sequence point is before the call, where there is a value on the stack. -/
def callingSymbols : SymbolReader := fun _ => .ok (some [⟨1, "a.cs", 1, 1, 1, 9⟩])

/-- What is recorded of it. -/
def callingSequence : Sequence where
  hitId := 1
  offset := 1
  startLine := 1
  startColumn := 1
  endLine := 1
  endColumn := 9
  method := ⟨"A", "c", "A::c"⟩
  instruction := "IL_0001: call 0x06000002"
  conditions := []

/-- The module of the method, after the probe was imported. -/
def callingModule : Module :=
  { Module.new "a" [] with
    references := [Config.standard.probe.assembly]
    methods := [calling]
    memberRefs := [⟨Config.standard.probe.memberName, ProbeReference.effect⟩]
    probe := some (Config.standard.probe, ⟨0x0a000001⟩) }

theorem built_callingModule : callingModule.Built := by
  have himport : ((Module.new "a" []).addMethod "A" "c" calling.body).2.importProbe
      Config.standard.probe = .ok (⟨0x0a000001⟩, callingModule) := rfl
  exact .importProbe (.addMethod (.new "a" []) _ _ _) himport

theorem declaredStack_suffices_calling :
    let probe : Token := ⟨0x0a000001⟩
    let more : Token → Option StackEffect := fun _ => some ⟨1, 0⟩
    let r := instrumentMethod Config.standard callingSymbols callingModule .start probe calling
    callingModule.Built ∧ callingModule.memberRefs.length ≤ 2 ^ 24 ∧
      callingModule.probeToken? = some probe ∧
      r.outcome = .ok (.instrumented [⟨"a.cs", callingSequence⟩]) ∧
      Extends more callingModule.callEffect? ∧ Bounds callingBody more 1 ∧
      ∃ m bytes stored new,
        r.module.method? calling.token = some m ∧ m.body = some bytes ∧
        Opens bytes stored new ∧ stored.maxStack = 2 ∧ Bounds new more 2 := by
  intro probe more r
  have hrows : callingModule.memberRefs.length ≤ 2 ^ 24 := by decide
  have h : r.outcome = .ok (.instrumented [⟨"a.cs", callingSequence⟩]) := by decide +kernel
  have hext : Extends more callingModule.callEffect? := by
    intro token e he
    obtain ⟨l₁, l₂, hl, -⟩ := List.lookup_eq_some_iff.mp he
    have hmem : (token, e) ∈ callingModule.effects.reverse := hl ▸ by simp
    have heffect : e = ProbeReference.effect := congrArg Prod.snd (List.mem_singleton.mp hmem)
    rw [heffect]
    rfl
  have hdepth : maxStack? callingBody.instructions callingBody.clauses more = some 1 := by
    decide +kernel
  have hb : Bounds callingBody more 1 := bounds_of_maxStack? hdepth fun _ _ he => he
  have hsize : ∀ code, rewritten? Config.standard callingSymbols .start probe calling = some code →
      code.length ≤ 2 ^ 31 := by decide +kernel
  have hstack : ((r.module.method? calling.token).bind MethodDef.body).map
      (fun data => (MethodBody.ofBytes data).map MethodBody.maxStack) = some (.ok 2) := by
    decide +kernel
  obtain ⟨data, stored, old, new, code, m, bytes, hdata, hold, -, hcode, hm, hbytes, hall⟩ :=
    declaredStack_suffices built_callingModule hrows rfl h
  obtain rfl : callingBytes = data := Option.some.inj hdata
  obtain ⟨rfl, rfl⟩ := opens_calling.unique hold
  obtain ⟨-, hback⟩ := hall more hext (by decide) hb
  obtain ⟨stored, new, hnew, hbounds⟩ := hback (hsize code hcode)
  rw [hm, Option.bind_some, hbytes, Option.map_some, hnew.parsed] at hstack
  have htwo : stored.maxStack = 2 := Except.ok.inj (Option.some.inj hstack)
  rw [htwo] at hbounds
  exact ⟨built_callingModule, hrows, rfl, h, hext, hb, m, bytes, stored, new, hm, hbytes, hnew,
    htwo, hbounds⟩

/-! ## The row of the probe, given out again -/

/-- A reference to a method that returns a value. -/
def returning : MemberRef := ⟨"B::v", ⟨0, 1⟩⟩

/-- The module of the method, with further references after the one to the probe. -/
def crowded (count : Nat) : Module :=
  { callingModule with
    memberRefs := callingModule.memberRefs ++ List.replicate count returning }

theorem crowded_succ (count : Nat) :
    crowded (count + 1) =
      ((crowded count).addMemberRef returning.name returning.effect).2 := by
  rw [crowded, List.replicate_succ', ← List.append_assoc]
  rfl

theorem length_crowded (count : Nat) : (crowded count).memberRefs.length = 1 + count := by
  rw [crowded, List.length_append, List.length_replicate]
  rfl

theorem built_crowded (count : Nat) : (crowded count).Built := by
  induction count with
  | zero => exact built_callingModule
  | succ count ih =>
    rw [crowded_succ]
    exact ih.addMemberRef ..

theorem probeToken?_crowded (count : Nat) : (crowded count).probeToken? = some ⟨0x0a000001⟩ :=
  rfl

theorem callEffect?_crowded_of_lt {count k : Nat} (hk : k < count) :
    (crowded count).callEffect? (Token.ofParts Token.memberRefTable (k + 2)) =
      some returning.effect := by
  induction count with
  | zero => cases hk
  | succ count ih =>
    rw [crowded_succ, Module.callEffect?_addMemberRef]
    split
    · rfl
    · next hne =>
      refine ih (Nat.lt_of_le_of_ne (Nat.le_of_lt_succ hk) ?_)
      rintro rfl
      refine hne ?_
      rw [Module.addMemberRef, length_crowded]
      exact congrArg (Token.ofParts _) (by omega)

/-- With as many further references as there are rows, every row is that of one of them. -/
theorem callEffect?_crowded :
    (crowded Token.rowLimit).callEffect? =
      fun token => if token.table = Token.memberRefTable.toNat then some ⟨0, 1⟩ else none := by
  funext token
  split
  · next htable =>
    -- the number of the reference whose row this is
    let k := (token.row + (Token.rowLimit - 2)) % Token.rowLimit
    have hrow : token.row = (k + 2) % Token.rowLimit := by
      have hlt : token.row < Token.rowLimit := Nat.mod_lt _ (by decide)
      simp only [k, Token.rowLimit] at hlt ⊢
      omega
    rw [Token.eq_ofParts htable hrow]
    exact callEffect?_crowded_of_lt (Nat.mod_lt _ (by decide))
  · next hne =>
    rw [Option.eq_none_iff_forall_ne_some]
    intro effect heffect
    obtain ⟨k, -, rfl⟩ := Module.exists_of_callEffect? heffect
    exact hne (Token.table_ofParts _ _)

/-- The body of the method with its probe. -/
def crowdedBytes : Bytes :=
  [0x03, 0x30, 2, 0, 17, 0, 0, 0, 1, 0, 0, 0x11,
    0x17, 0x20, 1, 0, 0, 0, 0x28, 1, 0, 0, 0x0a, 0x28, 2, 0, 0, 0x06, 0x2a]

def crowdedStored : MethodBody where
  maxStack := 2
  initLocals := false
  localSig := ⟨0x11000001⟩
  code := [0x17, 0x20, 1, 0, 0, 0, 0x28, 1, 0, 0, 0x0a, 0x28, 2, 0, 0, 0x06, 0x2a]
  clauses := []

def crowdedBody : LabelledBody where
  instructions :=
    [⟨0, .ldcI41, .none⟩, ⟨1, .ldcI4, .int32 1⟩, ⟨6, .call, .token ⟨0x0a000001⟩⟩,
      ⟨11, .call, .token ⟨0x06000002⟩⟩, ⟨16, .ret, .none⟩]
  clauses := []

theorem opens_crowded : Opens crowdedBytes crowdedStored crowdedBody :=
  ⟨by decide +kernel, crowdedBody.instructions, by decide +kernel, by decide +kernel⟩

/-- A call of the probe that leaves a value is reached with two on the stack. -/
theorem not_bounds_crowdedBody {more : Token → Option StackEffect}
    (hmore : more ⟨0x0a000001⟩ = some ⟨0, 1⟩) : ¬ Bounds crowdedBody more 2 := by
  intro hbounds
  have hstart : Reached crowdedBody more 0 0 := .start .entry
  have hload : Reached crowdedBody more 1 1 :=
    .step hstart ⟨rfl, rfl, Nat.zero_le _⟩ (.inr ⟨rfl, by decide, rfl⟩)
  have hcall : Reached crowdedBody more 2 2 :=
    .step hload ⟨rfl, rfl, Nat.zero_le _⟩ (.inr ⟨rfl, by decide, rfl⟩)
  have hpasses : Passes crowdedBody more 2 2 ⟨6, .call, .token ⟨0x0a000001⟩⟩ ⟨0, 1⟩ :=
    ⟨rfl, hmore, Nat.zero_le _⟩
  have hthree : Occurs crowdedBody more 3 := .after hcall hpasses
  exact absurd (hbounds 3 hthree) (by decide)

/-- After one reference too many, the stack size that is read back is too small: the module tells
that a call of the probe leaves a value, whereas the size that was declared counts on none. -/
theorem declaredStack_falls_short :
    let module := crowded Token.rowLimit
    let probe : Token := ⟨0x0a000001⟩
    let more : Token → Option StackEffect := fun token =>
      if token.table = Token.memberRefTable.toNat then some ⟨0, 1⟩ else some ⟨1, 0⟩
    let r := instrumentMethod Config.standard callingSymbols module .start probe calling
    module.Built ∧ module.memberRefs.length = 2 ^ 24 + 1 ∧ module.probeToken? = some probe ∧
      r.outcome = .ok (.instrumented [⟨"a.cs", callingSequence⟩]) ∧
      Extends more module.callEffect? ∧ Opens callingBytes callingStored callingBody ∧
      callingStored.maxStack = 1 ∧ Bounds callingBody more 1 ∧
      ∃ m bytes stored new,
        r.module.method? calling.token = some m ∧ m.body = some bytes ∧
        Opens bytes stored new ∧ ¬ Bounds new more stored.maxStack.toNat := by
  intro module probe more r
  have heffects : module.callEffect? = fun token =>
      if token.table = Token.memberRefTable.toNat then some ⟨0, 1⟩ else none :=
    callEffect?_crowded
  have hbuilt : module.Built := built_crowded _
  have hlength : module.memberRefs.length = 2 ^ 24 + 1 := (length_crowded _).trans (by decide)
  have hprobe : module.probeToken? = some probe := probeToken?_crowded _
  have hknown : (module.method? calling.token).isSome = true :=
    Module.isSome_method?_of_mem (List.mem_singleton.mpr rfl)
  have hr : r = instrumentMethod Config.standard callingSymbols module .start probe calling := rfl
  -- all that is needed of the module is known now, and nothing may compute its references
  clear_value r module
  have hresult : (newBody Config.standard callingSymbols module.callEffect? .start probe
      calling).result = .ok (crowdedBytes, [⟨"a.cs", callingSequence⟩]) := by
    rw [heffects]
    decide +kernel
  obtain ⟨hdone, hreplaced⟩ := instrumentMethod_of_newBody hknown hresult
  rw [← hr] at hdone hreplaced
  obtain ⟨m, hm, -, hbody⟩ := Module.method?_of_replaceBody hreplaced
  have hext : Extends more module.callEffect? := by
    intro token e he
    rw [heffects] at he
    dsimp only at he
    split at he
    · next htable => exact (if_pos htable).trans he
    · cases he
  have hdepth : maxStack? callingBody.instructions callingBody.clauses more = some 1 := by
    decide +kernel
  have hb : Bounds callingBody more 1 := bounds_of_maxStack? hdepth fun _ _ he => he
  exact ⟨hbuilt, hlength, hprobe, hdone, hext, opens_calling, rfl, hb, m, crowdedBytes,
    crowdedStored, crowdedBody, hm, hbody, opens_crowded, not_bounds_crowdedBody rfl⟩

end Instrumenter

end CilCoverage
