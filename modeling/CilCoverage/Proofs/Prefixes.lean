/-
  Prefixes and the instructions that they belong to.

  A probe is put before the first instruction of a sequence, whatever stands
  before that one. What comes after an instruction that is no decision is the
  next one of the original, or the probe before it (`Rewriting.entry_succ`). So
  a prefix is cut off from its instruction, or a call in tail position from its
  `ret`, if and only if a sequence begins between the two
  (`TreatsPrefixes.keeps_iff`).
-/
import CilCoverage.Proofs.Agreement

namespace CilCoverage

open Code LabelledBody Layout

namespace OpCode

/-- Changes what the instruction after it does. -/
def isPrefix (op : OpCode) : Bool := op.flow == .modifier

theorem isPrefix_iff {op : OpCode} : op.isPrefix = true ↔
    op = unaligned ∨ op = volatile ∨ op = tail ∨ op = constrained ∨ op = no ∨ op = readonly := by
  constructor
  · intro h
    cases op <;> first
      | decide
      | cases h
  · rintro (rfl | rfl | rfl | rfl | rfl | rfl) <;> rfl

/-- Only branches have a long form. -/
theorem isPrefix_of_longForm? {op long : OpCode} (h : op.longForm? = some long) :
    long.isPrefix = false := by
  have hkind := operandKind_longForm? h
  by_contra hpre
  rw [Bool.not_eq_false, isPrefix_iff] at hpre
  rcases hpre with rfl | rfl | rfl | rfl | rfl | rfl <;> cases hkind

theorem flow_of_isDecision {op : OpCode} (h : op.isDecision = true) : op.flow = .condBranch := by
  rw [isDecision, Bool.or_eq_true, isConditionalBranch, Bool.and_eq_true] at h
  rcases h with ⟨hflow, -⟩ | hswitch
  · exact eq_of_beq hflow
  · rw [eq_of_beq hswitch]
    rfl

end OpCode

/-- Among the prefixes of the instruction at an index is `tail.`. -/
def HasTail (is : List (Instruction Nat)) (k : Nat) : Prop :=
  ∃ j < k, (∃ t, is[j]? = some t ∧ t.opcode = .tail) ∧
    ∀ m, j < m → m < k → ∃ i, is[m]? = some i ∧ i.opcode.isPrefix = true

/-- The instruction at an index has to come right after the one before it, which is its prefix,
or the call in tail position that it returns from. -/
inductive Attached (is : List (Instruction Nat)) : Nat → Prop
  | prefixed {k : Nat} {i next : Instruction Nat} (hi : is[k]? = some i)
      (hpre : i.opcode.isPrefix = true) (hnext : is[k + 1]? = some next) : Attached is (k + 1)
  | returning {k : Nat} {c r : Instruction Nat} (htail : HasTail is k) (hc : is[k]? = some c)
      (hcall : c.opcode.flow = .call) (hr : is[k + 1]? = some r) (hret : r.opcode = .ret) :
      Attached is (k + 1)

theorem Attached.exists_at {is : List (Instruction Nat)} {k : Nat} (h : Attached is k) :
    ∃ i, is[k]? = some i := by
  cases h with
  | prefixed hi hpre hnext => exact ⟨_, hnext⟩
  | returning htail hc hcall hr hret => exact ⟨_, hr⟩

/-- Nothing is attached to a decision. -/
theorem Attached.exists_before {is : List (Instruction Nat)} {k : Nat} (h : Attached is k) :
    ∃ j i, k = j + 1 ∧ is[j]? = some i ∧ i.opcode.isDecision = false := by
  have hnot : ∀ op : OpCode, op.flow ≠ .condBranch → op.isDecision = false := fun op hflow =>
    Bool.eq_false_iff.mpr fun hdecision => hflow (OpCode.flow_of_isDecision hdecision)
  cases h with
  | @prefixed j i next hi hpre hnext =>
    refine ⟨j, i, rfl, hi, hnot _ ?_⟩
    rw [eq_of_beq hpre]
    decide
  | @returning j c r htail hc hcall hr hret =>
    refine ⟨j, c, rfl, hc, hnot _ ?_⟩
    rw [hcall]
    decide

/-- The instructions of `old` stand at their `home` in `new`, and those that have to come right
after another one still do. There are no other prefixes. -/
structure KeepsPrefixes (old new : List (Instruction Nat)) (home : Nat → Nat) : Prop where
  same : ∀ k i, old[k]? = some i → ∃ j, new[home k]? = some j ∧
    j.operand.shape = i.operand.shape ∧
      (j.opcode = i.opcode ∨ i.opcode.longForm? = some j.opcode)
  prefixes : ∀ q j, new[q]? = some j → j.opcode.isPrefix = true →
    ∃ k i, old[k]? = some i ∧ q = home k ∧ j.opcode = i.opcode
  attached : ∀ k, Attached old (k + 1) → home (k + 1) = home k + 1

/-- What becomes of prefixes where the calls of the probe are those of `sequences`. -/
structure TreatsPrefixes (probe : Token) (old new : List (Instruction Nat))
    (sequences : List Sequence) (home : Nat → Nat) : Prop where
  /-- There are no other prefixes. -/
  prefixes : ∀ q j, new[q]? = some j → j.opcode.isPrefix = true →
    ∃ k i, old[k]? = some i ∧ q = home k ∧ j.opcode = i.opcode
  /-- What no sequence begins with still comes right after its prefix or its call. -/
  attached : ∀ k i, Attached old (k + 1) → old[k + 1]? = some i →
    (∀ s ∈ sequences, s.offset.toNat ≠ i.offset) → home (k + 1) = home k + 1
  /-- Between anything else and its prefix or its call stands the probe of a sequence. -/
  separated : ∀ s ∈ sequences, ∀ k i, Attached old (k + 1) → old[k + 1]? = some i →
    s.offset.toNat = i.offset → ProbeAt probe new (home k + 1) s.hitId ∧ home (k + 1) = home k + 3
  keeps_iff : KeepsPrefixes old new home ↔
    ∀ s ∈ sequences, ∀ k i, Attached old k → old[k]? = some i → s.offset.toNat ≠ i.offset

section Treats

variable {probe : Token} {old new : List (Instruction Nat)} {sequences : List Sequence}
  {starts : List Nat} {home entry : Nat → Nat}

/-- The instructions of probes are no prefixes. -/
theorem Carries.exists_of_isPrefix (h : Carries probe old new starts home entry) {q : Nat}
    {j : Instruction Nat} (hj : new[q]? = some j) (hpre : j.opcode.isPrefix = true) :
    ∃ k i, old[k]? = some i ∧ q = home k ∧ j.opcode = i.opcode := by
  have hnot : ∀ op : OpCode, j.opcode = op → op.isPrefix = false → False := by
    rintro op rfl hfalse
    rw [hfalse] at hpre
    cases hpre
  rcases h.added q j hj with ⟨k, hk, rfl⟩ | ⟨k, id, ⟨hload, i, hi, hcall⟩, hq⟩
  · obtain ⟨j', hj', -, hop⟩ := h.kept k old[k] (List.getElem?_eq_getElem hk)
    obtain rfl : j' = j := Option.some.inj (hj'.symm.trans hj)
    refine ⟨k, old[k], List.getElem?_eq_getElem hk, rfl, hop.resolve_right fun hlong => ?_⟩
    exact hnot _ rfl (OpCode.isPrefix_of_longForm? hlong)
  · rcases hq with rfl | rfl | ⟨-, hbr | hbr⟩
    · obtain ⟨i, x, hi, hop, -⟩ := hload
      obtain rfl : i = j := Option.some.inj (hi.symm.trans hj)
      exact (hnot _ hop (by decide)).elim
    · obtain rfl : i = j := Option.some.inj (hi.symm.trans hj)
      exact (hnot _ (Instruction.isCallTo_eq_true.mp hcall).1 (by decide)).elim
    · exact (hnot _ hbr (by decide)).elim
    · exact (hnot _ hbr (by decide)).elim

/-- Code that agrees with its sequences, where the next instruction or its probe comes right after
everything that is no decision. -/
theorem Agrees.treatsPrefixes (h : Agrees probe old new sequences home entry)
    (hc : Contiguous 0 old)
    (hnext : ∀ k i, old[k]? = some i → i.opcode.isDecision = false → entry (k + 1) = home k + 1) :
    TreatsPrefixes probe old new sequences home := by
  have hentry : ∀ k, Attached old (k + 1) → entry (k + 1) = home k + 1 := by
    intro k hattached
    obtain ⟨j, i, hk, hi, hdecision⟩ := hattached.exists_before
    obtain rfl : k = j := Nat.succ.inj hk
    exact hnext k i hi hdecision
  have hattached : ∀ k i, Attached old (k + 1) → old[k + 1]? = some i →
      (∀ s ∈ sequences, s.offset.toNat ≠ i.offset) → home (k + 1) = home k + 1 := by
    intro k i hk hi hnot
    have hstarts : i.offset ∉ sequences.map fun s => s.offset.toNat := by
      rw [List.mem_map]
      rintro ⟨s, hs, hoffset⟩
      exact hnot s hs hoffset
    rw [h.carries.home_eq (k + 1) i hi, if_neg hstarts, hentry k hk, Nat.add_zero]
  have hseparated : ∀ s ∈ sequences, ∀ k i, Attached old (k + 1) → old[k + 1]? = some i →
      s.offset.toNat = i.offset →
        ProbeAt probe new (home k + 1) s.hitId ∧ home (k + 1) = home k + 3 := by
    intro s hs k i hk hi hoffset
    obtain ⟨index, i', hi', hoffset', hprobe, hhome⟩ := h.sequence s hs
    obtain rfl : index = k + 1 := hc.index_unique hi' hi (hoffset'.trans hoffset)
    rw [hentry k hk] at hprobe hhome
    exact ⟨hprobe, hhome⟩
  have hprefixes : ∀ q j, new[q]? = some j → j.opcode.isPrefix = true →
      ∃ k i, old[k]? = some i ∧ q = home k ∧ j.opcode = i.opcode :=
    fun q j hj hpre => h.carries.exists_of_isPrefix hj hpre
  refine ⟨hprefixes, hattached, hseparated, ?_⟩
  constructor
  · intro hkeeps s hs k i hk hi hoffset
    obtain ⟨j, -, rfl, -⟩ := hk.exists_before
    have hnext := hkeeps.attached j hk
    have hapart := (hseparated s hs j i hk hi hoffset).2
    omega
  · intro hnone
    refine ⟨h.carries.kept, hprefixes, ?_⟩
    intro k hk
    obtain ⟨i, hi⟩ := hk.exists_at
    exact hattached k i hk hi fun s hs => hnone s hs (k + 1) i hk hi

end Treats

namespace Instrumenter

/-- What comes after an instruction that is no decision. -/
theorem Rewriting.entry_succ {symbols : SymbolReader} {probe : Token} {method : MethodDef}
    {p : PreparedBody} {ns : List NumberedStatement} {is : List (Instruction Nat)} {r : Relinked}
    (hw : Rewriting symbols probe method p ns is r) {k : Nat} {i : Instruction Nat}
    (hi : p.code[k]? = some i) (hdecision : i.opcode.isDecision = false) :
    entry (NumberedStatement.plan ns) probe p.labelled (k + 1) =
      home (NumberedStatement.plan ns) probe p.labelled k + 1 := by
  obtain ⟨i', hi', hlowers⟩ := hw.exists_labelled hi
  rw [← hlowers.opcode] at hdecision
  rw [entry_succ_eq_home _ _ hi', hw.fits.successors_eq_nil hi' hdecision]
  rfl

/-- The instructions of a method. -/
def HasCode (method : MethodDef) (code : List (Instruction Nat)) : Prop :=
  ∃ data stored, method.body = some data ∧ MethodBody.ofBytes data = .ok stored ∧
    decode stored.code = .ok code

/-- What becomes of the prefixes of an instrumented method. -/
theorem instrumented_treatsPrefixes {config : Config} {symbols : SymbolReader} {module : Module}
    {ids : HitIds} {probe : Token} {method : MethodDef} {sequences : List DocumentSequence}
    (h : (instrumentMethod config symbols module ids probe method).outcome =
      .ok (.instrumented sequences)) :
    ∃ old code new home entry,
      HasCode method old ∧
      Holds (instrumentMethod config symbols module ids probe method).module method.token
        code new ∧
      Agrees probe old new (sequences.map DocumentSequence.sequence) home entry ∧
      TreatsPrefixes probe old new (sequences.map DocumentSequence.sequence) home := by
  obtain ⟨p, ns, is, r, hw, -, hholds, hsequences⟩ := exists_rewriting h
  obtain ⟨data, hdata, hstored⟩ := hw.prepared.stored
  have hagrees := hw.agrees ⟨method.declaringType, method.name, method.fullName⟩
  rw [← hsequences] at hagrees
  exact ⟨p.code, r.code, laidOut is, _, _, ⟨data, p.stored, hdata, hstored, hw.prepared.code⟩,
    hholds, hagrees, hagrees.treatsPrefixes hw.prepared.contiguous
      fun k i hi hdecision => hw.entry_succ hi hdecision⟩

/-- A read of a field, and a call in tail position:
`volatile.; ldsfld 0x04000001; pop; tail.; call 0x0a000001; ret`. -/
def prefixed : MethodDef where
  token := ⟨0x06000001⟩
  declaringType := "A"
  name := "f"
  body := some [0x42, 0xfe, 0x13, 0x7e, 0x01, 0x00, 0x00, 0x04, 0x26, 0xfe, 0x14, 0x28, 0x01, 0x00,
    0x00, 0x0a, 0x2a]

def prefixedCode : List (Instruction Nat) :=
  [⟨0, .volatile, .none⟩, ⟨2, .ldsfld, .token ⟨0x04000001⟩⟩, ⟨7, .pop, .none⟩, ⟨8, .tail, .none⟩,
   ⟨10, .call, .token ⟨0x0a000001⟩⟩, ⟨15, .ret, .none⟩]

/-- The module of the method, with the probe as its second member. -/
def prefixedModule : Module :=
  { Module.new "a" [] with
    methods := [prefixed]
    memberRefs := [⟨"A::g", ⟨0, 0⟩⟩,
      ⟨Config.standard.probe.memberName, ProbeReference.effect⟩] }

/-- The instrumented method, with a statement that begins at an offset. -/
def instrumentPrefixed (start : Nat) : MethodResult :=
  instrumentMethod Config.standard (fun _ => .ok (some [⟨start, "a.cs", 1, 1, 1, 9⟩]))
    prefixedModule .start ⟨0x0a000002⟩ prefixed

/-- What is recorded of the statement. -/
def prefixedSequence (offset : UInt32) (text : String) : DocumentSequence where
  document := "a.cs"
  sequence :=
    { hitId := 1, offset := offset, startLine := 1, startColumn := 1, endLine := 1,
      endColumn := 9, method := ⟨"A", "f", "A::f"⟩, instruction := text, conditions := [] }

/-- A statement that begins with a prefix. -/
theorem instrumented_treatsPrefixes_prefixed :
    let r := instrumentPrefixed 8
    let sequences := [prefixedSequence 8 "IL_0008: tail."]
    r.outcome = .ok (.instrumented sequences) ∧
      ∃ old code new home entry,
        HasCode prefixed old ∧ Holds r.module prefixed.token code new ∧
        Agrees ⟨0x0a000002⟩ old new (sequences.map DocumentSequence.sequence) home entry ∧
        TreatsPrefixes ⟨0x0a000002⟩ old new (sequences.map DocumentSequence.sequence) home := by
  intro r sequences
  have h : r.outcome = .ok (.instrumented sequences) := by decide +kernel
  exact ⟨h, instrumented_treatsPrefixes h⟩

/-- What becomes of the method where the statement begins with the read. -/
def separated : MethodDef where
  token := ⟨0x06000001⟩
  declaringType := "A"
  name := "f"
  body := some [0x6a, 0xfe, 0x13, 0x20, 0x01, 0x00, 0x00, 0x00, 0x28, 0x02, 0x00, 0x00, 0x0a,
    0x7e, 0x01, 0x00, 0x00, 0x04, 0x26, 0xfe, 0x14, 0x28, 0x01, 0x00, 0x00, 0x0a, 0x2a]

def separatedCode : List (Instruction Nat) :=
  [⟨0, .volatile, .none⟩, ⟨2, .ldcI4, .int32 1⟩, ⟨7, .call, .token ⟨0x0a000002⟩⟩,
   ⟨12, .ldsfld, .token ⟨0x04000001⟩⟩, ⟨17, .pop, .none⟩, ⟨18, .tail, .none⟩,
   ⟨20, .call, .token ⟨0x0a000001⟩⟩, ⟨25, .ret, .none⟩]

/-- The probe comes between the read and its prefix. -/
theorem separated_not_kept :
    let r := instrumentPrefixed 2
    r.outcome = .ok (.instrumented [prefixedSequence 2 "IL_0002: ldsfld 0x04000001"]) ∧
      r.module.method? prefixed.token = some separated ∧
      HasCode prefixed prefixedCode ∧ HasCode separated separatedCode ∧
      ∀ home, ¬ KeepsPrefixes prefixedCode separatedCode home := by
  refine ⟨by decide +kernel, by decide +kernel, ?_, ?_, ?_⟩
  · exact ⟨_, ⟨8, false, ⟨0⟩, _, []⟩, rfl, rfl, by decide +kernel⟩
  · exact ⟨_, ⟨8, false, ⟨0⟩, _, []⟩, rfl, rfl, by decide +kernel⟩
  · intro home h
    obtain ⟨k, i, hi, hhome, hop⟩ := h.prefixes 0 _ rfl rfl
    have hfirst : k = 0 := by
      have honly : ∀ k < 6, (prefixedCode[k]?.map Instruction.opcode) = some .volatile → k = 0 := by
        decide
      exact honly k (List.getElem?_eq_some_iff.mp hi).1 (by rw [hi, Option.map_some, ← hop])
    subst hfirst
    have hnext : home 1 = 1 := by
      rw [h.attached 0 (.prefixed rfl rfl rfl), ← hhome]
    obtain ⟨j, hj, -, hsame⟩ := h.same 1 _ rfl
    rw [hnext] at hj
    obtain rfl := Option.some.inj hj
    rcases hsame with hsame | hlong
    · cases hsame
    · cases hlong

end Instrumenter

end CilCoverage
