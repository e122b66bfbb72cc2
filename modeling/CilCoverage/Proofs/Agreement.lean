/-
  The coverage map and the rewritten code agree.

  Laying out moves calls of the probe without changing them (`probeAt_laidOut`),
  so that the calls in the stored code are those of the plan. The plan and the
  recorded sequences come from the same numbered statements; what a sequence
  or a branch records is where its call of the probe leads to
  (`instrumented_agrees`).
-/
import CilCoverage.Proofs.Rewriting

namespace CilCoverage

open Code LabelledBody Layout

/-! ## Calls of the probe in laid-out code -/

section LaidOut

variable {probe : Token} {body : LabelledBody} {is : List (Instruction Nat)} {r : Relinked}

theorem probeAt_laidOut (hr : LaidOutTo body is r) {k : Nat} {id : HitId} :
    ProbeAt probe (laidOut is) k id ↔ ProbeAt probe body.instructions k id := by
  constructor
  · rintro ⟨⟨j, x, hj, hop, hx, hid⟩, j', hj', hcall⟩
    obtain ⟨i, hi, hrelaid⟩ := hr.exists_original hj
    obtain ⟨i', hi', hrelaid'⟩ := hr.exists_original hj'
    have hsame := hrelaid.opcode_eq (Or.inr (by rw [hop]; decide))
    refine ⟨⟨i, x, hi, by rw [← hsame, hop], ?_, hid⟩, i', hi', ?_⟩
    · have hoperand := hrelaid.operand
      rw [hx] at hoperand
      cases ho : i.operand <;> rw [ho] at hoperand <;> cases hoperand
      rfl
    · rw [← hrelaid'.isCallTo, hcall]
  · rintro ⟨⟨i, x, hi, hop, hx, hid⟩, i', hi', hcall⟩
    obtain ⟨j, hj, hrelaid⟩ := hr.exists_relaid hi
    obtain ⟨j', hj', hrelaid'⟩ := hr.exists_relaid hi'
    have hsame := hrelaid.opcode_eq (Or.inl (by rw [hop]; decide))
    refine ⟨⟨j, x, hj, by rw [hsame, hop], ?_, hid⟩, j', hj', ?_⟩
    · rw [hrelaid.operand, hx]
      rfl
    · rw [hrelaid'.isCallTo, hcall]

end LaidOut

/-! ## What a map says about code -/

/-- An unconditional branch that leaves protected regions alone. -/
def Instruction.IsJump (i : Instruction Nat) : Prop := i.opcode = .br ∨ i.opcode = .brS

/-- How the instructions of `new` came from those of `old`. The instruction of `old` at an index
stands at its `home` in `new`; what replaces it begins at its `entry`, which is its home or, if
its offset is one of `starts`, the call of the probe before it. Everything else in `new` is a
call of the probe or the jump after one. -/
structure Carries (probe : Token) (old new : List (Instruction Nat)) (starts : List Nat)
    (home entry : Nat → Nat) : Prop where
  ascending : ∀ j k, j < k → k < old.length → home j < home k
  kept : ∀ k i, old[k]? = some i → ∃ j, new[home k]? = some j ∧
    j.operand.shape = i.operand.shape ∧
      (j.opcode = i.opcode ∨ i.opcode.longForm? = some j.opcode)
  home_eq : ∀ k i, old[k]? = some i → home k = entry k + if i.offset ∈ starts then 2 else 0
  added : ∀ q j, new[q]? = some j → (∃ k < old.length, q = home k) ∨
    ∃ k id, ProbeAt probe new k id ∧ (q = k ∨ q = k + 1 ∨ q = k + 2 ∧ j.IsJump)

/-- The calls of the probe in `new` are those that sequences recorded for `old` tell of. -/
structure Agrees (probe : Token) (old new : List (Instruction Nat)) (sequences : List Sequence)
    (home entry : Nat → Nat) : Prop where
  carries : Carries probe old new (sequences.map fun s => s.offset.toNat) home entry
  /-- An id is loaded before every call of the probe. -/
  loaded : ∀ q j, new[q]? = some j → j.isCallTo probe = true →
    ∃ k id, q = k + 1 ∧ ProbeAt probe new k id
  /-- The ids are those of the sequences and their branches. -/
  reported : ∀ id, (∃ k, ProbeAt probe new k id) ↔ id ∈ sequences.flatMap Sequence.hitIds
  /-- Each of them belongs to one sequence or branch. -/
  distinct : (sequences.flatMap Sequence.hitIds).Nodup
  /-- Each of them is reported in one place. -/
  once : ∀ k l id, ProbeAt probe new k id → ProbeAt probe new l id → k = l
  /-- The probe of a sequence stands before the instruction that the sequence records. -/
  sequence : ∀ s ∈ sequences, ∃ index i, old[index]? = some i ∧ i.offset = s.offset.toNat ∧
    ProbeAt probe new (entry index) s.hitId ∧ home index = entry index + 2
  /-- The probe of a branch is followed by a jump to the instruction that the branch records. -/
  branch : ∀ s ∈ sequences, ∀ b ∈ s.branches, ∃ k j index i e,
    ProbeAt probe new k b.hitId ∧ new[k + 2]? = some j ∧ j.IsJump ∧
      old[index]? = some i ∧ i.offset = b.offset.toNat ∧
      new[entry index]? = some e ∧ j.operand = .target e.offset

theorem isJump_of_relaid {is : List (Instruction Nat)} {k : Nat} {i j : Instruction Nat}
    (h : Relaid is k i j) (hop : i.opcode = .brS) : j.IsJump := by
  rcases h.opcode with hj | hj
  · exact Or.inr (hj.trans hop)
  · rw [hop] at hj
    exact Or.inl (Option.some.inj hj).symm

namespace NumberedStatement

/-! ## Recorded sequences -/

variable {code : List (Instruction Nat)}

theorem hitIds_sequence (code : List (Instruction Nat)) (info : MethodInfo)
    (n : NumberedStatement) : (n.sequence code.toArray info).hitIds = n.ids := by
  have hcondition : ∀ d : Nat × List (Nat × HitId),
      (condition code.toArray d).branches.map Branch.hitId = d.2.map Prod.snd := by
    intro d
    apply List.ext_getElem (by simp [condition])
    intro k h₁ h₂
    simp [condition]
  rw [Sequence.hitIds, Sequence.branches, List.map_flatMap, sequence, ids]
  simp only [List.flatMap_map, hcondition]

/-- The offset that is recorded for an instruction of code that fits 32 bits. -/
theorem toNat_offsetAt (hc : Contiguous 0 code) (hsize : streamSize code < UInt32.size)
    {index : Nat} {i : Instruction Nat} (hi : code[index]? = some i) :
    (offsetAt code.toArray index).toNat = i.offset := by
  have hoffset := contiguous_iff.mp hc index i hi
  have hle := position_le code index
  rw [offsetAt, List.getElem?_toArray, hi]
  show (UInt32.ofNat i.offset).toNat = i.offset
  exact UInt32.toNat_ofNat_of_lt' (by omega)

end NumberedStatement

/-! ## Rewritten methods -/

namespace Instrumenter.Rewriting

open NumberedStatement

variable {symbols : SymbolReader} {probe : Token} {method : MethodDef} {p : PreparedBody}
  {ns : List NumberedStatement} {is : List (Instruction Nat)} {r : Relinked}
  (hw : Rewriting symbols probe method p ns is r)
include hw

theorem distinct : (plan ns).Distinct :=
  plan_distinct hw.numbers hw.prepared.sound hw.prepared.apart

theorem ids_nodup : (plan ns).ids.Nodup := (plan_ids_perm ns).nodup_iff.mpr hw.nodup

theorem probeAt_iff {k : Nat} {id : HitId} : ProbeAt probe (laidOut is) k id ↔
    (k, id) ∈ sites (plan ns) probe p.labelled := by
  rw [probeAt_laidOut hw.layout,
    LabelledBody.probeAt_iff hw.fits hw.distinct hw.prepared.noCallTo]

theorem probeAt_entry {index : Nat} {id : HitId} (hs : (plan ns).sequence? index = some id) :
    ProbeAt probe (laidOut is) (entry (plan ns) probe p.labelled index) id :=
  hw.probeAt_iff.mpr ((mem_sites hw.distinct).mpr (Or.inl ⟨index, hs, rfl⟩))

theorem probeAt_stubEntry {index position t : Nat} {id : HitId}
    (hs : ((plan ns).successors index)[position]? = some (t, id)) :
    ProbeAt probe (laidOut is) (stubEntry (plan ns) probe p.labelled index position) id :=
  hw.probeAt_iff.mpr ((mem_sites hw.distinct).mpr (Or.inr ⟨index, position, t, hs, rfl⟩))

/-- An instruction of the original, with the one of the labelled body. -/
theorem exists_labelled {k : Nat} {i : Instruction Nat} (hi : p.code[k]? = some i) :
    ∃ i', p.labelled.instructions[k]? = some i' ∧ Lowers p.code i i' := by
  obtain ⟨hk, rfl⟩ := List.getElem?_eq_some_iff.mp hi
  have hk' : k < p.labelled.instructions.length := by rwa [hw.prepared.length_labelled]
  exact ⟨_, List.getElem?_eq_getElem hk', hw.prepared.lowered.1.get hk hk'⟩

theorem exists_code {k : Nat} (hk : k < p.labelled.instructions.length) :
    ∃ i, p.code[k]? = some i := by
  rw [hw.prepared.length_labelled] at hk
  exact ⟨_, List.getElem?_eq_getElem hk⟩

/-- The offsets of sequences are those of the instructions with a probe before them. -/
theorem mem_starts (info : MethodInfo) {k : Nat} {i : Instruction Nat}
    (hi : p.code[k]? = some i) :
    i.offset ∈ (ns.map fun n => n.sequence p.code.toArray info).map (fun s => s.offset.toNat) ↔
      ((plan ns).sequence? k).isSome = true := by
  have hc := hw.prepared.contiguous
  rw [List.map_map, List.mem_map, Option.isSome_iff_exists]
  constructor
  · rintro ⟨n, hn, hoffset⟩
    have hmem : (n.span.start, n.id) ∈ (plan ns).sequences := List.mem_map.mpr ⟨n, hn, rfl⟩
    obtain ⟨j, hj⟩ := hw.exists_code (hw.fits.sequences _ hmem)
    have hrecorded : (offsetAt p.code.toArray n.span.start).toNat = j.offset :=
      toNat_offsetAt hc hw.prepared.size_lt hj
    obtain rfl : n.span.start = k := hc.index_unique hj hi (hrecorded.symm.trans hoffset)
    exact ⟨n.id, hw.distinct.sequence?_eq hmem⟩
  · rintro ⟨id, hid⟩
    obtain ⟨n, hn, heq⟩ := List.mem_map.mp (ProbePlan.mem_of_sequence? hid)
    obtain ⟨rfl, rfl⟩ := Prod.mk.inj heq
    exact ⟨n, hn, toNat_offsetAt hc hw.prepared.size_lt hi⟩

/-- What is not an instruction of the original belongs to a probe. -/
theorem added {q : Nat} {j : Instruction Nat} (hj : (laidOut is)[q]? = some j) :
    (∃ k < p.code.length, q = home (plan ns) probe p.labelled k) ∨
      ∃ k id, ProbeAt probe (laidOut is) k id ∧ (q = k ∨ q = k + 1 ∨ q = k + 2 ∧ j.IsJump) := by
  obtain ⟨i, hi, hrelaid⟩ := hw.layout.exists_original hj
  cases placed_iff.mp hi with
  | load hi' hs => exact Or.inr ⟨_, _, hw.probeAt_entry hs, Or.inl rfl⟩
  | call hi' hs => exact Or.inr ⟨_, _, hw.probeAt_entry hs, Or.inr (Or.inl rfl)⟩
  | original hi' =>
    have hk := (List.getElem?_eq_some_iff.mp hi').1
    exact Or.inl ⟨_, by rwa [← hw.prepared.length_labelled], rfl⟩
  | stubLoad hi' hs => exact Or.inr ⟨_, _, hw.probeAt_stubEntry hs, Or.inl rfl⟩
  | stubCall hi' hs => exact Or.inr ⟨_, _, hw.probeAt_stubEntry hs, Or.inr (Or.inl rfl)⟩
  | stubJump hi' hs =>
    have hjump : j.IsJump := isJump_of_relaid hrelaid rfl
    exact Or.inr ⟨_, _, hw.probeAt_stubEntry hs, Or.inr (Or.inr ⟨rfl, hjump⟩)⟩

theorem carries (info : MethodInfo) :
    Carries probe p.code (laidOut is)
      ((ns.map fun n => n.sequence p.code.toArray info).map fun s => s.offset.toNat)
      (home (plan ns) probe p.labelled) (entry (plan ns) probe p.labelled) := by
  refine ⟨?_, ?_, ?_, fun q j hj => hw.added hj⟩
  · intro j k hjk hk
    exact home_lt (plan ns) probe hjk (by rwa [hw.prepared.length_labelled])
  · intro k i hi
    obtain ⟨i', hi', hlowers⟩ := hw.exists_labelled hi
    obtain ⟨j, hj, hrelaid⟩ := hw.layout.exists_relaid (insertProbes_at_home _ _ hi')
    refine ⟨j, hj, ?_, ?_⟩
    · rw [hrelaid.shape, Instruction.mapTargets, Operand.shape_mapTargets, hlowers.shape]
    · rw [← hlowers.opcode]
      exact hrelaid.opcode
  · intro k i hi
    have hmem := hw.mem_starts info hi
    rw [home, lead]
    by_cases h : ((plan ns).sequence? k).isSome = true
    · rw [if_pos h, if_pos (hmem.mpr h)]
    · rw [if_neg h, if_neg fun hin => h (hmem.mp hin)]

theorem loaded {q : Nat} {j : Instruction Nat} (hj : (laidOut is)[q]? = some j)
    (hcall : j.isCallTo probe = true) : ∃ k id, q = k + 1 ∧ ProbeAt probe (laidOut is) k id := by
  obtain ⟨i, hi, hrelaid⟩ := hw.layout.exists_original hj
  rw [hrelaid.isCallTo] at hcall
  obtain ⟨k, rfl, ⟨index, _, id, _, hs, rfl⟩ | ⟨index, _, p, t, id, _, hs, rfl⟩⟩ :=
    call_cases hw.prepared.noCallTo hi hcall
  · exact ⟨_, id, rfl, hw.probeAt_entry hs⟩
  · exact ⟨_, id, rfl, hw.probeAt_stubEntry hs⟩

theorem exists_probeAt_iff {id : HitId} :
    (∃ k, ProbeAt probe (laidOut is) k id) ↔ id ∈ ns.flatMap NumberedStatement.ids := by
  rw [← (plan_ids_perm ns).mem_iff,
    ← LabelledBody.exists_probeAt_iff hw.fits hw.distinct hw.prepared.noCallTo]
  exact exists_congr fun k => probeAt_laidOut hw.layout

theorem probeAt_inj {k l : Nat} {id : HitId} (hk : ProbeAt probe (laidOut is) k id)
    (hl : ProbeAt probe (laidOut is) l id) : k = l :=
  LabelledBody.probeAt_inj hw.fits hw.distinct hw.prepared.noCallTo hw.ids_nodup
    ((probeAt_laidOut hw.layout).mp hk) ((probeAt_laidOut hw.layout).mp hl)

/-- The probe of a statement stands before its first instruction. -/
theorem sequence_probe {n : NumberedStatement} (hn : n ∈ ns) :
    ∃ i, p.code[n.span.start]? = some i ∧
      i.offset = (offsetAt p.code.toArray n.span.start).toNat ∧
      ProbeAt probe (laidOut is) (entry (plan ns) probe p.labelled n.span.start) n.id ∧
      home (plan ns) probe p.labelled n.span.start =
        entry (plan ns) probe p.labelled n.span.start + 2 := by
  have hmem : (n.span.start, n.id) ∈ (plan ns).sequences := List.mem_map.mpr ⟨n, hn, rfl⟩
  have hs := hw.distinct.sequence?_eq hmem
  obtain ⟨i, hi⟩ := hw.exists_code (hw.fits.sequences _ hmem)
  refine ⟨i, hi, (toNat_offsetAt hw.prepared.contiguous hw.prepared.size_lt hi).symm, ?_, ?_⟩
  · exact hw.probeAt_entry hs
  · have hlead : lead (plan ns) n.span.start = 2 := by
      rw [lead, if_pos (by rw [hs]; rfl)]
    rw [home, hlead]

/-- The probe of a successor is followed by a jump to where the successor begins. -/
theorem branch_probe {n : NumberedStatement} (hn : n ∈ ns) {d : Nat × List (Nat × HitId)}
    (hd : d ∈ n.decisions) {q t : Nat} {id : HitId} (hs : d.2[q]? = some (t, id)) :
    ∃ k j i e, ProbeAt probe (laidOut is) k id ∧ (laidOut is)[k + 2]? = some j ∧ j.IsJump ∧
      p.code[t]? = some i ∧ i.offset = (offsetAt p.code.toArray t).toNat ∧
      (laidOut is)[entry (plan ns) probe p.labelled t]? = some e ∧
      j.operand = .target e.offset := by
  have hmem : d ∈ (plan ns).decisions := List.mem_flatMap.mpr ⟨n, hn, hd⟩
  rw [← hw.distinct.successors_eq hmem] at hs
  obtain ⟨i', hi'⟩ := hw.fits.covers.getElem?_of_successors hs
  have ht := successor_lt hw.prepared.wellFormed.closed hw.fits.covers hi' hs
  obtain ⟨i, hi⟩ := hw.exists_code ht
  obtain ⟨j, hj, hrelaid⟩ := hw.layout.exists_relaid (Placed.stubJump hi' hs).getElem?
  have hentry : entry (plan ns) probe p.labelled t <
      (p.labelled.insertProbes (plan ns) probe).instructions.length := entry_lt_length ht
  obtain ⟨e, he, hrelaid'⟩ := hw.layout.exists_relaid (List.getElem?_eq_getElem hentry)
  refine ⟨_, j, i, e, ?_, hj, isJump_of_relaid hrelaid rfl, hi,
    (toNat_offsetAt hw.prepared.contiguous hw.prepared.size_lt hi).symm, he, ?_⟩
  · exact hw.probeAt_stubEntry hs
  · rw [hrelaid.operand, hrelaid'.offset, hw.fits.covers.stubTarget_eq hi' hs]
    rfl

/-- The sequences recorded for a method agree with the code that it was rewritten to. -/
theorem agrees (info : MethodInfo) :
    Agrees probe p.code (laidOut is) (ns.map fun n => n.sequence p.code.toArray info)
      (home (plan ns) probe p.labelled) (entry (plan ns) probe p.labelled) := by
  have hids : (ns.map fun n => n.sequence p.code.toArray info).flatMap Sequence.hitIds =
      ns.flatMap NumberedStatement.ids := by
    rw [List.flatMap_map]
    exact List.flatMap_congr fun n _ => hitIds_sequence p.code info n
  refine ⟨hw.carries info, fun q j hj hcall => hw.loaded hj hcall, ?_, ?_,
    fun k l id hk hl => hw.probeAt_inj hk hl, ?_, ?_⟩
  · intro id
    rw [hids]
    exact hw.exists_probeAt_iff
  · rw [hids]
    exact hw.nodup
  · intro s hs
    obtain ⟨n, hn, rfl⟩ := List.mem_map.mp hs
    obtain ⟨i, hi, hoffset, hprobe, hhome⟩ := hw.sequence_probe hn
    exact ⟨n.span.start, i, hi, hoffset, hprobe, hhome⟩
  · intro s hs b hb
    obtain ⟨n, hn, rfl⟩ := List.mem_map.mp hs
    obtain ⟨c, hc, hb⟩ := List.mem_flatMap.mp hb
    obtain ⟨d, hd, rfl⟩ := List.mem_map.mp hc
    obtain ⟨q, hq, rfl⟩ := List.mem_mapIdx.mp hb
    obtain ⟨k, j, i, e, hprobe, hj, hjump, hi, hoffset, he, htarget⟩ :=
      hw.branch_probe hn hd (List.getElem?_eq_getElem hq)
    exact ⟨k, j, d.2[q].1, i, e, hprobe, hj, hjump, hi, hoffset, he, htarget⟩

end Instrumenter.Rewriting

namespace Instrumenter

/-- The code that a module holds of a method is that of `new`, as far as it fits a body: the
header counts its bytes in 32 bits, and a branch reaches 31 bits far. -/
structure Holds (module : Module) (token : Token) (code : Bytes) (new : List (Instruction Nat)) :
    Prop where
  encoded : encode new = .ok code
  stored : code.length < 2 ^ 32 → ∃ m bytes b, module.method? token = some m ∧
    m.body = some bytes ∧ MethodBody.ofBytes bytes = .ok b ∧ b.code = code
  decoded : code.length ≤ 2 ^ 31 → decode code = .ok new
  unique : code.length ≤ 2 ^ 32 → ∀ is, decode code = .ok is → is = new

/-- How an instrumented method was rewritten, and where its new code is to be found. -/
theorem exists_rewriting {config : Config} {symbols : SymbolReader} {module : Module}
    {ids : HitIds} {probe : Token} {method : MethodDef} {sequences : List DocumentSequence}
    (h : (instrumentMethod config symbols module ids probe method).outcome =
      .ok (.instrumented sequences)) :
    ∃ p ns is r, Rewriting symbols probe method p ns is r ∧
      rewritten? config symbols ids probe method = some r.code ∧
      Holds (instrumentMethod config symbols module ids probe method).module method.token
        r.code (laidOut is) ∧
      sequences.map DocumentSequence.sequence = ns.map fun n =>
        n.sequence p.code.toArray ⟨method.declaringType, method.name, method.fullName⟩ := by
  obtain ⟨p, ns, is, r, b, bytes, hw, hb, hcode, rfl, hreplaced⟩ := of_instrumentMethod h
  obtain ⟨m, hm, -, hbody⟩ := Module.method?_of_replaceBody hreplaced
  refine ⟨p, ns, is, r, hw, hcode, ⟨hw.layout.code, ?_, ?_, ?_⟩, ?_⟩
  · intro hsize
    obtain ⟨b', hb', hcode', -⟩ := hw.ofBytes_eq hsize hb
    exact ⟨m, bytes, b', hm, hbody, hb', hcode'⟩
  · exact hw.layout.decode_eq hw.wellFormed
  · exact fun hsize is' his' => hw.layout.eq_of_decode hw.wellFormed hsize his'
  · rw [documentSequences, List.map_map]
    rfl

/-- What is recorded of an instrumented method agrees with the code that it was given. -/
theorem instrumented_agrees {config : Config} {symbols : SymbolReader} {module : Module}
    {ids : HitIds} {probe : Token} {method : MethodDef} {sequences : List DocumentSequence}
    (h : (instrumentMethod config symbols module ids probe method).outcome =
      .ok (.instrumented sequences)) :
    ∃ data stored old code new home entry,
      method.body = some data ∧ MethodBody.ofBytes data = .ok stored ∧
      decode stored.code = .ok old ∧
      rewritten? config symbols ids probe method = some code ∧
      Holds (instrumentMethod config symbols module ids probe method).module method.token
        code new ∧
      Agrees probe old new (sequences.map DocumentSequence.sequence) home entry := by
  obtain ⟨p, ns, is, r, hw, hcode, hholds, hsequences⟩ := exists_rewriting h
  obtain ⟨data, hdata, hstored⟩ := hw.prepared.stored
  rw [hsequences]
  exact ⟨data, p.stored, p.code, r.code, laidOut is, _, _, hdata, hstored, hw.prepared.code,
    hcode, hholds, hw.agrees _⟩

/-- A method of one statement with a decision in it: `ldarg.0; brfalse.s L; nop; L: ret`. -/
def branching : MethodDef where
  token := ⟨0x06000001⟩
  declaringType := "A"
  name := "f"
  body := some [0x16, 0x02, 0x2c, 0x01, 0x00, 0x2a]

/-- What is recorded of it. -/
def branchingSequence : Sequence where
  hitId := 1
  offset := 0
  startLine := 1
  startColumn := 1
  endLine := 1
  endColumn := 9
  method := ⟨"A", "f", "A::f"⟩
  instruction := "IL_0000: ldarg.0"
  conditions := [⟨1, "IL_0001: brfalse.s IL_0004",
    [⟨2, 3, true, "IL_0001: brfalse.s IL_0004"⟩, ⟨3, 4, false, "IL_0001: brfalse.s IL_0004"⟩]⟩]

theorem instrumented_agrees_branching :
    let module := { Module.new "a" [] with methods := [branching] }
    let symbols : SymbolReader := fun _ => .ok (some [⟨0, "a.cs", 1, 1, 1, 9⟩])
    let r := instrumentMethod Config.standard symbols module .start ⟨0x0a000001⟩ branching
    r.outcome = .ok (.instrumented [⟨"a.cs", branchingSequence⟩]) ∧
      ∃ data stored old code new home entry,
        branching.body = some data ∧ MethodBody.ofBytes data = .ok stored ∧
        decode stored.code = .ok old ∧
        rewritten? Config.standard symbols .start ⟨0x0a000001⟩ branching = some code ∧
        Holds r.module branching.token code new ∧
        Agrees ⟨0x0a000001⟩ old new [branchingSequence] home entry := by
  intro module symbols r
  have h : r.outcome = .ok (.instrumented [⟨"a.cs", branchingSequence⟩]) := by decide +kernel
  exact ⟨h, instrumented_agrees h⟩

end Instrumenter

end CilCoverage
