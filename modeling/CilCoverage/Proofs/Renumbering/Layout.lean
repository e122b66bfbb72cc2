/-
  Laying out and storing bodies that differ in the ids they report.

  An id takes four bytes whatever it is, so each stage of the layout does the
  same for both bodies, and fails for both or for none: promotion
  (`settle_renumbered`), the choice of offsets (`locate_renumbered`), encoding
  (`encodeFrom_renumbered`) and storing (`toBytes_renumbered`). What is stored
  is the same byte for byte, but for the four bytes of each id that is loaded
  for a call of the probe (`SameBody`).
-/
import CilCoverage.Proofs.Relinking
import CilCoverage.Proofs.Renumbering.Bodies
import CilCoverage.Proofs.Rewriting

namespace CilCoverage

open Result

/-! ## Promotion -/

namespace Layout

variable {R : HitId → HitId → Prop} {probe : Token}

theorem offsets_renumbered {α : Type} {is js : List (Instruction α)} (h : Renumbered R probe is js) :
    offsets js = offsets is := by
  rw [offsets, h.map_size, offsets]

/-- A probe is not changed by a round of promotion. -/
theorem promote_probe (starts : Array Nat) (offset load call : Nat) (v : Int32)
    (is : List (Instruction Nat)) :
    promote starts offset (⟨load, .ldcI4, .int32 v⟩ :: ⟨call, .call, .token probe⟩ :: is) =
      (promote starts (offset + 5 + 5) is).map fun r =>
        (⟨load, .ldcI4, .int32 v⟩ :: ⟨call, .call, .token probe⟩ :: r.1, r.2) := by
  have hcall : promote starts (offset + 5) (⟨call, .call, .token probe⟩ :: is) =
      (promote starts (offset + 5 + 5) is).map fun r =>
        (⟨call, .call, .token probe⟩ :: r.1, r.2) := by
    change (promote starts (offset + 5 + 5) is >>= _) = _
    cases promote starts (offset + 5 + 5) is <;> rfl
  change (promote starts (offset + 5) (⟨call, .call, .token probe⟩ :: is) >>= _) = _
  rw [hcall]
  cases promote starts (offset + 5 + 5) is <;> rfl

theorem promote_renumbered (starts : Array Nat) (offset : Nat) {is js : List (Instruction Nat)}
    (h : Renumbered R probe is js) :
    Both (fun r s => Renumbered R probe r.1 s.1 ∧ s.2 = r.2) (promote starts offset is)
      (promote starts offset js) := by
  induction h generalizing offset with
  | nil => exact .ok ⟨.nil, rfl⟩
  | kept i _ ih =>
    refine Both.bind_same (promotion? starts offset i) fun long => (ih _).bind ?_
    rintro ⟨is, m⟩ ⟨js, n⟩ ⟨hrest, rfl⟩
    cases long with
    | none => exact .ok ⟨.kept i hrest, rfl⟩
    | some opcode => exact .ok ⟨.kept _ hrest, rfl⟩
  | probe load call hid _ ih =>
    rw [promote_probe, promote_probe]
    exact (ih _).map fun _ _ hrest => ⟨.probe load call hid hrest.1, hrest.2⟩

theorem settle_of_error {is : List (Instruction Nat)} {e : CodeError}
    (h : promote (offsets is).toArray 0 is = .error e) : settle is = .error e := by
  rw [settle]
  split <;> simp_all

/-- Both bodies need the same rounds. -/
theorem settle_renumbered {is js : List (Instruction Nat)} (h : Renumbered R probe is js) :
    Both (fun r s => Renumbered R probe r.1 s.1 ∧ s.2 = r.2) (settle is) (settle js) := by
  induction is using settle.induct generalizing js with
  | case1 is e hround =>
    have hboth := promote_renumbered (offsets is).toArray 0 h
    rw [hround, ← offsets_renumbered h] at hboth
    generalize hround' : promote (offsets js).toArray 0 js = x at hboth
    cases hboth
    rw [settle_of_error hround, settle_of_error hround']
    exact .error e
  | case2 is same hround =>
    have hboth := promote_renumbered (offsets is).toArray 0 h
    rw [hround, ← offsets_renumbered h] at hboth
    generalize hround' : promote (offsets js).toArray 0 js = x at hboth
    cases hboth with
    | @ok _ b hrest =>
      obtain ⟨same', count'⟩ := b
      obtain ⟨hrest, rfl⟩ := hrest
      rw [settle_of_zero hround, settle_of_zero hround']
      exact .ok ⟨hrest, rfl⟩
  | case3 is longer count hround hfewer ih =>
    have hboth := promote_renumbered (offsets is).toArray 0 h
    rw [hround, ← offsets_renumbered h] at hboth
    generalize hround' : promote (offsets js).toArray 0 js = x at hboth
    cases hboth with
    | @ok _ b hrest =>
      obtain ⟨longer', count'⟩ := b
      obtain ⟨hrest, rfl⟩ := hrest
      rw [settle_of_succ hround, settle_of_succ hround']
      refine (ih hrest).map fun r s hrs => ⟨hrs.1, ?_⟩
      rw [hrs.2]

/-! ## Offsets -/

/-- A probe refers to nothing, so it can be put anywhere. -/
theorem locate_probe (starts : Array Nat) (o o' load call : Nat) (v : Int32) (os : List Nat)
    (is : List (Instruction Nat)) :
    ((o :: o' :: os).zip (⟨load, .ldcI4, .int32 v⟩ :: ⟨call, .call, .token probe⟩ :: is)).mapM
        (fun x => locate starts x.1 x.2) =
      ((os.zip is).mapM fun x => locate starts x.1 x.2).map fun r =>
        ⟨o, .ldcI4, .int32 v⟩ :: ⟨o', .call, .token probe⟩ :: r := by
  rw [List.zip_cons_cons, List.zip_cons_cons, List.mapM_cons, List.mapM_cons]
  generalize List.mapM (m := Except CodeError) _ (os.zip is) = x
  cases x <;> rfl

theorem locate_renumbered (starts : Array Nat) {is js : List (Instruction Nat)}
    (h : Renumbered R probe is js) (os : List Nat) (hos : is.length ≤ os.length) :
    Both (Renumbered R probe) ((os.zip is).mapM fun x => locate starts x.1 x.2)
      ((os.zip js).mapM fun x => locate starts x.1 x.2) := by
  induction h generalizing os with
  | nil => cases os <;> exact .ok .nil
  | @kept is js i _ ih =>
    cases os with
    | nil => simp at hos
    | cons o os =>
      rw [List.zip_cons_cons, List.zip_cons_cons, List.mapM_cons, List.mapM_cons]
      refine Both.bind_same (locate starts o i) fun j => (ih os (by simpa using hos)).bind ?_
      exact fun _ _ hrest => .ok (.kept j hrest)
  | probe load call hid _ ih =>
    match os, hos with
    | o :: o' :: os, hos =>
      rw [locate_probe, locate_probe]
      exact (ih os (by simpa using hos)).map fun _ _ hrest => .probe o o' hid hrest

end Layout

/-! ## Encoding -/

namespace Code

/-- A call of the probe with an id. -/
def probeBytes (probe : Token) (id : HitId) : Bytes :=
  encodeOpCode .ldcI4 ++ Bytes.ofNat 4 id.toNat ++
    (encodeOpCode .call ++ Bytes.ofNat 4 probe.raw.toNat)

/-- The same code instruction for instruction and byte for byte, but for related ids that are
loaded for calls of the probe. -/
inductive SameCode (R : HitId → HitId → Prop) (probe : Token) : Bytes → Bytes → Prop
  | nil : SameCode R probe [] []
  | kept {i : Instruction Nat} {operand code code' : Bytes} (hi : encodeOperand i = .ok operand)
      (h : SameCode R probe code code') :
      SameCode R probe (encodeOpCode i.opcode ++ operand ++ code)
        (encodeOpCode i.opcode ++ operand ++ code')
  | probe {id id' : HitId} {code code' : Bytes} (hid : R id id')
      (h : SameCode R probe code code') :
      SameCode R probe (probeBytes probe id ++ code) (probeBytes probe id' ++ code')

variable {R : HitId → HitId → Prop} {probe : Token}

theorem SameCode.length_eq {code code' : Bytes} (h : SameCode R probe code code') :
    code'.length = code.length := by
  induction h with
  | nil => rfl
  | kept _ _ ih => rw [List.length_append, ih, ← List.length_append]
  | probe _ _ ih => simp only [probeBytes, List.length_append, Bytes.length_ofNat, ih]

theorem ofInt_toInt32 (id : HitId) : Bytes.ofInt 4 id.toInt32.toInt = Bytes.ofNat 4 id.toNat := by
  have hvalue : id.toInt32.toInt = Int.bmod id.toNat (2 ^ 32) := BitVec.toInt_eq_toNat_bmod _
  have hpow : Nat.pow 256 4 = 2 ^ 32 := rfl
  have hlt : id.toNat < 2 ^ 32 := id.toNat_lt_size
  rw [Bytes.ofInt, hvalue, hpow, Int.bmod_emod, ← Int.natCast_emod, Nat.mod_eq_of_lt hlt,
    Int.toNat_natCast]

/-- The bytes of an instruction, and what follows it. -/
theorem encodeFrom_cons {pos : Nat} {i : Instruction Nat} {operand : Bytes}
    (h : encodeOperand i = .ok operand) (is : List (Instruction Nat)) :
    encodeFrom pos (i :: is) =
      if pos ≠ i.offset then .error (.misplaced i.offset)
      else (encodeFrom (pos + i.size) is).map (encodeOpCode i.opcode ++ operand ++ ·) := by
  have hsize : (encodeOpCode i.opcode ++ operand).length = i.size := by
    rw [List.length_append, length_encodeOpCode, length_encodeOperand h]
  rw [encodeFrom]
  split
  · rfl
  · rw [h]
    simp only [bind, Except.bind]
    rw [hsize]
    cases encodeFrom (pos + i.size) is <;> rfl

/-- A probe is written where it stands, and takes ten bytes. -/
theorem encodeFrom_probe (pos load call : Nat) (id : HitId) (is : List (Instruction Nat)) :
    encodeFrom pos (⟨load, .ldcI4, .int32 id.toInt32⟩ :: ⟨call, .call, .token probe⟩ :: is) =
      if pos ≠ load then .error (.misplaced load)
      else if pos + 5 ≠ call then .error (.misplaced call)
      else (encodeFrom (pos + 5 + 5) is).map (probeBytes probe id ++ ·) := by
  have hload : encodeOperand ⟨load, .ldcI4, .int32 id.toInt32⟩ = .ok (Bytes.ofNat 4 id.toNat) :=
    congrArg Except.ok (ofInt_toInt32 id)
  have hcall : encodeOperand ⟨call, .call, .token probe⟩ = .ok (Bytes.ofNat 4 probe.raw.toNat) :=
    rfl
  rw [encodeFrom_cons hload, encodeFrom_cons hcall]
  split
  · rfl
  · change Except.map _ (if pos + 5 ≠ call then _ else _) = if pos + 5 ≠ call then _ else _
    split
    · rfl
    · change Except.map _ ((encodeFrom (pos + 5 + 5) is).map _) = _
      cases encodeFrom (pos + 5 + 5) is with
      | error e => rfl
      | ok code => exact congrArg Except.ok (List.append_assoc _ _ _).symm

theorem encodeFrom_renumbered (pos : Nat) {is js : List (Instruction Nat)}
    (h : Renumbered R probe is js) :
    Both (SameCode R probe) (encodeFrom pos is) (encodeFrom pos js) := by
  induction h generalizing pos with
  | nil => exact .ok .nil
  | kept i _ ih =>
    rw [encodeFrom, encodeFrom]
    split
    · exact .error _
    · cases hoperand : encodeOperand i with
      | error e => exact .error e
      | ok operand => exact (ih _).bind fun _ _ hrest => .ok (.kept hoperand hrest)
  | probe load call hid _ ih =>
    rw [encodeFrom_probe, encodeFrom_probe]
    split
    · exact .error _
    · split
      · exact .error _
      · exact (ih _).map fun _ _ hrest => .probe hid hrest

end Code

/-! ## Relinking -/

namespace LabelledBody

variable {R : HitId → HitId → Prop} {probe : Token}

theorem relink_renumbered {body body' : LabelledBody}
    (h : Renumbered R probe body.instructions body'.instructions)
    (hclauses : body'.clauses = body.clauses) :
    Both (fun r s => Code.SameCode R probe r.code s.code ∧ s.clauses = r.clauses)
      body.relink body'.relink := by
  unfold relink
  refine (Layout.settle_renumbered h).bind ?_
  rintro ⟨is, m⟩ ⟨js, n⟩ ⟨hsettled, rfl⟩
  dsimp only at hsettled ⊢
  have hlength : is.length ≤ (Layout.offsets is).length := by
    rw [Layout.length_offsets]
    omega
  rw [Layout.offsets_renumbered hsettled, hclauses]
  refine (Layout.locate_renumbered _ hsettled _ hlength).bind fun is js hlocated => ?_
  refine (Code.encodeFrom_renumbered 0 hlocated).bind fun code code' hcode => ?_
  exact Both.bind_same _ fun clauses => .ok ⟨hcode, rfl⟩

end LabelledBody

/-! ## Storing -/

namespace MethodBody

variable {R : HitId → HitId → Prop} {probe : Token}

/-- Two stored bodies with the same header, the same sections and the same code, but for related
ids that are loaded for calls of the probe. -/
inductive SameBody (R : HitId → HitId → Prop) (probe : Token) : Bytes → Bytes → Prop
  | mk (header sections : Bytes) {code code' : Bytes} (h : Code.SameCode R probe code code') :
      SameBody R probe (header ++ code ++ sections) (header ++ code' ++ sections)

theorem toBytes_renumbered {b : MethodBody} {code : Bytes} (h : Code.SameCode R probe b.code code) :
    Both (SameBody R probe) b.toBytes { b with code := code }.toBytes := by
  have hlength := h.length_eq
  have htiny : { b with code := code }.isTiny = b.isTiny := by
    simp only [isTiny, hlength]
  have hheader : { b with code := code }.fatHeader = b.fatHeader := by
    simp only [fatHeader, hlength]
  unfold toBytes
  rw [htiny, hheader]
  dsimp only
  split
  · rw [hlength]
    have hsame := SameBody.mk [UInt8.ofNat (4 * b.code.length + 2)] [] h
    rw [List.append_nil, List.append_nil] at hsame
    exact .ok hsame
  · split
    · have hsame := SameBody.mk b.fatHeader [] h
      rw [List.append_nil, List.append_nil] at hsame
      exact .ok hsame
    · split
      · exact .error _
      · have hsame := fun padding =>
          SameBody.mk b.fatHeader (List.replicate padding 0 ++ sectionBytes b.clauses) h
        simp only [← List.append_assoc] at hsame
        rw [List.length_append, List.length_append, hlength]
        exact .ok (hsame _)

end MethodBody

namespace PreparedBody

variable {R : HitId → HitId → Prop} {f : HitId → HitId} {plan : ProbePlan}

/-- With other ids in the plan, the stored body differs in the ids it reports, and in nothing
else. -/
theorem assemble_mapIds (p : PreparedBody) (probe : Token)
    (callEffect : Token → Option StackEffect) (name : String) (h : ∀ id ∈ plan.ids, R id (f id)) :
    Both (MethodBody.SameBody R probe) (p.assemble plan probe callEffect name).2
      (p.assemble (plan.mapIds f) probe callEffect name).2 := by
  obtain ⟨hbody, hclauses⟩ := LabelledBody.insertProbes_mapIds p.labelled probe h
  have hrelink := LabelledBody.relink_renumbered hbody hclauses
  unfold assemble
  dsimp only
  rw [hclauses, hbody.maxStack?_eq]
  generalize (p.labelled.insertProbes plan probe).relink = x at hrelink ⊢
  generalize (p.labelled.insertProbes (plan.mapIds f) probe).relink = y at hrelink ⊢
  cases hrelink with
  | error e => exact .error e
  | @ok r s hrs =>
    obtain ⟨code, clauses, promoted⟩ := s
    obtain ⟨hcode, rfl⟩ := hrs
    exact MethodBody.toBytes_renumbered hcode

end PreparedBody

end CilCoverage
