/-
  Which instructions decide.

  A conditional branch or a jump table decides if it can go on in two ways or
  more. What is listed for a stretch of code is known instruction by
  instruction (`mem_listFrom`, `listFrom_eq_error`), and spans follow each other
  without overlapping, so the decisions of all spans together are those of the
  instructions in spans, each once (`Complete`).
-/
import CilCoverage.Proofs.Distinct
import CilCoverage.Proofs.Segmentation

namespace CilCoverage

namespace OpCode

/-- The branches that are taken or not by what is on the stack, in their long and short forms. -/
def conditionalBranches : List OpCode :=
  [brfalse, brtrue, beq, bge, bgt, ble, blt, bneUn, bgeUn, bgtUn, bleUn, bltUn,
   brfalseS, brtrueS, beqS, bgeS, bgtS, bleS, bltS, bneUnS, bgeUnS, bgtUnS, bleUnS, bltUnS]

/-- A conditional branch or a jump table. -/
def Decides (op : OpCode) : Prop := op ∈ conditionalBranches ∨ op = switch

instance (op : OpCode) : Decidable op.Decides := inferInstanceAs (Decidable (_ ∨ _))

theorem isDecision_iff (op : OpCode) : op.isDecision = true ↔ op.Decides := by
  have hall : ∀ op ∈ all, op.isDecision = true ↔ op.Decides := by decide +kernel
  exact hall op (mem_all op)

end OpCode

namespace Decision

/-! ## The decision at an instruction -/

theorem nodup_successorsOf (index : Nat) (i : Instruction Nat) :
    (successorsOf index i).Nodup := nodup_eraseDups _

theorem head?_successorsOf (index : Nat) (i : Instruction Nat) :
    (successorsOf index i).head? = some (index + 1) := by
  rw [successorsOf, List.eraseDups_cons]
  rfl

theorem toFinset_successorsOf (index : Nat) (i : Instruction Nat) :
    (successorsOf index i).toFinset = insert (index + 1) i.operand.targets.toFinset := by
  rw [successorsOf, toFinset_eraseDups, List.toFinset_cons]

theorem length_successorsOf (index : Nat) (i : Instruction Nat) :
    (successorsOf index i).length = (insert (index + 1) i.operand.targets.toFinset).card := by
  rw [successorsOf, length_eraseDups, List.toFinset_cons]

variable {count index : Nat} {i : Instruction Nat}

theorem at?_of_decides (h : i.opcode.Decides) : at? count index i =
    if count ≤ index + 1 then .error (.fallthroughPastEnd i.offset)
    else if 1 < (successorsOf index i).length then .ok (some ⟨index, successorsOf index i⟩)
    else .ok none := by
  simp [at?, (OpCode.isDecision_iff _).mpr h]

theorem at?_of_not_decides (h : ¬ i.opcode.Decides) : at? count index i = .ok none := by
  rw [← OpCode.isDecision_iff, Bool.not_eq_true] at h
  simp [at?, h]

theorem at?_eq_some {d : Decision} : at? count index i = .ok (some d) ↔
    i.opcode.Decides ∧ index + 1 < count ∧ 1 < (successorsOf index i).length ∧
      d = ⟨index, successorsOf index i⟩ := by
  by_cases h : i.opcode.Decides
  · rw [at?_of_decides h, @eq_comm _ d]
    split
    · next hend => simp [Nat.not_lt.mpr hend]
    · next hnext =>
      split
      · next hseveral => simp [h, Nat.not_le.mp hnext, hseveral]
      · next hone => simp [hone]
  · simp [at?_of_not_decides h, h]

theorem at?_eq_error {e : SegmentError} : at? count index i = .error e ↔
    i.opcode.Decides ∧ count ≤ index + 1 ∧ e = .fallthroughPastEnd i.offset := by
  by_cases h : i.opcode.Decides
  · rw [at?_of_decides h, @eq_comm _ e]
    split
    · next hend => simp [h, hend]
    · next hnext => split <;> simp [hnext]
  · simp [at?_of_not_decides h, h]

/-! ## Stretches of code -/

/-- What is listed are the decisions at the instructions. -/
theorem mem_listFrom {rest : List (Instruction Nat)} {ds : List Decision} {d : Decision}
    (h : listFrom count index rest = .ok ds) :
    d ∈ ds ↔ ∃ k i, rest[k]? = some i ∧ at? count (index + k) i = .ok (some d) := by
  induction rest generalizing index ds with
  | nil =>
    cases h
    simp
  | cons i rest ih =>
    obtain ⟨found, hfound, h⟩ := Result.bind_eq_ok.mp h
    obtain ⟨more, hmore, h⟩ := Result.bind_eq_ok.mp h
    cases h
    rw [List.mem_append, ih hmore, Option.mem_toList]
    constructor
    · rintro (rfl | ⟨k, j, hj, hd⟩)
      · exact ⟨0, i, rfl, hfound⟩
      · exact ⟨k + 1, j, hj, by rwa [Nat.add_assoc, Nat.add_comm 1 k] at hd⟩
    · rintro ⟨k, j, hj, hd⟩
      cases k with
      | zero =>
        obtain rfl : i = j := Option.some.inj hj
        rw [Nat.add_zero, hfound] at hd
        exact Or.inl (Except.ok.inj hd)
      | succ k =>
        exact Or.inr ⟨k, j, hj, by rwa [Nat.add_assoc, Nat.add_comm 1 k]⟩

/-- Listing fails at the last instruction only. -/
theorem listFrom_eq_error {rest : List (Instruction Nat)} {e : SegmentError}
    (hcount : index + rest.length ≤ count) : listFrom count index rest = .error e ↔
      ∃ k i, rest[k]? = some i ∧ i.opcode.Decides ∧ index + k + 1 = count ∧
        e = .fallthroughPastEnd i.offset := by
  induction rest generalizing index with
  | nil => simp [listFrom]
  | cons i rest ih =>
    rw [List.length_cons] at hcount
    have hrest := @ih (index + 1) (by omega)
    rw [listFrom, Result.bind_eq_error]
    constructor
    · rintro (hi | ⟨found, -, h⟩)
      · obtain ⟨hdecides, hend, rfl⟩ := at?_eq_error.mp hi
        exact ⟨0, i, rfl, hdecides, by omega, rfl⟩
      · rcases Result.bind_eq_error.mp h with h | ⟨more, -, h⟩
        · obtain ⟨k, j, hj, hdecides, hend, he⟩ := hrest.mp h
          exact ⟨k + 1, j, hj, hdecides, by omega, he⟩
        · cases h
    · rintro ⟨k, j, hj, hdecides, hend, rfl⟩
      cases k with
      | zero =>
        obtain rfl : i = j := Option.some.inj hj
        exact Or.inl (at?_eq_error.mpr ⟨hdecides, by omega, rfl⟩)
      | succ k =>
        have hmore := hrest.mpr ⟨k, j, hj, hdecides, by omega, rfl⟩
        -- before the last instruction, nothing fails
        cases hi : at? count index i with
        | error e =>
          have hlast := (at?_eq_error.mp hi).2.1
          have hk := (List.getElem?_eq_some_iff.mp hj).1
          rw [List.length_cons] at hk
          omega
        | ok found => exact Or.inr ⟨found, rfl, Result.bind_eq_error.mpr (Or.inl hmore)⟩

/-! ## Spans -/

variable {is : List (Instruction Nat)} {spans : List Span}

theorem mem_inSpan {span : Span} {ds : List Decision} {d : Decision}
    (h : inSpan is span = .ok ds) : d ∈ ds ↔ ∃ i, is[d.index]? = some i ∧ span.Holds d.index ∧
      at? is.length d.index i = .ok (some d) := by
  rw [mem_listFrom h]
  constructor
  · rintro ⟨k, i, hk, hd⟩
    obtain ⟨hlt, hi⟩ := getElem?_stretch.mp hk
    have hindex : span.start + k = d.index := by rw [(at?_eq_some.mp hd).2.2.2]
    rw [hindex] at hlt hi hd
    exact ⟨i, hi, ⟨by omega, hlt⟩, hd⟩
  · rintro ⟨i, hi, ⟨hstart, hlt⟩, hd⟩
    obtain ⟨k, hk⟩ := Nat.exists_eq_add_of_le hstart
    rw [hk] at hi hlt hd
    exact ⟨k, i, getElem?_stretch.mpr ⟨hlt, hi⟩, hd⟩

theorem inSpan_eq_error {span : Span} {e : SegmentError} (hspan : span.Within is.length) :
    inSpan is span = .error e ↔ ∃ k i, span.Holds k ∧ is[k]? = some i ∧ i.opcode.Decides ∧
      k + 1 = is.length ∧ e = .fallthroughPastEnd i.offset := by
  have hcount : span.start +
      ((is.drop span.start).take (span.stop - span.start)).length ≤ is.length := by
    rw [length_stretch hspan]
    obtain ⟨hstart, hstop⟩ := hspan
    omega
  rw [inSpan, listFrom_eq_error hcount]
  constructor
  · rintro ⟨k, i, hk, hdecides, hlast, he⟩
    obtain ⟨hlt, hi⟩ := getElem?_stretch.mp hk
    exact ⟨span.start + k, i, ⟨Nat.le_add_right _ _, hlt⟩, hi, hdecides, hlast, he⟩
  · rintro ⟨j, i, ⟨hstart, hlt⟩, hi, hdecides, hlast, he⟩
    obtain ⟨k, rfl⟩ := Nat.exists_eq_add_of_le hstart
    exact ⟨k, i, getElem?_stretch.mpr ⟨hlt, hi⟩, hdecides, hlast, he⟩

/-- The decisions are those of the instructions in the spans, each once, and each with all ways to
go on. -/
structure Complete (is : List (Instruction Nat)) (spans : List Span) (ds : List Decision) :
    Prop where
  ascending : ds.Pairwise fun a b => a.index < b.index
  listed : ∀ k, (∃ d ∈ ds, d.index = k) ↔ ∃ i, is[k]? = some i ∧ i.opcode.Decides ∧
    (∃ s ∈ spans, s.Holds k) ∧ 2 ≤ (insert (k + 1) i.operand.targets.toFinset).card
  successors : ∀ d ∈ ds, ∃ i, is[d.index]? = some i ∧ d.successors.Nodup ∧
    d.successors.head? = some (d.index + 1) ∧
    d.successors.toFinset = insert (d.index + 1) i.operand.targets.toFinset

theorem pairwise_flatten_inSpan {found : List (List Decision)}
    (hwithin : ∀ s ∈ spans, s.Within is.length)
    (hapart : spans.Pairwise fun a b => a.stop ≤ b.start)
    (h : List.Forall₂ (fun s ds => inSpan is s = .ok ds) spans found) :
    found.flatten.Pairwise fun a b => a.index < b.index := by
  induction h with
  | nil => exact .nil
  | @cons span ds spans found hds htail ih =>
    obtain ⟨hspan, hwithin⟩ := List.forall_mem_cons.mp hwithin
    obtain ⟨hbefore, hapart⟩ := List.pairwise_cons.mp hapart
    rw [List.flatten_cons, List.pairwise_append]
    refine ⟨(inSpan_spec hspan hds).1, ih hwithin hapart, ?_⟩
    intro a ha b hb
    obtain ⟨ds', hds', hb⟩ := List.mem_flatten.mp hb
    obtain ⟨span', hspan', hds'⟩ := Result.exists_mem_left htail hds'
    obtain ⟨-, -, ⟨-, ha⟩, -⟩ := (mem_inSpan hds).mp ha
    obtain ⟨-, -, ⟨hb, -⟩, -⟩ := (mem_inSpan hds').mp hb
    have hle := hbefore span' hspan'
    omega

/-- The decisions of all spans. -/
theorem mem_flatten_inSpan {found : List (List Decision)} {d : Decision}
    (h : List.Forall₂ (fun s ds => inSpan is s = .ok ds) spans found) :
    d ∈ found.flatten ↔ ∃ i, is[d.index]? = some i ∧ (∃ s ∈ spans, s.Holds d.index) ∧
      at? is.length d.index i = .ok (some d) := by
  rw [List.mem_flatten]
  constructor
  · rintro ⟨ds, hds, hd⟩
    obtain ⟨span, hspan, hfound⟩ := Result.exists_mem_left h hds
    obtain ⟨i, hi, hholds, hat⟩ := (mem_inSpan hfound).mp hd
    exact ⟨i, hi, ⟨span, hspan, hholds⟩, hat⟩
  · rintro ⟨i, hi, ⟨span, hspan, hholds⟩, hat⟩
    obtain ⟨ds, hds, hfound⟩ := Result.exists_mem_right h hspan
    exact ⟨ds, hds, (mem_inSpan hfound).mpr ⟨i, hi, hholds, hat⟩⟩

theorem complete_of_mapM {found : List (List Decision)}
    (hwithin : ∀ s ∈ spans, s.Within is.length)
    (hapart : spans.Pairwise fun a b => a.stop ≤ b.start)
    (h : spans.mapM (inSpan is) = .ok found) : Complete is spans found.flatten := by
  rw [Result.mapM_eq_ok] at h
  refine ⟨pairwise_flatten_inSpan hwithin hapart h, fun k => ⟨?_, ?_⟩, fun d hd => ?_⟩
  · rintro ⟨d, hd, rfl⟩
    obtain ⟨i, hi, hspan, hat⟩ := (mem_flatten_inSpan h).mp hd
    obtain ⟨hdecides, -, hseveral, -⟩ := at?_eq_some.mp hat
    rw [length_successorsOf] at hseveral
    exact ⟨i, hi, hdecides, hspan, hseveral⟩
  · rintro ⟨i, hi, hdecides, ⟨span, hspan, hholds⟩, hseveral⟩
    have hlast : k + 1 ≠ is.length := by
      intro hlast
      obtain ⟨ds, -, hok⟩ := Result.exists_mem_right h hspan
      rw [(inSpan_eq_error (hwithin span hspan)).mpr
        ⟨k, i, hholds, hi, hdecides, hlast, rfl⟩] at hok
      cases hok
    have hk := (List.getElem?_eq_some_iff.mp hi).1
    have hnext : k + 1 < is.length := by omega
    rw [← length_successorsOf] at hseveral
    exact ⟨⟨k, successorsOf k i⟩, (mem_flatten_inSpan h).mpr ⟨i, hi, ⟨span, hspan, hholds⟩,
      at?_eq_some.mpr ⟨hdecides, hnext, hseveral, rfl⟩⟩, rfl⟩
  · obtain ⟨i, hi, -, hat⟩ := (mem_flatten_inSpan h).mp hd
    have hd : d = ⟨d.index, successorsOf d.index i⟩ := (at?_eq_some.mp hat).2.2.2
    rw [hd]
    exact ⟨i, hi, nodup_successorsOf _ i, head?_successorsOf _ i, toFinset_successorsOf _ i⟩

/-- The decisions of all spans of a body are complete; they cannot be listed exactly if the last
instruction of the body decides and is in a span. -/
theorem mapM_inSpan_complete (hascending : is.Pairwise fun i j => i.offset ≤ j.offset)
    {points : List SequencePoint} {allowed : SequencePoint → Bool}
    (hsegment : (Span.segment is points allowed).2 = .ok spans) :
    (∀ e, spans.mapM (inSpan is) = .error e ↔ ∃ k i, (∃ s ∈ spans, s.Holds k) ∧
      is[k]? = some i ∧ i.opcode.Decides ∧ k + 1 = is.length ∧
      e = .fallthroughPastEnd i.offset) ∧
    ∀ found, spans.mapM (inSpan is) = .ok found → Complete is spans found.flatten := by
  obtain ⟨hapart, hspans⟩ := Span.segment_spec hascending
    (Prod.ext rfl hsegment : Span.segment is points allowed = (_, .ok spans))
  have hwithin : ∀ s ∈ spans, s.Within is.length := fun s hs => (hspans s hs).1
  have herror : ∀ {e}, (∃ s ∈ spans, inSpan is s = .error e) ↔ ∃ k i, (∃ s ∈ spans, s.Holds k) ∧
      is[k]? = some i ∧ i.opcode.Decides ∧ k + 1 = is.length ∧
      e = .fallthroughPastEnd i.offset := by
    intro e
    constructor
    · rintro ⟨s, hs, he⟩
      obtain ⟨k, i, hk, hlast⟩ := (inSpan_eq_error (hwithin s hs)).mp he
      exact ⟨k, i, ⟨s, hs, hk⟩, hlast⟩
    · rintro ⟨k, i, ⟨s, hs, hk⟩, hlast⟩
      exact ⟨s, hs, (inSpan_eq_error (hwithin s hs)).mpr ⟨k, i, hk, hlast⟩⟩
  refine ⟨fun e => ?_, fun found h => complete_of_mapM hwithin hapart h⟩
  rw [← herror]
  refine ⟨Result.exists_of_mapM_eq_error, ?_⟩
  rintro ⟨s, hs, he⟩
  cases h : spans.mapM (inSpan is) with
  | ok found =>
    obtain ⟨ds, -, hds⟩ := Result.exists_mem_right (Result.mapM_eq_ok.mp h) hs
    rw [he] at hds
    cases hds
  | error e' =>
    -- whichever span fails, it is the last instruction that is reported
    obtain ⟨k, i, -, hi, -, hlast, rfl⟩ := herror.mp (Result.exists_of_mapM_eq_error h)
    obtain ⟨k', i', -, hi', -, hlast', rfl⟩ := herror.mp ⟨s, hs, he⟩
    obtain rfl : k = k' := Nat.succ_injective (hlast.trans hlast'.symm)
    rw [Option.some.inj (hi.symm.trans hi')]

/-- A branch to itself, a table with one entry twice and one for the instruction that follows, and
a branch that goes on alike whether it is taken or not. -/
def waysOn : List (Instruction Nat) :=
  [⟨0, .ldarg0, .none⟩, ⟨1, .brtrueS, .target 1⟩, ⟨3, .ldarg0, .none⟩,
   ⟨4, .switch, .table [0, 4, 0]⟩, ⟨21, .ldarg0, .none⟩, ⟨22, .brfalse, .target 6⟩,
   ⟨27, .ret, .none⟩]

theorem mapM_inSpan_complete_waysOn :
    let points : List SequencePoint := [⟨3, "a.cs", 2, 1, 2, 9⟩, ⟨0, "a.cs", 1, 1, 1, 9⟩]
    let spans : List Span := [⟨⟨0, "a.cs", 1, 1, 1, 9⟩, 0, 2⟩, ⟨⟨3, "a.cs", 2, 1, 2, 9⟩, 2, 7⟩]
    let found : List (List Decision) := [[⟨1, [2, 1]⟩], [⟨3, [4, 0]⟩]]
    waysOn.Pairwise (fun i j => i.offset ≤ j.offset) ∧
      (Span.segment waysOn points fun _ => true).2 = .ok spans ∧
      spans.mapM (inSpan waysOn) = .ok found ∧ Complete waysOn spans found.flatten ∧
      -- the first two instructions alone end with the branch
      (Span.segment (waysOn.take 2) (points.drop 1) fun _ => true).2 = .ok (spans.take 1) ∧
      (spans.take 1).mapM (inSpan (waysOn.take 2)) = .error (.fallthroughPastEnd 1) := by
  intro points spans found
  have hascending : waysOn.Pairwise fun i j => i.offset ≤ j.offset := by decide
  have hsorted : Span.sortPoints points = points.reverse := by
    simp [points, Span.sortPoints, List.mergeSort, List.MergeSort.Internal.splitInTwo]
  have hsegment : (Span.segment waysOn points fun _ => true).2 = .ok spans := by
    rw [Span.segment, hsorted]
    decide
  have hfound : spans.mapM (inSpan waysOn) = .ok found := by
    decide +kernel
  have hcut : (Span.segment (waysOn.take 2) (points.drop 1) fun _ => true).2 =
      .ok (spans.take 1) := by
    decide +kernel
  have hfails := (mapM_inSpan_complete (by decide) hcut).1 (.fallthroughPastEnd 1)
  exact ⟨hascending, hsegment, hfound,
    (mapM_inSpan_complete hascending hsegment).2 found hfound, hcut,
    hfails.mpr ⟨1, _, ⟨_, List.mem_cons_self, by decide⟩, rfl, by decide, rfl, rfl⟩⟩

end Decision

end CilCoverage
