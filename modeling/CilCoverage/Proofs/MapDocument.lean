/-
  Coverage maps through their documents.

  Each part of a map is found again in the value it is written as, up to the
  whole map (`ofValue_members`). No value is deep, so that the text of a map is
  read back (`read_toText`): what becomes of a text that was written depends on
  whether the map is valid, and on nothing else (`ofText_toText`).
-/
import CilCoverage.CoverageMap.Document
import CilCoverage.Proofs.Json.RoundTrip

namespace CilCoverage

open Json

/-! ## Values -/

namespace Json.Value

/-- What can be found again item by item can be found again in the array. -/
theorem list?_map {α : Type} {write : α → Value} {look : Value → Option α}
    (h : ∀ a, look (write a) = some a) (as : List α) :
    (array (as.map write)).list? look = some as := by
  rw [list?]
  induction as with
  | nil => rfl
  | cons a as ih =>
    rw [List.map_cons, List.mapM_cons, h, ih]
    rfl

end Json.Value

namespace CoverageMap

@[simp] theorem uint32?_ofUInt32 (n : UInt32) : (ofUInt32 n).uint32? = some n := by
  simp [ofUInt32, Value.uint32?, n.toNat_lt_size]

theorem branchOf_branchValue (b : Branch) : branchOf (branchValue b) = some b := by
  simp [branchOf, branchValue, Value.fields?, Value.bool?, Value.string?, List.lookup_cons]

theorem conditionOf_conditionValue (c : Condition) :
    conditionOf (conditionValue c) = some c := by
  simp [conditionOf, conditionValue, Value.fields?, Value.string?, List.lookup_cons,
    Value.list?_map branchOf_branchValue]

theorem methodOf_methodValue (m : MethodInfo) : methodOf (methodValue m) = some m := by
  simp [methodOf, methodValue, Value.fields?, Value.string?, List.lookup_cons]

theorem sequenceOf_sequenceValue (s : Sequence) : sequenceOf (sequenceValue s) = some s := by
  obtain ⟨id, offset, startLine, startColumn, endLine, endColumn, method, text, conditions⟩ := s
  cases conditions with
  | nil =>
    simp [sequenceOf, sequenceValue, Value.fields?, Value.string?, List.lookup_cons,
      methodOf_methodValue, listOrNil]
  | cons c cs =>
    have hlist := Value.list?_map conditionOf_conditionValue (c :: cs)
    rw [List.map_cons] at hlist
    simp [sequenceOf, sequenceValue, Value.fields?, Value.string?, List.lookup_cons,
      methodOf_methodValue, listOrNil, hlist]

theorem fileOf_fileValue (f : SourceFile) : fileOf (fileValue f) = some f := by
  simp [fileOf, fileValue, Value.fields?, Value.string?, List.lookup_cons,
    Value.list?_map sequenceOf_sequenceValue]

theorem assemblyOf_assemblyValue (a : InstrumentedAssembly) :
    assemblyOf (assemblyValue a) = some a := by
  simp [assemblyOf, assemblyValue, Value.fields?, Value.string?, List.lookup_cons,
    Value.list?_map fileOf_fileValue]

/-- The members of a document but for the version. -/
def members (m : CoverageMap) : List (String × Value) :=
  (match m.sourceRoot with
    | some root => [("source_root", .string root)]
    | none => []) ++
  [("hits_dir", .string m.hitsDir), ("assemblies", .array (m.assemblies.map assemblyValue))]

theorem ofValue_members (m : CoverageMap) : ofValue (.object m.members) = some m := by
  obtain ⟨root, hitsDir, assemblies⟩ := m
  cases root <;>
    simp [ofValue, members, Value.fields?, Value.string?, List.lookup_cons, rootOf,
      Value.list?_map assemblyOf_assemblyValue]

/-! ## Depth -/

theorem plain_ofUInt32 (depth : Nat) (n : UInt32) : Plain depth (ofUInt32 n) := by
  have := n.toNat_lt_size
  have hsize : UInt32.size < UInt64.size := by decide
  exact .integer ⟨by omega, by omega⟩

/-- The values of a list are as deep as the array is, but for the array. -/
theorem plain_array {α : Type} {write : α → Value} {depth : Nat}
    (h : ∀ a, Plain depth (write a)) (as : List α) :
    Plain (depth + 1) (.array (as.map write)) :=
  .array fun v hv => by
    obtain ⟨a, -, rfl⟩ := List.mem_map.mp hv
    exact h a

theorem plain_branchValue (depth : Nat) (b : Branch) : Plain (depth + 1) (branchValue b) :=
  .object (by simp [plain_ofUInt32, Plain.bool, Plain.string])

theorem plain_conditionValue (depth : Nat) (c : Condition) :
    Plain (depth + 3) (conditionValue c) :=
  .object (by simp [plain_ofUInt32, Plain.string, plain_array (plain_branchValue depth)])

theorem plain_methodValue (depth : Nat) (m : MethodInfo) : Plain (depth + 1) (methodValue m) :=
  .object (by simp [Plain.string])

theorem plain_sequenceValue (depth : Nat) (s : Sequence) : Plain (depth + 5) (sequenceValue s) := by
  refine .object fun m hm => ?_
  rcases List.mem_append.mp hm with hm | hm
  · revert m
    simp [plain_ofUInt32, Plain.string, plain_methodValue (depth + 3)]
  · split at hm
    · cases hm
    · rw [List.mem_singleton.mp hm]
      exact plain_array (plain_conditionValue depth) _

theorem plain_fileValue (depth : Nat) (f : SourceFile) : Plain (depth + 7) (fileValue f) :=
  .object (by simp [Plain.string, plain_array (plain_sequenceValue depth)])

theorem plain_assemblyValue (depth : Nat) (a : InstrumentedAssembly) :
    Plain (depth + 9) (assemblyValue a) :=
  .object (by simp [Plain.string, plain_array (plain_fileValue depth)])

theorem plain_members (m : CoverageMap) : ∀ e ∈ m.members, Plain memberDepth e.2 := by
  have hassemblies : Plain memberDepth (.array (m.assemblies.map assemblyValue)) :=
    plain_array (plain_assemblyValue 116) _
  unfold members
  cases m.sourceRoot <;> simp [Plain.string, hassemblies]

/-! ## Text -/

theorem versionKey_notMem (m : CoverageMap) : ∀ e ∈ m.members, e.1 ≠ versionKey := by
  unfold members
  cases m.sourceRoot <;> simp [versionKey]

/-- Members without a version, after the first one and up to the end of the document. -/
theorem readMembers_rest {rest : List Char} {ms : List (String × Value)}
    (hplain : ∀ m ∈ ms, Plain memberDepth m.2) (hkeys : ∀ m ∈ ms, m.1 ≠ versionKey)
    {bound : Nat} (hbound : ms.length < bound) {level outer : Nat} (tagged : Bool) :
    readMembers bound false tagged
      (ms.flatMap (fun m => ',' :: newline level ++ memberChars (write level) m) ++
        (newline outer ++ '\x7d' :: rest)) =
      .ok ((tagged, ms), newline outer ++ '\x7d' :: rest) := by
  obtain ⟨bound, rfl⟩ := Nat.exists_eq_add_one_of_ne_zero (by omega : bound ≠ 0)
  induction ms generalizing bound with
  | nil =>
    have hend : skipBlank (newline outer ++ '\x7d' :: rest) = '\x7d' :: rest := by
      rw [skipBlank_newline, skipBlank_cons (by decide)]
    rw [List.flatMap_nil, List.nil_append, readMembers, nextKey?_end hend]
    rfl
  | cons m ms ih =>
    obtain ⟨hm, hplain⟩ := List.forall_mem_cons.mp hplain
    obtain ⟨hkey, hkeys⟩ := List.forall_mem_cons.mp hkeys
    obtain ⟨bound, rfl⟩ := Nat.exists_eq_add_one_of_ne_zero
      (by rw [List.length_cons] at hbound; omega : bound ≠ 0)
    rw [List.length_cons] at hbound
    obtain ⟨-, hnext⟩ := nextKey?_member (write level) level m
      (ms.flatMap (fun m => ',' :: newline level ++ memberChars (write level) m) ++
        (newline outer ++ '\x7d' :: rest))
    obtain ⟨hcolon, hvalue⟩ := (takes_readValue hm level).after_colon (opens_write hm level)
      (ends_rest ms outer ('\x7d' :: rest))
    rw [List.flatMap_cons, List.append_assoc, List.append_assoc, List.cons_append, readMembers,
      hnext]
    simp only [bind, Except.bind]
    rw [if_neg hkey, hcolon]
    dsimp only
    rw [hvalue]
    dsimp only
    rw [ih hplain hkeys bound (by omega)]

/-- The text of a map: its version comes first. -/
theorem toList_toText (m : CoverageMap) : m.toText.toList = '\x7b' :: (newline 1 ++
    (memberChars (write 1) (versionKey, .string version) ++
      (m.members.flatMap (fun e => ',' :: newline 1 ++ memberChars (write 1) e) ++
        (newline 0 ++ ['\x7d'])))) := by
  have hvalue : m.toValue = .object ((versionKey, .string version) :: m.members) := rfl
  rw [toText, Value.text, String.toList_ofList, hvalue, write, writeMembers_eq]
  simp [memberChars]

theorem readTagged_toText (m : CoverageMap) :
    readTagged m.toText.toList = .ok ((.object m.members, '\x7d'), newline 0 ++ ['\x7d']) := by
  let tail := m.members.flatMap (fun e => ',' :: newline 1 ++ memberChars (write 1) e) ++
    (newline 0 ++ ['\x7d'])
  let more := newline 1 ++ (memberChars (write 1) (versionKey, .string version) ++ tail)
  have hstart : readStart .keep m.toText.toList = .ok (.object, more) := by
    rw [m.toList_toText]
    rfl
  obtain ⟨hkey, -⟩ := nextKey?_member (write 1) 1 (versionKey, .string version) tail
  have hversion : readVersion (' ' :: (write 1 (.string version) ++ tail)) = .ok ((), tail) := by
    have htext : skipBlank (' ' :: (write 1 (.string version) ++ tail)) =
        writeString version ++ tail := rfl
    rw [readVersion, takes_string version _ _ htext (ends_rest _ _ _)]
    rfl
  have hlength : m.members.length < more.length :=
    length_lt_text m.members (memberChars (write 1)) 1 _ _
  have hmembers : readMembers (more.length + 1) true false more =
      .ok ((true, m.members), newline 0 ++ ['\x7d']) := by
    rw [readMembers, hkey]
    simp only [bind, Except.bind, if_true, Bool.false_eq_true, if_false]
    have hcolon : after ':' ([':', ' '] ++ (write 1 (.string version) ++ tail)) =
        .ok (' ' :: (write 1 (.string version) ++ tail)) := rfl
    rw [hcolon]
    dsimp only
    rw [hversion]
    exact readMembers_rest m.plain_members m.versionKey_notMem hlength true
  rw [readTagged, hstart]
  simp only [bind, Except.bind]
  rw [hmembers]
  rfl

/-- What was written is read, valid or not. -/
theorem read_toText (m : CoverageMap) : readDocument read m.toText = .ok m := by
  have hclose : after '\x7d' (newline 0 ++ ['\x7d']) = .ok [] := rfl
  rw [readDocument, read, readTagged_toText]
  simp only [bind, Except.bind]
  rw [hclose]
  simp only [ofValue_members]
  rfl

/-- The text of a map is accepted exactly if the map is valid, and then gives back the map. -/
theorem ofText_toText (m : CoverageMap) :
    ofText m.toText = match m.check with
      | .error cause => .error (.invalid cause)
      | .ok () => .ok m := by
  cases hvalid : m.check with
  | error cause => simp only [ofText, read_toText, hvalid]
  | ok => simp only [ofText, read_toText, hvalid]

end CoverageMap

end CilCoverage
