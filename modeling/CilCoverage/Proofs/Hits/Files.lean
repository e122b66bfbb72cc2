/-
  Hit files, written and read.

  A reader takes as many bytes as were written for a field and leaves the rest
  (`readCounts_append` for the counts), so a file is read back from its bytes,
  whatever follows them (`ofBytes_toBytes`).
-/
import CilCoverage.HitFile
import CilCoverage.Result
import Mathlib.Data.List.Perm.Subperm

namespace CilCoverage

/-! ## Maps from ascending entries -/

namespace OrderedMap

variable {κ α : Type} [Ord κ]

theorem upsertList_of_before {k : κ} {f : Option α → α} {l : List (κ × α)} [Std.OrientedOrd κ]
    (h : ∀ e ∈ l, compare e.1 k = .lt) : upsertList k f l = l ++ [(k, f none)] := by
  induction l with
  | nil => rfl
  | cons e rest ih =>
    have hk : compare k e.1 = .gt := Std.OrientedCmp.gt_iff_lt.mpr (h e List.mem_cons_self)
    rw [upsertList, hk, ih fun e' he' => h e' (List.mem_cons_of_mem _ he')]
    rfl

variable [Std.TransOrd κ] [Std.LawfulEqOrd κ]

/-- Inserting entries by ascending key puts each of them at the end. -/
theorem entries_foldl_insert {l : List (κ × α)} (m : OrderedMap κ α)
    (h : (m.entries ++ l).Pairwise fun a b => compare a.1 b.1 = .lt) :
    (l.foldl (fun m e => m.insert e.1 e.2) m).entries = m.entries ++ l := by
  induction l generalizing m with
  | nil => exact (List.append_nil _).symm
  | cons e rest ih =>
    have hlast : (m.insert e.1 e.2).entries = m.entries ++ [e] :=
      upsertList_of_before fun e' he' =>
        (List.pairwise_append.mp h).2.2 e' he' e List.mem_cons_self
    rw [List.foldl_cons, ih, hlast, List.append_assoc, List.singleton_append]
    rw [hlast, List.append_assoc]
    exact h

theorem foldl_insert_entries (m : OrderedMap κ α) :
    m.entries.foldl (fun m e => m.insert e.1 e.2) empty = m :=
  ext (entries_foldl_insert empty m.sorted)

end OrderedMap

/-! ## Bytes of texts -/

namespace Bytes

theorem toListLoop_eq (bytes : ByteArray) (i : Nat) (before : Bytes) :
    ByteArray.toList.loop bytes i before = before.reverse ++ bytes.data.toList.drop i := by
  fun_induction ByteArray.toList.loop bytes i before with
  | case1 i before h ih =>
    have hlt : i < bytes.data.toList.length := h
    have hget : bytes.get! i = bytes.data.toList[i] := getElem!_pos bytes.data i h
    rw [ih, List.drop_eq_getElem_cons hlt, List.reverse_cons, List.append_assoc, hget]
    rfl
  | case2 i before h =>
    have hle : bytes.data.toList.length ≤ i := Nat.le_of_not_lt h
    rw [List.drop_of_length_le hle, List.append_nil]

theorem toArray_toList (bytes : ByteArray) : (⟨bytes.toList.toArray⟩ : ByteArray) = bytes := by
  rw [ByteArray.toList, toListLoop_eq]
  rfl

theorem length_toUTF8 (text : String) : text.toUTF8.toList.length = text.utf8ByteSize := by
  rw [ByteArray.toList, toListLoop_eq]
  exact Array.length_toList

theorem fromUTF8?_toUTF8 (text : String) :
    String.fromUTF8? ⟨text.toUTF8.toList.toArray⟩ = some text := by
  rw [toArray_toList, String.fromUTF8?, String.toUTF8_eq_toByteArray, dif_pos text.isValidUTF8]
  rfl

end Bytes

namespace HitFile

/-! ## Fields -/

theorem readNumber_append {width n : Nat} (h : n < Nat.pow 256 width) (rest : Bytes) :
    readNumber width (Bytes.ofNat width n ++ rest) = .ok (n, rest) := by
  rw [readNumber, Bytes.readNat_append, Nat.mod_eq_of_lt h]

theorem readText_append (text : String) (rest : Bytes) :
    readText text.toUTF8.toList.length (text.toUTF8.toList ++ rest) = .ok (text, rest) := by
  have hlength : ¬ (text.toUTF8.toList ++ rest).length < text.toUTF8.toList.length := by
    rw [List.length_append]
    omega
  rw [readText, if_neg hlength, List.take_left, List.drop_left, Bytes.fromUTF8?_toUTF8]

/-- The text has a length of 64 bits, like any text in memory. -/
def Fits (text : String) : Prop := text.utf8ByteSize < UInt64.size

theorem readTest_append {test : Option String} (h : ∀ name ∈ test, Fits name) (rest : Bytes) :
    readTest (testBytes test ++ rest) = .ok (test, rest) := by
  cases test with
  | none => rfl
  | some name =>
    have hlength : name.toUTF8.toList.length < Nat.pow 256 8 := by
      rw [Bytes.length_toUTF8]
      exact h name rfl
    have htag : readNumber 1 (testBytes (some name) ++ rest) =
        .ok (1, Bytes.ofNat 8 name.toUTF8.toList.length ++ (name.toUTF8.toList ++ rest)) := by
      rw [testBytes, List.cons_append, List.cons_append, List.append_assoc]
      exact readNumber_append (by decide : 1 < Nat.pow 256 1) _
    refine Result.bind_eq_ok.mpr ⟨_, htag, ?_⟩
    refine Result.bind_eq_ok.mpr ⟨_, readNumber_append hlength _, ?_⟩
    exact Result.bind_eq_ok.mpr ⟨_, readText_append name rest, rfl⟩

theorem readCounts_append (counts : List (HitId × UInt64)) (m : OrderedMap HitId UInt64)
    (rest : Bytes) :
    readCounts counts.length m (counts.flatMap countBytes ++ rest) =
      .ok (counts.foldl (fun m c => m.insert c.1 c.2) m) := by
  induction counts generalizing m with
  | nil => rfl
  | cons c more ih =>
    rw [List.flatMap_cons, countBytes, List.append_assoc, List.append_assoc]
    refine Result.bind_eq_ok.mpr ⟨_, readNumber_append c.1.toNat_lt _, ?_⟩
    refine Result.bind_eq_ok.mpr ⟨_, readNumber_append c.2.toNat_lt _, ?_⟩
    have hid : UInt32.ofNat c.1.toNat = c.1 := UInt32.ofNat_toNat
    have hcount : UInt64.ofNat c.2.toNat = c.2 := UInt64.ofNat_toNat
    dsimp only
    rw [hid, hcount, ih, List.foldl_cons]

/-! ## Files -/

/-- There are no more entries than ids. -/
theorem size_le (hits : Hits) : hits.size ≤ UInt32.size := by
  have hnodup : (hits.toList.map fun c => c.1.toNat).Nodup := by
    rw [List.Nodup, List.pairwise_map]
    exact (List.pairwise_map.mp hits.counts.nodup_keys).imp fun hne heq =>
      hne (UInt32.toNat_inj.mp heq)
  have hrange : ∀ n ∈ hits.toList.map fun c => c.1.toNat, n ∈ List.range UInt32.size := by
    intro n hn
    obtain ⟨c, -, rfl⟩ := List.mem_map.mp hn
    exact List.mem_range.mpr c.1.toNat_lt
  have hle := (hnodup.subperm hrange).length_le
  rwa [List.length_map, List.length_range] at hle

/-- A file of the current version is read back from its bytes, whatever follows them. -/
theorem ofBytes_toBytes {f : HitFile} (hversion : f.version = currentVersion)
    (htest : ∀ name ∈ f.test, Fits name) (rest : Bytes) :
    ofBytes (f.toBytes ++ rest) = .ok f := by
  have hsize : f.hits.size < Nat.pow 256 8 :=
    Nat.lt_of_le_of_lt (size_le f.hits) (by decide)
  rw [toBytes, List.append_assoc, List.append_assoc, List.append_assoc]
  refine Result.bind_eq_ok.mpr ⟨_, readNumber_append f.version.toNat_lt _, ?_⟩
  refine Result.bind_eq_ok.mpr ⟨_, readTest_append htest _, ?_⟩
  refine Result.bind_eq_ok.mpr ⟨_, readNumber_append hsize _, ?_⟩
  refine Result.bind_eq_ok.mpr ⟨_, readCounts_append f.hits.toList .empty rest, ?_⟩
  have hcounts : f.hits.toList.foldl (fun m c => m.insert c.1 c.2) OrderedMap.empty =
      f.hits.counts := f.hits.counts.foldl_insert_entries
  have hkept : UInt32.ofNat f.version.toNat = f.version := UInt32.ofNat_toNat
  dsimp only
  rw [hkept, if_pos hversion, hcounts]

end HitFile

end CilCoverage
