/-
  Texts and the order of their bytes.

  Of two characters the greater one has the greater bytes, whatever follows
  (`encode_lt`), so texts are ordered like their bytes in UTF-8 (`toUTF8_lt`).
-/
import CilCoverage.Proofs.Hits.Files

namespace CilCoverage.Text

/-- The bytes of a greater character are greater, and neither begins with the other's. -/
theorem encode_lt {c d : Char} (h : c < d) (after after' : Bytes) :
    String.utf8EncodeChar c ++ after < String.utf8EncodeChar d ++ after' := by
  have hlt : c.val.toNat < d.val.toNat := h
  have hlast : d.val.toNat < 0x110000 := by
    rcases d.valid with hd | ⟨-, hd⟩
    · exact Nat.lt_trans hd (by decide)
    · exact hd
  have hbyte (k : Nat) (h : k < 256) : (UInt8.ofNat k).toNat = k := UInt8.toNat_ofNat_of_lt' h
  -- each byte after the first holds the next six bits
  have htwo (k : Nat) : k / 4096 = k / 64 / 64 := (Nat.div_div_eq_div_mul k 64 64).symm
  have hthree (k : Nat) : k / 262144 = k / 64 / 64 / 64 := by
    rw [Nat.div_div_eq_div_mul, Nat.div_div_eq_div_mul]
  simp only [String.utf8EncodeChar]
  generalize c.val.toNat = m at *
  generalize d.val.toNat = n at *
  -- by the number of bytes of either character
  repeat' split
  all_goals
    simp (disch := omega) only [List.cons_append, List.nil_append, List.cons_lt_cons_iff,
      UInt8.lt_iff_toNat_lt, ← UInt8.toNat_inj, hbyte, htwo, hthree]
    omega

theorem encode_ne_nil (c : Char) : String.utf8EncodeChar c ≠ [] := by
  rw [← List.length_pos_iff, String.length_utf8EncodeChar]
  exact c.utf8Size_pos

theorem flatMap_encode_lt {l m : List Char} (h : l < m) :
    l.flatMap String.utf8EncodeChar < m.flatMap String.utf8EncodeChar := by
  induction h with
  | @nil c rest =>
    rw [List.flatMap_nil, List.flatMap_cons]
    obtain ⟨b, more, hb⟩ := List.exists_cons_of_ne_nil (encode_ne_nil c)
    rw [hb, List.cons_append]
    exact List.nil_lt_cons _ _
  | rel hcd => exact encode_lt hcd _ _
  | cons _ ih =>
    rw [List.flatMap_cons, List.flatMap_cons]
    exact List.append_left_lt ih

theorem toList_toUTF8 (s : String) : s.toUTF8.toList = s.toList.flatMap String.utf8EncodeChar := by
  rw [String.toUTF8_eq_toByteArray, ← String.utf8Encode_toList, ByteArray.toList,
    Bytes.toListLoop_eq, List.utf8Encode, List.toList_data_toByteArray]
  rfl

/-- Of two texts the greater one has the greater bytes. -/
theorem toUTF8_lt {s t : String} (h : s < t) : s.toUTF8.toList < t.toUTF8.toList := by
  rw [toList_toUTF8, toList_toUTF8]
  exact flatMap_encode_lt h

theorem toUTF8_lt_of_compare {s t : String} (h : compare s t = .lt) :
    s.toUTF8.toList < t.toUTF8.toList :=
  toUTF8_lt (compareOfLessAndEq_eq_lt.mp h)

end CilCoverage.Text
