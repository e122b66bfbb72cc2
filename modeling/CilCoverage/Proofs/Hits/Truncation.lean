/-
  Hit files that are cut short.

  Where the bytes of a field end early, its reader fails (`readTest_cut`,
  `readCounts_cut`), and a file that ends within a field fails there
  (`bind_cut`). So no part of a file is taken for a smaller one
  (`ofBytes_cut`): a file is read whole or not at all (`ofBytes_whole`).
-/
import CilCoverage.Proofs.Hits.Files

namespace CilCoverage.HitFile

/-! ## Fields -/

/-- Fields in sequence are cut within the first one, or behind it. -/
theorem bind_cut {α β : Type} {read : Bytes → Except HitFileError (α × Bytes)}
    {next : α × Bytes → Except HitFileError β} {field more : Bytes} {x : α}
    (hwhole : ∀ rest, read (field ++ rest) = .ok (x, rest))
    (hcut : ∀ n < field.length, read (field.take n) = .error .truncated)
    (hnext : ∀ n < more.length, next (x, more.take n) = .error .truncated) :
    ∀ n < (field ++ more).length, read ((field ++ more).take n) >>= next = .error .truncated := by
  intro n hn
  rw [List.length_append] at hn
  rw [List.take_append]
  rcases Nat.lt_or_ge n field.length with hfirst | hbehind
  · have hnone : n - field.length = 0 := by omega
    rw [hnone, List.take_zero, List.append_nil, hcut n hfirst]
    rfl
  · rw [List.take_of_length_le hbehind, hwhole]
    exact hnext _ (by omega)

theorem readNumber_of_short {width : Nat} {data : Bytes} (h : data.length < width) :
    readNumber width data = .error .truncated := by
  rw [readNumber, Bytes.readNat, if_neg (Nat.not_le_of_lt h)]

theorem readNumber_cut (width value : Nat) :
    ∀ n < (Bytes.ofNat width value).length,
      readNumber width ((Bytes.ofNat width value).take n) = .error .truncated := by
  intro n hn
  rw [Bytes.length_ofNat] at hn
  exact readNumber_of_short (Nat.lt_of_le_of_lt (List.length_take_le _ _) hn)

theorem readText_of_short {length : Nat} {data : Bytes} (h : data.length < length) :
    readText length data = .error .truncated := by
  rw [readText, if_pos h]

theorem readTest_cut {test : Option String} (h : ∀ name ∈ test, Fits name) :
    ∀ n < (testBytes test).length, readTest ((testBytes test).take n) = .error .truncated := by
  cases test with
  | none =>
    intro n hn
    obtain rfl : n = 0 := Nat.lt_one_iff.mp hn
    rfl
  | some name =>
    have hlength : name.toUTF8.toList.length < Nat.pow 256 8 := by
      rw [Bytes.length_toUTF8]
      exact h name rfl
    have hbytes : testBytes (some name) = Bytes.ofNat 1 1 ++
        (Bytes.ofNat 8 name.toUTF8.toList.length ++ name.toUTF8.toList) := rfl
    rw [hbytes]
    -- the tag, then the length, then the text
    refine bind_cut (readNumber_append (by decide)) (readNumber_cut 1 1) ?_
    refine bind_cut (readNumber_append hlength) (readNumber_cut 8 _) fun n hn => ?_
    have hshort : (name.toUTF8.toList.take n).length < name.toUTF8.toList.length :=
      Nat.lt_of_le_of_lt (List.length_take_le _ _) hn
    dsimp only
    rw [readText_of_short hshort]
    rfl

theorem readCounts_cut (counts : List (HitId × UInt64)) (m : OrderedMap HitId UInt64) :
    ∀ n < (counts.flatMap countBytes).length,
      readCounts counts.length m ((counts.flatMap countBytes).take n) = .error .truncated := by
  induction counts generalizing m with
  | nil =>
    intro n hn
    exact absurd hn (Nat.not_lt_zero n)
  | cons c more ih =>
    rw [List.flatMap_cons, countBytes, List.append_assoc]
    refine bind_cut (readNumber_append c.1.toNat_lt) (readNumber_cut 4 _) ?_
    exact bind_cut (readNumber_append c.2.toNat_lt) (readNumber_cut 8 _) (ih _)

/-! ## Files -/

/-- A file that is cut anywhere is refused since it ends too early. -/
theorem ofBytes_cut {f : HitFile} (htest : ∀ name ∈ f.test, Fits name) :
    ∀ n < f.toBytes.length, ofBytes (f.toBytes.take n) = .error .truncated := by
  have hsize : f.hits.size < Nat.pow 256 8 :=
    Nat.lt_of_le_of_lt (size_le f.hits) (by decide)
  rw [toBytes, List.append_assoc, List.append_assoc]
  refine bind_cut (readNumber_append f.version.toNat_lt) (readNumber_cut 4 _) ?_
  refine bind_cut (readTest_append htest) (readTest_cut htest) ?_
  refine bind_cut (readNumber_append hsize) (readNumber_cut 8 _) fun n hn => ?_
  have hcounts : readCounts f.hits.size .empty ((f.hits.toList.flatMap countBytes).take n) =
      .error .truncated := readCounts_cut f.hits.toList .empty n hn
  dsimp only
  rw [hcounts]
  rfl

theorem version_of_ofBytes {data : Bytes} {f : HitFile} (h : ofBytes data = .ok f) :
    f.version = currentVersion := by
  obtain ⟨⟨version, rest⟩, -, h⟩ := Result.bind_eq_ok.mp h
  obtain ⟨⟨test, rest'⟩, -, h⟩ := Result.bind_eq_ok.mp h
  obtain ⟨⟨number, rest''⟩, -, h⟩ := Result.bind_eq_ok.mp h
  obtain ⟨counts, -, h⟩ := Result.bind_eq_ok.mp h
  dsimp only at h
  split at h
  · next hversion =>
    cases h
    exact hversion
  · cases h

/-- A file is read whole or not at all. A file of the current version is read back from its bytes,
whatever follows them, and any part of its bytes ends too early; no file of another version is
read. -/
theorem ofBytes_whole (f : HitFile) (hversion : f.version = 1)
    (htest : ∀ name ∈ f.test, Fits name) :
    (∀ trailing, ofBytes (f.toBytes ++ trailing) = .ok f) ∧
      (∀ part, part <+: f.toBytes → part ≠ f.toBytes → ofBytes part = .error .truncated) ∧
      ∀ data g, ofBytes data = .ok g → g.version = 1 := by
  refine ⟨ofBytes_toBytes hversion htest, fun part hpart hne => ?_,
    fun data g h => version_of_ofBytes h⟩
  have hlength : part.length < f.toBytes.length :=
    Nat.lt_of_le_of_ne hpart.length_le fun heq => hne (hpart.eq_of_length heq)
  rw [List.prefix_iff_eq_take.mp hpart]
  exact ofBytes_cut htest _ hlength

/-- A file with the least and the greatest count; the first one ends behind 41 bytes. -/
def extremes : HitFile :=
  .new (some "Prüfung") ⟨(OrderedMap.empty.insert 3 0).insert 7 0xffffffffffffffff⟩

theorem ofBytes_whole_extremes :
    extremes.version = 1 ∧ Fits "Prüfung" ∧ extremes.toBytes.length = 53 ∧
      ofBytes (extremes.toBytes ++ [0, 1, 2]) = .ok extremes ∧
      ofBytes (extremes.toBytes.take 41) = .error .truncated := by
  have hfits : Fits "Prüfung" := by
    unfold Fits
    decide +kernel
  have hlength : extremes.toBytes.length = 53 := by decide +kernel
  obtain ⟨hwhole, hcut, -⟩ := ofBytes_whole extremes rfl fun name hname => by
    obtain rfl : "Prüfung" = name := Option.some.inj hname
    exact hfits
  refine ⟨rfl, hfits, hlength, hwhole _, hcut _ (List.take_prefix 41 _) fun heq => ?_⟩
  have hshort := congrArg List.length heq
  rw [List.length_take, hlength] at hshort
  exact absurd hshort (by decide)

end CilCoverage.HitFile
