/-
  Files that occur several times, merged by path.

  Under each path are the statements of all files of that path
  (`find?_sequencesByPath`), so merging leaves every statement as often as it is
  there (`sourceFiles_perm`). A summary counts the same statements and branches;
  only a line of several files of one path is counted once (`ofFiles_condenses`).
  Put together: `sourceFiles_lossless`.
-/
import CilCoverage.Proofs.ByteOrder
import CilCoverage.Proofs.Distinct
import CilCoverage.Proofs.MapValidity
import CilCoverage.Proofs.Summary.Measure

namespace CilCoverage

/-! ## Files of a path -/

/-- The files of a path. -/
def filesOf (files : List SourceFile) (path : String) : List SourceFile :=
  files.filter fun f => decide (f.path = path)

/-- The statements of all files of a path. -/
def sequencesUnder (files : List SourceFile) (path : String) : List Sequence :=
  (filesOf files path).flatMap (·.sequences)

theorem filesOf_snoc_self (files : List SourceFile) (f : SourceFile) :
    filesOf (files ++ [f]) f.path = filesOf files f.path ++ [f] := by
  simp [filesOf]

theorem filesOf_snoc_ne {files : List SourceFile} {f : SourceFile} {path : String}
    (h : path ≠ f.path) : filesOf (files ++ [f]) path = filesOf files path := by
  simp [filesOf, h.symm]

/-- The statements by path. -/
def sequencesByPath (files : List SourceFile) : OrderedMap String (List Sequence) :=
  files.foldl (fun found f => found.upsert f.path fun before => before.getD [] ++ f.sequences)
    .empty

theorem sequencesByPath_snoc (files : List SourceFile) (f : SourceFile) :
    sequencesByPath (files ++ [f]) =
      (sequencesByPath files).upsert f.path fun before => before.getD [] ++ f.sequences := by
  rw [sequencesByPath, List.foldl_append]
  rfl

/-- Under a path that occurs are the statements of all its files. -/
theorem find?_sequencesByPath (files : List SourceFile) (path : String) :
    (sequencesByPath files).find? path =
      if path ∈ files.map (·.path) then some (sequencesUnder files path) else none := by
  induction files using List.reverseRecOn with
  | nil => rfl
  | append_singleton files f ih =>
    have hmem : path ∈ (files ++ [f]).map (·.path) ↔ path ∈ files.map (·.path) ∨ path = f.path := by
      rw [List.map_append, List.mem_append, List.map_singleton, List.mem_singleton]
    rw [sequencesByPath_snoc]
    simp only [hmem]
    by_cases hpath : path = f.path
    · subst hpath
      have hbefore : ((sequencesByPath files).find? f.path).getD [] =
          sequencesUnder files f.path := by
        rw [ih]
        split
        · rfl
        · next hnew =>
          -- a path that does not occur has no files
          have hnone : filesOf files f.path = [] := by
            rw [filesOf, List.filter_eq_nil_iff]
            intro g hg hsame
            exact hnew (List.mem_map.mpr ⟨g, hg, of_decide_eq_true hsame⟩)
          rw [sequencesUnder, hnone]
          rfl
      rw [OrderedMap.find?_upsert_self, hbefore, if_pos (.inr rfl), sequencesUnder, sequencesUnder,
        filesOf_snoc_self, List.flatMap_append, List.flatMap_singleton]
    · rw [OrderedMap.find?_upsert_ne _ _ hpath, ih, sequencesUnder, sequencesUnder,
        filesOf_snoc_ne hpath]
      simp only [or_iff_left hpath]

namespace CoverageMap

theorem sourceFiles_eq (m : CoverageMap) : m.sourceFiles =
    (sequencesByPath m.files).entries.map fun (path, sequences) => ⟨path, sequences⟩ := rfl

/-- The merged files are those of the paths that occur, each with all statements of its path. -/
theorem mem_sourceFiles {m : CoverageMap} {f : SourceFile} : f ∈ m.sourceFiles ↔
    f.path ∈ m.files.map (·.path) ∧ f.sequences = sequencesUnder m.files f.path := by
  have hentry : f ∈ m.sourceFiles ↔ (f.path, f.sequences) ∈ (sequencesByPath m.files).entries := by
    rw [sourceFiles_eq, List.mem_map]
    constructor
    · rintro ⟨e, he, rfl⟩
      exact he
    · intro he
      exact ⟨_, he, rfl⟩
  rw [hentry, OrderedMap.mem_entries_iff, find?_sequencesByPath]
  split
  · next hpath => rw [Option.some.injEq, and_iff_right hpath, eq_comm]
  · next hpath => simp [hpath]

theorem mem_paths_sourceFiles {m : CoverageMap} {path : String} :
    path ∈ m.sourceFiles.map (·.path) ↔ path ∈ m.files.map (·.path) := by
  constructor
  · intro h
    obtain ⟨f, hf, rfl⟩ := List.mem_map.mp h
    exact (mem_sourceFiles.mp hf).1
  · intro h
    exact List.mem_map.mpr ⟨⟨path, sequencesUnder m.files path⟩, mem_sourceFiles.mpr ⟨h, rfl⟩, rfl⟩

theorem paths_sourceFiles (m : CoverageMap) :
    m.sourceFiles.map (·.path) = (sequencesByPath m.files).keys := by
  rw [sourceFiles_eq, List.map_map]
  rfl

/-- The files of the merged paths are all files. -/
theorem filesOf_perm (m : CoverageMap) :
    (m.sourceFiles.flatMap fun f => filesOf m.files f.path).Perm m.files := by
  have hunique : ∀ (p q : String) (f : SourceFile), decide (f.path = p) = true →
      decide (f.path = q) = true → p = q := by
    intro p q f hp hq
    exact (of_decide_eq_true hp).symm.trans (of_decide_eq_true hq)
  have hgroups := flatMap_filter_perm (fun path (f : SourceFile) =>
    decide (f.path = path)) hunique (sequencesByPath m.files).nodup_keys m.files
  rw [← paths_sourceFiles] at hgroups
  have hall : m.files.filter (fun f =>
      (m.sourceFiles.map (·.path)).any fun path => decide (f.path = path)) = m.files := by
    rw [List.filter_eq_self]
    intro f hf
    rw [List.any_eq_true]
    exact ⟨f.path, mem_paths_sourceFiles.mpr (List.mem_map_of_mem hf), decide_eq_true rfl⟩
  rw [hall, List.flatMap_map] at hgroups
  exact hgroups

/-- Merging loses and doubles no statement. -/
theorem sourceFiles_perm (m : CoverageMap) :
    (m.sourceFiles.flatMap (·.sequences)).Perm m.sequences := by
  have hunder : m.sourceFiles.flatMap (·.sequences) =
      (m.sourceFiles.flatMap fun f => filesOf m.files f.path).flatMap (·.sequences) := by
    rw [List.flatMap_assoc]
    exact List.flatMap_congr fun f hf => (mem_sourceFiles.mp hf).2
  rw [hunder]
  exact m.filesOf_perm.flatMap_right _

end CoverageMap

/-! ## Counts -/

theorem countLines_append_le (ranges ranges' : List LineRange) :
    countLines (ranges ++ ranges') ≤ countLines ranges + countLines ranges' := by
  have hunion : linesIn (ranges ++ ranges') = linesIn ranges ∪ linesIn ranges' := by
    ext line
    simp only [mem_linesIn, Finset.mem_union, List.mem_append, or_and_right, exists_or]
  rw [countLines_eq, countLines_eq, countLines_eq, hunion]
  exact Finset.card_union_le _ _

namespace Tally

/-- The same statements and branches, and no more lines. -/
structure Condenses (t u : Tally) : Prop where
  statements : t.statements = u.statements
  branches : t.branches = u.branches
  totalLines : t.lines.total ≤ u.lines.total
  coveredLines : t.lines.covered ≤ u.lines.covered

theorem Condenses.refl (t : Tally) : t.Condenses t := ⟨rfl, rfl, Nat.le_refl _, Nat.le_refl _⟩

theorem Condenses.trans {t u v : Tally} (h : t.Condenses u) (h' : u.Condenses v) : t.Condenses v :=
  ⟨h.statements.trans h'.statements, h.branches.trans h'.branches,
    Nat.le_trans h.totalLines h'.totalLines, Nat.le_trans h.coveredLines h'.coveredLines⟩

theorem Condenses.add {t u t' u' : Tally} (h : t.Condenses u) (h' : t'.Condenses u') :
    (t.add t').Condenses (u.add u') :=
  ⟨congrArg₂ Count.add h.statements h'.statements, congrArg₂ Count.add h.branches h'.branches,
    Nat.add_le_add h.totalLines h'.totalLines, Nat.add_le_add h.coveredLines h'.coveredLines⟩

section Merging

variable (policy : HitPolicy) (hits : Hits)

/-- A file of the statements of two counts the lines that they share once. -/
theorem ofFile_append_condenses (path path' path'' : String) (xs ys : List Sequence) :
    (ofFile policy hits ⟨path, xs ++ ys⟩).Condenses
      ((ofFile policy hits ⟨path', xs⟩).add (ofFile policy hits ⟨path'', ys⟩)) := by
  constructor
  · simp [ofFile, add, Count.add]
  · simp [ofFile, add, Count.add]
  · simpa only [ofFile, add, Count.add, List.map_append] using countLines_append_le _ _
  · simpa only [ofFile, add, Count.add, List.filter_append, List.map_append] using
      countLines_append_le _ _

theorem ofFile_flatMap_condenses (path : String) (files : List SourceFile) :
    (ofFile policy hits ⟨path, files.flatMap (·.sequences)⟩).Condenses
      (ofFiles policy hits files) := by
  induction files with
  | nil =>
    have hnone : ofFile policy hits ⟨path, []⟩ = zero := by
      simp [ofFile, zero, countLines_eq, linesIn]
    rw [List.flatMap_nil, hnone]
    exact Condenses.refl zero
  | cons f files ih =>
    rw [List.flatMap_cons, ofFiles_cons]
    exact (ofFile_append_condenses policy hits path f.path path _ _).trans ((Condenses.refl _).add ih)

/-- One file for each group of files counts the same statements and branches, and no more lines. -/
theorem ofFiles_condenses {fs : List SourceFile} {group : SourceFile → List SourceFile}
    (h : ∀ f ∈ fs, f.sequences = (group f).flatMap (·.sequences)) :
    (ofFiles policy hits fs).Condenses (ofFiles policy hits (fs.flatMap group)) := by
  induction fs with
  | nil => exact Condenses.refl _
  | cons f fs ih =>
    obtain ⟨hf, hfs⟩ := List.forall_mem_cons.mp h
    have hfile : (ofFile policy hits f).Condenses (ofFiles policy hits (group f)) := by
      have hmerged := ofFile_flatMap_condenses policy hits f.path (group f)
      rwa [← hf] at hmerged
    rw [ofFiles_cons, List.flatMap_cons, ofFiles_append]
    exact hfile.add (ih hfs)

end Merging

end Tally

/-! ## Merged maps -/

namespace CoverageMap

theorem ofFiles_sourceFiles_condenses (m : CoverageMap) (policy : HitPolicy) (hits : Hits) :
    (Tally.ofFiles policy hits m.sourceFiles).Condenses (Tally.ofFiles policy hits m.files) := by
  have h := Tally.ofFiles_condenses policy hits fun f (hf : f ∈ m.sourceFiles) =>
    (mem_sourceFiles.mp hf).2
  rwa [Tally.ofFiles_perm m.filesOf_perm] at h

/-- Merging files by path loses and doubles nothing. The paths are those that occur, strictly
ascending by their bytes, and under each are the statements of all its files, in the order of the
assemblies and their files. So the ids of all points are there as often as before, and a summary
counts the same statements and branches, and at most as many lines. -/
theorem sourceFiles_lossless (m : CoverageMap) :
    ((m.sourceFiles.map (·.path)).Pairwise fun p q => p.toUTF8.toList < q.toUTF8.toList) ∧
      (∀ path, path ∈ m.sourceFiles.map (·.path) ↔
        ∃ a ∈ m.assemblies, ∃ f ∈ a.sourceFiles, f.path = path) ∧
      (∀ f ∈ m.sourceFiles, f.sequences =
        ((m.assemblies.flatMap (·.sourceFiles)).filter fun g => decide (g.path = f.path)).flatMap
          (·.sequences)) ∧
      (m.sourceFiles.flatMap fun f => f.sequences.flatMap (·.hitIds)).Perm m.hitIds ∧
      ∀ (threshold : Threshold) (policy : HitPolicy) (hits : Hits),
        let merged := (Summary.ofFiles threshold policy hits m.sourceFiles).tally
        let unmerged := (Summary.ofFiles threshold policy hits m.files).tally
        merged.statements = unmerged.statements ∧ merged.branches = unmerged.branches ∧
          merged.lines.total ≤ unmerged.lines.total ∧
          merged.lines.covered ≤ unmerged.lines.covered := by
  refine ⟨?_, fun path => ?_, fun f hf => (mem_sourceFiles.mp hf).2, ?_,
    fun threshold policy hits => ?_⟩
  · rw [paths_sourceFiles]
    exact (sequencesByPath m.files).keys_sorted.imp Text.toUTF8_lt_of_compare
  · rw [mem_paths_sourceFiles]
    simp only [files, List.mem_map, List.mem_flatMap]
    constructor
    · rintro ⟨f, ⟨a, ha, hf⟩, hpath⟩
      exact ⟨a, ha, f, hf, hpath⟩
    · rintro ⟨a, ha, f, hf, hpath⟩
      exact ⟨f, ⟨a, ha, hf⟩, hpath⟩
  · rw [hitIds_eq, ← List.flatMap_assoc]
    exact m.sourceFiles_perm.flatMap_right _
  · obtain ⟨hstatements, hbranches, htotal, hcovered⟩ :=
      m.ofFiles_sourceFiles_condenses policy hits
    exact ⟨hstatements, hbranches, htotal, hcovered⟩

/-- A path that is in two assemblies, and twice in one of them. -/
def sharing : CoverageMap where
  sourceRoot := none
  hitsDir := "hits"
  assemblies :=
    [⟨"A", "00", [⟨"shared.cs", [Summary.spanning 1 1 1 []]⟩]⟩,
      ⟨"B", "11", [⟨"shared.cs", [Summary.spanning 3 2 2 []]⟩, ⟨"b.cs", [Summary.spanning 2 5 5 []]⟩,
        ⟨"shared.cs", [Summary.spanning 4 1 2 []]⟩]⟩]

example : (sharing.sourceFiles.map fun f => (f.path, f.sequences.map (·.hitId))) =
    [("b.cs", [2]), ("shared.cs", [1, 3, 4])] := by
  decide +kernel

end CoverageMap

end CilCoverage
