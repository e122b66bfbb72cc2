/-
  What a hits directory holds.

  The directory is read as the sum of its hit files: the regular files whose
  name has the extension of hit files and whose bytes are those of a hit file.
  Neither the order of the files nor the way they are merged plays a part, nor
  do their names or whatever else is in the directory (`read_sums`).
-/
import CilCoverage.HitsStore
import CilCoverage.Proofs.Hits.Sums
import Mathlib.Data.List.Perm.Basic
import Mathlib.Data.List.Nodup

namespace CilCoverage

/-! ## The files in a folder -/

namespace FileSystem

/-- The contents of the file at a place. -/
def fileAt? (fs : FileSystem) (place : Place) : Option Bytes :=
  match fs.entryAt? place with
  | some (.file data) => some data
  | _ => none

theorem fileAt?_eq_some_iff {fs : FileSystem} {place : Place} {data : Bytes} :
    fs.fileAt? place = some data ↔ fs.entryAt? place = some (.file data) := by
  unfold fileAt?
  split
  · next h => rw [h, Option.some.injEq, Option.some.injEq, FileEntry.file.injEq]
  · next h => exact ⟨nofun, fun hfile => absurd hfile (h data)⟩

/-- What `filesIn` makes of an entry, for the folder it looks into. -/
def listed? (folder : Place) : Place × FileEntry → Option (String × Bytes)
  | (place, .file data) =>
    match folder.isPrefixOf? place with
    | some [name] => some (name, data)
    | _ => none
  | _ => none

theorem listed?_eq_some_iff {folder : Place} {e : Place × FileEntry} {name : String}
    {data : Bytes} : listed? folder e = some (name, data) ↔ e = (folder ++ [name], .file data) := by
  obtain ⟨place, entry⟩ := e
  cases entry with
  | folder => simp [listed?]
  | file stored =>
    have hprefix : folder.isPrefixOf? place = some [name] ↔ place = folder ++ [name] := by
      rw [List.isPrefixOf?_eq_some_iff_append_eq, eq_comm]
    rw [Prod.mk.injEq, ← hprefix]
    unfold listed?
    dsimp only
    split
    · next heq => simp [heq]
    · next hne =>
      refine ⟨nofun, fun h => absurd h.1 ?_⟩
      exact hne name

theorem filesIn_eq {fs : FileSystem} {path : String} {folder : Place}
    (hplace : fs.place? path = some folder) (hfolder : fs.isFolder folder = true) :
    fs.filesIn path = fs.entries.entries.filterMap (listed? folder) := by
  rw [filesIn, hplace, Option.filter_some, if_pos hfolder]
  rfl

theorem mem_filesIn_iff {fs : FileSystem} {path name : String} {data : Bytes} :
    (name, data) ∈ fs.filesIn path ↔ ∃ folder, fs.place? path = some folder ∧
      fs.isFolder folder = true ∧ fs.fileAt? (folder ++ [name]) = some data := by
  cases hplace : (fs.place? path).filter fs.isFolder with
  | none =>
    rw [filesIn, hplace]
    refine ⟨nofun, fun ⟨folder, h, hfolder, _⟩ => ?_⟩
    rw [h, Option.filter_some, if_pos hfolder] at hplace
    cases hplace
  | some folder =>
    obtain ⟨hplace, hfolder⟩ := Option.filter_eq_some_iff.mp hplace
    have hentry : ∀ p : Place, p ≠ [] → fs.entryAt? p = fs.entries.find? p := by
      intro p hp
      cases p with
      | nil => exact absurd rfl hp
      | cons a p => rfl
    have hmem : (name, data) ∈ fs.filesIn path ↔ fs.fileAt? (folder ++ [name]) = some data := by
      rw [filesIn_eq hplace hfolder, List.mem_filterMap, fileAt?_eq_some_iff,
        hentry _ (by simp), ← OrderedMap.mem_entries_iff]
      refine ⟨fun ⟨e, he, hlisted⟩ => ?_, fun h => ⟨_, h, listed?_eq_some_iff.mpr rfl⟩⟩
      exact listed?_eq_some_iff.mp hlisted ▸ he
    rw [hmem]
    refine ⟨fun h => ⟨folder, hplace, hfolder, h⟩, fun ⟨other, hother, _, h⟩ => ?_⟩
    rw [hplace] at hother
    cases hother
    exact h

theorem nodup_filesIn (fs : FileSystem) (path : String) : ((fs.filesIn path).map (·.1)).Nodup := by
  cases hplace : (fs.place? path).filter fs.isFolder with
  | none =>
    rw [filesIn, hplace]
    exact List.nodup_nil
  | some folder =>
    obtain ⟨hplace, hfolder⟩ := Option.filter_eq_some_iff.mp hplace
    rw [filesIn_eq hplace hfolder, List.Nodup, List.pairwise_map, List.pairwise_filterMap]
    refine fs.entries.sorted.imp fun {a b} hlt x hx y hy hname => ?_
    -- files of one name are at one place, and no place has two entries
    obtain ⟨name, data⟩ := x
    obtain ⟨name', data'⟩ := y
    obtain rfl : name = name' := hname
    rw [listed?_eq_some_iff.mp hx, listed?_eq_some_iff.mp hy,
      show compare (folder ++ [name]) (folder ++ [name]) = .eq from Std.ReflCmp.compare_self] at hlt
    cases hlt

end FileSystem

/-! ## Merging -/

/-- A way to merge hit counts: into new counts, or into those of a file. -/
inductive Merging where
  | new
  | file (hits : Hits)
  | merge (target source : Merging)

namespace Merging

/-- What is merged. -/
def leaves : Merging → List Hits
  | new => []
  | file hits => [hits]
  | merge target source => target.leaves ++ source.leaves

/-- What the counts are in the end. -/
def total : Merging → Hits
  | new => .empty
  | file hits => hits
  | merge target source => target.total.merge source.total

/-- The counts that all others are merged into are new. -/
def StartsNew : Merging → Prop
  | new => True
  | file _ => False
  | merge target _ => target.StartsNew

theorem toNat_count_total (m : Merging) (id : HitId) :
    (m.total.count id).toNat =
      Hits.saturate (m.leaves.map fun h => (h.count id).toNat).sum := by
  induction m with
  | new => rfl
  | file hits =>
    rw [leaves, List.map_singleton, List.sum_singleton, Hits.saturate_toNat]
    rfl
  | merge target source iht ihs =>
    rw [total, Hits.toNat_count_merge, iht, ihs, Hits.saturate_add_left, Hits.saturate_add_right,
      leaves, List.map_append, List.sum_append]

theorem positive_total {m : Merging} (h : m.StartsNew) : m.total.Positive := by
  induction m with
  | new => exact Hits.positive_empty
  | file => exact h.elim
  | merge target source iht _ => exact Hits.positive_merge (iht h) source.total

end Merging

/-! ## The directory -/

namespace HitsDir

/-- There is a file of the name in the directory, and these are its bytes. -/
def Holds (d : HitsDir) (name : String) (data : Bytes) : Prop :=
  ∃ folder, d.files.place? d.path = some folder ∧ d.files.isFolder folder = true ∧
    d.files.fileAt? (folder ++ [name]) = some data

/-- There is a hit file of the name in the directory, and these are its hits. -/
def HoldsHits (d : HitsDir) (name : String) (hits : Hits) : Prop :=
  Path.extension? name = some hitExtension ∧
    ∃ data file, d.Holds name data ∧ HitFile.ofBytes data = .ok file ∧ file.hits = hits

/-- The list has every hit file of the directory once, with its hits. -/
structure Lists (d : HitsDir) (files : List (String × Hits)) : Prop where
  nodup : (files.map (·.1)).Nodup
  mem_iff : ∀ name hits, (name, hits) ∈ files ↔ d.HoldsHits name hits

/-- The directory `other` holds the files of `d`, each under a name of its own with the extension
that it had. -/
structure RenamesTo (d other : HitsDir) (rename : String → String) : Prop where
  holds_iff : ∀ name data, other.Holds name data ↔ ∃ old, rename old = name ∧ d.Holds old data
  extension : ∀ name data, d.Holds name data →
    Path.extension? (rename name) = Path.extension? name
  injective : ∀ a b dataA dataB, d.Holds a dataA → d.Holds b dataB → rename a = rename b → a = b

/-- The hit files in the order in which they are read. -/
def hitFiles (d : HitsDir) : List (String × Hits) := d.contexts.map fun c => (c.fileName, c.hits)

variable {d other : HitsDir}

theorem holds_iff {name : String} {data : Bytes} :
    d.Holds name data ↔ (name, data) ∈ d.files.filesIn d.path :=
  FileSystem.mem_filesIn_iff.symm

theorem mem_candidates_iff {name : String} {data : Bytes} :
    (name, data) ∈ d.candidates ↔
      Path.extension? name = some hitExtension ∧ d.Holds name data := by
  rw [candidates, List.mem_filter, ← holds_iff, beq_iff_eq, and_comm]

/-- The hits of a candidate, if it can be read. -/
def readHits? (e : String × Bytes) : Option (String × Hits) :=
  match HitFile.ofBytes e.2 with
  | .ok file => some (e.1, file.hits)
  | .error _ => none

theorem readHits?_eq_some_iff {e : String × Bytes} {name : String} {hits : Hits} :
    readHits? e = some (name, hits) ↔
      e.1 = name ∧ ∃ file, HitFile.ofBytes e.2 = .ok file ∧ file.hits = hits := by
  unfold readHits?
  cases HitFile.ofBytes e.2 with
  | error => simp
  | ok file => simp

theorem hitFiles_eq (d : HitsDir) : d.hitFiles = d.candidates.filterMap readHits? := by
  rw [hitFiles, contexts, List.map_filterMap]
  refine List.filterMap_congr fun e _ => ?_
  obtain ⟨name, data⟩ := e
  unfold readHits?
  dsimp only
  cases HitFile.ofBytes data with
  | error => rfl
  | ok file => rfl

theorem lists_hitFiles (d : HitsDir) : d.Lists d.hitFiles where
  nodup := by
    have hnames : (d.candidates.map (·.1)).Nodup :=
      (d.files.nodup_filesIn d.path).sublist (List.filter_sublist.map _)
    rw [List.Nodup, List.pairwise_map] at hnames
    rw [hitFiles_eq, List.Nodup, List.pairwise_map, List.pairwise_filterMap]
    refine hnames.imp fun {a b} hne x hx y hy hname => hne ?_
    rw [(readHits?_eq_some_iff.mp hx).1, (readHits?_eq_some_iff.mp hy).1, hname]
  mem_iff := fun name hits => by
    rw [hitFiles_eq, List.mem_filterMap]
    constructor
    · rintro ⟨⟨old, data⟩, hmem, hread⟩
      obtain ⟨rfl, file, hfile, hhits⟩ := readHits?_eq_some_iff.mp hread
      obtain ⟨hext, hholds⟩ := mem_candidates_iff.mp hmem
      exact ⟨hext, data, file, hholds, hfile, hhits⟩
    · rintro ⟨hext, data, file, hholds, hfile, hhits⟩
      exact ⟨(name, data), mem_candidates_iff.mpr ⟨hext, hholds⟩,
        readHits?_eq_some_iff.mpr ⟨rfl, file, hfile, hhits⟩⟩

theorem Lists.perm {files files' : List (String × Hits)} (h : d.Lists files)
    (h' : d.Lists files') : files.Perm files' := by
  refine (List.perm_ext_iff_of_nodup h.nodup.of_map h'.nodup.of_map).mpr fun e => ?_
  rw [h.mem_iff, h'.mem_iff]

theorem read_eq (d : HitsDir) : d.read = Hits.mergeAll (d.hitFiles.map (·.2)) := by
  rw [read, hitFiles, List.map_map]
  rfl

theorem positive_read (d : HitsDir) : d.read.Positive := by
  rw [read_eq]
  exact Hits.positive_mergeAll _

theorem Lists.toNat_count_read {files : List (String × Hits)} (h : d.Lists files) (id : HitId) :
    (d.read.count id).toNat =
      Hits.saturate (files.map fun f => (f.2.count id).toNat).sum := by
  rw [read_eq, Hits.toNat_count_mergeAll, List.map_map]
  exact congrArg Hits.saturate (((lists_hitFiles d).perm h).map _).sum_eq

/-- Directories whose hit files have the same hits, in any order, are read alike. -/
theorem read_eq_of_perm {files files' : List (String × Hits)} (h : d.Lists files)
    (h' : other.Lists files') (hperm : (files.map (·.2)).Perm (files'.map (·.2))) :
    other.read = d.read := by
  refine Hits.ext_count (positive_read other) (positive_read d) fun id => UInt64.toNat_inj.mp ?_
  rw [h.toNat_count_read, h'.toNat_count_read]
  have hcounts := (hperm.map fun h : Hits => (h.count id).toNat).sum_eq
  rw [List.map_map, List.map_map] at hcounts
  exact congrArg Hits.saturate hcounts.symm

theorem Lists.total_eq_read {files : List (String × Hits)} (h : d.Lists files) {m : Merging}
    (hleaves : m.leaves.Perm (files.map (·.2))) (id : HitId) :
    m.total.count id = d.read.count id := by
  refine UInt64.toNat_inj.mp ?_
  have hcounts := (hleaves.map fun h : Hits => (h.count id).toNat).sum_eq
  rw [List.map_map] at hcounts
  rw [m.toNat_count_total, h.toNat_count_read, hcounts]
  rfl

theorem RenamesTo.holdsHits_iff {rename : String → String} (h : d.RenamesTo other rename)
    {name : String} {hits : Hits} :
    other.HoldsHits name hits ↔ ∃ old, rename old = name ∧ d.HoldsHits old hits := by
  constructor
  · rintro ⟨hext, data, file, hholds, hfile, hhits⟩
    obtain ⟨old, rfl, hold⟩ := (h.holds_iff name data).mp hholds
    exact ⟨old, rfl, (h.extension old data hold) ▸ hext, data, file, hold, hfile, hhits⟩
  · rintro ⟨old, rfl, hext, data, file, hold, hfile, hhits⟩
    exact ⟨(h.extension old data hold).trans hext, data, file,
      (h.holds_iff _ data).mpr ⟨old, rfl, hold⟩, hfile, hhits⟩

/-- Renaming, said of the lists of files. -/
theorem renamesTo_of_perm {rename : String → String}
    (hperm : (other.files.filesIn other.path).Perm
      ((d.files.filesIn d.path).map fun e => (rename e.1, e.2)))
    (hext : ∀ e ∈ d.files.filesIn d.path, Path.extension? (rename e.1) = Path.extension? e.1)
    (hnodup : ((d.files.filesIn d.path).map fun e => rename e.1).Nodup) :
    d.RenamesTo other rename where
  holds_iff := fun name data => by
    rw [holds_iff, hperm.mem_iff, List.mem_map]
    constructor
    · rintro ⟨e, he, heq⟩
      cases heq
      exact ⟨e.1, rfl, holds_iff.mpr he⟩
    · rintro ⟨old, rfl, hold⟩
      exact ⟨(old, data), holds_iff.mp hold, rfl⟩
  extension := fun name data h => hext (name, data) (holds_iff.mp h)
  injective := fun a b dataA dataB ha hb heq => by
    have hpair : (a, dataA) = (b, dataB) :=
      List.inj_on_of_nodup_map hnodup (holds_iff.mp ha) (holds_iff.mp hb) heq
    exact (Prod.mk.inj hpair).1

theorem RenamesTo.lists {rename : String → String} (h : d.RenamesTo other rename) :
    other.Lists (d.hitFiles.map fun f => (rename f.1, f.2)) where
  nodup := by
    have hlists := lists_hitFiles d
    rw [List.map_map, List.Nodup, List.pairwise_map]
    refine List.Pairwise.imp_of_mem ?_ (List.pairwise_map.mp hlists.nodup)
    intro a b ha hb hne hname
    obtain ⟨_, dataA, _, hA, _⟩ := (hlists.mem_iff a.1 a.2).mp ha
    obtain ⟨_, dataB, _, hB, _⟩ := (hlists.mem_iff b.1 b.2).mp hb
    exact hne (h.injective a.1 b.1 dataA dataB hA hB hname)
  mem_iff := fun name hits => by
    rw [h.holdsHits_iff, List.mem_map]
    constructor
    · rintro ⟨⟨old, hits⟩, hmem, hpair⟩
      cases hpair
      exact ⟨old, rfl, ((lists_hitFiles d).mem_iff old hits).mp hmem⟩
    · rintro ⟨old, rfl, hold⟩
      exact ⟨(old, hits), ((lists_hitFiles d).mem_iff old hits).mpr hold, rfl⟩

/-- Reading a directory gives every id the sum of its counts over the hit files, with entries for
ids that were hit only. Merging the hits of those files in any order and any groups gives the same
counts, and the same entries if they are merged into new counts. The names of the files make no
difference as long as they keep their extension, and neither does anything but the hit files. -/
theorem read_sums (d : HitsDir) :
    d.Lists d.hitFiles ∧ d.read.Positive ∧
    (∀ files, d.Lists files →
      (∀ id, (d.read.count id).toNat =
        Hits.saturate (files.map fun f => (f.2.count id).toNat).sum) ∧
      ∀ m : Merging, m.leaves.Perm (files.map (·.2)) →
        (∀ id, m.total.count id = d.read.count id) ∧ (m.StartsNew → m.total = d.read)) ∧
    (∀ other rename, d.RenamesTo other rename → other.read = d.read) ∧
    ∀ other : HitsDir, (∀ name hits, other.HoldsHits name hits ↔ d.HoldsHits name hits) →
      other.read = d.read := by
  refine ⟨lists_hitFiles d, positive_read d, fun files hfiles => ⟨?_, fun m hm => ?_⟩, ?_, ?_⟩
  · exact hfiles.toNat_count_read
  · have hcount := hfiles.total_eq_read hm
    exact ⟨hcount, fun hnew =>
      Hits.ext_count (Merging.positive_total hnew) (positive_read d) hcount⟩
  · intro other rename h
    refine read_eq_of_perm (lists_hitFiles d) h.lists ?_
    rw [List.map_map]
    exact .refl _
  · intro other h
    have hlists : other.Lists d.hitFiles :=
      ⟨(lists_hitFiles d).nodup, fun name hits => by
        rw [h, (lists_hitFiles d).mem_iff]⟩
    exact read_eq_of_perm (lists_hitFiles d) hlists (.refl _)

/-- As many hits as can be counted, and an entry without any. -/
def fullHits : Hits :=
  ⟨(OrderedMap.empty.insert 1 (UInt64.ofNat (UInt64.size - 1))).insert 2 0⟩

def fewHits : Hits := ⟨(OrderedMap.empty.insert 1 5).insert 3 7⟩

/-- A directory with two hit files, one of which has the given name, a file with other bytes, one
with another extension, and a folder. -/
def mixedDir (name : String) : HitsDir where
  path := "h"
  files :=
    let put := fun (entries : OrderedMap Place FileEntry) name hits =>
      entries.insert ["h", name] (.file (HitFile.new none hits).toBytes)
    let hitFiles := put (put (OrderedMap.empty.insert ["h"] .folder) name fullHits) "b.hits" fewHits
    ⟨((put hitFiles "d.txt" fewHits).insert ["h", "c.hits"] (.file [1, 2])).insert
      ["h", "e.hits"] .folder⟩

/-- Merges the few hits into new counts, and then what the many hits were merged into. -/
def mixedMerging : Merging := .merge (.merge .new (.file fewHits)) (.merge .new (.file fullHits))

/-- Gives another name to the first file. -/
def renameFirst (name : String) : String := if name = "a.hits" then "z.hits" else name

theorem hitFiles_mixedDir :
    (mixedDir "a.hits").hitFiles = [("a.hits", fullHits), ("b.hits", fewHits)] := by
  decide +kernel

theorem renamesTo_mixedDir : (mixedDir "a.hits").RenamesTo (mixedDir "z.hits") renameFirst :=
  renamesTo_of_perm (List.isPerm_iff.mp (by decide +kernel)) (by decide +kernel)
    (by decide +kernel)

theorem read_sums_mixedDir :
    ((mixedDir "a.hits").read.count 1).toNat = Hits.saturate (UInt64.size - 1 + 5) ∧
    (mixedMerging.leaves.Perm [fullHits, fewHits] ∧ mixedMerging.StartsNew ∧
      mixedMerging.total = (mixedDir "a.hits").read) ∧
    (mixedDir "a.hits").RenamesTo (mixedDir "z.hits") renameFirst ∧
    (mixedDir "z.hits").read = (mixedDir "a.hits").read := by
  have hlists := lists_hitFiles (mixedDir "a.hits")
  rw [hitFiles_mixedDir] at hlists
  have hleaves : mixedMerging.leaves.Perm [fullHits, fewHits] := .swap ..
  obtain ⟨-, -, hsum, hrenamed, -⟩ := read_sums (mixedDir "a.hits")
  obtain ⟨hcount, hmerged⟩ := hsum _ hlists
  refine ⟨?_, ⟨hleaves, trivial, (hmerged mixedMerging hleaves).2 trivial⟩, renamesTo_mixedDir,
    hrenamed _ _ renamesTo_mixedDir⟩
  have hfull : (fullHits.count 1).toNat = UInt64.size - 1 := by decide +kernel
  have hfew : (fewHits.count 1).toNat = 5 := by decide +kernel
  rw [hcount, List.map_cons, List.map_singleton, List.sum_cons, List.sum_singleton, hfull, hfew]

end HitsDir

end CilCoverage
