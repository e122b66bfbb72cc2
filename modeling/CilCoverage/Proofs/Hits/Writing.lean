/-
  Writing hit files, and where they are found.

  A file is written under its scratch name, whole or in parts, and then moved.
  At every moment it is known what the scratch file holds (`Remaining`), so the
  move puts the whole file in its place. Where the files with the extension of
  hit files are those that were written (`Stores`), reading the directory gives
  the sum of their hits.
-/
import CilCoverage.Proofs.Hits.Changes
import CilCoverage.Proofs.Hits.Files

namespace CilCoverage

open FileSystem

namespace FileSystem

variable {fs between more : FileSystem}

theorem ChangesAt.trans {places : List Place} (h : fs.ChangesAt between places)
    (hmore : between.ChangesAt more places) : fs.ChangesAt more places where
  fileAt?_eq := fun p hp => (hmore.fileAt?_eq p hp).trans (h.fileAt?_eq p hp)
  isFolder := fun p hp => hmore.isFolder p (h.isFolder p hp)

theorem ChangesAt.mono {places others : List Place} (h : fs.ChangesAt more places)
    (hsub : places ⊆ others) : fs.ChangesAt more others where
  fileAt?_eq := fun p hp => h.fileAt?_eq p fun hmem => hp (hsub hmem)
  isFolder := h.isFolder

end FileSystem

namespace HitsDir

/-! ## Single steps -/

/-- A step that may do only a part of what it is for: the bytes to be written first, and what is
left then. -/
def WriteStep.part (amount : Nat) : WriteStep → WriteStep × List WriteStep
  | append path data =>
    if amount < data.length then
      (append path (data.take amount), [append path (data.drop amount)])
    else (append path data, [])
  | step => (step, [])

theorem WriteStep.exists_part_eq (step : WriteStep) : ∃ amount, step.part amount = (step, []) := by
  cases step with
  | append path data => exact ⟨data.length, if_neg (Nat.lt_irrefl _)⟩
  | makeFolder path => exact ⟨0, rfl⟩
  | create path => exact ⟨0, rfl⟩
  | move source target => exact ⟨0, rfl⟩

/-- A step that fails may have made folders on its way, but nothing else. -/
theorem WriteStep.changesAt_of_error {step : WriteStep} {fs : FileSystem} {e : StoreError}
    (h : (step.run fs).2 = .error e) : fs.ChangesAt (step.run fs).1 [] := by
  cases step with
  | makeFolder path => exact WriteStep.changesAt_run (makeFolder path) fs
  | create path =>
    unfold run at h ⊢
    dsimp only at h ⊢
    split at h
    · cases h
    · exact .refl fs []
  | append path data =>
    unfold run at h ⊢
    dsimp only at h ⊢
    split at h
    · cases h
    · exact .refl fs []
  | move source target =>
    unfold run at h ⊢
    dsimp only at h ⊢
    split at h
    · cases h
    · exact .refl fs []

/-! ## All steps -/

/-- What is left to do to write bytes to a path, after the steps that the files tell of. -/
inductive Remaining (dir path : String) (data : Bytes) (fs : FileSystem) : List WriteStep → Prop
  | all :
    Remaining dir path data fs
      [.makeFolder dir, .create (Path.withExtension path scratchExtension),
        .append (Path.withExtension path scratchExtension) data,
        .move (Path.withExtension path scratchExtension) path]
  | create :
    Remaining dir path data fs
      [.create (Path.withExtension path scratchExtension),
        .append (Path.withExtension path scratchExtension) data,
        .move (Path.withExtension path scratchExtension) path]
  | append {done rest : Bytes}
    (hdone : fs.fileAt? (goal (Path.withExtension path scratchExtension)) = some done)
    (hdata : done ++ rest = data) :
    Remaining dir path data fs
      [.append (Path.withExtension path scratchExtension) rest,
        .move (Path.withExtension path scratchExtension) path]
  | move (hdata : fs.fileAt? (goal (Path.withExtension path scratchExtension)) = some data) :
    Remaining dir path data fs [.move (Path.withExtension path scratchExtension) path]

/-- The bytes are where the path leads. -/
structure InPlace (fs : FileSystem) (path : String) (data : Bytes) : Prop where
  place : fs.place? path = some (goal path)
  file : fs.fileAt? (goal path) = some data

variable {fs more : FileSystem} {dir path : String} {data : Bytes}

theorem Remaining.ne_nil {steps : List WriteStep} (h : Remaining dir path data fs steps) :
    steps ≠ [] := by
  cases h with
  | all => exact List.cons_ne_nil _ _
  | create => exact List.cons_ne_nil _ _
  | append => exact List.cons_ne_nil _ _
  | move => exact List.cons_ne_nil _ _

theorem Remaining.of_fileAt? {steps : List WriteStep} (h : Remaining dir path data fs steps)
    (hsame : more.fileAt? (goal (Path.withExtension path scratchExtension)) =
      fs.fileAt? (goal (Path.withExtension path scratchExtension))) :
    Remaining dir path data more steps := by
  cases h with
  | all => exact .all
  | create => exact .create
  | append hdone hdata => exact .append (hsame.trans hdone) hdata
  | move hdata => exact .move (hsame.trans hdata)

/-- A step, or a part of it, that succeeds: either more is left to do and only the scratch file
differs, or nothing is left and the bytes are in their place. -/
theorem Remaining.step {step : WriteStep} {rest : List WriteStep}
    (h : Remaining dir path data fs (step :: rest)) (amount : Nat)
    (hok : ((step.part amount).1.run fs).2 = .ok ()) :
    (Remaining dir path data ((step.part amount).1.run fs).1 ((step.part amount).2 ++ rest) ∧
      fs.ChangesAt ((step.part amount).1.run fs).1
        [goal (Path.withExtension path scratchExtension)]) ∨
    ((step.part amount).2 ++ rest = [] ∧ InPlace ((step.part amount).1.run fs).1 path data ∧
      fs.ChangesAt ((step.part amount).1.run fs).1
        [goal (Path.withExtension path scratchExtension), goal path]) := by
  have hchanges := WriteStep.changesAt_run (step.part amount).1 fs
  cases h with
  | all => exact .inl ⟨.create, hchanges.mono (List.nil_subset _)⟩
  | create =>
    exact .inl ⟨.append (WriteStep.fileAt?_create hok) (List.nil_append data), hchanges⟩
  | @append done rest hdone hdata =>
    unfold WriteStep.part at hok hchanges ⊢
    dsimp only at hok hchanges ⊢
    split at hok
    · next hlt =>
      rw [if_pos hlt] at hchanges ⊢
      refine .inl ⟨.append (WriteStep.fileAt?_append hok hdone) ?_, hchanges⟩
      rw [List.append_assoc, List.take_append_drop, hdata]
    · next hge =>
      rw [if_neg hge] at hchanges ⊢
      refine .inl ⟨.move ?_, hchanges⟩
      rw [← hdata]
      exact WriteStep.fileAt?_append hok hdone
  | move hdata =>
    obtain ⟨hplace, hfile⟩ := WriteStep.fileAt?_move hok hdata
    exact .inr ⟨rfl, ⟨hchanges.place? hplace, hfile⟩, hchanges⟩

/-- Doing all that is left. -/
theorem Remaining.runSteps {steps : List WriteStep} (h : Remaining dir path data fs steps)
    (hok : (runSteps fs steps).2 = .ok ()) :
    InPlace (runSteps fs steps).1 path data ∧
      fs.ChangesAt (runSteps fs steps).1
        [goal (Path.withExtension path scratchExtension), goal path] := by
  induction steps generalizing fs with
  | nil => cases h
  | cons step rest ih =>
    obtain ⟨amount, hpart⟩ := step.exists_part_eq
    have hstep := h.step amount
    rw [hpart] at hstep
    unfold HitsDir.runSteps at hok ⊢
    split at hok
    · next between hrun =>
      rw [hrun] at hstep
      obtain ⟨hrest, hchanges⟩ | ⟨hdone, hplace, hchanges⟩ := hstep rfl
      · obtain ⟨hplace, hmore⟩ := ih hrest hok
        exact ⟨hplace, (hchanges.mono (by simp)).trans hmore⟩
      · obtain rfl : rest = [] := hdone
        exact ⟨hplace, hchanges⟩
    · next hfailed => exact (hfailed _ (Prod.ext rfl hok)).elim

end HitsDir

/-- The file is one that can be read. -/
structure HitFile.Readable (f : HitFile) : Prop where
  version : f.version = HitFile.currentVersion
  test : ∀ name ∈ f.test, HitFile.Fits name

theorem HitFile.Readable.ofBytes {f : HitFile} (h : f.Readable) : ofBytes f.toBytes = .ok f := by
  have := ofBytes_toBytes h.version h.test []
  rwa [List.append_nil] at this

namespace HitsDir

/-! ## The files of a directory -/

/-- The files with the extension of hit files, where the path of the directory leads, are those
of the list. The directory has to be there if there are any. -/
structure Stores (d : HitsDir) (stored : List (String × HitFile)) : Prop where
  nodup : (stored.map (·.1)).Nodup
  readable : ∀ e ∈ stored, e.2.Readable
  reached : stored ≠ [] → d.Reached
  mem_iff : ∀ name data, Path.extension? name = some hitExtension →
    (d.files.fileAt? (goal d.path ++ [name]) = some data ↔
      ∃ file, (name, file) ∈ stored ∧ file.toBytes = data)
  extension : ∀ e ∈ stored, Path.extension? e.1 = some hitExtension

variable {d : HitsDir} {stored : List (String × HitFile)}

theorem Stores.lists (h : d.Stores stored) :
    d.Lists (stored.map fun e => (e.1, e.2.hits)) where
  nodup := by
    rw [List.map_map]
    exact h.nodup
  mem_iff := fun name hits => by
    rw [List.mem_map]
    constructor
    · rintro ⟨⟨name, file⟩, hmem, heq⟩
      cases heq
      have hext := h.extension _ hmem
      obtain ⟨hplace, hfolder⟩ := h.reached (List.ne_nil_of_mem hmem)
      have hfile := (h.mem_iff name file.toBytes hext).mpr ⟨file, hmem, rfl⟩
      exact ⟨hext, _, file, ⟨_, hplace, hfolder, hfile⟩, (h.readable _ hmem).ofBytes, rfl⟩
    · rintro ⟨hext, data, file, ⟨folder, hplace, -, hdata⟩, hfile, rfl⟩
      obtain rfl := eq_goal_of_place? hplace
      obtain ⟨written, hmem, rfl⟩ := (h.mem_iff name data hext).mp hdata
      rw [(h.readable _ hmem).ofBytes] at hfile
      cases hfile
      exact ⟨_, hmem, rfl⟩

theorem Stores.toNat_count_read (h : d.Stores stored) (id : HitId) :
    (d.read.count id).toNat =
      Hits.saturate (stored.map fun e => (e.2.hits.count id).toNat).sum := by
  rw [h.lists.toNat_count_read, List.map_map]
  rfl

/-- The places of a hit file, and of its scratch file. -/
def places (path name : String) : List Place :=
  [goal path ++ [scratchName name], goal path ++ [name]]

theorem IsHitName.notMem_places {path name other : String} (h : IsHitName name) {place : Place}
    (hext : Path.extension? other = some hitExtension)
    (hne : place ++ [other] ≠ goal path ++ [name]) : place ++ [other] ∉ places path name := by
  simp only [places, List.mem_cons, List.not_mem_nil, or_false, not_or]
  exact ⟨concat_ne (h.ne_scratchName hext), hne⟩

/-- Writing a file puts it in its place, where a reader of the directory finds it. -/
theorem write_ok {name : String} {file : HitFile} (hname : IsHitName name)
    (hok : (d.write name file).2 = .ok ()) :
    Reached ⟨readPath d.path, (d.write name file).1.files⟩ ∧
      (d.write name file).1.files.fileAt? (goal d.path ++ [name]) = some file.toBytes ∧
      d.files.ChangesAt (d.write name file).1.files (places d.path name) := by
  have hsteps : Remaining d.path (d.filePath name) file.toBytes d.files
      (writeSteps d.path (d.filePath name) file) := .all
  obtain ⟨hplace, hchanges⟩ := hsteps.runSteps hok
  have hreached : Reached ⟨readPath d.path, (d.write name file).1.files⟩ :=
    hname.reached_readPath (d := (d.write name file).1) hplace.place
  rw [hname.goal_filePath, hname.goal_scratch] at hchanges
  have hfile := hplace.file
  rw [hname.goal_filePath] at hfile
  exact ⟨hreached, hfile, hchanges⟩

end HitsDir

end CilCoverage
