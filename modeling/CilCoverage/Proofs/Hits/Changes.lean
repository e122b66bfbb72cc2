/-
  What changes of the files change.

  A path leads to one place, whatever the files are (`goal`), if it leads
  anywhere. A step of writing that succeeds has its effect on the files at the
  places of its paths, and one that fails has none. Folders are never removed,
  so a directory that was found is found again. The empty path is one to write
  with but not one to read by (`readPath`).
-/
import CilCoverage.Proofs.Hits.Listing
import CilCoverage.Proofs.Hits.Names

namespace CilCoverage

namespace FileSystem

/-! ## Places -/

/-- Where a path leads once the folders on its way exist. -/
def goal (path : String) : Place := (Path.steps path).foldl next []

/-- Files of other names are at other places. -/
theorem concat_ne {place other : Place} {a b : String} (h : a ≠ b) :
    place ++ [a] ≠ other ++ [b] := by
  intro heq
  have hlast := congrArg List.getLast? heq
  rw [List.getLast?_concat, List.getLast?_concat] at hlast
  exact h (Option.some.inj hlast)

variable {fs more : FileSystem} {path : String}

theorem eq_foldl_of_walk? {place target : Place} {steps : List PathStep}
    (h : fs.walk? place steps = some target) : target = steps.foldl next place := by
  induction steps generalizing place with
  | nil => exact (Option.some.inj h).symm
  | cons step rest ih =>
    rw [walk?] at h
    split at h
    · exact ih h
    · cases h

theorem eq_goal_of_place? {place : Place} (h : fs.place? path = some place) :
    place = goal path := by
  unfold place? at h
  split at h
  · exact eq_foldl_of_walk? h
  · cases h

theorem isFolder_iff {place : Place} :
    fs.isFolder place = true ↔ fs.entryAt? place = some .folder := by
  unfold isFolder
  split
  · next h => exact ⟨fun _ => h, fun _ => rfl⟩
  · next h => exact ⟨nofun, fun hfolder => absurd hfolder h⟩

theorem fileAt?_congr {p : Place} (h : more.entryAt? p = fs.entryAt? p) :
    more.fileAt? p = fs.fileAt? p := by
  rw [fileAt?, fileAt?, h]

/-- Only files at these places differ, and folders stay. -/
structure ChangesAt (fs more : FileSystem) (places : List Place) : Prop where
  fileAt?_eq : ∀ p, p ∉ places → more.fileAt? p = fs.fileAt? p
  isFolder : ∀ p, fs.isFolder p = true → more.isFolder p = true

theorem ChangesAt.refl (fs : FileSystem) (places : List Place) : fs.ChangesAt fs places :=
  ⟨fun _ _ => rfl, fun _ h => h⟩

/-- Where no folder is among the changed places, it is enough to know the entries elsewhere. -/
theorem changesAt_of_entryAt? {places : List Place}
    (hfolder : ∀ p ∈ places, fs.isFolder p = false)
    (hentry : ∀ p, p ∉ places → more.entryAt? p = fs.entryAt? p) : fs.ChangesAt more places where
  fileAt?_eq := fun p hp => fileAt?_congr (hentry p hp)
  isFolder := fun p h => by
    have hp : p ∉ places := fun hp => by
      rw [hfolder p hp] at h
      cases h
    rw [isFolder_iff, hentry p hp]
    exact isFolder_iff.mp h

/-- A directory that was found is found again. -/
theorem ChangesAt.place? {places : List Place} (h : fs.ChangesAt more places) {place : Place}
    (hplace : fs.place? path = some place) : more.place? path = some place := by
  unfold FileSystem.place? at hplace ⊢
  split at hplace
  · next hvalid => rw [if_pos hvalid]; exact walk?_of_isFolder_le h.isFolder hplace
  · cases hplace

/-! ## Entries -/

theorem entryAt?_insert {place : Place} (hplace : place ≠ []) (e : FileEntry) (p : Place) :
    entryAt? ⟨fs.entries.insert place e⟩ p = if p = place then some e else fs.entryAt? p := by
  cases p with
  | nil => rw [if_neg hplace.symm]; rfl
  | cons name names =>
    split
    · next h => rw [entryAt?, h, OrderedMap.find?_insert_self]
    · next h => rw [entryAt?, OrderedMap.find?_insert_ne _ _ h, entryAt?]

theorem entryAt?_erase {place : Place} (hplace : place ≠ []) (p : Place) :
    entryAt? ⟨fs.entries.erase place⟩ p = if p = place then none else fs.entryAt? p := by
  cases p with
  | nil => rw [if_neg hplace.symm]; rfl
  | cons name names =>
    split
    · next h => rw [entryAt?, h, OrderedMap.find?_erase_self]
    · next h => rw [entryAt?, OrderedMap.find?_erase_ne _ h, entryAt?]

/-! ## Writing files -/

/-- A file can be at the place that the path leads to. -/
structure Writable (fs : FileSystem) (path : String) : Prop where
  place : fs.place? path = some (goal path)
  notFolder : fs.isFolder (goal path) = false

theorem Writable.ne_nil (h : fs.Writable path) : goal path ≠ [] := by
  intro hnil
  have := h.notFolder
  rw [hnil] at this
  cases this

theorem filePlace?_eq_some {place : Place} (h : fs.filePlace? path = some place) :
    place = goal path ∧ fs.Writable path := by
  unfold filePlace? at h
  split at h
  · obtain ⟨hplace, hfolder⟩ := Option.filter_eq_some_iff.mp h
    obtain rfl := eq_goal_of_place? hplace
    exact ⟨rfl, hplace, by simpa using hfolder⟩
  · cases h

theorem file?_eq_some {data : Bytes} (h : fs.file? path = some data) :
    fs.entryAt? (goal path) = some (.file data) := by
  have hfound : (fs.place? path).bind fs.entryAt? = some (.file data) := by
    unfold file? find? at h
    split at h
    · next hfind =>
      split at hfind
      · next hentry =>
        split at hfind
        · cases hfind
        · rw [hentry, hfind, Option.some.inj h]
      · rw [hfind, Option.some.inj h]
    · cases h
  obtain ⟨place, hplace, hentry⟩ := Option.bind_eq_some_iff.mp hfound
  rwa [← eq_goal_of_place? hplace]

theorem write?_eq_some {data : Bytes} (h : fs.write? path data = some more) :
    fs.Writable path ∧
      ∀ p, more.entryAt? p = if p = goal path then some (.file data) else fs.entryAt? p := by
  obtain ⟨place, hplace, rfl⟩ := Option.map_eq_some_iff.mp h
  obtain ⟨rfl, hwritable⟩ := filePlace?_eq_some hplace
  exact ⟨hwritable, entryAt?_insert hwritable.ne_nil _⟩

theorem append?_eq_some {data : Bytes} (h : fs.append? path data = some more) :
    ∃ old, fs.entryAt? (goal path) = some (.file old) ∧
      ∀ p, more.entryAt? p =
        if p = goal path then some (.file (old ++ data)) else fs.entryAt? p := by
  obtain ⟨old, hold, hwrite⟩ := Option.bind_eq_some_iff.mp h
  exact ⟨old, file?_eq_some hold, (write?_eq_some hwrite).2⟩

theorem entryAt?_remove {p : Place} (hp : p ≠ goal path) :
    (fs.remove path).entryAt? p = fs.entryAt? p := by
  unfold remove
  split
  · next hplace =>
    obtain ⟨rfl, hwritable⟩ := filePlace?_eq_some hplace
    rw [entryAt?_erase hwritable.ne_nil, if_neg hp]
  · rfl

theorem move?_eq_some {source target : String} (h : fs.move? source target = some more) :
    fs.Writable target ∧ ∃ data, fs.entryAt? (goal source) = some (.file data) ∧
      more.entryAt? (goal target) = some (.file data) ∧
      ∀ p, p ≠ goal source → p ≠ goal target → more.entryAt? p = fs.entryAt? p := by
  obtain ⟨data, hdata, hmove⟩ := Option.bind_eq_some_iff.mp h
  obtain ⟨place, hplace, hmore⟩ := Option.bind_eq_some_iff.mp hmove
  obtain ⟨rfl, hwritable⟩ := filePlace?_eq_some hplace
  obtain rfl := Option.some.inj hmore
  refine ⟨hwritable, data, file?_eq_some hdata, ?_, fun p hsource htarget => ?_⟩
  · rw [entryAt?_insert hwritable.ne_nil, if_pos rfl]
  · rw [entryAt?_insert hwritable.ne_nil, if_neg htarget, entryAt?_remove hsource]

/-! ## Making folders -/

theorem changesAt_makeAlong (fs : FileSystem) (place : Place) (steps : List PathStep) :
    fs.ChangesAt (fs.makeAlong place steps) [] := by
  fun_induction makeAlong fs place steps with
  | case1 fs place => exact .refl fs []
  | case2 fs place rest ih => exact ih
  | case3 fs place name rest inner hfolder ih => exact ih
  | case4 fs place name rest inner data hfile => exact .refl fs []
  | case5 fs place name rest inner hnone hshort ih =>
    have hinner : inner ≠ [] :=
      List.append_ne_nil_of_right_ne_nil place (List.cons_ne_nil name [])
    refine ⟨fun p hp => (ih.fileAt?_eq p hp).trans ?_, fun p h => ih.isFolder p ?_⟩
    · by_cases hp : p = inner
      · rw [hp, fileAt?, fileAt?, hnone, entryAt?_insert hinner, if_pos rfl]
      · exact fileAt?_congr (by rw [entryAt?_insert hinner, if_neg hp])
    · rw [isFolder_iff, entryAt?_insert hinner]
      split
      · rfl
      · exact isFolder_iff.mp h
  | case6 fs place name rest inner hnone hlong => exact .refl fs []

theorem changesAt_makeFolders (fs : FileSystem) (path : String) :
    fs.ChangesAt (fs.makeFolders path).1 [] := by
  unfold makeFolders
  split
  · exact .refl fs []
  · split
    · exact changesAt_makeAlong fs [] _
    · exact .refl fs []

/-! ## Changing files -/

theorem changesAt_write? {data : Bytes} (h : fs.write? path data = some more) :
    fs.ChangesAt more [goal path] := by
  obtain ⟨hwritable, hentry⟩ := write?_eq_some h
  refine changesAt_of_entryAt? (fun p hp => ?_) fun p hp => ?_
  · rw [List.mem_singleton.mp hp, hwritable.notFolder]
  · rw [hentry, if_neg fun heq => hp (List.mem_singleton.mpr heq)]

theorem changesAt_append? {data : Bytes} (h : fs.append? path data = some more) :
    fs.ChangesAt more [goal path] := by
  obtain ⟨old, -, hwrite⟩ := Option.bind_eq_some_iff.mp h
  exact changesAt_write? hwrite

theorem changesAt_move? {source target : String} (h : fs.move? source target = some more) :
    fs.ChangesAt more [goal source, goal target] := by
  obtain ⟨hwritable, data, hsource, -, hentry⟩ := move?_eq_some h
  refine changesAt_of_entryAt? (fun p hp => ?_) fun p hp => ?_
  · obtain rfl | hp := List.mem_cons.mp hp
    · unfold isFolder
      rw [hsource]
    · rw [List.mem_singleton.mp hp, hwritable.notFolder]
  · rw [List.mem_cons, List.mem_singleton, not_or] at hp
    exact hentry p hp.1 hp.2

end FileSystem

namespace HitsDir

open FileSystem

/-! ## Steps of writing -/

/-- The places of the files that a step changes. -/
def WriteStep.touched : WriteStep → List Place
  | makeFolder _ => []
  | create path => [goal path]
  | append path _ => [goal path]
  | move source target => [goal source, goal target]

variable {fs : FileSystem}

/-- Whether a step succeeds or fails, it changes nothing but the files of its paths. -/
theorem WriteStep.changesAt_run (step : WriteStep) (fs : FileSystem) :
    fs.ChangesAt (step.run fs).1 step.touched := by
  cases step with
  | makeFolder path =>
    have hmade := changesAt_makeFolders fs path
    unfold run
    dsimp only
    split
    · next h => rwa [h] at hmade
    · next h => rwa [h] at hmade
  | create path =>
    unfold run
    dsimp only
    split
    · next h => exact changesAt_write? h
    · exact .refl fs _
  | append path data =>
    unfold run
    dsimp only
    split
    · next h => exact changesAt_append? h
    · exact .refl fs _
  | move source target =>
    unfold run
    dsimp only
    split
    · next h => exact changesAt_move? h
    · exact .refl fs _

theorem WriteStep.fileAt?_create {path : String} (h : ((create path).run fs).2 = .ok ()) :
    ((create path).run fs).1.fileAt? (goal path) = some [] := by
  unfold run at h ⊢
  dsimp only at h ⊢
  split at h
  · next hwrite =>
    exact fileAt?_eq_some_iff.mpr (by rw [(write?_eq_some hwrite).2, if_pos rfl])
  · cases h

theorem WriteStep.fileAt?_append {path : String} {data old : Bytes}
    (h : ((append path data).run fs).2 = .ok ()) (hold : fs.fileAt? (goal path) = some old) :
    ((append path data).run fs).1.fileAt? (goal path) = some (old ++ data) := by
  unfold run at h ⊢
  dsimp only at h ⊢
  split at h
  · next happend =>
    obtain ⟨before, hbefore, hentry⟩ := append?_eq_some happend
    rw [fileAt?_eq_some_iff, hbefore] at hold
    cases hold
    exact fileAt?_eq_some_iff.mpr (by rw [hentry, if_pos rfl])
  · cases h

theorem WriteStep.fileAt?_move {source target : String} {data : Bytes}
    (h : ((move source target).run fs).2 = .ok ()) (hdata : fs.fileAt? (goal source) = some data) :
    fs.place? target = some (goal target) ∧
      ((move source target).run fs).1.fileAt? (goal target) = some data := by
  unfold run at h ⊢
  dsimp only at h ⊢
  split at h
  · next hmove =>
    obtain ⟨hwritable, stored, hstored, htarget, -⟩ := move?_eq_some hmove
    rw [fileAt?_eq_some_iff, hstored] at hdata
    cases hdata
    exact ⟨hwritable.place, fileAt?_eq_some_iff.mpr htarget⟩
  · cases h

/-! ## The directory -/

/-- The directory is there, and its path leads to it. -/
structure Reached (d : HitsDir) : Prop where
  place : d.files.place? d.path = some (goal d.path)
  isFolder : d.files.isFolder (goal d.path) = true

variable {d : HitsDir} {name : String}

theorem Reached.of_changesAt {fs more : FileSystem} {path : String} {places : List Place}
    (h : Reached ⟨path, fs⟩) (hchanges : fs.ChangesAt more places) : Reached ⟨path, more⟩ :=
  ⟨hchanges.place? h.place, hchanges.isFolder _ h.isFolder⟩

theorem IsHitName.goal_filePath (h : IsHitName name) :
    goal (d.filePath name) = goal d.path ++ [name] := by
  rw [goal, h.steps_filePath, List.foldl_append]
  rfl

theorem IsHitName.goal_scratch (h : IsHitName name) :
    goal (Path.withExtension (d.filePath name) scratchExtension) =
      goal d.path ++ [scratchName name] := by
  rw [goal, h.steps_scratch, List.foldl_append]
  rfl

/-- A hit file can only be put where the directory is. -/
theorem IsHitName.reached (h : IsHitName name) (hpath : d.path ≠ "") {place : Place}
    (hplace : d.files.place? (d.filePath name) = some place) : d.Reached := by
  unfold place? at hplace
  split at hplace
  · next hvalid =>
    rw [h.steps_filePath, walk?_append] at hplace
    obtain ⟨folder, hfolder, hname⟩ := Option.bind_eq_some_iff.mp hplace
    have hgoal : folder = goal d.path := eq_foldl_of_walk? hfolder
    rw [hgoal] at hfolder hname
    rw [walk?] at hname
    split at hname
    · next hisFolder =>
      refine ⟨?_, hisFolder⟩
      rw [place?, if_pos (h.isValid_of_filePath hpath hvalid), hfolder]
    · cases hname
  · cases hplace

/-! ## The empty path -/

/-- The path to read a directory by. The empty path leads nowhere, although files are written with
it; they are where `.` leads. -/
def readPath (path : String) : String := if path = "" then "." else path

theorem readPath_of_ne {path : String} (h : path ≠ "") : readPath path = path := if_neg h

theorem goal_readPath (path : String) : goal (readPath path) = goal path := by
  unfold readPath
  split
  · next h => rw [h]; decide
  · rfl

/-- A hit file can only be put where the directory is, by whatever path. -/
theorem IsHitName.reached_readPath (h : IsHitName name) {place : Place}
    (hplace : d.files.place? (d.filePath name) = some place) :
    Reached ⟨readPath d.path, d.files⟩ := by
  by_cases hpath : d.path = ""
  · -- the outermost folder, which always exists
    have hsteps : Path.steps "." = [] := by decide
    rw [hpath]
    refine ⟨?_, ?_⟩
    · show d.files.place? "." = some (goal ".")
      rw [place?, if_pos (by decide), goal, hsteps]
      rfl
    · rw [goal_readPath]
      rfl
  · rw [readPath_of_ne hpath]
    exact h.reached hpath hplace

/-- Through the empty path nothing is read, whatever was written with it. -/
theorem read_empty (files : FileSystem) : read ⟨"", files⟩ = Hits.mergeAll [] := rfl

end HitsDir

end CilCoverage
