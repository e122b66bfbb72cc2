/-
  What a process has recorded when its hooks have run for the last time.

  Every hit is counted in one context, and every context has its counts in its
  file by then. Reading all the directories that were used gives all hits
  (`read_acts`), but not through the empty path, by which files are written and
  none are read (`undirected_not_read`).
-/
import CilCoverage.Proofs.Recording.Steps
import Mathlib.Algebra.Order.BigOperators.Group.List
import Mathlib.Algebra.Order.Group.Nat

namespace CilCoverage.Recorder

open FileSystem

variable {before : FileSystem} {behind : ContextId → Prop} {r : Recorder} {i : InstalledContext}

/-! ## Counts -/

/-- The counts of an id in all contexts. -/
def total (r : Recorder) (id : HitId) : Nat :=
  (r.contexts.map fun c => (c.counters.count id).toNat).sum

/-- The hits directories that the steps name. -/
def usedDirs (steps : List Step) : List String :=
  steps.filterMap fun
    | .install config => some config.hitsDir
    | _ => none

theorem mem_usedDirs {steps : List Step} {path : String} :
    path ∈ usedDirs steps ↔ ∃ config, .install config ∈ steps ∧ config.hitsDir = path := by
  rw [usedDirs, List.mem_filterMap]
  constructor
  · rintro ⟨step, hstep, hsome⟩
    cases step with
    | install config => exact ⟨config, hstep, Option.some.inj hsome⟩
    | hit => cases hsome
    | flush => cases hsome
    | execute => cases hsome
    | tick => cases hsome
  · rintro ⟨config, hmem, rfl⟩
    exact ⟨_, hmem, rfl⟩

theorem contexts_tryFlush (r : Recorder) (j : ContextId) :
    (r.tryFlush j).contexts = r.contexts := by
  rw [tryFlush_eq]

/-- What a step makes of the contexts. -/
theorem Ready.contexts_act (h : r.Ready i) (step : Step) :
    (r.act step).contexts = match step with
      | .install config => r.contexts ++ [HitContext.new config r.process r.contexts.length]
      | .hit id => r.contexts.modify i.context fun c => c.hit id 1
      | _ => r.contexts := by
  cases step with
  | install config => exact contexts_install r config
  | hit id => rw [h.hit]; rfl
  | flush =>
    unfold act Recorder.flush
    rw [h.current]
    exact contexts_tryFlush r i.context
  | execute => rw [h.execute.2, contexts_tryFlush]
  | tick =>
    unfold act
    rw [h.installed]
    dsimp only
    split
    · exact contexts_tryFlush r i.context
    · rfl

theorem sum_modify {α : Type} {l : List α} {k : Nat} {a : α} (h : l[k]? = some a) (f : α → α)
    (g : α → Nat) : ((l.modify k f).map g).sum + g a = (l.map g).sum + g (f a) := by
  induction l generalizing k with
  | nil => cases h
  | cons b rest ih =>
    cases k with
    | zero =>
      cases h
      simp only [List.modify_zero_cons, List.map_cons, List.sum_cons]
      omega
    | succ k =>
      have ih := ih h
      simp only [List.modify_succ_cons, List.map_cons, List.sum_cons]
      omega

theorem Ready.total_act (h : r.Ready i) (step : Step) {id : HitId}
    (hlt : r.total id + [step].count (.hit id) < UInt64.size) :
    (r.act step).total id = r.total id + [step].count (.hit id) := by
  unfold total at hlt ⊢
  rw [h.contexts_act]
  cases step with
  | install config =>
    have hzero : (HitContext.new config r.process r.contexts.length).counters.count id = 0 :=
      Counters.count_zero id
    rw [List.map_append, List.sum_append, List.map_singleton, List.sum_singleton, hzero]
    rfl
  | hit j =>
    obtain ⟨c, hget⟩ : ∃ c, r.contexts[i.context]? = some c :=
      ⟨_, List.getElem?_eq_getElem h.lt⟩
    have hsum := sum_modify hget (fun c => c.hit j 1) fun c => (c.counters.count id).toNat
    have hcount : (c.hit j 1).counters.count id =
        if id = j then c.counters.count id + 1 else c.counters.count id :=
      Counters.count_incrementTimes c.counters j 1 id
    rw [hcount] at hsum
    rw [List.count_singleton] at hlt ⊢
    by_cases hid : id = j
    · subst hid
      rw [if_pos (beq_self_eq_true _)] at hlt ⊢
      rw [if_pos rfl] at hsum
      have hle : (c.counters.count id).toNat ≤
          (r.contexts.map fun c => (c.counters.count id).toNat).sum :=
        List.le_sum_of_mem (List.mem_map.mpr ⟨c, List.mem_of_getElem? hget, rfl⟩)
      have hnext : (c.counters.count id + 1).toNat = (c.counters.count id).toNat + 1 := by
        rw [UInt64.toNat_add]
        exact Nat.mod_eq_of_lt (Nat.lt_of_le_of_lt (Nat.succ_le_succ hle) hlt)
      dsimp only
      omega
    · have hne : ¬ (Step.hit j == Step.hit id) = true := by
        rw [beq_iff_eq, Step.hit.injEq]
        exact fun heq => hid heq.symm
      rw [if_neg hne]
      rw [if_neg hid] at hsum
      dsimp only
      omega
  | flush => rfl
  | execute => rfl
  | tick => rfl

/-! ## Runs -/

theorem Ready.hitsDirs_act (h : r.Ready i) (step : Step) :
    (r.act step).contexts.map (·.hitsDir) = r.contexts.map (·.hitsDir) ++ usedDirs [step] := by
  rw [h.contexts_act]
  cases step with
  | install config => exact List.map_append
  | hit id =>
    refine Eq.trans ?_ (List.append_nil _).symm
    refine List.ext_getElem? fun j => ?_
    dsimp only
    rw [List.getElem?_map, List.getElem?_modify, List.getElem?_map]
    cases r.contexts[j]? with
    | none => rfl
    | some c =>
      by_cases hj : i.context = j
      · simp [hj, HitContext.hit]
      · simp [hj]
  | flush => exact (List.append_nil _).symm
  | execute => exact (List.append_nil _).symm
  | tick => exact (List.append_nil _).symm

theorem usedDirs_cons (step : Step) (rest : List Step) :
    usedDirs (step :: rest) = usedDirs [step] ++ usedDirs rest :=
  List.filterMap_append (l := [step])

/-- What holds after steps all of whose flushes were successful. -/
theorem Kept.acts (h : r.Kept before (· = i.context)) (hready : r.Ready i) {steps : List Step}
    (hfits : ∀ config, .install config ∈ steps → ∀ test ∈ config.test, HitFile.Fits test)
    (hok : r.succeeds steps = true) :
    ∃ i, (r.acts steps).Ready i ∧ (r.acts steps).Kept before (· = i.context) ∧
      (r.acts steps).contexts.map (·.hitsDir) = r.contexts.map (·.hitsDir) ++ usedDirs steps ∧
      ∀ id, r.total id + steps.count (.hit id) < UInt64.size →
        (r.acts steps).total id = r.total id + steps.count (.hit id) := by
  induction steps generalizing r i with
  | nil => exact ⟨i, hready, h, (List.append_nil _).symm, fun id _ => rfl⟩
  | cons step rest ih =>
    obtain ⟨hstep, hrest⟩ := Bool.and_eq_true_iff.mp hok
    obtain ⟨next, hnext, hkept⟩ := h.act hready
      (fun config heq => hfits config (heq ▸ List.mem_cons_self)) hstep
    obtain ⟨last, hlast, hall, hdirs, htotal⟩ := ih hkept hnext
      (fun config hmem => hfits config (List.mem_cons_of_mem _ hmem)) hrest
    refine ⟨last, hlast, hall, ?_, fun id hlt => ?_⟩
    · rw [usedDirs_cons, ← List.append_assoc, ← hready.hitsDirs_act]
      exact hdirs
    · have hcount : ([step] ++ rest).count (.hit id) =
          [step].count (.hit id) + rest.count (.hit id) := List.count_append
      rw [List.singleton_append] at hcount
      have hfirst : (r.act step).total id = r.total id + [step].count (.hit id) :=
        hready.total_act step (by omega)
      have hmore := htotal id (by omega)
      show ((r.act step).acts rest).total id = _
      omega

theorem succeeds_append (r : Recorder) (steps more : List Step) :
    r.succeeds (steps ++ more) = (r.succeeds steps && (r.acts steps).succeeds more) := by
  induction steps generalizing r with
  | nil => rfl
  | cons step rest ih =>
    show (_ && (r.act step).succeeds (rest ++ more)) = _
    rw [ih, ← Bool.and_assoc]
    rfl

/-- A process that has recorded nothing, and the files that it finds. -/
def begun (process : Nat) (files : FileSystem) : Recorder := { start process with files }

/-- The first installation. -/
theorem kept_install (process : Nat) (files : FileSystem) {first : RecorderConfig}
    (hfits : ∀ test ∈ first.test, HitFile.Fits test) :
    ∃ i, ((begun process files).act (.install first)).Ready i ∧
      ((begun process files).act (.install first)).Kept files (· = i.context) ∧
      ((begun process files).act (.install first)).contexts.map (·.hitsDir) = [first.hitsDir] ∧
      ∀ id, ((begun process files).act (.install first)).total id = 0 := by
  have hact : (begun process files).act (.install first) =
      (begun process files).replaced first := rfl
  have hkept : (begun process files).Kept files fun _ => False :=
    ⟨nofun, nofun, fun _ _ _ _ => rfl⟩
  rw [hact]
  refine ⟨_, ready_replaced rfl rfl first, ?_, ?_, fun id => ?_⟩
  · exact (hkept.replaced hfits).mono fun j hj => hj.resolve_left id
  · rw [replaced_eq]
    rfl
  · rw [replaced_eq]
    exact (Nat.add_zero _).trans (congrArg UInt64.toNat (Counters.count_zero id))

/-- The last run of the hooks brings the one file up to date that may be behind. -/
theorem kept_execute {process : Nat} {files : FileSystem} {first : RecorderConfig}
    {steps : List Step}
    (hfits : ∀ config, .install config ∈ Step.install first :: steps →
      ∀ test ∈ config.test, HitFile.Fits test)
    (hok : (begun process files).succeeds (.install first :: (steps ++ [.execute])) = true) :
    let all := Step.install first :: (steps ++ [.execute])
    let r := (begun process files).acts all
    r.Kept files (fun _ => False) ∧ r.contexts.map (·.hitsDir) = usedDirs all ∧
      ∀ id, all.count (.hit id) < UInt64.size → r.total id = all.count (.hit id) := by
  intro all r
  obtain ⟨-, hrest⟩ := Bool.and_eq_true_iff.mp hok
  rw [succeeds_append] at hrest
  obtain ⟨hsteps, hexecute⟩ := Bool.and_eq_true_iff.mp hrest
  obtain ⟨i, hready, hinstall, hfirstDir, hzero⟩ :=
    kept_install process files (hfits first List.mem_cons_self)
  obtain ⟨last, hlast, hkept, hdirs, htotal⟩ := hinstall.acts hready
    (fun config hmem => hfits config (List.mem_cons_of_mem _ hmem)) hsteps
  obtain ⟨hflushes, hact⟩ := hlast.execute
  have hr : r = (((begun process files).act (.install first)).acts steps).tryFlush
      last.context := by
    rw [← hact]
    exact List.foldl_append
  have hcontexts : r.contexts =
      (((begun process files).act (.install first)).acts steps).contexts := by
    rw [hr, contexts_tryFlush]
  refine ⟨?_, ?_, fun id hlt => ?_⟩
  · have hflush := (Bool.and_eq_true_iff.mp hexecute).1
    rw [hflushes] at hflush
    rw [hr]
    exact hkept.flushInstalled (Bool.and_eq_true_iff.mp hflush).1
  · rw [hcontexts, hdirs, hfirstDir]
    simp [all, usedDirs]
  · have hcount : all.count (.hit id) = steps.count (.hit id) := by
      simp [all]
    rw [hcount] at hlt ⊢
    have hsum := htotal id (by rw [hzero, Nat.zero_add]; exact hlt)
    rw [hzero, Nat.zero_add] at hsum
    unfold total at hsum ⊢
    rw [hcontexts, hsum]

/-! ## Reading -/

/-- The files that the contexts keep in a directory. -/
def stored (r : Recorder) (path : String) : List (String × HitFile) :=
  (r.contexts.filter fun c => goal c.hitsDir = goal path).map fun c =>
    (c.fileName, HitFile.new c.test c.counters.snapshot)

theorem Kept.nodup (h : r.Kept before behind) : (r.contexts.map (·.fileName)).Nodup := by
  rw [List.Nodup, List.pairwise_map, List.pairwise_iff_getElem]
  intro a b ha hb hlt hname
  have hmadea := h.made a _ (List.getElem?_eq_getElem ha)
  have hmadeb := h.made b _ (List.getElem?_eq_getElem hb)
  have := hmadea.number_eq hmadeb hname
  omega

theorem mem_stored_iff {path name : String} {file : HitFile} :
    (name, file) ∈ r.stored path ↔ ∃ c ∈ r.contexts, goal c.hitsDir = goal path ∧
      c.fileName = name ∧ HitFile.new c.test c.counters.snapshot = file := by
  unfold stored
  simp [List.mem_map, List.mem_filter, and_assoc]

theorem Kept.of_mem (h : r.Kept before fun _ => False) {c : HitContext} (hc : c ∈ r.contexts) :
    ∃ j : Nat, r.contexts[j]? = some c ∧ c.MadeBy r.process j ∧ c.Flushed r.files := by
  obtain ⟨j, hj⟩ := List.mem_iff_getElem?.mp hc
  exact ⟨j, hj, h.made j c hj, h.flushed j c hj id⟩

/-- The hit files of a directory that had none are those of the contexts with this directory. -/
theorem Kept.fileAt?_iff (h : r.Kept before fun _ => False) {path : String}
    (hbefore : ∀ name, Path.extension? name = some HitsDir.hitExtension →
      before.fileAt? (goal path ++ [name]) = none) (name : String) (data : Bytes)
    (hext : Path.extension? name = some HitsDir.hitExtension) :
    r.files.fileAt? (goal path ++ [name]) = some data ↔
      ∃ file, (name, file) ∈ r.stored path ∧ file.toBytes = data := by
  by_cases hname : ∃ c ∈ r.contexts, goal path ++ [name] = goal c.hitsDir ++ [c.fileName]
  · obtain ⟨c, hc, hplace⟩ := hname
    obtain ⟨j, hj, hmade, hflushed⟩ := h.of_mem hc
    obtain ⟨hgoal, hnames⟩ := List.append_inj' hplace rfl
    obtain rfl := List.singleton_inj.mp hnames
    rw [hplace, hflushed.file, Option.some.injEq]
    constructor
    · intro hdata
      exact ⟨_, mem_stored_iff.mpr ⟨c, hc, hgoal.symm, rfl, rfl⟩, hdata⟩
    · rintro ⟨file, hfile, hdata⟩
      obtain ⟨other, hother, -, hsame, rfl⟩ := mem_stored_iff.mp hfile
      obtain ⟨k, hk, hmadek, -⟩ := h.of_mem hother
      -- a name belongs to one context only
      obtain rfl := hmadek.number_eq hmade hsame
      rw [hj] at hk
      cases hk
      exact hdata
  · have hnone : r.files.fileAt? (goal path ++ [name]) = none := by
      rw [h.others _ name hext fun j c hc heq => hname ⟨c, List.mem_of_getElem? hc, heq⟩,
        hbefore name hext]
    rw [hnone]
    refine ⟨nofun, fun ⟨file, hfile, _⟩ => ?_⟩
    obtain ⟨c, hc, hgoal, hsame, -⟩ := mem_stored_iff.mp hfile
    exact absurd ⟨c, hc, by rw [hgoal, hsame]⟩ hname

theorem Kept.stores (h : r.Kept before fun _ => False) {path : String}
    (hpath : path ∈ r.contexts.map (·.hitsDir))
    (hbefore : ∀ name, Path.extension? name = some HitsDir.hitExtension →
      before.fileAt? (goal path ++ [name]) = none) :
    (r.dir (HitsDir.readPath path)).Stores (r.stored path) where
  nodup := by
    unfold stored
    rw [List.map_map]
    exact h.nodup.sublist ((List.filter_sublist).map _)
  readable := fun e he => by
    obtain ⟨c, hc, -, -, hfile⟩ := mem_stored_iff.mp he
    obtain ⟨j, -, hmade, -⟩ := h.of_mem hc
    rw [← hfile]
    exact ⟨rfl, hmade.fits⟩
  reached := fun _ => by
    obtain ⟨c, hc, rfl⟩ := List.mem_map.mp hpath
    obtain ⟨-, -, -, hflushed⟩ := h.of_mem hc
    exact hflushed.reached
  mem_iff := fun name data hext => by
    show r.files.fileAt? (goal (HitsDir.readPath path) ++ [name]) = some data ↔ _
    rw [HitsDir.goal_readPath]
    exact h.fileAt?_iff hbefore name data hext
  extension := fun e he => by
    obtain ⟨c, hc, -, hname, -⟩ := mem_stored_iff.mp he
    obtain ⟨j, -, hmade, -⟩ := h.of_mem hc
    rw [← hname]
    exact hmade.isHitName.extension?

theorem Kept.lawful (h : r.Kept before behind) {c : HitContext} (hc : c ∈ r.contexts) :
    c.counters.Lawful := by
  obtain ⟨j, hj⟩ := List.mem_iff_getElem?.mp hc
  exact (h.made j c hj).lawful

/-- The counts of the contexts with a directory. -/
def countsIn (r : Recorder) (path : String) (id : HitId) : Nat :=
  ((r.contexts.filter fun c => goal c.hitsDir = goal path).map fun c =>
    (c.counters.count id).toNat).sum

theorem countsIn_readPath (r : Recorder) (path : String) (id : HitId) :
    r.countsIn (HitsDir.readPath path) id = r.countsIn path id := by
  rw [countsIn, countsIn, HitsDir.goal_readPath]

theorem Kept.toNat_count_read (h : r.Kept before fun _ => False) {path : String}
    (hpath : path ∈ r.contexts.map (·.hitsDir))
    (hbefore : ∀ name, Path.extension? name = some HitsDir.hitExtension →
      before.fileAt? (goal path ++ [name]) = none) (id : HitId) :
    ((r.dir (HitsDir.readPath path)).read.count id).toNat =
      Hits.saturate (r.countsIn path id) := by
  rw [(h.stores hpath hbefore).toNat_count_read, stored, List.map_map]
  refine congrArg (fun l => Hits.saturate (List.sum l)) (List.map_congr_left fun c hc => ?_)
  have hlawful := h.lawful (List.mem_of_mem_filter hc)
  exact congrArg UInt64.toNat (Counters.count_snapshot hlawful id)

theorem sum_single {β : Type} [DecidableEq β] {keys : List β} (hnodup : keys.Nodup) (b : β)
    (n : Nat) : (keys.map fun k => if b = k then n else 0).sum = if b ∈ keys then n else 0 := by
  induction keys with
  | nil => rfl
  | cons k rest ih =>
    obtain ⟨hk, hrest⟩ := List.nodup_cons.mp hnodup
    rw [List.map_cons, List.sum_cons, ih hrest]
    by_cases hbk : b = k
    · subst hbk
      simp [hk]
    · simp [hbk]

/-- Sums over groups, where every element is in one of them. -/
theorem sum_groups {α β : Type} [DecidableEq β] {keys : List β} (hnodup : keys.Nodup)
    (key : α → β) (f : α → Nat) {l : List α} (hcover : ∀ a ∈ l, key a ∈ keys) :
    (keys.map fun k => ((l.filter fun a => key a = k).map f).sum).sum = (l.map f).sum := by
  induction l with
  | nil => simp
  | cons a rest ih =>
    have hgroup : ∀ k, (((a :: rest).filter fun a => key a = k).map f).sum =
        (if key a = k then f a else 0) + ((rest.filter fun a => key a = k).map f).sum := by
      intro k
      rw [List.filter_cons]
      by_cases hk : key a = k
      · simp [hk]
      · simp [hk]
    rw [List.map_congr_left fun k _ => hgroup k, List.sum_map_add, sum_single hnodup,
      if_pos (hcover a List.mem_cons_self), ih fun b hb => hcover b (List.mem_cons_of_mem _ hb),
      List.map_cons, List.sum_cons]

/-- Directories, each taken once, that all contexts have theirs among. -/
theorem sum_countsIn {dirs : List String} (hnodup : (dirs.map goal).Nodup)
    (hcover : ∀ c ∈ r.contexts, goal c.hitsDir ∈ dirs.map goal) (id : HitId) :
    (dirs.map fun path => r.countsIn path id).sum = r.total id := by
  have hsum := sum_groups hnodup (fun c : HitContext => goal c.hitsDir)
    (fun c => (c.counters.count id).toNat) hcover
  rwa [List.map_map] at hsum

/-- What is read of all directories, each taken once, is what all contexts counted. -/
theorem Kept.sum_read (h : r.Kept before fun _ => False)
    (hbefore : ∀ path ∈ r.contexts.map (·.hitsDir), ∀ name,
      Path.extension? name = some HitsDir.hitExtension →
        before.fileAt? (goal path ++ [name]) = none)
    {dirs : List String} (hnodup : (dirs.map goal).Nodup)
    (hsub : ∀ path ∈ dirs, path ∈ (r.contexts.map (·.hitsDir)).map HitsDir.readPath)
    (hcover : ∀ path ∈ r.contexts.map (·.hitsDir), goal path ∈ dirs.map goal) {id : HitId}
    (hlt : r.total id < UInt64.size) :
    (dirs.map fun path => ((r.dir path).read.count id).toNat).sum = r.total id := by
  have hsum : (dirs.map fun path => r.countsIn path id).sum = r.total id :=
    sum_countsIn hnodup (fun c hc => hcover c.hitsDir (List.mem_map_of_mem hc)) id
  rw [← hsum]
  refine congrArg List.sum (List.map_congr_left fun path hpath => ?_)
  -- no single directory has more than all of them, so that nothing is cut off
  have hle : r.countsIn path id ≤ (dirs.map fun path => r.countsIn path id).sum :=
    List.le_sum_of_mem (List.mem_map_of_mem hpath)
  obtain ⟨named, hnamed, rfl⟩ := List.mem_map.mp (hsub path hpath)
  rw [countsIn_readPath] at hle ⊢
  rw [h.toNat_count_read hnamed (hbefore named hnamed)]
  exact Hits.saturate_of_lt (Nat.lt_of_le_of_lt hle (hsum ▸ hlt))

/-- From the first installation to the last run of the hooks, with all writes successful: every
hits directory has, for each id, the sum of what the contexts with this directory counted, and
over all directories that are used, each taken once, this is the number of hits. Only a reader of
the empty path finds nothing; what was written with it is found in the directory `.`. -/
theorem read_acts {process : Nat} {files : FileSystem} {first : RecorderConfig}
    {steps : List Step}
    (hconfigs : ∀ config, .install config ∈ Step.install first :: (steps ++ [.execute]) →
      (∀ test ∈ config.test, HitFile.Fits test) ∧
        ∀ name, Path.extension? name = some HitsDir.hitExtension →
          files.fileAt? (goal config.hitsDir ++ [name]) = none)
    (hok : (begun process files).succeeds (.install first :: (steps ++ [.execute])) = true) :
    let all := Step.install first :: (steps ++ [.execute])
    let r := (begun process files).acts all
    (∀ path ∈ usedDirs all, path ≠ "" → (r.dir path).read.Positive ∧
      ∀ id, ((r.dir path).read.count id).toNat = Hits.saturate (r.countsIn path id)) ∧
    (∀ id, (r.dir "").read.count id = 0) ∧
    ∀ dirs : List String, (dirs.map goal).Nodup →
      (∀ path ∈ dirs, path ∈ (usedDirs all).map HitsDir.readPath) →
      (∀ path ∈ usedDirs all, goal path ∈ dirs.map goal) →
      ∀ id, all.count (.hit id) < UInt64.size →
        (dirs.map fun path => ((r.dir path).read.count id).toNat).sum = all.count (.hit id) := by
  intro all r
  have hfits : ∀ config, .install config ∈ Step.install first :: steps →
      ∀ test ∈ config.test, HitFile.Fits test := by
    intro config hmem
    refine (hconfigs config ?_).1
    rw [← List.cons_append]
    exact List.mem_append_left _ hmem
  obtain ⟨hkept, hused, htotal⟩ := kept_execute hfits hok
  have hbefore : ∀ path ∈ r.contexts.map (·.hitsDir), ∀ name,
      Path.extension? name = some HitsDir.hitExtension →
        files.fileAt? (goal path ++ [name]) = none := by
    intro path hpath
    obtain ⟨config, hmem, rfl⟩ := mem_usedDirs.mp (hused ▸ hpath)
    exact (hconfigs config hmem).2
  refine ⟨fun path hpath hne => ⟨HitsDir.positive_read _, fun id => ?_⟩, fun id => ?_, ?_⟩
  · rw [← hused] at hpath
    have hread := hkept.toNat_count_read hpath (hbefore path hpath) id
    rwa [HitsDir.readPath_of_ne hne] at hread
  · rw [dir, HitsDir.read_empty]
    rfl
  · intro dirs hnodup hsub hcover id hlt
    rw [← hused] at hsub hcover
    have hcount : r.total id = all.count (.hit id) := htotal id hlt
    rw [← hcount]
    exact hkept.sum_read hbefore hnodup hsub hcover (hcount ▸ hlt)

/-- Hits before and after another path to the directory `h` is installed. -/
def twoPaths : List Step := [.hit 7, .install (RecorderConfig.new "./h"), .hit 7]

theorem read_acts_twoPaths :
    let all := Step.install (RecorderConfig.new "h") :: (twoPaths ++ [.execute])
    let r := (begun 1 .empty).acts all
    ((begun 1 .empty).succeeds all = true ∧ usedDirs all = ["h", "./h"] ∧
      goal "./h" = goal "h") ∧
    ((r.dir "./h").read.count 7).toNat = Hits.saturate (r.countsIn "./h" 7) ∧
    (["h"].map fun path => ((r.dir path).read.count 7).toNat).sum = 2 := by
  intro all r
  have hok : (begun 1 .empty).succeeds all = true := by decide +kernel
  have hused : usedDirs all = ["h", "./h"] := rfl
  have hgoals : goal "h" = ["h"] ∧ goal "./h" = ["h"] := by decide +kernel
  have hempty : ∀ name : String, FileSystem.empty.fileAt? (["h"] ++ [name]) = none := fun _ => rfl
  have hconfigs : ∀ config, .install config ∈ all →
      (∀ test ∈ config.test, HitFile.Fits test) ∧
        ∀ name, Path.extension? name = some HitsDir.hitExtension →
          FileSystem.empty.fileAt? (goal config.hitsDir ++ [name]) = none := by
    intro config hmem
    simp only [all, twoPaths, List.cons_append, List.nil_append, List.mem_cons,
      Step.install.injEq, reduceCtorEq, List.not_mem_nil, or_false, false_or] at hmem
    obtain rfl | rfl := hmem
    · refine ⟨nofun, fun name _ => ?_⟩
      show FileSystem.empty.fileAt? (goal "h" ++ [name]) = none
      rw [hgoals.1, hempty]
    · refine ⟨nofun, fun name _ => ?_⟩
      show FileSystem.empty.fileAt? (goal "./h" ++ [name]) = none
      rw [hgoals.2, hempty]
  obtain ⟨hread, -, hsum⟩ := read_acts hconfigs hok
  refine ⟨⟨hok, hused, hgoals.2.trans hgoals.1.symm⟩, (hread "./h" ?_ (by decide)).2 7, ?_⟩
  · rw [hused]
    decide
  · refine hsum ["h"] ?_ ?_ ?_ 7 (by decide)
    · exact List.nodup_singleton _
    · rw [hused]
      decide
    · rw [hused]
      decide +kernel

/-- With the empty path as the hits directory, every write is successful, and yet a reader of that
directory finds nothing of the hit that was saved. -/
theorem undirected_not_read :
    let all : List Step := [.install (RecorderConfig.new ""), .hit 7, .execute]
    let r := (begun 1 .empty).acts all
    (∀ name, FileSystem.empty.fileAt? (goal "" ++ [name]) = none) ∧
      (begun 1 .empty).succeeds all = true ∧ usedDirs all = [""] ∧ all.count (.hit 7) = 1 ∧
      ((r.dir "").read.count 7).toNat = 0 ∧ ((r.dir ".").read.count 7).toNat = 1 := by
  refine ⟨fun _ => rfl, ?_, rfl, ?_, ?_, ?_⟩
  · decide +kernel
  · decide +kernel
  · decide +kernel
  · decide +kernel

end CilCoverage.Recorder
