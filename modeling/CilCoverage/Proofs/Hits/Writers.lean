/-
  Contexts that flush to one directory at the same time.

  Between any two steps of a context the others may go on, and a flush may stop
  at every step and never be taken up again. A reader finds of each context what
  its last completed flush wrote, and nothing else (`read_run`), because full
  counts replace those before and unfinished files are no hit files.
-/
import CilCoverage.Proofs.Hits.Writer
import Mathlib.Algebra.BigOperators.Fin

namespace CilCoverage.HitsDir

open FileSystem

/-- Contexts with one directory. -/
structure Writers (n : Nat) where
  path : String
  files : FileSystem
  writer : Fin n → Writer

/-- What happens next. -/
inductive Turn (n : Nat) where
  | hit (k : Fin n) (id : HitId)
  /-- A context takes a snapshot to flush, unless a flush of it is under way. -/
  | flush (k : Fin n)
  /-- A context makes the next step of its flush, or writes only a part of the bytes. -/
  | write (k : Fin n) (amount : Nat)
  /-- The flush of a context is given up. -/
  | stop (k : Fin n)

variable {n : Nat}

/-- The context that the turn is about. -/
def Turn.writer : Turn n → Fin n
  | hit k _ => k
  | flush k => k
  | write k _ => k
  | stop k => k

/-- The context counts a hit. -/
def Turn.isHit : Turn n → Bool
  | hit _ _ => true
  | _ => false

namespace Writers

/-- Contexts that have not flushed. -/
def start (path : String) (files : FileSystem) (contexts : Fin n → HitContext) : Writers n :=
  ⟨path, files, fun k => ⟨contexts k, none, none⟩⟩

/-- The directory that is read. -/
def dir (s : Writers n) : HitsDir := ⟨s.path, s.files⟩

/-- Name of the file of a context. -/
def name (s : Writers n) (k : Fin n) : String := (s.writer k).context.fileName

def set (s : Writers n) (k : Fin n) (w : Writer) : Writers n :=
  { s with writer := Function.update s.writer k w }

/-- Takes a turn. -/
def step (s : Writers n) : Turn n → Writers n
  | .hit k id => s.set k { s.writer k with context := (s.writer k).context.hit id 1 }
  | .flush k =>
    if (s.writer k).flush.isSome then s
    else
      let hits := (s.writer k).context.counters.snapshot
      s.set k { s.writer k with flush := some ⟨hits, (s.writer k).steps hits⟩ }
  | .write k amount =>
    match (s.writer k).flush with
    | some ⟨hits, now :: rest⟩ =>
      match (now.part amount).1.run s.files with
      | (files, .ok ()) =>
        { s.set k ((s.writer k).advance hits ((now.part amount).2 ++ rest)) with files }
      | (files, .error _) => { s.set k { s.writer k with flush := none } with files }
    | _ => s
  | .stop k => s.set k { s.writer k with flush := none }

/-- Takes turns one after the other. -/
def run (s : Writers n) (turns : List (Turn n)) : Writers n := turns.foldl step s

/-- No context is hit while a flush of it is under way. -/
def quiet (s : Writers n) : List (Turn n) → Bool
  | [] => true
  | turn :: rest =>
    (!turn.isHit || (s.writer turn.writer).flush.isNone) && quiet (s.step turn) rest

/-- Every context has its file, and there are no other hit files. -/
structure Sound (s : Writers n) : Prop where
  path : s.path ≠ ""
  writer : ∀ k, (s.writer k).Sound s.path s.files
  injective : Function.Injective s.name
  others : ∀ name, Path.extension? name = some hitExtension → (∀ k, name ≠ s.name k) →
    s.files.fileAt? (goal s.path ++ [name]) = none

variable {s : Writers n}

/-- One context changes, and no files but its own do. -/
theorem Sound.update (h : s.Sound) {k : Fin n} {w : Writer} {files : FileSystem}
    (hname : w.context.fileName = s.name k) (hw : w.Sound s.path files)
    (hchanges : s.files.ChangesAt files (places s.path (s.name k))) :
    Sound { s.set k w with files } := by
  have hself : (s.set k w).writer k = w := Function.update_self ..
  have hother : ∀ j, j ≠ k → (s.set k w).writer j = s.writer j :=
    fun j hj => Function.update_of_ne hj ..
  have hnames : ∀ j, ((s.set k w).writer j).context.fileName = s.name j := by
    intro j
    by_cases hj : j = k
    · rw [hj, hself, hname]
    · rw [hother j hj]
      rfl
  constructor
  · exact h.path
  · intro j
    show ((s.set k w).writer j).Sound s.path files
    by_cases hj : j = k
    · rw [hj, hself]
      exact hw
    · rw [hother j hj]
      have hne : s.name j ≠ s.name k := fun heq => hj (h.injective heq)
      exact (h.writer j).frame (h.writer k).isHitName hne hchanges
  · intro i j hij
    have hij : s.name i = s.name j := (hnames i).symm.trans (hij.trans (hnames j))
    exact h.injective hij
  · intro name hext hne
    have hold : ∀ j, name ≠ s.name j := fun j => hnames j ▸ hne j
    rw [← h.others name hext hold]
    exact hchanges.fileAt?_eq _ ((h.writer k).isHitName.notMem_places hext (concat_ne (hold k)))

theorem sound_write (h : s.Sound) (k : Fin n) (amount : Nat) :
    (s.step (.write k amount)).Sound := by
  have hk := h.writer k
  dsimp only [step]
  split
  · next hits now rest hflush =>
    have hremaining := hk.flush _ hflush
    have hscratch := hk.isHitName.goal_scratch (d := ⟨s.path, s.files⟩)
    have hplace := hk.isHitName.goal_filePath (d := ⟨s.path, s.files⟩)
    have hstep := hremaining.step amount
    rw [hscratch, hplace] at hstep
    split
    · next files hrun =>
      rw [hrun] at hstep
      obtain ⟨hleft, hchanges⟩ | ⟨hdone, hinPlace, hchanges⟩ := hstep rfl
      · rw [Writer.advance_of_ne_nil hleft.ne_nil]
        refine h.update (k := k) rfl ?_ (hchanges.mono (by simp [places, name]))
        have hkept : goal s.path ++ [s.name k] ∉ [goal s.path ++ [scratchName (s.name k)]] :=
          fun hmem => concat_ne (hk.isHitName.ne_scratchName hk.isHitName.extension?)
            (List.mem_singleton.mp hmem)
        exact {
          hk with
          reached := fun hsaved => (hk.reached hsaved).of_changesAt hchanges
          file := (hchanges.fileAt?_eq _ hkept).trans hk.file
          flush := fun flush hflush => by
            cases hflush
            exact hleft }
      · rw [hdone]
        refine h.update (k := k) rfl ?_ hchanges
        have hfile := hinPlace.file
        rw [hplace] at hfile
        exact {
          hk with
          reached := fun _ => hk.isHitName.reached (d := ⟨s.path, files⟩) h.path hinPlace.place
          file := hfile
          flush := fun _ hflush => by cases hflush }
    · next files e hrun =>
      have herror : ((now.part amount).1.run s.files).2 = .error e := by rw [hrun]
      have hchanges := WriteStep.changesAt_of_error herror
      rw [hrun] at hchanges
      refine h.update (k := k) rfl ?_ (hchanges.mono (List.nil_subset _))
      exact {
        hk with
        reached := fun hsaved => (hk.reached hsaved).of_changesAt hchanges
        file := (hchanges.fileAt?_eq _ List.not_mem_nil).trans hk.file
        flush := fun _ hflush => by cases hflush }
  · exact h

theorem sound_step (h : s.Sound) (turn : Turn n) : (s.step turn).Sound := by
  cases turn with
  | hit k id =>
    have hk := h.writer k
    refine h.update (k := k) rfl ?_ (.refl s.files _)
    exact { hk with lawful := Counters.lawful_incrementTimes hk.lawful id 1 }
  | flush k =>
    have hk := h.writer k
    dsimp only [step]
    split
    · exact h
    · refine h.update (k := k) rfl ?_ (.refl s.files _)
      refine { hk with flush := fun flush hflush => ?_ }
      cases hflush
      show Remaining _ _ _ _ ((s.writer k).steps _)
      unfold Writer.steps
      rw [hk.hitsDir]
      exact .all
  | write k amount => exact sound_write h k amount
  | stop k =>
    have hk := h.writer k
    refine h.update (k := k) rfl ?_ (.refl s.files _)
    exact { hk with flush := nofun }

theorem sound_run (h : s.Sound) (turns : List (Turn n)) : (s.run turns).Sound := by
  induction turns generalizing s with
  | nil => exact h
  | cons turn rest ih => exact ih (sound_step h turn)

theorem sound_start {path : String} {files : FileSystem} {contexts : Fin n → HitContext}
    (hpath : path ≠ "")
    (hnew : ∀ k, ∃ config process unique, config.hitsDir = path ∧
      contexts k = HitContext.new config process unique)
    (hfits : ∀ k, ∀ test ∈ (contexts k).test, HitFile.Fits test)
    (hdistinct : Function.Injective fun k => Path.join path (contexts k).fileName)
    (hempty : ∀ name, Path.extension? name = some hitExtension →
      files.fileAt? (goal path ++ [name]) = none) :
    (start path files contexts).Sound where
  path := hpath
  writer := fun k => by
    obtain ⟨config, process, unique, hpath, hk⟩ := hnew k
    have hhitsDir : (contexts k).hitsDir = path := by rw [hk]; exact hpath
    have hname : IsHitName (contexts k).fileName := by
      rw [hk]
      exact isHitName_newFileName config.runId process unique
    have hlawful : (contexts k).counters.Lawful := by
      rw [hk]
      exact Counters.lawful_zero
    exact {
      hitsDir := hhitsDir
      isHitName := hname
      fits := hfits k
      lawful := hlawful
      reached := fun h => absurd rfl h
      file := hempty _ hname.extension?
      flush := nofun }
  injective := fun i j hij => hdistinct (congrArg (Path.join path) hij)
  others := fun name hext _ => hempty name hext

/-! ## Reading -/

/-- The hit files of the contexts that have completed a flush. -/
def stored (s : Writers n) : List (String × HitFile) :=
  (List.finRange n).filterMap fun k =>
    (s.writer k).saved.map fun saved => (s.name k, (s.writer k).file saved.hits)

theorem mem_stored_iff {name : String} {file : HitFile} :
    (name, file) ∈ s.stored ↔ ∃ k saved, (s.writer k).saved = some saved ∧ s.name k = name ∧
      (s.writer k).file saved.hits = file := by
  unfold stored
  rw [List.mem_filterMap]
  constructor
  · rintro ⟨k, -, hk⟩
    obtain ⟨saved, hsaved, heq⟩ := Option.map_eq_some_iff.mp hk
    cases heq
    exact ⟨k, saved, hsaved, rfl, rfl⟩
  · rintro ⟨k, saved, hsaved, rfl, rfl⟩
    exact ⟨k, List.mem_finRange k, by rw [hsaved]; rfl⟩

theorem Sound.stores (h : s.Sound) : s.dir.Stores s.stored where
  nodup := by
    unfold stored
    rw [List.map_filterMap]
    refine (List.nodup_finRange n).filterMap fun i j name hi hj => h.injective ?_
    simp only [Option.map_map, Option.mem_def, Option.map_eq_some_iff, Function.comp] at hi hj
    obtain ⟨-, -, hi⟩ := hi
    obtain ⟨-, -, hj⟩ := hj
    exact hi.trans hj.symm
  readable := fun e he => by
    obtain ⟨k, saved, -, -, hfile⟩ := mem_stored_iff.mp he
    rw [← hfile]
    exact ⟨rfl, (h.writer k).fits⟩
  reached := fun hne => by
    obtain ⟨e, he⟩ := List.exists_mem_of_ne_nil _ hne
    obtain ⟨k, saved, hsaved, -⟩ := mem_stored_iff.mp he
    exact (h.writer k).reached (by rw [hsaved]; exact Option.some_ne_none saved)
  mem_iff := fun name data hext => by
    by_cases hname : ∃ k, name = s.name k
    · obtain ⟨k, rfl⟩ := hname
      have hfile := (h.writer k).file
      show s.files.fileAt? (goal s.path ++ [s.name k]) = some data ↔ _
      unfold name
      rw [hfile, Option.map_eq_some_iff]
      constructor
      · rintro ⟨saved, hsaved, hdata⟩
        exact ⟨_, mem_stored_iff.mpr ⟨k, saved, hsaved, rfl, rfl⟩, hdata⟩
      · rintro ⟨file, hmem, hdata⟩
        obtain ⟨j, saved, hsaved, hj, rfl⟩ := mem_stored_iff.mp hmem
        obtain rfl := h.injective hj
        exact ⟨saved, hsaved, hdata⟩
    · have hnone := h.others name hext fun k hk => hname ⟨k, hk⟩
      show s.files.fileAt? (goal s.path ++ [name]) = some data ↔ _
      rw [hnone]
      refine ⟨nofun, fun ⟨file, hmem, _⟩ => ?_⟩
      obtain ⟨k, -, -, hk, -⟩ := mem_stored_iff.mp hmem
      exact absurd ⟨k, hk.symm⟩ hname
  extension := fun e he => by
    obtain ⟨k, -, -, hk, -⟩ := mem_stored_iff.mp he
    rw [← hk]
    exact (h.writer k).isHitName.extension?

theorem sum_filterMap {α β : Type} (f : α → Option β) (g : β → Nat) (l : List α) :
    ((l.filterMap f).map g).sum = (l.map fun a => ((f a).map g).getD 0).sum := by
  induction l with
  | nil => rfl
  | cons a rest ih =>
    rw [List.filterMap_cons, List.map_cons, List.sum_cons]
    cases f a with
    | none => exact ih.trans (Nat.zero_add _).symm
    | some b => rw [List.map_cons, List.sum_cons, ih]; rfl

theorem Sound.toNat_count_read (h : s.Sound) (id : HitId) :
    (s.dir.read.count id).toNat = Hits.saturate (∑ k, (s.writer k).savedCount id) := by
  rw [h.stores.toNat_count_read, stored, sum_filterMap, Fin.sum_univ_def]
  refine congrArg (fun l => Hits.saturate (List.sum l)) (List.map_congr_left fun k _ => ?_)
  unfold Writer.savedCount
  cases (s.writer k).saved with
  | none => rfl
  | some saved => rfl

/-! ## What a turn does to a context -/

theorem writer_step_of_ne {turn : Turn n} {k : Fin n} (hk : k ≠ turn.writer) :
    (s.step turn).writer k = s.writer k := by
  have hset : ∀ w, (s.set turn.writer w).writer k = s.writer k :=
    fun w => Function.update_of_ne hk ..
  cases turn with
  | hit j id => exact hset _
  | flush j =>
    dsimp only [step]
    split
    · rfl
    · exact hset _
  | write j amount =>
    dsimp only [step]
    split
    · split
      · exact hset _
      · exact hset _
    · rfl
  | stop j => exact hset _

theorem becomes_step {turn : Turn n} (hturn : turn.isHit = false) :
    (s.writer turn.writer).Becomes ((s.step turn).writer turn.writer) := by
  have hset : ∀ k w, (s.set k w).writer k = w := fun k w => Function.update_self ..
  cases turn with
  | hit j id => cases hturn
  | flush j =>
    dsimp only [step, Turn.writer]
    split
    · exact .same
    · rw [hset]
      exact .flush _
  | write j amount =>
    dsimp only [step, Turn.writer]
    split
    · next hits now rest hflush =>
      split
      · rw [hset]
        exact .advance hflush _
      · rw [hset]
        exact .stop
    · exact .same
  | stop j =>
    show (s.writer j).Becomes ((s.set j _).writer j)
    rw [hset]
    exact .stop

theorem current_step (hsound : s.Sound) (h : ∀ k, (s.writer k).Current) {turn : Turn n}
    (hquiet : turn.isHit = true → (s.writer turn.writer).flush.isNone = true) (k : Fin n) :
    ((s.step turn).writer k).Current := by
  by_cases hk : k = turn.writer
  · subst hk
    cases hturn : turn.isHit with
    | false => exact (h _).becomes (hsound.writer _).lawful (becomes_step hturn)
    | true =>
      -- a hit changes what would be written, so no flush may be under way
      have hnone := hquiet hturn
      cases turn with
      | hit k id =>
        have hself : (s.step (.hit k id)).writer k =
            { s.writer k with context := (s.writer k).context.hit id 1 } :=
          Function.update_self ..
        show ((s.step (.hit k id)).writer k).Current
        rw [hself]
        refine { h k with flush := fun flush hflush => ?_ }
        have hsome : (s.writer k).flush = some flush := hflush
        rw [show (Turn.hit k id).writer = k from rfl, hsome] at hnone
        cases hnone
      | flush k => cases hturn
      | write k amount => cases hturn
      | stop k => cases hturn
  · rw [writer_step_of_ne hk]
    exact h k

theorem current_run (hsound : s.Sound) (h : ∀ k, (s.writer k).Current) {turns : List (Turn n)}
    (hquiet : s.quiet turns = true) (k : Fin n) : ((s.run turns).writer k).Current := by
  induction turns generalizing s with
  | nil => exact h k
  | cons turn rest ih =>
    obtain ⟨hturn, hrest⟩ := Bool.and_eq_true_iff.mp hquiet
    refine ih (sound_step hsound turn) (current_step hsound h fun hhit => ?_) hrest
    rwa [hhit] at hturn

theorem countWhenSaved_eq (h : ∀ k, (s.writer k).Current) (k : Fin n) (id : HitId) :
    (s.writer k).countWhenSaved id = (s.writer k).savedCount id := by
  unfold Writer.countWhenSaved Writer.savedCount
  cases hsaved : (s.writer k).saved with
  | none => rfl
  | some saved =>
    obtain ⟨hhits, hlawful⟩ := (h k).saved saved hsaved
    dsimp only
    rw [hhits, Counters.count_snapshot hlawful]

/-- Turns of contexts that were settled, without hits. -/
theorem repeats_run {first : Writers n} (h : ∀ k, (first.writer k).Repeats (s.writer k))
    {turns : List (Turn n)}
    (hturns : ∀ turn ∈ turns, turn.isHit = false ∧ (first.writer turn.writer).Settled)
    (k : Fin n) :
    (first.writer k).Repeats ((s.run turns).writer k) := by
  induction turns generalizing s with
  | nil => exact h k
  | cons turn rest ih =>
    refine ih (fun k => ?_) fun turn hturn => hturns turn (List.mem_cons_of_mem _ hturn)
    obtain ⟨hturn, hsettled⟩ := hturns turn List.mem_cons_self
    by_cases hk : k = turn.writer
    · rw [hk]
      exact (h _).becomes hsettled (becomes_step hturn)
    · rw [writer_step_of_ne hk]
      exact h k

theorem run_writes_of_none {k : Fin n} {amount : Nat} (hflush : (s.writer k).flush = none)
    (times : Nat) : s.run (List.replicate times (.write k amount)) = s := by
  induction times with
  | zero => rfl
  | succ times ih =>
    have hstep : s.step (.write k amount) = s := by
      dsimp only [step]
      rw [hflush]
    show (s.step (.write k amount)).run (List.replicate times (.write k amount)) = s
    rw [hstep, ih]

/-- Steps that are done one after the other, each as a whole. -/
theorem files_writes {k : Fin n} {amount : Nat} {hits : Hits} {steps : List WriteStep}
    (hflush : (s.writer k).flush = some ⟨hits, steps⟩)
    (hwhole : ∀ step ∈ steps, step.part amount = (step, [])) :
    (s.run (List.replicate steps.length (.write k amount))).files = (runSteps s.files steps).1 := by
  induction steps generalizing s with
  | nil => rfl
  | cons now rest ih =>
    have hself : ∀ w files, ({ s.set k w with files } : Writers n).writer k = w :=
      fun w files => Function.update_self ..
    have hstep : s.step (.write k amount) = match now.run s.files with
        | (files, .ok ()) => { s.set k ((s.writer k).advance hits rest) with files }
        | (files, .error _) => { s.set k { s.writer k with flush := none } with files } := by
      dsimp only [step]
      rw [hflush]
      dsimp only
      rw [hwhole now List.mem_cons_self]
      rfl
    show ((s.step (.write k amount)).run (List.replicate rest.length (.write k amount))).files = _
    rw [hstep, runSteps]
    split
    · next files hrun =>
      rw [hrun]
      dsimp only
      cases hrest : rest with
      | nil => rfl
      | cons next later =>
        rw [← hrest, Writer.advance_of_ne_nil (by rw [hrest]; exact List.cons_ne_nil _ _)]
        refine ih ?_ fun step hstep => hwhole step (List.mem_cons_of_mem _ hstep)
        rw [hself]
    · next files e hrun =>
      rw [hrun, run_writes_of_none (by rw [hself])]

/-- A flush that no other turn interrupts. -/
theorem files_flush {k : Fin n} {amount : Nat} (hflush : (s.writer k).flush = none)
    (hdir : (s.writer k).context.hitsDir = s.path)
    (hamount : ((s.writer k).file (s.writer k).context.counters.snapshot).toBytes.length ≤ amount) :
    (s.run (.flush k :: List.replicate 4 (.write k amount))).files =
      ((s.writer k).context.flush s.dir).1.files := by
  have hself : ∀ w, (s.set k w).writer k = w := fun w => Function.update_self ..
  have hstep : s.step (.flush k) = s.set k { s.writer k with
      flush := some ⟨(s.writer k).context.counters.snapshot,
        (s.writer k).steps (s.writer k).context.counters.snapshot⟩ } := by
    dsimp only [step]
    rw [hflush]
    rfl
  show ((s.step (.flush k)).run (List.replicate 4 (.write k amount))).files = _
  rw [hstep]
  have hwhole : ∀ step ∈ (s.writer k).steps (s.writer k).context.counters.snapshot,
      step.part amount = (step, []) := by
    intro step hmem
    simp only [Writer.steps, writeSteps, List.mem_cons, List.not_mem_nil, or_false] at hmem
    obtain rfl | rfl | rfl | rfl := hmem
    · rfl
    · rfl
    · exact if_neg (Nat.not_lt.mpr hamount)
    · rfl
  refine (files_writes (by rw [hself]) hwhole).trans ?_
  unfold Writer.steps
  rw [hdir]
  rfl

/-- However the contexts take turns, the directory has for every id the sum of what the contexts
wrote with their last completed flushes, and nothing else. Where no context is hit while it
flushes, this is what they had counted by then. Flushing again without new hits changes nothing. -/
theorem read_run {path : String} {files : FileSystem} {contexts : Fin n → HitContext}
    (hpath : path ≠ "")
    (hnew : ∀ k, ∃ config process unique, config.hitsDir = path ∧
      contexts k = HitContext.new config process unique)
    (hfits : ∀ k, ∀ test ∈ (contexts k).test, HitFile.Fits test)
    (hdistinct : Function.Injective fun k => Path.join path (contexts k).fileName)
    (hempty : ∀ name, Path.extension? name = some hitExtension →
      files.fileAt? (goal path ++ [name]) = none)
    (turns : List (Turn n)) :
    let s := (start path files contexts).run turns
    s.dir.read.Positive ∧
    (∀ id, (s.dir.read.count id).toNat = Hits.saturate (∑ k, (s.writer k).savedCount id)) ∧
    ((start path files contexts).quiet turns = true →
      ∀ id, (s.dir.read.count id).toNat = Hits.saturate (∑ k, (s.writer k).countWhenSaved id)) ∧
    ∀ more : List (Turn n),
      (∀ turn ∈ more, turn.isHit = false ∧ (s.writer turn.writer).Settled) →
      (s.run more).dir.read = s.dir.read := by
  intro s
  have hstart := sound_start hpath hnew hfits hdistinct hempty
  have hsound : s.Sound := sound_run hstart turns
  refine ⟨positive_read _, hsound.toNat_count_read, fun hquiet id => ?_, fun more hmore => ?_⟩
  · have hcurrent : ∀ k, (s.writer k).Current :=
      current_run hstart (fun k => ⟨nofun, nofun⟩) hquiet
    simp only [countWhenSaved_eq hcurrent]
    exact hsound.toNat_count_read id
  · refine Hits.ext_count (positive_read _) (positive_read _) fun id => UInt64.toNat_inj.mp ?_
    rw [(sound_run hsound more).toNat_count_read, hsound.toNat_count_read]
    have hrepeats := repeats_run (fun k => Writer.Repeats.refl (s.writer k)) hmore
    exact congrArg Hits.saturate (Finset.sum_congr rfl fun k _ => (hrepeats k).savedCount id)

/-- Two contexts of a process with the same directory. -/
def twoContexts (k : Fin 2) : HitContext := HitContext.new (RecorderConfig.new "h") 1 k.val

/-- Both contexts flush at the same time; the first one has flushed before, and stops now when a
part of its bytes is written. -/
def tornTurns : List (Turn 2) :=
  [.hit 0 7, .hit 0 7, .flush 0, .write 0 0, .hit 1 7, .flush 1, .write 1 0, .write 0 0,
    .write 0 10, .write 1 0, .write 0 100, .write 0 0, .hit 0 7, .flush 0, .write 0 0, .write 0 0,
    .write 0 5, .stop 0, .write 1 100, .write 1 0]

/-- The second context flushes again. -/
def againTurns : List (Turn 2) := [.flush 1, .write 1 0, .write 1 0, .write 1 100, .write 1 0]

theorem read_run_torn :
    let s := (start "h" .empty twoContexts).run tornTurns
    ((s.dir.read.count 7).toNat = 3 ∧ s.dir.read.Positive) ∧
    ((s.writer 0).context.counters.count 7 = 3 ∧ (s.writer 0).countWhenSaved 7 = 2) ∧
    (s.run againTurns).dir.read = s.dir.read := by
  intro s
  have hempty : ∀ name, Path.extension? name = some hitExtension →
      FileSystem.empty.fileAt? (goal "h" ++ [name]) = none := by
    intro name _
    have hgoal : goal "h" = ["h"] := by decide +kernel
    rw [hgoal]
    rfl
  have hdistinct : Function.Injective fun k => Path.join "h" (twoContexts k).fileName := by
    decide +kernel
  obtain ⟨hquiet, hcount, hfirst, hsecond, hsettled⟩ :
      (start "h" .empty twoContexts).quiet tornTurns = true ∧
      (s.writer 0).context.counters.count 7 = 3 ∧ (s.writer 0).countWhenSaved 7 = 2 ∧
      (s.writer 1).countWhenSaved 7 = 1 ∧ (s.writer 1).Settled := by
    decide +kernel
  have hagain : ∀ turn ∈ againTurns,
      turn.isHit = false ∧ (s.writer turn.writer).Settled := by
    intro turn hturn
    simp only [againTurns, List.mem_cons, List.not_mem_nil, or_false] at hturn
    obtain rfl | rfl | rfl | rfl | rfl := hturn <;> exact ⟨rfl, hsettled⟩
  have hnew : ∀ k, ∃ config process unique, config.hitsDir = "h" ∧
      twoContexts k = HitContext.new config process unique :=
    fun k => ⟨RecorderConfig.new "h", 1, k.val, rfl, rfl⟩
  have hfits : ∀ k, ∀ test ∈ (twoContexts k).test, HitFile.Fits test := fun k test => nofun
  obtain ⟨hpositive, -, hsum, hrepeat⟩ :=
    read_run (by decide) hnew hfits hdistinct hempty tornTurns
  have hread := hsum hquiet 7
  rw [Fin.sum_univ_two, hfirst, hsecond] at hread
  exact ⟨⟨hread, hpositive⟩, ⟨hcount, hfirst⟩, hrepeat againTurns hagain⟩

end Writers

end CilCoverage.HitsDir
