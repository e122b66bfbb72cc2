/-
  Counters that several threads use at once.

  A call that counts a hit takes one or two steps, between which any other
  thread may take its own; so may they between the counts that a snapshot
  reads. Looking up a count and the number of ids changes nothing. Whatever the
  order of the turns is, an id has as many hits as calls have finished
  (`Threads.Sound`), and a snapshot finds no fewer than had finished when it began.
-/
import CilCoverage.Proofs.Counters.Shards

namespace CilCoverage.Counters

/-! ## Calls -/

/-- How far a call has come. -/
inductive Progress where
  | begun
  /-- The id was not found, so that it has to be inserted. -/
  | missed
  | finished
  deriving DecidableEq

/-- A call that counts a hit. -/
structure Call where
  id : HitId
  progress : Progress
  deriving DecidableEq

/-- The next step of a call, under the lock of the shard of its id. -/
def Call.step (c : Counters) (call : Call) : Counters × Call :=
  match call.progress with
  | .begun =>
    match c.bump? call.id with
    | some more => (more, { call with progress := .finished })
    | none => (c, { call with progress := .missed })
  | .missed => (c.insert call.id, { call with progress := .finished })
  | .finished => (c, call)

/-- A call during which nothing else happens. -/
theorem Call.step_step (c : Counters) (id : HitId) :
    (Call.step c ⟨id, .begun⟩).2.step (Call.step c ⟨id, .begun⟩).1 =
      (c.increment id, ⟨id, .finished⟩) := by
  unfold increment Call.step
  cases hbump : c.bump? id with
  | none => rfl
  | some more => rfl

/-! ## Snapshots -/

/-- A snapshot that is being taken. -/
structure Scan where
  /-- Number of shards whose ids were listed. -/
  opened : Nat
  /-- The ids of the last of them whose counts were not read yet. -/
  pending : List HitId
  hits : Hits
  deriving DecidableEq

namespace Scan

/-- Nothing was read. -/
def start : Scan := ⟨0, [], .empty⟩

/-- Reads the count of an id, or lists the ids of the next shard. -/
def step (c : Counters) (scan : Scan) : Scan :=
  match scan.pending with
  | id :: rest => { scan with pending := rest, hits := scan.hits.add id (c.count id) }
  | [] =>
    if h : scan.opened < shardCount then
      { scan with opened := scan.opened + 1, pending := (c.shards[scan.opened]).keys }
    else scan

/-- All shards were read. -/
def Done (scan : Scan) : Prop := scan.opened = shardCount ∧ scan.pending = []

instance (scan : Scan) : Decidable scan.Done :=
  inferInstanceAs (Decidable (scan.opened = shardCount ∧ scan.pending = []))

/-- The count of the id was not read yet. -/
def Unread (scan : Scan) (id : HitId) : Prop :=
  scan.opened ≤ (shardIndex id).val ∨ id ∈ scan.pending

/-- What a snapshot has found, where `seen` tells which counts an id may have had meanwhile. -/
structure Finds (seen : HitId → UInt64 → Prop) (scan : Scan) : Prop where
  listed : ∀ id ∈ scan.pending, (shardIndex id).val < scan.opened
  nodup : scan.pending.Nodup
  positive : scan.hits.Positive
  unread : ∀ id, scan.Unread id → scan.hits.count id = 0
  read : ∀ id, ¬ scan.Unread id → seen id (scan.hits.count id)

variable {c : Counters} {seen : HitId → UInt64 → Prop} {scan : Scan}

theorem finds_start (seen : HitId → UInt64 → Prop) : start.Finds seen where
  listed := nofun
  nodup := List.nodup_nil
  positive := Hits.positive_empty
  unread := fun _ _ => rfl
  read := fun _ hid => absurd (.inl (Nat.zero_le _)) hid

theorem Finds.mono {later : HitId → UInt64 → Prop} (h : scan.Finds seen)
    (hle : ∀ id n, seen id n → later id n) : scan.Finds later :=
  { h with read := fun id hid => hle id _ (h.read id hid) }

/-- The count of an id is read. -/
theorem Finds.readCount {opened : Nat} {id : HitId} {rest : List HitId} {hits : Hits}
    (h : Finds seen ⟨opened, id :: rest, hits⟩) {n : UInt64} (hn : seen id n) :
    Finds seen ⟨opened, rest, hits.add id n⟩ := by
  have hunread : ∀ j, j ≠ id → (Unread ⟨opened, id :: rest, hits⟩ j ↔
      Unread ⟨opened, rest, hits.add id n⟩ j) := by
    intro j hj
    simp [Unread, hj]
  have hcount : ∀ j, j ≠ id → (hits.add id n).count j = hits.count j :=
    fun j hj => by rw [Hits.count_add, if_neg hj]
  constructor
  · exact fun j hj => h.listed j (List.mem_cons_of_mem _ hj)
  · exact (List.nodup_cons.mp h.nodup).2
  · exact Hits.positive_add h.positive id n
  · intro j hj
    by_cases hjid : j = id
    · subst hjid
      obtain hopened | hmem := hj
      · exact absurd (h.listed j List.mem_cons_self) (Nat.not_lt.mpr hopened)
      · exact absurd hmem (List.nodup_cons.mp h.nodup).1
    · exact (hcount j hjid).trans (h.unread j ((hunread j hjid).mpr hj))
  · intro j hj
    by_cases hjid : j = id
    · subst hjid
      have hzero : hits.count j = 0 := h.unread j (.inr List.mem_cons_self)
      dsimp only
      rwa [Hits.count_add, if_pos rfl, hzero, Hits.zero_sum]
    · have hold := h.read j fun hu => hj ((hunread j hjid).mp hu)
      rw [← hcount j hjid] at hold
      exact hold

/-- The ids of a shard are listed; the others that belong to it have no count. -/
theorem Finds.openShard {opened : Nat} {hits : Hits} (h : Finds seen ⟨opened, [], hits⟩)
    (hlawful : c.Lawful) (hseen : ∀ id, seen id (c.count id)) (hopened : opened < shardCount) :
    Finds seen ⟨opened + 1, (c.shards[opened]).keys, hits⟩ := by
  have hkeys : ∀ id, id ∈ (c.shards[opened]).keys ↔
      (shardIndex id).val = opened ∧ (c.entryOf? id).isSome = true := by
    intro id
    have hmem : id ∈ c.shards[(⟨opened, hopened⟩ : Fin shardCount)].keys ↔ _ :=
      mem_keys_iff hlawful
    rw [Fin.ext_iff] at hmem
    exact hmem
  have hunread : ∀ id, Unread ⟨opened, [], hits⟩ id ↔ opened ≤ (shardIndex id).val := by
    intro id
    simp [Unread]
  constructor
  · intro id hid
    have := ((hkeys id).mp hid).1
    dsimp only
    omega
  · exact OrderedMap.nodup_keys _
  · exact h.positive
  · intro id hid
    refine h.unread id ((hunread id).mpr ?_)
    obtain hlater | hmem := hid
    · exact Nat.le_of_succ_le hlater
    · exact Nat.le_of_eq ((hkeys id).mp hmem).1.symm
  · intro id hid
    by_cases hold : opened ≤ (shardIndex id).val
    · have hindex : (shardIndex id).val = opened := by
        have : ¬ opened + 1 ≤ (shardIndex id).val := fun hle => hid (.inl hle)
        omega
      have hnone : c.entryOf? id = none := by
        rw [← Option.not_isSome_iff_eq_none]
        exact fun hsome => hid (.inr ((hkeys id).mpr ⟨hindex, hsome⟩))
      have hcount := hseen id
      rw [count_eq, hnone] at hcount
      have hzero : hits.count id = 0 := h.unread id ((hunread id).mpr hold)
      dsimp only
      rwa [hzero]
    · exact h.read id fun hu => hold ((hunread id).mp hu)

theorem Finds.step (h : scan.Finds seen) (hlawful : c.Lawful)
    (hseen : ∀ id, seen id (c.count id)) : (scan.step c).Finds seen := by
  obtain ⟨opened, pending, hits⟩ := scan
  unfold Scan.step
  cases pending with
  | cons id rest => exact h.readCount (hseen id)
  | nil =>
    dsimp only
    split
    · next hopened => exact h.openShard hlawful hseen hopened
    · exact h

theorem Done.not_unread (h : scan.Done) (id : HitId) : ¬ scan.Unread id := by
  rintro (hopened | hmem)
  · rw [h.1] at hopened
    exact absurd (shardIndex id).isLt (Nat.not_lt.mpr hopened)
  · rw [h.2] at hmem
    cases hmem

/-- A snapshot during which nothing else happens. -/
theorem hits_of_undisturbed (hlawful : c.Lawful) (steps : Nat)
    (h : (Nat.repeat (step c) steps start).Done) :
    (Nat.repeat (step c) steps start).hits = c.snapshot := by
  have hfinds : ∀ n, (Nat.repeat (step c) n start).Finds fun id count => count = c.count id := by
    intro n
    induction n with
    | zero => exact finds_start _
    | succ n ih => exact ih.step hlawful fun _ => rfl
  refine Hits.ext_count (hfinds steps).positive (positive_snapshot c) fun id => ?_
  rw [(hfinds steps).read id (h.not_unread id), count_snapshot hlawful]

end Scan

/-! ## Threads -/

/-- Counters, and what threads do with them. -/
structure Threads where
  counters : Counters
  calls : List Call
  scans : List Scan

/-- What happens next. -/
inductive Turn where
  /-- A thread is about to count a hit. -/
  | call (id : HitId)
  /-- A call makes its next step. -/
  | advance (call : Nat)
  /-- A thread is about to take a snapshot. -/
  | scan
  /-- A snapshot makes its next step. -/
  | read (scan : Nat)

namespace Threads

/-- Nothing was counted and nothing is done. -/
def start : Threads := ⟨zero, [], []⟩

/-- Takes a turn. -/
def step (s : Threads) : Turn → Threads
  | .call id => { s with calls := s.calls ++ [⟨id, .begun⟩] }
  | .advance k =>
    match s.calls[k]? with
    | none => s
    | some call =>
      let (counters, call) := call.step s.counters
      { s with counters, calls := s.calls.set k call }
  | .scan => { s with scans := s.scans ++ [.start] }
  | .read k => { s with scans := s.scans.modify k (·.step s.counters) }

/-- Takes turns one after the other. -/
def run (s : Threads) (turns : List Turn) : Threads := turns.foldl step s

/-- Number of the calls of an id. -/
def begun (s : Threads) (id : HitId) : Nat := s.calls.countP fun call => call.id = id

/-- Number of the calls of an id that finished. -/
def finished (s : Threads) (id : HitId) : Nat :=
  s.calls.countP fun call => call.id = id ∧ call.progress = .finished

/-- All calls finished. -/
def Finished (s : Threads) : Prop := ∀ call ∈ s.calls, call.progress = .finished

instance (s : Threads) : Decidable s.Finished :=
  inferInstanceAs (Decidable (∀ call ∈ s.calls, call.progress = .finished))

/-- The counters say how many calls finished. -/
structure Sound (s : Threads) : Prop where
  lawful : s.counters.Lawful
  count_eq : ∀ id, s.counters.count id = UInt64.ofNat (s.finished id)
  entryOf_iff : ∀ id, (s.counters.entryOf? id).isSome = true ↔ 0 < s.finished id

variable {s : Threads}

theorem finished_le_begun (s : Threads) (id : HitId) : s.finished id ≤ s.begun id :=
  List.countP_mono_left fun call _ h => by
    simp only [decide_eq_true_eq] at h ⊢
    exact h.1

theorem finished_eq_begun (h : s.Finished) (id : HitId) : s.finished id = s.begun id := by
  refine List.countP_congr fun call hcall => ?_
  simp only [decide_eq_true_eq]
  exact ⟨And.left, fun hid => ⟨hid, h call hcall⟩⟩

theorem sound_start : start.Sound where
  lawful := lawful_zero
  count_eq := fun id => count_zero id
  entryOf_iff := fun id => by
    show (zero.entryOf? id).isSome = true ↔ 0 < 0
    rw [entryOf?_zero]
    simp

/-- A step of a call finishes it and counts its hit, or does neither. -/
theorem call_step_cases (c : Counters) (call : Call) :
    ((call.step c).1 = c ∧ ((call.step c).2.progress = .finished ↔ call.progress = .finished) ∧
      (call.step c).2.id = call.id) ∨
    (c.Counts call.id (call.step c).1 ∧ call.progress ≠ .finished ∧
      (call.step c).2 = { call with progress := .finished }) := by
  obtain ⟨id, progress⟩ := call
  unfold Call.step
  cases progress with
  | begun =>
    cases hbump : c.bump? id with
    | none => exact .inl (by simp)
    | some more => exact .inr (by simpa [hbump] using counts_bump? hbump)
  | missed => exact .inr (by simpa using counts_insert c id)
  | finished => exact .inl (by simp)

theorem countP_set_add {calls : List Call} {k : Nat} {call : Call} (h : calls[k]? = some call)
    (later : Call) (p : Call → Bool) :
    (calls.set k later).countP p + (if p call = true then 1 else 0) =
      calls.countP p + if p later = true then 1 else 0 := by
  obtain ⟨hk, rfl⟩ := List.getElem?_eq_some_iff.mp h
  rw [List.countP_set hk]
  by_cases hp : p calls[k] = true
  · have hpos : 0 < calls.countP p := List.countP_pos_iff.mpr ⟨_, List.getElem_mem hk, hp⟩
    rw [if_pos hp]
    omega
  · rw [if_neg hp]
    omega

/-- What a turn does to the counters and to the numbers of finished calls. -/
theorem step_cases (s : Threads) (turn : Turn) :
    ((s.step turn).counters = s.counters ∧ ∀ id, (s.step turn).finished id = s.finished id) ∨
    ∃ id, s.counters.Counts id (s.step turn).counters ∧
      ∀ j, (s.step turn).finished j = s.finished j + if j = id then 1 else 0 := by
  cases turn with
  | call id =>
    refine .inl ⟨rfl, fun j => ?_⟩
    show (s.calls ++ [_]).countP _ = _
    rw [List.countP_append]
    simp [finished]
  | scan => exact .inl ⟨rfl, fun _ => rfl⟩
  | read k => exact .inl ⟨rfl, fun _ => rfl⟩
  | advance k =>
    unfold step
    dsimp only
    split
    · exact .inl ⟨rfl, fun _ => rfl⟩
    · next call hk =>
      unfold finished
      dsimp only
      have hset := fun id => countP_set_add hk (call.step s.counters).2
        fun call => call.id = id ∧ call.progress = .finished
      obtain ⟨hsame, hprogress, hid⟩ | ⟨hcounts, hunfinished, hlater⟩ :=
        call_step_cases s.counters call
      · refine .inl ⟨hsame, fun id => ?_⟩
        have := hset id
        simp only [hid, hprogress] at this
        omega
      · refine .inr ⟨call.id, hcounts, fun id => ?_⟩
        have := hset id
        rw [hlater] at this ⊢
        simp only [hunfinished, and_false, decide_false, Bool.false_eq_true, if_false, and_true,
          decide_eq_true_eq] at this
        rw [Nat.add_zero] at this
        rw [this]
        simp only [eq_comm]

theorem finished_step (s : Threads) (turn : Turn) (id : HitId) :
    s.finished id ≤ (s.step turn).finished id := by
  obtain ⟨-, hsame⟩ | ⟨j, -, hmore⟩ := step_cases s turn
  · exact Nat.le_of_eq (hsame id).symm
  · rw [hmore]
    omega

theorem sound_step (h : s.Sound) (turn : Turn) : (s.step turn).Sound := by
  obtain ⟨hcounters, hsame⟩ | ⟨id, hcounts, hmore⟩ := step_cases s turn
  · constructor
    · rw [hcounters]; exact h.lawful
    · intro j; rw [hcounters, hsame]; exact h.count_eq j
    · intro j; rw [hcounters, hsame]; exact h.entryOf_iff j
  · constructor
    · exact hcounts.lawful h.lawful
    · intro j
      rw [hcounts.count_eq, hmore]
      by_cases hj : j = id
      · rw [if_pos hj, if_pos hj, h.count_eq, hj, UInt64.ofNat_add]; rfl
      · rw [if_neg hj, if_neg hj, h.count_eq]; rfl
    · intro j
      rw [hcounts.entryOf?_eq, hmore]
      by_cases hj : j = id
      · rw [if_pos hj, if_pos hj]; simp
      · rw [if_neg hj, if_neg hj]; exact h.entryOf_iff j

theorem sound_run (h : s.Sound) (turns : List Turn) : (s.run turns).Sound := by
  induction turns generalizing s with
  | nil => exact h
  | cons turn rest ih => exact ih (sound_step h turn)

/-! ## Snapshots of threads -/

/-- The counts that an id may have had since a snapshot began, when `before` calls of each id had
finished. -/
def Since (before : HitId → Nat) (s : Threads) (id : HitId) (n : UInt64) : Prop :=
  s.finished id < UInt64.size → before id ≤ n.toNat ∧ n.toNat ≤ s.finished id

theorem toNat_count (h : s.Sound) {id : HitId} (hlt : s.finished id < UInt64.size) :
    (s.counters.count id).toNat = s.finished id := by
  rw [h.count_eq]
  exact UInt64.toNat_ofNat_of_lt hlt

variable {before : HitId → Nat}

theorem since_step (turn : Turn) (id : HitId) (n : UInt64) (h : Since before s id n) :
    Since before (s.step turn) id n := by
  intro hlt
  have hle := finished_step s turn id
  have hbounds := h (Nat.lt_of_le_of_lt hle hlt)
  exact ⟨hbounds.1, Nat.le_trans hbounds.2 hle⟩

theorem finds_step {k : Nat} (hsound : s.Sound) (hbefore : ∀ id, before id ≤ s.finished id)
    (h : ∀ scan, s.scans[k]? = some scan → scan.Finds (Since before s)) (turn : Turn)
    (scan : Scan) (hscan : (s.step turn).scans[k]? = some scan) :
    scan.Finds (Since before (s.step turn)) := by
  cases turn with
  | call id => exact (h scan hscan).mono (since_step _)
  | advance j =>
    have hsame : (s.step (.advance j)).scans = s.scans := by
      unfold Threads.step
      dsimp only
      split
      · rfl
      · rfl
    rw [hsame] at hscan
    exact (h scan hscan).mono (since_step _)
  | scan =>
    have hscan : (s.scans ++ [Scan.start])[k]? = some scan := hscan
    rw [List.getElem?_append] at hscan
    split at hscan
    · exact (h scan hscan).mono (since_step .scan)
    · obtain rfl := List.mem_singleton.mp (List.mem_of_getElem? hscan)
      exact Scan.finds_start _
  | read j =>
    have hscan : (s.scans.modify j (·.step s.counters))[k]? = some scan := hscan
    rw [List.getElem?_modify] at hscan
    obtain ⟨old, hold, rfl⟩ := Option.map_eq_some_iff.mp hscan
    have hseen : ∀ id, Since before s id (s.counters.count id) := by
      intro id hlt
      rw [toNat_count hsound hlt]
      exact ⟨hbefore id, Nat.le_refl _⟩
    refine Scan.Finds.mono ?_ (since_step (.read j))
    split
    · exact (h old hold).step hsound.lawful hseen
    · exact h old hold

theorem finds_run {k : Nat} (hsound : s.Sound) (hbefore : ∀ id, before id ≤ s.finished id)
    (h : ∀ scan, s.scans[k]? = some scan → scan.Finds (Since before s)) (turns : List Turn)
    (scan : Scan) (hscan : (s.run turns).scans[k]? = some scan) :
    scan.Finds (Since before (s.run turns)) := by
  induction turns generalizing s with
  | nil => exact h scan hscan
  | cons turn rest ih =>
    exact ih (sound_step hsound turn)
      (fun id => Nat.le_trans (hbefore id) (finished_step s turn id))
      (finds_step hsound hbefore h turn) hscan

/-- Ids with an entry are those of the calls that finished. -/
theorem size_eq (hsound : s.Sound) (h : s.Finished) :
    s.counters.size = (s.calls.map (·.id)).dedup.length := by
  have hmem : ∀ id, id ∈ s.counters.ids ↔ id ∈ (s.calls.map (·.id)).dedup := by
    intro id
    rw [mem_ids_iff hsound.lawful, hsound.entryOf_iff, finished_eq_begun h, begun,
      List.countP_pos_iff, List.mem_dedup, List.mem_map]
    simp only [decide_eq_true_eq]
  have hperm := (List.perm_ext_iff_of_nodup (nodup_ids hsound.lawful)
    (List.nodup_dedup _)).mpr hmem
  rw [← length_ids, hperm.length_eq]

/-- However calls and snapshots take turns, no hit is lost and none is counted twice. Once all
calls have finished, the counters and their snapshot have the number of calls of each id, and
there are as many ids as were called. A snapshot that is taken meanwhile has no fewer hits of an
id than calls had finished when it began, and no more than had begun when it was done. -/
theorem run_counts (turns more : List Turn) :
    let s := start.run turns
    let later := (s.step .scan).run more
    (∀ id, s.finished id < UInt64.size → (s.counters.count id).toNat = s.finished id) ∧
    (s.Finished →
      s.counters.snapshot.Positive ∧
      s.counters.size = (s.calls.map (·.id)).dedup.length ∧
      ∀ id, s.begun id < UInt64.size →
        (s.counters.count id).toNat = s.begun id ∧
        (s.counters.snapshot.count id).toNat = s.begun id) ∧
    ∀ scan, later.scans[s.scans.length]? = some scan → scan.Done →
      ∀ id, later.begun id < UInt64.size →
        s.finished id ≤ (scan.hits.count id).toNat ∧
        (scan.hits.count id).toNat ≤ later.begun id := by
  intro s later
  have hsound : s.Sound := sound_run sound_start turns
  refine ⟨fun id => toNat_count hsound, fun hfinished => ?_, fun scan hscan hdone id hlt => ?_⟩
  · refine ⟨positive_snapshot _, size_eq hsound hfinished, fun id hlt => ?_⟩
    rw [count_snapshot hsound.lawful]
    rw [← finished_eq_begun hfinished] at hlt ⊢
    exact ⟨toNat_count hsound hlt, toNat_count hsound hlt⟩
  · have hbegan : ∀ scan, (s.step .scan).scans[s.scans.length]? = some scan →
        scan.Finds (Since s.finished (s.step .scan)) := by
      intro scan hscan
      have hscan : (s.scans ++ [Scan.start])[s.scans.length]? = some scan := hscan
      rw [List.getElem?_concat_length] at hscan
      cases hscan
      exact Scan.finds_start _
    have hfinds :=
      finds_run (sound_step hsound .scan) (finished_step s .scan) hbegan more scan hscan
    have hle := finished_le_begun later id
    have hbounds := hfinds.read id (hdone.not_unread id) (Nat.lt_of_le_of_lt hle hlt)
    exact ⟨hbounds.1, Nat.le_trans hbounds.2 hle⟩

/-- Two calls look for the same id before either inserts it; one of them has finished. -/
def racingTurns : List Turn := [.call 7, .call 7, .advance 0, .advance 1, .advance 1]

/-- A snapshot, while the other call finishes after the count was read. -/
def readingTurns : List Turn :=
  List.replicate 9 (.read 0) ++ .advance 0 :: List.replicate 56 (.read 0)

/-- The counts that the snapshot has in the end. -/
def readScan : Scan := ⟨shardCount, [], Hits.empty.add 7 1⟩

theorem run_counts_racing :
    let s := start.run racingTurns
    let later := (s.step .scan).run readingTurns
    ((s.counters.count 7).toNat = 1 ∧ s.finished 7 < UInt64.size) ∧
    (later.Finished ∧ later.begun 7 < UInt64.size ∧ (later.counters.count 7).toNat = 2 ∧
      (later.counters.snapshot.count 7).toNat = 2 ∧ later.counters.size = 1) ∧
    later.scans[s.scans.length]? = some readScan ∧ readScan.Done ∧
    s.finished 7 ≤ (readScan.hits.count 7).toNat ∧
    (readScan.hits.count 7).toNat ≤ later.begun 7 := by
  intro s later
  have hfinished : s.finished 7 = 1 := by decide +kernel
  have hlater : later = start.run (racingTurns ++ .scan :: readingTurns) := by
    unfold later s run
    rw [List.foldl_append, List.foldl_cons]
  have hbegun : later.begun 7 = 2 := by decide +kernel
  have hdone : later.Finished := by decide +kernel
  have hscan : later.scans[s.scans.length]? = some readScan := by decide +kernel
  have hids : (later.calls.map (·.id)).dedup.length = 1 := by decide +kernel
  obtain ⟨hcount, -, hread⟩ := run_counts racingTurns readingTurns
  obtain ⟨-, hall, -⟩ := run_counts (racingTurns ++ .scan :: readingTurns) []
  rw [← hlater] at hall
  obtain ⟨-, hsize, hcounts⟩ := hall hdone
  have hlt : later.begun 7 < UInt64.size := by rw [hbegun]; decide
  refine ⟨⟨(hcount 7 (by rw [hfinished]; decide)).trans hfinished, by rw [hfinished]; decide⟩,
    ⟨hdone, hlt, (hcounts 7 hlt).1.trans hbegun, (hcounts 7 hlt).2.trans hbegun,
      hsize.trans hids⟩, hscan, by decide, hread readScan hscan (by decide) 7 hlt⟩

end Threads

end CilCoverage.Counters
