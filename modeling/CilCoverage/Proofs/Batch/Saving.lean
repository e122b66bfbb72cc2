/-
  The coverage map of a batch, saved and loaded back.

  A sequence that is recorded comes from a statement, whose lines are in order
  and whose decisions have several successors (`proper_sequence`), and its
  points have ids of a block that nobody else gets. Both are kept by every step
  of every job (`Job.records`) and so by every schedule (`Orderly.run`): the map
  of a batch is valid but for the directory that the configuration names
  (`Orderly.valid`). So its text gives the map back exactly if there is such a
  directory (`batch_loadsBack`).
-/
import CilCoverage.Proofs.Batch.Ids
import CilCoverage.Proofs.MapDocument
import Mathlib.Data.List.Flatten
import Mathlib.Data.List.Perm.Subperm

namespace CilCoverage

/-! ## Sequences of statements -/

namespace NumberedStatement

theorem length_branches {d : Decision} {e : Nat × List (Nat × HitId)} (h : Numbers d e)
    (code : Array (Instruction Nat)) :
    (condition code e).branches.length = d.successors.length := by
  rw [← h.successors, List.length_map]
  simp [condition]

/-- What a statement of a body is recorded as. -/
theorem proper_sequence {s : Statement} {n : NumberedStatement} (hn : NumbersAll s n)
    {is : List (Instruction Nat)} (hs : s.Sound is) (code : Array (Instruction Nat))
    (method : MethodInfo) : (n.sequence code method).Proper := by
  constructor
  · show n.span.point.startLine ≤ n.span.point.endLine
    rw [hn.span]
    exact hs.lines
  · intro c hc
    obtain ⟨e, he, rfl⟩ := List.mem_map.mp hc
    obtain ⟨d, hd, hde⟩ := Result.exists_mem_left hn.decisions he
    rw [length_branches hde code]
    exact (hs.decisions d hd).1.several

end NumberedStatement

namespace Instrumenter

open NumberedStatement

/-! ## Methods -/

/-- A block of ids was given out, and what is held after is held before or is new: proper
sequences whose points have ids of the block. -/
def Records (ids ids' : HitIds) (before after : List Sequence) : Prop :=
  ∃ count new, ids.next.toNat + count < UInt32.size ∧
    ids' = ⟨ids.next + UInt32.ofNat count⟩ ∧ after.Subperm (before ++ new) ∧
    (new.flatMap Sequence.hitIds).Sublist (HitIds.block ids.next count) ∧ ∀ s ∈ new, s.Proper

/-- The ids of a block may be lost. -/
theorem Records.lost {ids : HitIds} {count : Nat} (hroom : ids.next.toNat + count < UInt32.size)
    (held : List Sequence) : Records ids ⟨ids.next + UInt32.ofNat count⟩ held held := by
  refine ⟨count, [], hroom, rfl, ?_, List.nil_sublist _, by simp⟩
  rw [List.append_nil]

theorem Records.refl (ids : HitIds) (held : List Sequence) : Records ids ids held held := by
  have hlost : Records ids ⟨ids.next + UInt32.ofNat 0⟩ held held :=
    .lost ids.next.toNat_lt_size held
  have hzero : ids.next + UInt32.ofNat 0 = ids.next := ids.next.add_zero
  rwa [hzero] at hlost

/-- What was held may be given up. -/
theorem Records.forget {ids ids' : HitIds} {before after : List Sequence}
    (h : Records ids ids' before after) : Records ids ids' before [] := by
  obtain ⟨count, new, hroom, hids, -, hnew, hproper⟩ := h
  exact ⟨count, new, hroom, hids, List.nil_subperm, hnew, hproper⟩

/-- A method takes a block of ids, which may be empty; if it is instrumented, they are those of
its sequences. -/
theorem recorded (config : Config) (symbols : SymbolReader) (module : Module) (ids : HitIds)
    (probe : Token) (method : MethodDef) :
    let r := instrumentMethod config symbols module ids probe method
    ∃ count, ids.next.toNat + count < UInt32.size ∧ r.ids = ⟨ids.next + UInt32.ofNat count⟩ ∧
      ∀ sequences, r.outcome = .ok (.instrumented sequences) →
        sequences.flatMap (·.sequence.hitIds) = HitIds.block ids.next count ∧
          ∀ s ∈ sequences, s.sequence.Proper := by
  intro r
  have hids : r.ids = (newBody config symbols module.callEffect? ids probe method).ids := by
    rcases instrumentMethod_cases config symbols module ids probe method with
      ⟨reason, -, hr⟩ | ⟨bytes, sequences, module', -, -, hr⟩ | ⟨new, e, -, -, hr⟩ <;>
    exact congrArg MethodResult.ids hr
  have hresult : ∀ sequences, r.outcome = .ok (.instrumented sequences) → ∃ bytes,
      (newBody config symbols module.callEffect? ids probe method).result =
        .ok (bytes, sequences) := by
    intro sequences hinstrumented
    rcases instrumentMethod_cases config symbols module ids probe method with
      ⟨reason, -, hr⟩ | ⟨bytes, sequences', module', hok, -, hr⟩ | ⟨new, e, -, -, hr⟩
    · cases (congrArg MethodResult.outcome hr).symm.trans hinstrumented
    · cases (congrArg MethodResult.outcome hr).symm.trans hinstrumented
      exact ⟨bytes, hok⟩
    · cases (congrArg MethodResult.outcome hr).symm.trans hinstrumented
  rcases newBody_cases config symbols module.callEffect? ids probe method with
    ⟨reason, log, hskip, -⟩ | ⟨p, first, rest, is, relinked, hn⟩
  · rw [hskip] at hids hresult
    refine ⟨0, ids.next.toNat_lt_size, ?_, fun sequences hinstrumented => ?_⟩
    · rw [hids]
      exact congrArg HitIds.mk ids.next.add_zero.symm
    · obtain ⟨bytes, hbytes⟩ := hresult sequences hinstrumented
      cases hbytes
  · obtain ⟨rfl, rfl, hroom⟩ := HitIds.reserve_eq_some hn.reserved
    refine ⟨_, hroom, hids.trans hn.left, fun sequences hinstrumented => ?_⟩
    obtain ⟨bytes, hbytes⟩ := hresult sequences hinstrumented
    rw [hn.result] at hbytes
    obtain ⟨_, -, hpair⟩ := Result.map_eq_ok.mp hbytes
    obtain ⟨-, rfl⟩ := Prod.mk.inj hpair
    refine ⟨?_, fun s hs => ?_⟩
    · rw [hitIds_documentSequences, (number_spec _ _).2]
    · obtain ⟨n, hnumbered, rfl⟩ := List.mem_map.mp hs
      obtain ⟨statement, hstatement, hnumbers⟩ :=
        Result.exists_mem_left hn.rewriting.numbers hnumbered
      exact proper_sequence hnumbers (hn.rewriting.prepared.sound statement hstatement) _ _

/-- Working on a method records its sequences. -/
theorem records_run (config : Config) (symbols : SymbolReader) (probe : Token) (p : Progress)
    (method : MethodDef) :
    let r := p.run config symbols probe [method]
    Records p.ids r.1.ids (fileSequences p.files) (fileSequences r.1.files) := by
  intro r
  obtain ⟨count, hroom, hids, hrecorded⟩ := recorded config symbols p.module p.ids probe method
  have hr : r = p.run config symbols probe [method] := rfl
  simp only [Progress.run] at hr
  split at hr
  · rw [hr]
    dsimp only
    rw [hids]
    exact .lost hroom _
  · next sequences houtcome =>
    obtain ⟨hblock, hproper⟩ := hrecorded sequences houtcome
    rw [hr]
    refine ⟨count, sequences.map (·.sequence), hroom, hids,
      (perm_addSequences p.files sequences).subperm, ?_, ?_⟩
    · rw [List.flatMap_map, hblock]
    · simpa using hproper
  · rw [hr]
    dsimp only
    rw [hids]
    exact .lost hroom _

/-! ## Jobs -/

/-- What a step of a job records. -/
theorem Job.records (config : Config) (resolver : Resolver) (s : Shared) (j : Job) :
    Records s.ids (j.advance config resolver s).1.ids j.sequences
      (j.advance config resolver s).2.sequences := by
  obtain ⟨stage, hadvance, hturn⟩ := j.turn config resolver s
  obtain ⟨t, before⟩ := j
  rw [hadvance]
  generalize (Job.advance config resolver s ⟨t, before⟩).1.ids = ids at hturn ⊢
  cases hturn with
  | already => exact .refl _ _
  | refused hearly e => cases hearly <;> exact .refl _ _
  | lookedUp hearly names => cases hearly <;> exact .refl _ _
  | opened himport => exact .refl _ _
  | @worked probe opened p q method methods hrun =>
    have hrecords := records_run config t.symbols probe { p with ids := s.ids } method
    rw [hrun] at hrecords
    exact hrecords
  | @failed probe opened p q method methods e hrun =>
    have hrecords := records_run config t.symbols probe { p with ids := s.ids } method
    rw [hrun] at hrecords
    exact hrecords.forget
  | @closed probe opened p =>
    show Records s.ids s.ids (fileSequences p.files) (p.sourceFiles.flatMap (·.sequences))
    rw [flatMap_sourceFiles]
    exact .refl _ _
  | rested => exact .refl _ _

/-! ## Batches -/

/-- The sequences that the jobs hold are proper, and their points have ids that were given out,
none of them twice. -/
structure Orderly (b : Batch) : Prop where
  nodup : ((b.jobs.flatMap Job.sequences).flatMap Sequence.hitIds).Nodup
  given : ∀ id ∈ (b.jobs.flatMap Job.sequences).flatMap Sequence.hitIds,
    id.toNat < b.shared.ids.next.toNat
  proper : ∀ s ∈ b.jobs.flatMap Job.sequences, s.Proper

namespace Orderly

theorem atStart (ids : HitIds) (loader : Loader) (targets : List Target) :
    Orderly (.start ids loader targets) := by
  have hnone : (targets.map Job.start).flatMap Job.sequences = [] := by
    rw [List.flatMap_map, List.flatMap_eq_nil_iff]
    exact fun _ _ => rfl
  constructor <;>
  · rw [Batch.start, hnone]
    simp

/-- Where a job records sequences, the batch holds no others in addition. -/
theorem subperm_set {jobs : List Job} {k : Nat} {j j' : Job} {new : List Sequence}
    (hj : jobs[k]? = some j) (hafter : j'.sequences.Subperm (j.sequences ++ new)) :
    ((jobs.set k j').flatMap Job.sequences).Subperm (jobs.flatMap Job.sequences ++ new) := by
  obtain ⟨others, hbefore, hset⟩ := exists_others Job.sequences hj
  have hswap : (j.sequences ++ new ++ others).Perm (j.sequences ++ others ++ new) := by
    rw [List.append_assoc, List.append_assoc]
    exact List.perm_append_comm.append_left _
  exact (hset j').subperm.trans ((hafter.append (.refl others)).trans
    (hswap.trans (hbefore.symm.append_right new)).subperm)

/-- A turn of a job keeps order. -/
protected theorem advance {b : Batch} (h : Orderly b) (config : Config) (resolver : Resolver)
    (k : Nat) : Orderly (b.advance config resolver k) := by
  unfold Batch.advance
  split
  · exact h
  · next j hj =>
    obtain ⟨count, new, hroom, hids, hafter, hnew, hproper⟩ :=
      Job.records config resolver b.shared j
    have hnext : (j.advance config resolver b.shared).1.ids.next.toNat =
        b.shared.ids.next.toNat + count := by
      rw [hids]
      exact HitIds.toNat_add_ofNat hroom
    have hheld := subperm_set hj hafter
    -- what was held has ids from before the block, what is new has ids of the block
    have hblock : ((b.jobs.flatMap Job.sequences).flatMap Sequence.hitIds ++
        HitIds.block b.shared.ids.next count).Nodup := by
      refine List.nodup_append.mpr ⟨h.nodup, HitIds.nodup_block hroom, ?_⟩
      rintro id hold _ hid rfl
      have hlt := h.given id hold
      have hge := (HitIds.of_mem_block hroom hid).1
      omega
    obtain ⟨l, hperm, hsub⟩ := hheld
    have hsubIds : (l.flatMap Sequence.hitIds).Sublist
        ((b.jobs.flatMap Job.sequences).flatMap Sequence.hitIds ++
          HitIds.block b.shared.ids.next count) := by
      have hall := hsub.flatMap Sequence.hitIds
      rw [List.flatMap_append] at hall
      exact hall.trans (hnew.append_left _)
    have hpermIds := hperm.flatMap_right Sequence.hitIds
    refine ⟨hpermIds.nodup_iff.mp (hblock.sublist hsubIds), fun id hid => ?_, fun s hs => ?_⟩
    · dsimp only
      rw [hnext]
      rcases List.mem_append.mp (hsubIds.subset (hpermIds.mem_iff.mpr hid)) with hold | hid
      · have := h.given id hold
        omega
      · exact (HitIds.of_mem_block hroom hid).2
    · rcases List.mem_append.mp (hsub.subset (hperm.mem_iff.mpr hs)) with hold | hs
      · exact h.proper s hold
      · exact hproper s hs

/-- Whoever's turn it is, order is kept. -/
protected theorem run {b : Batch} (h : Orderly b) (config : Config) (resolver : Resolver)
    (schedule : List Nat) : Orderly (b.run config resolver schedule) := by
  induction schedule generalizing b with
  | nil => exact h
  | cons k rest ih => exact ih (h.advance config resolver k)

/-- The map of a batch that is done is valid if the configuration names a directory. -/
theorem valid {b : Batch} (h : Orderly b) {config : Config} (hdir : config.hitsDir ≠ "")
    {outcomes : List NamedOutcome} (houtcomes : b.outcomes? = some outcomes) :
    (coverageMap config outcomes).Valid := by
  have hsequences : (coverageMap config outcomes).sequences = b.jobs.flatMap Job.sequences := by
    rw [sequences_coverageMap, sequences_of_outcomes houtcomes]
  refine ⟨hdir, ?_, ?_⟩
  · rw [CoverageMap.hitIds_eq, hsequences]
    exact h.nodup
  · rw [hsequences]
    exact h.proper

end Orderly

/-- The map is saved and loaded back, unless the configuration names no directory for the hits. -/
def LoadsBack (config : Config) (outcomes : List NamedOutcome) : Prop :=
  CoverageMap.ofText (coverageMap config outcomes).toText =
    if config.hitsDir = "" then .error (.invalid .noHitsDir)
    else .ok (coverageMap config outcomes)

theorem Orderly.loadsBack {b : Batch} (h : Orderly b) (config : Config)
    {outcomes : List NamedOutcome} (houtcomes : b.outcomes? = some outcomes) :
    LoadsBack config outcomes := by
  rw [LoadsBack, CoverageMap.ofText_toText]
  split
  · next cause hcheck =>
    split
    · next hdir =>
      rw [CoverageMap.check_of_noHitsDir hdir] at hcheck
      cases hcheck
      rfl
    · next hdir =>
      rw [CoverageMap.check_eq_ok_iff.mpr (h.valid hdir houtcomes)] at hcheck
      cases hcheck
  · next hcheck =>
    have hdir : config.hitsDir ≠ "" := (CoverageMap.check_eq_ok_iff.mp hcheck).hitsDir
    rw [if_neg hdir]

/-- Everything that is recorded can be saved and loaded back, if the configuration names a directory
for the hits: if the targets are worked on one after the other, and in whatever order they take
turns. A map without such a directory is refused for that reason alone. -/
theorem batch_loadsBack (config : Config) (resolver : Resolver) (ids : HitIds) (loader : Loader)
    (targets : List Target) :
    LoadsBack config (instrumentAll config resolver ids loader targets).outcomes ∧
      ∀ schedule outcomes,
        ((Batch.start ids loader targets).run config resolver schedule).outcomes? =
          some outcomes → LoadsBack config outcomes := by
  have hrun : ∀ schedule, Orderly ((Batch.start ids loader targets).run config resolver schedule) :=
    fun schedule => (Orderly.atStart ids loader targets).run config resolver schedule
  refine ⟨?_, fun schedule outcomes houtcomes => (hrun schedule).loadsBack config houtcomes⟩
  obtain ⟨schedule, houtcomes, -⟩ := exists_schedule config resolver ids loader targets
  exact (hrun schedule).loadsBack config houtcomes

theorem batch_loadsBack_mixedTargets :
    let r := instrumentAll Config.standard (fun _ => .ok (some [])) ⟨5⟩ .new mixedTargets
    let m := coverageMap Config.standard r.outcomes
    m.hitIds.length = 4 ∧ CoverageMap.ofText m.toText = .ok m ∧
      ∃ outcomes, mixedBatch.outcomes? = some outcomes ∧
        CoverageMap.ofText (coverageMap Config.standard outcomes).toText =
          .ok (coverageMap Config.standard outcomes) := by
  obtain ⟨hsequential, hturns⟩ :=
    batch_loadsBack Config.standard (fun _ => .ok (some [])) ⟨5⟩ .new mixedTargets
  have hdone : mixedBatch.outcomes?.isSome = true := by decide +kernel
  obtain ⟨outcomes, houtcomes⟩ := Option.isSome_iff_exists.mp hdone
  have hdir : Config.standard.hitsDir ≠ "" := by decide
  have hturn := hturns _ outcomes houtcomes
  rw [LoadsBack, if_neg hdir] at hsequential hturn
  exact ⟨by decide +kernel, hsequential, outcomes, houtcomes, hturn⟩

/-- A configuration may name no directory for the hits. What is recorded with it cannot be
loaded. -/
theorem undirected_not_loaded :
    let config := Config.standard.applyAll [.hitsDir ""]
    let r := instrumentAll config (fun _ => .ok (some [])) .start .new mixedTargets
    let m := coverageMap config r.outcomes
    Config.ofText "\x7b\"hits_dir\": \"\"\x7d" = .ok config ∧ m.hitIds.length = 4 ∧
      CoverageMap.ofText m.toText = .error (.invalid .noHitsDir) := by
  intro config r m
  refine ⟨by decide +kernel, by decide +kernel, ?_⟩
  rw [CoverageMap.ofText_toText, CoverageMap.check_of_noHitsDir rfl]

end Instrumenter

end CilCoverage
