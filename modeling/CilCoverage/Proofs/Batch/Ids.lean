/-
  The hit ids of a batch.

  What the jobs of a batch hold of ids is what was given out since the start,
  each id once (`Accounts`). A step of a job takes a block of ids, which may be
  empty, and holds these in addition (`Job.takes`); whether a method was
  skipped, an assembly failed or the ids ran out makes no difference. So it is
  kept by every schedule (`Accounts.run`), and once all jobs are done, the ids
  they hold are those of the coverage map (`hitIds_coverageMap`).
-/
import CilCoverage.Proofs.Batch.Sequences

namespace CilCoverage

/-! ## Taking ids -/

namespace HitIds

/-- A block of ids was given out, and what was held before is held with it. -/
def Takes (ids ids' : HitIds) (held held' : List HitId) : Prop :=
  ∃ count, ids.next.toNat + count < UInt32.size ∧ ids' = ⟨ids.next + UInt32.ofNat count⟩ ∧
    held'.Perm (held ++ block ids.next count)

theorem Takes.refl (ids : HitIds) (held : List HitId) : Takes ids ids held held := by
  refine ⟨0, ids.next.toNat_lt_size, ?_, ?_⟩
  · exact congrArg HitIds.mk ids.next.add_zero.symm
  · rw [block, List.range_zero, List.map_nil, List.append_nil]

end HitIds

/-! ## Ids by file -/

/-- The ids of sequences that are kept by file. -/
def fileIds (files : OrderedMap String (List Sequence)) : List HitId :=
  files.entries.flatMap fun e => e.2.flatMap Sequence.hitIds

theorem fileIds_eq (files : OrderedMap String (List Sequence)) :
    fileIds files = (fileSequences files).flatMap Sequence.hitIds := by
  rw [fileSequences, List.flatMap_assoc]
  rfl

/-- Adding sequences to their files adds their ids. -/
theorem perm_fileIds_addSequences (files : OrderedMap String (List Sequence))
    (sequences : List DocumentSequence) :
    (fileIds (Instrumenter.Progress.addSequences files sequences)).Perm
      (fileIds files ++ sequences.flatMap (·.sequence.hitIds)) := by
  have hids := (perm_addSequences files sequences).flatMap_right Sequence.hitIds
  rw [List.flatMap_append, List.flatMap_map] at hids
  rw [fileIds_eq, fileIds_eq]
  exact hids

namespace Instrumenter

/-- The ids that a target ended up with. -/
def outcomeIds : Except InstrumentError AssemblyOutcome → List HitId
  | .ok (.instrumented assembly) =>
    assembly.sourceFiles.flatMap fun f => f.sequences.flatMap Sequence.hitIds
  | _ => []

theorem outcomeIds_eq (outcome : Except InstrumentError AssemblyOutcome) :
    outcomeIds outcome = (outcomeSequences outcome).flatMap Sequence.hitIds := by
  rcases outcome with e | assembly | _
  · rfl
  · exact List.flatMap_assoc.symm
  · rfl

theorem outcomeIds_sourceFiles (name hash : String) (p : Progress) :
    outcomeIds (.ok (.instrumented ⟨name, hash, p.sourceFiles⟩)) = fileIds p.files := by
  rw [outcomeIds_eq, fileIds_eq, ← flatMap_sourceFiles]
  rfl

/-! ## The ids of a job -/

namespace Job

/-- The ids that a job holds: those of the sequences that it has collected. -/
def held (j : Job) : List HitId :=
  match j.stage with
  | .waiting | .resolving _ => []
  | .working _ _ p _ => fileIds p.files
  | .finished outcome _ => outcomeIds outcome

/-- The methods that a job still has to work on have few clauses, and the module knows them. -/
def Sound (j : Job) : Prop :=
  match j.stage with
  | .waiting | .resolving _ => ∀ m ∈ j.target.module.methods, m.FewClauses
  | .working _ _ p methods =>
    ∀ m ∈ methods, m.FewClauses ∧ (p.module.method? m.token).isSome = true
  | .finished _ _ => True

end Job

/-- Working on a method takes the ids of its points. -/
theorem takes_run (config : Config) (symbols : SymbolReader) (probe : Token) {p : Progress}
    {method : MethodDef} (hfew : method.FewClauses)
    (hknown : (p.module.method? method.token).isSome = true) :
    ∃ q, p.run config symbols probe [method] = (q, none) ∧
      p.ids.Takes q.ids (fileIds p.files) (fileIds q.files) := by
  have heffect := effect_of_instrumentMethod config symbols p.module p.ids probe hfew
  simp only [Progress.run]
  generalize instrumentMethod config symbols p.module p.ids probe method = r at heffect
  cases heffect with
  | skipped reason log => exact ⟨_, rfl, .refl _ _⟩
  | refused e ids' log hunknown =>
    rw [hknown] at hunknown
    cases hunknown
  | @instrumented sequences module' bytes count log hreplaced hroom hids =>
    refine ⟨_, rfl, count, hroom, rfl, ?_⟩
    rw [← hids]
    exact perm_fileIds_addSequences p.files sequences

/-- What a step of a job does to the ids: those it takes are held by the job from then on. -/
theorem Job.takes (config : Config) (resolver : Resolver) {s : Shared} {j : Job}
    (hsound : j.Sound) :
    (j.advance config resolver s).2.Sound ∧
      s.ids.Takes (j.advance config resolver s).1.ids j.held
        (j.advance config resolver s).2.held := by
  obtain ⟨stage, hadvance, hturn⟩ := j.turn config resolver s
  obtain ⟨t, before⟩ := j
  rw [hadvance]
  generalize (Job.advance config resolver s ⟨t, before⟩).1.ids = ids at hturn ⊢
  cases hturn with
  | already => exact ⟨trivial, .refl _ _⟩
  | refused hearly e => cases hearly <;> exact ⟨trivial, .refl _ _⟩
  | lookedUp hearly names => cases hearly <;> exact ⟨hsound, .refl _ _⟩
  | @opened probe opened himport =>
    have hmethods : opened.methods = t.module.methods := Module.methods_of_importProbe himport
    refine ⟨?_, .refl _ _⟩
    intro m hm
    exact ⟨hsound m (hmethods ▸ hm), Module.isSome_method?_of_mem hm⟩
  | @worked probe opened p q method methods hrun =>
    obtain ⟨hfew, hknown⟩ := hsound method List.mem_cons_self
    -- the ids that the job saw last may be gone; it works with those that are left now
    obtain ⟨q', hrun', htakes⟩ :=
      takes_run config t.symbols probe (p := { p with ids := s.ids }) hfew hknown
    cases hrun.symm.trans hrun'
    refine ⟨fun m hm => ?_, htakes⟩
    obtain ⟨hfew', hknown'⟩ := hsound m (List.mem_cons_of_mem _ hm)
    exact ⟨hfew', by rw [known_of_run hrun]; exact hknown'⟩
  | @failed probe opened p q method methods e hrun =>
    -- a method that has few clauses and is known makes no assembly fail
    obtain ⟨hfew, hknown⟩ := hsound method List.mem_cons_self
    obtain ⟨q', hrun', -⟩ :=
      takes_run config t.symbols probe (p := { p with ids := s.ids }) hfew hknown
    cases hrun.symm.trans hrun'
  | @closed probe opened p =>
    let assembly : InstrumentedAssembly :=
      ⟨opened.name, (Sha256.digest opened.image).toHex, p.sourceFiles⟩
    have hids : outcomeIds (.ok (.instrumented assembly)) = fileIds p.files :=
      outcomeIds_sourceFiles _ _ p
    have htakes : s.ids.Takes s.ids (fileIds p.files)
        (outcomeIds (.ok (.instrumented assembly))) := hids ▸ .refl _ _
    exact ⟨trivial, htakes⟩
  | rested => exact ⟨trivial, .refl _ _⟩

/-! ## The ids of a batch -/

/-- The jobs hold the ids that were given out since the start, each of them once. -/
structure Accounts (start : HitIds) (b : Batch) : Prop where
  le : start.next.toNat ≤ b.shared.ids.next.toNat
  perm : ((b.jobs.flatMap Job.held).map UInt32.toNat).Perm
    (List.range' start.next.toNat (b.shared.ids.next.toNat - start.next.toNat))
  sound : ∀ j ∈ b.jobs, j.Sound

namespace Accounts

theorem atStart {targets : List Target}
    (hfew : ∀ t ∈ targets, ∀ m ∈ t.module.methods, m.FewClauses) (ids : HitIds)
    (loader : Loader) : Accounts ids (.start ids loader targets) := by
  refine ⟨Nat.le_refl _, ?_, ?_⟩
  · have hnone : (targets.map Job.start).flatMap Job.held = [] := by
      rw [List.flatMap_map, List.flatMap_eq_nil_iff]
      exact fun _ _ => rfl
    show (((targets.map Job.start).flatMap Job.held).map UInt32.toNat).Perm
      (List.range' ids.next.toNat (ids.next.toNat - ids.next.toNat))
    rw [hnone, Nat.sub_self]
    exact .refl _
  · intro j hj
    obtain ⟨t, ht, rfl⟩ := List.mem_map.mp hj
    exact hfew t ht

/-- A turn of a job keeps the account. -/
protected theorem advance {start : HitIds} {b : Batch} (h : Accounts start b) (config : Config)
    (resolver : Resolver) (k : Nat) : Accounts start (b.advance config resolver k) := by
  unfold Batch.advance
  split
  · exact h
  · next j hj =>
    obtain ⟨hsound, count, hroom, hids, hheld⟩ :=
      Job.takes config resolver (s := b.shared) (h.sound j (List.mem_of_getElem? hj))
    have hnext : (j.advance config resolver b.shared).1.ids.next.toNat =
        b.shared.ids.next.toNat + count := by
      rw [hids]
      exact HitIds.toNat_add_ofNat hroom
    have hle := h.le
    refine ⟨by dsimp only; omega, ?_, ?_⟩
    · -- the block that was taken follows what was given out before
      have hrange : List.range' start.next.toNat
          ((j.advance config resolver b.shared).1.ids.next.toNat - start.next.toNat) =
          List.range' start.next.toNat (b.shared.ids.next.toNat - start.next.toNat) ++
            (HitIds.block b.shared.ids.next count).map UInt32.toNat := by
        rw [HitIds.map_toNat_block hroom, hnext]
        exact HitIds.range'_add_sub hle count
      rw [hrange]
      obtain ⟨others, hbefore, hafter⟩ := exists_others Job.held hj
      have hjobs : ((b.jobs.set k (j.advance config resolver b.shared).2).flatMap Job.held).Perm
          (b.jobs.flatMap Job.held ++ HitIds.block b.shared.ids.next count) := by
        refine ((hafter _).trans (hheld.append_right _)).trans ?_
        rw [List.append_assoc]
        refine (List.perm_append_comm.append_left _).trans ?_
        rw [← List.append_assoc]
        exact hbefore.symm.append_right _
      have hnumbers := hjobs.map UInt32.toNat
      rw [List.map_append] at hnumbers
      exact hnumbers.trans (h.perm.append_right _)
    · intro j' hj'
      rcases List.mem_or_eq_of_mem_set hj' with hmem | rfl
      · exact h.sound j' hmem
      · exact hsound

/-- Whoever's turn it is, the account is kept. -/
protected theorem run {start : HitIds} {b : Batch} (h : Accounts start b) (config : Config)
    (resolver : Resolver) (schedule : List Nat) :
    Accounts start (b.run config resolver schedule) := by
  induction schedule generalizing b with
  | nil => exact h
  | cons k rest ih => exact ih (h.advance config resolver k)

end Accounts

theorem held_eq (j : Job) : j.held = j.sequences.flatMap Sequence.hitIds := by
  obtain ⟨t, stage⟩ := j
  cases stage with
  | waiting => rfl
  | resolving names => rfl
  | working probe opened p methods => exact fileIds_eq _
  | finished outcome module => exact outcomeIds_eq _

/-- The ids of the coverage map are those of the jobs that are done. -/
theorem hitIds_coverageMap (config : Config) {jobs : List Job} {outcomes : List NamedOutcome}
    (h : jobs.mapM Job.outcome? = some outcomes) :
    (coverageMap config outcomes).hitIds = jobs.flatMap Job.held := by
  rw [CoverageMap.hitIds_eq, sequences_coverageMap, ← sequences_of_outcomes h, List.flatMap_assoc]
  exact List.flatMap_congr fun j _ => (held_eq j).symm

/-- The coverage map of these outcomes lists the ids that were given out, each of them once. -/
structure ListsAll (config : Config) (ids left : HitIds) (outcomes : List NamedOutcome) :
    Prop where
  le : ids.next.toNat ≤ left.next.toNat
  perm : ((coverageMap config outcomes).hitIds.map UInt32.toNat).Perm
    (List.range' ids.next.toNat (left.next.toNat - ids.next.toNat))

theorem Accounts.listsAll {ids : HitIds} {b : Batch} (h : Accounts ids b) (config : Config)
    {outcomes : List NamedOutcome} (houtcomes : b.outcomes? = some outcomes) :
    ListsAll config ids b.shared.ids outcomes := by
  refine ⟨h.le, ?_⟩
  rw [hitIds_coverageMap config houtcomes]
  exact h.perm

/-- The hit ids of a batch are those that were given out, and no id is used twice or lost: if the
targets are worked on one after the other, and in whatever order they take turns. -/
theorem batch_listsAll (config : Config) (resolver : Resolver) (ids : HitIds) (loader : Loader)
    {targets : List Target} (hfew : ∀ t ∈ targets, ∀ m ∈ t.module.methods, m.FewClauses) :
    let r := instrumentAll config resolver ids loader targets
    ListsAll config ids r.ids r.outcomes ∧
      ∀ schedule outcomes,
        let b := (Batch.start ids loader targets).run config resolver schedule
        b.outcomes? = some outcomes → ListsAll config ids b.shared.ids outcomes := by
  intro r
  have hrun : ∀ schedule,
      Accounts ids ((Batch.start ids loader targets).run config resolver schedule) :=
    fun schedule => (Accounts.atStart hfew ids loader).run config resolver schedule
  refine ⟨?_, fun schedule outcomes houtcomes => (hrun schedule).listsAll config houtcomes⟩
  obtain ⟨schedule, houtcomes, hleft⟩ := exists_schedule config resolver ids loader targets
  have hall := (hrun schedule).listsAll config houtcomes
  rw [hleft] at hall
  exact hall

/-- Targets of all kinds: two that are instrumented, one that was, and one that has no image. -/
def mixedTargets : List Target :=
  let symbols : SymbolReader := fun _ => .ok (some [⟨0, "a.cs", 1, 1, 1, 9⟩])
  [⟨{ Module.new "a" [] with methods := [guarded] }, symbols⟩,
   ⟨{ Module.new "b" [] with methods := [branching] }, symbols⟩,
   ⟨(Module.new "c" []).mark, symbols⟩,
   ⟨Module.new "d" [0], symbols⟩]

/-- They take turns, and the second one is the first to take ids. -/
def mixedBatch : Batch :=
  (Batch.start ⟨5⟩ .new mixedTargets).run Config.standard (fun _ => .ok (some []))
    [0, 1, 2, 3, 1, 0, 1, 0, 0, 1]

theorem batch_listsAll_mixedTargets :
    let r := instrumentAll Config.standard (fun _ => .ok (some [])) ⟨5⟩ .new mixedTargets
    (∀ t ∈ mixedTargets, ∀ m ∈ t.module.methods, m.FewClauses) ∧
      r.ids = ⟨9⟩ ∧ ListsAll Config.standard ⟨5⟩ r.ids r.outcomes ∧
      mixedBatch.shared.ids = ⟨9⟩ ∧ ∃ outcomes, mixedBatch.outcomes? = some outcomes ∧
        ListsAll Config.standard ⟨5⟩ mixedBatch.shared.ids outcomes := by
  have hguarded : guarded.FewClauses :=
    MethodDef.fewClauses_of_count 1 (by decide +kernel) (by decide)
  have hbranching : branching.FewClauses :=
    MethodDef.fewClauses_of_count 0 (by decide +kernel) (by decide)
  have hfew : ∀ t ∈ mixedTargets, ∀ m ∈ t.module.methods, m.FewClauses := by
    simp [mixedTargets, Module.new, Module.mark, hguarded, hbranching]
  obtain ⟨hsequential, hturns⟩ :=
    batch_listsAll Config.standard (fun _ => .ok (some [])) ⟨5⟩ .new hfew
  have hdone : mixedBatch.outcomes?.isSome = true := by decide +kernel
  obtain ⟨outcomes, houtcomes⟩ := Option.isSome_iff_exists.mp hdone
  exact ⟨hfew, by decide +kernel, hsequential, by decide +kernel, outcomes, houtcomes,
    hturns _ outcomes houtcomes⟩

end Instrumenter

end CilCoverage
