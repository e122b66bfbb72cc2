/-
  What a process records, from its first installation to its shutdown.

  Hits go to the context that was installed last, and each context that is
  replaced is flushed once more, after its last hit. So at every moment only the
  file of the installed context can be behind (`Kept`), and the hook that runs
  at shutdown brings it up to date.
-/
import CilCoverage.Proofs.Counters.Shards
import CilCoverage.Proofs.Hits.Writing
import CilCoverage.Recorder

namespace CilCoverage

open FileSystem

namespace HitContext

/-- The file of the context has its counts. -/
structure Flushed (c : HitContext) (files : FileSystem) : Prop where
  reached : HitsDir.Reached ⟨HitsDir.readPath c.hitsDir, files⟩
  file : files.fileAt? (goal c.hitsDir ++ [c.fileName]) =
    some (HitFile.new c.test c.counters.snapshot).toBytes

/-- The context was made by a process, as the one of a number. -/
structure MadeBy (c : HitContext) (process number : Nat) : Prop where
  fileName : ∃ runId, c.fileName = HitsDir.newFileName runId process number
  fits : ∀ test ∈ c.test, HitFile.Fits test
  lawful : c.counters.Lawful

variable {c other : HitContext} {process a b : Nat}

theorem MadeBy.isHitName (h : c.MadeBy process a) : HitsDir.IsHitName c.fileName := by
  obtain ⟨runId, hname⟩ := h.fileName
  rw [hname]
  exact HitsDir.isHitName_newFileName runId process a

theorem MadeBy.number_eq (h : c.MadeBy process a) (hother : other.MadeBy process b)
    (hname : c.fileName = other.fileName) : a = b := by
  obtain ⟨runId, ha⟩ := h.fileName
  obtain ⟨runId', hb⟩ := hother.fileName
  exact HitsDir.newFileName_inj (ha.symm.trans (hname.trans hb))

theorem MadeBy.flush_ok (h : c.MadeBy process a) {files : FileSystem}
    (hok : (c.flush ⟨c.hitsDir, files⟩).2 = .ok ()) :
    c.Flushed (c.flush ⟨c.hitsDir, files⟩).1.files ∧
      files.ChangesAt (c.flush ⟨c.hitsDir, files⟩).1.files
        (HitsDir.places c.hitsDir c.fileName) := by
  have hwrite : (HitsDir.write ⟨c.hitsDir, files⟩ c.fileName
      (HitFile.new c.test c.counters.snapshot)).2 = .ok () := by
    unfold flush at hok
    dsimp only at hok
    cases hresult : (HitsDir.write ⟨c.hitsDir, files⟩ c.fileName
      (HitFile.new c.test c.counters.snapshot)).2 with
    | ok => rfl
    | error e =>
      rw [hresult] at hok
      cases hok
  obtain ⟨hreached, hfile, hchanges⟩ := HitsDir.write_ok h.isHitName hwrite
  exact ⟨⟨hreached, hfile⟩, hchanges⟩

theorem Flushed.of_changesAt {files more : FileSystem} (h : c.Flushed files)
    (hc : c.MadeBy process a) (hother : other.MadeBy process b) (hne : a ≠ b)
    (hchanges : files.ChangesAt more (HitsDir.places other.hitsDir other.fileName)) :
    c.Flushed more where
  reached := h.reached.of_changesAt hchanges
  file := by
    rw [← h.file]
    refine hchanges.fileAt?_eq _
      (hother.isHitName.notMem_places hc.isHitName.extension? (concat_ne ?_))
    exact fun hname => hne (hc.number_eq hother hname)

end HitContext

namespace Recorder

/-- What a process does that has no context in scope. -/
inductive Step where
  | install (config : RecorderConfig)
  | hit (id : HitId)
  | flush
  /-- The hooks run. -/
  | execute
  /-- A flush interval ends. -/
  | tick
  deriving DecidableEq

/-- Does a step. -/
def act (r : Recorder) : Step → Recorder
  | .install config => (r.install config).2
  | .hit id => r.hit id 1
  | .flush => r.flush.1
  | .execute => r.shutdown
  | .tick =>
    match r.installed with
    | some i => if i.periodic then (PeriodicFlush.mk i.context).tick r else r
    | none => r

/-- Does steps one after the other. -/
def acts (r : Recorder) (steps : List Step) : Recorder := steps.foldl act r

/-! ## Flushes -/

/-- A new context is installed, and the one that it replaces was not flushed yet. -/
def replaced (r : Recorder) (config : RecorderConfig) : Recorder :=
  { (r.newContext config).2.hookOnce with
    installed := some ⟨(r.newContext config).1, config.flushInterval.isSome⟩ }

theorem install_eq (r : Recorder) (config : RecorderConfig) :
    (r.install config).2 = match r.installed with
      | some previous => (r.replaced config).release previous
      | none => r.replaced config := rfl

/-- The flushes of hooks, with the state of the process before each of them. -/
def flushesOfHooks (r : Recorder) : List String → List (Recorder × ContextId)
  | [] => []
  | name :: rest =>
    (if name = flushHook.name then (r.installed.map fun i => (r, i.context)).toList else []) ++
      flushesOfHooks (r.afterHook name) rest

/-- The flushes of a step, with the state of the process before each of them. -/
def flushes (r : Recorder) : Step → List (Recorder × ContextId)
  | .install config =>
    match r.installed with
    | some previous =>
      (r.replaced config, previous.context) ::
        if previous.periodic then
          [((r.replaced config).tryFlush previous.context, previous.context)]
        else []
    | none => []
  | .hit _ => []
  | .flush => (r.current.map fun context => (r, context)).toList
  | .execute =>
    flushesOfHooks { r with hooks := r.hooks.execute.registered } r.hooks.execute.ran
  | .tick =>
    match r.installed with
    | some i => if i.periodic then [(r, i.context)] else []
    | none => []

/-- Every flush of the steps is successful. -/
def succeeds (r : Recorder) : List Step → Bool
  | [] => true
  | step :: rest =>
    (r.flushes step).all (fun f => (f.1.flushContext f.2).2.isOk) && succeeds (r.act step) rest

/-! ## What is kept -/

/-- The files of all contexts have their counts, but for those that may be behind, and other hit
files are as they were `before`. -/
structure Kept (before : FileSystem) (behind : ContextId → Prop) (r : Recorder) : Prop where
  made : ∀ (j : ContextId) (c : HitContext), r.contexts[j]? = some c → c.MadeBy r.process j
  flushed : ∀ (j : ContextId) (c : HitContext), r.contexts[j]? = some c → ¬ behind j →
    c.Flushed r.files
  others : ∀ place name, Path.extension? name = some HitsDir.hitExtension →
    (∀ (j : ContextId) (c : HitContext), r.contexts[j]? = some c →
      place ++ [name] ≠ goal c.hitsDir ++ [c.fileName]) →
    r.files.fileAt? (place ++ [name]) = before.fileAt? (place ++ [name])

variable {before : FileSystem} {behind later : ContextId → Prop} {r : Recorder}

theorem Kept.mono (h : r.Kept before behind) (hle : ∀ j, behind j → later j) :
    r.Kept before later :=
  { h with flushed := fun j c hc hj => h.flushed j c hc fun hbehind => hj (hle j hbehind) }

theorem tryFlush_eq (r : Recorder) (j : ContextId) :
    r.tryFlush j = { r with files := (r.tryFlush j).files } := by
  unfold tryFlush flushContext
  split
  · rfl
  · rfl

theorem release_eq (r : Recorder) (previous : InstalledContext) :
    r.release previous = { r with files := (r.release previous).files } := by
  unfold release
  dsimp only
  split
  · rw [tryFlush_eq, tryFlush_eq]
  · rw [tryFlush_eq]

theorem eq_ok_of_isOk {result : Except FlushError Unit} (h : result.isOk = true) :
    result = .ok () := by
  cases result with
  | ok => rfl
  | error e => cases h

/-- A context that was flushed is not behind any more. -/
theorem Kept.flush (h : r.Kept before behind) {j : ContextId}
    (hok : (r.flushContext j).2.isOk = true) :
    (r.tryFlush j).Kept before fun i => behind i ∧ i ≠ j := by
  unfold tryFlush flushContext at *
  cases hj : r.contexts[j]? with
  | none =>
    refine { h with flushed := fun i c hc hi => h.flushed i c hc fun hbehind => hi ⟨hbehind, ?_⟩ }
    rintro rfl
    rw [hj] at hc
    cases hc
  | some c =>
    rw [hj] at hok
    dsimp only at hok ⊢
    have hmade := h.made j c hj
    obtain ⟨hflushed, hchanges⟩ := hmade.flush_ok (eq_ok_of_isOk hok)
    refine ⟨h.made, fun i other hother hi => ?_, fun place name hext hne => ?_⟩
    · by_cases hij : i = j
      · subst hij
        have hother : r.contexts[i]? = some other := hother
        rw [hj] at hother
        cases hother
        exact hflushed
      · exact (h.flushed i other hother fun hbehind => hi ⟨hbehind, hij⟩).of_changesAt
          (h.made i other hother) hmade hij hchanges
    · rw [← h.others place name hext hne]
      exact hchanges.fileAt?_eq _ (hmade.isHitName.notMem_places hext (hne j c hj))

/-- A context of the process counts a hit. -/
theorem Kept.hitIn (h : r.Kept before behind) {j : ContextId} (hj : behind j) (id : HitId)
    (times : Nat) : (r.hitIn j id times).Kept before behind := by
  have hget : ∀ (i : ContextId) (c : HitContext), (r.hitIn j id times).contexts[i]? = some c →
      ∃ old, r.contexts[i]? = some old ∧ c = if j = i then old.hit id times else old := by
    intro i c hc
    have hc : (r.contexts.modify j fun c => c.hit id times)[i]? = some c := hc
    rw [List.getElem?_modify] at hc
    obtain ⟨old, hold, rfl⟩ := Option.map_eq_some_iff.mp hc
    exact ⟨old, hold, rfl⟩
  refine ⟨fun i c hc => ?_, fun i c hc hi => ?_, fun place name hext hne => ?_⟩
  · obtain ⟨old, hold, rfl⟩ := hget i c hc
    have hmade := h.made i old hold
    split
    · exact { hmade with lawful := Counters.lawful_incrementTimes hmade.lawful id times }
    · exact hmade
  · obtain ⟨old, hold, rfl⟩ := hget i c hc
    have hij : ¬ j = i := fun heq => hi (heq ▸ hj)
    rw [if_neg hij]
    exact h.flushed i old hold hi
  · refine h.others place name hext fun i old hold => ?_
    by_cases hij : j = i
    · refine hne i (old.hit id times) ?_
      show (r.contexts.modify j fun c => c.hit id times)[i]? = _
      rw [List.getElem?_modify, hold, hij]
      exact congrArg some (if_pos rfl)
    · refine hne i old ?_
      show (r.contexts.modify j fun c => c.hit id times)[i]? = _
      rw [List.getElem?_modify, hold]
      exact congrArg some (if_neg hij)

theorem replaced_eq (r : Recorder) (config : RecorderConfig) :
    r.replaced config = { r with
      contexts := r.contexts ++ [HitContext.new config r.process r.contexts.length]
      installed := some ⟨r.contexts.length, config.flushInterval.isSome⟩
      hooked := true
      hooks := if r.hooked then r.hooks else r.hooks.register flushHook } := by
  unfold replaced hookOnce newContext
  dsimp only
  split
  · next hhooked => rw [← hhooked]
  · rfl

/-- An installation makes a context, and writes to files. -/
theorem install_eq_replaced (r : Recorder) (config : RecorderConfig) :
    (r.install config).2 = { r.replaced config with files := (r.install config).2.files } := by
  rw [install_eq]
  split
  · exact release_eq _ _
  · rfl

theorem contexts_install (r : Recorder) (config : RecorderConfig) :
    (r.install config).2.contexts =
      r.contexts ++ [HitContext.new config r.process r.contexts.length] := by
  rw [install_eq_replaced, replaced_eq]

/-- A new context is behind. -/
theorem Kept.replaced (h : r.Kept before behind) {config : RecorderConfig}
    (hfits : ∀ test ∈ config.test, HitFile.Fits test) :
    (r.replaced config).Kept before fun j => behind j ∨ j = r.contexts.length := by
  have hget : ∀ (j : Nat) (c : HitContext), (r.replaced config).contexts[j]? = some c →
      r.contexts[j]? = some c ∨
        j = r.contexts.length ∧ c = HitContext.new config r.process r.contexts.length := by
    intro j c hc
    rw [replaced_eq] at hc
    dsimp only at hc
    rw [List.getElem?_append] at hc
    split at hc
    · exact .inl hc
    · next hj =>
      have hzero := (List.getElem?_eq_some_iff.mp hc).1
      rw [List.length_singleton] at hzero
      have hlength : j = r.contexts.length := by omega
      subst hlength
      rw [Nat.sub_self] at hc
      exact .inr ⟨rfl, (Option.some.inj hc).symm⟩
  refine ⟨fun j c hc => ?_, fun j c hc hj => ?_, fun place name hext hne => ?_⟩
  · rw [replaced_eq]
    obtain hold | ⟨rfl, rfl⟩ := hget j c hc
    · exact h.made j c hold
    · exact ⟨⟨config.runId, rfl⟩, hfits, Counters.lawful_zero⟩
  · rw [replaced_eq]
    obtain hold | ⟨rfl, rfl⟩ := hget j c hc
    · exact h.flushed j c hold fun hbehind => hj (.inl hbehind)
    · exact absurd (.inr rfl) hj
  · rw [replaced_eq]
    refine h.others place name hext fun j c hc => hne j c ?_
    rw [replaced_eq]
    dsimp only
    rw [List.getElem?_append_left (List.getElem?_eq_some_iff.mp hc).1, hc]

/-! ## The process -/

/-- A context is installed, no other is in scope, and the hook is registered. -/
structure Ready (i : InstalledContext) (r : Recorder) : Prop where
  installed : r.installed = some i
  lt : i.context < r.contexts.length
  scope : r.scope = none
  hooked : r.hooked = true
  hooks : r.hooks = ⟨[flushHook]⟩

variable {i : InstalledContext}

theorem Ready.tryFlush (h : r.Ready i) (j : ContextId) : (r.tryFlush j).Ready i := by
  rw [tryFlush_eq]
  exact { h with }

theorem ready_replaced (hscope : r.scope = none)
    (hhooks : (if r.hooked then r.hooks else r.hooks.register flushHook) = ⟨[flushHook]⟩)
    (config : RecorderConfig) :
    (r.replaced config).Ready ⟨r.contexts.length, config.flushInterval.isSome⟩ := by
  rw [replaced_eq]
  refine ⟨rfl, ?_, hscope, rfl, hhooks⟩
  dsimp only
  rw [List.length_append, List.length_singleton]
  exact Nat.lt_succ_self _

theorem Ready.current (h : r.Ready i) : r.current = some i.context := by
  unfold Recorder.current contextFor
  rw [h.scope, h.installed]
  rfl

theorem Ready.hit (h : r.Ready i) (id : HitId) : r.act (.hit id) = r.hitIn i.context id 1 := by
  unfold act Recorder.hit hitFrom contextFor
  rw [h.scope, h.installed]
  rfl

theorem Ready.install (h : r.Ready i) (config : RecorderConfig) :
    r.act (.install config) = (r.replaced config).release i := by
  show (r.install config).2 = _
  rw [install_eq, h.installed]

theorem execute_flushHook :
    Shutdown.execute ⟨[flushHook]⟩ = ⟨⟨[flushHook]⟩, [flushHook.name]⟩ := rfl

/-- At shutdown the hook flushes the installed context. -/
theorem Ready.execute (h : r.Ready i) :
    r.flushes .execute = [(r, i.context)] ∧ r.act .execute = r.tryFlush i.context := by
  have hsame : ({ r with hooks := ⟨[flushHook]⟩ } : Recorder) = r := by rw [← h.hooks]
  have hafter : r.afterHook flushHook.name = r.tryFlush i.context := by
    unfold afterHook flushInstalled
    rw [if_pos rfl, h.installed]
  constructor
  · unfold flushes
    rw [h.hooks, execute_flushHook]
    dsimp only
    rw [hsame, flushesOfHooks, if_pos rfl, h.installed]
    rfl
  · unfold act shutdown
    rw [h.hooks, execute_flushHook]
    dsimp only
    rw [hsame]
    exact hafter

/-- The installed context was flushed. -/
theorem Kept.flushInstalled (h : r.Kept before (· = i.context))
    (hok : (r.flushContext i.context).2.isOk = true) :
    (r.tryFlush i.context).Kept before fun _ => False :=
  (h.flush hok).mono fun _ hj => hj.2 hj.1

/-- What was installed is flushed, and once more if it was flushed at intervals. -/
theorem Kept.release (h : r.Kept before fun j => j = i.context ∨ later j)
    (hfirst : (r.flushContext i.context).2.isOk = true)
    (hagain : i.periodic = true → ((r.tryFlush i.context).flushContext i.context).2.isOk = true) :
    (r.release i).Kept before later := by
  have hflushed : (r.tryFlush i.context).Kept before later :=
    (h.flush hfirst).mono fun j hj => hj.1.resolve_left hj.2
  unfold Recorder.release
  dsimp only
  split
  · next hperiodic => exact (hflushed.flush (hagain hperiodic)).mono fun j hj => hj.1
  · exact hflushed

theorem Ready.release (h : r.Ready i) (previous : InstalledContext) :
    (r.release previous).Ready i := by
  rw [release_eq]
  exact { h with }

/-- After every step a context is installed, and the files of the others are up to date. -/
theorem Kept.act (h : r.Kept before (· = i.context)) (hready : r.Ready i) {step : Step}
    (hfits : ∀ config, step = .install config → ∀ test ∈ config.test, HitFile.Fits test)
    (hok : (r.flushes step).all (fun f => (f.1.flushContext f.2).2.isOk) = true) :
    ∃ i, (r.act step).Ready i ∧ (r.act step).Kept before (· = i.context) := by
  have hflushed : (r.flushContext i.context).2.isOk = true →
      (r.tryFlush i.context).Kept before (· = i.context) :=
    fun hok => (h.flushInstalled hok).mono fun _ hj => hj.elim
  cases step with
  | install config =>
    rw [hready.install]
    refine ⟨_, (ready_replaced hready.scope ?_ config).release i, ?_⟩
    · rw [hready.hooked, if_pos rfl, hready.hooks]
    · unfold flushes at hok
      rw [hready.installed] at hok
      obtain ⟨hfirst, hrest⟩ := Bool.and_eq_true_iff.mp hok
      refine (h.replaced (hfits config rfl)).release hfirst fun hperiodic => ?_
      rw [if_pos hperiodic] at hrest
      exact (Bool.and_eq_true_iff.mp hrest).1
  | hit id =>
    rw [hready.hit]
    refine ⟨i, { hready with lt := ?_ }, h.hitIn rfl id 1⟩
    show i.context < (r.contexts.modify _ _).length
    rw [List.length_modify]
    exact hready.lt
  | flush =>
    have hact : r.act .flush = r.tryFlush i.context := by
      unfold Recorder.act Recorder.flush
      rw [hready.current]
      rfl
    unfold flushes at hok
    rw [hready.current] at hok
    rw [hact]
    exact ⟨i, hready.tryFlush _, hflushed (Bool.and_eq_true_iff.mp hok).1⟩
  | execute =>
    obtain ⟨hflushes, hact⟩ := hready.execute
    rw [hflushes] at hok
    rw [hact]
    exact ⟨i, hready.tryFlush _, hflushed (Bool.and_eq_true_iff.mp hok).1⟩
  | tick =>
    refine ⟨i, ?_⟩
    unfold flushes at hok
    unfold Recorder.act
    rw [hready.installed] at hok ⊢
    dsimp only at hok ⊢
    split
    · next hperiodic =>
      rw [if_pos hperiodic] at hok
      exact ⟨hready.tryFlush _, hflushed (Bool.and_eq_true_iff.mp hok).1⟩
    · exact ⟨hready, h⟩

end Recorder

end CilCoverage
