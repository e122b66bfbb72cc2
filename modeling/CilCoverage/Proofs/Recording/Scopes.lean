/-
  Which context a hit goes to, in programs that nest scopes, install contexts
  and panic.

  The scopes around a step are those that the program text nests around it. The
  process only has one slot, which `withContext` fills and puts back however its
  body ends. At every moment the slot holds the innermost of the scopes
  (`Standing`), so that a hit goes there, or else to the context that was
  installed last (`Program.hits_innermost`).
-/
import CilCoverage.Proofs.Recording.Runs

namespace CilCoverage.Recorder

/-! ## Programs -/

/-- How a program ends. -/
inductive Ending where
  | done
  | panicked
  deriving DecidableEq

/-- What a thread does. -/
inductive Program where
  | skip
  | hit (id : HitId)
  | install (config : RecorderConfig)
  /-- Runs the body with a context in scope. -/
  | within (context : ContextId) (body : Program)
  | seq (first second : Program)
  | panic
  /-- Goes on after the body, even if that panics. -/
  | attempt (body : Program)

/-- What the thread does at one moment. -/
inductive Act where
  | hit (id : HitId)
  | install (config : RecorderConfig)
  | enter (context : ContextId)
  | leave (context : ContextId) (ending : Ending)
  deriving DecidableEq

/-- A moment of a run. -/
structure Moment where
  act : Act
  /-- The contexts of the scopes around it, the innermost first. -/
  around : List ContextId
  before : Recorder
  after : Recorder

namespace Program

/-- Runs a program up to its end or to the first panic. -/
def run : Program → Recorder → Ending × Recorder
  | skip, r => (.done, r)
  | hit id, r => (.done, r.hit id 1)
  | install config, r => (.done, (r.install config).2)
  | within context body, r => r.withContext context body.run
  | seq first second, r =>
    match first.run r with
    | (.done, r) => second.run r
    | (.panicked, r) => (.panicked, r)
  | panic, r => (.panicked, r)
  | attempt body, r => (.done, (body.run r).2)

/-- The moments of a run, in order. -/
def moments (around : List ContextId) : Program → Recorder → List Moment
  | skip, _ => []
  | hit id, r => [⟨.hit id, around, r, ((hit id).run r).2⟩]
  | install config, r => [⟨.install config, around, r, ((install config).run r).2⟩]
  | within context body, r =>
    let entered := { r with scope := some context }
    ⟨.enter context, around, r, entered⟩ :: (moments (context :: around) body entered ++
      [⟨.leave context (body.run entered).1, around, (body.run entered).2,
        ((within context body).run r).2⟩])
  | seq first second, r =>
    moments around first r ++
      match first.run r with
      | (.done, r) => moments around second r
      | (.panicked, _) => []
  | panic, _ => []
  | attempt body, r => moments around body r

end Program

/-! ## What is right -/

/-- The count of an id in a context. -/
def countIn (r : Recorder) (context : ContextId) (id : HitId) : UInt64 :=
  match r.contexts[context]? with
  | some c => c.counters.count id
  | none => 0

namespace Moment

/-- The context that a hit goes to: the one of the innermost scope, or else the one that was
installed last. -/
def receiver (m : Moment) (latest : ContextId) : ContextId := m.around.head?.getD latest

/-- The context that was installed last, after the moment. -/
def latest (m : Moment) (before : ContextId) : ContextId :=
  match m.act with
  | .install _ => m.before.contexts.length
  | _ => before

/-- A context that comes into scope has been made. -/
def EntersMade (m : Moment) : Prop :=
  match m.act with
  | .enter context => context < m.before.contexts.length
  | _ => True

instance (m : Moment) : Decidable m.EntersMade := by
  unfold EntersMade
  split <;> infer_instance

/-- What a moment does, where `latest` was installed last. -/
structure Right (m : Moment) (latest : ContextId) : Prop where
  /-- A hit adds one to one count, in a context that there is. Nothing else changes a count. -/
  counts : ∀ j id, m.after.countIn j id =
    m.before.countIn j id + if m.act = .hit id ∧ j = m.receiver latest then 1 else 0
  made : m.receiver latest < m.before.contexts.length
  installed : m.after.installed.map (·.context) = some (m.latest latest)
  /-- The slot holds the innermost of the scopes around the moment, also after a scope was left,
  however its body ended. -/
  scope_before : (∀ context ending, m.act ≠ .leave context ending) →
    m.before.scope = m.around.head? ∧ m.before.current = some (m.receiver latest)
  scope_after : (∀ context, m.act ≠ .enter context) →
    m.after.scope = m.around.head? ∧ m.after.current = some (m.receiver (m.latest latest))

end Moment

/-- One moment leads to the next, and each is right. At first `latest` was installed last, and in
the end `last` was. -/
inductive Runs : ContextId → Recorder → List Moment → ContextId → Recorder → Prop
  | done {latest : ContextId} {r : Recorder} : Runs latest r [] latest r
  | step {latest last : ContextId} {r : Recorder} {m : Moment} {ms : List Moment}
      (hbefore : m.before = r) (hright : m.Right latest) {final : Recorder}
      (hrest : Runs (m.latest latest) m.after ms last final) : Runs latest r (m :: ms) last final

/-- The hits of an id that go to a context. -/
def received (context : ContextId) (id : HitId) : ContextId → List Moment → Nat
  | _, [] => 0
  | latest, m :: ms =>
    (if m.act = .hit id ∧ context = m.receiver latest then 1 else 0) +
      received context id (m.latest latest) ms

variable {r final : Recorder} {latest last : ContextId} {around : List ContextId}

theorem Runs.append {middle : Recorder} {between : ContextId} {ms ns : List Moment}
    (h : Runs latest r ms between middle) (hrest : Runs between middle ns last final) :
    Runs latest r (ms ++ ns) last final := by
  induction h with
  | done => exact hrest
  | step hbefore hright _ ih => exact .step hbefore hright (ih hrest)

theorem Runs.single {m : Moment} (hright : m.Right latest) :
    Runs latest m.before [m] (m.latest latest) m.after := .step rfl hright .done

theorem Runs.countIn_eq {ms : List Moment} (h : Runs latest r ms last final) (j : ContextId)
    (id : HitId) :
    final.countIn j id = r.countIn j id + UInt64.ofNat (received j id latest ms) := by
  induction h with
  | done => exact (UInt64.add_zero _).symm
  | step hbefore hright _ ih =>
    rw [ih, hright.counts, hbefore, received, UInt64.ofNat_add, UInt64.add_assoc]
    split <;> rfl

/-! ## What is installed and in scope -/

theorem countIn_install (r : Recorder) (config : RecorderConfig) (j : ContextId) (id : HitId) :
    (r.install config).2.countIn j id = r.countIn j id := by
  unfold countIn
  rw [contexts_install]
  rcases Nat.lt_trichotomy j r.contexts.length with hlt | rfl | hgt
  · rw [List.getElem?_append_left hlt]
  · rw [List.getElem?_concat_length, List.getElem?_eq_none (Nat.le_refl _)]
    exact Counters.count_zero id
  · rw [List.getElem?_eq_none (Nat.le_of_lt hgt), List.getElem?_eq_none]
    rw [List.length_append, List.length_singleton]
    exact hgt

theorem countIn_hitIn {context : ContextId} (h : context < r.contexts.length) (id : HitId)
    (j : ContextId) (other : HitId) :
    (r.hitIn context id 1).countIn j other =
      r.countIn j other + if other = id ∧ j = context then 1 else 0 := by
  unfold countIn hitIn
  dsimp only
  rw [List.getElem?_modify]
  by_cases hj : context = j
  · subst hj
    rw [List.getElem?_eq_getElem h]
    have hcount := Counters.count_incrementTimes r.contexts[context].counters id 1 other
    simp only [if_true, and_true]
    refine hcount.trans ?_
    split
    · rfl
    · exact (UInt64.add_zero _).symm
  · have hne : ¬ (other = id ∧ j = context) := fun hboth => hj hboth.2.symm
    rw [if_neg hne, UInt64.add_zero]
    simp [hj]

/-- These scopes are around, `latest` was installed last, and the process knows it. -/
structure Standing (around : List ContextId) (latest : ContextId) (r : Recorder) : Prop where
  scope : r.scope = around.head?
  installed : r.installed.map (·.context) = some latest
  latest_lt : latest < r.contexts.length
  around_lt : ∀ context ∈ around, context < r.contexts.length

namespace Standing

variable (h : Standing around latest r)
include h

theorem current : r.current = some (around.head?.getD latest) := by
  rw [Recorder.current, contextFor, h.scope, h.installed]
  cases around.head? <;> rfl

theorem receiver_lt : around.head?.getD latest < r.contexts.length := by
  cases hhead : around.head? with
  | none => exact h.latest_lt
  | some context => exact h.around_lt context (List.mem_of_mem_head? hhead)

theorem hit_eq (id : HitId) : r.hit id 1 = r.hitIn (around.head?.getD latest) id 1 := by
  rw [Recorder.hit, hitFrom]
  have hcurrent := h.current
  rw [Recorder.current] at hcurrent
  rw [hcurrent]

theorem hit (id : HitId) : Standing around latest (r.hit id 1) := by
  have hlength : (r.hit id 1).contexts.length = r.contexts.length := by
    rw [h.hit_eq]
    exact List.length_modify ..
  rw [h.hit_eq] at hlength ⊢
  exact ⟨h.scope, h.installed, by rw [hlength]; exact h.latest_lt,
    by rw [hlength]; exact h.around_lt⟩

theorem install (config : RecorderConfig) :
    Standing around r.contexts.length (r.install config).2 := by
  have hlength : (r.install config).2.contexts.length = r.contexts.length + 1 := by
    rw [contexts_install, List.length_append, List.length_singleton]
  refine ⟨?_, ?_, ?_, fun context hmem => ?_⟩
  · rw [install_eq_replaced, replaced_eq]
    exact h.scope
  · rw [install_eq_replaced, replaced_eq]
    rfl
  · rw [hlength]
    exact Nat.lt_succ_self _
  · rw [hlength]
    exact Nat.lt_succ_of_lt (h.around_lt context hmem)

theorem enter {context : ContextId} (hmade : context < r.contexts.length) :
    Standing (context :: around) latest { r with scope := some context } :=
  ⟨rfl, h.installed, h.latest_lt, List.forall_mem_cons.mpr ⟨hmade, h.around_lt⟩⟩

end Standing

/-- What was in scope before is again, and whatever was installed in between stays installed. -/
theorem Standing.leave {context : ContextId} (h : Standing (context :: around) latest r) :
    Standing around latest { r with scope := around.head? } :=
  ⟨rfl, h.installed, h.latest_lt, fun other hmem => h.around_lt other (List.mem_cons_of_mem _ hmem)⟩

/-! ## Every moment is right -/

theorem right_hit (h : Standing around latest r) (id : HitId) :
    Moment.Right ⟨.hit id, around, r, r.hit id 1⟩ latest where
  counts j other := by
    dsimp only
    rw [h.hit_eq, countIn_hitIn h.receiver_lt]
    simp only [Act.hit.injEq, eq_comm (a := id), Moment.receiver]
  made := h.receiver_lt
  installed := (h.hit id).installed
  scope_before _ := ⟨h.scope, h.current⟩
  scope_after _ := ⟨(h.hit id).scope, (h.hit id).current⟩

theorem right_install (h : Standing around latest r) (config : RecorderConfig) :
    Moment.Right ⟨.install config, around, r, (r.install config).2⟩ latest where
  counts j other := by
    dsimp only
    rw [countIn_install]
    exact (UInt64.add_zero _).symm
  made := h.receiver_lt
  installed := (h.install config).installed
  scope_before _ := ⟨h.scope, h.current⟩
  scope_after _ := ⟨(h.install config).scope, (h.install config).current⟩

theorem right_enter (h : Standing around latest r) (context : ContextId) :
    Moment.Right ⟨.enter context, around, r, { r with scope := some context }⟩ latest where
  counts _ _ := (UInt64.add_zero _).symm
  made := h.receiver_lt
  installed := h.installed
  scope_before _ := ⟨h.scope, h.current⟩
  scope_after hnot := (hnot context rfl).elim

theorem right_leave {context : ContextId} (h : Standing (context :: around) latest r)
    (ending : Ending) :
    Moment.Right ⟨.leave context ending, around, r, { r with scope := around.head? }⟩ latest where
  counts _ _ := (UInt64.add_zero _).symm
  made := h.leave.receiver_lt
  installed := h.installed
  scope_before hnot := (hnot context ending rfl).elim
  scope_after _ := ⟨rfl, h.leave.current⟩

namespace Program

/-- Whatever a program does, every moment of it is right. -/
theorem runs (p : Program) (h : Standing around latest r)
    (henter : ∀ m ∈ p.moments around r, m.EntersMade) :
    ∃ last, Runs latest r (p.moments around r) last (p.run r).2 ∧
      Standing around last (p.run r).2 := by
  induction p generalizing around latest r with
  | skip => exact ⟨latest, .done, h⟩
  | hit id => exact ⟨latest, .single (right_hit h id), h.hit id⟩
  | install config =>
    exact ⟨r.contexts.length, .single (right_install h config), h.install config⟩
  | within context body ih =>
    obtain ⟨hmade, hbody⟩ := List.forall_mem_cons.mp henter
    obtain ⟨hbody, -⟩ := List.forall_mem_append.mp hbody
    obtain ⟨last, hruns, hinside⟩ := ih (h.enter hmade) hbody
    have hleft : ((within context body).run r).2 =
        { (body.run { r with scope := some context }).2 with scope := around.head? } := by
      rw [← h.scope]
      rfl
    have hleave := right_leave hinside (body.run { r with scope := some context }).1
    rw [← hleft] at hleave
    refine ⟨last, .step rfl (right_enter h context) (hruns.append (.single hleave)), ?_⟩
    rw [hleft]
    exact hinside.leave
  | seq first second ihfirst ihsecond =>
    rw [moments] at henter ⊢
    obtain ⟨hfirst, hsecond⟩ := List.forall_mem_append.mp henter
    obtain ⟨between, hruns, hbetween⟩ := ihfirst h hfirst
    rw [run]
    -- a panic in the first part ends both
    rcases hend : first.run r with ⟨ending, middle⟩
    rw [hend] at hruns hbetween hsecond
    cases ending with
    | done =>
      obtain ⟨last, hmore, hlast⟩ := ihsecond hbetween hsecond
      exact ⟨last, hruns.append hmore, hlast⟩
    | panicked => exact ⟨between, hruns.append .done, hbetween⟩
  | panic => exact ⟨latest, .done, h⟩
  | attempt body ih => exact ih h henter

/-- In a process with an installed context, every hit of a program goes to the context of the
innermost scope around it, or else to the one that was installed last. Whatever scope is left, and
however, the one around it is in the slot again. -/
theorem hits_innermost (p : Program) {i : InstalledContext} (hinstalled : r.installed = some i)
    (hi : i.context < r.contexts.length) (hscope : ∀ context ∈ r.scope, context < r.contexts.length)
    (henter : ∀ m ∈ p.moments r.scope.toList r, m.EntersMade) :
    ∃ last, Runs i.context r (p.moments r.scope.toList r) last (p.run r).2 ∧
      (p.run r).2.scope = r.scope ∧ (p.run r).2.current = some (r.scope.getD last) ∧
      ∀ j id, (p.run r).2.countIn j id = r.countIn j id +
        UInt64.ofNat (received j id i.context (p.moments r.scope.toList r)) := by
  have hhead : r.scope.toList.head? = r.scope := by cases r.scope <;> rfl
  have h : Standing r.scope.toList i.context r :=
    ⟨hhead.symm, by rw [hinstalled]; rfl, hi, fun context hmem =>
      hscope context (Option.mem_toList.mp hmem)⟩
  obtain ⟨last, hruns, hlast⟩ := p.runs h henter
  refine ⟨last, hruns, hlast.scope.trans hhead, ?_, fun j id => hruns.countIn_eq j id⟩
  rw [hlast.current, hhead]

/-- Two contexts, the second of which is installed. -/
def twoContexts : Recorder :=
  { begun 1 .empty with
    contexts := [.new (RecorderConfig.new "h") 1 0, .new (RecorderConfig.new "h") 1 1]
    installed := some ⟨1, false⟩ }

/-- A panic leaves three scopes, where the innermost is of the same context as the outermost. Then
a third context is installed in an open scope. -/
def nested : Program :=
  seq (attempt (within 0 (seq (hit 7) (within 1 (within 0 (seq (hit 7) panic))))))
    (seq (hit 7) (seq (within 0 (seq (install (RecorderConfig.new "h")) (hit 7))) (hit 7)))

theorem hits_innermost_nested :
    let ms := nested.moments [] twoContexts
    let final := (nested.run twoContexts).2
    (twoContexts.installed = some ⟨1, false⟩ ∧ 1 < twoContexts.contexts.length ∧
      twoContexts.scope = none ∧ ∀ m ∈ ms, m.EntersMade) ∧
      ms.map Moment.act = [.enter 0, .hit 7, .enter 1, .enter 0, .hit 7, .leave 0 .panicked,
        .leave 1 .panicked, .leave 0 .panicked, .hit 7, .enter 0,
        .install (RecorderConfig.new "h"), .hit 7, .leave 0 .done, .hit 7] ∧
      ∃ last, Runs 1 twoContexts ms last final ∧ final.scope = none ∧ final.current = some last ∧
        [0, 1, 2].map (final.countIn · 7) = [3, 1, 1] := by
  intro ms final
  have henter : ∀ m ∈ ms, m.EntersMade := by decide +kernel
  obtain ⟨last, hruns, hscope, hcurrent, hcounts⟩ :=
    hits_innermost nested (r := twoContexts) (i := ⟨1, false⟩) rfl (by decide) nofun henter
  refine ⟨⟨rfl, by decide, rfl, henter⟩, by decide +kernel, last, hruns, hscope, hcurrent, ?_⟩
  have hcount : ∀ j, final.countIn j 7 =
      twoContexts.countIn j 7 + UInt64.ofNat (received j 7 1 ms) := fun j => hcounts j 7
  rw [List.map_congr_left fun j _ => hcount j]
  decide +kernel

end Program

end CilCoverage.Recorder
