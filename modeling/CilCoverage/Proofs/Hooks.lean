/-
  Hooks that run, and what is registered meanwhile.

  What came of calls is a tree: a call that runs hooks has their runs, and a run
  has what came of the calls in it (`Deed`, `Run`). `Timely` says which hooks
  are run by each call, and `Accounts` how the registered hooks have changed by
  all that happened.

  If nested executions have such a history, so have calls that are made one
  after the other (`runActions_accounts`) and hooks that are run one after the
  other (`runHooks_accounts`), and so executions have one however deep they are
  nested (`executeWithin_executes`). Put together: `runActions_history`.
-/
import CilCoverage.Shutdown
import Mathlib.Data.List.Basic

namespace CilCoverage

namespace Hook

/-- What the hook does when it has run a number of times and runs again. -/
def script : Hook → (times : Nat) → List HookAction
  | mk _ runs, times => runs.getD times []

/-- What is left of the hook when it has run a number of times. -/
def after : Hook → (times : Nat) → Hook
  | mk name runs, times => mk name (runs.drop times)

@[simp] theorem after_zero (hook : Hook) : hook.after 0 = hook := by
  cases hook
  rfl

@[simp] theorem name_after (hook : Hook) (times : Nat) : (hook.after times).name = hook.name := by
  cases hook
  rfl

@[simp] theorem after_after (hook : Hook) (m n : Nat) :
    (hook.after m).after n = hook.after (m + n) := by
  cases hook
  simp [after]

@[simp] theorem script_after (hook : Hook) (m n : Nat) :
    (hook.after m).script n = hook.script (m + n) := by
  cases hook
  simp [after, script]

end Hook

namespace Shutdown

/-! ## Histories -/

mutual

/-- What came of a call: a hook was registered, or hooks were run. -/
inductive Deed where
  | registered (hook : Hook)
  | executed (runs : List Run)

/-- A run of a hook, with the number of the hook in the order of registration and what came of the
calls in it. -/
inductive Run where
  | mk (number : Nat) (name : String) (deeds : List Deed)

end

namespace Run

def number : Run → Nat
  | mk number _ _ => number

def name : Run → String
  | mk _ name _ => name

def deeds : Run → List Deed
  | mk _ _ deeds => deeds

@[simp] theorem number_mk (number : Nat) (name : String) (deeds : List Deed) :
    (mk number name deeds).number = number := rfl

end Run

/-- The call that a deed came of. -/
def Deed.action : Deed → HookAction
  | registered hook => .register hook
  | executed _ => .execute

/-- What happened, in the order in which it began. -/
inductive Entry where
  | registered (hook : Hook)
  | ran (run : Run)

mutual

/-- What happened in a deed. -/
def Deed.log : Deed → List Entry
  | .registered hook => [.registered hook]
  | .executed runs => logOfRuns runs

/-- What happened in runs, each of them before what happened in it. -/
def logOfRuns : List Run → List Entry
  | [] => []
  | .mk number name deeds :: runs => .ran (.mk number name deeds) :: (log deeds ++ logOfRuns runs)

/-- What happened in deeds. -/
def log : List Deed → List Entry
  | [] => []
  | deed :: deeds => deed.log ++ log deeds

end

/-- The hooks that were registered. -/
def registrations (entries : List Entry) : List Hook :=
  entries.filterMap fun
    | .registered hook => some hook
    | .ran _ => none

/-- The hooks that ran. -/
def runs (entries : List Entry) : List Run :=
  entries.filterMap fun
    | .registered _ => none
    | .ran run => some run

/-- The runs of the hook with a number. -/
def runsOf (number : Nat) (entries : List Entry) : List Run :=
  (runs entries).filter fun run => decide (run.number = number)

mutual

/-- With `known` hooks registered, of which the executions around have taken the first ones, each
execution runs the others, once each and in the order of registration. In it all are taken, and
behind it are known those that were registered meanwhile. -/
def Timely : (first known : Nat) → List Deed → Prop
  | _, _, [] => True
  | first, known, .registered _ :: deeds => Timely first (known + 1) deeds
  | first, known, .executed runs :: deeds =>
    runs.map Run.number = List.range' first (known - first) ∧ TimelyRuns known known runs ∧
      Timely first (known + (registrations (logOfRuns runs)).length) deeds

/-- What came of the calls in runs is timely, where each run knows what was registered in those
before it. -/
def TimelyRuns : (first known : Nat) → List Run → Prop
  | _, _, [] => True
  | first, known, .mk _ _ deeds :: runs =>
    Timely first known deeds ∧
      TimelyRuns first (known + (registrations (log deeds)).length) runs

end

/-- The runs are those of a hook: each time it does what it does next. -/
def Follows (hook : Hook) (runs : List Run) : Prop :=
  ∀ k run, runs[k]? = some run →
    run.name = hook.name ∧ run.deeds.map Deed.action = hook.script k

/-! ## Accounts -/

@[simp] theorem registrations_nil : registrations [] = [] := rfl

@[simp] theorem registrations_append (a b : List Entry) :
    registrations (a ++ b) = registrations a ++ registrations b := List.filterMap_append

@[simp] theorem registrations_registered (hook : Hook) (rest : List Entry) :
    registrations (.registered hook :: rest) = hook :: registrations rest := rfl

@[simp] theorem registrations_ran (run : Run) (rest : List Entry) :
    registrations (.ran run :: rest) = registrations rest := rfl

@[simp] theorem runs_nil : runs [] = [] := rfl

@[simp] theorem runs_append (a b : List Entry) : runs (a ++ b) = runs a ++ runs b :=
  List.filterMap_append

@[simp] theorem runs_registered (hook : Hook) (rest : List Entry) :
    runs (.registered hook :: rest) = runs rest := rfl

@[simp] theorem runs_ran (run : Run) (rest : List Entry) :
    runs (.ran run :: rest) = run :: runs rest := rfl

@[simp] theorem runsOf_append (number : Nat) (a b : List Entry) :
    runsOf number (a ++ b) = runsOf number a ++ runsOf number b := by
  simp [runsOf]

theorem runsOf_eq_nil {number : Nat} {entries : List Entry}
    (h : ∀ run ∈ runs entries, run.number ≠ number) : runsOf number entries = [] := by
  simpa [runsOf] using h

theorem runsOf_ran (number : Nat) (run : Run) :
    runsOf number [.ran run] = if run.number = number then [run] else [] := by
  simp [runsOf, List.filter_singleton]

theorem Follows.nil (hook : Hook) : Follows hook [] := by
  simp [Follows]

theorem Follows.append {hook : Hook} {a b : List Run} (ha : Follows hook a)
    (hb : Follows (hook.after a.length) b) : Follows hook (a ++ b) := by
  intro k run hk
  rcases Nat.lt_or_ge k a.length with hlt | hge
  · rw [List.getElem?_append_left hlt] at hk
    exact ha k run hk
  · rw [List.getElem?_append_right hge] at hk
    have h := hb _ run hk
    rwa [Hook.name_after, Hook.script_after, Nat.add_sub_cancel' hge] at h

/-- What happened accounts for how the hooks have changed, which are numbered in the order of
registration: each has done what it does, as often as it ran, and none is lost. -/
structure Accounts (hooks : List Hook) (entries : List Entry) (hooks' : List Hook) : Prop where
  known : ∀ run ∈ runs entries, run.number < (hooks ++ registrations entries).length
  follows : ∀ (n : Nat) (hook : Hook), (hooks ++ registrations entries)[n]? = some hook →
    Follows hook (runsOf n entries)
  left : ∀ n : Nat, hooks'[n]? =
    ((hooks ++ registrations entries)[n]?).map fun hook => hook.after (runsOf n entries).length

namespace Accounts

theorem nil (hooks : List Hook) : Accounts hooks [] hooks where
  known := by simp
  follows := by simp [Follows, runsOf]
  left n := by simp [runsOf]

theorem registered (hooks : List Hook) (hook : Hook) :
    Accounts hooks [.registered hook] (hooks ++ [hook]) where
  known := by simp
  follows := by simp [Follows, runsOf]
  left n := by simp [runsOf]

variable {hooks mid hooks' : List Hook} {entries a b : List Entry}

theorem eq_mapIdx (h : Accounts hooks entries hooks') :
    hooks' = (hooks ++ registrations entries).mapIdx fun n hook =>
      hook.after (runsOf n entries).length := by
  refine List.ext_getElem? fun n => ?_
  rw [h.left, List.getElem?_mapIdx]

theorem length_eq (h : Accounts hooks entries hooks') :
    hooks'.length = hooks.length + (registrations entries).length := by
  rw [h.eq_mapIdx, List.length_mapIdx, List.length_append]

theorem length_behind {before : List Hook}
    (h : Accounts (before ++ hooks) entries (before ++ hooks')) :
    hooks'.length = hooks.length + (registrations entries).length := by
  have := h.length_eq
  simp only [List.length_append] at this
  omega

/-- A hook that is registered later has not run. -/
theorem runsOf_later (h : Accounts hooks entries hooks') {n : Nat}
    (hn : (hooks ++ registrations entries).length ≤ n) : runsOf n entries = [] := by
  refine runsOf_eq_nil fun run hrun heq => ?_
  have := h.known run hrun
  omega

theorem getElem?_mid (h : Accounts hooks a mid) (n : Nat) (more : List Hook) :
    (mid ++ more)[n]? = ((hooks ++ registrations a ++ more)[n]?).map fun hook =>
      hook.after (runsOf n a).length := by
  have hlength : mid.length = (hooks ++ registrations a).length := by
    rw [h.length_eq, List.length_append]
  rcases Nat.lt_or_ge n mid.length with hlt | hge
  · rw [List.getElem?_append_left hlt, List.getElem?_append_left (hlength ▸ hlt), h.left]
  · rw [List.getElem?_append_right hge, List.getElem?_append_right (hlength ▸ hge), hlength,
      h.runsOf_later (hlength ▸ hge)]
    simp

theorem append (ha : Accounts hooks a mid) (hb : Accounts mid b hooks') :
    Accounts hooks (a ++ b) hooks' where
  known := by
    intro run hrun
    rw [registrations_append, List.length_append, List.length_append]
    rw [runs_append, List.mem_append] at hrun
    rcases hrun with hrun | hrun
    · have := ha.known run hrun
      rw [List.length_append] at this
      omega
    · have := hb.known run hrun
      rw [List.length_append, ha.length_eq] at this
      omega
  follows := by
    intro n hook hn
    rw [registrations_append, ← List.append_assoc] at hn
    rw [runsOf_append]
    refine Follows.append ?_ (hb.follows n _ ?_)
    · rcases Nat.lt_or_ge n (hooks ++ registrations a).length with hlt | hge
      · rw [List.getElem?_append_left hlt] at hn
        exact ha.follows n hook hn
      · rw [ha.runsOf_later hge]
        exact Follows.nil hook
    · rw [ha.getElem?_mid, hn]
      rfl
  left := by
    intro n
    rw [hb.left, ha.getElem?_mid, registrations_append, ← List.append_assoc, Option.map_map]
    simp [Function.comp_def]

/-- A run of a hook begins. -/
theorem ran (before behind : List Hook) {hook : Hook} {deeds : List Deed}
    (h : deeds.map Deed.action = hook.script 0) :
    Accounts (before ++ hook :: behind) [.ran (.mk before.length hook.name deeds)]
      (before ++ hook.after 1 :: behind) where
  known := by simp
  follows := by
    intro n other hn
    rw [runsOf_ran]
    split
    · next heq =>
      obtain rfl : before.length = n := heq
      obtain rfl : hook = other := by simpa using hn
      rintro (_ | k) run hk
      · obtain rfl : Run.mk before.length hook.name deeds = run := by simpa using hk
        exact ⟨rfl, h⟩
      · simp at hk
    · exact Follows.nil other
  left := by
    intro n
    rw [runsOf_ran]
    rcases Nat.lt_trichotomy n before.length with hlt | rfl | hgt
    · simp [List.getElem?_append_left hlt, Nat.ne_of_gt hlt]
    · simp
    · obtain ⟨k, rfl⟩ := Nat.exists_eq_add_of_lt hgt
      simp [List.getElem?_append_right, Nat.add_assoc]

end Accounts

/-! ## Weights -/

theorem weightOfHooks_append (a b : List Hook) :
    Hook.weightOfHooks (a ++ b) = Hook.weightOfHooks a + Hook.weightOfHooks b := by
  induction a with
  | nil => simp [Hook.weightOfHooks]
  | cons hook a ih => simp [Hook.weightOfHooks, ih, Nat.add_assoc]

/-- A run uses up the actions that are done in it. -/
theorem weight_eq (hook : Hook) :
    hook.weight = Hook.weightOfRun (hook.script 0) + (hook.after 1).weight := by
  rcases hook with ⟨name, _ | ⟨actions, later⟩⟩
  · simp [Hook.weight, Hook.weightOfRuns, Hook.weightOfRun, Hook.script, Hook.after]
  · simp [Hook.weight, Hook.weightOfRuns, Hook.script, Hook.after]

/-! ## Executions -/

/-- The hooks that are registered are run, as long as they have fewer actions than `bound`. Those
in `before` were taken out; they are left alone, but count for the numbers. -/
def Executes (nested : Shutdown → Trace) (bound : Nat) : Prop :=
  ∀ s : Shutdown, Hook.weightOfHooks s.hooks < bound → ∀ before : List Hook, ∃ rs : List Run,
    rs.map Run.number = List.range' before.length s.hooks.length ∧
      TimelyRuns (before.length + s.hooks.length) (before.length + s.hooks.length) rs ∧
      Accounts (before ++ s.hooks) (logOfRuns rs) (before ++ (nested s).registered.hooks) ∧
      (nested s).ran = (runs (logOfRuns rs)).map Run.name ∧
      Hook.weightOfHooks (nested s).registered.hooks ≤ Hook.weightOfHooks s.hooks

section Executions

variable {nested : Shutdown → Trace} {bound : Nat}

theorem runActions_register (t : Trace) (hook : Hook) (actions : List HookAction) :
    runActions nested t (.register hook :: actions) =
      runActions nested { t with registered := t.registered.register hook } actions := rfl

theorem runActions_execute (t : Trace) (actions : List HookAction) :
    runActions nested t (.execute :: actions) = runActions nested
      ⟨(nested t.registered).registered, t.ran ++ (nested t.registered).ran⟩ actions := rfl

/-- Every call in a run has its deed, in order. -/
theorem runActions_accounts (h : Executes nested bound) (actions : List HookAction) (t : Trace)
    (hbound : Hook.weightOfHooks t.registered.hooks + Hook.weightOfRun actions ≤ bound)
    (before : List Hook) :
    let t' := runActions nested t actions
    ∃ deeds : List Deed, deeds.map Deed.action = actions ∧
      Timely before.length (before.length + t.registered.hooks.length) deeds ∧
      Accounts (before ++ t.registered.hooks) (log deeds) (before ++ t'.registered.hooks) ∧
      t'.ran = t.ran ++ (runs (log deeds)).map Run.name ∧
      Hook.weightOfHooks t'.registered.hooks ≤
        Hook.weightOfHooks t.registered.hooks + Hook.weightOfRun actions := by
  induction actions generalizing t with
  | nil =>
    exact ⟨[], rfl, by simp [Timely], Accounts.nil _, by simp [log, runActions],
      by simp [runActions]⟩
  | cons action actions ih =>
    simp only [Hook.weightOfRun] at hbound ⊢
    cases action with
    | register hook =>
      simp only [Hook.weightOfAction] at hbound ⊢
      have hweight : Hook.weightOfHooks (t.registered.register hook).hooks =
          Hook.weightOfHooks t.registered.hooks + hook.weight := by
        simp [register, weightOfHooks_append, Hook.weightOfHooks]
      obtain ⟨deeds, hactions, htimely, haccounts, hran, hless⟩ :=
        ih { t with registered := t.registered.register hook } (by dsimp only; omega)
      have hlength : (t.registered.register hook).hooks.length = t.registered.hooks.length + 1 :=
        List.length_append
      have hfirst : Accounts (before ++ t.registered.hooks) [.registered hook]
          (before ++ (t.registered.register hook).hooks) := by
        rw [register, ← List.append_assoc]
        exact Accounts.registered _ hook
      refine ⟨.registered hook :: deeds, congrArg (_ :: ·) hactions, ?_, hfirst.append haccounts,
        hran, ?_⟩
      · rw [Timely, Nat.add_assoc, ← hlength]
        exact htimely
      · rw [runActions_register]
        dsimp only at hless
        omega
    | execute =>
      simp only [Hook.weightOfAction] at hbound ⊢
      obtain ⟨rs, hnumbers, hinside, hruns, hnames, hfewer⟩ := h t.registered (by omega) before
      obtain ⟨deeds, hactions, htimely, haccounts, hran, hless⟩ :=
        ih ⟨(nested t.registered).registered, t.ran ++ (nested t.registered).ran⟩
          (by dsimp only; omega)
      refine ⟨.executed rs :: deeds, congrArg (_ :: ·) hactions, ?_, hruns.append haccounts, ?_, ?_⟩
      · rw [Timely, Nat.add_sub_cancel_left, Nat.add_assoc, ← hruns.length_behind]
        exact ⟨hnumbers, hinside, htimely⟩
      · rw [log, Deed.log, runs_append, List.map_append, ← List.append_assoc, ← hnames]
        exact hran
      · rw [runActions_execute]
        dsimp only at hless
        omega

theorem runHook_eq (t : Trace) (hook : Hook) : runHook nested t hook =
    (hook.after 1, runActions nested { t with ran := t.ran ++ [hook.name] } (hook.script 0)) := by
  rcases hook with ⟨name, _ | ⟨actions, later⟩⟩ <;> rfl

/-- Each hook has its run, in order. -/
theorem runHooks_accounts (h : Executes nested bound) (todo : List Hook) (t : Trace)
    (hbound : Hook.weightOfHooks todo + Hook.weightOfHooks t.registered.hooks ≤ bound)
    (before : List Hook) :
    let r := runHooks nested t todo
    ∃ rs : List Run, rs.map Run.number = List.range' before.length todo.length ∧
      TimelyRuns (before.length + todo.length)
        (before.length + todo.length + t.registered.hooks.length) rs ∧
      Accounts (before ++ todo ++ t.registered.hooks) (logOfRuns rs)
        (before ++ r.1 ++ r.2.registered.hooks) ∧
      r.2.ran = t.ran ++ (runs (logOfRuns rs)).map Run.name ∧
      Hook.weightOfHooks r.1 + Hook.weightOfHooks r.2.registered.hooks ≤
        Hook.weightOfHooks todo + Hook.weightOfHooks t.registered.hooks := by
  induction todo generalizing t before with
  | nil =>
    exact ⟨[], rfl, by simp [TimelyRuns], Accounts.nil _, by simp [logOfRuns, runHooks],
      by simp [runHooks]⟩
  | cons hook todo ih =>
    have hweight := weight_eq hook
    simp only [Hook.weightOfHooks] at hbound ⊢
    obtain ⟨deeds, hactions, htimely, haccounts, hran, hless⟩ :=
      runActions_accounts h (hook.script 0) { t with ran := t.ran ++ [hook.name] }
        (by dsimp only; omega) (before ++ hook.after 1 :: todo)
    generalize ht : runActions nested { t with ran := t.ran ++ [hook.name] } (hook.script 0) = t₁
      at haccounts hran hless
    dsimp only at htimely haccounts hran hless
    obtain ⟨rs, hnumbers, hinside, hruns, hnames, hfewer⟩ :=
      ih t₁ (by omega) (before ++ [hook.after 1])
    rw [runHooks, runHook_eq, ht]
    dsimp only
    refine ⟨.mk before.length hook.name deeds :: rs, ?_, ?_, ?_, ?_, ?_⟩
    · rw [List.map_cons, hnumbers, List.length_cons, List.range'_succ, List.length_append]
      rfl
    · simp only [List.length_append, List.length_cons, List.length_nil] at htimely hinside ⊢
      rw [TimelyRuns, Nat.add_assoc (before.length + (todo.length + 1)),
        ← haccounts.length_behind]
      refine ⟨htimely, ?_⟩
      rwa [Nat.add_comm todo.length, ← Nat.add_assoc]
    · have hbegins := Accounts.ran before (todo ++ t.registered.hooks) hactions
      have hruns' := (hbegins.append (by simpa using haccounts)).append (by simpa using hruns)
      simpa [logOfRuns] using hruns'
    · rw [hnames, hran]
      simp [logOfRuns, Run.name]
    · rw [Hook.weightOfHooks]
      omega

/-- Running all hooks runs each of them, and puts those that were registered meanwhile behind. -/
theorem executeWithin_executes (depth : Nat) : Executes (executeWithin depth) depth := by
  induction depth with
  | zero => exact fun s hs => absurd hs (Nat.not_lt_zero _)
  | succ depth ih =>
    intro s hs before
    have hempty : Hook.weightOfHooks empty.hooks = 0 := rfl
    obtain ⟨rs, hnumbers, hinside, hruns, hnames, hfewer⟩ :=
      runHooks_accounts ih s.hooks ⟨empty, []⟩ (by dsimp only; omega) before
    refine ⟨rs, hnumbers, hinside, ?_, hnames, ?_⟩
    · simpa [executeWithin, empty] using hruns
    · simpa [executeWithin, weightOfHooks_append, hempty] using hfewer

/-- The depth that is taken is always enough. -/
theorem execute_executes (bound : Nat) : Executes execute bound :=
  fun s _ before => executeWithin_executes _ s (Nat.lt_succ_self _) before

end Executions

/-! ## Sequences of calls -/

/-- An execution that is timely runs the hooks that are registered and that the execution around
it has not taken. -/
theorem numbers_of_timely {first known : Nat} {earlier later : List Deed} {rs : List Run}
    (h : Timely first known (earlier ++ .executed rs :: later)) :
    rs.map Run.number =
      List.range' first (known + (registrations (log earlier)).length - first) := by
  induction earlier generalizing known with
  | nil =>
    rw [List.nil_append, Timely] at h
    simpa [log] using h.1
  | cons deed earlier ih =>
    cases deed with
    | registered hook =>
      rw [List.cons_append, Timely] at h
      have := ih h
      simpa [log, Deed.log, Nat.add_assoc, Nat.add_comm 1] using this
    | executed rs' =>
      rw [List.cons_append, Timely] at h
      have := ih h.2.2
      simpa [log, Deed.log, Nat.add_assoc] using this

/-- Hooks run once each and in order, and none is lost. Whatever is called, and whatever hooks call
when they run, there is a history of what came of each call. In it an outermost execution runs the
hooks that were registered before, each once and in the order of registration, and a nested one
those that the executions around it have not taken. Every run is one of a registered hook and does
what this hook does next, and no other hook runs. In the end the old hooks are registered, and
behind them the new ones in the order of registration, each as its runs have left it. -/
theorem runActions_history (s : Shutdown) (calls : List HookAction) :
    let t := runActions execute ⟨s, []⟩ calls
    ∃ history : List Deed,
      let hooks := s.hooks ++ registrations (log history)
      history.map Deed.action = calls ∧
        (∀ earlier rs later, history = earlier ++ .executed rs :: later →
          rs.map Run.number =
            List.range (s.hooks.length + (registrations (log earlier)).length)) ∧
        Timely 0 s.hooks.length history ∧
        (∀ run ∈ runs (log history), run.number < hooks.length) ∧
        (∀ n hook, hooks[n]? = some hook → Follows hook (runsOf n (log history))) ∧
        t.ran = (runs (log history)).map Run.name ∧
        t.registered.hooks =
          hooks.mapIdx fun n hook => hook.after (runsOf n (log history)).length := by
  intro t
  obtain ⟨history, hcalls, htimely, haccounts, hran, -⟩ :=
    runActions_accounts (execute_executes _) calls ⟨s, []⟩ (Nat.le_refl _) []
  rw [List.length_nil, Nat.zero_add] at htimely
  refine ⟨history, hcalls, fun earlier rs later heq => ?_, htimely, haccounts.known,
    haccounts.follows, hran, haccounts.eq_mapIdx⟩
  rw [heq] at htimely
  rw [numbers_of_timely htimely, List.range_eq_range', Nat.sub_zero]

/-- A hook that registers two others the first time it runs, and in between runs the first one. -/
def nesting : Hook := .mk "a" [[.register (.mk "b" []), .execute, .register (.mk "c" [])]]

example : (runActions execute ⟨empty, []⟩
    [.register nesting, .register (.mk "d" []), .execute, .execute]).ran =
      ["a", "b", "d", "a", "d", "b", "c"] := by
  decide

end Shutdown

end CilCoverage
