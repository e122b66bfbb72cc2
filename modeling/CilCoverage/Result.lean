/-
  What computations report: failures, and lines of a log.

  A chain of steps succeeds if every step does (`bind_eq_ok`), and fails with
  the error of the first step that does not (`error?_bind`, `error?_mapM`).
-/

namespace CilCoverage

/-! ## Logs -/

/-- How much a log line matters. -/
inductive LogLevel where
  | debug
  | info
  | warn
  | error
  deriving DecidableEq, Repr

/-- A line of the log. -/
structure LogLine where
  level : LogLevel
  text : String
  deriving DecidableEq, Repr

/-- Log lines in the order they were written. -/
abbrev Log := List LogLine

/-! ## Failures -/

namespace Result

variable {ε α β : Type}

theorem bind_eq_ok {x : Except ε α} {f : α → Except ε β} {b : β} :
    (x >>= f) = .ok b ↔ ∃ a, x = .ok a ∧ f a = .ok b := by
  cases x with
  | error e => simp [bind, Except.bind]
  | ok a => simp [bind, Except.bind]

theorem bind_eq_error {x : Except ε α} {f : α → Except ε β} {e : ε} :
    (x >>= f) = .error e ↔ x = .error e ∨ ∃ a, x = .ok a ∧ f a = .error e := by
  cases x with
  | error e => simp [bind, Except.bind]
  | ok a => simp [bind, Except.bind]

theorem map_eq_ok {x : Except ε α} {f : α → β} {b : β} :
    x.map f = .ok b ↔ ∃ a, x = .ok a ∧ f a = b := by
  cases x with
  | error e => simp [Except.map]
  | ok a => simp [Except.map]

theorem mapError_eq_ok {ε' : Type} {x : Except ε α} {f : ε → ε'} {a : α} :
    x.mapError f = .ok a ↔ x = .ok a := by
  cases x with
  | error e => exact ⟨nofun, nofun⟩
  | ok b =>
    show Except.ok b = Except.ok a ↔ _
    rw [Except.ok.injEq, Except.ok.injEq]

/-- The error of a computation that fails. -/
def error? : Except ε α → Option ε
  | .error e => some e
  | .ok _ => none

theorem error?_eq_some {x : Except ε α} {e : ε} : error? x = some e ↔ x = .error e := by
  cases x <;> simp [error?]

theorem error?_eq_none {x : Except ε α} : error? x = none ↔ ∃ a, x = .ok a := by
  cases x <;> simp [error?]

@[simp] theorem error?_map (x : Except ε α) (f : α → β) : error? (x.map f) = error? x := by
  cases x <;> rfl

/-- The error of the first part comes first. What the rest reports does not depend on the
result. -/
theorem error?_bind {x : Except ε α} {f : α → Except ε β} {o : Option ε}
    (h : ∀ a, error? (f a) = o) : error? (x >>= f) = (error? x).or o := by
  cases x with
  | error e => rfl
  | ok a => exact h a

theorem error?_bind_ok (x : Except ε α) (f : α → β) :
    error? (x >>= fun a => .ok (f a)) = error? x := by
  cases x <;> rfl

/-- A traversal reports the first error it meets. -/
theorem error?_mapM (f : α → Except ε β) (xs : List α) :
    error? (xs.mapM f) = xs.findSome? fun x => error? (f x) := by
  induction xs with
  | nil => rfl
  | cons x xs ih =>
    have hrest : ∀ y, error? (xs.mapM f >>= fun ys => .ok (y :: ys)) = error? (xs.mapM f) :=
      fun y => error?_bind_ok (xs.mapM f) (y :: ·)
    rw [List.mapM_cons, List.findSome?_cons, ← ih]
    refine (error?_bind hrest).trans ?_
    cases error? (f x) <;> rfl

end Result

end CilCoverage
