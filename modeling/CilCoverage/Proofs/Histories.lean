/-
  Calls on a state, and the history they leave.

  Calls are made one after the other, and each is kept with what it returned.
  What holds of a state and the calls so far, whatever they are, is shown by one
  call (`perform_induction`), and every call of a history was made on the state
  that those before it left (`perform_of_history_eq`). Calls that change nothing
  may be left out (`perform_filter`).
-/
import Mathlib.Data.List.Induction

namespace CilCoverage

variable {State Call Answer : Type}

/-- The calls that were made, with what they returned, and the state that is left. -/
structure Performed (State Call Answer : Type) where
  history : List (Call × Answer)
  state : State

/-- Makes calls one after the other. -/
def perform (step : State → Call → Answer × State) (s : State) :
    List Call → Performed State Call Answer
  | [] => ⟨[], s⟩
  | call :: calls =>
    let rest := perform step (step s call).2 calls
    ⟨(call, (step s call).1) :: rest.history, rest.state⟩

variable {step : State → Call → Answer × State}

theorem perform_append (s : State) (a b : List Call) :
    perform step s (a ++ b) =
      ⟨(perform step s a).history ++ (perform step (perform step s a).state b).history,
        (perform step (perform step s a).state b).state⟩ := by
  induction a generalizing s with
  | nil => rfl
  | cons call a ih => simp only [List.cons_append, perform, ih]

theorem perform_concat (s : State) (calls : List Call) (call : Call) :
    perform step s (calls ++ [call]) =
      ⟨(perform step s calls).history ++ [(call, (step (perform step s calls).state call).1)],
        (step (perform step s calls).state call).2⟩ :=
  perform_append s calls [call]

theorem calls_perform (step : State → Call → Answer × State) (s : State) (calls : List Call) :
    (perform step s calls).history.map Prod.fst = calls := by
  induction calls generalizing s with
  | nil => rfl
  | cons call calls ih => simp only [perform, List.map_cons, ih]

/-- What holds at the start and is kept by each call holds after all calls. -/
theorem perform_induction {P : List (Call × Answer) → State → Prop} {s : State} (start : P [] s)
    (next : ∀ history s call, P history s →
      P (history ++ [(call, (step s call).1)]) (step s call).2) (calls : List Call) :
    P (perform step s calls).history (perform step s calls).state := by
  induction calls using List.reverseRecOn with
  | nil => exact start
  | append_singleton calls call ih =>
    rw [perform_concat]
    exact next _ _ call ih

/-- Every call was made on the state that those before it left. -/
theorem perform_of_history_eq {s : State} {calls : List Call}
    {earlier later : List (Call × Answer)} {call : Call} {answer : Answer}
    (h : (perform step s calls).history = earlier ++ (call, answer) :: later) :
    (perform step s (earlier.map Prod.fst)).history = earlier ∧
      (step (perform step s (earlier.map Prod.fst)).state call).1 = answer := by
  have hcalls : calls = earlier.map Prod.fst ++ call :: later.map Prod.fst := by
    rw [← calls_perform step s calls, h, List.map_append, List.map_cons]
  rw [hcalls, perform_append] at h
  have hlength : (perform step s (earlier.map Prod.fst)).history.length = earlier.length := by
    rw [← List.length_map Prod.fst, calls_perform, List.length_map]
  obtain ⟨hearlier, hlater⟩ := List.append_inj h hlength
  rw [perform] at hlater
  obtain ⟨hcall, -⟩ := List.cons.inj hlater
  exact ⟨hearlier, congrArg Prod.snd hcall⟩

/-- Calls that change nothing may be left out. -/
theorem perform_filter {idle : Answer → Bool}
    (hidle : ∀ s call, idle (step s call).1 = true → (step s call).2 = s) (s : State)
    (calls : List Call) :
    let kept := (perform step s calls).history.filter fun entry => !idle entry.2
    perform step s (kept.map Prod.fst) = ⟨kept, (perform step s calls).state⟩ := by
  induction calls generalizing s with
  | nil => rfl
  | cons call calls ih =>
    have hrest := ih (step s call).2
    simp only [perform, List.filter_cons]
    by_cases h : idle (step s call).1 = true
    · rw [hidle s call h] at hrest ⊢
      simpa [h] using hrest
    · simp only [h, Bool.not_false, if_true, List.map_cons, perform]
      rw [hrest]

end CilCoverage
