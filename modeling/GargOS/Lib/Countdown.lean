import GargOS.Lib.Runs

/-!
Events that come in time. Where a rank goes down at each of the events that are
counted until something has happened, it happens before more of them than the
rank have come.
-/

namespace Countdown
open Runs
variable {σ κ : Type}

/-- One of the events of the run is as `goal` says, of the states before and after it. -/
def Occurs (exec : σ → κ → Option σ) (goal : σ → κ → σ → Prop) (s : σ) (events : List κ) : Prop :=
  ∃ earlier e later before after, events = earlier ++ e :: later ∧
    follow exec s earlier = some before ∧ exec before e = some after ∧ goal before e after

section Rules
variable (exec : σ → κ → Option σ) (goal : σ → κ → σ → Prop)

theorem occurs_first (s after : σ) (e : κ) (rest : List κ) (moved : exec s e = some after)
    (here : goal s e after) : Occurs exec goal s (e :: rest) :=
  ⟨[], e, rest, s, after, rfl, rfl, moved, here⟩

theorem occurs_later (s middle : σ) (e : κ) (rest : List κ) (moved : exec s e = some middle)
    (later : Occurs exec goal middle rest) : Occurs exec goal s (e :: rest) := by
  obtain ⟨earlier, e', behind, before, after, split, reached, movedToo, here⟩ := later
  refine ⟨e :: earlier, e', behind, before, after, ?_, ?_, movedToo, here⟩
  · rw [split, List.cons_append]
  · rw [follow, moved]
    exact reached

variable (valid : σ → Prop) (holds : σ → κ → Prop) (counted : κ → Bool) (rank : σ → Nat)

theorem occurs_within (events : List κ)
    (step : ∀ s after e, valid s → holds s e → exec s e = some after →
      valid after ∧ (goal s e after ∨ rank after + (if counted e then 1 else 0) ≤ rank s))
    (s after : σ) (start : valid s) (throughout : Throughout exec holds s events)
    (returned : follow exec s events = some after) :
    valid after ∧ (rank s < events.countP counted → Occurs exec goal s events) := by
  induction events generalizing s with
  | nil =>
      obtain rfl := Option.some.inj returned
      exact ⟨start, fun enough => absurd enough (Nat.not_lt_zero _)⟩
  | cons e rest ih =>
      obtain ⟨middle, moved, later⟩ := Option.bind_eq_some_iff.mp returned
      obtain ⟨kept, progress⟩ := step s middle e start throughout.1 moved
      obtain ⟨ends, further⟩ := ih middle kept (throughout.2 middle moved) later
      refine ⟨ends, fun enough => ?_⟩
      rcases progress with here | less
      · exact occurs_first exec goal s middle e rest moved here
      · refine occurs_later exec goal s middle e rest moved (further ?_)
        rw [List.countP_cons] at enough
        omega

end Rules
end Countdown
