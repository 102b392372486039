import GargOS.Lib.Runs

/-!
Noninterference of a deterministic machine by unwinding. An observer keeps some
of the events of a run; leaving out the others makes no difference to it if an
event that is left out leads to a state alike, and one that is kept does the
same in states that are alike.
-/

namespace Unwinding
open Runs
variable {σ κ : Type}

/-- The events of a run that the observer keeps, each judged in the state in
which the whole run meets it. -/
def purge (exec : σ → κ → Option σ) (keeps : σ → κ → Prop) [∀ s e, Decidable (keeps s e)] (s : σ) :
    List κ → List κ
  | [] => []
  | e :: rest =>
      match exec s e with
      | none => []
      | some after =>
          if keeps s e then e :: purge exec keeps after rest else purge exec keeps after rest

/-- What a relation between states has to keep, step by step. The states of the
run and those of the run of the kept events may have invariants of their own. -/
structure Unwinds (exec : σ → κ → Option σ) (keeps allowed : σ → κ → Prop) (valid validToo : σ → Prop)
    (alike : σ → σ → Prop) : Prop where
  kept : ∀ s after e, valid s → allowed s e → exec s e = some after → valid after
  consistent : ∀ s t e after, valid s → validToo t → alike s t → keeps s e → exec s e = some after →
    ∃ other, exec t e = some other ∧ validToo other ∧ alike after other
  respects : ∀ s t e after, valid s → alike s t → allowed s e → ¬ keeps s e → exec s e = some after →
    alike after t

section Rules
variable (exec : σ → κ → Option σ) (keeps : σ → κ → Prop) [∀ s e, Decidable (keeps s e)]

theorem purge_cons (s after : σ) (e : κ) (rest : List κ) (moved : exec s e = some after) :
    purge exec keeps s (e :: rest) =
      if keeps s e then e :: purge exec keeps after rest else purge exec keeps after rest := by
  rw [purge, moved]

/-- Where the observer judges by the event alone. -/
theorem purge_filter (kept : κ → Bool) (judged : ∀ s e, keeps s e ↔ kept e = true) (events : List κ) (s after : σ)
    (returned : follow exec s events = some after) : purge exec keeps s events = events.filter kept := by
  induction events generalizing s with
  | nil => rfl
  | cons e rest ih =>
      obtain ⟨middle, moved, later⟩ := Option.bind_eq_some_iff.mp returned
      rw [purge_cons exec keeps s middle e rest moved, ih middle later]
      by_cases shown : kept e = true
      · rw [if_pos ((judged s e).mpr shown), List.filter_cons_of_pos shown]
      · rw [if_neg fun here => shown ((judged s e).mp here), List.filter_cons_of_neg shown]

variable (allowed : σ → κ → Prop) (valid validToo : σ → Prop) (alike : σ → σ → Prop)
  (unwinds : Unwinds exec keeps allowed valid validToo alike)
include unwinds

/-- The run of the kept events goes through whenever the whole run does, and
the two end in states that are alike. -/
theorem purged_run (events : List κ) (s t after : σ) (holds : valid s) (holdsToo : validToo t)
    (same : alike s t) (throughout : Throughout exec allowed s events)
    (returned : follow exec s events = some after) :
    ∃ other, follow exec t (purge exec keeps s events) = some other ∧ valid after ∧ validToo other ∧
      alike after other := by
  induction events generalizing s t with
  | nil =>
      obtain rfl := Option.some.inj returned
      exact ⟨t, rfl, holds, holdsToo, same⟩
  | cons e rest ih =>
      obtain ⟨middle, moved, later⟩ := Option.bind_eq_some_iff.mp returned
      have holdsNext := unwinds.kept s middle e holds throughout.1 moved
      have throughoutNext := throughout.2 middle moved
      rw [purge_cons exec keeps s middle e rest moved]
      by_cases shown : keeps s e
      · rw [if_pos shown]
        obtain ⟨beside, movedToo, holdsBeside, sameNext⟩ :=
          unwinds.consistent s t e middle holds holdsToo same shown moved
        obtain ⟨other, purged, ends⟩ := ih middle beside holdsNext holdsBeside sameNext throughoutNext later
        refine ⟨other, ?_, ends⟩
        rw [follow, movedToo]
        exact purged
      · rw [if_neg shown]
        exact ih middle t holdsNext holdsToo
          (unwinds.respects s t e middle holds same throughout.1 shown moved) throughoutNext later

end Rules

end Unwinding
