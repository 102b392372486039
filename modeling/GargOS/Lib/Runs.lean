import Mathlib.Data.List.Basic

/-!
Runs of a step relation. A property of all states a run reaches is proved from
its start and from one step; where the property itself is not inductive, an
invariant that implies it is.
-/

namespace Runs

/-- The states that runs from `initial` by `step` reach. -/
inductive Reached {σ : Type} (initial : σ → Prop) (step : σ → σ → Prop) : σ → Prop
  | start {s : σ} : initial s → Reached initial step s
  | next {s after : σ} : Reached initial step s → step s after → Reached initial step after

inductive Leads {σ : Type} (step : σ → σ → Prop) (s : σ) : σ → Prop
  | stay : Leads step s s
  | next {middle after : σ} : Leads step s middle → step middle after → Leads step s after

section Rules
variable {σ : Type} {initial : σ → Prop} {step : σ → σ → Prop}

theorem reached_invariant (holds : σ → Prop) (base : ∀ s, initial s → holds s)
    (kept : ∀ s after, holds s → step s after → holds after) (s : σ)
    (reached : Reached initial step s) : holds s := by
  induction reached with
  | start begins => exact base _ begins
  | next _ moves ih => exact kept _ _ ih moves

theorem reached_leads (s after : σ) (reached : Reached initial step s)
    (leads : Leads step s after) : Reached initial step after := by
  induction leads with
  | stay => exact reached
  | next _ moves ih => exact Reached.next ih moves

theorem reached_from (s : σ) (reached : Reached initial step s) : ∃ begin, initial begin ∧ Leads step begin s := by
  induction reached with
  | start begins => exact ⟨_, begins, Leads.stay⟩
  | next _ moves ih =>
      obtain ⟨begin, begins, leads⟩ := ih
      exact ⟨begin, begins, Leads.next leads moves⟩

theorem leads_mono {more : σ → σ → Prop} (fewer : ∀ s after, step s after → more s after) (s after : σ)
    (leads : Leads step s after) : Leads more s after := by
  induction leads with
  | stay => exact Leads.stay
  | next _ moves ih => exact Leads.next ih (fewer _ _ moves)

theorem leads_kept (related : σ → σ → Prop) (same : ∀ s, related s s)
    (joins : ∀ s middle after, Reached initial step middle → related s middle →
      step middle after → related s after)
    (s after : σ) (reached : Reached initial step s) (leads : Leads step s after) :
    related s after := by
  induction leads with
  | stay => exact same s
  | next earlier moves ih => exact joins _ _ _ (reached_leads _ _ reached earlier) ih moves

theorem reached_mono {begin : σ → Prop} {more : σ → σ → Prop} (less : ∀ s, begin s → initial s)
    (fewer : ∀ s after, more s after → step s after) (s : σ) (reached : Reached begin more s) :
    Reached initial step s := by
  induction reached with
  | start begins => exact Reached.start (less _ begins)
  | next _ moves ih => exact Reached.next ih (fewer _ _ moves)

/-- A run given by the calls it makes, for a step that a function computes. -/
def follow {κ : Type} (exec : σ → κ → Option σ) (s : σ) : List κ → Option σ
  | [] => some s
  | call :: calls => do
      let after ← exec s call
      follow exec after calls

theorem follow_cons {κ : Type} (exec : σ → κ → Option σ) (s middle : σ) (call : κ) (calls : List κ)
    (moved : exec s call = some middle) : follow exec s (call :: calls) = follow exec middle calls := by
  rw [follow, moved]
  rfl

theorem follow_append {κ : Type} (exec : σ → κ → Option σ) (earlier later : List κ) (s middle : σ)
    (returned : follow exec s earlier = some middle) :
    follow exec s (earlier ++ later) = follow exec middle later := by
  induction earlier generalizing s with
  | nil =>
      obtain rfl := Option.some.inj returned
      rfl
  | cons call rest ih =>
      obtain ⟨next, moved, run⟩ := Option.bind_eq_some_iff.mp returned
      rw [List.cons_append, follow_cons exec s next call _ moved]
      exact ih next run

/-- `holds` of each event of the run, in the state in which the run meets it. -/
def Throughout {κ : Type} (exec : σ → κ → Option σ) (holds : σ → κ → Prop) (s : σ) : List κ → Prop
  | [] => True
  | e :: rest => holds s e ∧ ∀ after, exec s e = some after → Throughout exec holds after rest

theorem throughout_all {κ : Type} (exec : σ → κ → Option σ) (events : List κ) (s : σ) :
    Throughout exec (fun _ _ => True) s events := by
  induction events generalizing s with
  | nil => trivial
  | cons e rest ih => exact ⟨trivial, fun after _ => ih after⟩

theorem throughout_append {κ : Type} (exec : σ → κ → Option σ) (holds : σ → κ → Prop) (earlier later : List κ)
    (s : σ) (first : Throughout exec holds s earlier)
    (second : ∀ middle, follow exec s earlier = some middle → Throughout exec holds middle later) :
    Throughout exec holds s (earlier ++ later) := by
  induction earlier generalizing s with
  | nil => exact second s rfl
  | cons e rest ih =>
      refine ⟨first.1, fun after moved => ih after (first.2 after moved) fun middle run => second middle ?_⟩
      rw [follow_cons exec s after e _ moved]
      exact run

/-- What each event keeps that is as `holds` says, a run of them keeps. -/
theorem follow_kept {κ : Type} (exec : σ → κ → Option σ) (holds : σ → κ → Prop) (valid : σ → Prop)
    (kept : ∀ s after e, valid s → holds s e → exec s e = some after → valid after) (events : List κ)
    (s after : σ) (start : valid s) (throughout : Throughout exec holds s events)
    (returned : follow exec s events = some after) : valid after := by
  induction events generalizing s with
  | nil =>
      obtain rfl := Option.some.inj returned
      exact start
  | cons e rest ih =>
      obtain ⟨middle, moved, later⟩ := Option.bind_eq_some_iff.mp returned
      exact ih middle (kept s middle e start throughout.1 moved) (throughout.2 middle moved) later

/-- Calls that return a value each, with the values returned so far. -/
def answered {κ β : Type} (exec : σ → κ → Option (σ × β)) (s : σ × List β) (call : κ) : Option (σ × List β) := do
  let (after, answer) ← exec s.1 call
  some (after, s.2 ++ [answer])

/-- What each call of one machine does another one does as well, so does a run,
and the calls return the same. -/
theorem answered_simulated {τ κ β : Type} (exec : σ → κ → Option (σ × β)) (model : τ → κ → Option (τ × β))
    (related : σ → τ → Prop)
    (one : ∀ s t call after answer, related s t → exec s call = some (after, answer) →
      ∃ next, model t call = some (next, answer) ∧ related after next) (calls : List κ) (s after : σ × List β)
    (t : τ) (start : related s.1 t) (returned : follow (answered exec) s calls = some after) :
    ∃ last, follow (answered model) (t, s.2) calls = some (last, after.2) ∧ related after.1 last := by
  induction calls generalizing s t with
  | nil =>
      obtain rfl := Option.some.inj returned
      exact ⟨t, rfl, start⟩
  | cons call rest ih =>
      obtain ⟨middle, moved, later⟩ := Option.bind_eq_some_iff.mp returned
      obtain ⟨⟨reached, answer⟩, executed, same⟩ := Option.bind_eq_some_iff.mp moved
      obtain rfl := Option.some.inj same
      obtain ⟨next, modelled, again⟩ := one s.1 t call reached answer start executed
      obtain ⟨last, run, related⟩ := ih (reached, s.2 ++ [answer]) next again later
      refine ⟨last, ?_, related⟩
      rw [follow_cons (answered model) (t, s.2) (next, s.2 ++ [answer])]
      · exact run
      · rw [answered, modelled]
        rfl

theorem follow_reached {κ : Type} (exec : σ → κ → Option σ) (calls : List κ)
    (sound : ∀ s after, ∀ call ∈ calls, exec s call = some after → step s after) (s after : σ)
    (reached : Reached initial step s) (returned : follow exec s calls = some after) :
    Reached initial step after := by
  induction calls generalizing s with
  | nil =>
      obtain rfl := Option.some.inj returned
      exact reached
  | cons call calls ih =>
      obtain ⟨middle, first, later⟩ := Option.bind_eq_some_iff.mp returned
      have moves := sound s middle call List.mem_cons_self first
      exact ih (fun s after call member => sound s after call (List.mem_cons_of_mem _ member)) middle
        (Reached.next reached moves) later

end Rules
end Runs
