import Mathlib.Data.List.Basic

/-!
Calls that are made one after the other, of which one may not return. What is
called is then the list of the calls up to the first one that stops, and a
computation that makes them ends in an error there.
-/

namespace StoppedCalls
variable {α σ : Type}

/-- The elements up to the first one that stops, which is called as well. -/
def called (stops : α → Bool) : List α → List α
  | [] => []
  | x :: rest => x :: if stops x then [] else called stops rest

section Lists
variable (stops : α → Bool)

theorem called_append (xs ys : List α) (returns : ∀ x ∈ xs, stops x = false) :
    called stops (xs ++ ys) = xs ++ called stops ys := by
  induction xs with
  | nil => rfl
  | cons x rest ih =>
      obtain ⟨here, later⟩ := List.forall_mem_cons.mp returns
      rw [List.cons_append, called, here, if_neg Bool.false_ne_true, ih later, List.cons_append]

theorem called_all (xs : List α) (returns : ∀ x ∈ xs, stops x = false) : called stops xs = xs := by
  have whole := called_append stops xs [] returns
  rwa [List.append_nil, called, List.append_nil] at whole

theorem called_stopped (xs ys : List α) (stopped : ∃ x ∈ xs, stops x = true) :
    called stops (xs ++ ys) = called stops xs := by
  induction xs with
  | nil =>
      obtain ⟨x, member, _⟩ := stopped
      exact absurd member List.not_mem_nil
  | cons x rest ih =>
      rw [List.cons_append, called, called]
      by_cases here : stops x = true
      · rw [if_pos here, if_pos here]
      · have later : ∃ x ∈ rest, stops x = true := by
          obtain ⟨y, member, stop⟩ := stopped
          rcases List.mem_cons.mp member with rfl | later
          · exact absurd stop here
          · exact ⟨y, later, stop⟩
        rw [if_neg here, if_neg here, ih later]

theorem called_sublist (xs : List α) : (called stops xs).Sublist xs := by
  induction xs with
  | nil => exact List.Sublist.refl _
  | cons x rest ih =>
      rw [called]
      split
      · exact (List.nil_sublist rest).cons_cons x
      · exact ih.cons_cons x

variable (r : α → α → Prop) (asymmetric : ∀ a b, r a b → ¬ r b a)
include asymmetric

/-- In order, an element is called if nothing before it stops. -/
theorem mem_called_iff (xs : List α) (ordered : xs.Pairwise r) (y : α) :
    y ∈ called stops xs ↔ y ∈ xs ∧ ∀ x ∈ xs, r x y → stops x = false := by
  induction xs with
  | nil => simp [called]
  | cons x rest ih =>
      obtain ⟨first, later⟩ := List.pairwise_cons.mp ordered
      rw [called, List.mem_cons, List.mem_cons, List.forall_mem_cons]
      constructor
      · rintro (rfl | inside)
        · exact ⟨Or.inl rfl, fun same => absurd same (asymmetric _ _ same),
            fun x member before => absurd (first x member) (asymmetric _ _ before)⟩
        · split at inside
          next stop => exact absurd inside List.not_mem_nil
          next returns =>
            obtain ⟨member, before⟩ := (ih later).mp inside
            exact ⟨Or.inr member, fun _ => Bool.eq_false_iff.mpr returns, before⟩
      · rintro ⟨rfl | member, here, before⟩
        · exact Or.inl rfl
        · rw [here (first y member), if_neg Bool.false_ne_true]
          exact Or.inr ((ih later).mpr ⟨member, before⟩)

/-- All are called exactly if none stops but the last. -/
theorem called_eq_iff (xs : List α) (ordered : xs.Pairwise r) :
    called stops xs = xs ↔ ∀ x ∈ xs, ∀ y ∈ xs, r x y → stops x = false := by
  constructor
  · intro whole x here y there
    rw [← whole] at there
    exact ((mem_called_iff stops r asymmetric xs ordered y).mp there).2 x here
  · intro returns
    induction xs with
    | nil => rfl
    | cons x rest ih =>
        obtain ⟨first, later⟩ := List.pairwise_cons.mp ordered
        rw [called]
        refine congrArg (List.cons x) ?_
        cases rest with
        | nil => exact ite_self _
        | cons y more =>
            have here := returns x List.mem_cons_self y (List.mem_cons_of_mem x List.mem_cons_self)
              (first y List.mem_cons_self)
            rw [here, if_neg Bool.false_ne_true]
            exact ih later fun a member b other =>
              returns a (List.mem_cons_of_mem x member) b (List.mem_cons_of_mem x other)

end Lists

theorem bound_for_all (p : α → Nat → Prop) (xs : List α)
    (each : ∀ x ∈ xs, ∃ enough, ∀ n ≥ enough, p x n) : ∃ enough, ∀ n ≥ enough, ∀ x ∈ xs, p x n := by
  induction xs with
  | nil => exact ⟨0, fun _ _ x member => absurd member List.not_mem_nil⟩
  | cons x rest ih =>
      obtain ⟨here, later⟩ := List.forall_mem_cons.mp each
      obtain ⟨enough, first⟩ := here
      obtain ⟨enough', others⟩ := ih later
      refine ⟨max enough enough', fun n large => List.forall_mem_cons.mpr ⟨?_, ?_⟩⟩
      · exact first n (Nat.le_trans (Nat.le_max_left _ _) large)
      · exact others n (Nat.le_trans (Nat.le_max_right _ _) large)

/-! Computations that make the calls. -/

/-- The state a computation ends in or stops at. -/
def reached : Except σ σ → σ
  | .ok after => after
  | .error last => last

section Rules
variable (log : σ → List α) (holds : σ → Prop) (stops : α → Bool)

/-- From `s` on the calls `xs` are made, until one stops. `log` is what has been
called, and `holds` what a call needs and keeps. -/
inductive Makes (s : σ) (xs : List α) : Except σ σ → Prop
  | returned (after : σ) (held : holds after) (logged : log after = log s ++ xs)
      (returns : ∀ x ∈ xs, stops x = false) : Makes s xs (.ok after)
  | stopped (last : σ) (logged : log last = log s ++ called stops xs) (stop : ∃ x ∈ xs, stops x = true) :
      Makes s xs (.error last)

theorem makes_none (s after : σ) (held : holds after) (same : log after = log s) :
    Makes log holds stops s [] (.ok after) :=
  .returned after held (same.trans (List.append_nil _).symm) fun _ member => absurd member List.not_mem_nil

theorem makes_start (s start : σ) (xs : List α) (result : Except σ σ) (same : log start = log s)
    (makes : Makes log holds stops start xs result) : Makes log holds stops s xs result := by
  cases makes with
  | returned after held logged returns => exact .returned after held (logged.trans (by rw [same])) returns
  | stopped last logged stop => exact .stopped last (logged.trans (by rw [same])) stop

theorem makes_bind (s : σ) (first : Except σ σ) (rest : σ → Except σ σ) (xs ys : List α)
    (before : Makes log holds stops s xs first)
    (behind : ∀ middle, holds middle → Makes log holds stops middle ys (rest middle)) :
    Makes log holds stops s (xs ++ ys) (first >>= rest) := by
  cases before with
  | stopped last logged stop =>
      obtain ⟨x, member, here⟩ := stop
      refine .stopped last ?_ ⟨x, List.mem_append_left ys member, here⟩
      rw [logged, called_stopped stops xs ys ⟨x, member, here⟩]
  | returned middle held logged returns =>
      show Makes log holds stops s (xs ++ ys) (rest middle)
      have later := behind middle held
      generalize rest middle = result at later
      cases later with
      | returned after kept added further =>
          refine .returned after kept (by rw [added, logged, List.append_assoc]) fun x member => ?_
          exact (List.mem_append.mp member).elim (returns x) (further x)
      | stopped last added stop =>
          obtain ⟨x, member, here⟩ := stop
          refine .stopped last ?_ ⟨x, List.mem_append_right xs member, here⟩
          rw [added, logged, called_append stops xs ys returns, List.append_assoc]

theorem makes_log (s : σ) (xs : List α) (result : Except σ σ) (makes : Makes log holds stops s xs result) :
    log (reached result) = log s ++ called stops xs := by
  cases makes with
  | returned after _ logged returns => rw [reached, logged, called_all stops xs returns]
  | stopped last logged _ => exact logged

end Rules

end StoppedCalls
