import Mathlib.Data.List.Basic

/-!
A machine that emits something at each input. What holds at every input of a
word, in the state the inputs before it lead to; and when two machines in
step with each other emit the same.
-/

namespace Emission
variable {σ τ α β : Type}

def Along (step : σ → α → σ) (holds : σ → α → Prop) (s : σ) : List α → Prop
  | [] => True
  | a :: rest => holds s a ∧ Along step holds (step s a) rest

def emits (step : σ → α → σ) (out : σ → α → List β) (s : σ) : List α → List β
  | [] => []
  | a :: rest => out s a ++ emits step out (step s a) rest

section Along
variable (step : σ → α → σ) (holds : σ → α → Prop)

theorem along_iff (s : σ) (word : List α) : Along step holds s word ↔
    ∀ before a after, word = before ++ a :: after → holds (before.foldl step s) a := by
  induction word generalizing s with
  | nil => simp [Along]
  | cons first rest ih =>
      rw [Along, ih]
      constructor
      · rintro ⟨here, later⟩ before a after split
        cases before with
        | nil =>
            obtain ⟨rfl, _⟩ := List.cons.inj split
            exact here
        | cons b before =>
            obtain ⟨rfl, behind⟩ := List.cons.inj split
            exact later before a after behind
      · intro all
        exact ⟨all [] first rest rfl, fun before a after behind =>
          all (first :: before) a after (by rw [behind, List.cons_append])⟩

end Along

/-- Two machines whose states stay related and which emit equally much at each
input: they emit the same exactly if they agree at each input. -/
theorem emits_eq_iff (step : σ → α → σ) (out : σ → α → List β) (step' : τ → α → τ)
    (out' : τ → α → List β) (f : α → α) (related : σ → τ → Prop) (agrees : σ → α → Prop)
    (keeps : ∀ s t a, related s t → related (step s a) (step' t (f a)))
    (amount : ∀ s t a, related s t → (out' t (f a)).length = (out s a).length)
    (same : ∀ s t a, related s t → (out' t (f a) = out s a ↔ agrees s a))
    (s : σ) (t : τ) (start : related s t) (word : List α) :
    emits step' out' t (word.map f) = emits step out s word ↔ Along step agrees s word := by
  induction word generalizing s t with
  | nil => exact iff_of_true rfl trivial
  | cons a rest ih =>
      rw [Along, ← same s t a start, ← ih _ _ (keeps s t a start), List.map_cons, emits, emits]
      constructor
      · exact fun equal => List.append_inj equal (amount s t a start)
      · rintro ⟨here, later⟩
        rw [here, later]

end Emission
