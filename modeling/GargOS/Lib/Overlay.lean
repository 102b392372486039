import GargOS.Lib.ByteMemory

/-!
Partial maps placed over a total one, one after another, and the contents of
spans of memory as such maps.
-/

namespace Overlay
open ByteMemory

section Maps
variable {α β : Type}

def overlaid (p : α → Option β) (m : α → β) : α → β := fun x => (p x).getD (m x)

/-- The first `n` of the maps, each over those before it. -/
def overlays (p : Nat → α → Option β) (m : α → β) : Nat → α → β
  | 0 => m
  | n + 1 => overlaid (p n) (overlays p m n)

theorem overlaid_rest (p : α → Option β) (m : α → β) (x : α) (rest : p x = none) : overlaid p m x = m x := by
  rw [overlaid, rest, Option.getD_none]

theorem overlaid_held (p : α → Option β) (m : α → β) (x : α) (b : β) (held : p x = some b) :
    overlaid p m x = b := by
  rw [overlaid, held, Option.getD_some]

variable (p : Nat → α → Option β) (m : α → β)

theorem overlays_rest (n : Nat) (x : α) (rest : ∀ i, i < n → p i x = none) : overlays p m n x = m x := by
  induction n with
  | zero => rfl
  | succ n ih =>
      rw [overlays, overlaid_rest _ _ _ (rest n (Nat.lt_succ_self n))]
      exact ih fun i bound => rest i (by omega)

theorem overlays_held (n : Nat) (x : α) (b : β) (i : Nat) (bound : i < n) (held : p i x = some b)
    (alone : ∀ k, k < n → k ≠ i → p k x = none) : overlays p m n x = b := by
  induction n with
  | zero => omega
  | succ n ih =>
      by_cases last : i = n
      · subst last
        exact overlaid_held _ _ _ _ held
      · rw [overlays, overlaid_rest _ _ _ (alone n (Nat.lt_succ_self n) (Ne.symm last))]
        exact ih (by omega) fun k below other => alone k (by omega) other

theorem overlays_cases (n : Nat) (x : α) :
    ((∀ i, i < n → p i x = none) ∧ overlays p m n x = m x) ∨
      ∃ i, i < n ∧ p i x = some (overlays p m n x) := by
  induction n with
  | zero => exact Or.inl ⟨fun i bound => by omega, rfl⟩
  | succ n ih =>
      cases held : p n x with
      | some b =>
          refine Or.inr ⟨n, Nat.lt_succ_self n, ?_⟩
          rw [overlays, overlaid_held _ _ _ _ held, held]
      | none =>
          rw [overlays, overlaid_rest _ _ _ held]
          rcases ih with ⟨rest, same⟩ | ⟨i, bound, value⟩
          · refine Or.inl ⟨fun i bound => ?_, same⟩
            by_cases last : i = n
            · rw [last, held]
            · exact rest i (by omega)
          · exact Or.inr ⟨i, by omega, value⟩

end Maps

/-- The bytes `f 0`, `f 1`, … of a span. -/
def spread (a : Word) (n : Nat) (f : Nat → Byte) : Word → Option Byte :=
  fun x => if InSpan a n x then some (f (x - a).toNat) else none

variable (a : Word) (n : Nat) (f : Nat → Byte) (m : Memory)

theorem spread_outside (x : Word) (outside : ¬ InSpan a n x) : spread a n f x = none := if_neg outside

theorem spread_inside (x : Word) (inside : InSpan a n x) : spread a n f x = some (f (x - a).toNat) :=
  if_pos inside

theorem spread_at (j : Nat) (inside : j < n) (bound : j < 2 ^ 32) :
    spread a n f (a + BitVec.ofNat 32 j) = some (f j) := by
  have offset : (a + BitVec.ofNat 32 j - a).toNat = j := by bv_omega
  rw [spread_inside, offset]
  unfold InSpan
  omega

theorem spread_congr (g : Nat → Byte) (same : ∀ j, j < n → f j = g j) : spread a n f = spread a n g := by
  funext x
  by_cases inside : InSpan a n x
  · rw [spread_inside _ _ _ _ inside, spread_inside _ _ _ _ inside, same _ inside]
  · rw [spread_outside _ _ _ _ inside, spread_outside _ _ _ _ inside]

theorem overlaid_spread_zero : overlaid (spread a 0 f) m = m := by
  funext x
  exact overlaid_rest _ _ _ (spread_outside _ _ _ _ (Nat.not_lt_zero _))

theorem overlaid_spread_append (k : Nat) (bound : n + k ≤ 2 ^ 32) :
    overlaid (spread (a + BitVec.ofNat 32 n) k fun j => f (n + j)) (overlaid (spread a n f) m) =
      overlaid (spread a (n + k) f) m := by
  funext x
  by_cases first : InSpan a n x
  · have behind : ¬ InSpan (a + BitVec.ofNat 32 n) k x := by
      unfold InSpan at first ⊢
      bv_omega
    have inside : InSpan a (n + k) x := Nat.lt_of_lt_of_le first (by omega)
    rw [overlaid_rest _ _ _ (spread_outside _ _ _ _ behind), overlaid_held _ _ _ _ (spread_inside _ _ _ _ first),
      overlaid_held _ _ _ _ (spread_inside _ _ _ _ inside)]
  · by_cases second : InSpan (a + BitVec.ofNat 32 n) k x
    · have offset : n + (x - (a + BitVec.ofNat 32 n)).toNat = (x - a).toNat := by
        unfold InSpan at first second
        bv_omega
      have inside : InSpan a (n + k) x := by
        unfold InSpan at second ⊢
        omega
      rw [overlaid_held _ _ _ _ (spread_inside _ _ _ _ second), overlaid_held _ _ _ _ (spread_inside _ _ _ _ inside),
        offset]
    · have outside : ¬ InSpan a (n + k) x := by
        unfold InSpan at first second ⊢
        bv_omega
      rw [overlaid_rest _ _ _ (spread_outside _ _ _ _ second), overlaid_rest _ _ _ (spread_outside _ _ _ _ first),
        overlaid_rest _ _ _ (spread_outside _ _ _ _ outside)]

theorem overlaid_spread_succ (bound : n < 2 ^ 32) :
    overlaid (spread a (n + 1) f) m = write (overlaid (spread a n f) m) (a + BitVec.ofNat 32 n) (f n) := by
  rw [← overlaid_spread_append a n f m 1 bound]
  funext x
  by_cases here : x = a + BitVec.ofNat 32 n
  · subst here
    rw [overlaid_held _ _ _ _ (spread_inside _ _ _ _ (base_in_span _ _ Nat.one_pos)), write, if_pos rfl,
      BitVec.sub_self, BitVec.toNat_zero, Nat.add_zero]
  · have outside : ¬ InSpan (a + BitVec.ofNat 32 n) 1 x := by
      unfold InSpan
      bv_omega
    rw [overlaid_rest _ _ _ (spread_outside _ _ _ _ outside), write, if_neg here]

theorem lanes32 (b0 b1 b2 b3 : Byte) (v : Word) (joined : v = b3 ++ b2 ++ b1 ++ b0) :
    v.extractLsb' 0 8 = b0 ∧ v.extractLsb' 8 8 = b1 ∧ v.extractLsb' 16 8 = b2 ∧ v.extractLsb' 24 8 = b3 := by
  subst joined
  refine ⟨?_, ?_, ?_, ?_⟩ <;> ext i bound <;>
    simp only [BitVec.getElem_extractLsb', BitVec.getLsbD_append] <;> grind

theorem store32_spread : store32 m a (f 3 ++ f 2 ++ f 1 ++ f 0) = overlaid (spread a 4 f) m := by
  obtain ⟨zeroth, first, second, third⟩ := lanes32 (f 0) (f 1) (f 2) (f 3) _ rfl
  rw [overlaid_spread_succ a 3 f m (by decide), overlaid_spread_succ a 2 f m (by decide),
    overlaid_spread_succ a 1 f m (by decide), overlaid_spread_succ a 0 f m (by decide), overlaid_spread_zero,
    store32, zeroth, first, second, third, show a + BitVec.ofNat 32 0 = a from BitVec.add_zero a]

end Overlay
