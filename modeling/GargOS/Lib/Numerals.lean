import Mathlib.Data.Nat.Digits.Lemmas

/-!
Numerals as lists of digits, highest first: the canonical one of a number, the
reading of a text, and the digits that dividing by falling powers of the base
gives.
-/

namespace Numerals

/-- Without leading zeros; 0 has one digit. -/
def numeral (base a : Nat) : List Nat := if a = 0 then [0] else (Nat.digits base a).reverse

def places (base : Nat) : Nat → Nat → List Nat
  | 0, _ => []
  | n + 1, a => a / base ^ n :: places base n (a % base ^ n)

section Reading
variable {α : Type} (digit : α → Option Nat) (base : Nat)

def readDigit (before : Nat) (symbol : α) : Option Nat := do
  let d ← digit symbol
  if d < base then some (before * base + d) else none

/-- The number a text names; `none` if one of its symbols is no digit of the base. -/
def readNumeral (text : List α) : Option Nat := text.foldlM (readDigit digit base) 0

structure Spells (text : List α) (a : Nat) : Prop where
  written : text ≠ []
  reads : readNumeral digit base text = some a
  leading : ∀ first rest, text = first :: rest → digit first = some 0 → a = 0 ∧ rest = []

end Reading

theorem of_digits_fold (base : Nat) (digits : List Nat) (before : Nat) :
    digits.foldl (fun before d => before * base + d) before =
      before * base ^ digits.length + Nat.ofDigits base digits.reverse := by
  induction digits generalizing before with
  | nil => simp
  | cons d digits ih =>
      rw [List.foldl_cons, ih, Nat.ofDigits_reverse_cons, List.length_cons, Nat.pow_succ]
      ring

theorem read_digits {α : Type} (digit : α → Option Nat) (base : Nat) (write : Nat → α)
    (inverse : ∀ d < base, digit (write d) = some d) (digits : List Nat) (valid : ∀ d ∈ digits, d < base)
    (before : Nat) : (digits.map write).foldlM (readDigit digit base) before =
      some (digits.foldl (fun before d => before * base + d) before) := by
  induction digits generalizing before with
  | nil => rfl
  | cons d digits ih =>
      have here := valid d List.mem_cons_self
      have step : readDigit digit base before (write d) = some (before * base + d) := by
        simp only [readDigit, inverse d here, Option.bind_eq_bind, Option.bind_some, if_pos here]
      rw [List.map_cons, List.foldlM_cons, step, List.foldl_cons]
      exact ih (fun d member => valid d (List.mem_cons_of_mem _ member)) _

section Canonical
variable (base : Nat) (many : 1 < base)
include many

theorem numeral_valid (a d : Nat) (member : d ∈ numeral base a) : d < base := by
  rw [numeral] at member
  split at member
  · rw [List.mem_singleton] at member
    omega
  · exact Nat.digits_lt_base many (List.mem_reverse.mp member)

omit many in
theorem numeral_leading (a : Nat) (rest : List Nat) (zero : numeral base a = 0 :: rest) : a = 0 ∧ rest = [] := by
  rw [numeral] at zero
  split at zero
  next none => exact ⟨none, (List.cons.inj zero).2.symm⟩
  next positive =>
    have digits : Nat.digits base a = rest.reverse ++ [0] := by
      rw [← List.reverse_reverse (Nat.digits base a), zero, List.reverse_cons]
    have last := Nat.getLast_digit_ne_zero base positive
    simp only [digits, List.getLast_append_singleton] at last
    exact absurd rfl last

omit many in
theorem numeral_value (a : Nat) : Nat.ofDigits base (numeral base a).reverse = a := by
  rw [numeral]
  split
  next none => simp [none]
  next => rw [List.reverse_reverse, Nat.ofDigits_digits]

/-- Writing the digits with symbols that can be told apart gives the canonical numeral. -/
theorem numeral_spells {α : Type} (digit : α → Option Nat) (write : Nat → α)
    (inverse : ∀ d < base, digit (write d) = some d) (a : Nat) :
    Spells digit base ((numeral base a).map write) a := by
  have valid := numeral_valid base many a
  refine ⟨?_, ?_, fun first rest text zero => ?_⟩
  · rw [ne_eq, List.map_eq_nil_iff, numeral]
    split
    · simp
    next positive =>
      rw [List.reverse_eq_nil_iff]
      exact Nat.digits_ne_nil_iff_ne_zero.mpr positive
  · rw [readNumeral, read_digits digit base write inverse _ valid, of_digits_fold, Nat.zero_mul, Nat.zero_add,
      numeral_value]
  · obtain ⟨d, others, shape, rfl, rfl⟩ := List.map_eq_cons_iff.mp text
    have less := valid d (by rw [shape]; exact List.mem_cons_self)
    rw [inverse d less] at zero
    obtain rfl := Option.some.inj zero
    obtain ⟨none, alone⟩ := numeral_leading base a others shape
    exact ⟨none, by rw [alone]; rfl⟩

omit many in
theorem places_length (n a : Nat) : (places base n a).length = n := by
  induction n generalizing a with
  | zero => rfl
  | succ n ih => rw [places, List.length_cons, ih]

theorem places_value (n a : Nat) (fits : a < base ^ n) : Nat.ofDigits base (places base n a).reverse = a := by
  have positive : ∀ n, 0 < base ^ n := fun n => Nat.pow_pos (by omega)
  induction n generalizing a with
  | zero =>
      rw [Nat.pow_zero] at fits
      simp only [places, List.reverse_nil, Nat.ofDigits_nil]
      omega
  | succ n ih =>
      rw [places, Nat.ofDigits_reverse_cons, ih _ (Nat.mod_lt _ (positive n)), places_length]
      exact Nat.mod_add_div a (base ^ n)

theorem places_valid (n a : Nat) (fits : a < base ^ n) : ∀ d ∈ places base n a, d < base := by
  have positive : ∀ n, 0 < base ^ n := fun n => Nat.pow_pos (by omega)
  induction n generalizing a with
  | zero => simp [places]
  | succ n ih =>
      intro d member
      rcases List.mem_cons.mp member with rfl | later
      · rw [Nat.div_lt_iff_lt_mul (positive n), Nat.mul_comm, ← Nat.pow_succ]
        exact fits
      · exact ih _ (Nat.mod_lt _ (positive n)) d later

/-- From the power that is not above the number on, the digits are the numeral's. -/
theorem places_numeral (n a : Nat) (least : base ^ n ≤ a) (fits : a < base ^ (n + 1)) :
    places base (n + 1) a = numeral base a := by
  have power : 0 < base ^ n := Nat.pow_pos (by omega)
  have leads : 0 < a / base ^ n := Nat.div_pos least power
  have digits := Nat.digits_ofDigits base many (places base (n + 1) a).reverse
    (fun d member => places_valid base many (n + 1) a fits d (List.mem_reverse.mp member)) fun some => by
      rw [List.getLast_reverse]
      simp only [places, List.head_cons]
      omega
  rw [places_value base many (n + 1) a fits] at digits
  rw [numeral, if_neg (by omega), digits, List.reverse_reverse]

end Canonical
end Numerals
