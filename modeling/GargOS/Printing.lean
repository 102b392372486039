import GargOS.Elf
import GargOS.Lib.Numerals

/-!
The numbers and formats that screen.c prints, and `puth` of elf_parse.c. What
stands for the screen is any state with a `putc`. `fuel` bounds the rounds of
each loop; a result `none` is a loop that has not ended within it.
-/

namespace GargOS.Printing
open ByteMemory Numerals

section Numbers
variable {σ : Type} (putc : σ → Byte → σ)

/-- `while(b > a)`. The divisor is an `int` in `puti` and unsigned in `puth`. -/
def scaleDown (divide : Word → Word) (a : Word) : Nat → Word → Option Word
  | 0, _ => none
  | fuel + 1, b => if b > a then scaleDown divide a fuel (divide b) else some b

/-- `while(b)`. -/
def putDigits (digit : Word → Byte) (divide : Word → Word) : Nat → σ → Word → Word → Option σ
  | 0, _, _, _ => none
  | fuel + 1, s, a, b =>
      if b ≠ 0#32 then putDigits digit divide fuel (putc s (digit (a / b))) (a % b) (divide b)
      else some s

def putNumber (digit : Word → Byte) (divide : Word → Word) (b : Word) (fuel : Nat) (s : σ) (a : Word) :
    Option σ :=
  if a = 0#32 then some (putc s 48#8)
  else do
    let b ← scaleDown divide a fuel b
    putDigits putc digit divide fuel s a b

def decimalDigit (quotient : Word) : Byte := (quotient + 48#32).setWidth 8

def hexDigit (quotient : Word) : Byte :=
  let d : Byte := quotient.setWidth 8
  if d > 9#8 then 64#8 + (d - 9#8) else (quotient + 48#32).setWidth 8

def puti (fuel : Nat) (s : σ) (a : Word) : Option σ :=
  putNumber putc decimalDigit (fun b => b.sdiv 10#32) 1000000000#32 fuel s a

def puth (fuel : Nat) (s : σ) (a : Word) : Option σ :=
  let s := "0x".toList.foldl (fun s c => putc s (BitVec.ofNat 8 c.toNat)) s
  putNumber putc hexDigit (fun b => b / 0x10#32) 0x10000000#32 fuel s a

end Numbers

/-! The texts that numbers are to have. -/

def digitChar (d : Nat) : Byte := if d < 10 then BitVec.ofNat 8 (48 + d) else BitVec.ofNat 8 (55 + d)

def digitValue (c : Byte) : Option Nat :=
  if 48 ≤ c.toNat ∧ c.toNat ≤ 57 then some (c.toNat - 48)
  else if 65 ≤ c.toNat ∧ c.toNat ≤ 70 then some (c.toNat - 55)
  else none

def decimal (a : Word) : List Byte := (numeral 10 a.toNat).map digitChar

def hexadecimal (a : Word) : List Byte := (numeral 16 a.toNat).map digitChar

def hexPrefix : List Byte := [48#8, 120#8]

theorem digit_value_char : ∀ d < 16, digitValue (digitChar d) = some d := by decide

section Digits
variable {σ : Type} (putc : σ → Byte → σ) (divide : Word → Word) (base : Nat) (many : 1 < base)
  (falls : ∀ b : Word, b.toNat < 2 ^ 31 → (divide b).toNat = b.toNat / base)
include many falls

theorem scale_down_result (a : Word) (positive : 0 < a.toNat) (k fuel : Nat) (enough : k < fuel) (b : Word)
    (small : b.toNat < 2 ^ 31) (power : b.toNat = base ^ k) (above : a.toNat < base ^ (k + 1)) :
    ∃ j ≤ k, ∃ least : Word, scaleDown divide a fuel b = some least ∧ least.toNat = base ^ j ∧
      base ^ j ≤ a.toNat ∧ a.toNat < base ^ (j + 1) := by
  induction k generalizing fuel b with
  | zero =>
      obtain ⟨fuel, rfl⟩ := Nat.exists_eq_succ_of_ne_zero (show fuel ≠ 0 by omega)
      have one : b.toNat = 1 := power
      have reached : ¬ b > a := by
        rw [gt_iff_lt, BitVec.lt_def]
        omega
      exact ⟨0, Nat.le_refl 0, b, if_neg reached, power, positive, above⟩
  | succ k ih =>
      obtain ⟨fuel, rfl⟩ := Nat.exists_eq_succ_of_ne_zero (show fuel ≠ 0 by omega)
      by_cases more : b > a
      · have less : a.toNat < base ^ (k + 1) := power ▸ more
        have next : (divide b).toNat = base ^ k := by
          rw [falls b small, power, Nat.pow_succ, Nat.mul_div_cancel _ (by omega)]
        have smaller := Nat.div_le_self b.toNat base
        obtain ⟨j, low, least, done, rest⟩ := ih fuel (by omega) (divide b) (by rw [falls b small]; omega)
          next less
        refine ⟨j, by omega, least, ?_, rest⟩
        rw [scaleDown, if_pos more]
        exact done
      · refine ⟨k + 1, Nat.le_refl _, b, if_neg more, power, ?_, above⟩
        rw [← power]
        exact Nat.le_of_not_lt more

theorem put_digits_result (digit : Word → Byte) (write : Nat → Byte)
    (writes : ∀ q : Word, q.toNat < base → digit q = write q.toNat) (n fuel : Nat) (enough : n < fuel)
    (s : σ) (a b : Word) (small : b.toNat < 2 ^ 31) (weight : b.toNat = base ^ n / base) (fits : a.toNat < base ^ n) :
    putDigits putc digit divide fuel s a b = some (((places base n a.toNat).map write).foldl putc s) := by
  induction n generalizing fuel s a b with
  | zero =>
      obtain ⟨fuel, rfl⟩ := Nat.exists_eq_succ_of_ne_zero (show fuel ≠ 0 by omega)
      rw [Nat.pow_zero, Nat.div_eq_of_lt many] at weight
      have none : b = 0#32 := BitVec.eq_of_toNat_eq weight
      rw [putDigits, if_neg (not_not.mpr none)]
      rfl
  | succ n ih =>
      obtain ⟨fuel, rfl⟩ := Nat.exists_eq_succ_of_ne_zero (show fuel ≠ 0 by omega)
      rw [Nat.pow_succ, Nat.mul_div_cancel _ (by omega)] at weight
      have positive : 0 < base ^ n := Nat.pow_pos (by omega)
      have some : b ≠ 0#32 := by
        rintro rfl
        rw [← weight] at positive
        exact Nat.lt_irrefl 0 positive
      have quotient : (a / b).toNat = a.toNat / base ^ n := by rw [BitVec.toNat_udiv, weight]
      have rest : (a % b).toNat = a.toNat % base ^ n := by rw [BitVec.toNat_umod, weight]
      have valid : (a / b).toNat < base := by
        rw [quotient, Nat.div_lt_iff_lt_mul positive, Nat.mul_comm, ← Nat.pow_succ]
        exact fits
      have next : (divide b).toNat = base ^ n / base := by rw [falls b small, weight]
      have smaller := Nat.div_le_self b.toNat base
      rw [putDigits, if_pos some, ih fuel (by omega) _ _ _ (by rw [falls b small]; omega) next
        (by rw [rest]; exact Nat.mod_lt _ positive), rest, writes _ valid, quotient]
      rfl

theorem put_number_result (digit : Word → Byte) (write : Nat → Byte)
    (writes : ∀ q : Word, q.toNat < base → digit q = write q.toNat) (zero : write 0 = 48#8) (k fuel : Nat)
    (enough : k + 1 < fuel) (b : Word) (small : b.toNat < 2 ^ 31) (power : b.toNat = base ^ k)
    (range : 2 ^ 32 ≤ base ^ (k + 1)) (s : σ) (a : Word) :
    putNumber putc digit divide b fuel s a = some (((numeral base a.toNat).map write).foldl putc s) := by
  rw [putNumber]
  split
  next none =>
    have value : a.toNat = 0 := congrArg BitVec.toNat none
    rw [numeral, if_pos value, List.map_singleton, zero]
    rfl
  next some =>
    have positive : 0 < a.toNat := Nat.pos_of_ne_zero fun none => some (BitVec.eq_of_toNat_eq none)
    obtain ⟨j, low, least, scaled, value, below, above⟩ := scale_down_result divide base many falls a positive k
      fuel (by omega) b small power (Nat.lt_of_lt_of_le a.isLt range)
    have weight : least.toNat = base ^ (j + 1) / base := by
      rw [value, Nat.pow_succ, Nat.mul_div_cancel _ (by omega)]
    have smallest : base ^ j ≤ base ^ k := Nat.pow_le_pow_right (by omega) low
    rw [scaled, Option.bind_eq_bind, Option.bind_some, put_digits_result putc divide base many falls digit write
      writes (j + 1) fuel (by omega) s a least (by omega) weight above, places_numeral base many j _ below above]

end Digits

/-! The two bases. -/

theorem decimal_falls (b : Word) (small : b.toNat < 2 ^ 31) : (b.sdiv 10#32).toNat = b.toNat / 10 := by
  have positive : b.msb = false := by
    rw [BitVec.msb_eq_false_iff_two_mul_lt]
    omega
  rw [BitVec.sdiv_eq, positive, show (10#32 : Word).msb = false from rfl]
  exact BitVec.toNat_udiv

theorem decimal_writes (q : Word) (digit : q.toNat < 10) : decimalDigit q = digitChar q.toNat := by
  rw [decimalDigit, digitChar, if_pos digit]
  bv_omega

theorem hex_writes (q : Word) (digit : q.toNat < 16) : hexDigit q = digitChar q.toNat := by
  have low : (q.setWidth 8).toNat = q.toNat := by
    rw [BitVec.toNat_setWidth]
    omega
  rw [hexDigit, digitChar]
  by_cases letter : q.toNat < 10
  · have few : ¬ (q.setWidth 8 : Byte) > 9#8 := by bv_omega
    rw [if_neg few, if_pos letter]
    bv_omega
  · have many : (q.setWidth 8 : Byte) > 9#8 := by bv_omega
    rw [if_pos many, if_neg letter]
    bv_omega

section Results
variable {σ : Type} (putc : σ → Byte → σ) (s : σ) (a : Word) (fuel : Nat)

theorem puti_result : puti putc (fuel + 11) s a = some ((decimal a).foldl putc s) :=
  put_number_result putc _ 10 (by decide) decimal_falls decimalDigit digitChar decimal_writes rfl 9 (fuel + 11)
    (by omega) 1000000000#32 (by decide) rfl (by decide) s a

theorem puth_result : puth putc (fuel + 11) s a = some ((hexPrefix ++ hexadecimal a).foldl putc s) := by
  have falls : ∀ b : Word, b.toNat < 2 ^ 31 → (b / 0x10#32).toNat = b.toNat / 16 := fun b _ => BitVec.toNat_udiv
  rw [puth, List.foldl_append]
  exact put_number_result putc _ 16 (by decide) falls hexDigit digitChar hex_writes rfl 7 (fuel + 11)
    (by omega) 0x10000000#32 (by decide) rfl (by decide) _ a

end Results

/-! `puth` of elf_parse.c, which is the same text on another screen. -/

theorem loader_largest_power (a : Word) (fuel : Nat) (b least : Word)
    (done : scaleDown (fun b => b / 0x10#32) a fuel b = some least) : Loader.largestPower a b = least := by
  induction fuel generalizing b with
  | zero => simp [scaleDown] at done
  | succ fuel ih =>
      rw [scaleDown] at done
      rw [Loader.largestPower]
      split at done
      next more =>
        rw [if_pos more]
        exact ih _ done
      next reached =>
        rw [if_neg reached]
        exact Option.some.inj done

theorem loader_put_digits (fuel : Nat) (s after : Loader.Stage2) (a b : Word)
    (done : putDigits Loader.putc hexDigit (fun b => b / 0x10#32) fuel s a b = some after) :
    Loader.putDigits s a b = after := by
  induction fuel generalizing s a b with
  | zero => simp [putDigits] at done
  | succ fuel ih =>
      rw [putDigits] at done
      rw [Loader.putDigits]
      split at done
      next some =>
        have positive : b > 0#32 := by bv_omega
        rw [if_pos positive, ← ih _ _ _ done]
        simp only [hexDigit]
        split <;> rfl
      next none =>
        rw [if_neg (by bv_omega)]
        exact Option.some.inj done

theorem loader_puth (s : Loader.Stage2) (a : Word) :
    Loader.puth s a = (hexPrefix ++ hexadecimal a).foldl Loader.putc s := by
  have text := puth_result Loader.putc s a 0
  rw [puth, putNumber] at text
  rw [Loader.puth, Loader.puts]
  split at text
  next zero =>
    rw [if_pos zero]
    exact Option.some.inj text
  next =>
    obtain ⟨least, scaled, digits⟩ := Option.bind_eq_some_iff.mp text
    rw [if_neg ‹_›, loader_largest_power a _ _ least scaled]
    exact loader_put_digits _ _ _ _ _ digits

/-- `puti` and `puth` return, and print the canonical numeral of their argument,
that of the loader as well. -/
theorem numbers_exact (a : Word) :
    Spells digitValue 10 (decimal a) a.toNat ∧ Spells digitValue 16 (hexadecimal a) a.toNat ∧
      (∀ {σ : Type} (putc : σ → Byte → σ) (s : σ) (fuel : Nat),
        puti putc (fuel + 11) s a = some ((decimal a).foldl putc s) ∧
        puth putc (fuel + 11) s a = some ((hexPrefix ++ hexadecimal a).foldl putc s)) ∧
      ∀ s : Loader.Stage2, Loader.puth s a = (hexPrefix ++ hexadecimal a).foldl Loader.putc s :=
  ⟨numeral_spells 10 (by decide) digitValue digitChar (fun d less => digit_value_char d (by omega)) a.toNat,
    numeral_spells 16 (by decide) digitValue digitChar digit_value_char a.toNat,
    fun putc s fuel => ⟨puti_result putc s a fuel, puth_result putc s a fuel⟩, fun s => loader_puth s a⟩

end GargOS.Printing
