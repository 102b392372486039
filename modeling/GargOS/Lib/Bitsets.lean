import Mathlib.Data.BitVec
import Mathlib.Data.Set.Insert
import Mathlib.Logic.Function.Basic

/-!
A set of numbers kept as the bits of an array of words: the number `n` is bit
`n % w` of word `n / w`.
-/

namespace Bitsets
variable {w k : Nat}

/-- The numbers below `w * k` whose bit is set. -/
def members (words : Fin k → BitVec w) : Set Nat :=
  { n | ∃ bound : n / w < k, (words ⟨n / w, bound⟩).getLsbD (n % w) = true }

/-- Bit `j` of word `i` is set. -/
def turnOn (words : Fin k → BitVec w) (i : Fin k) (j : Nat) : Fin k → BitVec w :=
  Function.update words i (words i ||| BitVec.twoPow w j)

/-- Bit `j` of word `i` is cleared. -/
def turnOff (words : Fin k → BitVec w) (i : Fin k) (j : Nat) : Fin k → BitVec w :=
  Function.update words i (words i &&& ~~~BitVec.twoPow w j)

/-! One bit of one word. -/

section Bits
variable (word : BitVec w) (j n : Nat) (inWord : n < w)
include inWord

theorem two_pow_bit : (BitVec.twoPow w j).getLsbD n = decide (n = j) := by
  rw [BitVec.getLsbD_twoPow]
  by_cases same : n = j
  · simp [← same, inWord]
  · simp [same, Ne.symm same]

theorem or_two_pow :
    (word ||| BitVec.twoPow w j).getLsbD n = (word.getLsbD n || decide (n = j)) := by
  rw [BitVec.getLsbD_or, two_pow_bit j n inWord]

theorem and_not_two_pow :
    (word &&& ~~~BitVec.twoPow w j).getLsbD n = (word.getLsbD n && !decide (n = j)) := by
  rw [BitVec.getLsbD_and, BitVec.getLsbD_not, two_pow_bit j n inWord, decide_eq_true inWord,
    Bool.true_and]

theorem and_two_pow_zero_iff : word &&& BitVec.twoPow w n = 0#w ↔ word.getLsbD n = false := by
  rw [BitVec.and_twoPow]
  cases word.getLsbD n with
  | false => simp
  | true =>
      have nonzero : BitVec.twoPow w n ≠ 0#w := by
        intro zero
        have selected := congrArg (fun bits => bits.getLsbD n) zero
        simp [inWord] at selected
      simp [nonzero]

theorem two_pow_selected :
    (word &&& BitVec.twoPow w n) >>> n = if word.getLsbD n then 1#w else 0#w := by
  rw [BitVec.and_twoPow]
  cases word.getLsbD n with
  | false => simp
  | true =>
      apply BitVec.eq_of_toNat_eq
      rw [if_pos rfl, if_pos rfl, BitVec.toNat_ushiftRight, BitVec.toNat_twoPow_of_lt inWord,
        Nat.shiftRight_eq_div_pow, Nat.div_self (Nat.two_pow_pos n), BitVec.toNat_ofNat,
        Nat.mod_eq_of_lt (Nat.one_lt_two_pow (by omega))]

end Bits

/-! The set after one of its bits was written. -/

section Members
variable (words : Fin k → BitVec w) (i : Fin k) (j n : Nat)

theorem mem_members (here : n / w = i) : n ∈ members words ↔ (words i).getLsbD (n % w) = true := by
  have bound : n / w < k := here ▸ i.isLt
  have same : (⟨n / w, bound⟩ : Fin k) = i := Fin.ext here
  constructor
  · rintro ⟨_, set⟩
    rwa [same] at set
  · intro set
    exact ⟨bound, by rwa [same]⟩

theorem mem_update_other (value : BitVec w) (other : n / w ≠ i) :
    n ∈ members (Function.update words i value) ↔ n ∈ members words := by
  have kept : ∀ bound : n / w < k, Function.update words i value ⟨n / w, bound⟩ = words ⟨n / w, bound⟩ :=
    fun bound => Function.update_of_ne (fun same => other (congrArg Fin.val same)) _ _
  constructor
  · rintro ⟨bound, set⟩
    exact ⟨bound, by rwa [kept bound] at set⟩
  · rintro ⟨bound, set⟩
    exact ⟨bound, by rwa [kept bound]⟩

variable (inWord : j < w)
include inWord

theorem number_eq_iff : n = i * w + j ↔ n / w = i ∧ n % w = j := by
  have positive : 0 < w := Nat.zero_lt_of_lt inWord
  constructor
  · rintro rfl
    rw [Nat.add_comm, Nat.add_mul_div_right j _ positive, Nat.div_eq_of_lt inWord, Nat.zero_add,
      Nat.add_mul_mod_self_right, Nat.mod_eq_of_lt inWord]
    exact ⟨rfl, rfl⟩
  · rintro ⟨here, place⟩
    rw [← here, ← place, Nat.mul_comm, Nat.div_add_mod]

theorem members_turn_on : members (turnOn words i j) = insert (i * w + j) (members words) := by
  ext n
  have number := number_eq_iff i j n inWord
  rw [Set.mem_insert_iff, number]
  by_cases here : n / w = i
  · have inside : n % w < w := Nat.mod_lt n (Nat.zero_lt_of_lt inWord)
    rw [mem_members _ i n here, mem_members _ i n here, turnOn, Function.update_self,
      or_two_pow _ _ _ inside, Bool.or_eq_true, decide_eq_true_eq]
    constructor
    · rintro (set | place)
      · exact Or.inr set
      · exact Or.inl ⟨here, place⟩
    · rintro (⟨_, place⟩ | set)
      · exact Or.inr place
      · exact Or.inl set
  · rw [turnOn, mem_update_other words i n _ here]
    constructor
    · exact Or.inr
    · rintro (⟨same, _⟩ | set)
      · exact absurd same here
      · exact set

theorem members_turn_off : members (turnOff words i j) = members words \ {i * w + j} := by
  ext n
  have number := number_eq_iff i j n inWord
  rw [Set.mem_sdiff, Set.mem_singleton_iff, number]
  by_cases here : n / w = i
  · have inside : n % w < w := Nat.mod_lt n (Nat.zero_lt_of_lt inWord)
    rw [mem_members _ i n here, mem_members _ i n here, turnOff, Function.update_self,
      and_not_two_pow _ _ _ inside, Bool.and_eq_true, Bool.not_eq_true', decide_eq_false_iff_not]
    constructor
    · rintro ⟨set, place⟩
      exact ⟨set, fun same => place same.2⟩
    · rintro ⟨set, different⟩
      exact ⟨set, fun place => different ⟨here, place⟩⟩
  · rw [turnOff, mem_update_other words i n _ here]
    constructor
    · intro set
      exact ⟨set, fun same => here same.1⟩
    · exact And.left

end Members

end Bitsets
