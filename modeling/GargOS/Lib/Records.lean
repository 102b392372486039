import GargOS.Lib.WordFrames

/-!
Arrays of structures in memory. Whoever changes the bytes of one element changes
one entry of the array; the words of a structure that are stored are those it is
read with.
-/

namespace Records
open ByteMemory ByteLanes WordFrames

/-- How a structure is read, by the bytes it takes. -/
structure Format (α : Type) where
  size : Nat
  read : Memory → Word → α
  congr : ∀ m after a, (∀ x, InSpan a size x → after x = m x) → read after a = read m a

section Arrays
variable {α : Type} (f : Format α) (base : Word)

def elementAddress (i : Int) : Word := base + BitVec.ofInt 32 (f.size * i)

structure Changes (m after : Memory) (i : Int) (value : α) : Prop where
  element : f.read after (elementAddress f base i) = value
  outside : ∀ x, ¬ InSpan (elementAddress f base i) f.size x → after x = m x

variable (n : Nat) (fits : f.size * n ≤ 2 ^ 32) (i : Int) (low : 0 ≤ i) (high : i < n)
include fits low high

theorem element_distance (x : Word) (inside : InSpan (elementAddress f base i) f.size x) :
    InSpan base (f.size * n) x ∧ (x - base).toNat / f.size = i.toNat := by
  obtain ⟨k, rfl⟩ := Int.eq_ofNat_of_zero_le low
  have room : f.size * k + f.size ≤ f.size * n := Nat.mul_le_mul_left f.size (show k + 1 ≤ n by omega)
  have index : (Int.ofNat k).toNat = k := rfl
  have place : BitVec.ofInt 32 (f.size * (k : Int)) = BitVec.ofNat 32 (f.size * k) := by
    rw [← Int.natCast_mul]
    exact BitVec.ofInt_natCast 32 (f.size * k)
  unfold InSpan elementAddress at *
  rw [place] at inside
  have distance : (x - base).toNat = (x - (base + BitVec.ofNat 32 (f.size * k))).toNat + f.size * k := by
    generalize f.size * k = offset at *
    bv_omega
  refine ⟨by omega, ?_⟩
  rw [distance, Nat.add_mul_div_left _ _ (by omega), Nat.div_eq_of_lt inside, Nat.zero_add]
  rfl

theorem elements_apart (j : Int) (lowToo : 0 ≤ j) (highToo : j < n) (different : j ≠ i) :
    Apart (elementAddress f base j) f.size (elementAddress f base i) f.size := by
  intro x inside shared
  have first := (element_distance f base n fits j lowToo highToo x inside).2
  have second := (element_distance f base n fits i low high x shared).2
  omega

theorem element_changed (m after : Memory) (value : α) (changes : Changes f base m after i value) (j : Int)
    (lowToo : 0 ≤ j) (highToo : j < n) : f.read after (elementAddress f base j) =
      if j = i then value else f.read m (elementAddress f base j) := by
  split
  next same =>
    rw [same]
    exact changes.element
  next different =>
    have apart := elements_apart f base n fits i low high j lowToo highToo different
    exact f.congr m after _ fun x inside => changes.outside x (apart x inside)

theorem array_outside (m after : Memory) (value : α) (changes : Changes f base m after i value) (x : Word)
    (outside : ¬ InSpan base (f.size * n) x) : after x = m x :=
  changes.outside x fun inside => outside (element_distance f base n fits i low high x inside).1

end Arrays

/-! The words of one structure. -/

section Words
variable (m : Memory) (a : Word)

theorem load_words_length (n : Nat) : (loadWords m a n).length = n := by
  induction n generalizing a with
  | zero => rfl
  | succ n ih => rw [loadWords, List.length_cons, ih]

theorem load_words_word (n k : Nat) (bound : k < (loadWords m a n).length) :
    (loadWords m a n)[k] = load32 m (a + BitVec.ofNat 32 (4 * k)) := by
  induction n generalizing a k with
  | zero => simp [loadWords] at bound
  | succ n ih =>
      cases k with
      | zero => simp [loadWords]
      | succ k =>
          have next : a + 4#32 + BitVec.ofNat 32 (4 * k) = a + BitVec.ofNat 32 (4 * (k + 1)) := by bv_omega
          simp only [loadWords, List.getElem_cons_succ]
          rw [ih (a + 4#32) k, next]

theorem word_stored (j : Nat) (ws : List Word) (k : Nat) (room : 4 * (j + ws.length) ≤ 4096)
    (near : 4 * k + 4 ≤ 4096) :
    load32 (storeWords id m (a + BitVec.ofNat 32 (4 * j)) ws) (a + BitVec.ofNat 32 (4 * k)) =
      if j ≤ k ∧ k < j + ws.length then ws.getD (k - j) 0#32 else load32 m (a + BitVec.ofNat 32 (4 * k)) := by
  have kept : KeepsOffset id := fun _ => rfl
  have bytes : ∀ i < 4,
      storeWords id m (a + BitVec.ofNat 32 (4 * j)) ws (a + BitVec.ofNat 32 (4 * k) + BitVec.ofNat 32 i) =
      if j ≤ k ∧ k < j + ws.length then byteLane (ws.getD (k - j) 0#32) i
      else m (a + BitVec.ofNat 32 (4 * k) + BitVec.ofNat 32 i) := by
    intro i lane
    have distance : (a + BitVec.ofNat 32 (4 * k) + BitVec.ofNat 32 i - a).toNat = 4 * k + i := by bv_omega
    have start : (a + BitVec.ofNat 32 (4 * j) - a).toNat = 4 * j := by bv_omega
    have stored := store_words_apply id id kept kept a ws m (a + BitVec.ofNat 32 (4 * j))
      (a + BitVec.ofNat 32 (4 * k) + BitVec.ofNat 32 i) (by unfold InSpan; omega) (by omega)
    simp only [id, and_true] at stored
    rw [stored]
    by_cases inside : j ≤ k ∧ k < j + ws.length
    · have offset : (a + BitVec.ofNat 32 (4 * k) + BitVec.ofNat 32 i - (a + BitVec.ofNat 32 (4 * j))).toNat =
          4 * (k - j) + i := by bv_omega
      rw [if_pos inside, if_pos (by unfold InSpan; omega), offset, words_byte_word _ _ _ lane]
    · rw [if_neg inside, if_neg]
      unfold InSpan
      bv_omega
  split
  next inside => exact load32_laid _ _ _ fun i lane => by rw [bytes i lane, if_pos inside]
  next outside =>
    exact load32_laid _ _ _ fun i lane => by
      rw [bytes i lane, if_neg outside, byte_lane_load32 _ _ _ lane]

theorem store32_words (v : Word) : store32 m a v = storeWords id m a [v] := rfl

theorem word_set (n k : Nat) (v : Word) (bound : k < n) (room : 4 * n ≤ 4096) :
    loadWords (store32 m (a + BitVec.ofNat 32 (4 * k)) v) a n = (loadWords m a n).set k v := by
  apply List.ext_getElem
  · rw [List.length_set, load_words_length, load_words_length]
  · intro i inside _
    have within := inside
    rw [load_words_length] at within
    rw [load_words_word, store32_words, word_stored m a k [v] i (by rw [List.length_singleton]; omega) (by omega),
      List.getElem_set]
    by_cases here : k = i
    · rw [if_pos here, if_pos (by rw [List.length_singleton]; omega), here, Nat.sub_self, List.getD_cons_zero]
    · rw [if_neg here, if_neg (by rw [List.length_singleton]; omega), load_words_word]

theorem words_replaced (j : Nat) (ws : List Word) (room : 4 * (j + ws.length) ≤ 4096) :
    loadWords (storeWords id m (a + BitVec.ofNat 32 (4 * j)) ws) a (j + ws.length) = loadWords m a j ++ ws := by
  apply List.ext_getElem
  · rw [List.length_append, load_words_length, load_words_length]
  · intro i inside _
    have within := inside
    rw [load_words_length] at within
    rw [load_words_word, word_stored m a j ws i room (by omega), List.getElem_append]
    simp only [load_words_length]
    by_cases early : i < j
    · rw [dif_pos early, if_neg (by omega), load_words_word]
    · rw [dif_neg early, if_pos (by omega), List.getD_eq_getElem?_getD, List.getElem?_eq_getElem (by omega),
        Option.getD_some]

end Words
end Records
