import Mathlib.Data.List.Basic
import Mathlib.Data.BitVec

/-!
Byte-addressed little-endian memory with 32-bit addresses. Addresses wrap, so
a span is described by the distance from its first byte; spans that stay below
the top of memory also have the usual interval description.
-/

namespace ByteMemory

abbrev Byte := BitVec 8
abbrev Word := BitVec 32
abbrev Memory := Word → Byte

def write (m : Memory) (a : Word) (b : Byte) : Memory :=
  fun x => if x = a then b else m x

def load16 (m : Memory) (a : Word) : BitVec 16 := m (a + 1#32) ++ m a

def load32 (m : Memory) (a : Word) : Word :=
  m (a + 3#32) ++ m (a + 2#32) ++ m (a + 1#32) ++ m a

def store16 (m : Memory) (a : Word) (v : BitVec 16) : Memory :=
  write (write m a (v.extractLsb' 0 8)) (a + 1#32) (v.extractLsb' 8 8)

def store32 (m : Memory) (a : Word) (v : Word) : Memory :=
  write (write (write (write m a (v.extractLsb' 0 8)) (a + 1#32) (v.extractLsb' 8 8))
    (a + 2#32) (v.extractLsb' 16 8)) (a + 3#32) (v.extractLsb' 24 8)

/-- The `n` bytes from `a` on, modulo the size of memory. -/
def InSpan (a : Word) (n : Nat) (x : Word) : Prop := (x - a).toNat < n

instance (a : Word) (n : Nat) (x : Word) : Decidable (InSpan a n x) :=
  inferInstanceAs (Decidable (_ < _))

theorem in_span_iff (a : Word) (n : Nat) (x : Word) (fits : a.toNat + n ≤ 2 ^ 32) :
    InSpan a n x ↔ a.toNat ≤ x.toNat ∧ x.toNat < a.toNat + n := by
  unfold InSpan
  constructor
  · intro inside
    constructor <;> bv_omega
  · rintro ⟨low, high⟩
    bv_omega

theorem join16 (v : BitVec 16) : v.extractLsb' 8 8 ++ v.extractLsb' 0 8 = v := by
  ext i bound
  simp only [BitVec.getElem_append, BitVec.getElem_extractLsb']
  grind

theorem join32 (v : Word) :
    v.extractLsb' 24 8 ++ v.extractLsb' 16 8 ++ v.extractLsb' 8 8 ++ v.extractLsb' 0 8 = v := by
  ext i bound
  simp only [BitVec.getElem_append, BitVec.getElem_extractLsb']
  grind

theorem word_self (v : Word) : BitVec.ofNat 32 v.toNat = v := by
  rw [BitVec.ofNat_toNat, BitVec.setWidth_eq]

section Offsets
variable (a : Word)

theorem offset_in_span (i : Word) (n : Nat) (bound : i.toNat < n) : InSpan a n (a + i) := by
  unfold InSpan
  rwa [show a + i - a = i by bv_omega]

theorem base_in_span (n : Nat) (bound : 0 < n) : InSpan a n a := by
  simpa [InSpan] using bound

theorem outside_base (n : Nat) (bound : 0 < n) (x : Word) (outside : ¬ InSpan a n x) : x ≠ a := by
  rintro rfl
  exact outside (base_in_span _ n bound)

theorem outside_offset (i : Word) (n : Nat) (bound : i.toNat < n) (x : Word) (outside : ¬ InSpan a n x) :
    x ≠ a + i := by
  rintro rfl
  exact outside (offset_in_span _ i n bound)

theorem in_span_succ (n : Nat) (bound : n < 2 ^ 32) (x : Word) :
    InSpan a (n + 1) x ↔ x = a + BitVec.ofNat 32 n ∨ InSpan a n x := by
  have last : (BitVec.ofNat 32 n).toNat = n := by
    rw [BitVec.toNat_ofNat]
    omega
  constructor
  · intro inside
    unfold InSpan at inside ⊢
    by_cases here : (x - a).toNat = n
    · exact Or.inl (by bv_omega)
    · exact Or.inr (by omega)
  · rintro (rfl | earlier)
    · exact offset_in_span a _ _ (by omega)
    · exact Nat.lt_succ_of_lt earlier

theorem in_span_shift (k n : Nat) (x : Word) (inside : InSpan (a + BitVec.ofNat 32 k) n x) :
    InSpan a (k + n) x := by
  have offset : x - a = x - (a + BitVec.ofNat 32 k) + BitVec.ofNat 32 k := by bv_omega
  unfold InSpan at inside ⊢
  rw [offset, BitVec.toNat_add, BitVec.toNat_ofNat]
  omega

end Offsets

theorem load16_store16 (m : Memory) (a : Word) (v : BitVec 16) :
    load16 (store16 m a v) a = v := by
  simp [load16, store16, write, join16]

theorem load32_store32 (m : Memory) (a v : Word) : load32 (store32 m a v) a = v := by
  simp [load32, store32, write, join32]

theorem store16_outside (m : Memory) (a : Word) (v : BitVec 16) (x : Word)
    (outside : ¬ InSpan a 2 x) : store16 m a v x = m x := by
  have first := outside_base a 2 (by decide) x outside
  have second := outside_offset a 1#32 2 (by decide) x outside
  simp only [store16, write, if_neg first, if_neg second]

theorem store32_outside (m : Memory) (a v x : Word) (outside : ¬ InSpan a 4 x) :
    store32 m a v x = m x := by
  have base := outside_base a 4 (by decide) x outside
  have away := fun i bound => outside_offset a i 4 bound x outside
  simp only [store32, write, if_neg base, if_neg (away 1#32 (by decide)),
    if_neg (away 2#32 (by decide)), if_neg (away 3#32 (by decide))]

theorem load16_congr (m m' : Memory) (a : Word)
    (same : ∀ x, InSpan a 2 x → m x = m' x) : load16 m a = load16 m' a := by
  simp only [load16, same a (base_in_span a 2 (by decide)),
    same _ (offset_in_span a 1#32 2 (by decide))]

theorem load32_congr (m m' : Memory) (a : Word)
    (same : ∀ x, InSpan a 4 x → m x = m' x) : load32 m a = load32 m' a := by
  simp only [load32, same a (base_in_span a 4 (by decide)),
    same _ (offset_in_span a 1#32 4 (by decide)), same _ (offset_in_span a 2#32 4 (by decide)),
    same _ (offset_in_span a 3#32 4 (by decide))]

def Apart (a : Word) (n : Nat) (b : Word) (k : Nat) : Prop :=
  ∀ x, InSpan a n x → ¬ InSpan b k x

theorem apart_of_le (a b : Word) (n k : Nat) (fits : a.toNat + n ≤ b.toNat)
    (top : b.toNat + k ≤ 2 ^ 32) : Apart a n b k ∧ Apart b k a n := by
  have first := fun x => in_span_iff a n x (by omega)
  have second := fun x => in_span_iff b k x top
  constructor <;> intro x inside outside <;>
    rw [first] at * <;> rw [second] at * <;> omega

theorem load32_store32_apart (m : Memory) (a b v : Word) (apart : Apart a 4 b 4) :
    load32 (store32 m b v) a = load32 m a :=
  load32_congr _ _ _ fun x inside => store32_outside m b v x (apart x inside)

end ByteMemory
