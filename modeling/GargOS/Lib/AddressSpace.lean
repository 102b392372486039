import GargOS.Lib.ByteMemory

/-!
Address spaces whose accesses may fault. A program written against this
interface runs on bare memory as well as behind a translation; what it needs
to know of the space is that a range of addresses backs it like memory.
-/

open ByteMemory

/-- Byte access that fails where the space has nothing mapped. -/
class AddressSpace (σ : Type) where
  load8 : σ → Word → Option Byte
  store8 : σ → Word → Byte → Option σ

namespace AddressSpace
variable {σ : Type} [AddressSpace σ]

def load16 (s : σ) (a : Word) : Option (BitVec 16) := do
  let low ← load8 s a
  let high ← load8 s (a + 1#32)
  some (high ++ low)

def load32 (s : σ) (a : Word) : Option Word := do
  let b0 ← load8 s a
  let b1 ← load8 s (a + 1#32)
  let b2 ← load8 s (a + 2#32)
  let b3 ← load8 s (a + 3#32)
  some (b3 ++ b2 ++ b1 ++ b0)

def store16 (s : σ) (a : Word) (v : BitVec 16) : Option σ := do
  let s ← store8 s a (v.extractLsb' 0 8)
  store8 s (a + 1#32) (v.extractLsb' 8 8)

def store32 (s : σ) (a : Word) (v : Word) : Option σ := do
  let s ← store8 s a (v.extractLsb' 0 8)
  let s ← store8 s (a + 1#32) (v.extractLsb' 8 8)
  let s ← store8 s (a + 2#32) (v.extractLsb' 16 8)
  store8 s (a + 3#32) (v.extractLsb' 24 8)

/-- What the space shows at every address; zero stands for unmapped bytes. -/
def view (s : σ) : Memory := fun a => (load8 s a).getD 0

def Within (lo hi : Nat) (a : Word) : Prop := lo ≤ a.toNat ∧ a.toNat < hi

/-- In the states of `valid`, the addresses from `lo` up to `hi` behave like
memory: none of them faults, a store changes only the byte it names, and the
state it leaves is again one of `valid`. -/
structure Backs (lo hi : Nat) (valid : σ → Prop) : Prop where
  readable : ∀ {s a}, valid s → Within lo hi a → load8 s a = some (view s a)
  writable : ∀ {s a}, valid s → Within lo hi a → ∀ b, ∃ after,
    store8 s a b = some after ∧ valid after ∧
      ∀ x, Within lo hi x → view after x = write (view s) a b x

section Backed
variable {lo hi : Nat} {valid : σ → Prop} (back : Backs lo hi valid)

theorem within_offset (a i : Word) (n : Nat) (low : lo ≤ a.toNat) (high : a.toNat + n ≤ hi)
    (top : hi ≤ 2 ^ 32) (bound : i.toNat < n) : Within lo hi (a + i) := by
  have sum : (a + i).toNat = a.toNat + i.toNat := by
    rw [BitVec.toNat_add]
    omega
  unfold Within
  omega

include back

theorem load16_view {s : σ} (holds : valid s) (a : Word) (low : lo ≤ a.toNat)
    (high : a.toNat + 2 ≤ hi) (top : hi ≤ 2 ^ 32) :
    load16 s a = some (ByteMemory.load16 (view s) a) := by
  have base := back.readable holds (a := a) ⟨low, by omega⟩
  have second := back.readable holds (within_offset a 1#32 2 low high top (by decide))
  simp [load16, ByteMemory.load16, base, second]

theorem load32_view {s : σ} (holds : valid s) (a : Word) (low : lo ≤ a.toNat)
    (high : a.toNat + 4 ≤ hi) (top : hi ≤ 2 ^ 32) :
    load32 s a = some (ByteMemory.load32 (view s) a) := by
  have base := back.readable holds (a := a) ⟨low, by omega⟩
  have later := fun i bound => back.readable holds (within_offset a i 4 low high top bound)
  simp [load32, ByteMemory.load32, base, later 1#32 (by decide), later 2#32 (by decide),
    later 3#32 (by decide)]

theorem store16_view {s : σ} (holds : valid s) (a : Word) (v : BitVec 16) (low : lo ≤ a.toNat)
    (high : a.toNat + 2 ≤ hi) (top : hi ≤ 2 ^ 32) :
    ∃ after, store16 s a v = some after ∧ valid after ∧
      ∀ x, Within lo hi x → view after x = ByteMemory.store16 (view s) a v x := by
  obtain ⟨s1, store1, valid1, view1⟩ := back.writable holds (a := a) ⟨low, by omega⟩
    (v.extractLsb' 0 8)
  obtain ⟨s2, store2, valid2, view2⟩ := back.writable valid1
    (within_offset a 1#32 2 low high top (by decide)) (v.extractLsb' 8 8)
  refine ⟨s2, by simp [store16, store1, store2], valid2, fun x inside => ?_⟩
  simp only [ByteMemory.store16, write, view2 x inside, view1 x inside]

theorem store32_view {s : σ} (holds : valid s) (a v : Word) (low : lo ≤ a.toNat)
    (high : a.toNat + 4 ≤ hi) (top : hi ≤ 2 ^ 32) :
    ∃ after, store32 s a v = some after ∧ valid after ∧
      ∀ x, Within lo hi x → view after x = ByteMemory.store32 (view s) a v x := by
  have place := fun i bound => within_offset a i 4 low high top bound
  obtain ⟨s1, store1, valid1, view1⟩ := back.writable holds (a := a) ⟨low, by omega⟩
    (v.extractLsb' 0 8)
  obtain ⟨s2, store2, valid2, view2⟩ := back.writable valid1 (place 1#32 (by decide))
    (v.extractLsb' 8 8)
  obtain ⟨s3, store3, valid3, view3⟩ := back.writable valid2 (place 2#32 (by decide))
    (v.extractLsb' 16 8)
  obtain ⟨s4, store4, valid4, view4⟩ := back.writable valid3 (place 3#32 (by decide))
    (v.extractLsb' 24 8)
  refine ⟨s4, by simp [store32, store1, store2, store3, store4], valid4, fun x inside => ?_⟩
  simp only [ByteMemory.store32, write, view4 x inside, view3 x inside, view2 x inside,
    view1 x inside]

end Backed

/-- A store that does not fault is read back, and no other byte changes. -/
def StoresSeen (σ : Type) [AddressSpace σ] : Prop :=
  ∀ (s after : σ) (a : Word) (b : Byte), store8 s a b = some after →
    ∀ x, load8 after x = if x = a then some b else load8 s x

theorem load16_same {s after : σ} (a : Word) (same : ∀ x, InSpan a 2 x → load8 after x = load8 s x) :
    load16 after a = load16 s a := by
  simp only [load16, same a (base_in_span a 2 (by decide)),
    same _ (offset_in_span a 1#32 2 (by decide))]

theorem load32_same {s after : σ} (a : Word) (same : ∀ x, InSpan a 4 x → load8 after x = load8 s x) :
    load32 after a = load32 s a := by
  simp only [load32, same a (base_in_span a 4 (by decide)),
    same _ (offset_in_span a 1#32 4 (by decide)), same _ (offset_in_span a 2#32 4 (by decide)),
    same _ (offset_in_span a 3#32 4 (by decide))]

section Seen
variable (seen : StoresSeen σ) {s after : σ} (a : Word)
include seen

theorem store16_seen (v : BitVec 16) (stored : store16 s a v = some after) :
    load16 after a = some v ∧ ∀ x, ¬ InSpan a 2 x → load8 after x = load8 s x := by
  obtain ⟨s1, store1, store2⟩ := Option.bind_eq_some_iff.mp stored
  have byte1 := seen _ _ _ _ store1
  have byte2 := seen _ _ _ _ store2
  refine ⟨?_, fun x outside => ?_⟩
  · simp [load16, byte1, byte2, join16]
  · have base := outside_base a 2 (by decide) x outside
    have second := outside_offset a 1#32 2 (by decide) x outside
    rw [byte2, if_neg second, byte1, if_neg base]

theorem store32_seen (v : Word) (stored : store32 s a v = some after) :
    load32 after a = some v ∧ ∀ x, ¬ InSpan a 4 x → load8 after x = load8 s x := by
  obtain ⟨s1, store1, rest1⟩ := Option.bind_eq_some_iff.mp stored
  obtain ⟨s2, store2, rest2⟩ := Option.bind_eq_some_iff.mp rest1
  obtain ⟨s3, store3, store4⟩ := Option.bind_eq_some_iff.mp rest2
  have byte1 := seen _ _ _ _ store1
  have byte2 := seen _ _ _ _ store2
  have byte3 := seen _ _ _ _ store3
  have byte4 := seen _ _ _ _ store4
  refine ⟨?_, fun x outside => ?_⟩
  · simp [load32, byte1, byte2, byte3, byte4, join32]
  · have base := outside_base a 4 (by decide) x outside
    have away := fun i bound => outside_offset a i 4 bound x outside
    rw [byte4, if_neg (away 3#32 (by decide)), byte3, if_neg (away 2#32 (by decide)), byte2,
      if_neg (away 1#32 (by decide)), byte1, if_neg base]

end Seen

/-- Bare memory is an address space without faults. -/
instance : AddressSpace Memory where
  load8 m a := some (m a)
  store8 m a b := some (write m a b)

end AddressSpace
