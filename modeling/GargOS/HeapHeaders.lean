import GargOS.Heap
import GargOS.Lib.Tiling

/-!
Headers in memory against lists of blocks. `Tiles` says that a range of memory
holds the headers of a tiling; the lemmas about `setSize` and `setIsFree` say
which bytes a header write touches, so that every later proof is about
intervals of addresses.
-/

namespace GargOS
open ByteMemory AddressSpace Tiling

def HeaderAt (m : Memory) (info : Word) (b : Segment) : Prop :=
  (ByteMemory.load16 m info ≠ 0#16 ↔ b.free = true) ∧
    (ByteMemory.load32 m (info + 2#32)).toNat = b.size

def Tiles (m : Memory) (base : Nat) (bs : List Segment) : Prop :=
  ∀ p ∈ layout 6 base bs, HeaderAt m (BitVec.ofNat 32 p.1) p.2

theorem load16_kept (m m' : Memory) (a : Word) (fits : a.toNat + 2 ≤ 2 ^ 32)
    (same : ∀ x : Word, a.toNat ≤ x.toNat → x.toNat < a.toNat + 2 → m' x = m x) :
    ByteMemory.load16 m' a = ByteMemory.load16 m a :=
  load16_congr _ _ _ fun x inside =>
    have range := (in_span_iff a 2 x fits).mp inside
    same x range.1 range.2

theorem load32_kept (m m' : Memory) (a : Word) (fits : a.toNat + 4 ≤ 2 ^ 32)
    (same : ∀ x : Word, a.toNat ≤ x.toNat → x.toNat < a.toNat + 4 → m' x = m x) :
    ByteMemory.load32 m' a = ByteMemory.load32 m a :=
  load32_congr _ _ _ fun x inside =>
    have range := (in_span_iff a 4 x fits).mp inside
    same x range.1 range.2

theorem toNat_add_two (info : Word) (fits : info.toNat + 6 ≤ 2 ^ 32) :
    (info + 2#32).toNat = info.toNat + 2 := by
  have : info.toNat + 6 ≤ 2 ^ 32 := fits
  bv_omega

theorem header_kept (m m' : Memory) (info : Word) (b : Segment)
    (fits : info.toNat + 6 ≤ 2 ^ 32)
    (same : ∀ x : Word, info.toNat ≤ x.toNat → x.toNat < info.toNat + 6 → m' x = m x)
    (header : HeaderAt m info b) : HeaderAt m' info b := by
  have second := toNat_add_two info fits
  have flag : ByteMemory.load16 m' info = ByteMemory.load16 m info :=
    load16_kept m m' info (by omega) fun x low high => same x low (by omega)
  have bytes : ByteMemory.load32 m' (info + 2#32) = ByteMemory.load32 m (info + 2#32) :=
    load32_kept m m' _ (by omega) fun x low high => same x (by omega) (by omega)
  unfold HeaderAt at *
  rwa [flag, bytes]

theorem tiles_append (m : Memory) (base : Nat) (left right : List Segment) :
    Tiles m base (left ++ right) ↔
      Tiles m base left ∧ Tiles m (base + span 6 left) right := by
  simp only [Tiles, layout_append, List.mem_append]
  constructor
  · intro all
    exact ⟨fun p member => all p (Or.inl member), fun p member => all p (Or.inr member)⟩
  · rintro ⟨first, second⟩ p (member | member)
    · exact first p member
    · exact second p member

theorem tiles_cons (m : Memory) (base : Nat) (b : Segment) (rest : List Segment) :
    Tiles m base (b :: rest) ↔ HeaderAt m (BitVec.ofNat 32 base) b ∧
      Tiles m (base + extent 6 b) rest := by
  simp [Tiles]

theorem tiles_nil (m : Memory) (base : Nat) : Tiles m base [] := by
  simp [Tiles]

theorem tiles_kept (m m' : Memory) (base : Nat) (bs : List Segment)
    (fits : base + span 6 bs ≤ 2 ^ 32)
    (same : ∀ x : Word, base ≤ x.toNat → x.toNat < base + span 6 bs → m' x = m x)
    (tiles : Tiles m base bs) : Tiles m' base bs := by
  intro p member
  have bounds := layout_bounds 6 base bs p member
  simp only [extent] at bounds
  have place : (BitVec.ofNat 32 p.1).toNat = p.1 := by
    rw [BitVec.toNat_ofNat]
    omega
  apply header_kept m m' _ _ (by omega) _ (tiles p member)
  intro x low high
  exact same x (by omega) (by omega)

section Fields
variable {σ : Type} [PagedSpace σ] {lo hi : Nat} {valid : σ → Prop}

section Read
variable (back : Backs lo hi valid) (top : hi ≤ 2 ^ 32) {s : σ} (holds : valid s) (info : Word)
  (low : lo ≤ info.toNat) (high : info.toNat + 6 ≤ hi)
include back top holds low high

theorem isFree_eq : isFree s info = some (ByteMemory.load16 (view s) info) :=
  load16_view back holds info low (by omega) top

theorem size_eq : size s info = some (ByteMemory.load32 (view s) (info + 2#32)) := by
  have second := toNat_add_two info (by omega)
  exact load32_view back holds _ (by omega) (by omega) top

theorem setIsFree_eq (v : BitVec 16) : ∃ after, setIsFree s info v = some after ∧ valid after ∧
    ByteMemory.load16 (view after) info = v ∧
      ∀ x, Within lo hi x → ¬ (info.toNat ≤ x.toNat ∧ x.toNat < info.toNat + 2) →
        view after x = view s x := by
  obtain ⟨after, stored, next, seen⟩ := store16_view back holds info v low (by omega) top
  have span := fun x => in_span_iff info 2 x (by omega)
  refine ⟨after, stored, next, ?_, fun x inside outside => ?_⟩
  · rw [load16_kept (ByteMemory.store16 (view s) info v) _ info (by omega), load16_store16]
    intro x first last
    exact seen x ⟨by omega, by omega⟩
  · rw [seen x inside, store16_outside _ _ _ _ (mt (span x).mp outside)]

theorem setSize_eq (v : Word) : ∃ after, setSize s info v = some after ∧ valid after ∧
    ByteMemory.load32 (view after) (info + 2#32) = v ∧
      ∀ x, Within lo hi x → ¬ (info.toNat + 2 ≤ x.toNat ∧ x.toNat < info.toNat + 6) →
        view after x = view s x := by
  have second := toNat_add_two info (by omega)
  obtain ⟨after, stored, next, seen⟩ :=
    store32_view back holds (info + 2#32) v (by omega) (by omega) top
  have span := fun x => in_span_iff (info + 2#32) 4 x (by omega)
  refine ⟨after, stored, next, ?_, fun x inside outside => ?_⟩
  · rw [load32_kept (ByteMemory.store32 (view s) (info + 2#32) v) _ _ (by omega), load32_store32]
    intro x first last
    exact seen x ⟨by omega, by omega⟩
  · rw [seen x inside, store32_outside]
    rw [span, second]
    omega

end Read
end Fields
end GargOS
