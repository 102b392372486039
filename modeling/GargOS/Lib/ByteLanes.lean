import GargOS.Lib.ByteMemory

/-!
The bytes of a word by their position, as a little-endian machine lays them
out, and the packing of fields into a word.
-/

namespace ByteLanes
open ByteMemory

def byteLane (w : Word) (i : Nat) : Byte := w.extractLsb' (8 * i) 8

def ofLanes (lane : Nat → Byte) : Word := lane 3 ++ lane 2 ++ lane 1 ++ lane 0

def setByteLane (w : Word) (i : Nat) (b : Byte) : Word :=
  ofLanes fun j => if j = i then b else byteLane w j

theorem of_lanes_eq (w : Word) : ofLanes (byteLane w) = w := join32 w

theorem byte_lane_of (lane : Nat → Byte) (j : Nat) (bound : j < 4) :
    byteLane (ofLanes lane) j = lane j := by
  have asked : j = 0 ∨ j = 1 ∨ j = 2 ∨ j = 3 := by omega
  rcases asked with rfl | rfl | rfl | rfl <;>
    · ext k inside
      simp only [byteLane, ofLanes, BitVec.getElem_extractLsb', BitVec.getLsbD_append]
      grind

theorem byte_lane_set (w : Word) (b : Byte) (i j : Nat) (bound : j < 4) :
    byteLane (setByteLane w i b) j = if j = i then b else byteLane w j :=
  byte_lane_of _ j bound

theorem byte_lanes_ext (w w' : Word) (same : ∀ i < 4, byteLane w i = byteLane w' i) : w = w' := by
  rw [← of_lanes_eq w, ← of_lanes_eq w']
  simp only [ofLanes, same 0 (by decide), same 1 (by decide), same 2 (by decide),
    same 3 (by decide)]

theorem byte_lane_toNat (w : Word) (i : Nat) :
    (byteLane w i).toNat = w.toNat / 2 ^ (8 * i) % 256 := by
  rw [byteLane, BitVec.extractLsb'_toNat, Nat.shiftRight_eq_div_pow]

theorem byte_lane_shift (w : Word) (i : Nat) :
    (w >>> (8 * i)) &&& 0xFF#32 = (byteLane w i).setWidth 32 := by
  apply BitVec.eq_of_toNat_eq
  rw [BitVec.toNat_and, BitVec.toNat_ushiftRight, BitVec.toNat_setWidth, byte_lane_toNat,
    Nat.shiftRight_eq_div_pow, show (0xFF#32).toNat = 2 ^ 8 - 1 from rfl,
    Nat.and_two_pow_sub_one_eq_mod]
  omega

theorem half_lanes_shift (w : Word) (h : Nat) :
    (w >>> (16 * h)) &&& 0xFFFF#32 =
      (byteLane w (2 * h + 1) ++ byteLane w (2 * h) : BitVec 16).setWidth 32 := by
  apply BitVec.eq_of_toNat_eq
  have further : w.toNat / 2 ^ (8 * (2 * h + 1)) = w.toNat / 2 ^ (16 * h) / 256 := by
    rw [Nat.div_div_eq_div_mul, show 8 * (2 * h + 1) = 16 * h + 8 by omega, Nat.pow_add]
  rw [BitVec.toNat_and, BitVec.toNat_ushiftRight, BitVec.toNat_setWidth, BitVec.toNat_append,
    ← Nat.shiftLeft_add_eq_or_of_lt (byteLane w (2 * h)).isLt, byte_lane_toNat, byte_lane_toNat,
    Nat.shiftRight_eq_div_pow, Nat.shiftLeft_eq, show (0xFFFF#32).toNat = 2 ^ 16 - 1 from rfl,
    Nat.and_two_pow_sub_one_eq_mod, further, show 8 * (2 * h) = 16 * h by omega]
  omega

theorem widened_injective (w : Nat) (fits : w ≤ 32) (a b : BitVec w) :
    a.setWidth 32 = b.setWidth 32 ↔ a = b := by
  constructor
  · intro same
    have equal := congrArg BitVec.toNat same
    have room : 2 ^ w ≤ 2 ^ 32 := Nat.pow_le_pow_right (by omega) fits
    rw [BitVec.toNat_setWidth, BitVec.toNat_setWidth, Nat.mod_eq_of_lt (by omega),
      Nat.mod_eq_of_lt (by omega)] at equal
    exact BitVec.eq_of_toNat_eq equal
  · intro same
    rw [same]

theorem halves_injective (a a' b b' : Byte) :
    (a ++ b : BitVec 16) = a' ++ b' ↔ b = b' ∧ a = a' := by
  constructor
  · intro same
    have low := congrArg (BitVec.extractLsb' 0 8) same
    have high := congrArg (BitVec.extractLsb' 8 8) same
    rw [BitVec.extractLsb'_append_eq_right, BitVec.extractLsb'_append_eq_right] at low
    rw [BitVec.extractLsb'_append_eq_left, BitVec.extractLsb'_append_eq_left] at high
    exact ⟨low, high⟩
  · rintro ⟨rfl, rfl⟩
    rfl

theorem packed (high low k : Nat) (fits : low < 2 ^ k) :
    high * 2 ^ k ||| low = high * 2 ^ k + low := by
  rw [← Nat.shiftLeft_eq, Nat.shiftLeft_add_eq_or_of_lt fits]

end ByteLanes
