import Mathlib.Logic.Function.Basic
import Mathlib.Data.List.Nodup
import GargOS.Lib.ByteMemory

/-!
The interrupt descriptor table of a 32-bit x86 processor: 256 gates of eight
bytes, each with the address of its handler split around the selector.
-/

namespace Gates
open ByteMemory

structure Gate where
  offset : Word
  selector : BitVec 16
  reserved : Byte
  flags : Byte
  deriving DecidableEq

def gateAddress (table : Word) (vector : Byte) : Word := table + 8#32 * vector.setWidth 32

def readGate (m : Memory) (a : Word) : Gate where
  offset := load16 m (a + 6#32) ++ load16 m a
  selector := load16 m (a + 2#32)
  reserved := m (a + 4#32)
  flags := m (a + 5#32)

def gates (m : Memory) (table : Word) : Byte → Gate := fun vector => readGate m (gateAddress table vector)

def Gate.present (g : Gate) : Bool := g.flags.getLsbD 7

/-- The processor's way to a handler: a gate within the limit that is present. -/
def gateFor (m : Memory) (limit : BitVec 16) (table : Word) (vector : Byte) : Option Gate :=
  if 8 * vector.toNat + 7 ≤ limit.toNat ∧ (gates m table vector).present = true then
    some (gates m table vector)
  else none

theorem read_gate_congr (m after : Memory) (a : Word) (same : ∀ x, InSpan a 8 x → after x = m x) :
    readGate after a = readGate m a := by
  have part : ∀ (i : Word) (n : Nat), i.toNat + n ≤ 8 → ∀ x, InSpan (a + i) n x → after x = m x := by
    intro i n bound x inside
    refine same x ?_
    have further := in_span_shift a i.toNat n x (by rwa [word_self])
    exact Nat.lt_of_lt_of_le further bound
  have here : ∀ i : Word, i.toNat < 8 → after (a + i) = m (a + i) := fun i bound =>
    same _ (offset_in_span a i 8 bound)
  have low := part 0#32 2 (by decide)
  rw [BitVec.add_zero] at low
  rw [readGate, readGate, load16_congr after m a low, load16_congr after m _ (part 2#32 2 (by decide)),
    load16_congr after m _ (part 6#32 2 (by decide)), here 4#32 (by decide), here 5#32 (by decide)]

section Table
variable (table : Word) (vector : Byte)

theorem gate_distance (x : Word) (inside : InSpan (gateAddress table vector) 8 x) :
    (x - table).toNat / 8 = vector.toNat ∧ InSpan table 2048 x := by
  have small := vector.isLt
  have place : (8#32 * vector.setWidth 32).toNat = 8 * vector.toNat := by
    rw [BitVec.toNat_mul, BitVec.toNat_setWidth]
    show 8 * (vector.toNat % 2 ^ 32) % 2 ^ 32 = 8 * vector.toNat
    omega
  unfold InSpan gateAddress at *
  generalize 8#32 * vector.setWidth 32 = offset at *
  have distance : (x - table).toNat = (x - (table + offset)).toNat + offset.toNat := by bv_omega
  omega

theorem gates_apart (other : Byte) (different : other ≠ vector) :
    Apart (gateAddress table other) 8 (gateAddress table vector) 8 := by
  intro x inside shared
  have first := (gate_distance table other x inside).1
  have second := (gate_distance table vector x shared).1
  exact different (BitVec.eq_of_toNat_eq (first.symm.trans second))

theorem gates_update (m after : Memory) (g : Gate) (here : readGate after (gateAddress table vector) = g)
    (outside : ∀ x, ¬ InSpan (gateAddress table vector) 8 x → after x = m x) :
    gates after table = Function.update (gates m table) vector g := by
  funext other
  by_cases same : other = vector
  · subst same
    rw [Function.update_self]
    exact here
  · rw [Function.update_of_ne same]
    exact read_gate_congr m after _ fun x inside => outside x (gates_apart table vector other same x inside)

theorem gates_congr (m after : Memory) (same : ∀ x, InSpan table 2048 x → after x = m x) :
    gates after table = gates m table := by
  funext other
  exact read_gate_congr m after _ fun x inside => same x (gate_distance table other x inside).2

end Table

section Updates
variable {α β κ : Type} [DecidableEq α] (key : κ → α) (value : κ → β)

/-- Entries set one after another. -/
def updates (f : α → β) (keys : List κ) : α → β :=
  keys.foldl (fun f k => Function.update f (key k) (value k)) f

theorem updates_rest (f : α → β) (keys : List κ) (a : α) (other : ∀ k ∈ keys, key k ≠ a) :
    updates key value f keys a = f a := by
  induction keys generalizing f with
  | nil => rfl
  | cons k rest ih =>
      have first := other k List.mem_cons_self
      have later := ih (Function.update f (key k) (value k)) fun k member =>
        other k (List.mem_cons_of_mem _ member)
      rw [Function.update_of_ne first.symm] at later
      exact later

theorem updates_set (f : α → β) (keys : List κ) (once : (keys.map key).Nodup) (k : κ) (member : k ∈ keys) :
    updates key value f keys (key k) = value k := by
  induction keys generalizing f with
  | nil => simp at member
  | cons first rest ih =>
      rw [List.map_cons, List.nodup_cons] at once
      rcases List.mem_cons.mp member with rfl | later
      · have kept := updates_rest key value (Function.update f (key k) (value k)) rest (key k)
          fun other member same => once.1 (same ▸ List.mem_map_of_mem member)
        rw [Function.update_self] at kept
        exact kept
      · exact ih _ once.2 later

end Updates
end Gates
