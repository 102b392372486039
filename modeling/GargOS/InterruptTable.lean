import GargOS.KernelRegions
import GargOS.Lib.Gates
import GargOS.Lib.InterruptControllers

/-!
idt.c with the tables it has isrs.c and irq.c fill: the gates of the processor,
the handlers of the faults, and the vectors of the interrupt controllers.
-/

namespace GargOS
open ByteMemory Pages Gates InterruptControllers

/-- The machine while interrupts are set up. The pair of `idtp` is its limit
and its base, that of `idtr` what `lidt` has loaded. -/
structure Interrupts where
  paging : Paging
  idt : Word
  idtp : BitVec 16 × Word
  idtr : Option (BitVec 16 × Word)
  interruptFlag : Bool
  faultHandlers : Word
  controllers : Controllers

def idtSetGate (m : Memory) (idt : Word) (num : Byte) (base : Word) (sel : BitVec 16) (flags : Byte) :
    Memory :=
  let entry := gateAddress idt num
  let m := store16 m (entry + 6#32) (((base >>> 16) &&& 0xFFFF#32).setWidth 16)
  let m := store16 m entry ((base &&& 0xFFFF#32).setWidth 16)
  let m := store16 m (entry + 2#32) sel
  let m := write m (entry + 5#32) flags
  write m (entry + 4#32) 0#8

def setStubs (idt : Word) (first count : Nat) (stub : Nat → Word) (m : Memory) : Memory :=
  (List.range count).foldl
    (fun m n => idtSetGate m idt (BitVec.ofNat 8 (first + n)) (stub n) 0x08#16 0x8E#8) m

def isrsInstall (isr : Nat → Word) (s : Interrupts) : Interrupts :=
  let (faultHandlers, paging) := kmalloc s.paging 128#32
  let mem := memset paging.mem faultHandlers 0#8 128
  { s with
    faultHandlers := faultHandlers
    paging := { paging with mem := setStubs s.idt 0 32 isr mem } }

def irqRemap : List (BitVec 16 × Byte) :=
  [(0x20#16, 0x11#8), (0xA0#16, 0x11#8), (0x21#16, 0x20#8), (0xA1#16, 0x28#8), (0x21#16, 0x04#8),
    (0xA1#16, 0x02#8), (0x21#16, 0x01#8), (0xA1#16, 0x01#8), (0x21#16, 0x00#8), (0xA1#16, 0x00#8)]

def irqInstall (irq : Nat → Word) (s : Interrupts) : Interrupts :=
  { s with
    controllers := s.controllers.outs irqRemap
    paging := { s.paging with mem := setStubs s.idt 32 16 irq s.paging.mem } }

/-- `lidt` and `sti`. -/
def idtLoad (s : Interrupts) : Interrupts := { s with idtr := some s.idtp, interruptFlag := true }

def idtInstall (isr irq : Nat → Word) (s : Interrupts) : Interrupts :=
  let (idt, paging) := kmallocA s.paging 2048#32
  let s := { s with
    idt := idt
    paging := { paging with mem := memset paging.mem idt 0#8 2048 }
    idtp := (2047#16, idt) }
  idtLoad (irqInstall irq (isrsInstall isr s))

/-- `register_fault_handler`, on the array of `isrs_install`. -/
def registerFaultHandler (m : Memory) (faultHandlers faultNo fnc : Word) : Memory :=
  store32 m (element faultHandlers faultNo) fnc

def stubGate (stub : Word) : Gate := ⟨stub, 0x08#16, 0#8, 0x8E#8⟩

/-- The handlers of the processor's exceptions, then of the two controllers. -/
def installedGate (isr irq : Nat → Word) (vector : Byte) : Gate :=
  if vector.toNat < 32 then stubGate (isr vector.toNat)
  else if vector.toNat < 48 then stubGate (irq (vector.toNat - 32))
  else ⟨0#32, 0#16, 0#8, 0#8⟩

def remapped : Controllers where
  master := ⟨.ready, false, true, 0x20#8, 0x04#8, 0x01#8, 0#8, 0#8⟩
  slave := ⟨.ready, false, true, 0x28#8, 0x02#8, 0x01#8, 0#8, 0#8⟩

/-- What `idt_install` leaves, from the first address it may take on. -/
structure Installed (isr irq : Nat → Word) (s after : Interrupts) : Prop where
  aligned : IsPage after.idt
  above : s.paging.placeAddr.toNat ≤ after.idt.toNat
  near : after.idt.toNat < s.paging.placeAddr.toNat + 4096
  loaded : after.idtr = some (2047#16, after.idt) ∧ after.interruptFlag = true
  gates : gates after.paging.mem after.idt = installedGate isr irq
  handlers : after.faultHandlers.toNat = after.idt.toNat + 2048
  unset : ∀ faultNo < 32, load32 after.paging.mem (element after.faultHandlers (BitVec.ofNat 32 faultNo)) = 0#32
  place : after.paging.placeAddr.toNat = after.faultHandlers.toNat + 128
  controllers : after.controllers = remapped
  outside : ∀ x, ¬ InSpan after.idt 2176 x → after.paging.mem x = s.paging.mem x

theorem remapped_controllers (c : Controllers) : c.outs irqRemap = remapped := rfl

/-! One gate, and the gates of a whole table. -/

theorem split_halves (base : Word) :
    (((base >>> 16) &&& 0xFFFF#32).setWidth 16 ++ (base &&& 0xFFFF#32).setWidth 16 : Word) = base := by
  have bound := base.isLt
  apply BitVec.eq_of_toNat_eq
  rw [BitVec.toNat_append, BitVec.toNat_setWidth, BitVec.toNat_setWidth, BitVec.toNat_and, BitVec.toNat_and,
    BitVec.toNat_ushiftRight, Nat.shiftRight_eq_div_pow, show (0xFFFF#32).toNat = 2 ^ 16 - 1 from rfl,
    Nat.and_two_pow_sub_one_eq_mod, Nat.and_two_pow_sub_one_eq_mod,
    ← Nat.shiftLeft_add_eq_or_of_lt (Nat.mod_lt _ (by decide)), Nat.shiftLeft_eq]
  omega

section Gate
variable (m : Memory) (idt : Word) (num : Byte) (base : Word) (sel : BitVec 16) (flags : Byte)

theorem set_gate_here :
    readGate (idtSetGate m idt num base sel flags) (gateAddress idt num) = ⟨base, sel, 0#8, flags⟩ := by
  have halves := split_halves base
  simp only [idtSetGate]
  generalize gateAddress idt num = a
  generalize ((base >>> 16) &&& 0xFFFF#32).setWidth 16 = high at *
  generalize (base &&& 0xFFFF#32).setWidth 16 = low at *
  simp [readGate, load16, store16, write, BitVec.add_assoc, join16, halves]

theorem set_gate_outside (x : Word) (outside : ¬ InSpan (gateAddress idt num) 8 x) :
    idtSetGate m idt num base sel flags x = m x := by
  have away := fun i bound => outside_offset (gateAddress idt num) i 8 bound x outside
  have entry := outside_base (gateAddress idt num) 8 (by decide) x outside
  simp only [idtSetGate]
  generalize gateAddress idt num = a at away entry ⊢
  simp only [store16, write, BitVec.add_assoc, BitVec.reduceAdd, if_neg entry, if_neg (away 1#32 (by decide)),
    if_neg (away 2#32 (by decide)), if_neg (away 3#32 (by decide)), if_neg (away 4#32 (by decide)),
    if_neg (away 5#32 (by decide)), if_neg (away 6#32 (by decide)), if_neg (away 7#32 (by decide))]

end Gate

section Stubs
variable (idt : Word) (first count : Nat) (stub : Nat → Word) (m : Memory)

def stubVector (first n : Nat) : Byte := BitVec.ofNat 8 (first + n)

theorem set_stubs_gates : gates (setStubs idt first count stub m) idt =
    updates (stubVector first) (fun n => stubGate (stub n)) (gates m idt) (List.range count) := by
  unfold setStubs updates
  generalize List.range count = calls
  induction calls generalizing m with
  | nil => rfl
  | cons n rest ih =>
      have one := gates_update idt (stubVector first n) m _ (stubGate (stub n))
        (set_gate_here m idt (stubVector first n) (stub n) 0x08#16 0x8E#8)
        (set_gate_outside m idt (stubVector first n) (stub n) 0x08#16 0x8E#8)
      rw [List.foldl_cons, List.foldl_cons, ih, ← one]
      rfl

theorem set_stubs_outside (x : Word) (outside : ¬ InSpan idt 2048 x) :
    setStubs idt first count stub m x = m x := by
  unfold setStubs
  generalize List.range count = calls
  induction calls generalizing m with
  | nil => rfl
  | cons n rest ih =>
      rw [List.foldl_cons, ih]
      exact set_gate_outside _ _ _ _ _ _ x fun inside => outside (gate_distance idt _ x inside).2

theorem stub_vector_toNat (n : Nat) (bound : first + n < 256) : (stubVector first n).toNat = first + n := by
  rw [stubVector, BitVec.toNat_ofNat]
  omega

theorem stub_gates_apply (fits : first + count ≤ 256) (before : Byte → Gate) (vector : Byte) :
    updates (stubVector first) (fun n => stubGate (stub n)) before (List.range count) vector =
      if first ≤ vector.toNat ∧ vector.toNat < first + count then stubGate (stub (vector.toNat - first))
      else before vector := by
  have number := stub_vector_toNat first
  split
  next inside =>
    have once : ((List.range count).map (stubVector first)).Nodup := by
      refine List.Nodup.map_on ?_ List.nodup_range
      intro n listed k other same
      rw [List.mem_range] at listed other
      have equal := congrArg BitVec.toNat same
      rw [number n (by omega), number k (by omega)] at equal
      omega
    have listed : vector.toNat - first ∈ List.range count := List.mem_range.mpr (by omega)
    have here : stubVector first (vector.toNat - first) = vector := by
      apply BitVec.eq_of_toNat_eq
      rw [number _ (by omega)]
      omega
    have set := updates_set (stubVector first) (fun n => stubGate (stub n)) before _ once _ listed
    rw [here] at set
    exact set
  next outside =>
    refine updates_rest _ _ _ _ _ fun n listed same => outside ?_
    rw [List.mem_range] at listed
    rw [← same, number n (by omega)]
    omega

end Stubs

theorem cleared_gates (m : Memory) (idt : Word) : gates (memset m idt 0#8 2048) idt =
    fun _ => ⟨0#32, 0#16, 0#8, 0#8⟩ := by
  funext vector
  have zero : gates (memset m idt 0#8 2048) idt vector = gates (fun _ => 0#8) idt vector := by
    refine read_gate_congr _ _ _ fun x inside => ?_
    rw [memset_apply _ _ _ _ _ (by decide), if_pos (gate_distance idt vector x inside).2]
  rw [zero]
  simp [gates, readGate, load16]

section Install
variable (isr irq : Nat → Word) (m : Memory) (idt : Word)

def installedMemory : Memory :=
  setStubs idt 32 16 irq (setStubs idt 0 32 isr (memset (memset m idt 0#8 2048) (idt + 2048#32) 0#8 128))

variable (room : idt.toNat + 2176 ≤ 2 ^ 31)
include room

theorem array_behind (x : Word) (inside : InSpan (idt + 2048#32) 128 x) : ¬ InSpan idt 2048 x := by
  unfold InSpan at *
  bv_omega

theorem installed_memory_gates : gates (installedMemory isr irq m idt) idt = installedGate isr irq := by
  have kept : gates (memset (memset m idt 0#8 2048) (idt + 2048#32) 0#8 128) idt =
      gates (memset m idt 0#8 2048) idt := by
    refine gates_congr idt _ _ fun x inside => ?_
    rw [memset_apply _ _ _ _ _ (by decide), if_neg fun there => array_behind idt room x there inside]
  funext vector
  rw [installedMemory, set_stubs_gates, stub_gates_apply _ _ _ (by decide), set_stubs_gates,
    stub_gates_apply _ _ _ (by decide), kept, cleared_gates, installedGate]
  by_cases exception : vector.toNat < 32
  · rw [if_neg (by omega), if_pos (by omega), if_pos exception]
    rfl
  · by_cases line : vector.toNat < 48
    · rw [if_pos (by omega), if_neg exception, if_pos line]
    · rw [if_neg (by omega), if_neg (by omega), if_neg exception, if_neg line]

theorem installed_memory_array (x : Word) (inside : InSpan (idt + 2048#32) 128 x) :
    installedMemory isr irq m idt x = 0#8 := by
  have apart := array_behind idt room x inside
  rw [installedMemory, set_stubs_outside _ _ _ _ _ x apart, set_stubs_outside _ _ _ _ _ x apart,
    memset_apply _ _ _ _ _ (by decide), if_pos inside]

theorem installed_memory_outside (x : Word) (outside : ¬ InSpan idt 2176 x) :
    installedMemory isr irq m idt x = m x := by
  have table : ¬ InSpan idt 2048 x := fun inside => outside (Nat.lt_trans inside (by decide))
  have array : ¬ InSpan (idt + 2048#32) 128 x := by
    unfold InSpan at *
    bv_omega
  rw [installedMemory, set_stubs_outside _ _ _ _ _ x table, set_stubs_outside _ _ _ _ _ x table,
    memset_apply _ _ _ _ _ (by decide), if_neg array, memset_apply _ _ _ _ _ (by decide), if_neg table]

omit room in
theorem handler_inside (faultNo : Nat) (bound : faultNo < 32) (x : Word)
    (inside : InSpan (element (idt + 2048#32) (BitVec.ofNat 32 faultNo)) 4 x) :
    InSpan (idt + 2048#32) 128 x := by
  unfold InSpan element at *
  bv_omega

end Install

theorem idt_installed (isr irq : Nat → Word) (s : Interrupts)
    (low : s.paging.placeAddr.toNat ≤ 2 ^ 30) : Installed isr irq s (idtInstall isr irq s) := by
  obtain ⟨idt, taken, above, near, aligned, _⟩ := kmalloc_all_result s.paging 2048#32 true low
  have room : idt.toNat + 2176 ≤ 2 ^ 31 := by omega
  have shape : idtInstall isr irq s = { s with
      idt := idt
      idtp := (2047#16, idt)
      idtr := some (2047#16, idt)
      interruptFlag := true
      faultHandlers := idt + 2048#32
      controllers := s.controllers.outs irqRemap
      paging := { s.paging with
        placeAddr := idt + 2048#32 + 128#32
        history := { s.paging.history with regions :=
          ⟨idt + 2048#32, 128#32, none⟩ :: ⟨idt, 2048#32, none⟩ :: s.paging.history.regions }
        mem := installedMemory isr irq s.paging.mem idt } } := by
    simp only [idtInstall, kmallocA, taken]
    rfl
  have unset : ∀ faultNo < 32, load32 (installedMemory isr irq s.paging.mem idt)
      (element (idt + 2048#32) (BitVec.ofNat 32 faultNo)) = 0#32 := by
    intro faultNo bound
    have zero : load32 (fun _ => 0#8) (element (idt + 2048#32) (BitVec.ofNat 32 faultNo)) = 0#32 := by
      simp [load32]
    rw [← zero]
    exact load32_congr _ _ _ fun x inside =>
      installed_memory_array isr irq s.paging.mem idt room x (handler_inside idt faultNo bound x inside)
  have top : (idt + 2048#32).toNat = idt.toNat + 2048 := by bv_omega
  have last : (idt + 2048#32 + 128#32).toNat = (idt + 2048#32).toNat + 128 := by bv_omega
  rw [shape]
  exact ⟨aligned rfl, above, near, ⟨rfl, rfl⟩, installed_memory_gates isr irq s.paging.mem idt room, top, unset,
    last, rfl, fun x outside => installed_memory_outside isr irq s.paging.mem idt room x outside⟩

end GargOS
