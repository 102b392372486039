import GargOS.Lib.ByteLanes

/-!
pci.c: configuration space as an array of 32-bit registers, selected by the
last dword written to one port and accessed through the other.
-/

namespace GargOS
open ByteMemory ByteLanes

def PCI_CONFIG_ADDR : BitVec 16 := 0xCF8#16

def PCI_CONFIG_DATA : BitVec 16 := 0xCFC#16

structure ConfigPorts where
  selected : Word
  registers : Word → Word

def outdw (p : ConfigPorts) (port : BitVec 16) (dword : Word) : ConfigPorts :=
  if port = PCI_CONFIG_ADDR then { p with selected := dword }
  else if port = PCI_CONFIG_DATA then
    { p with registers := fun a => if a = p.selected then dword else p.registers a }
  else p

/-- A port that belongs to nobody here reads as all ones. -/
def indw (p : ConfigPorts) (port : BitVec 16) : Word :=
  if port = PCI_CONFIG_ADDR then p.selected
  else if port = PCI_CONFIG_DATA then p.registers p.selected
  else 0xFFFFFFFF#32

/-- The `address` of `pci_config_read` and `pci_config_write`. -/
def configAddress (bus slot func offset : Byte) : Word :=
  (bus.setWidth 32 <<< 16) ||| (slot.setWidth 32 <<< 11) ||| (func.setWidth 32 <<< 8) |||
    (offset &&& 0xFC#8).setWidth 32 ||| 0x80000000#32

def pciConfigRead (p : ConfigPorts) (bus slot func offset amountOfBytes : Byte) :
    Word × ConfigPorts :=
  let p := outdw p PCI_CONFIG_ADDR (configAddress bus slot func offset)
  let tmp := indw p PCI_CONFIG_DATA
  if amountOfBytes = 1#8 then ((tmp >>> ((offset &&& 3#8).toNat * 8)) &&& 0xFF#32, p)
  else if amountOfBytes = 2#8 then ((tmp >>> ((offset &&& 2#8).toNat * 8)) &&& 0xFFFF#32, p)
  else (tmp, p)

/-- What `pci_config_write` makes of the register it read: the pointer into
`tmp` steps by bytes in one branch and by half words in the other. -/
def overlay (tmp : Word) (offset : Byte) (toWrite : Word) (amountOfBytes : Byte) : Word :=
  if amountOfBytes = 1#8 then
    setByteLane tmp (offset &&& 3#8).toNat (toWrite.setWidth 8)
  else if amountOfBytes = 2#8 then
    -- `offset && 2` is the logical conjunction
    let ptr := if offset ≠ 0#8 then 1 else 0
    setByteLane (setByteLane tmp (2 * ptr) (byteLane toWrite 0)) (2 * ptr + 1) (byteLane toWrite 1)
  else tmp

def pciConfigWrite (p : ConfigPorts) (bus slot func offset : Byte) (toWrite : Word)
    (amountOfBytes : Byte) : ConfigPorts :=
  let address := configAddress bus slot func offset
  let p := outdw p PCI_CONFIG_ADDR address
  let tmp := overlay (indw p PCI_CONFIG_DATA) offset toWrite amountOfBytes
  let p := outdw p PCI_CONFIG_ADDR address
  outdw p PCI_CONFIG_DATA tmp

section Address

theorem masked_offset : ∀ offset : Byte, (offset &&& 0xFC#8).toNat = offset.toNat / 4 * 4 := by
  decide

theorem lane_offset : ∀ offset : Byte, (offset &&& 3#8).toNat = offset.toNat % 4 := by
  decide

theorem half_offset : ∀ offset : Byte, (offset &&& 2#8).toNat = offset.toNat % 4 / 2 * 2 := by
  decide

theorem shifted_field (x : Byte) (k : Nat) (small : k ≤ 24) :
    (x.setWidth 32 <<< k).toNat = x.toNat * 2 ^ k := by
  have room : x.toNat * 2 ^ k < 2 ^ 32 := by
    calc x.toNat * 2 ^ k ≤ 255 * 2 ^ 24 :=
          Nat.mul_le_mul (by omega) (Nat.pow_le_pow_right (by omega) small)
      _ < 2 ^ 32 := by decide
  rw [BitVec.toNat_shiftLeft, BitVec.toNat_setWidth, Nat.shiftLeft_eq,
    Nat.mod_eq_of_lt (a := x.toNat) (by omega), Nat.mod_eq_of_lt room]

variable (bus slot func offset : Byte)

theorem config_address_toNat (slots : slot.toNat < 32) (funcs : func.toNat < 8) :
    (configAddress bus slot func offset).toNat =
      2 ^ 31 + ((bus.toNat * 2 ^ 5 + slot.toNat) * 2 ^ 3 + func.toNat) * 2 ^ 8 +
        offset.toNat / 4 * 4 := by
  unfold configAddress
  simp only [BitVec.toNat_or, shifted_field _ 16 (by omega), shifted_field _ 11 (by omega),
    shifted_field _ 8 (by omega), BitVec.toNat_setWidth, masked_offset]
  rw [Nat.mod_eq_of_lt (by omega)]
  have busSlot : bus.toNat * 2 ^ 16 ||| slot.toNat * 2 ^ 11 =
      (bus.toNat * 2 ^ 5 + slot.toNat) * 2 ^ 11 := by
    rw [packed _ _ 16 (by omega)]
    omega
  have busFunc : (bus.toNat * 2 ^ 5 + slot.toNat) * 2 ^ 11 ||| func.toNat * 2 ^ 8 =
      ((bus.toNat * 2 ^ 5 + slot.toNat) * 2 ^ 3 + func.toNat) * 2 ^ 8 := by
    rw [packed _ _ 11 (by omega)]
    omega
  rw [busSlot, busFunc, packed _ _ 8 (by omega), Nat.or_comm,
    show (0x80000000#32).toNat = 1 * 2 ^ 31 from rfl, packed _ _ 31 (by omega)]
  omega

theorem config_address_injective (bus' slot' func' offset' : Byte) (slots : slot.toNat < 32)
    (funcs : func.toNat < 8) (slots' : slot'.toNat < 32) (funcs' : func'.toNat < 8)
    (same : configAddress bus' slot' func' offset' = configAddress bus slot func offset) :
    bus' = bus ∧ slot' = slot ∧ func' = func ∧ offset'.toNat / 4 = offset.toNat / 4 := by
  have equal := congrArg BitVec.toNat same
  rw [config_address_toNat _ _ _ _ slots funcs, config_address_toNat _ _ _ _ slots' funcs'] at equal
  refine ⟨?_, ?_, ?_, by omega⟩ <;>
    · apply BitVec.eq_of_toNat_eq
      omega

end Address

theorem config_address_same (bus slot func offset offset' : Byte) (slots : slot.toNat < 32)
    (funcs : func.toNat < 8) (register : offset'.toNat / 4 = offset.toNat / 4) :
    configAddress bus slot func offset' = configAddress bus slot func offset := by
  apply BitVec.eq_of_toNat_eq
  rw [config_address_toNat _ _ _ _ slots funcs, config_address_toNat _ _ _ _ slots funcs, register]

def configByte (p : ConfigPorts) (bus slot func offset : Byte) : Byte :=
  byteLane (p.registers (configAddress bus slot func offset)) (offset.toNat % 4)

def truncated (value : Word) (amountOfBytes : Byte) : Word :=
  BitVec.ofNat 32 (value.toNat % 2 ^ (8 * amountOfBytes.toNat))

/-- A write that a read of the same bytes gives back and that changes no other
byte, nor any register that another address selects. -/
structure RoundTrip (p : ConfigPorts) (bus slot func offset : Byte) (value : Word)
    (amountOfBytes : Byte) : Prop where
  read : (pciConfigRead (pciConfigWrite p bus slot func offset value amountOfBytes)
    bus slot func offset amountOfBytes).1 = truncated value amountOfBytes
  others : ∀ bus' slot' func' offset' : Byte, slot'.toNat < 32 → func'.toNat < 8 →
    ¬ (bus' = bus ∧ slot' = slot ∧ func' = func ∧ offset.toNat ≤ offset'.toNat ∧
      offset'.toNat < offset.toNat + amountOfBytes.toNat) →
    configByte (pciConfigWrite p bus slot func offset value amountOfBytes) bus' slot' func' offset' =
      configByte p bus' slot' func' offset'
  registers : ∀ a, a ≠ configAddress bus slot func offset →
    (pciConfigWrite p bus slot func offset value amountOfBytes).registers a = p.registers a

section Write
variable (p : ConfigPorts) (bus slot func offset : Byte) (value : Word) (amountOfBytes : Byte)

theorem write_registers (a : Word) :
    (pciConfigWrite p bus slot func offset value amountOfBytes).registers a =
      if a = configAddress bus slot func offset then
        overlay (p.registers (configAddress bus slot func offset)) offset value amountOfBytes
      else p.registers a := by
  simp [pciConfigWrite, outdw, indw, PCI_CONFIG_ADDR, PCI_CONFIG_DATA]

/-- The lanes a write has to leave in the register. -/
def Intended (tmp tmp' : Word) : Prop :=
  ∀ j < 4, byteLane tmp' j =
    if offset.toNat % 4 ≤ j ∧ j < offset.toNat % 4 + amountOfBytes.toNat then
      byteLane value (j - offset.toNat % 4)
    else byteLane tmp j

variable (sized : amountOfBytes = 1#8 ∨ amountOfBytes = 2#8 ∨ amountOfBytes = 4#8)
  (aligned : offset.toNat % amountOfBytes.toNat = 0)

include sized aligned

theorem read_truncated (value : Word) :
    (pciConfigRead p bus slot func offset amountOfBytes).1 = truncated value amountOfBytes ↔
      ∀ j < amountOfBytes.toNat,
        byteLane (p.registers (configAddress bus slot func offset)) (offset.toNat % 4 + j) =
          byteLane value j := by
  have selected : indw (outdw p PCI_CONFIG_ADDR (configAddress bus slot func offset))
      PCI_CONFIG_DATA = p.registers (configAddress bus slot func offset) := by
    simp [outdw, indw, PCI_CONFIG_ADDR, PCI_CONFIG_DATA]
  set reg := p.registers (configAddress bus slot func offset)
  rcases sized with rfl | rfl | rfl
  · have lane : truncated value 1#8 = (byteLane value 0).setWidth 32 := by
      apply BitVec.eq_of_toNat_eq
      rw [truncated, BitVec.toNat_setWidth, byte_lane_toNat]
      simp
    have read : (pciConfigRead p bus slot func offset 1#8).1 =
        (byteLane reg (offset.toNat % 4)).setWidth 32 := by
      simp only [pciConfigRead, if_true, selected, lane_offset]
      rw [Nat.mul_comm, byte_lane_shift]
    rw [read, lane, widened_injective 8 (by omega)]
    constructor
    · intro same j bound
      have zero : j = 0 := Nat.lt_one_iff.mp bound
      rw [zero]
      exact same
    · exact fun same => same 0 (by decide)
  · have even : offset.toNat % 2 = 0 := aligned
    have lane : truncated value 2#8 = (byteLane value 1 ++ byteLane value 0 : BitVec 16).setWidth 32 := by
      rw [← half_lanes_shift value 0]
      apply BitVec.eq_of_toNat_eq
      rw [truncated, BitVec.toNat_and, show (0xFFFF#32).toNat = 2 ^ 16 - 1 from rfl,
        Nat.and_two_pow_sub_one_eq_mod]
      simp
      omega
    have read : (pciConfigRead p bus slot func offset 2#8).1 =
        (byteLane reg (offset.toNat % 4 + 1) ++ byteLane reg (offset.toNat % 4) :
          BitVec 16).setWidth 32 := by
      have half : offset.toNat % 4 = 2 * (offset.toNat % 4 / 2) := by omega
      have shift : offset.toNat % 4 / 2 * 2 * 8 = 16 * (offset.toNat % 4 / 2) := by omega
      have two : ¬ (2#8 = 1#8) := by decide
      simp only [pciConfigRead, two, if_false, if_true, selected, half_offset]
      rw [shift, half_lanes_shift, ← half]
    rw [read, lane, widened_injective 16 (by omega), halves_injective]
    constructor
    · rintro ⟨low, high⟩ j bound
      have asked : j = 0 ∨ j = 1 := by
        have : j < 2 := bound
        omega
      rcases asked with rfl | rfl
      · exact low
      · exact high
    · exact fun same => ⟨same 0 (by decide), same 1 (by decide)⟩
  · have start : offset.toNat % 4 = 0 := aligned
    have lane : truncated value 4#8 = value := by
      apply BitVec.eq_of_toNat_eq
      simp [truncated]
      omega
    have read : (pciConfigRead p bus slot func offset 4#8).1 = reg := by
      have four : ¬ (4#8 = 1#8) ∧ ¬ (4#8 = 2#8) := by decide
      simp only [pciConfigRead, four, if_false, selected]
    rw [read, lane, start]
    constructor
    · intro same j _
      rw [Nat.zero_add, same]
    · intro same
      apply byte_lanes_ext
      intro j bound
      have lane := same j bound
      rwa [Nat.zero_add] at lane

/-- The round trip is a matter of the four lanes of one register. -/
theorem round_trip_lanes (slots : slot.toNat < 32) (funcs : func.toNat < 8) :
    RoundTrip p bus slot func offset value amountOfBytes ↔
      Intended offset value amountOfBytes (p.registers (configAddress bus slot func offset))
        (overlay (p.registers (configAddress bus slot func offset)) offset value amountOfBytes) := by
  have written := write_registers p bus slot func offset value amountOfBytes
  have here := written (configAddress bus slot func offset)
  rw [if_pos rfl] at here
  have read := read_truncated (pciConfigWrite p bus slot func offset value amountOfBytes)
    bus slot func offset amountOfBytes sized aligned value
  rw [here] at read
  have fits : offset.toNat % 4 + amountOfBytes.toNat ≤ 4 := by
    rcases sized with rfl | rfl | rfl
    · exact Nat.mod_lt _ (by decide)
    · have even : offset.toNat % 2 = 0 := aligned
      show offset.toNat % 4 + 2 ≤ 4
      omega
    · have start : offset.toNat % 4 = 0 := aligned
      show offset.toNat % 4 + 4 ≤ 4
      omega
  constructor
  · intro trip j bound
    split
    next inside =>
      have lane := read.mp trip.read (j - offset.toNat % 4) (by omega)
      rwa [Nat.add_sub_cancel' inside.1] at lane
    next outside =>
      have place : (BitVec.ofNat 8 (offset.toNat / 4 * 4 + j)).toNat = offset.toNat / 4 * 4 + j := by
        rw [BitVec.toNat_ofNat]
        omega
      have kept := trip.others bus slot func (BitVec.ofNat 8 (offset.toNat / 4 * 4 + j)) slots funcs
        (by
          rw [place]
          rintro ⟨_, _, _, range⟩
          omega)
      have lane : (offset.toNat / 4 * 4 + j) % 4 = j := by omega
      rw [configByte, configByte, place, lane,
        config_address_same bus slot func offset _ slots funcs (by rw [place]; omega), here] at kept
      exact kept
  · intro intended
    refine ⟨?_, ?_, ?_⟩
    · apply read.mpr
      intro j bound
      rw [intended _ (by omega), if_pos (by omega), Nat.add_sub_cancel_left]
    · intro bus' slot' func' offset' slots' funcs' other
      rw [configByte, configByte, written]
      by_cases same : configAddress bus' slot' func' offset' = configAddress bus slot func offset
      · obtain ⟨rfl, rfl, rfl, register⟩ := config_address_injective bus slot func offset bus' slot'
          func' offset' slots funcs slots' funcs' same
        rw [if_pos same, intended _ (by omega), if_neg, same]
        intro inside
        exact other ⟨rfl, rfl, rfl, by omega, by omega⟩
      · rw [if_neg same]
    · intro a different
      rw [written, if_neg different]

end Write

/-- The condition on the register before the write. One byte always survives;
two do in either half unless the offset names the lower half of a register
other than the first, where the code writes the upper half; four bytes are not
written at all. -/
def WriteLands (reg : Word) (offset : Byte) (value : Word) (amountOfBytes : Byte) : Prop :=
  amountOfBytes = 1#8 ∨
    (amountOfBytes = 2#8 ∧ (offset = 0#8 ∨ offset.toNat % 4 = 2 ∨
      ∀ j < 4, byteLane reg j = byteLane value (j % 2))) ∨
    (amountOfBytes = 4#8 ∧ reg = value)

/-- The half word goes to the half the offset names only at offset 0 and in the
upper halves. -/
theorem overlay_half (reg : Word) (offset : Byte) (value : Word)
    (aligned : offset.toNat % (2#8).toNat = 0) :
    Intended offset value 2#8 reg (overlay reg offset value 2#8) ↔
      WriteLands reg offset value 2#8 := by
  have even : offset.toNat % 2 = 0 := aligned
  have two : ¬ (2#8 = 1#8) ∧ ¬ (2#8 = 4#8) := by decide
  have size : (2#8).toNat = 2 := rfl
  have half : ∀ j < 4, byteLane (overlay reg offset value 2#8) j =
      if j / 2 = (if offset ≠ 0#8 then 1 else 0) then byteLane value (j % 2) else byteLane reg j := by
    intro j bound
    simp only [overlay, two, if_false, if_true, byte_lane_set _ _ _ j bound]
    have lane : j = 0 ∨ j = 1 ∨ j = 2 ∨ j = 3 := by omega
    by_cases first : offset = 0#8
    · rcases lane with rfl | rfl | rfl | rfl <;> simp [first]
    · rcases lane with rfl | rfl | rfl | rfl <;> simp [first]
  have start : offset.toNat % 4 = 0 ∨ offset.toNat % 4 = 2 := by omega
  have condition : WriteLands reg offset value 2#8 ↔ (offset = 0#8 ∨ offset.toNat % 4 = 2 ∨
      ∀ j < 4, byteLane reg j = byteLane value (j % 2)) := by
    simp only [WriteLands, two, false_or, false_and, or_false, true_and]
  rw [condition]
  by_cases first : offset = 0#8
  · refine iff_of_true ?_ (Or.inl first)
    intro j bound
    rw [half j bound, size]
    simp only [first, ne_eq, not_true_eq_false, if_false, BitVec.toNat_zero, Nat.zero_mod]
    by_cases low : j / 2 = 0
    · rw [if_pos low, if_pos (by omega), Nat.mod_eq_of_lt (by omega), Nat.sub_zero]
    · rw [if_neg low, if_neg (by omega)]
  · rcases start with lower | upper
    · have nothing : ¬ offset.toNat % 4 = 2 := by omega
      simp only [first, nothing, false_or]
      constructor
      · intro intended j bound
        have lane := intended j bound
        rw [half j bound, if_pos first, size, lower] at lane
        by_cases high : j / 2 = 1
        · rw [if_pos high, if_neg (by omega)] at lane
          exact lane.symm
        · rw [if_neg high, if_pos (by omega), Nat.sub_zero] at lane
          rwa [Nat.mod_eq_of_lt (by omega)]
      · intro same j bound
        rw [half j bound, if_pos first, size, lower]
        by_cases high : j / 2 = 1
        · rw [if_pos high, if_neg (by omega), same j bound]
        · rw [if_neg high, if_pos (by omega), Nat.sub_zero, same j bound,
            Nat.mod_eq_of_lt (by omega)]
    · refine iff_of_true ?_ (Or.inr (Or.inl upper))
      intro j bound
      rw [half j bound, if_pos first, size, upper]
      by_cases high : j / 2 = 1
      · rw [if_pos high, if_pos (by omega)]
        congr 1
        omega
      · rw [if_neg high, if_neg (by omega)]

/-- A write of naturally aligned bytes is read back, with all others unchanged,
exactly if it lands. -/
theorem config_round_trip (p : ConfigPorts) (bus slot func offset : Byte) (value : Word)
    (amountOfBytes : Byte) (slots : slot.toNat < 32) (funcs : func.toNat < 8)
    (sized : amountOfBytes = 1#8 ∨ amountOfBytes = 2#8 ∨ amountOfBytes = 4#8)
    (aligned : offset.toNat % amountOfBytes.toNat = 0) :
    RoundTrip p bus slot func offset value amountOfBytes ↔
      WriteLands (p.registers (configAddress bus slot func offset)) offset value amountOfBytes := by
  rw [round_trip_lanes p bus slot func offset value amountOfBytes sized aligned slots funcs]
  set reg := p.registers (configAddress bus slot func offset)
  rcases sized with rfl | rfl | rfl
  · have lands : WriteLands reg offset value 1#8 := Or.inl rfl
    have low : value.setWidth 8 = byteLane value 0 := by
      apply BitVec.eq_of_toNat_eq
      rw [byte_lane_toNat, BitVec.toNat_setWidth]
      simp
    refine iff_of_true ?_ lands
    intro j bound
    rw [overlay, if_pos rfl, byte_lane_set _ _ _ _ bound, lane_offset, low]
    have size : (1#8).toNat = 1 := rfl
    by_cases here : j = offset.toNat % 4
    · rw [if_pos here, if_pos (by omega), here, Nat.sub_self]
    · rw [if_neg here, if_neg (by omega)]
  · exact overlay_half reg offset value aligned
  · have start : offset.toNat % 4 = 0 := aligned
    have whole : overlay reg offset value 4#8 = reg := by
      have four : ¬ (4#8 = 1#8) ∧ ¬ (4#8 = 2#8) := by decide
      simp only [overlay, four, if_false]
    have size : (4#8).toNat = 4 := rfl
    rw [whole]
    constructor
    · intro intended
      refine Or.inr (Or.inr ⟨rfl, byte_lanes_ext _ _ fun j bound => ?_⟩)
      have lane := intended j bound
      rwa [if_pos (by omega), start, Nat.sub_zero] at lane
    · rintro (one | ⟨two, _⟩ | ⟨_, same⟩)
      · exact absurd one (by decide)
      · exact absurd two (by decide)
      · intro j bound
        rw [if_pos (by omega), start, Nat.sub_zero, same]

theorem config_round_trip_upper :
    RoundTrip ⟨0#32, fun _ => 0#32⟩ 0#8 3#8 1#8 0x42#8 0x12345678#32 2#8 ↔
      WriteLands 0#32 0x42#8 0x12345678#32 2#8 :=
  config_round_trip ⟨0#32, fun _ => 0#32⟩ 0#8 3#8 1#8 0x42#8 0x12345678#32 2#8 (by decide)
    (by decide) (by decide) (by decide)

/-- The low half of the second register is written to the upper half, and four
bytes are not written at all. -/
theorem config_write_lost :
    ¬ RoundTrip ⟨0#32, fun _ => 0#32⟩ 0#8 0#8 0#8 4#8 0x1234#32 2#8 ∧
      ¬ RoundTrip ⟨0#32, fun _ => 0#32⟩ 0#8 0#8 0#8 0x10#8 0xE0000000#32 4#8 := by
  constructor
  · intro trip
    exact absurd trip.read (by decide)
  · intro trip
    exact absurd trip.read (by decide)

end GargOS
