import GargOS.Lib.StoppedCalls
import GargOS.Pci

/-!
The scans for UHCI controllers: `check_all_buses` of the kernel in pci.c and that
of the loader in elf_parse.c, which reads the same fields as parts of words. A
scan ends in an error where `add_uhci` does not return.
-/

namespace GargOS
open ByteMemory ByteLanes StoppedCalls

def PCI_UHCI_BASE : Byte := 0x0C#8

def PCI_UHCI_SUB_CLASS : Byte := 0x03#8

def PCI_UHCI_PROG_IF : Byte := 0x00#8

def USBBASE_UHCI : Byte := 0x20#8

def FLBASEADDR_UHCI : Word := 0x08#32

/-- A scan and the functions it called `add_uhci` on, in order. -/
structure Scan where
  ports : ConfigPorts
  added : List (Byte × Byte × Byte)

/-- What `add_uhci` does to the ports; `none` if it does not return. -/
abbrev AddUhci := ConfigPorts → Byte → Byte → Byte → Option ConfigPorts

def Scan.add (addUhci : AddUhci) (s : Scan) (bus device function : Byte) : Except Scan Scan :=
  let added := s.added ++ [(bus, device, function)]
  match addUhci s.ports bus device function with
  | some ports => .ok ⟨ports, added⟩
  | none => .error ⟨s.ports, added⟩

/-- The functions in which the two files differ. -/
structure Scanner where
  getVendorID : ConfigPorts → Byte → Byte → Byte → BitVec 16 × ConfigPorts
  getHeaderType : ConfigPorts → Byte → Byte → Byte → Byte × ConfigPorts
  checkFunction : Scan → Byte → Byte → Byte → Except Scan Scan

namespace Scanner
variable (scanner : Scanner)

/-- The loop of `check_device` after `n` rounds. -/
def checkFunctions (s : Scan) (bus device : Byte) : Nat → Except Scan Scan
  | 0 => .ok s
  | n + 1 => do
      let s ← checkFunctions s bus device n
      let function := BitVec.ofNat 8 (n + 1)
      let (vendorID, ports) := scanner.getVendorID s.ports bus device function
      let s := { s with ports := ports }
      if vendorID ≠ 0xFFFF#16 then scanner.checkFunction s bus device function else .ok s

def checkDevice (s : Scan) (bus device : Byte) : Except Scan Scan :=
  let (vendor, ports) := scanner.getVendorID s.ports bus device 0#8
  let s := { s with ports := ports }
  -- the variable has eight bits
  let vendorID : Byte := vendor.setWidth 8
  if vendorID.setWidth 32 = 0xFFFF#32 then .ok s
  else do
    let s ← scanner.checkFunction s bus device 0#8
    let (headerType, ports) := scanner.getHeaderType s.ports bus device 0#8
    let s := { s with ports := ports }
    if headerType &&& 0x80#8 ≠ 0#8 then scanner.checkFunctions s bus device 7 else .ok s

/-- The inner loop of `check_all_buses` after `n` rounds. -/
def checkBus (s : Scan) (bus : Byte) : Nat → Except Scan Scan
  | 0 => .ok s
  | n + 1 => do
      let s ← checkBus s bus n
      scanner.checkDevice s bus (BitVec.ofNat 8 n)

/-- The outer loop of `check_all_buses` after `n` rounds. -/
def checkBuses (s : Scan) : Nat → Except Scan Scan
  | 0 => .ok s
  | n + 1 => do
      let s ← checkBuses s n
      scanner.checkBus s (BitVec.ofNat 8 n) 32

def checkAllBuses (s : Scan) : Except Scan Scan := scanner.checkBuses s 256

end Scanner

/-! pci.c and uhci.c. -/

namespace Kernel

def getVendorID (p : ConfigPorts) (bus device function : Byte) : BitVec 16 × ConfigPorts :=
  let (value, p) := pciConfigRead p bus device function 0#8 1#8
  (value.setWidth 16, p)

def getByte (offset : Byte) (p : ConfigPorts) (bus device function : Byte) : Byte × ConfigPorts :=
  let (value, p) := pciConfigRead p bus device function offset 1#8
  (value.setWidth 8, p)

def getHeaderType : ConfigPorts → Byte → Byte → Byte → Byte × ConfigPorts := getByte 0xE#8

def getBaseClass : ConfigPorts → Byte → Byte → Byte → Byte × ConfigPorts := getByte 0xB#8

def getSubClass : ConfigPorts → Byte → Byte → Byte → Byte × ConfigPorts := getByte 0xA#8

def getProgif : ConfigPorts → Byte → Byte → Byte → Byte × ConfigPorts := getByte 0x9#8

/-- The loop of `add_uhci` from the `n`-th read of the status on: whether it comes
to its end in `fuel` rounds. The controller's HCHalted is bit 5. -/
def stopSeen (status : Nat → BitVec 16) (n : Nat) : Nat → Bool
  | 0 => false
  | fuel + 1 => if status n &&& 0x0040#16 = 0#16 then stopSeen status (n + 1) fuel else true

/-- `status` is what a controller's status reads as, read after read, and `flBase0`
what `kmalloc_a` returns. The words that are sent go to ports that end in 0, 2 or
6, none of them of configuration space. -/
def addUhci (flBase0 : Byte → Byte → Byte → Word) (status : Byte → Byte → Byte → Nat → BitVec 16) (fuel : Nat) :
    AddUhci := fun p bus device function =>
  let (base, p) := pciConfigRead p bus device function USBBASE_UHCI 2#8
  let ioBase0 := base &&& 0xFFF0#32
  -- what is read first is written back, without bit 6
  if stopSeen (status bus device function) 1 fuel then
    some (outdw p ((ioBase0 + FLBASEADDR_UHCI).setWidth 16) (flBase0 bus device function))
  else none

/-- The other cases of the switch do nothing. -/
def checkFunction (addUhci : AddUhci) (s : Scan) (bus device function : Byte) : Except Scan Scan :=
  let (baseClass, ports) := getBaseClass s.ports bus device function
  let (subClass, ports) := getSubClass ports bus device function
  let (_, ports) := getProgif ports bus device function
  if baseClass = 0x0C#8 then
    if subClass = 0x03#8 then
      let (progIf, ports) := getProgif ports bus device function
      if progIf = 0x00#8 then { s with ports := ports }.add addUhci bus device function
      else .ok { s with ports := ports }
    else .ok { s with ports := ports }
  else .ok { s with ports := ports }

def scanner (addUhci : AddUhci) : Scanner := ⟨getVendorID, getHeaderType, checkFunction addUhci⟩

def checkAllBuses (addUhci : AddUhci) (s : Scan) : Except Scan Scan := (scanner addUhci).checkAllBuses s

end Kernel

/-! elf_parse.c. -/

namespace Loader

def pciConfigReadWord (p : ConfigPorts) (bus slot func offset : Byte) : BitVec 16 × ConfigPorts :=
  let p := outdw p PCI_CONFIG_ADDR (configAddress bus slot func offset)
  (((indw p PCI_CONFIG_DATA >>> ((offset &&& 2#8).toNat * 8)) &&& 0xFFFF#32).setWidth 16, p)

def getVendorID (p : ConfigPorts) (bus device function : Byte) : BitVec 16 × ConfigPorts :=
  pciConfigReadWord p bus device function 1#8

def getLow (offset : Byte) (p : ConfigPorts) (bus device function : Byte) : Byte × ConfigPorts :=
  let (word, p) := pciConfigReadWord p bus device function offset
  ((word &&& 0xFF#16).setWidth 8, p)

def getHigh (offset : Byte) (p : ConfigPorts) (bus device function : Byte) : Byte × ConfigPorts :=
  let (word, p) := pciConfigReadWord p bus device function offset
  (((word >>> 8) &&& 0xFF#16).setWidth 8, p)

def getHeaderType : ConfigPorts → Byte → Byte → Byte → Byte × ConfigPorts := getLow 0xE#8

def getBaseClass : ConfigPorts → Byte → Byte → Byte → Byte × ConfigPorts := getHigh 0xB#8

def getSubClass : ConfigPorts → Byte → Byte → Byte → Byte × ConfigPorts := getLow 0xA#8

def getProgif : ConfigPorts → Byte → Byte → Byte → Byte × ConfigPorts := getHigh 0x9#8

/-- The loader's `add_uhci` waits for nothing. -/
abbrev AddUhci := ConfigPorts → Byte → Byte → Byte → ConfigPorts

def addUhci : AddUhci := fun p bus device function =>
  let (base, p) := pciConfigRead p bus device function USBBASE_UHCI 2#8
  let ioBase0 := base &&& 0xFFF0#32
  outdw p ((ioBase0 + FLBASEADDR_UHCI).setWidth 16) 0x6000#32

/-- The programming interface is read last, and only for a USB controller. -/
def checkFunction (addUhci : AddUhci) (s : Scan) (bus device function : Byte) : Except Scan Scan :=
  let (baseClass, ports) := getBaseClass s.ports bus device function
  let (subClass, ports) := getSubClass ports bus device function
  if baseClass = PCI_UHCI_BASE ∧ subClass = PCI_UHCI_SUB_CLASS then
    let (progIf, ports) := getProgif ports bus device function
    if progIf = PCI_UHCI_PROG_IF then
      { s with ports := ports }.add (fun p bus device function => some (addUhci p bus device function)) bus device
        function
    else .ok { s with ports := ports }
  else .ok { s with ports := ports }

def scanner (addUhci : AddUhci) : Scanner := ⟨getVendorID, getHeaderType, checkFunction addUhci⟩

def checkAllBuses (addUhci : AddUhci) (s : Scan) : Scan := reached ((scanner addUhci).checkAllBuses s)

end Loader

/-! What a scan should find in a configuration space. -/

def contentByte (content : Word → Word) (bus slot func offset : Byte) : Byte :=
  byteLane (content (configAddress bus slot func offset)) (offset.toNat % 4)

def IsUhci (content : Word → Word) (bus device function : Byte) : Prop :=
  contentByte content bus device function 0xB#8 = PCI_UHCI_BASE ∧
    contentByte content bus device function 0xA#8 = PCI_UHCI_SUB_CLASS ∧
    contentByte content bus device function 0x9#8 = PCI_UHCI_PROG_IF

instance (content : Word → Word) (bus device function : Byte) : Decidable (IsUhci content bus device function) :=
  inferInstanceAs (Decidable (_ ∧ _ ∧ _))

def uhciAt (content : Word → Word) (bus device function : Byte) : List (Byte × Byte × Byte) :=
  if IsUhci content bus device function then [(bus, device, function)] else []

/-- A part of a scan leaves the content alone and makes the calls `found`, up to
one that does not return. -/
abbrev Scans (content : Word → Word) (stops : Byte × Byte × Byte → Bool) :
    Scan → List (Byte × Byte × Byte) → Except Scan Scan → Prop :=
  Makes Scan.added (fun s => s.ports.registers = content) stops

/-! The loops, by what they find at one function. -/

section Found
variable (content : Word → Word) (found : Byte → Byte → Byte → List (Byte × Byte × Byte))

def furtherFound (bus device : Byte) (n : Nat) : List (Byte × Byte × Byte) :=
  (List.range n).flatMap fun i => found bus device (BitVec.ofNat 8 (i + 1))

def deviceFound (bus device : Byte) : List (Byte × Byte × Byte) :=
  found bus device 0#8 ++
    if contentByte content bus device 0#8 0xE#8 &&& 0x80#8 ≠ 0#8 then furtherFound found bus device 7 else []

def busFound (bus : Byte) (n : Nat) : List (Byte × Byte × Byte) :=
  (List.range n).flatMap fun i => deviceFound content found bus (BitVec.ofNat 8 i)

def busesFound (n : Nat) : List (Byte × Byte × Byte) :=
  (List.range n).flatMap fun i => busFound content found (BitVec.ofNat 8 i) 32

/-- A scanner that makes these calls at each function, and none at one that it
takes for absent. -/
structure Scanner.Finds (scanner : Scanner) (stops : Byte × Byte × Byte → Bool) : Prop where
  vendor : ∀ p : ConfigPorts, p.registers = content → ∀ bus device function, device.toNat < 32 →
    function.toNat < 8 → (scanner.getVendorID p bus device function).2.registers = content ∧
      ((scanner.getVendorID p bus device function).1 = 0xFFFF#16 → found bus device function = [])
  header : ∀ p : ConfigPorts, p.registers = content → ∀ bus device function,
    (scanner.getHeaderType p bus device function).2.registers = content ∧
      (scanner.getHeaderType p bus device function).1 = contentByte content bus device function 0xE#8
  function : ∀ s : Scan, s.ports.registers = content → ∀ bus device function,
    Scans content stops s (found bus device function) (scanner.checkFunction s bus device function)

end Found

section Loops
variable (scanner : Scanner) (content : Word → Word) (found : Byte → Byte → Byte → List (Byte × Byte × Byte))
  (stops : Byte × Byte × Byte → Bool) (finds : scanner.Finds content found stops) (s : Scan)
  (registers : s.ports.registers = content)
include finds registers

theorem check_functions_scans (bus device : Byte) (slots : device.toNat < 32) (n : Nat) (few : n ≤ 7) :
    Scans content stops s (furtherFound found bus device n) (scanner.checkFunctions s bus device n) := by
  induction n with
  | zero => exact makes_none _ _ _ s s registers rfl
  | succ n ih =>
      have here : furtherFound found bus device (n + 1) =
          furtherFound found bus device n ++ found bus device (BitVec.ofNat 8 (n + 1)) := by
        rw [furtherFound, List.range_succ, List.flatMap_append, List.flatMap_singleton, furtherFound]
      have small : (BitVec.ofNat 8 (n + 1)).toNat < 8 := by
        rw [BitVec.toNat_ofNat]
        omega
      rw [Scanner.checkFunctions, here]
      refine makes_bind _ _ _ s _ _ _ _ (ih (by omega)) fun middle kept => ?_
      obtain ⟨same, absent⟩ := finds.vendor middle.ports kept bus device _ slots small
      dsimp only
      split
      next =>
        refine makes_start _ _ _ middle
          { middle with ports := (scanner.getVendorID middle.ports bus device (BitVec.ofNat 8 (n + 1))).2 } _ _ rfl ?_
        exact finds.function _ same bus device _
      next ones =>
        rw [absent (Decidable.not_not.mp ones)]
        exact makes_none _ _ _ middle _ same rfl

/-- Eight bits of a vendor are never 0xFFFF. -/
theorem check_device_scans (bus device : Byte) (slots : device.toNat < 32) :
    Scans content stops s (deviceFound content found bus device) (scanner.checkDevice s bus device) := by
  have kept := (finds.vendor s.ports registers bus device 0#8 slots (by decide)).1
  have narrow : ∀ vendor : Byte, vendor.setWidth 32 ≠ 0xFFFF#32 := by decide
  unfold Scanner.checkDevice
  dsimp only
  rw [if_neg (narrow _)]
  refine makes_start _ _ _ s { s with ports := (scanner.getVendorID s.ports bus device 0#8).2 } _ _ rfl ?_
  refine makes_bind _ _ _ _ _ _ _ _ (finds.function _ kept bus device 0#8) fun middle held => ?_
  obtain ⟨same, type⟩ := finds.header middle.ports held bus device 0#8
  rw [type]
  split
  next =>
    refine makes_start _ _ _ middle
      { middle with ports := (scanner.getHeaderType middle.ports bus device 0#8).2 } _ _ rfl ?_
    exact check_functions_scans scanner content found stops finds _ same bus device slots 7 (Nat.le_refl 7)
  next => exact makes_none _ _ _ middle _ same rfl

theorem check_bus_scans (bus : Byte) (n : Nat) (few : n ≤ 32) :
    Scans content stops s (busFound content found bus n) (scanner.checkBus s bus n) := by
  induction n with
  | zero => exact makes_none _ _ _ s s registers rfl
  | succ n ih =>
      have small : (BitVec.ofNat 8 n).toNat < 32 := by
        rw [BitVec.toNat_ofNat]
        omega
      have here : busFound content found bus (n + 1) =
          busFound content found bus n ++ deviceFound content found bus (BitVec.ofNat 8 n) := by
        rw [busFound, List.range_succ, List.flatMap_append, List.flatMap_singleton, busFound]
      rw [Scanner.checkBus, here]
      exact makes_bind _ _ _ s _ _ _ _ (ih (by omega)) fun middle kept =>
        check_device_scans scanner content found stops finds middle kept bus _ small

theorem check_buses_scans (n : Nat) :
    Scans content stops s (busesFound content found n) (scanner.checkBuses s n) := by
  induction n with
  | zero => exact makes_none _ _ _ s s registers rfl
  | succ n ih =>
      have here : busesFound content found (n + 1) =
          busesFound content found n ++ busFound content found (BitVec.ofNat 8 n) 32 := by
        rw [busesFound, List.range_succ, List.flatMap_append, List.flatMap_singleton, busesFound]
      rw [Scanner.checkBuses, here]
      exact makes_bind _ _ _ s _ _ _ _ ih fun middle kept =>
        check_bus_scans scanner content found stops finds middle kept _ 32 (Nat.le_refl 32)

end Loops

/-! Both scanners read the fields of the configuration space. -/

section Fields
variable (p : ConfigPorts) (bus device function offset : Byte)

theorem selected_register (a : Word) : indw (outdw p PCI_CONFIG_ADDR a) PCI_CONFIG_DATA = p.registers a ∧
    (outdw p PCI_CONFIG_ADDR a).registers = p.registers := by
  simp [outdw, indw, PCI_CONFIG_ADDR, PCI_CONFIG_DATA]

theorem kernel_byte : (Kernel.getByte offset p bus device function).2.registers = p.registers ∧
    (Kernel.getByte offset p bus device function).1 =
      contentByte p.registers bus device function offset := by
  obtain ⟨value, kept⟩ := selected_register p (configAddress bus device function offset)
  unfold Kernel.getByte pciConfigRead
  simp only [if_true, value, kept, lane_offset, true_and]
  rw [Nat.mul_comm, byte_lane_shift, contentByte]
  exact BitVec.setWidth_setWidth_of_le _ (by decide)

theorem kernel_vendor : (Kernel.getVendorID p bus device function).2.registers = p.registers ∧
    (Kernel.getVendorID p bus device function).1 ≠ 0xFFFF#16 := by
  obtain ⟨value, kept⟩ := selected_register p (configAddress bus device function 0#8)
  have narrow : ∀ b : Byte, (b.setWidth 32).setWidth 16 ≠ 0xFFFF#16 := by decide
  refine ⟨kept, ?_⟩
  simp only [Kernel.getVendorID, pciConfigRead, if_true, value, lane_offset]
  rw [Nat.mul_comm, byte_lane_shift]
  exact narrow _

theorem loader_word : (Loader.pciConfigReadWord p bus device function offset).2.registers = p.registers ∧
    (Loader.pciConfigReadWord p bus device function offset).1 =
      byteLane (p.registers (configAddress bus device function offset)) (2 * (offset.toNat % 4 / 2) + 1) ++
        byteLane (p.registers (configAddress bus device function offset)) (2 * (offset.toNat % 4 / 2)) := by
  obtain ⟨value, kept⟩ := selected_register p (configAddress bus device function offset)
  have shift : offset.toNat % 4 / 2 * 2 * 8 = 16 * (offset.toNat % 4 / 2) := by omega
  unfold Loader.pciConfigReadWord
  simp only [value, kept, half_offset, true_and]
  rw [shift, half_lanes_shift]
  exact BitVec.setWidth_setWidth_of_le _ (by decide)

omit p bus device function offset in
theorem word_halves (high low : Byte) : ((high ++ low : BitVec 16) &&& 0xFF#16).setWidth 8 = low ∧
    (((high ++ low : BitVec 16) >>> 8) &&& 0xFF#16).setWidth 8 = high := by
  have value : (high ++ low : BitVec 16).toNat = high.toNat * 2 ^ 8 + low.toNat := by
    rw [BitVec.toNat_append, ← Nat.shiftLeft_add_eq_or_of_lt low.isLt, Nat.shiftLeft_eq]
  have mask : (0xFF#16).toNat = 2 ^ 8 - 1 := rfl
  constructor
  · apply BitVec.eq_of_toNat_eq
    rw [BitVec.toNat_setWidth, BitVec.toNat_and, mask, Nat.and_two_pow_sub_one_eq_mod, value]
    omega
  · apply BitVec.eq_of_toNat_eq
    rw [BitVec.toNat_setWidth, BitVec.toNat_and, mask, Nat.and_two_pow_sub_one_eq_mod,
      BitVec.toNat_ushiftRight, Nat.shiftRight_eq_div_pow, value]
    omega

theorem loader_low (even : offset.toNat % 2 = 0) :
    (Loader.getLow offset p bus device function).2.registers = p.registers ∧
      (Loader.getLow offset p bus device function).1 = contentByte p.registers bus device function offset := by
  obtain ⟨kept, word⟩ := loader_word p bus device function offset
  have lane : 2 * (offset.toNat % 4 / 2) = offset.toNat % 4 := by omega
  unfold Loader.getLow
  dsimp only
  rw [word, lane]
  exact ⟨kept, (word_halves _ _).1⟩

theorem loader_high (odd : offset.toNat % 2 = 1) :
    (Loader.getHigh offset p bus device function).2.registers = p.registers ∧
      (Loader.getHigh offset p bus device function).1 = contentByte p.registers bus device function offset := by
  obtain ⟨kept, word⟩ := loader_word p bus device function offset
  have lane : 2 * (offset.toNat % 4 / 2) + 1 = offset.toNat % 4 := by omega
  unfold Loader.getHigh
  dsimp only
  rw [word, lane]
  exact ⟨kept, (word_halves _ _).2⟩

end Fields

/-- A function whose vendor is 0xFFFF reads as ones in every byte. -/
def AbsentReadsOnes (content : Word → Word) : Prop :=
  ∀ bus device function : Byte, device.toNat < 32 → function.toNat < 8 →
    (contentByte content bus device function 1#8 ++ contentByte content bus device function 0#8 : BitVec 16) =
      0xFFFF#16 → ∀ offset, contentByte content bus device function offset = 0xFF#8

/-- What `add_uhci` does to a configuration space with this content: nothing, and
it returns unless it stops. -/
structure AddsUhci (addUhci : AddUhci) (content : Word → Word) (stops : Byte × Byte × Byte → Bool) : Prop where
  waits : ∀ p bus device function, stops (bus, device, function) = true → addUhci p bus device function = none
  returns : ∀ p : ConfigPorts, p.registers = content → ∀ bus device function,
    stops (bus, device, function) = false →
    ∃ after, addUhci p bus device function = some after ∧ after.registers = content

theorem frame_list_port (p : ConfigPorts) (base flBase0 : Word) :
    (outdw p (((base &&& 0xFFF0#32) + FLBASEADDR_UHCI).setWidth 16) flBase0).registers = p.registers := by
  have apart : ((base &&& 0xFFF0#32) + FLBASEADDR_UHCI).setWidth 16 ≠ PCI_CONFIG_DATA := by
    intro same
    have nats := congrArg (fun port : BitVec 16 => port.toNat % 16) same
    have masked : (base &&& 0xFFF0#32).toNat % 16 = 0 := by
      rw [BitVec.toNat_and, show 16 = 2 ^ 4 from rfl, Nat.and_mod_two_pow]
      exact Nat.and_zero _
    have offset : FLBASEADDR_UHCI.toNat = 8 := rfl
    have port : PCI_CONFIG_DATA.toNat = 0xCFC := rfl
    simp only [BitVec.toNat_setWidth, BitVec.toNat_add, offset, port] at nats
    omega
  rw [outdw, if_neg apart]
  split <;> rfl

def waiting (status : Byte → Byte → Byte → Nat → BitVec 16) (fuel : Nat) (t : Byte × Byte × Byte) : Bool :=
  !Kernel.stopSeen (status t.1 t.2.1 t.2.2) 1 fuel

theorem kernel_adds (flBase0 : Byte → Byte → Byte → Word) (status : Byte → Byte → Byte → Nat → BitVec 16)
    (fuel : Nat) (content : Word → Word) :
    AddsUhci (Kernel.addUhci flBase0 status fuel) content (waiting status fuel) := by
  constructor
  · intro p bus device function stop
    have unseen : Kernel.stopSeen (status bus device function) 1 fuel = false := by
      rwa [waiting, Bool.not_eq_true'] at stop
    simp only [Kernel.addUhci, unseen, Bool.false_eq_true, if_false]
  · intro p registers bus device function returns
    have seen : Kernel.stopSeen (status bus device function) 1 fuel = true := by
      rwa [waiting, Bool.not_eq_false'] at returns
    refine ⟨_, if_pos seen, ?_⟩
    exact (frame_list_port _ _ _).trans ((selected_register p _).2.trans registers)

theorem loader_adds (content : Word → Word) : AddsUhci (fun p bus device function =>
    some (Loader.addUhci p bus device function)) content fun _ => false := by
  refine ⟨fun _ _ _ _ stop => absurd stop Bool.false_ne_true, fun p registers bus device function _ => ?_⟩
  exact ⟨_, rfl, (frame_list_port _ _ _).trans ((selected_register p _).2.trans registers)⟩

section Adds
variable (addUhci : AddUhci) (content : Word → Word) (stops : Byte × Byte × Byte → Bool)
  (adds : AddsUhci addUhci content stops)
include adds

theorem scans_add (s : Scan) (ports : ConfigPorts) (registers : ports.registers = content)
    (bus device function : Byte) : Scans content stops s [(bus, device, function)]
      (({ s with ports := ports } : Scan).add addUhci bus device function) := by
  unfold Scan.add
  dsimp only
  cases stop : stops (bus, device, function) with
  | true =>
      rw [adds.waits ports bus device function stop]
      refine .stopped _ ?_ ⟨(bus, device, function), List.mem_singleton_self _, stop⟩
      rw [called, stop, if_pos rfl]
  | false =>
      obtain ⟨after, returned, kept⟩ := adds.returns ports registers bus device function stop
      rw [returned]
      refine .returned _ kept rfl fun t member => ?_
      rw [List.mem_singleton.mp member]
      exact stop

theorem kernel_finds : (Kernel.scanner addUhci).Finds content (uhciAt content) stops := by
  have byte := kernel_byte
  constructor
  · intro p registers bus device function _ _
    obtain ⟨kept, some⟩ := kernel_vendor p bus device function
    exact ⟨kept.trans registers, fun ones => absurd ones some⟩
  · intro p registers bus device function
    obtain ⟨kept, value⟩ := byte p bus device function 0xE#8
    rw [registers] at kept value
    exact ⟨kept, value⟩
  · intro s registers bus device function
    obtain ⟨kept1, base⟩ := byte s.ports bus device function 0xB#8
    have p1 := kept1.trans registers
    obtain ⟨kept2, sub⟩ := byte (Kernel.getByte 0xB#8 s.ports bus device function).2 bus device function 0xA#8
    have p2 := kept2.trans p1
    generalize shape : (Kernel.getByte 0xA#8 (Kernel.getByte 0xB#8 s.ports bus device function).2 bus device
      function) = read at kept2 sub p2
    obtain ⟨kept3, _⟩ := byte read.2 bus device function 0x9#8
    have p3 := kept3.trans p2
    generalize third : (Kernel.getByte 0x9#8 read.2 bus device function).2 = ports at kept3 p3
    obtain ⟨kept4, prog⟩ := byte ports bus device function 0x9#8
    have p4 := kept4.trans p3
    rw [registers] at base
    rw [p1] at sub
    rw [p3] at prog
    simp only [Kernel.scanner, Kernel.checkFunction, Kernel.getBaseClass, Kernel.getSubClass, Kernel.getProgif,
      shape, third, base, sub, prog]
    by_cases isUsb : contentByte content bus device function 0xB#8 = 0x0C#8
    · by_cases isSerial : contentByte content bus device function 0xA#8 = 0x03#8
      · by_cases isUhci : contentByte content bus device function 0x9#8 = 0x00#8
        · rw [if_pos isUsb, if_pos isSerial, if_pos isUhci, uhciAt, if_pos ⟨isUsb, isSerial, isUhci⟩]
          exact scans_add addUhci content stops adds s _ p4 bus device function
        · rw [if_pos isUsb, if_pos isSerial, if_neg isUhci, uhciAt, if_neg fun all => isUhci all.2.2]
          exact makes_none _ _ _ s _ p4 rfl
      · rw [if_pos isUsb, if_neg isSerial, uhciAt, if_neg fun all => isSerial all.2.1]
        exact makes_none _ _ _ s _ p3 rfl
    · rw [if_neg isUsb, uhciAt, if_neg fun all => isUsb all.1]
      exact makes_none _ _ _ s _ p3 rfl

end Adds

/-- The loader reads the whole vendor; what it takes for absent reads as ones,
which is no controller's class. -/
theorem loader_finds (content : Word → Word) (absent : AbsentReadsOnes content) :
    (Loader.scanner Loader.addUhci).Finds content (uhciAt content) fun _ => false := by
  constructor
  · intro p registers bus device function slots funcs
    obtain ⟨kept, word⟩ := loader_word p bus device function 1#8
    have same := config_address_same bus device function 0#8 1#8 slots funcs rfl
    rw [registers] at kept word
    refine ⟨kept, fun ones => if_neg fun uhci => ?_⟩
    have vendor : (contentByte content bus device function 1#8 ++
        contentByte content bus device function 0#8 : BitVec 16) = 0xFFFF#16 := by
      rw [← ones, contentByte, contentByte, ← same]
      exact word.symm
    have base := absent bus device function slots funcs vendor 0xB#8
    rw [uhci.1] at base
    exact absurd base (by decide)
  · intro p registers bus device function
    obtain ⟨kept, value⟩ := loader_low p bus device function 0xE#8 rfl
    rw [registers] at kept value
    exact ⟨kept, value⟩
  · intro s registers bus device function
    obtain ⟨kept1, base⟩ := loader_high s.ports bus device function 0xB#8 rfl
    have p1 := kept1.trans registers
    generalize first : Loader.getHigh 0xB#8 s.ports bus device function = read1 at kept1 base p1
    obtain ⟨kept2, sub⟩ := loader_low read1.2 bus device function 0xA#8 rfl
    have p2 := kept2.trans p1
    generalize second : Loader.getLow 0xA#8 read1.2 bus device function = read2 at kept2 sub p2
    obtain ⟨kept3, prog⟩ := loader_high read2.2 bus device function 0x9#8 rfl
    have p3 := kept3.trans p2
    rw [registers] at base
    rw [p1] at sub
    rw [p2] at prog
    simp only [Loader.scanner, Loader.checkFunction, Loader.getBaseClass, Loader.getSubClass, Loader.getProgif,
      first, second, base, sub, prog]
    by_cases isUsb : contentByte content bus device function 0xB#8 = PCI_UHCI_BASE ∧
        contentByte content bus device function 0xA#8 = PCI_UHCI_SUB_CLASS
    · by_cases isUhci : contentByte content bus device function 0x9#8 = PCI_UHCI_PROG_IF
      · rw [if_pos isUsb, if_pos isUhci, uhciAt, if_pos ⟨isUsb.1, isUsb.2, isUhci⟩]
        exact scans_add _ content _ (loader_adds content) s _ p3 bus device function
      · rw [if_pos isUsb, if_neg isUhci, uhciAt, if_neg fun all => isUhci all.2.2]
        exact makes_none _ _ _ s _ p3 rfl
    · rw [if_neg isUsb, uhciAt, if_neg fun all => isUsb ⟨all.1, all.2.1⟩]
      exact makes_none _ _ _ s _ p2 rfl

def busesUhci (content : Word → Word) : List (Byte × Byte × Byte) := busesFound content (uhciAt content) 256

theorem loader_added (content : Word → Word) (absent : AbsentReadsOnes content) (selected : Word) :
    (Loader.checkAllBuses Loader.addUhci ⟨⟨selected, content⟩, []⟩).added = busesUhci content := by
  have scans := check_buses_scans _ content _ _ (loader_finds content absent) ⟨⟨selected, content⟩, []⟩ rfl 256
  have logged := makes_log _ _ _ _ _ _ scans
  rw [Loader.checkAllBuses, Scanner.checkAllBuses, busesUhci, logged, List.nil_append]
  exact called_all _ _ fun _ _ => rfl

/-- The kernel adds them up to the first that keeps it waiting. -/
theorem kernel_added (flBase0 : Byte → Byte → Byte → Word) (status : Byte → Byte → Byte → Nat → BitVec 16)
    (fuel : Nat) (content : Word → Word) (selected : Word) :
    (reached (Kernel.checkAllBuses (Kernel.addUhci flBase0 status fuel) ⟨⟨selected, content⟩, []⟩)).added =
      called (waiting status fuel) (busesUhci content) := by
  have scans := check_buses_scans _ content _ _
    (kernel_finds _ content _ (kernel_adds flBase0 status fuel content)) ⟨⟨selected, content⟩, []⟩ rfl 256
  have logged := makes_log _ _ _ _ _ _ scans
  rw [Kernel.checkAllBuses, Scanner.checkAllBuses, busesUhci, logged, List.nil_append]

end GargOS
