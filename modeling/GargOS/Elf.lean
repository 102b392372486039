import GargOS.PciScan
import GargOS.System
import GargOS.Lib.Overlay

/-!
elf_parse.c: what the second stage prints, the sectors it reads, and `parse_ELF`.
The memory is that at the addresses the source computes itself. What the loader's
own image and the stack it runs on hold whenever they are read is arbitrary, and
where a segment is to be copied over them the model has no result.
-/

namespace GargOS.Loader
open ByteMemory Overlay

/-- The disk, as far as `read_sector` asks for it: its bytes, the last byte sent to
each of its ports, and the next byte to be read. It is ready whenever it is asked. -/
structure Drive where
  content : Nat → Byte
  ports : BitVec 16 → Byte
  position : Nat

structure Stage2 where
  mem : Memory
  cursor : Word
  ports : ConfigPorts
  drive : Drive

def putc (s : Stage2) (c : Byte) : Stage2 :=
  { s with mem := store16 s.mem s.cursor (0x9000#16 ||| c.setWidth 16), cursor := s.cursor + 2#32 }

def puts (s : Stage2) (str : List Char) : Stage2 :=
  str.foldl (fun s c => putc s (BitVec.ofNat 8 c.toNat)) s

theorem sixteenth_smaller (a b : Word) (greater : b > a) : (b / 0x10#32).toNat < b.toNat := by
  have positive : a.toNat < b.toNat := greater
  rw [BitVec.toNat_udiv, show (0x10#32).toNat = 16 from rfl]
  omega

/-- The first loop of `puth`. -/
def largestPower (a b : Word) : Word :=
  if b > a then largestPower a (b / 0x10#32) else b
termination_by b.toNat
decreasing_by exact sixteenth_smaller a b ‹_›

/-- The second loop of `puth`. -/
def putDigits (s : Stage2) (a b : Word) : Stage2 :=
  if b > 0#32 then
    let d : Byte := (a / b).setWidth 8
    let s := if d > 9#8 then putc s (64#8 + (d - 9#8)) else putc s ((a / b + 48#32).setWidth 8)
    putDigits s (a % b) (b / 0x10#32)
  else s
termination_by b.toNat
decreasing_by exact sixteenth_smaller 0#32 b ‹_›

def puth (s : Stage2) (a : Word) : Stage2 :=
  let s := puts s "0x".toList
  if a = 0#32 then putc s 48#8 else putDigits s a (largestPower a 0x10000000#32)

/-- `memcpy` after `n` rounds, in memory that is read by `see`. -/
def memcpy (see : Memory → Memory) (m : Memory) (dest src : Word) : Nat → Memory
  | 0 => m
  | n + 1 =>
      let m := memcpy see m dest src n
      write m (dest + BitVec.ofNat 32 n) (see m (src + BitVec.ofNat 32 n))

/-- The sector number in the ports, of 28 bits. -/
def Drive.sector (d : Drive) : Word :=
  (d.ports 0x1F6#16 &&& 0xF#8) ++ d.ports 0x1F5#16 ++ d.ports 0x1F4#16 ++ d.ports 0x1F3#16

/-- Command 0x20 sets the drive to the start of the sector. -/
def outb (d : Drive) (port : BitVec 16) (data : Byte) : Drive :=
  let d := { d with ports := fun p => if p = port then data else d.ports p }
  if port = 0x1F7#16 ∧ data = 0x20#8 then { d with position := 512 * d.sector.toNat } else d

def insl (s : Stage2) (addr : Word) : Nat → Stage2
  | 0 => s
  | n + 1 =>
      let s := insl s addr n
      let next := fun j => s.drive.content (s.drive.position + j)
      { s with
        mem := store32 s.mem (addr + BitVec.ofNat 32 (4 * n)) (next 3 ++ next 2 ++ next 1 ++ next 0)
        drive := { s.drive with position := s.drive.position + 4 } }

def readSector (s : Stage2) (sectorStart dest : Word) : Stage2 :=
  let d := outb s.drive 0x1F2#16 1#8
  let d := outb d 0x1F3#16 (sectorStart.setWidth 8)
  let d := outb d 0x1F4#16 ((sectorStart >>> 8).setWidth 8)
  let d := outb d 0x1F5#16 ((sectorStart >>> 16).setWidth 8)
  let d := outb d 0x1F6#16 ((sectorStart >>> 24 ||| 0xE0#32).setWidth 8)
  let d := outb d 0x1F7#16 0x20#8
  insl { s with drive := d } dest (512 / 4)

/-- `check_all_buses` prints the same text for each function it adds. -/
def checkBuses (addUhci : AddUhci) (s : Stage2) : Stage2 :=
  let scan := checkAllBuses addUhci ⟨s.ports, []⟩
  scan.added.foldl (fun s _ => puts s "no, u".toList) { s with ports := scan.ports }

def KERNEL_SECS_TO_LOAD : Nat := 0x80

def bufferStart : Word := 0xA000#32

/-- The loop of `parse_ELF` over the sectors after `n` rounds. -/
def readSectors (s : Stage2) (toLoadFrom : Word) : Nat → Stage2
  | 0 => s
  | n + 1 =>
      readSector (readSectors s toLoadFrom n) (toLoadFrom + BitVec.ofNat 32 n)
        (bufferStart + BitVec.ofNat 32 n * 512#32)

/-! The fields of the ELF header, by their offsets. -/

def EHDR_MAG0 : Byte := 0x7F#8

def eIdent (m : Memory) (mainHdr : Word) (i : Nat) : Byte := m (mainHdr + BitVec.ofNat 32 i)

def ePhoff (m : Memory) (mainHdr : Word) : Word := load32 m (mainHdr + 28#32)

def ePhentsize (m : Memory) (mainHdr : Word) : BitVec 16 := load16 m (mainHdr + 42#32)

def ePhnum (m : Memory) (mainHdr : Word) : BitVec 16 := load16 m (mainHdr + 44#32)

def PT_NULL : Word := 0#32

structure Elf32Phdr where
  pType : Word
  pOffset : Word
  pPaddr : Word
  pFilesz : Word
  pMemsz : Word
  deriving DecidableEq

def programHeader (m : Memory) (a : Word) : Elf32Phdr :=
  ⟨load32 m a, load32 m (a + 4#32), load32 m (a + 12#32), load32 m (a + 16#32), load32 m (a + 20#32)⟩

/-- One round of the loop of `parse_ELF` over the headers. -/
def loadSegment (see : Memory → Memory) (m : Memory) (mainHdr : Word) (header : Elf32Phdr) : Memory :=
  if header.pType = PT_NULL then m
  else
    let m := memcpy see m header.pPaddr (mainHdr + header.pOffset) header.pFilesz.toNat
    -- zero out undefined memory; the loop is that of `memset`
    if header.pMemsz > header.pFilesz then
      memset m (header.pPaddr + header.pFilesz) 0#8 (header.pMemsz - header.pFilesz).toNat
    else m

/-- The loader's image with its variables, from 0x9000 up to the buffer, and the
stack, which goes down from there; `stackLow` is its lowest address in use. -/
def Own (stackLow x : Word) : Prop := stackLow.toNat ≤ x.toNat ∧ x.toNat < bufferStart.toNat

instance (stackLow x : Word) : Decidable (Own stackLow x) :=
  inferInstanceAs (Decidable (_ ∧ _))

/-- The segment is to be copied over what the loader itself needs. -/
def Elf32Phdr.Overwrites (stackLow : Word) (header : Elf32Phdr) : Prop :=
  header.pType ≠ PT_NULL ∧
    ∃ j < max header.pFilesz.toNat header.pMemsz.toNat, Own stackLow (header.pPaddr + BitVec.ofNat 32 j)

instance (stackLow : Word) (header : Elf32Phdr) : Decidable (header.Overwrites stackLow) :=
  inferInstanceAs (Decidable (_ ∧ _))

/-- The memory the loader itself is in, and what is in it when the file has it read:
for the header of a round, and then for the segment. -/
structure OwnMemory where
  stackLow : Word
  held : Nat → Memory

def OwnMemory.seen (own : OwnMemory) (n : Nat) (m : Memory) : Memory :=
  fun x => if Own own.stackLow x then own.held n x else m x

/-- The loop over the headers after `n` rounds; a round copies its header first. -/
def loadSegments (own : OwnMemory) (m : Memory) (mainHdr table : Word) : Nat → Option Memory
  | 0 => some m
  | n + 1 => do
      let m ← loadSegments own m mainHdr table n
      let header := programHeader (own.seen (2 * n) m) (table + 32#32 * BitVec.ofNat 32 n)
      -- there is no check in the source; the loader goes on with what the file says
      if header.Overwrites own.stackLow then none
      else some (loadSegment (own.seen (2 * n + 1)) m mainHdr header)

/-- `parse_ELF` once the sectors are in the buffer. -/
def parseBuffer (own : OwnMemory) (s : Stage2) : Option Stage2 :=
  let mainHdr := bufferStart
  -- no other byte of the header is checked
  if eIdent s.mem mainHdr 0 ≠ EHDR_MAG0 then
    let s := puts s "Incorrect MAG0 ".toList
    some (puth s ((eIdent s.mem mainHdr 0).setWidth 32))
  else do
    let table := mainHdr + ePhoff s.mem mainHdr
    let m ← loadSegments own s.mem mainHdr table (ePhnum s.mem mainHdr).toNat
    some { s with mem := m }

def parseElf (addUhci : AddUhci) (own : OwnMemory) (s : Stage2) (toLoadFrom : Word) : Option Stage2 :=
  parseBuffer own (readSectors (checkBuses addUhci s) (toLoadFrom / 512#32) KERNEL_SECS_TO_LOAD)

end GargOS.Loader
