import GargOS.System
import GargOS.Lib.Pages

/-!
kheap.c and paging.c. Page tables, directories and the bitset of frames lie in
pages that every directory maps to themselves, so the accesses to them are
modelled on physical memory: `half_run_direct` says for which runs that is the
code. `none` is the halt of `first_free_frame`.
-/

namespace GargOS
open ByteMemory Pages

/-- What a call of the `kmalloc` family returned, and where it is the table a
directory entry was made for, the address that entry holds. -/
structure Region where
  start : Word
  size : Word
  table : Option Word
  deriving DecidableEq

/-- A page that `alloc_page` mapped. Pages are counted, frames are addresses. -/
structure Mapping where
  directory : Word
  page : Nat
  frame : Word
  flags : Word
  deriving DecidableEq

/-- The history of a run, latest first. No function of the source reads it. -/
structure History where
  regions : List Region
  directories : List Word
  mappings : List Mapping

structure Paging where
  mem : Memory
  placeAddr : Word
  kernelDirectory : Word
  frames : Word
  currentDir : Word
  history : History

def KERNEL_MEM_END : Word := 0xFF0000#32

def nframes : Word := 0x100000#32

def element (array index : Word) : Word := array + 4#32 * index

def Paging.load (s : Paging) (a : Word) : Word := load32 s.mem a

def Paging.store (s : Paging) (a v : Word) : Paging := { s with mem := store32 s.mem a v }

/-- The loop of `kmalloc_all` that aligns `place_addr`. -/
def alignPlaceAddr : Nat → Word → Word
  | 0, placeAddr => placeAddr
  | rounds + 1, placeAddr =>
      if placeAddr % 0x1000#32 ≠ 0#32 then alignPlaceAddr rounds (placeAddr + 1#32) else placeAddr

def kmallocAll (s : Paging) (size : Word) (align : Bool) : Word × Paging :=
  let toRet := if align ∧ s.placeAddr % 0x1000#32 ≠ 0#32 then alignPlaceAddr 0x1000 s.placeAddr
    else s.placeAddr
  (toRet, { s with
    placeAddr := toRet + size
    history := { s.history with regions := ⟨toRet, size, none⟩ :: s.history.regions } })

def kmallocA (s : Paging) (size : Word) : Word × Paging := kmallocAll s size true

def kmalloc (s : Paging) (size : Word) : Word × Paging := kmallocAll s size false

def INDEX_FROM_BIT (a : Word) : Word := a / 32#32

def OFFSET_FROM_BIT (a : Word) : Word := a % 32#32

def INDEX_FROM_ADDRESS (a : Word) : Word := INDEX_FROM_BIT (a / 4096#32)

def OFFSET_FROM_ADDRESS (a : Word) : Word := OFFSET_FROM_BIT (a / 4096#32)

def TABLE_INDEX_FROM_VIRTUAL_ADDRESS (a : Word) : Word := a >>> 22

def PAGE_INDEX_FROM_VIRTUAL_ADDRESS (a : Word) : Word := (a >>> 12) &&& 0x3FF#32

/-- The inner loop of `first_free_frame` from bit `j` on. -/
def firstFreeBit (word : Word) : Nat → Nat → Option Nat
  | 0, _ => none
  | rounds + 1, j =>
      if word &&& (1#32 <<< j) = 0#32 then some j else firstFreeBit word rounds (j + 1)

/-- The outer loop of `first_free_frame` from word `i` on. -/
def firstFreeFrom (s : Paging) : Nat → Nat → Option Word
  | 0, _ => none
  | rounds + 1, i =>
      let word := s.load (element s.frames (BitVec.ofNat 32 i))
      if word ≠ 0xFFFFFFFF#32 then
        match firstFreeBit word 32 0 with
        | some j => some (BitVec.ofNat 32 (i * 32 + j) * 4096#32)
        | none => firstFreeFrom s rounds (i + 1)
      else firstFreeFrom s rounds (i + 1)

def bitsetWords : Nat := 32768

def firstFreeFrame (s : Paging) : Option Word := firstFreeFrom s bitsetWords 0

def isFrameSet (s : Paging) (physAddr : Word) : Bool :=
  s.load (element s.frames (INDEX_FROM_ADDRESS physAddr)) &&&
    (1#32 <<< OFFSET_FROM_ADDRESS physAddr) ≠ 0#32

/-- `write_bitset` where `toWrite` is not 0. -/
def writeBitset (s : Paging) (physAddr : Word) : Paging :=
  let place := element s.frames (INDEX_FROM_ADDRESS physAddr)
  s.store place (s.load place ||| (1#32 <<< OFFSET_FROM_ADDRESS physAddr))

/-- `write_bitset` where `toWrite` is 0. -/
def clearBitset (s : Paging) (physAddr : Word) : Paging :=
  let place := element s.frames (INDEX_FROM_ADDRESS physAddr)
  s.store place (s.load place &&& ~~~(1#32 <<< OFFSET_FROM_ADDRESS physAddr))

/-- A table of `kmalloc_a` for the kernel's half, present and writeable. It is
not cleared. -/
def newKernelTable (s : Paging) (directory tableIndex : Word) : Paging :=
  let (table, s) := kmallocA s 4096#32
  s.store (element directory tableIndex) (table ||| 0x3#32)

def addFrameToKernelDir (s : Paging) (frameAddr : Word) : Paging :=
  let tableIndex := TABLE_INDEX_FROM_VIRTUAL_ADDRESS frameAddr
  let s := if s.load (element s.kernelDirectory tableIndex) &&& 0x1#32 = 0#32 then
      newKernelTable s s.kernelDirectory tableIndex
    else s
  let pageIndex := PAGE_INDEX_FROM_VIRTUAL_ADDRESS frameAddr
  let pageTable := pageOf (s.load (element s.kernelDirectory tableIndex))
  -- a present entry stays, whichever frame it maps
  if s.load (element pageTable pageIndex) &&& 0x1#32 ≠ 0#32 then s
  else s.store (element pageTable pageIndex) (frameAddr ||| 0x3#32)

def tableFlags (isWriteable isKernel : Word) : Word :=
  (if isWriteable ≠ 0#32 then 2#32 else 0#32) ||| (if isKernel ≠ 0#32 then 0#32 else 4#32) ||| 1#32

def pageFlags (isWriteable isKernel : Word) : Word :=
  (if isWriteable ≠ 0#32 then 2#32 else 0#32) + (if isKernel ≠ 0#32 then 0#32 else 4#32) + 1#32

/-- The region last returned is the table the entry holds. -/
def History.install (h : History) (table : Word) : History :=
  { h with regions := match h.regions with
      | region :: earlier => { region with table := some table } :: earlier
      | [] => [] }

/-- The branch of `alloc_page_pr` for a table that is not present. -/
def installTable (s : Paging) (directory tableIndex isWriteable isKernel : Word) : Paging :=
  let (tableAddr, s) := if directory = s.kernelDirectory then kmallocA s 4096#32
    else kmalloc s 4096#32
  let entry := tableAddr ||| tableFlags isWriteable isKernel
  let s := s.store (element directory tableIndex) entry
  -- the table is cleared where the entry says it is
  { s with
    mem := memset s.mem (pageOf (s.load (element directory tableIndex))) 0#8 4096
    history := s.history.install (pageOf entry) }

/-- The end of `alloc_page_pr`, where the table is present. -/
def mapPage (s : Paging) (directory vaddr physAddr isWriteable isKernel : Word) : Paging :=
  let tableEntry := physAddr ||| pageFlags isWriteable isKernel
  let tablePtr := pageOf (s.load (element directory (TABLE_INDEX_FROM_VIRTUAL_ADDRESS vaddr)))
  let s := s.store (element tablePtr (PAGE_INDEX_FROM_VIRTUAL_ADDRESS vaddr)) tableEntry
  let s := writeBitset s physAddr
  let s := if directory ≠ s.kernelDirectory then addFrameToKernelDir s physAddr else s
  let mapping := ⟨directory, vaddr.toNat / 4096, physAddr, pageFlags isWriteable isKernel⟩
  { s with history := { s.history with mappings := mapping :: s.history.mappings } }

def allocPagePr (s : Paging) (directory vaddr physAddr isWriteable isKernel : Word) :
    Option (Word × Paging) :=
  if isFrameSet s physAddr then some (0xFFFFFFFF#32, s)
  else
    let tableIndex := TABLE_INDEX_FROM_VIRTUAL_ADDRESS vaddr
    if s.load (element directory tableIndex) &&& 0x1#32 = 0#32 then do
      let s := installTable s directory tableIndex isWriteable isKernel
      let physAddr ← firstFreeFrame s
      if physAddr = 0xFFFFFFFF#32 then some (0xFFFFFFFF#32, s)
      else some (physAddr, mapPage s directory vaddr physAddr isWriteable isKernel)
    else some (physAddr, mapPage s directory vaddr physAddr isWriteable isKernel)

def allocPage (s : Paging) (directory vaddr isWriteable isKernel : Word) : Option (Word × Paging) := do
  let physAddr ← firstFreeFrame s
  allocPagePr s directory vaddr physAddr isWriteable isKernel

/-- The flags of the directory entry stay in the address of the table, and the
mask keeps the low bits of the page entry. -/
def freePage (s : Paging) (directory vaddr : Word) : Paging :=
  let table := s.load (element directory (TABLE_INDEX_FROM_VIRTUAL_ADDRESS vaddr))
  let physAddr := s.load (element table (PAGE_INDEX_FROM_VIRTUAL_ADDRESS vaddr)) &&& ~~~0xFFFFF000#32
  clearBitset s physAddr

/-- The loop of `init_paging` after `n` rounds. -/
def identityRounds (s : Paging) : Nat → Option Paging
  | 0 => some s
  | n + 1 => do
      let s ← identityRounds s n
      let (_, s) ← allocPage s s.kernelDirectory (BitVec.ofNat 32 (4096 * n)) 1#32 1#32
      some s

def kernelPages : Nat := 4080

/-- `init_paging` as far as directories go: `register_fault_handler`, which it calls
at its end, writes the array of isrs.c and is in `Interrupts.initPaging`. -/
def initPaging (s : Paging) : Option Paging := do
  let (kernelDirectory, s) := kmallocA s 4096#32
  let s := { s with
    kernelDirectory := kernelDirectory, mem := memset s.mem kernelDirectory 0#8 4096 }
  let (frames, s) := kmallocA s (4#32 * INDEX_FROM_BIT nframes)
  let s := { s with
    frames := frames, mem := memset s.mem frames 0#8 (INDEX_FROM_BIT (4#32 * nframes)).toNat }
  let s ← identityRounds s kernelPages
  some { s with currentDir := s.kernelDirectory }

/-- The loop of `get_new_kernel_mapped_dir` after `n` rounds. -/
def kernelRounds (s : Paging) (newDir : Word) : Nat → Paging
  | 0 => s
  | n + 1 =>
      let s := kernelRounds s newDir n
      let i := BitVec.ofNat 32 (4096 * n)
      let tableIndex := TABLE_INDEX_FROM_VIRTUAL_ADDRESS i
      let pageIndex := PAGE_INDEX_FROM_VIRTUAL_ADDRESS i
      let s := if s.load (element newDir tableIndex) &&& 0x1#32 = 0#32 then
          newKernelTable s newDir tableIndex
        else s
      let pageTable := pageOf (s.load (element newDir tableIndex))
      s.store (element pageTable pageIndex) (i ||| 0x3#32)

def getNewKernelMappedDir (s : Paging) : Word × Paging :=
  let (newDir, s) := kmallocA s 4096#32
  let s := { s with
    mem := memset s.mem newDir 0#8 4096
    history := { s.history with directories := newDir :: s.history.directories } }
  (newDir, kernelRounds s newDir kernelPages)

end GargOS
