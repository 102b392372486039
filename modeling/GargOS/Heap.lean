import GargOS.Lib.AddressSpace
import GargOS.System

/-!
heap.c. The headers and payloads of a process heap are reached through the
directory that is current, so the code is written over an address space; its
accesses may fault, and `alloc_page` is what the space offers of paging.c.

`fuel` bounds the rounds of a header walk and of the search for an aligned
address, `growths` the pages one `malloc` adds. A result `none` is a walk that
has not ended within its bound, or a fault.
-/

namespace GargOS
open ByteMemory AddressSpace

class PagedSpace (σ : Type) extends AddressSpace σ where
  kernelDirectory : σ → Word
  allocPage : σ → (directory vaddr isWriteable isKernel : Word) → Option (Word × σ)

/-- The packed `block`: `is_free` in two bytes, then `size` in four. -/
def sizeofBlock : Word := 6#32

def NULL : Word := 0#32

section Model
variable {σ : Type} [PagedSpace σ]

def isFree (s : σ) (info : Word) : Option (BitVec 16) := load16 s info

def size (s : σ) (info : Word) : Option Word := load32 s (info + 2#32)

def setIsFree (s : σ) (info : Word) (v : BitVec 16) : Option σ := store16 s info v

def setSize (s : σ) (info v : Word) : Option σ := store32 s (info + 2#32) v

def allocNewPage (s : σ) (proc : Process) : Option (Word × σ) := do
  let isKernel := if proc.pageDirectory = PagedSpace.kernelDirectory s then 1#32 else 0#32
  let (_, s) ← PagedSpace.allocPage s proc.pageDirectory
    (proc.heapSize + proc.heapStackBoundary) 1#32 isKernel
  some (proc.heapSize + proc.heapStackBoundary, s)

def divideBlock (s : σ) (info newBytes : Word) : Option (Word × σ) := do
  let infoSize ← size s info
  if newBytes > infoSize - sizeofBlock then some (NULL, s) else
    let newInfo := info + sizeofBlock + newBytes
    let s ← setSize s newInfo (infoSize - sizeofBlock - newBytes)
    let s ← setSize s info newBytes
    some (newInfo, s)

/-- The branch of the aligned search that has divided `info`: `newInfo` is
taken and its surplus, if there is enough of it, becomes a free block. -/
def takeAligned (s : σ) (newInfo bytes blockEnd : Word) : Option σ := do
  let s ← setIsFree s newInfo 0#16
  let newSize ← size s newInfo
  if newSize > bytes + sizeofBlock then
    let info2 := newInfo + sizeofBlock + bytes
    let s ← setIsFree s info2 1#16
    let s ← setSize s info2 (blockEnd - info2 - sizeofBlock)
    setSize s newInfo bytes
  else some s

/-- The inner `for` of `get_free_block`; the address is `NULL` when the loop
ends without a `return`. -/
def alignedSearch (effectiveAddr bytes blockEnd : Word) :
    Nat → Word → σ → Option (Word × σ)
  | 0, _, _ => none
  | fuel + 1, nextAlignedAddr, s =>
      if blockEnd - nextAlignedAddr ≥ bytes then
        if nextAlignedAddr - effectiveAddr ≤ 2#32 * sizeofBlock then
          alignedSearch effectiveAddr bytes blockEnd fuel (nextAlignedAddr + 0x1000#32) s
        else do
          let newBytes := nextAlignedAddr - effectiveAddr - 2#32 * sizeofBlock
          let (newInfo, s) ← divideBlock s effectiveAddr newBytes
          if newInfo ≠ NULL then
            let s ← takeAligned s newInfo bytes blockEnd
            some (newInfo, s)
          else alignedSearch effectiveAddr bytes blockEnd fuel (nextAlignedAddr + 0x1000#32) s
      else some (NULL, s)

/-- The branch of `get_free_block` for a free block when `align` is 0. -/
def takeFirst (s : σ) (info bytes : Word) : Option σ := do
  let s ← setIsFree s info 0#16
  let (newInfo, s) ← divideBlock s info bytes
  if newInfo ≠ NULL then setIsFree s newInfo 1#16 else some s

/-- The first address the inner `for` tries. -/
def firstAlignedAddr (effectiveAddr : Word) : Word :=
  (((effectiveAddr + sizeofBlock) >>> 12) + 1#32) <<< 12

/-- The outer `for` of `get_free_block` from index `i` on. -/
def getFreeBlockFrom (start heapSize bytes : Word) (align : Byte) :
    Nat → Word → σ → Option (Word × σ)
  | 0, _, _ => none
  | fuel + 1, i, s =>
      if i < heapSize then do
        let effectiveAddr := start + i
        let free ← isFree s effectiveAddr
        let infoSize ← size s effectiveAddr
        if free ≠ 0#16 ∧ infoSize ≥ bytes then
          if align ≠ 0#8 then
            -- `%` binds tighter than `+`, so this compares with the last header address
            if effectiveAddr + sizeofBlock % 0x1000#32 = 0#32 then some (effectiveAddr, s)
            else
              let blockEnd := effectiveAddr + sizeofBlock + infoSize
              let (found, s) ← alignedSearch effectiveAddr bytes blockEnd fuel
                (firstAlignedAddr effectiveAddr) s
              if found ≠ NULL then some (found, s)
              else
                let infoSize ← size s effectiveAddr
                getFreeBlockFrom start heapSize bytes align fuel
                  (i + (sizeofBlock + infoSize)) s
          else
            let s ← takeFirst s effectiveAddr bytes
            some (effectiveAddr, s)
        else
          getFreeBlockFrom start heapSize bytes align fuel (i + (sizeofBlock + infoSize)) s
      else some (NULL, s)

def getFreeBlock (fuel : Nat) (s : σ) (proc : Process) (bytes : Word) (align : Byte) :
    Option (Word × σ) :=
  getFreeBlockFrom proc.heapStackBoundary proc.heapSize bytes align fuel 0#32 s

/-- The loop of `unite_free_blocks` with its two cursors. -/
def uniteFreeBlocksFrom (start heapSize : Word) : Nat → Word → Word → σ → Option σ
  | 0, _, _, _ => none
  | fuel + 1, i, prevInfo, s =>
      if i < heapSize then do
        let info := start + i
        let free ← isFree s info
        let prevFree ← isFree s prevInfo
        if free ≠ 0#16 ∧ prevFree ≠ 0#16 then
          let infoSize ← size s info
          let prevSize ← size s prevInfo
          let s ← setSize s prevInfo (prevSize + (sizeofBlock + infoSize))
          let infoSize ← size s info
          uniteFreeBlocksFrom start heapSize fuel (i + (sizeofBlock + infoSize)) prevInfo s
        else
          let infoSize ← size s info
          uniteFreeBlocksFrom start heapSize fuel (i + (sizeofBlock + infoSize)) info s
      else some s

def uniteFreeBlocks (fuel : Nat) (s : σ) (proc : Process) : Option σ := do
  let prevSize ← size s proc.heapStackBoundary
  uniteFreeBlocksFrom proc.heapStackBoundary proc.heapSize fuel (prevSize + sizeofBlock)
    proc.heapStackBoundary s

def initialiseHeap (s : σ) (proc : Process) : Option σ := do
  let s ← setSize s proc.heapStackBoundary (proc.heapSize - sizeofBlock)
  setIsFree s proc.heapStackBoundary 1#16

/-- What `malloc` does when no block was found. -/
def growHeap (fuel : Nat) (s : σ) (proc : Process) : Option (σ × Process) := do
  let (_, s) ← allocNewPage s proc
  let pageStartAddr := proc.heapStackBoundary + proc.heapSize
  let s ← setSize s pageStartAddr (PAGE_SIZE - sizeofBlock)
  let s ← setIsFree s pageStartAddr 1#16
  let proc := { proc with heapSize := proc.heapSize + PAGE_SIZE }
  let s ← uniteFreeBlocks fuel s proc
  some (s, proc)

/-- The `do … while` of `malloc`, adding at most `growths` pages. -/
def mallocLoop (fuel : Nat) (bytes : Word) (align : Byte) :
    Nat → σ → Process → Option (Word × σ × Process)
  | growths, s, proc => do
      let (getFreeBlockAddr, s) ← getFreeBlock fuel s proc bytes align
      if getFreeBlockAddr = NULL then
        match growths with
        | 0 => none
        | growths + 1 => do
            let (s, proc) ← growHeap fuel s proc
            mallocLoop fuel bytes align growths s proc
      else some (getFreeBlockAddr + sizeofBlock, s, proc)

def malloc (fuel growths : Nat) (s : σ) (bytes : Word) (proc : Process) (align : Byte) :
    Option (Word × σ × Process) :=
  if bytes = 0#32 then some (NULL, s, proc) else mallocLoop fuel bytes align growths s proc

def free (fuel : Nat) (s : σ) (proc : Process) (memPtr : Word) : Option σ := do
  let s ← setIsFree s (memPtr - sizeofBlock) 1#16
  uniteFreeBlocks fuel s proc

end Model

/-- An address space in which every page is mapped to memory of its own. -/
structure MappedMemory where
  bytes : Memory

instance : PagedSpace MappedMemory where
  load8 s a := some (s.bytes a)
  store8 s a b := some ⟨write s.bytes a b⟩
  kernelDirectory _ := NULL
  allocPage s _ _ _ _ := some (NULL, s)

/-- An address space whose addresses from `mapped` on fault until `alloc_page`
has mapped them. -/
structure LimitedMemory where
  bytes : Memory
  mapped : Nat

instance : PagedSpace LimitedMemory where
  load8 s a := if a.toNat < s.mapped then some (s.bytes a) else none
  store8 s a b := if a.toNat < s.mapped then some { s with bytes := write s.bytes a b } else none
  kernelDirectory _ := NULL
  allocPage s _ vaddr _ _ := some (NULL, { s with mapped := max s.mapped (vaddr.toNat + 4096) })

end GargOS
