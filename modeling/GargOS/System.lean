import GargOS.Lib.ByteMemory

/-!
system.h, system.c and process.h: the register frame an interrupt leaves on the
stack, the process structure that keeps one such frame, `memset`, and the size of
a page that paging.h gives heap.c and paging.c.
-/

namespace GargOS
open ByteMemory

def PAGE_SIZE : Word := 4096#32

/-- `regs_t`, first field lowest in memory. -/
structure Regs where
  gs : Word
  fs : Word
  es : Word
  ds : Word
  edi : Word
  esi : Word
  ebp : Word
  esp : Word
  ebx : Word
  edx : Word
  ecx : Word
  eax : Word
  intNo : Word
  errCode : Word
  eip : Word
  cs : Word
  eflags : Word
  useresp : Word
  ss : Word
  deriving DecidableEq, Inhabited

structure Process where
  heapStackBoundary : Word
  heapSize : Word
  pageDirectory : Word
  pid : Word
  lastStateRegs : Regs
  priorityLevel : Byte
  deriving DecidableEq, Inhabited

/-- The loop of `memset` after `n` rounds. -/
def memset (m : Memory) (dest : Word) (c : Byte) : Nat → Memory
  | 0 => m
  | n + 1 => write (memset m dest c n) (dest + BitVec.ofNat 32 n) c

theorem memset_apply (m : Memory) (dest : Word) (c : Byte) (n : Nat) (x : Word)
    (bound : n ≤ 2 ^ 32) :
    memset m dest c n x = if InSpan dest n x then c else m x := by
  induction n with
  | zero => simp [memset, InSpan]
  | succ n ih =>
      have next := in_span_succ dest n (by omega) x
      simp only [memset, write, ih (by omega)]
      by_cases last : x = dest + BitVec.ofNat 32 n
      · rw [if_pos last, if_pos (next.mpr (Or.inl last))]
      · simp [last, next]

end GargOS
