import GargOS.Scheduler
import GargOS.Lib.WordFrames

/-!
idt.asm: the frame that the stub of a vector leaves for the handler in C, what the
C functions leave below it, and what the stub pops in the end. An interrupt whose
handler leaves the frame alone is not seen by what it interrupts.
-/

namespace GargOS
open ByteMemory ByteLanes WordFrames

structure Cpu where
  gs : BitVec 16
  fs : BitVec 16
  es : BitVec 16
  ds : BitVec 16
  edi : Word
  esi : Word
  ebp : Word
  esp : Word
  ebx : Word
  edx : Word
  ecx : Word
  eax : Word
  eip : Word
  cs : BitVec 16
  eflags : Word
  ss : BitVec 16
  deriving DecidableEq

/-- Where a directory maps each page. -/
abbrev PageFrame := Word → BitVec 20 → BitVec 20

def translate (pageFrame : PageFrame) (directory x : Word) : Word :=
  pageFrame directory (x.extractLsb' 12 20) ++ x.extractLsb' 0 12

def Regs.words (r : Regs) : List Word :=
  [r.gs, r.fs, r.es, r.ds, r.edi, r.esi, r.ebp, r.esp, r.ebx, r.edx, r.ecx, r.eax, r.intNo,
    r.errCode, r.eip, r.cs, r.eflags, r.useresp, r.ss]

/-- The structure a `regs_t *` points to. -/
def readRegs (m : Memory) (a : Word) : Regs where
  gs := load32 m a
  fs := load32 m (a + 4#32)
  es := load32 m (a + 8#32)
  ds := load32 m (a + 12#32)
  edi := load32 m (a + 16#32)
  esi := load32 m (a + 20#32)
  ebp := load32 m (a + 24#32)
  esp := load32 m (a + 28#32)
  ebx := load32 m (a + 32#32)
  edx := load32 m (a + 36#32)
  ecx := load32 m (a + 40#32)
  eax := load32 m (a + 44#32)
  intNo := load32 m (a + 48#32)
  errCode := load32 m (a + 52#32)
  eip := load32 m (a + 56#32)
  cs := load32 m (a + 60#32)
  eflags := load32 m (a + 64#32)
  useresp := load32 m (a + 68#32)
  ss := load32 m (a + 72#32)

/-- The end of `irq_common_stub`, from its `pop gs` on, and the `iret`. -/
def popFrame (v : Memory) (cpu : Cpu) : Option Cpu :=
  let cpu := { cpu with gs := (load32 v cpu.esp).setWidth 16, esp := cpu.esp + 4#32 }
  let cpu := { cpu with fs := (load32 v cpu.esp).setWidth 16, esp := cpu.esp + 4#32 }
  let cpu := { cpu with es := (load32 v cpu.esp).setWidth 16, esp := cpu.esp + 4#32 }
  let cpu := { cpu with ds := (load32 v cpu.esp).setWidth 16, esp := cpu.esp + 4#32 }
  -- `popa` steps over the esp that `pusha` saved
  let cpu := { cpu with
    edi := load32 v cpu.esp, esi := load32 v (cpu.esp + 4#32), ebp := load32 v (cpu.esp + 8#32),
    ebx := load32 v (cpu.esp + 16#32), edx := load32 v (cpu.esp + 20#32),
    ecx := load32 v (cpu.esp + 24#32), eax := load32 v (cpu.esp + 28#32), esp := cpu.esp + 32#32 }
  let cpu := { cpu with esp := cpu.esp + 8#32 }
  let cpu := { cpu with
    eip := load32 v cpu.esp, cs := (load32 v (cpu.esp + 4#32)).setWidth 16,
    eflags := load32 v (cpu.esp + 8#32), esp := cpu.esp + 12#32 }
  -- an `iret` to another privilege pops a stack as well
  if cpu.cs &&& 3#16 = 0#16 then some cpu else none

/-- The vectors whose stubs leave the error code to the processor. -/
def codeVectors : List Nat := [8, 10, 11, 12, 13, 14, 17, 30]

/-- What the stub of a vector pushes before it jumps to the common one: those of
exceptions are `isr0` to `isr31`, and `irq0` to `irq15` follow them. -/
def stubWords (vector : Nat) : List Word :=
  if vector ∈ codeVectors then [BitVec.ofNat 32 vector] else [0#32, BitVec.ofNat 32 vector]

/-- What is pushed before the common stub, by a processor that stays at its
privilege and by the stub of the vector. -/
def entryWords (cpu : Cpu) (code : Option Word) (vector : Nat) : List Word :=
  [cpu.eflags, cpu.cs.setWidth 32, cpu.eip] ++ code.toList ++ stubWords vector

/-- All that is pushed up to the return address of the stub's `call`. The two
common stubs differ in the handler they call. -/
def interruptWords (cpu : Cpu) (code : Option Word) (vector : Nat) (returnTo : Word) : List Word :=
  let entry := entryWords cpu code vector
  let esp := cpu.esp - BitVec.ofNat 32 (4 * entry.length)
  entry ++ [cpu.eax, cpu.ecx, cpu.edx, cpu.ebx, esp, cpu.ebp, cpu.esi, cpu.edi] ++
    [cpu.ds.setWidth 32, cpu.es.setWidth 32, cpu.fs.setWidth 32, cpu.gs.setWidth 32] ++
    [esp - 48#32, returnTo]

/-- Memory and stack top once the stub has called the handler. -/
def interruptEntered (pageFrame : PageFrame) (returnTo : Word) (m : Memory) (cpu : Cpu) (code : Option Word)
    (vector : Nat) (directory : Word) : Memory × Word :=
  (interruptWords cpu code vector returnTo).foldl (push (translate pageFrame directory)) (m, cpu.esp)

/-- What the C functions keep on the stack below the return address of the stub's
`call`, as the compiler has it: the words that are there when the next directory is
loaded, which of them the rest of the functions depends on (return addresses, saved
frame pointers, locals), whether it reads the argument of the `call` again, and the
words they write after that, by their places. -/
structure CFrames where
  words : List Word
  needed : Nat → Bool
  argument : Bool
  later : List (Nat × Word)
  depth : Nat
  within : words.length ≤ depth
  laterWithin : ∀ store ∈ later, store.1 < depth
  distinct : (later.map Prod.fst).Nodup
  room : depth ≤ 960

def CFrames.Found (frames : CFrames) (v : Memory) (top : Word) : Prop :=
  (frames.argument = true → load32 v (top + 4#32) = top + 8#32) ∧
    ∀ k < frames.words.length, frames.needed k = true →
      load32 v (top - BitVec.ofNat 32 (4 * (k + 1))) = frames.words.getD k 0#32

instance (frames : CFrames) (v : Memory) (top : Word) : Decidable (frames.Found v top) :=
  inferInstanceAs (Decidable ((_ → _) ∧ ∀ k < _, _))

/-- Where the pushed words and the frames of the functions lie. -/
def CFrames.Below (frames : CFrames) (esp x : Word) : Prop :=
  InSpan (esp - BitVec.ofNat 32 (76 + 4 * frames.depth)) (76 + 4 * frames.depth) x

def CFrames.Region (frames : CFrames) (t : Word → Word) (esp p : Word) : Prop :=
  ∃ x, frames.Below esp x ∧ t x = p

/-- Memory once the C functions have been called as far as that. -/
def handlerEntered (pageFrame : PageFrame) (returnTo : Word) (frames : CFrames) (m : Memory) (cpu : Cpu)
    (code : Option Word) (vector : Nat) (directory : Word) : Memory :=
  (frames.words.foldl (push (translate pageFrame directory))
    (interruptEntered pageFrame returnTo m cpu code vector directory)).1

/-- An interrupt from kernel privilege up to its `iret`, for a handler that
returns an outcome, which `record` writes to its own variables, the directory it
leaves current, and the frame. A return to another address than the stub's has no
result, nor has one whose functions do not find what they need. -/
def interrupt {σ : Type} (pageFrame : PageFrame) (returnTo : Word) (frames : CFrames)
    (record : σ → Memory → Memory) (m : Memory) (cpu : Cpu) (code : Option Word) (vector : Nat) (directory : Word)
    (handler : Regs → Option (σ × Word × Regs)) : Option (Memory × Cpu × σ) :=
  if cpu.cs &&& 3#16 = 0#16 then do
    let t := translate pageFrame directory
    let top := (interruptEntered pageFrame returnTo m cpu code vector directory).2
    let frame := top + 8#32
    let m := handlerEntered pageFrame returnTo frames m cpu code vector directory
    let (out, next, r) ← handler (readRegs (through t m) frame)
    let m := record out (storeWords t m frame r.words)
    -- from here on the stack is what the next directory shows
    let e := translate pageFrame next
    if frames.Found (through e m) top then do
      let m := storesBelow e m top frames.later
      if load32 (through e m) top = returnTo then do
        let cpu ← popFrame (through e m) { cpu with esp := frame }
        some (m, cpu, out)
      else none
    else none
  else none

/-- The stub pushes an error code where the processor does not. -/
def Matched (code : Option Word) (vector : Nat) : Prop := code.isSome = true ↔ vector ∈ codeVectors

/-- The structure a handler reads; the last two are the words that lay on top of
the stack. -/
def frameRegs (cpu : Cpu) (intNo errCode useresp ss : Word) : Regs where
  gs := cpu.gs.setWidth 32
  fs := cpu.fs.setWidth 32
  es := cpu.es.setWidth 32
  ds := cpu.ds.setWidth 32
  edi := cpu.edi
  esi := cpu.esi
  ebp := cpu.ebp
  esp := cpu.esp - 20#32
  ebx := cpu.ebx
  edx := cpu.edx
  ecx := cpu.ecx
  eax := cpu.eax
  intNo := intNo
  errCode := errCode
  eip := cpu.eip
  cs := cpu.cs.setWidth 32
  eflags := cpu.eflags
  useresp := useresp
  ss := ss

theorem translate_keeps_offset (pageFrame : PageFrame) (directory : Word) :
    KeepsOffset (translate pageFrame directory) := by
  intro x
  rw [translate, BitVec.toNat_append, BitVec.extractLsb'_toNat, Nat.shiftLeft_eq,
    packed _ _ _ (Nat.mod_lt _ (by decide))]
  omega

theorem regs_words_length (r : Regs) : r.words.length = 19 := rfl

theorem entry_words_matched (cpu : Cpu) (code : Option Word) (vector : Nat) (matched : Matched code vector) :
    entryWords cpu code vector =
      [cpu.eflags, cpu.cs.setWidth 32, cpu.eip, code.getD 0#32, BitVec.ofNat 32 vector] := by
  unfold entryWords stubWords
  cases code with
  | none =>
      have own : vector ∉ codeVectors := fun listed => absurd (matched.mpr listed) (by decide)
      rw [if_neg own]
      rfl
  | some word =>
      rw [if_pos (matched.mp rfl)]
      rfl

theorem regs_words_loaded (v : Memory) (a : Word) : (readRegs v a).words = loadWords v a 19 := by
  simp only [Regs.words, readRegs, loadWords, BitVec.add_assoc, BitVec.reduceAdd]

def frameWords (cpu : Cpu) (code : Option Word) (vector : Nat) : List Word :=
  [cpu.gs.setWidth 32, cpu.fs.setWidth 32, cpu.es.setWidth 32, cpu.ds.setWidth 32, cpu.edi, cpu.esi, cpu.ebp,
    cpu.esp - 20#32, cpu.ebx, cpu.edx, cpu.ecx, cpu.eax, BitVec.ofNat 32 vector, code.getD 0#32, cpu.eip,
    cpu.cs.setWidth 32, cpu.eflags]

theorem frame_popped (v : Memory) (cpu : Cpu) (code : Option Word) (vector : Nat) (kernel : cpu.cs &&& 3#16 = 0#16)
    (pushed : ∀ k < 17,
      load32 v (cpu.esp - 68#32 + BitVec.ofNat 32 (4 * k)) = (frameWords cpu code vector).getD k 0#32) :
    popFrame v { cpu with esp := cpu.esp - 68#32 } = some cpu := by
  have first := pushed 0 (by decide)
  simp only [Nat.mul_zero, BitVec.add_zero] at first
  have segment : ∀ s : BitVec 16, (s.setWidth 32).setWidth 16 = s := by
    intro s
    simp
  have top : cpu.esp - 68#32 + 68#32 = cpu.esp := by bv_omega
  generalize cpu.esp - 68#32 = frame at pushed first top ⊢
  have gs : load32 v frame = cpu.gs.setWidth 32 := first
  have fs : load32 v (frame + 4#32) = cpu.fs.setWidth 32 := pushed 1 (by decide)
  have es : load32 v (frame + 8#32) = cpu.es.setWidth 32 := pushed 2 (by decide)
  have ds : load32 v (frame + 12#32) = cpu.ds.setWidth 32 := pushed 3 (by decide)
  have edi : load32 v (frame + 16#32) = cpu.edi := pushed 4 (by decide)
  have esi : load32 v (frame + 20#32) = cpu.esi := pushed 5 (by decide)
  have ebp : load32 v (frame + 24#32) = cpu.ebp := pushed 6 (by decide)
  have ebx : load32 v (frame + 32#32) = cpu.ebx := pushed 8 (by decide)
  have edx : load32 v (frame + 36#32) = cpu.edx := pushed 9 (by decide)
  have ecx : load32 v (frame + 40#32) = cpu.ecx := pushed 10 (by decide)
  have eax : load32 v (frame + 44#32) = cpu.eax := pushed 11 (by decide)
  have eip : load32 v (frame + 56#32) = cpu.eip := pushed 14 (by decide)
  have cs : load32 v (frame + 60#32) = cpu.cs.setWidth 32 := pushed 15 (by decide)
  have eflags : load32 v (frame + 64#32) = cpu.eflags := pushed 16 (by decide)
  simp only [popFrame, BitVec.add_assoc, BitVec.reduceAdd, top, gs, fs, es, ds, edi, esi, ebp, ebx, edx, ecx, eax,
    eip, cs, eflags, segment]
  exact if_pos kernel

section Window
variable (frames : CFrames) (t : Word → Word) (esp : Word)

theorem word_region (a x : Word)
    (near : InSpan (esp - BitVec.ofNat 32 (76 + 4 * frames.depth)) (73 + 4 * frames.depth) a)
    (inside : InSpan a 4 x) : frames.Region t esp (t x) := by
  have shallow := frames.room
  refine ⟨x, ?_, rfl⟩
  unfold CFrames.Below
  unfold InSpan at *
  bv_omega

theorem above_near (j : Nat) (bound : j ≤ 72) :
    InSpan (esp - BitVec.ofNat 32 (76 + 4 * frames.depth)) (73 + 4 * frames.depth)
      (esp - 76#32 + BitVec.ofNat 32 j) := by
  have shallow := frames.room
  unfold InSpan
  bv_omega

theorem found_near (k : Nat) (bound : k < frames.words.length) :
    InSpan (esp - BitVec.ofNat 32 (76 + 4 * frames.depth)) (73 + 4 * frames.depth)
      (esp - 76#32 - BitVec.ofNat 32 (4 * (k + 1))) := by
  have few := frames.within
  have shallow := frames.room
  unfold InSpan
  bv_omega

theorem later_region (store : Nat × Word) (member : store ∈ frames.later) (i : Nat) (lane : i < 4) :
    frames.Region t esp (t (esp - 76#32 - BitVec.ofNat 32 (4 * (store.1 + 1)) + BitVec.ofNat 32 i)) := by
  have deep := frames.laterWithin store member
  have shallow := frames.room
  refine ⟨_, ?_, rfl⟩
  unfold CFrames.Below InSpan
  bv_omega

theorem later_elsewhere (m : Memory) (p : Word) (away : ¬ frames.Region t esp p) :
    storesBelow t m (esp - 76#32) frames.later p = m p := by
  refine stores_below_missed _ _ _ _ p fun store member i lane same => ?_
  rw [same] at away
  exact away (later_region frames t esp store member i lane)

/-! Writes to other places than the frames. -/

variable (entered changed : Memory) (elsewhere : ∀ p, frames.Region t esp p → changed p = entered p)
include elsewhere

theorem frames_word_kept (a : Word)
    (near : InSpan (esp - BitVec.ofNat 32 (76 + 4 * frames.depth)) (73 + 4 * frames.depth) a) :
    load32 (through t changed) a = load32 (through t entered) a :=
  load32_congr _ _ _ fun x inside => elsewhere _ (word_region frames t esp a x near inside)

theorem functions_found (argument : load32 (through t entered) (esp - 76#32 + 4#32) = esp - 76#32 + 8#32)
    (found : ∀ k < frames.words.length,
      load32 (through t entered) (esp - 76#32 - BitVec.ofNat 32 (4 * (k + 1))) = frames.words.getD k 0#32) :
    frames.Found (through t changed) (esp - 76#32) := by
  constructor
  · intro _
    rw [frames_word_kept frames t esp entered changed elsewhere _ (above_near frames esp 4 (by decide))]
    exact argument
  · intro k bound _
    rw [frames_word_kept frames t esp entered changed elsewhere _ (found_near frames esp k bound)]
    exact found k bound

theorem frame_returned (kept : KeepsOffset t) (j : Nat) (bound : j ≤ 72) :
    load32 (through t (storesBelow t changed (esp - 76#32) frames.later)) (esp - 76#32 + BitVec.ofNat 32 j) =
      load32 (through t entered) (esp - 76#32 + BitVec.ofNat 32 j) := by
  have shallow := frames.room
  rw [← frames_word_kept frames t esp entered changed elsewhere _ (above_near frames esp j bound)]
  refine load32_congr _ _ _ fun x inside => ?_
  have reach : InSpan (esp - 76#32) 80 x := by
    clear * - inside bound
    unfold InSpan at *
    bv_omega
  exact stores_below_above _ _ kept kept _ frames.depth frames.later _ frames.laterWithin 80 (by omega) x reach

end Window

section Frame
variable (pageFrame : PageFrame) (returnTo : Word) (m : Memory) (cpu : Cpu) (code : Option Word) (vector : Nat)
  (directory : Word) (matched : Matched code vector)
include matched

theorem interrupt_words_matched : interruptWords cpu code vector returnTo =
    [cpu.eflags, cpu.cs.setWidth 32, cpu.eip, code.getD 0#32, BitVec.ofNat 32 vector, cpu.eax, cpu.ecx, cpu.edx,
      cpu.ebx, cpu.esp - 20#32, cpu.ebp, cpu.esi, cpu.edi, cpu.ds.setWidth 32, cpu.es.setWidth 32,
      cpu.fs.setWidth 32, cpu.gs.setWidth 32, cpu.esp - 68#32, returnTo] := by
  have esp : cpu.esp - 20#32 - 48#32 = cpu.esp - 68#32 := by bv_omega
  rw [interruptWords, entry_words_matched cpu code vector matched]
  show _ ++ [cpu.esp - 20#32 - 48#32, returnTo] = _
  rw [esp]
  rfl

theorem interrupt_words_length : (interruptWords cpu code vector returnTo).length = 19 := by
  rw [interrupt_words_matched returnTo cpu code vector matched]
  rfl

theorem interrupt_top :
    (interruptEntered pageFrame returnTo m cpu code vector directory).2 = cpu.esp - 76#32 := by
  rw [interruptEntered, pushes_top, interrupt_words_length returnTo cpu code vector matched]

/-- The words of the frame from its lowest, which is the return address. -/
theorem interrupt_word (k : Nat) (bound : k < 19) :
    load32 (through (translate pageFrame directory)
        (interruptEntered pageFrame returnTo m cpu code vector directory).1)
        (cpu.esp - 76#32 + BitVec.ofNat 32 (4 * k)) =
      [returnTo, cpu.esp - 68#32, cpu.gs.setWidth 32, cpu.fs.setWidth 32, cpu.es.setWidth 32, cpu.ds.setWidth 32,
        cpu.edi, cpu.esi, cpu.ebp, cpu.esp - 20#32, cpu.ebx, cpu.edx, cpu.ecx, cpu.eax, BitVec.ofNat 32 vector,
        code.getD 0#32, cpu.eip, cpu.cs.setWidth 32, cpu.eflags].getD k 0#32 := by
  have length := interrupt_words_length returnTo cpu code vector matched
  have word := pushed_word _ (translate_keeps_offset pageFrame directory)
    (interruptWords cpu code vector returnTo) m cpu.esp (by omega) k (by omega)
  rw [length, interrupt_words_matched returnTo cpu code vector matched] at word
  rw [interruptEntered, interrupt_words_matched returnTo cpu code vector matched]
  exact word

theorem frame_word (k : Nat) (bound : k < 17) :
    load32 (through (translate pageFrame directory)
        (interruptEntered pageFrame returnTo m cpu code vector directory).1)
        (cpu.esp - 68#32 + BitVec.ofNat 32 (4 * k)) = (frameWords cpu code vector).getD k 0#32 := by
  have place : cpu.esp - 68#32 + BitVec.ofNat 32 (4 * k) = cpu.esp - 76#32 + BitVec.ofNat 32 (4 * (k + 2)) := by
    bv_omega
  rw [place]
  exact interrupt_word pageFrame returnTo m cpu code vector directory matched (k + 2) (by omega)

theorem interrupt_regs :
    readRegs (through (translate pageFrame directory)
        (interruptEntered pageFrame returnTo m cpu code vector directory).1) (cpu.esp - 68#32) =
      frameRegs cpu (BitVec.ofNat 32 vector) (code.getD 0#32)
        (load32 (through (translate pageFrame directory) m) cpu.esp)
        (load32 (through (translate pageFrame directory) m) (cpu.esp + 4#32)) := by
  have pushed := frame_word pageFrame returnTo m cpu code vector directory matched
  have above := fun j bound => pushes_above _ (translate_keeps_offset pageFrame directory)
    (interruptWords cpu code vector returnTo) m cpu.esp j bound
  rw [interrupt_words_length returnTo cpu code vector matched] at above
  have first := pushed 0 (by decide)
  have useresp := above 0 (by decide)
  have ss := above 4 (by decide)
  have here : cpu.esp - 68#32 + 68#32 = cpu.esp := by bv_omega
  have next : cpu.esp - 68#32 + 72#32 = cpu.esp + 4#32 := by bv_omega
  simp only [Nat.mul_zero, BitVec.add_zero] at first useresp
  simp only [readRegs, frameRegs, here, next, Regs.mk.injEq]
  exact ⟨first, pushed 1 (by decide), pushed 2 (by decide), pushed 3 (by decide), pushed 4 (by decide),
    pushed 5 (by decide), pushed 6 (by decide), pushed 7 (by decide), pushed 8 (by decide),
    pushed 9 (by decide), pushed 10 (by decide), pushed 11 (by decide), pushed 12 (by decide),
    pushed 13 (by decide), pushed 14 (by decide), pushed 15 (by decide), pushed 16 (by decide), useresp, ss⟩

variable (frames : CFrames)

omit matched in
theorem handler_entered_words : handlerEntered pageFrame returnTo frames m cpu code vector directory =
    ((interruptWords cpu code vector returnTo ++ frames.words).foldl (push (translate pageFrame directory))
      (m, cpu.esp)).1 := by
  rw [handlerEntered, interruptEntered, List.foldl_append]

theorem handler_entered_above (j : Nat) (bound : j ≤ 80) :
    load32 (through (translate pageFrame directory)
        (handlerEntered pageFrame returnTo frames m cpu code vector directory))
        (cpu.esp - 76#32 + BitVec.ofNat 32 j) =
      load32 (through (translate pageFrame directory)
        (interruptEntered pageFrame returnTo m cpu code vector directory).1)
        (cpu.esp - 76#32 + BitVec.ofNat 32 j) := by
  have top := interrupt_top pageFrame returnTo m cpu code vector directory matched
  have few := frames.within
  have shallow := frames.room
  rw [handlerEntered]
  generalize interruptEntered pageFrame returnTo m cpu code vector directory = stack at top ⊢
  rw [← top]
  exact pushes_above _ (translate_keeps_offset pageFrame directory) frames.words stack.1 stack.2 j (by omega)

theorem handler_regs :
    readRegs (through (translate pageFrame directory)
        (handlerEntered pageFrame returnTo frames m cpu code vector directory)) (cpu.esp - 68#32) =
      frameRegs cpu (BitVec.ofNat 32 vector) (code.getD 0#32)
        (load32 (through (translate pageFrame directory) m) cpu.esp)
        (load32 (through (translate pageFrame directory) m) (cpu.esp + 4#32)) := by
  have above := fun k (bound : k ≤ 18) => handler_entered_above pageFrame returnTo m cpu code vector directory matched
    frames (8 + 4 * k) (by omega)
  have place : ∀ k, cpu.esp - 76#32 + BitVec.ofNat 32 (8 + 4 * k) = cpu.esp - 68#32 + BitVec.ofNat 32 (4 * k) := by
    intro k
    bv_omega
  simp only [place] at above
  have base := above 0 (by decide)
  simp only [Nat.mul_zero, BitVec.add_zero] at base
  rw [← interrupt_regs pageFrame returnTo m cpu code vector directory matched]
  simp only [readRegs, Regs.mk.injEq]
  exact ⟨base, above 1 (by decide), above 2 (by decide), above 3 (by decide), above 4 (by decide),
    above 5 (by decide), above 6 (by decide), above 7 (by decide), above 8 (by decide), above 9 (by decide),
    above 10 (by decide), above 11 (by decide), above 12 (by decide), above 13 (by decide), above 14 (by decide),
    above 15 (by decide), above 16 (by decide), above 17 (by decide), above 18 (by decide)⟩

theorem handler_entered_outside (p : Word)
    (outside : ¬ frames.Region (translate pageFrame directory) cpu.esp p) :
    handlerEntered pageFrame returnTo frames m cpu code vector directory p = m p := by
  have few := frames.within
  have shallow := frames.room
  have length : (interruptWords cpu code vector returnTo ++ frames.words).length = 19 + frames.words.length := by
    rw [List.length_append, interrupt_words_length returnTo cpu code vector matched]
  rw [handler_entered_words]
  refine pushes_outside _ _ m cpu.esp p (by omega) ?_
  rw [length]
  exact behind_mono _ _ _ _ _ p (fun x inside => by unfold InSpan at *; bv_omega) outside

theorem handler_found (k : Nat) (bound : k < frames.words.length) :
    load32 (through (translate pageFrame directory)
        (handlerEntered pageFrame returnTo frames m cpu code vector directory))
        (cpu.esp - 76#32 - BitVec.ofNat 32 (4 * (k + 1))) = frames.words.getD k 0#32 := by
  have few := frames.within
  have shallow := frames.room
  have kept := translate_keeps_offset pageFrame directory
  have length := interrupt_words_length returnTo cpu code vector matched
  have all : (interruptWords cpu code vector returnTo ++ frames.words).length = 19 + frames.words.length := by
    rw [List.length_append, length]
  have place : cpu.esp - 76#32 - BitVec.ofNat 32 (4 * (k + 1)) = cpu.esp - BitVec.ofNat 32 (4 * (19 + k + 1)) := by
    clear all length
    bv_omega
  apply load32_laid
  intro i lane
  have word := pushed_place _ _ kept kept (interruptWords cpu code vector returnTo ++ frames.words) m cpu.esp
    (by omega) (19 + k) (by omega) i lane
  rw [through_apply, handler_entered_words, place, word, if_pos rfl,
    List.getD_append_right _ _ _ _ (by omega), length, Nat.add_sub_cancel_left]

/-- An interrupt whose handler leaves the frame and the directory as they were, and
whose variables are not in its frames, is not seen by what it interrupts. -/
theorem interrupt_unseen {σ : Type} (kernel : cpu.cs &&& 3#16 = 0#16) (record : σ → Memory → Memory)
    (globals : Word → Prop) (only : ∀ out m p, ¬ globals p → record out m p = m p)
    (apart : ∀ p, frames.Region (translate pageFrame directory) cpu.esp p → ¬ globals p)
    (handler : Regs → Option (σ × Word × Regs)) (out : σ)
    (leaves : handler (frameRegs cpu (BitVec.ofNat 32 vector) (code.getD 0#32)
        (load32 (through (translate pageFrame directory) m) cpu.esp)
        (load32 (through (translate pageFrame directory) m) (cpu.esp + 4#32))) =
      some (out, directory, frameRegs cpu (BitVec.ofNat 32 vector) (code.getD 0#32)
        (load32 (through (translate pageFrame directory) m) cpu.esp)
        (load32 (through (translate pageFrame directory) m) (cpu.esp + 4#32)))) :
    ∃ m', interrupt pageFrame returnTo frames record m cpu code vector directory handler = some (m', cpu, out) ∧
      (∀ p, ¬ frames.Region (translate pageFrame directory) cpu.esp p → ¬ globals p → m' p = m p) ∧
      ∀ p, globals p →
        m' p = record out (handlerEntered pageFrame returnTo frames m cpu code vector directory) p := by
  have kept := translate_keeps_offset pageFrame directory
  have top := interrupt_top pageFrame returnTo m cpu code vector directory matched
  have regs := handler_regs pageFrame returnTo m cpu code vector directory matched frames
  have outside := handler_entered_outside pageFrame returnTo m cpu code vector directory matched frames
  have found := handler_found pageFrame returnTo m cpu code vector directory matched frames
  -- the words that were pushed, as the stub finds them again
  have frame : ∀ k < 19, load32 (through (translate pageFrame directory)
      (handlerEntered pageFrame returnTo frames m cpu code vector directory))
      (cpu.esp - 76#32 + BitVec.ofNat 32 (4 * k)) =
        ([returnTo, cpu.esp - 68#32] ++ frameWords cpu code vector).getD k 0#32 := by
    intro k bound
    rw [handler_entered_above pageFrame returnTo m cpu code vector directory matched frames (4 * k) (by omega)]
    exact interrupt_word pageFrame returnTo m cpu code vector directory matched k bound
  rw [← regs] at leaves
  unfold interrupt
  generalize handlerEntered pageFrame returnTo frames m cpu code vector directory = entered at *
  have standing : storeWords (translate pageFrame directory) entered (cpu.esp - 68#32)
      (readRegs (through (translate pageFrame directory) entered) (cpu.esp - 68#32)).words = entered := by
    rw [regs_words_loaded, store_loaded_words]
  have place : cpu.esp - 76#32 + 8#32 = cpu.esp - 68#32 := by
    clear * -
    bv_omega
  -- the variables are elsewhere
  have elsewhere : ∀ p, frames.Region (translate pageFrame directory) cpu.esp p → record out entered p = entered p :=
    fun p near => only out entered p (apart p near)
  have argument := frame 1 (by decide)
  have holds := functions_found frames _ cpu.esp entered _ elsewhere (argument.trans place.symm) found
  have above := frame_returned frames _ cpu.esp entered _ elsewhere kept
  have returns : load32 (through (translate pageFrame directory)
      (storesBelow (translate pageFrame directory) (record out entered) (cpu.esp - 76#32) frames.later))
      (cpu.esp - 76#32) = returnTo := by
    have address := (above 0 (by decide)).trans (frame 0 (by decide))
    rwa [show BitVec.ofNat 32 0 = 0#32 from rfl, BitVec.add_zero] at address
  have word : ∀ k, cpu.esp - 68#32 + BitVec.ofNat 32 (4 * k) =
      cpu.esp - 76#32 + BitVec.ofNat 32 (4 * (k + 2)) := by
    clear * -
    intro k
    bv_omega
  have popped := frame_popped (through (translate pageFrame directory)
      (storesBelow (translate pageFrame directory) (record out entered) (cpu.esp - 76#32) frames.later)) cpu code
      vector kernel fun k bound => by
    rw [word k]
    exact (above (4 * (k + 2)) (by omega)).trans (frame (k + 2) (by omega))
  have left := later_elsewhere frames (translate pageFrame directory) cpu.esp (record out entered)
  refine ⟨storesBelow (translate pageFrame directory) (record out entered) (cpu.esp - 76#32) frames.later, ?_,
    fun p away free => ?_, fun p inside => left p fun near => apart p near inside⟩
  · simp only [if_pos kernel, top, place, leaves, Option.bind_eq_bind, Option.bind_some, standing, if_pos holds,
      if_pos returns, popped]
  · rw [left p away, only out entered p free, outside p away]

end Frame
end GargOS
