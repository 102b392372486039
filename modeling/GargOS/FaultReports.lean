import GargOS.ContextSwitch
import GargOS.Formats
import GargOS.VectorTables

/-!
isrs.c from an exception of a process to what `fault_handler` makes of it: the
frame lies on the stack of the process, the gates, the texts and the registered
handlers in the kernel's half of its directory.
-/

namespace GargOS
open ByteMemory ByteLanes Pages Ledger Runs Gates WordFrames
open AddressSpace (load8 store8 view)
open Printing (IsString hexPrefix hexadecimal)

/-- What an exception makes the kernel do. What a registered handler does in its
turn is left to it. -/
inductive FaultEvent
  | putc (ch : Byte)
  | call (fnc : Word) (r : Regs)
  | outb (port : BitVec 16) (data : Byte)

def exceptionMessages : List String :=
  ["Division By Zero\n", "Debug\n", "Non Maskable Interrupt\n", "Breakpoint Exception\n",
    "Into Detected Overflow Exception\n", "Out of Bounds Exception\n", "Invalid Opcode Exception\n",
    "No Coprocessor Exception\n", "Double Fault Exception\n", "Coprocessor Segment Overrun Exception\n",
    "Bad TSS Exception\n", "Segment Not Present Exception\n", "Stack Fault Exception\n",
    "General Protection Fault Exception\n", "Page Fault Exception\n", "Unknown Interrupt Exception\n",
    "Coprocessor Fault Exception\n", "Alignment Check Exception (486+)\n",
    "Machine Check Exception (Pentium/586+)\n", "Reserved Exception 20\n", "Reserved Exception 21\n",
    "Reserved Exception 22\n", "Reserved Exception 23\n", "Reserved Exception 24\n", "Reserved Exception 25\n",
    "Reserved Exception 26\n", "Reserved Exception 27\n", "Reserved Exception 28\n", "Reserved Exception 29\n",
    "Reserved Exception 30\n", "Reserved Exception 31\n", "Reserved Exception 32\n"]

def message (vector : Nat) : List Byte := textOf (exceptionMessages.getD vector "")

def stateFormat : List Byte := textOf "The state of regs:\nCS:\t%x\nEIP:\t%x\n"

def say (out : List FaultEvent) (ch : Byte) : List FaultEvent := out ++ [.putc ch]

def endOfFault (v : Memory) (format : Word) (fuel : Nat) (r : Regs) (out : List FaultEvent) :
    Option (List FaultEvent) :=
  (Printing.printf say v format (fun k => [r.cs, r.eip].getD k 0#32) fuel (out ++ [.outb 0x20#16 0x20#8])).map
    Printing.Format.out

/-- `fault_handler` in the memory that the current directory shows; `messages` is
the array of the texts. Of the registered handlers only those that `returns` tells
come back, and `page_fault_handler` is none of them. -/
def faultHandler (v : Memory) (messages faultHandlers format : Word) (returns : Word → Bool) (fuel : Nat) (a : Word) :
    Option (List FaultEvent) := do
  let r := readRegs v a
  if r.intNo < 32#32 then
    let out ← Printing.puts say v fuel [] (load32 v (element messages r.intNo))
    let fnc := load32 v (element faultHandlers r.intNo)
    if fnc = 0#32 then endOfFault v format fuel r out
    else if returns fnc then endOfFault v format fuel r (out ++ [.call fnc r])
    else some (out ++ [.call fnc r])
  else endOfFault v format fuel r []

/-- The walks of paging.c as the frames a processor finds. -/
def Paging.pageFrames (s : Paging) : PageFrame := fun d page => (s.target d page.toNat).extractLsb' 12 20

structure ImageString (m : Memory) (bound : Nat) (a : Word) (text : List Byte) : Prop where
  isString : IsString m a text
  low : a.toNat + text.length < bound

structure FaultTexts (m : Memory) (bound : Nat) (messages format : Word) : Prop where
  array : messages.toNat + 128 ≤ bound
  message : ∀ n < 32, ImageString m bound (load32 m (element messages (BitVec.ofNat 32 n))) (message n)
  format : ImageString m bound format stateFormat

def stateText (cs eip : Word) : List Byte :=
  textOf "The state of regs:\nCS:\t" ++ hexPrefix ++ hexadecimal cs ++ textOf "\nEIP:\t" ++ hexPrefix ++
    hexadecimal eip ++ textOf "\n"

def faultState (r : Regs) : List FaultEvent := [.outb 0x20#16 0x20#8] ++ (stateText r.cs r.eip).map .putc

/-- The message and the registered handler, and the rest if that returns. -/
def faultReport (returns : Word → Bool) (vector : Nat) (fnc : Word) (r : Regs) : List FaultEvent :=
  (message vector).map .putc ++
    if fnc = 0#32 then faultState r
    else [.call fnc r] ++ if returns fnc then faultState r else []

/-! Texts. -/

theorem said (out : List FaultEvent) (text : List Byte) :
    text.foldl say out = out ++ text.map .putc := by
  induction text generalizing out with
  | nil => exact (List.append_nil out).symm
  | cons c text ih => rw [List.foldl_cons, ih, say, List.append_assoc, List.map_cons, List.singleton_append]

theorem message_short : ∀ n < 32, (message n).length < 64 ∧ 0#8 ∉ message n := by decide +kernel

def stateParts : List Part :=
  [.literal (textOf "The state of regs:\nCS:\t"), .conversion 120#8, .literal (textOf "\nEIP:\t"),
    .conversion 120#8, .literal (textOf "\n")]

theorem state_format : stateFormat = spelled stateParts ∧ stateFormat.length < 64 ∧ 0#8 ∉ stateFormat ∧
    ∀ part ∈ stateParts, part.Proper := by
  decide +kernel

theorem state_shown (v : Memory) (cs eip : Word) :
    shown v (fun k => [cs, eip].getD k 0#32) stateParts 0 = stateText cs eip := by
  simp only [stateParts, shown, stateText, List.append_assoc, List.append_nil]
  rfl

theorem end_of_fault_told (v : Memory) (format : Word) (fuel : Nat) (enough : 2 ^ 33 ≤ fuel) (r : Regs)
    (out : List FaultEvent) (state : IsString v format stateFormat) :
    endOfFault v format fuel r out = some (out ++ faultState r) := by
  obtain ⟨parts, length, _, proper⟩ := state_format
  have room : stateFormat.length + 2 ^ 32 < fuel :=
    Nat.lt_of_lt_of_le (Nat.add_lt_add_right length _) (Nat.le_trans (by decide) enough)
  have printed := format_printed say v fuel (out ++ [.outb 0x20#16 0x20#8]) format
    (fun k => [r.cs, r.eip].getD k 0#32) stateFormat stateParts parts proper room state
  rw [said, state_shown] at printed
  rw [endOfFault, printed, faultState, List.append_assoc]

theorem fault_handler_reports (v : Memory) (messages faultHandlers format : Word) (returns : Word → Bool)
    (fuel : Nat) (enough : 2 ^ 33 ≤ fuel) (a : Word) (vector : Nat) (exception : vector < 32) (r : Regs)
    (frame : readRegs v a = r)
    (number : r.intNo = BitVec.ofNat 32 vector)
    (text : IsString v (load32 v (element messages (BitVec.ofNat 32 vector))) (message vector))
    (state : IsString v format stateFormat) :
    faultHandler v messages faultHandlers format returns fuel a =
      some (faultReport returns vector (load32 v (element faultHandlers (BitVec.ofNat 32 vector))) r) := by
  have small : BitVec.ofNat 32 vector < 32#32 := by bv_omega
  have short := (message_short vector exception).1
  have put := string_put say v fuel [] (by omega) _ _ text (by omega)
  rw [said, List.nil_append] at put
  have told := fun out => end_of_fault_told v format fuel enough r out state
  simp only [faultHandler, frame, number, small, if_true, put, Option.bind_eq_bind, Option.bind_some, told]
  rw [faultReport]
  by_cases none : load32 v (element faultHandlers (BitVec.ofNat 32 vector)) = 0#32
  · rw [if_pos none, if_pos none]
  · rw [if_neg none, if_neg none]
    split
    next => rw [List.append_assoc]
    next => rw [List.append_nil]

/-! The directory of the process. -/

/-- Where the walk of paging.c finds a page, so does the processor of the context switch. -/
theorem page_frames_walk (s : Paging) (d x y : Word) (shown : (switchPageDirectory s d).translate x = some y) :
    translate s.pageFrames d x = y := by
  obtain ⟨_, same⟩ := Option.ite_none_right_eq_some.mp shown
  have address : s.target d (x.toNat / 4096) + BitVec.ofNat 32 (x.toNat % 4096) = y := Option.some.inj same
  have page : (x.extractLsb' 12 20).toNat = x.toNat / 4096 := by
    rw [BitVec.extractLsb'_toNat, Nat.shiftRight_eq_div_pow]
    omega
  have aligned := page_of_is_page (s.pte d (x.toNat / 4096))
  change IsPage (s.target d (x.toNat / 4096)) at aligned
  unfold translate Paging.pageFrames
  rw [page, ← address]
  generalize s.target d (x.toNat / 4096) = p at aligned ⊢
  have high : (p.extractLsb' 12 20).toNat = p.toNat / 4096 := by
    rw [BitVec.extractLsb'_toNat, Nat.shiftRight_eq_div_pow]
    omega
  have low : (x.extractLsb' 0 12).toNat = x.toNat % 4096 := by
    rw [BitVec.extractLsb'_toNat, Nat.shiftRight_zero]
  apply BitVec.eq_of_toNat_eq
  rw [BitVec.toNat_append, high, low, ← Nat.shiftLeft_add_eq_or_of_lt (Nat.mod_lt _ (by decide)), Nat.shiftLeft_eq]
  unfold IsPage at aligned
  bv_omega

section Process
variable (isr irq : Nat → Word) (table : Word) (handlers : Nat → Word) (s : Paging)
  (holds : VectorsHeld isr irq table handlers s) (d : Word) (inUse : d ∈ s.history.directories) (cpu : Cpu)
  (code : Option Word) (vector : Nat) (matched : Matched code vector) (returnTo : Word) (frames : CFrames)
  (stack : ∀ x, frames.Below cpu.esp x → s.mapping d (x.toNat / 4096) ≠ none)
include holds inUse

theorem low_frames (x : Word) (low : x.toNat < KERNEL_MEM_END.toNat) : translate s.pageFrames d x = x :=
  page_frames_walk s d x x ((half_mapped_kernel_half s d (holds.half d (Or.inr inUse))).same x low)

theorem stack_above (p : Word) (stack : ∀ x, frames.Below cpu.esp x → s.mapping d (x.toNat / 4096) ≠ none)
    (behind : frames.Region (translate s.pageFrames d) cpu.esp p) : KERNEL_MEM_END.toNat ≤ p.toNat := by
  obtain ⟨x, inside, rfl⟩ := behind
  obtain ⟨m, found⟩ := Option.ne_none_iff_exists'.mp (stack x inside)
  have mapped := mapped_page s holds.held.holds.toPagedRecords d _ m found
  have target : s.target d (x.toNat / 4096) = m.frame := mapped.target
  have shown : (switchPageDirectory s d).translate x = some (m.frame + BitVec.ofNat 32 (x.toNat % 4096)) := by
    rw [← target]
    exact if_pos mapped.walks
  rw [page_frames_walk s d x _ shown]
  exact process_frame_above s holds.held.holds d (holds.held.process d inUse) _ m found _ (in_frame m.frame x)

include matched stack

theorem low_unchanged (x : Word) (low : x.toNat < KERNEL_MEM_END.toNat) :
    through (translate s.pageFrames d) (handlerEntered s.pageFrames returnTo frames s.mem cpu code vector d) x =
      s.mem x := by
  rw [through_apply, low_frames isr irq table handlers s holds d inUse x low]
  refine handler_entered_outside s.pageFrames returnTo s.mem cpu code vector d matched frames x fun behind => ?_
  have above := stack_above isr irq table handlers s holds d inUse cpu frames x stack behind
  omega

theorem image_string (image : Memory) (bound : Nat) (low : bound ≤ KERNEL_MEM_END.toNat)
    (kept : ∀ x : Word, x.toNat < bound → s.mem x = image x) (a : Word) (text : List Byte)
    (string : ImageString image bound a text) :
    IsString (through (translate s.pageFrames d)
      (handlerEntered s.pageFrames returnTo frames s.mem cpu code vector d)) a text := by
  have limit : KERNEL_MEM_END.toNat = 16711680 := rfl
  have inside := string.low
  refine is_string_congr image _ a text string.isString (fun x here => ?_) (by omega)
  rw [in_span_iff _ _ _ (by omega)] at here
  rw [low_unchanged isr irq table handlers s holds d inUse cpu code vector matched returnTo frames stack x
    (by omega), kept x (by omega)]

theorem low_word (a : Word) (low : a.toNat + 4 ≤ KERNEL_MEM_END.toNat) :
    load32 (through (translate s.pageFrames d)
      (handlerEntered s.pageFrames returnTo frames s.mem cpu code vector d)) a = load32 s.mem a := by
  have limit : KERNEL_MEM_END.toNat = 16711680 := rfl
  refine load32_congr _ _ _ fun x inside => ?_
  rw [in_span_iff _ _ _ (by omega)] at inside
  exact low_unchanged isr irq table handlers s holds d inUse cpu code vector matched returnTo frames stack x
    (by omega)

end Process

/-- An exception of a process at any time of any run: the processor finds its
gate, and `fault_handler` tells its message, calls the handler last registered
for it with the interrupted registers, and prints where it was if that returns. -/
theorem exception_reported (isr irq : Nat → Word) (start : Interrupts)
    (room : start.paging.placeAddr.toNat + 0x28000 ≤ KERNEL_MEM_END.toNat) (pageFaultHandler : Word) (boot : Paging)
    (booted : (idtInstall isr irq start).initPaging pageFaultHandler = some boot) (events : List HandlerEvent)
    (s : Paging) (run : follow (handlerStep (idtInstall isr irq start).faultHandlers) boot events = some s)
    (d : Word) (inUse : d ∈ s.history.directories) (cpu : Cpu) (code : Option Word) (vector : Nat)
    (exception : vector < 32) (matched : Matched code vector) (frames : CFrames)
    (stack : ∀ x, frames.Below cpu.esp x → s.mapping d (x.toNat / 4096) ≠ none) (messages format : Word)
    (texts : FaultTexts start.paging.mem start.paging.placeAddr.toNat messages format) (returnTo : Word)
    (returns : Word → Bool) (fuel : Nat) (enough : 2 ^ 33 ≤ fuel) :
    (∃ limit table, (idtInstall isr irq start).idtr = some (limit, table) ∧
      gateFor (view (switchPageDirectory s d)) limit table (BitVec.ofNat 8 vector) = some (stubGate (isr vector))) ∧
    faultHandler (through (translate s.pageFrames d)
        (handlerEntered s.pageFrames returnTo frames s.mem cpu code vector d)) messages
        (idtInstall isr irq start).faultHandlers format returns fuel (cpu.esp - 68#32) =
      some (faultReport returns vector (registeredAfter (bootHandlers pageFaultHandler) events vector)
        (frameRegs cpu (BitVec.ofNat 32 vector) (code.getD 0#32)
          (load32 (through (translate s.pageFrames d) s.mem) cpu.esp)
          (load32 (through (translate s.pageFrames d) s.mem) (cpu.esp + 4#32)))) := by
  have limit : KERNEL_MEM_END.toNat = 16711680 := rfl
  have loaded := (idt_installed isr irq start (by omega)).loaded.1
  obtain ⟨base, initialised, _, _, registered⟩ := boot_registers isr irq start pageFaultHandler boot booted
  rw [← registered] at run
  have first := booted_vectors isr irq start room base initialised
  have kept := image_kept isr irq start room base initialised _ s run
  rw [handlers_behind isr irq start room] at run ⊢
  generalize (idtInstall isr irq start).idt = table at loaded first run ⊢
  have holds := run_vectors isr irq table _ base s first _ run
  have below := holds.room
  have number : (BitVec.ofNat 8 vector).toNat = vector := by
    rw [BitVec.toNat_ofNat]
    omega
  refine ⟨⟨2047#16, table, loaded, ?_⟩, ?_⟩
  · have here : gates (view (switchPageDirectory s d)) table = installedGate isr irq := by
      rw [← holds.gates]
      refine gates_congr table _ _ fun x inside => ?_
      have near := Nat.lt_trans inside (show 2048 < 2176 by decide)
      rw [← InSpan, in_span_iff _ _ _ (by omega)] at near
      rw [view, data_shown _ s holds.toDataHeld d (Or.inr inUse) x near.2]
      rfl
    rw [gateFor, here, installed_present, number, if_pos (by omega), installedGate, number, if_pos exception]
  · have regs := handler_regs s.pageFrames returnTo s.mem cpu code vector d matched frames
    have word := low_word isr irq table _ s holds d inUse cpu code vector matched returnTo frames stack
    have string := image_string isr irq table _ s holds d inUse cpu code vector matched returnTo frames stack
      start.paging.mem start.paging.placeAddr.toNat (by omega) kept
    have array := texts.array
    have entry : (element messages (BitVec.ofNat 32 vector)).toNat + 4 ≤ KERNEL_MEM_END.toNat := by
      unfold element
      bv_omega
    have handler : (element (table + 2048#32) (BitVec.ofNat 32 vector)).toNat + 4 ≤ KERNEL_MEM_END.toNat := by
      unfold element
      bv_omega
    have last : registeredAfter (bootHandlers pageFaultHandler) events vector =
        load32 s.mem (element (table + 2048#32) (BitVec.ofNat 32 vector)) := (holds.handlers vector exception).symm
    rw [last, ← word _ handler]
    refine fault_handler_reports _ messages _ format returns fuel enough _ vector exception _ regs rfl ?_
      (string _ _ texts.format)
    have pointer : load32 s.mem (element messages (BitVec.ofNat 32 vector)) =
        load32 start.paging.mem (element messages (BitVec.ofNat 32 vector)) := by
      refine load32_congr _ _ _ fun x inside => kept x ?_
      unfold InSpan element at inside
      bv_omega
    rw [word _ entry, pointer]
    exact string _ _ (texts.message vector exception)

/-- An array at 0x2000, a format at 0x3000, and the texts 64 bytes apart from 0x4000 on. -/
def imageMemory : Memory := fun a =>
  if a.toNat < 0x2080 then byteLane (BitVec.ofNat 32 (0x4000 + 64 * ((a.toNat - 0x2000) / 4))) (a.toNat % 4)
  else if a.toNat < 0x4000 then stateFormat.getD (a.toNat - 0x3000) 0#8
  else (message ((a.toNat - 0x4000) / 64)).getD (a.toNat % 64) 0#8

theorem image_texts : FaultTexts imageMemory 0xF0000 0x2000#32 0x3000#32 := by
  obtain ⟨_, length, nonzero, _⟩ := state_format
  refine ⟨by decide, fun n bound => ?_, ⟨is_string_laid _ _ _ nonzero fun i inside => ?_, ?_⟩⟩
  · have pointer : load32 imageMemory (element 0x2000#32 (BitVec.ofNat 32 n)) = BitVec.ofNat 32 (0x4000 + 64 * n) := by
      refine load32_laid _ _ _ fun i lane => ?_
      have place : (element 0x2000#32 (BitVec.ofNat 32 n) + BitVec.ofNat 32 i).toNat = 0x2000 + 4 * n + i := by
        unfold element
        bv_omega
      have index : (0x2000 + 4 * n + i - 0x2000) / 4 = n := by omega
      have rest : (0x2000 + 4 * n + i) % 4 = i := by omega
      rw [imageMemory, place, if_pos (by omega), index, rest]
    obtain ⟨short, nonzero⟩ := message_short n bound
    rw [pointer]
    refine ⟨is_string_laid _ _ _ nonzero fun i inside => ?_, ?_⟩
    · have place : (BitVec.ofNat 32 (0x4000 + 64 * n) + BitVec.ofNat 32 i : Word).toNat = 0x4000 + 64 * n + i := by
        bv_omega
      have number : (0x4000 + 64 * n + i - 0x4000) / 64 = n := by omega
      have rest : (0x4000 + 64 * n + i) % 64 = i := by omega
      rw [imageMemory, place, if_neg (by omega), if_neg (by omega), number, rest]
    · rw [BitVec.toNat_ofNat]
      omega
  · have few : i < 64 := Nat.lt_of_le_of_lt inside length
    have place : (0x3000#32 + BitVec.ofNat 32 i : Word).toNat = 0x3000 + i := by bv_omega
    rw [imageMemory, place, if_neg (by omega), if_pos (by omega), Nat.add_sub_cancel_left]
  · exact Nat.lt_trans (Nat.add_lt_add_left length _) (by decide)

theorem booted_free (isr irq : Nat → Word) (start : Interrupts)
    (room : start.paging.placeAddr.toNat + 0x28000 ≤ KERNEL_MEM_END.toNat) (pageFaultHandler : Word) (boot : Paging)
    (booted : (idtInstall isr irq start).initPaging pageFaultHandler = some boot) (holds : PagedInvariant boot) :
    FirstFree boot kernelPages := by
  have pages : kernelPages = 4080 := rfl
  obtain ⟨base, initialised, _, history, _⟩ := boot_registers isr irq start pageFaultHandler boot booted
  obtain ⟨base', again, isBooted, _⟩ := boots isr irq start room
  rw [initialised] at again
  obtain rfl := Option.some.inj again
  obtain ⟨_, identity, _⟩ := booted_identity base isBooted
  refine ⟨by omega, ?_, fun k less => holds.kernel k less⟩
  rw [← Bool.not_eq_true, holds.bits _ (by omega), history, identity.mappings]
  rintro ⟨m, member, frame⟩
  obtain ⟨k, less, rfl⟩ := (identity_mappings_mem _ _ m).mp member
  have number := congrArg BitVec.toNat frame
  rw [frame_toNat k (by omega), frame_toNat kernelPages (by omega)] at number
  omega

/-- `fault_handler` in its call of `puts`. -/
def faultFrames (ebp : Word) : CFrames where
  words := [ebp, 14#32, 0x2100#32, 0x100800#32]
  needed := fun _ => true
  argument := true
  later := []
  depth := 4
  within := Nat.le_refl 4
  laterWithin := by decide
  distinct := List.nodup_nil
  room := by decide

theorem machine_with_page (isr irq : Nat → Word) (start : Interrupts)
    (room : start.paging.placeAddr.toNat + 0x28000 ≤ KERNEL_MEM_END.toNat)
    (low : start.paging.placeAddr.toNat ≤ 0xF0000) :
    ∃ boot s d, (idtInstall isr irq start).initPaging 0x3100#32 = some boot ∧
      follow (handlerStep (idtInstall isr irq start).faultHandlers) boot
        [.paged (.call .getNewKernelMappedDir), .paged (.call (.allocPage d 0x1000000#32 1#32 1#32)),
          .registerFaultHandler 0#32 0x2000#32] = some s ∧
      d ∈ s.history.directories ∧ s.mapping d 0x1000 ≠ none := by
  have limit : KERNEL_MEM_END.toNat = 16711680 := rfl
  have pages : kernelPages = 4080 := rfl
  obtain ⟨boot, booted, place, first⟩ := boot_held isr irq start room 0x3100#32
  have bits := booted_free isr irq start room 0x3100#32 boot booted first.held.holds
  have new := (new_directory_result boot first.held.holds.layout (paged_invariant_room boot first.held.holds)).2
  have size := new.place
  have made : pagedStep boot (.call .getNewKernelMappedDir) = some (getNewKernelMappedDir boot).2 :=
    paging_call_moves boot _ .getNewKernelMappedDir trivial rfl (by omega)
  generalize (getNewKernelMappedDir boot).2 = s at new size made
  have listed : s.Listed boot.placeAddr := Or.inr (by rw [new.directories]; exact List.mem_cons_self)
  have free : FirstFree s kernelPages := by
    refine ⟨by omega, ?_, fun k less => ?_⟩
    · rw [new.bits _ (by omega)]
      exact bits.2.1
    · rw [new.bits k (by omega)]
      exact bits.2.2 k less
  obtain ⟨after, allocated, maps, _⟩ := alloc_page_found s new.layout (by omega) boot.placeAddr 0x1000000#32 1#32 1#32
    listed kernelPages free
  have top := maps_place _ _ _ _ _ _ _ maps
  have mapped : pagedStep s (.call (.allocPage boot.placeAddr 0x1000000#32 1#32 1#32)) = some after := by
    refine paging_call_moves s after _ ⟨listed, by decide⟩ ?_ (by omega)
    simp only [pagingCall, allocated, Option.bind_eq_bind, Option.bind_some]
  have found := maps_mapping _ _ _ _ _ _ _ maps
  have inside : (0#32 : Word).toNat < 32 := by decide
  refine ⟨boot, ({ after with
    mem := (registerFaultHandler after.mem (idtInstall isr irq start).faultHandlers 0#32 0x2000#32) } : Paging),
    boot.placeAddr, booted, ?_, ?_, ?_⟩
  · simp only [follow, handlerStep, made, mapped, if_pos inside, Option.bind_eq_bind, Option.bind_some]
  · show boot.placeAddr ∈ after.history.directories
    rw [maps.keeps.roots.directories, new.directories]
    exact List.mem_cons_self
  · show after.mapping boot.placeAddr 0x1000 ≠ none
    have page : (0x1000000#32 : Word).toNat / 4096 = 0x1000 := rfl
    rw [← page, found]
    simp

/-- A page fault of that process, with its stack at the end of its page, ends in
`page_fault_handler`; a division by zero is told to its end. -/
theorem exception_reported_page : ∃ (start : Interrupts) (s : Paging) (d : Word) (r r' : Regs),
    faultHandler (through (translate s.pageFrames d)
        (handlerEntered s.pageFrames 0x100200#32 (faultFrames 0x1001000#32) s.mem (kernelCpu 7#32 0x1001000#32)
          (some 2#32) 14 d)) 0x2000#32
        (idtInstall (fun _ => 0x1100#32) (fun _ => 0x1200#32) start).faultHandlers 0x3000#32 (· ≠ 0x3100#32) (2 ^ 33)
        (0x1001000#32 - 68#32) = some ((message 14).map .putc ++ [.call 0x3100#32 r]) ∧
    r.errCode = 2#32 ∧ r.eip = 0x101000#32 ∧
    faultHandler (through (translate s.pageFrames d)
        (handlerEntered s.pageFrames 0x100200#32 (faultFrames 0x1001000#32) s.mem (kernelCpu 7#32 0x1001000#32)
          none 0 d)) 0x2000#32
        (idtInstall (fun _ => 0x1100#32) (fun _ => 0x1200#32) start).faultHandlers 0x3000#32 (· ≠ 0x3100#32) (2 ^ 33)
        (0x1001000#32 - 68#32) =
      some ((message 0).map .putc ++ [.call 0x2000#32 r', .outb 0x20#16 0x20#8] ++
        (stateText r'.cs r'.eip).map .putc) := by
  let start : Interrupts := { bootInterrupts with paging := { bootPaging with mem := imageMemory } }
  have limit : KERNEL_MEM_END.toNat = 16711680 := rfl
  have place : start.paging.placeAddr.toNat = 0xF0000 := rfl
  obtain ⟨boot, s, d, booted, run, inUse, mapped⟩ := machine_with_page (fun _ => 0x1100#32) (fun _ => 0x1200#32) start
    (by omega) (by omega)
  have stack : ∀ x : Word, (faultFrames 0x1001000#32).Below 0x1001000#32 x → s.mapping d (x.toNat / 4096) ≠ none := by
    intro x inside
    have page : x.toNat / 4096 = 0x1000 := by
      have span : InSpan (0x1001000#32 - BitVec.ofNat 32 (76 + 4 * 4)) (76 + 4 * 4) x := inside
      unfold InSpan at span
      bv_omega
    rw [page]
    exact mapped
  have reported := fun code vector exception matched =>
    (exception_reported (fun _ => 0x1100#32) (fun _ => 0x1200#32) start (by omega) 0x3100#32 boot booted _ s run d
      inUse (kernelCpu 7#32 0x1001000#32) code vector exception matched (faultFrames 0x1001000#32) stack 0x2000#32
      0x3000#32 image_texts
      0x100200#32 (· ≠ 0x3100#32) (2 ^ 33) (Nat.le_refl _)).2
  exact ⟨start, s, d, _, _, reported (some 2#32) 14 (by decide) (iff_of_true rfl (by decide)), rfl, rfl,
    reported none 0 (by decide) (iff_of_false (by decide) (by decide))⟩

end GargOS
