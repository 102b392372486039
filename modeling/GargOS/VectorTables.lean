import GargOS.InterruptTable
import GargOS.KernelHalf
import GargOS.SparedData

/-!
The gates and the fault handlers in a running system: `init_paging`, the calls
and the processes that follow leave both tables alone, and whichever directory
is current the processor finds them where `idt_install` has put them.
-/

namespace GargOS
open ByteMemory Pages Ledger Runs Gates InterruptControllers
open AddressSpace (load8 store8 view)

/-- What happens on the machine once interrupts are on. -/
inductive HandlerEvent
  | paged (e : PagedEvent)
  | registerFaultHandler (faultNo fnc : Word)

/-- `register_fault_handler` is called with numbers of the array. -/
def handlerStep (faultHandlers : Word) (s : Paging) : HandlerEvent → Option Paging
  | .paged e => pagedStep s e
  | .registerFaultHandler faultNo fnc =>
      if faultNo.toNat < 32 then some { s with mem := registerFaultHandler s.mem faultHandlers faultNo fnc }
      else none

def registeredAfter (handlers : Nat → Word) : List HandlerEvent → Nat → Word
  | [] => handlers
  | .paged _ :: rest => registeredAfter handlers rest
  | .registerFaultHandler faultNo fnc :: rest =>
      registeredAfter (Function.update handlers faultNo.toNat fnc) rest

/-- The state in which `init_paging` starts; the history begins with it. -/
def Interrupts.beforePaging (s : Interrupts) : Paging := { s.paging with history := ⟨[], [], []⟩ }

/-- `init_paging` on a machine with an array of fault handlers, where it registers
the handler of page faults. -/
def Interrupts.initPaging (pageFaultHandler : Word) (s : Interrupts) : Option Paging := do
  let paging ← GargOS.initPaging s.beforePaging
  some { paging with mem := registerFaultHandler paging.mem s.faultHandlers 14#32 pageFaultHandler }

def bootHandlers (pageFaultHandler : Word) : Nat → Word := Function.update (fun _ => 0#32) 14 pageFaultHandler

/-- The invariant, with the gates at `table` and the array of handlers behind them. -/
structure VectorsHeld (isr irq : Nat → Word) (table : Word) (handlers : Nat → Word) (s : Paging) : Prop
    extends DataHeld (fun x => x.toNat < table.toNat + 2176) s where
  room : table.toNat + 2176 ≤ KERNEL_MEM_END.toNat
  gates : gates s.mem table = installedGate isr irq
  handlers : ∀ n < 32, load32 s.mem (element (table + 2048#32) (BitVec.ofNat 32 n)) = handlers n

section Tables
variable (isr irq : Nat → Word) (table : Word) (handlers : Nat → Word) (s after : Paging)
  (holds : VectorsHeld isr irq table handlers s)
include holds

theorem move_vectors (e : PagedEvent) (moved : pagedStep s e = some after) :
    VectorsHeld isr irq table handlers after := by
  have limit := kernel_mem_end
  have pages : kernelPages = 4080 := rfl
  have room := holds.room
  obtain ⟨later, kept⟩ := data_moved _ s holds.toDataHeld after e moved
  have top : (table + 2048#32).toNat = table.toNat + 2048 := by bv_omega
  refine ⟨later, room, ?_, fun n bound => ?_⟩
  · rw [← holds.gates]
    refine gates_congr table s.mem after.mem fun x inside => kept x ?_
    rw [in_span_iff _ _ _ (by omega)] at inside
    omega
  · rw [← holds.handlers n bound]
    refine load32_congr _ _ _ fun x inside => kept x ?_
    have inArray := handler_inside table n bound x inside
    rw [in_span_iff _ _ _ (by omega)] at inArray
    omega

theorem register_vectors (faultNo fnc : Word) (inside : faultNo.toNat < 32) :
    VectorsHeld isr irq table (Function.update handlers faultNo.toNat fnc)
      { s with mem := registerFaultHandler s.mem (table + 2048#32) faultNo fnc } := by
  have limit := kernel_mem_end
  have pages : kernelPages = 4080 := rfl
  have room := holds.room
  have top : (table + 2048#32).toNat = table.toNat + 2048 := by bv_omega
  have number : BitVec.ofNat 32 faultNo.toNat = faultNo := word_self faultNo
  have inArray := handler_inside table faultNo.toNat inside
  rw [number] at inArray
  have elsewhere : ∀ x, ¬ InSpan (table + 2048#32) 128 x →
      registerFaultHandler s.mem (table + 2048#32) faultNo fnc x = s.mem x :=
    fun x outside => store32_outside _ _ _ _ fun here => outside (inArray x here)
  have written := data_written _ s holds.toDataHeld (registerFaultHandler s.mem (table + 2048#32) faultNo fnc)
    fun x outside => elsewhere x fun here => outside <| by
      rw [in_span_iff _ _ _ (by omega)] at here
      omega
  refine ⟨written, room, ?_, fun n bound => ?_⟩
  · rw [← holds.gates]
    exact gates_congr table s.mem _ fun x there => elsewhere x fun here => array_behind table (by omega) x here there
  · by_cases same : n = faultNo.toNat
    · subst same
      rw [Function.update_self, number]
      exact load32_store32 _ _ _
    · rw [Function.update_of_ne same, ← holds.handlers n bound]
      refine load32_store32_apart _ _ _ _ ?_
      have different : BitVec.ofNat 32 n ≠ faultNo := by
        intro here
        have equal := congrArg BitVec.toNat here
        rw [BitVec.toNat_ofNat] at equal
        omega
      refine bitset_words_apart (table + 2048#32) _ _ ?_ ?_ different
      · rw [BitVec.toNat_ofNat]
        unfold bitsetWords
        omega
      · unfold bitsetWords
        omega

end Tables

theorem run_vectors (isr irq : Nat → Word) (table : Word) (handlers : Nat → Word) (s after : Paging)
    (holds : VectorsHeld isr irq table handlers s) (events : List HandlerEvent)
    (run : follow (handlerStep (table + 2048#32)) s events = some after) :
    VectorsHeld isr irq table (registeredAfter handlers events) after := by
  induction events generalizing s handlers with
  | nil =>
      obtain rfl := Option.some.inj run
      exact holds
  | cons event rest ih =>
      obtain ⟨middle, moved, later⟩ := Option.bind_eq_some_iff.mp run
      cases event with
      | paged e => exact ih handlers middle (move_vectors isr irq table handlers s middle holds e moved) later
      | registerFaultHandler faultNo fnc =>
          obtain ⟨inside, same⟩ := Option.ite_none_right_eq_some.mp moved
          obtain rfl := Option.some.inj same
          exact ih _ _ (register_vectors isr irq table handlers s holds faultNo fnc inside) later

theorem run_below (isr irq : Nat → Word) (table : Word) (handlers : Nat → Word) (s after : Paging)
    (holds : VectorsHeld isr irq table handlers s) (events : List HandlerEvent)
    (run : follow (handlerStep (table + 2048#32)) s events = some after) (x : Word) (below : x.toNat < table.toNat) :
    after.mem x = s.mem x := by
  have limit : KERNEL_MEM_END.toNat = 16711680 := rfl
  induction events generalizing s handlers with
  | nil =>
      obtain rfl := Option.some.inj run
      rfl
  | cons event rest ih =>
      obtain ⟨middle, moved, later⟩ := Option.bind_eq_some_iff.mp run
      have room := holds.room
      cases event with
      | paged e =>
          rw [ih handlers middle (move_vectors isr irq table handlers s middle holds e moved) later]
          exact (data_moved _ s holds.toDataHeld middle e moved).2 x (by omega)
      | registerFaultHandler faultNo fnc =>
          obtain ⟨inside, same⟩ := Option.ite_none_right_eq_some.mp moved
          obtain rfl := Option.some.inj same
          rw [ih _ _ (register_vectors isr irq table handlers s holds faultNo fnc inside) later]
          refine store32_outside _ _ _ _ fun here => ?_
          have number : BitVec.ofNat 32 faultNo.toNat = faultNo := word_self faultNo
          rw [← number] at here
          have inArray := handler_inside table faultNo.toNat inside x here
          rw [in_span_iff _ _ _ (by bv_omega)] at inArray
          bv_omega

theorem installed_present (isr irq : Nat → Word) (vector : Byte) :
    (if 8 * vector.toNat + 7 ≤ (2047#16 : BitVec 16).toNat ∧ (installedGate isr irq vector).present = true then
      some (installedGate isr irq vector) else none) =
      if vector.toNat < 48 then some (installedGate isr irq vector) else none := by
  have bound := vector.isLt
  have limit : (2047#16 : BitVec 16).toNat = 2047 := rfl
  have stub : ∀ handler, (stubGate handler).present = true := by
    intro handler
    show (0x8E#8 : Byte).getLsbD 7 = true
    decide
  by_cases given : vector.toNat < 48
  · have present : (installedGate isr irq vector).present = true := by
      rw [installedGate, if_pos given]
      split <;> exact stub _
    rw [if_pos ⟨by omega, present⟩, if_pos given]
  · have absent : ¬ (installedGate isr irq vector).present = true := by
      rw [installedGate, if_neg (by omega), if_neg given]
      decide
    rw [if_neg fun both => absent both.2, if_neg given]

section Boot
variable (isr irq : Nat → Word) (start : Interrupts)
  (room : start.paging.placeAddr.toNat + 0x28000 ≤ KERNEL_MEM_END.toNat)
include room

theorem before_paging_low : (idtInstall isr irq start).beforePaging.placeAddr.toNat + 155648 ≤ KERNEL_MEM_END.toNat ∧
    (idtInstall isr irq start).beforePaging.placeAddr.toNat = (idtInstall isr irq start).idt.toNat + 2176 := by
  have limit : KERNEL_MEM_END.toNat = 16711680 := rfl
  have installed := idt_installed isr irq start (by omega)
  have near := installed.near
  have handlers := installed.handlers
  have place := installed.place
  change (idtInstall isr irq start).paging.placeAddr.toNat + 155648 ≤ _ ∧
    (idtInstall isr irq start).paging.placeAddr.toNat = _
  omega

theorem handlers_behind : (idtInstall isr irq start).faultHandlers = (idtInstall isr irq start).idt + 2048#32 := by
  have limit : KERNEL_MEM_END.toNat = 16711680 := rfl
  have installed := idt_installed isr irq start (by omega)
  have near := installed.near
  have behind := installed.handlers
  bv_omega

theorem boots :
    ∃ boot, initPaging (idtInstall isr irq start).beforePaging = some boot ∧ PagingBooted boot ∧
      boot.placeAddr.toNat ≤ start.paging.placeAddr.toNat + 0x28000 := by
  have limit : KERNEL_MEM_END.toNat = 16711680 := rfl
  have near := (idt_installed isr irq start (by omega)).near
  obtain ⟨low, size⟩ := before_paging_low isr irq start room
  obtain ⟨base, boot, booted, identity, _, _, place⟩ :=
    init_paging_result (idtInstall isr irq start).beforePaging (by omega) rfl
  have tables := identity.place
  have four : tablesFor kernelPages = 4 := rfl
  rw [four] at tables
  exact ⟨boot, booted, ⟨_, rfl, by omega, booted, by omega⟩, by omega⟩

theorem booted_vectors (boot : Paging) (booted : initPaging (idtInstall isr irq start).beforePaging = some boot) :
    VectorsHeld isr irq (idtInstall isr irq start).idt (fun _ => 0#32) boot := by
  have limit : KERNEL_MEM_END.toNat = 16711680 := rfl
  have installed := idt_installed isr irq start (by omega)
  obtain ⟨low, size⟩ := before_paging_low isr irq start room
  obtain ⟨boot', again, isBooted, _⟩ := boots isr irq start room
  rw [booted] at again
  obtain rfl := Option.some.inj again
  have keeps := init_paging_keeps (fun x => x.toNat < (idtInstall isr irq start).idt.toNat + 2176) _ boot
    (fun x inside => Nat.lt_of_lt_of_eq inside size.symm) (by omega) rfl booted
  have memory : ∀ x, InSpan (idtInstall isr irq start).idt 2176 x →
      boot.mem x = (idtInstall isr irq start).paging.mem x := by
    intro x inside
    refine keeps.kept x ?_
    rw [in_span_iff _ _ _ (by omega)] at inside
    omega
  refine ⟨⟨booted_held boot isBooted, booted_half boot isBooted, keeps.spares⟩, by omega, ?_, fun n bound => ?_⟩
  · rw [← installed.gates]
    exact gates_congr _ _ _ fun x inside => memory x (Nat.lt_trans inside (by decide))
  · rw [← installed.unset n bound, handlers_behind isr irq start room]
    refine load32_congr _ _ _ fun x inside => memory x ?_
    have inArray := handler_inside _ n bound x inside
    unfold InSpan at *
    bv_omega

omit room in
/-- The registration of `init_paging` is the first event after the structures are there. -/
theorem boot_registers (pageFaultHandler : Word) (boot : Paging)
    (booted : (idtInstall isr irq start).initPaging pageFaultHandler = some boot) :
    ∃ base, initPaging (idtInstall isr irq start).beforePaging = some base ∧
      boot.placeAddr = base.placeAddr ∧ boot.history = base.history ∧
      ∀ events, follow (handlerStep (idtInstall isr irq start).faultHandlers) base
          (.registerFaultHandler 14#32 pageFaultHandler :: events) =
        follow (handlerStep (idtInstall isr irq start).faultHandlers) boot events := by
  unfold Interrupts.initPaging at booted
  generalize before : initPaging (idtInstall isr irq start).beforePaging = result at booted ⊢
  obtain ⟨base, initialised, registered⟩ := Option.bind_eq_some_iff.mp booted
  obtain rfl := Option.some.inj registered
  have step : handlerStep (idtInstall isr irq start).faultHandlers base (.registerFaultHandler 14#32 pageFaultHandler) =
      some { base with
        mem := registerFaultHandler base.mem (idtInstall isr irq start).faultHandlers 14#32 pageFaultHandler } := by
    rw [handlerStep, if_pos (by decide)]
  generalize handlerStep (idtInstall isr irq start).faultHandlers = exec at step ⊢
  exact ⟨base, initialised, rfl, rfl, fun events => follow_cons exec base _ _ events step⟩

theorem image_kept (boot : Paging) (booted : initPaging (idtInstall isr irq start).beforePaging = some boot)
    (events : List HandlerEvent) (s : Paging)
    (run : follow (handlerStep (idtInstall isr irq start).faultHandlers) boot events = some s) (x : Word)
    (below : x.toNat < start.paging.placeAddr.toNat) : s.mem x = start.paging.mem x := by
  have limit : KERNEL_MEM_END.toNat = 16711680 := rfl
  have installed := idt_installed isr irq start (by omega)
  have above := installed.above
  have near := installed.near
  obtain ⟨low, size⟩ := before_paging_low isr irq start room
  have first := booted_vectors isr irq start room boot booted
  rw [handlers_behind isr irq start room] at run
  have keeps := init_paging_keeps (fun x => x.toNat < (idtInstall isr irq start).idt.toNat + 2176) _ boot
    (fun x inside => Nat.lt_of_lt_of_eq inside size.symm) (by omega) rfl booted
  rw [run_below isr irq _ _ boot s first events run x (by omega), keeps.kept x (by omega)]
  refine installed.outside x fun inside => ?_
  rw [in_span_iff _ _ _ (by omega)] at inside
  omega

theorem boot_held (pageFaultHandler : Word) :
    ∃ boot, (idtInstall isr irq start).initPaging pageFaultHandler = some boot ∧
      boot.placeAddr.toNat ≤ start.paging.placeAddr.toNat + 0x28000 ∧
      VectorsHeld isr irq (idtInstall isr irq start).idt (bootHandlers pageFaultHandler) boot := by
  obtain ⟨base, initialised, _, low⟩ := boots isr irq start room
  have first := booted_vectors isr irq start room base initialised
  have registered := register_vectors isr irq _ _ base first 14#32 pageFaultHandler (by decide)
  rw [← handlers_behind isr irq start room] at registered
  refine ⟨{ base with
    mem := registerFaultHandler base.mem (idtInstall isr irq start).faultHandlers 14#32 pageFaultHandler },
    ?_, low, registered⟩
  simp only [Interrupts.initPaging, initialised, Option.bind_eq_bind, Option.bind_some]

/-- The gate of a vector, and the handler of a fault, at any time of any run and
in any directory. -/
theorem vectors_seen (pageFaultHandler : Word) (boot : Paging)
    (booted : (idtInstall isr irq start).initPaging pageFaultHandler = some boot) (events : List HandlerEvent) (s : Paging)
    (run : follow (handlerStep (idtInstall isr irq start).faultHandlers) boot events = some s) (d : Word)
    (listed : s.Listed d) :
    (∃ limit table, (idtInstall isr irq start).idtr = some (limit, table) ∧
      ∀ vector, gateFor (view (switchPageDirectory s d)) limit table vector =
        if vector.toNat < 48 then some (installedGate isr irq vector) else none) ∧
    ∀ faultNo < 32, load32 (view (switchPageDirectory s d))
        (element (idtInstall isr irq start).faultHandlers (BitVec.ofNat 32 faultNo)) =
      registeredAfter (bootHandlers pageFaultHandler) events faultNo := by
  have limit : KERNEL_MEM_END.toNat = 16711680 := rfl
  have loaded := (idt_installed isr irq start (by omega)).loaded.1
  obtain ⟨base, initialised, _, _, registered⟩ := boot_registers isr irq start pageFaultHandler boot booted
  rw [← registered] at run
  have first := booted_vectors isr irq start room base initialised
  rw [handlers_behind isr irq start room] at run ⊢
  generalize (idtInstall isr irq start).idt = table at loaded first run ⊢
  have holds := run_vectors isr irq table _ base s first _ run
  have shown : ∀ x, InSpan table 2176 x → view (switchPageDirectory s d) x = s.mem x := by
    intro x inside
    have room := holds.room
    rw [in_span_iff _ _ _ (by omega)] at inside
    rw [view, data_shown _ s holds.toDataHeld d listed x inside.2]
    rfl
  refine ⟨⟨2047#16, table, loaded, fun vector => ?_⟩, fun faultNo bound => ?_⟩
  · have here : gates (view (switchPageDirectory s d)) table = installedGate isr irq := by
      rw [← holds.gates]
      exact gates_congr table _ _ fun x inside => shown x (Nat.lt_trans inside (by decide))
    rw [gateFor, here, installed_present]
  · have here : registeredAfter (bootHandlers pageFaultHandler) events faultNo =
        load32 s.mem (element (table + 2048#32) (BitVec.ofNat 32 faultNo)) := (holds.handlers faultNo bound).symm
    rw [here]
    refine load32_congr _ _ _ fun x inside => shown x ?_
    have inArray := handler_inside _ faultNo bound x inside
    unfold InSpan at *
    bv_omega

end Boot
/-- The machine before `idt_install`, with memory taken from 0xF0000 on. -/
def bootInterrupts : Interrupts := ⟨bootPaging, 0#32, (0#16, 0#32), none, false, 0#32, remapped⟩

def stubsAt (first n : Nat) : Word := BitVec.ofNat 32 (first + 16 * n)

/-- A handler is registered, and a process is given a directory; that of page
faults is the one of `init_paging`. -/
theorem vectors_seen_process : ∃ boot s d,
    (idtInstall (stubsAt 0x1000) (stubsAt 0x1200) bootInterrupts).initPaging 0x3000#32 = some boot ∧
    d ∈ s.history.directories ∧
    (∃ limit table, (idtInstall (stubsAt 0x1000) (stubsAt 0x1200) bootInterrupts).idtr = some (limit, table) ∧
      ∀ vector, gateFor (view (switchPageDirectory s d)) limit table vector =
        if vector.toNat < 48 then some (installedGate (stubsAt 0x1000) (stubsAt 0x1200) vector) else none) ∧
    load32 (view (switchPageDirectory s d))
      (element (idtInstall (stubsAt 0x1000) (stubsAt 0x1200) bootInterrupts).faultHandlers 0#32) = 0x2000#32 ∧
    load32 (view (switchPageDirectory s d))
      (element (idtInstall (stubsAt 0x1000) (stubsAt 0x1200) bootInterrupts).faultHandlers 14#32) = 0x3000#32 := by
  generalize stubsAt 0x1000 = isr
  generalize stubsAt 0x1200 = irq
  have limit : KERNEL_MEM_END.toNat = 16711680 := rfl
  have place : bootInterrupts.paging.placeAddr.toNat = 0xF0000 := rfl
  have room : bootInterrupts.paging.placeAddr.toNat + 0x28000 ≤ KERNEL_MEM_END.toNat := by omega
  obtain ⟨boot, booted, high, held⟩ := boot_held isr irq bootInterrupts room 0x3000#32
  have first := register_vectors isr irq _ _ boot held 0#32 0x2000#32 (by decide)
  rw [← handlers_behind isr irq bootInterrupts room] at first
  generalize registered : ({ boot with mem := (registerFaultHandler boot.mem
      (idtInstall isr irq bootInterrupts).faultHandlers 0#32 0x2000#32) } : Paging) = s at first
  have same : s.placeAddr = boot.placeAddr := by rw [← registered]
  have new := (new_directory_result s first.held.holds.layout (paged_invariant_room s first.held.holds)).2
  have size := new.place
  rw [same] at size
  have step : pagedStep s (.call .getNewKernelMappedDir) = some (getNewKernelMappedDir s).2 :=
    paging_call_moves s _ .getNewKernelMappedDir trivial rfl (by omega)
  have inUse : s.placeAddr ∈ (getNewKernelMappedDir s).2.history.directories := by
    rw [new.directories]
    exact List.mem_cons_self
  generalize (getNewKernelMappedDir s).2 = after at step inUse
  have run : follow (handlerStep (idtInstall isr irq bootInterrupts).faultHandlers) boot
      [.registerFaultHandler 0#32 0x2000#32, .paged (.call .getNewKernelMappedDir)] = some after := by
    have inside : (0#32 : Word).toNat < 32 := by decide
    simp only [follow, handlerStep, if_pos inside, registered, Option.bind_eq_bind, Option.bind_some, step]
  obtain ⟨gates, handlers⟩ := vectors_seen isr irq bootInterrupts room 0x3000#32 boot booted _ after run s.placeAddr
    (Or.inr inUse)
  exact ⟨boot, after, s.placeAddr, booted, inUse, gates, handlers 0 (by decide), handlers 14 (by decide)⟩

end GargOS
