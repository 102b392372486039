import GargOS.ProcessArray
import GargOS.ProcessTable
import GargOS.RoundRobin

/-!
The kernel from `init_scheduler` on: directories are made and pages mapped,
fault handlers registered, processes added, removed and switched to, in any
order. What process_list.c and scheduler.c find in their array is what they have
left there, and their calls return what the model of them returns.
-/

namespace GargOS
open ByteMemory Pages Ledger Runs Records
open AddressSpace (load8 store8 view)

inductive KernelEvent
  | handler (e : HandlerEvent)
  | scheduler (call : SchedulerCall)

inductive Returned
  | nothing
  | slot (i : Int)
  | started (regs : Regs) (slice : Word)

def kernelStep (faultHandlers : Word) (k : Kernel) : KernelEvent → Option (Kernel × Returned)
  | .handler e => do
      let paging ← handlerStep faultHandlers k.paging e
      some ({ k with paging := paging }, .nothing)
  | .scheduler (.addProcess proc) =>
      let (m, i) := ProcArr.addProcess k.paging.mem k.procArr proc
      some (k.withMem m, .slot i)
  | .scheduler (.removeProcess proc) =>
      some (k.withMem (ProcArr.removeProcess k.paging.mem k.procArr proc), .nothing)
  | .scheduler (.startNextProcess frame) => do
      let (k, regs, slice) ← ProcArr.startNextProcess k frame
      some (k, .started regs slice)

/-- `add_process`, which does not look at the directory of the process, is called
with one that exists. -/
def ProcessFits (k : Kernel) : KernelEvent → Prop
  | .scheduler (.addProcess proc) => k.paging.Listed proc.pageDirectory
  | _ => True

instance (k : Kernel) : (e : KernelEvent) → Decidable (ProcessFits k e)
  | .handler _ => inferInstanceAs (Decidable True)
  | .scheduler (.addProcess proc) => inferInstanceAs (Decidable (k.paging.Listed proc.pageDirectory))
  | .scheduler (.removeProcess _) => inferInstanceAs (Decidable True)
  | .scheduler (.startNextProcess _) => inferInstanceAs (Decidable True)

def fittingStep (faultHandlers : Word) (k : Kernel) (e : KernelEvent) : Option (Kernel × Returned) :=
  if ProcessFits k e then kernelStep faultHandlers k e else none

/-- The directory behind an event. -/
def HandlerEvent.directory (current : Word) : HandlerEvent → Word
  | .paged (.switch dir) => dir
  | _ => current

/-- The same events on the table of processes. -/
def tableStep (s : Scheduler) : KernelEvent → Option (Scheduler × Returned)
  | .handler e => some ({ s with currentDirectory := e.directory s.currentDirectory }, .nothing)
  | .scheduler (.addProcess proc) =>
      let (s, i) := addProcess s proc
      some (s, .slot i)
  | .scheduler (.removeProcess proc) => some (removeProcess s proc, .nothing)
  | .scheduler (.startNextProcess frame) => do
      let (s, regs, slice) ← startNextProcess s frame
      some (s, .started regs slice)

/-- The kernel before `init_scheduler`, with the initial values of scheduler.c. -/
def Paging.kernel (s : Paging) : Kernel := ⟨s, 0#32, -1, false, true⟩

/-- `init_scheduler`, and `scheduler_active = 1` behind it in `main`. -/
def startKernel (s : Paging) (kernelFunc : Word) : Kernel :=
  { ProcArr.initScheduler s.kernel kernelFunc with schedulerActive := true }

def startTable (s : Paging) (kernelFunc : Word) : Scheduler :=
  { initScheduler s.kernel.unset s.kernelDirectory kernelFunc (s.placeAddr + 3072#32) with
    schedulerActive := true }

/-! What the calls do to the table of processes. -/

section Table
variable (s : Scheduler)

theorem add_process_rest (proc : Process) : (addProcess s proc).1.curProcIndex = s.curProcIndex ∧
    (addProcess s proc).1.schedulerActive = s.schedulerActive ∧
    (addProcess s proc).1.isFirstRun = s.isFirstRun ∧
    (addProcess s proc).1.currentDirectory = s.currentDirectory := by
  rcases add_process_result s proc with ⟨full, _⟩ | ⟨slot, _, _, _, _, added⟩
  · rw [full]
    exact ⟨rfl, rfl, rfl, rfl⟩
  · rw [added]
    exact ⟨rfl, rfl, rfl, rfl⟩

theorem init_scheduler_slots (kernelDirectory kernelFunc stack : Word) :
    (((initScheduler s kernelDirectory kernelFunc stack).procArr 0).pid = 0#32 ∧
      ((initScheduler s kernelDirectory kernelFunc stack).procArr 0).pageDirectory = kernelDirectory) ∧
    ∀ i, 0 < i → i < MAX_PROC → ((initScheduler s kernelDirectory kernelFunc stack).procArr i).pid = NO_PROC := by
  have free := init_list_slot s 32
  unfold initScheduler
  generalize initProcessList s 32 = list at free ⊢
  dsimp only
  rw [set_slot_same]
  refine ⟨⟨rfl, rfl⟩, fun i low high => ?_⟩
  rw [set_slot_other _ _ _ _ (by omega)]
  exact free i (by omega) high

theorem add_process_second (proc : Process) (taken : (s.procArr 0).pid ≠ NO_PROC)
    (free : (s.procArr 1).pid = NO_PROC) : (addProcess s proc).1 = s.setSlot 1 { proc with pid := 1#32 } := by
  rw [addProcess, addProcessFrom, if_neg taken, addProcessFrom, Int.zero_add, if_pos free]
  rfl

theorem add_process_directories (proc : Process) (i : Int) (taken : (addProcess s proc).1.Taken i) :
    ((addProcess s proc).1.procArr i).pageDirectory = proc.pageDirectory ∨
      s.Taken i ∧ ((addProcess s proc).1.procArr i).pageDirectory = (s.procArr i).pageDirectory := by
  rcases add_process_result s proc with ⟨full, _⟩ | ⟨slot, _, _, _, _, added⟩
  · rw [full] at taken ⊢
    exact Or.inr ⟨taken, rfl⟩
  · rw [added] at taken ⊢
    by_cases here : i = slot
    · rw [here, set_slot_same]
      exact Or.inl rfl
    · have pid := taken.2.2
      rw [set_slot_other _ _ _ _ here] at pid ⊢
      exact Or.inr ⟨⟨taken.1, taken.2.1, pid⟩, rfl⟩

theorem remove_process_directories (proc : Process) (i : Int) (taken : (removeProcess s proc).Taken i) :
    s.Taken i ∧ ((removeProcess s proc).procArr i).pageDirectory = (s.procArr i).pageDirectory := by
  have pid := taken.2.2
  rw [remove_process_slot] at pid ⊢
  split at pid
  next => exact absurd rfl pid
  next other =>
    rw [if_neg other]
    exact ⟨⟨taken.1, taken.2.1, pid⟩, rfl⟩

theorem start_next_directories (frame : Regs) (low : 0 ≤ s.curProcIndex) (high : s.curProcIndex < MAX_PROC) :
    ∃ after regs slice, startNextProcess s frame = some (after, regs, slice) ∧
      (after.currentDirectory = s.currentDirectory ∨
        ∃ i, s.Taken i ∧ after.currentDirectory = (s.procArr i).pageDirectory) ∧
      ∀ i, (after.procArr i).pid = (s.procArr i).pid ∧
        (after.procArr i).pageDirectory = (s.procArr i).pageDirectory := by
  by_cases active : s.schedulerActive = true
  · rcases start_next_process_next s frame low high active with
      ⟨d, after, regs, slice, done, next, dispatched⟩ | ⟨_, slice, done⟩
    · refine ⟨after, regs, slice, done, Or.inr ⟨_, (mem_live_slots s _).mp next.found, dispatched.directory⟩,
        fun i => ?_⟩
      rw [dispatched.table]
      split
      · exact ⟨rfl, rfl⟩
      · exact ⟨rfl, rfl⟩
    · exact ⟨s, frame, slice, done, Or.inl rfl, fun _ => ⟨rfl, rfl⟩⟩
  · exact ⟨s, frame, 50#32, by rw [startNextProcess, if_neg active], Or.inl rfl, fun _ => ⟨rfl, rfl⟩⟩

end Table

/-! What the events do to the directories. -/

/-- No event takes a directory away, and only a switch changes the current one. -/
theorem move_current (s after : Paging) (held : SpacesHeld s) (e : PagedEvent)
    (moved : pagedStep s e = some after) : (∀ d, s.Listed d → after.Listed d) ∧
      after.currentDir = (HandlerEvent.paged e).directory s.currentDir ∧
      (s.Listed s.currentDir → after.Listed after.currentDir) := by
  have room := paged_invariant_room s held.holds
  cases paged_cases s after held e moved with
  | newDirectory _ =>
      have new := (new_directory_result s held.holds.layout room).2
      have more : ∀ d, s.Listed d → (getNewKernelMappedDir s).2.Listed d := by
        intro d listed
        unfold Paging.Listed at *
        rw [new.kernelDirectory, new.directories]
        exact listed.imp id (List.mem_cons_of_mem _)
      refine ⟨more, new.currentDir, fun listed => ?_⟩
      rw [new.currentDir]
      exact more _ listed
  | allocPage directory v isWriteable isKernel frame _ listed _ allocated _ =>
      obtain ⟨_, _, _, maps, _⟩ := alloc_page_result s held.holds.layout (by omega) directory v isWriteable
        isKernel listed frame after allocated
      have same := listed_same s after maps.keeps.roots
      refine ⟨fun d inUse => (same d).mpr inUse, maps.keeps.currentDir, fun inUse => ?_⟩
      rw [maps.keeps.currentDir]
      exact (same _).mpr inUse
  | switch dir listed => exact ⟨fun _ inUse => inUse, rfl, fun _ => listed⟩
  | store a b m running found => exact ⟨fun _ inUse => inUse, rfl, id⟩

theorem data_switched (data : Word → Prop) (s : Paging) (holds : DataHeld data s) (dir : Word)
    (listed : s.Listed dir) : DataHeld data { s with currentDir := dir } := by
  have allowed : PagedAllowed s (.switch dir) := listed
  refine (data_moved data s holds _ (.switch dir) ?_).1
  rw [pagedStep, if_pos allowed]
  rfl

/-! The invariant. -/

/-- The array, the fault handlers and whatever else is data of the kernel are as
their owners have left them, and every process has a directory. -/
structure KernelHeld (data : Word → Prop) (procArr faultHandlers : Word) (image : Memory) (k : Kernel)
    (s : Scheduler) : Prop where
  held : DataHeld data k.paging.settled
  early : IsPage k.paging.placeAddr ∨ k.paging.history.directories = []
  low : k.paging.placeAddr.toNat ≤ KERNEL_MEM_END.toNat
  refines : Refines k s
  current : k.paging.Listed k.paging.currentDir
  directories : ∀ i, s.Taken i → k.paging.Listed (s.procArr i).pageDirectory
  place : k.procArr = procArr
  array : ∀ x, InSpan procArr 3072 x → data x
  handlers : ∀ x, InSpan faultHandlers 128 x → data x ∧ ¬ InSpan procArr 3072 x
  rest : ∀ x, data x → ¬ InSpan procArr 3072 x → ¬ InSpan faultHandlers 128 x → k.paging.mem x = image x

theorem represents_congr (m after : Memory) (procArr : Word) (s : Scheduler) (represents : Represents m procArr s)
    (same : ∀ x, InSpan procArr 3072 x → after x = m x) : Represents after procArr s := by
  intro i low high
  rw [← represents i low high]
  exact read_process_congr m after _ fun x inside => same x (array_slot procArr i low high x inside)

section Steps
variable (data : Word → Prop) (procArr faultHandlers : Word) (image : Memory) (k : Kernel) (s : Scheduler)
  (holds : KernelHeld data procArr faultHandlers image k s)
include holds

theorem handler_event_held (e : HandlerEvent) (after : Paging)
    (moved : handlerStep faultHandlers k.paging e = some after) :
    KernelHeld data procArr faultHandlers image { k with paging := after }
      { s with currentDirectory := e.directory s.currentDirectory } := by
  cases e with
  | paged e =>
      obtain ⟨there, early, low⟩ := settled_step k.paging holds.low holds.held.held after holds.early e moved
      obtain ⟨held, kept⟩ := data_moved data _ holds.held _ e there
      obtain ⟨more, current, listed⟩ := move_current _ _ holds.held.held e there
      have table := represents_congr k.paging.mem after.mem k.procArr s holds.refines.table fun x inside =>
        kept x (holds.array x (holds.place ▸ inside))
      have directory : after.currentDir = (HandlerEvent.paged e).directory s.currentDirectory := by
        rw [← holds.refines.directory]
        exact current
      exact ⟨held, early, low, ⟨table, holds.refines.curProcIndex, holds.refines.schedulerActive,
        holds.refines.isFirstRun, directory, holds.refines.low, holds.refines.high⟩, listed holds.current,
        fun i taken => more _ (holds.directories i taken), holds.place, holds.array, holds.handlers,
        fun x inside other away => (kept x inside).trans (holds.rest x inside other away)⟩
  | registerFaultHandler faultNo fnc =>
      obtain ⟨inside, same⟩ := Option.ite_none_right_eq_some.mp moved
      obtain rfl := Option.some.inj same
      -- the handler lands in data of the kernel, but not in the array
      have elsewhere : ∀ x, ¬ InSpan faultHandlers 128 x →
          registerFaultHandler k.paging.mem faultHandlers faultNo fnc x = k.paging.mem x := by
        intro x outside
        refine store32_outside _ _ _ _ fun here => outside ?_
        unfold InSpan element at *
        bv_omega
      have held := data_written data _ holds.held _ fun x outside => elsewhere x fun here =>
        outside (holds.handlers x here).1
      have table := represents_congr k.paging.mem _ k.procArr s holds.refines.table fun x inside =>
        elsewhere x fun here => (holds.handlers x here).2 (holds.place ▸ inside)
      exact ⟨held, holds.early, holds.low, ⟨table, holds.refines.curProcIndex, holds.refines.schedulerActive,
        holds.refines.isFirstRun, holds.refines.directory, holds.refines.low, holds.refines.high⟩, holds.current,
        holds.directories, holds.place, holds.array, holds.handlers, fun x inside other away =>
          (elsewhere x away).trans (holds.rest x inside other away)⟩

theorem array_written_held (after : Kernel) (next : Scheduler) (refines : Refines after next)
    (writes : WritesArray k after) (current : k.paging.Listed after.paging.currentDir)
    (directories : ∀ i, next.Taken i → k.paging.Listed (next.procArr i).pageDirectory) :
    KernelHeld data procArr faultHandlers image after next := by
  obtain ⟨m, dir, paging, within⟩ := writes.paging
  rw [paging] at current
  have written := data_written data _ holds.held m fun x outside => within x fun inside =>
    outside (holds.array x (holds.place ▸ inside))
  have held := data_switched data _ written dir current
  refine ⟨?_, ?_, ?_, refines, ?_, fun i taken => ?_, writes.procArr.trans holds.place, holds.array,
    holds.handlers, fun x inside other away => ?_⟩
  · rw [paging]
    exact held
  · rw [paging]
    exact holds.early
  · rw [paging]
    exact holds.low
  · rw [paging]
    exact current
  · rw [paging]
    exact directories i taken
  · rw [paging]
    exact (within x fun there => other (holds.place ▸ there)).trans (holds.rest x inside other away)

theorem table_written_held (m : Memory) (next : Scheduler) (table : Represents m k.procArr next)
    (within : WithinArray k.procArr k.paging.mem m) (index : next.curProcIndex = s.curProcIndex)
    (active : next.schedulerActive = s.schedulerActive) (first : next.isFirstRun = s.isFirstRun)
    (directory : next.currentDirectory = s.currentDirectory)
    (directories : ∀ i, next.Taken i → k.paging.Listed (next.procArr i).pageDirectory) :
    KernelHeld data procArr faultHandlers image (k.withMem m) next := by
  have refines := holds.refines
  refine array_written_held data procArr faultHandlers image k s holds _ next ⟨table,
    refines.curProcIndex.trans index.symm, refines.schedulerActive.trans active.symm,
    refines.isFirstRun.trans first.symm, refines.directory.trans directory.symm, ?_, ?_⟩
    ⟨rfl, _, _, rfl, within⟩ holds.current directories
  · rw [index]
    exact refines.low
  · rw [index]
    exact refines.high

theorem scheduler_call_held (call : SchedulerCall) (fits : ProcessFits k (.scheduler call)) (after : Kernel)
    (answer : Returned) (moved : kernelStep faultHandlers k (.scheduler call) = some (after, answer)) :
    ∃ next, tableStep s (.scheduler call) = some (next, answer) ∧
      KernelHeld data procArr faultHandlers image after next := by
  have refines := holds.refines
  cases call with
  | addProcess proc =>
      obtain ⟨table, slot, within⟩ := add_refined k.paging.mem k.procArr s refines.table proc
      obtain ⟨index, active, first, directory⟩ := add_process_rest s proc
      rw [kernelStep] at moved
      generalize ProcArr.addProcess k.paging.mem k.procArr proc = added at moved table slot within
      obtain ⟨rfl, rfl⟩ := Prod.mk.inj (Option.some.inj moved)
      refine ⟨(addProcess s proc).1, by rw [slot]; rfl, ?_⟩
      refine table_written_held data procArr faultHandlers image k s holds _ _ table within index active first
        directory fun i taken => ?_
      rcases add_process_directories s proc i taken with new | ⟨earlier, unchanged⟩
      · rw [new]
        exact fits
      · rw [unchanged]
        exact holds.directories i earlier
  | removeProcess proc =>
      obtain ⟨rfl, rfl⟩ := Prod.mk.inj (Option.some.inj moved)
      obtain ⟨table, within⟩ := remove_rounds_refined k.paging.mem k.procArr s refines.table proc.pid 32
        (Nat.le_refl _)
      obtain ⟨index, active, first⟩ := remove_process_rest s proc
      have directory : (removeProcess s proc).currentDirectory = _ := remove_rounds_directory s proc.pid 32
      refine ⟨removeProcess s proc, rfl, ?_⟩
      refine table_written_held data procArr faultHandlers image k s holds _ _ table within index active first
        directory fun i taken => ?_
      obtain ⟨earlier, unchanged⟩ := remove_process_directories s proc i taken
      rw [unchanged]
      exact holds.directories i earlier
  | startNextProcess frame =>
      obtain ⟨next, regs, slice, done, current, slots⟩ := start_next_directories s frame refines.low refines.high
      obtain ⟨k', started, again, writes⟩ := start_next_refined k s refines frame next regs slice done
      simp only [kernelStep, started, Option.bind_eq_bind, Option.bind_some] at moved
      obtain ⟨rfl, rfl⟩ := Prod.mk.inj (Option.some.inj moved)
      refine ⟨next, by simp only [tableStep, done, Option.bind_eq_bind, Option.bind_some], ?_⟩
      refine array_written_held data procArr faultHandlers image k s holds k' next again writes ?_
        fun i taken => ?_
      · rw [again.directory]
        rcases current with same | ⟨i, taken, directory⟩
        · rw [same, ← refines.directory]
          exact holds.current
        · rw [directory]
          exact holds.directories i taken
      · have earlier : s.Taken i := ⟨taken.1, taken.2.1, (slots i).1 ▸ taken.2.2⟩
        rw [(slots i).2]
        exact holds.directories i earlier

theorem kernel_step_held (e : KernelEvent) (after : Kernel) (answer : Returned)
    (fitting : fittingStep faultHandlers k e = some (after, answer)) :
    ∃ next, tableStep s e = some (next, answer) ∧ KernelHeld data procArr faultHandlers image after next := by
  obtain ⟨fits, moved⟩ := Option.ite_none_right_eq_some.mp fitting
  cases e with
  | handler e =>
      obtain ⟨paging, done, same⟩ := Option.bind_eq_some_iff.mp moved
      obtain ⟨rfl, rfl⟩ := Prod.mk.inj (Option.some.inj same)
      exact ⟨_, rfl, handler_event_held data procArr faultHandlers image k s holds e paging done⟩
  | scheduler call =>
      exact scheduler_call_held data procArr faultHandlers image k s holds call fits after answer moved

theorem slot_shown (d : Word) (listed : k.paging.Listed d) (i : Int) (low : 0 ≤ i) (high : i < MAX_PROC) :
    readProcess (view (switchPageDirectory k.paging d)) (procAddress k.procArr i) = s.procArr i := by
  rw [← holds.refines.table i low high]
  refine read_process_congr k.paging.mem _ _ fun x inside => ?_
  have shown : load8 (switchPageDirectory k.paging d) x = some (k.paging.mem x) :=
    data_shown data _ holds.held d listed x
      (holds.array x (holds.place ▸ array_slot k.procArr i low high x inside))
  rw [view, shown]
  rfl

end Steps

/-! From `init_scheduler` on. -/

/-- `init_scheduler` takes the array and a stack from behind the data, and the
next directory starts a page after them. -/
theorem start_kernel_held (data : Word → Prop) (faultHandlers : Word) (b : Paging) (kernelFunc : Word)
    (holds : DataHeld data b) (first : b.history.directories = []) (current : b.Listed b.currentDir)
    (fits : b.placeAddr.toNat + 8192 ≤ KERNEL_MEM_END.toNat)
    (handlers : ∀ x, InSpan faultHandlers 128 x → data x) :
    KernelHeld (fun x => data x ∨ b.placeAddr.toNat ≤ x.toNat ∧ x.toNat < b.placeAddr.toNat + 8192)
      b.placeAddr faultHandlers (startKernel b kernelFunc).paging.mem (startKernel b kernelFunc)
      (startTable b kernelFunc) := by
  have limit : KERNEL_MEM_END.toNat = 16711680 := rfl
  have aligned := holds.held.holds.layout.aligned
  have slots := init_scheduler_slots b.kernel.unset b.kernelDirectory kernelFunc (b.placeAddr + 3072#32)
  obtain ⟨refined, procArr, m, history, paging, directories, mappings, within⟩ :=
    init_scheduler_refined b.kernel kernelFunc
  unfold startKernel startTable
  change Refines _ (initScheduler b.kernel.unset b.kernelDirectory kernelFunc (b.placeAddr + 3072#32)) at refined
  change _ = b.placeAddr at procArr
  change WithinArray b.placeAddr b.mem m at within
  change history.directories = b.history.directories at directories
  change history.mappings = b.history.mappings at mappings
  -- what follows must not evaluate the two tables
  generalize ProcArr.initScheduler b.kernel kernelFunc = k at refined procArr paging ⊢
  generalize initScheduler b.kernel.unset b.kernelDirectory kernelFunc (b.placeAddr + 3072#32) =
    table at slots refined ⊢
  have top : (b.placeAddr + 3072#32 + 4096#32).toNat = b.placeAddr.toNat + 7168 := by bv_omega
  have low : (b.placeAddr + 3072#32 + 4096#32).toNat ≤ KERNEL_MEM_END.toNat := by omega
  have kernel : k.paging = { b with
      mem := m, placeAddr := b.placeAddr + 3072#32 + 4096#32, history := history } := paging
  have place : k.paging.placeAddr = b.placeAddr + 3072#32 + 4096#32 := by rw [kernel]
  -- the stack ends between two pages, so the rest of the page is nobody's and counts as data
  obtain ⟨page, above, near⟩ := settled_place k.paging (by rw [place]; exact low)
  rw [place] at above near
  generalize settled : k.paging.settled.placeAddr = p at page above near
  have next : p.toNat = b.placeAddr.toNat + 8192 := by
    unfold IsPage at *
    omega
  have raised := data_raised data b holds p history.regions page (by omega) (by omega)
  have sameHistory : ({ b.history with regions := history.regions } : History) = history := by
    show History.mk history.regions b.history.directories b.history.mappings = history
    rw [← directories, ← mappings]
  rw [next, sameHistory] at raised
  have elsewhere : ∀ x, ¬ (data x ∨ b.placeAddr.toNat ≤ x.toNat ∧ x.toNat < b.placeAddr.toNat + 8192) →
      m x = b.mem x := by
    intro x outside
    refine within x fun inside => outside (Or.inr ?_)
    rw [in_span_iff _ _ _ (by omega)] at inside
    omega
  have written := data_written _ _ raised m elsewhere
  have listed : ∀ d, b.Listed d → k.paging.Listed d := by
    intro d listed
    rw [kernel]
    unfold Paging.Listed at *
    rw [directories]
    exact listed
  have held : k.paging.settled = { b with mem := m, placeAddr := p, history := history } := by
    have same : k.paging.settled = { k.paging with placeAddr := k.paging.settled.placeAddr } := rfl
    rw [same, settled, kernel]
  refine ⟨?_, Or.inr ?_, ?_, ⟨refined.table, refined.curProcIndex, rfl, refined.isFirstRun, refined.directory,
    refined.low, refined.high⟩, ?_, fun i taken => ?_, procArr, fun x inside => ?_, fun x inside => ?_,
    fun _ _ _ _ => rfl⟩
  · show DataHeld _ k.paging.settled
    rw [held]
    exact written
  · show k.paging.history.directories = []
    rw [kernel]
    exact directories.trans first
  · show k.paging.placeAddr.toNat ≤ _
    rw [place]
    exact low
  · have here : k.paging.currentDir = b.currentDir := by rw [kernel]
    show k.paging.Listed k.paging.currentDir
    rw [here]
    exact listed _ current
  · refine listed _ (Or.inl ?_)
    by_cases zero : i = 0
    · rw [zero]
      exact slots.1.2
    · have low := taken.1
      exact absurd (slots.2 i (by omega) taken.2.1) taken.2.2
  · rw [in_span_iff _ _ _ (by omega)] at inside
    omega
  · have below := holds.spares.place x (handlers x inside)
    refine ⟨Or.inl (handlers x inside), fun there => ?_⟩
    rw [in_span_iff _ _ _ (by omega)] at there
    omega

/-! From the boot on. -/

theorem run_current (isr irq : Nat → Word) (table : Word) (handlers : Nat → Word) (s after : Paging)
    (holds : VectorsHeld isr irq table handlers s) (current : s.Listed s.currentDir) (events : List HandlerEvent)
    (run : follow (handlerStep (table + 2048#32)) s events = some after) : after.Listed after.currentDir := by
  induction events generalizing s handlers with
  | nil =>
      obtain rfl := Option.some.inj run
      exact current
  | cons event rest ih =>
      obtain ⟨middle, moved, later⟩ := Option.bind_eq_some_iff.mp run
      cases event with
      | paged e =>
          have next := (move_current s middle holds.held e moved).2.2 current
          exact ih handlers middle (move_vectors isr irq table handlers s middle holds e moved) next later
      | registerFaultHandler faultNo fnc =>
          obtain ⟨inside, same⟩ := Option.ite_none_right_eq_some.mp moved
          obtain rfl := Option.some.inj same
          exact ih _ _ (register_vectors isr irq table handlers s holds faultNo fnc inside) current later

theorem kernel_run_held (data : Word → Prop) (procArr faultHandlers : Word) (image : Memory) (k after : Kernel)
    (s : Scheduler) (holds : KernelHeld data procArr faultHandlers image k s) (events : List KernelEvent)
    (answers : List Returned)
    (run : follow (answered (fittingStep faultHandlers)) (k, []) events = some (after, answers)) :
    ∃ last, follow (answered tableStep) (s, []) events = some (last, answers) ∧
      KernelHeld data procArr faultHandlers image after last :=
  answered_simulated (fittingStep faultHandlers) tableStep (KernelHeld data procArr faultHandlers image)
    (fun k s e after answer holds moved =>
      kernel_step_held data procArr faultHandlers image k s holds e after answer moved)
    events (k, []) (after, answers) s holds run

structure ShowsTable (k : Kernel) (s : Scheduler) : Prop where
  current : k.paging.Listed k.paging.currentDir ∧ k.paging.currentDir = s.currentDirectory
  index : k.curProcIndex = s.curProcIndex
  slots : ∀ d, k.paging.Listed d → ∀ i, 0 ≤ i → i < MAX_PROC →
    readProcess (view (switchPageDirectory k.paging d)) (procAddress k.procArr i) = s.procArr i
  directories : ∀ i, s.Taken i → k.paging.Listed (s.procArr i).pageDirectory
  switches : ∀ frame, ∃ next regs slice, ProcArr.startNextProcess k frame = some (next, regs, slice)

theorem kernel_held_shows (data : Word → Prop) (procArr faultHandlers : Word) (image : Memory) (k : Kernel)
    (s : Scheduler) (holds : KernelHeld data procArr faultHandlers image k s) : ShowsTable k s := by
  have refines := holds.refines
  refine ⟨⟨holds.current, refines.directory⟩, refines.curProcIndex,
    fun d listed i low high => slot_shown data procArr faultHandlers image k s holds d listed i low high,
    holds.directories, fun frame => ?_⟩
  obtain ⟨next, regs, slice, done, _⟩ := start_next_directories s frame refines.low refines.high
  obtain ⟨k', started, _⟩ := start_next_refined k s refines frame next regs slice done
  exact ⟨k', regs, slice, started⟩

section Boot
variable (isr irq : Nat → Word) (start : Interrupts)
  (room : start.paging.placeAddr.toNat + 0x28000 ≤ KERNEL_MEM_END.toNat)
include room

theorem prepared_held (pageFaultHandler : Word) (boot : Paging)
    (booted : (idtInstall isr irq start).initPaging pageFaultHandler = some boot) (setup : List HandlerEvent) (b : Paging)
    (prepared : follow (handlerStep (idtInstall isr irq start).faultHandlers) boot setup = some b) :
    DataHeld (fun x => x.toNat < (idtInstall isr irq start).idt.toNat + 2176) b ∧ b.Listed b.currentDir ∧
      ∀ x, InSpan (idtInstall isr irq start).faultHandlers 128 x →
        x.toNat < (idtInstall isr irq start).idt.toNat + 2176 := by
  have limit : KERNEL_MEM_END.toNat = 16711680 := rfl
  obtain ⟨base, initialised, _, _, registered⟩ := boot_registers isr irq start pageFaultHandler boot booted
  rw [← registered] at prepared
  have first := booted_vectors isr irq start room base initialised
  have current : base.Listed base.currentDir := by
    obtain ⟨low, size⟩ := before_paging_low isr irq start room
    obtain ⟨_, returns, _⟩ := init_paging_loop (fun _ => False) (idtInstall isr irq start).beforePaging
      (fun _ none => none.elim) (by omega) rfl
    rw [returns] at initialised
    obtain ⟨_, _, rfl⟩ := Option.map_eq_some_iff.mp initialised
    exact Or.inl rfl
  rw [handlers_behind isr irq start room] at prepared ⊢
  generalize (idtInstall isr irq start).idt = table at *
  have holds := run_vectors isr irq table _ base b first _ prepared
  have size := holds.room
  refine ⟨holds.toDataHeld, run_current isr irq table _ base b first current _ prepared, fun x inside => ?_⟩
  rw [in_span_iff _ _ _ (by bv_omega)] at inside
  bv_omega

end Boot

theorem start_kernel_place (b : Paging) (kernelFunc : Word) :
    (startKernel b kernelFunc).paging.placeAddr = b.placeAddr + 3072#32 + 4096#32 := by
  obtain ⟨_, _, _, _, paging, _⟩ := init_scheduler_refined b.kernel kernelFunc
  unfold startKernel
  rw [paging]
  rfl

theorem table_adds (s : Scheduler) (proc : Process) : tableStep s (.scheduler (.addProcess proc)) =
    some ((addProcess s proc).1, .slot (addProcess s proc).2) := by
  rw [tableStep]

theorem directory_then_add (s next : Scheduler) (answer : Returned) (proc : Process)
    (added : tableStep s (.scheduler (.addProcess proc)) = some (next, answer)) :
    follow (answered tableStep) (s, []) [.handler (.paged (.call .getNewKernelMappedDir)),
      .scheduler (.addProcess proc)] = some (next, [.nothing, answer]) := by
  have first : answered tableStep (s, []) (.handler (.paged (.call .getNewKernelMappedDir))) =
      some (s, [.nothing]) := rfl
  have second : answered tableStep (s, [.nothing]) (.scheduler (.addProcess proc)) =
      some (next, [.nothing, answer]) := by
    rw [answered, added]
    rfl
  rw [follow_cons _ _ _ _ _ first, follow_cons _ _ _ _ _ second]
  rfl

end GargOS
