import GargOS.Scheduler

/-!
Which registers the scheduler hands to which process. Every successful
`add_process` makes a new instance; beside the table the state keeps which
instance a slot holds, which one runs, and the history of instances added and
of switches made.
-/

namespace GargOS
open ByteMemory Runs

inductive SchedulerEvent
  | added (number : Nat) (proc : Process)
  | switched (leaving : Option Nat) (frame : Regs) (entering : Nat) (delivered : Regs)
      (directory : Word)

/-- The frame passed in at the last switch away from an instance, or its
initial registers; the history lists the newest event first. -/
def expectedRegs (number : Nat) : List SchedulerEvent → Option Regs
  | [] => none
  | .added added proc :: earlier =>
      if added = number then some proc.lastStateRegs else expectedRegs number earlier
  | .switched leaving frame _ _ _ :: earlier =>
      if leaving = some number then some frame else expectedRegs number earlier

def directoryOf (number : Nat) : List SchedulerEvent → Option Word
  | [] => none
  | .added added proc :: earlier =>
      if added = number then some proc.pageDirectory else directoryOf number earlier
  | .switched _ _ _ _ _ :: earlier => directoryOf number earlier

structure Traced where
  sched : Scheduler
  owner : Int → Nat
  running : Option Nat
  history : List SchedulerEvent

inductive SchedulerCall
  | addProcess (proc : Process)
  | removeProcess (proc : Process)
  | startNextProcess (frame : Regs)

/-- The calls of a run with the scheduler active. An `add_process` without a
free slot, and a switch without a process in the table, leave no event. -/
inductive SchedulerStep (c : Traced) : SchedulerCall → Traced → Prop
  | added (proc : Process) (next : Scheduler) (slot : Int)
      (returned : addProcess c.sched proc = (next, slot)) (found : slot ≠ -1) :
      SchedulerStep c (SchedulerCall.addProcess proc)
        ⟨next, fun i => if i = slot then c.history.length else c.owner i, c.running,
          SchedulerEvent.added c.history.length proc :: c.history⟩
  | full (proc : Process) (next : Scheduler) (returned : addProcess c.sched proc = (next, -1)) :
      SchedulerStep c (SchedulerCall.addProcess proc) { c with sched := next }
  | removed (proc : Process) :
      SchedulerStep c (SchedulerCall.removeProcess proc)
        { c with sched := removeProcess c.sched proc }
  | switched (frame : Regs) (next : Scheduler) (regs : Regs) (slice : Word)
      (returned : startNextProcess c.sched frame = some (next, regs, slice))
      (some_process : ∃ i, c.sched.Taken i) :
      SchedulerStep c (SchedulerCall.startNextProcess frame)
        ⟨next, c.owner, some (c.owner next.curProcIndex),
          SchedulerEvent.switched c.running frame (c.owner next.curProcIndex) regs
            next.currentDirectory :: c.history⟩
  | idle (frame : Regs) (next : Scheduler) (regs : Regs) (slice : Word)
      (returned : startNextProcess c.sched frame = some (next, regs, slice))
      (no_process : ∀ i, ¬ c.sched.Taken i) :
      SchedulerStep c (SchedulerCall.startNextProcess frame) { c with sched := next }

/-- The state after `init_scheduler`: the kernel's process is instance 0. -/
def Started (c : Traced) : Prop :=
  ∃ s kernelDirectory kernelFunc stack, s.schedulerActive = true ∧ s.isFirstRun = true ∧
    c = ⟨initScheduler s kernelDirectory kernelFunc stack, fun _ => 0, none,
      [SchedulerEvent.added 0 ((initScheduler s kernelDirectory kernelFunc stack).procArr 0)]⟩

/-- At a switch the slot of `cur_proc_index` is free, or it still holds the
instance that was dispatched last. -/
def SlotKept (c : Traced) : SchedulerCall → Prop
  | .startNextProcess _ => ∀ number ∈ c.running, c.sched.Taken c.sched.curProcIndex →
      c.owner c.sched.curProcIndex = number
  | _ => True

instance (c : Traced) : (call : SchedulerCall) → Decidable (SlotKept c call)
  | .addProcess _ => inferInstanceAs (Decidable True)
  | .removeProcess _ => inferInstanceAs (Decidable True)
  | .startNextProcess _ => inferInstanceAs (Decidable (∀ number ∈ c.running, c.sched.Taken c.sched.curProcIndex → _))

/-- Every switch of the history delivered the registers expected of the
instance it entered, and switched to that instance's directory. -/
def ContextsKept (history : List SchedulerEvent) : Prop :=
  ∀ leaving frame entering delivered directory earlier,
    (SchedulerEvent.switched leaving frame entering delivered directory :: earlier) <:+ history →
    expectedRegs entering (SchedulerEvent.switched leaving frame entering delivered directory :: earlier)
        = some delivered ∧
      directoryOf entering earlier = some directory

structure Traceable (c : Traced) : Prop where
  active : c.sched.schedulerActive = true
  inside : 0 ≤ c.sched.curProcIndex ∧ c.sched.curProcIndex < MAX_PROC
  first : c.running = none ↔ c.sched.isFirstRun = true
  saved : ∀ i, c.sched.Taken i →
    expectedRegs (c.owner i) c.history = some (c.sched.procArr i).lastStateRegs ∧
      directoryOf (c.owner i) c.history = some (c.sched.procArr i).pageDirectory
  numbered : ∀ i, c.sched.Taken i → c.owner i < c.history.length
  distinct : ∀ i j, c.sched.Taken i → c.sched.Taken j → c.owner i = c.owner j → i = j
  current : ∀ number, c.running = some number → number < c.history.length ∧
    ∀ i, c.sched.Taken i → c.owner i = number → i = c.sched.curProcIndex
  contexts : ContextsKept c.history

theorem contexts_kept_cons_added (number : Nat) (proc : Process) (history : List SchedulerEvent)
    (kept : ContextsKept history) : ContextsKept (SchedulerEvent.added number proc :: history) := by
  intro leaving frame entering delivered directory earlier suffix
  rcases List.suffix_cons_iff.mp suffix with same | older
  · simp at same
  · exact kept leaving frame entering delivered directory earlier older

theorem contexts_kept_cons_switched (leaving : Option Nat) (frame : Regs) (entering : Nat)
    (delivered : Regs) (directory : Word) (history : List SchedulerEvent)
    (kept : ContextsKept history)
    (expected : expectedRegs entering
      (SchedulerEvent.switched leaving frame entering delivered directory :: history) = some delivered)
    (mapped : directoryOf entering history = some directory) :
    ContextsKept (SchedulerEvent.switched leaving frame entering delivered directory :: history) := by
  intro leaving' frame' entering' delivered' directory' earlier suffix
  rcases List.suffix_cons_iff.mp suffix with same | older
  · simp only [List.cons.injEq, SchedulerEvent.switched.injEq] at same
    obtain ⟨⟨rfl, rfl, rfl, rfl, rfl⟩, rfl⟩ := same
    exact ⟨expected, mapped⟩
  · exact kept leaving' frame' entering' delivered' directory' earlier older

def traceCall (c : Traced) : SchedulerCall → Option Traced
  | .addProcess proc =>
      let (next, slot) := addProcess c.sched proc
      if slot = -1 then some { c with sched := next }
      else some ⟨next, fun i => if i = slot then c.history.length else c.owner i, c.running,
        SchedulerEvent.added c.history.length proc :: c.history⟩
  | .removeProcess proc => some { c with sched := removeProcess c.sched proc }
  | .startNextProcess frame => do
      let (next, regs, _) ← startNextProcess c.sched frame
      if ∃ i ∈ List.range 32, (c.sched.procArr (i : Nat)).pid ≠ NO_PROC then
        some ⟨next, c.owner, some (c.owner next.curProcIndex),
          SchedulerEvent.switched c.running frame (c.owner next.curProcIndex) regs
            next.currentDirectory :: c.history⟩
      else some { c with sched := next }

theorem trace_call_step (c after : Traced) (call : SchedulerCall)
    (returned : traceCall c call = some after) : SchedulerStep c call after := by
  cases call with
  | addProcess proc =>
      rcases result : addProcess c.sched proc with ⟨next, slot⟩
      simp only [traceCall, result] at returned
      by_cases full : slot = -1
      · rw [if_pos full] at returned
        obtain rfl := Option.some.inj returned
        exact SchedulerStep.full proc next (full ▸ result)
      · rw [if_neg full] at returned
        obtain rfl := Option.some.inj returned
        exact SchedulerStep.added proc next slot result full
  | removeProcess proc =>
      obtain rfl := Option.some.inj returned
      exact SchedulerStep.removed proc
  | startNextProcess frame =>
      obtain ⟨⟨next, regs, slice⟩, started, outcome⟩ := Option.bind_eq_some_iff.mp returned
      dsimp only at outcome
      split at outcome
      next found =>
        obtain rfl := Option.some.inj outcome
        obtain ⟨i, member, taken⟩ := found
        have bound := List.mem_range.mp member
        exact SchedulerStep.switched frame next regs slice started
          ⟨i, by omega, by unfold MAX_PROC; omega, taken⟩
      next nothing =>
        obtain rfl := Option.some.inj outcome
        refine SchedulerStep.idle frame next regs slice started ?_
        intro i taken
        obtain ⟨low, high, pid⟩ := taken
        unfold MAX_PROC at high
        refine nothing ⟨i.toNat, List.mem_range.mpr (by omega), ?_⟩
        rwa [Int.toNat_of_nonneg low]

/-! What the operations do to the table a traced state sees. -/

theorem init_list_slot (s : Scheduler) (n : Nat) (j : Int) (inside : 0 ≤ j) (filled : j < n) :
    ((initProcessList s n).procArr j).pid = NO_PROC := by
  induction n with
  | zero => omega
  | succ n ih =>
      simp only [initProcessList]
      by_cases last : j = n
      · rw [last, set_slot_same]
      · rw [set_slot_other _ _ _ _ last]
        exact ih (by omega)

theorem init_list_rest (s : Scheduler) (n : Nat) :
    (initProcessList s n).schedulerActive = s.schedulerActive ∧
      (initProcessList s n).isFirstRun = s.isFirstRun := by
  induction n with
  | zero => exact ⟨rfl, rfl⟩
  | succ n ih => exact ih

theorem started_traceable (c : Traced) (started : Started c) : Traceable c := by
  obtain ⟨s, kernelDirectory, kernelFunc, stack, active, firstRun, rfl⟩ := started
  have rest := init_list_rest s 32
  have only : ∀ i, (initScheduler s kernelDirectory kernelFunc stack).Taken i → i = 0 := by
    intro i taken
    by_contra other
    apply taken.2.2
    simp only [initScheduler]
    rw [set_slot_other _ _ _ _ other]
    exact init_list_slot s 32 i taken.1 taken.2.1
  refine ⟨rest.1.trans active, ⟨Int.le_refl 0, (by decide : (0 : Int) < MAX_PROC)⟩, ?_, ?_, ?_, ?_, ?_, ?_⟩
  · exact iff_of_true rfl (rest.2.trans firstRun)
  · intro i taken
    obtain rfl := only i taken
    exact ⟨rfl, rfl⟩
  · intro i _
    exact Nat.zero_lt_one
  · intro i j first second _
    rw [only i first, only j second]
  · intro number running
    simp at running
  · apply contexts_kept_cons_added
    intro leaving frame entering delivered directory earlier suffix
    simp at suffix

section Steps
variable (c : Traced) (traceable : Traceable c)
include traceable

theorem added_traceable (proc : Process) (next : Scheduler) (slot : Int)
    (returned : addProcess c.sched proc = (next, slot)) (found : slot ≠ -1) :
    Traceable ⟨next, fun i => if i = slot then c.history.length else c.owner i, c.running,
      SchedulerEvent.added c.history.length proc :: c.history⟩ := by
  rcases add_process_result c.sched proc with ⟨full, _⟩ | ⟨free, low, high, empty, below, done⟩
  · rw [full] at returned
    exact absurd (Prod.mk.inj returned).2.symm found
  rw [done] at returned
  obtain ⟨rfl, rfl⟩ := Prod.mk.inj returned
  have others : ∀ i, i ≠ free → ((c.sched.setSlot free { proc with pid := BitVec.ofInt 32 free }).Taken i
      ↔ c.sched.Taken i) := by
    intro i different
    unfold Scheduler.Taken
    rw [set_slot_other _ _ _ _ different]
  have older : ∀ i, c.sched.Taken i → ¬ c.history.length = c.owner i := by
    intro i taken
    have := traceable.numbered i taken
    omega
  refine ⟨traceable.active, traceable.inside, traceable.first, ?_, ?_, ?_, ?_, ?_⟩
  · intro i taken
    by_cases here : i = free
    · subst here
      simp [expectedRegs, directoryOf]
    · have before := (others i here).mp taken
      have regs := traceable.saved i before
      simp only [here, if_false, expectedRegs, directoryOf, older i before, set_slot_other _ _ _ _ here]
      exact regs
  · intro i taken
    by_cases here : i = free
    · simp [here]
    · have := traceable.numbered i ((others i here).mp taken)
      simp only [here, if_false, List.length_cons]
      omega
  · intro i j first second same
    by_cases here : i = free <;> by_cases there : j = free
    · rw [here, there]
    · simp only [here, there, if_true, if_false] at same
      exact absurd same (older j ((others j there).mp second))
    · simp only [here, there, if_true, if_false] at same
      exact absurd same.symm (older i ((others i here).mp first))
    · simp only [here, there, if_false] at same
      exact traceable.distinct i j ((others i here).mp first) ((others j there).mp second) same
  · intro number running
    obtain ⟨earlier, unique⟩ := traceable.current number running
    refine ⟨by simp only [List.length_cons]; omega, fun i taken same => ?_⟩
    -- the new instance has a number of its own
    by_cases here : i = free
    · simp only [here, if_true] at same
      omega
    · simp only [here, if_false] at same
      exact unique i ((others i here).mp taken) same
  · exact contexts_kept_cons_added _ _ _ traceable.contexts

theorem removed_traceable (proc : Process) :
    Traceable { c with sched := removeProcess c.sched proc } := by
  obtain ⟨current, active, first⟩ := remove_process_rest c.sched proc
  have before : ∀ i, (removeProcess c.sched proc).Taken i → c.sched.Taken i ∧
      (removeProcess c.sched proc).procArr i = c.sched.procArr i := by
    intro i taken
    have slot := remove_process_slot c.sched proc i
    split at slot
    · exact absurd (by rw [slot]) taken.2.2
    · exact ⟨⟨taken.1, taken.2.1, slot ▸ taken.2.2⟩, slot⟩
  generalize removeProcess c.sched proc = next at *
  refine ⟨active.trans traceable.active, current ▸ traceable.inside, first ▸ traceable.first,
    ?_, ?_, ?_, ?_, traceable.contexts⟩
  · intro i taken
    dsimp only
    rw [(before i taken).2]
    exact traceable.saved i (before i taken).1
  · exact fun i taken => traceable.numbered i (before i taken).1
  · exact fun i j first second => traceable.distinct i j (before i first).1 (before j second).1
  · intro number running
    obtain ⟨earlier, unique⟩ := traceable.current number running
    dsimp only
    rw [current]
    exact ⟨earlier, fun i taken => unique i (before i taken).1⟩

/-- A dispatch saves the frame with the running instance, or in a free slot if
that has been removed. -/
theorem dispatch_traceable (frame : Regs) (slot : Int) (taken : c.sched.Taken slot)
    (kept : SlotKept c (SchedulerCall.startNextProcess frame)) :
    Traceable ⟨(dispatch c.sched slot frame).1, c.owner, some (c.owner slot),
      SchedulerEvent.switched c.running frame (c.owner slot) (dispatch c.sched slot frame).2
        (dispatch c.sched slot frame).1.currentDirectory :: c.history⟩ := by
  have same : ∀ i, (dispatch c.sched slot frame).1.Taken i ↔ c.sched.Taken i := by
    intro i
    unfold dispatch Scheduler.Taken
    split
    · rfl
    · by_cases here : i = c.sched.curProcIndex
      · simp [here]
      · simp [here]
  have directories : ∀ i, ((dispatch c.sched slot frame).1.procArr i).pageDirectory =
      (c.sched.procArr i).pageDirectory := by
    intro i
    unfold dispatch
    split
    · rfl
    · by_cases here : i = c.sched.curProcIndex
      · simp [here]
      · simp [here]
  -- what is expected of an instance in the table after the frame is saved
  have saved : ∀ i delivered directory, c.sched.Taken i →
      expectedRegs (c.owner i) (SchedulerEvent.switched c.running frame (c.owner slot) delivered
        directory :: c.history) = some ((dispatch c.sched slot frame).1.procArr i).lastStateRegs := by
    intro i delivered directory present
    have before := (traceable.saved i present).1
    cases status : c.running with
    | none =>
        have firstRun := traceable.first.mp status
        simp only [expectedRegs, reduceCtorEq, if_false, dispatch, firstRun, if_true]
        exact before
    | some number =>
        have firstRun : c.sched.isFirstRun = false := by
          by_contra first
          rw [traceable.first.mpr (by simpa using first)] at status
          simp at status
        have owns := kept number status
        obtain ⟨_, unique⟩ := traceable.current number status
        simp only [expectedRegs, Option.some.injEq, dispatch, firstRun, Bool.false_eq_true, if_false]
        by_cases here : i = c.sched.curProcIndex
        · subst here
          rw [if_pos (owns present).symm, set_slot_same]
        · rw [if_neg fun equal => here (unique i present equal.symm), set_slot_other _ _ _ _ here]
          exact before
  refine ⟨?_, ⟨taken.1, taken.2.1⟩, ?_, ?_, ?_, ?_, ?_, ?_⟩
  · unfold dispatch
    split <;> exact traceable.active
  · simp only [reduceCtorEq, false_iff]
    unfold dispatch
    split
    · simp
    next notFirst => exact notFirst
  · intro i present
    have earlier := (same i).mp present
    refine ⟨saved i _ _ earlier, ?_⟩
    dsimp only
    rw [directoryOf, directories]
    exact (traceable.saved i earlier).2
  · intro i present
    have := traceable.numbered i ((same i).mp present)
    simp only [List.length_cons]
    omega
  · exact fun i j first second => traceable.distinct i j ((same i).mp first) ((same j).mp second)
  · intro number running
    have number_eq := Option.some.inj running
    subst number_eq
    refine ⟨?_, fun i present equal => ?_⟩
    · have := traceable.numbered slot taken
      simp only [List.length_cons]
      omega
    · exact traceable.distinct i slot ((same i).mp present) taken equal
  · apply contexts_kept_cons_switched _ _ _ _ _ _ traceable.contexts
    · exact saved slot _ _ taken
    · rw [(traceable.saved slot taken).2, ← directories slot]
      rfl

theorem step_traceable (call : SchedulerCall) (after : Traced) (kept : SlotKept c call)
    (step : SchedulerStep c call after) : Traceable after := by
  cases step with
  | added proc next slot returned found =>
      exact added_traceable c traceable proc next slot returned found
  | full proc next returned =>
      rcases add_process_result c.sched proc with ⟨full, _⟩ | ⟨slot, low, _, _, _, done⟩
      · rw [full] at returned
        obtain ⟨rfl, _⟩ := Prod.mk.inj returned
        exact traceable
      · rw [done] at returned
        have := (Prod.mk.inj returned).2
        omega
  | removed proc => exact removed_traceable c traceable proc
  | switched frame next regs slice returned some_process =>
      rcases start_next_process_result c.sched frame traceable.inside.1 traceable.inside.2
        traceable.active with ⟨d, _, _, taken, _, done⟩ | ⟨nothing, _⟩
      · rw [done] at returned
        simp only [Option.some.injEq, Prod.mk.injEq] at returned
        obtain ⟨rfl, rfl, _⟩ := returned
        exact dispatch_traceable c traceable frame (c.sched.slotBehind d) taken kept
      · obtain ⟨i, taken⟩ := some_process
        exact absurd taken (nothing i)
  | idle frame next regs slice returned no_process =>
      rcases start_next_process_result c.sched frame traceable.inside.1 traceable.inside.2
        traceable.active with ⟨d, _, _, taken, _, _⟩ | ⟨_, done⟩
      · exact absurd taken (no_process _)
      · rw [done] at returned
        simp only [Option.some.injEq, Prod.mk.injEq] at returned
        obtain ⟨rfl, _, _⟩ := returned
        exact traceable

end Steps

/-- The steps of a run in which no frame is saved with another instance. -/
def SlotKeptStep (c after : Traced) : Prop := ∃ call, SlotKept c call ∧ SchedulerStep c call after

/-- Every switch delivers to the instance it enters what the last switch away
from it saved, or its initial registers, and its own directory. -/
theorem contexts_kept (c : Traced) (reached : Reached Started SlotKeptStep c) :
    ContextsKept c.history := by
  have traceable : Traceable c := by
    apply reached_invariant _ started_traceable _ c reached
    rintro c after holds ⟨call, kept, step⟩
    exact step_traceable c holds call after kept step
  exact traceable.contexts

/-! A table of two processes, and the run that reuses the running one's slot. -/

def bareScheduler : Scheduler :=
  { procArr := fun _ => default, curProcIndex := -1, schedulerActive := true, isFirstRun := true,
    currentDirectory := 0#32 }

def bareTrace : Traced :=
  ⟨initScheduler bareScheduler 0x5000#32 0x100#32 0x6000#32, fun _ => 0, none,
    [SchedulerEvent.added 0 ((initScheduler bareScheduler 0x5000#32 0x100#32 0x6000#32).procArr 0)]⟩

theorem bare_trace_started : Started bareTrace :=
  ⟨bareScheduler, 0x5000#32, 0x100#32, 0x6000#32, rfl, rfl, rfl⟩

def procOf (eip : Word) : Process :=
  { (default : Process) with
    pageDirectory := 0x7000#32, lastStateRegs := { (default : Regs) with eip := eip } }

def frameOf (eip : Word) : Regs := { (default : Regs) with eip := eip }

def lastDelivered : List SchedulerEvent → Option (Nat × Regs)
  | .switched _ _ entering delivered _ :: _ => some (entering, delivered)
  | _ => none

/-- The slot of the process dispatched last is freed, filled and freed again before
the next switch. -/
theorem contexts_kept_two : ∃ c : Traced, lastDelivered c.history = some (1, frameOf 0x300#32) ∧
    ContextsKept c.history := by
  have run : (follow (fun c call => if SlotKept c call then traceCall c call else none) bareTrace
      [SchedulerCall.addProcess (procOf 0x100#32), SchedulerCall.startNextProcess (frameOf 1#32),
        SchedulerCall.addProcess (procOf 0x200#32), SchedulerCall.startNextProcess (frameOf 0x300#32),
        SchedulerCall.removeProcess { (default : Process) with pid := 2#32 },
        SchedulerCall.addProcess (procOf 0x500#32),
        SchedulerCall.removeProcess { (default : Process) with pid := 2#32 },
        SchedulerCall.startNextProcess (frameOf 0x400#32),
        SchedulerCall.startNextProcess (frameOf 0x600#32)]).map (fun c => lastDelivered c.history) =
      some (some (1, frameOf 0x300#32)) := by
    decide +kernel
  obtain ⟨c, returned, shape⟩ := Option.map_eq_some_iff.mp run
  refine ⟨c, shape, contexts_kept c (follow_reached _ _ (fun s after call _ step => ?_) bareTrace c
    (Reached.start bare_trace_started) returned)⟩
  obtain ⟨kept, moved⟩ := Option.ite_none_right_eq_some.mp step
  exact ⟨call, kept, trace_call_step s after call moved⟩

/-- A process is added in the slot of the running one, which has been removed:
the next switch saves the frame of the removed process in its place, and the new
process is entered with it. -/
theorem context_lost : ∃ c : Traced,
    Reached Started (fun c after => ∃ call, SchedulerStep c call after) c ∧
      ¬ ContextsKept c.history := by
  have run : (follow traceCall bareTrace [SchedulerCall.addProcess (procOf 0x100#32),
      SchedulerCall.startNextProcess (frameOf 1#32),
      SchedulerCall.removeProcess { (default : Process) with pid := 1#32 },
      SchedulerCall.addProcess (procOf 0x200#32),
      SchedulerCall.startNextProcess (frameOf 0x300#32),
      SchedulerCall.startNextProcess (frameOf 0x400#32)]).map
      (fun c => (lastDelivered c.history, expectedRegs 3 c.history)) =
      some (some (3, frameOf 0x300#32), some (frameOf 0x200#32)) := by
    decide +kernel
  obtain ⟨c, returned, shape⟩ := Option.map_eq_some_iff.mp run
  simp only [Prod.mk.injEq] at shape
  refine ⟨c, follow_reached traceCall _ (fun s after call _ step =>
    ⟨call, trace_call_step s after call step⟩) bareTrace c (Reached.start bare_trace_started)
    returned, ?_⟩
  intro kept
  cases newest : c.history with
  | nil => simp [newest, lastDelivered] at shape
  | cons event earlier =>
      rw [newest] at shape kept
      cases event with
      | added number proc => simp [lastDelivered] at shape
      | switched leaving frame entering delivered directory =>
          obtain ⟨last, expected⟩ := shape
          simp only [lastDelivered, Option.some.injEq, Prod.mk.injEq] at last
          obtain ⟨rfl, rfl⟩ := last
          have same := (kept _ _ _ _ _ _ (List.suffix_refl _)).1
          rw [expected] at same
          exact absurd same (by decide)

end GargOS
