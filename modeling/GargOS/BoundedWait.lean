import GargOS.Irq
import GargOS.RoundRobin
import GargOS.Lib.Countdown

/-!
How long a process waits. Whatever is added, removed or set in the meantime, a
process that stays in the table runs again before a bounded number of ticks.
-/

namespace GargOS
open ByteMemory Runs CyclicOrder Countdown

/-- The ticks of the longest slice, 100 ms at the highest frequency. -/
def longestSlice : Nat := 18

/-- The slots from the current one to `i`; all of them if that is the current one. -/
def slotsTo (c : Clocked) (i : Int) : Nat := (distance MAX_PROC c.sched.curProcIndex i).toNat

def waitBound (c : Clocked) (i : Int) : Nat := longestSlice * slotsTo c i - c.timer.timerTicks.toNat

def KeepsSlot (i : Int) (c : Clocked) : ClockCall → Prop
  | .removeProcess proc => (c.sched.procArr i).pid ≠ proc.pid
  | .initScheduler _ _ _ => False
  | _ => True

instance (i : Int) (c : Clocked) : (call : ClockCall) → Decidable (KeepsSlot i c call)
  | .tick _ => inferInstanceAs (Decidable True)
  | .setTimerFreq _ => inferInstanceAs (Decidable True)
  | .initScheduler _ _ _ => inferInstanceAs (Decidable False)
  | .activate => inferInstanceAs (Decidable True)
  | .addProcess _ => inferInstanceAs (Decidable True)
  | .removeProcess _ => inferInstanceAs (Decidable (_ ≠ _))

def ClockCall.isTick : ClockCall → Bool
  | .tick _ => true
  | _ => false

def Dispatches (i : Int) (c : Clocked) (call : ClockCall) (after : Clocked) : Prop :=
  ∃ r regs slice, call = .tick r ∧ timerHandler c.timer c.sched r = some (after.timer, after.sched, regs) ∧
    Dispatched c.sched r i after.sched regs slice

structure Waiting (i : Int) (c : Clocked) : Prop where
  clock : ClockInvariant c
  slot : SlotInside c
  initialised : c.initialised = true
  active : c.sched.schedulerActive = true
  taken : c.sched.Taken i

theorem slice_ticks_longest (c : Clocked) (clock : ClockInvariant c) : sliceTicks c.timer ≤ longestSlice :=
  Nat.div_le_div_right (Nat.mul_le_mul clock.short clock.accepted)

theorem ticks_below_longest (c : Clocked) (clock : ClockInvariant c) (initialised : c.initialised = true) :
    c.timer.timerTicks.toNat < longestSlice := by
  have within := clock.within initialised
  have longest := slice_ticks_longest c clock
  unfold WithinSlice longestSlice at *
  omega

section Steps
variable (i : Int) (c : Clocked) (waiting : Waiting i c)
include waiting

theorem slots_to_bounds : 0 < distance MAX_PROC c.sched.curProcIndex i ∧ 1 ≤ slotsTo c i ∧
    slotsTo c i ≤ 32 := by
  have taken := waiting.taken
  obtain ⟨positive, round, _⟩ := distance_place MAX_PROC c.sched.curProcIndex i ⟨taken.1, taken.2.1⟩
  unfold slotsTo MAX_PROC at *
  omega

theorem wait_bound_bounds : 1 ≤ waitBound c i ∧ waitBound c i ≤ 576 := by
  obtain ⟨_, few, many⟩ := slots_to_bounds i c waiting
  have below := ticks_below_longest c waiting.clock waiting.initialised
  unfold waitBound longestSlice at *
  omega

theorem rests_waiting (call : ClockCall) (after : Clocked) (safe : SliceSafe c call)
    (returned : clockCall c call = some after) (initialised : after.initialised = c.initialised)
    (active : after.sched.schedulerActive = true) (current : after.sched.curProcIndex = c.sched.curProcIndex)
    (pid : (after.sched.procArr i).pid = (c.sched.procArr i).pid)
    (ticks : after.timer.timerTicks = c.timer.timerTicks) :
    Waiting i after ∧ waitBound after i = waitBound c i := by
  have taken := waiting.taken
  refine ⟨⟨clock_step_invariant c after call waiting.clock safe returned,
    clock_step_inside c after waiting.slot ⟨call, returned⟩, initialised.trans waiting.initialised, active,
    taken.1, taken.2.1, ?_⟩, ?_⟩
  · rw [pid]
    exact taken.2.2
  · unfold waitBound slotsTo
    rw [current, ticks]

/-- The switch at the end of a slice: the process is dispatched, or the current
slot is nearer to it. -/
theorem switch_nearer (r : Regs) (sched : Scheduler) (regs : Regs) (slice : Word)
    (started : startNextProcess c.sched r = some (sched, regs, slice)) :
    sched.schedulerActive = true ∧ (sched.procArr i).pid = (c.sched.procArr i).pid ∧
      (Dispatched c.sched r i sched regs slice ∨
        1 ≤ distance MAX_PROC sched.curProcIndex i ∧
          distance MAX_PROC sched.curProcIndex i + 1 ≤ distance MAX_PROC c.sched.curProcIndex i) := by
  have taken := waiting.taken
  have inside : 0 ≤ i ∧ i < MAX_PROC := ⟨taken.1, taken.2.1⟩
  have member := (mem_live_slots c.sched i).mpr taken
  obtain ⟨low, high⟩ := waiting.slot.inside waiting.initialised
  have active := (start_next_inside c.sched r sched regs slice (fun _ => ⟨low, high⟩) started).1
  rcases start_next_process_next c.sched r low high waiting.active with
    ⟨d, next, regs', slice', done, first, result⟩ | ⟨empty, _⟩
  · rw [started] at done
    simp only [Option.some.injEq, Prod.mk.injEq] at done
    obtain ⟨rfl, rfl, rfl⟩ := done
    refine ⟨active.trans waiting.active, ?_, ?_⟩
    · rw [result.table]
      split <;> rfl
    · have near := next_within MAX_PROC c.sched.curProcIndex i inside (liveSlots c.sched) d first member
      rcases Int.lt_or_eq_of_le near with short | here
      · have moved := distance_moved MAX_PROC c.sched.curProcIndex i inside d first.positive short
        have positive := first.positive
        rw [result.current]
        exact Or.inr ⟨by omega, by omega⟩
      · obtain ⟨_, _, arrives⟩ := distance_place MAX_PROC c.sched.curProcIndex i inside
        rw [here, arrives] at result
        exact Or.inl result
  · rw [empty] at member
    simp at member

theorem tick_waiting (r : Regs) (after : Clocked) (safe : SliceSafe c (.tick r))
    (returned : clockCall c (.tick r) = some after) :
    Waiting i after ∧ (Dispatches i c (.tick r) after ∨ waitBound after i + 1 ≤ waitBound c i) := by
  have clock := clock_step_invariant c after _ waiting.clock safe returned
  have slot := clock_step_inside c after waiting.slot ⟨_, returned⟩
  have taken := waiting.taken
  have below := ticks_below_longest c waiting.clock waiting.initialised
  obtain ⟨_, few, _⟩ := slots_to_bounds i c waiting
  obtain ⟨⟨timer, sched, regs⟩, handled, same⟩ := Option.bind_eq_some_iff.mp returned
  obtain rfl := Option.some.inj same
  rcases timer_handler_cases c.timer c.sched r timer sched regs handled with
    ⟨_, slice, started, rfl⟩ | ⟨_, rfl, rfl, _⟩
  · obtain ⟨active, pid, progress⟩ := switch_nearer i c waiting r sched regs slice started
    refine ⟨⟨clock, slot, waiting.initialised, active, taken.1, taken.2.1, ?_⟩, ?_⟩
    · dsimp only
      rw [pid]
      exact taken.2.2
    · rcases progress with here | ⟨some, nearer⟩
      · exact Or.inl ⟨r, regs, slice, rfl, handled, here⟩
      · right
        -- a whole slice is left for each slot that is still to come
        have fresh : ({ c with timer := ⟨0#32, c.timer.freq, slice⟩, sched := sched } :
          Clocked).timer.timerTicks.toNat = 0 := rfl
        unfold waitBound slotsTo longestSlice at *
        rw [fresh]
        dsimp only at *
        omega
  · have next := ticks_below_longest _ clock waiting.initialised
    refine ⟨⟨clock, slot, waiting.initialised, waiting.active, taken⟩, Or.inr ?_⟩
    have counted : (c.timer.timerTicks + 1#32).toNat = c.timer.timerTicks.toNat + 1 := by
      unfold longestSlice at below
      bv_omega
    have slots : slotsTo { c with timer := { c.timer with timerTicks := c.timer.timerTicks + 1#32 } } i =
      slotsTo c i := rfl
    unfold waitBound longestSlice at *
    rw [slots]
    dsimp only at *
    omega

theorem call_waiting (call : ClockCall) (after : Clocked) (safe : SliceSafe c call)
    (keeps : KeepsSlot i c call) (returned : clockCall c call = some after) :
    Waiting i after ∧ (Dispatches i c call after ∨
      waitBound after i + (if call.isTick then 1 else 0) ≤ waitBound c i) := by
  have taken := waiting.taken
  have rests := rests_waiting i c waiting call after safe returned
  cases call with
  | tick r => exact tick_waiting i c waiting r after safe returned
  | initScheduler kernelDirectory kernelFunc stack => exact absurd keeps id
  | setTimerFreq hz =>
      obtain ⟨⟨timer, outputs⟩, set, same⟩ := Option.bind_eq_some_iff.mp returned
      obtain rfl := Option.some.inj same
      have ticks : timer.timerTicks = c.timer.timerTicks := by
        unfold setTimerFreq at set
        split at set
        · rw [← (Prod.mk.inj (Option.some.inj set)).1]
        · split at set
          · simp at set
          · rw [← (Prod.mk.inj (Option.some.inj set)).1]
      obtain ⟨still, same⟩ := rests rfl waiting.active rfl rfl ticks
      exact ⟨still, Or.inr (Nat.le_of_eq same)⟩
  | activate =>
      rw [clockCall, if_pos waiting.initialised] at returned
      obtain rfl := Option.some.inj returned
      obtain ⟨still, same⟩ := rests rfl rfl rfl rfl rfl
      exact ⟨still, Or.inr (Nat.le_of_eq same)⟩
  | addProcess proc =>
      obtain rfl := Option.some.inj returned
      -- the slot that is filled was free
      have pid : ((addProcess c.sched proc).1.procArr i).pid = (c.sched.procArr i).pid ∧
          (addProcess c.sched proc).1.curProcIndex = c.sched.curProcIndex ∧
          (addProcess c.sched proc).1.schedulerActive = c.sched.schedulerActive := by
        rcases add_process_result c.sched proc with ⟨full, _⟩ | ⟨slot, _, _, free, _, done⟩
        · rw [full]
          exact ⟨rfl, rfl, rfl⟩
        · have other : i ≠ slot := fun same => free (same ▸ taken)
          rw [done, set_slot_other _ _ _ _ other]
          exact ⟨rfl, rfl, rfl⟩
      obtain ⟨still, same⟩ := rests rfl (pid.2.2.trans waiting.active) pid.2.1 pid.1 rfl
      exact ⟨still, Or.inr (Nat.le_of_eq same)⟩
  | removeProcess proc =>
      obtain rfl := Option.some.inj returned
      obtain ⟨current, active, _⟩ := remove_process_rest c.sched proc
      have stays : ((removeProcess c.sched proc).procArr i).pid = (c.sched.procArr i).pid := by
        rw [remove_process_slot, if_neg fun all => keeps all.2.2]
      generalize removeProcess c.sched proc = next at *
      obtain ⟨still, same⟩ := rests rfl (active.trans waiting.active) current stays rfl
      exact ⟨still, Or.inr (Nat.le_of_eq same)⟩

theorem tick_returns (r : Regs) : ∃ after, clockCall c (.tick r) = some after := by
  obtain ⟨timer, sched, left, handled, _⟩ := timer_handler_left c () r fun _ =>
    waiting.slot.inside waiting.initialised
  refine ⟨{ c with timer := timer, sched := sched }, ?_⟩
  simp only [clockCall, handled, Option.bind_eq_bind, Option.bind_some]

end Steps

theorem waiting_start (c : Clocked) (reached : Reached Booted SliceSafeStep c)
    (initialised : c.initialised = true) (active : c.sched.schedulerActive = true) (i : Int)
    (taken : c.sched.Taken i) : Waiting i c := by
  have clock : ClockInvariant c := by
    apply reached_invariant _ _ _ c reached
    · rintro c ⟨timer, _, notYet⟩
      refine ⟨by rw [timer]; decide, by rw [timer]; decide, fun later => ?_⟩
      rw [notYet] at later
      simp at later
    · rintro c after holds ⟨call, safe, step⟩
      exact clock_step_invariant c after call holds safe step
  have inside := clock_run_inside c
    (reached_mono (fun _ booted => booted) (fun _ _ ⟨call, _, step⟩ => ⟨call, step⟩) c reached) active
  exact ⟨clock, ⟨fun _ => inside, fun _ => initialised⟩, initialised, active, taken⟩

/-- A process that stays in the table is dispatched before the ticks of its
bound have come, and there is always a next tick. -/
theorem bounded_wait (c : Clocked) (reached : Reached Booted SliceSafeStep c)
    (initialised : c.initialised = true) (active : c.sched.schedulerActive = true) (i : Int)
    (taken : c.sched.Taken i) (calls : List ClockCall) (after : Clocked)
    (keeps : Throughout clockCall (fun c call => SliceSafe c call ∧ KeepsSlot i c call) c calls)
    (returned : follow clockCall c calls = some after) :
    waitBound c i ≤ 576 ∧ (waitBound c i ≤ calls.countP ClockCall.isTick →
      Occurs clockCall (Dispatches i) c calls) ∧ ∀ r, ∃ next, clockCall after (.tick r) = some next := by
  have waiting := waiting_start c reached initialised active i taken
  have bounds := wait_bound_bounds i c waiting
  obtain ⟨ends, occurs⟩ := occurs_within clockCall (Dispatches i) (Waiting i)
    (fun c call => SliceSafe c call ∧ KeepsSlot i c call) ClockCall.isTick (fun c => waitBound c i - 1) calls
    (fun c after call waiting ok moved => by
      obtain ⟨still, progress⟩ := call_waiting i c waiting call after ok.1 ok.2 moved
      refine ⟨still, progress.imp_right fun less => ?_⟩
      have positive := (wait_bound_bounds i after still).1
      omega)
    c after waiting keeps returned
  exact ⟨bounds.2, fun enough => occurs (by omega), tick_returns i after ends⟩

def waitingStart : List ClockCall :=
  [ClockCall.setTimerFreq 100#32, ClockCall.initScheduler 0x5000#32 0x100#32 0x6000#32,
    ClockCall.addProcess default, ClockCall.activate]

def waitingCalls : List ClockCall :=
  List.replicate 2 (ClockCall.tick default) ++ [ClockCall.addProcess default] ++
    List.replicate 9 (ClockCall.tick default) ++
    [ClockCall.removeProcess { (default : Process) with pid := 2#32 }] ++
    List.replicate 7 (ClockCall.tick default)

/-- The calls are safe and keep the slot, as a function of the state they begin in. -/
def checkedCall (i : Int) (c : Clocked) (call : ClockCall) : Option Clocked :=
  if SliceSafe c call ∧ KeepsSlot i c call then clockCall c call else none

theorem checked_throughout (i : Int) (calls : List ClockCall) (c after : Clocked)
    (returned : follow (checkedCall i) c calls = some after) :
    Throughout clockCall (fun c call => SliceSafe c call ∧ KeepsSlot i c call) c calls ∧
      follow clockCall c calls = some after := by
  induction calls generalizing c with
  | nil => exact ⟨trivial, returned⟩
  | cons call rest ih =>
      obtain ⟨middle, moved, later⟩ := Option.bind_eq_some_iff.mp returned
      unfold checkedCall at moved
      split at moved
      next ok =>
        obtain ⟨throughout, run⟩ := ih middle later
        refine ⟨⟨ok, fun next movedToo => ?_⟩, ?_⟩
        · rw [moved] at movedToo
          exact Option.some.inj movedToo ▸ throughout
        · rw [follow, moved]
          exact run
      next => simp at moved

theorem bounded_wait_second : ∃ c, c.sched.curProcIndex = 0 ∧
    Occurs clockCall (Dispatches 1) c waitingCalls := by
  have run : (follow (fun c call => if SliceSafe c call then clockCall c call else none) bootClock
      waitingStart).map (fun c => (c.initialised, c.sched.schedulerActive, c.sched.curProcIndex, c.timer.timerTicks,
        (c.sched.procArr 1).pid, (follow (checkedCall 1) c waitingCalls).isSome)) =
      some (true, true, 0, 0#32, 1#32, true) := by
    decide +kernel
  obtain ⟨c, begun, shape⟩ := Option.map_eq_some_iff.mp run
  simp only [Prod.mk.injEq] at shape
  obtain ⟨initialised, active, current, ticks, pid, goes⟩ := shape
  obtain ⟨after, returned⟩ := Option.isSome_iff_exists.mp goes
  obtain ⟨keeps, called⟩ := checked_throughout 1 waitingCalls c after returned
  have reached : Reached Booted SliceSafeStep c := by
    refine follow_reached _ _ ?_ bootClock c (Reached.start ⟨rfl, rfl, rfl⟩) begun
    intro s after call _ step
    split at step
    next safe => exact ⟨call, safe, step⟩
    next => simp at step
  have taken : c.sched.Taken 1 := by
    refine ⟨by decide, by decide, ?_⟩
    rw [pid]
    decide
  have bound : waitBound c 1 = 18 := by
    unfold waitBound slotsTo
    rw [current, ticks]
    decide
  exact ⟨c, current, (bounded_wait c reached initialised active 1 taken waitingCalls after keeps called).2.1
    (by rw [bound]; decide)⟩

end GargOS
