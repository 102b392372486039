import GargOS.Scheduler

/-!
timer.c with the scheduler it calls: the handler of the timer interrupt counts
ticks up to the current time slice, and starts the next process there.
-/

namespace GargOS
open ByteMemory Runs

structure Timer where
  timerTicks : Word
  freq : Word
  timeSliceMillis : Word

/-- The values the variables of timer.c are initialised with. -/
def bootTimer : Timer := ⟨0#32, 18#32, 0#32⟩

def setTimeSlice (t : Timer) (millis : Word) : Timer := { t with timeSliceMillis := millis }

/-- `set_timer_freq` with the bytes it sends to ports; it faults on 0. -/
def setTimerFreq (t : Timer) (hz : Word) : Option (Timer × List (Byte × Byte)) :=
  if hz > BitVec.ofNat 32 (11931080 / 65335) then some (t, [])
  else if hz = 0#32 then none
  else
    let divisor : BitVec 16 := (1193180#32 / hz).setWidth 16
    some ({ t with freq := hz }, [(0x43#8, 0x36#8), (0x40#8, (divisor &&& 0xFF#16).setWidth 8),
      (0x40#8, (divisor.sshiftRight 8).setWidth 8)])

def timerHandler (t : Timer) (s : Scheduler) (r : Regs) : Option (Timer × Scheduler × Regs) :=
  let t := { t with timerTicks := t.timerTicks + 1#32 }
  -- compared for equality: a count past the slice goes on until it wraps around
  if t.timerTicks = t.timeSliceMillis * t.freq / 1000#32 then do
    let (s, r, slice) ← startNextProcess s r
    some ({ setTimeSlice t slice with timerTicks := 0#32 }, s, r)
  else some (t, s, r)

structure Clocked where
  timer : Timer
  sched : Scheduler
  initialised : Bool

inductive ClockCall
  | tick (r : Regs)
  | setTimerFreq (hz : Word)
  | initScheduler (kernelDirectory kernelFunc stack : Word)
  | activate
  | addProcess (proc : Process)
  | removeProcess (proc : Process)

/-- The calls and interrupts of a run. The scheduler is made active only after
`init_scheduler`. -/
def clockCall (c : Clocked) : ClockCall → Option Clocked
  | .tick r => do
      let (timer, sched, _) ← timerHandler c.timer c.sched r
      some { c with timer := timer, sched := sched }
  | .setTimerFreq hz => do
      let (timer, _) ← setTimerFreq c.timer hz
      some { c with timer := timer }
  | .initScheduler kernelDirectory kernelFunc stack =>
      some ⟨setTimeSlice c.timer 40#32, initScheduler c.sched kernelDirectory kernelFunc stack, true⟩
  | .activate =>
      if c.initialised then some { c with sched := { c.sched with schedulerActive := true } }
      else none
  | .addProcess proc => some { c with sched := (addProcess c.sched proc).1 }
  | .removeProcess proc => some { c with sched := removeProcess c.sched proc }

def Booted (c : Clocked) : Prop :=
  c.timer = bootTimer ∧ c.sched.schedulerActive = false ∧ c.initialised = false

def sliceTicks (t : Timer) : Nat := t.timeSliceMillis.toNat * t.freq.toNat / 1000

def WithinSlice (t : Timer) : Prop := t.timerTicks.toNat < max 1 (sliceTicks t)

/-- What keeps the counter below the slice: few enough ticks when the first
slice is set, a slice of at least one tick whenever one is counted, and no
frequency that makes the slice shorter than the ticks already counted. -/
def SliceSafe (c : Clocked) : ClockCall → Prop
  | .tick _ => c.initialised = true → sliceTicks c.timer ≠ 0
  | .setTimerFreq hz => c.initialised = true → hz.toNat ≤ 182 →
      c.timer.timerTicks.toNat < max 1 (sliceTicks { c.timer with freq := hz })
  | .initScheduler _ _ _ =>
      c.timer.timerTicks.toNat < max 1 (sliceTicks (setTimeSlice c.timer 40#32))
  | _ => True

instance (c : Clocked) : (call : ClockCall) → Decidable (SliceSafe c call)
  | .tick _ => inferInstanceAs (Decidable (_ → _))
  | .setTimerFreq _ => inferInstanceAs (Decidable (_ → _ → _))
  | .initScheduler _ _ _ => inferInstanceAs (Decidable (_ < _))
  | .activate => inferInstanceAs (Decidable True)
  | .addProcess _ => inferInstanceAs (Decidable True)
  | .removeProcess _ => inferInstanceAs (Decidable True)

def SliceSafeStep (c after : Clocked) : Prop :=
  ∃ call, SliceSafe c call ∧ clockCall c call = some after

def SwitchesInTime (t : Timer) (s : Scheduler) : Prop :=
  ∀ r timer sched regs, timerHandler t s r = some (timer, sched, regs) →
    0 < sliceTicks t → sliceTicks t ≤ t.timerTicks.toNat + 1 →
    timer.timerTicks = 0#32 ∧ ∃ slice, startNextProcess s r = some (sched, regs, slice)

structure ClockInvariant (c : Clocked) : Prop where
  accepted : c.timer.freq.toNat ≤ 182
  short : c.timer.timeSliceMillis.toNat ≤ 100
  within : c.initialised = true → WithinSlice c.timer

theorem time_slice_short (priorityLevel : Byte) : (timeSlice priorityLevel).toNat ≤ 100 := by
  unfold timeSlice
  split
  · decide
  · split
    · decide
    · split
      · decide
      · split <;> decide

theorem start_next_slice (s : Scheduler) (r : Regs) (sched : Scheduler) (regs : Regs) (slice : Word)
    (returned : startNextProcess s r = some (sched, regs, slice)) : slice.toNat ≤ 100 := by
  unfold startNextProcess at returned
  split at returned
  · obtain ⟨⟨next, delivered⟩, _, same⟩ := Option.bind_eq_some_iff.mp returned
    simp only [Option.some.injEq, Prod.mk.injEq] at same
    rw [← same.2.2]
    exact time_slice_short _
  · simp only [Option.some.injEq, Prod.mk.injEq] at returned
    rw [← returned.2.2]
    decide

theorem slice_expression (t : Timer) (accepted : t.freq.toNat ≤ 182)
    (short : t.timeSliceMillis.toNat ≤ 100) :
    (t.timeSliceMillis * t.freq / 1000#32).toNat = sliceTicks t := by
  have product : t.timeSliceMillis.toNat * t.freq.toNat ≤ 100 * 182 := Nat.mul_le_mul short accepted
  rw [BitVec.toNat_udiv, BitVec.toNat_mul, Nat.mod_eq_of_lt (by omega)]
  rfl

/-- One interrupt: the tick is counted, or it is the last one and a switch
starts the count again. -/
theorem timer_handler_cases (t : Timer) (s : Scheduler) (r : Regs) (timer : Timer) (sched : Scheduler)
    (regs : Regs) (returned : timerHandler t s r = some (timer, sched, regs)) :
    (t.timerTicks + 1#32 = t.timeSliceMillis * t.freq / 1000#32 ∧ ∃ slice,
      startNextProcess s r = some (sched, regs, slice) ∧ timer = ⟨0#32, t.freq, slice⟩) ∨
    (t.timerTicks + 1#32 ≠ t.timeSliceMillis * t.freq / 1000#32 ∧
      timer = { t with timerTicks := t.timerTicks + 1#32 } ∧ sched = s ∧ regs = r) := by
  unfold timerHandler at returned
  dsimp only at returned
  split at returned
  next last =>
    obtain ⟨⟨next, delivered, slice⟩, started, same⟩ := Option.bind_eq_some_iff.mp returned
    simp only [Option.some.injEq, Prod.mk.injEq] at same
    obtain ⟨rfl, rfl, rfl⟩ := same
    exact Or.inl ⟨last, slice, started, rfl⟩
  next more =>
    simp only [Option.some.injEq, Prod.mk.injEq] at returned
    obtain ⟨rfl, rfl, rfl⟩ := returned
    exact Or.inr ⟨more, rfl, rfl, rfl⟩

theorem tick_invariant (c : Clocked) (r : Regs) (timer : Timer) (sched : Scheduler) (regs : Regs)
    (holds : ClockInvariant c) (safe : SliceSafe c (ClockCall.tick r))
    (returned : timerHandler c.timer c.sched r = some (timer, sched, regs)) :
    ClockInvariant { c with timer := timer, sched := sched } := by
  have target := slice_expression c.timer holds.accepted holds.short
  rcases timer_handler_cases c.timer c.sched r timer sched regs returned with
    ⟨_, slice, started, rfl⟩ | ⟨more, rfl, _, _⟩
  · refine ⟨holds.accepted, start_next_slice c.sched r sched regs slice started, fun _ => ?_⟩
    show (0#32 : Word).toNat < max 1 _
    exact Nat.lt_of_lt_of_le Nat.zero_lt_one (Nat.le_max_left _ _)
  · refine ⟨holds.accepted, holds.short, fun initialised => ?_⟩
    have before := holds.within initialised
    have positive := safe initialised
    -- the count was below the slice and has not reached it now
    have different : (c.timer.timerTicks + 1#32).toNat ≠ sliceTicks c.timer := by
      rw [← target]
      exact fun same => more (BitVec.eq_of_toNat_eq same)
    unfold WithinSlice at before ⊢
    have same : sliceTicks { c.timer with timerTicks := c.timer.timerTicks + 1#32 } =
        sliceTicks c.timer := rfl
    dsimp only
    rw [same]
    have bound : (c.timer.timerTicks + 1#32).toNat ≤ c.timer.timerTicks.toNat + 1 := by
      rw [BitVec.toNat_add]
      exact Nat.mod_le _ _
    omega

theorem clock_step_invariant (c after : Clocked) (call : ClockCall) (holds : ClockInvariant c)
    (safe : SliceSafe c call) (step : clockCall c call = some after) : ClockInvariant after := by
  cases call with
  | tick r =>
      obtain ⟨⟨timer, sched, regs⟩, handled, same⟩ := Option.bind_eq_some_iff.mp step
      obtain rfl := Option.some.inj same
      exact tick_invariant c r timer sched regs holds safe handled
  | setTimerFreq hz =>
      obtain ⟨⟨timer, outputs⟩, set, same⟩ := Option.bind_eq_some_iff.mp step
      obtain rfl := Option.some.inj same
      unfold setTimerFreq at set
      split at set
      · simp only [Option.some.injEq, Prod.mk.injEq] at set
        obtain ⟨rfl, _⟩ := set
        exact ⟨holds.accepted, holds.short, holds.within⟩
      next low =>
        split at set
        · simp at set
        · simp only [Option.some.injEq, Prod.mk.injEq] at set
          obtain ⟨rfl, _⟩ := set
          have accepted : hz.toNat ≤ 182 := by
            have limit : (BitVec.ofNat 32 (11931080 / 65335)).toNat = 182 := by decide
            rw [gt_iff_lt, BitVec.lt_def, limit] at low
            omega
          exact ⟨accepted, holds.short, fun initialised => safe initialised accepted⟩
  | initScheduler kernelDirectory kernelFunc stack =>
      obtain rfl := Option.some.inj step
      have short : (40#32 : Word).toNat ≤ 100 := by decide
      exact ⟨holds.accepted, short, fun _ => safe⟩
  | activate =>
      rw [clockCall] at step
      split at step
      · obtain rfl := Option.some.inj step
        exact ⟨holds.accepted, holds.short, holds.within⟩
      · simp at step
  | addProcess proc =>
      obtain rfl := Option.some.inj step
      exact ⟨holds.accepted, holds.short, holds.within⟩
  | removeProcess proc =>
      obtain rfl := Option.some.inj step
      exact ⟨holds.accepted, holds.short, holds.within⟩

/-- In every state from `init_scheduler` on the counter is below the slice, and
the handler switches when it would reach it. -/
theorem slice_kept (c : Clocked) (reached : Reached Booted SliceSafeStep c)
    (initialised : c.initialised = true) :
    WithinSlice c.timer ∧ SwitchesInTime c.timer c.sched := by
  have holds : ClockInvariant c := by
    apply reached_invariant _ _ _ c reached
    · rintro c ⟨timer, _, notYet⟩
      refine ⟨by rw [timer]; decide, by rw [timer]; decide, fun later => ?_⟩
      rw [notYet] at later
      simp at later
    · rintro c after holds ⟨call, safe, step⟩
      exact clock_step_invariant c after call holds safe step
  have within := holds.within initialised
  refine ⟨within, ?_⟩
  intro r timer sched regs returned positive reachedEnd
  have target := slice_expression c.timer holds.accepted holds.short
  have last : (c.timer.timerTicks + 1#32).toNat = sliceTicks c.timer := by
    unfold WithinSlice at within
    -- the slice is short enough for the count not to wrap around before it
    have small : sliceTicks c.timer ≤ 18200 / 1000 :=
      Nat.div_le_div_right (Nat.mul_le_mul holds.short holds.accepted)
    bv_omega
  rcases timer_handler_cases c.timer c.sched r timer sched regs returned with
    ⟨_, slice, started, rfl⟩ | ⟨more, _⟩
  · exact ⟨rfl, slice, started⟩
  · exact absurd (BitVec.eq_of_toNat_eq (last.trans target.symm)) more

def bootScheduler : Scheduler where
  procArr := fun _ => default
  curProcIndex := -1
  schedulerActive := false
  isFirstRun := true
  currentDirectory := 0#32

def bootClock : Clocked := ⟨bootTimer, bootScheduler, false⟩

theorem slice_kept_boot : ∃ c : Clocked, c.timer.timerTicks = 1#32 ∧
    c.timer.timeSliceMillis = 100#32 ∧ WithinSlice c.timer ∧ SwitchesInTime c.timer c.sched := by
  have run : (follow (fun c call => if SliceSafe c call then clockCall c call else none) bootClock
      [ClockCall.setTimerFreq 100#32, ClockCall.tick default,
        ClockCall.initScheduler 0x5000#32 0x100#32 0x6000#32, ClockCall.activate,
        ClockCall.tick default, ClockCall.tick default, ClockCall.tick default,
        ClockCall.tick default]).map
      (fun c => (c.timer.timerTicks, c.timer.timeSliceMillis, c.initialised)) =
      some (1#32, 100#32, true) := by
    decide +kernel
  obtain ⟨c, returned, shape⟩ := Option.map_eq_some_iff.mp run
  simp only [Prod.mk.injEq] at shape
  have reached : Reached Booted SliceSafeStep c := by
    refine follow_reached _ _ ?_ bootClock c (Reached.start ⟨rfl, rfl, rfl⟩) returned
    intro s after call _ step
    split at step
    next safe => exact ⟨call, safe, step⟩
    next => simp at step
  exact ⟨c, shape.1, shape.2.1, slice_kept c reached shape.2.2⟩

/-- Four ticks arrive before `init_scheduler`, whose slice is four ticks: the
counter is past the only value the handler compares with. -/
theorem slice_missed : ∃ c : Clocked,
    Reached Booted (fun c after => ∃ call, clockCall c call = some after) c ∧
      c.initialised = true ∧ ¬ WithinSlice c.timer := by
  have run : (follow clockCall bootClock
      [ClockCall.setTimerFreq 100#32, ClockCall.tick default, ClockCall.tick default,
        ClockCall.tick default, ClockCall.tick default,
        ClockCall.initScheduler 0x5000#32 0x100#32 0x6000#32]).map
      (fun c => (c.timer.timerTicks, c.timer.freq, c.timer.timeSliceMillis, c.initialised)) =
      some (4#32, 100#32, 40#32, true) := by
    decide +kernel
  obtain ⟨c, returned, shape⟩ := Option.map_eq_some_iff.mp run
  simp only [Prod.mk.injEq] at shape
  refine ⟨c, follow_reached _ _ (fun s after call _ step => ⟨call, step⟩) bootClock c
    (Reached.start ⟨rfl, rfl, rfl⟩) returned, shape.2.2.2, ?_⟩
  unfold WithinSlice sliceTicks
  rw [shape.1, shape.2.1, shape.2.2.1]
  decide

end GargOS
