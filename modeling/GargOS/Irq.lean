import GargOS.ContextSwitch
import GargOS.Keyboard

/-!
irq.c: the handler of the hardware interrupts, and which of the two interrupt
controllers it tells that the interrupt has been served.
-/

namespace GargOS
open ByteMemory Runs

/-- An entry of `irq_routines`: the timer's handler, or any other one that
returns, as a function of what it finds and of the frame. -/
inductive Routine (ρ : Type)
  | timerHandler
  | other (handler : Clocked × ρ → Regs → (Clocked × ρ) × Regs)

def Routine.call {ρ : Type} : Routine ρ → Clocked × ρ → Regs → Option ((Clocked × ρ) × Regs)
  | .timerHandler, (c, rest), r => do
      let (timer, sched, r) ← GargOS.timerHandler c.timer c.sched r
      some (({ c with timer := timer, sched := sched }, rest), r)
  | .other handler, m, r => some (handler m r)

def irqInstallHandler {ρ : Type} (irqRoutines : Word → Option (Routine ρ)) (irq : Byte)
    (handler : Routine ρ) : Word → Option (Routine ρ) :=
  fun i => if i = irq.setWidth 32 then some handler else irqRoutines i

/-- `irq_handler` with the bytes it sends to ports. -/
def irqHandler {ρ : Type} (irqRoutines : Word → Option (Routine ρ)) (m : Clocked × ρ) (r : Regs) :
    Option ((Clocked × ρ) × Regs × List (BitVec 16 × Byte)) := do
  let (m, r) ← match irqRoutines (r.intNo - 32#32) with
    | some handler => handler.call m r
    | none => some (m, r)
  -- what the handler has left in the frame decides
  let slave := if r.intNo ≥ 40#32 then [(0xA0#16, 0x20#8)] else []
  some (m, r, slave ++ [(0x20#16, 0x20#8)])

/-- `keyboard_handler` after it has read a scancode; it does not look at the frame. -/
def keyboardRoutine (scancode : Byte) : Routine Keyboard :=
  .other fun m r => ((m.1, (keyboardHandler m.2 scancode).1), r)

/-- One end of interrupt for the master, and one for the slave if it is the
slave's interrupt that is served. -/
def Acknowledges {ρ : Type} (irqRoutines : Word → Option (Routine ρ)) (m : Clocked × ρ) (r : Regs) : Prop :=
  ∃ after left sent, irqHandler irqRoutines m r = some (after, left, sent) ∧
    sent.count (0x20#16, 0x20#8) = 1 ∧
    sent.count (0xA0#16, 0x20#8) = if r.intNo ≥ 40#32 then 1 else 0

/-- The handler leaves a number in the frame that is of the same controller. For
the timer's this is about the process it switches to. -/
def KeepsSide {ρ : Type} (m : Clocked × ρ) (r : Regs) : Routine ρ → Prop
  | .timerHandler => m.1.timer.Due → m.1.sched.schedulerActive = true → ∀ i, m.1.sched.Next i →
      i ≠ m.1.sched.curProcIndex ∨ m.1.sched.isFirstRun = true →
      ((m.1.sched.procArr i).lastStateRegs.intNo ≥ 40#32 ↔ r.intNo ≥ 40#32)
  | .other handler => (handler m r).2.intNo ≥ 40#32 ↔ r.intNo ≥ 40#32

def ClockStep (c after : Clocked) : Prop := ∃ call, clockCall c call = some after

structure SlotInside (c : Clocked) : Prop where
  inside : c.initialised = true → 0 ≤ c.sched.curProcIndex ∧ c.sched.curProcIndex < MAX_PROC
  active : c.sched.schedulerActive = true → c.initialised = true

theorem start_next_inside (s : Scheduler) (r : Regs) (sched : Scheduler) (regs : Regs) (slice : Word)
    (inside : s.schedulerActive = true → 0 ≤ s.curProcIndex ∧ s.curProcIndex < MAX_PROC)
    (returned : startNextProcess s r = some (sched, regs, slice)) :
    sched.schedulerActive = s.schedulerActive ∧
      (sched.curProcIndex = s.curProcIndex ∨ 0 ≤ sched.curProcIndex ∧ sched.curProcIndex < MAX_PROC) := by
  by_cases active : s.schedulerActive = true
  · rcases start_next_process_result s r (inside active).1 (inside active).2 active with
      ⟨d, _, _, taken, _, done⟩ | ⟨_, done⟩
    · rw [done] at returned
      obtain ⟨rfl, _⟩ := Prod.mk.inj (Option.some.inj returned)
      refine ⟨?_, Or.inr ⟨taken.1, taken.2.1⟩⟩
      unfold dispatch
      split <;> rfl
    · rw [done] at returned
      obtain ⟨rfl, _⟩ := Prod.mk.inj (Option.some.inj returned)
      exact ⟨rfl, Or.inl rfl⟩
  · rw [startNextProcess, if_neg active] at returned
    obtain ⟨rfl, _⟩ := Prod.mk.inj (Option.some.inj returned)
    exact ⟨rfl, Or.inl rfl⟩

theorem clock_step_inside (c after : Clocked) (holds : SlotInside c) (step : ClockStep c after) :
    SlotInside after := by
  obtain ⟨call, returned⟩ := step
  cases call with
  | tick r =>
      obtain ⟨⟨timer, sched, regs⟩, handled, same⟩ := Option.bind_eq_some_iff.mp returned
      obtain rfl := Option.some.inj same
      rcases timer_handler_cases c.timer c.sched r timer sched regs handled with
        ⟨_, slice, started, _⟩ | ⟨_, _, rfl, _⟩
      · obtain ⟨active, slot⟩ := start_next_inside c.sched r sched regs slice
          (fun active => holds.inside (holds.active active)) started
        refine ⟨fun initialised => ?_, fun here => holds.active (active ▸ here)⟩
        rcases slot with same | inside
        · dsimp only
          rw [same]
          exact holds.inside initialised
        · exact inside
      · exact ⟨holds.inside, holds.active⟩
  | setTimerFreq hz =>
      obtain ⟨_, _, same⟩ := Option.bind_eq_some_iff.mp returned
      obtain rfl := Option.some.inj same
      exact ⟨holds.inside, holds.active⟩
  | initScheduler kernelDirectory kernelFunc stack =>
      obtain rfl := Option.some.inj returned
      exact ⟨fun _ => ⟨Int.le_refl 0, by show (0 : Int) < 32; omega⟩, fun _ => rfl⟩
  | activate =>
      rw [clockCall] at returned
      split at returned
      next initialised =>
        obtain rfl := Option.some.inj returned
        exact ⟨holds.inside, fun _ => initialised⟩
      next => simp at returned
  | addProcess proc =>
      obtain rfl := Option.some.inj returned
      rcases add_process_result c.sched proc with ⟨full, _⟩ | ⟨slot, _, _, _, _, done⟩
      · rw [full]
        exact ⟨holds.inside, holds.active⟩
      · rw [done]
        exact ⟨holds.inside, holds.active⟩
  | removeProcess proc =>
      obtain rfl := Option.some.inj returned
      obtain ⟨slot, active, _⟩ := remove_process_rest c.sched proc
      refine ⟨fun initialised => ?_, fun here => holds.active (active ▸ here)⟩
      dsimp only
      rw [slot]
      exact holds.inside initialised

theorem clock_run_inside (c : Clocked) (reached : Reached Booted ClockStep c)
    (active : c.sched.schedulerActive = true) :
    0 ≤ c.sched.curProcIndex ∧ c.sched.curProcIndex < MAX_PROC := by
  have holds : SlotInside c := by
    apply reached_invariant _ _ clock_step_inside c reached
    rintro c ⟨_, inactive, fresh⟩
    refine ⟨fun here => ?_, fun here => ?_⟩
    · rw [fresh] at here
      simp at here
    · rw [inactive] at here
      simp at here
  exact holds.inside (holds.active active)

theorem timer_handler_left {ρ : Type} (c : Clocked) (rest : ρ) (r : Regs)
    (inside : c.sched.schedulerActive = true →
      0 ≤ c.sched.curProcIndex ∧ c.sched.curProcIndex < MAX_PROC) :
    ∃ timer sched left, timerHandler c.timer c.sched r = some (timer, sched, left) ∧
      ((left.intNo ≥ 40#32 ↔ r.intNo ≥ 40#32) ↔ KeepsSide (c, rest) r Routine.timerHandler) := by
  by_cases due : c.timer.Due
  · have handled := fun sched regs slice => handler_due c.timer c.sched sched r regs slice due
    by_cases active : c.sched.schedulerActive = true
    · rcases start_next_process_result c.sched r (inside active).1 (inside active).2 active with
        ⟨d, positive, _, taken, skipped, done⟩ | ⟨nothing, done⟩
      · have next := next_unique c.sched d positive taken skipped
        refine ⟨_, _, _, handled _ _ _ done, ?_⟩
        rw [dispatch_regs]
        constructor
        · intro same _ _ i here switched
          rw [(next i).mp here] at switched ⊢
          rwa [if_pos switched] at same
        · intro keeps
          split
          next switched => exact keeps due active _ ((next _).mpr rfl) switched
          next => rfl
      · refine ⟨_, _, r, handled _ _ _ done, iff_of_true Iff.rfl ?_⟩
        rintro _ _ i ⟨_, _, _, taken, _⟩
        exact absurd taken (nothing i)
    · have waiting : startNextProcess c.sched r = some (c.sched, r, 50#32) := if_neg active
      exact ⟨_, _, r, handled _ _ _ waiting, iff_of_true Iff.rfl fun _ here => absurd here active⟩
  · have counted : timerHandler c.timer c.sched r =
        some ({ c.timer with timerTicks := c.timer.timerTicks + 1#32 }, c.sched, r) := if_neg due
    exact ⟨_, _, r, counted, iff_of_true Iff.rfl fun here => absurd here due⟩

theorem routine_returns {ρ : Type} (c : Clocked) (rest : ρ) (r : Regs)
    (inside : c.sched.schedulerActive = true →
      0 ≤ c.sched.curProcIndex ∧ c.sched.curProcIndex < MAX_PROC) (handler : Routine ρ) :
    ∃ after left, handler.call (c, rest) r = some (after, left) ∧
      ((left.intNo ≥ 40#32 ↔ r.intNo ≥ 40#32) ↔ KeepsSide (c, rest) r handler) := by
  cases handler with
  | other handler => exact ⟨_, _, rfl, Iff.rfl⟩
  | timerHandler =>
      obtain ⟨timer, sched, left, handled, kept⟩ := timer_handler_left c rest r inside
      refine ⟨({ c with timer := timer, sched := sched }, rest), left, ?_, kept⟩
      simp only [Routine.call, handled, Option.bind_eq_bind, Option.bind_some]

/-- The bytes sent are right exactly if the number left in the frame is of the
controller whose interrupt is served. -/
theorem sent_count (left served : Word) :
    (((if left ≥ 40#32 then [(0xA0#16, 0x20#8)] else []) ++ [(0x20#16, 0x20#8)]).count (0x20#16, 0x20#8) = 1 ∧
      ((if left ≥ 40#32 then [(0xA0#16, 0x20#8)] else []) ++ [(0x20#16, 0x20#8)]).count (0xA0#16, 0x20#8) =
        if served ≥ 40#32 then 1 else 0) ↔ (left ≥ 40#32 ↔ served ≥ 40#32) := by
  by_cases slave : left ≥ 40#32 <;> by_cases own : served ≥ 40#32 <;> simp [slave, own]

/-- `irq_handler` tells the right controllers exactly if the handler of the
interrupt leaves a frame of the same controller. -/
theorem irq_acknowledged {ρ : Type} (c : Clocked) (reached : Reached Booted ClockStep c) (rest : ρ)
    (irqRoutines : Word → Option (Routine ρ)) (r : Regs) :
    Acknowledges irqRoutines (c, rest) r ↔
      ∀ handler, irqRoutines (r.intNo - 32#32) = some handler → KeepsSide (c, rest) r handler := by
  unfold Acknowledges irqHandler
  cases found : irqRoutines (r.intNo - 32#32) with
  | none =>
      simp only [Option.bind_eq_bind, Option.bind_some, Option.some.injEq, Prod.mk.injEq]
      refine iff_of_true ⟨_, _, _, ⟨rfl, rfl, rfl⟩, (sent_count r.intNo r.intNo).mpr Iff.rfl⟩ ?_
      simp
  | some handler =>
      obtain ⟨after, left, called, kept⟩ := routine_returns c rest r (clock_run_inside c reached) handler
      simp only [called, Option.bind_eq_bind, Option.bind_some, Option.some.injEq, Prod.mk.injEq,
        forall_eq']
      rw [← kept, ← sent_count]
      constructor
      · rintro ⟨_, _, _, ⟨rfl, rfl, rfl⟩, counts⟩
        exact counts
      · intro counts
        exact ⟨_, _, _, ⟨rfl, rfl, rfl⟩, counts⟩

/-- Timer and keyboard on their lines, as `main` installs them. -/
def installedRoutines (scancode : Byte) : Word → Option (Routine Keyboard) :=
  irqInstallHandler (irqInstallHandler (fun _ => none) 0#8 Routine.timerHandler) 1#8
    (keyboardRoutine scancode)

def firstSlice (regs : Regs) : List ClockCall :=
  [ClockCall.setTimerFreq 100#32, ClockCall.initScheduler 0x5000#32 0x100#32 0x6000#32,
    ClockCall.addProcess { (default : Process) with lastStateRegs := regs }, ClockCall.activate,
    ClockCall.tick default, ClockCall.tick default, ClockCall.tick default]

theorem first_slice_reached (regs : Regs) (c : Clocked)
    (run : follow clockCall bootClock (firstSlice regs) = some c) : Reached Booted ClockStep c :=
  follow_reached _ _ (fun _ _ call _ step => ⟨call, step⟩) bootClock c (Reached.start ⟨rfl, rfl, rfl⟩) run

theorem irq_acknowledged_switch : ∃ c : Clocked, c.sched.schedulerActive = true ∧ c.timer.Due ∧
    Acknowledges (installedRoutines 0x1E#8) (c, ⟨0#32, id⟩) { (default : Regs) with intNo := 32#32 } := by
  have run : (follow clockCall bootClock (firstSlice default)).map (fun c =>
      (c.sched.schedulerActive, decide (c.timer.timerTicks + 1#32 =
        c.timer.timeSliceMillis * c.timer.freq / 1000#32),
        (List.range 32).all fun i => (c.sched.procArr i).lastStateRegs.intNo = 0#32)) =
      some (true, true, true) := by
    decide +kernel
  obtain ⟨c, returned, shape⟩ := Option.map_eq_some_iff.mp run
  simp only [Prod.mk.injEq, decide_eq_true_eq, List.all_eq_true, List.mem_range] at shape
  obtain ⟨active, due, numbers⟩ := shape
  refine ⟨c, active, due, (irq_acknowledged c (first_slice_reached _ c returned) _ _ _).mpr ?_⟩
  intro handler found
  obtain rfl : Routine.timerHandler = handler := Option.some.inj found
  rintro _ _ i ⟨_, _, _, taken, _⟩ _
  have low := taken.1
  have high : i < 32 := taken.2.1
  have number := numbers i.toNat (by omega)
  rw [Int.toNat_of_nonneg low] at number
  dsimp only
  rw [number]
  decide

/-- A process whose registers were saved, or made up, with the number of an
interrupt of the slave: the tick that switches to it is acknowledged to the slave. -/
theorem slave_acknowledged : ∃ c : Clocked, Reached Booted ClockStep c ∧
    (irqHandler (installedRoutines 0x1E#8) (c, ⟨0#32, id⟩) { (default : Regs) with intNo := 32#32 }).map
      (fun result => result.2.2) = some [(0xA0#16, 0x20#8), (0x20#16, 0x20#8)] ∧
    ¬ Acknowledges (installedRoutines 0x1E#8) (c, ⟨0#32, id⟩) { (default : Regs) with intNo := 32#32 } := by
  have run : (follow clockCall bootClock (firstSlice { (default : Regs) with intNo := 45#32 })).map
      (fun c => (irqHandler (installedRoutines 0x1E#8) (c, ⟨0#32, id⟩)
        { (default : Regs) with intNo := 32#32 }).map fun result => result.2.2) =
      some (some [(0xA0#16, 0x20#8), (0x20#16, 0x20#8)]) := by
    decide +kernel
  obtain ⟨c, returned, sent⟩ := Option.map_eq_some_iff.mp run
  refine ⟨c, first_slice_reached _ c returned, sent, ?_⟩
  rintro ⟨after, left, bytes, handled, _, slave⟩
  rw [handled] at sent
  obtain rfl : bytes = [(0xA0#16, 0x20#8), (0x20#16, 0x20#8)] := Option.some.inj sent
  exact absurd slave (by decide)

end GargOS
