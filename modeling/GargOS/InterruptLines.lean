import GargOS.Irq
import GargOS.InterruptTable

/-!
irq.c from the lines of the interrupt controllers to the routines: requests,
routines that are installed and uninstalled, and the ends of interrupt that
leave the controllers ready for the next request.
-/

namespace GargOS
open ByteMemory Runs InterruptControllers
variable {ρ : Type}

/-- The controllers, the table of irq.c, and what the routines work on. -/
structure Lines (ρ : Type) where
  controllers : Controllers
  irqRoutines : Word → Option (Routine ρ)
  work : Clocked × ρ

inductive LineEvent (ρ : Type)
  | request (line : Line) (r : Regs)
  | irqInstallHandler (irq : Byte) (handler : Routine ρ)
  | irqUninstallHandler (irq : Byte)
  | clock (call : ClockCall)

def irqUninstallHandler (irqRoutines : Word → Option (Routine ρ)) (irq : Byte) : Word → Option (Routine ρ) :=
  fun i => if i = irq.setWidth 32 then none else irqRoutines i

def numbered (vector : Byte) (r : Regs) : Regs := { r with intNo := vector.setWidth 32 }

/-- A request is served to its end, as interrupts are off in between. The table
has sixteen entries. -/
def lineStep (s : Lines ρ) : LineEvent ρ → Option (Lines ρ)
  | .request line r => do
      let (vector, controllers) ← s.controllers.raise line
      let (work, _, sent) ← irqHandler s.irqRoutines s.work (numbered vector r)
      some { s with controllers := controllers.outs sent, work := work }
  | .irqInstallHandler irq handler =>
      if irq.toNat < 16 then some { s with irqRoutines := irqInstallHandler s.irqRoutines irq handler }
      else none
  | .irqUninstallHandler irq =>
      if irq.toNat < 16 then some { s with irqRoutines := irqUninstallHandler s.irqRoutines irq } else none
  | .clock call => do
      let clocked ← clockCall s.work.1 call
      some { s with work := (clocked, s.work.2) }

/-- After `irq_install`, before a routine is installed. -/
structure LinesBooted (s : Lines ρ) : Prop where
  controllers : ∃ before : Controllers, s.controllers = before.outs irqRemap
  routines : s.irqRoutines = fun _ => none
  clock : Booted s.work.1

/-- No other routine than the timer's changes what the timer and the scheduler
keep in another way than by their calls. -/
def Proper : Routine ρ → Prop
  | .timerHandler => True
  | .other handler => ∀ m r, Leads ClockStep m.1 (handler m r).1.1

/-- The routine of a line of the slave leaves a number of the slave in the frame. -/
def LineSafe (s : Lines ρ) : LineEvent ρ → Prop
  | .request (.slave line) r => ∀ handler, s.irqRoutines (BitVec.ofNat 32 (8 + line.val)) = some handler →
      KeepsSide s.work (numbered (BitVec.ofNat 8 (40 + line.val)) r) handler
  | .irqInstallHandler _ handler => Proper handler
  | _ => True

def LineEvent.sets (irq : Nat) : LineEvent ρ → Option (Option (Routine ρ))
  | .irqInstallHandler i handler => if i.toNat = irq then some (some handler) else none
  | .irqUninstallHandler i => if i.toNat = irq then some none else none
  | _ => none

def lastInstalled (events : List (LineEvent ρ)) (irq : Nat) : Option (Routine ρ) :=
  (events.filterMap (LineEvent.sets irq)).getLast?.join

structure LinesHeld (s : Lines ρ) : Prop where
  controllers : s.controllers = remapped
  clock : Reached Booted ClockStep s.work.1
  proper : ∀ i handler, s.irqRoutines i = some handler → Proper handler

def callRoutine (routine : Option (Routine ρ)) (work : Clocked × ρ) (r : Regs) :
    Option ((Clocked × ρ) × Regs) :=
  match routine with
  | some handler => handler.call work r
  | none => some (work, r)

/-! A request and its ends. -/

theorem remapped_raises (line : Line) (device : line ≠ .master 2) :
    ∃ after, remapped.raise line = some (BitVec.ofNat 8 (32 + line.number), after) := by
  have master : ∀ l : Fin 8, l ≠ 2 → (remapped.raise (.master l)).map Prod.fst =
      some (BitVec.ofNat 8 (32 + (Line.master l).number)) := by
    decide
  have slave : ∀ l : Fin 8, (remapped.raise (.slave l)).map Prod.fst =
      some (BitVec.ofNat 8 (32 + (Line.slave l).number)) := by
    decide
  have vector : (remapped.raise line).map Prod.fst = some (BitVec.ofNat 8 (32 + line.number)) := by
    cases line with
    | master l => exact master l fun two => device (congrArg Line.master two)
    | slave l => exact slave l
  obtain ⟨⟨_, after⟩, raised, rfl⟩ := Option.map_eq_some_iff.mp vector
  exact ⟨after, raised⟩

theorem line_number_bound (line : Line) : line.number < 16 := by
  cases line with
  | master l =>
      have bound := l.isLt
      show l.val < 16
      omega
  | slave l =>
      have bound := l.isLt
      show 8 + l.val < 16
      omega

theorem irq_handler_eq (irqRoutines : Word → Option (Routine ρ)) (work : Clocked × ρ) (r : Regs) :
    irqHandler irqRoutines work r = (callRoutine (irqRoutines (r.intNo - 32#32)) work r).map
      fun result => (result.1, result.2,
        if result.2.intNo ≥ 40#32 then (Line.slave 0).ends else (Line.master 0).ends) := by
  have ends : ∀ left : Regs, (if left.intNo ≥ 40#32 then [((0xA0#16, 0x20#8) : BitVec 16 × Byte)] else []) ++
      [(0x20#16, 0x20#8)] = if left.intNo ≥ 40#32 then (Line.slave 0).ends else (Line.master 0).ends := by
    intro left
    split <;> rfl
  unfold irqHandler callRoutine
  cases irqRoutines (r.intNo - 32#32) with
  | none => simp only [Option.bind_eq_bind, Option.bind_some, Option.map_some, ends]
  | some handler =>
      dsimp only
      generalize handler.call work r = called
      cases called with
      | none => rfl
      | some result => simp only [Option.bind_eq_bind, Option.bind_some, Option.map_some, ends]

theorem call_returns (c : Clocked) (rest : ρ) (clock : Reached Booted ClockStep c) (r : Regs)
    (routine : Option (Routine ρ)) :
    ∃ after left, callRoutine routine (c, rest) r = some (after, left) ∧
      ((∀ handler, routine = some handler → KeepsSide (c, rest) r handler) →
        (left.intNo ≥ 40#32 ↔ r.intNo ≥ 40#32)) := by
  cases routine with
  | none => exact ⟨(c, rest), r, rfl, fun _ => Iff.rfl⟩
  | some handler =>
      obtain ⟨after, left, called, kept⟩ := routine_returns c rest r (clock_run_inside c clock) handler
      exact ⟨after, left, called, fun keeps => kept.mpr (keeps handler rfl)⟩

theorem called_clock (work after : Clocked × ρ) (r left : Regs) (clock : Reached Booted ClockStep work.1)
    (routine : Option (Routine ρ)) (proper : ∀ handler, routine = some handler → Proper handler)
    (called : callRoutine routine work r = some (after, left)) : Reached Booted ClockStep after.1 := by
  cases routine with
  | none =>
      obtain ⟨rfl, _⟩ := Prod.mk.inj (Option.some.inj called)
      exact clock
  | some handler =>
      cases handler with
      | other handler =>
          have result := Option.some.inj called
          have leads := proper _ rfl work r
          rw [result] at leads
          exact reached_leads _ _ clock leads
      | timerHandler =>
          obtain ⟨⟨timer, sched, regs⟩, handled, same⟩ := Option.bind_eq_some_iff.mp called
          obtain ⟨rfl, _⟩ := Prod.mk.inj (Option.some.inj same)
          refine Reached.next clock ⟨.tick r, ?_⟩
          simp only [clockCall, handled, Option.bind_eq_bind, Option.bind_some]

section Held
variable (s : Lines ρ) (holds : LinesHeld s)
include holds

theorem irq_served (line : Line) (device : line ≠ .master 2) (r : Regs)
    (number : r.intNo = BitVec.ofNat 32 (32 + line.number))
    (safe : 8 ≤ line.number → ∀ handler, s.irqRoutines (BitVec.ofNat 32 line.number) = some handler →
      KeepsSide s.work r handler) :
    ∃ raised after left sent,
      s.controllers.raise line = some (BitVec.ofNat 8 (32 + line.number), raised) ∧
      callRoutine (s.irqRoutines (BitVec.ofNat 32 line.number)) s.work r = some (after, left) ∧
      irqHandler s.irqRoutines s.work r = some (after, left, sent) ∧ raised.outs sent = s.controllers := by
  have bound := line_number_bound line
  have index : r.intNo - 32#32 = BitVec.ofNat 32 line.number := by
    rw [number]
    bv_omega
  obtain ⟨raised, passed⟩ := remapped_raises line device
  obtain ⟨after, left, called, keeps⟩ := call_returns s.work.1 s.work.2 holds.clock r
    (s.irqRoutines (BitVec.ofNat 32 line.number))
  have handled := irq_handler_eq s.irqRoutines s.work r
  rw [index, called, Option.map_some] at handled
  have manual : remapped.master.mode.getLsbD 1 = false ∧ remapped.slave.mode.getLsbD 1 = false := by decide
  refine ⟨raised, after, left, _, holds.controllers ▸ passed, called, handled, ?_⟩
  rw [holds.controllers]
  cases line with
  | master l =>
      dsimp only
      split
      next => exact raise_ended_twice remapped raised l _ manual.1 ⟨by decide, rfl⟩ passed
      next => exact raise_ended remapped raised (.master l) _ manual passed
  | slave l =>
      have high : 8 ≤ (Line.slave l).number := Nat.le_add_right 8 l.val
      have own : r.intNo ≥ 40#32 := by
        rw [number]
        bv_omega
      have side : left.intNo ≥ 40#32 := (keeps (safe high)).mpr own
      dsimp only
      rw [if_pos side]
      exact raise_ended remapped raised (.slave l) _ manual passed

theorem request_served (line : Line) (device : line ≠ .master 2) (r : Regs)
    (safe : LineSafe s (.request line r)) :
    ∃ after left, callRoutine (s.irqRoutines (BitVec.ofNat 32 line.number)) s.work
        (numbered (BitVec.ofNat 8 (32 + line.number)) r) = some (after, left) ∧
      lineStep s (.request line r) = some { s with work := after } := by
  have bound := line_number_bound line
  have number : (numbered (BitVec.ofNat 8 (32 + line.number)) r).intNo = BitVec.ofNat 32 (32 + line.number) := by
    show (BitVec.ofNat 8 (32 + line.number)).setWidth 32 = _
    bv_omega
  obtain ⟨raised, after, left, sent, passed, called, handled, ended⟩ := irq_served s holds line device _ number
    fun high handler found => by
      cases line with
      | master l =>
          have low := l.isLt
          exact absurd high (by show ¬ 8 ≤ l.val; omega)
      | slave l =>
          have same : 32 + (Line.slave l).number = 40 + l.val := by
            show 32 + (8 + l.val) = _
            omega
          rw [same]
          exact safe handler found
  refine ⟨after, left, called, ?_⟩
  simp only [lineStep, passed, handled, Option.bind_eq_bind, Option.bind_some, ended]

/-- The line behind which the slave is has no device. -/
theorem cascade_silent (r : Regs) : lineStep s (.request (.master 2) r) = none := by
  have silent : remapped.raise (.master 2) = none := by decide
  simp only [lineStep, holds.controllers, silent, Option.bind_eq_bind, Option.bind_none]

theorem line_step_held (after : Lines ρ) (e : LineEvent ρ) (safe : LineSafe s e)
    (moved : lineStep s e = some after) : LinesHeld after := by
  cases e with
  | request line r =>
      by_cases device : line = .master 2
      · rw [device, cascade_silent s holds] at moved
        simp at moved
      · obtain ⟨work, left, called, served⟩ := request_served s holds line device r safe
        rw [served] at moved
        obtain rfl := Option.some.inj moved
        exact ⟨holds.controllers, called_clock s.work work _ left holds.clock _ (holds.proper _) called,
          holds.proper⟩
  | irqInstallHandler irq handler =>
      obtain ⟨_, same⟩ := Option.ite_none_right_eq_some.mp moved
      obtain rfl := Option.some.inj same
      refine ⟨holds.controllers, holds.clock, fun i other found => ?_⟩
      dsimp only [irqInstallHandler] at found
      split at found
      next =>
        obtain rfl := Option.some.inj found
        exact safe
      next => exact holds.proper i other found
  | irqUninstallHandler irq =>
      obtain ⟨_, same⟩ := Option.ite_none_right_eq_some.mp moved
      obtain rfl := Option.some.inj same
      refine ⟨holds.controllers, holds.clock, fun i other found => ?_⟩
      dsimp only [irqUninstallHandler] at found
      split at found
      next => simp at found
      next => exact holds.proper i other found
  | clock call =>
      obtain ⟨clocked, stepped, same⟩ := Option.bind_eq_some_iff.mp moved
      obtain rfl := Option.some.inj same
      exact ⟨holds.controllers, Reached.next holds.clock ⟨call, stepped⟩, holds.proper⟩

end Held

/-! Which routine is called. -/

theorem step_routines (s after : Lines ρ) (e : LineEvent ρ) (moved : lineStep s e = some after) (irq : Nat)
    (bound : irq < 16) :
    after.irqRoutines (BitVec.ofNat 32 irq) = (e.sets irq).getD (s.irqRoutines (BitVec.ofNat 32 irq)) := by
  have index : ∀ i : Byte, (BitVec.ofNat 32 irq = i.setWidth 32 ↔ i.toNat = irq) := by
    intro i
    bv_omega
  cases e with
  | request line r =>
      obtain ⟨⟨vector, passed⟩, _, served⟩ := Option.bind_eq_some_iff.mp moved
      obtain ⟨⟨work, left, sent⟩, _, same⟩ := Option.bind_eq_some_iff.mp served
      obtain rfl := Option.some.inj same
      rfl
  | irqInstallHandler i handler =>
      obtain ⟨_, same⟩ := Option.ite_none_right_eq_some.mp moved
      obtain rfl := Option.some.inj same
      simp only [irqInstallHandler, LineEvent.sets, index]
      split <;> rfl
  | irqUninstallHandler i =>
      obtain ⟨_, same⟩ := Option.ite_none_right_eq_some.mp moved
      obtain rfl := Option.some.inj same
      simp only [irqUninstallHandler, LineEvent.sets, index]
      split <;> rfl
  | clock call =>
      obtain ⟨clocked, _, same⟩ := Option.bind_eq_some_iff.mp moved
      obtain rfl := Option.some.inj same
      rfl

theorem run_routines (events : List (LineEvent ρ)) (s after : Lines ρ)
    (run : follow lineStep s events = some after) (irq : Nat) (bound : irq < 16) :
    after.irqRoutines (BitVec.ofNat 32 irq) =
      ((events.filterMap (LineEvent.sets irq)).getLast?).getD (s.irqRoutines (BitVec.ofNat 32 irq)) := by
  induction events generalizing s with
  | nil =>
      obtain rfl := Option.some.inj run
      rfl
  | cons e rest ih =>
      obtain ⟨middle, moved, later⟩ := Option.bind_eq_some_iff.mp run
      rw [ih middle later, step_routines s middle e moved irq bound]
      cases sets : e.sets irq with
      | none =>
          rw [List.filterMap_cons_none sets]
          rfl
      | some routine =>
          rw [List.filterMap_cons_some sets, List.getLast?_cons]
          rfl

theorem booted_lines (start : Lines ρ) (booted : LinesBooted start) : LinesHeld start := by
  obtain ⟨before, controllers⟩ := booted.controllers
  refine ⟨controllers.trans (remapped_controllers before), Reached.start booted.clock, fun i handler found => ?_⟩
  rw [booted.routines] at found
  simp at found

/-- At any time of a run every device is heard with its own vector, the routine
called is the last one installed for its line, and afterwards nothing is in
service. -/
theorem lines_served (start s : Lines ρ) (booted : LinesBooted start) (events : List (LineEvent ρ))
    (safe : Throughout lineStep LineSafe start events) (run : follow lineStep start events = some s) :
    s.controllers = remapped ∧ ∀ line r, line ≠ .master 2 → LineSafe s (.request line r) →
      (s.controllers.raise line).map Prod.fst = some (BitVec.ofNat 8 (32 + line.number)) ∧
      ∃ after left, callRoutine (lastInstalled events line.number) s.work
          (numbered (BitVec.ofNat 8 (32 + line.number)) r) = some (after, left) ∧
        lineStep s (.request line r) = some { s with work := after } := by
  have holds := follow_kept lineStep LineSafe LinesHeld
    (fun s after e holds ok moved => line_step_held s holds after e ok moved) events start s
    (booted_lines start booted) safe run
  refine ⟨holds.controllers, fun line r device ok => ?_⟩
  have routine := run_routines events start s run line.number (line_number_bound line)
  have last : s.irqRoutines (BitVec.ofNat 32 line.number) = lastInstalled events line.number := by
    rw [routine, booted.routines, lastInstalled]
    cases (events.filterMap (LineEvent.sets line.number)).getLast? with
    | none => rfl
    | some routine => rfl
  obtain ⟨passed, raised⟩ := remapped_raises line device
  rw [← last]
  refine ⟨?_, request_served s holds line device r ok⟩
  rw [holds.controllers, raised]
  rfl

def bootLines : Lines Keyboard := ⟨remapped, fun _ => none, bootClock, ⟨0#32, id⟩⟩

theorem boot_lines_booted : LinesBooted bootLines :=
  ⟨⟨remapped, (remapped_controllers remapped).symm⟩, rfl, rfl, rfl, rfl⟩

def installEvents (scancode : Byte) : List (LineEvent Keyboard) :=
  [.irqInstallHandler 0#8 .timerHandler, .irqInstallHandler 1#8 (keyboardRoutine scancode)]

theorem install_events (scancode : Byte) : ∃ s, follow lineStep bootLines (installEvents scancode) = some s ∧
    Throughout lineStep LineSafe bootLines (installEvents scancode) ∧ LinesHeld s ∧
    s.irqRoutines = installedRoutines scancode ∧ s.work = bootLines.work := by
  have safe : Throughout lineStep LineSafe bootLines (installEvents scancode) :=
    ⟨trivial, fun _ _ => ⟨fun _ _ => Leads.stay, fun _ _ => trivial⟩⟩
  refine ⟨_, rfl, safe, ?_, rfl, rfl⟩
  exact follow_kept lineStep LineSafe LinesHeld
    (fun s after e holds ok moved => line_step_held s holds after e ok moved) _ bootLines _
    (booted_lines bootLines boot_lines_booted) safe rfl

/-- A device of the slave and then a key. -/
theorem lines_served_keyboard : ∃ s after,
    follow lineStep bootLines (installEvents 0x1E#8 ++ [.request (.slave 4) default]) = some s ∧
    lineStep s (.request (.master 1) default) = some { s with work := after } ∧
    after.2 = (keyboardHandler s.work.2 0x1E#8).1 := by
  obtain ⟨s, installed, safe, holds, routines, _⟩ := install_events 0x1E#8
  have unset : LineSafe s (.request (.slave 4) default) := by
    intro handler found
    have empty : none = some handler := by
      rw [← found, routines]
      rfl
    simp at empty
  obtain ⟨work, _, _, moved⟩ := request_served s holds (.slave 4) (by decide) default unset
  have run : follow lineStep bootLines (installEvents 0x1E#8 ++ [.request (.slave 4) default]) =
      some { s with work := work } := by
    rw [follow_append _ _ _ _ s installed, follow, moved]
    rfl
  have safeToo : Throughout lineStep LineSafe bootLines (installEvents 0x1E#8 ++ [.request (.slave 4) default]) := by
    refine throughout_append _ _ _ _ bootLines safe fun middle reached => ⟨?_, fun _ _ => trivial⟩
    rw [installed] at reached
    exact Option.some.inj reached ▸ unset
  obtain ⟨_, served⟩ := lines_served bootLines _ boot_lines_booted _ safeToo run
  obtain ⟨_, after, left, called, next⟩ := served (.master 1) default (by decide) trivial
  obtain ⟨rfl, _⟩ := Prod.mk.inj (Option.some.inj called)
  exact ⟨_, _, run, next, rfl⟩

end GargOS
