import GargOS.ContextSwitch
import GargOS.InterruptLines
import GargOS.Lib.Unwinding

/-!
What the code that runs notices of the interrupts between two switches: nothing,
at whatever of its instructions they come.
-/

namespace GargOS
open ByteMemory ByteLanes WordFrames Runs Unwinding InterruptControllers
variable {ρ : Type}

/-- Where an interrupt may write: its 19 words and 960 more of the functions in C. -/
def StackBelow (t : Word → Word) (esp p : Word) : Prop := Behind t (esp - 3916#32) 3916 p

/-- Code at kernel privilege, and which memories are alike to it at a point. What
lies below the top of its stack makes no difference to it, nor do the variables of
the handlers, which it does not write either. -/
structure Code (t : Word → Word) (static : Word → Bool) where
  exec : Memory → Cpu → Option (Memory × Cpu)
  alike : Cpu → Memory → Memory → Prop
  same : ∀ cpu m, alike cpu m m
  below : ∀ cpu m m' n, alike cpu m n →
    (∀ p, ¬ StackBelow t cpu.esp p → static p = false → m' p = m p) → alike cpu m' n
  consistent : ∀ cpu next m m' n, alike cpu m n → exec m cpu = some (m', next) →
    ∃ n', exec n cpu = some (n', next) ∧ alike next m' n'
  apart : ∀ cpu next m m' p, exec m cpu = some (m', next) → static p = true → m' p = m p
  kernel : ∀ cpu next m m', cpu.cs &&& 3#16 = 0#16 → exec m cpu = some (m', next) → next.cs &&& 3#16 = 0#16

/-- The machine: the code that runs, and what the handlers of its interrupts
keep in their variables. -/
structure Running (ρ : Type) where
  mem : Memory
  cpu : Cpu
  lines : Lines ρ

/-- The handlers as the compiler has them: the bytes that are their variables (and
the cells they draw), what these hold, the frames of the functions, and the address
behind the stub's `call`. -/
structure Compiled (ρ : Type) where
  static : Word → Bool
  byte : Clocked × ρ → Word → Byte
  frames : Running ρ → Line → CFrames
  returnTo : Word

def Compiled.record (compiled : Compiled ρ) (work : Clocked × ρ) (m : Memory) : Memory :=
  fun p => if compiled.static p then compiled.byte work p else m p

inductive RunningEvent
  | own
  | interrupt (line : Line)
  deriving DecidableEq

def RunningEvent.isOwn : RunningEvent → Bool
  | .own => true
  | .interrupt _ => false

/-- `irq_handler` with the directory it leaves current. -/
def irqOutcome (s : Lines ρ) (r : Regs) : Option (((Clocked × ρ) × List (BitVec 16 × Byte)) × Word × Regs) := do
  let (work, left, sent) ← irqHandler s.irqRoutines s.work r
  some ((work, sent), work.1.sched.currentDirectory, left)

/-- An instruction of the code, or an interrupt between two of them. -/
def runningStep (pageFrame : PageFrame) (directory : Word) (compiled : Compiled ρ)
    (code : Code (translate pageFrame directory) compiled.static) (s : Running ρ) : RunningEvent → Option (Running ρ)
  | .own => do
      let (mem, cpu) ← code.exec s.mem s.cpu
      some { s with mem := mem, cpu := cpu }
  | .interrupt line =>
      -- the interrupt flag
      if s.cpu.eflags.getLsbD 9 then do
        let (vector, controllers) ← s.lines.controllers.raise line
        let (mem, cpu, work, sent) ← interrupt pageFrame compiled.returnTo (compiled.frames s line)
          (fun out => compiled.record out.1) s.mem s.cpu none vector.toNat s.lines.work.1.sched.currentDirectory
          (irqOutcome s.lines)
        some ⟨mem, cpu, { s.lines with controllers := controllers.outs sent, work := work }⟩
      else none

/-- The routine leaves the frame and the directory: the timer's does if it does
not switch, or only to the process that has been running. -/
def Stays (m : Clocked × ρ) (r : Regs) : Routine ρ → Prop
  | .timerHandler => m.1.timer.Due → m.1.sched.schedulerActive = true → ∀ i, m.1.sched.Next i →
      i = m.1.sched.curProcIndex ∧ m.1.sched.isFirstRun = false ∧
        (m.1.sched.procArr i).pageDirectory = m.1.sched.currentDirectory
  | .other handler => (handler m r).2 = r ∧
      (handler m r).1.1.sched.currentDirectory = m.1.sched.currentDirectory

/-- Between two switches, with room on the stack for the interrupt. -/
def Quiet (t : Word → Word) (compiled : Compiled ρ) (s : Running ρ) : RunningEvent → Prop
  | .own => True
  | .interrupt line =>
      (∀ p, (compiled.frames s line).Region t s.cpu.esp p → compiled.static p = false) ∧
        ∀ r handler, s.lines.irqRoutines (BitVec.ofNat 32 line.number) = some handler → Stays s.lines.work r handler

theorem stays_side (m : Clocked × ρ) (r : Regs) (handler : Routine ρ) (stays : Stays m r handler) :
    KeepsSide m r handler := by
  cases handler with
  | timerHandler =>
      intro due active i next switched
      obtain ⟨own, later, _⟩ := stays due active i next
      rcases switched with other | first
      · exact absurd own other
      · rw [later] at first
        exact absurd first (by decide)
  | other handler =>
      show (handler m r).2.intNo ≥ 40#32 ↔ r.intNo ≥ 40#32
      rw [stays.1]

theorem own_dispatch (s : Scheduler) (r : Regs) (later : s.isFirstRun = false)
    (directory : (s.procArr s.curProcIndex).pageDirectory = s.currentDirectory) :
    (dispatch s s.curProcIndex r).2 = r ∧ (dispatch s s.curProcIndex r).1.currentDirectory = s.currentDirectory := by
  simp [dispatch, later, directory]

theorem timer_stays (c : Clocked) (rest : ρ) (r : Regs)
    (inside : c.sched.schedulerActive = true → 0 ≤ c.sched.curProcIndex ∧ c.sched.curProcIndex < MAX_PROC)
    (stays : Stays (c, rest) r .timerHandler) :
    ∃ timer sched, timerHandler c.timer c.sched r = some (timer, sched, r) ∧
      sched.currentDirectory = c.sched.currentDirectory := by
  by_cases due : c.timer.Due
  · have handled := fun sched regs slice => handler_due c.timer c.sched sched r regs slice due
    by_cases active : c.sched.schedulerActive = true
    · rcases start_next_process_result c.sched r (inside active).1 (inside active).2 active with
        ⟨d, positive, _, taken, skipped, done⟩ | ⟨_, done⟩
      · obtain ⟨own, later, directory⟩ := stays due active _ ⟨d, positive, rfl, taken, skipped⟩
        dsimp only at own later directory
        rw [own] at done directory
        obtain ⟨regs, current⟩ := own_dispatch c.sched r later directory
        rw [regs] at done
        exact ⟨_, _, handled _ _ _ done, current⟩
      · exact ⟨_, _, handled _ _ _ done, rfl⟩
    · have waiting : startNextProcess c.sched r = some (c.sched, r, 50#32) := if_neg active
      exact ⟨_, _, handled _ _ _ waiting, rfl⟩
  · have counted : timerHandler c.timer c.sched r =
        some ({ c.timer with timerTicks := c.timer.timerTicks + 1#32 }, c.sched, r) := if_neg due
    exact ⟨_, _, counted, rfl⟩

theorem called_stays (m after : Clocked × ρ) (r left : Regs) (clock : Reached Booted ClockStep m.1)
    (routine : Option (Routine ρ)) (stays : ∀ handler, routine = some handler → Stays m r handler)
    (called : callRoutine routine m r = some (after, left)) :
    left = r ∧ after.1.sched.currentDirectory = m.1.sched.currentDirectory := by
  cases routine with
  | none =>
      obtain ⟨rfl, rfl⟩ := Prod.mk.inj (Option.some.inj called)
      exact ⟨rfl, rfl⟩
  | some handler =>
      have here := stays handler rfl
      cases handler with
      | other handler =>
          have result : handler m r = (after, left) := Option.some.inj called
          simp only [Stays, result] at here
          exact here
      | timerHandler =>
          obtain ⟨timer, sched, handled, directory⟩ := timer_stays m.1 m.2 r (clock_run_inside m.1 clock) here
          have result : callRoutine (some .timerHandler) m r =
              some (({ m.1 with timer := timer, sched := sched }, m.2), r) := by
            show Routine.call .timerHandler (m.1, m.2) r = _
            simp only [Routine.call, handled, Option.bind_eq_bind, Option.bind_some]
          rw [result] at called
          obtain ⟨rfl, rfl⟩ := Prod.mk.inj (Option.some.inj called)
          exact ⟨rfl, directory⟩

structure RunningHeld (directory : Word) (compiled : Compiled ρ) (s : Running ρ) : Prop where
  lines : LinesHeld s.lines
  kernel : s.cpu.cs &&& 3#16 = 0#16
  current : s.lines.work.1.sched.currentDirectory = directory
  shown : ∀ p, compiled.static p = true → s.mem p = compiled.byte s.lines.work p

theorem region_stack (frames : CFrames) (t : Word → Word) (esp p : Word) (inside : frames.Region t esp p) :
    StackBelow t esp p := by
  obtain ⟨x, below, here⟩ := inside
  have shallow := frames.room
  refine ⟨x, ?_, here⟩
  unfold CFrames.Below at below
  unfold InSpan at *
  bv_omega

section Steps
variable (pageFrame : PageFrame) (directory : Word) (compiled : Compiled ρ)
  (code : Code (translate pageFrame directory) compiled.static)

theorem interrupt_quiet (s : Running ρ) (holds : RunningHeld directory compiled s) (line : Line)
    (device : line ≠ .master 2) (enabled : s.cpu.eflags.getLsbD 9 = true)
    (quiet : Quiet (translate pageFrame directory) compiled s (.interrupt line)) :
    ∃ mem work, runningStep pageFrame directory compiled code s (.interrupt line) =
        some ⟨mem, s.cpu, { s.lines with work := work }⟩ ∧
      (∀ p, ¬ StackBelow (translate pageFrame directory) s.cpu.esp p → compiled.static p = false →
        mem p = s.mem p) ∧
      RunningHeld directory compiled ⟨mem, s.cpu, { s.lines with work := work }⟩ := by
  have bound := line_number_bound line
  have matched : Matched none (32 + line.number) := by
    have outside : ∀ n < 16, 32 + n ∉ codeVectors := by decide
    exact iff_of_false (by simp) (outside _ bound)
  let frame := frameRegs s.cpu (BitVec.ofNat 32 (32 + line.number)) 0#32
    (load32 (through (translate pageFrame directory) s.mem) s.cpu.esp)
    (load32 (through (translate pageFrame directory) s.mem) (s.cpu.esp + 4#32))
  obtain ⟨room, routines⟩ := quiet
  obtain ⟨raised, work, left, sent, passed, called, handled, ended⟩ := irq_served s.lines holds.lines line device
    frame rfl fun _ handler found => stays_side _ _ handler (routines frame handler found)
  obtain ⟨rfl, current⟩ := called_stays s.lines.work work frame left holds.lines.clock _ (routines frame) called
  have outcome : irqOutcome s.lines frame = some ((work, sent), directory, frame) := by
    rw [holds.current] at current
    simp only [irqOutcome, handled, Option.bind_eq_bind, Option.bind_some, current]
  obtain ⟨mem, returned, outside, recorded⟩ := interrupt_unseen pageFrame compiled.returnTo s.mem s.cpu none
    (32 + line.number) directory matched (compiled.frames s line) holds.kernel (fun out => compiled.record out.1)
    (fun p => compiled.static p = true) (fun _ _ _ elsewhere => if_neg elsewhere)
    (fun p inside => by rw [room p inside]; decide) (irqOutcome s.lines) (work, sent) outcome
  have vector : (BitVec.ofNat 8 (32 + line.number)).toNat = 32 + line.number := by
    rw [BitVec.toNat_ofNat]
    omega
  refine ⟨mem, work, ?_, fun p away elsewhere => ?_, ⟨⟨holds.lines.controllers, ?_, holds.lines.proper⟩,
    holds.kernel, current.trans holds.current, fun p inside => (recorded p inside).trans (if_pos inside)⟩⟩
  · simp only [runningStep, enabled, if_true, passed, Option.bind_eq_bind, Option.bind_some, vector, holds.current,
      returned, ended]
  · exact outside p (fun inside => away (region_stack _ _ _ p inside)) (by rw [elsewhere]; decide)
  · exact called_clock s.lines.work work frame _ holds.lines.clock _ (holds.lines.proper _) called

theorem interrupt_enabled (s after : Running ρ) (holds : RunningHeld directory compiled s) (line : Line)
    (moved : runningStep pageFrame directory compiled code s (.interrupt line) = some after) :
    line ≠ .master 2 ∧ s.cpu.eflags.getLsbD 9 = true := by
  obtain ⟨enabled, served⟩ := Option.ite_none_right_eq_some.mp moved
  refine ⟨?_, enabled⟩
  rintro rfl
  have silent : remapped.raise (.master 2) = none := by decide
  rw [holds.lines.controllers, silent] at served
  simp at served

theorem own_step (s after : Running ρ) (moved : runningStep pageFrame directory compiled code s .own = some after) :
    code.exec s.mem s.cpu = some (after.mem, after.cpu) ∧ after.lines = s.lines := by
  obtain ⟨⟨mem, cpu⟩, executed, same⟩ := Option.bind_eq_some_iff.mp moved
  obtain rfl := Option.some.inj same
  exact ⟨executed, rfl⟩

def AlikeToCode (s t : Running ρ) : Prop := s.cpu = t.cpu ∧ code.alike s.cpu s.mem t.mem

theorem running_unwinds (lines : Lines ρ) :
    Unwinds (runningStep pageFrame directory compiled code) (fun _ e => e.isOwn = true)
      (Quiet (translate pageFrame directory) compiled) (RunningHeld directory compiled) (fun t => t.lines = lines)
      (AlikeToCode pageFrame directory compiled code) where
  kept s after e holds quiet moved := by
    cases e with
    | own =>
        obtain ⟨executed, same⟩ := own_step pageFrame directory compiled code s after moved
        refine ⟨same ▸ holds.lines, code.kernel _ _ _ _ holds.kernel executed, ?_, fun p inside => ?_⟩
        · rw [same]
          exact holds.current
        · rw [code.apart _ _ _ _ p executed inside, same]
          exact holds.shown p inside
    | interrupt line =>
        obtain ⟨device, enabled⟩ := interrupt_enabled pageFrame directory compiled code s after holds line moved
        obtain ⟨mem, work, returned, _, held⟩ :=
          interrupt_quiet pageFrame directory compiled code s holds line device enabled quiet
        rw [returned] at moved
        exact Option.some.inj moved ▸ held
  consistent s t e after _ unchanged alike own moved := by
    cases e with
    | own =>
        obtain ⟨executed, _⟩ := own_step pageFrame directory compiled code s after moved
        obtain ⟨n, executedToo, next⟩ := code.consistent _ _ _ _ t.mem alike.2 executed
        refine ⟨{ t with mem := n, cpu := after.cpu }, ?_, unchanged, rfl, next⟩
        rw [alike.1] at executedToo
        simp only [runningStep, executedToo, Option.bind_eq_bind, Option.bind_some]
    | interrupt line => exact absurd own (by simp [RunningEvent.isOwn])
  respects s t e after holds alike quiet hidden moved := by
    cases e with
    | own => exact absurd rfl hidden
    | interrupt line =>
        obtain ⟨device, enabled⟩ := interrupt_enabled pageFrame directory compiled code s after holds line moved
        obtain ⟨mem, work, returned, outside, _⟩ :=
          interrupt_quiet pageFrame directory compiled code s holds line device enabled quiet
        rw [returned] at moved
        obtain rfl := Option.some.inj moved
        exact ⟨alike.1, code.below _ _ _ _ alike.2 outside⟩

/-- Between two switches the code runs as if there were no interrupts, wherever
they come, and the next one goes through as well. -/
theorem interrupts_unseen (boot : Lines ρ) (booted : LinesBooted boot) (earlier : List (LineEvent ρ))
    (start : Running ρ) (safe : Throughout lineStep LineSafe boot earlier)
    (reached : follow lineStep boot earlier = some start.lines) (kernel : start.cpu.cs &&& 3#16 = 0#16)
    (current : start.lines.work.1.sched.currentDirectory = directory)
    (shown : ∀ p, compiled.static p = true → start.mem p = compiled.byte start.lines.work p)
    (events : List RunningEvent) (after : Running ρ)
    (quiet : Throughout (runningStep pageFrame directory compiled code)
      (Quiet (translate pageFrame directory) compiled) start events)
    (run : follow (runningStep pageFrame directory compiled code) start events = some after) :
    (∃ alone, follow (runningStep pageFrame directory compiled code) start (events.filter RunningEvent.isOwn) =
        some alone ∧ alone.lines = start.lines ∧ after.cpu = alone.cpu ∧
        code.alike after.cpu after.mem alone.mem) ∧
      (∀ p, compiled.static p = true → after.mem p = compiled.byte after.lines.work p) ∧
      after.lines.controllers = remapped ∧
      ∀ line, line ≠ .master 2 → after.cpu.eflags.getLsbD 9 = true →
        Quiet (translate pageFrame directory) compiled after (.interrupt line) →
        ∃ next, runningStep pageFrame directory compiled code after (.interrupt line) = some next := by
  have held := follow_kept lineStep LineSafe LinesHeld
    (fun s after e holds ok moved => line_step_held s holds after e ok moved) earlier boot start.lines
    (booted_lines boot booted) safe reached
  obtain ⟨alone, returned, holds, unchanged, alike⟩ :=
    purged_run (runningStep pageFrame directory compiled code) (fun _ e => e.isOwn = true)
      (Quiet (translate pageFrame directory) compiled) (RunningHeld directory compiled)
      (fun t => t.lines = start.lines) (AlikeToCode pageFrame directory compiled code)
      (running_unwinds pageFrame directory compiled code start.lines) events start start after
      ⟨held, kernel, current, shown⟩ rfl ⟨rfl, code.same _ _⟩ quiet run
  rw [purge_filter _ _ RunningEvent.isOwn (fun _ _ => Iff.rfl) events start after run] at returned
  refine ⟨⟨alone, returned, unchanged, alike.1, alike.2⟩, holds.shown, holds.lines.controllers, ?_⟩
  intro line device enabled more
  obtain ⟨mem, work, next, _⟩ := interrupt_quiet pageFrame directory compiled code after holds line device enabled
    more
  exact ⟨_, next⟩

end Steps

def countingCode (t : Word → Word) (static : Word → Bool) : Code t static where
  exec m cpu := some (m, { cpu with eax := cpu.eax + 1#32 })
  alike cpu m n := ∀ p, ¬ StackBelow t cpu.esp p → static p = false → m p = n p
  same _ _ _ _ _ := rfl
  below cpu m m' n alike written p outside elsewhere := (written p outside elsewhere).trans (alike p outside elsewhere)
  consistent cpu next m m' n alike executed := by
    simp only [Option.some.injEq, Prod.mk.injEq] at executed
    obtain ⟨rfl, rfl⟩ := executed
    exact ⟨n, rfl, alike⟩
  apart cpu next m m' p executed _ := by
    simp only [Option.some.injEq, Prod.mk.injEq] at executed
    exact congrFun executed.1.symm p
  kernel cpu next m m' kernel executed := by
    simp only [Option.some.injEq, Prod.mk.injEq] at executed
    obtain ⟨_, rfl⟩ := executed
    exact kernel

/-- Handlers with `timer_ticks` at 0x104000, and frames of ten words. -/
def tickHandlers : Compiled ρ where
  static p := decide (InSpan 0x104000#32 4 p)
  byte work p := byteLane work.1.timer.timerTicks (p - 0x104000#32).toNat
  frames _ _ := timerFrames 0x110000#32
  returnTo := 0x100200#32

theorem translate_same (directory x : Word) : translate (fun _ page => page) directory x = x := by
  apply BitVec.eq_of_toNat_eq
  rw [translate, BitVec.toNat_append, BitVec.extractLsb'_toNat, BitVec.extractLsb'_toNat, Nat.shiftLeft_eq,
    packed _ _ _ (Nat.mod_lt _ (by decide)), Nat.shiftRight_eq_div_pow, Nat.shiftRight_zero]
  omega

theorem tick_room (directory p : Word)
    (inside : (timerFrames 0x110000#32).Region (translate (fun _ page => page) directory) 0x110000#32 p) :
    decide (InSpan 0x104000#32 4 p) = false := by
  obtain ⟨x, below, rfl⟩ := inside
  rw [translate_same]
  have span : InSpan (0x110000#32 - BitVec.ofNat 32 (76 + 4 * 10)) (76 + 4 * 10) x := below
  refine decide_eq_false fun ticks => ?_
  unfold InSpan at *
  bv_omega

/-- A tick and a key while the loop counts to two. -/
theorem interrupts_unseen_counting : ∃ (start after : Running Keyboard),
    follow (runningStep (fun _ page => page) bootClock.sched.currentDirectory tickHandlers (countingCode _ _)) start
      [.own, .interrupt (.master 0), .own, .interrupt (.master 1)] = some after ∧
    after.cpu = { start.cpu with eax := start.cpu.eax + 1#32 + 1#32 } ∧
    (∀ p, InSpan 0x104000#32 4 p →
      after.mem p = byteLane after.lines.work.1.timer.timerTicks (p - 0x104000#32).toNat) ∧
    after.lines.controllers = remapped := by
  obtain ⟨s, installed, safe, holds, routines, work⟩ := install_events 0x1E#8
  let exec := runningStep (ρ := Keyboard) (fun _ page => page) bootClock.sched.currentDirectory tickHandlers
    (countingCode _ _)
  let start : Running Keyboard := ⟨tickHandlers.record s.work fun _ => 0#8, kernelCpu 7#32 0x110000#32, s⟩
  let counted : Running Keyboard := { start with cpu := { start.cpu with eax := start.cpu.eax + 1#32 } }
  have current : s.work.1.sched.currentDirectory = bootClock.sched.currentDirectory := by rw [work]; rfl
  have shown : ∀ p, (tickHandlers (ρ := Keyboard)).static p = true → start.mem p = tickHandlers.byte s.work p :=
    fun p inside => if_pos inside
  have enabled : (0x202#32 : Word).getLsbD 9 = true := by decide
  have kernel : (0x08#16 : BitVec 16) &&& 3#16 = 0#16 := by decide
  have first : exec start .own = some counted := rfl
  let identity := translate (fun _ page => page) bootClock.sched.currentDirectory
  have tick : Quiet identity tickHandlers counted (.interrupt (.master 0)) := by
    refine ⟨fun p inside => tick_room _ p inside, fun r handler found => ?_⟩
    have timer : some Routine.timerHandler = some handler := by
      rw [← found]
      show _ = s.irqRoutines _
      rw [routines]
      rfl
    obtain rfl := Option.some.inj timer
    intro _ active
    have inactive : s.work.1.sched.schedulerActive = false := by rw [work]; rfl
    exact absurd active (by rw [inactive]; decide)
  obtain ⟨mem, left, ticked, _, held⟩ := interrupt_quiet (fun _ page => page) _ tickHandlers (countingCode _ _) counted
    ⟨holds, kernel, current, shown⟩ (.master 0) (by decide) enabled tick
  let later : Running Keyboard := ⟨mem, { counted.cpu with eax := counted.cpu.eax + 1#32 }, { s with work := left }⟩
  have second : exec ⟨mem, counted.cpu, { s with work := left }⟩ .own = some later := rfl
  have key : Quiet identity tickHandlers later (.interrupt (.master 1)) := by
    refine ⟨fun p inside => tick_room _ p inside, fun r handler found => ?_⟩
    have keyboard : some (keyboardRoutine 0x1E#8) = some handler := by
      rw [← found]
      show _ = s.irqRoutines _
      rw [routines]
      rfl
    obtain rfl := Option.some.inj keyboard
    exact ⟨rfl, rfl⟩
  obtain ⟨mem', left', typed, _, _⟩ := interrupt_quiet (fun _ page => page) _ tickHandlers (countingCode _ _) later
    ⟨held.lines, kernel, held.current, held.shown⟩ (.master 1) (by decide) enabled key
  have run : follow exec start [.own, .interrupt (.master 0), .own, .interrupt (.master 1)] =
      some ⟨mem', later.cpu, { later.lines with work := left' }⟩ := by
    rw [follow_cons exec start counted _ _ first, follow_cons exec counted _ _ _ ticked,
      follow_cons exec _ later _ _ second, follow_cons exec later _ _ _ typed]
    rfl
  have quiet : Throughout exec (Quiet identity tickHandlers) start
      [.own, .interrupt (.master 0), .own, .interrupt (.master 1)] := by
    refine ⟨trivial, fun a moved => ?_⟩
    obtain rfl := Option.some.inj (first.symm.trans moved)
    refine ⟨tick, fun b moved => ?_⟩
    obtain rfl := Option.some.inj (ticked.symm.trans moved)
    refine ⟨trivial, fun c moved => ?_⟩
    obtain rfl := Option.some.inj (second.symm.trans moved)
    exact ⟨key, fun _ _ => trivial⟩
  obtain ⟨⟨alone, counting, _, registers, _⟩, ticks, controllers, _⟩ := interrupts_unseen (fun _ page => page)
    bootClock.sched.currentDirectory tickHandlers (countingCode _ _) bootLines boot_lines_booted
    (installEvents 0x1E#8) start safe installed kernel current shown _ _ quiet run
  refine ⟨start, _, run, ?_, fun p inside => ticks p (decide_eq_true inside), controllers⟩
  obtain rfl := Option.some.inj counting
  exact registers

end GargOS
