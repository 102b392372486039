import GargOS.System
import GargOS.Lib.Runs

/-!
process_list.c and scheduler.c: the process table, and the switch from the
process that runs to the next one whose slot is taken. A table slot is an `int`
index; the slots are those from 0 to `MAX_PROC`.
-/

namespace GargOS
open ByteMemory

def MAX_PROC : Int := 32

def NO_PROC : Word := 0xFFFFFFFF#32

structure Scheduler where
  procArr : Int → Process
  curProcIndex : Int
  schedulerActive : Bool
  isFirstRun : Bool
  currentDirectory : Word

def Scheduler.setSlot (s : Scheduler) (i : Int) (proc : Process) : Scheduler :=
  { s with procArr := fun j => if j = i then proc else s.procArr j }

section Slots
variable (s : Scheduler) (i j : Int) (proc : Process)

@[simp] theorem set_slot_same : (s.setSlot i proc).procArr i = proc := if_pos rfl

@[simp] theorem set_slot_other (different : j ≠ i) :
    (s.setSlot i proc).procArr j = s.procArr j := if_neg different

@[simp] theorem set_slot_cur : (s.setSlot i proc).curProcIndex = s.curProcIndex := rfl

@[simp] theorem set_slot_active : (s.setSlot i proc).schedulerActive = s.schedulerActive := rfl

@[simp] theorem set_slot_first : (s.setSlot i proc).isFirstRun = s.isFirstRun := rfl

end Slots

/-- The loop of `init_process_list` after `n` rounds. -/
def initProcessList (s : Scheduler) : Nat → Scheduler
  | 0 => s
  | n + 1 =>
      let s := initProcessList s n
      s.setSlot n { s.procArr n with pid := NO_PROC }

def addProcessFrom (s : Scheduler) (proc : Process) : Nat → Int → Scheduler × Int
  | 0, _ => (s, -1)
  | rounds + 1, i =>
      if (s.procArr i).pid = NO_PROC then
        (s.setSlot i { proc with pid := BitVec.ofInt 32 i }, i)
      else addProcessFrom s proc rounds (i + 1)

def addProcess (s : Scheduler) (proc : Process) : Scheduler × Int :=
  addProcessFrom s proc 32 0

/-- The loop of `remove_process` after `n` rounds. -/
def removeProcessRounds (s : Scheduler) (pid : Word) : Nat → Scheduler
  | 0 => s
  | n + 1 =>
      let s := removeProcessRounds s pid n
      if (s.procArr n).pid = pid then s.setSlot n { s.procArr n with pid := NO_PROC } else s

def removeProcess (s : Scheduler) (proc : Process) : Scheduler :=
  removeProcessRounds s proc.pid 32

def timeSlice (priorityLevel : Byte) : Word :=
  if priorityLevel = 0#8 then 100#32
  else if priorityLevel = 1#8 then 50#32
  else if priorityLevel = 2#8 then 25#32
  else if priorityLevel = 3#8 then 10#32
  else 5#32

/-- `init_scheduler`; the registers it does not name keep what the memory of
the table holds, and `stack` is what `kmalloc` returns. The slice it sets is
the timer's business. -/
def initScheduler (s : Scheduler) (kernelDirectory kernelFunc stack : Word) : Scheduler :=
  let s := initProcessList s 32
  let kernelProc := s.procArr 0
  let useresp := stack + 0x1000#32
  let regs := { kernelProc.lastStateRegs with
    ds := 0x10#32, cs := 0x08#32, eip := kernelFunc, ss := 0x10#32, es := 0x10#32, fs := 0x10#32,
    gs := 0x10#32, eflags := 0x202#32, useresp := useresp, ebp := useresp }
  { s.setSlot 0 { kernelProc with
      priorityLevel := 0#8, pid := 0#32, pageDirectory := kernelDirectory, lastStateRegs := regs } with
    curProcIndex := 0 }

def nextIndex (i : Int) : Int := if i + 1 ≥ MAX_PROC then 0 else i + 1

/-- What `start_next_process` does when slot `i` is taken. -/
def dispatch (s : Scheduler) (i : Int) (currentProcRegs : Regs) : Scheduler × Regs :=
  -- at the first switch no process has been running whose registers could be saved
  let saved := if s.isFirstRun then { s with isFirstRun := false }
    else s.setSlot s.curProcIndex
      { s.procArr s.curProcIndex with lastStateRegs := currentProcRegs }
  ({ saved with currentDirectory := (saved.procArr i).pageDirectory, curProcIndex := i },
    (saved.procArr i).lastStateRegs)

/-- The `do … while` of `start_next_process`; a dispatch ends it. -/
def startNextFrom (s : Scheduler) (currentProcRegs : Regs) :
    Nat → Int → Option (Scheduler × Regs)
  | 0, _ => none
  | rounds + 1, i =>
      let i := nextIndex i
      if (s.procArr i).pid ≠ NO_PROC then some (dispatch s i currentProcRegs)
      else if s.curProcIndex ≠ i then startNextFrom s currentProcRegs rounds i
      else some (s, currentProcRegs)

/-- The state, the registers and the time slice `start_next_process` returns. -/
def startNextProcess (s : Scheduler) (currentProcRegs : Regs) :
    Option (Scheduler × Regs × Word) :=
  if s.schedulerActive then do
    let (s, regs) ← startNextFrom s currentProcRegs 32 s.curProcIndex
    some (s, regs, timeSlice (s.procArr s.curProcIndex).priorityLevel)
  else some (s, currentProcRegs, 50#32)

/-! The table after each operation. -/

def Scheduler.Taken (s : Scheduler) (i : Int) : Prop :=
  0 ≤ i ∧ i < MAX_PROC ∧ (s.procArr i).pid ≠ NO_PROC

instance (s : Scheduler) (i : Int) : Decidable (s.Taken i) := inferInstanceAs (Decidable (_ ∧ _ ∧ _))

theorem add_process_from_result (s : Scheduler) (proc : Process) (rounds : Nat) (i : Int)
    (low : 0 ≤ i) (ends : i + rounds = MAX_PROC) :
    (addProcessFrom s proc rounds i = (s, -1) ∧ ∀ j, i ≤ j → j < MAX_PROC → s.Taken j) ∨
    ∃ slot, i ≤ slot ∧ slot < MAX_PROC ∧ ¬ s.Taken slot ∧ (∀ j, i ≤ j → j < slot → s.Taken j) ∧
      addProcessFrom s proc rounds i =
        (s.setSlot slot { proc with pid := BitVec.ofInt 32 slot }, slot) := by
  induction rounds generalizing i with
  | zero => exact Or.inl ⟨rfl, fun j first last => by omega⟩
  | succ rounds ih =>
      by_cases free : (s.procArr i).pid = NO_PROC
      · refine Or.inr ⟨i, Int.le_refl i, by omega, fun taken => taken.2.2 free,
          fun j first last => by omega, ?_⟩
        rw [addProcessFrom, if_pos free]
      · have here : s.Taken i := ⟨low, by omega, free⟩
        have rest := ih (i + 1) (by omega) (by omega)
        rw [addProcessFrom, if_neg free]
        rcases rest with ⟨full, taken⟩ | ⟨slot, first, last, empty, taken, done⟩
        · refine Or.inl ⟨full, fun j lower upper => ?_⟩
          rcases Int.le_iff_lt_or_eq.mp lower with later | rfl
          · exact taken j (by omega) upper
          · exact here
        · refine Or.inr ⟨slot, by omega, last, empty, fun j lower upper => ?_, done⟩
          rcases Int.le_iff_lt_or_eq.mp lower with later | rfl
          · exact taken j (by omega) upper
          · exact here

theorem add_process_result (s : Scheduler) (proc : Process) :
    (addProcess s proc = (s, -1) ∧ ∀ j, 0 ≤ j → j < MAX_PROC → s.Taken j) ∨
    ∃ slot, 0 ≤ slot ∧ slot < MAX_PROC ∧ ¬ s.Taken slot ∧ (∀ j, 0 ≤ j → j < slot → s.Taken j) ∧
      addProcess s proc = (s.setSlot slot { proc with pid := BitVec.ofInt 32 slot }, slot) :=
  add_process_from_result s proc 32 0 (Int.le_refl 0) rfl

theorem remove_rounds_slot (s : Scheduler) (pid : Word) (n : Nat) (j : Int) :
    (removeProcessRounds s pid n).procArr j =
      if 0 ≤ j ∧ j < n ∧ (s.procArr j).pid = pid then { s.procArr j with pid := NO_PROC }
      else s.procArr j := by
  induction n generalizing j with
  | zero =>
      rw [if_neg (by omega)]
      rfl
  | succ n ih =>
      have here : (removeProcessRounds s pid n).procArr n = s.procArr n := by
        rw [ih, if_neg (by omega)]
      simp only [removeProcessRounds, here]
      by_cases last : j = n
      · subst last
        split
        next found => rw [if_pos ⟨by omega, by omega, found⟩, set_slot_same]
        next other => rw [if_neg (fun all => other all.2.2), here]
      · have same : (0 ≤ j ∧ j < ((n + 1 : Nat) : Int) ∧ (s.procArr j).pid = pid) ↔
            (0 ≤ j ∧ j < (n : Int) ∧ (s.procArr j).pid = pid) :=
          and_congr_right fun _ => and_congr_left fun _ => by omega
        split
        next found => simp only [set_slot_other _ _ _ _ last, ih, same]
        next other => simp only [ih, same]

theorem remove_process_slot (s : Scheduler) (proc : Process) (j : Int) :
    (removeProcess s proc).procArr j =
      if 0 ≤ j ∧ j < MAX_PROC ∧ (s.procArr j).pid = proc.pid then { s.procArr j with pid := NO_PROC }
      else s.procArr j := by
  rw [removeProcess, remove_rounds_slot]
  rfl

theorem remove_rounds_rest (s : Scheduler) (pid : Word) (n : Nat) :
    (removeProcessRounds s pid n).curProcIndex = s.curProcIndex ∧
      (removeProcessRounds s pid n).schedulerActive = s.schedulerActive ∧
      (removeProcessRounds s pid n).isFirstRun = s.isFirstRun := by
  induction n with
  | zero => exact ⟨rfl, rfl, rfl⟩
  | succ n ih =>
      simp only [removeProcessRounds]
      split
      · simpa using ih
      · exact ih

theorem remove_process_rest (s : Scheduler) (proc : Process) :
    (removeProcess s proc).curProcIndex = s.curProcIndex ∧
      (removeProcess s proc).schedulerActive = s.schedulerActive ∧
      (removeProcess s proc).isFirstRun = s.isFirstRun := by
  rw [removeProcess]
  exact remove_rounds_rest s proc.pid 32

/-- The slot `d` places behind `cur_proc_index` in cyclic order. -/
def Scheduler.slotBehind (s : Scheduler) (d : Int) : Int := (s.curProcIndex + d) % MAX_PROC

theorem next_slot_behind (s : Scheduler) (k : Int) :
    nextIndex (s.slotBehind k) = s.slotBehind (k + 1) := by
  unfold nextIndex Scheduler.slotBehind MAX_PROC
  split <;> omega

section Switch
variable (s : Scheduler) (frame : Regs) (low : 0 ≤ s.curProcIndex) (high : s.curProcIndex < MAX_PROC)
include low high

omit low high in
theorem slot_behind_cases (i : Int) (inside : 0 ≤ i ∧ i < MAX_PROC) :
    ∃ d, 0 < d ∧ d ≤ MAX_PROC ∧ i = s.slotBehind d := by
  unfold Scheduler.slotBehind MAX_PROC at *
  exact ⟨(i - s.curProcIndex - 1) % 32 + 1, by omega, by omega, by omega⟩

theorem start_next_from_result (rounds : Nat) (k : Int) (before : 0 ≤ k) (ends : k + rounds = MAX_PROC)
    (going : k < MAX_PROC) :
    (∃ d, k < d ∧ d ≤ MAX_PROC ∧ s.Taken (s.slotBehind d) ∧
      (∀ e, k < e → e < d → ¬ s.Taken (s.slotBehind e)) ∧
      startNextFrom s frame rounds (s.slotBehind k) = some (dispatch s (s.slotBehind d) frame)) ∨
    (∀ e, k < e → e ≤ MAX_PROC → ¬ s.Taken (s.slotBehind e)) ∧
      startNextFrom s frame rounds (s.slotBehind k) = some (s, frame) := by
  induction rounds generalizing k with
  | zero => omega
  | succ rounds ih =>
      have inside : 0 ≤ s.slotBehind (k + 1) ∧ s.slotBehind (k + 1) < MAX_PROC := by
        unfold Scheduler.slotBehind MAX_PROC
        omega
      simp only [startNextFrom, next_slot_behind]
      by_cases taken : (s.procArr (s.slotBehind (k + 1))).pid ≠ NO_PROC
      · refine Or.inl ⟨k + 1, by omega, by omega, ⟨inside.1, inside.2, taken⟩,
          fun e first last => by omega, ?_⟩
        rw [if_pos taken]
      · have free : ¬ s.Taken (s.slotBehind (k + 1)) := fun here => taken here.2.2
        rw [if_neg taken]
        -- a search that is back at the current slot has met all of them
        by_cases last : s.curProcIndex = s.slotBehind (k + 1)
        · have all : k + 1 = MAX_PROC := by
            unfold Scheduler.slotBehind MAX_PROC at *
            omega
          refine Or.inr ⟨fun e first final => ?_, by rw [if_neg (not_not.mpr last)]⟩
          have only : e = k + 1 := by omega
          exact only ▸ free
        · have more : k + 1 < MAX_PROC := by
            unfold Scheduler.slotBehind MAX_PROC at *
            omega
          rw [if_pos last]
          rcases ih (k + 1) (by omega) (by omega) more with
            ⟨d, first, final, found, skipped, done⟩ | ⟨nothing, done⟩
          · refine Or.inl ⟨d, by omega, final, found, fun e lower upper => ?_, done⟩
            rcases Int.le_iff_lt_or_eq.mp (Int.add_one_le_of_lt lower) with later | rfl
            · exact skipped e later upper
            · exact free
          · refine Or.inr ⟨fun e lower upper => ?_, done⟩
            rcases Int.le_iff_lt_or_eq.mp (Int.add_one_le_of_lt lower) with later | rfl
            · exact nothing e later upper
            · exact free

/-- `start_next_process` dispatches the first slot that is taken behind the
current one in cyclic order, or leaves everything if no slot is. -/
theorem start_next_process_result (active : s.schedulerActive = true) :
    (∃ d, 0 < d ∧ d ≤ MAX_PROC ∧ s.Taken (s.slotBehind d) ∧
      (∀ e, 0 < e → e < d → ¬ s.Taken (s.slotBehind e)) ∧
      startNextProcess s frame = some ((dispatch s (s.slotBehind d) frame).1,
        (dispatch s (s.slotBehind d) frame).2,
        timeSlice (s.procArr (s.slotBehind d)).priorityLevel)) ∨
    (∀ i, ¬ s.Taken i) ∧ startNextProcess s frame =
      some (s, frame, timeSlice (s.procArr s.curProcIndex).priorityLevel) := by
  have start : s.slotBehind 0 = s.curProcIndex := by
    unfold Scheduler.slotBehind MAX_PROC at *
    omega
  have search := start_next_from_result s frame low high 32 0 (Int.le_refl 0) rfl (by decide)
  rw [start] at search
  rcases search with ⟨d, first, last, found, skipped, done⟩ | ⟨nothing, done⟩
  · refine Or.inl ⟨d, first, last, found, skipped, ?_⟩
    have priority : ((dispatch s (s.slotBehind d) frame).1.procArr (s.slotBehind d)).priorityLevel =
        (s.procArr (s.slotBehind d)).priorityLevel := by
      unfold dispatch
      split
      · rfl
      · by_cases same : s.slotBehind d = s.curProcIndex
        · rw [same]
          simp
        · simp [same]
    have current : (dispatch s (s.slotBehind d) frame).1.curProcIndex = s.slotBehind d := rfl
    simp only [startNextProcess, active, if_true, done, Option.bind_eq_bind, Option.bind_some, current,
      priority]
  · refine Or.inr ⟨fun i taken => ?_, ?_⟩
    · obtain ⟨d, first, last, rfl⟩ := slot_behind_cases s i ⟨taken.1, taken.2.1⟩
      exact nothing d first last taken
    · simp only [startNextProcess, active, if_true, done, Option.bind_eq_bind, Option.bind_some]

end Switch
end GargOS
