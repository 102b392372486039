import GargOS.SchedulerRuns
import GargOS.RoundRobin

/-!
The process table under any order of calls: a slot that is taken holds its own
index as pid, so a pid names one slot. Adding fills the lowest free slot and
removing frees the one slot with that pid.
-/

namespace GargOS
open ByteMemory Runs

def Scheduler.Free (s : Scheduler) (i : Int) : Prop :=
  0 ≤ i ∧ i < MAX_PROC ∧ (s.procArr i).pid = NO_PROC

/-- The calls that change the table or the scheduler's state; `main` activates
the scheduler at some point after `init_scheduler`. -/
inductive TableStep (s : Scheduler) : Scheduler → Prop
  | added (proc : Process) : TableStep s (addProcess s proc).1
  | removed (proc : Process) : TableStep s (removeProcess s proc)
  | switched (frame : Regs) (next : Scheduler) (regs : Regs) (slice : Word)
      (returned : startNextProcess s frame = some (next, regs, slice)) : TableStep s next
  | activated : TableStep s { s with schedulerActive := true }

/-- The state after `init_scheduler`, whatever the memory held before. -/
def FreshTable (s : Scheduler) : Prop :=
  ∃ before kernelDirectory kernelFunc stack, s = initScheduler before kernelDirectory kernelFunc stack

structure Indexed (s : Scheduler) : Prop where
  inside : 0 ≤ s.curProcIndex ∧ s.curProcIndex < MAX_PROC
  slots : ∀ i, 0 ≤ i → i < MAX_PROC → (s.procArr i).pid = BitVec.ofInt 32 i ∨ (s.procArr i).pid = NO_PROC

theorem not_free_taken (s : Scheduler) (i : Int) (inside : 0 ≤ i ∧ i < MAX_PROC) :
    ¬ s.Free i ↔ s.Taken i := by
  unfold Scheduler.Free Scheduler.Taken
  constructor
  · exact fun taken => ⟨inside.1, inside.2, fun free => taken ⟨inside.1, inside.2, free⟩⟩
  · exact fun taken free => taken.2.2 free.2.2

theorem slot_pid_inj (i j : Int) (first : 0 ≤ i ∧ i < MAX_PROC) (second : 0 ≤ j ∧ j < MAX_PROC)
    (same : BitVec.ofInt 32 i = BitVec.ofInt 32 j) : i = j := by
  unfold MAX_PROC at first second
  have nats := congrArg BitVec.toNat same
  rw [BitVec.toNat_ofInt, BitVec.toNat_ofInt] at nats
  omega

theorem indexed_distinct (s : Scheduler) (indexed : Indexed s) (i j : Int) (first : s.Taken i)
    (second : s.Taken j) (same : (s.procArr i).pid = (s.procArr j).pid) : i = j := by
  have left := (indexed.slots i first.1 first.2.1).resolve_right first.2.2
  have right := (indexed.slots j second.1 second.2.1).resolve_right second.2.2
  rw [left, right] at same
  exact slot_pid_inj i j ⟨first.1, first.2.1⟩ ⟨second.1, second.2.1⟩ same

/-! What each operation keeps. -/

theorem fresh_table_indexed (s : Scheduler) (fresh : FreshTable s) : Indexed s := by
  obtain ⟨before, kernelDirectory, kernelFunc, stack, rfl⟩ := fresh
  refine ⟨⟨Int.le_refl 0, (by decide : (0 : Int) < MAX_PROC)⟩, ?_⟩
  intro i low high
  simp only [initScheduler]
  by_cases kernel : i = 0
  · subst kernel
    rw [set_slot_same]
    exact Or.inl rfl
  · rw [set_slot_other _ _ _ _ kernel]
    exact Or.inr (init_list_slot before 32 i low high)

section Operations
variable (s : Scheduler) (indexed : Indexed s)
include indexed

theorem set_slot_indexed (slot : Int) (proc : Process)
    (pid : proc.pid = BitVec.ofInt 32 slot ∨ proc.pid = NO_PROC) : Indexed (s.setSlot slot proc) := by
  refine ⟨indexed.inside, fun i low high => ?_⟩
  by_cases here : i = slot
  · subst here
    rw [set_slot_same]
    exact pid
  · rw [set_slot_other _ _ _ _ here]
    exact indexed.slots i low high

theorem add_process_indexed (proc : Process) : Indexed (addProcess s proc).1 := by
  rcases add_process_result s proc with ⟨full, _⟩ | ⟨slot, _, _, _, _, done⟩
  · rw [full]
    exact indexed
  · rw [done]
    exact set_slot_indexed s indexed slot _ (Or.inl rfl)

theorem remove_process_indexed (proc : Process) : Indexed (removeProcess s proc) := by
  refine ⟨?_, fun i low high => ?_⟩
  · rw [(remove_process_rest s proc).1]
    exact indexed.inside
  rw [remove_process_slot]
  split
  · exact Or.inr rfl
  · exact indexed.slots i low high

theorem start_next_process_pids (frame : Regs) :
    ∃ next regs slice, startNextProcess s frame = some (next, regs, slice) ∧
      (0 ≤ next.curProcIndex ∧ next.curProcIndex < MAX_PROC) ∧
      ∀ i, (next.procArr i).pid = (s.procArr i).pid := by
  by_cases active : s.schedulerActive = true
  · rcases start_next_process_result s frame indexed.inside.1 indexed.inside.2 active with
      ⟨d, _, _, taken, _, done⟩ | ⟨_, done⟩
    · refine ⟨_, _, _, done, ⟨taken.1, taken.2.1⟩, fun i => ?_⟩
      rw [dispatch_slot]
      split <;> rfl
    · exact ⟨_, _, _, done, indexed.inside, fun i => rfl⟩
  · exact ⟨s, frame, 50#32, by rw [startNextProcess, if_neg active], indexed.inside, fun i => rfl⟩

theorem table_step_indexed (after : Scheduler) (step : TableStep s after) : Indexed after := by
  cases step with
  | added proc => exact add_process_indexed s indexed proc
  | removed proc => exact remove_process_indexed s indexed proc
  | switched frame next regs slice returned =>
      obtain ⟨next', regs', slice', done, inside, pids⟩ := start_next_process_pids s indexed frame
      rw [returned] at done
      obtain ⟨rfl, _⟩ := Prod.mk.inj (Option.some.inj done)
      refine ⟨inside, fun i low high => ?_⟩
      rw [pids]
      exact indexed.slots i low high
  | activated => exact ⟨indexed.inside, indexed.slots⟩

end Operations

theorem reached_indexed (s : Scheduler) (reached : Reached FreshTable TableStep s) : Indexed s :=
  reached_invariant Indexed fresh_table_indexed
    (fun s after indexed step => table_step_indexed s indexed after step) s reached

/-! The operations on a table with that invariant. -/

/-- `add_process` fills the lowest free slot under that slot's pid. -/
structure Adds (s : Scheduler) (proc : Process) : Prop where
  lowest : ∀ slot, s.Free slot → (∀ j < slot, ¬ s.Free j) →
    addProcess s proc = (s.setSlot slot { proc with pid := BitVec.ofInt 32 slot }, slot)
  full : (addProcess s proc).2 = -1 ↔ ∀ slot, ¬ s.Free slot
  unchanged : (addProcess s proc).2 = -1 → addProcess s proc = (s, -1)

/-- `remove_process` frees the slot with that pid, if there is one. -/
structure Removes (s : Scheduler) (proc : Process) : Prop where
  frees : ∀ slot, s.Taken slot → (s.procArr slot).pid = proc.pid →
    removeProcess s proc = s.setSlot slot { s.procArr slot with pid := NO_PROC }
  unchanged : (∀ slot, s.Taken slot → (s.procArr slot).pid ≠ proc.pid) → removeProcess s proc = s

theorem add_process_adds (s : Scheduler) (proc : Process) : Adds s proc := by
  rcases add_process_result s proc with ⟨done, taken⟩ | ⟨free, low, high, empty, below, done⟩
  · have none_free : ∀ slot, ¬ s.Free slot := fun slot free =>
      (taken slot free.1 free.2.1).2.2 free.2.2
    refine ⟨fun slot free _ => absurd free (none_free slot), ?_, fun _ => done⟩
    rw [done]
    exact iff_of_true rfl none_free
  · have is_free : s.Free free :=
      not_not.mp fun taken => empty ((not_free_taken s free ⟨low, high⟩).mp taken)
    refine ⟨fun slot here lower => ?_, ?_, fun returned => ?_⟩
    · have same : slot = free := by
        rcases lt_trichotomy slot free with less | same | greater
        · exact absurd here.2.2 (below slot here.1 less).2.2
        · exact same
        · exact absurd is_free (lower free greater)
      rw [same, done]
    · rw [done]
      exact iff_of_false (by dsimp only; omega) fun none_free => none_free free is_free
    · rw [done] at returned
      dsimp only at returned
      omega

theorem remove_rounds_directory (s : Scheduler) (pid : Word) (n : Nat) :
    (removeProcessRounds s pid n).currentDirectory = s.currentDirectory := by
  induction n with
  | zero => rfl
  | succ n ih =>
      simp only [removeProcessRounds]
      split
      · exact ih
      · exact ih

theorem scheduler_ext (s after : Scheduler) (table : ∀ i, after.procArr i = s.procArr i)
    (rest : after.curProcIndex = s.curProcIndex ∧ after.schedulerActive = s.schedulerActive ∧
      after.isFirstRun = s.isFirstRun)
    (directory : after.currentDirectory = s.currentDirectory) : after = s := by
  cases s
  cases after
  obtain ⟨current, active, first⟩ := rest
  simp only [Scheduler.mk.injEq]
  exact ⟨funext table, current, active, first, directory⟩

theorem remove_process_removes (s : Scheduler) (proc : Process) (indexed : Indexed s) :
    Removes s proc := by
  have rest := remove_process_rest s proc
  have directory := remove_rounds_directory s proc.pid 32
  constructor
  · intro slot taken found
    refine scheduler_ext _ _ (fun i => ?_) rest directory
    rw [remove_process_slot]
    by_cases here : i = slot
    · subst here
      rw [if_pos ⟨taken.1, taken.2.1, found⟩, set_slot_same]
    · rw [set_slot_other _ _ _ _ here, if_neg]
      rintro ⟨low, high, same⟩
      -- a free slot has the pid of no process, and a taken one its own
      have other : s.Taken i := ⟨low, high, by rw [same, ← found]; exact taken.2.2⟩
      exact here (indexed_distinct s indexed i slot other taken (same.trans found.symm))
  · intro nobody
    refine scheduler_ext _ _ (fun i => ?_) rest directory
    rw [remove_process_slot]
    split
    next found =>
      obtain ⟨low, high, same⟩ := found
      have free : (s.procArr i).pid = NO_PROC :=
        not_not.mp fun taken => nobody i ⟨low, high, taken⟩ same
      rw [← free]
    next other => rfl

/-- The process table keeps its pids under every order of calls, and adding and
removing touch the one slot they are about. -/
theorem process_table_kept (s : Scheduler) (reached : Reached FreshTable TableStep s) :
    (∀ i, 0 ≤ i → i < MAX_PROC →
      (s.procArr i).pid = BitVec.ofInt 32 i ∨ (s.procArr i).pid = NO_PROC) ∧
    (∀ i j, s.Taken i → s.Taken j → (s.procArr i).pid = (s.procArr j).pid → i = j) ∧
    (∀ proc, Adds s proc) ∧ (∀ proc, Removes s proc) ∧
    ∀ frame, ∃ next regs slice, startNextProcess s frame = some (next, regs, slice) ∧
      ∀ i, (next.procArr i).pid = (s.procArr i).pid := by
  have indexed := reached_indexed s reached
  refine ⟨indexed.slots, indexed_distinct s indexed, add_process_adds s,
    fun proc => remove_process_removes s proc indexed, fun frame => ?_⟩
  obtain ⟨next, regs, slice, done, _, pids⟩ := start_next_process_pids s indexed frame
  exact ⟨next, regs, slice, done, pids⟩

/-- A process is added beside the kernel's, and the kernel's is removed. -/
def reusedTable : Scheduler :=
  removeProcess (addProcess (initScheduler bareScheduler 0x5000#32 0x100#32 0x6000#32)
    (procOf 0x100#32)).1 { (default : Process) with pid := 0#32 }

theorem process_table_kept_reused :
    addProcess reusedTable (procOf 0x200#32) =
      (reusedTable.setSlot 0 { procOf 0x200#32 with pid := 0#32 }, 0) ∧
    removeProcess reusedTable { (default : Process) with pid := 1#32 } =
      reusedTable.setSlot 1 { reusedTable.procArr 1 with pid := NO_PROC } := by
  have reached : Reached FreshTable TableStep reusedTable :=
    Reached.next (Reached.next (Reached.start ⟨bareScheduler, _, _, _, rfl⟩) (TableStep.added _))
      (TableStep.removed _)
  obtain ⟨_, _, adds, removes, _⟩ := process_table_kept reusedTable reached
  constructor
  · exact (adds (procOf 0x200#32)).lowest 0 ⟨by decide, by decide, by decide +kernel⟩
      fun j below free => absurd free.1 (by omega)
  · exact (removes _).frees 1 ⟨by decide, by decide, by decide +kernel⟩ (by decide +kernel)

end GargOS
