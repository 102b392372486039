import GargOS.Scheduler
import GargOS.Lib.CyclicOrder

/-!
The order in which `start_next_process` dispatches: each time the next slot
that is taken, so in as many switches as there are processes each of them once.
-/

namespace GargOS
open ByteMemory CyclicOrder

def liveSlots (s : Scheduler) : Finset Int :=
  ((Finset.range MAX_PROC.toNat).image Int.ofNat).filter fun i => (s.procArr i).pid ≠ NO_PROC

theorem mem_live_slots (s : Scheduler) (i : Int) : i ∈ liveSlots s ↔ s.Taken i := by
  have slots : i ∈ (Finset.range MAX_PROC.toNat).image Int.ofNat ↔ 0 ≤ i ∧ i < MAX_PROC := by
    rw [Finset.mem_image]
    constructor
    · rintro ⟨n, member, rfl⟩
      have less := Finset.mem_range.mp member
      exact ⟨Int.natCast_nonneg n, Int.lt_toNat.mp less⟩
    · rintro ⟨low, high⟩
      refine ⟨i.toNat, Finset.mem_range.mpr ?_, Int.toNat_of_nonneg low⟩
      exact (Int.toNat_lt_toNat (by decide)).mpr high
  rw [liveSlots, Finset.mem_filter, slots, and_assoc]
  rfl

/-- The process in slot `i` is the one that runs next, with its own registers
and directory, for its own time slice. -/
structure Dispatched (s : Scheduler) (frame : Regs) (i : Int) (after : Scheduler) (regs : Regs)
    (slice : Word) : Prop where
  current : after.curProcIndex = i
  directory : after.currentDirectory = (s.procArr i).pageDirectory
  delivered : regs = (after.procArr i).lastStateRegs
  slice : slice = timeSlice (s.procArr i).priorityLevel
  table : ∀ j, after.procArr j =
    if j = s.curProcIndex ∧ s.isFirstRun = false then { s.procArr j with lastStateRegs := frame }
    else s.procArr j

theorem dispatch_slot (s : Scheduler) (frame : Regs) (i j : Int) :
    (dispatch s i frame).1.procArr j =
      if j = s.curProcIndex ∧ s.isFirstRun = false then { s.procArr j with lastStateRegs := frame }
      else s.procArr j := by
  cases first : s.isFirstRun with
  | true => simp [dispatch, first]
  | false =>
      by_cases current : j = s.curProcIndex
      · subst current
        simp [dispatch, first]
      · simp [dispatch, first, current]

theorem dispatch_dispatched (s : Scheduler) (frame : Regs) (i : Int) :
    Dispatched s frame i (dispatch s i frame).1 (dispatch s i frame).2
      (timeSlice (s.procArr i).priorityLevel) := by
  have same := dispatch_slot s frame i i
  refine ⟨rfl, ?_, rfl, rfl, dispatch_slot s frame i⟩
  have directory : (dispatch s i frame).1.currentDirectory =
      ((dispatch s i frame).1.procArr i).pageDirectory := rfl
  rw [directory, same]
  split <;> rfl

section Switch
variable (s : Scheduler) (frame : Regs) (low : 0 ≤ s.curProcIndex) (high : s.curProcIndex < MAX_PROC)
  (active : s.schedulerActive = true)
include low high active

theorem start_next_process_next :
    (∃ d after regs slice, startNextProcess s frame = some (after, regs, slice) ∧
      Next MAX_PROC (liveSlots s) s.curProcIndex d ∧
      Dispatched s frame (place MAX_PROC s.curProcIndex d) after regs slice) ∨
    liveSlots s = ∅ ∧ ∃ slice, startNextProcess s frame = some (s, frame, slice) := by
  rcases start_next_process_result s frame low high active with
    ⟨d, first, last, found, skipped, done⟩ | ⟨nothing, done⟩
  · refine Or.inl ⟨d, _, _, _, done, ⟨first, last, (mem_live_slots s _).mpr found, ?_⟩,
      dispatch_dispatched s frame _⟩
    exact fun e behind before live => skipped e behind before ((mem_live_slots s _).mp live)
  · refine Or.inr ⟨Finset.eq_empty_of_forall_notMem fun i live => ?_, _, done⟩
    exact nothing i ((mem_live_slots s i).mp live)

end Switch

/-- A switch, and whatever happens until the next one that keeps the scheduler
active and the set of processes. -/
def Switches (s after : Scheduler) : Prop :=
  ∃ frame dispatched regs slice, startNextProcess s frame = some (dispatched, regs, slice) ∧
    after.curProcIndex = dispatched.curProcIndex ∧ after.schedulerActive = true ∧
    liveSlots after = liveSlots s

theorem switches_next (s after : Scheduler) (low : 0 ≤ s.curProcIndex)
    (high : s.curProcIndex < MAX_PROC) (active : s.schedulerActive = true)
    (inhabited : (liveSlots s).Nonempty) (switch : Switches s after) :
    ∃ d, Next MAX_PROC (liveSlots s) s.curProcIndex d ∧
      after.curProcIndex = place MAX_PROC s.curProcIndex d := by
  obtain ⟨frame, dispatched, regs, slice, returned, index, _, _⟩ := switch
  rcases start_next_process_next s frame low high active with
    ⟨d, next, regs', slice', done, first, result⟩ | ⟨empty, _⟩
  · rw [returned] at done
    obtain ⟨rfl, _⟩ := Prod.mk.inj (Option.some.inj done)
    exact ⟨d, first, index.trans result.current⟩
  · exact absurd empty inhabited.ne_empty

theorem switches_kept (states : Nat → Scheduler) (low : 0 ≤ (states 0).curProcIndex)
    (high : (states 0).curProcIndex < MAX_PROC) (active : (states 0).schedulerActive = true)
    (inhabited : (liveSlots (states 0)).Nonempty) (n : Nat)
    (run : ∀ k < n, Switches (states k) (states (k + 1))) (k : Nat) (bound : k ≤ n) :
    (0 ≤ (states k).curProcIndex ∧ (states k).curProcIndex < MAX_PROC) ∧
      (states k).schedulerActive = true ∧ liveSlots (states k) = liveSlots (states 0) := by
  induction k with
  | zero => exact ⟨⟨low, high⟩, active, rfl⟩
  | succ k ih =>
      obtain ⟨⟨low', high'⟩, active', live⟩ := ih (by omega)
      have switch := run k (by omega)
      obtain ⟨d, _, here⟩ := switches_next (states k) _ low' high' active' (live ▸ inhabited) switch
      obtain ⟨_, _, _, _, _, _, still, same⟩ := switch
      refine ⟨?_, still, same.trans live⟩
      rw [here]
      exact ⟨Int.emod_nonneg _ (by decide), Int.emod_lt_of_pos _ (by decide)⟩

/-- `start_next_process` is round robin. -/
theorem round_robin (s : Scheduler) (low : 0 ≤ s.curProcIndex) (high : s.curProcIndex < MAX_PROC)
    (active : s.schedulerActive = true) :
    (∀ frame, (∃ d after regs slice, startNextProcess s frame = some (after, regs, slice) ∧
      Next MAX_PROC (liveSlots s) s.curProcIndex d ∧
      Dispatched s frame (place MAX_PROC s.curProcIndex d) after regs slice) ∨
    liveSlots s = ∅ ∧ ∃ slice, startNextProcess s frame = some (s, frame, slice)) ∧
    ∀ states : Nat → Scheduler, states 0 = s →
      (∀ k < (liveSlots s).card, Switches (states k) (states (k + 1))) →
      ∀ i ∈ liveSlots s, ∃! k, k < (liveSlots s).card ∧ (states (k + 1)).curProcIndex = i := by
  refine ⟨fun frame => start_next_process_next s frame low high active, ?_⟩
  rintro states rfl run i member
  have kept := switches_kept states low high active ⟨i, member⟩ _ run
  refine each_visited_once MAX_PROC (liveSlots (states 0)) ?_ (fun k => (states k).curProcIndex)
    ⟨low, high⟩ ?_ i member
  · intro j live
    have taken := (mem_live_slots _ j).mp live
    exact ⟨taken.1, taken.2.1⟩
  · intro k less
    obtain ⟨⟨low', high'⟩, active', live⟩ := kept k (Nat.le_of_lt less)
    have next := switches_next (states k) _ low' high' active' (live ▸ ⟨i, member⟩) (run k less)
    rwa [live] at next

def twoProcesses : Scheduler :=
  ⟨fun i => { (default : Process) with pid := if i = 3 ∨ i = 30 then 0#32 else NO_PROC }, 7, true, false,
    0#32⟩

def afterSwitches : Nat → Scheduler
  | 0 => twoProcesses
  | k + 1 => ((startNextProcess (afterSwitches k) default).map Prod.fst).getD (afterSwitches k)

theorem round_robin_two_processes : (afterSwitches 1).curProcIndex = 30 ∧
    (∃! k, k < 2 ∧ (afterSwitches (k + 1)).curProcIndex = 3) ∧
    ∃! k, k < 2 ∧ (afterSwitches (k + 1)).curProcIndex = 30 := by
  have two : (liveSlots twoProcesses).card = 2 := by decide +kernel
  have switches : ∀ k < 2, Switches (afterSwitches k) (afterSwitches (k + 1)) := by
    intro k less
    have returns : ((startNextProcess (afterSwitches k) default).isSome = true ∧
        (afterSwitches (k + 1)).schedulerActive = true) ∧
        liveSlots (afterSwitches (k + 1)) = liveSlots (afterSwitches k) := by
      revert k
      decide +kernel
    obtain ⟨⟨some, active⟩, live⟩ := returns
    obtain ⟨⟨dispatched, regs, slice⟩, returned⟩ := Option.isSome_iff_exists.mp some
    refine ⟨default, dispatched, regs, slice, returned, ?_, active, live⟩
    rw [afterSwitches, returned]
    rfl
  have fair := (round_robin twoProcesses (by decide) (by decide) rfl).2 afterSwitches rfl
    (by rw [two]; exact switches)
  rw [two] at fair
  exact ⟨by decide +kernel, fair 3 (by decide +kernel), fair 30 (by decide +kernel)⟩

end GargOS
