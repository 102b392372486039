import GargOS.InterruptFrames
import GargOS.Paging
import GargOS.SchedulerRuns
import GargOS.Lib.Records

/-!
process_list.c and scheduler.c on the bytes of `proc_arr`: the array is taken
from `kmalloc`, and its structures are read and written where they lie. Each
function does to the structures what its model does to the table of processes.
-/

namespace GargOS
open ByteMemory ByteLanes WordFrames Records

/-- The words of a `process`, up to its `priority_level`. -/
def Process.words (p : Process) : List Word :=
  [p.heapStackBoundary, p.heapSize, p.pageDirectory, p.pid] ++ p.lastStateRegs.words

/-- The structure a `process *` points to. -/
def readProcess (m : Memory) (a : Word) : Process where
  heapStackBoundary := load32 m a
  heapSize := load32 m (a + 4#32)
  pageDirectory := load32 m (a + 8#32)
  pid := load32 m (a + 12#32)
  lastStateRegs := readRegs m (a + 16#32)
  priorityLevel := m (a + 92#32)

/-- The assignment of a whole structure; what it does to the padding behind
`priority_level` is left out. -/
def storeProcess (m : Memory) (a : Word) (p : Process) : Memory :=
  write (storeWords id m a p.words) (a + 92#32) p.priorityLevel

def storeRegs (m : Memory) (a : Word) (r : Regs) : Memory := storeWords id m a r.words

theorem process_words_length (p : Process) : p.words.length = 23 := rfl

theorem read_process_words (m : Memory) (a : Word) : (readProcess m a).words = loadWords m a 23 := by
  simp only [Process.words, Regs.words, readProcess, readRegs, loadWords, BitVec.add_assoc, BitVec.reduceAdd,
    List.cons_append, List.nil_append]

theorem process_words_ext (p q : Process) (words : p.words = q.words)
    (priority : p.priorityLevel = q.priorityLevel) : p = q := by
  cases p with
  | mk hsb hs pd pid regs level =>
      cases q with
      | mk hsb' hs' pd' pid' regs' level' =>
          cases regs
          cases regs'
          simp only [Process.words, Regs.words, List.cons_append, List.nil_append, List.cons.injEq,
            and_true] at words
          simp only [Process.mk.injEq, Regs.mk.injEq]
          tauto

theorem read_process_congr (m after : Memory) (a : Word) (same : ∀ x, InSpan a 96 x → after x = m x) :
    readProcess after a = readProcess m a := by
  apply process_words_ext
  · rw [read_process_words, read_process_words]
    apply List.ext_getElem
    · rw [load_words_length, load_words_length]
    · intro k bound _
      rw [load_words_length] at bound
      rw [load_words_word, load_words_word]
      refine load32_congr _ _ _ fun x inside => same x ?_
      have further := in_span_shift a (4 * k) 4 x inside
      exact Nat.lt_of_lt_of_le further (by omega)
  · exact same _ (offset_in_span a 92#32 96 (by decide))

/-- A `process`, with the padding at its end. -/
def processFormat : Format Process := ⟨96, readProcess, read_process_congr⟩

/-- `&proc_arr[i]`. -/
def procAddress (procArr : Word) (i : Int) : Word := elementAddress processFormat procArr i

/-- The variables of process_list.c and scheduler.c beside those of paging.c. -/
structure Kernel where
  paging : Paging
  procArr : Word
  curProcIndex : Int
  schedulerActive : Bool
  isFirstRun : Bool

def Kernel.withMem (k : Kernel) (m : Memory) : Kernel := { k with paging := { k.paging with mem := m } }

namespace ProcArr

/-- The loop of `init_process_list` after `n` rounds. -/
def initProcessList (m : Memory) (procArr : Word) : Nat → Memory
  | 0 => m
  | n + 1 => store32 (initProcessList m procArr n) (procAddress procArr n + 12#32) NO_PROC

def addProcessFrom (m : Memory) (procArr : Word) (proc : Process) : Nat → Int → Memory × Int
  | 0, _ => (m, -1)
  | rounds + 1, i =>
      if load32 m (procAddress procArr i + 12#32) = NO_PROC then
        let m := storeProcess m (procAddress procArr i) proc
        (store32 m (procAddress procArr i + 12#32) (BitVec.ofInt 32 i), i)
      else addProcessFrom m procArr proc rounds (i + 1)

def addProcess (m : Memory) (procArr : Word) (proc : Process) : Memory × Int :=
  addProcessFrom m procArr proc 32 0

/-- The loop of `remove_process` after `n` rounds. -/
def removeProcessRounds (m : Memory) (procArr pid : Word) : Nat → Memory
  | 0 => m
  | n + 1 =>
      let m := removeProcessRounds m procArr pid n
      if load32 m (procAddress procArr n + 12#32) = pid then store32 m (procAddress procArr n + 12#32) NO_PROC
      else m

def removeProcess (m : Memory) (procArr : Word) (proc : Process) : Memory :=
  removeProcessRounds m procArr proc.pid 32

/-- `init_scheduler`. The slice it sets is the timer's business. -/
def initScheduler (k : Kernel) (kernelFunc : Word) : Kernel :=
  let (kernelProc, paging) := kmalloc k.paging 3072#32
  let m := initProcessList paging.mem kernelProc 32
  let m := write m (kernelProc + 92#32) 0#8
  let m := store32 m (kernelProc + 12#32) 0#32
  let m := store32 m (kernelProc + 8#32) paging.kernelDirectory
  let m := store32 m (kernelProc + 28#32) 0x10#32
  let m := store32 m (kernelProc + 76#32) 0x08#32
  let m := store32 m (kernelProc + 72#32) kernelFunc
  let m := store32 m (kernelProc + 88#32) 0x10#32
  let m := store32 m (kernelProc + 24#32) 0x10#32
  let m := store32 m (kernelProc + 20#32) 0x10#32
  let m := store32 m (kernelProc + 16#32) 0x10#32
  let m := store32 m (kernelProc + 80#32) 0x202#32
  let (stack, paging) := kmalloc { paging with mem := m } 0x1000#32
  let m := store32 paging.mem (kernelProc + 84#32) (stack + 0x1000#32)
  let m := store32 m (kernelProc + 40#32) (load32 m (kernelProc + 84#32))
  { k with paging := { paging with mem := m }, procArr := kernelProc, curProcIndex := 0 }

/-- What `start_next_process` does when slot `i` is taken. -/
def dispatch (k : Kernel) (i : Int) (currentProcRegs : Regs) : Kernel × Regs :=
  let k := if k.isFirstRun then { k with isFirstRun := false }
    else k.withMem (storeRegs k.paging.mem (procAddress k.procArr k.curProcIndex + 16#32) currentProcRegs)
  let regs := readRegs k.paging.mem (procAddress k.procArr i + 16#32)
  let directory := load32 k.paging.mem (procAddress k.procArr i + 8#32)
  ({ k with paging := { k.paging with currentDir := directory }, curProcIndex := i }, regs)

/-- The `do … while` of `start_next_process`; a dispatch ends it. -/
def startNextFrom (k : Kernel) (currentProcRegs : Regs) : Nat → Int → Option (Kernel × Regs)
  | 0, _ => none
  | rounds + 1, i =>
      let i := nextIndex i
      if load32 k.paging.mem (procAddress k.procArr i + 12#32) ≠ NO_PROC then some (dispatch k i currentProcRegs)
      else if k.curProcIndex ≠ i then startNextFrom k currentProcRegs rounds i
      else some (k, currentProcRegs)

def startNextProcess (k : Kernel) (currentProcRegs : Regs) : Option (Kernel × Regs × Word) :=
  if k.schedulerActive then do
    let (k, regs) ← startNextFrom k currentProcRegs 32 k.curProcIndex
    some (k, regs, timeSlice (k.paging.mem (procAddress k.procArr k.curProcIndex + 92#32)))
  else some (k, currentProcRegs, 50#32)

end ProcArr

/-! What the assignments do to one structure. -/

section Fields
variable (m : Memory) (a : Word)

theorem process_byte_outside (k : Nat) (bound : 4 * k + 4 ≤ 92) :
    ¬ InSpan (a + BitVec.ofNat 32 (4 * k)) 4 (a + 92#32) := by
  unfold InSpan
  bv_omega

theorem word_written (k : Nat) (v : Word) (bound : k < 23) :
    (readProcess (store32 m (a + BitVec.ofNat 32 (4 * k)) v) a).words = (readProcess m a).words.set k v ∧
      (readProcess (store32 m (a + BitVec.ofNat 32 (4 * k)) v) a).priorityLevel =
        (readProcess m a).priorityLevel := by
  rw [read_process_words, read_process_words]
  exact ⟨word_set m a 23 k v bound (by decide), store32_outside _ _ _ _ (process_byte_outside a k (by omega))⟩

theorem pid_written (pid : Word) :
    readProcess (store32 m (a + 12#32) pid) a = { readProcess m a with pid := pid } :=
  have written := word_written m a 3 pid (by decide)
  process_words_ext _ _ written.1 written.2

theorem regs_written (r : Regs) :
    readProcess (storeRegs m (a + 16#32) r) a = { readProcess m a with lastStateRegs := r } := by
  apply process_words_ext
  · have stored := words_replaced m a 4 r.words (by rw [regs_words_length]; decide)
    rw [read_process_words]
    refine stored.trans ?_
    have front := read_process_words m a
    simp only [loadWords, Process.words, Regs.words, List.cons_append, List.nil_append, List.cons.injEq] at front ⊢
    simp only [front, and_self]
  · refine store_words_outside id r.words m _ _ (by rw [regs_words_length]; decide) fun found => ?_
    obtain ⟨x, inside, here⟩ := found
    have same : x = a + 92#32 := here
    rw [same, regs_words_length] at inside
    unfold InSpan at inside
    bv_omega

theorem level_written (b : Byte) :
    readProcess (write m (a + 92#32) b) a = { readProcess m a with priorityLevel := b } := by
  apply process_words_ext
  · have words := read_process_words m a
    refine (read_process_words _ a).trans (Eq.trans ?_ words.symm)
    apply List.ext_getElem
    · rw [load_words_length, load_words_length]
    · intro k bound _
      rw [load_words_length] at bound
      rw [load_words_word, load_words_word]
      refine load32_congr _ _ _ fun x inside => if_neg ?_
      rintro rfl
      exact process_byte_outside a k (by omega) inside
  · exact if_pos rfl

theorem process_stored (p : Process) : readProcess (storeProcess m a p) a = p := by
  apply process_words_ext
  · have stored := words_replaced m a 0 p.words (by rw [process_words_length]; decide)
    rw [Nat.mul_zero, BitVec.add_zero, Nat.zero_add, process_words_length] at stored
    have level := level_written (storeWords id m a p.words) a p.priorityLevel
    rw [storeProcess, level]
    exact (read_process_words _ a).trans stored
  · exact if_pos rfl

theorem process_stored_outside (p : Process) (x : Word) (outside : ¬ InSpan a 96 x) :
    storeProcess m a p x = m x := by
  have byte : x ≠ a + 92#32 := outside_offset a 92#32 96 (by decide) x outside
  rw [storeProcess, write, if_neg byte]
  refine store_words_outside id p.words m a x (by rw [process_words_length]; decide) fun found => ?_
  obtain ⟨y, inside, here⟩ := found
  obtain rfl : y = x := here
  rw [process_words_length] at inside
  exact outside (Nat.lt_trans inside (by decide))

theorem word_outside (k : Nat) (v : Word) (bound : k < 23) (x : Word) (outside : ¬ InSpan a 96 x) :
    store32 m (a + BitVec.ofNat 32 (4 * k)) v x = m x := by
  refine store32_outside _ _ _ _ fun inside => outside ?_
  exact Nat.lt_of_lt_of_le (in_span_shift a (4 * k) 4 x inside) (by omega)

theorem regs_outside (r : Regs) (x : Word) (outside : ¬ InSpan a 96 x) : storeRegs m (a + 16#32) r x = m x := by
  refine store_words_outside id r.words m _ x (by rw [regs_words_length]; decide) fun found => ?_
  obtain ⟨y, inside, here⟩ := found
  obtain rfl : y = x := here
  rw [regs_words_length] at inside
  exact outside (Nat.lt_of_lt_of_le (in_span_shift a 16 _ y inside) (by decide))

end Fields

/-! What the functions do to the array. -/

/-- The table of processes is what the array holds. -/
def Represents (m : Memory) (procArr : Word) (s : Scheduler) : Prop :=
  ∀ i, 0 ≤ i → i < MAX_PROC → readProcess m (procAddress procArr i) = s.procArr i

theorem set_slot_again (s : Scheduler) (i : Int) (p q : Process) :
    (s.setSlot i p).setSlot i q = s.setSlot i q := by
  unfold Scheduler.setSlot
  congr 1
  funext j
  by_cases here : j = i
  · rw [if_pos here, if_pos here]
  · simp only [if_neg here]

def WithinArray (procArr : Word) (m after : Memory) : Prop := ∀ x, ¬ InSpan procArr 3072 x → after x = m x

section Slots
variable (m : Memory) (procArr : Word) (s : Scheduler) (represents : Represents m procArr s) (i : Int)
  (low : 0 ≤ i) (high : i < MAX_PROC)
include low high

theorem array_slot (x : Word) (inside : InSpan (procAddress procArr i) 96 x) : InSpan procArr 3072 x :=
  (element_distance processFormat procArr 32 (by decide) i low high x inside).1

include represents

theorem slot_changed (after : Memory) (p : Process) (changes : Changes processFormat procArr m after i p) :
    Represents after procArr (s.setSlot i p) ∧ WithinArray procArr m after := by
  constructor
  · intro j lowToo highToo
    refine (element_changed processFormat procArr 32 (by decide) i low high m after p changes j lowToo
      highToo).trans ?_
    show (if j = i then p else readProcess m (procAddress procArr j)) = if j = i then p else s.procArr j
    rw [represents j lowToo highToo]
  · exact array_outside processFormat procArr 32 (by decide) i low high m after p changes

theorem slot_pid : load32 m (procAddress procArr i + 12#32) = (s.procArr i).pid :=
  congrArg Process.pid (represents i low high)

theorem pid_refined (pid : Word) :
    Represents (store32 m (procAddress procArr i + 12#32) pid) procArr
        (s.setSlot i { s.procArr i with pid := pid }) ∧
      WithinArray procArr m (store32 m (procAddress procArr i + 12#32) pid) := by
  refine slot_changed m procArr s represents i low high _ _ ⟨?_, word_outside m _ 3 pid (by decide)⟩
  rw [← represents i low high]
  exact pid_written m _ pid

theorem regs_refined (r : Regs) :
    Represents (storeRegs m (procAddress procArr i + 16#32) r) procArr
        (s.setSlot i { s.procArr i with lastStateRegs := r }) ∧
      WithinArray procArr m (storeRegs m (procAddress procArr i + 16#32) r) := by
  refine slot_changed m procArr s represents i low high _ _ ⟨?_, regs_outside m _ r⟩
  rw [← represents i low high]
  exact regs_written m _ r

theorem process_refined (p : Process) :
    Represents (storeProcess m (procAddress procArr i) p) procArr (s.setSlot i p) ∧
      WithinArray procArr m (storeProcess m (procAddress procArr i) p) :=
  slot_changed m procArr s represents i low high _ _ ⟨process_stored m _ p, process_stored_outside m _ p⟩

end Slots

theorem within_trans (procArr : Word) (m middle after : Memory) (first : WithinArray procArr m middle)
    (second : WithinArray procArr middle after) : WithinArray procArr m after :=
  fun x outside => (second x outside).trans (first x outside)

section Calls
variable (m : Memory) (procArr : Word) (s : Scheduler) (represents : Represents m procArr s)
include represents

theorem add_from_refined (proc : Process) (rounds : Nat) (i : Int) (low : 0 ≤ i) (ends : i + rounds ≤ MAX_PROC) :
    Represents (ProcArr.addProcessFrom m procArr proc rounds i).1 procArr (addProcessFrom s proc rounds i).1 ∧
      (ProcArr.addProcessFrom m procArr proc rounds i).2 = (addProcessFrom s proc rounds i).2 ∧
      WithinArray procArr m (ProcArr.addProcessFrom m procArr proc rounds i).1 := by
  induction rounds generalizing i with
  | zero => exact ⟨represents, rfl, fun _ _ => rfl⟩
  | succ rounds ih =>
      have pid := slot_pid m procArr s represents i low (by omega)
      rw [ProcArr.addProcessFrom, addProcessFrom, pid]
      split
      next free =>
        obtain ⟨stored, first⟩ := process_refined m procArr s represents i low (by omega) proc
        obtain ⟨numbered, second⟩ := pid_refined _ procArr _ stored i low (by omega) (BitVec.ofInt 32 i)
        rw [set_slot_same, set_slot_again] at numbered
        exact ⟨numbered, rfl, within_trans procArr m _ _ first second⟩
      next taken => exact ih (i + 1) (by omega) (by omega)

theorem add_refined (proc : Process) :
    Represents (ProcArr.addProcess m procArr proc).1 procArr (addProcess s proc).1 ∧
      (ProcArr.addProcess m procArr proc).2 = (addProcess s proc).2 ∧
      WithinArray procArr m (ProcArr.addProcess m procArr proc).1 :=
  add_from_refined m procArr s represents proc 32 0 (Int.le_refl 0) (Int.le_refl 32)

theorem remove_rounds_refined (pid : Word) (n : Nat) (bound : n ≤ 32) :
    Represents (ProcArr.removeProcessRounds m procArr pid n) procArr (removeProcessRounds s pid n) ∧
      WithinArray procArr m (ProcArr.removeProcessRounds m procArr pid n) := by
  induction n with
  | zero => exact ⟨represents, fun _ _ => rfl⟩
  | succ n ih =>
      obtain ⟨earlier, within⟩ := ih (by omega)
      have last : (n : Int) < MAX_PROC := by
        unfold MAX_PROC
        omega
      have same := slot_pid _ procArr _ earlier n (by omega) last
      simp only [ProcArr.removeProcessRounds, removeProcessRounds, same]
      split
      next found =>
        obtain ⟨freed, second⟩ := pid_refined _ procArr _ earlier n (by omega) last NO_PROC
        exact ⟨freed, within_trans procArr m _ _ within second⟩
      next other => exact ⟨earlier, within⟩

theorem init_list_refined (n : Nat) (bound : n ≤ 32) :
    Represents (ProcArr.initProcessList m procArr n) procArr (initProcessList s n) ∧
      WithinArray procArr m (ProcArr.initProcessList m procArr n) := by
  induction n with
  | zero => exact ⟨represents, fun _ _ => rfl⟩
  | succ n ih =>
      obtain ⟨earlier, within⟩ := ih (by omega)
      have last : (n : Int) < MAX_PROC := by
        unfold MAX_PROC
        omega
      obtain ⟨freed, second⟩ := pid_refined _ procArr _ earlier n (by omega) last NO_PROC
      exact ⟨freed, within_trans procArr m _ _ within second⟩

end Calls

structure Refines (k : Kernel) (s : Scheduler) : Prop where
  table : Represents k.paging.mem k.procArr s
  curProcIndex : k.curProcIndex = s.curProcIndex
  schedulerActive : k.schedulerActive = s.schedulerActive
  isFirstRun : k.isFirstRun = s.isFirstRun
  directory : k.paging.currentDir = s.currentDirectory
  low : 0 ≤ s.curProcIndex
  high : s.curProcIndex < MAX_PROC

/-- A call of process_list.c or scheduler.c writes its array, and may switch to
another directory. -/
structure WritesArray (k after : Kernel) : Prop where
  procArr : after.procArr = k.procArr
  paging : ∃ m dir, after.paging = { k.paging with mem := m, currentDir := dir } ∧
    WithinArray k.procArr k.paging.mem m

section Switch
variable (k : Kernel) (s : Scheduler) (refines : Refines k s) (frame : Regs)
include refines

theorem dispatch_refined (i : Int) (low : 0 ≤ i) (high : i < MAX_PROC) :
    Refines (ProcArr.dispatch k i frame).1 (dispatch s i frame).1 ∧
      (ProcArr.dispatch k i frame).2 = (dispatch s i frame).2 ∧ WritesArray k (ProcArr.dispatch k i frame).1 := by
  have saved : ∃ k' s', (if k.isFirstRun then { k with isFirstRun := false }
        else k.withMem (storeRegs k.paging.mem (procAddress k.procArr k.curProcIndex + 16#32) frame)) = k' ∧
      (if s.isFirstRun then { s with isFirstRun := false }
        else s.setSlot s.curProcIndex { s.procArr s.curProcIndex with lastStateRegs := frame }) = s' ∧
      Refines k' s' ∧ WritesArray k k' := by
    rw [refines.isFirstRun]
    split
    next first =>
      exact ⟨_, _, rfl, rfl, ⟨refines.table, refines.curProcIndex, refines.schedulerActive, rfl, refines.directory,
        refines.low, refines.high⟩, rfl, _, _, rfl, fun _ _ => rfl⟩
    next later =>
      obtain ⟨table, within⟩ := regs_refined _ k.procArr s refines.table s.curProcIndex refines.low
        refines.high frame
      rw [refines.curProcIndex]
      exact ⟨_, _, rfl, rfl, ⟨table, refines.curProcIndex, refines.schedulerActive, refines.isFirstRun,
        refines.directory, refines.low, refines.high⟩, rfl, _, _, rfl, within⟩
  obtain ⟨k', s', kernel, model, now, writes⟩ := saved
  have slot := now.table i low high
  have regs : readRegs k'.paging.mem (procAddress k'.procArr i + 16#32) = (s'.procArr i).lastStateRegs :=
    congrArg Process.lastStateRegs slot
  have directory : load32 k'.paging.mem (procAddress k'.procArr i + 8#32) = (s'.procArr i).pageDirectory :=
    congrArg Process.pageDirectory slot
  unfold ProcArr.dispatch dispatch
  simp only [kernel, model, regs, directory]
  obtain ⟨m, dir, paging, within⟩ := writes.paging
  exact ⟨⟨now.table, rfl, now.schedulerActive, now.isFirstRun, rfl, low, high⟩, trivial, writes.procArr, m,
    (s'.procArr i).pageDirectory, by rw [paging], within⟩

theorem start_from_refined (rounds : Nat) (i : Int) (low : 0 ≤ i) (high : i < MAX_PROC) (s' : Scheduler)
    (regs : Regs) (returned : startNextFrom s frame rounds i = some (s', regs)) :
    ∃ k', ProcArr.startNextFrom k frame rounds i = some (k', regs) ∧ Refines k' s' ∧ WritesArray k k' := by
  induction rounds generalizing i with
  | zero => simp [startNextFrom] at returned
  | succ rounds ih =>
      have inside : 0 ≤ nextIndex i ∧ nextIndex i < MAX_PROC := by
        unfold nextIndex MAX_PROC at *
        split <;> omega
      have pid := slot_pid _ k.procArr s refines.table (nextIndex i) inside.1 inside.2
      rw [startNextFrom] at returned
      simp only [ProcArr.startNextFrom, pid, refines.curProcIndex]
      split at returned
      next taken =>
        obtain ⟨next, same, writes⟩ := dispatch_refined k s refines frame (nextIndex i) inside.1 inside.2
        have pair := Option.some.inj returned
        rw [pair] at same next
        have delivered : (ProcArr.dispatch k (nextIndex i) frame).2 = regs := same
        exact ⟨_, by rw [if_pos taken, ← delivered], next, writes⟩
      next free =>
        rw [if_neg free]
        split at returned
        next other =>
          rw [if_pos other]
          exact ih (nextIndex i) inside.1 inside.2 returned
        next all =>
          obtain ⟨rfl, rfl⟩ := Prod.mk.inj (Option.some.inj returned)
          exact ⟨k, by rw [if_neg all], refines, rfl, _, _, rfl, fun _ _ => rfl⟩

theorem start_next_refined (s' : Scheduler) (regs : Regs) (slice : Word)
    (returned : startNextProcess s frame = some (s', regs, slice)) :
    ∃ k', ProcArr.startNextProcess k frame = some (k', regs, slice) ∧ Refines k' s' ∧ WritesArray k k' := by
  rw [startNextProcess] at returned
  rw [ProcArr.startNextProcess, refines.schedulerActive, refines.curProcIndex]
  split at returned
  next active =>
    obtain ⟨⟨next, found⟩, search, same⟩ := Option.bind_eq_some_iff.mp returned
    obtain ⟨rfl, rest⟩ := Prod.mk.inj (Option.some.inj same)
    obtain ⟨rfl, rfl⟩ := Prod.mk.inj rest
    obtain ⟨k', done, now, writes⟩ := start_from_refined k s refines frame 32 s.curProcIndex refines.low
      refines.high next found search
    have level : k'.paging.mem (procAddress k'.procArr k'.curProcIndex + 92#32) =
        (next.procArr next.curProcIndex).priorityLevel := by
      rw [now.curProcIndex]
      exact congrArg Process.priorityLevel (now.table _ now.low now.high)
    rw [if_pos active, done]
    refine ⟨k', ?_, now, writes⟩
    show some (k', found, timeSlice (k'.paging.mem (procAddress k'.procArr k'.curProcIndex + 92#32))) = _
    rw [level]
  next inactive =>
    obtain ⟨rfl, rest⟩ := Prod.mk.inj (Option.some.inj returned)
    obtain ⟨rfl, rfl⟩ := Prod.mk.inj rest
    rw [if_neg inactive]
    exact ⟨k, rfl, refines, rfl, _, _, rfl, fun _ _ => rfl⟩

end Switch

/-! `init_scheduler`. -/

section Init
variable (m : Memory) (a : Word)

/-- The assignments to words of a structure, each with its index. -/
def storeFields (m : Memory) (a : Word) (fields : List (Nat × Word)) : Memory :=
  fields.foldl (fun m field => store32 m (a + BitVec.ofNat 32 (4 * field.1)) field.2) m

theorem fields_written (fields : List (Nat × Word)) (inside : ∀ field ∈ fields, field.1 < 23) :
    (readProcess (storeFields m a fields) a).words =
        fields.foldl (fun ws field => ws.set field.1 field.2) (readProcess m a).words ∧
      (readProcess (storeFields m a fields) a).priorityLevel = (readProcess m a).priorityLevel ∧
      ∀ x, ¬ InSpan a 96 x → storeFields m a fields x = m x := by
  induction fields generalizing m with
  | nil => exact ⟨rfl, rfl, fun _ _ => rfl⟩
  | cons field rest ih =>
      have bound := inside field List.mem_cons_self
      obtain ⟨word, level⟩ := word_written m a field.1 field.2 bound
      obtain ⟨words, levels, outside⟩ := ih (store32 m (a + BitVec.ofNat 32 (4 * field.1)) field.2)
        fun other member => inside other (List.mem_cons_of_mem _ member)
      rw [word] at words
      exact ⟨words, levels.trans level, fun x away =>
        (outside x away).trans (word_outside m a field.1 field.2 bound x away)⟩

/-- The state before `init_scheduler`, with what the memory of the array happens
to hold. -/
def Kernel.unset (k : Kernel) : Scheduler where
  procArr := fun i => readProcess k.paging.mem (procAddress k.paging.placeAddr i)
  curProcIndex := k.curProcIndex
  schedulerActive := k.schedulerActive
  isFirstRun := k.isFirstRun
  currentDirectory := k.paging.currentDir

theorem init_scheduler_refined (k : Kernel) (kernelFunc : Word) :
    Refines (ProcArr.initScheduler k kernelFunc) (initScheduler k.unset k.paging.kernelDirectory kernelFunc
      (k.paging.placeAddr + 3072#32)) ∧
    (ProcArr.initScheduler k kernelFunc).procArr = k.paging.placeAddr ∧
    ∃ m history, (ProcArr.initScheduler k kernelFunc).paging = { k.paging with
        mem := m, placeAddr := k.paging.placeAddr + 3072#32 + 4096#32, history := history } ∧
      history.directories = k.paging.history.directories ∧ history.mappings = k.paging.history.mappings ∧
      WithinArray k.paging.placeAddr k.paging.mem m := by
  have first : procAddress k.paging.placeAddr 0 = k.paging.placeAddr := BitVec.add_zero _
  obtain ⟨list, within⟩ := init_list_refined k.paging.mem k.paging.placeAddr k.unset (fun _ _ _ => rfl) 32
    (Nat.le_refl _)
  have slot := list 0 (Int.le_refl 0) (by decide)
  rw [first] at slot
  unfold ProcArr.initScheduler kmalloc kmallocAll
  simp only [Bool.false_eq_true, false_and, if_false, load32_store32]
  generalize ProcArr.initProcessList k.paging.mem k.paging.placeAddr 32 = m at list within slot ⊢
  generalize k.paging.placeAddr = a at *
  generalize changed : store32 _ (a + 40#32) _ = after
  -- the assignments in the order of the source, behind that of `priority_level`
  obtain ⟨fields, order⟩ : ∃ fields : List (Nat × Word), fields =
      [(3, 0#32), (2, k.paging.kernelDirectory), (7, 0x10#32), (19, 0x08#32), (18, kernelFunc), (22, 0x10#32),
        (6, 0x10#32), (5, 0x10#32), (4, 0x10#32), (20, 0x202#32), (21, a + 3072#32 + 0x1000#32),
        (10, a + 3072#32 + 0x1000#32)] := ⟨_, rfl⟩
  have assigned : after = storeFields (write m (a + 92#32) 0#8) a fields := by
    rw [order]
    exact changed.symm
  obtain ⟨words, priority, outside⟩ := fields_written (write m (a + 92#32) 0#8) a fields (by rw [order]; simp)
  rw [← assigned] at words priority outside
  have level := level_written m a 0#8
  have element : readProcess after a = (initScheduler k.unset k.paging.kernelDirectory kernelFunc
      (a + 3072#32)).procArr 0 := by
    apply process_words_ext
    · rw [words, order, level, slot]
      rfl
    · rw [priority, level]
      rfl
  have elsewhere : ∀ x, ¬ InSpan (procAddress a 0) 96 x → after x = m x := by
    intro x away
    rw [first] at away
    exact (outside x away).trans (if_neg (outside_offset a 92#32 96 (by decide) x away))
  have here : readProcess after (procAddress a 0) =
      (initScheduler k.unset k.paging.kernelDirectory kernelFunc (a + 3072#32)).procArr 0 := by
    rw [first]
    exact element
  have changes : Changes processFormat a m after 0 _ := ⟨here, elsewhere⟩
  obtain ⟨table, later⟩ := slot_changed m a _ list 0 (Int.le_refl 0) (by decide) after _ changes
  have whole : Represents after a (initScheduler k.unset k.paging.kernelDirectory kernelFunc (a + 3072#32)) := by
    intro i low high
    refine (table i low high).trans ?_
    by_cases zero : i = 0
    · rw [zero, set_slot_same]
    · rw [set_slot_other _ _ _ _ zero]
      exact (if_neg zero).symm
  have inside : (0 : Int) < MAX_PROC := by decide
  exact ⟨⟨whole, rfl, rfl, rfl, rfl, Int.le_refl 0, inside⟩, trivial, after, _, rfl, rfl, rfl,
    within_trans a _ _ _ within later⟩

end Init
end GargOS
