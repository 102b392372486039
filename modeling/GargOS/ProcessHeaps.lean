import GargOS.FirstFit
import GargOS.HeapPaging
import GargOS.HeapRuns

/-!
Several processes, each with a heap in its own directory, on one machine. The
state couples the pages that `malloc` counts in `heap_size` with the mappings
that `alloc_page` makes for them.
-/

namespace GargOS
open ByteMemory AddressSpace Pages Ledger Runs Tiling

structure ProcessHeap where
  proc : Process
  live : List Allocation
  pages : Nat
  initialised : Bool

structure Machine (ι : Type) where
  paging : Paging
  heaps : ι → ProcessHeap

def Machine.heap {ι : Type} (c : Machine ι) (i : ι) : HeapState Paging :=
  ⟨switchPageDirectory c.paging (c.heaps i).proc.pageDirectory, (c.heaps i).proc, (c.heaps i).live,
    (c.heaps i).pages⟩

/-- The calls of `heap.c` by any process: `initialise_heap` once, then `malloc`
without alignment for at least a header's bytes, and `free`. -/
inductive MachineStep {ι : Type} [DecidableEq ι] (c : Machine ι) : Machine ι → Prop
  | initialise (i : ι) (after : Paging) (pending : (c.heaps i).initialised = false)
      (returned : initialiseHeap (c.heap i).space (c.heaps i).proc = some after) :
      MachineStep c ⟨after, Function.update c.heaps i { c.heaps i with initialised := true }⟩
  | call (i : ι) (call : HeapCall) (after : HeapState Paging) (ready : (c.heaps i).initialised = true)
      (coarse : Coarse (c.heap i) call) (step : HeapStep (c.heap i) call after) :
      MachineStep c
        ⟨after.space, Function.update c.heaps i ⟨after.proc, after.live, after.pages, true⟩⟩

structure HeapPlaced (s : Paging) (h : ProcessHeap) : Prop where
  own : h.proc.pageDirectory ∈ s.history.directories
  above : KERNEL_MEM_END.toNat ≤ h.proc.heapStackBoundary.toNat
  aligned : (h.proc.heapStackBoundary.toNat + h.proc.heapSize.toNat) % 4096 = 0
  top : h.proc.heapStackBoundary.toNat + h.proc.heapSize.toNat < 2 ^ 32
  mapped : HeapMapped s h.proc.pageDirectory h.proc.heapStackBoundary.toNat h.proc.heapSize.toNat
  clear : ∀ page, h.proc.heapStackBoundary.toNat + h.proc.heapSize.toNat ≤ 4096 * page →
    s.mapping h.proc.pageDirectory page = none
  fresh : h.live = [] ∧ h.pages = 0 ∧ h.initialised = false

structure HeapsPlaced {ι : Type} (c : Machine ι) : Prop where
  paging : Reached PagingBooted PagingStep c.paging
  apart : ∀ i j, i ≠ j → (c.heaps i).proc.pageDirectory ≠ (c.heaps j).proc.pageDirectory
  placed : ∀ i, HeapPlaced c.paging (c.heaps i)

/-- The directory has the tables under the heap as writeable, and the first
header lies in the heap unless writing it faults. -/
structure HeapSuited (s : Paging) (proc : Process) : Prop where
  writeable : ∀ x : Word, Within proc.heapStackBoundary.toNat
      (proc.heapStackBoundary.toNat + proc.heapSize.toNat) x →
    s.entry proc.pageDirectory (x.toNat / 4096 / 1024) &&& 2#32 ≠ 0#32
  header : 6 ≤ proc.heapSize.toNat ∨
    ¬ s.Walks proc.pageDirectory ((proc.heapStackBoundary.toNat + proc.heapSize.toNat) / 4096)

/-- A page that both levels of the walk show as writeable, in a frame of its own. -/
structure PageBacked (s : Paging) (d : Word) (page : Nat) : Prop where
  walks : s.Walks d page
  directory : s.entry d (page / 1024) &&& 2#32 ≠ 0#32
  table : s.pte d page &&& 2#32 ≠ 0#32
  frame : IsPage (s.target d page) ∧ KERNEL_MEM_END.toNat ≤ (s.target d page).toNat
  reserved : isFrameSet s (s.target d page) = true
  apart : ∀ d' page' m, s.mapping d' page' = some m → (d, page) ≠ (d', page') →
    s.target d page ≠ s.target d' page'

theorem page_backed (s : Paging) (holds : PagedInvariant s) (d : Word) (start n : Nat)
    (paged : HeapPaged s d start n) (writeable : n ≠ 0 → DirectoryWriteable s d start) (x : Word)
    (inside : Within start (start + n) x) : PageBacked s d (x.toNat / 4096) := by
  obtain ⟨m, found, flags⟩ := paged.mapped x inside
  have mapped := mapped_page s holds.toPagedRecords d _ m found
  have exclusive := paged_invariant_exclusive s holds
  obtain ⟨first, last⟩ := inside
  refine ⟨mapped.walks, writeable (by omega) _ (by omega) (by omega) mapped.walks.1, ?_, ?_, ?_, ?_⟩
  · rw [mapped.writeable]
    exact flags
  · rw [mapped.target]
    exact ⟨mapped.isPage, mapped_above s holds d _ m found paged.process⟩
  · rw [mapped.target]
    exact exclusive.reserved m (latest_mem _ _ _ _ found).1
  · exact fun d' page' m' found' different => exclusive.apart d _ d' page' m m' found found' different

/-! A header that does not lie in the heap. -/

section Short
variable (d : Word) (start n : Nat) (fits : start + n + 4096 ≤ 2 ^ 32) (short : n < 6)
include fits short

theorem short_store_faults (s after : Paging) (heap : HeapCurrent d start n s)
    (absent : ¬ s.Walks d ((start + n) / 4096)) (a : Word) (b : Byte) (low : start ≤ a.toNat)
    (high : a.toNat < start + 6) (stored : store8 s a b = some after) :
    a.toNat < start + n ∧ HeapCurrent d start n after ∧ ¬ after.Walks d ((start + n) / 4096) := by
  obtain ⟨holds, rfl, paged⟩ := heap
  have aligned := paged.aligned
  -- a store behind the heap would be in the page that is not mapped
  have inHeap : a.toNat < start + n := by
    by_contra outside
    apply absent
    have page : a.toNat / 4096 = (start + n) / 4096 := by omega
    obtain ⟨place, translated, _⟩ := Option.map_eq_some_iff.mp stored
    rw [Paging.translate] at translated
    split at translated
    next walks => rwa [page] at walks
    next => simp at translated
  obtain ⟨m, found, _⟩ := paged.mapped a ⟨low, inHeap⟩
  rw [store_mapped s holds a m found b] at stored
  obtain rfl := Option.some.inj stored
  have below := stored_below s holds paged.process a m found b
  refine ⟨inHeap, ⟨stored_invariant s holds paged.process a m found b, rfl, paged.listed, paged.process,
    aligned, paged.mapped⟩, ?_⟩
  rintro ⟨table, page⟩
  have entry := frames_entry s holds _ s.currentDir below s.currentDir paged.listed
    ((start + n) / 4096 / 1024) (by omega)
  have present : Present (s.entry s.currentDir ((start + n) / 4096 / 1024)) := by
    rw [← entry]
    exact table
  have pte := frames_pte s holds _ s.currentDir below s.currentDir paged.listed ((start + n) / 4096)
    (by omega) present
  refine absent ⟨present, ?_⟩
  rw [← pte]
  exact page

/-- `initialise_heap` faults where the page behind a heap that is shorter than
a header is not mapped. -/
theorem short_header_faults (s : Paging) (heap : HeapCurrent d start n s)
    (absent : ¬ s.Walks d ((start + n) / 4096)) (proc : Process)
    (base : proc.heapStackBoundary.toNat = start) : initialiseHeap s proc = none := by
  refine Option.eq_none_iff_forall_ne_some.mpr fun after returned => ?_
  obtain ⟨sized, sizes, _⟩ := Option.bind_eq_some_iff.mp returned
  obtain ⟨s1, store1, rest⟩ := Option.bind_eq_some_iff.mp sizes
  obtain ⟨s2, store2, rest⟩ := Option.bind_eq_some_iff.mp rest
  obtain ⟨s3, store3, store4⟩ := Option.bind_eq_some_iff.mp rest
  have faults := short_store_faults d start n fits short
  obtain ⟨_, heap1, absent1⟩ := faults s s1 heap absent _ _ (by bv_omega) (by bv_omega) store1
  obtain ⟨_, heap2, absent2⟩ := faults s1 s2 heap1 absent1 _ _ (by bv_omega) (by bv_omega) store2
  obtain ⟨_, heap3, absent3⟩ := faults s2 s3 heap2 absent2 _ _ (by bv_omega) (by bv_omega) store3
  obtain ⟨inHeap, _⟩ := faults s3 sized heap3 absent3 _ _ (by bv_omega) (by bv_omega) store4
  bv_omega

end Short

/-! The invariant of the machine. -/

theorem switch_current (s : Paging) (holds : PagedInvariant s) (d : Word) (start n : Nat)
    (paged : HeapPaged s d start n) : HeapCurrent d start n (switchPageDirectory s d) :=
  ⟨frames_invariant s holds s.mem d fun _ _ => rfl, rfl, paged.listed, paged.process, paged.aligned,
    paged.mapped⟩

section Invariant
variable {ι : Type} [DecidableEq ι]

/-- What holds of one process: the pages of its heap are mapped, and once its
heap is initialised the headers in them are intact. -/
structure ProcessInvariant (s : Paging) (h : ProcessHeap) : Prop where
  paged : HeapPaged s h.proc.pageDirectory h.proc.heapStackBoundary.toNat h.proc.heapSize.toNat
  writeable : h.proc.heapSize.toNat ≠ 0 →
    DirectoryWriteable s h.proc.pageDirectory h.proc.heapStackBoundary.toNat
  top : h.proc.heapStackBoundary.toNat + h.proc.heapSize.toNat < 2 ^ 32
  pending : h.initialised = false → (h.live = [] ∧ h.pages = 0) ∧ (6 ≤ h.proc.heapSize.toNat ∨
    ¬ s.Walks h.proc.pageDirectory ((h.proc.heapStackBoundary.toNat + h.proc.heapSize.toNat) / 4096))
  ready : h.initialised = true → ∃ first, HeapInvariant
    (HeapValid s h.proc.pageDirectory h.proc.heapStackBoundary.toNat) h.proc.heapStackBoundary
    h.proc.pageDirectory first
    ⟨switchPageDirectory s h.proc.pageDirectory, h.proc, h.live, h.pages⟩

structure MachineInvariant (c : Machine ι) : Prop where
  holds : PagedInvariant c.paging
  apart : ∀ i j, i ≠ j → (c.heaps i).proc.pageDirectory ≠ (c.heaps j).proc.pageDirectory
  each : ∀ i, ProcessInvariant c.paging (c.heaps i)

omit [DecidableEq ι] in
theorem placed_writeable (s : Paging) (reached : Reached PagingBooted PagingStep s) (h : ProcessHeap)
    (placed : HeapPlaced s h) (suited : HeapSuited s h.proc) (inhabited : h.proc.heapSize.toNat ≠ 0) :
    DirectoryWriteable s h.proc.pageDirectory h.proc.heapStackBoundary.toNat := by
  have limit := kernel_mem_end
  have pages : kernelPages = 4080 := rfl
  have above := placed.above
  have aligned := placed.aligned
  have top := placed.top
  obtain ⟨holds, traces⟩ := paging_traced s reached
  intro t bound reach present
  by_cases under : t * 4194304 < h.proc.heapStackBoundary.toNat + h.proc.heapSize.toNat
  · -- some address of the heap lies in the table's range
    have value : (BitVec.ofNat 32 (max h.proc.heapStackBoundary.toNat (t * 4194304))).toNat =
        max h.proc.heapStackBoundary.toNat (t * 4194304) := by
      rw [BitVec.toNat_ofNat]
      omega
    have here := suited.writeable (BitVec.ofNat 32 (max h.proc.heapStackBoundary.toNat (t * 4194304)))
      (by unfold Within; omega)
    have table : max h.proc.heapStackBoundary.toNat (t * 4194304) / 4096 / 1024 = t := by omega
    rw [value, table] at here
    exact here
  · exfalso
    -- a table behind the heap would have come with a page mapped there
    rcases traces.traced _ placed.own t bound present with kernel | ⟨m, member, owner, place⟩
    · omega
    · have none := placed.clear m.page (by omega)
      rw [Paging.mapping, latest, List.find?_eq_none] at none
      exact none m member (by simp [Mapping.key, owner])

omit [DecidableEq ι] in
theorem placed_invariant (c : Machine ι) (placed : HeapsPlaced c)
    (suited : ∀ i, HeapSuited c.paging (c.heaps i).proc) : MachineInvariant c := by
  obtain ⟨holds, traces⟩ := paging_traced c.paging placed.paging
  refine ⟨holds, placed.apart, fun i => ?_⟩
  have here := placed.placed i
  obtain ⟨nothing, noPages, pending⟩ := here.fresh
  refine ⟨⟨Or.inr here.own, traces.process _ here.own, here.aligned, here.mapped⟩,
    placed_writeable c.paging placed.paging _ here (suited i), here.top,
    fun _ => ⟨⟨nothing, noPages⟩, (suited i).header⟩, fun ready => ?_⟩
  rw [pending] at ready
  simp at ready

theorem process_moved (s after : Paging) (d : Word) (h : ProcessHeap) (holds : PagedInvariant s)
    (later : PagedInvariant after) (others : OthersKept s after d) (other : h.proc.pageDirectory ≠ d)
    (invariant : ProcessInvariant s h) : ProcessInvariant after h := by
  obtain ⟨paged, writeable, top, pending, ready⟩ := invariant
  have listed := paged.listed
  have process := paged.process
  have mappings := others.mappings _ other
  have entries := others.entries _ listed process other
  have moved : HeapPaged after h.proc.pageDirectory h.proc.heapStackBoundary.toNat
      h.proc.heapSize.toNat := by
    refine ⟨(listed_same s after others.roots _).mpr listed, ?_, paged.aligned, fun x inside => ?_⟩
    · rw [others.roots.kernelDirectory]
      exact process
    · rw [mappings]
      exact paged.mapped x inside
  have stays : h.proc.heapSize.toNat ≠ 0 →
      DirectoryWriteable after h.proc.pageDirectory h.proc.heapStackBoundary.toNat := by
    intro inhabited t bound reach present
    rw [entries t bound] at present ⊢
    exact writeable inhabited t bound reach present
  refine ⟨moved, stays, top, fun uninitialised => ?_, fun initialised => ?_⟩
  · -- the page behind a short heap is still not mapped
    obtain ⟨nothing, header⟩ := pending uninitialised
    refine ⟨nothing, header.imp_right fun absent walks => absent ?_⟩
    obtain ⟨table, page⟩ := walks
    rw [entries _ (by omega)] at table
    rw [others.ptes _ listed process other _ (by omega) table] at page
    exact ⟨table, page⟩
  · -- the headers are seen through the same frames, and these have not changed
    obtain ⟨first, before⟩ := ready initialised
    have header : 6 ≤ h.proc.heapSize.toNat := before.holds.header
    refine ⟨first, heap_invariant_moved _ _ before ?_ ⟨rfl, rfl, rfl⟩ ⟨switch_current after later _ _ _ moved,
      header, stays (by omega), others_switch after _ _⟩ fun x inside => ?_⟩
    · intro zero
      dsimp only at zero
      rw [zero] at header
      simp at header
    · obtain ⟨m, found, _⟩ := paged.mapped x inside
      have same : after.mapping h.proc.pageDirectory (x.toNat / 4096) = some m := by
        rw [mappings]
        exact found
      have shownAfter := (view_mapped _ (switch_current after later _ _ _ moved).holds m x same).2
      have shownBefore := (view_mapped _ (switch_current s holds _ _ _ paged).holds m x found).2
      show view (switchPageDirectory after h.proc.pageDirectory) x =
        view (switchPageDirectory s h.proc.pageDirectory) x
      rw [shownAfter, shownBefore]
      exact others.bytes _ process other _ m found _ (in_frame m.frame x)

theorem machine_moved (c : Machine ι) (invariant : MachineInvariant c) (i : ι) (h : ProcessHeap)
    (after : Paging) (first : Word) (initialised : h.initialised = true)
    (heap : HeapInvariant (HeapValid c.paging (c.heaps i).proc.pageDirectory
        (c.heaps i).proc.heapStackBoundary.toNat) (c.heaps i).proc.heapStackBoundary
      (c.heaps i).proc.pageDirectory first ⟨after, h.proc, h.live, h.pages⟩) :
    MachineInvariant ⟨after, Function.update c.heaps i h⟩ := by
  have valid := heap.holds
  have current := valid.heap
  have base : h.proc.heapStackBoundary = (c.heaps i).proc.heapStackBoundary := heap.base
  have directory : h.proc.pageDirectory = (c.heaps i).proc.pageDirectory := heap.current
  have top := heap.top
  refine ⟨current.holds, fun j k different => ?_, fun j => ?_⟩
  · have same : ∀ j, (Function.update c.heaps i h j).proc.pageDirectory =
        (c.heaps j).proc.pageDirectory := by
      intro j
      by_cases own : j = i
      · subst own
        rw [Function.update_self, directory]
      · rw [Function.update_of_ne own]
    dsimp only
    rw [same j, same k]
    exact invariant.apart j k different
  · by_cases own : j = i
    · subst own
      have self : switchPageDirectory after h.proc.pageDirectory = after := by
        unfold switchPageDirectory
        rw [directory, ← current.current]
      dsimp only
      rw [Function.update_self]
      rw [← base, ← directory] at heap valid current
      refine ⟨current.paged, fun _ => valid.writeable, by rw [base]; exact top, fun pending => ?_, fun _ => ⟨first, ?_⟩⟩
      · rw [initialised] at pending
        simp at pending
      · rw [self]
        exact { heap with holds := ⟨current, valid.header, valid.writeable,
          others_switch after _ after.currentDir⟩ }
    · dsimp only
      rw [Function.update_of_ne own]
      exact process_moved c.paging after _ _ invariant.holds current.holds valid.others
        (invariant.apart j i own) (invariant.each j)

omit [DecidableEq ι] in
theorem current_valid (c : Machine ι) (invariant : MachineInvariant c) (i : ι)
    (header : 6 ≤ (c.heaps i).proc.heapSize.toNat) :
    HeapValid c.paging (c.heaps i).proc.pageDirectory (c.heaps i).proc.heapStackBoundary.toNat
      (c.heaps i).proc.heapSize.toNat (c.heap i).space := by
  have each := invariant.each i
  exact ⟨switch_current c.paging invariant.holds _ _ _ each.paged, header, each.writeable (by omega),
    others_switch c.paging _ _⟩

theorem machine_step_kept (c after : Machine ι) (invariant : MachineInvariant c)
    (step : MachineStep c after) : MachineInvariant after := by
  cases step with
  | initialise i space pending returned =>
      have each := invariant.each i
      have aligned := each.paged.aligned
      have top := each.top
      obtain ⟨⟨nothing, noPages⟩, header⟩ := each.pending pending
      have long : 6 ≤ (c.heaps i).proc.heapSize.toNat := by
        by_contra short
        have faults := short_header_faults _ _ _ (by omega) (by omega) (c.heap i).space
          (switch_current c.paging invariant.holds _ _ _ each.paged) (header.resolve_left short) _ rfl
        rw [faults] at returned
        simp at returned
      refine machine_moved c invariant i { c.heaps i with initialised := true } space
        (c.heaps i).proc.heapSize rfl ?_
      apply initialised_invariant (heap_paging_backing c.paging _ _) _ (Or.inr long)
      exact ⟨rfl, rfl, rfl, by omega, ⟨nothing, noPages⟩, (c.heap i).space,
        current_valid c invariant i long, returned⟩
  | call i call space ready coarse step =>
      obtain ⟨first, before⟩ := (invariant.each i).ready ready
      refine machine_moved c invariant i ⟨space.proc, space.live, space.pages, true⟩ space.space first rfl ?_
      exact (heap_step_kept (heap_paging_backing c.paging _ _) (c.heap i) space call before
        (coarse_safe _ call coarse) step).1

/-- Every page of a heap stays backed where each table under the heaps at the
start is one the directory has as writeable. -/
theorem heaps_backed (c : Machine ι)
    (reached : Reached (fun c => HeapsPlaced c ∧ ∀ i, HeapSuited c.paging (c.heaps i).proc) MachineStep c)
    (i : ι) (x : Word) (inside : Within (c.heaps i).proc.heapStackBoundary.toNat
      ((c.heaps i).proc.heapStackBoundary.toNat + (c.heaps i).proc.heapSize.toNat) x) :
    PageBacked c.paging (c.heaps i).proc.pageDirectory (x.toNat / 4096) := by
  have invariant : MachineInvariant c := by
    apply reached_invariant _ _ _ c reached
    · exact fun c placed => placed_invariant c placed.1 placed.2
    · exact machine_step_kept
  have each := invariant.each i
  exact page_backed c.paging invariant.holds _ _ _ each.paged each.writeable x inside

end Invariant

/-! Two processes with a heap each at the same address. -/

def onePageHeap (start d : Word) : ProcessHeap :=
  ⟨{ (default : Process) with
      heapStackBoundary := start, heapSize := 0x1000#32, pageDirectory := d }, [], 0, false⟩

section TwoHeaps
variable (s : Paging) (d frame : Word) (own : d ∈ s.history.directories)
  (mapped : ∀ page, s.mapping d page = if page = 0x1000 then some ⟨d, 0x1000, frame, 3#32⟩ else none)
  (writeable : s.entry d 4 &&& 2#32 ≠ 0#32)
include own mapped

theorem one_page_placed : HeapPlaced s (onePageHeap 0x1000000#32 d) := by
  have start : (onePageHeap 0x1000000#32 d).proc.heapStackBoundary.toNat = 16777216 := rfl
  have size : (onePageHeap 0x1000000#32 d).proc.heapSize.toNat = 4096 := rfl
  have limit := kernel_mem_end
  have pages : kernelPages = 4080 := rfl
  refine ⟨own, by omega, by omega, by omega, ?_, ?_, ⟨rfl, rfl, rfl⟩⟩
  · rintro x ⟨low, high⟩
    have page : x.toNat / 4096 = 0x1000 := by omega
    have flags : (3#32 : Word) &&& 2#32 ≠ 0#32 := by decide
    exact ⟨_, (mapped _).trans (if_pos page), flags⟩
  · intro page behind
    exact (mapped page).trans (if_neg (by omega))

include writeable
omit own mapped in
theorem one_page_suited : HeapSuited s (onePageHeap 0x1000000#32 d).proc := by
  have start : (onePageHeap 0x1000000#32 d).proc.heapStackBoundary.toNat = 16777216 := rfl
  have size : (onePageHeap 0x1000000#32 d).proc.heapSize.toNat = 4096 := rfl
  refine ⟨fun x inside => ?_, Or.inl (by omega)⟩
  unfold Within at inside
  have table : x.toNat / 4096 / 1024 = 4 := by omega
  rw [table]
  exact writeable

end TwoHeaps

theorem one_page_initialised (s : Paging) (holds : PagedInvariant s) (d : Word) (paged : HeapPaged s d 0x1000000 0x1000)
    (writeable : DirectoryWriteable s d 0x1000000) :
    ∃ after, initialiseHeap (switchPageDirectory s d) (onePageHeap 0x1000000#32 d).proc = some after ∧
      ConsistsOf (HeapValid s d 0x1000000) 0x1000000#32 d after (onePageHeap 0x1000000#32 d).proc [⟨true, 4090⟩] ∧
      after.history = s.history ∧ after.placeAddr = s.placeAddr := by
  have start : (0x1000000#32 : Word).toNat = 16777216 := rfl
  have size : (onePageHeap 0x1000000#32 d).proc.heapSize.toNat = 4096 := rfl
  have heap := switch_current s holds d 0x1000000 0x1000 paged
  have back := heap_current_backs d 0x1000000 0x1000
    (fun after => after.history = s.history ∧ after.placeAddr = s.placeAddr) fun _ _ _ _ _ _ _ _ _ same => same
  obtain ⟨sized, sizes, valid, _⟩ := setSize_eq back (by decide) ⟨heap, rfl, rfl⟩ 0x1000000#32 (by decide)
    (by decide) (0x1000#32 - sizeofBlock)
  obtain ⟨after, marked, ⟨_, same⟩, _⟩ := setIsFree_eq back (by decide) valid 0x1000000#32 (by decide)
    (by decide) 1#16
  have laid : initialiseHeap (switchPageDirectory s d) (onePageHeap 0x1000000#32 d).proc = some after := by
    simp only [initialiseHeap, onePageHeap, sizes, marked, Option.bind_eq_bind, Option.bind_some]
  have started : HeapValid s d (0x1000000#32 : Word).toNat (0x1000#32 : Word).toNat (switchPageDirectory s d) :=
    ⟨heap, by decide, writeable, others_switch s d d⟩
  obtain ⟨next, blocks, _⟩ := initialise_heap_result (heap_paging_backing s 0x1000000#32 d)
    (onePageHeap 0x1000000#32 d).proc rfl (Or.inr (by omega)) (by omega) started after laid
  exact ⟨after, laid, ⟨rfl, rfl, by omega, next, rfl, blocks.tiles⟩, same⟩

theorem second_page_taken (before s : Paging) (d : Word) (free : FirstFree s 4082) (place : s.placeAddr.toNat ≤ 0x300000)
    (heap : ConsistsOf (HeapValid before d 0x1000000) 0x1000000#32 d s (onePageHeap 0x1000000#32 d).proc
      [⟨true, 4090⟩]) :
    ∃ after, malloc 5 1 s 5000#32 (onePageHeap 0x1000000#32 d).proc 0#8 =
        some (0x1000006#32, after, withPages (onePageHeap 0x1000000#32 d).proc 1) ∧
      malloc 5 0 s 5000#32 (onePageHeap 0x1000000#32 d).proc 0#8 = none := by
  have backing := heap_paging_backing before 0x1000000#32 d
  have valid := heap.holds
  have listed := valid.heap.paged.listed
  have start : (0x1000000#32 : Word).toNat = 16777216 := rfl
  have first : (onePageHeap 0x1000000#32 d).proc.heapSize.toNat = 4096 := rfl
  have small : ∀ c ∈ [(⟨true, 4090⟩ : Segment)], ¬ Candidate (5000#32 : Word).toNat c := by
    intro c member candidate
    obtain rfl := List.mem_singleton.mp member
    exact absurd candidate.2 (by decide)
  have search := search_finds_nothing backing heap 5000#32 0#8 small 5 (by decide)
  obtain ⟨mapped, allocated, maps, _⟩ := alloc_page_found s valid.heap.holds.layout (by omega) d 0x1001000#32 1#32
    (if d = s.kernelDirectory then 1#32 else 0#32) listed 4082 free
  have size := maps_place _ _ _ _ _ _ _ maps
  have limit : KERNEL_MEM_END.toNat = 16711680 := rfl
  have page : PagedSpace.allocPage s d (BitVec.ofNat 32 ((0x1000000#32 : Word).toNat +
      (onePageHeap 0x1000000#32 d).proc.heapSize.toNat)) 1#32
      (if d = PagedSpace.kernelDirectory s then 1#32 else 0#32) = some (BitVec.ofNat 32 (4096 * 4082), mapped) := by
    show (GargOS.allocPage s d 0x1001000#32 1#32 (if d = s.kernelDirectory then 1#32 else 0#32) >>= _) = _
    rw [allocated]
    exact if_pos (by omega)
  rcases page_joined backing (onePageHeap 0x1000000#32 d).proc rfl rfl (by omega) valid _ heap.total heap.tiles 5
    page with ⟨short, _⟩ | ⟨enlarged, grows, _⟩
  · simp at short
  · obtain ⟨_, grown, _⟩ := grown_consists backing heap (by omega) 5 grows
    obtain ⟨after, takes⟩ := malloc_takes_first backing [] [] ⟨true, 8186⟩ grown 5000#32 ⟨rfl, by decide⟩ (by simp)
      (fun _ => by decide) (by decide)
    refine ⟨after, ?_, ?_⟩
    · rw [malloc, if_neg (by decide), malloc_loop_grown search grows]
      exact takes 5 0 (by decide)
    · rw [malloc, if_neg (by decide), mallocLoop, search]
      rfl

theorem first_free_kept (s after : Paging) (before : PagedInvariant s) (behind : PagedInvariant after)
    (history : after.history = s.history) (n : Nat) (first : FirstFree s n) : FirstFree after n := by
  refine first_free_same s after (fun k bound => ?_) n first
  rw [Bool.eq_iff_iff, before.bits k bound, behind.bits k bound, history]

theorem heap_initialised (c : Machine Bool) (invariant : MachineInvariant c) (i : Bool) (d : Word)
    (fresh : c.heaps i = onePageHeap 0x1000000#32 d) : ∃ after,
    MachineStep c ⟨after, Function.update c.heaps i { onePageHeap 0x1000000#32 d with initialised := true }⟩ ∧
    ConsistsOf (HeapValid c.paging d 0x1000000) 0x1000000#32 d after (onePageHeap 0x1000000#32 d).proc
      [⟨true, 4090⟩] ∧
    after.history = c.paging.history ∧ after.placeAddr = c.paging.placeAddr := by
  have one := invariant.each i
  have inhabited : (onePageHeap 0x1000000#32 d).proc.heapSize.toNat ≠ 0 := (by decide : (0x1000#32 : Word).toNat ≠ 0)
  rw [fresh] at one
  obtain ⟨after, laid, heap, same⟩ := one_page_initialised c.paging invariant.holds d one.paged
    (one.writeable inhabited)
  refine ⟨after, ?_, heap, same⟩
  have step := MachineStep.initialise (c := c) i after (by rw [fresh]; rfl) (by
    unfold Machine.heap
    rw [fresh]
    exact laid)
  rw [fresh] at step
  exact step

theorem second_page_step (c : Machine Bool) (i : Bool) (d : Word)
    (ready : c.heaps i = { onePageHeap 0x1000000#32 d with initialised := true })
    (current : switchPageDirectory c.paging d = c.paging) (after : Paging)
    (grows : malloc 5 1 c.paging 5000#32 (onePageHeap 0x1000000#32 d).proc 0#8 =
      some (0x1000006#32, after, withPages (onePageHeap 0x1000000#32 d).proc 1))
    (needs : malloc 5 0 c.paging 5000#32 (onePageHeap 0x1000000#32 d).proc 0#8 = none) :
    MachineStep c ⟨after, Function.update c.heaps i
      ⟨withPages (onePageHeap 0x1000000#32 d).proc 1, [⟨0x1000006#32, 5000#32⟩], 1, true⟩⟩ := by
  have heap : c.heap i = ⟨c.paging, (onePageHeap 0x1000000#32 d).proc, [], 0⟩ := by
    unfold Machine.heap
    rw [ready, HeapState.mk.injEq]
    exact ⟨current, rfl, rfl, rfl⟩
  refine MachineStep.call i (.malloc 5000#32 0#8)
    ⟨after, withPages (onePageHeap 0x1000000#32 d).proc 1, [⟨0x1000006#32, 5000#32⟩], 1⟩ (by rw [ready])
    ⟨rfl, by decide⟩ ?_
  rw [heap]
  refine HeapStep.malloc 5000#32 0#8 5 1 0x1000006#32 after _ (by decide) ?_ grows fun fewer less => ?_
  · show (0x1000000#32 : Word).toNat + (0x1000#32 : Word).toNat + 4096 < 2 ^ 32
    decide
  · obtain rfl : fewer = 0 := by omega
    exact needs

/-- Two processes whose heaps lie at the same address initialise them, and the
second one's grows by a page. -/
theorem heaps_backed_two_heaps : ∃ (c : Machine Bool) (d e : Word), d ≠ e ∧
    (c.heaps false).proc = (onePageHeap 0x1000000#32 d).proc ∧
    (c.heaps true).proc = withPages (onePageHeap 0x1000000#32 e).proc 1 ∧
    PageBacked c.paging d 0x1000 ∧ PageBacked c.paging e 0x1000 ∧ PageBacked c.paging e 0x1001 := by
  obtain ⟨s, d, e, pages⟩ := two_pages
  have both : d ∈ s.history.directories ∧ e ∈ s.history.directories := by
    rw [pages.directories]
    exact ⟨List.mem_cons_of_mem _ List.mem_cons_self, List.mem_cons_self⟩
  let heaps : Bool → ProcessHeap := fun second => onePageHeap 0x1000000#32 (if second then e else d)
  have placed : HeapsPlaced (⟨s, heaps⟩ : Machine Bool) := by
    refine ⟨pages.reached, fun i j different => ?_, fun i => ?_⟩
    · cases i <;> cases j
      · exact absurd rfl different
      · exact pages.different.symm
      · exact pages.different
      · exact absurd rfl different
    · cases i
      · exact one_page_placed s d _ both.1 pages.first
      · exact one_page_placed s e _ both.2 pages.second
  have suited : ∀ i, HeapSuited s (heaps i).proc := by
    intro i
    cases i
    · exact one_page_suited s d pages.writeable.1
    · exact one_page_suited s e pages.writeable.2
  have invariant := placed_invariant ⟨s, heaps⟩ placed suited
  obtain ⟨first, laid, one, history1, place1⟩ := heap_initialised ⟨s, heaps⟩ invariant false d rfl
  have invariant1 := machine_step_kept _ _ invariant laid
  obtain ⟨second, laid2, two, history2, place2⟩ := heap_initialised _ invariant1 true e rfl
  have invariant2 := machine_step_kept _ _ invariant1 laid2
  have free : FirstFree second 4082 := first_free_kept s second invariant.holds invariant2.holds
    (history2.trans history1) 4082 pages.free
  have place : second.placeAddr.toNat ≤ 0x300000 := by
    rw [place2, place1]
    exact pages.place
  obtain ⟨third, grows, needs⟩ := second_page_taken _ second e free place two
  have current : switchPageDirectory second e = second := by
    unfold switchPageDirectory
    rw [← two.holds.heap.current]
  have start : Reached (fun c : Machine Bool => HeapsPlaced c ∧ ∀ i, HeapSuited c.paging (c.heaps i).proc)
      MachineStep ⟨s, heaps⟩ :=
    Reached.start ⟨placed, suited⟩
  have reached := ((start.next laid).next laid2).next
    (second_page_step _ true e rfl current third grows needs)
  have backed := heaps_backed _ reached
  have grown : (withPages (onePageHeap 0x1000000#32 e).proc 1).heapSize.toNat = 8192 := by
    simp [withPages, onePageHeap]
  refine ⟨_, d, e, pages.different.symm, ?_, ?_, backed false 0x1000000#32 ?_, backed true 0x1000000#32 ?_,
    backed true 0x1001000#32 ?_⟩
  · rfl
  · rfl
  · show Within 0x1000000 0x1001000 0x1000000#32
    exact ⟨by decide, by decide⟩
  · show Within 0x1000000 (0x1000000 + (withPages (onePageHeap 0x1000000#32 e).proc 1).heapSize.toNat) 0x1000000#32
    rw [grown]
    exact ⟨by decide, by decide⟩
  · show Within 0x1000000 (0x1000000 + (withPages (onePageHeap 0x1000000#32 e).proc 1).heapSize.toNat) 0x1001000#32
    rw [grown]
    exact ⟨by decide, by decide⟩

/-! One process whose heap is the second page of a table. -/

theorem one_page_heap_range (d : Word) : (onePageHeap 0x1001000#32 d).proc.heapStackBoundary.toNat = 16781312 ∧
    (onePageHeap 0x1001000#32 d).proc.heapSize.toNat = 4096 :=
  ⟨rfl, rfl⟩

/-- The table's first page was mapped with the write flag that `isWriteable` asks
for, so this is the flag the directory has for the heap. -/
theorem one_heap (isWriteable : Word) : ∃ s d, Reached PagingBooted PagingStep s ∧
    HeapPlaced s (onePageHeap 0x1001000#32 d) ∧ s.Listed d ∧ d ≠ s.kernelDirectory ∧
    s.entry d 4 &&& 2#32 = tableFlags isWriteable 1#32 &&& 2#32 := by
  have limit := kernel_mem_end
  have pages : kernelPages = 4080 := rfl
  obtain ⟨boot, d, process⟩ := one_process
  have place := process.place
  have layout := (paging_invariant boot process.reached).layout
  obtain ⟨first, _, maps, table, reached⟩ := one_page boot d process 0x1000000#32 isWriteable (by decide)
  have number : (0x1000000#32 : Word).toNat / 4096 = 4096 := rfl
  rw [number] at table
  have listed : first.Listed d :=
    (listed_same boot first maps.keeps.roots d).mpr (one_process_free boot d process).1
  have free := one_page_free boot first d _ _ process maps
  have size := maps_place _ _ _ _ _ _ _ maps
  have holds := paging_invariant first reached
  obtain ⟨s, allocated, mapsHeap, _⟩ := alloc_page_found first holds.layout (by omega) d 0x1001000#32 1#32 1#32
    listed 4081 free
  have sizeHeap := maps_place _ _ _ _ _ _ _ mapsHeap
  have step : PagingStep first s := by
    refine ⟨PagingCall.allocPage d 0x1001000#32 1#32 1#32, ⟨listed, by decide⟩, ?_, by omega⟩
    simp only [pagingCall, allocated, Option.bind_eq_bind, Option.bind_some]
  have directories : s.history.directories = [d] := by
    rw [mapsHeap.keeps.roots.directories, maps.keeps.roots.directories, process.directories]
  have absent : ¬ Present (boot.entry d 4) := fun present => by
    have kernel := (process.tables 4 (by decide)).1.mp present
    omega
  have present : Present (first.entry d 4) := maps.present
  have entry : s.entry d 4 = boot.placeAddr ||| tableFlags isWriteable 1#32 := by
    rw [mapsHeap.keeps.entries d listed 4 (by decide) present]
    exact table absent
  have mappings : ∀ page, s.mapping d page =
      if page = 4097 then some ⟨d, 4097, BitVec.ofNat 32 (4096 * 4081), 3#32⟩
      else if page = 4096 then
        some ⟨d, 4096, BitVec.ofNat 32 (4096 * kernelPages), pageFlags isWriteable 1#32⟩
      else none := by
    intro page
    have heapKey : (d, 4097) = (d, page) ↔ page = 4097 := by
      rw [Prod.mk.injEq, and_iff_right rfl, eq_comm]
    have tableKey : (d, 4096) = (d, page) ↔ page = 4096 := by
      rw [Prod.mk.injEq, and_iff_right rfl, eq_comm]
    have unmapped := process.unmapped page
    rw [Paging.mapping] at unmapped ⊢
    rw [mapsHeap.mappings, latest_cons, maps.mappings, latest_cons, unmapped]
    exact if_congr heapKey rfl (if_congr tableKey rfl rfl)
  have range := one_page_heap_range d
  refine ⟨s, d, Reached.next reached step, ⟨?_, by omega, by omega, by omega, ?_, ?_, ⟨rfl, rfl, rfl⟩⟩, ?_,
    ?_, ?_⟩
  · rw [directories]
    exact List.mem_singleton_self d
  · rintro x ⟨low, high⟩
    have page : x.toNat / 4096 = 4097 := by omega
    have flags : (3#32 : Word) &&& 2#32 ≠ 0#32 := by decide
    refine ⟨⟨d, 4097, BitVec.ofNat 32 (4096 * 4081), 3#32⟩, ?_, flags⟩
    rw [page]
    exact (mappings 4097).trans (if_pos rfl)
  · intro page behind
    refine (mappings page).trans ?_
    rw [if_neg (by omega), if_neg (by omega)]
  · exact (listed_same first s mapsHeap.keeps.roots d).mpr listed
  · rw [mapsHeap.keeps.roots.kernelDirectory, maps.keeps.roots.kernelDirectory]
    exact process.other
  · rw [entry, flagged_and _ _ _ layout.aligned (by decide)]

theorem one_heap_initialised (isWriteable : Word) : ∃ c after : Machine Unit, ∃ d, HeapsPlaced c ∧
    (c.heaps () = onePageHeap 0x1001000#32 d ∧ c.paging.entry d 4 &&& 2#32 = tableFlags isWriteable 1#32 &&& 2#32) ∧
    MachineStep c after ∧ (after.heaps ()).proc = (onePageHeap 0x1001000#32 d).proc ∧
    after.paging.entry d 4 = c.paging.entry d 4 := by
  obtain ⟨s, d, reached, placed, listed, process, flag⟩ := one_heap isWriteable
  have holds := paging_invariant s reached
  have heap := switch_current s holds d 0x1001000 0x1000 ⟨listed, process, rfl, placed.mapped⟩
  have back := heap_current_backs d 0x1001000 0x1000 (fun after => after.entry d 4 = s.entry d 4) (by
    rintro before within rfl inDirectories other a m b found same
    rw [← same]
    exact frames_entry before within _ before.currentDir (stored_below before within other a m found b) _
      inDirectories 4 (by decide))
  obtain ⟨sized, sizes, valid, _⟩ := setSize_eq back (by decide) ⟨heap, rfl⟩ 0x1001000#32 (by decide)
    (by decide) (0x1000#32 - sizeofBlock)
  obtain ⟨after, marked, ⟨_, same⟩, _⟩ := setIsFree_eq back (by decide) valid 0x1001000#32 (by decide)
    (by decide) 1#16
  have laid : initialiseHeap (switchPageDirectory s d) (onePageHeap 0x1001000#32 d).proc = some after := by
    simp only [initialiseHeap, onePageHeap, sizes, marked, Option.bind_eq_bind, Option.bind_some]
  refine ⟨⟨s, fun _ => onePageHeap 0x1001000#32 d⟩, _, d, ⟨reached, fun i j different => absurd rfl different,
    fun _ => placed⟩, ⟨rfl, flag⟩, MachineStep.initialise () after rfl laid, rfl, same⟩

/-- If the table's first page is mapped as read-only, so is a heap behind it,
whatever its own pages were mapped as. -/
theorem heap_not_writeable : ∃ c : Machine Unit, Reached HeapsPlaced MachineStep c ∧
    ∃ x, Within (c.heaps ()).proc.heapStackBoundary.toNat
        ((c.heaps ()).proc.heapStackBoundary.toNat + (c.heaps ()).proc.heapSize.toNat) x ∧
      ¬ PageBacked c.paging (c.heaps ()).proc.pageDirectory (x.toNat / 4096) := by
  obtain ⟨c, after, d, placed, ⟨_, flag⟩, step, proc, same⟩ := one_heap_initialised 0#32
  refine ⟨after, Reached.next (Reached.start placed) step, 0x1001000#32, ?_, fun backed => ?_⟩
  · have range := one_page_heap_range d
    rw [proc, range.1, range.2]
    exact ⟨by decide, by decide⟩
  · have writeable := backed.directory
    rw [proc] at writeable
    change after.paging.entry d 4 &&& 2#32 ≠ 0#32 at writeable
    rw [same, flag] at writeable
    exact writeable (by decide)

end GargOS
