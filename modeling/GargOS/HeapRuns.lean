import GargOS.HeapCalls
import GargOS.Lib.Runs

/-!
Runs of `malloc` and `free` on one heap. The state keeps beside memory and the
process which allocations are live, and how many pages `malloc` has added.
-/

namespace GargOS
open ByteMemory AddressSpace Tiling Runs

structure Allocation where
  ptr : Word
  bytes : Word
  deriving DecidableEq

structure HeapState (σ : Type) where
  space : σ
  proc : Process
  live : List Allocation
  pages : Nat

inductive HeapCall
  | malloc (bytes : Word) (align : Byte)
  | free (allocation : Allocation)

section Runs
variable {σ : Type} [PagedSpace σ]

/-- The calls that return. A `malloc` adds exactly `pages` pages: it does not
return with fewer. The heap end stays below the top of memory. -/
inductive HeapStep (c : HeapState σ) : HeapCall → HeapState σ → Prop
  | malloc (bytes : Word) (align : Byte) (fuel pages : Nat) (ptr : Word) (after : σ)
      (proc' : Process) (asked : bytes ≠ 0#32)
      (below : c.proc.heapStackBoundary.toNat + c.proc.heapSize.toNat + 4096 * pages < 2 ^ 32)
      (returned : malloc fuel pages c.space bytes c.proc align = some (ptr, after, proc'))
      (needed : ∀ fewer < pages, GargOS.malloc fuel fewer c.space bytes c.proc align = none) :
      HeapStep c (HeapCall.malloc bytes align)
        ⟨after, proc', ⟨ptr, bytes⟩ :: c.live, c.pages + pages⟩
  | free (allocation : Allocation) (fuel : Nat) (after : σ) (live : allocation ∈ c.live)
      (returned : free fuel c.space c.proc allocation.ptr = some after) :
      HeapStep c (HeapCall.free allocation)
        ⟨after, c.proc, c.live.erase allocation, c.pages⟩

/-- The state `initialise_heap` leaves for a heap of `heapSize` bytes at `start`
that, like its first header, ends below the top of memory. -/
structure Initialised (valid : Nat → σ → Prop) (start directory heapSize : Word)
    (c : HeapState σ) : Prop where
  base : c.proc.heapStackBoundary = start
  current : c.proc.pageDirectory = directory
  extent : c.proc.heapSize = heapSize
  top : start.toNat + max heapSize.toNat 6 < 2 ^ 32
  fresh : c.live = [] ∧ c.pages = 0
  laid : ∃ s, valid heapSize.toNat s ∧ initialiseHeap s c.proc = some c.space

/-- The condition under which a call does not divide a block smaller than a
header, in terms of the blocks the heap consists of. -/
def SafeCall (c : HeapState σ) : HeapCall → Prop
  | .malloc bytes align => ∀ bs, Blocks (view c.space) c.proc.heapStackBoundary c.proc.heapSize bs →
      MallocSafe bytes.toNat align c.proc.heapStackBoundary.toNat bs
  | .free _ => True

def CallsWhere (allowed : HeapState σ → HeapCall → Prop) (c after : HeapState σ) : Prop :=
  ∃ call, allowed c call ∧ HeapStep c call after

/-- A request without alignment that is at least as long as a header, or a `free`. -/
def Coarse (_ : HeapState σ) : HeapCall → Prop
  | .malloc bytes align => align = 0#8 ∧ 6 ≤ bytes.toNat
  | .free _ => True

def Owns (l : Allocation) (p : Nat × Segment) : Prop :=
  l.ptr.toNat = p.1 + 6 ∧ p.2.free = false ∧ l.bytes.toNat ≤ p.2.size

/-- Every live allocation owns a block, different ones different blocks, and
unless the heap starts at address 0 every used block has an owner. -/
structure Accounts (start : Nat) (bs : List Segment) (live : List Allocation) : Prop where
  owned : ∀ l ∈ live, ∃ p ∈ layout 6 start bs, Owns l p
  distinct : live.Pairwise fun l l' => l.ptr ≠ l'.ptr
  owner : start ≠ 0 → ∀ p ∈ layout 6 start bs, p.2.free = false →
    ∃ l ∈ live, l.ptr.toNat = p.1 + 6

structure HeapInvariant (valid : Nat → σ → Prop) (start directory heapSize : Word)
    (c : HeapState σ) : Prop where
  base : c.proc.heapStackBoundary = start
  current : c.proc.pageDirectory = directory
  grown : c.proc.heapSize.toNat = heapSize.toNat + 4096 * c.pages
  top : start.toNat + c.proc.heapSize.toNat < 2 ^ 32
  holds : valid c.proc.heapSize.toNat c.space
  blocks : ∃ bs, Blocks (view c.space) start c.proc.heapSize bs ∧ Accounts start.toNat bs c.live
  empty : c.proc.heapSize = 0#32 → HeaderAt (view c.space) start ⟨true, 2 ^ 32 - 6⟩

structure Intact (c : HeapState σ) (bs : List Segment) : Prop where
  tiles : Tiles (view c.space) c.proc.heapStackBoundary.toNat bs
  ends : c.proc.heapStackBoundary.toNat + span 6 bs =
    c.proc.heapStackBoundary.toNat + c.proc.heapSize.toNat
  owned : ∀ l ∈ c.live, ∃ p ∈ layout 6 c.proc.heapStackBoundary.toNat bs, Owns l p ∧
    ∀ q ∈ layout 6 c.proc.heapStackBoundary.toNat bs, l.ptr.toNat = q.1 + 6 → q = p
  inside : ∀ l ∈ c.live, c.proc.heapStackBoundary.toNat ≤ l.ptr.toNat ∧
    l.ptr.toNat + l.bytes.toNat ≤ c.proc.heapStackBoundary.toNat + c.proc.heapSize.toNat
  disjoint : c.live.Pairwise fun l l' => l.ptr.toNat + l.bytes.toNat ≤ l'.ptr.toNat ∨
    l'.ptr.toNat + l'.bytes.toNat ≤ l.ptr.toNat

/-- No payload byte of an allocation that is live before and after differs. -/
def PayloadsKept (c after : HeapState σ) : Prop :=
  ∀ l ∈ c.live, l ∈ after.live → ∀ x : Word, l.ptr.toNat ≤ x.toNat →
    x.toNat < l.ptr.toNat + (ByteMemory.load32 (view c.space) (l.ptr - 4#32)).toNat →
    view after.space x = view c.space x

/-- One call with the pages it adds, where it returns with just these. -/
def runCall (fuel pages : Nat) (c : HeapState σ) : HeapCall → Option (HeapState σ)
  | .malloc bytes align =>
      if bytes ≠ 0#32 ∧
          c.proc.heapStackBoundary.toNat + c.proc.heapSize.toNat + 4096 * pages < 2 ^ 32 ∧
          ∀ fewer < pages, (malloc fuel fewer c.space bytes c.proc align).isNone = true then do
        let (ptr, after, proc') ← malloc fuel pages c.space bytes c.proc align
        some ⟨after, proc', ⟨ptr, bytes⟩ :: c.live, c.pages + pages⟩
      else none
  | .free allocation =>
      if allocation ∈ c.live then do
        let after ← free fuel c.space c.proc allocation.ptr
        some ⟨after, c.proc, c.live.erase allocation, c.pages⟩
      else none

theorem run_call_step (fuel pages : Nat) (c after : HeapState σ) (call : HeapCall)
    (returned : runCall fuel pages c call = some after) : HeapStep c call after := by
  cases call with
  | malloc bytes align =>
      rw [runCall] at returned
      split at returned
      next allowed =>
        obtain ⟨⟨ptr, space, proc'⟩, mallocs, same⟩ := Option.bind_eq_some_iff.mp returned
        obtain rfl := Option.some.inj same
        exact HeapStep.malloc bytes align fuel pages ptr space proc' allowed.1 allowed.2.1 mallocs
          fun fewer less => Option.isNone_iff_eq_none.mp (allowed.2.2 fewer less)
      next => simp at returned
  | free allocation =>
      rw [runCall] at returned
      split at returned
      next live =>
        obtain ⟨space, frees, same⟩ := Option.bind_eq_some_iff.mp returned
        obtain rfl := Option.some.inj same
        exact HeapStep.free allocation fuel space live frees
      next => simp at returned

theorem run_calls_reached (initial : HeapState σ → Prop) (allowed : HeapState σ → HeapCall → Prop)
    (fuel : Nat) (calls : List (HeapCall × Nat)) (all : ∀ c, ∀ call ∈ calls, allowed c call.1)
    (c after : HeapState σ) (reached : Reached initial (CallsWhere allowed) c)
    (returned : follow (fun c call => runCall fuel call.2 c call.1) c calls = some after) :
    Reached initial (CallsWhere allowed) after :=
  follow_reached _ calls (fun s after call member step =>
    ⟨call.1, all s call member, run_call_step fuel call.2 s after call.1 step⟩) c after reached returned

section Kept
variable {start directory heapSize : Word} {valid : Nat → σ → Prop}
  (backing : HeapBacking start directory valid)

theorem heap_invariant_moved {valid' : Nat → σ → Prop} (c after : HeapState σ)
    (holds : HeapInvariant valid start directory heapSize c) (inhabited : c.proc.heapSize ≠ 0#32)
    (same : after.proc = c.proc ∧ after.live = c.live ∧ after.pages = c.pages)
    (valid : valid' c.proc.heapSize.toNat after.space)
    (kept : ∀ x, Within start.toNat (start.toNat + c.proc.heapSize.toNat) x →
      view after.space x = view c.space x) :
    HeapInvariant valid' start directory heapSize after := by
  obtain ⟨proc, live, pages⟩ := same
  obtain ⟨bs, blocks, accounts⟩ := holds.blocks
  have top := holds.top
  have total := blocks.total
  refine ⟨?_, ?_, ?_, ?_, ?_, ⟨bs, ⟨?_, ?_, blocks.separated⟩, ?_⟩, ?_⟩
  · rw [proc]
    exact holds.base
  · rw [proc]
    exact holds.current
  · rw [proc, pages]
    exact holds.grown
  · rw [proc]
    exact top
  · rw [proc]
    exact valid
  · exact tiles_kept _ _ _ bs (by omega) (fun x low high => kept x ⟨low, by omega⟩) blocks.tiles
  · rw [proc]
    exact total
  · rw [live]
    exact accounts
  · rw [proc]
    exact fun zero => absurd zero inhabited

omit [PagedSpace σ] in
theorem owner_unique (base : Nat) (bs : List Segment) (l : Allocation) (p q : Nat × Segment)
    (left : p ∈ layout 6 base bs) (right : q ∈ layout 6 base bs) (owns : Owns l p)
    (place : l.ptr.toNat = q.1 + 6) : q = p :=
  layout_unique 6 (by omega) base bs q p right left (by have := owns.1; omega)

theorem distinct_ptr (live : List Allocation)
    (distinct : live.Pairwise fun l l' => l.ptr ≠ l'.ptr) (l l' : Allocation) (first : l ∈ live)
    (second : l' ∈ live) (different : l ≠ l') : l.ptr ≠ l'.ptr := by
  have : Std.Symm fun l l' : Allocation => l.ptr ≠ l'.ptr := ⟨fun _ _ => Ne.symm⟩
  exact distinct.forall first second different

theorem payload_in_block (m : Memory) (base : Nat) (bs : List Segment) (l : Allocation)
    (p : Nat × Segment) (tiles : Tiles m base bs) (member : p ∈ layout 6 base bs)
    (owns : Owns l p) : (ByteMemory.load32 m (l.ptr - 4#32)).toNat = p.2.size := by
  have here : l.ptr - 4#32 = BitVec.ofNat 32 p.1 + 2#32 := by
    have place := owns.1
    bv_omega
  rw [here]
  exact (tiles p member).2

section Start
include backing

theorem initialised_invariant (c : HeapState σ) (room : heapSize = 0#32 ∨ 6 ≤ heapSize.toNat)
    (initial : Initialised valid start directory heapSize c) :
    HeapInvariant valid start directory heapSize c := by
  obtain ⟨s, holds, laid⟩ := initial.laid
  have extent := initial.extent
  have nothing := initial.fresh
  obtain ⟨next, blocks, header⟩ := initialise_heap_result backing c.proc initial.base
    (by rwa [extent]) (by rw [extent]; exact initial.top) (by rwa [extent]) c.space laid
  refine ⟨initial.base, initial.current, by simp [extent, nothing], ?_, next, ?_, ?_⟩
  · have := initial.top
    rw [extent]
    omega
  · refine ⟨_, blocks, by simp [nothing], by simp [nothing], ?_⟩
    rintro _ p member inUse
    unfold initialBlocks at member
    split at member
    · simp at member
    · simp only [layout_cons, layout_nil, List.mem_singleton] at member
      simp [member] at inUse
  · intro zero
    rw [zero] at header
    exact header

theorem malloc_step_kept (c after : HeapState σ) (bytes : Word) (align : Byte)
    (holds : HeapInvariant valid start directory heapSize c)
    (safe : SafeCall c (HeapCall.malloc bytes align))
    (step : HeapStep c (HeapCall.malloc bytes align) after) :
    HeapInvariant valid start directory heapSize after ∧ PayloadsKept c after := by
  obtain ⟨bs, blocks, accounts⟩ := holds.blocks
  cases step with
  | malloc _ _ fuel pages ptr space proc' asked below returned needed =>
      simp only [malloc, asked, if_false] at returned needed
      rw [holds.base] at below
      obtain ⟨count, bs', d, few, exactly, mallocs⟩ := malloc_loop_result backing bytes align fuel
        pages c.proc holds.base holds.current below holds.holds bs blocks
        (holds.base ▸ safe bs (holds.base ▸ blocks)) ptr space proc' returned
      -- fewer pages would not have been enough
      have all : count = pages := by
        by_contra different
        rw [needed count (by omega)] at exactly
        simp at exactly
      subst all
      have size1 : proc'.heapSize.toNat = c.proc.heapSize.toNat + 4096 * count := by
        rw [mallocs.grown, BitVec.toNat_ofNat]
        omega
      have grants := mallocs.grants
      have place := mallocs.place
      have ownsNew : Owns ⟨ptr, bytes⟩ (ptr.toNat - 6, d) :=
        ⟨by dsimp only; omega, grants.inUse, mallocs.large⟩
      have kept : ∀ l ∈ c.live, ∀ p ∈ layout 6 start.toNat bs, Owns l p → l.ptr ≠ ptr := by
        rintro l member p earlier owns same
        have still := grants.kept p earlier owns.2.1
        have unique := owner_unique start.toNat bs' ⟨ptr, bytes⟩ (ptr.toNat - 6, d) p grants.member
          still ownsNew (by dsimp only; rw [← same]; exact owns.1)
        exact grants.fresh (unique ▸ earlier)
      constructor
      · refine ⟨?_, ?_, ?_, by rw [size1]; omega, mallocs.holds, ?_, ?_⟩
        · rw [mallocs.grown]
          exact holds.base
        · rw [mallocs.grown]
          exact holds.current
        · simp only [size1, holds.grown]
          omega
        · refine ⟨bs', mallocs.blocks, ?_, ?_, ?_⟩
          · intro l member
            rcases List.mem_cons.mp member with rfl | earlier
            · exact ⟨_, grants.member, ownsNew⟩
            · obtain ⟨p, inBlocks, owns⟩ := accounts.owned l earlier
              exact ⟨p, grants.kept p inBlocks owns.2.1, owns⟩
          · rw [List.pairwise_cons]
            refine ⟨fun l member => ?_, accounts.distinct⟩
            obtain ⟨p, inBlocks, owns⟩ := accounts.owned l member
            exact (kept l member p inBlocks owns).symm
          · intro elsewhere p member inUse
            rcases grants.only elsewhere p member inUse with rfl | earlier
            · exact ⟨⟨ptr, bytes⟩, List.mem_cons_self, ownsNew.1⟩
            · obtain ⟨l, live, owns⟩ := accounts.owner elsewhere p earlier inUse
              exact ⟨l, List.mem_cons_of_mem _ live, owns⟩
        · intro zero
          have bounds := layout_bounds 6 _ _ _ grants.member
          rw [mallocs.blocks.total, zero] at bounds
          simp only [extent, BitVec.toNat_zero] at bounds
          omega
      · intro l member _ x low high
        obtain ⟨p, inBlocks, owns⟩ := accounts.owned l member
        rw [payload_in_block _ _ bs l p blocks.tiles inBlocks owns] at high
        have here := owns.1
        exact mallocs.usedKept p inBlocks owns.2.1 x (by omega) (by simp only [extent]; omega)

theorem free_step_kept (c after : HeapState σ) (allocation : Allocation)
    (holds : HeapInvariant valid start directory heapSize c)
    (step : HeapStep c (HeapCall.free allocation) after) :
    HeapInvariant valid start directory heapSize after ∧ PayloadsKept c after := by
  obtain ⟨bs, blocks, accounts⟩ := holds.blocks
  cases step with
  | free _ fuel space live returned =>
      obtain ⟨p, member, owns⟩ := accounts.owned allocation live
      obtain ⟨bs', next, blocks', others, kept⟩ := free_result backing c.proc holds.base holds.top
        holds.holds bs blocks allocation.ptr p member owns.1 fuel space returned
      have nodup : c.live.Nodup := accounts.distinct.imp fun different same => different (by rw [same])
      have remaining : ∀ l ∈ c.live.erase allocation, l ∈ c.live ∧ l.ptr ≠ allocation.ptr := by
        intro l still
        obtain ⟨different, earlier⟩ := nodup.mem_erase_iff.mp still
        exact ⟨earlier, distinct_ptr _ accounts.distinct l allocation earlier live different⟩
      have otherBlock : ∀ l q, Owns l q → l.ptr ≠ allocation.ptr → q ≠ p := by
        rintro l q ownsOther different rfl
        apply different
        have first := ownsOther.1
        have second := owns.1
        bv_omega
      constructor
      · refine ⟨holds.base, holds.current, holds.grown, holds.top, next, ⟨bs', blocks', ?_, ?_, ?_⟩,
          ?_⟩
        · intro l still
          obtain ⟨earlier, different⟩ := remaining l still
          obtain ⟨q, inBlocks, ownsOther⟩ := accounts.owned l earlier
          exact ⟨q, (others q ownsOther.2.1).mpr ⟨inBlocks, otherBlock l q ownsOther different⟩,
            ownsOther⟩
        · exact accounts.distinct.sublist List.erase_sublist
        · intro elsewhere q inBlocks inUse
          obtain ⟨earlier, different⟩ := (others q inUse).mp inBlocks
          obtain ⟨l, live', place⟩ := accounts.owner elsewhere q earlier inUse
          refine ⟨l, nodup.mem_erase_iff.mpr ⟨?_, live'⟩, place⟩
          rintro rfl
          exact different (owner_unique start.toNat bs l p q member earlier owns place)
        · intro zero
          have bounds := layout_bounds 6 _ _ p member
          rw [blocks.total, zero] at bounds
          simp only [extent, BitVec.toNat_zero] at bounds
          omega
      · intro l _ still x low high
        obtain ⟨earlier, different⟩ := remaining l still
        obtain ⟨q, inBlocks, ownsOther⟩ := accounts.owned l earlier
        rw [payload_in_block _ _ bs l q blocks.tiles inBlocks ownsOther] at high
        have here := ownsOther.1
        exact kept q inBlocks ownsOther.2.1 (otherBlock l q ownsOther different) x (by omega)
          (by simp only [extent]; omega)

theorem heap_step_kept (c after : HeapState σ) (call : HeapCall)
    (holds : HeapInvariant valid start directory heapSize c) (safe : SafeCall c call)
    (step : HeapStep c call after) :
    HeapInvariant valid start directory heapSize after ∧ PayloadsKept c after := by
  cases call with
  | malloc bytes align => exact malloc_step_kept backing c after bytes align holds safe step
  | free allocation => exact free_step_kept backing c after allocation holds step

theorem safe_run_invariant (room : heapSize = 0#32 ∨ 6 ≤ heapSize.toNat) (c : HeapState σ)
    (reached : Reached (Initialised valid start directory heapSize) (CallsWhere SafeCall) c) :
    HeapInvariant valid start directory heapSize c := by
  apply reached_invariant _ _ _ c reached
  · exact fun c initial => initialised_invariant backing c room initial
  · rintro c after holds ⟨call, safe, step⟩
    exact (heap_step_kept backing c after call holds safe step).1

omit backing in
theorem coarse_safe (c : HeapState σ) (call : HeapCall) (coarse : Coarse c call) :
    SafeCall c call := by
  cases call with
  | malloc bytes align => exact fun bs _ => malloc_safe_large _ _ coarse.2 _ bs
  | free allocation => trivial

omit backing in
theorem invariant_intact (c : HeapState σ)
    (holds : HeapInvariant valid start directory heapSize c) : ∃ bs, Intact c bs := by
  obtain ⟨bs, blocks, accounts⟩ := holds.blocks
  obtain rfl := holds.base
  have total := blocks.total
  refine ⟨bs, blocks.tiles, by rw [total], ?_, ?_, ?_⟩
  · intro l member
    obtain ⟨p, inBlocks, owns⟩ := accounts.owned l member
    exact ⟨p, inBlocks, owns, fun q right place =>
      owner_unique _ bs l p q inBlocks right owns place⟩
  · intro l member
    obtain ⟨p, inBlocks, place, _, large⟩ := accounts.owned l member
    have bounds := layout_bounds 6 _ _ p inBlocks
    simp only [extent] at bounds
    omega
  · refine accounts.distinct.imp_of_mem ?_
    intro l l' first second different
    obtain ⟨p, inBlocks, place, _, large⟩ := accounts.owned l first
    obtain ⟨p', inBlocks', place', _, large'⟩ := accounts.owned l' second
    have apart := layout_apart 6 _ _ p p' inBlocks inBlocks' (by
      rintro rfl
      exact different (by bv_omega))
    simp only [extent] at apart
    omega

end Start
end Kept
end Runs

/-! Runs on a heap all of whose pages are mapped. -/

theorem mapped_memory_backing (start directory : Word) :
    HeapBacking start directory (fun _ (_ : MappedMemory) => True) where
  access _ _ := ⟨fun _ _ => rfl, fun _ _ _ => ⟨_, rfl, trivial, fun _ _ => rfl⟩⟩
  grow := by
    intro n s isKernel address after _ _ _ mapped
    obtain ⟨_, rfl⟩ := Prod.mk.inj (Option.some.inj mapped)
    exact ⟨trivial, fun _ _ => rfl⟩

def heapOf (start heapSize : Word) : HeapState MappedMemory :=
  let proc : Process := { (default : Process) with heapStackBoundary := start, heapSize := heapSize }
  ⟨(initialiseHeap ⟨fun _ => 0#8⟩ proc).getD ⟨fun _ => 0#8⟩, proc, [], 0⟩

theorem heap_of_initialised (start heapSize : Word)
    (top : start.toNat + max heapSize.toNat 6 < 2 ^ 32) :
    Initialised (fun _ _ => True) start (default : Process).pageDirectory heapSize
      (heapOf start heapSize) :=
  ⟨rfl, rfl, rfl, top, ⟨rfl, rfl⟩, ⟨⟨fun _ => 0#8⟩, trivial, rfl⟩⟩

/-- A heap whose first header fits stays intact as long as no call divides a
block that is smaller than a header. -/
theorem heap_integrity {σ : Type} [PagedSpace σ] {start directory heapSize : Word}
    {valid : Nat → σ → Prop} (backing : HeapBacking start directory valid)
    (room : heapSize = 0#32 ∨ 6 ≤ heapSize.toNat) (c : HeapState σ)
    (reached : Reached (Initialised valid start directory heapSize) (CallsWhere SafeCall) c) :
    (∃ bs, Intact c bs) ∧
      ∀ call after, SafeCall c call → HeapStep c call after → PayloadsKept c after := by
  have holds := safe_run_invariant backing room c reached
  exact ⟨invariant_intact c holds, fun call after safe step =>
    (heap_step_kept backing c after call holds safe step).2⟩

theorem heap_integrity_mixed : ∃ c : HeapState MappedMemory, c.live.length = 2 ∧ c.pages = 2 ∧
    (∃ bs, Intact c bs) ∧
      ∀ call after, SafeCall c call → HeapStep c call after → PayloadsKept c after := by
  have run : ((follow (fun c call => runCall 20 call.2 c call.1) (heapOf 0x1000000#32 0x1000#32)
      [(HeapCall.malloc 100#32 0#8, 0), (HeapCall.malloc 4000#32 0#8, 1),
        (HeapCall.malloc 50#32 1#8, 1), (HeapCall.free ⟨0x1000006#32, 100#32⟩, 0)]).map
      fun c => (c.live.length, c.pages)) = some (2, 2) := by
    decide +kernel
  obtain ⟨c, returned, shape⟩ := Option.map_eq_some_iff.mp run
  have large : ∀ (c : HeapState MappedMemory) (bytes : Word) (align : Byte), 6 ≤ bytes.toNat →
      SafeCall c (HeapCall.malloc bytes align) :=
    fun _ _ _ enough bs _ => malloc_safe_large _ _ enough _ bs
  have reached := run_calls_reached _ SafeCall 20 _ (by
    intro c call member
    simp only [List.mem_cons, List.not_mem_nil, or_false] at member
    rcases member with rfl | rfl | rfl | rfl
    · exact large c _ _ (by decide)
    · exact large c _ _ (by decide)
    · exact large c _ _ (by decide)
    · trivial) _ c (Reached.start (heap_of_initialised 0x1000000#32 0x1000#32 (by decide))) returned
  exact ⟨c, congrArg Prod.fst shape, congrArg Prod.snd shape,
    heap_integrity (mapped_memory_backing _ _) (by decide) c reached⟩

/-- Three requests of which the second leaves a remainder of four bytes: the
third is granted a block that starts in the remainder and ends outside the heap. -/
theorem heap_overrun : ∃ c : HeapState MappedMemory,
    Reached (Initialised (fun _ _ => True) 0x1000000#32 (default : Process).pageDirectory 0x1000#32)
      (CallsWhere fun _ _ => True) c ∧ ¬ ∃ bs, Intact c bs := by
  have run : ((follow (fun c call => runCall 20 call.2 c call.1) (heapOf 0x1000000#32 0x1000#32)
      [(HeapCall.malloc 4081#32 0#8, 0), (HeapCall.malloc 1#32 0#8, 0),
        (HeapCall.malloc 10#32 0#8, 0)]).map
      fun c => (c.live.head?, c.proc.heapStackBoundary, c.proc.heapSize)) =
      some (some ⟨0x1001004#32, 10#32⟩, 0x1000000#32, 0x1000#32) := by
    decide +kernel
  obtain ⟨c, returned, shape⟩ := Option.map_eq_some_iff.mp run
  simp only [Prod.mk.injEq] at shape
  have reached := run_calls_reached _ (fun _ _ => True) 20 _ (fun _ _ _ => trivial) _ c
    (Reached.start (heap_of_initialised 0x1000000#32 0x1000#32 (by decide))) returned
  refine ⟨c, reached, ?_⟩
  rintro ⟨bs, intact⟩
  have inside := (intact.inside ⟨0x1001004#32, 10#32⟩ (List.mem_of_mem_head? shape.1)).2
  rw [shape.2.1, shape.2.2] at inside
  simp at inside

/-- With no live allocation the heap is one free block. -/
theorem no_fragmentation {σ : Type} [PagedSpace σ] {start directory heapSize : Word}
    {valid : Nat → σ → Prop} (backing : HeapBacking start directory valid)
    (room : heapSize = 0#32 ∨ 6 ≤ heapSize.toNat) (elsewhere : start ≠ 0#32)
    (c : HeapState σ)
    (reached : Reached (Initialised valid start directory heapSize) (CallsWhere Coarse) c)
    (idle : c.live = []) :
    HeaderAt (view c.space) start ⟨true, (c.proc.heapSize - sizeofBlock).toNat⟩ ∧
      c.proc.heapSize.toNat = heapSize.toNat + 4096 * c.pages := by
  have safely := reached_mono (fun _ initial => initial)
    (fun c after step => step.imp fun call => And.imp_left (coarse_safe c call)) c reached
  have holds := safe_run_invariant backing room c safely
  refine ⟨?_, holds.grown⟩
  by_cases zero : c.proc.heapSize = 0#32
  · have header := holds.empty zero
    rwa [zero]
  · obtain ⟨bs, blocks, accounts⟩ := holds.blocks
    have notUsed : ∀ b ∈ bs, b.free = true := by
      intro b member
      obtain ⟨pre, post, rfl⟩ := List.append_of_mem member
      by_contra inUse
      have place : (start.toNat + span 6 pre, b) ∈ layout 6 start.toNat (pre ++ b :: post) := by simp
      obtain ⟨l, live, _⟩ := accounts.owner (by bv_omega) _ place (by simpa using inUse)
      simp [idle] at live
    have inhabited : bs ≠ [] := by
      rintro rfl
      have := blocks.total
      simp only [span_nil] at this
      bv_omega
    have alone := separated_all_free 6 bs blocks.separated notUsed inhabited
    have total := blocks.total
    have tiles := blocks.tiles
    have least : (c.proc.heapSize - sizeofBlock).toNat = span 6 bs - 6 := by
      rw [alone, span_cons, extent] at total
      rw [blocks.total]
      unfold sizeofBlock
      bv_omega
    rw [alone, tiles_cons, word_at _ start rfl, ← least] at tiles
    exact tiles.1

theorem no_fragmentation_swapped : ∃ c : HeapState MappedMemory, c.pages = 1 ∧
    HeaderAt (view c.space) 0x1000000#32 ⟨true, (c.proc.heapSize - sizeofBlock).toNat⟩ ∧
      c.proc.heapSize.toNat = (0x1000#32).toNat + 4096 * c.pages := by
  have run : ((follow (fun c call => runCall 20 call.2 c call.1) (heapOf 0x1000000#32 0x1000#32)
      [(HeapCall.malloc 100#32 0#8, 0), (HeapCall.malloc 4000#32 0#8, 1),
        (HeapCall.free ⟨0x1000006#32, 100#32⟩, 0),
        (HeapCall.free ⟨0x1000070#32, 4000#32⟩, 0)]).map
      fun c => (c.live, c.pages)) = some ([], 1) := by
    decide +kernel
  obtain ⟨c, returned, shape⟩ := Option.map_eq_some_iff.mp run
  have reached := run_calls_reached _ Coarse 20 _ (by
    intro c call member
    simp only [List.mem_cons, List.not_mem_nil, or_false] at member
    rcases member with rfl | rfl | rfl | rfl
    · exact ⟨rfl, by decide⟩
    · exact ⟨rfl, by decide⟩
    · trivial
    · trivial) _ c (Reached.start (heap_of_initialised 0x1000000#32 0x1000#32 (by decide))) returned
  exact ⟨c, congrArg Prod.snd shape, no_fragmentation (mapped_memory_backing _ _) (by decide)
    (by decide) c reached (congrArg Prod.fst shape)⟩

/-- A heap shorter than a header, and a heap at address 0, whose first block
`malloc` takes for a failure, keep something else. -/
theorem fragmentation_left :
    (∃ c : HeapState MappedMemory,
      Reached (Initialised (fun _ _ => True) 0x1000000#32 (default : Process).pageDirectory 3#32)
        (CallsWhere Coarse) c ∧ c.live = [] ∧
      ¬ HeaderAt (view c.space) 0x1000000#32 ⟨true, (c.proc.heapSize - sizeofBlock).toNat⟩) ∧
    ∃ c : HeapState MappedMemory,
      Reached (Initialised (fun _ _ => True) 0#32 (default : Process).pageDirectory 0x1000#32)
        (CallsWhere Coarse) c ∧ c.live = [] ∧
      ¬ HeaderAt (view c.space) 0#32 ⟨true, (c.proc.heapSize - sizeofBlock).toNat⟩ := by
  have allCoarse : ∀ (c : HeapState MappedMemory) (ptr : Word) (pages : Nat),
      ∀ call ∈ [(HeapCall.malloc 6#32 0#8, pages), (HeapCall.free ⟨ptr, 6#32⟩, 0)],
        Coarse c call.1 := by
    intro c ptr pages call member
    simp only [List.mem_cons, List.not_mem_nil, or_false] at member
    rcases member with rfl | rfl
    · exact ⟨rfl, by decide⟩
    · trivial
  constructor
  · have run : ((follow (fun c call => runCall 20 call.2 c call.1) (heapOf 0x1000000#32 3#32)
        [(HeapCall.malloc 6#32 0#8, 0), (HeapCall.free ⟨0x1000006#32, 6#32⟩, 0)]).map
        fun c => (c.live, c.proc.heapSize, ByteMemory.load32 (view c.space) 0x1000002#32)) =
        some ([], 3#32, 6#32) := by
      decide +kernel
    obtain ⟨c, returned, shape⟩ := Option.map_eq_some_iff.mp run
    simp only [Prod.mk.injEq] at shape
    refine ⟨c, run_calls_reached _ Coarse 20 _ (fun c => allCoarse c _ _) _ c
      (Reached.start (heap_of_initialised 0x1000000#32 3#32 (by decide))) returned, shape.1, ?_⟩
    intro header
    have sized : (ByteMemory.load32 (view c.space) 0x1000002#32).toNat = _ := header.2
    rw [shape.2.1, shape.2.2] at sized
    simp [sizeofBlock] at sized
  · have run : ((follow (fun c call => runCall 20 call.2 c call.1) (heapOf 0#32 0x1000#32)
        [(HeapCall.malloc 6#32 0#8, 1), (HeapCall.free ⟨18#32, 6#32⟩, 0)]).map
        fun c => (c.live, c.proc.heapSize, ByteMemory.load32 (view c.space) 2#32)) =
        some ([], 0x2000#32, 6#32) := by
      decide +kernel
    obtain ⟨c, returned, shape⟩ := Option.map_eq_some_iff.mp run
    simp only [Prod.mk.injEq] at shape
    refine ⟨c, run_calls_reached _ Coarse 20 _ (fun c => allCoarse c _ _) _ c
      (Reached.start (heap_of_initialised 0#32 0x1000#32 (by decide))) returned, shape.1, ?_⟩
    intro header
    have sized : (ByteMemory.load32 (view c.space) 2#32).toNat = _ := header.2
    rw [shape.2.1, shape.2.2] at sized
    simp [sizeofBlock] at sized

end GargOS
