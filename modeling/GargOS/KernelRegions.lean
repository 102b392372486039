import GargOS.PagingRuns

/-!
The regions `kmalloc_all` returns, and the tables `alloc_page_pr` puts in them.
The bump pointer only grows, so regions never overlap; a table lies in its own
region if that starts at a page. Addresses are all this is about: a run may
remap the kernel's own half, where writes through it go elsewhere.
-/

namespace GargOS
open ByteMemory Pages Runs

inductive KernelCall
  | kmalloc (size : Word)
  | kmallocA (size : Word)
  | getNewKernelMappedDir
  | allocPage (directory vaddr isWriteable isKernel : Word)

def kernelCall (s : Paging) : KernelCall → Option Paging
  | .kmalloc size => some (kmalloc s size).2
  | .kmallocA size => some (kmallocA s size).2
  | .getNewKernelMappedDir => some (getNewKernelMappedDir s).2
  | .allocPage directory vaddr isWriteable isKernel => do
      let (_, s) ← allocPage s directory vaddr isWriteable isKernel
      some s

def StaysBelow (s : Paging) : Prop :=
  s.placeAddr.toNat < KERNEL_MEM_END.toNat ∧
    ∀ r ∈ s.history.regions, r.start.toNat + r.size.toNat < KERNEL_MEM_END.toNat

def KernelAllowed (s : Paging) : KernelCall → Prop
  | .allocPage directory _ _ _ => s.Listed directory
  | _ => True

/-- A table for a directory other than the kernel's is only made while
`place_addr` is page aligned. -/
def TableSafe (s : Paging) : KernelCall → Prop
  | .allocPage directory vaddr _ _ => directory = s.kernelDirectory ∨
      s.load (element directory (TABLE_INDEX_FROM_VIRTUAL_ADDRESS vaddr)) &&& 0x1#32 ≠ 0#32 ∨
      IsPage s.placeAddr
  | _ => True

def KernelStep (s after : Paging) : Prop :=
  ∃ call, KernelAllowed s call ∧ kernelCall s call = some after ∧ StaysBelow after

def SafeKernelStep (s after : Paging) : Prop :=
  ∃ call, TableSafe s call ∧ KernelAllowed s call ∧ kernelCall s call = some after ∧ StaysBelow after

/-- The table the first region was taken for lies outside the second region. -/
def Clear (a b : Region) : Prop :=
  ∀ table, a.table = some table → Apart table 4096 b.start b.size.toNat

def TablesClear (s : Paging) : Prop := s.history.regions.Pairwise fun a b => Clear a b ∧ Clear b a

/-- Installing a table changes no byte of the regions, the directory's entry
for it excepted. -/
def InstallsCleanly (s : Paging) : Prop :=
  ∀ directory tableIndex isWriteable isKernel,
    directory = s.kernelDirectory ∨ IsPage s.placeAddr →
    ∀ r ∈ s.history.regions, ∀ x, InSpan r.start r.size.toNat x →
      ¬ InSpan (element directory tableIndex) 4 x →
      (installTable s directory tableIndex isWriteable isKernel).mem x = s.mem x

/-- The regions lie one above the other below `place_addr`, and each table is
its whole region. -/
structure RegionInvariant (s : Paging) : Prop where
  ordered : s.history.regions.Pairwise fun later earlier =>
    earlier.start.toNat + earlier.size.toNat ≤ later.start.toNat
  below : ∀ r ∈ s.history.regions, r.start.toNat + r.size.toNat ≤ s.placeAddr.toNat
  tables : ∀ r ∈ s.history.regions, ∀ table, r.table = some table → table = r.start ∧ r.size = 4096#32

/-- What calls that take at most `k` regions of a page do to the regions. -/
structure Allots (k : Nat) (s s' : Paging) : Prop where
  holds : RegionInvariant s'
  grown : s.placeAddr.toNat ≤ s'.placeAddr.toNat ∧ s'.placeAddr.toNat ≤ s.placeAddr.toNat + 8192 * k

theorem allots_trans (k l : Nat) (s middle s' : Paging) (first : Allots k s middle)
    (second : Allots l middle s') : Allots (k + l) s s' := by
  have before := first.grown
  have after := second.grown
  exact ⟨second.holds, by omega, by omega⟩

theorem kmalloc_all_result (s : Paging) (size : Word) (align : Bool) (low : s.placeAddr.toNat ≤ 2 ^ 30) :
    ∃ start, kmallocAll s size align = (start, { s with
        placeAddr := start + size
        history := { s.history with regions := ⟨start, size, none⟩ :: s.history.regions } }) ∧
      s.placeAddr.toNat ≤ start.toNat ∧ start.toNat < s.placeAddr.toNat + 4096 ∧
      (align = true → IsPage start) ∧ (align = false → start = s.placeAddr) := by
  cases align with
  | true =>
      obtain ⟨start, taken, page, above, below⟩ := kmalloc_a_result s size low
      exact ⟨start, taken, above, below, fun _ => page, by simp⟩
  | false =>
      have plain : ¬ (false = true ∧ s.placeAddr % 0x1000#32 ≠ 0#32) := by simp
      exact ⟨s.placeAddr, by rw [kmallocAll, if_neg plain], Nat.le_refl _, by omega, by simp, fun _ => rfl⟩

/-- At most one page is taken, for a table that `add_frame_to_kernel_dir` or
`get_new_kernel_mapped_dir` makes. -/
def TakesPage (s s' : Paging) : Prop :=
  (s'.placeAddr = s.placeAddr ∧ s'.history.regions = s.history.regions) ∨
  ∃ start, s.placeAddr.toNat ≤ start.toNat ∧ start.toNat < s.placeAddr.toNat + 4096 ∧
    s'.placeAddr = start + 4096#32 ∧ s'.history.regions = ⟨start, 4096#32, none⟩ :: s.history.regions

theorem with_table_takes (s : Paging) (low : s.placeAddr.toNat ≤ 2 ^ 30) (d v : Word) :
    TakesPage s (withTable s d v) := by
  unfold withTable
  split
  · obtain ⟨start, taken, above, below, _⟩ := kmalloc_all_result s 4096#32 true low
    refine Or.inr ⟨start, above, below, ?_, ?_⟩ <;>
      simp only [newKernelTable, kmallocA, taken, Paging.store]
  · exact Or.inl ⟨rfl, rfl⟩

theorem add_frame_takes (s : Paging) (low : s.placeAddr.toNat ≤ 2 ^ 30) (frame : Word) :
    TakesPage s (addFrameToKernelDir s frame) := by
  have table := with_table_takes s low s.kernelDirectory frame
  unfold withTable at table
  unfold addFrameToKernelDir
  dsimp only
  generalize (if s.load (element s.kernelDirectory (TABLE_INDEX_FROM_VIRTUAL_ADDRESS frame)) &&& 0x1#32 =
    0#32 then newKernelTable s s.kernelDirectory (TABLE_INDEX_FROM_VIRTUAL_ADDRESS frame)
    else s) = middle at table ⊢
  split
  · exact table
  · exact table

theorem map_page_takes (s : Paging) (low : s.placeAddr.toNat ≤ 2 ^ 30)
    (d v physAddr isWriteable isKernel : Word) :
    TakesPage s (mapPage s d v physAddr isWriteable isKernel) := by
  unfold mapPage
  dsimp only
  generalize written : writeBitset (s.store (element (pageOf (s.load (element d
    (TABLE_INDEX_FROM_VIRTUAL_ADDRESS v)))) (PAGE_INDEX_FROM_VIRTUAL_ADDRESS v))
    (physAddr ||| pageFlags isWriteable isKernel)) physAddr = middle
  have same : middle.placeAddr = s.placeAddr ∧ middle.history.regions = s.history.regions := by
    rw [← written]
    exact ⟨rfl, rfl⟩
  split
  · have takes := add_frame_takes middle (same.1 ▸ low) physAddr
    unfold TakesPage at takes
    rw [same.1, same.2] at takes
    exact takes
  · exact Or.inl same

section Regions
variable (s : Paging) (holds : RegionInvariant s)
include holds

theorem region_taken (s' : Paging) (start size : Word) (table : Option Word)
    (above : s.placeAddr.toNat ≤ start.toNat) (fits : start.toNat + size.toNat < 2 ^ 32)
    (place : s'.placeAddr = start + size)
    (regions : s'.history.regions = ⟨start, size, table⟩ :: s.history.regions)
    (own : ∀ t, table = some t → t = start ∧ size = 4096#32) : RegionInvariant s' := by
  have top : s'.placeAddr.toNat = start.toNat + size.toNat := by
    rw [place]
    bv_omega
  constructor
  · rw [regions, List.pairwise_cons]
    refine ⟨fun r member => ?_, holds.ordered⟩
    exact Nat.le_trans (holds.below r member) above
  · rw [regions]
    intro r member
    rcases List.mem_cons.mp member with rfl | earlier
    · exact Nat.le_of_eq top.symm
    · have before := holds.below r earlier
      omega
  · rw [regions]
    intro r member
    rcases List.mem_cons.mp member with rfl | earlier
    · exact own
    · exact holds.tables r earlier

theorem regions_same (s' : Paging) (place : s'.placeAddr = s.placeAddr)
    (regions : s'.history.regions = s.history.regions) : RegionInvariant s' := by
  refine ⟨regions ▸ holds.ordered, ?_, regions ▸ holds.tables⟩
  rw [regions, place]
  exact holds.below

theorem kmalloc_all_kept (size : Word) (align : Bool) (low : s.placeAddr.toNat ≤ 2 ^ 30)
    (fits : (kmallocAll s size align).1.toNat + size.toNat < 2 ^ 32) :
    RegionInvariant (kmallocAll s size align).2 := by
  obtain ⟨start, taken, above, _⟩ := kmalloc_all_result s size align low
  rw [taken] at fits ⊢
  exact region_taken s holds _ start size none above fits rfl rfl (by simp)

theorem takes_page_allots (s' : Paging) (low : s.placeAddr.toNat ≤ 2 ^ 30) (takes : TakesPage s s') :
    Allots 1 s s' := by
  rcases takes with ⟨place, regions⟩ | ⟨start, above, below, place, regions⟩
  · exact ⟨regions_same s holds s' place regions, by rw [place]; omega⟩
  · have top : (start + 4096#32).toNat = start.toNat + 4096 := by bv_omega
    have taken := region_taken s holds s' start 4096#32 none above (by bv_omega) place regions (by simp)
    exact ⟨taken, by rw [place]; omega, by rw [place]; omega⟩

theorem install_table_result (d index isWriteable isKernel : Word) (low : s.placeAddr.toNat ≤ 2 ^ 30)
    (safe : d = s.kernelDirectory ∨ IsPage s.placeAddr) :
    Allots 1 s (installTable s d index isWriteable isKernel) ∧
      ∃ start, s.placeAddr.toNat ≤ start.toNat ∧ start.toNat + 4096 < 2 ^ 32 ∧
        (installTable s d index isWriteable isKernel).mem =
          memset (store32 s.mem (element d index) (start ||| tableFlags isWriteable isKernel)) start
            0#8 4096 := by
  obtain ⟨start, taken, above, below, aligned, plain⟩ := kmalloc_all_result s 4096#32
    (decide (d = s.kernelDirectory)) low
  have page : IsPage start := by
    rcases safe with kernel | here
    · exact aligned (decide_eq_true kernel)
    · by_cases kernel : d = s.kernelDirectory
      · exact aligned (decide_eq_true kernel)
      · rw [plain (decide_eq_false kernel)]
        exact here
  have table : pageOf (start ||| tableFlags isWriteable isKernel) = start :=
    page_of_flagged _ _ page (table_flags_small isWriteable isKernel).1
  have top : (start + 4096#32).toNat = start.toNat + 4096 := by bv_omega
  have chosen : (if d = s.kernelDirectory then kmallocA s 4096#32 else kmalloc s 4096#32) =
      kmallocAll s 4096#32 (decide (d = s.kernelDirectory)) := by
    by_cases kernel : d = s.kernelDirectory
    · rw [if_pos kernel, decide_eq_true kernel]
      rfl
    · rw [if_neg kernel, decide_eq_false kernel]
      rfl
  have here : installTable s d index isWriteable isKernel = { s with
      placeAddr := start + 4096#32
      mem := memset (store32 s.mem (element d index) (start ||| tableFlags isWriteable isKernel)) start
        0#8 4096
      history := { s.history with regions := ⟨start, 4096#32, some start⟩ :: s.history.regions } } := by
    simp only [installTable, chosen, taken, Paging.store, Paging.load, load32_store32, table,
      History.install]
  rw [here]
  refine ⟨⟨region_taken s holds _ start 4096#32 (some start) above (by bv_omega) rfl rfl ?_, ?_, ?_⟩,
    start, above, by omega, rfl⟩
  · intro t same
    exact ⟨(Option.some.inj same).symm, rfl⟩
  · show s.placeAddr.toNat ≤ (start + 4096#32).toNat
    omega
  · show (start + 4096#32).toNat ≤ _
    omega

theorem alloc_page_allots (d v isWriteable isKernel frame : Word) (s' : Paging)
    (low : s.placeAddr.toNat ≤ 2 ^ 29)
    (safe : TableSafe s (KernelCall.allocPage d v isWriteable isKernel))
    (returned : allocPage s d v isWriteable isKernel = some (frame, s')) : Allots 2 s s' := by
  obtain ⟨physAddr, _, mapped⟩ := Option.bind_eq_some_iff.mp returned
  rw [allocPagePr] at mapped
  split at mapped
  · simp only [Option.some.injEq, Prod.mk.injEq] at mapped
    obtain ⟨_, rfl⟩ := mapped
    exact ⟨holds, by omega⟩
  · dsimp only at mapped
    split at mapped
    next missing =>
      have page : d = s.kernelDirectory ∨ IsPage s.placeAddr := by
        rcases safe with kernel | present | aligned
        · exact Or.inl kernel
        · exact absurd missing present
        · exact Or.inr aligned
      have installs := (install_table_result s holds d (TABLE_INDEX_FROM_VIRTUAL_ADDRESS v) isWriteable
        isKernel (by omega) page).1
      have grown := installs.grown
      obtain ⟨again, _, last⟩ := Option.bind_eq_some_iff.mp mapped
      split at last
      · simp only [Option.some.injEq, Prod.mk.injEq] at last
        obtain ⟨_, rfl⟩ := last
        exact ⟨installs.holds, by omega⟩
      · simp only [Option.some.injEq, Prod.mk.injEq] at last
        obtain ⟨_, rfl⟩ := last
        exact allots_trans 1 1 _ _ _ installs (takes_page_allots _ installs.holds _ (by omega)
          (map_page_takes _ (by omega) d v again isWriteable isKernel))
    next =>
      simp only [Option.some.injEq, Prod.mk.injEq] at mapped
      obtain ⟨_, rfl⟩ := mapped
      have allots := takes_page_allots s holds _ (by omega)
        (map_page_takes s (by omega) d v physAddr isWriteable isKernel)
      have grown := allots.grown
      exact ⟨allots.holds, by omega⟩

theorem kernel_rounds_allots (d : Word) (n : Nat) (low : s.placeAddr.toNat + 8192 * n ≤ 2 ^ 29) :
    Allots n s (kernelRounds s d n) := by
  induction n with
  | zero => exact ⟨holds, Nat.le_refl _, by rw [kernelRounds]; omega⟩
  | succ n ih =>
      have before := ih (by omega)
      have grown := before.grown
      rw [kernel_rounds_succ]
      generalize kernelRounds s d n = middle at before grown ⊢
      refine allots_trans n 1 s middle _ before (takes_page_allots middle before.holds _ (by omega) ?_)
      exact with_table_takes middle (by omega) d (BitVec.ofNat 32 (4096 * n))

theorem new_directory_allots (low : s.placeAddr.toNat ≤ 2 ^ 28) :
    Allots 4081 s (getNewKernelMappedDir s).2 := by
  obtain ⟨start, taken, above, below, _⟩ := kmalloc_all_result s 4096#32 true (by omega)
  have top : (start + 4096#32).toNat = start.toNat + 4096 := by bv_omega
  have pages : kernelPages = 4080 := rfl
  rw [getNewKernelMappedDir, kmallocA, taken]
  dsimp only
  generalize shape : ({ s with
    mem := memset s.mem start 0#8 4096
    placeAddr := start + 4096#32
    history := ⟨⟨start, 4096#32, none⟩ :: s.history.regions, start :: s.history.directories,
      s.history.mappings⟩ } : Paging) = base
  have place : base.placeAddr = start + 4096#32 := by rw [← shape]
  have first : RegionInvariant base := by
    refine region_taken s holds base start 4096#32 none above (by bv_omega) place ?_ (by simp)
    rw [← shape]
  have rounds := kernel_rounds_allots base first start kernelPages (by rw [place]; omega)
  have grown := rounds.grown
  rw [place] at grown
  exact ⟨rounds.holds, by omega, by omega⟩

theorem identity_rounds_allots (n : Nat) (s' : Paging) (low : s.placeAddr.toNat + 16384 * n ≤ 2 ^ 29)
    (returned : identityRounds s n = some s') : Allots (2 * n) s s' := by
  induction n generalizing s' with
  | zero =>
      obtain rfl := Option.some.inj returned
      exact ⟨holds, by omega⟩
  | succ n ih =>
      obtain ⟨middle, earlier, last⟩ := Option.bind_eq_some_iff.mp returned
      obtain ⟨⟨frame, after⟩, allocated, same⟩ := Option.bind_eq_some_iff.mp last
      obtain rfl := Option.some.inj same
      have before := ih middle (by omega) earlier
      have grown := before.grown
      exact allots_trans (2 * n) 2 s middle after before
        (alloc_page_allots middle before.holds _ _ _ _ frame after (by omega) (Or.inl rfl) allocated)

end Regions

theorem init_paging_regions (start s : Paging) (low : start.placeAddr.toNat ≤ KERNEL_MEM_END.toNat)
    (empty : start.history = ⟨[], [], []⟩) (returned : initPaging start = some s) : RegionInvariant s := by
  have limit := kernel_mem_end
  have pages : kernelPages = 4080 := rfl
  have begin : RegionInvariant start := by
    refine ⟨?_, ?_, ?_⟩ <;> simp [empty]
  obtain ⟨kd, first, above1, below1, _⟩ := kmalloc_all_result start 4096#32 true (by omega)
  have top1 : (kd + 4096#32).toNat = kd.toNat + 4096 := by bv_omega
  have size : 4#32 * INDEX_FROM_BIT nframes = 131072#32 := by decide
  unfold initPaging at returned
  rw [kmallocA, first, size] at returned
  dsimp only at returned
  generalize shape1 : ({ start with
    kernelDirectory := kd
    mem := memset start.mem kd 0#8 4096
    placeAddr := kd + 4096#32
    history := { start.history with regions := ⟨kd, 4096#32, none⟩ :: start.history.regions } } : Paging) =
    s1 at returned
  have place1 : s1.placeAddr = kd + 4096#32 := by rw [← shape1]
  have kept1 : RegionInvariant s1 := by
    refine region_taken start begin s1 kd 4096#32 none above1 (by bv_omega) place1 ?_ (by simp)
    rw [← shape1]
  obtain ⟨frames, second, above2, below2, _⟩ := kmalloc_all_result s1 131072#32 true
    (by rw [place1]; omega)
  have top2 : (frames + 131072#32).toNat = frames.toNat + 131072 := by bv_omega
  rw [kmallocA, second] at returned
  obtain ⟨last, rounds, same⟩ := Option.bind_eq_some_iff.mp returned
  generalize shape2 : Paging.mk _ _ _ _ _ _ = s2 at rounds
  have place2 : s2.placeAddr = frames + 131072#32 := by rw [← shape2]
  have kept2 : RegionInvariant s2 := by
    refine region_taken s1 kept1 s2 frames 131072#32 none above2 (by bv_omega) place2 ?_ (by simp)
    rw [← shape2]
  have final := (identity_rounds_allots s2 kept2 kernelPages last (by rw [place2]; bv_omega) rounds).holds
  obtain rfl := Option.some.inj same
  exact regions_same last final _ rfl rfl

theorem safe_kernel_step_kept (s after : Paging)
    (holds : RegionInvariant s ∧ s.placeAddr.toNat ≤ KERNEL_MEM_END.toNat)
    (step : SafeKernelStep s after) :
    RegionInvariant after ∧ after.placeAddr.toNat ≤ KERNEL_MEM_END.toNat := by
  have limit := kernel_mem_end
  have pages : kernelPages = 4080 := rfl
  obtain ⟨call, safe, _, returned, low, below⟩ := step
  refine ⟨?_, Nat.le_of_lt low⟩
  -- a region that stays below the end has not wrapped
  have fits : ∀ size align, after = (kmallocAll s size align).2 →
      (kmallocAll s size align).1.toNat + size.toNat < 2 ^ 32 := by
    intro size align same
    obtain ⟨start, taken, _⟩ := kmalloc_all_result s size align (by omega)
    rw [taken] at same ⊢
    have region := below ⟨start, size, none⟩ (by rw [same]; exact List.mem_cons_self)
    dsimp only at region ⊢
    omega
  cases call with
  | kmalloc size =>
      obtain rfl := Option.some.inj returned
      exact kmalloc_all_kept s holds.1 size false (by omega) (fits size false rfl)
  | kmallocA size =>
      obtain rfl := Option.some.inj returned
      exact kmalloc_all_kept s holds.1 size true (by omega) (fits size true rfl)
  | getNewKernelMappedDir =>
      obtain rfl := Option.some.inj returned
      exact (new_directory_allots s holds.1 (by omega)).holds
  | allocPage directory vaddr isWriteable isKernel =>
      obtain ⟨⟨frame, space⟩, allocated, same⟩ := Option.bind_eq_some_iff.mp returned
      obtain rfl := Option.some.inj same
      exact (alloc_page_allots s holds.1 directory vaddr isWriteable isKernel frame space (by omega)
        safe allocated).holds

theorem region_invariant_clear (s : Paging) (holds : RegionInvariant s) : TablesClear s := by
  refine List.Pairwise.imp_of_mem ?_ holds.ordered
  intro later earlier first second above
  have topLater := holds.below later first
  have topEarlier := holds.below earlier second
  constructor
  · intro table taken
    obtain ⟨rfl, size⟩ := holds.tables later first table taken
    rw [size] at topLater
    have whole : (4096#32 : Word).toNat = 4096 := rfl
    exact (apart_of_le _ _ _ _ above (by omega)).2
  · intro table taken
    obtain ⟨rfl, size⟩ := holds.tables earlier second table taken
    rw [size] at above
    exact (apart_of_le _ _ _ _ above (by omega)).1

theorem region_invariant_installs (s : Paging) (holds : RegionInvariant s)
    (low : s.placeAddr.toNat ≤ KERNEL_MEM_END.toNat) : InstallsCleanly s := by
  have limit := kernel_mem_end
  have pages : kernelPages = 4080 := rfl
  intro directory tableIndex isWriteable isKernel safe r member x inside notEntry
  obtain ⟨_, start, above, fits, memory⟩ := install_table_result s holds directory tableIndex isWriteable
    isKernel (by omega) safe
  have below := holds.below r member
  have outside : ¬ InSpan start 4096 x := by
    rw [in_span_iff _ _ _ (by omega)] at inside ⊢
    omega
  rw [memory, memset_apply _ _ _ _ _ (by decide), if_neg outside, store32_outside _ _ _ _ notEntry]

theorem stays_below (s : Paging) (holds : RegionInvariant s)
    (low : s.placeAddr.toNat < KERNEL_MEM_END.toNat) : StaysBelow s :=
  ⟨low, fun r member => Nat.lt_of_le_of_lt (holds.below r member) low⟩

theorem one_process_regions (s : Paging) (d : Word) (process : OneProcess s d) :
    Reached PagingBooted SafeKernelStep s ∧ RegionInvariant s := by
  have limit := kernel_mem_end
  have pages : kernelPages = 4080 := rfl
  have low := process.place
  obtain ⟨boot, booted, rfl⟩ := process.booted
  obtain ⟨start, empty, begin, done, high⟩ := booted
  have holds := init_paging_regions start boot begin empty done
  have after := (new_directory_allots boot holds (by omega)).holds
  refine ⟨Reached.next (Reached.start ⟨start, empty, begin, done, high⟩)
    ⟨KernelCall.getNewKernelMappedDir, trivial, trivial, rfl, stays_below _ after (by omega)⟩, after⟩

/-- With `place_addr` one byte behind a page the table is laid over that byte. -/
theorem unaligned_table (s : Paging) (d index isWriteable isKernel p : Word) (page : IsPage p)
    (process : d ≠ s.kernelDirectory) (place : s.placeAddr = p + 1#32) :
    installTable s d index isWriteable isKernel = { s with
      placeAddr := p + 1#32 + 4096#32
      mem := memset (store32 s.mem (element d index) ((p + 1#32) ||| tableFlags isWriteable isKernel)) p
        0#8 4096
      history := { s.history with regions := ⟨p + 1#32, 4096#32, some p⟩ :: s.history.regions } } := by
  have small : (1#32 ||| tableFlags isWriteable isKernel).toNat < 4096 := by
    unfold tableFlags
    split <;> split <;> decide
  have one : p + 1#32 = p ||| 1#32 := by
    apply BitVec.eq_of_toNat_eq
    rw [flagged_toNat p 1#32 page (by decide)]
    unfold IsPage at page
    bv_omega
  have table : pageOf ((p + 1#32) ||| tableFlags isWriteable isKernel) = p := by
    rw [one, BitVec.or_assoc]
    exact page_of_flagged p _ page small
  simp only [installTable, if_neg process, kmalloc, kmallocAll, Bool.false_eq_true, false_and, if_false,
    place, Paging.store, Paging.load, load32_store32, table, History.install]

theorem unaligned_table_bits (s after : Paging) (layout : Layout s) (d : Word) (listed : s.Listed d)
    (t : Nat) (inDirectory : t < 1024) (e : Word) (frames : after.frames = s.frames)
    (memory : after.mem = memset (store32 s.mem (cell d t) e) s.placeAddr 0#8 4096) (n : Nat)
    (bound : n < 2 ^ 20) : after.bit n = s.bit n := by
  have bitset := Paging.Home.bitset (s := s) (n / 32768) (by omega)
  have directory := Paging.Home.directory d listed
  have housed := layout.housed _ _ bitset
  have fresh : s.bitsetPage (n / 32768) ≠ s.placeAddr := by
    intro here
    have below := housed.2
    rw [here] at below
    omega
  have away : s.bitsetPage (n / 32768) ≠ d := by
    intro here
    have roles := layout.apart _ _ _ directory (here ▸ bitset)
    simp at roles
  have stored := page_kept_store s.mem _ d t housed.1 (layout.housed _ _ directory).1 inDirectory e away
  refine bit_kept s after n frames housed.1 (page_kept_trans _ _ _ _ stored
    (page_kept_outside _ _ _ _ housed.1 layout.aligned fresh fun x outside => ?_))
  rw [memory, memset_apply _ _ _ _ _ (by decide), if_neg outside]

theorem alloc_page_unaligned (s : Paging) (layout : Layout s)
    (low : s.placeAddr.toNat ≤ 2 ^ 29) (d v isWriteable isKernel : Word) (listed : s.Listed d)
    (process : d ≠ s.kernelDirectory) (absent : ¬ Present (s.entry d (v.toNat / 4096 / 1024))) (n : Nat)
    (first : FirstFree s n) :
    ∃ s3 after, allocPage (kmalloc s 1#32).2 d v isWriteable isKernel =
        some (BitVec.ofNat 32 (4096 * n), after) ∧
      s3.placeAddr.toNat = s.placeAddr.toNat + 4097 ∧
      s3.history.regions = ⟨s.placeAddr + 1#32, 4096#32, some s.placeAddr⟩ ::
        ⟨s.placeAddr, 1#32, none⟩ :: s.history.regions ∧
      TakesPage s3 after := by
  have index := table_index_toNat v
  have installed := unaligned_table (kmalloc s 1#32).2 d (TABLE_INDEX_FROM_VIRTUAL_ADDRESS v)
    isWriteable isKernel s.placeAddr layout.aligned process rfl
  rw [element_cell, index] at installed
  have bits := unaligned_table_bits s (installTable (kmalloc s 1#32).2 d
    (TABLE_INDEX_FROM_VIRTUAL_ADDRESS v) isWriteable isKernel) layout d listed (v.toNat / 4096 / 1024)
    (by omega) _ (by rw [installed]; rfl) (by rw [installed]; rfl)
  have returned := alloc_page_pr_made (kmalloc s 1#32).2 d v isWriteable isKernel n first.1 first.2.1
    absent n (first_free_same s _ bits n first)
  rw [← alloc_page_first (kmalloc s 1#32).2 d v isWriteable isKernel n first] at returned
  refine ⟨_, _, returned, ?_, by rw [installed]; rfl, map_page_takes _ ?_ d v _ isWriteable isKernel⟩
  · rw [installed]
    dsimp only
    bv_omega
  · rw [installed]
    dsimp only
    bv_omega

end GargOS
