import GargOS.KernelFrames

/-!
Where the directories and tables lie: below `KERNEL_MEM_END` for as long as each
call finds the pages it takes there. `place_addr` itself has no bound. The
addresses of the structures come from it alone, whatever the half is mapped to.
-/

namespace GargOS
open ByteMemory Pages Runs

structure StaysLow (s : Paging) : Prop where
  directories : ∀ d, s.Listed d → d.toNat + 4096 ≤ KERNEL_MEM_END.toNat
  tables : ∀ d, s.Listed d → ∀ t < 1024, Present (s.entry d t) →
    (pageOf (s.entry d t)).toNat + 4096 ≤ KERNEL_MEM_END.toNat

/-- The pages a call takes: a directory with its four tables, or the tables that
are missing in the directory and, for the frame, in the kernel's. -/
def pagesTaken (s : Paging) : PagingCall → Nat
  | .getNewKernelMappedDir => 5
  | .allocPage directory vaddr _ _ =>
      match firstFreeFrame s with
      | none => 0
      | some frame =>
          (if Present (s.entry directory (vaddr.toNat / 4096 / 1024)) then 0 else 1) +
          (if directory = s.kernelDirectory ∨
            Present (s.entry s.kernelDirectory (frame.toNat / 4096 / 1024)) then 0 else 1)

def Fits (s : Paging) (call : PagingCall) : Prop :=
  s.placeAddr.toNat + 4096 * pagesTaken s call ≤ KERNEL_MEM_END.toNat

def FitsStep (s after : Paging) : Prop :=
  ∃ call, PagingListed s call ∧ Fits s call ∧ pagingCall s call = some after

def TableLast (s : Paging) : Prop :=
  ∃ d t, s.Listed d ∧ t < 1024 ∧ Present (s.entry d t) ∧
    (pageOf (s.entry d t)).toNat + 4096 = s.placeAddr.toNat

theorem table_last (s : Paging) (d p flags : Word) (t : Nat) (page : IsPage p) (small : flags.toNat < 4096)
    (present : Present flags) (listed : s.Listed d) (bound : t < 1024) (entry : s.entry d t = p ||| flags)
    (last : p.toNat + 4096 = s.placeAddr.toNat) : TableLast s := by
  refine ⟨d, t, listed, bound, ?_, ?_⟩
  · rw [entry, present_flagged _ _ page]
    exact present
  · rw [entry, page_of_flagged _ _ page small]
    exact last

theorem alloc_page_last (s : Paging) (layout : Layout s) (room : s.placeAddr.toNat + 8192 ≤ 2 ^ 31)
    (d v isWriteable isKernel frame : Word) (after : Paging) (listed : s.Listed d)
    (returned : allocPage s d v isWriteable isKernel = some (frame, after)) :
    after.placeAddr.toNat =
      s.placeAddr.toNat + 4096 * pagesTaken s (PagingCall.allocPage d v isWriteable isKernel) ∧
    (after.placeAddr = s.placeAddr ∨ TableLast after) := by
  obtain ⟨n, first, rfl, maps, table⟩ := alloc_page_result s layout room d v isWriteable isKernel listed
    frame after returned
  have found := first_free_found s n first
  have number := frame_toNat n first.1
  have place := maps.place
  have index : (BitVec.ofNat 32 (4096 * n)).toNat / 4096 / 1024 = n / 1024 := by omega
  have taken : after.placeAddr.toNat =
      s.placeAddr.toNat + 4096 * pagesTaken s (PagingCall.allocPage d v isWriteable isKernel) := by
    simp only [pagesTaken, found, index]
    rw [place]
    split <;> split <;> omega
  refine ⟨taken, ?_⟩
  have roots := maps.keeps.roots
  -- the last table is that of the directory, unless the kernel takes one for the frame
  by_cases shown : d = s.kernelDirectory ∨ Present (s.entry s.kernelDirectory (n / 1024))
  · rw [if_pos shown] at place
    by_cases old : Present (s.entry d (v.toNat / 4096 / 1024))
    · left
      rw [if_pos old] at place
      exact BitVec.eq_of_toNat_eq place
    · right
      rw [if_neg old] at place
      have flags := table_flags_small isWriteable isKernel
      exact table_last after d s.placeAddr _ _ layout.aligned flags.1 flags.2.2
        ((listed_same s after roots d).mpr listed) (by omega) (table old) place.symm
  · right
    rw [if_neg shown] at place
    obtain ⟨process, absent⟩ := not_or.mp shown
    obtain ⟨middle, returned', enters, _⟩ := alloc_page_enters s layout room d v isWriteable isKernel listed
      n first
    rw [returned] at returned'
    obtain rfl := (Prod.mk.inj (Option.some.inj returned')).2
    have kernelDirectory := enters.keeps.roots.kernelDirectory
    have process' : d ≠ middle.kernelDirectory := fun here => process (here.trans kernelDirectory)
    -- the kernel's table comes behind the one of the process, if that is new too
    have size := enters.place
    have absent' : ¬ Present (middle.entry middle.kernelDirectory
        ((BitVec.ofNat 32 (4096 * n)).toNat / 4096 / 1024)) := by
      rw [index, kernelDirectory, enters_kernel s middle d v _ n process enters _ (by omega)]
      exact absent
    have entry := add_frame_table middle enters.keeps.layout (by split at size <;> omega) _ absent'
    rw [index, kernelDirectory] at entry
    refine table_last _ s.kernelDirectory middle.placeAddr 0x3#32 (n / 1024) enters.keeps.layout.aligned
      (by decide) (by decide) ((listed_same s _ roots _).mpr (Or.inl rfl)) (by omega) ?_ ?_
    · unfold showFrame
      rw [if_pos process']
      exact entry
    · rw [place, size]

theorem paging_call_last (s after : Paging) (layout : Layout s)
    (room : s.placeAddr.toNat + 131072 ≤ 2 ^ 31) (call : PagingCall) (listed : PagingListed s call)
    (returned : pagingCall s call = some after) :
    after.placeAddr.toNat = s.placeAddr.toNat + 4096 * pagesTaken s call ∧
      (after.placeAddr = s.placeAddr ∨ TableLast after) := by
  cases call with
  | getNewKernelMappedDir =>
      obtain rfl := Option.some.inj returned
      have new := (new_directory_result s layout room).2
      obtain ⟨t, bound, present, last⟩ := new.top
      refine ⟨new.place, Or.inr ⟨s.placeAddr, t, Or.inr ?_, bound, present, last⟩⟩
      rw [new.directories]
      exact List.mem_cons_self
  | allocPage directory vaddr isWriteable isKernel =>
      obtain ⟨frame, allocated⟩ := alloc_page_call s after directory vaddr isWriteable isKernel returned
      exact alloc_page_last s layout (by omega) directory vaddr isWriteable isKernel frame after listed
        allocated

theorem fits_step_invariant (s after : Paging) (holds : PagedInvariant s) (step : FitsStep s after) :
    PagedInvariant after := by
  have room := paged_invariant_room s holds
  obtain ⟨call, listed, fits, returned⟩ := step
  have place := (paging_call_last s after holds.layout room call listed returned).1
  refine ⟨any_step_records s after holds.toPagedRecords ⟨call, listed, returned, room⟩, ?_⟩
  rw [place]
  exact fits

theorem paged_invariant_low (s : Paging) (holds : PagedInvariant s) : StaysLow s := by
  have low := holds.low
  constructor
  · intro d listed
    have below := (holds.layout.housed _ _ (Paging.Home.directory d listed)).2
    omega
  · intro d listed t bound present
    have below := (holds.layout.housed _ _ (Paging.Home.table d t listed bound present)).2
    omega

theorem call_low (s after : Paging) (holds : PagedInvariant s) (call : PagingCall)
    (listed : PagingListed s call) (returned : pagingCall s call = some after) :
    StaysLow after ↔ Fits s call := by
  have room := paged_invariant_room s holds
  have low := holds.low
  obtain ⟨place, last⟩ := paging_call_last s after holds.layout room call listed returned
  constructor
  · intro stays
    unfold Fits
    rcases last with same | ⟨d, t, inAfter, bound, present, top⟩
    · rw [← place, same]
      exact low
    · have below := stays.tables d inAfter t bound present
      omega
  · intro fits
    exact paged_invariant_low after (fits_step_invariant s after holds ⟨call, listed, fits, returned⟩)

structure WideKernel (s : Paging) : Prop where
  reached : Reached PagingBooted AnyPagingStep s
  active : s.currentDir = s.kernelDirectory
  low : s.placeAddr.toNat ≤ KERNEL_MEM_END.toNat
  tables : ∀ page < 4096, Present (s.entry s.kernelDirectory (page / 1024))
  ptes : ∀ page < 4096, s.pte s.kernelDirectory page = BitVec.ofNat 32 (4096 * page) ||| 0x3#32

theorem identity_wider (base s : Paging) (room : base.placeAddr.toNat + 16384 ≤ KERNEL_MEM_END.toNat)
    (booted : PagingBooted s) (active : s.currentDir = s.kernelDirectory) (identity : Identity base s kernelPages)
    (n : Nat) (above : kernelPages ≤ n) (bound : n ≤ 4096) :
    ∃ s', Reached PagingBooted AnyPagingStep s' ∧ s'.currentDir = s'.kernelDirectory ∧ Identity base s' n := by
  have limit := kernel_mem_end
  have pages : kernelPages = 4080 := rfl
  induction n, above using Nat.le_induction with
  | base => exact ⟨s, Reached.start booted, active, identity⟩
  | succ n above ih =>
      obtain ⟨s1, reached, active1, identity1⟩ := ih (by omega)
      obtain ⟨s2, allocated, identity2⟩ := identity_round base s1 (by omega) n (by omega) identity1
      have tables := tables_few n (by omega)
      have place := identity1.place
      obtain ⟨_, _, _, maps, _⟩ := alloc_page_result s1 identity1.layout (by omega) _ _ _ _ (Or.inl rfl) _ s2
        allocated
      refine ⟨s2, Reached.next reached ⟨PagingCall.allocPage s1.kernelDirectory
        (BitVec.ofNat 32 (4096 * n)) 1#32 1#32, Or.inl rfl, ?_, by omega⟩, ?_, identity2⟩
      · simp only [pagingCall, allocated, Option.bind_eq_bind, Option.bind_some]
      · rw [maps.keeps.currentDir, active1, maps.keeps.roots.kernelDirectory]

theorem wide_kernel_boot : ∃ s, WideKernel s := by
  have limit := kernel_mem_end
  have pages : kernelPages = 4080 := rfl
  have first : bootPaging.placeAddr.toNat = 0xF0000 := rfl
  obtain ⟨base, s, done, identity, _, active, place⟩ := init_paging_result bootPaging (by omega) rfl
  have size := identity.place
  have four : tablesFor kernelPages = 4 := rfl
  rw [four] at size
  have booted : PagingBooted s := ⟨bootPaging, rfl, by omega, done, by omega⟩
  obtain ⟨s', reached, active', wider⟩ := identity_wider base s (by omega) booted active identity 4096
    (by omega) (Nat.le_refl _)
  have still : tablesFor 4096 = 4 := rfl
  have size' := wider.place
  rw [still] at size'
  refine ⟨s', reached, active', by omega, fun page less => ?_, wider.ptes⟩
  rw [wider.entries _ (by omega), still]
  omega

theorem wide_kernel_next (s : Paging) (wide : WideKernel s)
    (fits : s.placeAddr.toNat + 20480 ≤ KERNEL_MEM_END.toNat) : WideKernel (getNewKernelMappedDir s).2 := by
  have limit := kernel_mem_end
  have pages : kernelPages = 4080 := rfl
  have low := wide.low
  have records := any_run_records s wide.reached
  have new := (new_directory_result s records.layout (by omega)).2
  have entries := fun t bound => new.entries s.kernelDirectory (Or.inl rfl) t bound
  refine ⟨Reached.next wide.reached ⟨PagingCall.getNewKernelMappedDir, trivial, rfl, by omega⟩, ?_, ?_,
    fun page less => ?_, fun page less => ?_⟩
  · rw [new.currentDir, wide.active, new.kernelDirectory]
  · rw [new.place]
    exact fits
  · rw [new.kernelDirectory, entries _ (by omega)]
    exact wide.tables page less
  · have pte := wide.ptes page less
    rw [new.kernelDirectory, ← pte]
    refine new.ptes _ (Or.inl rfl) page (by omega) (wide.tables page less) ?_
    rw [pte]
    exact (shows_frame_new page (by omega)).1

/-- Directories are made until the next one does not fit. -/
theorem wide_kernel_full (s : Paging) (wide : WideKernel s) :
    ∃ s', WideKernel s' ∧ KERNEL_MEM_END.toNat < s'.placeAddr.toNat + 20480 := by
  induction left : KERNEL_MEM_END.toNat - s.placeAddr.toNat using Nat.strong_induction_on generalizing s with
  | _ left' ih =>
      by_cases fits : s.placeAddr.toNat + 20480 ≤ KERNEL_MEM_END.toNat
      · have limit := kernel_mem_end
        have pages : kernelPages = 4080 := rfl
        have new := (new_directory_result s (any_run_records s wide.reached).layout (by omega)).2
        have place := new.place
        exact ih _ (by omega) _ (wide_kernel_next s wide fits) rfl
      · exact ⟨s, wide, by omega⟩

end GargOS
