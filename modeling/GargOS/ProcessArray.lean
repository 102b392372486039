import GargOS.ProcessRecords
import GargOS.VectorTables

/-!
The array of processes in a running kernel. `init_scheduler` leaves `place_addr`
between two pages, where `alloc_page_pr` would put a process's table askew; but
no process has a directory yet, and the first one that is made aligns it again.
So nothing writes the array but process_list.c and scheduler.c.
-/

namespace GargOS
open ByteMemory Pages Ledger Runs Records
open AddressSpace (load8 store8 view)

/-- The state in which the next `kmalloc_a` will have aligned `place_addr`. -/
def Paging.settled (s : Paging) : Paging := { s with placeAddr := (kmallocA s 0#32).1 }

section Settled
variable (s : Paging) (low : s.placeAddr.toNat ≤ KERNEL_MEM_END.toNat)
include low

theorem settled_place : IsPage s.settled.placeAddr ∧ s.placeAddr.toNat ≤ s.settled.placeAddr.toNat ∧
    s.settled.placeAddr.toNat < s.placeAddr.toNat + 4096 := by
  have limit : KERNEL_MEM_END.toNat = 16711680 := rfl
  obtain ⟨start, taken, page, above, below⟩ := kmalloc_a_result s 0#32 (by omega)
  have place : s.settled.placeAddr = start := congrArg Prod.fst taken
  rw [place]
  exact ⟨page, above, below⟩

omit low in
theorem settled_aligned (aligned : IsPage s.placeAddr) : s.settled = s := by
  have place := congrArg Prod.fst (kmalloc_a_aligned s aligned 0#32)
  unfold Paging.settled
  rw [place]

theorem kmalloc_settled (size : Word) : kmallocA s.settled size = kmallocA s size := by
  have page := (settled_place s low).1
  have here := kmalloc_a_aligned s.settled page size
  rw [here]
  rfl

theorem new_directory_settled : getNewKernelMappedDir s.settled = getNewKernelMappedDir s := by
  unfold getNewKernelMappedDir
  rw [kmalloc_settled s low]

omit low in
theorem first_free_from_place (place : Word) (rounds i : Nat) :
    firstFreeFrom { s with placeAddr := place } rounds i = firstFreeFrom s rounds i := by
  induction rounds generalizing i with
  | zero => rfl
  | succ rounds ih =>
      rw [firstFreeFrom, firstFreeFrom, ih]
      rfl

omit low in
theorem map_page_place (place v physAddr isWriteable isKernel : Word) :
    mapPage { s with placeAddr := place } s.kernelDirectory v physAddr isWriteable isKernel =
      { mapPage s s.kernelDirectory v physAddr isWriteable isKernel with placeAddr := place } := by
  have bitset : ∀ (s : Paging) (frame : Word), (writeBitset s frame).kernelDirectory = s.kernelDirectory :=
    fun _ _ => rfl
  have stored : ∀ (s : Paging) (a w : Word), (s.store a w).kernelDirectory = s.kernelDirectory := fun _ _ _ => rfl
  simp only [mapPage, bitset, stored, ne_eq, not_true_eq_false, if_false]
  rfl

theorem install_table_settled (tableIndex isWriteable isKernel : Word) :
    installTable s.settled s.kernelDirectory tableIndex isWriteable isKernel =
      installTable s s.kernelDirectory tableIndex isWriteable isKernel := by
  have aligned := kmalloc_settled s low 4096#32
  have chosen : (if s.kernelDirectory = s.settled.kernelDirectory then kmallocA s.settled 4096#32
      else kmalloc s.settled 4096#32) = kmallocA s 4096#32 := (if_pos rfl).trans aligned
  unfold installTable
  rw [chosen, if_pos rfl]

/-- A table that `alloc_page_pr` makes in the kernel's directory aligns `place_addr`. -/
theorem install_table_aligns (tableIndex isWriteable isKernel : Word) :
    IsPage (installTable s s.kernelDirectory tableIndex isWriteable isKernel).placeAddr ∧
      (installTable s s.kernelDirectory tableIndex isWriteable isKernel).kernelDirectory = s.kernelDirectory := by
  have limit : KERNEL_MEM_END.toNat = 16711680 := rfl
  obtain ⟨start, taken, page, above, below⟩ := kmalloc_a_result s 4096#32 (by omega)
  unfold installTable
  rw [if_pos rfl, taken]
  refine ⟨?_, rfl⟩
  show IsPage (start + 4096#32)
  unfold IsPage at *
  bv_omega

omit low in
theorem map_page_stays (v physAddr isWriteable isKernel : Word) :
    (mapPage s s.kernelDirectory v physAddr isWriteable isKernel).placeAddr = s.placeAddr := by
  have same : mapPage s s.kernelDirectory v physAddr isWriteable isKernel = _ :=
    map_page_place s s.placeAddr v physAddr isWriteable isKernel
  rw [same]

omit low in
theorem settled_same_place (after : Paging) (place : after.placeAddr = s.placeAddr) :
    after.settled = { after with placeAddr := (kmallocA s 0#32).1 } := by
  simp only [Paging.settled, kmallocA, kmallocAll, place]

theorem alloc_page_settled (v isWriteable isKernel frame : Word) (after : Paging)
    (returned : allocPage s s.kernelDirectory v isWriteable isKernel = some (frame, after)) :
    allocPage s.settled s.kernelDirectory v isWriteable isKernel = some (frame, after.settled) := by
  have free := first_free_from_place s (kmallocA s 0#32).1 bitsetWords 0
  obtain ⟨physAddr, found, mapped⟩ := Option.bind_eq_some_iff.mp returned
  have foundToo : firstFreeFrame s.settled = some physAddr := free.trans found
  rw [allocPage, foundToo, Option.bind_eq_bind, Option.bind_some]
  have reserved : isFrameSet s.settled physAddr = isFrameSet s physAddr := rfl
  have entry : ∀ a, s.settled.load a = s.load a := fun _ => rfl
  rw [allocPagePr] at mapped ⊢
  simp only [reserved, entry]
  by_cases set : isFrameSet s physAddr = true
  · rw [if_pos set] at mapped ⊢
    obtain ⟨rfl, rfl⟩ := Prod.mk.inj (Option.some.inj mapped)
    rfl
  · rw [if_neg set] at mapped ⊢
    dsimp only at mapped
    by_cases missing : s.load (element s.kernelDirectory (TABLE_INDEX_FROM_VIRTUAL_ADDRESS v)) &&& 0x1#32 = 0#32
    · rw [if_pos missing] at mapped
      obtain ⟨aligned, root⟩ := install_table_aligns s low (TABLE_INDEX_FROM_VIRTUAL_ADDRESS v) isWriteable
        isKernel
      rw [if_pos missing, install_table_settled s low]
      have later := mapped
      generalize installTable s s.kernelDirectory (TABLE_INDEX_FROM_VIRTUAL_ADDRESS v) isWriteable isKernel =
        made at *
      obtain ⟨free, _, last⟩ := Option.bind_eq_some_iff.mp later
      have place : after.placeAddr = made.placeAddr := by
        by_cases full : free = 0xFFFFFFFF#32
        · rw [if_pos full] at last
          obtain ⟨_, rfl⟩ := Prod.mk.inj (Option.some.inj last)
          rfl
        · rw [if_neg full] at last
          obtain ⟨_, rfl⟩ := Prod.mk.inj (Option.some.inj last)
          rw [← root]
          exact map_page_stays made v free isWriteable isKernel
      rw [settled_aligned after (place ▸ aligned)]
      exact mapped
    · rw [if_neg missing] at mapped ⊢
      obtain ⟨rfl, rfl⟩ := Prod.mk.inj (Option.some.inj mapped)
      have stays := map_page_stays s v physAddr isWriteable isKernel
      rw [settled_same_place s _ stays, ← map_page_place]
      rfl

end Settled

section Steps
variable (s : Paging) (low : s.placeAddr.toNat ≤ KERNEL_MEM_END.toNat) (held : SpacesHeld s.settled)
include low held

theorem directory_call_settled (after : Paging) (returned : pagingCall s .getNewKernelMappedDir = some after)
    (fits : after.placeAddr.toNat ≤ KERNEL_MEM_END.toNat) :
    pagedStep s.settled (.call .getNewKernelMappedDir) = some after.settled ∧ IsPage after.placeAddr := by
  have again : pagingCall s.settled .getNewKernelMappedDir = some after := by
    rw [← returned, pagingCall, pagingCall, new_directory_settled s low]
  have here := paging_call_moves s.settled after .getNewKernelMappedDir trivial again fits
  have aligned := (move_held s.settled after held _ here).holds.layout.aligned
  rw [settled_aligned after aligned]
  exact ⟨here, aligned⟩

theorem alloc_call_settled (after : Paging) (nothing : s.history.directories = []) (d v isWriteable isKernel : Word)
    (allowed : PagingAllowed s (.allocPage d v isWriteable isKernel))
    (returned : pagingCall s (.allocPage d v isWriteable isKernel) = some after)
    (fits : after.placeAddr.toNat ≤ KERNEL_MEM_END.toNat) :
    pagedStep s.settled (.call (.allocPage d v isWriteable isKernel)) = some after.settled ∧
      after.history.directories = [] := by
  have limit : KERNEL_MEM_END.toNat = 16711680 := rfl
  have kernel : d = s.kernelDirectory := allowed.1.resolve_right (by rw [nothing]; simp)
  obtain ⟨frame, allocated⟩ := alloc_page_call s after d v isWriteable isKernel returned
  rw [kernel] at allocated
  have there := alloc_page_settled s low v isWriteable isKernel frame after allocated
  rw [← kernel] at there
  have room := paged_invariant_room s.settled held.holds
  obtain ⟨_, _, _, maps, _⟩ := alloc_page_result s.settled held.holds.layout (by omega) d v isWriteable
    isKernel allowed.1 frame after.settled there
  have directories : after.history.directories = s.history.directories := maps.keeps.roots.directories
  obtain ⟨page, above, near⟩ := settled_place after fits
  refine ⟨paging_call_moves s.settled after.settled _ allowed ?_ ?_, directories.trans nothing⟩
  · simp only [pagingCall, there, Option.bind_eq_bind, Option.bind_some]
  · unfold IsPage at page
    omega

/-- What happens is the same as if `place_addr` had been aligned already. -/
theorem settled_step (after : Paging) (early : IsPage s.placeAddr ∨ s.history.directories = []) (e : PagedEvent)
    (moved : pagedStep s e = some after) :
    pagedStep s.settled e = some after.settled ∧ (IsPage after.placeAddr ∨ after.history.directories = []) ∧
      after.placeAddr.toNat ≤ KERNEL_MEM_END.toNat := by
  rcases early with aligned | nothing
  · rw [settled_aligned s aligned] at held ⊢
    have later := move_held s after held e moved
    rw [settled_aligned after later.holds.layout.aligned]
    exact ⟨moved, Or.inl later.holds.layout.aligned, later.holds.low⟩
  · unfold pagedStep at moved
    split at moved
    next allowed =>
      cases e with
      | call call =>
          obtain ⟨middle, returned, checked⟩ := Option.bind_eq_some_iff.mp moved
          obtain ⟨fits, same⟩ := Option.ite_none_right_eq_some.mp checked
          obtain rfl := Option.some.inj same
          cases call with
          | getNewKernelMappedDir =>
              obtain ⟨step, aligned⟩ := directory_call_settled s low held middle returned fits
              exact ⟨step, Or.inl aligned, fits⟩
          | allocPage d v isWriteable isKernel =>
              obtain ⟨step, none⟩ := alloc_call_settled s low held middle nothing d v isWriteable isKernel allowed
                returned fits
              exact ⟨step, Or.inr none, fits⟩
      | switch dir =>
          obtain rfl := Option.some.inj moved
          refine ⟨?_, Or.inr nothing, low⟩
          have again : PagedAllowed s.settled (.switch dir) := allowed
          rw [pagedStep, if_pos again]
          rfl
      | store a b =>
          -- no process runs without a directory
          have running := allowed.1
          rw [nothing] at running
          simp at running
    next => simp at moved

end Steps

theorem data_raised (data : Word → Prop) (s : Paging) (holds : DataHeld data s) (place : Word)
    (regions : List Region) (page : IsPage place) (above : s.placeAddr.toNat ≤ place.toNat)
    (low : place.toNat ≤ KERNEL_MEM_END.toNat) :
    DataHeld (fun x => data x ∨ s.placeAddr.toNat ≤ x.toNat ∧ x.toNat < place.toNat)
      { s with placeAddr := place, history := { s.history with regions := regions } } := by
  have limit : KERNEL_MEM_END.toNat = 16711680 := rfl
  have layout := holds.held.holds.layout
  have room := layout.room
  have homes : ∀ r p,
      ({ s with placeAddr := place, history := { s.history with regions := regions } } : Paging).Home r p →
      s.Home r p := home_same s _ ⟨rfl, rfl, rfl⟩ fun _ _ _ _ => rfl
  have records := holds.held.holds
  have small : place.toNat ≤ 2 ^ 31 := by omega
  refine ⟨⟨⟨⟨⟨page, small, fun r p home => ?_, fun r r' p home homeToo => ?_⟩, fun m member => ?_, records.once,
    records.bits, records.current, records.kernel⟩, low⟩, holds.held.process, holds.held.unmapped⟩, holds.half,
    ⟨fun x inside => ?_, fun r p home x inside => ?_⟩⟩
  · have housed := layout.housed r p (homes r p home)
    exact ⟨housed.1, Nat.le_trans housed.2 above⟩
  · exact layout.apart r r' p (homes r p home) (homes r' p homeToo)
  · have recorded := records.recorded m member
    exact ⟨recorded.listed, recorded.inSpace, recorded.frame, recorded.flags, recorded.process⟩
  · rcases inside with early | late
    · exact Nat.lt_of_lt_of_le (holds.spares.place x early) above
    · exact late.2
  · have housed := layout.housed r p (homes r p home)
    rcases inside with early | late
    · exact holds.spares.homes r p (homes r p home) x early
    · rw [in_span_iff _ _ _ (by omega)]
      omega

end GargOS
