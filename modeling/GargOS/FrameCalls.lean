import GargOS.KernelHalf
import GargOS.PointUpdate

/-!
`alloc_page_pr` and `free_page` as calls of their own, in any order with the
others: the frame a page is given, and what is left of a page that is freed. The
second is shown for any calls, the first where the code's accesses are direct.
-/

namespace GargOS
open ByteMemory Pages Ledger Runs

inductive FrameCall
  | paging (call : PagingCall)
  | allocPagePr (directory vaddr physAddr isWriteable isKernel : Word)
  | freePage (directory vaddr : Word)

def frameCall (s : Paging) : FrameCall → Option Paging
  | .paging call => pagingCall s call
  | .allocPagePr directory vaddr physAddr isWriteable isKernel => do
      let (_, s) ← allocPagePr s directory vaddr physAddr isWriteable isKernel
      some s
  | .freePage directory vaddr => some (freePage s directory vaddr)

def FrameAllowed (s : Paging) : FrameCall → Prop
  | .paging call => PagingListed s call
  | .allocPagePr directory _ physAddr _ _ => s.Listed directory ∧ IsPage physAddr
  | .freePage _ _ => True

def FrameStep (s after : Paging) : Prop :=
  ∃ call, FrameAllowed s call ∧ frameCall s call = some after ∧ after.placeAddr.toNat + 131072 ≤ 2 ^ 31

structure Translated (s : Paging) : Prop where
  layout : Layout s
  room : s.placeAddr.toNat + 131072 ≤ 2 ^ 31
  entered : ∀ d page m, s.mapping d page = some m → Entered s m

theorem frame_number (p : Word) (page : IsPage p) :
    p = BitVec.ofNat 32 (4096 * (p.toNat / 4096)) ∧ p.toNat / 4096 < 2 ^ 20 := by
  unfold IsPage at page
  exact ⟨by bv_omega, by omega⟩

/-- Whatever page is freed, the frame 0 is. -/
theorem free_page_result (s : Paging) (layout : Layout s) (d v : Word) :
    Keeps s (freePage s d v) none ∧
      (∀ d', s.Listed d' → ∀ page < 2 ^ 20, (freePage s d v).walk d' page = s.walk d' page) ∧
      ∀ n < 2 ^ 20, (freePage s d v).bit n = (s.bit n && !decide (n = 0)) := by
  unfold freePage
  dsimp only
  generalize s.load _ = entry
  have first : (entry &&& ~~~0xFFFFF000#32).toNat / 4096 = 0 := by
    have mask : (~~~0xFFFFF000#32 : Word).toNat = 4095 := rfl
    have small : (entry &&& ~~~0xFFFFF000#32).toNat ≤ 4095 := by
      rw [BitVec.toNat_and, mask]
      exact Nat.and_le_right
    omega
  obtain ⟨keeps, entries, ptes, bits⟩ := clear_bitset_result s layout (entry &&& ~~~0xFFFFF000#32)
  rw [first] at bits
  refine ⟨keeps, fun d' listed page inSpace => ?_, bits⟩
  exact walk_same s _ d' page (entries d' listed _ (by omega)) (ptes d' listed page inSpace)

theorem free_page_entered (s : Paging) (layout : Layout s) (d v : Word) (m : Mapping)
    (entered : Entered s m) : Entered (freePage s d v) m := by
  obtain ⟨keeps, _⟩ := free_page_result s layout d v
  have inSpace := entered.inSpace
  exact entered_kept s _ m entered ((listed_same s _ keeps.roots _).mpr entered.listed)
    (keeps.entries _ entered.listed _ (by omega) entered.present)
    (keeps.ptes _ entered.listed _ inSpace entered.present (Or.inl (entered_mapped s m entered)) (by simp))

section Steps
variable (s after : Paging) (holds : Translated s)
include holds

theorem alloc_page_pr_cases (d v physAddr isWriteable isKernel result : Word) (listed : s.Listed d)
    (page : IsPage physAddr)
    (returned : allocPagePr s d v physAddr isWriteable isKernel = some (result, after)) :
    after = s ∨ ∃ n < 2 ^ 20, Maps s after d v n isWriteable isKernel := by
  have room := holds.room
  obtain ⟨number, bound⟩ := frame_number physAddr page
  by_cases set : isFrameSet s physAddr = true
  · rw [allocPagePr, if_pos set] at returned
    exact Or.inl (Prod.mk.inj (Option.some.inj returned)).2.symm
  · rw [number, is_frame_set_bit s _ bound, Bool.not_eq_true] at set
    obtain ⟨n, s', found, inSpace, _, _, maps, _⟩ := alloc_page_pr_found s holds.layout (by omega) d v
      isWriteable isKernel listed _ bound set
    rw [number, found] at returned
    obtain rfl := (Prod.mk.inj (Option.some.inj returned)).2
    exact Or.inr ⟨n, inSpace, maps⟩

theorem maps_translated (d v isWriteable isKernel : Word) (n : Nat) (bound : n < 2 ^ 20)
    (listed : s.Listed d) (room : after.placeAddr.toNat + 131072 ≤ 2 ^ 31)
    (maps : Maps s after d v n isWriteable isKernel) : Translated after :=
  ⟨maps.keeps.layout, room, maps_entered s after holds.entered d v isWriteable isKernel n bound listed maps⟩

theorem frame_step_translated (step : FrameStep s after) : Translated after := by
  have here := holds.room
  obtain ⟨call, allowed, returned, room⟩ := step
  cases call with
  | paging call =>
      cases call with
      | getNewKernelMappedDir =>
          obtain rfl := Option.some.inj returned
          exact ⟨(new_directory_result s holds.layout here).2.layout, room,
            new_directory_entered s holds.entered holds.layout here⟩
      | allocPage d v isWriteable isKernel =>
          obtain ⟨frame, allocated⟩ := alloc_page_call s after d v isWriteable isKernel returned
          obtain ⟨n, first, _, maps, _⟩ := alloc_page_result s holds.layout (by omega) d v isWriteable
            isKernel allowed frame after allocated
          exact maps_translated s after holds d v isWriteable isKernel n first.1 allowed room maps
  | allocPagePr d v physAddr isWriteable isKernel =>
      obtain ⟨⟨frame, space⟩, allocated, same⟩ := Option.bind_eq_some_iff.mp returned
      obtain rfl := Option.some.inj same
      rcases alloc_page_pr_cases s space holds d v physAddr isWriteable isKernel frame allowed.1 allowed.2
        allocated with rfl | ⟨n, bound, maps⟩
      · exact holds
      · exact maps_translated s space holds d v isWriteable isKernel n bound allowed.1 room maps
  | freePage d v =>
      obtain rfl := Option.some.inj returned
      exact ⟨(free_page_result s holds.layout d v).1.layout, room, fun d' page m found =>
        free_page_entered s holds.layout d v m (holds.entered d' page m found)⟩

end Steps

theorem booted_translated (s : Paging) (booted : PagingBooted s) : Translated s := by
  have holds := booted_invariant s booted
  exact ⟨holds.layout, paged_invariant_room s holds, records_entered s holds.toPagedRecords⟩

theorem frame_run_translated (s : Paging) (reached : Reached PagingBooted FrameStep s) : Translated s :=
  reached_invariant Translated booted_translated frame_step_translated s reached

/-! Asking for a frame. -/

/-- The calls that leave the half of the kernel's own directory alone. `free_page`
reads its table up to 7 bytes off, so the half goes on behind the last one. -/
def FrameHalfCall (s : Paging) : FrameCall → Prop
  | .paging call => HalfCall s call
  | .allocPagePr directory vaddr physAddr _ _ => s.Listed directory ∧ IsPage physAddr ∧
      (directory = s.kernelDirectory → KERNEL_MEM_END.toNat ≤ vaddr.toNat)
  | .freePage directory _ => s.Listed directory ∧ s.placeAddr.toNat < KERNEL_MEM_END.toNat

def FrameHalfStep (s after : Paging) : Prop :=
  ∃ call, FrameHalfCall s call ∧ frameCall s call = some after ∧
    after.placeAddr.toNat ≤ KERNEL_MEM_END.toNat

theorem frame_half_step (s after : Paging) (step : FrameHalfStep s after) : FrameStep s after := by
  have limit := kernel_mem_end
  have pages : kernelPages = 4080 := rfl
  obtain ⟨call, allowed, returned, low⟩ := step
  refine ⟨call, ?_, returned, by omega⟩
  cases call with
  | paging call => exact half_call_listed s call allowed
  | allocPagePr d v physAddr isWriteable isKernel => exact ⟨allowed.1, allowed.2.1⟩
  | freePage d v => trivial

theorem alloc_page_pr_active (s after : Paging) (holds : Translated s) (active : KernelActive s)
    (d v physAddr isWriteable isKernel result : Word) (listed : s.Listed d) (page : IsPage physAddr)
    (above : d = s.kernelDirectory → KERNEL_MEM_END.toNat ≤ v.toNat)
    (returned : allocPagePr s d v physAddr isWriteable isKernel = some (result, after))
    (low : after.placeAddr.toNat ≤ KERNEL_MEM_END.toNat) : KernelActive after := by
  rcases alloc_page_pr_cases s after holds d v physAddr isWriteable isKernel result listed page returned with
    rfl | ⟨n, _, maps⟩
  · exact active
  · exact maps_kernel_active s after d v isWriteable isKernel n maps above low active

theorem frame_half_step_active (s after : Paging) (holds : Translated s) (active : KernelActive s)
    (step : FrameHalfStep s after) : KernelActive after := by
  have room := holds.room
  obtain ⟨call, allowed, returned, low⟩ := step
  cases call with
  | paging call => exact half_call_active s after holds.layout room active call allowed returned low
  | allocPagePr d v physAddr isWriteable isKernel =>
      obtain ⟨⟨frame, space⟩, allocated, same⟩ := Option.bind_eq_some_iff.mp returned
      obtain rfl := Option.some.inj same
      exact alloc_page_pr_active s space holds active d v physAddr isWriteable isKernel frame allowed.1
        allowed.2.1 allowed.2.2 allocated low
  | freePage d v =>
      obtain rfl := Option.some.inj returned
      exact kernel_active_kept s _ none (free_page_result s holds.layout d v).1 (by simp) low active

theorem frame_half_run (s : Paging) (reached : Reached PagingBooted FrameHalfStep s) :
    Translated s ∧ KernelActive s := by
  apply reached_invariant (fun s => Translated s ∧ KernelActive s) _ _ s reached
  · exact fun s booted => ⟨booted_translated s booted, booted_active s booted⟩
  · exact fun s after holds step => ⟨frame_step_translated s after holds.1 (frame_half_step s after step),
      frame_half_step_active s after holds.1 holds.2 step⟩

/-- The page of `v` is given the frame asked for, or nothing is done if that is reserved. -/
def Honours (s : Paging) (d v physAddr isWriteable isKernel : Word) : Prop :=
  if isFrameSet s physAddr = true then
    allocPagePr s d v physAddr isWriteable isKernel = some (0xFFFFFFFF#32, s)
  else ∃ after, allocPagePr s d v physAddr isWriteable isKernel = some (physAddr, after) ∧
    (∀ n < 2 ^ 20, after.bit n = (s.bit n || decide (physAddr = BitVec.ofNat 32 (4096 * n)))) ∧
    ∃ entry pte, after.walk d (v.toNat / 4096) = some (entry, pte) ∧ pageOf pte = physAddr

theorem alloc_page_pr_granted (s : Paging) (holds : Translated s) (d v physAddr isWriteable isKernel : Word)
    (listed : s.Listed d) (page : IsPage physAddr) :
    Honours s d v physAddr isWriteable isKernel ↔
      isFrameSet s physAddr = true ∨ Present (s.entry d (v.toNat / 4096 / 1024)) ∨
        FirstFree s (physAddr.toNat / 4096) := by
  have room := holds.room
  obtain ⟨number, bound⟩ := frame_number physAddr page
  unfold Honours
  by_cases set : isFrameSet s physAddr = true
  · rw [if_pos set, allocPagePr, if_pos set]
    exact iff_of_true rfl (Or.inl set)
  · rw [if_neg set]
    have clear := set
    rw [number, is_frame_set_bit s _ bound, Bool.not_eq_true] at clear
    obtain ⟨n, after, returned, inSpace, asked, made, maps, _⟩ := alloc_page_pr_found s holds.layout
      (by omega) d v isWriteable isKernel listed _ bound clear
    rw [← number] at returned
    constructor
    · rintro ⟨after', honoured, _⟩
      rw [returned] at honoured
      have frame := congrArg BitVec.toNat (Prod.mk.inj (Option.some.inj honoured)).1
      rw [frame_toNat n inSpace] at frame
      have same : n = physAddr.toNat / 4096 := by omega
      by_cases present : Present (s.entry d (v.toNat / 4096 / 1024))
      · exact Or.inr (Or.inl present)
      · exact Or.inr (Or.inr (same ▸ made present))
    · intro condition
      have same : n = physAddr.toNat / 4096 := by
        rcases condition with reserved | present | first
        · exact absurd reserved set
        · exact asked present
        · exact first_granted s _ n _ first asked made
      subst same
      have update := maps_point_update s after d v isWriteable isKernel _ inSpace listed maps
      rw [← number] at returned update
      obtain ⟨entry, pte, walked, frame, _⟩ := update.page
      exact ⟨after, returned, update.bits, entry, pte, walked, frame⟩

/-- Making a table, `alloc_page_pr` picks the first free frame again: a frame that
is free is honoured only where the table is there or that frame is the first. -/
theorem alloc_page_pr_honours (s : Paging) (reached : Reached PagingBooted FrameHalfStep s)
    (d v physAddr isWriteable isKernel : Word) (listed : s.Listed d) (page : IsPage physAddr)
    (above : d = s.kernelDirectory → KERNEL_MEM_END.toNat ≤ v.toNat)
    (low : ∀ result after, allocPagePr s d v physAddr isWriteable isKernel = some (result, after) →
      after.placeAddr.toNat ≤ KERNEL_MEM_END.toNat) :
    (∀ result after, allocPagePr s d v physAddr isWriteable isKernel = some (result, after) →
      AccessesDirect after) ∧
    (Honours s d v physAddr isWriteable isKernel ↔
      isFrameSet s physAddr = true ∨ Present (s.entry d (v.toNat / 4096 / 1024)) ∨
        FirstFree s (physAddr.toNat / 4096)) := by
  obtain ⟨holds, active⟩ := frame_half_run s reached
  refine ⟨fun result after returned => ?_, alloc_page_pr_granted s holds d v physAddr isWriteable isKernel
    listed page⟩
  have still := alloc_page_pr_active s after holds active d v physAddr isWriteable isKernel result listed page
    above returned (low result after returned)
  apply kernel_active_direct after _ still
  rcases alloc_page_pr_cases s after holds d v physAddr isWriteable isKernel result listed page returned with
    rfl | ⟨n, _, maps⟩
  · exact holds.layout
  · exact maps.keeps.layout

theorem paging_step_frame (s after : Paging) (step : PagingStep s after) : FrameStep s after := by
  have limit := kernel_mem_end
  have pages : kernelPages = 4080 := rfl
  obtain ⟨call, allowed, returned, low⟩ := step
  refine ⟨FrameCall.paging call, ?_, returned, by omega⟩
  cases call with
  | getNewKernelMappedDir => trivial
  | allocPage d v isWriteable isKernel => exact allowed.1

theorem paging_run_frame (s : Paging) (reached : Reached PagingBooted PagingStep s) :
    Reached PagingBooted FrameStep s := by
  induction reached with
  | start booted => exact Reached.start booted
  | next earlier step ih => exact Reached.next ih (paging_step_frame _ _ step)

theorem half_step_frame (s after : Paging) (step : HalfStep s after) : FrameHalfStep s after := by
  obtain ⟨call, allowed, returned, low⟩ := step
  exact ⟨FrameCall.paging call, allowed, returned, low⟩

theorem half_run_frame (s : Paging) (reached : Reached PagingBooted HalfStep s) :
    Reached PagingBooted FrameHalfStep s := by
  induction reached with
  | start booted => exact Reached.start booted
  | next earlier step ih => exact Reached.next ih (half_step_frame _ _ step)

theorem alloc_page_pr_place (s : Paging) (holds : Translated s) (d v physAddr isWriteable isKernel : Word)
    (listed : s.Listed d) (page : IsPage physAddr) (result : Word) (after : Paging)
    (returned : allocPagePr s d v physAddr isWriteable isKernel = some (result, after)) :
    after.placeAddr.toNat ≤ s.placeAddr.toNat + 8192 := by
  rcases alloc_page_pr_cases s after holds d v physAddr isWriteable isKernel result listed page returned with
    rfl | ⟨n, _, maps⟩
  · exact Nat.le_add_right _ _
  · exact maps_place _ _ _ _ _ _ _ maps

theorem alloc_page_pr_honours_first : ∃ s d, ¬ Present (s.entry d 4) ∧
    (∀ result after, allocPagePr s d 0x1000000#32 KERNEL_MEM_END 1#32 0#32 = some (result, after) →
      AccessesDirect after) ∧
    (Honours s d 0x1000000#32 KERNEL_MEM_END 1#32 0#32 ↔ isFrameSet s KERNEL_MEM_END = true ∨
      Present (s.entry d ((0x1000000#32).toNat / 4096 / 1024)) ∨
      FirstFree s (KERNEL_MEM_END.toNat / 4096)) ∧ FirstFree s (KERNEL_MEM_END.toNat / 4096) := by
  obtain ⟨s, d, process⟩ := one_process
  have limit := kernel_mem_end
  have pages : kernelPages = 4080 := rfl
  have place := process.place
  obtain ⟨listed, first⟩ := one_process_free s d process
  have page : IsPage KERNEL_MEM_END := by
    unfold IsPage
    decide
  have run := half_run_frame s (paging_run_half s process.reached)
  obtain ⟨holds, _⟩ := frame_half_run s run
  obtain ⟨direct, honours⟩ := alloc_page_pr_honours s run d 0x1000000#32 KERNEL_MEM_END 1#32 0#32 listed page
    (fun _ => by decide) fun result after returned => by
      have size := alloc_page_pr_place s holds d 0x1000000#32 KERNEL_MEM_END 1#32 0#32 listed page result after
        returned
      omega
  refine ⟨s, d, ?_, direct, honours, first⟩
  rw [(process.tables 4 (by decide)).1]
  decide

/-- A process asks for the second free frame, and its first page is mapped to
the first one. -/
theorem frame_not_honoured : ∃ s d, Reached PagingBooted FrameHalfStep s ∧ s.Listed d ∧
    isFrameSet s 0xFF1000#32 = false ∧ ¬ Honours s d 0x1000000#32 0xFF1000#32 1#32 0#32 ∧
    ∃ after, allocPagePr s d 0x1000000#32 0xFF1000#32 1#32 0#32 = some (0xFF0000#32, after) ∧
      after.placeAddr.toNat ≤ KERNEL_MEM_END.toNat ∧ after.target d 0x1000 = 0xFF0000#32 := by
  obtain ⟨s, d, process⟩ := one_process
  have limit := kernel_mem_end
  have pages : kernelPages = 4080 := rfl
  have low := process.place
  obtain ⟨listed, first⟩ := one_process_free s d process
  have holds := paging_invariant s process.reached
  have absent : ¬ Present (s.entry d 4) := by
    rw [(process.tables 4 (by decide)).1]
    decide
  have clear : s.bit 4081 = false := by
    rw [process.bits 4081 (by decide)]
    decide
  obtain ⟨n, after, returned, inSpace, _, made, maps, _⟩ := alloc_page_pr_found s holds.layout (by omega) d
    0x1000000#32 1#32 0#32 listed 4081 (by decide) clear
  obtain rfl := first_free_unique s n kernelPages (made absent) first
  have unset : isFrameSet s 0xFF1000#32 = false := (is_frame_set_bit s 4081 (by decide)).trans clear
  have size := maps_place _ _ _ _ _ _ _ maps
  refine ⟨s, d, half_run_frame s (paging_run_half s process.reached), listed, unset, ?_, after, returned,
    by omega, ?_⟩
  · rw [Honours, if_neg (by simp [unset])]
    rintro ⟨_, honoured, _⟩
    have other : allocPagePr s d 0x1000000#32 0xFF1000#32 1#32 0#32 = _ := returned
    rw [other] at honoured
    exact absurd (Prod.mk.inj (Option.some.inj honoured)).1 (by decide)
  · have mapped := maps.pte
    have page : (0x1000000#32).toNat / 4096 = 0x1000 := rfl
    rw [page] at mapped
    rw [Paging.target, mapped, page_of_flagged _ _ (frame_is_page kernelPages (by decide)) (by decide)]
    rfl

/-! Freeing a page. -/

/-- The page of `v` is gone, its frame is free, and nothing else has changed. -/
structure Undoes (s after : Paging) (d v frame : Word) : Prop where
  freed : isFrameSet after frame = false
  bits : ∀ n < 2 ^ 20, frame ≠ BitVec.ofNat 32 (4096 * n) → after.bit n = s.bit n
  unmapped : after.walk d (v.toNat / 4096) = none
  others : ∀ d' ∈ s.history.directories, ∀ page < 2 ^ 20, (d', page) ≠ (d, v.toNat / 4096) →
    after.walk d' page = s.walk d' page
  fresh : ∀ d' v' isWriteable isKernel given later, s.Listed d' →
    allocPage after d' v' isWriteable isKernel = some (given, later) →
    ∀ d'' ∈ s.history.directories, ∀ page < 2 ^ 20, after.Walks d'' page → after.target d'' page ≠ given

/-- No page is gone, and the frame 0 is what `alloc_page` returns next. -/
structure FreesFirst (s after : Paging) : Prop where
  walks : ∀ d, s.Listed d → ∀ page < 2 ^ 20, after.walk d page = s.walk d page
  bits : ∀ n < 2 ^ 20, after.bit n = (s.bit n && !decide (n = 0))
  next : ∀ d v isWriteable isKernel, s.Listed d →
    ∃ later, allocPage after d v isWriteable isKernel = some (0#32, later)

/-- `free_page` leaves the page where it is and frees the frame 0. -/
theorem free_page_undoes_nothing (s : Paging) (reached : Reached PagingBooted FrameStep s) (d v : Word)
    (m : Mapping) (mapped : s.mapping d (v.toNat / 4096) = some m) :
    ¬ Undoes s (freePage s d v) d v m.frame ∧ FreesFirst s (freePage s d v) := by
  have holds := frame_run_translated s reached
  have room := holds.room
  obtain ⟨keeps, walks, bits⟩ := free_page_result s holds.layout d v
  have entered := holds.entered d _ m mapped
  obtain ⟨_, key⟩ := latest_mem _ _ _ _ mapped
  obtain ⟨rfl, page⟩ := Prod.mk.inj key
  have here : s.walk m.directory (v.toNat / 4096) ≠ none := by
    have walk : s.Walks m.directory m.page := ⟨entered.present, entered_mapped s m entered⟩
    change m.page = _ at page
    rw [← page, Paging.walk, if_pos walk]
    simp
  refine ⟨fun undoes => here ?_, walks, bits, fun d' v' isWriteable isKernel listed => ?_⟩
  · rw [← walks _ entered.listed _ (by omega)]
    exact undoes.unmapped
  · have first : FirstFree (freePage s m.directory v) 0 :=
      ⟨by decide, by simp [bits 0 (by decide)], fun k less => absurd less (Nat.not_lt_zero k)⟩
    have place : (freePage s m.directory v).placeAddr = s.placeAddr := rfl
    obtain ⟨later, returned, _⟩ := alloc_page_found _ keeps.layout (by rw [place]; omega) d' v' isWriteable
      isKernel
      ((listed_same s _ keeps.roots d').mpr listed) 0 first
    exact ⟨later, returned⟩

theorem free_page_undoes_nothing_one_page : ∃ s d,
    s.mapping d 0x1000 = some ⟨d, 0x1000, KERNEL_MEM_END, 3#32⟩ ∧
    ¬ Undoes s (freePage s d 0x1000000#32) d 0x1000000#32 KERNEL_MEM_END ∧
    FreesFirst s (freePage s d 0x1000000#32) := by
  obtain ⟨s, d, process⟩ := one_process
  obtain ⟨after, _, maps, _, reached⟩ := one_page s d process 0x1000000#32 1#32 (by decide)
  have mapped := maps_mapping s after d _ _ _ _ maps
  exact ⟨after, d, mapped, free_page_undoes_nothing after (paging_run_frame after reached) d 0x1000000#32
    _ mapped⟩

/-- The first page of a process, freed, is still mapped to its frame, and the
frame of the kernel's first page is given to the next. -/
theorem page_not_freed : ∃ s d, Reached PagingBooted FrameStep s ∧
    s.mapping d 0x1000 = some ⟨d, 0x1000, KERNEL_MEM_END, 3#32⟩ ∧
    ¬ Undoes s (freePage s d 0x1000000#32) d 0x1000000#32 KERNEL_MEM_END ∧
    isFrameSet (freePage s d 0x1000000#32) KERNEL_MEM_END = true ∧
    (freePage s d 0x1000000#32).target d 0x1000 = KERNEL_MEM_END ∧
    ∃ later, allocPage (freePage s d 0x1000000#32) d 0x1001000#32 1#32 1#32 = some (0#32, later) ∧
      later.target d 0x1001 = 0#32 := by
  obtain ⟨s, d, process⟩ := one_process
  obtain ⟨after, _, maps, _, reached⟩ := one_page s d process 0x1000000#32 1#32 (by decide)
  have run := paging_run_frame after reached
  have holds := frame_run_translated after run
  have room := holds.room
  have page : (0x1000000#32).toNat / 4096 = 0x1000 := rfl
  have mapped := maps_mapping s after d _ _ _ _ maps
  have entered := holds.entered d 0x1000 _ mapped
  obtain ⟨keeps, _, bits⟩ := free_page_result after holds.layout d 0x1000000#32
  have set : isFrameSet (freePage after d 0x1000000#32) KERNEL_MEM_END = true := by
    have frame : BitVec.ofNat 32 (4096 * kernelPages) = KERNEL_MEM_END := rfl
    rw [← frame, is_frame_set_bit _ kernelPages (by decide), bits _ (by decide), maps.bits _ (by decide)]
    simp [kernelPages]
  have kept := free_page_entered after holds.layout d 0x1000000#32 _ entered
  have first : FirstFree (freePage after d 0x1000000#32) 0 :=
    ⟨by decide, by simp [bits 0 (by decide)], fun k less => absurd less (Nat.not_lt_zero k)⟩
  have place : (freePage after d 0x1000000#32).placeAddr = after.placeAddr := rfl
  obtain ⟨later, returned, mapsNext, _⟩ := alloc_page_found _ keeps.layout (by rw [place]; omega) d
    0x1001000#32 1#32 1#32 ((listed_same after _ keeps.roots d).mpr entered.listed) 0 first
  refine ⟨after, d, run, mapped, fun undoes => ?_, set, ?_, later, returned, ?_⟩
  · rw [undoes.freed] at set
    simp at set
  · have entry : (freePage after d 0x1000000#32).pte d 0x1000 = KERNEL_MEM_END ||| 3#32 := kept.pte
    rw [Paging.target, entry]
    exact page_of_flagged KERNEL_MEM_END 3#32 (frame_is_page kernelPages (by decide)) (by decide)
  · have next : (0x1001000#32).toNat / 4096 = 0x1001 := rfl
    have written := mapsNext.pte
    rw [next] at written
    rw [Paging.target, written]
    decide

end GargOS
