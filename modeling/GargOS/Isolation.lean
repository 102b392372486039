import GargOS.HeapPaging
import GargOS.PointUpdate
import GargOS.StaleTables

/-!
Processes that store through their own directories while paging.c maps more
pages and makes more directories. What one of them does, in whatever order,
leaves the address space of every other one as it was.
-/

namespace GargOS
open ByteMemory AddressSpace Pages Ledger Runs

/-- What happens on the machine: a call of paging.c, a change of the directory,
or a store by the code that runs. -/
inductive PagedEvent
  | call (call : PagingCall)
  | switch (dir : Word)
  | store (a : Word) (b : Byte)

/-- `none` is a halt, a page fault, or a table above the pages that are mapped
to themselves. -/
def pagedEvent (s : Paging) : PagedEvent → Option Paging
  | .call call => do
      let s ← pagingCall s call
      if s.placeAddr.toNat ≤ KERNEL_MEM_END.toNat then some s else none
  | .switch dir => some (switchPageDirectory s dir)
  | .store a b => store8 s a b

/-- The addresses of a process: the pages that were mapped for it, and all those
behind the tables of the kernel's half, where any other page faults. -/
def Paging.Own (s : Paging) (d a : Word) : Prop :=
  s.mapping d (a.toNat / 4096) ≠ none ∨ 4096 ≤ a.toNat / 4096

def PagedAllowed (s : Paging) : PagedEvent → Prop
  | .call call => PagingAllowed s call
  | .switch dir => s.Listed dir
  | .store a _ => s.currentDir ∈ s.history.directories ∧ s.Own s.currentDir a

instance (s : Paging) (d : Word) : Decidable (s.Listed d) :=
  inferInstanceAs (Decidable (_ ∨ _))

instance (s : Paging) (d a : Word) : Decidable (s.Own d a) :=
  inferInstanceAs (Decidable (_ ∨ _))

instance (s : Paging) : (call : PagingCall) → Decidable (PagingAllowed s call)
  | .getNewKernelMappedDir => inferInstanceAs (Decidable True)
  | .allocPage _ _ _ _ => inferInstanceAs (Decidable (_ ∧ _))

instance (s : Paging) : (e : PagedEvent) → Decidable (PagedAllowed s e)
  | .call call => inferInstanceAs (Decidable (PagingAllowed s call))
  | .switch dir => inferInstanceAs (Decidable (s.Listed dir))
  | .store _ _ => inferInstanceAs (Decidable (_ ∧ _))

def pagedStep (s : Paging) (e : PagedEvent) : Option Paging :=
  if PagedAllowed s e then pagedEvent s e else none

def MadeFor (s : Paging) (d : Word) : PagedEvent → Prop
  | .call .getNewKernelMappedDir => False
  | .call (.allocPage directory _ _ _) => directory = d
  | .switch _ => False
  | .store _ _ => s.currentDir = d

def PagedMove (s after : Paging) : Prop := ∃ e, pagedStep s e = some after

def MoveBesides (d : Word) (s after : Paging) : Prop :=
  ∃ e, ¬ MadeFor s d e ∧ pagedStep s e = some after

/-! The memory that a new directory takes. -/

theorem with_table_outside (s : Paging) (d v : Word) (page : IsPage d) (x : Word)
    (outside : ¬ InSpan d 4096 x) : (withTable s d v).mem x = s.mem x := by
  have bound : (TABLE_INDEX_FROM_VIRTUAL_ADDRESS v).toNat < 1024 := by
    rw [table_index_toNat]
    omega
  unfold withTable
  split
  · rw [newKernelTable, element_cell]
    exact store_outside_page _ _ _ page bound _ x outside
  · rfl

theorem kernel_rounds_outside (d : Word) (page : IsPage d) (top : d.toNat + 20480 ≤ 2 ^ 31) (base : Paging)
    (start : HalfBuilt base base d 0) (x : Word) (outside : ¬ InSpan d 20480 x) (n : Nat)
    (enough : n ≤ kernelPages) : (kernelRounds base d n).mem x = base.mem x := by
  have pages : kernelPages = 4080 := rfl
  rw [in_span_iff d 20480 x (by omega)] at outside
  have directory : ¬ InSpan d 4096 x := by
    rw [in_span_iff d 4096 x (by omega)]
    omega
  induction n with
  | zero => rfl
  | succ n ih =>
      have built := half_built_rounds d page top base n start (by omega)
      have number := page_number n (by omega)
      have earlier := ih (by omega)
      rw [kernel_rounds_succ]
      generalize kernelRounds base d n = s at built earlier ⊢
      generalize ready : withTable s d (BitVec.ofNat 32 (4096 * n)) = middle
      obtain ⟨_, entries, _⟩ := half_table_ready d page top base s n (by omega) built middle ready
      have here := table_behind_page d page top (n / 1024) (by omega)
      have table : pageOf (middle.entry d (n / 1024)) = tableBehind d (n / 1024) := by
        rw [entries _ (by omega), if_pos (by rw [tables_next]; omega), page_of_flagged _ _ here.2 (by decide)]
      have behind : ¬ InSpan (tableBehind d (n / 1024)) 4096 x := by
        rw [in_span_iff _ 4096 x (by omega)]
        omega
      rw [load_entry, element_page, number, table,
        store_outside_page _ _ _ here.2 (Nat.mod_lt _ (by decide)) _ x behind, ← ready,
        with_table_outside s d _ page x directory]
      exact earlier

theorem new_directory_start (s : Paging) (aligned : IsPage s.placeAddr) :
    ∃ base, (getNewKernelMappedDir s).2 = kernelRounds base s.placeAddr kernelPages ∧
      HalfBuilt base base s.placeAddr 0 ∧
      ∀ x, base.mem x = if InSpan s.placeAddr 4096 x then 0#8 else s.mem x := by
  have first := kmalloc_a_aligned s aligned 4096#32
  unfold getNewKernelMappedDir
  rw [first]
  dsimp only
  generalize shape : ({ s with
    mem := memset s.mem s.placeAddr 0#8 4096
    placeAddr := s.placeAddr + 4096#32
    history := ⟨⟨s.placeAddr, 4096#32, none⟩ :: s.history.regions,
      s.placeAddr :: s.history.directories, s.history.mappings⟩ } : Paging) = base
  have memory : ∀ x, base.mem x = if InSpan s.placeAddr 4096 x then 0#8 else s.mem x := by
    intro x
    rw [← shape]
    exact memset_apply _ _ _ _ _ (by decide)
  refine ⟨base, rfl, ⟨?_, fun t less => ?_, fun t few i inTable => ?_⟩, memory⟩
  · rw [← shape]
    rfl
  · refine load_cell_zero _ _ _ aligned less fun x inside => ?_
    rw [memory, if_pos inside]
  · rw [if_neg (by omega)]

theorem new_directory_outside (s : Paging) (aligned : IsPage s.placeAddr)
    (room : s.placeAddr.toNat + 20480 ≤ 2 ^ 31) (x : Word) (outside : ¬ InSpan s.placeAddr 20480 x) :
    (getNewKernelMappedDir s).2.mem x = s.mem x := by
  obtain ⟨base, made, start, memory⟩ := new_directory_start s aligned
  have directory : ¬ InSpan s.placeAddr 4096 x := fun inside => outside (Nat.lt_trans inside (by decide))
  rw [made, kernel_rounds_outside s.placeAddr aligned room base start x outside kernelPages (Nat.le_refl _),
    memory, if_neg directory]

/-! The invariant, and the address space of one process through an event that is
not made for it. -/

/-- Behind the kernel's half nothing is mapped for a process but by `alloc_page`. -/
structure SpacesHeld (s : Paging) : Prop where
  holds : PagedInvariant s
  process : ∀ d ∈ s.history.directories, d ≠ s.kernelDirectory
  unmapped : ∀ d ∈ s.history.directories, ∀ page < 2 ^ 20, 4096 ≤ page → s.mapping d page = none →
    s.walk d page = none

structure SpaceKept (s after : Paging) (d : Word) : Prop where
  listed : d ∈ after.history.directories
  mappings : ∀ page, after.mapping d page = s.mapping d page
  walks : ∀ page < 2 ^ 20, after.walk d page = s.walk d page
  bytes : ∀ page m, s.mapping d page = some m → ∀ x, InSpan m.frame 4096 x → after.mem x = s.mem x

theorem process_frame_above (s : Paging) (holds : PagedInvariant s) (d : Word) (process : d ≠ s.kernelDirectory)
    (page : Nat) (m : Mapping) (found : s.mapping d page = some m) (x : Word)
    (inside : InSpan m.frame 4096 x) : KERNEL_MEM_END.toNat ≤ x.toNat := by
  have above := mapped_above s holds d page m found process
  obtain ⟨n, bound, frame⟩ := (mapped_page s holds.toPagedRecords d page m found).frame
  have value := frame_toNat n bound
  rw [frame] at above inside
  rw [in_span_iff _ 4096 x (by omega)] at inside
  omega

section Events
variable (s after : Paging) (held : SpacesHeld s)
include held

theorem alloc_space_kept (directory v isWriteable isKernel frame d : Word) (listed : s.Listed directory)
    (allocated : allocPage s directory v isWriteable isKernel = some (frame, after))
    (low : after.placeAddr.toNat ≤ KERNEL_MEM_END.toNat) (inUse : d ∈ s.history.directories)
    (other : directory ≠ d) : SpaceKept s after d := by
  have room := paged_invariant_room s held.holds
  have process := held.process d inUse
  obtain ⟨n, _, _, maps, _⟩ := alloc_page_result s held.holds.layout (by omega) directory v isWriteable
    isKernel listed frame after allocated
  refine ⟨?_, fun page => ?_, fun page inSpace => ?_, fun page m found x inside => ?_⟩
  · rw [maps.keeps.roots.directories]
    exact inUse
  · unfold Paging.mapping
    rw [maps.mappings, latest_cons]
    exact if_neg fun same => other (Prod.mk.inj same).1
  · exact maps_walk_other s after _ _ _ _ _ maps d (Or.inr inUse) (Or.inl process) page inSpace
      fun same => other (Prod.mk.inj same).1.symm
  · have above := process_frame_above s held.holds d process page m found x inside
    exact maps.keeps.above x (by omega)

theorem new_directory_space_kept (low : (getNewKernelMappedDir s).2.placeAddr.toNat ≤ KERNEL_MEM_END.toNat)
    (d : Word) (inUse : d ∈ s.history.directories) : SpaceKept s (getNewKernelMappedDir s).2 d := by
  have room := paged_invariant_room s held.holds
  have layout := held.holds.layout
  have process := held.process d inUse
  have new := (new_directory_result s layout room).2
  have size := new.place
  have outside := new_directory_outside s layout.aligned (by omega)
  have span := fun x => in_span_iff s.placeAddr 20480 x (by omega)
  generalize (getNewKernelMappedDir s).2 = after at new size outside low ⊢
  refine ⟨?_, fun page => ?_, fun page inSpace => ?_, fun page m found x inside => ?_⟩
  · rw [new.directories]
    exact List.mem_cons_of_mem _ inUse
  · unfold Paging.mapping
    rw [new.mappings]
  · have entry := new.entries d (Or.inr inUse) (page / 1024) (by omega)
    refine walk_same s after d page entry fun present => pte_kept s after d page entry fun x inside => ?_
    -- a table of `d` lies below the five pages that are taken
    have housed := layout.housed _ _ (Paging.Home.table d (page / 1024) (Or.inr inUse) (by omega) present)
    rw [in_span_iff _ 4096 x (by omega)] at inside
    exact outside x (by rw [span]; omega)
  · have above := process_frame_above s held.holds d process page m found x inside
    exact outside x (by rw [span]; omega)

theorem stored_space_kept (a : Word) (m : Mapping) (b : Byte) (d : Word) (inUse : d ∈ s.history.directories)
    (running : s.currentDir ∈ s.history.directories) (other : s.currentDir ≠ d)
    (found : s.mapping s.currentDir (a.toNat / 4096) = some m) : SpaceKept s (s.stored m a b) d := by
  have process := held.process d inUse
  have kept := stored_others s held.holds (held.process _ running) a m found b
  refine ⟨inUse, fun page => rfl, fun page inSpace => ?_, fun page m' inOwn => ?_⟩
  · exact walk_same s _ d page (kept.entries d (Or.inr inUse) process other.symm _ (by omega)) fun present =>
      kept.ptes d (Or.inr inUse) process other.symm page inSpace present
  · exact kept.bytes d process other.symm page m' inOwn

theorem store_own (a : Word) (b : Byte) (running : s.currentDir ∈ s.history.directories)
    (own : s.Own s.currentDir a) (returned : store8 s a b = some after) :
    ∃ m, s.mapping s.currentDir (a.toNat / 4096) = some m ∧ after = s.stored m a b := by
  cases found : s.mapping s.currentDir (a.toNat / 4096) with
  | some m =>
      rw [store_mapped s held.holds a m found b] at returned
      exact ⟨m, rfl, (Option.some.inj returned).symm⟩
  | none =>
      exfalso
      have behind := own.resolve_left fun mapped => mapped found
      have absent := held.unmapped _ running _ (by omega) behind found
      obtain ⟨place, translated, _⟩ := Option.map_eq_some_iff.mp returned
      rw [Paging.translate] at translated
      split at translated
      next walks =>
        rw [Paging.walk, if_pos walks] at absent
        simp at absent
      next => simp at translated

inductive PagedCase (s : Paging) : PagedEvent → Paging → Prop
  | newDirectory (low : (getNewKernelMappedDir s).2.placeAddr.toNat ≤ KERNEL_MEM_END.toNat) :
      PagedCase s (.call .getNewKernelMappedDir) (getNewKernelMappedDir s).2
  | allocPage (directory v isWriteable isKernel frame : Word) (after : Paging) (listed : s.Listed directory)
      (above : KERNEL_MEM_END.toNat ≤ v.toNat)
      (allocated : GargOS.allocPage s directory v isWriteable isKernel = some (frame, after))
      (low : after.placeAddr.toNat ≤ KERNEL_MEM_END.toNat) :
      PagedCase s (.call (.allocPage directory v isWriteable isKernel)) after
  | switch (dir : Word) (listed : s.Listed dir) : PagedCase s (.switch dir) (switchPageDirectory s dir)
  | store (a : Word) (b : Byte) (m : Mapping) (running : s.currentDir ∈ s.history.directories)
      (found : s.mapping s.currentDir (a.toNat / 4096) = some m) : PagedCase s (.store a b) (s.stored m a b)

theorem paged_cases (e : PagedEvent) (moved : pagedStep s e = some after) : PagedCase s e after := by
  unfold pagedStep at moved
  split at moved
  next allowed =>
    cases e with
    | call call =>
        obtain ⟨middle, returned, checked⟩ := Option.bind_eq_some_iff.mp moved
        split at checked
        next low =>
          obtain rfl := Option.some.inj checked
          cases call with
          | getNewKernelMappedDir =>
              obtain rfl := Option.some.inj returned
              exact PagedCase.newDirectory low
          | allocPage directory v isWriteable isKernel =>
              obtain ⟨frame, allocated⟩ := alloc_page_call s middle directory v isWriteable isKernel returned
              exact PagedCase.allocPage directory v isWriteable isKernel frame middle allowed.1 allowed.2
                allocated low
        next => simp at checked
    | switch dir =>
        obtain rfl := Option.some.inj moved
        exact PagedCase.switch dir allowed
    | store a b =>
        obtain ⟨m, found, rfl⟩ := store_own s after held a b allowed.1 allowed.2 moved
        exact PagedCase.store a b m allowed.1 found
  next => simp at moved

theorem move_besides_kept (e : PagedEvent) (d : Word) (inUse : d ∈ s.history.directories)
    (besides : ¬ MadeFor s d e) (moved : pagedStep s e = some after) : SpaceKept s after d := by
  cases paged_cases s after held e moved with
  | newDirectory low => exact new_directory_space_kept s held low d inUse
  | allocPage directory v isWriteable isKernel frame _ listed _ allocated low =>
      exact alloc_space_kept s after held directory v isWriteable isKernel frame d listed allocated low inUse
        besides
  | switch dir listed => exact ⟨inUse, fun _ => rfl, fun _ _ => rfl, fun _ _ _ _ _ => rfl⟩
  | store a b m running found => exact stored_space_kept s held a m b d inUse running besides found

theorem move_directories (e : PagedEvent) (moved : pagedStep s e = some after) (d : Word)
    (inUse : d ∈ after.history.directories) : d ∈ s.history.directories ∨
      d ≠ after.kernelDirectory ∧ ∀ page < 2 ^ 20, 4096 ≤ page → after.walk d page = none := by
  cases paged_cases s after held e moved with
  | newDirectory low =>
      have new := (new_directory_result s held.holds.layout (paged_invariant_room s held.holds)).2
      rw [new.directories] at inUse
      rcases List.mem_cons.mp inUse with rfl | earlier
      · refine Or.inr ⟨?_, fun page inSpace behind => walk_absent _ _ _ fun walks => ?_⟩
        · rw [new.kernelDirectory]
          exact fun same => new.fresh (Or.inl same)
        · have few := (new.own (page / 1024) (by omega)).1.mp walks.1
          omega
      · exact Or.inl earlier
  | allocPage directory v isWriteable isKernel frame _ listed _ allocated low =>
      have room := paged_invariant_room s held.holds
      obtain ⟨_, _, _, maps, _⟩ := alloc_page_result s held.holds.layout (by omega) directory v isWriteable
        isKernel listed frame after allocated
      rw [maps.keeps.roots.directories] at inUse
      exact Or.inl inUse
  | switch dir listed => exact Or.inl inUse
  | store a b m running found => exact Or.inl inUse

theorem made_for_unmapped (e : PagedEvent) (moved : pagedStep s e = some after) (d : Word)
    (inUse : d ∈ s.history.directories) (mine : MadeFor s d e) (page : Nat) (inSpace : page < 2 ^ 20)
    (behind : 4096 ≤ page) (absent : after.mapping d page = none) : after.walk d page = none := by
  cases paged_cases s after held e moved with
  | newDirectory low => exact absurd mine id
  | switch dir listed => exact absurd mine id
  | allocPage directory v isWriteable isKernel frame _ listed _ allocated low =>
      obtain rfl : directory = d := mine
      have room := paged_invariant_room s held.holds
      obtain ⟨_, _, _, maps, _⟩ := alloc_page_result s held.holds.layout (by omega) directory v isWriteable
        isKernel listed frame after allocated
      rw [Paging.mapping, maps.mappings, latest_cons] at absent
      split at absent
      next => simp at absent
      next other =>
        rw [maps_walk_other s after _ _ _ _ _ maps directory listed (Or.inl (held.process _ inUse)) page
          inSpace fun same => other same.symm]
        exact held.unmapped _ inUse page inSpace behind absent
  | store a b m running found =>
      obtain rfl : s.currentDir = d := mine
      have below := stored_below s held.holds (held.process _ running) a m found b
      have same := walk_same s (s.stored m a b) s.currentDir page
        (frames_entry s held.holds _ s.currentDir below _ (Or.inr inUse) _ (by omega)) fun present =>
          frames_pte s held.holds _ s.currentDir below _ (Or.inr inUse) page inSpace present
      rw [same]
      exact held.unmapped _ inUse page inSpace behind absent

theorem move_paged (e : PagedEvent) (moved : pagedStep s e = some after) :
    PagedInvariant after ∧ after.kernelDirectory = s.kernelDirectory := by
  have room := paged_invariant_room s held.holds
  cases paged_cases s after held e moved with
  | newDirectory low =>
      exact ⟨new_directory_kept s held.holds low,
        (new_directory_result s held.holds.layout room).2.kernelDirectory⟩
  | allocPage directory v isWriteable isKernel frame _ listed _ allocated low =>
      obtain ⟨_, _, _, maps, _⟩ := alloc_page_result s held.holds.layout (by omega) directory v isWriteable
        isKernel listed frame after allocated
      exact ⟨alloc_page_kept s after held.holds directory v isWriteable isKernel frame listed allocated low,
        maps.keeps.roots.kernelDirectory⟩
  | switch dir listed => exact ⟨frames_invariant s held.holds s.mem dir fun _ _ => rfl, rfl⟩
  | store a b m running found =>
      exact ⟨stored_invariant s held.holds (held.process _ running) a m found b, rfl⟩

theorem move_held (e : PagedEvent) (moved : pagedStep s e = some after) : SpacesHeld after := by
  obtain ⟨holds, root⟩ := move_paged s after held e moved
  have directories := move_directories s after held e moved
  refine ⟨holds, fun d inUse => ?_, fun d inUse page inSpace behind absent => ?_⟩
  · rcases directories d inUse with earlier | ⟨process, _⟩
    · rw [root]
      exact held.process d earlier
    · exact process
  · rcases directories d inUse with earlier | ⟨_, nothing⟩
    · by_cases mine : MadeFor s d e
      · exact made_for_unmapped s after held e moved d earlier mine page inSpace behind absent
      · have kept := move_besides_kept s after held e d earlier mine moved
        rw [kept.mappings] at absent
        rw [kept.walks page inSpace]
        exact held.unmapped d earlier page inSpace behind absent
    · exact nothing page inSpace behind

end Events

theorem booted_held (s : Paging) (booted : PagingBooted s) : SpacesHeld s := by
  obtain ⟨_, _, none⟩ := booted_identity s booted
  refine ⟨booted_invariant s booted, ?_, ?_⟩ <;> rw [none] <;> simp

theorem paged_run_held (s : Paging) (reached : Reached PagingBooted PagedMove s) : SpacesHeld s :=
  reached_invariant SpacesHeld booted_held (fun s after held ⟨e, moved⟩ => move_held s after held e moved) s
    reached

/-! What a process sees. -/

theorem load_walk (s : Paging) (d a : Word) : load8 (switchPageDirectory s d) a =
    (s.walk d (a.toNat / 4096)).map fun way => s.mem (pageOf way.2 + BitVec.ofNat 32 (a.toNat % 4096)) := by
  show ((switchPageDirectory s d).translate a).map s.mem = _
  by_cases walks : s.Walks d (a.toNat / 4096)
  · have here : (switchPageDirectory s d).Walks (switchPageDirectory s d).currentDir (a.toNat / 4096) := walks
    rw [Paging.translate, if_pos here, Paging.walk, if_pos walks]
    rfl
  · have here : ¬ (switchPageDirectory s d).Walks (switchPageDirectory s d).currentDir (a.toNat / 4096) := walks
    rw [Paging.translate, if_neg here, walk_absent s d _ walks]
    rfl

theorem own_load (s : Paging) (held : SpacesHeld s) (d : Word) (inUse : d ∈ s.history.directories) (a : Word)
    (own : s.Own d a) : (∃ m, s.mapping d (a.toNat / 4096) = some m ∧
        load8 (switchPageDirectory s d) a = some (s.mem (m.frame + BitVec.ofNat 32 (a.toNat % 4096)))) ∨
      s.mapping d (a.toNat / 4096) = none ∧ load8 (switchPageDirectory s d) a = none := by
  cases found : s.mapping d (a.toNat / 4096) with
  | some m =>
      have mapped := mapped_page s held.holds.toPagedRecords d _ m found
      refine Or.inl ⟨m, rfl, ?_⟩
      rw [load_walk, Paging.walk, if_pos mapped.walks, Option.map_some]
      have target : pageOf (s.pte d (a.toNat / 4096)) = m.frame := mapped.target
      rw [target]
  | none =>
      have behind := own.resolve_left fun mapped => mapped found
      refine Or.inr ⟨rfl, ?_⟩
      rw [load_walk, held.unmapped d inUse _ (by omega) behind found]
      rfl

theorem space_kept_load (s after : Paging) (held : SpacesHeld s) (later : SpacesHeld after) (d : Word)
    (inUse : d ∈ s.history.directories) (kept : SpaceKept s after d) (a : Word) (own : s.Own d a) :
    load8 (switchPageDirectory after d) a = load8 (switchPageDirectory s d) a := by
  have still : after.Own d a := by
    unfold Paging.Own
    rw [kept.mappings]
    exact own
  rcases own_load s held d inUse a own with ⟨m, found, shown⟩ | ⟨absent, faults⟩
  · rcases own_load after later d kept.listed a still with ⟨m', again, shownToo⟩ | ⟨absent, _⟩
    · rw [kept.mappings, found] at again
      obtain rfl := Option.some.inj again
      rw [shown, shownToo, kept.bytes _ m found _ (in_frame m.frame a)]
    · rw [kept.mappings, found] at absent
      simp at absent
  · rcases own_load after later d kept.listed a still with ⟨m', again, _⟩ | ⟨_, faultsToo⟩
    · rw [kept.mappings, absent] at again
      simp at again
    · rw [faults, faultsToo]

theorem space_kept_refl (s : Paging) (d : Word) (inUse : d ∈ s.history.directories) : SpaceKept s s d :=
  ⟨inUse, fun _ => rfl, fun _ _ => rfl, fun _ _ _ _ _ => rfl⟩

theorem space_kept_trans (s middle after : Paging) (d : Word) (first : SpaceKept s middle d)
    (second : SpaceKept middle after d) : SpaceKept s after d where
  listed := second.listed
  mappings page := (second.mappings page).trans (first.mappings page)
  walks page inSpace := (second.walks page inSpace).trans (first.walks page inSpace)
  bytes page m found x inside := by
    have same := first.bytes page m found x inside
    rw [← first.mappings] at found
    rw [second.bytes page m found x inside, same]

theorem besides_run_kept (s after : Paging) (held : SpacesHeld s) (d : Word)
    (inUse : d ∈ s.history.directories) (others : Leads (MoveBesides d) s after) :
    SpacesHeld after ∧ SpaceKept s after d := by
  induction others with
  | stay => exact ⟨held, space_kept_refl s d inUse⟩
  | next _ move ih =>
      obtain ⟨heldThere, kept⟩ := ih
      obtain ⟨e, besides, moved⟩ := move
      exact ⟨move_held _ _ heldThere e moved,
        space_kept_trans _ _ _ d kept (move_besides_kept _ _ heldThere e d kept.listed besides moved)⟩

/-- Whatever runs besides a process, the process finds the same pages with the
same flags, and in them the same bytes, and faults where it did. -/
theorem space_isolated (s after : Paging) (reached : Reached PagingBooted PagedMove s) (d : Word)
    (inUse : d ∈ s.history.directories) (others : Leads (MoveBesides d) s after) (a : Word) (own : s.Own d a) :
    after.walk d (a.toNat / 4096) = s.walk d (a.toNat / 4096) ∧
      load8 (switchPageDirectory after d) a = load8 (switchPageDirectory s d) a := by
  have held := paged_run_held s reached
  obtain ⟨later, kept⟩ := besides_run_kept s after held d inUse others
  exact ⟨kept.walks _ (by omega), space_kept_load s after held later d inUse kept a own⟩

/-! Two processes with a page each at the same address. -/

theorem paging_call_moves (s after : Paging) (call : PagingCall) (allowed : PagingAllowed s call)
    (returned : pagingCall s call = some after) (low : after.placeAddr.toNat ≤ KERNEL_MEM_END.toNat) :
    pagedStep s (.call call) = some after := by
  have permitted : PagedAllowed s (.call call) := allowed
  simp only [pagedStep, if_pos permitted, pagedEvent, returned, Option.bind_eq_bind, Option.bind_some,
    if_pos low]

theorem paging_step_moves (s after : Paging) (step : PagingStep s after) : PagedMove s after := by
  obtain ⟨call, allowed, returned, low⟩ := step
  exact ⟨.call call, paging_call_moves s after call allowed returned low⟩

theorem paging_run_moves (s : Paging) (reached : Reached PagingBooted PagingStep s) :
    Reached PagingBooted PagedMove s :=
  reached_mono (fun _ booted => booted) paging_step_moves s reached

structure TwoProcesses (s : Paging) (d e : Word) : Prop where
  reached : Reached PagingBooted PagedMove s
  inUse : d ∈ s.history.directories ∧ e ∈ s.history.directories
  different : e ≠ d
  running : s.currentDir = e
  first : s.mapping d 0x1000 = some ⟨d, 0x1000, KERNEL_MEM_END, 3#32⟩
  second : s.mapping e 0x1000 = some ⟨e, 0x1000, BitVec.ofNat 32 (4096 * 4081), 3#32⟩

theorem two_pages_running (s : Paging) (d e : Word) (pages : TwoPages s d e) :
    TwoProcesses (switchPageDirectory s e) d e ∧ pagedStep s (.switch e) = some (switchPageDirectory s e) := by
  have both : d ∈ s.history.directories ∧ e ∈ s.history.directories := by
    rw [pages.directories]
    exact ⟨List.mem_cons_of_mem _ List.mem_cons_self, List.mem_cons_self⟩
  have permitted : PagedAllowed s (.switch e) := Or.inr both.2
  have switched : pagedStep s (.switch e) = some (switchPageDirectory s e) := by
    rw [pagedStep, if_pos permitted, pagedEvent]
  exact ⟨⟨Reached.next (paging_run_moves s pages.reached) ⟨_, switched⟩, both, pages.different, rfl,
    (pages.first 0x1000).trans (if_pos rfl), (pages.second 0x1000).trans (if_pos rfl)⟩, switched⟩

theorem two_processes : ∃ s d e, TwoProcesses s d e := by
  obtain ⟨s, d, e, pages⟩ := two_pages
  exact ⟨_, d, e, (two_pages_running s d e pages).1⟩

theorem two_processes_store (s : Paging) (d e : Word) (two : TwoProcesses s d e) (b : Byte) :
    ∃ after, pagedStep s (.store 0x1000000#32 b) = some after ∧
      load8 (switchPageDirectory after e) 0x1000000#32 = some b := by
  have held := paged_run_held s two.reached
  have inUse := two.inUse
  have found := two.second
  rw [← two.running] at found inUse ⊢
  have permitted : PagedAllowed s (.store 0x1000000#32 b) := ⟨inUse.2, Or.inr (by decide)⟩
  have stored := store_mapped s held.holds 0x1000000#32 _ found b
  refine ⟨_, by rw [pagedStep, if_pos permitted]; exact stored, ?_⟩
  have invariant := stored_invariant s held.holds (held.process _ inUse.2) 0x1000000#32 _ found b
  obtain ⟨loaded, shown⟩ := view_mapped _ invariant _ 0x1000000#32 found
  rw [stored_view s held.holds 0x1000000#32 _ found b 0x1000000#32 _ found invariant, write, if_pos rfl] at loaded
  exact loaded

theorem space_isolated_two : ∃ s d e after, TwoProcesses s d e ∧ pagedStep s (.store 0x1000000#32 7#8) = some after ∧
    load8 (switchPageDirectory after e) 0x1000000#32 = some 7#8 ∧
    after.walk d 0x1000 = s.walk d 0x1000 ∧
    load8 (switchPageDirectory after d) 0x1000000#32 = load8 (switchPageDirectory s d) 0x1000000#32 := by
  obtain ⟨s, d, e, two⟩ := two_processes
  obtain ⟨after, stored, shown⟩ := two_processes_store s d e two 7#8
  have besides : MoveBesides d s after :=
    ⟨.store 0x1000000#32 7#8, fun same => two.different (two.running.symm.trans same), stored⟩
  exact ⟨s, d, e, after, two, stored, shown, space_isolated s after two.reached d two.inUse.1
    (Leads.next Leads.stay besides) 0x1000000#32 (Or.inr (by decide))⟩

end GargOS
