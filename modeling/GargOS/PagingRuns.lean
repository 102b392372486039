import GargOS.PagingDirectories
import GargOS.Lib.Ledger
import GargOS.Lib.Runs

/-!
Runs of `get_new_kernel_mapped_dir` and `alloc_page` after `init_paging`: no
frame is given twice, and two pages that `alloc_page` mapped have different
frames. `PagingStep` keeps to the pages above the kernel's half; `AnyPagingStep`
does not, and only `HalfStep` between them, in KernelHalf, is about the walk.
-/

namespace GargOS
open ByteMemory Pages Ledger Runs

inductive PagingCall
  | getNewKernelMappedDir
  | allocPage (directory vaddr isWriteable isKernel : Word)

def pagingCall (s : Paging) : PagingCall → Option Paging
  | .getNewKernelMappedDir => some (getNewKernelMappedDir s).2
  | .allocPage directory vaddr isWriteable isKernel => do
      let (_, s) ← allocPage s directory vaddr isWriteable isKernel
      some s

def PagingAllowed (s : Paging) : PagingCall → Prop
  | .getNewKernelMappedDir => True
  | .allocPage directory vaddr _ _ => s.Listed directory ∧ KERNEL_MEM_END.toNat ≤ vaddr.toNat

def PagingStep (s after : Paging) : Prop :=
  ∃ call, PagingAllowed s call ∧ pagingCall s call = some after ∧
    after.placeAddr.toNat ≤ KERNEL_MEM_END.toNat

/-- The state `init_paging` leaves, with what it mapped as the history. -/
def PagingBooted (s : Paging) : Prop :=
  ∃ start, start.history = ⟨[], [], []⟩ ∧ start.placeAddr.toNat ≤ KERNEL_MEM_END.toNat ∧
    initPaging start = some s ∧ s.placeAddr.toNat ≤ KERNEL_MEM_END.toNat

def Mapping.key (m : Mapping) : Word × Nat := (m.directory, m.page)

/-- The last mapping of a page, that is the one its entry was written for. -/
def Paging.mapping (s : Paging) (d : Word) (page : Nat) : Option Mapping :=
  latest s.history.mappings Mapping.key (d, page)

def Paging.target (s : Paging) (d : Word) (page : Nat) : Word := pageOf (s.pte d page)

structure Recorded (s : Paging) (m : Mapping) : Prop where
  listed : s.Listed m.directory
  inSpace : m.page < 2 ^ 20
  frame : ∃ n < 2 ^ 20, m.frame = BitVec.ofNat 32 (4096 * n)
  flags : m.flags.toNat < 4096 ∧ Present m.flags
  process : m.frame.toNat < KERNEL_MEM_END.toNat → m.directory = s.kernelDirectory

/-- The walk of the page ends at the entry that was written for the mapping. -/
structure Entered (s : Paging) (m : Mapping) : Prop where
  listed : s.Listed m.directory
  inSpace : m.page < 2 ^ 20
  frame : ∃ n < 2 ^ 20, m.frame = BitVec.ofNat 32 (4096 * n)
  flags : m.flags.toNat < 4096 ∧ Present m.flags
  present : Present (s.entry m.directory (m.page / 1024))
  pte : s.pte m.directory m.page = m.frame ||| m.flags

/-- The frames the history names are those whose bits are set, each named once,
and the entries of the pages are those last written for them. -/
structure PagedRecords (s : Paging) : Prop where
  layout : Layout s
  recorded : ∀ m ∈ s.history.mappings, Recorded s m
  once : (s.history.mappings.map Mapping.frame).Nodup
  bits : ∀ n < 2 ^ 20, (s.bit n = true ↔
    ∃ m ∈ s.history.mappings, m.frame = BitVec.ofNat 32 (4096 * n))
  current : ∀ d page m, s.mapping d page = some m →
    Present (s.entry d (page / 1024)) ∧ s.pte d page = m.frame ||| m.flags
  kernel : ∀ n < kernelPages, s.bit n = true

structure PagedInvariant (s : Paging) : Prop extends PagedRecords s where
  low : s.placeAddr.toNat ≤ KERNEL_MEM_END.toNat

structure Exclusive (s : Paging) : Prop where
  reserved : ∀ m ∈ s.history.mappings, isFrameSet s m.frame = true
  once : (s.history.mappings.map Mapping.frame).Nodup
  apart : ∀ d page d' page' m m', s.mapping d page = some m → s.mapping d' page' = some m' →
    (d, page) ≠ (d', page') → s.target d page ≠ s.target d' page'

/-- What the next `alloc_page` returns. -/
def AllocatesFresh (s : Paging) : Prop :=
  ∀ directory vaddr isWriteable isKernel frame after, s.Listed directory →
    allocPage s directory vaddr isWriteable isKernel = some (frame, after) →
    IsPage frame ∧ KERNEL_MEM_END.toNat ≤ frame.toNat ∧
      frame ∉ s.history.mappings.map Mapping.frame ∧
      s.history.mappings = after.history.mappings.tail ∧
      ∃ m, after.history.mappings.head? = some m ∧ m.frame = frame ∧ m.directory = directory ∧
        m.page = vaddr.toNat / 4096

theorem kernel_mem_end : KERNEL_MEM_END.toNat = 4096 * kernelPages := rfl

section Entries
variable (s after : Paging)

theorem maps_mapping (d v isWriteable isKernel : Word) (n : Nat) (maps : Maps s after d v n isWriteable isKernel) :
    after.mapping d (v.toNat / 4096) =
      some ⟨d, v.toNat / 4096, BitVec.ofNat 32 (4096 * n), pageFlags isWriteable isKernel⟩ := by
  rw [Paging.mapping, maps.mappings, latest_cons]
  exact if_pos rfl

theorem entered_mapped (m : Mapping) (entered : Entered s m) : Present (s.pte m.directory m.page) := by
  obtain ⟨n, bound, frame⟩ := entered.frame
  rw [entered.pte, present_flagged _ _ (frame ▸ frame_is_page n bound)]
  exact entered.flags.2

theorem entered_kept (m : Mapping) (entered : Entered s m) (listed : after.Listed m.directory)
    (entry : after.entry m.directory (m.page / 1024) = s.entry m.directory (m.page / 1024))
    (pte : after.pte m.directory m.page = s.pte m.directory m.page) : Entered after m :=
  ⟨listed, entered.inSpace, entered.frame, entered.flags, entry ▸ entered.present, pte.trans entered.pte⟩

variable (before : ∀ d page m, s.mapping d page = some m → Entered s m)
include before

/-- The entry of another page stays, also where it shares the table with the new one. -/
theorem maps_entered (d v isWriteable isKernel : Word) (n : Nat) (bound : n < 2 ^ 20) (listed : s.Listed d)
    (maps : Maps s after d v n isWriteable isKernel) (d' : Word) (page : Nat) (m : Mapping)
    (found : after.mapping d' page = some m) : Entered after m := by
  have flags := table_flags_small isWriteable isKernel
  rw [flags.2.1] at flags
  have stillListed := fun d => (listed_same s after maps.keeps.roots d).mpr
  unfold Paging.mapping at found
  rw [maps.mappings, latest_cons] at found
  split at found
  next here =>
    obtain ⟨rfl, rfl⟩ := Prod.mk.inj here
    obtain rfl := Option.some.inj found
    exact ⟨stillListed d listed, by dsimp only; omega, ⟨n, bound, rfl⟩, ⟨flags.1, flags.2.2⟩,
      maps.present, maps.pte⟩
  next other =>
    have entered := before d' page m found
    obtain ⟨_, key⟩ := latest_mem _ _ _ _ found
    obtain ⟨rfl, rfl⟩ := Prod.mk.inj key
    have inSpace := entered.inSpace
    refine entered_kept s after m entered (stillListed _ entered.listed)
      (maps.keeps.entries _ entered.listed _ (by omega) entered.present)
      (maps.keeps.ptes _ entered.listed _ inSpace entered.present (Or.inl (entered_mapped s m entered))
        fun same => other ?_)
    exact Option.some.inj same

theorem new_directory_entered (layout : Layout s) (room : s.placeAddr.toNat + 131072 ≤ 2 ^ 31) (d : Word)
    (page : Nat) (m : Mapping) (found : (getNewKernelMappedDir s).2.mapping d page = some m) :
    Entered (getNewKernelMappedDir s).2 m := by
  have new := (new_directory_result s layout room).2
  unfold Paging.mapping at found
  rw [new.mappings] at found
  have entered := before d page m found
  have inSpace := entered.inSpace
  refine entered_kept s _ m entered ?_ (new.entries _ entered.listed _ (by omega))
    (new.ptes _ entered.listed _ inSpace entered.present (entered_mapped s m entered))
  have listed := entered.listed
  unfold Paging.Listed at *
  rw [new.kernelDirectory, new.directories]
  exact listed.imp_right (List.mem_cons_of_mem _)

end Entries

theorem records_entered (s : Paging) (holds : PagedRecords s) (d : Word) (page : Nat) (m : Mapping)
    (found : s.mapping d page = some m) : Entered s m := by
  obtain ⟨present, pte⟩ := holds.current d page m found
  obtain ⟨member, key⟩ := latest_mem _ _ _ _ found
  obtain ⟨rfl, rfl⟩ := Prod.mk.inj key
  have recorded := holds.recorded m member
  exact ⟨recorded.listed, recorded.inSpace, recorded.frame, recorded.flags, present, pte⟩

theorem entered_current (s : Paging) (entered : ∀ d page m, s.mapping d page = some m → Entered s m)
    (d : Word) (page : Nat) (m : Mapping) (found : s.mapping d page = some m) :
    Present (s.entry d (page / 1024)) ∧ s.pte d page = m.frame ||| m.flags := by
  have here := entered d page m found
  obtain ⟨_, key⟩ := latest_mem _ _ _ _ found
  obtain ⟨rfl, rfl⟩ := Prod.mk.inj key
  exact ⟨here.present, here.pte⟩

section Kept
variable (s after : Paging) (holds : PagedRecords s)
include holds

structure MappedPage (s : Paging) (d : Word) (page : Nat) (m : Mapping) : Prop where
  listed : s.Listed d
  inSpace : page < 2 ^ 20
  walks : s.Walks d page
  frame : ∃ n < 2 ^ 20, m.frame = BitVec.ofNat 32 (4096 * n)
  isPage : IsPage m.frame
  target : s.target d page = m.frame
  writeable : s.pte d page &&& 2#32 = m.flags &&& 2#32

theorem mapped_page (d : Word) (page : Nat) (m : Mapping) (found : s.mapping d page = some m) :
    MappedPage s d page m := by
  have entered := records_entered s holds d page m found
  obtain ⟨_, key⟩ := latest_mem _ _ _ _ found
  obtain ⟨rfl, rfl⟩ := Prod.mk.inj key
  obtain ⟨n, bound, frame⟩ := entered.frame
  have isPage : IsPage m.frame := frame ▸ frame_is_page n bound
  refine ⟨entered.listed, entered.inSpace, ⟨entered.present, entered_mapped s m entered⟩,
    ⟨n, bound, frame⟩, isPage, ?_, ?_⟩
  · rw [Paging.target, entered.pte, page_of_flagged _ _ isPage entered.flags.1]
  · rw [entered.pte, flagged_and _ _ _ isPage (by decide)]

theorem paged_records_exclusive : Exclusive s := by
  have target := fun d page m found => (mapped_page s holds d page m found).target
  refine ⟨fun m member => ?_, holds.once, ?_⟩
  · obtain ⟨n, bound, frame⟩ := (holds.recorded m member).frame
    rw [frame, is_frame_set_bit s n bound]
    exact (holds.bits n bound).mpr ⟨m, member, frame⟩
  · intro d page d' page' m m' first second different
    rw [target d page m first, target d' page' m' second]
    exact latest_apart _ _ Mapping.frame holds.once _ _ m m' first second different

theorem first_free_fresh (n : Nat) (first : FirstFree s n) :
    kernelPages ≤ n ∧ BitVec.ofNat 32 (4096 * n) ∉ s.history.mappings.map Mapping.frame := by
  constructor
  · by_contra below
    have set := holds.kernel n (by omega)
    rw [first.2.1] at set
    simp at set
  · intro given
    obtain ⟨m, member, frame⟩ := List.mem_map.mp given
    have set := (holds.bits n first.1).mpr ⟨m, member, frame⟩
    rw [first.2.1] at set
    simp at set

theorem paged_records_fresh (room : s.placeAddr.toNat + 8192 ≤ 2 ^ 31) : AllocatesFresh s := by
  intro directory vaddr isWriteable isKernel frame after listed returned
  have limit := kernel_mem_end
  have pages : kernelPages = 4080 := rfl
  obtain ⟨n, first, rfl, maps, _⟩ := alloc_page_result s holds.layout room directory vaddr
    isWriteable isKernel listed frame after returned
  obtain ⟨above, fresh⟩ := first_free_fresh s holds n first
  have value := frame_toNat n first.1
  refine ⟨frame_is_page n first.1, by omega, fresh, ?_, ?_⟩
  · rw [maps.mappings, List.tail_cons]
  · rw [maps.mappings]
    exact ⟨_, rfl, rfl, rfl, rfl⟩

theorem alloc_page_records (room : s.placeAddr.toNat + 8192 ≤ 2 ^ 31)
    (directory vaddr isWriteable isKernel frame : Word) (listed : s.Listed directory)
    (returned : allocPage s directory vaddr isWriteable isKernel = some (frame, after)) :
    PagedRecords after := by
  have limit := kernel_mem_end
  have pages : kernelPages = 4080 := rfl
  obtain ⟨n, first, rfl, maps, _⟩ := alloc_page_result s holds.layout room directory vaddr
    isWriteable isKernel listed frame after returned
  obtain ⟨above, fresh⟩ := first_free_fresh s holds n first
  have value := frame_toNat n first.1
  have keeps := maps.keeps
  have flags := table_flags_small isWriteable isKernel
  rw [flags.2.1] at flags
  have stillListed : ∀ d, s.Listed d → after.Listed d := fun d =>
    (listed_same s after keeps.roots d).mpr
  refine ⟨keeps.layout, ?_, ?_, ?_, ?_, ?_⟩
  · rw [maps.mappings]
    intro m member
    rcases List.mem_cons.mp member with rfl | earlier
    · refine ⟨stillListed _ listed, by dsimp only; omega, ⟨n, first.1, rfl⟩, ⟨flags.1, flags.2.2⟩, ?_⟩
      intro below
      dsimp only at below
      omega
    · have recorded := holds.recorded m earlier
      exact ⟨stillListed _ recorded.listed, recorded.inSpace, recorded.frame, recorded.flags,
        fun below => (recorded.process below).trans keeps.roots.kernelDirectory.symm⟩
  · rw [maps.mappings, List.map_cons, List.nodup_cons]
    exact ⟨fresh, holds.once⟩
  · intro k bound
    -- the one bit that is set is that of the frame in the new mapping
    rw [maps.bits k bound, maps.mappings, Bool.or_eq_true, decide_eq_true_eq, holds.bits k bound]
    simp only [List.mem_cons, exists_eq_or_imp]
    rw [or_comm]
    refine or_congr ?_ Iff.rfl
    constructor
    · rintro rfl
      rfl
    · intro same
      have number := congrArg BitVec.toNat same
      rw [value, frame_toNat k bound] at number
      omega
  · exact entered_current after (maps_entered s after (records_entered s holds) directory vaddr isWriteable
      isKernel n first.1 listed maps)
  · intro k below
    rw [maps.bits k (by omega), holds.kernel k below]
    rfl

theorem new_directory_records (room : s.placeAddr.toNat + 131072 ≤ 2 ^ 31) :
    PagedRecords (getNewKernelMappedDir s).2 := by
  have pages : kernelPages = 4080 := rfl
  have new := (new_directory_result s holds.layout room).2
  have entered := new_directory_entered s (records_entered s holds) holds.layout room
  generalize (getNewKernelMappedDir s).2 = after at new entered ⊢
  have stillListed : ∀ d, s.Listed d → after.Listed d := by
    intro d listed
    unfold Paging.Listed at *
    rw [new.kernelDirectory, new.directories]
    exact listed.imp_right (List.mem_cons_of_mem _)
  refine ⟨new.layout, ?_, ?_, ?_, ?_, ?_⟩
  · rw [new.mappings]
    intro m member
    have recorded := holds.recorded m member
    exact ⟨stillListed _ recorded.listed, recorded.inSpace, recorded.frame, recorded.flags,
      fun below => (recorded.process below).trans new.kernelDirectory.symm⟩
  · rw [new.mappings]
    exact holds.once
  · intro k bound
    rw [new.bits k bound, new.mappings]
    exact holds.bits k bound
  · exact entered_current _ entered
  · intro k below
    rw [new.bits k (by omega)]
    exact holds.kernel k below

end Kept

section Invariant
variable (s after : Paging) (holds : PagedInvariant s)
include holds

theorem paged_invariant_room : s.placeAddr.toNat + 131072 ≤ 2 ^ 31 := by
  have limit := kernel_mem_end
  have pages : kernelPages = 4080 := rfl
  have low := holds.low
  omega

theorem paged_invariant_exclusive : Exclusive s := paged_records_exclusive s holds.toPagedRecords

theorem paged_invariant_fresh : AllocatesFresh s :=
  paged_records_fresh s holds.toPagedRecords (by have room := paged_invariant_room s holds; omega)

theorem alloc_page_kept (directory vaddr isWriteable isKernel frame : Word)
    (listed : s.Listed directory)
    (returned : allocPage s directory vaddr isWriteable isKernel = some (frame, after))
    (low : after.placeAddr.toNat ≤ KERNEL_MEM_END.toNat) : PagedInvariant after := by
  have room := paged_invariant_room s holds
  exact ⟨alloc_page_records s after holds.toPagedRecords (by omega) directory vaddr isWriteable isKernel frame
    listed returned, low⟩

theorem new_directory_kept (low : (getNewKernelMappedDir s).2.placeAddr.toNat ≤ KERNEL_MEM_END.toNat) :
    PagedInvariant (getNewKernelMappedDir s).2 :=
  ⟨new_directory_records s holds.toPagedRecords (paged_invariant_room s holds), low⟩

end Invariant

/-! The start of a run. -/

theorem identity_mappings_mem (d : Word) (n : Nat) (m : Mapping) :
    m ∈ identityMappings d n ↔ ∃ k < n, m = ⟨d, k, BitVec.ofNat 32 (4096 * k), 0x3#32⟩ := by
  induction n with
  | zero => simp [identityMappings]
  | succ n ih =>
      rw [identityMappings, List.mem_cons, ih]
      constructor
      · rintro (rfl | ⟨k, less, same⟩)
        · exact ⟨n, Nat.lt_succ_self n, rfl⟩
        · exact ⟨k, by omega, same⟩
      · rintro ⟨k, less, same⟩
        rcases Nat.lt_succ_iff_lt_or_eq.mp less with earlier | rfl
        · exact Or.inr ⟨k, earlier, same⟩
        · exact Or.inl same

theorem identity_mappings_once (d : Word) (n : Nat) (bound : n ≤ 2 ^ 20) :
    ((identityMappings d n).map Mapping.frame).Nodup := by
  induction n with
  | zero => simp [identityMappings]
  | succ n ih =>
      rw [identityMappings, List.map_cons, List.nodup_cons]
      refine ⟨fun given => ?_, ih (by omega)⟩
      obtain ⟨m, member, frame⟩ := List.mem_map.mp given
      obtain ⟨k, less, rfl⟩ := (identity_mappings_mem d n m).mp member
      have number := congrArg BitVec.toNat frame
      rw [frame_toNat k (by omega), frame_toNat n (by omega)] at number
      omega

theorem identity_invariant (base s : Paging) (identity : Identity base s kernelPages)
    (low : s.placeAddr.toNat ≤ KERNEL_MEM_END.toNat) : PagedInvariant s := by
  have limit := kernel_mem_end
  have pages : kernelPages = 4080 := rfl
  refine ⟨⟨identity.layout, ?_, ?_, ?_, ?_, ?_⟩, low⟩
  · rw [identity.mappings]
    intro m member
    obtain ⟨k, less, rfl⟩ := (identity_mappings_mem _ _ m).mp member
    have flags : (0x3#32).toNat < 4096 ∧ Present 0x3#32 := by decide
    exact ⟨Or.inl rfl, by dsimp only; omega, ⟨k, by omega, rfl⟩, flags, fun _ => rfl⟩
  · rw [identity.mappings]
    exact identity_mappings_once _ _ (by omega)
  · intro n bound
    rw [identity.bits n bound, decide_eq_true_eq, identity.mappings]
    constructor
    · intro less
      exact ⟨_, (identity_mappings_mem _ _ _).mpr ⟨n, less, rfl⟩, rfl⟩
    · rintro ⟨m, member, frame⟩
      obtain ⟨k, less, rfl⟩ := (identity_mappings_mem _ _ m).mp member
      have number := congrArg BitVec.toNat frame
      rw [frame_toNat k (by omega), frame_toNat n bound] at number
      omega
  · intro d page m found
    obtain ⟨member, key⟩ := latest_mem _ _ _ _ found
    rw [identity.mappings] at member
    obtain ⟨k, less, rfl⟩ := (identity_mappings_mem _ _ m).mp member
    obtain ⟨rfl, rfl⟩ := Prod.mk.inj key
    exact ⟨(identity.entries _ (by dsimp only; omega)).mpr (tables_earlier kernelPages k less),
      identity.ptes k less⟩
  · intro n less
    rw [identity.bits n (by omega)]
    exact decide_eq_true less

theorem init_paging_booted (start : Paging) (low : start.placeAddr.toNat + 155648 ≤ KERNEL_MEM_END.toNat)
    (empty : start.history = ⟨[], [], []⟩) :
    ∃ s, PagingBooted s ∧ s.placeAddr.toNat ≤ start.placeAddr.toNat + 155648 ∧
      s.history.directories = [] ∧ (∀ n < 2 ^ 20, s.bit n = decide (n < kernelPages)) ∧
      s.currentDir = s.kernelDirectory ∧ ∀ m ∈ s.history.mappings, m.directory = s.kernelDirectory := by
  obtain ⟨base, s, done, identity, nothing, current, place⟩ := init_paging_result start (by omega) empty
  have size := identity.place
  have four : tablesFor kernelPages = 4 := rfl
  rw [four] at size
  refine ⟨s, ⟨start, empty, by omega, done, by omega⟩, by omega, ?_, identity.bits, current, ?_⟩
  · rw [identity.roots.directories, nothing]
  · rw [identity.mappings]
    intro m member
    obtain ⟨k, _, rfl⟩ := (identity_mappings_mem _ _ m).mp member
    rfl

theorem booted_identity (s : Paging) (booted : PagingBooted s) :
    ∃ base, Identity base s kernelPages ∧ s.history.directories = [] := by
  obtain ⟨start, empty, low, done, _⟩ := booted
  obtain ⟨base, s', again, identity, nothing, _⟩ := init_paging_result start low empty
  rw [again] at done
  obtain rfl := Option.some.inj done
  exact ⟨base, identity, identity.roots.directories.trans nothing⟩

theorem booted_invariant (s : Paging) (booted : PagingBooted s) : PagedInvariant s := by
  obtain ⟨base, identity, _⟩ := booted_identity s booted
  obtain ⟨_, _, _, _, high⟩ := booted
  exact identity_invariant base s identity high

theorem alloc_page_call (s after : Paging) (directory vaddr isWriteable isKernel : Word)
    (returned : pagingCall s (.allocPage directory vaddr isWriteable isKernel) = some after) :
    ∃ frame, allocPage s directory vaddr isWriteable isKernel = some (frame, after) := by
  obtain ⟨⟨frame, space⟩, allocated, same⟩ := Option.bind_eq_some_iff.mp returned
  obtain rfl := Option.some.inj same
  exact ⟨frame, allocated⟩

theorem paging_step_kept (s after : Paging) (holds : PagedInvariant s) (step : PagingStep s after) :
    PagedInvariant after ∧ ∀ m ∈ s.history.mappings, m ∈ after.history.mappings := by
  obtain ⟨call, allowed, returned, low⟩ := step
  cases call with
  | getNewKernelMappedDir =>
      obtain rfl := Option.some.inj returned
      have new := (new_directory_result s holds.layout (paged_invariant_room s holds)).2
      exact ⟨new_directory_kept s holds low, fun m member => new.mappings ▸ member⟩
  | allocPage directory vaddr isWriteable isKernel =>
      obtain ⟨frame, allocated⟩ := alloc_page_call s after directory vaddr isWriteable isKernel returned
      refine ⟨alloc_page_kept s after holds directory vaddr isWriteable isKernel frame allowed.1
        allocated low, fun m member => ?_⟩
      have fresh := paged_invariant_fresh s holds directory vaddr isWriteable isKernel frame after
        allowed.1 allocated
      rw [fresh.2.2.2.1] at member
      exact List.mem_of_mem_tail member

theorem paging_invariant (s : Paging) (reached : Reached PagingBooted PagingStep s) :
    PagedInvariant s :=
  reached_invariant PagedInvariant booted_invariant
    (fun s after holds step => (paging_step_kept s after holds step).1) s reached

/-- A directory of a process has tables for the kernel's half and for the pages
that `alloc_page` mapped in it. -/
structure TablesTraced (s : Paging) : Prop where
  process : ∀ d ∈ s.history.directories, d ≠ s.kernelDirectory
  traced : ∀ d ∈ s.history.directories, ∀ t < 1024, Present (s.entry d t) → t < 4 ∨
    ∃ m ∈ s.history.mappings, m.directory = d ∧ m.page / 1024 = t

theorem booted_traced (s : Paging) (booted : PagingBooted s) : TablesTraced s := by
  obtain ⟨_, _, none⟩ := booted_identity s booted
  exact ⟨by rw [none]; simp, by rw [none]; simp⟩

theorem paging_step_traced (s after : Paging) (holds : PagedInvariant s) (traces : TablesTraced s)
    (step : PagingStep s after) : TablesTraced after := by
  have room := paged_invariant_room s holds
  obtain ⟨call, allowed, returned, low⟩ := step
  cases call with
  | getNewKernelMappedDir =>
      obtain rfl := Option.some.inj returned
      have new := (new_directory_result s holds.layout room).2
      constructor
      · rw [new.directories, new.kernelDirectory]
        intro d member
        rcases List.mem_cons.mp member with rfl | earlier
        · exact fun same => new.fresh (Or.inl same)
        · exact traces.process d earlier
      · rw [new.directories, new.mappings]
        intro d member t bound present
        rcases List.mem_cons.mp member with rfl | earlier
        · exact Or.inl ((new.own t bound).1.mp present)
        · rw [new.entries d (Or.inr earlier) t bound] at present
          exact traces.traced d earlier t bound present
  | allocPage directory vaddr isWriteable isKernel =>
      obtain ⟨frame, allocated⟩ := alloc_page_call s after directory vaddr isWriteable isKernel returned
      obtain ⟨n, _, _, maps, _⟩ := alloc_page_result s holds.layout (by omega) directory vaddr isWriteable
        isKernel allowed.1 frame after allocated
      have roots := maps.keeps.roots
      constructor
      · rw [roots.directories, roots.kernelDirectory]
        exact traces.process
      · rw [roots.directories, maps.mappings]
        intro d member t bound present
        by_cases here : d = directory ∧ t = vaddr.toNat / 4096 / 1024
        · obtain ⟨rfl, rfl⟩ := here
          exact Or.inr ⟨_, List.mem_cons_self, rfl, rfl⟩
        · rw [maps.entries d (Or.inr member) (Or.inl (traces.process d member)) t bound here] at present
          refine (traces.traced d member t bound present).imp_right ?_
          rintro ⟨m, earlier, place⟩
          exact ⟨m, List.mem_cons_of_mem _ earlier, place⟩

theorem paging_traced (s : Paging) (reached : Reached PagingBooted PagingStep s) :
    PagedInvariant s ∧ TablesTraced s := by
  apply reached_invariant (fun s => PagedInvariant s ∧ TablesTraced s) _ _ s reached
  · exact fun s booted => ⟨booted_invariant s booted, booted_traced s booted⟩
  · exact fun s after holds step =>
      ⟨(paging_step_kept s after holds.1 step).1, paging_step_traced s after holds.1 holds.2 step⟩

/-- `alloc_page` is called on directories that exist, for any page. -/
def PagingListed (s : Paging) : PagingCall → Prop
  | .getNewKernelMappedDir => True
  | .allocPage directory _ _ _ => s.Listed directory

/-- Any call while `place_addr` is far from the end of memory. -/
def AnyPagingStep (s after : Paging) : Prop :=
  ∃ call, PagingListed s call ∧ pagingCall s call = some after ∧ s.placeAddr.toNat + 131072 ≤ 2 ^ 31

theorem any_step_records (s after : Paging) (holds : PagedRecords s) (step : AnyPagingStep s after) :
    PagedRecords after := by
  obtain ⟨call, listed, returned, room⟩ := step
  cases call with
  | getNewKernelMappedDir =>
      obtain rfl := Option.some.inj returned
      exact new_directory_records s holds room
  | allocPage directory vaddr isWriteable isKernel =>
      obtain ⟨frame, allocated⟩ := alloc_page_call s after directory vaddr isWriteable isKernel returned
      exact alloc_page_records s after holds (by omega) directory vaddr isWriteable isKernel frame
        listed allocated

theorem any_run_records (s : Paging) (reached : Reached PagingBooted AnyPagingStep s) : PagedRecords s :=
  reached_invariant PagedRecords (fun s booted => (booted_invariant s booted).toPagedRecords)
    any_step_records s reached

/-- Every frame `alloc_page` returns is fresh and reserved from then on, and
pages it mapped have different frames. -/
theorem frame_exclusive (s : Paging) (reached : Reached PagingBooted PagingStep s) :
    Exclusive s ∧ AllocatesFresh s ∧ ∀ after, Leads PagingStep s after →
      ∀ m ∈ s.history.mappings, m ∈ after.history.mappings ∧ isFrameSet after m.frame = true := by
  have holds := paging_invariant s reached
  refine ⟨paged_invariant_exclusive s holds, paged_invariant_fresh s holds, ?_⟩
  intro after leads m member
  have still : ∀ m ∈ s.history.mappings, m ∈ after.history.mappings := by
    apply leads_kept (fun s after : Paging => ∀ m ∈ s.history.mappings, m ∈ after.history.mappings)
      (fun _ _ here => here) ?_ s after reached leads
    intro s middle after onWay earlier step m member
    exact (paging_step_kept middle after (paging_invariant middle onWay) step).2 m (earlier m member)
  have later := paging_invariant after (reached_leads s after reached leads)
  exact ⟨still m member, (paged_invariant_exclusive after later).reserved m (still m member)⟩

def bootPaging : Paging := ⟨fun _ => 0#8, 0xF0000#32, 0#32, 0#32, 0#32, ⟨[], [], []⟩⟩

/-- A machine with the directory of one process, where the next frame is the
first one behind the kernel's. -/
structure OneProcess (s : Paging) (d : Word) : Prop where
  booted : ∃ boot, PagingBooted boot ∧ (getNewKernelMappedDir boot).2 = s
  reached : Reached PagingBooted PagingStep s
  directories : s.history.directories = [d]
  other : d ≠ s.kernelDirectory
  tables : ∀ t < 1024, (Present (s.entry d t) ↔ t < 4) ∧
    (Present (s.entry d t) → s.entry d t &&& 2#32 ≠ 0#32)
  bits : ∀ n < 2 ^ 20, s.bit n = decide (n < kernelPages)
  unmapped : ∀ page, s.mapping d page = none
  place : s.placeAddr.toNat ≤ 0x200000

theorem one_process : ∃ s d, OneProcess s d := by
  have limit := kernel_mem_end
  have pages : kernelPages = 4080 := rfl
  obtain ⟨s, booted, place, nothing, bits, _, kernels⟩ := init_paging_booted bootPaging (by decide) rfl
  have first : bootPaging.placeAddr.toNat = 0xF0000 := rfl
  have holds := booted_invariant s booted
  have new := (new_directory_result s holds.layout (by omega)).2
  have size := new.place
  have step : PagingStep s (getNewKernelMappedDir s).2 :=
    ⟨PagingCall.getNewKernelMappedDir, trivial, rfl, by omega⟩
  refine ⟨_, s.placeAddr, ⟨s, booted, rfl⟩, Reached.next (Reached.start booted) step, ?_, ?_, new.own, ?_,
    fun page => ?_, by omega⟩
  · rw [new.directories, nothing]
  · rw [new.kernelDirectory]
    exact fun same => new.fresh (Or.inl same)
  · intro n bound
    rw [new.bits n bound, bits n bound]
  · unfold Paging.mapping
    rw [new.mappings]
    refine Option.eq_none_iff_forall_ne_some.mpr fun m found => ?_
    obtain ⟨member, key⟩ := latest_mem _ _ _ _ found
    have owner := kernels m member
    rw [(Prod.mk.inj key).1] at owner
    exact new.fresh (Or.inl owner)

theorem one_process_free (s : Paging) (d : Word) (process : OneProcess s d) :
    s.Listed d ∧ FirstFree s kernelPages := by
  have pages : kernelPages = 4080 := rfl
  refine ⟨?_, by omega, ?_, fun k less => ?_⟩
  · unfold Paging.Listed
    rw [process.directories]
    exact Or.inr List.mem_cons_self
  · rw [process.bits _ (by omega)]
    simp
  · rw [process.bits k (by omega)]
    exact decide_eq_true less

theorem one_page (s : Paging) (d : Word) (process : OneProcess s d) (vaddr isWriteable : Word)
    (above : KERNEL_MEM_END.toNat ≤ vaddr.toNat) :
    ∃ after, allocPage s d vaddr isWriteable 1#32 = some (KERNEL_MEM_END, after) ∧
      Maps s after d vaddr kernelPages isWriteable 1#32 ∧
      (¬ Present (s.entry d (vaddr.toNat / 4096 / 1024)) →
        after.entry d (vaddr.toNat / 4096 / 1024) = s.placeAddr ||| tableFlags isWriteable 1#32) ∧
      Reached PagingBooted PagingStep after := by
  have limit := kernel_mem_end
  have pages : kernelPages = 4080 := rfl
  have low := process.place
  have holds := paging_invariant s process.reached
  obtain ⟨listed, first⟩ := one_process_free s d process
  obtain ⟨after, allocated, maps, table⟩ := alloc_page_found s holds.layout (by omega) d vaddr
    isWriteable 1#32 listed kernelPages first
  have size := maps_place _ _ _ _ _ _ _ maps
  have frame : BitVec.ofNat 32 (4096 * kernelPages) = KERNEL_MEM_END := rfl
  rw [frame] at allocated
  refine ⟨after, allocated, maps, table, Reached.next process.reached
    ⟨PagingCall.allocPage d vaddr isWriteable 1#32, ⟨listed, above⟩, ?_, by omega⟩⟩
  simp only [pagingCall, allocated, Option.bind_eq_bind, Option.bind_some]

theorem one_page_free (s after : Paging) (d vaddr isWriteable : Word) (process : OneProcess s d)
    {directory : Word} (maps : Maps s after directory vaddr kernelPages isWriteable 1#32) :
    FirstFree after 4081 := by
  have pages : kernelPages = 4080 := rfl
  refine ⟨by omega, ?_, fun k less => ?_⟩
  · rw [maps.bits _ (by omega), process.bits _ (by omega), pages]
    rfl
  · rw [maps.bits _ (by omega), process.bits _ (by omega), pages]
    simp only [Bool.or_eq_true, decide_eq_true_eq]
    omega

/-- Two processes with a page each at the same address, in the first two frames. -/
structure TwoPages (s : Paging) (d e : Word) : Prop where
  reached : Reached PagingBooted PagingStep s
  directories : s.history.directories = [e, d]
  different : e ≠ d
  first : ∀ page, s.mapping d page = if page = 0x1000 then some ⟨d, 0x1000, KERNEL_MEM_END, 3#32⟩ else none
  second : ∀ page, s.mapping e page =
    if page = 0x1000 then some ⟨e, 0x1000, BitVec.ofNat 32 (4096 * 4081), 3#32⟩ else none
  writeable : s.entry d 4 &&& 2#32 ≠ 0#32 ∧ s.entry e 4 &&& 2#32 ≠ 0#32
  free : FirstFree s 4082
  place : s.placeAddr.toNat ≤ 0x300000

theorem two_pages : ∃ s d e, TwoPages s d e := by
  have limit := kernel_mem_end
  have pages : kernelPages = 4080 := rfl
  obtain ⟨boot, d, process⟩ := one_process
  have place := process.place
  have layoutBoot := (paging_invariant boot process.reached).layout
  obtain ⟨one, _, maps, table, reached⟩ := one_page boot d process 0x1000000#32 1#32 (by decide)
  have size := maps_place _ _ _ _ _ _ _ maps
  have holds := paging_invariant one reached
  have inOne : one.Listed d := (listed_same boot one maps.keeps.roots d).mpr (one_process_free boot d process).1
  have new := (new_directory_result one holds.layout (by omega)).2
  have stepNew : PagingStep one (getNewKernelMappedDir one).2 :=
    ⟨PagingCall.getNewKernelMappedDir, trivial, rfl, by rw [new.place]; omega⟩
  have sizeNew := new.place
  generalize (getNewKernelMappedDir one).2 = both at new stepNew sizeNew
  have free := first_free_same one both new.bits _ (one_page_free boot one d _ _ process maps)
  have holdsBoth := paging_invariant both (Reached.next reached stepNew)
  have listed : both.Listed one.placeAddr := by
    unfold Paging.Listed
    rw [new.directories]
    exact Or.inr List.mem_cons_self
  have inBoth : both.Listed d := by
    unfold Paging.Listed at inOne ⊢
    rw [new.kernelDirectory, new.directories]
    exact inOne.imp_right (List.mem_cons_of_mem _)
  obtain ⟨two, allocated, mapsToo, tableToo⟩ := alloc_page_found both holdsBoth.layout (by omega) one.placeAddr
    0x1000000#32 1#32 1#32 listed 4081 free
  have sizeToo := maps_place _ _ _ _ _ _ _ mapsToo
  have stepTwo : PagingStep both two := by
    refine ⟨PagingCall.allocPage one.placeAddr 0x1000000#32 1#32 1#32, ⟨listed, by decide⟩, ?_, by omega⟩
    simp only [pagingCall, allocated, Option.bind_eq_bind, Option.bind_some]
  have roots := mapsToo.keeps.roots
  have different : one.placeAddr ≠ d := fun same => new.fresh (same ▸ inOne)
  have number : (0x1000000#32 : Word).toNat / 4096 = 0x1000 := rfl
  have flags : pageFlags 1#32 1#32 = 3#32 := by decide
  have key : ∀ (x y : Word) (page : Nat), (x, 0x1000) = (y, page) ↔ x = y ∧ page = 0x1000 := by
    intro x y page
    rw [Prod.mk.injEq, eq_comm (a := page)]
  refine ⟨two, d, one.placeAddr, Reached.next (Reached.next reached stepNew) stepTwo, ?_, different,
    fun page => ?_, fun page => ?_, ⟨?_, ?_⟩, ⟨by omega, ?_, fun k less => ?_⟩, by omega⟩
  · rw [roots.directories, new.directories, maps.keeps.roots.directories, process.directories]
  · have unmapped := process.unmapped page
    rw [Paging.mapping] at unmapped ⊢
    rw [mapsToo.mappings, latest_cons, new.mappings, maps.mappings, latest_cons, unmapped, flags]
    simp only [Mapping.key, number, key, different, false_and, if_false, true_and]
    rfl
  · -- nothing was mapped in the second directory before it was made
    have unmapped : latest one.history.mappings Mapping.key (one.placeAddr, page) = none := by
      refine Option.eq_none_iff_forall_ne_some.mpr fun m found => ?_
      obtain ⟨member, owner⟩ := latest_mem _ _ _ _ found
      have own : m.directory = one.placeAddr := (Prod.mk.inj owner).1
      exact new.fresh (own ▸ (holds.recorded m member).listed)
    rw [Paging.mapping, mapsToo.mappings, latest_cons, new.mappings, unmapped, flags]
    simp only [Mapping.key, number, key, true_and]
  · have absent : ¬ Present (boot.entry d 4) := fun present => by
      have kernel := (process.tables 4 (by decide)).1.mp present
      omega
    have present : Present (one.entry d 4) := maps.present
    have kept := new.entries d inOne 4 (by decide)
    rw [mapsToo.keeps.entries d inBoth 4 (by decide) (by rw [kept]; exact present), kept]
    rw [number] at table
    rw [table absent, flagged_and _ _ _ layoutBoot.aligned (by decide)]
    decide
  · have absent : ¬ Present (both.entry one.placeAddr 4) := fun present => by
      have kernel := (new.own 4 (by decide)).1.mp present
      omega
    rw [number] at tableToo
    rw [tableToo absent, flagged_and _ _ _ holdsBoth.layout.aligned (by decide)]
    decide
  · rw [mapsToo.bits _ (by omega), new.bits _ (by omega), maps.bits _ (by omega), process.bits _ (by omega), pages]
    rfl
  · rw [mapsToo.bits _ (by omega), new.bits _ (by omega), maps.bits _ (by omega), process.bits _ (by omega), pages]
    simp only [Bool.or_eq_true, decide_eq_true_eq]
    omega

theorem frame_exclusive_one_page : ∃ s d, s.mapping d 0x1000 = some ⟨d, 0x1000, KERNEL_MEM_END, 3#32⟩ ∧
    Exclusive s ∧ AllocatesFresh s ∧ ∀ after, Leads PagingStep s after →
      ∀ m ∈ s.history.mappings, m ∈ after.history.mappings ∧ isFrameSet after m.frame = true := by
  obtain ⟨s, d, process⟩ := one_process
  obtain ⟨after, _, maps, _, reached⟩ := one_page s d process 0x1000000#32 1#32 (by decide)
  exact ⟨after, d, maps_mapping s after d _ _ _ _ maps, frame_exclusive after reached⟩

end GargOS
