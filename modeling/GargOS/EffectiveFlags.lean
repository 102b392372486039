import GargOS.KernelHalf
import GargOS.PointUpdate

/-!
The permissions of a page are those of both levels. `alloc_page` writes the
flags it is asked for into the page's entry, but a table keeps the flags of the
call that made it.
-/

namespace GargOS
open ByteMemory Pages Ledger Runs

def Paging.permissions (s : Paging) (d : Word) (page : Nat) : Word :=
  s.entry d (page / 1024) &&& s.pte d page

structure Permits (s : Paging) (d : Word) (page : Nat) (isWriteable isKernel : Word) : Prop where
  writeable : s.permissions d page &&& 2#32 ≠ 0#32 ↔ isWriteable ≠ 0#32
  user : s.permissions d page &&& 4#32 ≠ 0#32 ↔ isKernel = 0#32

def EffectiveFlags (s : Paging) : Prop :=
  ∀ d page m isWriteable isKernel, s.mapping d page = some m → m.flags = pageFlags isWriteable isKernel →
    Permits s d page isWriteable isKernel

/-- The directory entry does not take away what the page's flags give. -/
def Allows (entry flags : Word) : Prop :=
  (flags &&& 2#32 ≠ 0#32 → entry &&& 2#32 ≠ 0#32) ∧ (flags &&& 4#32 ≠ 0#32 → entry &&& 4#32 ≠ 0#32)

def TablesAllow (s : Paging) : Prop :=
  ∀ d page m, s.mapping d page = some m → Allows (s.entry d (page / 1024)) m.flags

/-- A table that is there already allows what the page is asked for. -/
def FlagsFit (s : Paging) : PagingCall → Prop
  | .getNewKernelMappedDir => True
  | .allocPage directory vaddr isWriteable isKernel =>
      Present (s.entry directory (vaddr.toNat / 4096 / 1024)) →
        Allows (s.entry directory (vaddr.toNat / 4096 / 1024)) (pageFlags isWriteable isKernel)

def FlagsStep (s after : Paging) : Prop :=
  ∃ call, HalfCall s call ∧ FlagsFit s call ∧ pagingCall s call = some after ∧
    after.placeAddr.toNat ≤ KERNEL_MEM_END.toNat

theorem shared_bit (a b : Word) (k : Nat) (inWord : k < 32) :
    a &&& b &&& (1#32 <<< k) ≠ 0#32 ↔ a &&& (1#32 <<< k) ≠ 0#32 ∧ b &&& (1#32 <<< k) ≠ 0#32 := by
  simp only [ne_eq, bit_clear _ k inWord, BitVec.getLsbD_and, Bool.not_eq_false, Bool.and_eq_true]

theorem entered_permits (s : Paging) (m : Mapping) (entered : Entered s m) (isWriteable isKernel : Word)
    (flags : m.flags = pageFlags isWriteable isKernel) :
    Permits s m.directory m.page isWriteable isKernel ↔
      Allows (s.entry m.directory (m.page / 1024)) m.flags := by
  obtain ⟨n, bound, frame⟩ := entered.frame
  have isPage := frame ▸ frame_is_page n bound
  have asked := page_flags_bits isWriteable isKernel
  rw [← flags] at asked
  have writeable := shared_bit (s.entry m.directory (m.page / 1024)) (s.pte m.directory m.page) 1 (by decide)
  have user := shared_bit (s.entry m.directory (m.page / 1024)) (s.pte m.directory m.page) 2 (by decide)
  change _ &&& 2#32 ≠ 0#32 ↔ _ &&& 2#32 ≠ 0#32 ∧ _ &&& 2#32 ≠ 0#32 at writeable
  change _ &&& 4#32 ≠ 0#32 ↔ _ &&& 4#32 ≠ 0#32 ∧ _ &&& 4#32 ≠ 0#32 at user
  rw [entered.pte, flagged_and _ _ _ isPage (by decide), ← entered.pte, asked.1] at writeable
  rw [entered.pte, flagged_and _ _ _ isPage (by decide), ← entered.pte, asked.2] at user
  unfold Allows
  rw [asked.1, asked.2]
  constructor
  · rintro ⟨first, second⟩
    exact ⟨fun some => (writeable.mp (first.mpr some)).1, fun none => (user.mp (second.mpr none)).1⟩
  · rintro ⟨first, second⟩
    exact ⟨writeable.trans (and_iff_right_of_imp first), user.trans (and_iff_right_of_imp second)⟩

theorem tables_allow_effective (s : Paging) (entered : ∀ d page m, s.mapping d page = some m → Entered s m)
    (allow : TablesAllow s) : EffectiveFlags s := by
  intro d page m isWriteable isKernel found flags
  obtain ⟨_, key⟩ := latest_mem _ _ _ _ found
  obtain ⟨rfl, rfl⟩ := Prod.mk.inj key
  exact (entered_permits s m (entered _ _ m found) isWriteable isKernel flags).mpr (allow _ _ m found)

theorem new_table_allows (p isWriteable isKernel : Word) (page : IsPage p) :
    Allows (p ||| tableFlags isWriteable isKernel) (pageFlags isWriteable isKernel) := by
  unfold Allows
  rw [flagged_and _ _ _ page (by decide), flagged_and _ _ _ page (by decide),
    (table_flags_small isWriteable isKernel).2.1]
  exact ⟨id, id⟩

theorem maps_table_allows (s after : Paging) (layout : Layout s) (d v isWriteable isKernel : Word) (n : Nat)
    (listed : s.Listed d) (maps : Maps s after d v n isWriteable isKernel)
    (table : ¬ Present (s.entry d (v.toNat / 4096 / 1024)) →
      after.entry d (v.toNat / 4096 / 1024) = s.placeAddr ||| tableFlags isWriteable isKernel) :
    Allows (after.entry d (v.toNat / 4096 / 1024)) (pageFlags isWriteable isKernel) ↔
      FlagsFit s (PagingCall.allocPage d v isWriteable isKernel) := by
  by_cases present : Present (s.entry d (v.toNat / 4096 / 1024))
  · rw [maps.keeps.entries d listed _ (by omega) present]
    exact ⟨fun allows _ => allows, fun fits => fits present⟩
  · rw [table present]
    exact iff_of_true (new_table_allows _ _ _ layout.aligned) fun here => absurd here present

section Steps
variable (s after : Paging) (holds : PagedInvariant s) (allow : TablesAllow s)
include holds allow

theorem alloc_page_allows (d v isWriteable isKernel frame : Word)
    (listed : s.Listed d) (returned : allocPage s d v isWriteable isKernel = some (frame, after)) :
    (FlagsFit s (PagingCall.allocPage d v isWriteable isKernel) → TablesAllow after) ∧
      (EffectiveFlags after → FlagsFit s (PagingCall.allocPage d v isWriteable isKernel)) := by
  have room := paged_invariant_room s holds
  obtain ⟨n, first, _, maps, table⟩ := alloc_page_result s holds.layout (by omega) d v isWriteable isKernel
    listed frame after returned
  have fits := maps_table_allows s after holds.layout d v isWriteable isKernel n listed maps table
  constructor
  · intro condition d' page m found
    unfold Paging.mapping at found
    rw [maps.mappings, latest_cons] at found
    split at found
    next here =>
      obtain ⟨rfl, rfl⟩ := Prod.mk.inj here
      obtain rfl := Option.some.inj found
      exact fits.mpr condition
    next other =>
      have entered := records_entered s holds.toPagedRecords d' page m found
      have old := allow d' page m found
      obtain ⟨_, key⟩ := latest_mem _ _ _ _ found
      obtain ⟨rfl, rfl⟩ := Prod.mk.inj key
      have inSpace := entered.inSpace
      rw [maps.keeps.entries _ entered.listed _ (by omega) entered.present]
      exact old
  · intro effective
    have found := maps_mapping s after d v isWriteable isKernel n maps
    have entered := maps_entered s after (records_entered s holds.toPagedRecords) d v isWriteable isKernel n first.1 listed
      maps d _ _ found
    have permits := effective d _ _ isWriteable isKernel found rfl
    exact fits.mp ((entered_permits after _ entered isWriteable isKernel rfl).mp permits)

theorem new_directory_allows : TablesAllow (getNewKernelMappedDir s).2 := by
  have new := (new_directory_result s holds.layout (paged_invariant_room s holds)).2
  intro d page m found
  unfold Paging.mapping at found
  rw [new.mappings] at found
  have entered := records_entered s holds.toPagedRecords d page m found
  have old := allow d page m found
  obtain ⟨_, key⟩ := latest_mem _ _ _ _ found
  obtain ⟨rfl, rfl⟩ := Prod.mk.inj key
  have inSpace := entered.inSpace
  rw [new.entries _ entered.listed _ (by omega)]
  exact old

theorem flags_step_allows (step : FlagsStep s after) : PagedInvariant after ∧ TablesAllow after := by
  obtain ⟨call, allowed, fits, returned, low⟩ := step
  refine ⟨half_step_invariant s after holds ⟨call, allowed, returned, low⟩, ?_⟩
  cases call with
  | getNewKernelMappedDir =>
      obtain rfl := Option.some.inj returned
      exact new_directory_allows s holds allow
  | allocPage d v isWriteable isKernel =>
      obtain ⟨frame, allocated⟩ := alloc_page_call s after d v isWriteable isKernel returned
      exact (alloc_page_allows s after holds allow d v isWriteable isKernel frame allowed.1
        allocated).1 fits

theorem call_effective (call : PagingCall) (allowed : HalfCall s call)
    (returned : pagingCall s call = some after) (low : after.placeAddr.toNat ≤ KERNEL_MEM_END.toNat) :
    EffectiveFlags after ↔ FlagsFit s call := by
  have forward : FlagsFit s call → EffectiveFlags after := by
    intro fits
    have both := flags_step_allows s after holds allow ⟨call, allowed, fits, returned, low⟩
    exact tables_allow_effective after (records_entered after both.1.toPagedRecords) both.2
  refine ⟨fun effective => ?_, forward⟩
  cases call with
  | getNewKernelMappedDir => trivial
  | allocPage d v isWriteable isKernel =>
      obtain ⟨frame, allocated⟩ := alloc_page_call s after d v isWriteable isKernel returned
      exact (alloc_page_allows s after holds allow d v isWriteable isKernel frame allowed.1
        allocated).2 effective

end Steps

/-- The kernel's pages are mapped as writeable for the kernel, like their tables. -/
theorem booted_allows (s : Paging) (booted : PagingBooted s) : TablesAllow s := by
  obtain ⟨base, identity, _⟩ := booted_identity s booted
  intro d page m found
  obtain ⟨member, key⟩ := latest_mem _ _ _ _ found
  rw [identity.mappings] at member
  obtain ⟨k, less, rfl⟩ := (identity_mappings_mem _ _ m).mp member
  obtain ⟨rfl, rfl⟩ := Prod.mk.inj key
  have pages : kernelPages = 4080 := rfl
  have bound : k / 1024 < 1024 := by omega
  refine ⟨fun _ => identity.writeable _ bound ((identity.entries _ bound).mpr ?_), fun user => ?_⟩
  · rw [show tablesFor kernelPages = 4 from rfl]
    omega
  · change 3#32 &&& 4#32 ≠ 0#32 at user
    exact absurd rfl user

/-- In a run whose calls ask for no more than the tables they meet allow, every
page permits what it was mapped with; and a call that asks for more breaks it. -/
theorem effective_flags (s : Paging) (reached : Reached PagingBooted FlagsStep s) :
    EffectiveFlags s ∧ ∀ call after, HalfCall s call → pagingCall s call = some after →
      after.placeAddr.toNat ≤ KERNEL_MEM_END.toNat → (EffectiveFlags after ↔ FlagsFit s call) := by
  have both := reached_invariant (fun s => PagedInvariant s ∧ TablesAllow s)
    (fun s booted => ⟨booted_invariant s booted, booted_allows s booted⟩)
    (fun s after holds step => flags_step_allows s after holds.1 holds.2 step) s reached
  exact ⟨tables_allow_effective s (records_entered s both.1.toPagedRecords) both.2,
    fun call after allowed => call_effective s after both.1 both.2 call allowed⟩

theorem effective_flags_one_page : ∃ s d, s.mapping d 0x1000 = some ⟨d, 0x1000, KERNEL_MEM_END, 3#32⟩ ∧
    EffectiveFlags s ∧ ∀ call after, HalfCall s call → pagingCall s call = some after →
      after.placeAddr.toNat ≤ KERNEL_MEM_END.toNat → (EffectiveFlags after ↔ FlagsFit s call) := by
  obtain ⟨s, d, process⟩ := one_process
  obtain ⟨after, allocated, maps, _, reached⟩ := one_page s d process 0x1000000#32 1#32 (by decide)
  obtain ⟨boot, booted, made⟩ := process.booted
  have low := (paging_invariant s process.reached).low
  have first : FlagsStep boot s :=
    ⟨PagingCall.getNewKernelMappedDir, trivial, trivial, congrArg some made, low⟩
  have second : FlagsStep s after := by
    refine ⟨PagingCall.allocPage d 0x1000000#32 1#32 1#32,
      ⟨(one_process_free s d process).1, fun _ => by decide⟩, fun present => ?_, ?_,
      (paging_invariant after reached).low⟩
    · rw [(process.tables _ (by decide)).1] at present
      exact absurd present (by decide)
    · simp only [pagingCall, allocated, Option.bind_eq_bind, Option.bind_some]
  exact ⟨after, d, maps_mapping s after d _ _ _ _ maps,
    effective_flags after (Reached.next (Reached.next (Reached.start booted) first) second)⟩

/-- A page mapped as writeable behind one that is not: the table's entry says no. -/
theorem flags_lost : ∃ s d, Reached PagingBooted HalfStep s ∧
    s.mapping d 0x1001 = some ⟨d, 0x1001, 0xFF1000#32, pageFlags 1#32 1#32⟩ ∧
    ¬ Permits s d 0x1001 1#32 1#32 := by
  obtain ⟨s, d, process⟩ := one_process
  obtain ⟨after, _, maps, table, reached⟩ := one_page s d process 0x1000000#32 0#32 (by decide)
  have holds := paging_invariant after reached
  have room := paged_invariant_room after holds
  have limit := kernel_mem_end
  have pages : kernelPages = 4080 := rfl
  have low := process.place
  have size := maps_place _ _ _ _ _ _ _ maps
  have aligned := (paging_invariant s process.reached).layout.aligned
  have listed := (listed_same s after maps.keeps.roots d).mpr (one_process_free s d process).1
  obtain ⟨later, allocated, again, _⟩ := alloc_page_found after holds.layout (by omega) d 0x1001000#32 1#32
    1#32 listed 4081 (one_page_free s after d _ _ process maps)
  have absent : ¬ Present (s.entry d ((0x1000000#32).toNat / 4096 / 1024)) := by
    rw [(process.tables _ (by decide)).1]
    decide
  have entry : later.entry d 4 = s.placeAddr ||| tableFlags 0#32 1#32 := by
    have kept := again.keeps.entries d listed ((0x1000000#32).toNat / 4096 / 1024) (by decide) maps.present
    exact kept.trans (table absent)
  have size' := maps_place _ _ _ _ _ _ _ again
  have step : HalfStep after later := by
    refine ⟨PagingCall.allocPage d 0x1001000#32 1#32 1#32, ⟨listed, fun _ => by decide⟩, ?_, by omega⟩
    simp only [pagingCall, allocated, Option.bind_eq_bind, Option.bind_some]
  refine ⟨later, d, Reached.next (paging_run_half after reached) step,
    maps_mapping after later d _ _ _ _ again, fun permits => ?_⟩
  have writeable := permits.writeable.mpr (by decide)
  have both := (shared_bit (later.entry d 4) (later.pte d 0x1001) 1 (by decide)).mp writeable
  change later.entry d 4 &&& 2#32 ≠ 0#32 ∧ _ at both
  rw [entry, flagged_and _ _ _ aligned (by decide)] at both
  exact both.1 (by decide)

end GargOS
