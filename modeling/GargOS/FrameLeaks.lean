import GargOS.KernelHalf

/-!
Which frames are in use: those whose bits are set against those that some page
is mapped to. A page that is mapped again leaves the bit of its old frame set.
-/

namespace GargOS
open ByteMemory Pages Ledger Runs

def NoLeak (s : Paging) : Prop :=
  ∀ n < 2 ^ 20, (isFrameSet s (BitVec.ofNat 32 (4096 * n)) = true ↔
    ∃ d page m, s.mapping d page = some m ∧ s.Walks d page ∧
      s.target d page = BitVec.ofNat 32 (4096 * n))

theorem records_no_leak (s : Paging) (holds : PagedRecords s) :
    NoLeak s ↔ (s.history.mappings.map Mapping.key).Nodup := by
  have once : s.history.mappings.Nodup := List.Nodup.of_map Mapping.frame holds.once
  have exclusive := paged_records_exclusive s holds
  rw [← latest_all s.history.mappings Mapping.key once]
  constructor
  · intro noLeak m member
    obtain ⟨n, bound, frame⟩ := (holds.recorded m member).frame
    have used := exclusive.reserved m member
    rw [frame] at used
    obtain ⟨d, page, m', found, _, target⟩ := (noLeak n bound).mp used
    -- the frame was given once, so the entry that still names it is this one
    have same : m' = m := by
      apply value_unique _ Mapping.frame holds.once m' m (latest_mem _ _ _ _ found).1 member
      rw [← (mapped_page s holds d page m' found).target, target, frame]
    subst same
    have key := (latest_mem _ _ _ _ found).2
    rw [key]
    exact found
  · intro inForce n bound
    rw [is_frame_set_bit s n bound, holds.bits n bound]
    constructor
    · rintro ⟨m, member, frame⟩
      have found : s.mapping m.directory m.page = some m := inForce m member
      have mapped := mapped_page s holds _ _ m found
      exact ⟨m.directory, m.page, m, found, mapped.walks, mapped.target.trans frame⟩
    · rintro ⟨d, page, m, found, _, target⟩
      have mapped := mapped_page s holds d page m found
      exact ⟨m, (latest_mem _ _ _ _ found).1, mapped.target.symm.trans target⟩

/-- No frame is leaked exactly when `alloc_page` never mapped a page again. -/
theorem no_frame_leaked (s : Paging) (reached : Reached PagingBooted HalfStep s) :
    NoLeak s ↔ (s.history.mappings.map Mapping.key).Nodup :=
  records_no_leak s (half_run_invariant s reached).1.toPagedRecords

theorem one_page_twice : ∃ s after d, Reached PagingBooted HalfStep s ∧ HalfStep s after ∧
    s.mapping d 4096 = some ⟨d, 4096, KERNEL_MEM_END, 3#32⟩ ∧
    after.history.mappings = ⟨d, 4096, BitVec.ofNat 32 (4096 * 4081), 3#32⟩ :: s.history.mappings := by
  have limit := kernel_mem_end
  have pages : kernelPages = 4080 := rfl
  obtain ⟨boot, d, process⟩ := one_process
  have low := process.place
  obtain ⟨s, _, maps, _, reached⟩ := one_page boot d process 0x1000000#32 1#32 (by decide)
  have holds := paging_invariant s reached
  have size := maps_place _ _ _ _ _ _ _ maps
  have listed := (listed_same boot s maps.keeps.roots d).mpr (one_process_free boot d process).1
  obtain ⟨after, allocated, again, _⟩ := alloc_page_found s holds.layout (by omega) d
    0x1000000#32 1#32 1#32 listed 4081 (one_page_free boot s d _ _ process maps)
  have size' := maps_place _ _ _ _ _ _ _ again
  refine ⟨s, after, d, paging_run_half s reached,
    ⟨PagingCall.allocPage d 0x1000000#32 1#32 1#32, ⟨listed, fun _ => by decide⟩, ?_, by omega⟩, ?_,
    again.mappings⟩
  · simp only [pagingCall, allocated, Option.bind_eq_bind, Option.bind_some]
  · exact maps_mapping _ _ _ _ _ _ _ maps

theorem no_frame_leaked_one_page : ∃ s d, s.mapping d 4096 = some ⟨d, 4096, KERNEL_MEM_END, 3#32⟩ ∧
    (NoLeak s ↔ (s.history.mappings.map Mapping.key).Nodup) := by
  obtain ⟨s, _, d, reached, _, found, _⟩ := one_page_twice
  exact ⟨s, d, found, no_frame_leaked s reached⟩

/-- The frame of a page that is mapped twice stays in use, and no entry names it. -/
theorem frame_leaked : ∃ s, Reached PagingBooted HalfStep s ∧ ¬ NoLeak s := by
  obtain ⟨s, after, d, reached, step, found, mappings⟩ := one_page_twice
  have again := Reached.next reached step
  refine ⟨after, again, ?_⟩
  rw [records_no_leak after (half_run_invariant after again).1.toPagedRecords, mappings,
    List.map_cons, List.nodup_cons]
  rintro ⟨fresh, _⟩
  obtain ⟨member, key⟩ := latest_mem _ _ _ _ found
  exact fresh (List.mem_map.mpr ⟨_, member, key⟩)

end GargOS
