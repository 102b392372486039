import GargOS.PagingRuns

/-!
`alloc_page` against the address spaces it serves: one page of one directory
gets a translation, and every other walk ends as it did before.
-/

namespace GargOS
open ByteMemory Pages Runs

def Paging.walk (s : Paging) (d : Word) (page : Nat) : Option (Word × Word) :=
  if s.Walks d page then some (s.entry d (page / 1024), s.pte d page) else none

/-- `frame` has been given to the page of `v` in `d`, with the flags asked for,
and no other walk has changed but those of the kernel's directory. -/
structure PointUpdate (s after : Paging) (d v frame isWriteable isKernel : Word) : Prop where
  page : ∃ entry pte, after.walk d (v.toNat / 4096) = some (entry, pte) ∧ pageOf pte = frame ∧
    Present pte ∧ (pte &&& 2#32 ≠ 0#32 ↔ isWriteable ≠ 0#32) ∧ (pte &&& 4#32 ≠ 0#32 ↔ isKernel = 0#32)
  others : ∀ page < 2 ^ 20, page ≠ v.toNat / 4096 → after.walk d page = s.walk d page
  apart : ∀ d', s.Listed d' → d' ≠ d → d' ≠ s.kernelDirectory → ∀ page < 2 ^ 20,
    after.walk d' page = s.walk d' page
  bits : ∀ n < 2 ^ 20, after.bit n = (s.bit n || decide (frame = BitVec.ofNat 32 (4096 * n)))
  roots : SameRoots s after

theorem walk_absent (s : Paging) (d : Word) (page : Nat) (absent : ¬ s.Walks d page) :
    s.walk d page = none := if_neg absent

theorem walk_same (s after : Paging) (d : Word) (page : Nat)
    (entry : after.entry d (page / 1024) = s.entry d (page / 1024))
    (pte : Present (s.entry d (page / 1024)) → after.pte d page = s.pte d page) :
    after.walk d page = s.walk d page := by
  have walks : after.Walks d page ↔ s.Walks d page := by
    unfold Paging.Walks
    rw [entry]
    exact and_congr_right fun present => by rw [pte present]
  by_cases here : s.Walks d page
  · rw [Paging.walk, Paging.walk, if_pos here, if_pos (walks.mpr here), entry, pte here.1]
  · rw [walk_absent s d page here, walk_absent after d page (mt walks.mp here)]

theorem maps_walk_other (s after : Paging) (d v isWriteable isKernel : Word) (n : Nat)
    (maps : Maps s after d v n isWriteable isKernel) (d' : Word) (listed : s.Listed d')
    (shown : d' ≠ s.kernelDirectory ∨ d = s.kernelDirectory) (page : Nat) (inSpace : page < 2 ^ 20)
    (different : (d', page) ≠ (d, v.toNat / 4096)) : after.walk d' page = s.walk d' page := by
  have kept := maps.ptes d' listed shown page inSpace
  by_cases shared : d' = d ∧ page / 1024 = v.toNat / 4096 / 1024
  · obtain ⟨rfl, region⟩ := shared
    by_cases present : Present (s.entry d' (page / 1024))
    · have entry := maps.keeps.entries d' listed _ (by omega) present
      exact walk_same s after d' page entry fun _ => kept present different
    · -- a table that appears has no other page in it
      have zero := maps.cleared (region ▸ present) page inSpace region fun here =>
        different (by rw [here])
      rw [walk_absent s d' page fun walks => present walks.1, walk_absent after d' page]
      rintro ⟨_, mapped⟩
      rw [zero] at mapped
      exact absurd mapped (by decide)
  · exact walk_same s after d' page (maps.entries d' listed shown _ (by omega) shared) fun present =>
      kept present different

theorem page_flags_bits (isWriteable isKernel : Word) :
    (pageFlags isWriteable isKernel &&& 2#32 ≠ 0#32 ↔ isWriteable ≠ 0#32) ∧
      (pageFlags isWriteable isKernel &&& 4#32 ≠ 0#32 ↔ isKernel = 0#32) := by
  unfold pageFlags
  by_cases writeable : isWriteable = 0#32 <;> by_cases kernel : isKernel = 0#32 <;>
    simp [writeable, kernel]

theorem maps_point_update (s after : Paging) (d v isWriteable isKernel : Word) (n : Nat)
    (bound : n < 2 ^ 20) (listed : s.Listed d) (maps : Maps s after d v n isWriteable isKernel) :
    PointUpdate s after d v (BitVec.ofNat 32 (4096 * n)) isWriteable isKernel := by
  have isPage := frame_is_page n bound
  have small := table_flags_small isWriteable isKernel
  rw [small.2.1] at small
  have flags := page_flags_bits isWriteable isKernel
  have other := maps_walk_other s after d v isWriteable isKernel n maps
  refine ⟨?_, ?_, ?_, ?_, maps.keeps.roots⟩
  · have mapped : Present (after.pte d (v.toNat / 4096)) := by
      rw [maps.pte, present_flagged _ _ isPage]
      exact small.2.2
    refine ⟨_, _, if_pos ⟨maps.present, mapped⟩, ?_, mapped, ?_, ?_⟩
    · rw [maps.pte, page_of_flagged _ _ isPage small.1]
    · rw [maps.pte, flagged_and _ _ _ isPage (by decide)]
      exact flags.1
    · rw [maps.pte, flagged_and _ _ _ isPage (by decide)]
      exact flags.2
  · intro page inSpace different
    exact other d listed (by tauto) page inSpace fun same => different (Prod.mk.inj same).2
  · intro d' inOld apart process page inSpace
    exact other d' inOld (Or.inl process) page inSpace fun same => apart (Prod.mk.inj same).1
  · intro i less
    rw [maps.bits i less]
    congr 1
    refine decide_eq_decide.mpr ⟨fun same => by rw [same], fun same => ?_⟩
    have number := congrArg BitVec.toNat same
    rw [frame_toNat n bound, frame_toNat i less] at number
    omega

/-- While a frame is left, `alloc_page` returns the first one and updates the
address space at the page it was asked for. -/
theorem alloc_page_point (s : Paging) (reached : Reached PagingBooted PagingStep s)
    (d v isWriteable isKernel : Word) (listed : s.Listed d) (left : ∃ n < 2 ^ 20, s.bit n = false) :
    ∃ n after, FirstFree s n ∧
      allocPage s d v isWriteable isKernel = some (BitVec.ofNat 32 (4096 * n), after) ∧
      PointUpdate s after d v (BitVec.ofNat 32 (4096 * n)) isWriteable isKernel := by
  have holds := paging_invariant s reached
  have room := paged_invariant_room s holds
  obtain ⟨m, bound, clear⟩ := left
  obtain ⟨n, first⟩ := first_free_exists s m bound clear
  obtain ⟨after, returned, maps, _⟩ := alloc_page_found s holds.layout (by omega) d v isWriteable
    isKernel listed n first
  exact ⟨n, after, first, returned,
    maps_point_update s after d v isWriteable isKernel n first.1 listed maps⟩

theorem alloc_page_point_second : ∃ s d, s.walk d 0x1000 ≠ none ∧ ∃ n after, FirstFree s n ∧
    allocPage s d 0x1001000#32 1#32 0#32 = some (BitVec.ofNat 32 (4096 * n), after) ∧
    PointUpdate s after d 0x1001000#32 (BitVec.ofNat 32 (4096 * n)) 1#32 0#32 := by
  obtain ⟨s, d, process⟩ := one_process
  obtain ⟨after, _, maps, _, reached⟩ := one_page s d process 0x1000000#32 1#32 (by decide)
  have listed := (one_process_free s d process).1
  have walked := (maps_point_update s after d _ _ _ _ (by decide) listed maps).page
  refine ⟨after, d, ?_, alloc_page_point after reached d 0x1001000#32 1#32 0#32
    ((listed_same s after maps.keeps.roots d).mpr listed)
    ⟨4081, by decide, (one_page_free s after d _ _ process maps).2.1⟩⟩
  obtain ⟨_, _, walked, _⟩ := walked
  have page : (0x1000000#32).toNat / 4096 = 0x1000 := rfl
  rw [page] at walked
  simp [walked]

end GargOS
