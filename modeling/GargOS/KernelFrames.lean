import GargOS.KernelHalf

/-!
The frames of the processes in the kernel's directory: where `alloc_page` maps a
frame for a process, the kernel should see it at the frame's own address.
-/

namespace GargOS
open ByteMemory Pages Runs

def ShowsFrame (n : Nat) (entry : Word) : Prop :=
  pageOf entry = BitVec.ofNat 32 (4096 * n) ∧ entry &&& 2#32 ≠ 0#32

def SameTranslation (s after : Paging) (d : Word) (page : Nat) : Prop :=
  (after.Walks d page ↔ s.Walks d page) ∧ (s.Walks d page →
    after.entry d (page / 1024) = s.entry d (page / 1024) ∧ after.pte d page = s.pte d page)

theorem same_translation_of (s after : Paging) (d : Word) (page : Nat)
    (entry : after.entry d (page / 1024) = s.entry d (page / 1024))
    (pte : Present (s.entry d (page / 1024)) → after.pte d page = s.pte d page) :
    SameTranslation s after d page := by
  have walks : after.Walks d page ↔ s.Walks d page := by
    unfold Paging.Walks
    rw [entry]
    exact and_congr_right fun table => by rw [pte table]
  exact ⟨walks, fun here => ⟨entry, pte here.1⟩⟩

theorem same_translation_symm (s after : Paging) (d : Word) (page : Nat)
    (same : SameTranslation s after d page) : SameTranslation after s d page := by
  obtain ⟨walks, value⟩ := same
  refine ⟨walks.symm, fun here => ?_⟩
  obtain ⟨entry, pte⟩ := value (walks.mp here)
  exact ⟨entry.symm, pte.symm⟩

theorem same_translation_trans (s middle after : Paging) (d : Word) (page : Nat)
    (first : SameTranslation s middle d page) (second : SameTranslation middle after d page) :
    SameTranslation s after d page := by
  obtain ⟨walks, value⟩ := first
  obtain ⟨walks', value'⟩ := second
  refine ⟨walks'.trans walks, fun here => ?_⟩
  obtain ⟨entry, pte⟩ := value here
  obtain ⟨entry', pte'⟩ := value' (walks.mpr here)
  exact ⟨entry'.trans entry, pte'.trans pte⟩

/-- The kernel sees the frame `n` at its own address, and everything else as before. -/
structure FrameShown (s after : Paging) (n : Nat) : Prop where
  walks : after.Walks s.kernelDirectory n
  shows_ : ShowsFrame n (after.pte s.kernelDirectory n)
  table : after.entry s.kernelDirectory (n / 1024) &&& 2#32 ≠ 0#32
  others : ∀ page < 2 ^ 20, page ≠ n → SameTranslation s after s.kernelDirectory page

/-- The kernel's page at the address of the frame `n` is free, or shows it
already. Where the kernel has no table for it, this is about the page `table`
that becomes one: it is not cleared, so none of its words may look present. -/
def FrameFree (s : Paging) (table : Word) (n : Nat) : Prop :=
  if Present (s.entry s.kernelDirectory (n / 1024)) then
    s.entry s.kernelDirectory (n / 1024) &&& 2#32 ≠ 0#32 ∧
      (Present (s.pte s.kernelDirectory n) → ShowsFrame n (s.pte s.kernelDirectory n))
  else ∀ i < 1024, Present (load32 s.mem (cell table i)) →
    i = n % 1024 ∧ ShowsFrame n (load32 s.mem (cell table i))

theorem shows_frame_new (n : Nat) (bound : n < 2 ^ 20) :
    Present (BitVec.ofNat 32 (4096 * n) ||| 0x3#32) ∧
      ShowsFrame n (BitVec.ofNat 32 (4096 * n) ||| 0x3#32) := by
  have page := frame_is_page n bound
  refine ⟨?_, page_of_flagged _ _ page (by decide), ?_⟩
  · rw [present_flagged _ _ page]
    decide
  · rw [flagged_and _ _ _ page (by decide)]
    decide

section Shown
variable (s : Paging) (layout : Layout s) (room : s.placeAddr.toNat + 4096 ≤ 2 ^ 31) (n : Nat)
  (bound : n < 2 ^ 20)
include layout room bound

theorem frame_shown_table : ∃ middle, KernelTable s middle (n / 1024) ∧
    Present (middle.entry s.kernelDirectory (n / 1024)) ∧
    (FrameShown s (addFrameToKernelDir s (BitVec.ofNat 32 (4096 * n))) n ↔
      middle.entry s.kernelDirectory (n / 1024) &&& 2#32 ≠ 0#32 ∧
      (Present (middle.pte s.kernelDirectory n) → ShowsFrame n (middle.pte s.kernelDirectory n)) ∧
      ∀ page < 2 ^ 20, page ≠ n → SameTranslation s middle s.kernelDirectory page) := by
  have frame := frame_toNat n bound
  have number : (BitVec.ofNat 32 (4096 * n)).toNat / 4096 = n := by omega
  obtain ⟨middle, table, layout', present, result⟩ := add_frame_cases s layout room
    (BitVec.ofNat 32 (4096 * n))
  rw [number] at table present result
  have listed : middle.Listed s.kernelDirectory := by
    cases table with
    | found _ same => exact Or.inl (by rw [same])
    | made _ installs _ => exact Or.inl installs.roots.kernelDirectory.symm
  refine ⟨middle, table, present, ?_⟩
  generalize addFrameToKernelDir s (BitVec.ofNat 32 (4096 * n)) = after at result
  -- the entries of the kernel's directory, whether or not the page had to be written
  obtain ⟨entries, ptes, own⟩ : (∀ t < 1024, after.entry s.kernelDirectory t = middle.entry s.kernelDirectory t) ∧
      (∀ page < 2 ^ 20, page ≠ n → Present (middle.entry s.kernelDirectory (page / 1024)) →
        after.pte s.kernelDirectory page = middle.pte s.kernelDirectory page) ∧
      after.pte s.kernelDirectory n = if Present (middle.pte s.kernelDirectory n) then
        middle.pte s.kernelDirectory n else BitVec.ofNat 32 (4096 * n) ||| 0x3#32 := by
    rcases result with ⟨mapped, rfl⟩ | ⟨free, stored⟩
    · exact ⟨fun _ _ => rfl, fun _ _ _ _ => rfl, (if_pos mapped).symm⟩
    · refine ⟨stored.entries _ listed, fun page less different inTable => ?_, ?_⟩
      · exact stored.ptes _ listed page less inTable fun same => different (Prod.mk.inj same).2
      · rw [if_neg free]
        exact stored.pte
  have translations : (∀ page < 2 ^ 20, page ≠ n → SameTranslation s after s.kernelDirectory page) ↔
      ∀ page < 2 ^ 20, page ≠ n → SameTranslation s middle s.kernelDirectory page := by
    refine forall_congr' fun page => imp_congr_right fun less => imp_congr_right fun different => ?_
    have same := same_translation_of middle after s.kernelDirectory page (entries _ (by omega))
      (ptes page less different)
    constructor
    · exact fun whole => same_translation_trans _ _ _ _ _ whole (same_translation_symm _ _ _ _ same)
    · exact fun part => same_translation_trans _ _ _ _ _ part same
  have inDirectory : n / 1024 < 1024 := by omega
  have new := shows_frame_new n bound
  constructor
  · intro shown
    refine ⟨entries _ inDirectory ▸ shown.table, fun mapped => ?_, translations.mp shown.others⟩
    have shows_ := shown.shows_
    rwa [own, if_pos mapped] at shows_
  · rintro ⟨writeable, mapped, others⟩
    have table : Present (after.entry s.kernelDirectory (n / 1024)) := by
      rw [entries _ inDirectory]
      exact present
    refine ⟨⟨table, ?_⟩, ?_, by rw [entries _ inDirectory]; exact writeable, translations.mpr others⟩
    · rw [own]
      split
      next here => exact here
      next => exact new.1
    · rw [own]
      split
      next here => exact mapped here
      next => exact new.2

theorem add_frame_shown :
    FrameShown s (addFrameToKernelDir s (BitVec.ofNat 32 (4096 * n))) n ↔ FrameFree s s.placeAddr n := by
  obtain ⟨middle, table, present, shown⟩ := frame_shown_table s layout room n bound
  have listed : s.Listed s.kernelDirectory := Or.inl rfl
  have inDirectory : n / 1024 < 1024 := by omega
  rw [shown]
  cases table with
  | found here same =>
      subst same
      rw [FrameFree, if_pos here]
      exact and_congr_right fun _ => and_iff_left fun page _ _ =>
        same_translation_of _ _ _ _ rfl fun _ => rfl
  | made absent installs uncleared =>
      rw [FrameFree, if_neg absent]
      obtain ⟨_, _, entries, ptes⟩ := installs_result s layout _ _ _ _ listed inDirectory absent (by decide)
        room installs
      have writeable : middle.entry s.kernelDirectory (n / 1024) &&& 2#32 ≠ 0#32 := by
        rw [installs.entry, flagged_and _ _ _ layout.aligned (by decide)]
        decide
      -- the entries of the new table are the words its page held
      have words : ∀ page, page / 1024 = n / 1024 →
          middle.pte s.kernelDirectory page = load32 s.mem (cell s.placeAddr (page % 1024)) := by
        intro page same
        rw [Paging.pte, same, installs.entry, page_of_flagged _ _ layout.aligned (by decide)]
        exact load_cell_kept _ _ _ _ layout.aligned (Nat.mod_lt _ (by decide)) uncleared
      rw [words n rfl]
      constructor
      · rintro ⟨_, own, others⟩ i less mapped
        have index : (n / 1024 * 1024 + i) / 1024 = n / 1024 := by omega
        have offset : (n / 1024 * 1024 + i) % 1024 = i := by omega
        have here := words (n / 1024 * 1024 + i) index
        rw [offset] at here
        by_cases same : i = n % 1024
        · subst same
          exact ⟨rfl, own mapped⟩
        · exfalso
          have other := (others (n / 1024 * 1024 + i) (by omega) (by omega)).1
          have walks : middle.Walks s.kernelDirectory (n / 1024 * 1024 + i) := by
            refine ⟨?_, ?_⟩
            · rw [index]
              exact present
            · rw [here]
              exact mapped
          have before := (other.mp walks).1
          rw [index] at before
          exact absent before
      · intro free
        refine ⟨writeable, fun mapped => (free _ (Nat.mod_lt _ (by decide)) mapped).2, ?_⟩
        intro page less different
        by_cases same : page / 1024 = n / 1024
        · have none : ¬ s.Walks s.kernelDirectory page := fun here => absent (same ▸ here.1)
          refine ⟨iff_of_false (fun here => ?_) none, fun here => absurd here none⟩
          have mapped := here.2
          rw [words page same] at mapped
          have index := (free _ (Nat.mod_lt _ (by decide)) mapped).1
          omega
        · have entry := entries s.kernelDirectory listed (page / 1024) (by omega) fun both => same both.2
          exact same_translation_of _ _ _ _ entry (ptes s.kernelDirectory listed page less)

end Shown

/-- The page that becomes the kernel's table for a frame of the call, behind the
table that the call makes for itself. -/
def kernelTablePlace (s : Paging) (d v : Word) : Word :=
  if Present (s.entry d (v.toNat / 4096 / 1024)) then s.placeAddr else s.placeAddr + 4096#32

section Allocated
variable (s middle : Paging) (d v flags : Word) (n : Nat) (process : d ≠ s.kernelDirectory)
  (enters : Enters s middle d (v.toNat / 4096) n flags)
include process enters

theorem enters_kernel (t : Nat) (bound : t < 1024) :
    middle.entry s.kernelDirectory t = s.entry s.kernelDirectory t :=
  enters.entries _ (Or.inl rfl) t bound fun both => process both.1.symm

theorem enters_kernel_pte (page : Nat) (bound : page < 2 ^ 20)
    (table : Present (s.entry s.kernelDirectory (page / 1024))) :
    middle.pte s.kernelDirectory page = s.pte s.kernelDirectory page :=
  enters.ptes _ (Or.inl rfl) page bound table fun same => process (Prod.mk.inj same).1.symm

theorem enters_frame_free (room : s.placeAddr.toNat + 8192 ≤ 2 ^ 31) (bound : n < 2 ^ 20) :
    FrameFree middle middle.placeAddr n ↔ FrameFree s (kernelTablePlace s d v) n := by
  have place : middle.placeAddr = kernelTablePlace s d v := by
    have size := enters.place
    unfold kernelTablePlace
    split at size <;> rename_i here
    · rw [if_pos here]
      exact BitVec.eq_of_toNat_eq size
    · rw [if_neg here]
      bv_omega
  have entry := enters_kernel s middle d v flags n process enters (n / 1024) (by omega)
  unfold FrameFree
  rw [enters.keeps.roots.kernelDirectory, entry, ← place]
  by_cases table : Present (s.entry s.kernelDirectory (n / 1024))
  · rw [if_pos table, if_pos table, enters_kernel_pte s middle d v flags n process enters n bound table]
  · rw [if_neg table, if_neg table]
    -- the page above the structures holds what it held before the call
    have layout := enters.keeps.layout
    have high := enters.place
    have kept : PageKept s.mem middle.mem middle.placeAddr := by
      intro x inside
      apply enters.keeps.above
      rw [in_span_iff _ _ _ (by split at high <;> omega)] at inside
      exact inside.1
    refine forall_congr' fun i => imp_congr_right fun less => ?_
    rw [load_cell_kept _ _ _ _ layout.aligned less kept]

end Allocated

theorem alloc_page_shown (s : Paging) (layout : Layout s) (room : s.placeAddr.toNat + 8192 ≤ 2 ^ 31)
    (d v isWriteable isKernel : Word) (listed : s.Listed d) (process : d ≠ s.kernelDirectory) (n : Nat)
    (first : FirstFree s n) :
    ∃ after, allocPage s d v isWriteable isKernel = some (BitVec.ofNat 32 (4096 * n), after) ∧
      (FrameShown s after n ↔ FrameFree s (kernelTablePlace s d v) n) := by
  obtain ⟨middle, returned, enters, _⟩ := alloc_page_enters s layout room d v isWriteable isKernel listed
    n first
  have kernelDirectory := enters.keeps.roots.kernelDirectory
  have high : middle.placeAddr.toNat + 4096 ≤ 2 ^ 31 := by
    have size := enters.place
    split at size <;> omega
  have shown := add_frame_shown middle enters.keeps.layout high n first.1
  rw [enters_frame_free s middle d v _ n process enters room first.1] at shown
  refine ⟨_, returned, ?_⟩
  rw [← shown]
  have same : ∀ page < 2 ^ 20, SameTranslation s middle s.kernelDirectory page := fun page less =>
    same_translation_of _ _ _ _ (enters_kernel s middle d v _ n process enters _ (by omega))
      (enters_kernel_pte s middle d v _ n process enters page less)
  have process' : d ≠ middle.kernelDirectory := fun here => process (here.trans kernelDirectory)
  unfold showFrame
  rw [if_pos process']
  -- the history is no part of what the kernel sees
  constructor
  · intro before
    refine ⟨kernelDirectory ▸ before.walks, kernelDirectory ▸ before.shows_, kernelDirectory ▸ before.table,
      fun page less different => ?_⟩
    rw [kernelDirectory]
    exact same_translation_trans _ _ _ _ _ (same_translation_symm _ _ _ _ (same page less))
      (before.others page less different)
  · intro before
    have others := before.others
    rw [kernelDirectory] at others
    exact ⟨kernelDirectory ▸ before.walks, kernelDirectory ▸ before.shows_, kernelDirectory ▸ before.table,
      fun page less different => same_translation_trans _ _ _ _ _ (same page less)
        (others page less different)⟩

/-- After any run: a frame given to a process is in the kernel's directory, with
nothing else of it changed, exactly when the kernel's page for it is free. -/
theorem frame_shown (s : Paging) (reached : Reached PagingBooted HalfStep s)
    (d v isWriteable isKernel frame : Word) (after : Paging) (listed : s.Listed d)
    (process : d ≠ s.kernelDirectory)
    (returned : allocPage s d v isWriteable isKernel = some (frame, after))
    (low : after.placeAddr.toNat ≤ KERNEL_MEM_END.toNat) :
    AccessesDirect s ∧ AccessesDirect after ∧ ∃ n, FirstFree s n ∧ frame = BitVec.ofNat 32 (4096 * n) ∧
      (FrameShown s after n ↔ FrameFree s (kernelTablePlace s d v) n) := by
  obtain ⟨holds, active⟩ := half_run_invariant s reached
  have layout := holds.layout
  have room := paged_invariant_room s holds
  obtain ⟨n, first, given, maps, _⟩ := alloc_page_result s layout (by omega) d v isWriteable isKernel listed
    frame after returned
  have still := maps_kernel_active s after d v isWriteable isKernel n maps (fun same => absurd same process) low
    active
  obtain ⟨after', returned', shown⟩ := alloc_page_shown s layout (by omega) d v isWriteable isKernel listed
    process n first
  rw [returned] at returned'
  obtain rfl := (Prod.mk.inj (Option.some.inj returned')).2
  exact ⟨kernel_active_direct s layout active, kernel_active_direct after maps.keeps.layout still, n, first,
    given, shown⟩

theorem frame_shown_one_page : ∃ s d after, allocPage s d 0x1000000#32 1#32 1#32 =
      some (KERNEL_MEM_END, after) ∧
    AccessesDirect s ∧ AccessesDirect after ∧ ∃ n, FirstFree s n ∧ KERNEL_MEM_END = BitVec.ofNat 32 (4096 * n) ∧
      (FrameShown s after n ↔ FrameFree s (kernelTablePlace s d 0x1000000#32) n) := by
  obtain ⟨s, d, process⟩ := one_process
  obtain ⟨after, allocated, _, _, reached⟩ := one_page s d process 0x1000000#32 1#32 (by decide)
  exact ⟨s, d, after, allocated, frame_shown s (paging_run_half s process.reached) d _ _ _ _ after
    (one_process_free s d process).1 process.other allocated (paging_invariant after reached).low⟩

/-- The kernel maps its own page 0xFF1000 to the first frame; the next frame, at
that address, goes to a process, and the kernel does not see it there. -/
theorem frame_hidden : ∃ s d after frame, Reached PagingBooted HalfStep s ∧ s.Listed d ∧
    d ≠ s.kernelDirectory ∧ allocPage s d 0x1000000#32 1#32 1#32 = some (frame, after) ∧
    after.placeAddr.toNat ≤ KERNEL_MEM_END.toNat ∧ frame = 0xFF1000#32 ∧ ¬ FrameShown s after 4081 := by
  have limit := kernel_mem_end
  have pages : kernelPages = 4080 := rfl
  obtain ⟨boot, d, process⟩ := one_process
  have low := process.place
  obtain ⟨s, allocated, maps, _⟩ := alloc_page_found boot (paging_invariant boot process.reached).layout (by omega)
    boot.kernelDirectory 0xFF1000#32 1#32 1#32 (Or.inl rfl) kernelPages (one_process_free boot d process).2
  have size := maps_place _ _ _ _ _ _ _ maps
  have step : HalfStep boot s := by
    refine ⟨PagingCall.allocPage boot.kernelDirectory 0xFF1000#32 1#32 1#32,
      ⟨Or.inl rfl, fun _ => by decide⟩, ?_, by omega⟩
    simp only [pagingCall, allocated, Option.bind_eq_bind, Option.bind_some]
  have reached := Reached.next (paging_run_half boot process.reached) step
  have roots := maps.keeps.roots
  have listed := (listed_same boot s roots d).mpr (one_process_free boot d process).1
  have other : d ≠ s.kernelDirectory := by
    rw [roots.kernelDirectory]
    exact process.other
  have layout := (half_run_invariant s reached).1.layout
  obtain ⟨after, returned, shown⟩ := alloc_page_shown s layout (by omega) d
    0x1000000#32 1#32 1#32 listed other 4081 (one_page_free boot s d _ _ process maps)
  obtain ⟨_, _, _, again, _⟩ := alloc_page_result s layout (by omega) d _ _ _ listed _ after returned
  have size' := maps_place _ _ _ _ _ _ _ again
  refine ⟨s, d, after, _, reached, listed, other, returned, by omega, rfl, ?_⟩
  rw [shown]
  intro free
  -- the kernel's entry for the page names the frame before
  have present : Present (s.entry s.kernelDirectory (4081 / 1024)) := by
    rw [roots.kernelDirectory]
    exact maps.present
  have entry : s.pte s.kernelDirectory 4081 = 0xFF0003#32 := by
    rw [roots.kernelDirectory]
    exact maps.pte
  rw [FrameFree, if_pos present, entry] at free
  obtain ⟨page, _⟩ := free.2 (by decide)
  exact absurd page (by decide)

end GargOS
