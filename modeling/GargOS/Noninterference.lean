import GargOS.Isolation
import GargOS.KernelMemory
import GargOS.Lib.Unwinding

/-!
What a process can learn of the others from its memory. Without their stores
the machine makes the same pages for it, with the same bytes in them.
-/

namespace GargOS
open ByteMemory AddressSpace Pages Ledger Runs Unwinding

/-- The bytes of the processes other than `d`. -/
def Foreign (s : Paging) (d x : Word) : Prop :=
  ∃ m ∈ s.history.mappings, m.directory ≠ d ∧ m.directory ≠ s.kernelDirectory ∧ InSpan m.frame 4096 x

def Shown (d : Word) (s : Paging) : PagedEvent → Prop
  | .call _ => True
  | .switch _ => True
  | .store _ _ => s.currentDir = d

instance (d : Word) (s : Paging) : (e : PagedEvent) → Decidable (Shown d s e)
  | .call _ => inferInstanceAs (Decidable True)
  | .switch _ => inferInstanceAs (Decidable True)
  | .store _ _ => inferInstanceAs (Decidable (_ = _))

/-- The machines differ at most in what other processes have stored. -/
def Alike (d : Word) (s t : Paging) : Prop := SameKnown (fun x => ¬ Foreign s d x) s t

theorem foreign_above (s : Paging) (holds : PagedInvariant s) (d x : Word) (foreign : Foreign s d x) :
    KERNEL_MEM_END.toNat ≤ x.toNat := by
  obtain ⟨m, member, _, process, inside⟩ := foreign
  have recorded := holds.recorded m member
  obtain ⟨n, bound, frame⟩ := recorded.frame
  have value := frame_toNat n bound
  have above := mt recorded.process process
  rw [frame] at above inside
  rw [in_span_iff _ 4096 x (by omega)] at inside
  omega

/-- A frame is given once, so those of a process are not foreign to it. -/
theorem own_not_foreign (s : Paging) (holds : PagedInvariant s) (d : Word) (page : Nat) (m : Mapping)
    (found : s.mapping d page = some m) (x : Word) (inside : InSpan m.frame 4096 x) : ¬ Foreign s d x := by
  rintro ⟨m', member, other, _, insideToo⟩
  obtain ⟨mine, key⟩ := latest_mem _ _ _ _ found
  have isPage := (mapped_page s holds.toPagedRecords d page m found).isPage
  obtain ⟨n, bound, frame⟩ := (holds.recorded m' member).frame
  have same := page_unique _ _ x isPage (frame ▸ frame_is_page n bound) inside insideToo
  have equal := value_unique _ Mapping.frame holds.once m m' mine member same
  exact other (equal ▸ (Prod.mk.inj key).1)

theorem foreign_more (s after : Paging) (d x : Word) (root : after.kernelDirectory = s.kernelDirectory)
    (more : ∀ m ∈ s.history.mappings, m ∈ after.history.mappings) (foreign : Foreign s d x) :
    Foreign after d x := by
  obtain ⟨m, member, other, process, inside⟩ := foreign
  exact ⟨m, more m member, other, root ▸ process, inside⟩

section Pairs
variable (d : Word) (s t after : Paging) (held : SpacesHeld s) (heldToo : SpacesHeld t) (alike : Alike d s t)
include alike

theorem alike_mapping (d' : Word) (page : Nat) : t.mapping d' page = s.mapping d' page := by
  unfold Paging.mapping
  rw [alike.history]

theorem alike_own (d' a : Word) : t.Own d' a ↔ s.Own d' a := by
  unfold Paging.Own
  rw [alike_mapping d s t alike]

theorem alike_allowed (e : PagedEvent) : PagedAllowed t e ↔ PagedAllowed s e := by
  have listed : ∀ d', t.Listed d' ↔ s.Listed d' := by
    intro d'
    unfold Paging.Listed
    rw [alike.kernelDirectory, alike.history]
  cases e with
  | call call =>
      cases call with
      | getNewKernelMappedDir => exact Iff.rfl
      | allocPage directory v isWriteable isKernel => exact and_congr_left fun _ => listed directory
  | switch dir => exact listed dir
  | store a b =>
      show t.currentDir ∈ t.history.directories ∧ t.Own t.currentDir a ↔ _
      rw [alike.currentDir, alike.history, alike_own d s t alike]
      exact Iff.rfl

theorem alike_step (e : PagedEvent) (other : Paging) (moved : pagedStep s e = some after)
    (movedToo : pagedEvent t e = some other) : pagedStep t e = some other := by
  unfold pagedStep at moved
  split at moved
  next allowed => rw [pagedStep, if_pos ((alike_allowed d s t alike e).mpr allowed), movedToo]
  next => simp at moved

omit t alike in
include held in
theorem kernel_not_foreign (x : Word) (below : x.toNat < KERNEL_MEM_END.toNat) : ¬ Foreign s d x := by
  intro foreign
  have above := foreign_above s held.holds d x foreign
  omega

include held

theorem alike_walk (d' : Word) (listed : s.Listed d') (page : Nat) (inSpace : page < 2 ^ 20) :
    t.walk d' page = s.walk d' page := by
  have kernel := kernel_not_foreign d s held
  have layout := held.holds.layout
  have low := held.holds.low
  have directory := layout.housed _ _ (Paging.Home.directory d' listed)
  have entry : t.entry d' (page / 1024) = s.entry d' (page / 1024) :=
    same_cell _ s t alike kernel d' (page / 1024) directory.1 (by omega) (by omega)
  refine walk_same s t d' page entry fun present => ?_
  have table := layout.housed _ _ (Paging.Home.table d' (page / 1024) listed (by omega) present)
  unfold Paging.pte
  rw [entry]
  exact same_cell _ s t alike kernel _ _ table.1 (Nat.mod_lt _ (by decide)) (by omega)

include heldToo

theorem alike_consistent (e : PagedEvent) (shown : Shown d s e) (moved : pagedStep s e = some after) :
    ∃ other, pagedStep t e = some other ∧ Alike d after other := by
  have kernel := kernel_not_foreign d s held
  have layout := held.holds.layout
  have low := held.holds.low
  have room := paged_invariant_room s held.holds
  have again := alike_step d s t after alike e
  cases paged_cases s after held e moved with
  | newDirectory lowAfter =>
      have new := (new_directory_result s layout room).2
      have size := new.place
      have same := same_new_directory _ s t alike kernel layout (by omega)
      have lowToo : (getNewKernelMappedDir t).2.placeAddr.toNat ≤ KERNEL_MEM_END.toNat := by
        rw [same.placeAddr]
        exact lowAfter
      refine ⟨_, again _ moved ?_, same_known_less _ _ _ _ same fun x known foreign => known ?_⟩
      · simp only [pagedEvent, pagingCall, Option.bind_eq_bind, Option.bind_some, if_pos lowToo]
      · exact foreign_more s _ d x new.kernelDirectory (fun m member => new.mappings ▸ member) foreign
  | allocPage directory v isWriteable isKernel frame _ listed _ allocated lowAfter =>
      obtain ⟨_, _, _, maps, _⟩ := alloc_page_result s layout (by omega) directory v isWriteable isKernel listed
        frame after allocated
      obtain ⟨other, allocatedToo, same⟩ := same_alloc_page _ s t alike kernel layout low (by omega) directory v
        isWriteable isKernel frame listed after allocated lowAfter
      have lowToo : other.placeAddr.toNat ≤ KERNEL_MEM_END.toNat := by
        rw [same.placeAddr]
        exact lowAfter
      refine ⟨other, again _ moved ?_, same_known_less _ _ _ _ same fun x known foreign => known ?_⟩
      · simp only [pagedEvent, pagingCall, allocatedToo, Option.bind_eq_bind, Option.bind_some, if_pos lowToo]
      · refine foreign_more s after d x maps.keeps.roots.kernelDirectory (fun m member => ?_) foreign
        rw [maps.mappings]
        exact List.mem_cons_of_mem _ member
  | switch dir listed =>
      exact ⟨switchPageDirectory t dir, again _ moved rfl,
        ⟨alike.placeAddr, alike.kernelDirectory, alike.frames, rfl, alike.history, alike.bytes⟩⟩
  | store a b m running found =>
      have foundToo : t.mapping t.currentDir (a.toNat / 4096) = some m := by
        rw [alike_mapping d s t alike, alike.currentDir]
        exact found
      refine ⟨t.stored m a b, again _ moved (store_mapped t heldToo.holds a m foundToo b),
        ⟨alike.placeAddr, alike.kernelDirectory, alike.frames, alike.currentDir, alike.history, ?_⟩⟩
      exact fun x known => write_same _ _ _ _ _ (alike.bytes x known)

omit heldToo in
theorem alike_respects (e : PagedEvent) (hidden : ¬ Shown d s e) (moved : pagedStep s e = some after) :
    Alike d after t := by
  cases paged_cases s after held e moved with
  | newDirectory low => exact absurd trivial hidden
  | allocPage directory v isWriteable isKernel frame _ listed _ allocated low => exact absurd trivial hidden
  | switch dir listed => exact absurd trivial hidden
  | store a b m running found =>
      refine ⟨alike.placeAddr, alike.kernelDirectory, alike.frames, alike.currentDir, alike.history,
        fun x known => ?_⟩
      rw [alike.bytes x known]
      symm
      apply stored_outside s a m b
      intro inside
      obtain ⟨member, key⟩ := latest_mem _ _ _ _ found
      have owner : m.directory = s.currentDir := (Prod.mk.inj key).1
      refine known ⟨m, member, ?_, ?_, inside⟩
      · rw [owner]
        exact hidden
      · rw [owner]
        exact held.process _ running

theorem alike_load (inUse : d ∈ s.history.directories) (a : Word) (own : s.Own d a) :
    load8 (switchPageDirectory t d) a = load8 (switchPageDirectory s d) a := by
  have inUseToo : d ∈ t.history.directories := by
    rw [alike.history]
    exact inUse
  have mapping := alike_mapping d s t alike d (a.toNat / 4096)
  have there := own_load t heldToo d inUseToo a ((alike_own d s t alike d a).mpr own)
  rw [mapping] at there
  rcases own_load s held d inUse a own with ⟨m, found, shown⟩ | ⟨absent, faults⟩
  · rcases there with ⟨m', again, shownToo⟩ | ⟨absent, _⟩
    · rw [found] at again
      obtain rfl := Option.some.inj again
      rw [shown, shownToo,
        alike.bytes _ (own_not_foreign s held.holds d _ m found _ (in_frame m.frame a))]
    · rw [found] at absent
      simp at absent
  · rcases there with ⟨m', again, _⟩ | ⟨_, faultsToo⟩
    · rw [absent] at again
      simp at again
    · rw [faults, faultsToo]

end Pairs

theorem alike_refl (d : Word) (s : Paging) : Alike d s s := ⟨rfl, rfl, rfl, rfl, rfl, fun _ _ => rfl⟩

theorem paging_unwinds (d : Word) :
    Unwinds pagedStep (Shown d) (fun _ _ => True) SpacesHeld SpacesHeld (Alike d) where
  kept s after e held _ moved := move_held s after held e moved
  consistent s t e after held heldToo alike shown moved := by
    obtain ⟨other, movedToo, next⟩ := alike_consistent d s t after held heldToo alike e shown moved
    exact ⟨other, movedToo, move_held t other heldToo e movedToo, next⟩
  respects s t e after held alike _ hidden moved := alike_respects d s t after held alike e hidden moved

/-- A run without the stores of the other processes goes through as well, and at
its end the process finds the same pages, the same flags and the same bytes. -/
theorem stores_unseen (s after : Paging) (reached : Reached PagingBooted PagedMove s) (d : Word)
    (events : List PagedEvent) (returned : follow pagedStep s events = some after)
    (inUse : d ∈ after.history.directories) :
    ∃ other, follow pagedStep s (purge pagedStep (Shown d) s events) = some other ∧
      other.history = after.history ∧ (∀ page < 2 ^ 20, other.walk d page = after.walk d page) ∧
      ∀ a, after.Own d a → load8 (switchPageDirectory other d) a = load8 (switchPageDirectory after d) a := by
  have held := paged_run_held s reached
  obtain ⟨other, purged, heldAfter, heldOther, alike⟩ := purged_run pagedStep (Shown d) _ SpacesHeld
    SpacesHeld (Alike d) (paging_unwinds d) events s s after held held (alike_refl d s)
    (throughout_all pagedStep events s) returned
  exact ⟨other, purged, alike.history, alike_walk d after other heldAfter alike d (Or.inr inUse),
    fun a own => alike_load d after other heldAfter heldOther alike inUse a own⟩

/-- The store of the second process is left out, the run of the first is the same. -/
theorem stores_unseen_two : ∃ s d e after, TwoProcesses s d e ∧
    follow pagedStep s [.store 0x1000000#32 7#8, .switch d] = some after ∧
    load8 (switchPageDirectory after e) 0x1000000#32 = some 7#8 ∧
    ∃ other, follow pagedStep s [.switch d] = some other ∧
      load8 (switchPageDirectory other d) 0x1000000#32 = load8 (switchPageDirectory after d) 0x1000000#32 := by
  obtain ⟨s, d, e, two⟩ := two_processes
  obtain ⟨stored, moved, shown⟩ := two_processes_store s d e two 7#8
  have held := paged_run_held s two.reached
  have besides : ¬ MadeFor s d (.store 0x1000000#32 7#8) := fun same =>
    two.different (two.running.symm.trans same)
  have kept := move_besides_kept s stored held _ d two.inUse.1 besides moved
  have permitted : PagedAllowed stored (.switch d) := Or.inr kept.listed
  have switched : pagedStep stored (.switch d) = some (switchPageDirectory stored d) := by
    rw [pagedStep, if_pos permitted]
    rfl
  have returned : follow pagedStep s [.store 0x1000000#32 7#8, .switch d] =
      some (switchPageDirectory stored d) := by
    simp only [follow, moved, switched, Option.bind_eq_bind, Option.bind_some]
  have hidden : ¬ Shown d s (.store 0x1000000#32 7#8) := besides
  have visible : Shown d stored (.switch d) := trivial
  have rest : purge pagedStep (Shown d) s [.store 0x1000000#32 7#8, .switch d] = [.switch d] := by
    rw [purge_cons _ _ s stored _ _ moved, if_neg hidden, purge_cons _ _ stored _ _ _ switched,
      if_pos visible]
    rfl
  obtain ⟨other, purged, _, _, same⟩ := stores_unseen s _ two.reached d _ returned kept.listed
  rw [rest] at purged
  exact ⟨s, d, e, _, two, returned, shown, other, purged, same 0x1000000#32 (Or.inr (by decide))⟩

/-! Pages that a process has not written. -/

def UnstoredMove (d : Word) (s after : Paging) : Prop :=
  ∃ e, (∀ a b, e = .store a b → s.currentDir ≠ d) ∧ pagedStep s e = some after

/-- No move but a store of `d` writes to a frame that no other process has. -/
theorem unstored_kept (d : Word) (s after : Paging) (held : SpacesHeld s) (move : UnstoredMove d s after)
    (x : Word) (high : KERNEL_MEM_END.toNat ≤ x.toNat) (free : ¬ Foreign after d x) :
    after.mem x = s.mem x ∧ ¬ Foreign s d x := by
  obtain ⟨e, unstored, moved⟩ := move
  have layout := held.holds.layout
  have room := paged_invariant_room s held.holds
  cases paged_cases s after held e moved with
  | newDirectory low =>
      have new := (new_directory_result s layout room).2
      have size := new.place
      refine ⟨new_directory_outside s layout.aligned (by omega) x ?_, fun foreign => free ?_⟩
      · rw [in_span_iff _ 20480 x (by omega)]
        omega
      · exact foreign_more s _ d x new.kernelDirectory (fun m member => new.mappings ▸ member) foreign
  | allocPage directory v isWriteable isKernel frame _ listed _ allocated low =>
      obtain ⟨_, _, _, maps, _⟩ := alloc_page_result s layout (by omega) directory v isWriteable isKernel listed
        frame after allocated
      refine ⟨maps.keeps.above x (by omega), fun foreign => free ?_⟩
      refine foreign_more s after d x maps.keeps.roots.kernelDirectory (fun m member => ?_) foreign
      rw [maps.mappings]
      exact List.mem_cons_of_mem _ member
  | switch dir listed => exact ⟨rfl, free⟩
  | store a b m running found =>
      refine ⟨stored_outside s a m b x fun inside => free ?_, free⟩
      obtain ⟨member, key⟩ := latest_mem _ _ _ _ found
      have owner : m.directory = s.currentDir := (Prod.mk.inj key).1
      refine ⟨m, member, ?_, ?_, inside⟩
      · rw [owner]
        exact unstored a b rfl
      · rw [owner]
        exact held.process _ running

/-- As long as a process stores nothing its pages show what memory held when
paging began, whatever the other processes have stored. -/
theorem unwritten_pages (boot s : Paging) (booted : PagingBooted boot) (d : Word)
    (run : Leads (UnstoredMove d) boot s) (inUse : d ∈ s.history.directories) (a : Word) (m : Mapping)
    (found : s.mapping d (a.toNat / 4096) = some m) :
    load8 (switchPageDirectory s d) a = some (boot.mem (m.frame + BitVec.ofNat 32 (a.toNat % 4096))) := by
  have kept : SpacesHeld s ∧ ∀ x : Word, KERNEL_MEM_END.toNat ≤ x.toNat → ¬ Foreign s d x →
      s.mem x = boot.mem x := by
    clear found inUse
    induction run with
    | stay => exact ⟨booted_held boot booted, fun _ _ _ => rfl⟩
    | next _ move ih =>
        obtain ⟨held, same⟩ := ih
        obtain ⟨e, _, moved⟩ := id move
        refine ⟨move_held _ _ held e moved, fun x high free => ?_⟩
        obtain ⟨here, freeBefore⟩ := unstored_kept d _ _ held move x high free
        rw [here, same x high freeBefore]
  obtain ⟨held, same⟩ := kept
  have inside := in_frame m.frame a
  have mapped : s.mapping d (a.toNat / 4096) ≠ none := by
    rw [found]
    simp
  rcases own_load s held d inUse a (Or.inl mapped) with ⟨m', again, shown⟩ | ⟨absent, _⟩
  · rw [found] at again
    obtain rfl := Option.some.inj again
    rw [shown, same _ (process_frame_above s held.holds d (held.process d inUse) _ m found _ inside)
      (own_not_foreign s held.holds d _ m found _ inside)]
  · exact absurd absent mapped

theorem paging_step_unstored (d : Word) (s after : Paging) (step : PagingStep s after) : UnstoredMove d s after := by
  obtain ⟨call, allowed, returned, low⟩ := step
  exact ⟨.call call, fun _ _ same => by simp at same, paging_call_moves s after call allowed returned low⟩

/-- The first of two processes has stored nothing, the second one has, at the same address. -/
theorem unwritten_pages_one : ∃ boot s d e, PagingBooted boot ∧
    s.mapping d 0x1000 = some ⟨d, 0x1000, KERNEL_MEM_END, 3#32⟩ ∧
    load8 (switchPageDirectory s e) 0x1000000#32 = some 7#8 ∧
    load8 (switchPageDirectory s d) 0x1000000#32 = some (boot.mem (KERNEL_MEM_END + 0#32)) := by
  obtain ⟨before, d, e, pages⟩ := two_pages
  obtain ⟨boot, booted, calls⟩ := reached_from before pages.reached
  obtain ⟨two, switched⟩ := two_pages_running before d e pages
  obtain ⟨s, stored, shown⟩ := two_processes_store _ d e two 7#8
  have run : Leads (UnstoredMove d) boot s :=
    Leads.next (Leads.next (leads_mono (paging_step_unstored d) boot before calls)
      ⟨.switch e, fun _ _ same => by simp at same, switched⟩) ⟨_, fun _ _ _ => two.different, stored⟩
  have besides : ¬ MadeFor (switchPageDirectory before e) d (.store 0x1000000#32 7#8) := two.different
  have kept := move_besides_kept _ s (paged_run_held _ two.reached) _ d two.inUse.1 besides stored
  have found := (kept.mappings 0x1000).trans two.first
  exact ⟨boot, s, d, e, booted, found, shown,
    unwritten_pages boot s booted d run kept.listed 0x1000000#32 _ found⟩

end GargOS
