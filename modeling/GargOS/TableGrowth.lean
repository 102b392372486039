import GargOS.PagingRuns

/-!
The entries of directories over runs: an entry that is not present is 0, since
the calls only put tables into directories they have cleared.
-/

namespace GargOS
open ByteMemory Pages Runs

def NamesTable (entry : Word) : Prop := Present entry ∧ pageOf entry ≠ 0#32

def EmptyOrTables (s : Paging) : Prop :=
  ∀ d, s.Listed d → ∀ t < 1024, s.entry d t = 0#32 ∨ NamesTable (s.entry d t)

/-- Where an entry of a directory has changed, it names a table. -/
def TablesGrow (s after : Paging) : Prop :=
  ∀ d, s.Listed d → ∀ t < 1024, after.entry d t = s.entry d t ∨ NamesTable (after.entry d t)

theorem tables_grow_trans (s middle after : Paging) (more : ∀ d, s.Listed d → middle.Listed d)
    (first : TablesGrow s middle) (second : TablesGrow middle after) : TablesGrow s after := by
  intro d listed t bound
  rcases second d (more d listed) t bound with same | table
  · rw [same]
    exact first d listed t bound
  · exact Or.inr table

theorem tables_grow_same (s after : Paging)
    (same : ∀ d, s.Listed d → ∀ t < 1024, after.entry d t = s.entry d t) : TablesGrow s after :=
  fun d listed t bound => Or.inl (same d listed t bound)

theorem grown_tables (s after : Paging) (grow : TablesGrow s after) (holds : EmptyOrTables s)
    (fewer : ∀ d, after.Listed d → s.Listed d) : EmptyOrTables after := by
  intro d listed t bound
  rcases grow d (fewer d listed) t bound with same | table
  · rw [same]
    exact holds d (fewer d listed) t bound
  · exact Or.inr table

section Calls
variable (s : Paging) (layout : Layout s)
include layout

theorem new_table_named (flags : Word) (small : flags.toNat < 4096) (present : Present flags) :
    NamesTable (s.placeAddr ||| flags) := by
  have bitset := (layout.housed _ _ (Paging.Home.bitset 0 (by decide))).2
  constructor
  · rw [present_flagged _ _ layout.aligned]
    exact present
  · rw [page_of_flagged _ _ layout.aligned small]
    intro none
    rw [none] at bitset
    simp at bitset

theorem installs_grow (after : Paging) (d : Word) (t : Nat) (flags : Word) (listed : s.Listed d)
    (bound : t < 1024) (absent : ¬ Present (s.entry d t)) (small : flags.toNat < 4096)
    (present : Present flags) (room : s.placeAddr.toNat + 4096 ≤ 2 ^ 31)
    (installs : Installs s after d t flags) : TablesGrow s after := by
  obtain ⟨_, _, others, _⟩ := installs_result s layout after d t flags listed bound absent small room installs
  intro d' listed' t' bound'
  by_cases here : d' = d ∧ t' = t
  · obtain ⟨rfl, rfl⟩ := here
    right
    rw [installs.entry]
    exact new_table_named s layout flags small present
  · exact Or.inl (others d' listed' t' bound' here)

theorem with_table_grow (room : s.placeAddr.toNat + 4096 ≤ 2 ^ 31) (d v : Word) (listed : s.Listed d) :
    TablesGrow s (withTable s d v) := by
  rcases with_table_cases s layout d v listed with ⟨_, same⟩ | ⟨absent, installs, _⟩
  · rw [same]
    exact tables_grow_same s s fun _ _ _ _ => rfl
  · exact installs_grow s layout _ d _ _ listed (by omega) absent (by decide) (by decide) room installs

theorem add_frame_grow (room : s.placeAddr.toNat + 4096 ≤ 2 ^ 31) (frame : Word) :
    TablesGrow s (addFrameToKernelDir s frame) := by
  obtain ⟨middle, table, _, _, result⟩ := add_frame_cases s layout room frame
  have kernel : s.Listed s.kernelDirectory := Or.inl rfl
  obtain ⟨grow, more⟩ : TablesGrow s middle ∧ ∀ d, s.Listed d → middle.Listed d := by
    cases table with
    | found _ same =>
        subst same
        exact ⟨tables_grow_same _ _ fun _ _ _ _ => rfl, fun _ listed => listed⟩
    | made absent installs _ =>
        exact ⟨installs_grow s layout middle _ _ _ kernel (by omega) absent (by decide) (by decide) room
            installs,
          fun d => (listed_same s middle installs.roots d).mpr⟩
  rcases result with ⟨_, done⟩ | ⟨_, stored⟩
  · rw [done]
    exact grow
  · exact tables_grow_trans s middle _ more grow (tables_grow_same _ _ stored.entries)

theorem alloc_page_grow (room : s.placeAddr.toNat + 8192 ≤ 2 ^ 31) (d v isWriteable isKernel frame : Word)
    (after : Paging) (listed : s.Listed d)
    (returned : allocPage s d v isWriteable isKernel = some (frame, after)) : TablesGrow s after := by
  obtain ⟨n, first, _⟩ := alloc_page_result s layout room d v isWriteable isKernel listed frame after returned
  obtain ⟨middle, allocated, enters, table⟩ := alloc_page_enters s layout room d v isWriteable isKernel
    listed n first
  rw [allocated] at returned
  obtain rfl := (Prod.mk.inj (Option.some.inj returned)).2
  have flags := table_flags_small isWriteable isKernel
  have more : ∀ d, s.Listed d → middle.Listed d := fun d => (listed_same s middle enters.keeps.roots d).mpr
  have entered : TablesGrow s middle := by
    intro d' listed' t bound
    by_cases here : d' = d ∧ t = v.toNat / 4096 / 1024
    · obtain ⟨rfl, rfl⟩ := here
      by_cases present : Present (s.entry d' (v.toNat / 4096 / 1024))
      · exact Or.inl (enters.keeps.entries d' listed _ bound present)
      · right
        rw [table present]
        exact new_table_named s layout _ flags.1 flags.2.2
    · exact Or.inl (enters.entries d' listed' t bound here)
  have place := enters.place
  have added : (if Present (s.entry d (v.toNat / 4096 / 1024)) then 0 else 4096) ≤ 4096 := by
    split <;> omega
  have shown := add_frame_grow middle enters.keeps.layout (by omega) (BitVec.ofNat 32 (4096 * n))
  refine tables_grow_trans s middle _ more entered fun d' listed' t bound => ?_
  by_cases process : d ≠ middle.kernelDirectory
  · rw [showFrame, if_pos process]
    exact shown d' listed' t bound
  · rw [showFrame, if_neg process]
    exact Or.inl rfl

theorem kernel_rounds_grow (d : Word) (listed : s.Listed d) (room : s.placeAddr.toNat + 65536 ≤ 2 ^ 31)
    (blank : ∀ t < 1024, s.entry d t = 0#32) (n : Nat) (bound : n ≤ kernelPages) :
    TablesGrow s (kernelRounds s d n) := by
  have pages : kernelPages = 4080 := rfl
  induction n with
  | zero => exact tables_grow_same s _ fun _ _ _ _ => rfl
  | succ n ih =>
      have grow := ih (by omega)
      have mapped := kernel_rounds_result s layout d listed room blank n (by omega)
      have tables := tables_few n (by omega)
      have number := page_number n (by omega)
      rw [kernel_rounds_succ]
      generalize kernelRounds s d n = base at grow mapped ⊢
      have place := mapped.place
      have ready := kernel_table_ready s base d listed room n (by omega) mapped
      have listed' : base.Listed d := (listed_same s base mapped.keeps.roots d).mpr listed
      have made := with_table_grow base mapped.keeps.layout (by omega) d (BitVec.ofNat 32 (4096 * n)) listed'
      generalize withTable base d (BitVec.ofNat 32 (4096 * n)) = middle at ready made ⊢
      have table : Present (middle.entry d ((BitVec.ofNat 32 (4096 * n)).toNat / 4096 / 1024)) := by
        rw [number, ready.entries _ (by omega), tables_next]
        omega
      have more : ∀ d', base.Listed d' → middle.Listed d' :=
        fun d' => (listed_same base middle ready.keeps.roots d').mpr
      have stored := store_page middle ready.keeps.layout d (BitVec.ofNat 32 (4096 * n))
        (BitVec.ofNat 32 (4096 * n) ||| 0x3#32) (more d listed') table
      have round := tables_grow_trans base middle _ more made (tables_grow_same _ _ stored.entries)
      exact tables_grow_trans s base _ (fun d' => (listed_same s base mapped.keeps.roots d').mpr) grow round

end Calls

/-! The states of a run. -/

theorem identity_rounds_grow (base : Paging) (start : Identity base base 0)
    (room : base.placeAddr.toNat + 65536 ≤ 2 ^ 31) (n : Nat) (bound : n ≤ kernelPages) (s : Paging)
    (done : identityRounds base n = some s) : TablesGrow base s := by
  have pages : kernelPages = 4080 := rfl
  induction n generalizing s with
  | zero =>
      obtain rfl := Option.some.inj done
      exact tables_grow_same base base fun _ _ _ _ => rfl
  | succ n ih =>
      obtain ⟨before, earlier, identity⟩ := identity_rounds_result base start room n (by omega)
      have tables := tables_few n (by omega)
      have place := identity.place
      obtain ⟨after, allocated, _⟩ := identity_round base before room n (by omega) identity
      simp only [identityRounds, earlier, Option.bind_eq_bind, Option.bind_some, allocated,
        Option.some.injEq] at done
      subst done
      exact tables_grow_trans base before after
        (fun d => (listed_same base before identity.roots d).mpr) (ih (by omega) before earlier)
        (alloc_page_grow before identity.layout (by omega) _ _ _ _ _ after (Or.inl rfl) allocated)

theorem booted_tables (s : Paging) (booted : PagingBooted s) : EmptyOrTables s := by
  have limit : KERNEL_MEM_END.toNat = 16711680 := rfl
  obtain ⟨start, empty, low, done, _⟩ := booted
  obtain ⟨base, enters⟩ := init_paging_base start low empty
  have place := enters.place
  obtain ⟨last, rounds, identity⟩ := identity_rounds_result base enters.start (by omega) kernelPages
    (Nat.le_refl _)
  rw [enters.returns, rounds] at done
  obtain rfl := Option.some.inj done
  have grow := identity_rounds_grow base enters.start (by omega) kernelPages (Nat.le_refl _) last rounds
  have only : ∀ d, last.Listed d → base.Listed d := fun d => (listed_same base last identity.roots d).mp
  have blank : EmptyOrTables base := by
    intro d listed t bound
    left
    rcases listed with rfl | process
    · exact enters.blank t bound
    · rw [enters.directories] at process
      simp at process
  exact fun d listed => grown_tables base last grow blank only d listed

theorem new_directory_tables (s : Paging) (layout : Layout s) (room : s.placeAddr.toNat + 131072 ≤ 2 ^ 31)
    (holds : EmptyOrTables s) : EmptyOrTables (getNewKernelMappedDir s).2 := by
  have first := kmalloc_a_aligned s layout.aligned 4096#32
  have top : (s.placeAddr + 4096#32).toNat = s.placeAddr.toNat + 4096 := by bv_omega
  unfold getNewKernelMappedDir
  rw [first]
  dsimp only
  generalize shape : ({ s with
    mem := memset s.mem s.placeAddr 0#8 4096
    placeAddr := s.placeAddr + 4096#32
    history := ⟨⟨s.placeAddr, 4096#32, none⟩ :: s.history.regions,
      s.placeAddr :: s.history.directories, s.history.mappings⟩ } : Paging) = base
  obtain ⟨layout1, _, entries, blank⟩ := directory_cleared s base layout room shape
  have roots : base.placeAddr = s.placeAddr + 4096#32 ∧ ∀ d, base.Listed d ↔ s.Listed d ∨ d = s.placeAddr := by
    subst shape
    refine ⟨rfl, fun d => ?_⟩
    simp only [Paging.Listed, List.mem_cons]
    rw [or_assoc]
    exact or_congr_right or_comm
  have mine : base.Listed s.placeAddr := (roots.2 _).mpr (Or.inr rfl)
  have room1 : base.placeAddr.toNat + 65536 ≤ 2 ^ 31 := by
    rw [roots.1]
    omega
  have cleared : EmptyOrTables base := by
    intro d listed t bound
    rcases (roots.2 d).mp listed with before | rfl
    · rw [entries d before t bound]
      exact holds d before t bound
    · exact Or.inl (blank t bound)
  have grow := kernel_rounds_grow base layout1 s.placeAddr mine room1 blank kernelPages (Nat.le_refl _)
  have mapped := kernel_rounds_result base layout1 s.placeAddr mine room1 blank kernelPages (Nat.le_refl _)
  exact grown_tables base _ grow cleared fun d => (listed_same base _ mapped.keeps.roots d).mp

theorem any_run_tables (s : Paging) (reached : Reached PagingBooted AnyPagingStep s) :
    PagedRecords s ∧ EmptyOrTables s := by
  apply reached_invariant (fun s => PagedRecords s ∧ EmptyOrTables s) _ _ s reached
  · exact fun s booted => ⟨(booted_invariant s booted).toPagedRecords, booted_tables s booted⟩
  · intro s after holds step
    refine ⟨any_step_records s after holds.1 step, ?_⟩
    obtain ⟨call, listed, returned, room⟩ := step
    cases call with
    | getNewKernelMappedDir =>
        obtain rfl := Option.some.inj returned
        exact new_directory_tables s holds.1.layout room holds.2
    | allocPage directory vaddr isWriteable isKernel =>
        obtain ⟨frame, allocated⟩ := alloc_page_call s after directory vaddr isWriteable isKernel returned
        have grow := alloc_page_grow s holds.1.layout (by omega) directory vaddr isWriteable isKernel frame
          after listed allocated
        obtain ⟨_, _, _, maps, _⟩ := alloc_page_result s holds.1.layout (by omega) directory vaddr isWriteable
          isKernel listed frame after allocated
        exact grown_tables s after grow holds.2 fun d => (listed_same s after maps.keeps.roots d).mp

end GargOS
