import GargOS.PointUpdate

/-!
The directory of a new process, made from memory of any content. The tables are
not cleared, so the last of them, which the kernel's half fills only in part,
keeps what its page held before.
-/

namespace GargOS
open ByteMemory Pages

structure MapsKernelOnly (s : Paging) (d : Word) : Prop where
  kernel : ∀ k < kernelPages, ∃ entry pte, s.walk d k = some (entry, pte) ∧
    pageOf pte = BitVec.ofNat 32 (4096 * k) ∧ entry &&& 2#32 ≠ 0#32 ∧ pte &&& 2#32 ≠ 0#32 ∧
    entry &&& 4#32 = 0#32 ∧ pte &&& 4#32 = 0#32
  nothing : ∀ page < 2 ^ 20, kernelPages ≤ page → s.walk d page = none

def tableBehind (d : Word) (t : Nat) : Word := d + BitVec.ofNat 32 (4096 * (t + 1))

/-- The directory and its tables after `n` rounds of `get_new_kernel_mapped_dir`. -/
structure HalfBuilt (base s : Paging) (d : Word) (n : Nat) : Prop where
  place : s.placeAddr = tableBehind d (tablesFor n)
  entries : ∀ t < 1024, s.entry d t = if t < tablesFor n then tableBehind d t ||| 0x3#32 else 0#32
  cells : ∀ t < 4, ∀ i < 1024, load32 s.mem (cell (tableBehind d t) i) =
    if 1024 * t + i < n then BitVec.ofNat 32 (4096 * (1024 * t + i)) ||| 0x3#32
    else load32 base.mem (cell (tableBehind d t) i)

section Build
variable (d : Word) (page : IsPage d) (top : d.toNat + 20480 ≤ 2 ^ 31)
include page top

theorem table_behind_page (t : Nat) (few : t ≤ 4) :
    (tableBehind d t).toNat = d.toNat + 4096 * (t + 1) ∧ IsPage (tableBehind d t) := by
  have place : (tableBehind d t).toNat = d.toNat + 4096 * (t + 1) := by
    unfold tableBehind
    bv_omega
  refine ⟨place, ?_⟩
  unfold IsPage at *
  omega

theorem table_behind_apart (t t' : Nat) (few : t ≤ 4) (few' : t' ≤ 4) (different : t ≠ t') :
    tableBehind d t ≠ tableBehind d t' := by
  intro same
  have first := (table_behind_page d page top t few).1
  have second := (table_behind_page d page top t' few').1
  rw [same] at first
  omega

theorem table_behind_directory (t : Nat) (few : t ≤ 4) : tableBehind d t ≠ d := by
  intro same
  have place := (table_behind_page d page top t few).1
  rw [same] at place
  omega

omit page top in
theorem place_behind_next (t : Nat) : tableBehind d t + 4096#32 = tableBehind d (t + 1) := by
  unfold tableBehind
  bv_omega

variable (base s : Paging) (n : Nat) (bound : n < kernelPages) (built : HalfBuilt base s d n)
include bound built

/-- The round makes the table of its page, unless an earlier one has. -/
theorem half_table_ready (middle : Paging)
    (ready : withTable s d (BitVec.ofNat 32 (4096 * n)) = middle) :
    middle.placeAddr = tableBehind d (tablesFor (n + 1)) ∧
      (∀ t < 1024, middle.entry d t = if t < tablesFor (n + 1) then tableBehind d t ||| 0x3#32 else 0#32) ∧
      ∀ t < 4, PageKept s.mem middle.mem (tableBehind d t) := by
  unfold kernelPages at bound
  have number := page_number n (by omega)
  have load := load_entry s d (BitVec.ofNat 32 (4096 * n))
  have index := table_index_toNat (BitVec.ofNat 32 (4096 * n))
  rw [number] at load index
  have tables := tables_here n
  have entry := built.entries (n / 1024) (by omega)
  have inUse : Present (s.entry d (n / 1024)) ↔ n / 1024 < tablesFor n := by
    rw [entry]
    split
    next less =>
      rw [present_flagged _ _ (table_behind_page d page top _ (by omega)).2]
      exact iff_of_true (by decide) less
    next more => exact iff_of_false (by decide) more
  rw [← load] at inUse
  rw [withTable] at ready
  rw [tables_next]
  by_cases missing : s.load (element d (TABLE_INDEX_FROM_VIRTUAL_ADDRESS
      (BitVec.ofNat 32 (4096 * n)))) &&& 0x1#32 = 0#32
  · rw [if_pos missing] at ready
    have none : ¬ n / 1024 < tablesFor n := fun less => absurd missing (inUse.mpr less)
    have first : tablesFor n = n / 1024 := by
      split at tables <;> omega
    have place := built.place
    rw [first] at place
    have aligned : IsPage s.placeAddr := place ▸ (table_behind_page d page top _ (by omega)).2
    have memory : middle.mem = store32 s.mem (cell d (n / 1024)) (tableBehind d (n / 1024) ||| 0x3#32) := by
      rw [← ready, ← place, ← index]
      simp only [newKernelTable, kmallocA, kmalloc_all_aligned s aligned, Paging.store, element_cell]
    obtain ⟨own, others, _⟩ := store_entry s d d (n / 1024) page (by omega) _ middle memory
    refine ⟨?_, fun t less => ?_, fun t few => ?_⟩
    · rw [← ready]
      simp only [newKernelTable, kmallocA, kmalloc_all_aligned s aligned, Paging.store]
      rw [place, place_behind_next]
    · by_cases here : t = n / 1024
      · subst here
        rw [own, if_pos (Nat.lt_succ_self _)]
      · rw [others t less here, built.entries t less, first]
        refine if_congr ?_ rfl rfl
        omega
    · rw [memory]
      exact page_kept_store _ _ _ _ (table_behind_page d page top t (by omega)).2 page (by omega) _
        (table_behind_directory d page top t (by omega))
  · rw [if_neg missing] at ready
    subst ready
    have less := inUse.mp missing
    have same : tablesFor n = n / 1024 + 1 := by
      split at tables <;> omega
    rw [← same]
    exact ⟨built.place, built.entries, fun _ _ _ _ => rfl⟩

theorem half_built_round (next : Paging) (round : kernelRounds base d n = s)
    (done : kernelRounds base d (n + 1) = next) : HalfBuilt base next d (n + 1) := by
  have pages : kernelPages = 4080 := rfl
  have number := page_number n (by omega)
  rw [kernel_rounds_succ, round] at done
  generalize ready : withTable s d (BitVec.ofNat 32 (4096 * n)) = middle at done
  obtain ⟨place, entries, kept⟩ := half_table_ready d page top base s n bound built middle ready
  have here := table_behind_page d page top (n / 1024) (by omega)
  have table : pageOf (middle.entry d (n / 1024)) = tableBehind d (n / 1024) := by
    rw [entries _ (by omega), if_pos (by rw [tables_next]; omega), page_of_flagged _ _ here.2 (by decide)]
  have memory : next.mem = store32 middle.mem (cell (tableBehind d (n / 1024)) (n % 1024))
      (BitVec.ofNat 32 (4096 * n) ||| 0x3#32) := by
    rw [← done, load_entry, element_page, number, table]
    rfl
  refine ⟨?_, fun t less => ?_, fun t few i inTable => ?_⟩
  · rw [← done]
    exact place
  · rw [← entries t less]
    apply entry_kept middle next d t page less
    rw [memory]
    exact page_kept_store _ _ _ _ page here.2 (by omega) _
      (table_behind_directory d page top _ (by omega)).symm
  · have there := table_behind_page d page top t (by omega)
    rw [memory, load_store_cell _ _ _ _ _ there.2 here.2 inTable (Nat.mod_lt _ (by decide)),
      load_cell_kept _ _ _ _ there.2 inTable (kept t few), built.cells t few i inTable]
    by_cases own : t = n / 1024 ∧ i = n % 1024
    · have index : 1024 * t + i = n := by omega
      rw [if_pos ⟨by rw [own.1], own.2⟩, index, if_pos (Nat.lt_succ_self n)]
    · have other : ¬ (tableBehind d t = tableBehind d (n / 1024) ∧ i = n % 1024) := by
        rintro ⟨same, index⟩
        by_cases table : t = n / 1024
        · exact own ⟨table, index⟩
        · exact table_behind_apart d page top t (n / 1024) (by omega) (by omega) table same
      rw [if_neg other]
      refine if_congr ?_ rfl rfl
      omega

omit bound built in
theorem half_built_rounds (start : HalfBuilt base base d 0) (enough : n ≤ kernelPages) :
    HalfBuilt base (kernelRounds base d n) d n := by
  induction n with
  | zero => exact start
  | succ n ih =>
      exact half_built_round d page top base _ n (by omega) (ih (by omega)) _ rfl rfl

end Build

section Finished
variable (base s : Paging) (d : Word) (page : IsPage d) (top : d.toNat + 20480 ≤ 2 ^ 31)
  (built : HalfBuilt base s d kernelPages)
include page top built

theorem built_table (k : Nat) (low : k < 4096) : Present (s.entry d (k / 1024)) ∧
    s.entry d (k / 1024) = tableBehind d (k / 1024) ||| 0x3#32 ∧
    s.pte d k = if k < kernelPages then BitVec.ofNat 32 (4096 * k) ||| 0x3#32
      else load32 base.mem (cell (tableBehind d (k / 1024)) (k % 1024)) := by
  have four : tablesFor kernelPages = 4 := rfl
  have isPage := (table_behind_page d page top (k / 1024) (by omega)).2
  have entry := built.entries (k / 1024) (by omega)
  rw [four, if_pos (by omega)] at entry
  refine ⟨?_, entry, ?_⟩
  · rw [entry, present_flagged _ _ isPage]
    decide
  · rw [Paging.pte, entry, page_of_flagged _ _ isPage (by decide),
      built.cells _ (by omega) _ (Nat.mod_lt _ (by decide)), Nat.div_add_mod]

theorem built_kernel (k : Nat) (less : k < kernelPages) : ∃ entry pte, s.walk d k = some (entry, pte) ∧
    pageOf pte = BitVec.ofNat 32 (4096 * k) ∧ entry &&& 2#32 ≠ 0#32 ∧ pte &&& 2#32 ≠ 0#32 ∧
    entry &&& 4#32 = 0#32 ∧ pte &&& 4#32 = 0#32 := by
  have pages : kernelPages = 4080 := rfl
  obtain ⟨present, entry, pte⟩ := built_table base s d page top built k (by omega)
  rw [if_pos less] at pte
  have isPage := (table_behind_page d page top (k / 1024) (by omega)).2
  have frame := frame_is_page k (by omega)
  have mapped : Present (s.pte d k) := by
    rw [pte, present_flagged _ _ frame]
    decide
  refine ⟨_, _, if_pos ⟨present, mapped⟩, ?_, ?_, ?_, ?_, ?_⟩
  · rw [pte, page_of_flagged _ _ frame (by decide)]
  · rw [entry, flagged_and _ _ _ isPage (by decide)]
    decide
  · rw [pte, flagged_and _ _ _ frame (by decide)]
    decide
  · rw [entry, flagged_and _ _ _ isPage (by decide)]
    decide
  · rw [pte, flagged_and _ _ _ frame (by decide)]
    decide

/-- Behind the kernel's pages the last table shows what memory held. -/
theorem built_nothing (k : Nat) (inSpace : k < 2 ^ 20) (above : kernelPages ≤ k) :
    s.walk d k = none ↔
      (k < 4096 → ¬ Present (load32 base.mem (cell (tableBehind d 3) (k % 1024)))) := by
  have pages : kernelPages = 4080 := rfl
  by_cases low : k < 4096
  · obtain ⟨present, entry, pte⟩ := built_table base s d page top built k low
    have last : k / 1024 = 3 := by omega
    rw [if_neg (by omega), last] at pte
    rw [← pte]
    constructor
    · intro absent _ mapped
      rw [Paging.walk, if_pos ⟨present, mapped⟩] at absent
      simp at absent
    · intro unmapped
      exact walk_absent s d k fun walks => unmapped low walks.2
  · have four : tablesFor kernelPages = 4 := rfl
    have entry := built.entries (k / 1024) (by omega)
    rw [four, if_neg (by omega)] at entry
    refine iff_of_true (walk_absent s d k fun walks => ?_) fun less => absurd less low
    have present := walks.1
    rw [entry] at present
    exact absurd present (by decide)

end Finished

def lastTable (placeAddr : Word) : Word :=
  BitVec.ofNat 32 ((placeAddr.toNat + 4095) / 4096 * 4096 + 16384)

theorem new_directory_built (s : Paging)
    (room : (s.placeAddr.toNat + 4095) / 4096 * 4096 + 20480 ≤ KERNEL_MEM_END.toNat) :
    ∃ base d, (getNewKernelMappedDir s).1 = d ∧ IsPage d ∧ d.toNat + 20480 ≤ 2 ^ 31 ∧
      HalfBuilt base (getNewKernelMappedDir s).2 d kernelPages ∧ tableBehind d 3 = lastTable s.placeAddr ∧
      ∀ i < 1024, load32 base.mem (cell (tableBehind d 3) i) = load32 s.mem (cell (tableBehind d 3) i) := by
  have limit : KERNEL_MEM_END.toNat = 16711680 := rfl
  obtain ⟨d, first, page, above, below⟩ := kmalloc_a_result s 4096#32 (by omega)
  have start : d.toNat = (s.placeAddr.toNat + 4095) / 4096 * 4096 := by
    unfold IsPage at page
    omega
  have last : tableBehind d 3 = lastTable s.placeAddr := by
    unfold tableBehind lastTable
    bv_omega
  unfold getNewKernelMappedDir
  rw [first]
  dsimp only
  generalize shape : ({ s with
    mem := memset s.mem d 0#8 4096
    placeAddr := d + 4096#32
    history := ⟨⟨d, 4096#32, none⟩ :: s.history.regions,
      d :: s.history.directories, s.history.mappings⟩ } : Paging) = base
  have memory : ∀ x, base.mem x = if InSpan d 4096 x then 0#8 else s.mem x := by
    intro x
    rw [← shape]
    exact memset_apply _ _ _ _ _ (by decide)
  have begun : HalfBuilt base base d 0 := by
    refine ⟨?_, fun t less => ?_, fun t few i inTable => ?_⟩
    · rw [← shape]
      rfl
    · refine load_cell_zero _ _ _ page less fun x inside => ?_
      rw [memory, if_pos inside]
    · rw [if_neg (by omega)]
  have table := table_behind_page d page (by omega) 3 (by omega)
  have kept : PageKept s.mem base.mem (tableBehind d 3) := by
    refine page_kept_outside _ _ _ _ table.2 page (table_behind_directory d page (by omega) 3 (by omega))
      fun x outside => ?_
    rw [memory, if_neg outside]
  exact ⟨base, d, rfl, page, by omega,
    half_built_rounds d page (by omega) base kernelPages begun (Nat.le_refl _), last,
    fun i less => load_cell_kept _ _ _ _ table.2 less kept⟩

/-- A new directory maps the kernel's pages, and only these if the words of the
last table that the loop does not reach had no present bit. -/
theorem new_directory_exact (s : Paging)
    (room : (s.placeAddr.toNat + 4095) / 4096 * 4096 + 20480 ≤ KERNEL_MEM_END.toNat) :
    MapsKernelOnly (getNewKernelMappedDir s).2 (getNewKernelMappedDir s).1 ↔
      ∀ i, 1008 ≤ i → i < 1024 → ¬ Present (load32 s.mem (cell (lastTable s.placeAddr) i)) := by
  have pages : kernelPages = 4080 := rfl
  obtain ⟨base, d, same, page, top, built, last, kept⟩ := new_directory_built s room
  have nothing := built_nothing base _ d page top built
  rw [same, ← last]
  constructor
  · intro only i first less mapped
    have absent := only.nothing (3072 + i) (by omega) (by omega)
    have index : (3072 + i) % 1024 = i := by omega
    rw [nothing _ (by omega) (by omega), index, kept i less] at absent
    exact absent (by omega) mapped
  · intro clear
    refine ⟨built_kernel base _ d page top built, fun k inSpace high => ?_⟩
    rw [nothing k inSpace high, kept _ (Nat.mod_lt _ (by decide))]
    intro low
    exact clear _ (by omega) (Nat.mod_lt _ (by decide))

/-- Ones up to the last 16 words of the fourth table. -/
def stalePaging : Paging := { bootPaging with mem := fun a => if a.toNat < 0xF4FC0 then 0xFF#8 else 0#8 }

theorem new_directory_exact_stale :
    MapsKernelOnly (getNewKernelMappedDir stalePaging).2 (getNewKernelMappedDir stalePaging).1 := by
  refine (new_directory_exact stalePaging (by decide)).mpr fun i first less => ?_
  have table : lastTable stalePaging.placeAddr = 0xF4000#32 := by decide
  have zero : load32 stalePaging.mem (cell 0xF4000#32 i) = load32 (fun _ => 0#8) (cell 0xF4000#32 i) := by
    refine load32_congr _ _ _ fun x inside => ?_
    have high : ¬ x.toNat < 0xF4FC0 := by
      unfold cell at inside
      rw [in_span_iff _ _ _ (by bv_omega)] at inside
      bv_omega
    exact if_neg high
  have blank : load32 (fun _ => 0#8) (cell 0xF4000#32 i) = 0#32 := by
    change 0#8 ++ 0#8 ++ 0#8 ++ 0#8 = 0#32
    decide
  rw [table, zero, blank]
  decide

/-- Memory that is not blank shows through: the page at `KERNEL_MEM_END` is mapped. -/
theorem stale_page_mapped : ∃ s : Paging,
    (s.placeAddr.toNat + 4095) / 4096 * 4096 + 20480 ≤ KERNEL_MEM_END.toNat ∧
      ¬ MapsKernelOnly (getNewKernelMappedDir s).2 (getNewKernelMappedDir s).1 := by
  refine ⟨{ bootPaging with mem := fun _ => 0xFF#8 }, by decide, fun only => ?_⟩
  obtain ⟨base, d, same, page, top, built, last, kept⟩ :=
    new_directory_built { bootPaging with mem := fun _ => 0xFF#8 } (by decide)
  rw [same] at only
  have absent := only.nothing kernelPages (by decide) (Nat.le_refl _)
  rw [built_nothing base _ d page top built kernelPages (by decide) (Nat.le_refl _), kept _ (by decide)]
    at absent
  have ones : load32 (fun _ => 0xFF#8) (cell (tableBehind d 3) (kernelPages % 1024)) = 0xFFFFFFFF#32 := by
    change 0xFF#8 ++ 0xFF#8 ++ 0xFF#8 ++ 0xFF#8 = 0xFFFFFFFF#32
    decide
  exact absent (by decide) (by rw [ones]; decide)

end GargOS
