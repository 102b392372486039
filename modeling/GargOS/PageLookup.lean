import GargOS.KernelHalf
import GargOS.TableGrowth

/-!
`get_page`, which the handler of page faults calls, and the listing of
`print_dir`, against the two levels of the processor's walk. Where a directory
entry is absent `get_page` goes on and reads the page at address 0.
-/

namespace GargOS
open ByteMemory Pages Runs

def PAGES_PER_TABLE : Nat := 1024

def TABLES_PER_DIRECTORY : Nat := 1024

def getPage (s : Paging) (directory vaddr : Word) : Word :=
  let table := s.load (element directory (TABLE_INDEX_FROM_VIRTUAL_ADDRESS vaddr))
  let table := pageOf table
  s.load (element table (PAGE_INDEX_FROM_VIRTUAL_ADDRESS vaddr))

/-- The lines `print_dir` has printed, and its `virtual_addr`. -/
structure Listing where
  lines : List (Word × Word)
  virtualAddr : Word

/-- The inner loop of `print_dir` after `n` rounds. -/
def printTable (s : Paging) (table : Word) (l : Listing) : Nat → Listing
  | 0 => l
  | n + 1 =>
      let l := printTable s table l n
      let page := s.load (element table (BitVec.ofNat 32 n))
      ⟨if page ≠ 0#32 then l.lines ++ [(l.virtualAddr, page)] else l.lines, l.virtualAddr + PAGE_SIZE⟩

/-- The outer loop of `print_dir` after `n` rounds. -/
def printTables (s : Paging) (directory : Word) : Nat → Listing
  | 0 => ⟨[], 0#32⟩
  | n + 1 =>
      let l := printTables s directory n
      let table := pageOf (s.load (element directory (BitVec.ofNat 32 n)))
      if table ≠ 0#32 then printTable s table l PAGES_PER_TABLE
      else ⟨l.lines, l.virtualAddr + PAGE_SIZE * BitVec.ofNat 32 PAGES_PER_TABLE⟩

def printDir (s : Paging) (directory : Word) : List (Word × Word) :=
  (printTables s (pageOf directory) TABLES_PER_DIRECTORY).lines

structure LookupAgrees (s : Paging) (d v : Word) : Prop where
  present : Present (getPage s d v) ↔ s.Walks d (v.toNat / 4096)
  entry : s.Walks d (v.toNat / 4096) → getPage s d v = s.pte d (v.toNat / 4096)
  listed : ∀ e, (BitVec.ofNat 32 (4096 * (v.toNat / 4096)), e) ∈ printDir s d ↔
    getPage s d v = e ∧ e ≠ 0#32

/-! What the functions read. -/

section Reads
variable (s : Paging)

theorem get_page_pte (d v : Word) : getPage s d v = s.pte d (v.toNat / 4096) := by
  simp only [getPage, load_entry, element_page]
  rfl

theorem load_index (array : Word) (i : Nat) (bound : i < 1024) :
    s.load (element array (BitVec.ofNat 32 i)) = load32 s.mem (cell array i) := by
  have index : (BitVec.ofNat 32 i).toNat = i := by
    rw [BitVec.toNat_ofNat]
    omega
  rw [Paging.load, element_cell, index]

theorem page_address (n : Nat) (start : Word) :
    start + BitVec.ofNat 32 (4096 * n) + PAGE_SIZE = start + BitVec.ofNat 32 (4096 * (n + 1)) := by
  have next : BitVec.ofNat 32 (4096 * (n + 1)) = BitVec.ofNat 32 (4096 * n) + PAGE_SIZE := by
    rw [Nat.mul_succ, BitVec.ofNat_add]
    rfl
  rw [next, BitVec.add_assoc]

theorem print_table_result (table : Word) (l : Listing) (n : Nat) (few : n ≤ 1024) :
    (printTable s table l n).virtualAddr = l.virtualAddr + BitVec.ofNat 32 (4096 * n) ∧
      ∀ a e, (a, e) ∈ (printTable s table l n).lines ↔ (a, e) ∈ l.lines ∨
        ∃ i < n, a = l.virtualAddr + BitVec.ofNat 32 (4096 * i) ∧ e = load32 s.mem (cell table i) ∧ e ≠ 0#32 := by
  induction n with
  | zero => exact ⟨(BitVec.add_zero _).symm, fun a e => by simp [printTable]⟩
  | succ n ih =>
      obtain ⟨address, lines⟩ := ih (by omega)
      rw [printTable]
      dsimp only
      rw [load_index s table n (by omega), address]
      refine ⟨page_address n _, fun a e => ?_⟩
      have split : (a, e) ∈ (if load32 s.mem (cell table n) ≠ 0#32 then (printTable s table l n).lines ++
          [(l.virtualAddr + BitVec.ofNat 32 (4096 * n), load32 s.mem (cell table n))]
          else (printTable s table l n).lines) ↔ (a, e) ∈ (printTable s table l n).lines ∨
          a = l.virtualAddr + BitVec.ofNat 32 (4096 * n) ∧ e = load32 s.mem (cell table n) ∧ e ≠ 0#32 := by
        by_cases some : load32 s.mem (cell table n) ≠ 0#32
        · rw [if_pos some, List.mem_append, List.mem_singleton, Prod.mk.injEq]
          refine or_congr_right (and_congr_right fun _ => ?_)
          exact ⟨fun same => ⟨same, same ▸ some⟩, fun both => both.1⟩
        · rw [if_neg some]
          refine (or_iff_left ?_).symm
          rintro ⟨_, same, nonzero⟩
          exact some (same ▸ nonzero)
      rw [split, lines, or_assoc]
      refine or_congr_right ⟨?_, ?_⟩
      · rintro (⟨i, less, line⟩ | line)
        · exact ⟨i, by omega, line⟩
        · exact ⟨n, Nat.lt_succ_self n, line⟩
      · rintro ⟨i, less, line⟩
        rcases Nat.lt_succ_iff_lt_or_eq.mp less with earlier | rfl
        · exact Or.inl ⟨i, earlier, line⟩
        · exact Or.inr line

theorem print_tables_succ (d : Word) (n : Nat) (table : Word)
    (named : pageOf (s.load (element d (BitVec.ofNat 32 n))) = table) :
    printTables s d (n + 1) = if table ≠ 0#32 then printTable s table (printTables s d n) PAGES_PER_TABLE
      else ⟨(printTables s d n).lines,
        (printTables s d n).virtualAddr + PAGE_SIZE * BitVec.ofNat 32 PAGES_PER_TABLE⟩ := by
  subst named
  rfl

theorem print_tables_result (d : Word) (n : Nat) (few : n ≤ 1024) :
    (printTables s d n).virtualAddr = BitVec.ofNat 32 (4096 * (1024 * n)) ∧
      ∀ a e, (a, e) ∈ (printTables s d n).lines ↔
        ∃ page < 1024 * n, a = BitVec.ofNat 32 (4096 * page) ∧ pageOf (s.entry d (page / 1024)) ≠ 0#32 ∧
          e = s.pte d page ∧ e ≠ 0#32 := by
  induction n with
  | zero => exact ⟨rfl, fun a e => by simp [printTables]⟩
  | succ n ih =>
      obtain ⟨address, lines⟩ := ih (by omega)
      have next : BitVec.ofNat 32 (4096 * (1024 * n)) + BitVec.ofNat 32 (4096 * 1024) =
          BitVec.ofNat 32 (4096 * (1024 * (n + 1))) := by
        rw [← BitVec.ofNat_add, ← Nat.mul_add, ← Nat.mul_succ]
      have entry : pageOf (s.load (element d (BitVec.ofNat 32 n))) = pageOf (s.entry d n) := by
        rw [load_index s d n (by omega), Paging.entry]
      rw [print_tables_succ s d n _ entry]
      split
      next table =>
        obtain ⟨address', lines'⟩ := print_table_result s (pageOf (s.entry d n)) (printTables s d n)
          PAGES_PER_TABLE (Nat.le_refl _)
        rw [address] at address' lines'
        refine ⟨address'.trans next, fun a e => ?_⟩
        rw [lines', lines]
        constructor
        · rintro (⟨page, less, line⟩ | ⟨i, less, rfl, rfl, nonzero⟩)
          · exact ⟨page, by omega, line⟩
          · have inTable : i < 1024 := less
            have quotient : (1024 * n + i) / 1024 = n := by omega
            have rest : (1024 * n + i) % 1024 = i := by omega
            refine ⟨1024 * n + i, by omega, ?_, by rwa [quotient], ?_, nonzero⟩
            · rw [← BitVec.ofNat_add, Nat.mul_add]
            · rw [Paging.pte, quotient, rest]
        · rintro ⟨page, less, rfl, line, rfl, nonzero⟩
          by_cases earlier : page < 1024 * n
          · exact Or.inl ⟨page, earlier, rfl, line, rfl, nonzero⟩
          · have quotient : page / 1024 = n := by omega
            have split : 1024 * n + page % 1024 = page := by omega
            refine Or.inr ⟨page % 1024, Nat.mod_lt _ (by decide), ?_, ?_, nonzero⟩
            · rw [← BitVec.ofNat_add, ← Nat.mul_add, split]
            · rw [Paging.pte, quotient]
      next none =>
        refine ⟨?_, fun a e => ?_⟩
        · rw [address, ← next]
          rfl
        · rw [lines]
          constructor
          · rintro ⟨page, less, line⟩
            exact ⟨page, by omega, line⟩
          · rintro ⟨page, less, rfl, line, rest⟩
            by_cases earlier : page < 1024 * n
            · exact ⟨page, earlier, rfl, line, rest⟩
            · have quotient : page / 1024 = n := by omega
              rw [quotient] at line
              exact absurd line none

/-- `print_dir` lists a page whose table is not at 0 and whose entry is not 0. -/
theorem mem_print_dir (d : Word) (isPage : IsPage d) (page : Nat) (bound : page < 2 ^ 20) (e : Word) :
    (BitVec.ofNat 32 (4096 * page), e) ∈ printDir s d ↔
      pageOf (s.entry d (page / 1024)) ≠ 0#32 ∧ e = s.pte d page ∧ e ≠ 0#32 := by
  have directory : pageOf d = d := by
    have whole := page_of_flagged d 0#32 isPage (by decide)
    rwa [BitVec.or_zero] at whole
  rw [printDir, directory, (print_tables_result s d TABLES_PER_DIRECTORY (Nat.le_refl _)).2]
  constructor
  · rintro ⟨other, less, same, line⟩
    have numbers := congrArg BitVec.toNat same
    have few : other < 2 ^ 20 := less
    rw [frame_toNat page bound, frame_toNat other few] at numbers
    have equal : other = page := by omega
    rwa [equal] at line
  · exact fun line => ⟨page, bound, rfl, line⟩

/-- Where the entry of the directory is 0 both functions go by the table at
address 0, the one as if it were there and the other as if it were not. -/
theorem lookup_agrees_entry (d v : Word) (isPage : IsPage d)
    (whole : s.entry d (v.toNat / 4096 / 1024) = 0#32 ∨ NamesTable (s.entry d (v.toNat / 4096 / 1024))) :
    LookupAgrees s d v ↔ Present (s.entry d (v.toNat / 4096 / 1024)) ∨
      load32 s.mem (cell 0#32 (v.toNat / 4096 % 1024)) = 0#32 := by
  have lookup := get_page_pte s d v
  have lines := mem_print_dir s d isPage (v.toNat / 4096) (by omega)
  rcases whole with none | ⟨present, table⟩
  · have absent : ¬ Present (s.entry d (v.toNat / 4096 / 1024)) := by
      rw [none]
      decide
    have pte : s.pte d (v.toNat / 4096) = load32 s.mem (cell 0#32 (v.toNat / 4096 % 1024)) := by
      rw [Paging.pte, none]
      rfl
    have unlisted : ∀ e, (BitVec.ofNat 32 (4096 * (v.toNat / 4096)), e) ∉ printDir s d := by
      intro e line
      have table := ((lines e).mp line).1
      rw [none] at table
      exact table rfl
    rw [← pte, or_iff_right absent]
    constructor
    · intro agrees
      by_contra some
      exact unlisted _ ((agrees.listed _).mpr ⟨lookup, some⟩)
    · intro zero
      rw [zero] at lookup
      refine ⟨?_, fun walks => absurd walks.1 absent, fun e => ?_⟩
      · rw [lookup]
        exact iff_of_false (by decide) fun walks => absent walks.1
      · refine iff_of_false (unlisted e) ?_
        rintro ⟨same, nonzero⟩
        exact nonzero (same.symm.trans lookup)
  · refine iff_of_true ⟨?_, fun _ => lookup, fun e => ?_⟩ (Or.inl present)
    · rw [lookup]
      exact ⟨fun mapped => ⟨present, mapped⟩, fun walks => walks.2⟩
    · rw [lines, lookup]
      exact ⟨fun line => ⟨line.2.1.symm, line.2.2⟩, fun line => ⟨table, line.1.symm, line.2⟩⟩

end Reads

/-- Whatever the memory outside the structures holds, lookup and listing are those
of the walk exactly if the directory has a table for the address or the word that
stands for its entry in the page at address 0 is 0. -/
theorem lookup_agrees_iff (s : Paging) (reached : Reached PagingBooted HalfStep s) (d : Word)
    (listed : s.Listed d) (m : Memory) (kept : ∀ r p, s.Home r p → PageKept s.mem m p) (v : Word) :
    LookupAgrees { s with mem := m } d v ↔ Present (s.entry d (v.toNat / 4096 / 1024)) ∨
      load32 m (cell 0#32 (v.toNat / 4096 % 1024)) = 0#32 := by
  obtain ⟨holds, tables⟩ := any_run_tables s (half_run_any s reached)
  have home := Paging.Home.directory d listed
  have isPage := (holds.layout.housed _ _ home).1
  have entry := entry_kept s { s with mem := m } d (v.toNat / 4096 / 1024) isPage (by omega) (kept _ _ home)
  have whole := tables d listed (v.toNat / 4096 / 1024) (by omega)
  rw [← entry] at whole ⊢
  exact lookup_agrees_entry { s with mem := m } d v isPage whole

theorem lookup_agrees_one_process : ∃ s d, s.history.directories = [d] ∧
    (LookupAgrees s d 0x1000#32 ↔ Present (s.entry d 0) ∨ load32 s.mem (cell 0#32 1) = 0#32) := by
  obtain ⟨s, d, process⟩ := one_process
  exact ⟨s, d, process.directories, lookup_agrees_iff s (paging_run_half s process.reached) d
    (one_process_free s d process).1 s.mem (fun _ _ _ _ _ => rfl) 0x1000#32⟩

theorem booted_above : ∃ s, PagingBooted s ∧ (∀ r p, s.Home r p → p ≠ 0#32) ∧
    ¬ Present (s.entry s.kernelDirectory 256) := by
  have limit : KERNEL_MEM_END.toNat = 16711680 := rfl
  have first : bootPaging.placeAddr.toNat = 0xF0000 := rfl
  have four : tablesFor kernelPages = 4 := rfl
  obtain ⟨base, enters⟩ := init_paging_base bootPaging (by omega) rfl
  have above := enters.above
  have frames := enters.frames
  have place := enters.place
  obtain ⟨last, rounds, identity⟩ := identity_rounds_result base enters.start (by omega) kernelPages
    (Nat.le_refl _)
  have size := identity.place
  have booted : PagingBooted { last with currentDir := last.kernelDirectory } := by
    refine ⟨bootPaging, rfl, by omega, ?_, ?_⟩
    · rw [enters.returns, rounds]
      rfl
    · show last.placeAddr.toNat ≤ _
      omega
  refine ⟨_, booted, fun r p home => ?_, ?_⟩
  · cases home with
    | bitset i bound =>
        show last.frames + BitVec.ofNat 32 (4096 * i) ≠ 0#32
        rw [identity.roots.frames]
        have start := (enters.start.layout.housed _ _ (Paging.Home.directory _ (Or.inl rfl))).2
        bv_omega
    | directory _ listed =>
        rcases listed with rfl | process
        · show last.kernelDirectory ≠ 0#32
          rw [identity.roots.kernelDirectory]
          bv_omega
        · have none := identity.roots.directories.trans enters.directories
          rw [none] at process
          simp at process
    | table d t listed bound present =>
        rcases booted_tables _ booted d listed t bound with none | table
        · rw [none] at present
          exact absurd rfl present
        · exact table.2
  · show ¬ Present (last.entry last.kernelDirectory 256)
    rw [identity.entries 256 (by decide), four]
    decide

/-- With an odd word at address 0 `get_page` finds 0x40000000 mapped in the kernel's
directory, which has no table for it. -/
theorem unmapped_page_found : ∃ s d m, Reached PagingBooted HalfStep s ∧ s.Listed d ∧
    (∀ r p, s.Home r p → PageKept s.mem m p) ∧ ¬ LookupAgrees { s with mem := m } d 0x40000000#32 := by
  obtain ⟨s, booted, above, absent⟩ := booted_above
  have housed := (booted_invariant s booted).layout.housed
  have kernel : s.Listed s.kernelDirectory := Or.inl rfl
  have home := Paging.Home.directory _ kernel
  have zero : IsPage 0#32 := rfl
  have kept : ∀ r p, s.Home r p → PageKept s.mem (store32 s.mem 0#32 1#32) p := fun r p home =>
    page_kept_store s.mem p 0#32 0 (housed r p home).1 zero (by decide) 1#32 (above r p home)
  refine ⟨s, s.kernelDirectory, store32 s.mem 0#32 1#32, Reached.start booted, kernel, kept, fun agrees => ?_⟩
  have entry := entry_kept s { s with mem := store32 s.mem 0#32 1#32 } s.kernelDirectory 256
    (housed _ _ home).1 (by decide) (kept _ _ home)
  have whole := booted_tables s booted s.kernelDirectory kernel 256 (by decide)
  rw [← entry] at whole absent
  have odd : load32 (store32 s.mem 0#32 1#32) (cell 0#32 0) = 1#32 := load32_store32 s.mem 0#32 1#32
  rcases (lookup_agrees_entry _ _ 0x40000000#32 (housed _ _ home).1 whole).mp agrees with present | none
  · exact absent present
  · exact absurd (odd.symm.trans none) (by decide)

end GargOS
