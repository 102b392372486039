import GargOS.HeapGrants

/-!
The calls of heap.c on a heap that paging backs: `initialise_heap` lays one
free block, `malloc` takes a block after adding as many pages as it needs,
`free` gives a block back. Each keeps the tiling coalesced and the bytes of the
used blocks.
-/

namespace GargOS
open ByteMemory AddressSpace Tiling

/-- What the heap at `start` relies on. `valid n` holds of the states in which
the heap's first `n` bytes are mapped in the current directory, and in any case
its first header; mapping the page behind the heap leads from `n` to `n + 4096`
and changes no byte of the heap. -/
structure HeapBacking {σ : Type} [PagedSpace σ] (start directory : Word)
    (valid : Nat → σ → Prop) : Prop where
  access : ∀ n, start.toNat + n < 2 ^ 32 →
    Backs start.toNat (start.toNat + max n 6) (valid n)
  grow : ∀ {n s isKernel address after}, valid n s →
    start.toNat + n + 4096 < 2 ^ 32 →
    isKernel = (if directory = PagedSpace.kernelDirectory s then 1#32 else 0#32) →
    PagedSpace.allocPage s directory (BitVec.ofNat 32 (start.toNat + n)) 1#32 isKernel =
      some (address, after) →
    valid (n + 4096) after ∧
      ∀ x, Within start.toNat (start.toNat + n) x → view after x = view s x

/-- The blocks of a heap: their headers are in memory, they fill the heap, and
no two free ones are neighbours. -/
structure Blocks (m : Memory) (start heapSize : Word) (bs : List Segment) : Prop where
  tiles : Tiles m start.toNat bs
  total : span 6 bs = heapSize.toNat
  separated : Separated bs

theorem backs_shrink {σ : Type} [AddressSpace σ] {lo hi hi' : Nat} {valid : σ → Prop}
    (back : Backs lo hi valid) (less : hi' ≤ hi) : Backs lo hi' valid where
  readable holds inside := back.readable holds ⟨inside.1, by have := inside.2; omega⟩
  writable holds inside b := by
    obtain ⟨after, stored, next, seen⟩ :=
      back.writable holds ⟨inside.1, by have := inside.2; omega⟩ b
    exact ⟨after, stored, next, fun x range => seen x ⟨range.1, by have := range.2; omega⟩⟩

theorem heap_backs {σ : Type} [PagedSpace σ] {start directory : Word} {valid : Nat → σ → Prop}
    (backing : HeapBacking start directory valid) (heapSize : Word)
    (top : start.toNat + heapSize.toNat < 2 ^ 32) :
    Backs start.toNat (start.toNat + heapSize.toNat) (valid heapSize.toNat) :=
  backs_shrink (backing.access heapSize.toNat top) (by omega)

theorem page_added (heapSize : Word) (fits : heapSize.toNat + 4096 < 2 ^ 32) :
    (heapSize + PAGE_SIZE).toNat = heapSize.toNat + 4096 := by
  unfold PAGE_SIZE
  bv_omega

section Rounds
variable {σ : Type} [PagedSpace σ] {fuel growths : Nat} {bytes r : Word} {align : Byte}
  {s searched : σ} {proc : Process}

/-! A round of the loop of `malloc`, by what its search returns. -/

theorem malloc_loop_stuck (search : getFreeBlock fuel s proc bytes align = none) :
    mallocLoop fuel bytes align growths s proc = none := by
  cases growths with
  | zero => rw [mallocLoop, search]; rfl
  | succ growths => rw [mallocLoop, search]; rfl

theorem malloc_loop_found (search : getFreeBlock fuel s proc bytes align = some (r, searched))
    (found : r ≠ NULL) :
    mallocLoop fuel bytes align growths s proc = some (r + sizeofBlock, searched, proc) := by
  rw [mallocLoop, search]
  simp [found]

theorem malloc_loop_grown (search : getFreeBlock fuel s proc bytes align = some (NULL, searched))
    {enlarged : σ} {grown : Process} (grows : growHeap fuel searched proc = some (enlarged, grown)) :
    mallocLoop fuel bytes align (growths + 1) s proc =
      mallocLoop fuel bytes align growths enlarged grown := by
  rw [mallocLoop, search]
  simp only [Option.bind_eq_bind, Option.bind_some, if_true, grows]

theorem malloc_loop_cases {ptr : Word} {after : σ} {proc' : Process}
    (returned : mallocLoop fuel bytes align growths s proc = some (ptr, after, proc')) :
    ∃ r searched, getFreeBlock fuel s proc bytes align = some (r, searched) ∧
      ((r ≠ NULL ∧ ptr = r + sizeofBlock ∧ after = searched ∧ proc' = proc) ∨
        r = NULL ∧ ∃ fewer enlarged grown, growths = fewer + 1 ∧
          growHeap fuel searched proc = some (enlarged, grown) ∧
          mallocLoop fuel bytes align fewer enlarged grown = some (ptr, after, proc')) := by
  cases search : getFreeBlock fuel s proc bytes align with
  | none =>
      rw [malloc_loop_stuck search] at returned
      cases returned
  | some result =>
      obtain ⟨r, searched⟩ := result
      refine ⟨r, searched, rfl, ?_⟩
      by_cases none : r = NULL
      · subst none
        refine Or.inr ⟨rfl, ?_⟩
        rw [mallocLoop, search] at returned
        simp only [Option.bind_eq_bind, Option.bind_some, if_true] at returned
        cases growths with
        | zero => cases returned
        | succ fewer =>
            obtain ⟨⟨enlarged, grown⟩, grows, goesOn⟩ := Option.bind_eq_some_iff.mp returned
            exact ⟨fewer, enlarged, grown, rfl, grows, goesOn⟩
      · rw [malloc_loop_found search none, Option.some.injEq, Prod.mk.injEq, Prod.mk.injEq] at returned
        obtain ⟨ptr, after, proc'⟩ := returned
        exact Or.inl ⟨none, ptr.symm, after.symm, proc'.symm⟩

end Rounds

section Calls
variable {σ : Type} [PagedSpace σ] {start directory : Word} {valid : Nat → σ → Prop}
  (backing : HeapBacking start directory valid)
include backing

/-- One round of `malloc`: `get_free_block` grants a block, or it answers `NULL`
and leaves blocks that are safe to grow. -/
theorem get_free_block_result {s : σ} (proc : Process) (base : proc.heapStackBoundary = start)
    (top : start.toNat + proc.heapSize.toNat < 2 ^ 32) (holds : valid proc.heapSize.toNat s)
    (bs : List Segment) (blocks : Blocks (view s) start proc.heapSize bs) (bytes : Word)
    (align : Byte) (safe : MallocSafe bytes.toNat align start.toNat bs) (fuel : Nat) (r : Word)
    (after : σ) (returned : getFreeBlock fuel s proc bytes align = some (r, after)) :
    ∃ bs', valid proc.heapSize.toNat after ∧ Blocks (view after) start proc.heapSize bs' ∧
      UsedKept (view s) (view after) start.toNat bs ∧
      ((r = NULL ∧ Survives start.toNat bs bs' ∧
          MallocSafe bytes.toNat align start.toNat (coalesce 6 (bs' ++ [⟨true, 4090⟩]))) ∨
        r ≠ NULL ∧ ∃ c : Segment, bytes.toNat ≤ c.size ∧
          Grants start.toNat bs bs' (r.toNat, c)) := by
  have back := heap_backs backing proc.heapSize top
  unfold getFreeBlock at returned
  rw [base] at returned
  have walk := get_free_block_from_result back top holds bs blocks.total blocks.tiles bytes align
    fuel [] bs rfl 0#32 r after (by simp) safe.1 returned
  rcases walk with ⟨none, rfl, refused⟩ | ⟨mid, b, post, out, rfl, refused, suits, taken, next,
    tiles, kept⟩
  · have trivially : UsedKept (view after) (view after) start.toNat bs := fun _ _ _ _ _ _ => rfl
    refine ⟨bs, holds, blocks, trivially, Or.inl ⟨none, ⟨fun _ member _ => member,
      fun _ _ member _ => member⟩, malloc_safe_grown _ _ _ _ blocks.separated safe.1 ?_⟩⟩
    rintro b rest zero _ rfl suits
    exact refused (start.toNat, b) (by simp) (zero ▸ suits)
  · simp only [List.nil_append] at suits taken tiles kept
    obtain ⟨c, large, grants⟩ := taken_grants _ _ _ mid post out b _ suits.1 taken
    have total := blocks.total
    simp only [span_append, span_cons] at total
    have blocks' : Blocks (view after) start proc.heapSize (mid ++ (out ++ post)) := by
      refine ⟨tiles, ?_, separated_replace mid post out b suits.1.1
        (taken_separated _ _ _ _ _ _ taken) blocks.separated⟩
      simp only [span_append, taken_span _ _ _ _ _ _ taken]
      omega
    have mine : (start.toNat + span 6 mid, b) ∈ layout 6 start.toNat (mid ++ b :: post) := by simp
    have usedKept : UsedKept (view s) (view after) start.toNat (mid ++ b :: post) := by
      intro p member inUse x low high
      have bounds := layout_bounds 6 _ _ p member
      rw [blocks.total] at bounds
      have different : p ≠ (start.toNat + span 6 mid, b) := by
        rintro rfl
        rw [suits.1.1] at inUse
        simp at inUse
      have apart := layout_apart 6 _ _ _ _ member mine different
      dsimp only at apart
      exact kept x ⟨by omega, by omega⟩ (by omega)
    refine ⟨_, next, blocks', usedKept, ?_⟩
    by_cases none : r = NULL
    · -- the block at address 0 was taken, which `malloc` takes for a failure
      obtain ⟨zero, unaligned, alone, front⟩ := taken_null _ _ _ mid b r out none taken
      subst alone front
      refine Or.inl ⟨none, ⟨grants.kept, fun elsewhere => absurd zero elsewhere⟩,
        malloc_safe_grown _ _ _ _ blocks'.separated ?_ ?_⟩
      · rw [zero]
        exact safe.2 b post zero unaligned rfl (by simpa [zero] using suits)
      · rintro d others _ _ equal suitsFront
        have inUse := carve_front_head bytes.toNat b
        obtain ⟨n, tail, shape⟩ := inUse
        rw [shape] at equal
        obtain ⟨rfl, rfl⟩ := List.cons.inj equal
        simpa [Candidate] using suitsFront.1
    · exact Or.inr ⟨none, c, large, grants⟩

/-- The page `malloc` adds is one free block behind the heap, joined to the last
block if that is free. `unite_free_blocks` needs a round for each block. -/
theorem page_joined {s mapped : σ} {frame : Word} (proc : Process)
    (base : proc.heapStackBoundary = start) (current : proc.pageDirectory = directory)
    (top : start.toNat + proc.heapSize.toNat + 4096 < 2 ^ 32)
    (holds : valid proc.heapSize.toNat s) (bs : List Segment)
    (total : span 6 bs = proc.heapSize.toNat) (tiles : Tiles (view s) start.toNat bs) (fuel : Nat)
    (page : PagedSpace.allocPage s directory
      (BitVec.ofNat 32 (start.toNat + proc.heapSize.toNat)) 1#32
      (if directory = PagedSpace.kernelDirectory s then 1#32 else 0#32) = some (frame, mapped)) :
    (fuel ≤ bs.length ∧ growHeap fuel s proc = none) ∨
      ∃ after, growHeap fuel s proc =
          some (after, { proc with heapSize := proc.heapSize + PAGE_SIZE }) ∧
        valid (proc.heapSize + PAGE_SIZE).toNat after ∧
        Tiles (view after) start.toNat (coalesce 6 (bs ++ [⟨true, 4090⟩])) ∧
        UsedKept (view s) (view after) start.toNat bs := by
  have heapEnd : (proc.heapStackBoundary + proc.heapSize).toNat =
      start.toNat + proc.heapSize.toNat := by
    rw [base]
    bv_omega
  have endWord : proc.heapSize + proc.heapStackBoundary =
      BitVec.ofNat 32 (start.toNat + proc.heapSize.toNat) := by
    rw [BitVec.add_comm]
    exact (word_at _ _ heapEnd).symm
  have size1 := page_added proc.heapSize (by omega)
  obtain ⟨valid1, keep1⟩ := backing.grow holds top rfl page
  rw [← size1] at valid1
  have back := heap_backs backing (proc.heapSize + PAGE_SIZE) (by omega)
  have size4090 : (PAGE_SIZE - sizeofBlock).toNat = 4090 := rfl
  obtain ⟨s2, store2, valid2, size2, keep2⟩ := setSize_eq back (by omega) valid1
    (proc.heapStackBoundary + proc.heapSize) (by omega) (by omega) (PAGE_SIZE - sizeofBlock)
  obtain ⟨s3, store3, valid3, flag3, keep3⟩ := setIsFree_eq back (by omega) valid2
    (proc.heapStackBoundary + proc.heapSize) (by omega) (by omega) 1#16
  have second := toNat_add_two (proc.heapStackBoundary + proc.heapSize) (by omega)
  have header : HeaderAt (view s3) (proc.heapStackBoundary + proc.heapSize) ⟨true, 4090⟩ := by
    refine ⟨by simp [flag3], ?_⟩
    rw [load32_kept (view s2) (view s3) _ (by omega), size2, size4090]
    intro x first last
    exact keep3 x ⟨by omega, by omega⟩ (by omega)
  -- the new header stands behind the old end of the heap
  have outside : ∀ x : Word, start.toNat ≤ x.toNat →
      x.toNat < start.toNat + proc.heapSize.toNat → view s3 x = view s x := by
    intro x first last
    rw [keep3 x ⟨by omega, by omega⟩ (by omega), keep2 x ⟨by omega, by omega⟩ (by omega),
      keep1 x ⟨by omega, by omega⟩]
  have tiles3 : Tiles (view s3) start.toNat (bs ++ [⟨true, 4090⟩]) := by
    rw [tiles_append, tiles_cons, total, word_at _ _ heapEnd]
    refine ⟨tiles_kept _ _ _ _ ?_ ?_ tiles, header, tiles_nil _ _⟩
    · rw [total]
      omega
    · rw [total]
      exact outside
  have total3 : span 6 (bs ++ [⟨true, 4090⟩]) = (proc.heapSize + PAGE_SIZE).toNat := by
    rw [size1, span_append, total]
    rfl
  have unfolded : growHeap fuel s proc =
      (uniteFreeBlocks fuel s3 { proc with heapSize := proc.heapSize + PAGE_SIZE }).bind
        fun united => some (united, { proc with heapSize := proc.heapSize + PAGE_SIZE }) := by
    simp [growHeap, allocNewPage, current, endWord, page, store2, store3]
  have result := unite_result back (by omega) valid3
    { proc with heapSize := proc.heapSize + PAGE_SIZE } base rfl fuel _ (by simp) total3 tiles3
  rw [unfolded]
  rcases result with ⟨short, none⟩ | ⟨after, done, valid4, tiles4, kept4⟩
  · simp only [List.length_append, List.length_singleton] at short
    exact Or.inl ⟨by omega, by rw [none]; rfl⟩
  · refine Or.inr ⟨after, by rw [done]; rfl, valid4, tiles4, ?_⟩
    intro p member inUse x low high
    have bounds := layout_bounds 6 _ _ p member
    rw [total] at bounds
    have further : p ∈ layout 6 start.toNat (bs ++ [⟨true, 4090⟩]) := by
      rw [layout_append]
      exact List.mem_append.mpr (Or.inl member)
    rw [kept4 p further inUse x low high, outside x (by omega) (by omega)]

theorem grow_heap_result {s : σ} (proc : Process) (base : proc.heapStackBoundary = start)
    (current : proc.pageDirectory = directory)
    (top : start.toNat + proc.heapSize.toNat + 4096 < 2 ^ 32)
    (holds : valid proc.heapSize.toNat s) (bs : List Segment)
    (total : span 6 bs = proc.heapSize.toNat) (tiles : Tiles (view s) start.toNat bs)
    (fuel : Nat) (after : σ) (grown : Process)
    (returned : growHeap fuel s proc = some (after, grown)) :
    grown = { proc with heapSize := proc.heapSize + PAGE_SIZE } ∧
      valid grown.heapSize.toNat after ∧
      Blocks (view after) start grown.heapSize (coalesce 6 (bs ++ [⟨true, 4090⟩])) ∧
      UsedKept (view s) (view after) start.toNat bs := by
  obtain ⟨⟨address, mapped⟩, allocated, _⟩ := Option.bind_eq_some_iff.mp returned
  obtain ⟨⟨frame, paging⟩, page, _⟩ := Option.bind_eq_some_iff.mp allocated
  have heapEnd : (start + proc.heapSize).toNat = start.toNat + proc.heapSize.toNat := by
    bv_omega
  rw [current, base, BitVec.add_comm, ← word_at _ _ heapEnd] at page
  have size1 := page_added proc.heapSize (by omega)
  rcases page_joined backing proc base current top holds bs total tiles fuel page with
    ⟨_, none⟩ | ⟨final, done, next, tiles', kept⟩
  · rw [none] at returned
    simp at returned
  · rw [done] at returned
    obtain ⟨rfl, rfl⟩ := Prod.mk.inj (Option.some.inj returned)
    refine ⟨rfl, next, ⟨tiles', ?_, coalesce_separated _ _⟩, kept⟩
    rw [span_coalesce, size1, span_append, total]
    rfl

/-- What a `malloc` that returns `ptr` has done to the heap. -/
structure Mallocs (valid : Nat → σ → Prop) (s after : σ) (proc proc' : Process)
    (start bytes ptr : Word) (pages : Nat) (bs bs' : List Segment) (c : Segment) : Prop where
  grown : proc' = { proc with heapSize := BitVec.ofNat 32 (proc.heapSize.toNat + 4096 * pages) }
  holds : valid proc'.heapSize.toNat after
  blocks : Blocks (view after) start proc'.heapSize bs'
  usedKept : UsedKept (view s) (view after) start.toNat bs
  large : bytes.toNat ≤ c.size
  grants : Grants start.toNat bs bs' (ptr.toNat - 6, c)
  place : 6 ≤ ptr.toNat

omit backing in
theorem malloc_found {s : σ} (proc : Process) (base : proc.heapStackBoundary = start)
    (top : start.toNat + proc.heapSize.toNat < 2 ^ 32) (bytes r : Word) (after : σ)
    (bs bs' : List Segment) (holds : valid proc.heapSize.toNat after)
    (blocks : Blocks (view after) start proc.heapSize bs')
    (usedKept : UsedKept (view s) (view after) start.toNat bs) (c : Segment)
    (large : bytes.toNat ≤ c.size) (grants : Grants start.toNat bs bs' (r.toNat, c)) :
    Mallocs valid s after proc proc start bytes (r + sizeofBlock) 0 bs bs' c := by
  have bounds := layout_bounds 6 _ _ _ grants.member
  rw [blocks.total] at bounds
  simp only [extent] at bounds
  have place : (r + sizeofBlock).toNat = r.toNat + 6 := by
    unfold sizeofBlock
    bv_omega
  refine ⟨by simp, holds, blocks, usedKept, large, ?_, by omega⟩
  rw [place]
  simpa using grants

/-- The loop of `malloc`, by induction on the pages it may still add. -/
theorem malloc_loop_result (bytes : Word) (align : Byte) (fuel growths : Nat) {s : σ}
    (proc : Process) (base : proc.heapStackBoundary = start)
    (current : proc.pageDirectory = directory)
    (top : start.toNat + proc.heapSize.toNat + 4096 * growths < 2 ^ 32)
    (holds : valid proc.heapSize.toNat s) (bs : List Segment)
    (blocks : Blocks (view s) start proc.heapSize bs)
    (safe : MallocSafe bytes.toNat align start.toNat bs) (ptr : Word) (after : σ) (proc' : Process)
    (returned : mallocLoop fuel bytes align growths s proc = some (ptr, after, proc')) :
    ∃ pages bs' c, pages ≤ growths ∧
      mallocLoop fuel bytes align pages s proc = some (ptr, after, proc') ∧
      Mallocs valid s after proc proc' start bytes ptr pages bs bs' c := by
  -- by induction on the pages that may still be added
  induction growths using Nat.strong_induction_on generalizing s proc bs with
  | _ growths ih =>
      obtain ⟨r, searched, search, outcome⟩ := malloc_loop_cases returned
      obtain ⟨bs', next, blocks', usedKept, taken⟩ := get_free_block_result backing proc base
        (by omega) holds bs blocks bytes align safe fuel r searched search
      rcases outcome with ⟨found, rfl, rfl, rfl⟩ | ⟨none, fewer, enlarged, grown, rfl, grows, goesOn⟩
      · rcases taken with ⟨none, _⟩ | ⟨_, c, large, grants⟩
        · exact absurd none found
        · exact ⟨0, bs', c, Nat.zero_le _, malloc_loop_found search found, malloc_found proc' base
            (by omega) bytes r after bs bs' next blocks' usedKept c large grants⟩
      · rcases taken with ⟨_, survives, safe'⟩ | ⟨found, _⟩
        · subst none
          rw [Nat.mul_succ, ← Nat.add_assoc] at top
          have room : start.toNat + proc.heapSize.toNat + 4096 < 2 ^ 32 := by omega
          have size1 := page_added proc.heapSize (by omega)
          obtain ⟨rfl, valid2, blocks2, usedKept2⟩ := grow_heap_result backing proc base current
            room next bs' blocks'.total blocks'.tiles fuel enlarged grown grows
          have later := survives_grown start.toNat bs'
          obtain ⟨pages, bs3, c, few, exactly, mallocs⟩ := ih fewer (Nat.lt_succ_self fewer)
            { proc with heapSize := proc.heapSize + PAGE_SIZE } base current (by rw [size1]; omega)
            valid2 _ blocks2 safe' goesOn
          refine ⟨pages + 1, bs3, c, by omega, (malloc_loop_grown search grows).trans exactly, ?_,
            mallocs.holds, mallocs.blocks, ?_, mallocs.large, ?_, mallocs.place⟩
          · rw [mallocs.grown, size1]
            simp only [Process.mk.injEq, true_and, and_true]
            rw [Nat.mul_succ, Nat.add_right_comm, Nat.add_assoc proc.heapSize.toNat]
          · exact used_kept_survives _ _ _ _ _ _ (survives_trans _ _ _ _ survives later)
              (used_kept_survives _ _ _ _ _ _ survives usedKept usedKept2) mallocs.usedKept
          · exact survives_grants _ _ _ _ _ (survives_trans _ _ _ _ survives later) mallocs.grants
        · exact absurd none found

def initialBlocks (heapSize : Word) : List Segment :=
  if heapSize = 0#32 then [] else [⟨true, heapSize.toNat - 6⟩]

/-- A heap with room for a header becomes one free block; an empty heap has no
block, its header being overwritten with the first page's. -/
theorem initialise_heap_result {s : σ} (proc : Process) (base : proc.heapStackBoundary = start)
    (room : proc.heapSize = 0#32 ∨ 6 ≤ proc.heapSize.toNat)
    (high : start.toNat + max proc.heapSize.toNat 6 < 2 ^ 32)
    (holds : valid proc.heapSize.toNat s) (after : σ)
    (returned : initialiseHeap s proc = some after) :
    valid proc.heapSize.toNat after ∧
      Blocks (view after) start proc.heapSize (initialBlocks proc.heapSize) ∧
      HeaderAt (view after) start ⟨true, (proc.heapSize - sizeofBlock).toNat⟩ := by
  have back := backing.access proc.heapSize.toNat (by omega)
  obtain ⟨s1, store1, valid1, size1, keep1⟩ := setSize_eq back (by omega) holds start
    (by omega) (by omega) (proc.heapSize - sizeofBlock)
  obtain ⟨s2, store2, valid2, flag2, keep2⟩ := setIsFree_eq back (by omega) valid1 start
    (by omega) (by omega) 1#16
  have done : initialiseHeap s proc = some s2 := by
    simp [initialiseHeap, base, store1, store2]
  rw [done] at returned
  obtain rfl := Option.some.inj returned
  have header : HeaderAt (view s2) start ⟨true, (proc.heapSize - sizeofBlock).toNat⟩ := by
    refine ⟨by simp [flag2], ?_⟩
    have second := toNat_add_two start (by omega)
    rw [load32_kept (view s1) (view s2) _ (by omega), size1]
    intro x first last
    exact keep2 x ⟨by omega, by omega⟩ (by omega)
  refine ⟨valid2, ?_, header⟩
  unfold initialBlocks
  by_cases nothing : proc.heapSize = 0#32
  · rw [if_pos nothing]
    exact ⟨tiles_nil _ _, by simp [nothing], by simp [Separated]⟩
  · have fits := room.resolve_left nothing
    have top : start.toNat + proc.heapSize.toNat < 2 ^ 32 := by omega
    rw [if_neg nothing]
    have least : (proc.heapSize - sizeofBlock).toNat = proc.heapSize.toNat - 6 := by
      unfold sizeofBlock
      bv_omega
    refine ⟨?_, by simp [extent]; omega, by simp [Separated]⟩
    rw [tiles_cons, word_at _ start rfl, ← least]
    exact ⟨header, tiles_nil _ _⟩

theorem free_result {s : σ} (proc : Process) (base : proc.heapStackBoundary = start)
    (top : start.toNat + proc.heapSize.toNat < 2 ^ 32) (holds : valid proc.heapSize.toNat s)
    (bs : List Segment) (blocks : Blocks (view s) start proc.heapSize bs) (memPtr : Word)
    (p : Nat × Segment) (member : p ∈ layout 6 start.toNat bs) (place : memPtr.toNat = p.1 + 6) (fuel : Nat) (after : σ)
    (returned : free fuel s proc memPtr = some after) :
    ∃ bs', valid proc.heapSize.toNat after ∧ Blocks (view after) start proc.heapSize bs' ∧
      (∀ q, q.2.free = false →
        (q ∈ layout 6 start.toNat bs' ↔ q ∈ layout 6 start.toNat bs ∧ q ≠ p)) ∧
      ∀ q ∈ layout 6 start.toNat bs, q.2.free = false → q ≠ p → ∀ x : Word, q.1 ≤ x.toNat →
        x.toNat < q.1 + extent 6 q.2 → view after x = view s x := by
  have back := heap_backs backing proc.heapSize top
  have bounds := layout_bounds 6 _ _ p member
  rw [blocks.total] at bounds
  have larger : 6 ≤ extent 6 p.2 := by simp [extent]
  have info : (memPtr - sizeofBlock).toNat = p.1 := by
    unfold sizeofBlock
    bv_omega
  obtain ⟨flipped, store1, valid1, flag1, keep1⟩ := setIsFree_eq back (by omega) holds
    (memPtr - sizeofBlock) (by omega) (by omega) 1#16
  obtain ⟨pre, post, split, here⟩ := layout_split 6 _ _ p member
  have header : HeaderAt (view s) (memPtr - sizeofBlock) p.2 := by
    rw [← word_at p.1 _ info]
    exact blocks.tiles p member
  have total : span 6 (pre ++ ⟨true, p.2.size⟩ :: post) = proc.heapSize.toNat := by
    rw [← blocks.total, split]
    simp [extent]
  have second := toNat_add_two (memPtr - sizeofBlock) (by omega)
  have tiles1 : Tiles (view flipped) start.toNat (pre ++ ⟨true, p.2.size⟩ :: post) := by
    have whole : span 6 (pre ++ ([p.2] ++ post)) = proc.heapSize.toNat := by
      rw [← blocks.total, split]
      rfl
    apply tiles_replace (view s) (view flipped) _ pre [p.2] [⟨true, p.2.size⟩] post
      (by rw [whole]; omega) rfl (by rw [← show bs = pre ++ ([p.2] ++ post) from split]; exact
        blocks.tiles)
    · rw [← here, tiles_cons, word_at _ _ info]
      refine ⟨⟨by simp [flag1], ?_⟩, tiles_nil _ _⟩
      rw [load32_kept (view s) (view flipped) _ (by omega)]
      · exact header.2
      · exact fun x first last => keep1 x ⟨by omega, by omega⟩ (by omega)
    · intro x first last away
      rw [whole] at last
      simp only [span_cons, span_nil] at away
      exact keep1 x ⟨by omega, by omega⟩ (by omega)
  have unites : uniteFreeBlocks fuel flipped proc = some after := by
    simpa [free, store1] using returned
  have result := unite_result back (by omega) valid1 proc base rfl fuel _ (by simp) total tiles1
  rcases result with ⟨_, none⟩ | ⟨final, done, valid2, tiles2, kept2⟩
  · rw [none] at unites
    simp at unites
  rw [done] at unites
  obtain rfl := Option.some.inj unites
  have others : ∀ q, q.2.free = false → (q ∈ layout 6 start.toNat (pre ++ ⟨true, p.2.size⟩ :: post)
      ↔ q ∈ layout 6 start.toNat bs ∧ q ≠ p) := by
    intro q usedOne
    rw [split, freed_used _ pre post p.2 q usedOne, ← here]
  refine ⟨coalesce 6 (pre ++ ⟨true, p.2.size⟩ :: post), valid2, ⟨tiles2, ?_, coalesce_separated _ _⟩,
    ?_, ?_⟩
  · rw [span_coalesce, total]
  · intro q usedOne
    rw [used_coalesce_iff _ _ _ usedOne]
    exact others q usedOne
  · intro q earlier usedOne different x low high
    have apart := layout_apart 6 _ _ _ _ earlier member different
    have bounds := layout_bounds 6 _ _ q earlier
    rw [blocks.total] at bounds
    rw [kept2 q ((others q usedOne).mpr ⟨earlier, different⟩) usedOne x low high,
      keep1 x ⟨by omega, by omega⟩ (by omega)]

end Calls
end GargOS
