import GargOS.HeapCalls

/-!
The loop of `malloc` while it finds nothing: every round adds one page, and the
pages change only the end of the list of blocks.
-/

namespace GargOS
open ByteMemory AddressSpace Tiling

/-- The blocks after a page has been added: it joins the last block if that is
free. -/
def addPage (bs : List Segment) : List Segment := coalesce 6 (bs ++ [⟨true, 4090⟩])

def addPages : Nat → List Segment → List Segment
  | 0, bs => bs
  | pages + 1, bs => addPages pages (addPage bs)

theorem add_page_span (bs : List Segment) : span 6 (addPage bs) = span 6 bs + 4096 := by
  simp [addPage, extent]

theorem add_page_length (bs : List Segment) : (addPage bs).length ≤ bs.length + 1 := by
  have short := coalesce_length 6 (bs ++ [⟨true, 4090⟩])
  rwa [List.length_append] at short

theorem add_pages_length (pages : Nat) (bs : List Segment) :
    (addPages pages bs).length ≤ bs.length + pages := by
  induction pages generalizing bs with
  | zero => exact Nat.le_refl _
  | succ pages ih =>
      have one := add_page_length bs
      have rest := ih (addPage bs)
      rw [addPages]
      omega

theorem add_page_coarse (bs : List Segment) (coarse : ∀ b ∈ bs, 6 ≤ b.size) :
    ∀ b ∈ addPage bs, 6 ≤ b.size := by
  apply coalesce_sizes 6 6
  intro b member
  rcases List.mem_append.mp member with early | page
  · exact coarse b early
  · rw [List.mem_singleton.mp page]
    decide

theorem add_pages_coarse (pages : Nat) (bs : List Segment) (coarse : ∀ b ∈ bs, 6 ≤ b.size) :
    ∀ b ∈ addPages pages bs, 6 ≤ b.size := by
  induction pages generalizing bs with
  | zero => exact coarse
  | succ pages ih => exact ih _ (add_page_coarse bs coarse)

theorem add_page_last (bs : List Segment) : ∃ front size, 4090 ≤ size ∧
    addPage bs = front ++ [⟨true, size⟩] ∧ Separated (front ++ [⟨true, size⟩]) := by
  obtain ⟨front, size, large, shape⟩ := coalesce_last 6 bs 4090
  refine ⟨front, size, large, shape, ?_⟩
  rw [← shape]
  exact coalesce_separated 6 _

theorem add_page_free_last (bs : List Segment) (size : Nat)
    (apart : Separated (bs ++ [⟨true, size⟩])) :
    addPage (bs ++ [⟨true, size⟩]) = bs ++ [⟨true, size + 4096⟩] :=
  coalesce_free_last 6 bs size 4090 apart

theorem separated_longer (bs : List Segment) (size longer : Nat)
    (apart : Separated (bs ++ [⟨true, size⟩])) : Separated (bs ++ [⟨true, longer⟩]) := by
  unfold Separated at *
  rw [List.isChain_append] at apart ⊢
  refine ⟨apart.1, List.isChain_singleton _, ?_⟩
  intro b member c single
  simp only [List.head?_cons, Option.mem_some_iff] at single
  subst single
  exact apart.2.2 b member ⟨true, size⟩ rfl

theorem add_pages_free_last (pages : Nat) (bs : List Segment) (size : Nat)
    (apart : Separated (bs ++ [⟨true, size⟩])) :
    addPages pages (bs ++ [⟨true, size⟩]) = bs ++ [⟨true, size + 4096 * pages⟩] := by
  induction pages generalizing size with
  | zero => rfl
  | succ pages ih =>
      rw [addPages, add_page_free_last bs size apart,
        ih _ (separated_longer bs size _ apart)]
      congr 3
      omega

theorem add_pages_used_last (pages : Nat) (bs : List Segment) (apart : Separated bs)
    (used : ∀ last ∈ bs.getLast?, last.free = false) :
    addPages (pages + 1) bs = bs ++ [⟨true, 4090 + 4096 * pages⟩] := by
  have added : addPage bs = bs ++ [⟨true, 4090⟩] := coalesce_used_last 6 bs 4090 apart used
  have still : Separated (bs ++ [⟨true, 4090⟩]) := by
    rw [← added]
    exact coalesce_separated 6 _
  rw [addPages, added, add_pages_free_last pages bs 4090 still]

section Growth
variable {σ : Type} [PagedSpace σ] {start directory : Word} {valid : Nat → σ → Prop}

/-- `alloc_page` maps every page the heap at `start` needs to reach `limit` bytes. -/
def PagesRemain (start directory : Word) (limit : Nat) (valid : Nat → σ → Prop) : Prop :=
  ∀ n s, valid n s → n + 4096 ≤ limit → ∃ frame mapped,
    PagedSpace.allocPage s directory (BitVec.ofNat 32 (start.toNat + n)) 1#32
      (if directory = PagedSpace.kernelDirectory s then 1#32 else 0#32) = some (frame, mapped)

structure ConsistsOf (valid : Nat → σ → Prop) (start directory : Word) (s : σ) (proc : Process)
    (bs : List Segment) : Prop where
  base : proc.heapStackBoundary = start
  current : proc.pageDirectory = directory
  top : start.toNat + proc.heapSize.toNat < 2 ^ 32
  holds : valid proc.heapSize.toNat s
  total : span 6 bs = proc.heapSize.toNat
  tiles : Tiles (view s) start.toNat bs

def withPages (proc : Process) (pages : Nat) : Process :=
  { proc with heapSize := proc.heapSize + BitVec.ofNat 32 (4096 * pages) }

theorem with_no_pages (proc : Process) : withPages proc 0 = proc := by
  simp [withPages]

theorem with_pages_size (proc : Process) (pages : Nat)
    (fits : proc.heapSize.toNat + 4096 * pages < 2 ^ 32) :
    (withPages proc pages).heapSize.toNat = proc.heapSize.toNat + 4096 * pages := by
  unfold withPages
  rw [BitVec.toNat_add, BitVec.toNat_ofNat]
  omega

theorem with_pages_succ (proc : Process) (pages : Nat) :
    withPages (withPages proc 1) pages = withPages proc (pages + 1) := by
  have sum : proc.heapSize + BitVec.ofNat 32 (4096 * 1) + BitVec.ofNat 32 (4096 * pages) =
      proc.heapSize + BitVec.ofNat 32 (4096 * (pages + 1)) := by
    rw [BitVec.add_assoc, ← BitVec.ofNat_add]
    congr 2
    omega
  simp only [withPages, sum]

variable (backing : HeapBacking start directory valid) {limit : Nat}
  (frames : PagesRemain start directory limit valid)
include backing

theorem grown_consists {s after : σ} {proc grown : Process} {bs : List Segment}
    (heap : ConsistsOf valid start directory s proc bs)
    (room : start.toNat + proc.heapSize.toNat + 4096 < 2 ^ 32) (fuel : Nat)
    (returned : growHeap fuel s proc = some (after, grown)) :
    grown.heapSize.toNat = proc.heapSize.toNat + 4096 ∧
      ConsistsOf valid start directory after grown (addPage bs) ∧ Separated (addPage bs) := by
  obtain ⟨rfl, holds, blocks, _⟩ := grow_heap_result backing proc heap.base heap.current room
    heap.holds bs heap.total heap.tiles fuel after grown returned
  have size := page_added proc.heapSize (by omega)
  refine ⟨size, ⟨heap.base, heap.current, ?_, holds, blocks.total, blocks.tiles⟩, blocks.separated⟩
  show start.toNat + (proc.heapSize + PAGE_SIZE).toNat < 2 ^ 32
  omega

include frames

theorem round_grows {s between : σ} {proc : Process} {bs : List Segment}
    (heap : ConsistsOf valid start directory between proc bs) (fuel : Nat)
    (enough : bs.length < fuel) (room : start.toNat + proc.heapSize.toNat + 4096 < 2 ^ 32)
    (below : proc.heapSize.toNat + 4096 ≤ limit) (bytes : Word) (align : Byte)
    (search : getFreeBlock fuel s proc bytes align = some (NULL, between)) :
    ∃ after grown, grown = withPages proc 1 ∧
      grown.heapSize.toNat = proc.heapSize.toNat + 4096 ∧
      ConsistsOf valid start directory after grown (addPage bs) ∧
      ∀ growths, mallocLoop fuel bytes align (growths + 1) s proc =
        mallocLoop fuel bytes align growths after grown := by
  obtain ⟨frame, mapped, page⟩ := frames _ _ heap.holds below
  have size1 := page_added proc.heapSize (by omega)
  rcases page_joined backing proc heap.base heap.current room heap.holds bs heap.total heap.tiles
    fuel page with ⟨short, _⟩ | ⟨after, grows, next, tiles, _⟩
  · omega
  · refine ⟨after, { proc with heapSize := proc.heapSize + PAGE_SIZE }, rfl, size1,
      ⟨heap.base, heap.current, ?_, next, ?_, tiles⟩, fun growths => ?_⟩
    · show start.toNat + (proc.heapSize + PAGE_SIZE).toNat < 2 ^ 32
      omega
    · rw [add_page_span, heap.total]
      exact size1.symm
    · exact malloc_loop_grown search grows

/-- The rounds of `malloc` up to the first that finds something, by induction on
their number. -/
theorem rounds_grow (pages fuel : Nat) (bytes : Word) (align : Byte) {s : σ} {proc : Process}
    {bs : List Segment} (heap : ConsistsOf valid start directory s proc bs)
    (enough : bs.length + pages ≤ fuel)
    (room : start.toNat + proc.heapSize.toNat + 4096 * pages < 2 ^ 32)
    (below : proc.heapSize.toNat + 4096 * pages ≤ limit)
    (nothing : ∀ n < pages, ∀ s' proc',
      ConsistsOf valid start directory s' proc' (addPages n bs) →
        getFreeBlock fuel s' proc' bytes align = some (NULL, s')) :
    ∃ after, ConsistsOf valid start directory after (withPages proc pages) (addPages pages bs) ∧
      ∀ growths, mallocLoop fuel bytes align (growths + pages) s proc =
        mallocLoop fuel bytes align growths after (withPages proc pages) := by
  induction pages generalizing s proc bs with
  | zero =>
      rw [with_no_pages]
      exact ⟨s, heap, fun _ => rfl⟩
  | succ pages ih =>
      rw [Nat.mul_succ, ← Nat.add_assoc] at room below
      have search := nothing 0 (Nat.succ_pos pages) s proc heap
      obtain ⟨next, grown, same, size1, heap1, round⟩ := round_grows backing frames heap fuel
        (by omega) (by omega) (by omega) bytes align search
      have length1 := add_page_length bs
      have room1 : start.toNat + grown.heapSize.toNat + 4096 * pages < 2 ^ 32 := by
        rw [size1]
        omega
      have below1 : grown.heapSize.toNat + 4096 * pages ≤ limit := by
        rw [size1]
        omega
      obtain ⟨after, last, rounds⟩ := ih heap1 (by omega) room1 below1
        fun n less => nothing (n + 1) (by omega)
      rw [same, with_pages_succ] at last rounds
      refine ⟨after, last, fun growths => ?_⟩
      rw [← Nat.add_assoc, round, same, rounds]

end Growth
end GargOS
