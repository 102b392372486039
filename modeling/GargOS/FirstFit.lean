import GargOS.HeapGrowth
import GargOS.HeapRuns
import Mathlib.Order.Bounds.Basic

/-!
`malloc` without alignment against what it is for: the first block that is large
enough, or else the last block once the fewest pages that make it large enough
have been added.
-/

namespace GargOS
open ByteMemory AddressSpace Tiling

/-- The block at `address` is the one a request is to get, after `pages` pages
have been added. -/
inductive FirstFit (start bytes : Nat) : List Segment → (address pages : Nat) → Prop
  | taken (pre : List Segment) (b : Segment) (post : List Segment)
      (candidate : Candidate bytes b) (earlier : ∀ c ∈ pre, ¬ Candidate bytes c) :
      FirstFit start bytes (pre ++ b :: post) (start + span 6 pre) 0
  | extended (pre : List Segment) (size pages : Nat)
      (nothing : ∀ c ∈ pre ++ [⟨true, size⟩], ¬ Candidate bytes c)
      (fewest : IsLeast {k | bytes ≤ size + 0x1000 * k} pages) :
      FirstFit start bytes (pre ++ [⟨true, size⟩]) (start + span 6 pre) pages
  | appended (bs : List Segment) (pages : Nat) (used : ∀ last ∈ bs.getLast?, last.free = false)
      (nothing : ∀ c ∈ bs, ¬ Candidate bytes c)
      (fewest : IsLeast {k | bytes ≤ 0x1000 * k - 6} pages) :
      FirstFit start bytes bs (start + span 6 bs) pages

theorem first_candidate (bytes : Nat) (bs : List Segment) :
    (∀ c ∈ bs, ¬ Candidate bytes c) ∨ ∃ pre b post, bs = pre ++ b :: post ∧
      Candidate bytes b ∧ ∀ c ∈ pre, ¬ Candidate bytes c := by
  induction bs with
  | nil => exact Or.inl (by simp)
  | cons b rest ih =>
      by_cases candidate : Candidate bytes b
      · exact Or.inr ⟨[], b, rest, rfl, candidate, by simp⟩
      · rcases ih with nothing | ⟨pre, c, post, split, found, earlier⟩
        · exact Or.inl (List.forall_mem_cons.mpr ⟨candidate, nothing⟩)
        · exact Or.inr ⟨b :: pre, c, post, by rw [split]; rfl, found,
            List.forall_mem_cons.mpr ⟨candidate, earlier⟩⟩

theorem fewest_pages (enough : Nat → Prop) (some : ∃ k, enough k) :
    ∃ pages, IsLeast {k | enough k} pages := by
  classical
  exact ⟨Nat.find some, Nat.find_spec some, fun _ holds => Nat.find_min' some holds⟩

/-- Every request has its block in every heap. -/
theorem first_fit_exists (start bytes : Nat) (bs : List Segment) :
    ∃ address pages, FirstFit start bytes bs address pages := by
  rcases first_candidate bytes bs with nothing | ⟨pre, b, post, rfl, candidate, earlier⟩
  · have behind := fewest_pages (fun k => bytes ≤ 0x1000 * k - 6) ⟨bytes + 6, by omega⟩
    rcases List.eq_nil_or_concat' bs with rfl | ⟨front, ⟨free, size⟩, rfl⟩
    · obtain ⟨pages, fewest⟩ := behind
      exact ⟨_, pages, FirstFit.appended [] pages (by simp) nothing fewest⟩
    · cases free with
      | true =>
          obtain ⟨pages, fewest⟩ := fewest_pages (fun k => bytes ≤ size + 0x1000 * k)
            ⟨bytes, by omega⟩
          exact ⟨_, pages, FirstFit.extended front size pages nothing fewest⟩
      | false =>
          obtain ⟨pages, fewest⟩ := behind
          exact ⟨_, pages, FirstFit.appended _ pages (by simp) nothing fewest⟩
  · exact ⟨_, 0, FirstFit.taken pre b post candidate earlier⟩

section Taking
variable {σ : Type} [PagedSpace σ] {lo hi : Nat} {valid : σ → Prop}
  (back : Backs lo hi valid) (top : hi < 2 ^ 32) {s : σ} (holds : valid s)
  (info : Word) (b : Segment) (low : lo ≤ info.toNat) (header : HeaderAt (view s) info b)
include back top holds low header

/-- A block smaller than a header is divided too, over the header behind it;
there is one unless the block is the last. -/
theorem take_first_returns (high : info.toNat + 6 + b.size ≤ hi) (bytes : Word)
    (fits : bytes.toNat ≤ b.size)
    (room : 6 ≤ b.size ∨ info.toNat + 12 + b.size ≤ hi) :
    ∃ after, takeFirst s info bytes = some after := by
  by_cases large : 6 ≤ b.size
  · obtain ⟨after, taken, _⟩ := take_first_done back top holds info b low high header bytes fits
      large
    exact ⟨after, taken⟩
  · have behind := room.resolve_left large
    obtain ⟨s1, store1, valid1, flag1, keep1⟩ := setIsFree_eq back (by omega) holds info
      low (by omega) 0#16
    have second := toNat_add_two info (by omega)
    have sizeKept : ByteMemory.load32 (view s1) (info + 2#32) =
        ByteMemory.load32 (view s) (info + 2#32) :=
      load32_kept _ _ _ (by omega) fun x first last => keep1 x ⟨by omega, by omega⟩ (by omega)
    have read := size_eq back (by omega) valid1 info low (by omega)
    have stored := header.2
    rw [sizeKept] at read
    -- `info->size - sizeof(block)` wraps, so the comparison does not refuse
    have short : ¬ bytes > ByteMemory.load32 (view s) (info + 2#32) - sizeofBlock := by
      unfold sizeofBlock
      bv_omega
    have place : (info + sizeofBlock + bytes).toNat = info.toNat + 6 + bytes.toNat := by
      unfold sizeofBlock
      bv_omega
    obtain ⟨s2, store2, valid2, _⟩ := setSize_eq back (by omega) valid1 (info + sizeofBlock + bytes)
      (by omega) (by omega) (ByteMemory.load32 (view s) (info + 2#32) - sizeofBlock - bytes)
    obtain ⟨s3, store3, valid3, _⟩ := setSize_eq back (by omega) valid2 info low (by omega) bytes
    obtain ⟨s4, store4, _⟩ := setIsFree_eq back (by omega) valid3 (info + sizeofBlock + bytes)
      (by omega) (by omega) 1#16
    have notNull : info + sizeofBlock + bytes ≠ NULL := by
      intro null
      rw [null] at place
      have zero : NULL.toNat = 0 := rfl
      omega
    exact ⟨s4, by simp [takeFirst, divideBlock, store1, read, short, store2, store3, notNull,
      store4]⟩

end Taking

section Search
variable {σ : Type} [PagedSpace σ] {start directory : Word} {valid : Nat → σ → Prop}
  (backing : HeapBacking start directory valid) {s : σ} {proc : Process}
include backing

theorem walk_skips_all (bytes : Word) (align : Byte) (mid pre post : List Segment)
    (heap : ConsistsOf valid start directory s proc (pre ++ (mid ++ post)))
    (refused : ∀ c ∈ mid, ¬ Candidate bytes.toNat c) (i : Word) (here : i.toNat = span 6 pre) :
    ∃ j : Word, j.toNat = span 6 (pre ++ mid) ∧ ∀ fuel,
      getFreeBlockFrom start proc.heapSize bytes align (fuel + mid.length) i s =
        getFreeBlockFrom start proc.heapSize bytes align fuel j s := by
  induction mid generalizing pre i with
  | nil => exact ⟨i, by simpa using here, fun _ => rfl⟩
  | cons b mid ih =>
      have back := heap_backs backing proc.heapSize heap.top
      have read := block_read back heap.top.le heap.holds pre (mid ++ post) b heap.total heap.tiles i
        here
      obtain ⟨j, place, skips⟩ := ih (pre ++ [b]) (by simpa using heap)
        (fun c member => refused c (List.mem_cons_of_mem b member)) _ (read.next_span here)
      refine ⟨j, by simpa using place, fun fuel => ?_⟩
      rw [List.length_cons, ← Nat.add_assoc, walk_skips read bytes align _
        (refused b List.mem_cons_self), skips]

theorem search_finds_nothing {bs : List Segment}
    (heap : ConsistsOf valid start directory s proc bs) (bytes : Word) (align : Byte)
    (nothing : ∀ c ∈ bs, ¬ Candidate bytes.toNat c) (fuel : Nat) (enough : bs.length < fuel) :
    getFreeBlock fuel s proc bytes align = some (NULL, s) := by
  obtain ⟨j, place, skips⟩ := walk_skips_all backing bytes align bs [] [] (by simpa using heap)
    nothing 0#32 (by simp)
  obtain ⟨more, rfl⟩ : ∃ more, fuel = more + 1 + bs.length := ⟨fuel - 1 - bs.length, by omega⟩
  rw [getFreeBlock, heap.base, skips, walk_ends]
  rw [place, List.nil_append, heap.total]

theorem search_takes_first (pre post : List Segment) (b : Segment)
    (heap : ConsistsOf valid start directory s proc (pre ++ b :: post)) (bytes : Word)
    (candidate : Candidate bytes.toNat b) (earlier : ∀ c ∈ pre, ¬ Candidate bytes.toNat c)
    (inside : post = [] → 6 ≤ b.size) :
    ∃ r after, r.toNat = start.toNat + span 6 pre ∧ ∀ fuel, pre.length < fuel →
      getFreeBlock fuel s proc bytes 0#8 = some (r, after) := by
  have back := heap_backs backing proc.heapSize heap.top
  obtain ⟨j, place, skips⟩ := walk_skips_all backing bytes 0#8 pre [] (b :: post) heap earlier 0#32
    (by simp)
  have read := block_read back heap.top.le heap.holds pre post b heap.total heap.tiles j
    (by simpa using place)
  have header := read.header
  have there := read.place
  have ends := read.ends
  -- a block behind this one has its header inside the heap
  have room : 6 ≤ b.size ∨ (start + j).toNat + 12 + b.size ≤
      start.toNat + proc.heapSize.toNat := by
    cases post with
    | nil => exact Or.inl (inside rfl)
    | cons next rest =>
        have total := heap.total
        simp only [List.nil_append] at place
        simp only [span_append, span_cons, extent] at total
        omega
  obtain ⟨after, taken⟩ := take_first_returns back heap.top heap.holds (start + j) b (by omega)
    header (by omega) bytes candidate.2 room
  refine ⟨start + j, after, by rw [there, place]; rfl, fun fuel enough => ?_⟩
  obtain ⟨more, rfl⟩ : ∃ more, fuel = more + 1 + pre.length := ⟨fuel - 1 - pre.length, by omega⟩
  rw [getFreeBlock, heap.base, skips, walk_takes read bytes more candidate, taken, Option.bind_some]

theorem malloc_takes_first (pre post : List Segment) (b : Segment)
    (heap : ConsistsOf valid start directory s proc (pre ++ b :: post)) (bytes : Word)
    (candidate : Candidate bytes.toNat b) (earlier : ∀ c ∈ pre, ¬ Candidate bytes.toNat c)
    (inside : post = [] → 6 ≤ b.size) (elsewhere : start.toNat + span 6 pre ≠ 0) :
    ∃ after, ∀ fuel growths, pre.length < fuel → mallocLoop fuel bytes 0#8 growths s proc =
      some (BitVec.ofNat 32 (start.toNat + span 6 pre + 6), after, proc) := by
  obtain ⟨r, after, place, search⟩ := search_takes_first backing pre post b heap bytes candidate
    earlier inside
  have notNull : r ≠ NULL := by
    rintro rfl
    exact elsewhere place.symm
  have top := heap.top
  have total := heap.total
  simp only [span_append, span_cons, extent] at total
  have ptr : (r + sizeofBlock).toNat = start.toNat + span 6 pre + 6 := by
    unfold sizeofBlock
    bv_omega
  refine ⟨after, fun fuel growths enough => ?_⟩
  rw [word_at _ _ ptr]
  exact malloc_loop_found (search fuel enough) notNull

end Search

section Malloc
variable {σ : Type} [PagedSpace σ]

/-- `malloc` returns `ptr` and adds `pages` pages, whatever its loops are
bounded by from some bound on. -/
def MallocReturns (s : σ) (proc : Process) (bytes : Word) (align : Byte) (ptr : Word)
    (pages : Nat) : Prop :=
  ∃ bound, ∀ fuel growths, bound ≤ fuel → pages ≤ growths →
    ∃ after, malloc fuel growths s bytes proc align = some (ptr, after, withPages proc pages)

variable {start directory : Word} {valid : Nat → σ → Prop}
  (backing : HeapBacking start directory valid) {s : σ} {proc : Process} {bs : List Segment}
  (heap : ConsistsOf valid start directory s proc bs) (bytes : Word)
include backing heap

theorem grown_first_fit (pages : Nat) (pre post : List Segment) (b : Segment)
    (shape : addPages pages bs = pre ++ b :: post)
    (nothing : ∀ n < pages, ∀ c ∈ addPages n bs, ¬ Candidate bytes.toNat c)
    (candidate : Candidate bytes.toNat b) (earlier : ∀ c ∈ pre, ¬ Candidate bytes.toNat c)
    (inside : post = [] → 6 ≤ b.size) (elsewhere : start.toNat + span 6 pre ≠ 0)
    (room : start.toNat + proc.heapSize.toNat + 4096 * pages < 2 ^ 32) {limit : Nat}
    (frames : PagesRemain start directory limit valid)
    (below : proc.heapSize.toNat + 4096 * pages ≤ limit) (fuel growths : Nat)
    (enough : bs.length + pages + 1 ≤ fuel) (more : pages ≤ growths) :
    ∃ after, mallocLoop fuel bytes 0#8 growths s proc =
      some (BitVec.ofNat 32 (start.toNat + span 6 pre + 6), after, withPages proc pages) := by
  obtain ⟨grown, heap1, rounds⟩ := rounds_grow backing frames pages fuel bytes 0#8 heap (by omega)
    room below (by
      intro n less s' proc' heap'
      have short := add_pages_length n bs
      exact search_finds_nothing backing heap' bytes 0#8 (nothing n less) fuel (by omega))
  have short := add_pages_length pages bs
  rw [shape, List.length_append, List.length_cons] at short
  rw [shape] at heap1
  obtain ⟨after, takes⟩ := malloc_takes_first backing pre post b heap1 bytes candidate earlier
    inside elsewhere
  obtain ⟨left, rfl⟩ : ∃ left, growths = left + pages := ⟨growths - pages, by omega⟩
  exact ⟨after, by rw [rounds, takes fuel left (by omega)]⟩

theorem extended_first_fit (front : List Segment) (size pages : Nat)
    (shape : bs = front ++ [⟨true, size⟩]) (apart : Separated bs)
    (nothing : ∀ c ∈ bs, ¬ Candidate bytes.toNat c)
    (fewest : IsLeast {k | bytes.toNat ≤ size + 4096 * k} pages)
    (inside : 6 ≤ size + 4096 * pages) (elsewhere : start.toNat + span 6 front ≠ 0)
    (room : start.toNat + proc.heapSize.toNat + 4096 * pages < 2 ^ 32) {limit : Nat}
    (frames : PagesRemain start directory limit valid)
    (below : proc.heapSize.toNat + 4096 * pages ≤ limit) (fuel growths : Nat)
    (enough : bs.length + pages + 1 ≤ fuel) (more : pages ≤ growths) :
    ∃ after, mallocLoop fuel bytes 0#8 growths s proc =
      some (BitVec.ofNat 32 (start.toNat + span 6 front + 6), after, withPages proc pages) := by
  rw [shape] at apart nothing
  have grown : ∀ n, addPages n bs = front ++ [⟨true, size + 4096 * n⟩] := by
    intro n
    rw [shape, add_pages_free_last n front size apart]
  have earlier : ∀ c ∈ front, ¬ Candidate bytes.toNat c := fun c member =>
    nothing c (List.mem_append_left _ member)
  refine grown_first_fit backing heap bytes pages front [] ⟨true, size + 4096 * pages⟩ (grown pages)
    ?_ ⟨rfl, fewest.1⟩ earlier (fun _ => inside) elsewhere room frames below fuel growths enough more
  intro n less c member
  rw [grown, List.mem_append, List.mem_singleton] at member
  rcases member with early | rfl
  · exact earlier c early
  · exact fun candidate => Nat.not_le.mpr less (fewest.2 candidate.2)

/-- Unaligned `malloc` hands out the block that first fit and the fewest pages
choose, unless that block is at address 0, which is `NULL`, or is the last one
and smaller than a header, so that dividing it writes behind the heap. -/
theorem first_fit (asked : bytes ≠ 0#32) (apart : Separated bs) (address pages : Nat)
    (chosen : FirstFit start.toNat bytes.toNat bs address pages) (elsewhere : address ≠ 0)
    (inside : ∀ pre b, bs = pre ++ [b] → Candidate bytes.toNat b →
      (∀ c ∈ pre, ¬ Candidate bytes.toNat c) → 6 ≤ b.size)
    (room : start.toNat + proc.heapSize.toNat + 4096 * pages < 2 ^ 32)
    (frames : PagesRemain start directory (proc.heapSize.toNat + 4096 * pages) valid) :
    MallocReturns s proc bytes 0#8 (BitVec.ofNat 32 (address + 6)) pages := by
  have positive : bytes.toNat ≠ 0 := fun zero => asked (by bv_omega)
  refine ⟨bs.length + pages + 1, fun fuel growths enough more => ?_⟩
  rw [malloc, if_neg asked]
  cases chosen with
  | taken pre b post candidate earlier =>
      refine grown_first_fit backing heap bytes 0 pre post b rfl (by omega) candidate earlier ?_
        elsewhere room frames (Nat.le_refl _) fuel growths enough more
      rintro rfl
      exact inside pre b rfl candidate earlier
  | extended pre size pages nothing fewest =>
      have last : ¬ Candidate bytes.toNat ⟨true, size⟩ := nothing _ (by simp)
      have tooSmall : size < bytes.toNat := by simpa [Candidate] using last
      have large : bytes.toNat ≤ size + 4096 * pages := fewest.1
      exact extended_first_fit backing heap bytes pre size pages rfl apart nothing fewest (by omega)
        elsewhere room frames (Nat.le_refl _) fuel growths enough more
  | appended _ pages used nothing fewest =>
      have large : bytes.toNat ≤ 4096 * pages - 6 := fewest.1
      obtain ⟨before, rfl⟩ : ∃ before, pages = before + 1 := ⟨pages - 1, by omega⟩
      -- the first page is a block of its own, the others join it
      refine grown_first_fit backing heap bytes (before + 1) bs [] ⟨true, 4090 + 4096 * before⟩
        (add_pages_used_last before bs apart used) ?_ ⟨rfl, by dsimp only; omega⟩ nothing
        (fun _ => by dsimp only; omega) elsewhere room frames (Nat.le_refl _) fuel growths enough
        more
      intro n less c member
      cases n with
      | zero => exact nothing c member
      | succ n =>
          rw [add_pages_used_last n bs apart used, List.mem_append, List.mem_singleton] at member
          rcases member with early | rfl
          · exact nothing c early
          · intro candidate
            have fits : bytes.toNat ≤ 4096 * (n + 1) - 6 := by
              have := candidate.2
              dsimp only at this
              omega
            exact Nat.not_le.mpr less (fewest.2 fits)

end Malloc

/-! Heaps on which the hypotheses hold, and heaps on which they fail. -/

theorem mapped_memory_pages (start directory : Word) (limit : Nat) :
    PagesRemain start directory limit (fun _ (_ : MappedMemory) => True) :=
  fun _ _ _ _ => ⟨_, _, rfl⟩

theorem heap_of_consists (start heapSize : Word) (n : Nat) (sized : heapSize.toNat = n + 6)
    (top : start.toNat + heapSize.toNat < 2 ^ 32) :
    ConsistsOf (fun _ _ => True) start (default : Process).pageDirectory (heapOf start heapSize).space
      (heapOf start heapSize).proc [⟨true, n⟩] := by
  obtain ⟨_, blocks, _⟩ := initialise_heap_result (mapped_memory_backing start NULL)
    (heapOf start heapSize).proc rfl (Or.inr (by show 6 ≤ heapSize.toNat; omega))
    (by show _ + max heapSize.toNat 6 < _; omega) trivial (heapOf start heapSize).space rfl
  have inhabited : heapSize ≠ 0#32 := by
    rintro rfl
    simp at sized
  have laid : initialBlocks (heapOf start heapSize).proc.heapSize = [⟨true, n⟩] := by
    have least : heapSize.toNat - 6 = n := by omega
    rw [← least]
    exact if_neg inhabited
  rw [laid] at blocks
  exact ⟨rfl, rfl, top, trivial, blocks.total, blocks.tiles⟩

theorem first_fit_two_pages : MallocReturns (heapOf 0x1000000#32 0x1000#32).space
    (heapOf 0x1000000#32 0x1000#32).proc 10000#32 0#8 0x1000006#32 2 := by
  have heap := heap_of_consists 0x1000000#32 0x1000#32 4090 (by decide) (by decide)
  have fewest : IsLeast {k | (10000#32).toNat ≤ 4090 + 0x1000 * k} 2 := by
    refine ⟨by decide, fun k enough => ?_⟩
    have : 10000 ≤ 4090 + 4096 * k := enough
    omega
  have tooSmall : ∀ c ∈ [(⟨true, 4090⟩ : Segment)], ¬ Candidate (10000#32).toNat c := by
    simp [Candidate]
  exact first_fit (mapped_memory_backing _ _) heap 10000#32 (by decide) (List.isChain_singleton _)
    0x1000000 2 (FirstFit.extended [] 4090 2 tooSmall fewest) (by decide)
    (fun _ b split candidate => absurd candidate (tooSmall b (by simp [split]))) (by decide)
    (mapped_memory_pages _ _ _)

theorem limited_memory_backing (start directory : Word) :
    HeapBacking start directory fun n (s : LimitedMemory) => start.toNat + max n 6 ≤ s.mapped where
  access n top := by
    constructor
    · intro s a holds inside
      have below : a.toNat < s.mapped := Nat.lt_of_lt_of_le inside.2 holds
      simp [view, AddressSpace.load8, below]
    · intro s a holds inside b
      have below : a.toNat < s.mapped := Nat.lt_of_lt_of_le inside.2 holds
      refine ⟨{ s with bytes := write s.bytes a b }, by simp [AddressSpace.store8, below], holds,
        fun x within => ?_⟩
      have here : x.toNat < s.mapped := Nat.lt_of_lt_of_le within.2 holds
      simp [view, AddressSpace.load8, here, write]
  grow := by
    intro n s isKernel address after holds top _ mapped
    obtain ⟨_, rfl⟩ := Prod.mk.inj (Option.some.inj mapped)
    have place : (BitVec.ofNat 32 (start.toNat + n)).toNat = start.toNat + n := by
      rw [BitVec.toNat_ofNat]
      omega
    dsimp only
    rw [place]
    refine ⟨by omega, fun x within => ?_⟩
    have before : x.toNat < s.mapped := by
      have := within.2
      omega
    have now : x.toNat < max s.mapped (start.toNat + n + 4096) := by omega
    simp [view, AddressSpace.load8, before, now]

/-- The heap at address 0 hands out another block than its first, and on a heap
whose last block has three bytes a request for one byte faults. -/
theorem first_fit_missed :
    (∃ (s : MappedMemory) (proc : Process) (bs : List Segment),
      ConsistsOf (fun _ _ => True) 0#32 proc.pageDirectory s proc bs ∧ Separated bs ∧
      FirstFit 0 6 bs 0 0 ∧ ¬ MallocReturns s proc 6#32 0#8 6#32 0) ∧
    ∃ (s : LimitedMemory) (proc : Process) (bs : List Segment),
      ConsistsOf (fun n s => (0x1000000#32).toNat + max n 6 ≤ s.mapped) 0x1000000#32
        proc.pageDirectory s proc bs ∧ Separated bs ∧ FirstFit 0x1000000 1 bs 0x1000FF7 0 ∧
      ∀ fuel growths, malloc fuel growths s 1#32 proc 0#8 = none := by
  constructor
  · have heap := heap_of_consists 0#32 0x1000#32 4090 (by decide) (by decide)
    have large : Candidate (6#32).toNat ⟨true, 4090⟩ := ⟨rfl, by decide⟩
    refine ⟨_, (heapOf 0#32 0x1000#32).proc, _, heap, List.isChain_singleton _,
      FirstFit.taken [] ⟨true, 4090⟩ [] large (by simp), ?_⟩
    rintro ⟨bound, returns⟩
    obtain ⟨after, returned⟩ := returns (bound + 1) 0 (by omega) (by omega)
    have back := heap_backs (mapped_memory_backing 0#32 0#32) 0x1000#32 (by decide)
    have read := block_read back (by decide) trivial [] [] ⟨true, 4090⟩ heap.total heap.tiles 0#32
      rfl
    -- the block taken first is at address 0, so the loop goes on to grow the heap
    have search := walk_takes read 6#32 bound large
    have started : getFreeBlock (bound + 1) (heapOf 0#32 0x1000#32).space
        (heapOf 0#32 0x1000#32).proc 6#32 0#8 = _ := search
    rw [malloc, if_neg (by decide)] at returned
    obtain ⟨r, searched, round, outcome⟩ := malloc_loop_cases returned
    rw [started] at round
    obtain ⟨_, _, same⟩ := Option.bind_eq_some_iff.mp round
    obtain ⟨rfl, rfl⟩ := Prod.mk.inj (Option.some.inj same)
    rcases outcome with ⟨found, _⟩ | ⟨_, fewer, _, _, more, _⟩
    · exact found rfl
    · cases more
  · let proc : Process :=
      { (default : Process) with heapStackBoundary := 0x1000000#32, heapSize := 0x1000#32 }
    have run : ((initialiseHeap (⟨fun _ => 0#8, 0x1001000⟩ : LimitedMemory) proc).bind fun s =>
        malloc 20 0 s 4081#32 proc 0#8).map (fun result =>
          (result.2.1.mapped, ByteMemory.load16 (view result.2.1) 0x1000000#32,
            ByteMemory.load32 (view result.2.1) 0x1000002#32,
            ByteMemory.load16 (view result.2.1) 0x1000FF7#32,
            ByteMemory.load32 (view result.2.1) 0x1000FF9#32,
            (takeFirst result.2.1 0x1000FF7#32 1#32).isNone)) =
        some (0x1001000, 0#16, 4081#32, 1#16, 3#32, true) := by
      decide +kernel
    obtain ⟨⟨_, s, _⟩, _, shape⟩ := Option.map_eq_some_iff.mp run
    simp only [Prod.mk.injEq, Option.isNone_iff_eq_none] at shape
    obtain ⟨mapped, free1, size1, free2, size2, faults⟩ := shape
    have heap : ConsistsOf (fun n s => (0x1000000#32).toNat + max n 6 ≤ s.mapped) 0x1000000#32
        proc.pageDirectory s proc [⟨false, 4081⟩, ⟨true, 3⟩] := by
      refine ⟨rfl, rfl, by decide, by rw [mapped]; decide, by decide, ?_⟩
      rw [tiles_cons, word_at _ 0x1000000#32 rfl, tiles_cons,
        word_at ((0x1000000#32).toNat + extent 6 ⟨false, 4081⟩) 0x1000FF7#32 rfl]
      exact ⟨⟨by simp [free1], congrArg BitVec.toNat size1⟩,
        ⟨by simp [free2], congrArg BitVec.toNat size2⟩, tiles_nil _ _⟩
    have back := heap_backs (limited_memory_backing 0x1000000#32 proc.pageDirectory) 0x1000#32
      (by decide)
    have read := block_read back (by decide) heap.holds [] [⟨true, 3⟩] ⟨false, 4081⟩ heap.total
      heap.tiles 0#32 rfl
    have readLast := block_read back (by decide) heap.holds [⟨false, 4081⟩] [] ⟨true, 3⟩ heap.total
      heap.tiles 0xFF7#32 rfl
    have large : Candidate (1#32).toNat ⟨true, 3⟩ := ⟨rfl, by decide⟩
    have inUse : ¬ Candidate (1#32).toNat ⟨false, 4081⟩ := by simp [Candidate]
    refine ⟨s, proc, _, heap, by simp [Separated],
      FirstFit.taken [⟨false, 4081⟩] ⟨true, 3⟩ [] large (by simpa using inUse), ?_⟩
    have search : ∀ fuel, getFreeBlock fuel s proc 1#32 0#8 = none := by
      intro fuel
      cases fuel with
      | zero => rfl
      | succ fuel =>
          have first := walk_skips read 1#32 0#8 fuel inUse
          cases fuel with
          | zero => exact first
          | succ fuel =>
              have second := walk_takes readLast 1#32 fuel large
              rw [show 0x1000000#32 + 0xFF7#32 = 0x1000FF7#32 from rfl, faults] at second
              exact first.trans second
    intro fuel growths
    rw [malloc, if_neg (by decide)]
    exact malloc_loop_stuck (search fuel)

end GargOS
