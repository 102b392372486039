import GargOS.FirstFit

/-!
When `malloc` returns. The search for an aligned address in a block ends at a
page boundary in the block; in a large enough block without one it goes round
the address space for ever.
-/

namespace GargOS
open ByteMemory AddressSpace Tiling Runs

/-- Some page boundary ends the search for an aligned address in the block at
`a`: it lies in the block behind the room for a second header, or so close to
the block's end that the request does not fit behind it. -/
def SearchEnds (bytes a : Nat) (b : Segment) : Prop :=
  ∃ q, q % 4096 = 0 ∧ q ≤ a + 6 + b.size ∧ (a + 12 < q ∨ a + 6 + b.size < q + bytes)

/-- The search ends in every block in which the walk from `a` on starts one. -/
def WalkEnds (bytes : Nat) (align : Byte) : Nat → List Segment → Prop
  | _, [] => True
  | a, b :: rest =>
      (Candidate bytes b → align = 0#8 ∨ SearchEnds bytes a b) ∧
        (¬ Suits bytes align a b → WalkEnds bytes align (a + extent 6 b) rest)

def SomeSuits (bytes : Nat) (align : Byte) (a : Nat) (bs : List Segment) : Prop :=
  ∃ p ∈ layout 6 a bs, Suits bytes align p.1 p.2

/-- The walks of `malloc` end: the first one, and if it finds nothing the one
over the heap with one more page. -/
def MallocEnds (bytes : Nat) (align : Byte) (start : Nat) (bs : List Segment) : Prop :=
  WalkEnds bytes align start bs ∧
    (¬ SomeSuits bytes align start bs → WalkEnds bytes align start (addPage bs))

/-! A last block that has grown past a page has a boundary to stop at. -/

theorem search_ends_long (bytes a size : Nat) (long : 4102 ≤ size) :
    SearchEnds bytes a ⟨true, size⟩ :=
  ⟨((a + 12) / 4096 + 1) * 4096, by omega, by dsimp only; omega, Or.inl (by omega)⟩

theorem suits_long (bytes a size : Nat) (align : Byte) (long : bytes + 4102 ≤ size) :
    Suits bytes align a ⟨true, size⟩ := by
  refine ⟨⟨rfl, by dsimp only; omega⟩, by dsimp only; omega, Or.inr ?_⟩
  exact ⟨((a + 12) / 4096 + 1) * 4096, by omega, by omega, by dsimp only; omega⟩

theorem walk_ends_longer (bytes : Nat) (align : Byte) (front : List Segment) (size longer : Nat)
    (long : 4102 ≤ longer) (a : Nat)
    (ends : WalkEnds bytes align a (front ++ [⟨true, size⟩])) :
    WalkEnds bytes align a (front ++ [⟨true, longer⟩]) := by
  induction front generalizing a with
  | nil => exact ⟨fun _ => Or.inr (search_ends_long bytes a longer long), fun _ => trivial⟩
  | cons b front ih => exact ⟨ends.1, fun skip => ih _ (ends.2 skip)⟩

section Search
variable {σ : Type} [PagedSpace σ] {lo hi : Nat} {valid : σ → Prop}
  (back : Backs lo hi valid) (top : hi < 2 ^ 32) {s : σ} (holds : valid s)
  (info : Word) (b : Segment) (low : lo ≤ info.toNat) (high : info.toNat + 6 + b.size ≤ hi)
  (header : HeaderAt (view s) info b) (bytes : Word) (candidate : Candidate bytes.toNat b)
  (room : 6 ≤ b.size)
include back top holds low high header candidate room

/-- The search needs one round for every page up to the boundary `q` that ends it. -/
theorem aligned_search_ends (q : Nat) (boundary : q % 4096 = 0) (inside : q ≤ info.toNat + 6 + b.size)
    (ending : info.toNat + 12 < q ∨ info.toNat + 6 + b.size < q + bytes.toNat) (fuel : Nat)
    (next : Word) (multiple : next.toNat % 4096 = 0) (behind : info.toNat + 6 < next.toNat)
    (before : next.toNat ≤ q) (enough : (q - next.toNat) / 4096 < fuel) :
    ∃ result, alignedSearch info bytes (info + sizeofBlock + BitVec.ofNat 32 b.size) fuel next s =
      some result := by
  induction fuel generalizing next with
  | zero => omega
  | succ fuel ih =>
      have two : (2#32 * sizeofBlock).toNat = 12 := rfl
      have distance : (next - info).toNat = next.toNat - info.toNat := by bv_omega
      have left := block_left info next b (by omega) (by omega)
      rw [alignedSearch]
      split
      next guard =>
        rw [ge_iff_le, BitVec.le_def, left] at guard
        split
        next near =>
          rw [BitVec.le_def, two, distance] at near
          -- the guard holds and the header is near, so this is not the boundary that ends it
          have notLast : next.toNat ≠ q := by omega
          have step : (next + 0x1000#32).toNat = next.toNat + 4096 := by bv_omega
          exact ih (next + 0x1000#32) (by omega) (by omega) (by omega) (by rw [step]; omega)
        next far =>
          rw [BitVec.le_def, two, distance] at far
          have newBytes := behind_headers info next (by omega)
          obtain ⟨newInfo, divided, after, divides, takes, place, _⟩ :=
            divide_taken back top holds info b low high header candidate.1 bytes
              (next - info - 2#32 * sizeofBlock) (by omega)
          have notNull : newInfo ≠ NULL := by
            rintro rfl
            have zero : NULL.toNat = 0 := rfl
            omega
          exact ⟨(newInfo, after), by simp [divides, notNull, takes]⟩
      next done => exact ⟨_, rfl⟩

/-- Without such a boundary every round goes on to the next page: the guard is an
unsigned difference, and behind the end of the block it has wrapped. -/
theorem aligned_search_never (never : ¬ SearchEnds bytes.toNat info.toNat b) (fuel : Nat)
    (next : Word) (multiple : next.toNat % 4096 = 0) :
    alignedSearch info bytes (info + sizeofBlock + BitVec.ofNat 32 b.size) fuel next s = none := by
  induction fuel generalizing next with
  | zero => rfl
  | succ fuel ih =>
      have two : (2#32 * sizeofBlock).toNat = 12 := rfl
      have ending := block_end info b (by omega)
      have enough := candidate.2
      have outside : next.toNat ≤ info.toNat + 6 + b.size →
          next.toNat ≤ info.toNat + 12 ∧ next.toNat + bytes.toNat ≤ info.toNat + 6 + b.size := by
        intro inside
        by_contra wrong
        exact never ⟨next.toNat, multiple, inside, by omega⟩
      have further := ih (next + 0x1000#32) (by bv_omega)
      -- in the block there are enough bytes left; before and behind it the difference has wrapped
      have guard : info + sizeofBlock + BitVec.ofNat 32 b.size - next ≥ bytes := by
        rw [ge_iff_le, BitVec.le_def]
        generalize info + sizeofBlock + BitVec.ofNat 32 b.size = blockEnd at ending
        bv_omega
      rw [alignedSearch, if_pos guard]
      split
      next => exact further
      next far =>
        rw [BitVec.le_def, two] at far
        have refused := divide_refused back top holds info b low high header
          (next - info - 2#32 * sizeofBlock) room (by
            rw [behind_headers info next (by omega)]
            bv_omega)
        simpa [refused] using further

theorem first_aligned_ends (fuel : Nat) (enough : 2 ^ 20 < fuel)
    (ends : SearchEnds bytes.toNat info.toNat b) :
    ∃ result, alignedSearch info bytes (info + sizeofBlock + BitVec.ofNat 32 b.size) fuel
      (firstAlignedAddr info) s = some result := by
  obtain ⟨q, boundary, inside, ending⟩ := ends
  have large := candidate.2
  have first : (firstAlignedAddr info).toNat = ((info.toNat + 6) / 4096 + 1) * 4096 := by
    rw [first_aligned_toNat info (by omega)]
    omega
  exact aligned_search_ends back top holds info b low high header bytes candidate room q boundary
    inside ending fuel (firstAlignedAddr info) (by omega) (by omega) (by omega) (by omega)

end Search

section Walk
variable {σ : Type} [PagedSpace σ] {start directory : Word} {valid : Nat → σ → Prop}
  (backing : HeapBacking start directory valid) {s : σ} {proc : Process} (bytes : Word)
  (align : Byte)
include backing

theorem walk_from_ends (rest pre : List Segment)
    (heap : ConsistsOf valid start directory s proc (pre ++ rest))
    (coarse : ∀ b ∈ rest, 6 ≤ b.size)
    (ends : WalkEnds bytes.toNat align (start.toNat + span 6 pre) rest) (fuel : Nat)
    (enough : rest.length + 2 ^ 20 + 1 < fuel) (i : Word) (here : i.toNat = span 6 pre) :
    ∃ result, getFreeBlockFrom start proc.heapSize bytes align fuel i s = some result := by
  have back := heap_backs backing proc.heapSize heap.top
  induction rest generalizing pre i fuel with
  | nil =>
      obtain ⟨more, rfl⟩ : ∃ more, fuel = more + 1 := ⟨fuel - 1, by omega⟩
      exact ⟨_, walk_ends (by rw [here, ← heap.total, List.append_nil]) bytes align more⟩
  | cons b post ih =>
      obtain ⟨more, rfl⟩ : ∃ more, fuel = more + 1 := ⟨fuel - 1, by omega⟩
      rw [List.length_cons] at enough
      have read := block_read back heap.top.le heap.holds pre post b heap.total heap.tiles i here
      have place : (start + i).toNat = start.toNat + span 6 pre := here ▸ read.place
      have inside := read.ends
      have room := coarse b List.mem_cons_self
      have skipped : ¬ Suits bytes.toNat align (start.toNat + span 6 pre) b → ∃ result,
          getFreeBlockFrom start proc.heapSize bytes align more
            (i + (sizeofBlock + BitVec.ofNat 32 b.size)) s = some result := by
        intro skip
        have further := ends.2 skip
        rw [Nat.add_assoc] at further
        exact ih (pre ++ [b]) (by simpa using heap)
          (fun c member => coarse c (List.mem_cons_of_mem b member)) (by simpa using further) more
          (by omega) _ (read.next_span here)
      by_cases candidate : Candidate bytes.toNat b
      · by_cases unaligned : align = 0#8
        · obtain ⟨after, taken, _⟩ := take_first_done back heap.top heap.holds (start + i) b
            (by omega) (by omega) read.header bytes candidate.2 room
          exact ⟨_, by rw [unaligned, walk_takes read bytes more candidate, taken]; rfl⟩
        · have boundary := (ends.1 candidate).resolve_left unaligned
          rw [← place] at boundary
          obtain ⟨⟨found, after⟩, search⟩ := first_aligned_ends back heap.top heap.holds (start + i)
            b (by omega) (by omega) read.header bytes candidate room more (by omega) boundary
          rw [walk_searches read bytes align more heap.top unaligned candidate, search,
            Option.bind_some]
          have outcome := aligned_branch_result back heap.top heap.holds (start + i) b (by omega)
            (by omega) read.header bytes align unaligned candidate (Or.inl room) more found after
            search
          rcases outcome with ⟨none, rfl, skip⟩ | ⟨notNull, _⟩
          · -- the search has left the block as it was
            simpa [none, read.readSize] using skipped (place ▸ skip)
          · exact ⟨_, if_pos notNull⟩
      · rw [walk_skips read bytes align more candidate]
        exact skipped fun suits => candidate suits.1

theorem walk_from_never (rest pre : List Segment)
    (heap : ConsistsOf valid start directory s proc (pre ++ rest))
    (coarse : ∀ b ∈ rest, 6 ≤ b.size)
    (never : ¬ WalkEnds bytes.toNat align (start.toNat + span 6 pre) rest) (fuel : Nat)
    (i : Word) (here : i.toNat = span 6 pre) :
    getFreeBlockFrom start proc.heapSize bytes align fuel i s = none := by
  have back := heap_backs backing proc.heapSize heap.top
  induction rest generalizing pre i fuel with
  | nil => exact absurd trivial never
  | cons b post ih =>
      cases fuel with
      | zero => rfl
      | succ fuel =>
          have read := block_read back heap.top.le heap.holds pre post b heap.total heap.tiles i here
          have place : (start + i).toNat = start.toNat + span 6 pre := here ▸ read.place
          have inside := read.ends
          have room := coarse b List.mem_cons_self
          have skipped : ¬ WalkEnds bytes.toNat align
              (start.toNat + span 6 pre + extent 6 b) post →
              getFreeBlockFrom start proc.heapSize bytes align fuel
                (i + (sizeofBlock + BitVec.ofNat 32 b.size)) s = none := by
            intro further
            rw [Nat.add_assoc] at further
            exact ih (pre ++ [b]) (by simpa using heap)
              (fun c member => coarse c (List.mem_cons_of_mem b member)) (by simpa using further)
              fuel _ (read.next_span here)
          by_cases candidate : Candidate bytes.toNat b
          · by_cases ends : align = 0#8 ∨ SearchEnds bytes.toNat (start.toNat + span 6 pre) b
            · -- the search in this block ends, so it is a later one that does not
              have later : ¬ Suits bytes.toNat align (start.toNat + span 6 pre) b ∧
                  ¬ WalkEnds bytes.toNat align (start.toNat + span 6 pre + extent 6 b) post := by
                by_contra wrong
                exact never ⟨fun _ => ends, fun skip => by_contra fun no => wrong ⟨skip, no⟩⟩
              have aligned : align ≠ 0#8 := fun unaligned =>
                later.1 ⟨candidate, room, Or.inl unaligned⟩
              rw [walk_searches read bytes align fuel heap.top aligned candidate]
              cases search : alignedSearch (start + i) bytes
                  (start + i + sizeofBlock + BitVec.ofNat 32 b.size) fuel
                  (firstAlignedAddr (start + i)) s with
              | none => rfl
              | some result =>
                  obtain ⟨found, after⟩ := result
                  have outcome := aligned_branch_result back heap.top heap.holds (start + i) b
                    (by omega) (by omega) read.header bytes align aligned candidate (Or.inl room)
                    fuel found after search
                  rcases outcome with ⟨none, rfl, _⟩ | ⟨_, suits, _⟩
                  · simpa [none, read.readSize] using skipped later.2
                  · exact absurd (place ▸ suits) later.1
            · have aligned : align ≠ 0#8 := fun unaligned => ends (Or.inl unaligned)
              have boundary : ¬ SearchEnds bytes.toNat (start + i).toNat b := by
                rw [place]
                exact fun found => ends (Or.inr found)
              have top := heap.top
              rw [walk_searches read bytes align fuel heap.top aligned candidate,
                aligned_search_never back heap.top heap.holds (start + i) b (by omega) (by omega)
                  read.header bytes candidate room boundary fuel _ (by
                    rw [first_aligned_toNat _ (by omega)]
                    omega)]
              rfl
          · rw [walk_skips read bytes align fuel candidate]
            refine skipped fun further => never ⟨fun fits => absurd fits candidate, fun _ => further⟩

theorem walk_outcome {bs : List Segment} (heap : ConsistsOf valid start directory s proc bs)
    (coarse : ∀ b ∈ bs, 6 ≤ b.size) (ends : WalkEnds bytes.toNat align start.toNat bs) (fuel : Nat)
    (enough : bs.length + 2 ^ 20 + 1 < fuel) :
    ∃ r after, getFreeBlock fuel s proc bytes align = some (r, after) ∧
      WalkResult (valid proc.heapSize.toNat) start proc.heapSize bytes align s after r [] bs := by
  obtain ⟨⟨r, after⟩, search⟩ := walk_from_ends backing bytes align bs [] heap coarse ends fuel
    enough 0#32 rfl
  refine ⟨r, after, by rw [getFreeBlock, heap.base, search], ?_⟩
  exact get_free_block_from_result (heap_backs backing proc.heapSize heap.top) heap.top heap.holds bs
    heap.total heap.tiles bytes align fuel [] bs rfl 0#32 r after rfl
    (divides_safely_coarse _ _ _ _ coarse) search

theorem walk_finds_nothing {bs : List Segment}
    (heap : ConsistsOf valid start directory s proc bs) (coarse : ∀ b ∈ bs, 6 ≤ b.size)
    (ends : WalkEnds bytes.toNat align start.toNat bs)
    (nothing : ¬ SomeSuits bytes.toNat align start.toNat bs) (fuel : Nat)
    (enough : bs.length + 2 ^ 20 + 1 < fuel) :
    getFreeBlock fuel s proc bytes align = some (NULL, s) := by
  obtain ⟨r, after, search, result⟩ := walk_outcome backing bytes align heap coarse ends fuel enough
  rcases result with ⟨rfl, rfl, _⟩ | ⟨mid, b, post, out, rfl, _, taken⟩
  · exact search
  · exact absurd ⟨(start.toNat + span 6 mid, b), by simp, taken.suits⟩ nothing

/-- A walk that takes a block answers with its address, which is `NULL` for the
first block of a heap at address 0. -/
theorem walk_takes_suiting {bs : List Segment}
    (heap : ConsistsOf valid start directory s proc bs) (coarse : ∀ b ∈ bs, 6 ≤ b.size)
    (ends : WalkEnds bytes.toNat align start.toNat bs)
    (suits : SomeSuits bytes.toNat align start.toNat bs) (fuel : Nat)
    (enough : bs.length + 2 ^ 20 + 1 < fuel) :
    ∃ r after, getFreeBlock fuel s proc bytes align = some (r, after) ∧
      (r ≠ NULL ∨ r = NULL ∧ start = 0#32 ∧ align = 0#8 ∧ ∃ b post, bs = b :: post ∧
        ConsistsOf valid start directory after proc (carveFront bytes.toNat b ++ post)) := by
  obtain ⟨r, after, search, result⟩ := walk_outcome backing bytes align heap coarse ends fuel enough
  refine ⟨r, after, search, ?_⟩
  by_cases null : r = NULL
  · rcases result with ⟨_, _, refused⟩ | ⟨mid, b, post, out, rfl, _, taken⟩
    · obtain ⟨p, member, fits⟩ := suits
      exact absurd fits (refused p member)
    · obtain ⟨zero, unaligned, rfl, rfl⟩ := taken_null _ _ _ _ _ _ _ null taken.taken
      refine Or.inr ⟨null, by bv_omega, unaligned, b, post, rfl, heap.base, heap.current, heap.top,
        taken.holds, ?_, taken.tiles⟩
      rw [← heap.total, span_append, span_carve_front]
      rfl
  · exact Or.inl null

end Walk

section Malloc
variable {σ : Type} [PagedSpace σ] {start directory : Word} {valid : Nat → σ → Prop}
  (backing : HeapBacking start directory valid) {s : σ} {proc : Process} {bs : List Segment}
  (heap : ConsistsOf valid start directory s proc bs) (bytes : Word) (align : Byte)
include backing heap

/-- The rounds of `malloc` up to the first in which some block suits: the last
block does once it is longer than the request by a little more than a page. -/
theorem rounds_until_suits (coarse : ∀ b ∈ bs, 6 ≤ b.size)
    (ends : MallocEnds bytes.toNat align start.toNat bs) {limit : Nat}
    (frames : PagesRemain start directory limit valid)
    (room : start.toNat + proc.heapSize.toNat + bytes.toNat + 0x3000 ≤ 2 ^ 32)
    (below : proc.heapSize.toNat + bytes.toNat + 0x3000 ≤ limit) (fuel : Nat)
    (enough : bs.length + bytes.toNat + 2 ^ 20 + 0x3000 ≤ fuel) :
    ∃ pages after, 4096 * pages ≤ bytes.toNat + 8204 ∧
      ConsistsOf valid start directory after (withPages proc pages) (addPages pages bs) ∧
      SomeSuits bytes.toNat align start.toNat (addPages pages bs) ∧
      WalkEnds bytes.toNat align start.toNat (addPages pages bs) ∧
      ∀ growths, mallocLoop fuel bytes align (growths + pages) s proc =
        mallocLoop fuel bytes align growths after (withPages proc pages) := by
  classical
  obtain ⟨front, size, large, shape, apart⟩ := add_page_last bs
  have later : ∀ n, addPages (n + 1) bs = front ++ [⟨true, size + 4096 * n⟩] := by
    intro n
    rw [addPages, shape, add_pages_free_last n front size apart]
  have atLast : SomeSuits bytes.toNat align start.toNat
      (addPages ((bytes.toNat + 12) / 4096 + 1 + 1) bs) := by
    rw [later]
    exact ⟨(start.toNat + span 6 front, ⟨true, size + 4096 * ((bytes.toNat + 12) / 4096 + 1)⟩),
      by simp, suits_long _ _ _ _ (by omega)⟩
  have found : ∃ n, SomeSuits bytes.toNat align start.toNat (addPages n bs) := ⟨_, atLast⟩
  have few := Nat.find_min' found atLast
  have before : ∀ n < Nat.find found, ¬ SomeSuits bytes.toNat align start.toNat (addPages n bs) :=
    fun n less => Nat.find_min found less
  have suits := Nat.find_spec found
  generalize Nat.find found = pages at few before suits
  have walks : ∀ n ≤ pages, WalkEnds bytes.toNat align start.toNat (addPages n bs) := by
    intro n most
    cases n with
    | zero => exact ends.1
    | succ n =>
        have second := ends.2 (before 0 (by omega))
        cases n with
        | zero => exact second
        | succ n =>
            -- a second page changes only the last block, which is long by then
            rw [shape] at second
            rw [later]
            exact walk_ends_longer _ _ _ _ _ (by omega) _ second
  obtain ⟨after, last, rounds⟩ := rounds_grow backing frames pages fuel bytes align heap
    (by omega) (by omega) (by omega) (by
      intro n less s' proc' heap'
      have short := add_pages_length n bs
      exact walk_finds_nothing backing bytes align heap' (add_pages_coarse n bs coarse)
        (walks n (by omega)) (before n less) fuel (by omega))
  exact ⟨pages, after, by omega, last, suits, walks pages (Nat.le_refl _), rounds⟩

theorem used_head_returns (front : List Segment) (size n : Nat) (rest : List Segment)
    (shape : bs = front ++ [⟨true, size⟩]) (head : bs = ⟨false, n⟩ :: rest) (large : 6 ≤ size)
    (apart : Separated bs) {limit : Nat} (frames : PagesRemain start directory limit valid)
    (room : start.toNat + proc.heapSize.toNat + bytes.toNat + 4096 ≤ 2 ^ 32)
    (below : proc.heapSize.toNat + bytes.toNat + 4096 ≤ limit) (fuel : Nat)
    (enough : bs.length + bytes.toNat + 4096 ≤ fuel) :
    ∃ growths result, mallocLoop fuel bytes 0#8 growths s proc = some result := by
  -- a block that is not the first has an address other than 0
  have elsewhere : ∀ pre b post, bs = pre ++ b :: post → b.free = true →
      start.toNat + span 6 pre ≠ 0 := by
    intro pre b post split free
    cases pre with
    | nil =>
        rw [head] at split
        obtain rfl := (List.cons.inj split).1
        exact absurd free Bool.false_ne_true
    | cons c pre =>
        simp only [span_cons, extent]
        omega
  rcases first_candidate bytes.toNat bs with nothing | ⟨pre, b, post, split, candidate, earlier⟩
  · obtain ⟨pages, fewest⟩ := fewest_pages (fun k => bytes.toNat ≤ size + 4096 * k)
      ⟨bytes.toNat, by omega⟩
    have few : 4096 * pages < bytes.toNat + 4096 := by
      cases pages with
      | zero => omega
      | succ pages =>
          by_contra wrong
          have less : bytes.toNat ≤ size + 4096 * pages := by omega
          exact Nat.not_succ_le_self pages (fewest.2 less)
    obtain ⟨after, returned⟩ := extended_first_fit backing heap bytes front size pages shape apart
      nothing fewest (by omega) (elsewhere front ⟨true, size⟩ [] shape rfl) (by omega) frames
      (by omega) fuel pages (by omega) (Nat.le_refl _)
    exact ⟨pages, _, returned⟩
  · obtain ⟨after, returned⟩ := grown_first_fit backing heap bytes 0 pre post b split
      (fun n less => absurd less (Nat.not_lt_zero n)) candidate earlier (by
        rintro rfl
        have last := (List.append_inj' (split.symm.trans shape) rfl).2
        obtain rfl := (List.cons.inj last).1
        exact large)
      (elsewhere pre b post split candidate.1) (by omega) frames (by omega) fuel 0 (by omega)
      (Nat.le_refl _)
    exact ⟨0, _, returned⟩

omit heap in
/-- `get_free_block` has answered `NULL` but taken the first block, as on a heap
at address 0: `malloc` goes on with a further page. -/
theorem null_block_returns {taken : σ} (b : Segment) (post : List Segment)
    (heap : ConsistsOf valid start directory taken proc (carveFront bytes.toNat b ++ post))
    (fuel : Nat) (search : getFreeBlock fuel s proc bytes 0#8 = some (NULL, taken)) {limit : Nat}
    (frames : PagesRemain start directory limit valid)
    (room : start.toNat + proc.heapSize.toNat + bytes.toNat + 8192 ≤ 2 ^ 32)
    (below : proc.heapSize.toNat + bytes.toNat + 8192 ≤ limit)
    (enough : post.length + bytes.toNat + 8192 ≤ fuel) :
    ∃ growths result, mallocLoop fuel bytes 0#8 growths s proc = some result := by
  obtain ⟨n, rest, carved⟩ := carve_front_head bytes.toNat b
  have short : (carveFront bytes.toNat b ++ post).length ≤ post.length + 2 := by
    rw [List.length_append]
    unfold carveFront
    split <;> simp <;> omega
  obtain ⟨after, grown, _, size1, heap1, round⟩ := round_grows backing frames heap fuel (by omega)
    (by omega) (by omega) bytes 0#8 search
  obtain ⟨front, size, large, shape, apart⟩ := add_page_last (carveFront bytes.toNat b ++ post)
  have head : ∃ m later, addPage (carveFront bytes.toNat b ++ post) = ⟨false, m⟩ :: later := by
    rw [carved]
    exact coalesce_from_head 6 ⟨false, n⟩ _
  obtain ⟨m, later, first⟩ := head
  have long := add_page_length (carveFront bytes.toNat b ++ post)
  have room1 : start.toNat + grown.heapSize.toNat + bytes.toNat + 4096 ≤ 2 ^ 32 := by
    rw [size1]
    omega
  have below1 : grown.heapSize.toNat + bytes.toNat + 4096 ≤ limit := by
    rw [size1]
    omega
  obtain ⟨growths, result, returned⟩ := used_head_returns backing heap1 bytes front size m later
    shape first (by omega) (by rw [shape]; exact apart) frames room1 below1 fuel (by omega)
  exact ⟨growths + 1, result, by rw [round, returned]⟩

/-- A walk that does not end stops `malloc` in its first round, or in the second
where the first one finds nothing. -/
theorem malloc_never (coarse : ∀ b ∈ bs, 6 ≤ b.size)
    (room : start.toNat + proc.heapSize.toNat + 4096 < 2 ^ 32)
    (never : ¬ MallocEnds bytes.toNat align start.toNat bs) (fuel growths : Nat) :
    mallocLoop fuel bytes align growths s proc = none := by
  have noSearch : ∀ {s : σ} {proc : Process} {bs : List Segment},
      ConsistsOf valid start directory s proc bs → (∀ b ∈ bs, 6 ≤ b.size) →
      ¬ WalkEnds bytes.toNat align start.toNat bs → ∀ growths,
        mallocLoop fuel bytes align growths s proc = none := by
    intro s proc bs heap coarse never growths
    have search : getFreeBlock fuel s proc bytes align = none := by
      rw [getFreeBlock, heap.base]
      exact walk_from_never backing bytes align bs [] heap coarse never fuel 0#32 rfl
    exact malloc_loop_stuck search
  by_cases first : WalkEnds bytes.toNat align start.toNat bs
  · have second : ¬ SomeSuits bytes.toNat align start.toNat bs ∧
        ¬ WalkEnds bytes.toNat align start.toNat (addPage bs) := by
      by_contra wrong
      exact never ⟨first, fun nothing => by_contra fun no => wrong ⟨nothing, no⟩⟩
    by_contra returns
    obtain ⟨result, returned⟩ := Option.ne_none_iff_exists'.mp returns
    obtain ⟨r, searched, search, outcome⟩ := malloc_loop_cases returned
    rw [getFreeBlock, heap.base] at search
    have walk := get_free_block_from_result (heap_backs backing proc.heapSize heap.top) heap.top
      heap.holds bs heap.total heap.tiles bytes align fuel [] bs rfl 0#32 r searched rfl
      (divides_safely_coarse _ _ _ _ coarse) search
    rcases walk with ⟨rfl, rfl, _⟩ | ⟨mid, b, post, out, split, _, taken⟩
    · rcases outcome with ⟨found, _⟩ | ⟨_, fewer, after, grown, rfl, grows, goesOn⟩
      · exact found rfl
      · have heap1 := (grown_consists backing heap room fuel grows).2.1
        rw [noSearch heap1 (add_page_coarse bs coarse) second.2 fewer] at goesOn
        cases goesOn
    · exact second.1 ⟨(start.toNat + span 6 mid, b), by simp [split], taken.suits⟩
  · exact noSearch heap coarse first growths

/-- The space above the heap `malloc` may need. A heap at address 0 may lose a
block of the request's size to the answer `NULL`. -/
def spaceNeeded (start : Word) (bytes : Nat) (align : Byte) : Nat :=
  if start = 0#32 ∧ align = 0#8 then 2 * (bytes + 0x3000) else bytes + 0x3000

/-- On a heap none of whose blocks is smaller than a header, `malloc` returns
exactly when every search for an aligned address has a page boundary to end at. -/
theorem malloc_terminates (asked : bytes ≠ 0#32) (coarse : ∀ b ∈ bs, 6 ≤ b.size)
    (room : start.toNat + proc.heapSize.toNat + spaceNeeded start bytes.toNat align ≤ 2 ^ 32)
    (frames : PagesRemain start directory
      (proc.heapSize.toNat + spaceNeeded start bytes.toNat align) valid) :
    (∃ fuel growths result, malloc fuel growths s bytes proc align = some result) ↔
      MallocEnds bytes.toNat align start.toNat bs := by
  have least : bytes.toNat + 0x3000 ≤ spaceNeeded start bytes.toNat align := by
    unfold spaceNeeded
    split <;> omega
  constructor
  · rintro ⟨fuel, growths, result, returned⟩
    by_contra never
    rw [malloc, if_neg asked, malloc_never backing heap bytes align coarse (by omega) never fuel
      growths] at returned
    simp at returned
  · intro ends
    refine ⟨bs.length + 2 * bytes.toNat + 2 ^ 20 + 0x6000, ?_⟩
    generalize bounded : bs.length + 2 * bytes.toNat + 2 ^ 20 + 0x6000 = fuel
    obtain ⟨pages, grown, few, heap1, suits, walk, rounds⟩ := rounds_until_suits backing heap bytes
      align coarse ends frames (by omega) (by omega) fuel (by omega)
    have long := add_pages_length pages bs
    obtain ⟨r, after, search, outcome⟩ := walk_takes_suiting backing bytes align heap1
      (add_pages_coarse pages bs coarse) walk suits fuel (by omega)
    have further : ∀ growths result,
        mallocLoop fuel bytes align growths grown (withPages proc pages) = some result →
        ∃ growths result, malloc fuel growths s bytes proc align = some result := by
      intro growths result returned
      exact ⟨growths + pages, result, by rw [malloc, if_neg asked, rounds, returned]⟩
    rcases outcome with notNull | ⟨rfl, atNull, rfl, b, post, shape, taken⟩
    · apply further 0 (r + sizeofBlock, after, withPages proc pages)
      exact malloc_loop_found search notNull
    · -- the block taken is the one at address 0, which counts as not found
      have doubled : spaceNeeded start bytes.toNat 0#8 = 2 * (bytes.toNat + 0x3000) :=
        if_pos ⟨atNull, rfl⟩
      rw [shape, List.length_cons] at long
      have enough : post.length + bytes.toNat + 8192 ≤ fuel := by omega
      have below : proc.heapSize.toNat + 4096 * pages <
          start.toNat + proc.heapSize.toNat + 2 * (bytes.toNat + 0x3000) := by omega
      have room1 : start.toNat + (proc.heapSize.toNat + 4096 * pages) + bytes.toNat + 8192 ≤
          start.toNat + proc.heapSize.toNat + 2 * (bytes.toNat + 0x3000) := by omega
      have limit1 : proc.heapSize.toNat + 4096 * pages + bytes.toNat + 8192 ≤
          proc.heapSize.toNat + 2 * (bytes.toNat + 0x3000) := by omega
      rw [doubled] at room frames
      rw [← with_pages_size proc pages (Nat.lt_of_lt_of_le below room)] at room1 limit1
      obtain ⟨growths, result, returned⟩ := null_block_returns backing bytes b post taken fuel
        search frames (Nat.le_trans room1 room) limit1 enough
      exact further growths result returned

end Malloc

/-- The first page of the heap ends at a page boundary, at which the search in it
stops; with a second page it finds room behind that boundary. -/
theorem malloc_terminates_second_page : ∃ fuel growths result,
    malloc fuel growths (heapOf 0x1000000#32 0x1000#32).space 50#32
      (heapOf 0x1000000#32 0x1000#32).proc 1#8 = some result := by
  have heap := heap_of_consists 0x1000000#32 0x1000#32 4090 (by decide) (by decide)
  refine (malloc_terminates (mapped_memory_backing _ _) heap 50#32 1#8 (by decide) ?_ (by decide)
    (mapped_memory_pages _ _ _)).mpr ⟨⟨fun _ => Or.inr ?_, fun _ => trivial⟩, fun _ =>
      ⟨fun _ => Or.inr ?_, fun _ => trivial⟩⟩
  · simp
  · exact ⟨0x1001000, by decide, by decide, Or.inl (by decide)⟩
  · exact ⟨0x1001000, by decide, by decide, Or.inl (by decide)⟩

/-- A free block of 100 bytes in the middle of a page: an aligned request for 50
bytes never returns. -/
theorem malloc_runs_on : ∃ c : HeapState MappedMemory,
    Reached (Initialised (fun _ _ => True) 0x1000000#32 (default : Process).pageDirectory 0x1000#32)
      (CallsWhere fun _ _ => True) c ∧
    (∃ bs, ConsistsOf (fun _ _ => True) 0x1000000#32 c.proc.pageDirectory c.space c.proc bs ∧
      ∀ b ∈ bs, 6 ≤ b.size) ∧
    ∀ fuel growths, malloc fuel growths c.space 50#32 c.proc 1#8 = none := by
  have run : ((follow (fun c call => runCall 20 call.2 c call.1) (heapOf 0x1000000#32 0x1000#32)
      [(HeapCall.malloc 100#32 0#8, 0), (HeapCall.malloc 100#32 0#8, 0),
        (HeapCall.free ⟨0x1000006#32, 100#32⟩, 0)]).map fun c =>
      (c.proc.heapStackBoundary, c.proc.heapSize,
        [0x1000000#32, 0x100006A#32, 0x10000D4#32].map fun info =>
          (ByteMemory.load16 (view c.space) info, ByteMemory.load32 (view c.space) (info + 2#32)))) =
      some (0x1000000#32, 0x1000#32, [(1#16, 100#32), (0#16, 100#32), (1#16, 3878#32)]) := by
    decide +kernel
  obtain ⟨c, returned, shape⟩ := Option.map_eq_some_iff.mp run
  simp only [List.map_cons, List.map_nil, Prod.mk.injEq, List.cons.injEq, and_true] at shape
  obtain ⟨base, length, ⟨free1, size1⟩, ⟨free2, size2⟩, free3, size3⟩ := shape
  have heap : ConsistsOf (fun _ _ => True) 0x1000000#32 c.proc.pageDirectory c.space c.proc
      [⟨true, 100⟩, ⟨false, 100⟩, ⟨true, 3878⟩] := by
    refine ⟨base, rfl, by rw [length]; decide, trivial, by rw [length]; decide, ?_⟩
    rw [tiles_cons, word_at _ 0x1000000#32 rfl, tiles_cons,
      word_at ((0x1000000#32).toNat + extent 6 ⟨true, 100⟩) 0x100006A#32 rfl, tiles_cons,
      word_at ((0x1000000#32).toNat + extent 6 ⟨true, 100⟩ + extent 6 ⟨false, 100⟩)
        0x10000D4#32 rfl]
    exact ⟨⟨by simp [free1], congrArg BitVec.toNat size1⟩,
      ⟨by simp [free2], congrArg BitVec.toNat size2⟩,
      ⟨by simp [free3], congrArg BitVec.toNat size3⟩, tiles_nil _ _⟩
  have coarse : ∀ b ∈ [(⟨true, 100⟩ : Segment), ⟨false, 100⟩, ⟨true, 3878⟩], 6 ≤ b.size := by
    decide
  have never : ¬ MallocEnds (50#32).toNat 1#8 (0x1000000#32).toNat
      [⟨true, 100⟩, ⟨false, 100⟩, ⟨true, 3878⟩] := by
    rintro ⟨⟨here, _⟩, _⟩
    rcases here ⟨rfl, by decide⟩ with aligned | ⟨q, boundary, inside, ending⟩
    · exact absurd aligned (by decide)
    · have start : (0x1000000#32).toNat = 16777216 := rfl
      have bytes : (50#32).toNat = 50 := rfl
      dsimp only at inside ending
      omega
  refine ⟨c, run_calls_reached _ (fun _ _ => True) 20 _ (fun _ _ _ => trivial) _ c
    (Reached.start (heap_of_initialised 0x1000000#32 0x1000#32 (by decide))) returned,
    ⟨_, heap, coarse⟩, fun fuel growths => ?_⟩
  rw [malloc, if_neg (by decide)]
  exact malloc_never (mapped_memory_backing _ _) heap 50#32 1#8 coarse (by rw [length]; decide) never
    fuel growths

end GargOS
