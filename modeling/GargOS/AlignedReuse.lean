import GargOS.MallocEnds

/-!
Aligned `malloc` and the free blocks that would do. The search for an aligned
address begins behind the payload's first address, so a block whose payload
begins at a page boundary is not taken there.
-/

namespace GargOS
open ByteMemory AddressSpace Tiling Runs

/-- Some page boundary in the free block has room for the request behind it, and
is the payload's first address or has room for two headers in front. -/
def Contains (bytes a : Nat) (b : Segment) : Prop :=
  b.free = true ∧ ∃ q, q % 4096 = 0 ∧ q + bytes ≤ a + 6 + b.size ∧ (q = a + 6 ∨ a + 12 < q)

/-- A block smaller than a header in which the search does not stop at once. Its
size less a header wraps around, so it is divided at a boundary behind it. -/
def SmallCut (bytes a : Nat) (b : Segment) : Prop :=
  Candidate bytes b ∧ b.size < 6 ∧ ¬ LeftAtOnce bytes a b

/-- The walk of an aligned request ends at the block. -/
def Stops (bytes a : Nat) (b : Segment) : Prop :=
  b.free = true ∧ FitsAligned bytes a b ∨ SmallCut bytes a b

theorem suits_aligned (bytes : Nat) (align : Byte) (aligned : align ≠ 0#8) (a : Nat) (b : Segment) :
    Suits bytes align a b ↔ b.free = true ∧ FitsAligned bytes a b := by
  constructor
  · rintro ⟨candidate, _, unaligned | fits⟩
    · exact absurd unaligned aligned
    · exact ⟨candidate.1, fits⟩
  · rintro ⟨free, q, boundary, behind, fits⟩
    exact ⟨⟨free, by omega⟩, by omega, Or.inr ⟨q, boundary, behind, fits⟩⟩

/-- The block at `info` is in use and large enough. -/
structure InUse {σ : Type} [PagedSpace σ] (s : σ) (info bytes : Word) : Prop where
  flag : isFree s info = some 0#16
  large : ∃ n, size s info = some n ∧ bytes ≤ n

section Cut
variable {σ : Type} [PagedSpace σ] {s : σ} (info : Word) (b : Segment) (small : b.size < 6)
  (readSize : size s info = some (BitVec.ofNat 32 b.size))
include small readSize

theorem small_divides (newBytes : Word) (near : newBytes.toNat ≤ 8190) (newInfo : Word) (divided : σ)
    (divides : divideBlock s info newBytes = some (newInfo, divided)) :
    newInfo = info + sizeofBlock + newBytes ∧ ∃ s1,
      setSize s newInfo (BitVec.ofNat 32 b.size - sizeofBlock - newBytes) = some s1 ∧
      setSize s1 info newBytes = some divided := by
  have wrapped : ¬ newBytes > BitVec.ofNat 32 b.size - sizeofBlock := by
    rw [gt_iff_lt, BitVec.lt_def]
    unfold sizeofBlock
    bv_omega
  simp only [divideBlock, readSize, Option.bind_eq_bind, Option.bind_some] at divides
  rw [if_neg wrapped] at divides
  obtain ⟨s1, store1, rest⟩ := Option.bind_eq_some_iff.mp divides
  obtain ⟨s2, store2, result⟩ := Option.bind_eq_some_iff.mp rest
  obtain ⟨rfl, rfl⟩ := Prod.mk.inj (Option.some.inj result)
  exact ⟨rfl, s1, store1, store2⟩

theorem cut_in_use (seen : StoresSeen σ) (newBytes : Word) (positive : 0 < newBytes.toNat)
    (near : newBytes.toNat ≤ 8190) (newInfo : Word) (divided : σ)
    (divides : divideBlock s info newBytes = some (newInfo, divided)) (bytes blockEnd : Word)
    (few : bytes.toNat < 6) (after : σ)
    (taken : takeAligned divided newInfo bytes blockEnd = some after) :
    InUse after newInfo bytes := by
  obtain ⟨place, s1, store1, store2⟩ := small_divides info b small readSize newBytes near newInfo
    divided divides
  obtain ⟨t1, flagged, rest⟩ := Option.bind_eq_some_iff.mp taken
  obtain ⟨newSize, read, rest⟩ := Option.bind_eq_some_iff.mp rest
  have first := store32_seen seen _ _ store1
  have second := store32_seen seen _ _ store2
  have third := store16_seen seen _ _ flagged
  have left : newSize = BitVec.ofNat 32 b.size - sizeofBlock - newBytes := by
    have kept1 : size t1 newInfo = size divided newInfo := load32_same _ fun x inside =>
      third.2 x (by unfold InSpan at *; bv_omega)
    have kept2 : size divided newInfo = size s1 newInfo := load32_same _ fun x inside =>
      second.2 x (by unfold InSpan sizeofBlock at *; bv_omega)
    rw [kept1, kept2] at read
    exact Option.some.inj (read.symm.trans first.1)
  have larger : newSize > bytes + sizeofBlock := by
    rw [left, gt_iff_lt, BitVec.lt_def]
    unfold sizeofBlock
    bv_omega
  rw [if_pos larger] at rest
  obtain ⟨t2, store4, rest⟩ := Option.bind_eq_some_iff.mp rest
  obtain ⟨t3, store5, store6⟩ := Option.bind_eq_some_iff.mp rest
  have fourth := store16_seen seen _ _ store4
  have fifth := store32_seen seen _ _ store5
  have sixth := store32_seen seen _ _ store6
  refine ⟨?_, bytes, sixth.1, BitVec.le_refl bytes⟩
  rw [← third.1]
  refine load16_same _ fun x inside => ?_
  rw [sixth.2 x (by unfold InSpan at *; bv_omega), fifth.2 x (by unfold InSpan sizeofBlock at *; bv_omega),
    fourth.2 x (by unfold InSpan sizeofBlock at *; bv_omega)]

theorem cut_round (bytes next : Word) (few : bytes.toNat < 6) (boundary : next.toNat % 4096 = 0)
    (far : 12 < (next - info).toNat) (near : (next - info).toNat ≤ 8202) (blockEnd : Word)
    (guard : blockEnd - next ≥ bytes) (fuel : Nat) (r : Word) (after : σ)
    (returned : alignedSearch info bytes blockEnd fuel next s = some (r, after)) :
    r ≠ NULL ∧ (r + sizeofBlock).toNat % 4096 = 0 ∧ (StoresSeen σ → InUse after r bytes) := by
  have two : (2#32 * sizeofBlock).toNat = 12 := rfl
  have six : sizeofBlock.toNat = 6 := rfl
  have length := behind_headers info next (by omega)
  cases fuel with
  | zero => simp [alignedSearch] at returned
  | succ fuel =>
      have notNear : ¬ next - info ≤ 2#32 * sizeofBlock := by
        rw [BitVec.le_def]
        omega
      rw [alignedSearch, if_pos guard, if_neg notNear] at returned
      obtain ⟨⟨newInfo, divided⟩, divides, goesOn⟩ := Option.bind_eq_some_iff.mp returned
      obtain ⟨place, _⟩ := small_divides info b small readSize _ (by omega) newInfo divided divides
      have page : newInfo + sizeofBlock = next := by
        rw [place]
        unfold sizeofBlock
        bv_omega
      have notNull : newInfo ≠ NULL := by
        rintro rfl
        have low : (NULL + sizeofBlock).toNat = 6 := rfl
        rw [page] at low
        omega
      simp only [ne_eq, notNull, not_false_eq_true, if_true] at goesOn
      obtain ⟨taken, takes, result⟩ := Option.bind_eq_some_iff.mp goesOn
      obtain ⟨rfl, rfl⟩ := Prod.mk.inj (Option.some.inj result)
      exact ⟨notNull, page ▸ boundary, fun seen =>
        cut_in_use info b small readSize seen _ (by omega) (by omega) _ _ divides _ _ few _ takes⟩

theorem small_cut_search (bytes : Word) (fits : info.toNat + 6 + b.size < 2 ^ 32)
    (enough : bytes.toNat ≤ b.size) (goesOn : ¬ LeftAtOnce bytes.toNat info.toNat b) (fuel : Nat)
    (r : Word) (after : σ)
    (returned : alignedSearch info bytes (info + sizeofBlock + BitVec.ofNat 32 b.size) fuel
      (firstAlignedAddr info) s = some (r, after)) :
    r ≠ NULL ∧ (r + sizeofBlock).toNat % 4096 = 0 ∧ (StoresSeen σ → InUse after r bytes) := by
  have first := first_aligned_toNat info (by omega)
  have ending := block_end info b fits
  generalize firstAlignedAddr info = next at first returned
  generalize info + sizeofBlock + BitVec.ofNat 32 b.size = blockEnd at ending returned
  unfold LeftAtOnce at goesOn
  have distance : (next - info).toNat = ((info.toNat + 6) / 4096 + 1) * 4096 - info.toNat := by
    bv_omega
  have guard : blockEnd - next ≥ bytes := by
    rw [ge_iff_le, BitVec.le_def]
    bv_omega
  by_cases near : (next - info).toNat ≤ 12
  · -- the boundary is too close to the header, the next one behind the block
    have further : (next + 0x1000#32 - info).toNat = (next - info).toNat + 4096 := by bv_omega
    have guard' : blockEnd - (next + 0x1000#32) ≥ bytes := by
      rw [ge_iff_le, BitVec.le_def]
      bv_omega
    cases fuel with
    | zero => simp [alignedSearch] at returned
    | succ fuel =>
        have close : next - info ≤ 2#32 * sizeofBlock := near
        rw [alignedSearch, if_pos guard, if_pos close] at returned
        exact cut_round info b small readSize bytes _ (by omega) (by bv_omega) (by omega) (by omega)
          blockEnd guard' fuel r after returned
  · exact cut_round info b small readSize bytes next (by omega) (by omega) (by omega) (by omega)
      blockEnd guard fuel r after returned

end Cut

theorem taken_in_use {σ : Type} [PagedSpace σ] {lo hi : Nat} {valid : σ → Prop} (back : Backs lo hi valid)
    (top : hi < 2 ^ 32) {after : σ} (holds : valid after) (bytes : Word) (align : Byte)
    (aligned : align ≠ 0#8) (a : Nat) (b : Segment) (low : lo ≤ a) (high : a + extent 6 b ≤ hi)
    (candidate : Candidate bytes.toNat b) (r : Word) (out : List Segment)
    (taken : Taken bytes.toNat align a b r.toNat out) (tiles : Tiles (view after) a out) :
    (r + sizeofBlock).toNat % 4096 = 0 ∧ InUse after r bytes := by
  obtain ⟨c, used, large, first, last, exactly⟩ := taken_used _ _ _ _ _ _ candidate.2 taken
  have member := ((exactly (r.toNat, c)).mpr rfl).1
  simp only [extent] at last high
  have header := tiles (r.toNat, c) member
  rw [word_self] at header
  obtain ⟨flag, length⟩ := header
  have readFree := isFree_eq back (by omega) holds r (by omega) (by omega)
  have readSize := size_eq back (by omega) holds r (by omega) (by omega)
  constructor
  · rcases taken with ⟨unaligned, _⟩ | ⟨_, lead, _, _, boundary, place, _⟩
    · exact absurd unaligned aligned
    · have page : (r + sizeofBlock).toNat = r.toNat + 6 := by
        unfold sizeofBlock
        bv_omega
      omega
  · refine ⟨?_, _, readSize, ?_⟩
    · have zero : ByteMemory.load16 (view after) r = 0#16 := by
        by_contra marked
        rw [flag.mp marked] at used
        simp at used
      rw [readFree, zero]
    · rw [BitVec.le_def, length]
      exact large

/-- How the walk of an aligned request over the blocks from `a` on ends: it finds
nothing and leaves the heap alone, or it ends at a block and hands out the header
in front of a page boundary. -/
def AlignedOutcome {σ : Type} [PagedSpace σ] (s after : σ) (bytes r : Word) (a : Nat)
    (bs : List Segment) : Prop :=
  (r = NULL ∧ after = s ∧ ∀ p ∈ layout 6 a bs, ¬ Stops bytes.toNat p.1 p.2) ∨
    r ≠ NULL ∧ (r + sizeofBlock).toNat % 4096 = 0 ∧ InUse after r bytes ∧
      ∃ p ∈ layout 6 a bs, Stops bytes.toNat p.1 p.2

theorem aligned_outcome_later {σ : Type} [PagedSpace σ] (s after : σ) (bytes r : Word) (a : Nat)
    (b : Segment) (post : List Segment) (leaves : ¬ Stops bytes.toNat a b)
    (later : AlignedOutcome s after bytes r (a + extent 6 b) post) :
    AlignedOutcome s after bytes r a (b :: post) := by
  unfold AlignedOutcome
  simp only [layout_cons, List.mem_cons, forall_eq_or_imp, exists_eq_or_imp]
  exact later.imp (fun nothing => ⟨nothing.1, nothing.2.1, leaves, nothing.2.2⟩)
    fun found => ⟨found.1, found.2.1, found.2.2.1, Or.inr found.2.2.2⟩

section Walk
variable {σ : Type} [PagedSpace σ] {start directory : Word} {valid : Nat → σ → Prop}
  (backing : HeapBacking start directory valid) {s : σ} {proc : Process} (bytes : Word)
  (align : Byte) (aligned : align ≠ 0#8)
include backing aligned

/-- That the header handed out is in use is known of a block of a header's size,
and of a smaller one where stores are seen. -/
theorem aligned_walk (rest pre : List Segment)
    (heap : ConsistsOf valid start directory s proc (pre ++ rest)) (fuel : Nat) (i : Word)
    (here : i.toNat = span 6 pre)
    (memory : StoresSeen σ ∨ DividesSafely bytes.toNat align (start.toNat + span 6 pre) rest)
    (r : Word) (after : σ)
    (returned : getFreeBlockFrom start proc.heapSize bytes align fuel i s = some (r, after)) :
    AlignedOutcome s after bytes r (start.toNat + span 6 pre) rest := by
  have back := heap_backs backing proc.heapSize heap.top
  induction rest generalizing pre i fuel with
  | nil =>
      cases fuel with
      | zero => simp [getFreeBlockFrom] at returned
      | succ fuel =>
          rw [walk_ends (by rw [here, ← heap.total, List.append_nil])] at returned
          obtain ⟨rfl, rfl⟩ := Prod.mk.inj (Option.some.inj returned)
          exact Or.inl ⟨rfl, rfl, by simp⟩
  | cons b post ih =>
      cases fuel with
      | zero => simp [getFreeBlockFrom] at returned
      | succ fuel =>
          have read := block_read back heap.top.le heap.holds pre post b heap.total heap.tiles i here
          have place : (start + i).toNat = start.toNat + span 6 pre := here ▸ read.place
          have inside := read.ends
          have top := heap.top
          have further : start.toNat + span 6 (pre ++ [b]) = start.toNat + span 6 pre + extent 6 b := by
            simp [Nat.add_assoc]
          -- a round that leaves this block goes on behind it
          have skipped : ¬ Stops bytes.toNat (start.toNat + span 6 pre) b →
              getFreeBlockFrom start proc.heapSize bytes align fuel
                (i + (sizeofBlock + BitVec.ofNat 32 b.size)) s = some (r, after) →
              AlignedOutcome s after bytes r (start.toNat + span 6 pre) (b :: post) := by
            intro leaves moved
            have refused : ¬ Suits bytes.toNat align (start.toNat + span 6 pre) b := fun suits =>
              leaves (Or.inl ((suits_aligned _ _ aligned _ _).mp suits))
            have later := ih (pre ++ [b]) (by simpa using heap) fuel _ (read.next_span here)
              (memory.imp_right fun safe => further ▸ safe.2 refused) moved
            rw [further] at later
            exact aligned_outcome_later _ _ _ _ _ _ _ leaves later
          by_cases candidate : Candidate bytes.toNat b
          · rw [walk_searches read bytes align fuel heap.top aligned candidate] at returned
            obtain ⟨⟨found, searched⟩, search, goesOn⟩ := Option.bind_eq_some_iff.mp returned
            by_cases safe : 6 ≤ b.size ∨ LeftAtOnce bytes.toNat (start + i).toNat b
            · have outcome := aligned_branch_result back heap.top heap.holds (start + i) b (by omega)
                (by omega) read.header bytes align aligned candidate safe fuel found searched search
              rw [place] at outcome safe
              rcases outcome with ⟨none, rfl, refused⟩ | ⟨notNull, suits, out, taken, holds, tiles, _⟩
              · simp only [none, ne_eq, not_true_eq_false, if_false, read.readSize,
                  Option.bind_some] at goesOn
                refine skipped ?_ goesOn
                rintro (fits | ⟨_, small, cut⟩)
                · exact refused ((suits_aligned _ _ aligned _ _).mpr fits)
                · exact safe.elim (Nat.not_le.mpr small) cut
              · simp only [ne_eq, notNull, not_false_eq_true, if_true, Option.some.injEq,
                  Prod.mk.injEq] at goesOn
                obtain ⟨rfl, rfl⟩ := goesOn
                obtain ⟨boundary, used⟩ := taken_in_use back heap.top holds bytes align aligned _ b
                  (by omega) (by simp only [extent]; omega) candidate found out taken tiles
                exact Or.inr ⟨notNull, boundary, used, _, List.mem_cons_self,
                  Or.inl ((suits_aligned _ _ aligned _ _).mp suits)⟩
            · obtain ⟨small, cut⟩ := not_or.mp safe
              obtain ⟨notNull, boundary, used⟩ := small_cut_search (start + i) b (by omega)
                read.readSize bytes (by omega) candidate.2 cut fuel found searched search
              simp only [ne_eq, notNull, not_false_eq_true, if_true, Option.some.injEq,
                Prod.mk.injEq] at goesOn
              obtain ⟨rfl, rfl⟩ := goesOn
              rw [place] at cut safe
              have seen : StoresSeen σ := memory.resolve_right fun dividesSafely =>
                safe ((dividesSafely.1 candidate).imp_right fun left => left.2)
              exact Or.inr ⟨notNull, boundary, used seen, _, List.mem_cons_self,
                Or.inr ⟨candidate, Nat.not_le.mp small, cut⟩⟩
          · rw [walk_skips read bytes align fuel candidate] at returned
            refine skipped ?_ returned
            rintro (fits | cut)
            · exact candidate ((suits_aligned _ align aligned _ _).mpr fits).1
            · exact candidate cut.1

end Walk

/-- The loop of `malloc` on an aligned request, by induction on the pages it may
add: it adds none exactly if the first walk ends at a block. -/
theorem aligned_loop {σ : Type} [PagedSpace σ] {start directory : Word} {valid : Nat → σ → Prop}
    (backing : HeapBacking start directory valid) (bytes : Word) (align : Byte)
    (aligned : align ≠ 0#8) (fuel growths : Nat) {s : σ} {proc : Process} {bs : List Segment}
    (heap : ConsistsOf valid start directory s proc bs) (apart : Separated bs)
    (memory : StoresSeen σ ∨ DividesSafely bytes.toNat align start.toNat bs)
    (room : start.toNat + proc.heapSize.toNat + 4096 * growths < 2 ^ 32) (ptr : Word) (after : σ)
    (proc' : Process) (returned : mallocLoop fuel bytes align growths s proc = some (ptr, after, proc')) :
    ptr.toNat % 4096 = 0 ∧ InUse after (ptr - sizeofBlock) bytes ∧
      proc.heapSize.toNat ≤ proc'.heapSize.toNat ∧
      (proc'.heapSize = proc.heapSize ↔ ∃ p ∈ layout 6 start.toNat bs, Stops bytes.toNat p.1 p.2) := by
  induction growths using Nat.strong_induction_on generalizing s proc bs with
  | _ growths ih =>
      obtain ⟨r, searched, search, outcome⟩ := malloc_loop_cases returned
      rw [getFreeBlock, heap.base] at search
      have walk : AlignedOutcome s searched bytes r start.toNat bs :=
        aligned_walk backing bytes align aligned bs [] heap fuel 0#32 rfl memory r searched search
      rcases outcome with ⟨found, rfl, rfl, rfl⟩ | ⟨none, fewer, enlarged, grown, rfl, grows, goesOn⟩
      · rcases walk with ⟨none, _⟩ | ⟨_, boundary, used, stops⟩
        · exact absurd none found
        · exact ⟨boundary, (BitVec.add_sub_cancel r sizeofBlock).symm ▸ used, Nat.le_refl _,
            iff_of_true rfl stops⟩
      · rcases walk with ⟨_, rfl, nothing⟩ | ⟨found, _⟩
        · rw [Nat.mul_succ, ← Nat.add_assoc] at room
          have next : start.toNat + proc.heapSize.toNat + 4096 < 2 ^ 32 := by omega
          obtain ⟨size1, heap1, apart1⟩ := grown_consists backing heap next fuel grows
          have memory1 := memory.imp_right fun safe => (malloc_safe_grown bytes.toNat align start.toNat bs
            apart safe fun _ _ _ unaligned => absurd unaligned aligned).1
          obtain ⟨boundary, used, longer, _⟩ := ih fewer (Nat.lt_succ_self fewer) heap1 apart1 memory1
            (by omega) goesOn
          refine ⟨boundary, used, by omega, iff_of_false (fun same => ?_) ?_⟩
          · rw [same] at longer
            omega
          · rintro ⟨p, member, stops⟩
            exact nothing p member stops
        · exact absurd none found

/-- What an aligned `malloc` that returned `ptr` should have done: it has handed out
a page boundary behind a header in use, and added no page if a free block would do. -/
def Reuses {σ : Type} [PagedSpace σ] (start : Nat) (bs : List Segment) (bytes ptr : Word) (after : σ)
    (proc proc' : Process) : Prop :=
  ptr.toNat % 4096 = 0 ∧ InUse after (ptr - sizeofBlock) bytes ∧
    ((∃ p ∈ layout 6 start bs, Contains bytes.toNat p.1 p.2) → proc'.heapSize = proc.heapSize)

/-- Aligned `malloc` does so exactly if, where a free block would do, there is also
one with room for two headers in front of the boundary, or one that it cuts. -/
theorem aligned_malloc_reuses {σ : Type} [PagedSpace σ] {start directory : Word}
    {valid : Nat → σ → Prop} (backing : HeapBacking start directory valid) (bytes : Word)
    (asked : bytes ≠ 0#32) (align : Byte) (aligned : align ≠ 0#8) (fuel growths : Nat) {s : σ}
    {proc : Process} {bs : List Segment} (heap : ConsistsOf valid start directory s proc bs)
    (apart : Separated bs)
    (memory : StoresSeen σ ∨ DividesSafely bytes.toNat align start.toNat bs)
    (room : start.toNat + proc.heapSize.toNat + 4096 * growths < 2 ^ 32) (ptr : Word) (after : σ)
    (proc' : Process) (returned : malloc fuel growths s bytes proc align = some (ptr, after, proc')) :
    Reuses start.toNat bs bytes ptr after proc proc' ↔
      ((∃ p ∈ layout 6 start.toNat bs, Contains bytes.toNat p.1 p.2) →
        ∃ p ∈ layout 6 start.toNat bs,
          p.2.free = true ∧ FitsAligned bytes.toNat p.1 p.2 ∨ SmallCut bytes.toNat p.1 p.2) := by
  rw [malloc, if_neg asked] at returned
  obtain ⟨boundary, used, _, unchanged⟩ := aligned_loop backing bytes align aligned fuel growths heap
    apart memory room ptr after proc' returned
  constructor
  · rintro ⟨_, _, reuses⟩ contained
    exact unchanged.mp (reuses contained)
  · exact fun stops => ⟨boundary, used, fun contained => unchanged.mpr (stops contained)⟩

/-- The heap's second page begins at a boundary with room in front of it. -/
theorem aligned_malloc_reuses_second_page : ∃ after,
    malloc 20 0 (heapOf 0x1000000#32 0x2000#32).space 100#32 (heapOf 0x1000000#32 0x2000#32).proc 1#8 =
      some (0x1001000#32, after, (heapOf 0x1000000#32 0x2000#32).proc) ∧
    Reuses (0x1000000#32).toNat [⟨true, 8186⟩] 100#32 0x1001000#32 after
      (heapOf 0x1000000#32 0x2000#32).proc (heapOf 0x1000000#32 0x2000#32).proc := by
  have run : (malloc 20 0 (heapOf 0x1000000#32 0x2000#32).space 100#32
      (heapOf 0x1000000#32 0x2000#32).proc 1#8).map (fun result => (result.1, result.2.2)) =
      some (0x1001000#32, (heapOf 0x1000000#32 0x2000#32).proc) := by
    decide +kernel
  obtain ⟨⟨ptr, after, proc⟩, returned, same⟩ := Option.map_eq_some_iff.mp run
  obtain ⟨rfl, rfl⟩ := Prod.mk.inj same
  have heap := heap_of_consists 0x1000000#32 0x2000#32 8186 (by decide) (by decide)
  refine ⟨after, returned, (aligned_malloc_reuses (mapped_memory_backing _ _) 100#32 (by decide) 1#8
    (by decide) 20 0 heap (by simp [Separated]) (Or.inr (divides_safely_large _ _ (by decide) _ _))
    (by decide) _ after _ returned).mpr fun _ => ?_⟩
  exact ⟨_, List.mem_cons_self, Or.inl ⟨rfl, 0x1001000, by decide, by decide, by decide⟩⟩

/-- A free block whose payload begins at a page boundary and is a page long: a
request for 100 bytes adds a page and is met behind the block's first page. -/
theorem aligned_block_missed : ∃ (c : HeapState MappedMemory) (bs : List Segment) (after : MappedMemory)
    (proc' : Process),
    Reached (Initialised (fun _ _ => True) 0x1000000#32 (default : Process).pageDirectory 0x2000#32)
      (CallsWhere fun _ _ => True) c ∧
    ConsistsOf (fun _ _ => True) 0x1000000#32 c.proc.pageDirectory c.space c.proc bs ∧ Separated bs ∧
    malloc 20 1 c.space 100#32 c.proc 1#8 = some (0x1002000#32, after, proc') ∧
    ¬ Reuses (0x1000000#32).toNat bs 100#32 0x1002000#32 after c.proc proc' := by
  have run : ((follow (fun c call => runCall 20 call.2 c call.1) (heapOf 0x1000000#32 0x2000#32)
      [(HeapCall.malloc 0xFF4#32 0#8, 0)]).map fun c =>
      ((c.proc.heapStackBoundary, c.proc.heapSize,
        [0x1000000#32, 0x1000FFA#32].map fun info =>
          (ByteMemory.load16 (view c.space) info, ByteMemory.load32 (view c.space) (info + 2#32))),
        (malloc 20 1 c.space 100#32 c.proc 1#8).map fun result => (result.1, result.2.2.heapSize))) =
      some ((0x1000000#32, 0x2000#32, [(0#16, 0xFF4#32), (1#16, 0x1000#32)]),
        some (0x1002000#32, 0x3000#32)) := by
    decide +kernel
  obtain ⟨c, returned, shape⟩ := Option.map_eq_some_iff.mp run
  simp only [List.map_cons, List.map_nil, Prod.mk.injEq, List.cons.injEq, and_true] at shape
  obtain ⟨⟨base, length, ⟨free1, size1⟩, free2, size2⟩, calls⟩ := shape
  obtain ⟨⟨ptr, after, proc'⟩, aligned, result⟩ := Option.map_eq_some_iff.mp calls
  obtain ⟨rfl, grown⟩ := Prod.mk.inj result
  have heap : ConsistsOf (fun _ _ => True) 0x1000000#32 c.proc.pageDirectory c.space c.proc
      [⟨false, 0xFF4⟩, ⟨true, 0x1000⟩] := by
    refine ⟨base, rfl, by rw [length]; decide, trivial, by rw [length]; decide, ?_⟩
    rw [tiles_cons, word_at _ 0x1000000#32 rfl, tiles_cons,
      word_at ((0x1000000#32).toNat + extent 6 ⟨false, 0xFF4⟩) 0x1000FFA#32 rfl]
    exact ⟨⟨by simp [free1], congrArg BitVec.toNat size1⟩,
      ⟨by simp [free2], congrArg BitVec.toNat size2⟩, tiles_nil _ _⟩
  refine ⟨c, _, after, proc', run_calls_reached _ (fun _ _ => True) 20 _ (fun _ _ _ => trivial) _ c
    (Reached.start (heap_of_initialised 0x1000000#32 0x2000#32 (by decide))) returned, heap,
    by simp [Separated], aligned, ?_⟩
  rintro ⟨_, _, reuses⟩
  have contained : ∃ p ∈ layout 6 (0x1000000#32).toNat [(⟨false, 0xFF4⟩ : Segment), ⟨true, 0x1000⟩],
      Contains (100#32).toNat p.1 p.2 :=
    ⟨(0x1000FFA, ⟨true, 0x1000⟩), by decide, rfl, 0x1001000, by decide, by decide, Or.inl rfl⟩
  have same := reuses contained
  rw [length, show proc'.heapSize = 0x3000#32 from grown] at same
  exact absurd same (by decide)

end GargOS
