import GargOS.HeapBlocks

/-!
The header walks of heap.c over a whole heap: `get_free_block` takes the first
block that suits the request, `unite_free_blocks` coalesces the tiling.
-/

namespace GargOS
open ByteMemory AddressSpace Tiling

def Suits (bytes : Nat) (align : Byte) (a : Nat) (b : Segment) : Prop :=
  Candidate bytes b ∧ 6 ≤ b.size ∧ (align = 0#8 ∨ FitsAligned bytes a b)

/-- The aligned search leaves the block at its first test: the first page
boundary behind the header is in the block, but closer than `bytes` to its end. -/
def LeftAtOnce (bytes a : Nat) (b : Segment) : Prop :=
  ((a + 6) / 4096 + 1) * 4096 ≤ a + 6 + b.size ∧
    a + 6 + b.size < ((a + 6) / 4096 + 1) * 4096 + bytes

/-- The walk over the blocks from `a` on never divides a block that is smaller
than a header: such a free block is too small for the request, stands behind a
block that suits it, or is left by the aligned search at once. -/
def DividesSafely (bytes : Nat) (align : Byte) : Nat → List Segment → Prop
  | _, [] => True
  | a, b :: rest =>
      (Candidate bytes b → 6 ≤ b.size ∨ (align ≠ 0#8 ∧ LeftAtOnce bytes a b)) ∧
        (¬ Suits bytes align a b → DividesSafely bytes align (a + extent 6 b) rest)

theorem divides_safely_large (bytes : Nat) (align : Byte) (large : 6 ≤ bytes) (a : Nat)
    (bs : List Segment) : DividesSafely bytes align a bs := by
  induction bs generalizing a with
  | nil => trivial
  | cons b rest ih => exact ⟨fun fits => Or.inl (Nat.le_trans large fits.2), fun _ => ih _⟩

theorem divides_safely_coarse (bytes : Nat) (align : Byte) (a : Nat) (bs : List Segment)
    (coarse : ∀ b ∈ bs, 6 ≤ b.size) : DividesSafely bytes align a bs := by
  induction bs generalizing a with
  | nil => trivial
  | cons b rest ih =>
      exact ⟨fun _ => Or.inl (coarse b List.mem_cons_self),
        fun _ => ih _ fun c member => coarse c (List.mem_cons_of_mem b member)⟩

/-- What replaces the block `b` at `a` when it is taken, and the address of
the header handed out. -/
def Taken (bytes : Nat) (align : Byte) (a : Nat) (b : Segment) (r : Nat)
    (out : List Segment) : Prop :=
  (align = 0#8 ∧ r = a ∧ out = carveFront bytes b) ∨
    (align ≠ 0#8 ∧ ∃ lead, 0 < lead ∧ lead + 6 + bytes ≤ b.size ∧ (a + 12 + lead) % 4096 = 0 ∧
      r = a + 6 + lead ∧ out = carveAligned bytes lead b)

theorem taken_span (bytes : Nat) (align : Byte) (a : Nat) (b : Segment) (r : Nat)
    (out : List Segment) (taken : Taken bytes align a b r out) : span 6 out = extent 6 b := by
  rcases taken with ⟨_, _, rfl⟩ | ⟨_, lead, _, fits, _, _, rfl⟩
  · exact span_carve_front bytes b
  · exact span_carve_aligned bytes lead b (by omega)

theorem first_aligned_toNat (info : Word) (fits : info.toNat + 6 < 2 ^ 32) :
    (firstAlignedAddr info).toNat = ((info.toNat + 6) / 4096 + 1) * 4096 % 2 ^ 32 := by
  have sum : (info + sizeofBlock).toNat = info.toNat + 6 := by
    unfold sizeofBlock
    bv_omega
  have page : ((info + sizeofBlock) >>> 12 + 1#32).toNat = (info.toNat + 6) / 4096 + 1 := by
    rw [BitVec.toNat_add, BitVec.toNat_ushiftRight, sum, Nat.shiftRight_eq_div_pow]
    have : (info.toNat + 6) / 2 ^ 12 < 2 ^ 20 := by omega
    simp only [BitVec.toNat_ofNat]
    omega
  unfold firstAlignedAddr
  rw [BitVec.toNat_shiftLeft, page, Nat.shiftLeft_eq]

theorem left_at_once_result {σ : Type} [PagedSpace σ] (s : σ) (info bytes : Word) (b : Segment)
    (fits : info.toNat + 6 + b.size < 2 ^ 32) (left : LeftAtOnce bytes.toNat info.toNat b)
    (fuel : Nat) (result : Word × σ)
    (returned : alignedSearch info bytes (info + sizeofBlock + BitVec.ofNat 32 b.size) fuel
      (firstAlignedAddr info) s = some result) : result = (NULL, s) := by
  have first := first_aligned_toNat info (by omega)
  unfold LeftAtOnce at left
  cases fuel with
  | zero => simp [alignedSearch] at returned
  | succ fuel =>
      have short : ¬ info + sizeofBlock + BitVec.ofNat 32 b.size - firstAlignedAddr info ≥
          bytes := by
        rw [ge_iff_le, BitVec.le_def, block_left info _ b fits (by omega)]
        omega
      rw [alignedSearch, if_neg short] at returned
      exact (Option.some.inj returned).symm

/-- `after` is `s` with the block `b` behind `pre` taken: `out` stands in its
place and nothing outside the block has changed. -/
structure TakesBlock {σ : Type} [PagedSpace σ] (valid : σ → Prop) (start heapSize bytes : Word)
    (align : Byte) (s after : σ) (r : Word) (pre : List Segment) (b : Segment)
    (post out : List Segment) : Prop where
  suits : Suits bytes.toNat align (start.toNat + span 6 pre) b
  taken : Taken bytes.toNat align (start.toNat + span 6 pre) b r.toNat out
  holds : valid after
  tiles : Tiles (view after) start.toNat (pre ++ (out ++ post))
  kept : ∀ x, Within start.toNat (start.toNat + heapSize.toNat) x →
    ¬ (start.toNat + span 6 pre ≤ x.toNat ∧ x.toNat < start.toNat + span 6 pre + extent 6 b) →
    view after x = view s x

/-- What the walk over `rest`, the blocks behind `pre`, ends with: no block
suits, or the first one that does is taken. -/
def WalkResult {σ : Type} [PagedSpace σ] (valid : σ → Prop) (start heapSize bytes : Word)
    (align : Byte) (s after : σ) (r : Word) (pre rest : List Segment) : Prop :=
  (r = NULL ∧ after = s ∧
    ∀ p ∈ layout 6 (start.toNat + span 6 pre) rest, ¬ Suits bytes.toNat align p.1 p.2) ∨
  ∃ mid b post out, rest = mid ++ b :: post ∧
    (∀ p ∈ layout 6 (start.toNat + span 6 pre) mid, ¬ Suits bytes.toNat align p.1 p.2) ∧
    TakesBlock valid start heapSize bytes align s after r (pre ++ mid) b post out

theorem walk_result_later {σ : Type} [PagedSpace σ] {valid : σ → Prop}
    {start heapSize bytes : Word} {align : Byte} {s after : σ} {r : Word} {pre post : List Segment}
    {b : Segment} (skip : ¬ Suits bytes.toNat align (start.toNat + span 6 pre) b)
    (result : WalkResult valid start heapSize bytes align s after r (pre ++ [b]) post) :
    WalkResult valid start heapSize bytes align s after r pre (b :: post) := by
  have further : start.toNat + span 6 (pre ++ [b]) = start.toNat + span 6 pre + extent 6 b := by
    simp [Nat.add_assoc]
  rcases result with ⟨none, same, refused⟩ | ⟨mid, c, tail, out, split, refused, taken⟩
  · refine Or.inl ⟨none, same, ?_⟩
    rw [further] at refused
    simpa [skip] using refused
  · refine Or.inr ⟨b :: mid, c, tail, out, by simp [split], ?_, by simpa using taken⟩
    rw [further] at refused
    simpa [skip] using refused

/-- No byte of a used block's header or payload differs between the two memories. -/
def UsedKept (m m' : Memory) (base : Nat) (bs : List Segment) : Prop :=
  ∀ p ∈ layout 6 base bs, p.2.free = false → ∀ x : Word, p.1 ≤ x.toNat →
    x.toNat < p.1 + extent 6 p.2 → m' x = m x

theorem used_kept_trans (m m' m'' : Memory) (base : Nat) (bs bs' : List Segment)
    (same : (layout 6 base bs').filter used = (layout 6 base bs).filter used)
    (first : UsedKept m m' base bs) (second : UsedKept m' m'' base bs') :
    UsedKept m m'' base bs := by
  intro p member inUse x low high
  have still : p ∈ (layout 6 base bs').filter used := by
    rw [same]
    exact List.mem_filter.mpr ⟨member, by simp [used, inUse]⟩
  rw [second p (List.mem_filter.mp still).1 inUse x low high, first p member inUse x low high]

theorem used_kept_header (m m' : Memory) (base : Nat) (done post : List Segment) (b : Segment)
    (free : b.free = true)
    (kept : ∀ x : Word, base ≤ x.toNat → x.toNat < base + span 6 (done ++ b :: post) →
      ¬ (base + span 6 done ≤ x.toNat ∧ x.toNat < base + span 6 done + 6) → m' x = m x) :
    UsedKept m m' base (done ++ b :: post) := by
  intro p member inUse x low high
  have bounds := layout_bounds 6 _ _ p member
  have mine : (base + span 6 done, b) ∈ layout 6 base (done ++ b :: post) := by simp
  have different : p ≠ (base + span 6 done, b) := by
    rintro rfl
    simp [free] at inUse
  have apart := layout_apart 6 _ _ _ _ member mine different
  simp only [extent] at apart bounds high
  exact kept x (by omega) (by omega) (by omega)

section Walks
variable {σ : Type} [PagedSpace σ] {start heapSize : Word} {valid : σ → Prop}
  (back : Backs start.toNat (start.toNat + heapSize.toNat) valid)
  (top : start.toNat + heapSize.toNat < 2 ^ 32)

theorem tiles_replace (m m' : Memory) (base : Nat) (pre old out post : List Segment)
    (fits : base + span 6 (pre ++ (old ++ post)) ≤ 2 ^ 32) (same : span 6 out = span 6 old)
    (tiles : Tiles m base (pre ++ (old ++ post)))
    (replaced : Tiles m' (base + span 6 pre) out)
    (kept : ∀ x : Word, base ≤ x.toNat → x.toNat < base + span 6 (pre ++ (old ++ post)) →
      ¬ (base + span 6 pre ≤ x.toNat ∧ x.toNat < base + span 6 pre + span 6 old) → m' x = m x) :
    Tiles m' base (pre ++ (out ++ post)) := by
  rw [tiles_append, tiles_append] at tiles
  simp only [span_append] at fits kept
  rw [tiles_append, tiles_append, same]
  refine ⟨?_, replaced, ?_⟩
  · apply tiles_kept m m' _ _ (by omega) _ tiles.1
    exact fun x low high => kept x (by omega) (by omega) (by omega)
  · apply tiles_kept m m' _ _ (by omega) _ tiles.2.2
    exact fun x low high => kept x (by omega) (by omega) (by omega)

section Block
variable {lo hi : Nat} {allowed : σ → Prop} (memory : Backs lo hi allowed) (bound : hi < 2 ^ 32)
  {s : σ} (holds : allowed s) (info : Word) (b : Segment) (low : lo ≤ info.toNat)
  (high : info.toNat + 6 + b.size ≤ hi) (header : HeaderAt (view s) info b)
include memory bound holds low high header

theorem aligned_branch_result (bytes : Word) (align : Byte) (aligned : align ≠ 0#8)
    (fits : Candidate bytes.toNat b)
    (safe : 6 ≤ b.size ∨ LeftAtOnce bytes.toNat info.toNat b) (fuel : Nat) (r : Word) (after : σ)
    (returned : alignedSearch info bytes (info + sizeofBlock + BitVec.ofNat 32 b.size) fuel
      (firstAlignedAddr info) s = some (r, after)) :
    (r = NULL ∧ after = s ∧ ¬ Suits bytes.toNat align info.toNat b) ∨
      r ≠ NULL ∧ Suits bytes.toNat align info.toNat b ∧
      ∃ out, Taken bytes.toNat align info.toNat b r.toNat out ∧ allowed after ∧
        Tiles (view after) info.toNat out ∧
        ∀ x, Within lo hi x → ¬ InBlock info b x → view after x = view s x := by
  by_cases room : 6 ≤ b.size
  · have first := first_aligned_toNat info (by omega)
    have search := aligned_search_result memory bound holds info b low high header fits.1 bytes
      fits.2 room fuel _ r after (by omega) (fun q _ _ _ => by omega) returned
    rcases search with ⟨none, same, refused⟩ | ⟨lead, positive, space, page, place, next⟩
    · refine Or.inl ⟨none, same, ?_⟩
      rintro ⟨_, _, zero | here⟩
      · exact aligned zero
      · exact refused here
    · have zero : NULL.toNat = 0 := rfl
      refine Or.inr ⟨?_, ⟨fits, room, Or.inr ⟨info.toNat + 12 + lead, page, by omega, by omega⟩⟩,
        carveAligned bytes.toNat lead b,
        Or.inr ⟨aligned, lead, positive, space, page, place, rfl⟩, next⟩
      rintro rfl
      omega
  · have left := safe.resolve_left room
    have none := left_at_once_result s info bytes b (by omega) left fuel _ returned
    simp only [Prod.mk.injEq] at none
    exact Or.inl ⟨none.1, none.2, fun suits => room suits.2.1⟩

end Block

/-- What a round of `get_free_block` at index `i` reads of the block `b`. -/
structure BlockRead (s : σ) (start heapSize i : Word) (b : Segment) : Prop where
  going : i < heapSize
  place : (start + i).toNat = start.toNat + i.toNat
  ends : i.toNat + 6 + b.size ≤ heapSize.toNat
  header : HeaderAt (view s) (start + i) b
  readFree : isFree s (start + i) = some (ByteMemory.load16 (view s) (start + i))
  readSize : size s (start + i) = some (BitVec.ofNat 32 b.size)
  chosen : ∀ bytes : Word, (ByteMemory.load16 (view s) (start + i) ≠ 0#16 ∧
    BitVec.ofNat 32 b.size ≥ bytes) ↔ Candidate bytes.toNat b
  next : (i + (sizeofBlock + BitVec.ofNat 32 b.size)).toNat = i.toNat + extent 6 b

include back in
/-- Only the round's own addresses matter, so the heap may reach the end of the
address space. -/
theorem block_read (reach : start.toNat + heapSize.toNat ≤ 2 ^ 32) {s : σ} (holds : valid s)
    (pre post : List Segment) (b : Segment)
    (total : span 6 (pre ++ b :: post) = heapSize.toNat)
    (tiles : Tiles (view s) start.toNat (pre ++ b :: post)) (i : Word)
    (here : i.toNat = span 6 pre) : BlockRead s start heapSize i b := by
  simp only [span_append, span_cons, extent] at total
  have going : i < heapSize := by
    rw [BitVec.lt_def]
    omega
  have place : (start + i).toNat = start.toNat + i.toNat := by bv_omega
  have header : HeaderAt (view s) (start + i) b := by
    rw [tiles_append, tiles_cons, word_at _ (start + i) (by omega)] at tiles
    exact tiles.2.1
  have readSize := size_eq back (by omega) holds (start + i) (by omega) (by omega)
  rw [(word_at _ _ header.2).symm] at readSize
  have sizeNat : (BitVec.ofNat 32 b.size).toNat = b.size := by
    rw [BitVec.toNat_ofNat]
    omega
  refine ⟨going, place, by omega, header,
    isFree_eq back (by omega) holds (start + i) (by omega) (by omega), readSize, ?_, ?_⟩
  · intro bytes
    rw [header.1, ge_iff_le, BitVec.le_def, sizeNat, Candidate]
  · unfold sizeofBlock extent
    bv_omega

theorem BlockRead.next_span {s : σ} {i : Word} {b : Segment} {pre : List Segment}
    (read : BlockRead s start heapSize i b) (here : i.toNat = span 6 pre) :
    (i + (sizeofBlock + BitVec.ofNat 32 b.size)).toNat = span 6 (pre ++ [b]) := by
  rw [read.next, here]
  simp

/-! The rounds of the walk, by what they do with the block they have read. -/

section Rounds
variable {s : σ} {i : Word} {b : Segment}

theorem walk_ends (ended : i.toNat = heapSize.toNat) (bytes : Word) (align : Byte) (fuel : Nat) :
    getFreeBlockFrom start heapSize bytes align (fuel + 1) i s = some (NULL, s) := by
  have notLess : ¬ i < heapSize := by
    rw [BitVec.lt_def]
    omega
  rw [getFreeBlockFrom, if_neg notLess]

variable (read : BlockRead s start heapSize i b) (bytes : Word) (align : Byte) (fuel : Nat)
include read

theorem walk_skips (refused : ¬ Candidate bytes.toNat b) :
    getFreeBlockFrom start heapSize bytes align (fuel + 1) i s =
      getFreeBlockFrom start heapSize bytes align fuel
        (i + (sizeofBlock + BitVec.ofNat 32 b.size)) s := by
  have notChosen := mt (read.chosen bytes).mp refused
  rw [getFreeBlockFrom]
  simp only [read.going, if_true, read.readFree, read.readSize, Option.bind_eq_bind,
    Option.bind_some]
  rw [if_neg notChosen]

theorem walk_takes (candidate : Candidate bytes.toNat b) :
    getFreeBlockFrom start heapSize bytes 0#8 (fuel + 1) i s =
      (takeFirst s (start + i) bytes).bind fun after => some (start + i, after) := by
  have chosen := (read.chosen bytes).mpr candidate
  rw [getFreeBlockFrom]
  simp only [read.going, if_true, read.readFree, read.readSize, Option.bind_eq_bind,
    Option.bind_some]
  rw [if_pos chosen]
  rfl

theorem walk_searches (top : start.toNat + heapSize.toNat < 2 ^ 32) (aligned : align ≠ 0#8)
    (candidate : Candidate bytes.toNat b) :
    getFreeBlockFrom start heapSize bytes align (fuel + 1) i s =
      (alignedSearch (start + i) bytes (start + i + sizeofBlock + BitVec.ofNat 32 b.size) fuel
        (firstAlignedAddr (start + i)) s).bind fun found =>
          if found.1 ≠ NULL then some found
          else (size found.2 (start + i)).bind fun infoSize =>
            getFreeBlockFrom start heapSize bytes align fuel
              (i + (sizeofBlock + infoSize)) found.2 := by
  have chosen := (read.chosen bytes).mpr candidate
  have above : ¬ start + i + sizeofBlock % 0x1000#32 = 0#32 := by
    have six : sizeofBlock % 0x1000#32 = 6#32 := rfl
    have place := read.place
    have ends := read.ends
    rw [six]
    bv_omega
  rw [getFreeBlockFrom]
  simp only [read.going, if_true, read.readFree, read.readSize, Option.bind_eq_bind,
    Option.bind_some]
  rw [if_pos chosen, if_pos aligned, if_neg above]

end Rounds

include back top

theorem get_free_block_from_result {s : σ} (holds : valid s) (bs : List Segment)
    (total : span 6 bs = heapSize.toNat) (tiles : Tiles (view s) start.toNat bs) (bytes : Word)
    (align : Byte) (fuel : Nat) (pre rest : List Segment) (split : bs = pre ++ rest) (i r : Word)
    (after : σ) (here : i.toNat = span 6 pre)
    (safe : DividesSafely bytes.toNat align (start.toNat + span 6 pre) rest)
    (returned : getFreeBlockFrom start heapSize bytes align fuel i s = some (r, after)) :
    WalkResult valid start heapSize bytes align s after r pre rest := by
  induction fuel generalizing pre rest i with
  | zero => simp [getFreeBlockFrom] at returned
  | succ fuel ih =>
      have whole : span 6 pre + span 6 rest = heapSize.toNat := by
        rw [← total, split, span_append]
      cases rest with
      | nil =>
          rw [walk_ends (by simpa [here] using whole)] at returned
          obtain ⟨rfl, rfl⟩ := Prod.mk.inj (Option.some.inj returned)
          exact Or.inl ⟨rfl, rfl, by simp⟩
      | cons b post =>
          simp only [span_cons, extent] at whole
          have read := block_read back top.le holds pre post b (split ▸ total) (split ▸ tiles) i here
          have place : (start + i).toNat = start.toNat + span 6 pre := here ▸ read.place
          have header := read.header
          -- a round that leaves this block goes on behind it
          have skipped : ¬ Suits bytes.toNat align (start.toNat + span 6 pre) b →
              getFreeBlockFrom start heapSize bytes align fuel
                (i + (sizeofBlock + BitVec.ofNat 32 b.size)) s = some (r, after) →
              WalkResult valid start heapSize bytes align s after r pre (b :: post) := by
            intro skip moved
            exact walk_result_later skip (ih (pre ++ [b]) post (by simp [split]) _
              (read.next_span here) (by simpa [Nat.add_assoc] using safe.2 skip) moved)
          have took : ∀ out, Taken bytes.toNat align (start.toNat + span 6 pre) b r.toNat out →
              Suits bytes.toNat align (start.toNat + span 6 pre) b → valid after →
              Tiles (view after) (start + i).toNat out →
              (∀ x, Within start.toNat (start.toNat + heapSize.toNat) x →
                ¬ InBlock (start + i) b x → view after x = view s x) →
              WalkResult valid start heapSize bytes align s after r pre (b :: post) := by
            intro out taken suits next there kept
            refine Or.inr ⟨[], b, post, out, rfl, by simp, ?_⟩
            rw [List.append_nil]
            have outside : ∀ x, Within start.toNat (start.toNat + heapSize.toNat) x →
                ¬ (start.toNat + span 6 pre ≤ x.toNat ∧
                  x.toNat < start.toNat + span 6 pre + extent 6 b) →
                view after x = view s x := by
              intro x inside away
              apply kept x inside
              unfold InBlock
              simp only [extent] at away
              omega
            refine ⟨suits, taken, next, ?_, outside⟩
            rw [place] at there
            apply tiles_replace (view s) (view after) _ pre [b] out post
              (by simp [extent]; omega) (by simp [taken_span _ _ _ _ _ _ taken])
              (by simpa [split] using tiles) there
            intro x first last away
            simp only [span_append, span_cons, span_nil, extent] at last
            exact outside x ⟨by omega, by omega⟩ (by simpa using away)
          by_cases fits : Candidate bytes.toNat b
          · by_cases aligned : align = 0#8
            · have room := (safe.1 fits).resolve_right fun left => left.1 aligned
              obtain ⟨next, took1, valid1, there, kept⟩ := take_first_done back top holds (start + i)
                b (by omega) (by omega) header bytes fits.2 room
              rw [aligned, walk_takes read bytes fuel fits, took1, Option.bind_some] at returned
              obtain ⟨rfl, rfl⟩ := Prod.mk.inj (Option.some.inj returned)
              exact took _ (Or.inl ⟨aligned, place, rfl⟩) ⟨fits, room, Or.inl aligned⟩ valid1 there
                kept
            · rw [walk_searches read bytes align fuel top aligned fits] at returned
              obtain ⟨⟨found, searched⟩, search, goesOn⟩ := Option.bind_eq_some_iff.mp returned
              have outcome := aligned_branch_result back top holds (start + i) b (by omega)
                (by omega) header bytes align aligned fits
                ((safe.1 fits).imp_right fun left => place ▸ left.2) fuel found searched search
              rcases outcome with ⟨none, rfl, skip⟩ | ⟨notNull, suits, out, taken, valid1, there, kept⟩
              · simp only [none, ne_eq, not_true_eq_false, if_false, read.readSize,
                  Option.bind_some] at goesOn
                exact skipped (place ▸ skip) goesOn
              · simp only [ne_eq, notNull, not_false_eq_true, if_true, Option.some.injEq,
                  Prod.mk.injEq] at goesOn
                obtain ⟨rfl, rfl⟩ := goesOn
                exact took out (place ▸ taken) (place ▸ suits) valid1 there kept
          · rw [walk_skips read bytes align fuel fits] at returned
            exact skipped (fun suits => fits suits.1) returned

end Walks

section Unite
variable {σ : Type} [PagedSpace σ] {start heapSize : Word} {valid : σ → Prop}
  (back : Backs start.toNat (start.toNat + heapSize.toNat) valid)
  (reach : start.toNat + heapSize.toNat ≤ 2 ^ 32)

theorem joined_used (a : Nat) (done post : List Segment) (prev b : Segment) (both : prev.free = true)
    (neighbour : b.free = true) :
    (layout 6 a (done ++ ⟨true, prev.size + extent 6 b⟩ :: post)).filter used =
      (layout 6 a (done ++ prev :: b :: post)).filter used := by
  simp [used, both, neighbour, extent, Nat.add_assoc]

include back reach

/-- One joining step of `unite_free_blocks`: only the header of the block that
grows is written. -/
theorem unite_joins {s : σ} (holds : valid s) (done post : List Segment) (prev b : Segment)
    (total : span 6 (done ++ prev :: b :: post) = heapSize.toNat)
    (tiles : Tiles (view s) start.toNat (done ++ prev :: b :: post))
    (free : prev.free = true) (prevInfo : Word)
    (place : prevInfo.toNat = start.toNat + span 6 done) :
    ∃ after, setSize s prevInfo (BitVec.ofNat 32 prev.size + (sizeofBlock + BitVec.ofNat 32 b.size))
        = some after ∧ valid after ∧
      Tiles (view after) start.toNat (done ++ ⟨true, prev.size + extent 6 b⟩ :: post) ∧
      ∀ x, Within start.toNat (start.toNat + heapSize.toNat) x →
        ¬ (prevInfo.toNat ≤ x.toNat ∧ x.toNat < prevInfo.toNat + 6) → view after x = view s x := by
  simp only [span_append, span_cons, extent] at total
  obtain ⟨after, stored, next, size1, keep⟩ := setSize_eq back (by omega) holds prevInfo
    (by omega) (by omega) (BitVec.ofNat 32 prev.size + (sizeofBlock + BitVec.ofNat 32 b.size))
  have joined : (BitVec.ofNat 32 prev.size + (sizeofBlock + BitVec.ofNat 32 b.size)).toNat =
      prev.size + extent 6 b := by
    unfold sizeofBlock extent
    bv_omega
  have header : HeaderAt (view s) prevInfo prev := by
    rw [tiles_append, tiles_cons, word_at _ prevInfo place] at tiles
    exact tiles.2.1
  refine ⟨after, stored, next, ?_, fun x inside away => keep x inside (by omega)⟩
  apply tiles_replace (view s) (view after) _ done [prev, b] [⟨true, prev.size + extent 6 b⟩] post
    (by simp [extent]; omega) (by simp [extent]; omega) (by simpa using tiles)
  · rw [tiles_cons, word_at _ prevInfo place]
    refine ⟨⟨?_, by rw [size1, joined]⟩, tiles_nil _ _⟩
    rw [load16_kept (view s) (view after) prevInfo (by omega)]
    · simpa [free] using header.1
    · exact fun x first last => keep x ⟨by omega, by omega⟩ (by omega)
  · intro x first last away
    simp only [span_append, span_cons, span_nil, extent] at last away
    exact keep x ⟨by omega, by omega⟩ (by omega)

/-! The rounds of `unite_free_blocks`, by what they do with the block at `i` and
the one at `j` before it. -/

section UniteRounds
omit back reach
variable {s : σ} {i j : Word} {b prev : Segment} (read : BlockRead s start heapSize i b)
  (readPrev : BlockRead s start heapSize j prev) (fuel : Nat)
include read readPrev

theorem unite_passes (apart : ¬ (b.free = true ∧ prev.free = true)) :
    uniteFreeBlocksFrom start heapSize (fuel + 1) i (start + j) s =
      uniteFreeBlocksFrom start heapSize fuel (i + (sizeofBlock + BitVec.ofNat 32 b.size))
        (start + i) s := by
  have notBoth : ¬ (ByteMemory.load16 (view s) (start + i) ≠ 0#16 ∧
      ByteMemory.load16 (view s) (start + j) ≠ 0#16) := by
    rw [read.header.1, readPrev.header.1]
    exact apart
  simp only [uniteFreeBlocksFrom, read.going, if_true, read.readFree, readPrev.readFree,
    Option.bind_eq_bind, Option.bind_some, if_neg notBoth, read.readSize]

theorem unite_grows (both : b.free = true ∧ prev.free = true) (joined : σ)
    (stored : setSize s (start + j)
      (BitVec.ofNat 32 prev.size + (sizeofBlock + BitVec.ofNat 32 b.size)) = some joined)
    (again : size joined (start + i) = some (BitVec.ofNat 32 b.size)) :
    uniteFreeBlocksFrom start heapSize (fuel + 1) i (start + j) s =
      uniteFreeBlocksFrom start heapSize fuel (i + (sizeofBlock + BitVec.ofNat 32 b.size))
        (start + j) joined := by
  have bothFree := And.intro (read.header.1.mpr both.1) (readPrev.header.1.mpr both.2)
  simp only [uniteFreeBlocksFrom, read.going, if_true, read.readFree, readPrev.readFree,
    Option.bind_eq_bind, Option.bind_some, if_pos bothFree, read.readSize, readPrev.readSize, stored,
    again]

end UniteRounds

/-- `unite_free_blocks` from the block `prev` on: it needs one round for every
block behind `prev` and one to stop. The induction is on these blocks. -/
theorem unite_from_result {s : σ} (holds : valid s) (fuel : Nat) (done rest : List Segment)
    (prev : Segment) (total : span 6 (done ++ prev :: rest) = heapSize.toNat)
    (tiles : Tiles (view s) start.toNat (done ++ prev :: rest)) (i j : Word)
    (before : j.toNat = span 6 done) (here : i.toNat = span 6 done + extent 6 prev) :
    (fuel ≤ rest.length ∧ uniteFreeBlocksFrom start heapSize fuel i (start + j) s = none) ∨
    ∃ after, uniteFreeBlocksFrom start heapSize fuel i (start + j) s = some after ∧ valid after ∧
      Tiles (view after) start.toNat (done ++ coalesceFrom 6 prev rest) ∧
      UsedKept (view s) (view after) start.toNat (done ++ prev :: rest) := by
  induction rest generalizing fuel done prev s i j with
  | nil =>
      cases fuel with
      | zero => exact Or.inl ⟨by simp, rfl⟩
      | succ fuel =>
          have ended : ¬ i < heapSize := by
            rw [BitVec.lt_def, here]
            simp at total
            omega
          refine Or.inr ⟨s, by simp [uniteFreeBlocksFrom, ended], holds, tiles, ?_⟩
          exact fun _ _ _ _ _ _ => rfl
  | cons b post ih =>
      cases fuel with
      | zero => exact Or.inl ⟨by simp, rfl⟩
      | succ fuel =>
          have behind : i.toNat = span 6 (done ++ [prev]) := by simpa using here
          have read := block_read back reach holds (done ++ [prev]) post b (by simpa using total)
            (by simpa using tiles) i behind
          have readPrev := block_read back reach holds done (b :: post) prev total tiles j before
          have place := read.place
          have placePrev := readPrev.place
          have ends := read.ends
          have step := read.next_span behind
          simp only [extent] at here
          by_cases both : b.free = true ∧ prev.free = true
          · obtain ⟨joined, stored, next, tiles1, keep⟩ := unite_joins back reach holds done post prev b
              total tiles both.2 (start + j) (by omega)
            have again : size joined (start + i) = some (BitVec.ofNat 32 b.size) := by
              rw [size_eq back (by omega) next (start + i) (by omega) (by omega),
                load32_kept (view s) (view joined) _ (by rw [toNat_add_two _ (by omega)]; omega),
                (word_at _ _ read.header.2).symm]
              intro x first last
              rw [toNat_add_two _ (by omega)] at first last
              exact keep x ⟨by omega, by omega⟩ (by omega)
            have total1 : span 6 (done ++ ⟨true, prev.size + extent 6 b⟩ :: post) =
                heapSize.toNat := by
              simp only [span_append, span_cons, extent] at total ⊢
              omega
            have keepUsed : UsedKept (view s) (view joined) start.toNat
                (done ++ prev :: b :: post) := by
              refine used_kept_header _ _ _ done (b :: post) prev both.2 fun x low high away => ?_
              rw [total] at high
              exact keep x ⟨low, high⟩ (by omega)
            -- the grown block stays where it is, with one block fewer behind it
            have result := ih next fuel done ⟨true, prev.size + extent 6 b⟩ total1 tiles1
              (i + (sizeofBlock + BitVec.ofNat 32 b.size)) j before (by
                rw [step]
                simp [extent, Nat.add_assoc])
            have sameList : coalesceFrom 6 prev (b :: post) =
                coalesceFrom 6 ⟨true, prev.size + extent 6 b⟩ post := by
              simp [coalesceFrom, both]
            rw [unite_grows read readPrev fuel both joined stored again, sameList]
            rcases result with ⟨short, none⟩ | ⟨after, done1, next1, tiles2, kept⟩
            · exact Or.inl ⟨by simp; omega, none⟩
            · exact Or.inr ⟨after, done1, next1, tiles2, used_kept_trans _ _ _ _ _ _
                (joined_used _ done post prev b both.2 both.1) keepUsed kept⟩
          · -- `prev` is done with, and `b` is what neighbours are joined to from here on
            have result := ih holds fuel (done ++ [prev]) b (by simpa using total)
              (by simpa using tiles) (i + (sizeofBlock + BitVec.ofNat 32 b.size)) i behind (by
                rw [step]
                simp [extent, Nat.add_assoc])
            have sameList : coalesceFrom 6 prev (b :: post) = prev :: coalesceFrom 6 b post := by
              simp only [coalesceFrom, Bool.and_eq_true, both, if_false]
            rw [unite_passes read readPrev fuel both, sameList]
            rcases result with ⟨short, none⟩ | ⟨after, done1, next1, tiles2, kept⟩
            · exact Or.inl ⟨by simp; omega, none⟩
            · exact Or.inr ⟨after, done1, next1, by simpa using tiles2, by simpa using kept⟩

theorem unite_result {s : σ} (holds : valid s) (proc : Process)
    (base : proc.heapStackBoundary = start) (extent : proc.heapSize = heapSize) (fuel : Nat)
    (bs : List Segment) (inhabited : bs ≠ []) (total : span 6 bs = heapSize.toNat)
    (tiles : Tiles (view s) start.toNat bs) :
    (fuel < bs.length ∧ uniteFreeBlocks fuel s proc = none) ∨
    ∃ after, uniteFreeBlocks fuel s proc = some after ∧ valid after ∧
      Tiles (view after) start.toNat (coalesce 6 bs) ∧
      UsedKept (view s) (view after) start.toNat bs := by
  cases bs with
  | nil => exact absurd rfl inhabited
  | cons b rest =>
      have sum := total
      simp only [span_cons, Tiling.extent] at sum
      have header : HeaderAt (view s) start b := by
        rw [tiles_cons, word_at _ start rfl] at tiles
        exact tiles.1
      have readSize := size_eq back (by omega) holds start (by omega) (by omega)
      rw [(word_at _ _ header.2).symm] at readSize
      have result := unite_from_result back reach holds fuel [] rest b total tiles
        (BitVec.ofNat 32 b.size + sizeofBlock) 0#32 (by simp)
        (by unfold sizeofBlock; simp only [span_nil, Tiling.extent]; bv_omega)
      rw [BitVec.add_zero] at result
      have unfolded : uniteFreeBlocks fuel s proc = uniteFreeBlocksFrom start heapSize fuel
          (BitVec.ofNat 32 b.size + sizeofBlock) start s := by
        simp [uniteFreeBlocks, base, extent, readSize]
      rw [unfolded]
      rcases result with ⟨short, none⟩ | found
      · exact Or.inl ⟨by simp; omega, none⟩
      · exact Or.inr found

end Unite
end GargOS
