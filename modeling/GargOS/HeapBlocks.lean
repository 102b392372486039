import GargOS.HeapHeaders

/-!
What the loops of heap.c do to the list of blocks a heap consists of: dividing
and taking a block, the walk of `get_free_block` with its search for an aligned
address, and `unite_free_blocks` as the coalescing of the list.
-/

namespace GargOS
open ByteMemory AddressSpace Tiling

/-- What is left of a free block whose first `bytes` bytes are taken. -/
def carveFront (bytes : Nat) (b : Segment) : List Segment :=
  if bytes + 6 ≤ b.size then [⟨false, bytes⟩, ⟨true, b.size - 6 - bytes⟩]
  else [⟨false, b.size⟩]

/-- What is left of a free block that is taken behind a free block of `lead`
bytes. -/
def carveAligned (bytes lead : Nat) (b : Segment) : List Segment :=
  let rest := b.size - 6 - lead
  ⟨true, lead⟩ ::
    if bytes + 6 < rest then [⟨false, bytes⟩, ⟨true, rest - bytes - 6⟩] else [⟨false, rest⟩]

theorem span_carve_front (bytes : Nat) (b : Segment) :
    span 6 (carveFront bytes b) = extent 6 b := by
  unfold carveFront
  split <;> simp [extent]
  omega

theorem span_carve_aligned (bytes lead : Nat) (b : Segment) (fits : lead + 6 ≤ b.size) :
    span 6 (carveAligned bytes lead b) = extent 6 b := by
  unfold carveAligned
  dsimp only
  split <;> simp [extent] <;> omega

def Candidate (bytes : Nat) (b : Segment) : Prop := b.free = true ∧ bytes ≤ b.size

/-- Some page boundary of the block at `a` has room for a header and at least
one byte in front of it and for the request behind it. -/
def FitsAligned (bytes a : Nat) (b : Segment) : Prop :=
  ∃ q, q % 4096 = 0 ∧ a + 12 < q ∧ q + bytes ≤ a + 6 + b.size

theorem surplus_size (info info2 : Word) (total lead bytes : Nat)
    (fits : info.toNat + 6 + total < 2 ^ 32) (room : bytes + 12 + lead < total)
    (place : info2.toNat = info.toNat + 12 + lead + bytes) :
    (info + sizeofBlock + BitVec.ofNat 32 total - info2 - sizeofBlock).toNat =
      total - 6 - lead - bytes - 6 := by
  unfold sizeofBlock
  bv_omega

theorem word_at (a : Nat) (w : Word) (place : w.toNat = a) : BitVec.ofNat 32 a = w := by
  rw [← place]
  simp

/-! Distances from the header of a block at `info`. -/

section Distances
variable (info next : Word) (b : Segment) (fits : info.toNat + 6 + b.size < 2 ^ 32)

theorem behind_headers (far : 12 ≤ (next - info).toNat) :
    (next - info - 2#32 * sizeofBlock).toNat = (next - info).toNat - 12 := by
  have two : (2#32 * sizeofBlock).toNat = 12 := rfl
  rw [BitVec.toNat_sub_of_le (by rw [BitVec.le_def, two]; exact far), two]

include fits

theorem block_end : (info + sizeofBlock + BitVec.ofNat 32 b.size).toNat = info.toNat + 6 + b.size := by
  unfold sizeofBlock
  bv_omega

theorem block_left (inside : next.toNat ≤ info.toNat + 6 + b.size) :
    (info + sizeofBlock + BitVec.ofNat 32 b.size - next).toNat = info.toNat + 6 + b.size - next.toNat := by
  have ending := block_end info b fits
  rw [BitVec.toNat_sub_of_le (by rw [BitVec.le_def, ending]; exact inside), ending]

end Distances

section Backed
variable {σ : Type} [PagedSpace σ] {lo hi : Nat} {valid : σ → Prop}
  (back : Backs lo hi valid) (top : hi < 2 ^ 32) {s : σ} (holds : valid s)
  (info : Word) (b : Segment) (low : lo ≤ info.toNat) (high : info.toNat + 6 + b.size ≤ hi)
  (header : HeaderAt (view s) info b)

def InBlock (info : Word) (b : Segment) (x : Word) : Prop :=
  info.toNat ≤ x.toNat ∧ x.toNat < info.toNat + 6 + b.size

include back top holds low high header

theorem divide_refused (newBytes : Word) (room : 6 ≤ b.size)
    (long : b.size < newBytes.toNat + 6) :
    divideBlock s info newBytes = some (NULL, s) := by
  have stored := header.2
  have tooLong : newBytes > ByteMemory.load32 (view s) (info + 2#32) - sizeofBlock := by
    unfold sizeofBlock
    bv_omega
  simp [divideBlock, size_eq back (by omega) holds info low (by omega), tooLong]

theorem divide_done (newBytes : Word) (fits : newBytes.toNat + 6 ≤ b.size) :
    ∃ newInfo after, divideBlock s info newBytes = some (newInfo, after) ∧ valid after ∧
      newInfo.toNat = info.toNat + 6 + newBytes.toNat ∧
      (ByteMemory.load32 (view after) (info + 2#32)).toNat = newBytes.toNat ∧
      (ByteMemory.load32 (view after) (newInfo + 2#32)).toNat = b.size - 6 - newBytes.toNat ∧
      ∀ x, Within lo hi x → ¬ (info.toNat + 2 ≤ x.toNat ∧ x.toNat < info.toNat + 6) →
        ¬ (newInfo.toNat + 2 ≤ x.toNat ∧ x.toNat < newInfo.toNat + 6) →
        view after x = view s x := by
  have stored := header.2
  set infoSize := ByteMemory.load32 (view s) (info + 2#32) with infoSizeDef
  have short : ¬ newBytes > infoSize - sizeofBlock := by
    unfold sizeofBlock
    bv_omega
  set newInfo := info + sizeofBlock + newBytes with newInfoDef
  have place : newInfo.toNat = info.toNat + 6 + newBytes.toNat := by
    unfold sizeofBlock at newInfoDef
    bv_omega
  obtain ⟨s1, store1, valid1, size1, keep1⟩ := setSize_eq back (by omega) holds newInfo
    (by omega) (by omega) (infoSize - sizeofBlock - newBytes)
  obtain ⟨s2, store2, valid2, size2, keep2⟩ := setSize_eq back (by omega) valid1 info
    low (by omega) newBytes
  have second := toNat_add_two newInfo (by omega)
  -- the second write is to the header in front, which lies apart
  have kept : ByteMemory.load32 (view s2) (newInfo + 2#32) =
      ByteMemory.load32 (view s1) (newInfo + 2#32) :=
    load32_kept _ _ _ (by omega) fun x first last =>
      keep2 x ⟨by omega, by omega⟩ (by omega)
  refine ⟨newInfo, s2, ?_, valid2, place, by rw [size2], ?_, fun x inside out1 out2 => ?_⟩
  · simp [divideBlock, size_eq back (by omega) holds info low (by omega), ← infoSizeDef, short,
      ← newInfoDef, store1, store2]
  · rw [kept, size1]
    unfold sizeofBlock
    bv_omega
  · rw [keep2 x inside out1, keep1 x inside out2]

theorem take_first_done (bytes : Word) (fits : bytes.toNat ≤ b.size) (room : 6 ≤ b.size) :
    ∃ after, takeFirst s info bytes = some after ∧ valid after ∧
      Tiles (view after) info.toNat (carveFront bytes.toNat b) ∧
      ∀ x, Within lo hi x → ¬ InBlock info b x → view after x = view s x := by
  obtain ⟨s1, store1, valid1, flag1, keep1⟩ := setIsFree_eq back (by omega) holds info
    low (by omega) 0#16
  have second := toNat_add_two info (by omega)
  have sizeKept : ByteMemory.load32 (view s1) (info + 2#32) =
      ByteMemory.load32 (view s) (info + 2#32) :=
    load32_kept _ _ _ (by omega) fun x first last => keep1 x ⟨by omega, by omega⟩ (by omega)
  have header1 : HeaderAt (view s1) info ⟨false, b.size⟩ := by
    refine ⟨by simp [flag1], ?_⟩
    rw [sizeKept]
    exact header.2
  have itself : BitVec.ofNat 32 info.toNat = info := by simp
  -- a rest too small for a header is left in the block
  by_cases whole : bytes.toNat + 6 ≤ b.size
  · obtain ⟨newInfo, s2, divided, valid2, place, left, right, keep2⟩ :=
      divide_done back top valid1 info ⟨false, b.size⟩ low high header1 bytes whole
    obtain ⟨s3, store3, valid3, flag3, keep3⟩ := setIsFree_eq back (by omega) valid2 newInfo
      (by omega) (by omega) 1#16
    have notNull : newInfo ≠ NULL := by
      rintro rfl
      have zero : NULL.toNat = 0 := rfl
      omega
    have third := toNat_add_two newInfo (by omega)
    refine ⟨s3, ?_, valid3, ?_, fun x inside outside => ?_⟩
    · simp [takeFirst, store1, divided, notNull, store3]
    · rw [carveFront, if_pos whole, tiles_cons, tiles_cons, itself]
      have there : BitVec.ofNat 32 (info.toNat + extent 6 ⟨false, bytes.toNat⟩) = newInfo := by
        simp only [extent]
        bv_omega
      rw [there]
      refine ⟨⟨?_, ?_⟩, ⟨by simp [flag3], ?_⟩, tiles_nil _ _⟩
      · rw [load16_kept (view s2) (view s3) info (by omega), load16_kept (view s1) (view s2) info
          (by omega), flag1]
        · simp
        · exact fun x first last => keep2 x ⟨by omega, by omega⟩ (by omega) (by omega)
        · exact fun x first last => keep3 x ⟨by omega, by omega⟩ (by omega)
      · rw [load32_kept (view s2) (view s3) _ (by omega), left]
        exact fun x first last => keep3 x ⟨by omega, by omega⟩ (by omega)
      · rw [load32_kept (view s2) (view s3) _ (by omega), right]
        exact fun x first last => keep3 x ⟨by omega, by omega⟩ (by omega)
    · unfold InBlock at outside
      rw [keep3 x inside (by omega), keep2 x inside (by omega) (by omega),
        keep1 x inside (by omega)]
  · have refused := divide_refused back top valid1 info ⟨false, b.size⟩ low high header1 bytes
      room (by simpa using whole)
    refine ⟨s1, by simp [takeFirst, store1, refused], valid1, ?_, fun x inside outside => ?_⟩
    · rw [carveFront, if_neg whole, tiles_cons, itself]
      exact ⟨header1, tiles_nil _ _⟩
    · unfold InBlock at outside
      exact keep1 x inside (by omega)

omit header in
theorem surplus_freed (bytes newInfo : Word) (lead : Nat)
    (surplus : bytes.toNat + 6 < b.size - 6 - lead)
    (place : newInfo.toNat = info.toNat + 6 + lead)
    (front : HeaderAt (view s) info ⟨true, lead⟩)
    (flag : ByteMemory.load16 (view s) newInfo = 0#16) :
    ∃ after, (do
        let info2 := newInfo + sizeofBlock + bytes
        let s ← setIsFree s info2 1#16
        let s ← setSize s info2 (info + sizeofBlock + BitVec.ofNat 32 b.size - info2 - sizeofBlock)
        setSize s newInfo bytes) = some after ∧ valid after ∧
      Tiles (view after) info.toNat (carveAligned bytes.toNat lead b) ∧
      ∀ x, Within lo hi x → ¬ InBlock info b x → view after x = view s x := by
  have place2 : (newInfo + sizeofBlock + bytes).toNat = info.toNat + 12 + lead + bytes.toNat := by
    unfold sizeofBlock
    bv_omega
  have rest := surplus_size info (newInfo + sizeofBlock + bytes) b.size lead bytes.toNat
    (by omega) (by omega) place2
  dsimp only
  generalize newInfo + sizeofBlock + bytes = info2 at place2 rest ⊢
  generalize info + sizeofBlock + BitVec.ofNat 32 b.size - info2 - sizeofBlock = left at rest ⊢
  obtain ⟨s1, store1, valid1, flag1, keep1⟩ := setIsFree_eq back (by omega) holds info2
    (by omega) (by omega) 1#16
  obtain ⟨s2, store2, valid2, size2, keep2⟩ := setSize_eq back (by omega) valid1 info2
    (by omega) (by omega) left
  obtain ⟨s3, store3, valid3, size3, keep3⟩ := setSize_eq back (by omega) valid2 newInfo
    (by omega) (by omega) bytes
  have third := toNat_add_two info2 (by omega)
  have keep : ∀ x, Within lo hi x → x.toNat < newInfo.toNat + 2 → view s3 x = view s x :=
    fun x inside early => by
      rw [keep3 x inside (by omega), keep2 x inside (by omega), keep1 x inside (by omega)]
  refine ⟨s3, by simp [store1, store2, store3], valid3, ?_, fun x inside outside => ?_⟩
  · rw [carveAligned, if_pos surplus, tiles_cons, tiles_cons, tiles_cons, word_at _ info rfl,
      word_at _ newInfo (by simp only [extent]; omega),
      word_at _ info2 (by simp only [extent]; omega)]
    refine ⟨?_, ⟨?_, by rw [size3]⟩, ⟨?_, ?_⟩, tiles_nil _ _⟩
    · exact header_kept _ _ _ _ (by omega)
        (fun x first last => keep x ⟨by omega, by omega⟩ (by omega)) front
    · rw [load16_kept (view s) (view s3) newInfo (by omega), flag]
      · simp
      · exact fun x first last => keep x ⟨by omega, by omega⟩ (by omega)
    · rw [load16_kept (view s1) (view s3) info2 (by omega), flag1]
      · simp
      · intro x first last
        rw [keep3 x ⟨by omega, by omega⟩ (by omega), keep2 x ⟨by omega, by omega⟩ (by omega)]
    · rw [load32_kept (view s2) (view s3) _ (by omega), size2, rest]
      exact fun x first last => keep3 x ⟨by omega, by omega⟩ (by omega)
  · unfold InBlock at outside
    rw [keep3 x inside (by omega), keep2 x inside (by omega), keep1 x inside (by omega)]

omit header in
theorem take_aligned_done (bytes newInfo : Word) (lead : Nat)
    (fits : lead + 6 + bytes.toNat ≤ b.size)
    (place : newInfo.toNat = info.toNat + 6 + lead)
    (front : HeaderAt (view s) info ⟨true, lead⟩)
    (behind : (ByteMemory.load32 (view s) (newInfo + 2#32)).toNat = b.size - 6 - lead) :
    ∃ after, takeAligned s newInfo bytes (info + sizeofBlock + BitVec.ofNat 32 b.size) =
        some after ∧ valid after ∧
      Tiles (view after) info.toNat (carveAligned bytes.toNat lead b) ∧
      ∀ x, Within lo hi x → ¬ InBlock info b x → view after x = view s x := by
  obtain ⟨s1, store1, valid1, flag1, keep1⟩ := setIsFree_eq back (by omega) holds newInfo
    (by omega) (by omega) 0#16
  have second := toNat_add_two newInfo (by omega)
  have size1 : ByteMemory.load32 (view s1) (newInfo + 2#32) =
      ByteMemory.load32 (view s) (newInfo + 2#32) :=
    load32_kept _ _ _ (by omega) fun x first last => keep1 x ⟨by omega, by omega⟩ (by omega)
  have front1 : HeaderAt (view s1) info ⟨true, lead⟩ :=
    header_kept _ _ _ _ (by omega)
      (fun x first last => keep1 x ⟨by omega, by omega⟩ (by omega)) front
  have read1 := size_eq back (by omega) valid1 newInfo (by omega) (by omega)
  rw [size1] at read1
  have limit : (bytes + sizeofBlock).toNat = bytes.toNat + 6 := by
    unfold sizeofBlock
    bv_omega
  by_cases surplus : bytes.toNat + 6 < b.size - 6 - lead
  · have larger : ByteMemory.load32 (view s) (newInfo + 2#32) > bytes + sizeofBlock := by
      rw [gt_iff_lt, BitVec.lt_def]
      omega
    obtain ⟨after, freed, valid2, tiles, keep2⟩ :=
      surplus_freed back top valid1 info b low high bytes newInfo lead surplus place front1 flag1
    refine ⟨after, ?_, valid2, tiles, fun x inside outside => ?_⟩
    · simpa [takeAligned, store1, read1, larger] using freed
    · rw [keep2 x inside outside]
      unfold InBlock at outside
      exact keep1 x inside (by omega)
  · have notLarger : ¬ ByteMemory.load32 (view s) (newInfo + 2#32) > bytes + sizeofBlock := by
      rw [gt_iff_lt, BitVec.lt_def]
      omega
    refine ⟨s1, by simp [takeAligned, store1, read1, notLarger], valid1, ?_,
      fun x inside outside => ?_⟩
    · rw [carveAligned, if_neg surplus, tiles_cons, tiles_cons, word_at _ info rfl,
        word_at _ newInfo (by simp only [extent]; omega)]
      exact ⟨front1, ⟨by simp [flag1], by rw [size1, behind]⟩, tiles_nil _ _⟩
    · unfold InBlock at outside
      exact keep1 x inside (by omega)

/-- One division of the aligned search that succeeds, followed by the taking
of the block behind it. -/
theorem divide_taken (marked : b.free = true) (bytes newBytes : Word)
    (fits : newBytes.toNat + 6 + bytes.toNat ≤ b.size) :
    ∃ newInfo divided after, divideBlock s info newBytes = some (newInfo, divided) ∧
      takeAligned divided newInfo bytes (info + sizeofBlock + BitVec.ofNat 32 b.size) =
        some after ∧
      newInfo.toNat = info.toNat + 6 + newBytes.toNat ∧ valid after ∧
      Tiles (view after) info.toNat (carveAligned bytes.toNat newBytes.toNat b) ∧
      ∀ x, Within lo hi x → ¬ InBlock info b x → view after x = view s x := by
  obtain ⟨newInfo, s1, divided, valid1, place, left, right, keep1⟩ :=
    divide_done back top holds info b low high header newBytes (by omega)
  have front : HeaderAt (view s1) info ⟨true, newBytes.toNat⟩ := by
    refine ⟨?_, left⟩
    rw [load16_kept (view s) (view s1) info (by omega)]
    · simpa [marked] using header.1
    · exact fun x first last => keep1 x ⟨by omega, by omega⟩ (by omega) (by omega)
  obtain ⟨after, taken, valid2, tiles, keep2⟩ := take_aligned_done back top valid1 info b low high
    bytes newInfo newBytes.toNat (by omega) place front right
  refine ⟨newInfo, s1, after, divided, taken, place, valid2, tiles, fun x inside outside => ?_⟩
  rw [keep2 x inside outside]
  unfold InBlock at outside
  exact keep1 x inside (by omega) (by omega)

/-- The aligned search either leaves the block alone, and then no page boundary
in it has room for the request, or takes it at a page boundary. The induction
is on the rounds; `earliest` carries that no suitable boundary was passed. -/
theorem aligned_search_result (marked : b.free = true) (bytes : Word)
    (fits : bytes.toNat ≤ b.size) (room : 6 ≤ b.size) (fuel : Nat) (next r : Word) (after : σ)
    (boundary : next.toNat % 4096 = 0)
    (earliest : ∀ q, q % 4096 = 0 → info.toNat + 12 < q →
      q + bytes.toNat ≤ info.toNat + 6 + b.size → next.toNat ≤ q)
    (returned : alignedSearch info bytes (info + sizeofBlock + BitVec.ofNat 32 b.size) fuel next s
      = some (r, after)) :
    (r = NULL ∧ after = s ∧ ¬ FitsAligned bytes.toNat info.toNat b) ∨
      ∃ lead, 0 < lead ∧ lead + 6 + bytes.toNat ≤ b.size ∧
        (info.toNat + 12 + lead) % 4096 = 0 ∧ r.toNat = info.toNat + 6 + lead ∧ valid after ∧
        Tiles (view after) info.toNat (carveAligned bytes.toNat lead b) ∧
        ∀ x, Within lo hi x → ¬ InBlock info b x → view after x = view s x := by
  induction fuel generalizing next with
  | zero => simp [alignedSearch] at returned
  | succ fuel ih =>
      have step : (next + 0x1000#32).toNat % 4096 = 0 := by bv_omega
      have later : (∀ q, q % 4096 = 0 → info.toNat + 12 < q →
          q + bytes.toNat ≤ info.toNat + 6 + b.size → next.toNat ≠ q) →
          ∀ q, q % 4096 = 0 → info.toNat + 12 < q →
            q + bytes.toNat ≤ info.toNat + 6 + b.size → (next + 0x1000#32).toNat ≤ q := by
        intro passed q multiple after room
        have := earliest q multiple after room
        have := passed q multiple after room
        bv_omega
      have two : (2#32 * sizeofBlock).toNat = 12 := rfl
      rw [alignedSearch] at returned
      split at returned
      next guard =>
        rw [ge_iff_le, BitVec.le_def] at guard
        split at returned
        next near =>
          rw [BitVec.le_def, two] at near
          refine ih (next + 0x1000#32) step (later ?_) returned
          intro q _ after _
          bv_omega
        next far =>
          rw [BitVec.le_def, two] at far
          have newBytes := behind_headers info next (by omega)
          -- behind the block the guard holds only because its difference has wrapped
          by_cases inside : (next - info).toNat ≤ b.size + 6
          · have place : next.toNat = info.toNat + (next - info).toNat := by bv_omega
            have left := block_left info next b (by omega) (by omega)
            obtain ⟨newInfo, s1, taken, divided, took, there, valid2, tiles, keep⟩ :=
              divide_taken back top holds info b low high header marked bytes
                (next - info - 2#32 * sizeofBlock) (by omega)
            have notNull : newInfo ≠ NULL := by
              rintro rfl
              have zero : NULL.toNat = 0 := rfl
              omega
            simp only [divided, Option.bind_eq_bind, Option.bind_some, ne_eq, notNull,
              not_false_eq_true, if_true, took, Option.some.injEq, Prod.mk.injEq] at returned
            obtain ⟨rfl, rfl⟩ := returned
            rw [newBytes] at there tiles
            exact Or.inr ⟨(next - info).toNat - 12, by omega, by omega, by omega, by omega, valid2,
              tiles, keep⟩
          · have refused := divide_refused back top holds info b low high header
              (next - info - 2#32 * sizeofBlock) room (by omega)
            simp only [refused, Option.bind_eq_bind, Option.bind_some, ne_eq, not_true_eq_false,
              if_false] at returned
            refine ih (next + 0x1000#32) step (later ?_) returned
            intro q _ after room
            bv_omega
      next done =>
        rw [ge_iff_le, BitVec.le_def] at done
        simp only [Option.some.injEq, Prod.mk.injEq] at returned
        refine Or.inl ⟨returned.1.symm, returned.2.symm, ?_⟩
        rintro ⟨q, multiple, after, room⟩
        have := earliest q multiple after room
        have left := block_left info next b (by omega) (by omega)
        omega

end Backed
end GargOS
