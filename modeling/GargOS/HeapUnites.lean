import GargOS.HeapRuns
import GargOS.Lib.FreeRuns

/-!
`unite_free_blocks` against what it is for: every maximal run of neighbouring
free blocks becomes one block, and nothing else changes.
-/

namespace GargOS
open ByteMemory AddressSpace Tiling

structure Unites {σ : Type} [PagedSpace σ] (valid : σ → Prop) (start heapSize : Word) (s after : σ)
    (bs bs' : List Segment) : Prop where
  holds : valid after
  tiles : Tiles (view after) start.toNat bs'
  total : span 6 bs' = heapSize.toNat
  runs : bs' = (runs bs).map (joined 6)
  covers : ∀ before run behind, Tiling.runs bs = before ++ run :: behind →
    (start.toNat + span 6 before.flatten, joined 6 run) ∈ layout 6 start.toNat bs' ∧
      extent 6 (joined 6 run) = span 6 run
  used : (layout 6 start.toNat bs').filter used = (layout 6 start.toNat bs).filter used
  separated : Separated bs'
  kept : UsedKept (view s) (view after) start.toNat bs

section Unite
variable {σ : Type} [PagedSpace σ] {start heapSize : Word} {valid : σ → Prop}
  (back : Backs start.toNat (start.toNat + heapSize.toNat) valid)
  (reach : start.toNat + heapSize.toNat ≤ 2 ^ 32) {s : σ} (holds : valid s)
include back reach holds

/-- Where no two free blocks are neighbours every round passes its block. -/
theorem unite_from_separated (fuel : Nat) (done rest : List Segment) (prev : Segment)
    (total : span 6 (done ++ prev :: rest) = heapSize.toNat)
    (tiles : Tiles (view s) start.toNat (done ++ prev :: rest)) (apart : Separated (prev :: rest))
    (i j : Word) (before : j.toNat = span 6 done) (here : i.toNat = span 6 (done ++ [prev]))
    (enough : rest.length < fuel) :
    uniteFreeBlocksFrom start heapSize fuel i (start + j) s = some s := by
  obtain ⟨fuel, rfl⟩ : ∃ less, fuel = less + 1 := ⟨fuel - 1, by omega⟩
  induction rest generalizing fuel done prev i j with
  | nil =>
      have ended : ¬ i < heapSize := by
        rw [BitVec.lt_def, here, total]
        omega
      rw [uniteFreeBlocksFrom, if_neg ended]
  | cons b post ih =>
      rw [List.length_cons] at enough
      obtain ⟨fuel, rfl⟩ : ∃ less, fuel = less + 1 := ⟨fuel - 1, by omega⟩
      have read := block_read back reach holds (done ++ [prev]) post b (by simpa using total)
        (by simpa using tiles) i here
      have readPrev := block_read back reach holds done (b :: post) prev total tiles j before
      rw [Separated, List.isChain_cons_cons] at apart
      rw [unite_passes read readPrev (fuel + 1) fun both => apart.1 both.symm]
      exact ih (done ++ [prev]) b (by simpa using total) (by simpa using tiles) apart.2 _ i here
        (read.next_span here) fuel (by omega)

variable (proc : Process) (base : proc.heapStackBoundary = start) (size_ : proc.heapSize = heapSize)
include base size_

theorem unite_separated (b : Segment) (rest : List Segment)
    (total : span 6 (b :: rest) = heapSize.toNat) (tiles : Tiles (view s) start.toNat (b :: rest))
    (apart : Separated (b :: rest)) (fuel : Nat) (enough : rest.length < fuel) :
    uniteFreeBlocks fuel s proc = some s := by
  have read := block_read back reach holds [] rest b total tiles 0#32 rfl
  have readSize := read.readSize
  rw [BitVec.add_zero] at readSize
  have next : (0#32 + (sizeofBlock + BitVec.ofNat 32 b.size)).toNat = span 6 ([] ++ [b]) :=
    read.next_span rfl
  rw [BitVec.zero_add, BitVec.add_comm] at next
  have result := unite_from_separated back reach holds fuel [] rest b total tiles apart
    (BitVec.ofNat 32 b.size + sizeofBlock) 0#32 rfl next enough
  rw [BitVec.add_zero] at result
  simp only [uniteFreeBlocks, base, size_, readSize, Option.bind_eq_bind, Option.bind_some, result]

/-- `unite_free_blocks` returns, has joined the maximal runs of free blocks and
has nothing left to do. An empty heap has no header, but one is read all the
same. -/
theorem unite_exact (bs : List Segment) (total : span 6 bs = heapSize.toNat)
    (tiles : Tiles (view s) start.toNat bs) (mapped : bs = [] → (size s start).isSome)
    (fuel : Nat) (enough : bs.length < fuel) :
    ∃ after, uniteFreeBlocks fuel s proc = some after ∧
      Unites valid start heapSize s after bs (coalesce 6 bs) ∧
      ∀ more, bs.length < more → uniteFreeBlocks more after proc = some after := by
  have covers : ∀ before run behind, runs bs = before ++ run :: behind →
      (start.toNat + span 6 before.flatten, joined 6 run) ∈
          layout 6 start.toNat (coalesce 6 bs) ∧ extent 6 (joined 6 run) = span 6 run := by
    intro before run behind split
    rw [coalesce_runs]
    refine ⟨joined_place 6 _ bs before behind run split, extent_joined 6 run ?_⟩
    rintro rfl
    apply List.nil_notMem_splitBy bothFree bs
    rw [Tiling.runs] at split
    rw [split]
    exact List.mem_append_right before List.mem_cons_self
  cases bs with
  | nil =>
      obtain ⟨n, header⟩ := Option.isSome_iff_exists.mp (mapped rfl)
      have returns : ∀ more, 0 < more → uniteFreeBlocks more s proc = some s := by
        intro more positive
        obtain ⟨more, rfl⟩ : ∃ less, more = less + 1 := ⟨more - 1, by omega⟩
        have ended : ¬ n + sizeofBlock < heapSize := by
          rw [BitVec.lt_def, ← total]
          exact Nat.not_lt_zero _
        simp only [uniteFreeBlocks, base, size_, header, Option.bind_eq_bind, Option.bind_some,
          uniteFreeBlocksFrom, if_neg ended]
      exact ⟨s, returns fuel enough, ⟨holds, tiles, total, rfl, covers, rfl, List.isChain_nil,
        fun _ _ _ _ _ _ => rfl⟩, returns⟩
  | cons b rest =>
      rcases unite_result back reach holds proc base size_ fuel (b :: rest) (List.cons_ne_nil b rest)
        total tiles with ⟨short, _⟩ | ⟨after, done, next, tiles', kept⟩
      · omega
      · have total' : span 6 (coalesce 6 (b :: rest)) = heapSize.toNat := by
          rw [span_coalesce, total]
        have apart := coalesce_separated 6 (b :: rest)
        refine ⟨after, done, ⟨next, tiles', total', coalesce_runs 6 _, covers,
          used_coalesce 6 _ _, apart, kept⟩, fun more long => ?_⟩
        have short := coalesce_length 6 (b :: rest)
        obtain ⟨n, later, shape⟩ := coalesce_from_head 6 b rest
        change coalesce 6 (b :: rest) = _ at shape
        rw [shape] at total' tiles' apart short
        exact unite_separated back reach next proc base size_ _ later total' tiles' apart more
          (by rw [List.length_cons] at short; omega)

end Unite

theorem unite_exact_three_blocks : ∃ (s : MappedMemory) (proc : Process) (after : MappedMemory),
    uniteFreeBlocks 4 s proc = some after ∧
      Unites (fun _ => True) 0x1000000#32 32#32 s after [⟨true, 0⟩, ⟨true, 10⟩, ⟨false, 4⟩]
        [⟨true, 16⟩, ⟨false, 4⟩] ∧
      ∀ more, 3 < more → uniteFreeBlocks more after proc = some after := by
  let proc : Process :=
    { (default : Process) with heapStackBoundary := 0x1000000#32, heapSize := 32#32 }
  let headers : ByteMemory.Memory :=
    ByteMemory.store16 (ByteMemory.store32 (ByteMemory.store16 (ByteMemory.store32
      (fun _ => 1#8) 0x1000002#32 0#32) 0x1000016#32 0#16) 0x1000018#32 4#32) 0x1000006#32 1#16
  let s : MappedMemory := ⟨ByteMemory.store32 headers 0x1000008#32 10#32⟩
  have tiles : Tiles (view s) (0x1000000#32).toNat [⟨true, 0⟩, ⟨true, 10⟩, ⟨false, 4⟩] := by
    unfold Tiles HeaderAt
    decide +kernel
  have back := heap_backs (mapped_memory_backing 0x1000000#32 NULL) 32#32 (by decide)
  obtain ⟨after, returned, unites, again⟩ := unite_exact back (by decide) (s := s) trivial proc rfl rfl
    [⟨true, 0⟩, ⟨true, 10⟩, ⟨false, 4⟩] (by decide) tiles (by simp) 4 (by decide)
  exact ⟨s, proc, after, returned, unites, again⟩

end GargOS
