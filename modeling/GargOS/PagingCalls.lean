import GargOS.PagingTables

/-!
The frame that `first_free_frame` finds, and the page that `alloc_page` maps to
it.
-/

namespace GargOS
open ByteMemory Pages

/-! The search of `first_free_frame`. -/

theorem bit_clear (w : Word) (k : Nat) (inWord : k < 32) :
    w &&& (1#32 <<< k) = 0#32 ↔ w.getLsbD k = false := by
  rw [← BitVec.twoPow_eq]
  exact Bitsets.and_two_pow_zero_iff w k inWord

theorem first_free_bit_result (word : Word) (rounds j : Nat) (ends : j + rounds = 32) :
    (firstFreeBit word rounds j = none ∧ ∀ k, j ≤ k → k < 32 → word.getLsbD k = true) ∨
    ∃ k, j ≤ k ∧ k < 32 ∧ word.getLsbD k = false ∧ (∀ i, j ≤ i → i < k → word.getLsbD i = true) ∧
      firstFreeBit word rounds j = some k := by
  induction rounds generalizing j with
  | zero => exact Or.inl ⟨rfl, fun k first last => by omega⟩
  | succ rounds ih =>
      have clear := bit_clear word j (by omega)
      rw [firstFreeBit]
      by_cases free : word.getLsbD j = false
      · refine Or.inr ⟨j, Nat.le_refl j, by omega, free, fun i first last => by omega, ?_⟩
        rw [if_pos (clear.mpr free)]
      · have set : word.getLsbD j = true := by
          cases bit : word.getLsbD j with
          | true => rfl
          | false => exact absurd bit free
        rw [if_neg fun zero => free (clear.mp zero)]
        rcases ih (j + 1) (by omega) with ⟨none, all⟩ | ⟨k, first, last, found, before, result⟩
        · refine Or.inl ⟨none, fun k lower upper => ?_⟩
          rcases Nat.eq_or_lt_of_le lower with rfl | later
          · exact set
          · exact all k later upper
        · refine Or.inr ⟨k, by omega, last, found, fun i lower upper => ?_, result⟩
          rcases Nat.eq_or_lt_of_le lower with rfl | later
          · exact set
          · exact before i later upper

theorem full_word (word : Word) : word = 0xFFFFFFFF#32 ↔ ∀ j < 32, word.getLsbD j = true := by
  have ones : ∀ j < 32, (0xFFFFFFFF#32 : Word).getLsbD j = true := by decide
  constructor
  · rintro rfl
    exact ones
  · intro all
    apply BitVec.eq_of_getLsbD_eq
    intro j bound
    rw [all j bound, ones j bound]

theorem first_free_from_result (s : Paging) (rounds i : Nat) (ends : i + rounds = bitsetWords) :
    (firstFreeFrom s rounds i = none ∧ ∀ n, i * 32 ≤ n → n < 2 ^ 20 → s.bit n = true) ∨
    ∃ n, i * 32 ≤ n ∧ n < 2 ^ 20 ∧ s.bit n = false ∧ (∀ k, i * 32 ≤ k → k < n → s.bit k = true) ∧
      firstFreeFrom s rounds i = some (BitVec.ofNat 32 (4096 * n)) := by
  unfold bitsetWords at ends
  induction rounds generalizing i with
  | zero => exact Or.inl ⟨rfl, fun n first last => by omega⟩
  | succ rounds ih =>
      have bound : i < 32768 := by omega
      have bits := bitset_word s i bound
      rw [firstFreeFrom]
      generalize s.load (element s.frames (BitVec.ofNat 32 i)) = word at bits
      -- what the next words answer if this one is full
      have further : (∀ j < 32, word.getLsbD j = true) →
          (firstFreeFrom s rounds (i + 1) = none ∧ ∀ n, i * 32 ≤ n → n < 2 ^ 20 → s.bit n = true) ∨
          ∃ n, i * 32 ≤ n ∧ n < 2 ^ 20 ∧ s.bit n = false ∧
            (∀ k, i * 32 ≤ k → k < n → s.bit k = true) ∧
            firstFreeFrom s rounds (i + 1) = some (BitVec.ofNat 32 (4096 * n)) := by
        intro all
        have here : ∀ n, i * 32 ≤ n → n < (i + 1) * 32 → s.bit n = true := by
          intro n first last
          have split : n = i * 32 + (n - i * 32) := by omega
          rw [split, ← bits (n - i * 32) (by omega)]
          exact all _ (by omega)
        rcases ih (i + 1) (by omega) with ⟨none, set⟩ | ⟨n, first, last, free, before, found⟩
        · refine Or.inl ⟨none, fun n lower upper => ?_⟩
          by_cases word : n < (i + 1) * 32
          · exact here n lower word
          · exact set n (by omega) upper
        · refine Or.inr ⟨n, by omega, last, free, fun k lower upper => ?_, found⟩
          by_cases word : k < (i + 1) * 32
          · exact here k lower word
          · exact before k (by omega) upper
      by_cases full : word = 0xFFFFFFFF#32
      · rw [if_neg (not_not.mpr full)]
        exact further ((full_word word).mp full)
      · rw [if_pos full]
        rcases first_free_bit_result word 32 0 rfl with ⟨none, all⟩ | ⟨j, _, last, free, before, found⟩
        · exact absurd ((full_word word).mpr fun j bound => all j (Nat.zero_le j) bound) full
        · rw [found]
          refine Or.inr ⟨i * 32 + j, by omega, by omega, ?_, fun k lower upper => ?_, ?_⟩
          · rw [← bits j last, free]
          · have split : k = i * 32 + (k - i * 32) := by omega
            rw [split, ← bits (k - i * 32) (by omega)]
            exact before _ (Nat.zero_le _) (by omega)
          · dsimp only
            congr 1
            bv_omega

/-- The least frame whose bit is clear. -/
def FirstFree (s : Paging) (n : Nat) : Prop :=
  n < 2 ^ 20 ∧ s.bit n = false ∧ ∀ k < n, s.bit k = true

theorem first_free_unique (s : Paging) (n k : Nat) (first : FirstFree s n) (second : FirstFree s k) :
    n = k := by
  rcases Nat.lt_trichotomy n k with before | same | behind
  · have set := second.2.2 n before
    rw [first.2.1] at set
    simp at set
  · exact same
  · have set := first.2.2 k behind
    rw [second.2.1] at set
    simp at set

theorem first_free_frame_result (s : Paging) :
    (firstFreeFrame s = none ∧ ∀ n < 2 ^ 20, s.bit n = true) ∨
    ∃ n, FirstFree s n ∧ firstFreeFrame s = some (BitVec.ofNat 32 (4096 * n)) := by
  rcases first_free_from_result s bitsetWords 0 (Nat.zero_add _) with
    ⟨none, all⟩ | ⟨n, _, bound, free, before, found⟩
  · exact Or.inl ⟨none, fun n bound => all n (Nat.zero_le _) bound⟩
  · exact Or.inr ⟨n, ⟨bound, free, fun k less => before k (Nat.zero_le _) less⟩, found⟩

theorem first_free_exists (s : Paging) (n : Nat) (bound : n < 2 ^ 20) (clear : s.bit n = false) :
    ∃ i, FirstFree s i := by
  rcases first_free_frame_result s with ⟨_, all⟩ | ⟨i, first, _⟩
  · rw [all n bound] at clear
    simp at clear
  · exact ⟨i, first⟩

theorem first_free_same (s s' : Paging) (same : ∀ n < 2 ^ 20, s'.bit n = s.bit n) (n : Nat)
    (first : FirstFree s n) : FirstFree s' n :=
  ⟨first.1, by rw [same n first.1]; exact first.2.1, fun k less => by
    rw [same k (Nat.lt_trans less first.1)]
    exact first.2.2 k less⟩

theorem first_free_found (s : Paging) (n : Nat) (first : FirstFree s n) :
    firstFreeFrame s = some (BitVec.ofNat 32 (4096 * n)) := by
  rcases first_free_frame_result s with ⟨_, all⟩ | ⟨k, other, found⟩
  · have set := all n first.1
    rw [first.2.1] at set
    simp at set
  · rw [first_free_unique s n k first other]
    exact found

theorem frame_toNat (n : Nat) (bound : n < 2 ^ 20) : (BitVec.ofNat 32 (4096 * n)).toNat = 4096 * n := by
  rw [BitVec.toNat_ofNat]
  omega

theorem frame_is_page (n : Nat) (bound : n < 2 ^ 20) : IsPage (BitVec.ofNat 32 (4096 * n)) := by
  unfold IsPage
  rw [frame_toNat n bound]
  omega

theorem is_frame_set_bit (s : Paging) (n : Nat) (bound : n < 2 ^ 20) :
    isFrameSet s (BitVec.ofNat 32 (4096 * n)) = s.bit n := by
  have frame := frame_toNat n bound
  have index : INDEX_FROM_ADDRESS (BitVec.ofNat 32 (4096 * n)) = BitVec.ofNat 32 (n / 32) := by
    apply BitVec.eq_of_toNat_eq
    rw [index_from_address, frame, BitVec.toNat_ofNat]
    omega
  have offset : (OFFSET_FROM_ADDRESS (BitVec.ofNat 32 (4096 * n))).toNat = n % 32 := by
    rw [offset_from_address, frame]
    omega
  have word := bitset_word s (n / 32) (by omega) (n % 32) (Nat.mod_lt _ (by decide))
  have back : n / 32 * 32 + n % 32 = n := by omega
  rw [back] at word
  have clear := bit_clear (s.load (element s.frames (BitVec.ofNat 32 (n / 32)))) (n % 32)
    (Nat.mod_lt _ (by decide))
  rw [word] at clear
  unfold isFrameSet
  rw [index, BitVec.shiftLeft_eq', offset]
  cases bit : s.bit n with
  | false => exact decide_eq_false (not_not.mpr (clear.mpr bit))
  | true =>
      refine decide_eq_true fun zero => ?_
      rw [clear.mp zero] at bit
      simp at bit

/-! What `alloc_page` does. -/

structure Enters (s s' : Paging) (d : Word) (page n : Nat) (flags : Word) : Prop where
  keeps : Keeps s s' (some (d, page))
  present : Present (s'.entry d (page / 1024))
  pte : s'.pte d page = BitVec.ofNat 32 (4096 * n) ||| flags
  bits : ∀ i < 2 ^ 20, s'.bit i = (s.bit i || decide (i = n))
  mappings : s'.history.mappings = s.history.mappings
  place : s'.placeAddr.toNat =
    s.placeAddr.toNat + (if Present (s.entry d (page / 1024)) then 0 else 4096)
  entries : ∀ d', s.Listed d' → ∀ t < 1024, ¬ (d' = d ∧ t = page / 1024) → s'.entry d' t = s.entry d' t
  ptes : ∀ d', s.Listed d' → ∀ page' < 2 ^ 20, Present (s.entry d' (page' / 1024)) →
    (d', page') ≠ (d, page) → s'.pte d' page' = s.pte d' page'
  cleared : ¬ Present (s.entry d (page / 1024)) → ∀ page', page' / 1024 = page / 1024 → page' ≠ page →
    s'.pte d page' = 0#32

/-- The end of `alloc_page_pr` once the frame's bit is set. -/
def showFrame (s : Paging) (d : Word) (page : Nat) (frame flags : Word) : Paging :=
  let s := if d ≠ s.kernelDirectory then addFrameToKernelDir s frame else s
  { s with history := { s.history with mappings := ⟨d, page, frame, flags⟩ :: s.history.mappings } }

structure Maps (s s' : Paging) (d v : Word) (n : Nat) (isWriteable isKernel : Word) : Prop where
  keeps : Keeps s s' (some (d, v.toNat / 4096))
  present : Present (s'.entry d (v.toNat / 4096 / 1024))
  pte : s'.pte d (v.toNat / 4096) = BitVec.ofNat 32 (4096 * n) ||| pageFlags isWriteable isKernel
  bits : ∀ i < 2 ^ 20, s'.bit i = (s.bit i || decide (i = n))
  mappings : s'.history.mappings =
    ⟨d, v.toNat / 4096, BitVec.ofNat 32 (4096 * n), pageFlags isWriteable isKernel⟩ ::
      s.history.mappings
  place : s'.placeAddr.toNat = s.placeAddr.toNat +
    (if Present (s.entry d (v.toNat / 4096 / 1024)) then 0 else 4096) +
    (if d = s.kernelDirectory ∨ Present (s.entry s.kernelDirectory (n / 1024)) then 0 else 4096)
  entries : ∀ d', s.Listed d' → d' ≠ s.kernelDirectory ∨ d = s.kernelDirectory → ∀ t < 1024,
    ¬ (d' = d ∧ t = v.toNat / 4096 / 1024) → s'.entry d' t = s.entry d' t
  ptes : ∀ d', s.Listed d' → d' ≠ s.kernelDirectory ∨ d = s.kernelDirectory → ∀ page < 2 ^ 20,
    Present (s.entry d' (page / 1024)) → (d', page) ≠ (d, v.toNat / 4096) → s'.pte d' page = s.pte d' page
  cleared : ¬ Present (s.entry d (v.toNat / 4096 / 1024)) → ∀ page < 2 ^ 20,
    page / 1024 = v.toNat / 4096 / 1024 → page ≠ v.toNat / 4096 → s'.pte d page = 0#32

theorem map_page_enters (s : Paging) (layout : Layout s) (d v isWriteable isKernel : Word) (n : Nat)
    (bound : n < 2 ^ 20) (listed : s.Listed d) (present : Present (s.entry d (v.toNat / 4096 / 1024))) :
    ∃ s', mapPage s d v (BitVec.ofNat 32 (4096 * n)) isWriteable isKernel =
        showFrame s' d (v.toNat / 4096) (BitVec.ofNat 32 (4096 * n)) (pageFlags isWriteable isKernel) ∧
      Enters s s' d (v.toNat / 4096) n (pageFlags isWriteable isKernel) := by
  have frame := frame_toNat n bound
  have inDirectory : v.toNat / 4096 / 1024 < 1024 := by omega
  have inSpace : v.toNat / 4096 < 2 ^ 20 := by omega
  have flags := table_flags_small isWriteable isKernel
  have stored := store_page s layout d v
    (BitVec.ofNat 32 (4096 * n) ||| pageFlags isWriteable isKernel) listed present
  unfold mapPage
  dsimp only
  generalize s.store (element (pageOf (s.load (element d (TABLE_INDEX_FROM_VIRTUAL_ADDRESS v))))
    (PAGE_INDEX_FROM_VIRTUAL_ADDRESS v))
    (BitVec.ofNat 32 (4096 * n) ||| pageFlags isWriteable isKernel) = s1 at stored ⊢
  have more : ∀ d', s.Listed d' → s1.Listed d' := fun d' => (listed_same s s1 stored.keeps.roots d').mpr
  obtain ⟨keeps2, entries2, ptes2, bits2⟩ := write_bitset_result s1 stored.keeps.layout
    (BitVec.ofNat 32 (4096 * n))
  rw [frame, Nat.mul_div_cancel_left n (by decide)] at bits2
  have table1 : Present (s1.entry d (v.toNat / 4096 / 1024)) := by
    rw [stored.entries d listed _ inDirectory]
    exact present
  refine ⟨writeBitset s1 (BitVec.ofNat 32 (4096 * n)), rfl,
    keeps_trans s s1 _ _ _ stored.keeps keeps2 (Or.inl rfl), ?_, ?_, ?_, ?_, ?_, ?_, ?_,
    fun absent => absurd present absent⟩
  · rw [entries2 d (more d listed) _ inDirectory]
    exact table1
  · rw [ptes2 d (more d listed) _ inSpace table1]
    exact stored.pte
  · intro i less
    rw [bits2 i less, stored.bits i less]
  · show s1.history.mappings = _
    rw [stored.history]
  · show s1.placeAddr.toNat = _
    rw [stored.place, if_pos present, Nat.add_zero]
  · intro d' inOld t less _
    rw [entries2 d' (more d' inOld) t less, stored.entries d' inOld t less]
  · intro d' inOld page' less inTable different
    have inTable1 : Present (s1.entry d' (page' / 1024)) := by
      rw [stored.entries d' inOld _ (by omega)]
      exact inTable
    rw [ptes2 d' (more d' inOld) page' less inTable1, stored.ptes d' inOld page' less inTable different]

theorem enters_installed (s s1 s' : Paging) (layout : Layout s) (d : Word) (page n : Nat)
    (flags tableFlags : Word) (listed : s.Listed d) (inSpace : page < 2 ^ 20)
    (absent : ¬ Present (s.entry d (page / 1024))) (small : tableFlags.toNat < 4096)
    (room : s.placeAddr.toNat + 4096 ≤ 2 ^ 31) (installs : Installs s s1 d (page / 1024) tableFlags)
    (zero : ∀ i < 1024, load32 s1.mem (cell s.placeAddr i) = 0#32)
    (present : Present (s1.entry d (page / 1024))) (enters : Enters s1 s' d page n flags) :
    Enters s s' d page n flags := by
  obtain ⟨keeps1, bits1, entries1, ptes1⟩ := installs_result s layout _ _ _ _ listed (by omega) absent
    small room installs
  have more : ∀ d', s.Listed d' → s1.Listed d' := fun d' => (listed_same s s1 installs.roots d').mpr
  have place := enters.place
  rw [if_pos present] at place
  refine ⟨keeps_trans s s1 s' _ _ (keeps_weaken s s1 _ keeps1) enters.keeps (Or.inr rfl), enters.present,
    enters.pte, fun i less => ?_, enters.mappings.trans installs.mappings, ?_, ?_, ?_,
    fun _ page' same different => ?_⟩
  · rw [enters.bits i less, bits1 i less]
  · rw [place, installs.place, if_neg absent]
    bv_omega
  · intro d' inOld t less different
    rw [enters.entries d' (more d' inOld) t less different]
    exact entries1 d' inOld t less different
  · intro d' inOld page' less inTable different
    have here : ¬ (d' = d ∧ page' / 1024 = page / 1024) := by
      rintro ⟨rfl, same⟩
      exact absent (same ▸ inTable)
    have inTable1 : Present (s1.entry d' (page' / 1024)) := by
      rw [entries1 d' inOld _ (by omega) here]
      exact inTable
    rw [enters.ptes d' (more d' inOld) page' less inTable1 different, ptes1 d' inOld page' less inTable]
  · rw [enters.ptes d (more d listed) page' (by omega) (same ▸ present) fun both =>
      different (Prod.mk.inj both).2, Paging.pte, same, installs.entry, page_of_flagged _ _ layout.aligned small]
    exact zero _ (Nat.mod_lt _ (by decide))

theorem frame_is_set_clear (s : Paging) (n : Nat) (bound : n < 2 ^ 20) (clear : s.bit n = false) :
    ¬ isFrameSet s (BitVec.ofNat 32 (4096 * n)) = true := by
  rw [is_frame_set_bit s n bound, clear]
  simp

/-! `alloc_page_pr` on a frame that is free, by whether the table is there. -/

theorem alloc_page_pr_made (s : Paging) (d v isWriteable isKernel : Word) (n : Nat) (bound : n < 2 ^ 20)
    (clear : s.bit n = false) (absent : ¬ Present (s.entry d (v.toNat / 4096 / 1024))) (i : Nat)
    (first : FirstFree (installTable s d (TABLE_INDEX_FROM_VIRTUAL_ADDRESS v) isWriteable isKernel) i) :
    allocPagePr s d v (BitVec.ofNat 32 (4096 * n)) isWriteable isKernel =
      some (BitVec.ofNat 32 (4096 * i),
        mapPage (installTable s d (TABLE_INDEX_FROM_VIRTUAL_ADDRESS v) isWriteable isKernel) d v
          (BitVec.ofNat 32 (4096 * i)) isWriteable isKernel) := by
  have valid : BitVec.ofNat 32 (4096 * i) ≠ 0xFFFFFFFF#32 := by
    intro same
    have value := congrArg BitVec.toNat same
    rw [frame_toNat i first.1] at value
    have odd : (0xFFFFFFFF#32).toNat = 4294967295 := rfl
    omega
  rw [← load_entry] at absent
  simp only [allocPagePr, Option.bind_eq_bind]
  rw [if_neg (frame_is_set_clear s n bound clear), if_pos (not_not.mp absent), first_free_found _ i first,
    Option.bind_some, if_neg valid]

theorem alloc_page_pr_there (s : Paging) (d v isWriteable isKernel : Word) (n : Nat) (bound : n < 2 ^ 20)
    (clear : s.bit n = false) (present : Present (s.entry d (v.toNat / 4096 / 1024))) :
    allocPagePr s d v (BitVec.ofNat 32 (4096 * n)) isWriteable isKernel =
      some (BitVec.ofNat 32 (4096 * n), mapPage s d v (BitVec.ofNat 32 (4096 * n)) isWriteable isKernel) := by
  rw [← load_entry] at present
  simp only [allocPagePr]
  rw [if_neg (frame_is_set_clear s n bound clear), if_neg present]

/-- `alloc_page_pr` enters the page with the frame it was asked for, or where it
has to make the table with the first free one, and then shows that frame to the
kernel. -/
theorem alloc_page_pr_enters (s : Paging) (layout : Layout s) (room : s.placeAddr.toNat + 8192 ≤ 2 ^ 31)
    (d v isWriteable isKernel : Word) (listed : s.Listed d) (n : Nat) (bound : n < 2 ^ 20)
    (clear : s.bit n = false) :
    ∃ i s', allocPagePr s d v (BitVec.ofNat 32 (4096 * n)) isWriteable isKernel =
        some (BitVec.ofNat 32 (4096 * i), showFrame s' d (v.toNat / 4096) (BitVec.ofNat 32 (4096 * i))
          (pageFlags isWriteable isKernel)) ∧
      i < 2 ^ 20 ∧ (Present (s.entry d (v.toNat / 4096 / 1024)) → i = n) ∧
      (¬ Present (s.entry d (v.toNat / 4096 / 1024)) → FirstFree s i) ∧
      Enters s s' d (v.toNat / 4096) i (pageFlags isWriteable isKernel) ∧
      (¬ Present (s.entry d (v.toNat / 4096 / 1024)) →
        s'.entry d (v.toNat / 4096 / 1024) = s.placeAddr ||| tableFlags isWriteable isKernel) := by
  have inDirectory : v.toNat / 4096 / 1024 < 1024 := by omega
  have index := table_index_toNat v
  have flags := table_flags_small isWriteable isKernel
  rcases Classical.em (Present (s.entry d (v.toNat / 4096 / 1024))) with present | absent
  · obtain ⟨s', mapped, enters⟩ := map_page_enters s layout d v isWriteable isKernel n bound listed
      present
    refine ⟨n, s', ?_, bound, fun _ => rfl, fun absent => absurd present absent, enters,
      fun absent => absurd present absent⟩
    rw [alloc_page_pr_there s d v isWriteable isKernel n bound clear present, mapped]
  · obtain ⟨installs, zero⟩ := install_table_installs s layout d (TABLE_INDEX_FROM_VIRTUAL_ADDRESS v)
      isWriteable isKernel listed (by omega)
    rw [index] at installs
    obtain ⟨keeps1, bits1, _, _⟩ := installs_result s layout _ _ _ _ listed inDirectory absent
      flags.1 (by omega) installs
    obtain ⟨i, first⟩ := first_free_exists s n bound clear
    have returned := alloc_page_pr_made s d v isWriteable isKernel n bound clear absent i
      (first_free_same s _ bits1 i first)
    generalize installTable s d (TABLE_INDEX_FROM_VIRTUAL_ADDRESS v) isWriteable isKernel = s1 at *
    have present1 : Present (s1.entry d (v.toNat / 4096 / 1024)) := by
      rw [installs.entry, present_flagged _ _ layout.aligned]
      exact flags.2.2
    have listed1 := (listed_same s s1 installs.roots d).mpr listed
    obtain ⟨s', mapped, enters⟩ := map_page_enters s1 keeps1.layout d v isWriteable isKernel i first.1
      listed1 present1
    rw [mapped] at returned
    refine ⟨i, s', returned, first.1, fun present => absurd present absent, fun _ => first,
      enters_installed s s1 s' layout d _ i _ _ listed (by omega) absent flags.1
        (by omega) installs zero present1 enters, fun _ => ?_⟩
    rw [enters.keeps.entries d listed1 _ inDirectory present1]
    exact installs.entry

theorem first_granted (s : Paging) (table : Prop) (i n : Nat) (first : FirstFree s n) (asked : table → i = n)
    (made : ¬ table → FirstFree s i) : i = n := by
  by_cases present : table
  · exact asked present
  · exact first_free_unique s i n (made present) first

theorem alloc_page_first (s : Paging) (d v isWriteable isKernel : Word) (n : Nat) (first : FirstFree s n) :
    allocPage s d v isWriteable isKernel =
      allocPagePr s d v (BitVec.ofNat 32 (4096 * n)) isWriteable isKernel := by
  rw [allocPage, first_free_found s n first]
  rfl

theorem alloc_page_enters (s : Paging) (layout : Layout s) (room : s.placeAddr.toNat + 8192 ≤ 2 ^ 31)
    (d v isWriteable isKernel : Word) (listed : s.Listed d) (n : Nat) (first : FirstFree s n) :
    ∃ s', allocPage s d v isWriteable isKernel = some (BitVec.ofNat 32 (4096 * n), showFrame s' d
        (v.toNat / 4096) (BitVec.ofNat 32 (4096 * n)) (pageFlags isWriteable isKernel)) ∧
      Enters s s' d (v.toNat / 4096) n (pageFlags isWriteable isKernel) ∧
      (¬ Present (s.entry d (v.toNat / 4096 / 1024)) →
        s'.entry d (v.toNat / 4096 / 1024) = s.placeAddr ||| tableFlags isWriteable isKernel) := by
  obtain ⟨i, s', returned, _, asked, made, enters, table⟩ := alloc_page_pr_enters s layout room d v
    isWriteable isKernel listed n first.1 first.2.1
  obtain rfl := first_granted s _ i n first asked made
  exact ⟨s', (alloc_page_first s d v isWriteable isKernel i first).trans returned, enters, table⟩

/-- Showing the frame of the new page: only a directory of a process has it entered
in the kernel's, which may take a table. -/
theorem show_frame_result (s middle : Paging) (room : s.placeAddr.toNat + 8192 ≤ 2 ^ 31)
    (d v flags : Word) (n : Nat) (bound : n < 2 ^ 20)
    (enters : Enters s middle d (v.toNat / 4096) n flags) :
    ∃ s3, (if d ≠ middle.kernelDirectory then addFrameToKernelDir middle (BitVec.ofNat 32 (4096 * n))
        else middle) = s3 ∧ Keeps middle s3 none ∧ (∀ i < 2 ^ 20, s3.bit i = middle.bit i) ∧
      s3.placeAddr.toNat = middle.placeAddr.toNat +
        (if d = s.kernelDirectory ∨ Present (s.entry s.kernelDirectory (n / 1024)) then 0 else 4096) ∧
      s3.history.mappings = middle.history.mappings ∧
      (∀ d', middle.Listed d' → d' ≠ s.kernelDirectory ∨ d = s.kernelDirectory → ∀ t < 1024,
        s3.entry d' t = middle.entry d' t) ∧
      (∀ d', middle.Listed d' → d' ≠ s.kernelDirectory ∨ d = s.kernelDirectory → ∀ page < 2 ^ 20,
        Present (middle.entry d' (page / 1024)) → s3.pte d' page = middle.pte d' page) := by
  have frame := frame_toNat n bound
  have number : (BitVec.ofNat 32 (4096 * n)).toNat / 4096 = n := by omega
  have kernelDirectory := enters.keeps.roots.kernelDirectory
  have place := enters.place
  by_cases process : d ≠ middle.kernelDirectory
  · have process' : d ≠ s.kernelDirectory := fun kernel => process (kernel.trans kernelDirectory.symm)
    have added : (if Present (s.entry d (v.toNat / 4096 / 1024)) then 0 else 4096) ≤ 4096 := by
      split <;> omega
    obtain ⟨keeps3, bits3, place3, mappings3, entries3⟩ := add_frame_result middle enters.keeps.layout
      (by omega) (BitVec.ofNat 32 (4096 * n))
    rw [number, kernelDirectory, enters.entries s.kernelDirectory (Or.inl rfl) (n / 1024) (by omega)
      fun both => process' both.1.symm] at place3
    rw [kernelDirectory] at entries3
    refine ⟨_, if_pos process, keeps3, bits3, ?_, mappings3, fun d' inOld other => ?_,
      fun d' inOld other page less inTable => ?_⟩
    · simp only [process', false_or]
      exact place3
    · exact entries3 d' inOld (other.resolve_right process')
    · refine keeps3.ptes d' inOld page less inTable (Or.inr ?_) (by simp)
      rw [kernelDirectory]
      exact other.resolve_right process'
  · have kernel : d = s.kernelDirectory := (not_not.mp process).trans kernelDirectory
    refine ⟨_, if_neg process, keeps_refl middle enters.keeps.layout, fun _ _ => rfl, ?_, rfl,
      fun _ _ _ _ _ => rfl, fun _ _ _ _ _ _ => rfl⟩
    rw [if_pos (Or.inl kernel), Nat.add_zero]

theorem show_frame_maps (s middle : Paging) (room : s.placeAddr.toNat + 8192 ≤ 2 ^ 31)
    (d v isWriteable isKernel : Word) (n : Nat) (bound : n < 2 ^ 20) (listed : s.Listed d)
    (enters : Enters s middle d (v.toNat / 4096) n (pageFlags isWriteable isKernel)) :
    Maps s (showFrame middle d (v.toNat / 4096) (BitVec.ofNat 32 (4096 * n))
      (pageFlags isWriteable isKernel)) d v n isWriteable isKernel := by
  have page := frame_is_page n bound
  have inDirectory : v.toNat / 4096 / 1024 < 1024 := by omega
  have inSpace : v.toNat / 4096 < 2 ^ 20 := by omega
  have flags := table_flags_small isWriteable isKernel
  have roots := enters.keeps.roots
  have place := enters.place
  have more : ∀ d', s.Listed d' → middle.Listed d' := fun d' => (listed_same s middle roots d').mpr
  unfold showFrame
  dsimp only
  obtain ⟨s3, reached, keeps3, bits3, place3, mappings3, entries3, ptes3⟩ :=
    show_frame_result s middle room d v _ n bound enters
  rw [reached]
  have keeps13 := keeps_trans s middle s3 _ _ enters.keeps keeps3 (Or.inl rfl)
  have mapped : Present (middle.pte d (v.toNat / 4096)) := by
    rw [enters.pte, present_flagged _ _ page, ← flags.2.1]
    exact flags.2.2
  refine ⟨keeps_history s s3 _ _ rfl keeps13, ?_, ?_, ?_, ?_, ?_, ?_, ?_, ?_⟩
  · show Present (s3.entry d _)
    rw [keeps3.entries d (more d listed) _ inDirectory enters.present]
    exact enters.present
  · show s3.pte d _ = _
    rw [keeps3.ptes d (more d listed) _ inSpace enters.present (Or.inl mapped) (by simp)]
    exact enters.pte
  · intro i less
    show s3.bit i = _
    rw [bits3 i less, enters.bits i less]
  · show _ :: s3.history.mappings = _
    rw [mappings3, enters.mappings]
  · show s3.placeAddr.toNat = _
    rw [place3, place]
  · intro d' inOld other t less different
    show s3.entry d' t = _
    rw [entries3 d' (more d' inOld) other t less, enters.entries d' inOld t less different]
  · intro d' inOld other page' less inTable different
    have inTable1 : Present (middle.entry d' (page' / 1024)) := by
      by_cases here : d' = d ∧ page' / 1024 = v.toNat / 4096 / 1024
      · rw [here.1, here.2]
        exact enters.present
      · rw [enters.entries d' inOld _ (by omega) here]
        exact inTable
    show s3.pte d' page' = _
    rw [ptes3 d' (more d' inOld) other page' less inTable1, enters.ptes d' inOld page' less inTable different]
  · intro absent page' less same different
    show s3.pte d page' = _
    rw [ptes3 d (more d listed) (by tauto) page' less (same ▸ enters.present)]
    exact enters.cleared absent page' same different

theorem maps_place (s s' : Paging) (d v : Word) (n : Nat) (isWriteable isKernel : Word)
    (maps : Maps s s' d v n isWriteable isKernel) : s'.placeAddr.toNat ≤ s.placeAddr.toNat + 8192 := by
  have place := maps.place
  split at place <;> split at place <;> omega

theorem alloc_page_pr_found (s : Paging) (layout : Layout s)
    (room : s.placeAddr.toNat + 8192 ≤ 2 ^ 31) (d v isWriteable isKernel : Word)
    (listed : s.Listed d) (n : Nat) (bound : n < 2 ^ 20) (clear : s.bit n = false) :
    ∃ i s', allocPagePr s d v (BitVec.ofNat 32 (4096 * n)) isWriteable isKernel =
        some (BitVec.ofNat 32 (4096 * i), s') ∧
      i < 2 ^ 20 ∧ (Present (s.entry d (v.toNat / 4096 / 1024)) → i = n) ∧
      (¬ Present (s.entry d (v.toNat / 4096 / 1024)) → FirstFree s i) ∧
      Maps s s' d v i isWriteable isKernel ∧
      (¬ Present (s.entry d (v.toNat / 4096 / 1024)) →
        s'.entry d (v.toNat / 4096 / 1024) = s.placeAddr ||| tableFlags isWriteable isKernel) := by
  have inDirectory : v.toNat / 4096 / 1024 < 1024 := by omega
  obtain ⟨i, middle, returned, inSpace, asked, made, enters, table⟩ := alloc_page_pr_enters s layout room
    d v isWriteable isKernel listed n bound clear
  have maps := show_frame_maps s middle room d v isWriteable isKernel i inSpace listed enters
  refine ⟨i, _, returned, inSpace, asked, made, maps, fun absent => ?_⟩
  by_cases kernel : d = middle.kernelDirectory
  · have same : showFrame middle d (v.toNat / 4096) (BitVec.ofNat 32 (4096 * i))
        (pageFlags isWriteable isKernel) = { middle with history := { middle.history with
          mappings := ⟨d, v.toNat / 4096, BitVec.ofNat 32 (4096 * i), pageFlags isWriteable isKernel⟩ ::
            middle.history.mappings } } := by
      rw [showFrame, if_neg (not_not.mpr kernel)]
    rw [same]
    exact table absent
  · have added : (if Present (s.entry d (v.toNat / 4096 / 1024)) then 0 else 4096) ≤ 4096 := by
      split <;> omega
    have place := enters.place
    have kept := (add_frame_result middle enters.keeps.layout (by omega)
      (BitVec.ofNat 32 (4096 * i))).1.entries d ((listed_same s middle enters.keeps.roots d).mpr listed) _
      inDirectory enters.present
    rw [showFrame, if_pos kernel]
    exact kept.trans (table absent)

theorem alloc_page_found (s : Paging) (layout : Layout s)
    (room : s.placeAddr.toNat + 8192 ≤ 2 ^ 31) (d v isWriteable isKernel : Word)
    (listed : s.Listed d) (n : Nat) (first : FirstFree s n) :
    ∃ s', allocPage s d v isWriteable isKernel = some (BitVec.ofNat 32 (4096 * n), s') ∧
      Maps s s' d v n isWriteable isKernel ∧
      (¬ Present (s.entry d (v.toNat / 4096 / 1024)) →
        s'.entry d (v.toNat / 4096 / 1024) = s.placeAddr ||| tableFlags isWriteable isKernel) := by
  obtain ⟨i, s', returned, _, asked, made, maps, table⟩ := alloc_page_pr_found s layout room d v
    isWriteable isKernel listed n first.1 first.2.1
  obtain rfl := first_granted s _ i n first asked made
  exact ⟨s', (alloc_page_first s d v isWriteable isKernel i first).trans returned, maps, table⟩

theorem alloc_page_result (s : Paging) (layout : Layout s)
    (room : s.placeAddr.toNat + 8192 ≤ 2 ^ 31) (d v isWriteable isKernel : Word)
    (listed : s.Listed d) (frame : Word) (s' : Paging)
    (returned : allocPage s d v isWriteable isKernel = some (frame, s')) :
    ∃ n, FirstFree s n ∧ frame = BitVec.ofNat 32 (4096 * n) ∧ Maps s s' d v n isWriteable isKernel ∧
      (¬ Present (s.entry d (v.toNat / 4096 / 1024)) →
        s'.entry d (v.toNat / 4096 / 1024) = s.placeAddr ||| tableFlags isWriteable isKernel) := by
  rcases first_free_frame_result s with ⟨none, _⟩ | ⟨n, first, _⟩
  · rw [allocPage, none] at returned
    simp at returned
  · obtain ⟨after, found, maps, table⟩ := alloc_page_found s layout room d v isWriteable isKernel listed
      n first
    rw [found] at returned
    simp only [Option.some.injEq, Prod.mk.injEq] at returned
    obtain ⟨rfl, rfl⟩ := returned
    exact ⟨n, first, rfl, maps, table⟩

end GargOS
