import GargOS.PagingRuns

/-!
What paging.c reads. Its structures lie below `KERNEL_MEM_END`, so on two
machines that agree there the calls do the same, whatever the frames above hold.
-/

namespace GargOS
open ByteMemory Pages

/-- The machines have the same variables, the same history and, where `known`
holds, the same bytes. -/
structure SameKnown (known : Word → Prop) (s t : Paging) : Prop where
  placeAddr : t.placeAddr = s.placeAddr
  kernelDirectory : t.kernelDirectory = s.kernelDirectory
  frames : t.frames = s.frames
  currentDir : t.currentDir = s.currentDir
  history : t.history = s.history
  bytes : ∀ x, known x → t.mem x = s.mem x

theorem same_known_less (known fewer : Word → Prop) (s t : Paging) (same : SameKnown known s t)
    (less : ∀ x, fewer x → known x) : SameKnown fewer s t :=
  ⟨same.placeAddr, same.kernelDirectory, same.frames, same.currentDir, same.history,
    fun x inFewer => same.bytes x (less x inFewer)⟩

theorem write_same (m m' : Memory) (a x : Word) (b : Byte) (same : m' x = m x) :
    write m' a b x = write m a b x := by
  unfold write
  rw [same]

section Known
variable (known : Word → Prop) (s t : Paging) (same : SameKnown known s t)
include same

theorem same_store (a v : Word) : SameKnown known (s.store a v) (t.store a v) := by
  refine ⟨same.placeAddr, same.kernelDirectory, same.frames, same.currentDir, same.history, fun x inside => ?_⟩
  show store32 t.mem a v x = store32 s.mem a v x
  unfold store32
  exact write_same _ _ _ _ _ (write_same _ _ _ _ _ (write_same _ _ _ _ _ (write_same _ _ _ _ _
    (same.bytes x inside))))

theorem same_memset (a : Word) (c : Byte) (n : Nat) (bound : n ≤ 2 ^ 32) :
    SameKnown known { s with mem := memset s.mem a c n } { t with mem := memset t.mem a c n } := by
  refine ⟨same.placeAddr, same.kernelDirectory, same.frames, same.currentDir, same.history, fun x inside => ?_⟩
  dsimp only
  rw [memset_apply _ _ _ _ _ bound, memset_apply _ _ _ _ _ bound, same.bytes x inside]

theorem same_record (record : History → History) : SameKnown known
    { s with history := record s.history } { t with history := record t.history } :=
  ⟨same.placeAddr, same.kernelDirectory, same.frames, same.currentDir, congrArg record same.history,
    same.bytes⟩

theorem same_kmalloc (size : Word) (align : Bool) :
    (kmallocAll t size align).1 = (kmallocAll s size align).1 ∧
      SameKnown known (kmallocAll s size align).2 (kmallocAll t size align).2 := by
  unfold kmallocAll
  rw [same.placeAddr, same.history]
  exact ⟨rfl, rfl, same.kernelDirectory, same.frames, same.currentDir, rfl, same.bytes⟩

variable (kernel : ∀ x : Word, x.toNat < KERNEL_MEM_END.toNat → known x)

theorem same_new_kernel_table (d index : Word) :
    SameKnown known (newKernelTable s d index) (newKernelTable t d index) := by
  obtain ⟨first, rest⟩ := same_kmalloc known s t same 4096#32 true
  unfold newKernelTable kmallocA
  generalize kmallocAll s 4096#32 true = made at first rest
  generalize kmallocAll t 4096#32 true = madeToo at first rest
  obtain ⟨table, s⟩ := made
  obtain ⟨tableToo, t⟩ := madeToo
  obtain rfl : tableToo = table := first
  exact same_store known s t rest _ _

include kernel

theorem same_cell (p : Word) (i : Nat) (page : IsPage p) (bound : i < 1024)
    (low : p.toNat + 4096 ≤ KERNEL_MEM_END.toNat) : t.load (cell p i) = s.load (cell p i) := by
  have limit := kernel_mem_end
  refine load32_congr _ _ _ fun x inside => same.bytes x (kernel x ?_)
  have inPage := cell_in_page p i page bound x inside
  have pages : kernelPages = 4080 := rfl
  rw [in_span_iff p 4096 x (by omega)] at inPage
  omega

theorem same_entry (d v : Word) (page : IsPage d) (low : d.toNat + 4096 ≤ KERNEL_MEM_END.toNat) :
    t.load (element d (TABLE_INDEX_FROM_VIRTUAL_ADDRESS v)) =
      s.load (element d (TABLE_INDEX_FROM_VIRTUAL_ADDRESS v)) := by
  rw [element_cell, table_index_toNat]
  exact same_cell known s t same kernel d _ page (by omega) low

theorem same_with_table (d v : Word) (page : IsPage d) (low : d.toNat + 4096 ≤ KERNEL_MEM_END.toNat) :
    SameKnown known (withTable s d v) (withTable t d v) := by
  unfold withTable
  rw [same_entry known s t same kernel d v page low]
  split
  · exact same_new_kernel_table known s t same d _
  · exact same

theorem same_install_table (d v isWriteable isKernel : Word) (page : IsPage d)
    (low : d.toNat + 4096 ≤ KERNEL_MEM_END.toNat) : SameKnown known
      (installTable s d (TABLE_INDEX_FROM_VIRTUAL_ADDRESS v) isWriteable isKernel)
      (installTable t d (TABLE_INDEX_FROM_VIRTUAL_ADDRESS v) isWriteable isKernel) := by
  have aligned := same_kmalloc known s t same 4096#32 true
  have plain := same_kmalloc known s t same 4096#32 false
  have either : ∃ p q : Word × Paging,
      (if d = s.kernelDirectory then kmallocA s 4096#32 else kmalloc s 4096#32) = p ∧
      (if d = t.kernelDirectory then kmallocA t 4096#32 else kmalloc t 4096#32) = q ∧
      q.1 = p.1 ∧ SameKnown known p.2 q.2 := by
    rw [same.kernelDirectory]
    by_cases isKernelDirectory : d = s.kernelDirectory
    · exact ⟨_, _, if_pos isKernelDirectory, if_pos isKernelDirectory, aligned⟩
    · exact ⟨_, _, if_neg isKernelDirectory, if_neg isKernelDirectory, plain⟩
  obtain ⟨⟨table, s1⟩, ⟨tableToo, t1⟩, made, madeToo, first, rest⟩ := either
  obtain rfl : tableToo = table := first
  unfold installTable
  rw [made, madeToo]
  dsimp only
  have stored := same_store known s1 t1 rest (element d (TABLE_INDEX_FROM_VIRTUAL_ADDRESS v))
    (tableToo ||| tableFlags isWriteable isKernel)
  rw [same_entry known _ _ stored kernel d v page low]
  have cleared := same_memset known _ _ stored (pageOf ((s1.store (element d (TABLE_INDEX_FROM_VIRTUAL_ADDRESS v))
    (tableToo ||| tableFlags isWriteable isKernel)).load (element d (TABLE_INDEX_FROM_VIRTUAL_ADDRESS v))))
    0#8 4096 (by decide)
  exact same_record known _ _ cleared fun h => h.install (pageOf (tableToo ||| tableFlags isWriteable isKernel))

/-! Calls that read the structures of a layout. -/

variable (layout : Layout s) (low : s.placeAddr.toNat ≤ KERNEL_MEM_END.toNat)
include layout low

theorem same_bitset_word (index : Word) (bound : index.toNat < 32768) :
    t.load (element t.frames index) = s.load (element s.frames index) := by
  have home := layout.housed _ _ (Paging.Home.bitset (s := s) (index.toNat / 1024) (by omega))
  rw [same.frames, element_bitset s _ index rfl]
  exact same_cell known s t same kernel _ _ home.1 (Nat.mod_lt _ (by decide)) (by omega)

theorem same_first_free_from (rounds i : Nat) (ends : i + rounds ≤ 32768) :
    firstFreeFrom t rounds i = firstFreeFrom s rounds i := by
  induction rounds generalizing i with
  | zero => rfl
  | succ rounds ih =>
      have index : (BitVec.ofNat 32 i).toNat < 32768 := by
        rw [BitVec.toNat_ofNat]
        omega
      rw [firstFreeFrom, firstFreeFrom, same_bitset_word known s t same kernel layout low _ index,
        ih (i + 1) (by omega)]

theorem same_first_free_frame : firstFreeFrame t = firstFreeFrame s :=
  same_first_free_from known s t same kernel layout low bitsetWords 0 (Nat.le_refl _)

theorem same_frame_set (frame : Word) : isFrameSet t frame = isFrameSet s frame := by
  have index : (INDEX_FROM_ADDRESS frame).toNat < 32768 := by
    rw [index_from_address]
    omega
  rw [isFrameSet, isFrameSet, same_bitset_word known s t same kernel layout low _ index]

theorem same_write_bitset (frame : Word) : SameKnown known (writeBitset s frame) (writeBitset t frame) := by
  have index : (INDEX_FROM_ADDRESS frame).toNat < 32768 := by
    rw [index_from_address]
    omega
  have word := same_bitset_word known s t same kernel layout low _ index
  unfold writeBitset
  dsimp only
  rw [word, same.frames]
  exact same_store known s t same _ _

omit known t same kernel low in
theorem kernel_table_layout (room : s.placeAddr.toNat + 4096 ≤ 2 ^ 31) (frame : Word) :
    Layout (withTable s s.kernelDirectory frame) ∧
      (withTable s s.kernelDirectory frame).kernelDirectory = s.kernelDirectory ∧
      Present ((withTable s s.kernelDirectory frame).entry s.kernelDirectory (frame.toNat / 4096 / 1024)) := by
  have listed : s.Listed s.kernelDirectory := Or.inl rfl
  rcases with_table_cases s layout s.kernelDirectory frame listed with ⟨present, same⟩ |
    ⟨absent, installs, _⟩
  · rw [same]
    exact ⟨layout, rfl, present⟩
  · have result := installs_result s layout _ _ _ _ listed (by omega) absent (by decide) room installs
    refine ⟨result.1.layout, installs.roots.kernelDirectory, ?_⟩
    rw [installs.entry, present_flagged _ _ layout.aligned]
    decide

omit known t same kernel layout low in
theorem add_frame_eq (frame : Word) : addFrameToKernelDir s frame =
    if (withTable s s.kernelDirectory frame).load (element (pageOf ((withTable s s.kernelDirectory frame).load
        (element (withTable s s.kernelDirectory frame).kernelDirectory (TABLE_INDEX_FROM_VIRTUAL_ADDRESS frame))))
        (PAGE_INDEX_FROM_VIRTUAL_ADDRESS frame)) &&& 0x1#32 ≠ 0#32 then withTable s s.kernelDirectory frame
    else (withTable s s.kernelDirectory frame).store (element (pageOf ((withTable s s.kernelDirectory frame).load
        (element (withTable s s.kernelDirectory frame).kernelDirectory (TABLE_INDEX_FROM_VIRTUAL_ADDRESS frame))))
        (PAGE_INDEX_FROM_VIRTUAL_ADDRESS frame)) (frame ||| 0x3#32) := rfl

theorem same_add_frame (room : s.placeAddr.toNat + 4096 ≤ 2 ^ 31) (frame : Word)
    (lowAfter : (addFrameToKernelDir s frame).placeAddr.toNat ≤ KERNEL_MEM_END.toNat) :
    SameKnown known (addFrameToKernelDir s frame) (addFrameToKernelDir t frame) := by
  have root := layout.housed _ _ (Paging.Home.directory s.kernelDirectory (Or.inl rfl))
  have tables := same_with_table known s t same kernel s.kernelDirectory frame root.1 (by omega)
  obtain ⟨layout1, sameRoot, present⟩ := kernel_table_layout s layout room frame
  rw [add_frame_eq] at lowAfter ⊢
  rw [add_frame_eq, same.kernelDirectory]
  generalize withTable s s.kernelDirectory frame = middle at tables layout1 sameRoot present lowAfter ⊢
  generalize withTable t s.kernelDirectory frame = middleToo at tables ⊢
  have below : middle.placeAddr.toNat ≤ KERNEL_MEM_END.toNat := by
    split at lowAfter <;> exact lowAfter
  have listed : middle.Listed s.kernelDirectory := Or.inl sameRoot.symm
  have directory := layout1.housed _ _ (Paging.Home.directory _ listed)
  have table := layout1.housed _ _ (Paging.Home.table _ _ listed (by omega) present)
  have entry := same_entry known middle middleToo tables kernel s.kernelDirectory frame directory.1 (by omega)
  rw [tables.kernelDirectory, sameRoot, entry, load_entry, element_page,
    same_cell known middle middleToo tables kernel _ _ table.1 (Nat.mod_lt _ (by decide)) (by omega)]
  split
  · exact tables
  · exact same_store known middle middleToo tables _ _

theorem same_map_page (room : s.placeAddr.toNat + 4096 ≤ 2 ^ 31) (d v isWriteable isKernel : Word) (n : Nat)
    (listed : s.Listed d) (present : Present (s.entry d (v.toNat / 4096 / 1024)))
    (lowAfter : (mapPage s d v (BitVec.ofNat 32 (4096 * n)) isWriteable isKernel).placeAddr.toNat ≤
      KERNEL_MEM_END.toNat) :
    SameKnown known (mapPage s d v (BitVec.ofNat 32 (4096 * n)) isWriteable isKernel)
      (mapPage t d v (BitVec.ofNat 32 (4096 * n)) isWriteable isKernel) := by
  have directory := layout.housed _ _ (Paging.Home.directory d listed)
  have entry := same_entry known s t same kernel d v directory.1 (by omega)
  have stored := store_page s layout d v
    (BitVec.ofNat 32 (4096 * n) ||| pageFlags isWriteable isKernel) listed present
  unfold mapPage at lowAfter ⊢
  dsimp only at lowAfter ⊢
  rw [entry]
  generalize element (pageOf (s.load (element d (TABLE_INDEX_FROM_VIRTUAL_ADDRESS v))))
    (PAGE_INDEX_FROM_VIRTUAL_ADDRESS v) = place at stored lowAfter ⊢
  have same1 := same_store known s t same place (BitVec.ofNat 32 (4096 * n) ||| pageFlags isWriteable isKernel)
  have below1 : (s.store place (BitVec.ofNat 32 (4096 * n) ||| pageFlags isWriteable isKernel)).placeAddr.toNat =
    s.placeAddr.toNat := rfl
  generalize s.store place (BitVec.ofNat 32 (4096 * n) ||| pageFlags isWriteable isKernel) = s1 at *
  generalize t.store place (BitVec.ofNat 32 (4096 * n) ||| pageFlags isWriteable isKernel) = t1 at *
  have same2 := same_write_bitset known s1 t1 same1 kernel stored.keeps.layout (by omega)
    (BitVec.ofNat 32 (4096 * n))
  have layout2 := (write_bitset_result s1 stored.keeps.layout (BitVec.ofNat 32 (4096 * n))).1.layout
  have below2 : (writeBitset s1 (BitVec.ofNat 32 (4096 * n))).placeAddr.toNat = s1.placeAddr.toNat := rfl
  generalize writeBitset s1 (BitVec.ofNat 32 (4096 * n)) = s2 at *
  generalize writeBitset t1 (BitVec.ofNat 32 (4096 * n)) = t2 at *
  rw [same2.kernelDirectory]
  by_cases process : d ≠ s2.kernelDirectory
  · rw [if_pos process] at lowAfter
    rw [if_pos process, if_pos process]
    exact same_record known _ _ (same_add_frame known s2 t2 same2 kernel layout2 (by omega) (by omega) _
      lowAfter) fun h => { h with mappings := ⟨d, v.toNat / 4096, BitVec.ofNat 32 (4096 * n),
        pageFlags isWriteable isKernel⟩ :: h.mappings }
  · rw [if_neg process, if_neg process]
    exact same_record known _ _ same2 fun h => { h with mappings := ⟨d, v.toNat / 4096,
      BitVec.ofNat 32 (4096 * n), pageFlags isWriteable isKernel⟩ :: h.mappings }

theorem same_alloc_page (room : s.placeAddr.toNat + 8192 ≤ 2 ^ 31) (d v isWriteable isKernel frame : Word)
    (listed : s.Listed d) (after : Paging)
    (returned : allocPage s d v isWriteable isKernel = some (frame, after))
    (lowAfter : after.placeAddr.toNat ≤ KERNEL_MEM_END.toNat) :
    ∃ other, allocPage t d v isWriteable isKernel = some (frame, other) ∧ SameKnown known after other := by
  obtain ⟨n, first, rfl, maps, _⟩ := alloc_page_result s layout room d v isWriteable isKernel listed frame
    after returned
  have directory := layout.housed _ _ (Paging.Home.directory d listed)
  have entry := same_entry known s t same kernel d v directory.1 (by omega)
  have found := same_first_free_frame known s t same kernel layout low
  have free := same_frame_set known s t same kernel layout low (BitVec.ofNat 32 (4096 * n))
  have clear := frame_is_set_clear s n first.1 first.2.1
  have answers : ¬ isFrameSet t (BitVec.ofNat 32 (4096 * n)) = true := by
    rw [free]
    exact clear
  rw [first_free_found s n first] at found
  rw [alloc_page_first s d v isWriteable isKernel n first] at returned
  rw [allocPage, found, Option.bind_eq_bind, Option.bind_some, allocPagePr, if_neg answers]
  dsimp only
  rw [entry]
  by_cases present : Present (s.entry d (v.toNat / 4096 / 1024))
  · rw [alloc_page_pr_there s d v isWriteable isKernel n first.1 first.2.1 present] at returned
    obtain ⟨_, rfl⟩ := Prod.mk.inj (Option.some.inj returned)
    have there : ¬ s.load (element d (TABLE_INDEX_FROM_VIRTUAL_ADDRESS v)) &&& 0x1#32 = 0#32 := by
      rw [load_entry]
      exact present
    rw [if_neg there]
    exact ⟨_, rfl, same_map_page known s t same kernel layout low (by omega) d v isWriteable isKernel n listed
      present lowAfter⟩
  · have absent : s.load (element d (TABLE_INDEX_FROM_VIRTUAL_ADDRESS v)) &&& 0x1#32 = 0#32 := by
      rw [load_entry]
      exact not_not.mp present
    -- the table is made first, on both machines the same
    have bound : (TABLE_INDEX_FROM_VIRTUAL_ADDRESS v).toNat < 1024 := by
      rw [table_index_toNat]
      omega
    have index := table_index_toNat v
    have flags := table_flags_small isWriteable isKernel
    have installs := (install_table_installs s layout d (TABLE_INDEX_FROM_VIRTUAL_ADDRESS v) isWriteable
      isKernel listed bound).1
    rw [index] at installs
    obtain ⟨keeps1, bits1, _, _⟩ := installs_result s layout _ _ _ _ listed (by omega) present flags.1
      (by omega) installs
    have tables := same_install_table known s t same kernel d v isWriteable isKernel directory.1 (by omega)
    have firstToo := first_free_same s _ bits1 n first
    rw [alloc_page_pr_made s d v isWriteable isKernel n first.1 first.2.1 present n firstToo] at returned
    rw [if_pos absent]
    have place := maps.place
    rw [if_neg present] at place
    have below : (installTable s d (TABLE_INDEX_FROM_VIRTUAL_ADDRESS v) isWriteable isKernel).placeAddr.toNat =
        s.placeAddr.toNat + 4096 := by
      rw [installs.place]
      bv_omega
    generalize installTable s d (TABLE_INDEX_FROM_VIRTUAL_ADDRESS v) isWriteable isKernel = s1 at *
    generalize installTable t d (TABLE_INDEX_FROM_VIRTUAL_ADDRESS v) isWriteable isKernel = t1 at *
    have low1 : s1.placeAddr.toNat ≤ KERNEL_MEM_END.toNat := by
      split at place <;> omega
    have foundToo := same_first_free_frame known s1 t1 tables kernel keeps1.layout low1
    rw [first_free_found s1 n firstToo] at foundToo
    have valid : BitVec.ofNat 32 (4096 * n) ≠ 0xFFFFFFFF#32 := by
      intro full
      have value := congrArg BitVec.toNat full
      rw [frame_toNat n first.1] at value
      have odd : (0xFFFFFFFF#32).toNat = 4294967295 := rfl
      omega
    have present1 : Present (s1.entry d (v.toNat / 4096 / 1024)) := by
      rw [installs.entry, present_flagged _ _ layout.aligned]
      exact flags.2.2
    obtain ⟨_, rfl⟩ := Prod.mk.inj (Option.some.inj returned)
    rw [foundToo, Option.bind_eq_bind, Option.bind_some, if_neg valid]
    exact ⟨_, rfl, same_map_page known s1 t1 tables kernel keeps1.layout low1 (by omega) d v isWriteable isKernel
      n ((listed_same s s1 installs.roots d).mpr listed) present1 lowAfter⟩

omit layout low in
theorem same_kernel_rounds (d : Word) (page : IsPage d) (low : d.toNat + 4096 ≤ KERNEL_MEM_END.toNat) (n : Nat) :
    SameKnown known (kernelRounds s d n) (kernelRounds t d n) := by
  induction n with
  | zero => exact same
  | succ n ih =>
      rw [kernel_rounds_succ, kernel_rounds_succ]
      have tables := same_with_table known _ _ ih kernel d (BitVec.ofNat 32 (4096 * n)) page low
      rw [same_entry known _ _ tables kernel d (BitVec.ofNat 32 (4096 * n)) page low]
      exact same_store known _ _ tables _ _

omit low in
theorem same_new_directory (low : s.placeAddr.toNat + 4096 ≤ KERNEL_MEM_END.toNat) :
    SameKnown known (getNewKernelMappedDir s).2 (getNewKernelMappedDir t).2 := by
  have first := kmalloc_a_aligned s layout.aligned 4096#32
  have firstToo := kmalloc_a_aligned t (same.placeAddr ▸ layout.aligned) 4096#32
  have made := (same_kmalloc known s t same 4096#32 true).2
  change SameKnown known (kmallocA s 4096#32).2 (kmallocA t 4096#32).2 at made
  rw [first, firstToo] at made
  unfold getNewKernelMappedDir
  rw [first, firstToo]
  dsimp only at made ⊢
  rw [same.placeAddr] at made ⊢
  have cleared := same_memset known _ _ made s.placeAddr 0#8 4096 (by decide)
  have recorded := same_record known _ _ cleared fun h => { h with directories := s.placeAddr :: h.directories }
  exact same_kernel_rounds known _ _ recorded kernel s.placeAddr layout.aligned low kernelPages

end Known

end GargOS
