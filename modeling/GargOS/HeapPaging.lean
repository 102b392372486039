import GargOS.HeapCalls
import GargOS.PagingRuns

/-!
Process heaps behind the directories of paging.c. An access goes through the
directory that is current, so `heap.c` runs on the memory of the frames that
`alloc_page` mapped, and a heap in pages it mapped as writeable is backed.
-/

namespace GargOS
open ByteMemory AddressSpace Pages Ledger

def switchPageDirectory (s : Paging) (dir : Word) : Paging := { s with currentDir := dir }

/-- The physical address of `a` in the current directory. -/
def Paging.translate (s : Paging) (a : Word) : Option Word :=
  if s.Walks s.currentDir (a.toNat / 4096) then
    some (s.target s.currentDir (a.toNat / 4096) + BitVec.ofNat 32 (a.toNat % 4096))
  else none

/-- The accesses of the kernel, which no write flag stops. `none` is a page
fault, and a table above the pages that are mapped to themselves. -/
instance : PagedSpace Paging where
  load8 s a := (s.translate a).map s.mem
  store8 s a b := (s.translate a).map fun place => { s with mem := write s.mem place b }
  kernelDirectory s := s.kernelDirectory
  allocPage s directory vaddr isWriteable isKernel := do
    let (frame, s) ← GargOS.allocPage s directory vaddr isWriteable isKernel
    if s.placeAddr.toNat ≤ KERNEL_MEM_END.toNat then some (frame, s) else none

/-! Changes of memory above the kernel's pages, where no structure lies. -/

section Frames
variable (s : Paging) (holds : PagedInvariant s) (m : Memory) (dir : Word)
  (below : ∀ x : Word, x.toNat < KERNEL_MEM_END.toNat → m x = s.mem x)
include holds below

theorem frames_home_kept (r : Role) (p : Word) (home : s.Home r p) : PageKept s.mem m p := by
  have place := holds.layout.housed r p home
  have low := holds.low
  have top := holds.layout.room
  intro x inside
  rw [in_span_iff p 4096 x (by omega)] at inside
  exact below x (by omega)

theorem frames_entry (d : Word) (listed : s.Listed d) (t : Nat) (bound : t < 1024) :
    ({ s with mem := m, currentDir := dir } : Paging).entry d t = s.entry d t := by
  have home := Paging.Home.directory d listed
  exact entry_kept s _ d t (holds.layout.housed _ _ home).1 bound (frames_home_kept s holds m below _ _ home)

theorem frames_pte (d : Word) (listed : s.Listed d) (page : Nat) (bound : page < 2 ^ 20)
    (present : Present (s.entry d (page / 1024))) :
    ({ s with mem := m, currentDir := dir } : Paging).pte d page = s.pte d page := by
  have home := Paging.Home.table d (page / 1024) listed (by omega) present
  exact pte_kept s _ d page (frames_entry s holds m dir below d listed _ (by omega))
    (frames_home_kept s holds m below _ _ home)

theorem frames_invariant : PagedInvariant { s with mem := m, currentDir := dir } := by
  have entries := frames_entry s holds m dir below
  have bits : ∀ n < 2 ^ 20, ({ s with mem := m, currentDir := dir } : Paging).bit n = s.bit n := by
    intro n bound
    have home := Paging.Home.bitset (s := s) (n / 32768) (by omega)
    exact bit_kept s _ n rfl (holds.layout.housed _ _ home).1 (frames_home_kept s holds m below _ _ home)
  refine ⟨⟨layout_same s _ holds.layout ⟨rfl, rfl, rfl⟩ rfl fun d listed t bound =>
      entries d listed t bound, fun mapping member => ?_, holds.once, fun n bound => ?_, ?_,
      fun n less => ?_⟩, holds.low⟩
  · have recorded := holds.recorded mapping member
    exact ⟨recorded.listed, recorded.inSpace, recorded.frame, recorded.flags, recorded.process⟩
  · rw [bits n bound]
    exact holds.bits n bound
  · intro d page mapping found
    obtain ⟨present, entry⟩ := holds.current d page mapping found
    obtain ⟨member, key⟩ := latest_mem _ _ _ _ found
    obtain ⟨rfl, rfl⟩ := Prod.mk.inj key
    have recorded := holds.recorded mapping member
    have inSpace := recorded.inSpace
    rw [entries _ recorded.listed _ (by omega), frames_pte s holds m dir below _ recorded.listed _ inSpace
      present]
    exact ⟨present, entry⟩
  · have pages : kernelPages = 4080 := rfl
    rw [bits n (by omega)]
    exact holds.kernel n less

end Frames

/-! Pages that `alloc_page` mapped. -/

section Mapped
variable (s : Paging) (holds : PagedInvariant s) (d : Word) (page : Nat) (m : Mapping)
  (found : s.mapping d page = some m)
include holds found

theorem mapped_above (process : d ≠ s.kernelDirectory) : KERNEL_MEM_END.toNat ≤ m.frame.toNat := by
  obtain ⟨member, key⟩ := latest_mem _ _ _ _ found
  by_contra kernel
  apply process
  rw [← (Prod.mk.inj key).1]
  exact (holds.recorded m member).process (by omega)

omit found in
theorem translate_mapped (a : Word) (found : s.mapping s.currentDir (a.toNat / 4096) = some m) :
    s.translate a = some (m.frame + BitVec.ofNat 32 (a.toNat % 4096)) := by
  have mapped := mapped_page s holds.toPagedRecords _ _ m found
  rw [Paging.translate, if_pos mapped.walks, mapped.target]

omit found in
theorem view_mapped (a : Word) (found : s.mapping s.currentDir (a.toNat / 4096) = some m) :
    load8 s a = some (view s a) ∧ view s a = s.mem (m.frame + BitVec.ofNat 32 (a.toNat % 4096)) := by
  have loaded : load8 s a = some (s.mem (m.frame + BitVec.ofNat 32 (a.toNat % 4096))) := by
    show (s.translate a).map s.mem = _
    rw [translate_mapped s holds m a found]
    rfl
  rw [view, loaded]
  exact ⟨rfl, rfl⟩

end Mapped

theorem in_frame (frame a : Word) : InSpan frame 4096 (frame + BitVec.ofNat 32 (a.toNat % 4096)) := by
  apply offset_in_span
  rw [BitVec.toNat_ofNat]
  omega

/-! What a process does leaves the others alone. -/

/-- The directories, tables and frames of the processes other than `d`'s are the
same before and after. -/
structure OthersKept (s after : Paging) (d : Word) : Prop where
  roots : SameRoots s after
  mappings : ∀ d', d' ≠ d → ∀ page, after.mapping d' page = s.mapping d' page
  entries : ∀ d', s.Listed d' → d' ≠ s.kernelDirectory → d' ≠ d → ∀ t < 1024,
    after.entry d' t = s.entry d' t
  ptes : ∀ d', s.Listed d' → d' ≠ s.kernelDirectory → d' ≠ d → ∀ page < 2 ^ 20,
    Present (s.entry d' (page / 1024)) → after.pte d' page = s.pte d' page
  bytes : ∀ d', d' ≠ s.kernelDirectory → d' ≠ d → ∀ page m, s.mapping d' page = some m →
    ∀ x, InSpan m.frame 4096 x → after.mem x = s.mem x

theorem others_switch (s : Paging) (d dir : Word) : OthersKept s (switchPageDirectory s dir) d :=
  ⟨⟨rfl, rfl, rfl⟩, fun _ _ _ => rfl, fun _ _ _ _ _ _ => rfl, fun _ _ _ _ _ _ _ => rfl,
    fun _ _ _ _ _ _ _ _ => rfl⟩

theorem others_trans (s middle after : Paging) (d : Word) (first : OthersKept s middle d)
    (second : OthersKept middle after d) : OthersKept s after d where
  roots := ⟨second.roots.kernelDirectory.trans first.roots.kernelDirectory,
    second.roots.frames.trans first.roots.frames,
    second.roots.directories.trans first.roots.directories⟩
  mappings d' other page := (second.mappings d' other page).trans (first.mappings d' other page)
  entries d' listed process other t bound := by
    have listed' := (listed_same s middle first.roots d').mpr listed
    rw [← first.roots.kernelDirectory] at process
    rw [second.entries d' listed' process other t bound]
    exact first.entries d' listed (first.roots.kernelDirectory ▸ process) other t bound
  ptes d' listed process other page bound present := by
    have listed' := (listed_same s middle first.roots d').mpr listed
    have entry := first.entries d' listed process other (page / 1024) (by omega)
    have same := first.ptes d' listed process other page bound present
    rw [← first.roots.kernelDirectory] at process
    rw [← entry] at present
    rw [second.ptes d' listed' process other page bound present, same]
  bytes d' process other page m found x inside := by
    have same := first.bytes d' process other page m found x inside
    rw [← first.roots.kernelDirectory] at process
    rw [← first.mappings d' other page] at found
    rw [second.bytes d' process other page m found x inside, same]

/-! A store to a heap. -/

def Paging.stored (s : Paging) (m : Mapping) (a : Word) (b : Byte) : Paging :=
  { s with mem := write s.mem (m.frame + BitVec.ofNat 32 (a.toNat % 4096)) b }

section Stored
variable (s : Paging) (holds : PagedInvariant s) (process : s.currentDir ≠ s.kernelDirectory) (a : Word)
  (m : Mapping) (found : s.mapping s.currentDir (a.toNat / 4096) = some m) (b : Byte)
include holds found

theorem store_mapped : store8 s a b = some (s.stored m a b) := by
  show (s.translate a).map _ = _
  rw [translate_mapped s holds m a found]
  rfl

omit holds found in
theorem stored_outside (x : Word) (outside : ¬ InSpan m.frame 4096 x) : (s.stored m a b).mem x = s.mem x := by
  show write s.mem _ b x = s.mem x
  rw [write, if_neg]
  rintro rfl
  exact outside (in_frame m.frame a)

include process in
theorem stored_below (x : Word) (below : x.toNat < KERNEL_MEM_END.toNat) :
    (s.stored m a b).mem x = s.mem x := by
  have above := mapped_above s holds _ _ m found process
  obtain ⟨n, bound, frame⟩ := (mapped_page s holds.toPagedRecords _ _ m found).frame
  have value := frame_toNat n bound
  apply stored_outside s a m b
  rw [frame] at above ⊢
  rw [in_span_iff _ 4096 x (by omega)]
  omega

include process in
theorem stored_invariant : PagedInvariant (s.stored m a b) :=
  frames_invariant s holds _ s.currentDir (stored_below s holds process a m found b)

theorem stored_view (x : Word) (m' : Mapping)
    (inHeap : s.mapping s.currentDir (x.toNat / 4096) = some m') (after : PagedInvariant (s.stored m a b)) :
    view (s.stored m a b) x = write (view s) a b x := by
  have here := mapped_page s holds.toPagedRecords _ _ m found
  have there := mapped_page s holds.toPagedRecords _ _ m' inHeap
  have shown : view (s.stored m a b) x =
      (s.stored m a b).mem (m'.frame + BitVec.ofNat 32 (x.toNat % 4096)) :=
    (view_mapped (s.stored m a b) after m' x inHeap).2
  rw [shown, write, (view_mapped s holds m' x inHeap).2]
  -- in one page the offsets decide, in two the frames
  by_cases page : x.toNat / 4096 = a.toNat / 4096
  · rw [page, found] at inHeap
    obtain rfl := Option.some.inj inHeap
    show write s.mem _ b _ = _
    rw [write]
    by_cases same : x = a
    · rw [if_pos same, if_pos (by rw [same])]
    · rw [if_neg same, if_neg]
      intro equal
      bv_omega
  · have different : x ≠ a := fun same => page (by rw [same])
    rw [if_neg different]
    apply stored_outside s a m b
    intro inside
    have frames := (paged_invariant_exclusive s holds).apart _ _ _ _ m m' found inHeap
      fun same => page (Prod.mk.inj same).2.symm
    rw [here.target, there.target] at frames
    exact frames (page_unique _ _ _ here.isPage there.isPage inside (in_frame m'.frame x))

include process in
theorem stored_others : OthersKept s (s.stored m a b) s.currentDir where
  roots := ⟨rfl, rfl, rfl⟩
  mappings _ _ _ := rfl
  entries d listed _ _ t bound :=
    frames_entry s holds _ s.currentDir (stored_below s holds process a m found b) d listed t bound
  ptes d listed _ _ page bound present :=
    frames_pte s holds _ s.currentDir (stored_below s holds process a m found b) d listed page bound present
  bytes d _ other page m' inOther x inside := by
    have here := mapped_page s holds.toPagedRecords _ _ m found
    have there := mapped_page s holds.toPagedRecords _ _ m' inOther
    apply stored_outside s a m b
    intro inOwn
    have frames := (paged_invariant_exclusive s holds).apart _ _ _ _ m m' found inOther
      fun same => other (Prod.mk.inj same).1.symm
    rw [here.target, there.target] at frames
    exact frames (page_unique _ _ _ here.isPage there.isPage inOwn inside)

end Stored

/-! Heaps in pages mapped as writeable. -/

def HeapMapped (s : Paging) (d : Word) (start n : Nat) : Prop :=
  ∀ x : Word, Within start (start + n) x →
    ∃ m, s.mapping d (x.toNat / 4096) = some m ∧ m.flags &&& 2#32 ≠ 0#32

/-- No table from `start` on is one that the directory has as read-only. -/
def DirectoryWriteable (s : Paging) (d : Word) (start : Nat) : Prop :=
  ∀ t < 1024, start < (t + 1) * 4194304 → Present (s.entry d t) → s.entry d t &&& 2#32 ≠ 0#32

structure HeapPaged (s : Paging) (d : Word) (start n : Nat) : Prop where
  listed : s.Listed d
  process : d ≠ s.kernelDirectory
  aligned : (start + n) % 4096 = 0
  mapped : HeapMapped s d start n

/-- The heap of `d` as `heap.c` meets it, with the directory current. -/
structure HeapCurrent (d : Word) (start n : Nat) (s : Paging) : Prop where
  holds : PagedInvariant s
  current : s.currentDir = d
  paged : HeapPaged s d start n

/-- Stores to mapped pages behave like stores to memory, and keep whatever they
keep one by one. -/
theorem heap_current_backs (d : Word) (start n : Nat) (extra : Paging → Prop)
    (kept : ∀ s, PagedInvariant s → s.currentDir = d → s.Listed d → d ≠ s.kernelDirectory →
      ∀ a m b, s.mapping d (a.toNat / 4096) = some m → extra s → extra (s.stored m a b)) :
    Backs start (start + n) fun s => HeapCurrent d start n s ∧ extra s where
  readable := by
    rintro s a ⟨⟨holds, rfl, paged⟩, _⟩ inside
    obtain ⟨m, found, _⟩ := paged.mapped a inside
    exact (view_mapped s holds m a found).1
  writable := by
    rintro s a ⟨⟨holds, rfl, paged⟩, more⟩ inside b
    obtain ⟨m, found, _⟩ := paged.mapped a inside
    have after := stored_invariant s holds paged.process a m found b
    refine ⟨s.stored m a b, store_mapped s holds a m found b,
      ⟨⟨after, rfl, paged.listed, paged.process, paged.aligned, paged.mapped⟩,
        kept s holds rfl paged.listed paged.process a m b found more⟩, fun x range => ?_⟩
    obtain ⟨m', inHeap, _⟩ := paged.mapped x range
    exact stored_view s holds a m found b x m' inHeap after

/-! A page more. -/

theorem page_flags_writeable (isKernel : Word) : pageFlags 1#32 isKernel &&& 2#32 ≠ 0#32 := by
  rw [pageFlags, if_pos (by decide)]
  split <;> decide

section Grown
variable (d : Word) (start n : Nat) (s : Paging) (heap : HeapCurrent d start n s)
  (top : start + n + 4096 < 2 ^ 32) (isKernel frame : Word) (after : Paging)
  (allocated : allocPage s d (BitVec.ofNat 32 (start + n)) 1#32 isKernel = some (frame, after))
  (low : after.placeAddr.toNat ≤ KERNEL_MEM_END.toNat)
include heap top allocated low

/-- What mapping the page at `start + n` leaves of the other pages. -/
structure PageGrown (d : Word) (end_ : Nat) (s after : Paging) : Prop where
  holds : PagedInvariant after
  roots : SameRoots s after
  currentDir : after.currentDir = s.currentDir
  own : ∃ m, after.mapping d (end_ / 4096) = some m ∧ m.flags &&& 2#32 ≠ 0#32
  mappings : ∀ d' page, (d', page) ≠ (d, end_ / 4096) → after.mapping d' page = s.mapping d' page
  table : Present (s.entry d (end_ / 4096 / 1024)) ∨
    after.entry d (end_ / 4096 / 1024) &&& 2#32 ≠ 0#32
  entries : ∀ d', s.Listed d' → d' ≠ s.kernelDirectory → ∀ t < 1024,
    Present (s.entry d' t) ∨ ¬ (d' = d ∧ t = end_ / 4096 / 1024) → after.entry d' t = s.entry d' t
  ptes : ∀ d', s.Listed d' → d' ≠ s.kernelDirectory → d' ≠ d → ∀ page < 2 ^ 20,
    Present (s.entry d' (page / 1024)) → after.pte d' page = s.pte d' page
  bytes : ∀ d', d' ≠ s.kernelDirectory → ∀ page m, s.mapping d' page = some m →
    ∀ x, InSpan m.frame 4096 x → after.mem x = s.mem x

theorem page_grown : PageGrown d (start + n) s after := by
  have limit := kernel_mem_end
  have pages : kernelPages = 4080 := rfl
  have before := heap.holds.low
  have address : (BitVec.ofNat 32 (start + n)).toNat = start + n := by
    rw [BitVec.toNat_ofNat]
    omega
  have holds := alloc_page_kept s after heap.holds d _ 1#32 isKernel frame heap.paged.listed allocated low
  obtain ⟨k, first, rfl, maps, table⟩ := alloc_page_result s heap.holds.layout (by omega) d _ 1#32 isKernel
    heap.paged.listed frame after allocated
  have keeps := maps.keeps
  have others := maps.entries
  have mappings := maps.mappings
  rw [address] at table keeps others mappings
  refine ⟨holds, keeps.roots, keeps.currentDir, ⟨⟨d, (start + n) / 4096, BitVec.ofNat 32 (4096 * k),
    pageFlags 1#32 isKernel⟩, ?_, page_flags_writeable isKernel⟩, ?_, ?_, ?_, ?_, ?_⟩
  · rw [Paging.mapping, mappings, latest_cons]
    exact if_pos rfl
  · intro d' page other
    rw [Paging.mapping, mappings, latest_cons, if_neg fun same => other same.symm]
    rfl
  · by_cases present : Present (s.entry d ((start + n) / 4096 / 1024))
    · exact Or.inl present
    · right
      rw [table present, flagged_and _ _ _ heap.holds.layout.aligned (by decide),
        (table_flags_small 1#32 isKernel).2.1]
      exact page_flags_writeable isKernel
  · rintro d' listed process t bound (present | other)
    · exact keeps.entries d' listed t bound present
    · exact others d' listed (Or.inl process) t bound other
  · intro d' listed process other page bound present
    exact keeps.ptes d' listed page bound present (Or.inr process) fun same =>
      other (Prod.mk.inj (Option.some.inj same)).1.symm
  · intro d' process page m found x inside
    have above := mapped_above s heap.holds d' page m found process
    obtain ⟨j, bound, frame⟩ := (mapped_page s heap.holds.toPagedRecords d' page m found).frame
    have value := frame_toNat j bound
    rw [frame] at above inside
    rw [in_span_iff _ 4096 x (by omega)] at inside
    exact keeps.above x (by omega)

theorem grown_current : HeapCurrent d start (n + 4096) after := by
  have grown := page_grown d start n s heap top isKernel frame after allocated low
  have aligned := heap.paged.aligned
  refine ⟨grown.holds, grown.currentDir.trans heap.current,
    (listed_same s after grown.roots d).mpr heap.paged.listed, ?_, by omega, ?_⟩
  · rw [grown.roots.kernelDirectory]
    exact heap.paged.process
  · intro x inside
    unfold Within at inside
    -- the heap ended at a page boundary, so nothing before its end is in the new page
    by_cases new : x.toNat / 4096 = (start + n) / 4096
    · rw [new]
      exact grown.own
    · obtain ⟨m, found, writeable⟩ := heap.paged.mapped x ⟨inside.1, by omega⟩
      refine ⟨m, ?_, writeable⟩
      rw [grown.mappings d _ fun same => new (Prod.mk.inj same).2]
      exact found

theorem grown_writeable (writeable : DirectoryWriteable s d start) : DirectoryWriteable after d start := by
  have grown := page_grown d start n s heap top isKernel frame after allocated low
  have listed := heap.paged.listed
  intro t bound reach present
  -- the only table that can be new is that of the page, made with the write flag
  by_cases table : t = (start + n) / 4096 / 1024 ∧ ¬ Present (s.entry d t)
  · obtain ⟨rfl, absent⟩ := table
    exact grown.table.resolve_left absent
  · have old := grown.entries d listed heap.paged.process t bound (by tauto)
    rw [old] at present ⊢
    exact writeable t bound reach present

theorem grown_others : OthersKept s after d := by
  have grown := page_grown d start n s heap top isKernel frame after allocated low
  exact ⟨grown.roots, fun d' other page => grown.mappings d' page fun same => other (Prod.mk.inj same).1,
    fun d' listed process other t bound =>
      grown.entries d' listed process t bound (Or.inr fun both => other both.1),
    grown.ptes, fun d' process _ => grown.bytes d' process⟩

theorem grown_view (x : Word) (inside : Within start (start + n) x) : view after x = view s x := by
  have grown := page_grown d start n s heap top isKernel frame after allocated low
  have aligned := heap.paged.aligned
  obtain ⟨m, found, _⟩ := heap.paged.mapped x inside
  have same : after.mapping after.currentDir (x.toNat / 4096) = some m := by
    rw [grown.currentDir, heap.current, grown.mappings d _ fun same => ?_]
    · exact found
    · have number := (Prod.mk.inj same).2
      unfold Within at inside
      omega
  rw [(view_mapped after grown.holds m x same).2,
    (view_mapped s heap.holds m x (heap.current.symm ▸ found)).2]
  exact grown.bytes d heap.paged.process _ m found _ (in_frame m.frame x)

end Grown

/-- The states a process with the directory `d` leaves when it starts from
`before`, while the heap has `n` bytes. -/
structure HeapValid (before : Paging) (d : Word) (start n : Nat) (s : Paging) : Prop where
  heap : HeapCurrent d start n s
  header : 6 ≤ n
  writeable : DirectoryWriteable s d start
  others : OthersKept before s d

theorem heap_paging_backing (before : Paging) (start d : Word) :
    HeapBacking start d (HeapValid before d start.toNat) where
  access n _ := by
    by_cases header : 6 ≤ n
    · rw [Nat.max_eq_left header]
      have back := heap_current_backs d start.toNat n
        (fun s => DirectoryWriteable s d start.toNat ∧ OthersKept before s d) (by
          rintro s holds rfl listed process a m b found ⟨writeable, others⟩
          refine ⟨fun t bound reach present => ?_,
            others_trans _ _ _ _ others (stored_others s holds process a m found b)⟩
          have entry : (s.stored m a b).entry s.currentDir t = s.entry s.currentDir t :=
            frames_entry s holds _ s.currentDir (stored_below s holds process a m found b) _ listed t bound
          rw [entry] at present ⊢
          exact writeable t bound reach present)
      constructor
      · intro s a valid inside
        exact back.readable ⟨valid.heap, valid.writeable, valid.others⟩ inside
      · intro s a valid inside b
        obtain ⟨after, stored, ⟨heap, writeable, others⟩, seen⟩ :=
          back.writable ⟨valid.heap, valid.writeable, valid.others⟩ inside b
        exact ⟨after, stored, ⟨heap, header, writeable, others⟩, seen⟩
    · exact ⟨fun valid _ => absurd valid.header header, fun valid _ => absurd valid.header header⟩
  grow := by
    intro n s isKernel address after valid top _ returned
    obtain ⟨⟨frame, space⟩, allocated, checked⟩ := Option.bind_eq_some_iff.mp returned
    dsimp only at checked
    split at checked
    next low =>
      obtain ⟨rfl, rfl⟩ := Prod.mk.inj (Option.some.inj checked)
      exact ⟨⟨grown_current d _ n s valid.heap top isKernel frame space allocated low,
          Nat.le_trans valid.header (Nat.le_add_right _ _),
          grown_writeable d _ n s valid.heap top isKernel frame space allocated low valid.writeable,
          others_trans _ _ _ _ valid.others
            (grown_others d _ n s valid.heap top isKernel frame space allocated low)⟩,
        grown_view d _ n s valid.heap top isKernel frame space allocated low⟩
    next => simp at checked

end GargOS
