import GargOS.PagingCalls

/-!
The directories that `init_paging` and `get_new_kernel_mapped_dir` make: the
loops over the pages below `KERNEL_MEM_END`, round by round.
-/

namespace GargOS
open ByteMemory Pages

def tablesFor (n : Nat) : Nat := (n + 1023) / 1024

theorem tables_next (n : Nat) : tablesFor (n + 1) = n / 1024 + 1 := by
  unfold tablesFor
  omega

theorem tables_here (n : Nat) : tablesFor n = if n % 1024 = 0 then n / 1024 else n / 1024 + 1 := by
  unfold tablesFor
  split <;> omega

theorem tables_last (n : Nat) : n / 1024 < tablesFor n ↔ n % 1024 ≠ 0 := by
  unfold tablesFor
  omega

theorem tables_few (n : Nat) (bound : n ≤ 4096) : tablesFor n ≤ 4 := by
  unfold tablesFor
  omega

theorem tables_earlier (n k : Nat) (earlier : k < n) : k / 1024 < tablesFor n := by
  unfold tablesFor
  omega

def identityMappings (d : Word) : Nat → List Mapping
  | 0 => []
  | n + 1 => ⟨d, n, BitVec.ofNat 32 (4096 * n), 0x3#32⟩ :: identityMappings d n

/-- The state of `init_paging` after `n` rounds of its loop. -/
structure Identity (base s : Paging) (n : Nat) : Prop where
  layout : Layout s
  roots : SameRoots base s
  place : s.placeAddr.toNat = base.placeAddr.toNat + 4096 * tablesFor n
  entries : ∀ t < 1024, (Present (s.entry s.kernelDirectory t) ↔ t < tablesFor n)
  writeable : ∀ t < 1024, Present (s.entry s.kernelDirectory t) → s.entry s.kernelDirectory t &&& 2#32 ≠ 0#32
  ptes : ∀ k < n, s.pte s.kernelDirectory k = BitVec.ofNat 32 (4096 * k) ||| 0x3#32
  behind : ∀ page < 2 ^ 20, n ≤ page → ¬ s.Walks s.kernelDirectory page
  bits : ∀ k < 2 ^ 20, s.bit k = decide (k < n)
  mappings : s.history.mappings = identityMappings s.kernelDirectory n

theorem page_number (n : Nat) (bound : n < 2 ^ 20) : (BitVec.ofNat 32 (4096 * n)).toNat / 4096 = n := by
  rw [frame_toNat n bound, Nat.mul_div_cancel_left n (by decide)]

theorem earlier_page_kept (s s' : Paging) (d : Word) (listed : s.Listed d) (n k : Nat)
    (keeps : Keeps s s' (some (d, n))) (earlier : k < n) (bound : n < 2 ^ 20)
    (table : Present (s.entry d (k / 1024)))
    (old : s.pte d k = BitVec.ofNat 32 (4096 * k) ||| 0x3#32) :
    s'.pte d k = BitVec.ofNat 32 (4096 * k) ||| 0x3#32 := by
  have mapped : Present (s.pte d k) := by
    rw [old, present_flagged _ _ (frame_is_page k (by omega))]
    decide
  rw [← old]
  refine keeps.ptes d listed k (by omega) table (Or.inl mapped) ?_
  simp only [ne_eq, Option.some.injEq, Prod.mk.injEq, true_and]
  omega

section IdentityRound
variable (base s s' : Paging) (n : Nat) (bound : n < 4096) (identity : Identity base s n)
  (maps : Maps s s' s.kernelDirectory (BitVec.ofNat 32 (4096 * n)) n 1#32 1#32)
include bound identity maps

/-- A table is taken exactly at the first page of its range. -/
theorem identity_place : s'.placeAddr.toNat = base.placeAddr.toNat + 4096 * tablesFor (n + 1) := by
  have taken := maps.place
  rw [page_number n (by omega)] at taken
  have here := identity.entries (n / 1024) (by omega)
  have last := tables_last n
  by_cases old : Present (s.entry s.kernelDirectory (n / 1024))
  · have inside := last.mp (here.mp old)
    rw [if_pos old, if_pos (Or.inl rfl)] at taken
    rw [taken, identity.place, tables_next, tables_here, if_neg inside, Nat.add_zero, Nat.add_zero]
  · have outside := fun inside => old (here.mpr (last.mpr inside))
    have full := tables_here n
    rw [if_pos (not_not.mp fun some => outside some)] at full
    rw [if_neg old, if_pos (Or.inl rfl)] at taken
    rw [taken, identity.place, tables_next, full]
    omega

/-- Nothing behind the page is mapped, since a new table has been cleared. -/
theorem identity_behind (page : Nat) (less : page < 2 ^ 20) (later : n + 1 ≤ page) :
    ¬ s'.Walks s'.kernelDirectory page := by
  have number := page_number n (by omega)
  have directory := maps.keeps.roots.kernelDirectory
  have entries := maps.entries s.kernelDirectory (Or.inl rfl) (Or.inr rfl)
  rw [number] at entries
  rintro ⟨table, mapped⟩
  rw [directory] at table mapped
  by_cases old : Present (s.entry s.kernelDirectory (page / 1024))
  · have same := maps.ptes _ (Or.inl rfl) (Or.inr rfl) page less old fun same => by
      rw [number] at same
      have here := (Prod.mk.inj same).2
      omega
    rw [same] at mapped
    exact identity.behind page less (by omega) ⟨old, mapped⟩
  · by_cases here : page / 1024 = n / 1024
    · have zero := maps.cleared
      rw [number] at zero
      rw [zero (here ▸ old) page less here (by omega)] at mapped
      exact mapped rfl
    · rw [entries _ (by omega) fun both => here both.2] at table
      exact old table

end IdentityRound

theorem identity_round (base s : Paging) (room : base.placeAddr.toNat + 65536 ≤ 2 ^ 31) (n : Nat)
    (bound : n < 4096) (identity : Identity base s n) :
    ∃ s', allocPage s s.kernelDirectory (BitVec.ofNat 32 (4096 * n)) 1#32 1#32 =
      some (BitVec.ofNat 32 (4096 * n), s') ∧ Identity base s' (n + 1) := by
  have tables := tables_few n (by omega)
  have first : FirstFree s n := by
    refine ⟨by omega, ?_, fun k less => ?_⟩
    · rw [identity.bits n (by omega)]
      simp
    · rw [identity.bits k (by omega)]
      exact decide_eq_true less
  have place := identity.place
  have number := page_number n (by omega)
  obtain ⟨s', allocated, maps, table⟩ := alloc_page_found s identity.layout (by omega)
    s.kernelDirectory (BitVec.ofNat 32 (4096 * n)) 1#32 1#32 (Or.inl rfl) n first
  rw [number] at table
  have keeps := maps.keeps
  have present := maps.present
  have pte := maps.pte
  have mappings := maps.mappings
  have entries := maps.entries s.kernelDirectory (Or.inl rfl) (Or.inr rfl)
  rw [number] at keeps present pte mappings entries
  have directory := keeps.roots.kernelDirectory
  refine ⟨s', allocated, keeps.layout, ?_, ?_, ?_, ?_, ?_, ?_, ?_, ?_⟩
  · exact ⟨directory.trans identity.roots.kernelDirectory,
      keeps.roots.frames.trans identity.roots.frames,
      keeps.roots.directories.trans identity.roots.directories⟩
  · exact identity_place base s s' n bound identity maps
  · intro t less
    rw [directory]
    by_cases same : t = n / 1024
    · subst same
      exact iff_of_true present (tables_earlier (n + 1) n (Nat.lt_succ_self n))
    · rw [entries t less fun both => same both.2, identity.entries t less]
      unfold tablesFor
      omega
  · intro t less here
    rw [directory] at here ⊢
    by_cases before : Present (s.entry s.kernelDirectory t)
    · rw [keeps.entries _ (Or.inl rfl) t less before]
      exact identity.writeable t less before
    · by_cases same : t = n / 1024
      · subst same
        rw [table before, flagged_and _ _ _ identity.layout.aligned (by decide)]
        decide
      · rw [entries t less fun both => same both.2] at here
        exact absurd here before
  · intro k less
    rw [directory]
    rcases Nat.lt_succ_iff_lt_or_eq.mp less with earlier | rfl
    · have inTable : Present (s.entry s.kernelDirectory (k / 1024)) := by
        rw [identity.entries _ (by omega)]
        exact tables_earlier n k earlier
      exact earlier_page_kept s s' _ (Or.inl rfl) n k keeps earlier (by omega) inTable
        (identity.ptes k earlier)
    · exact pte
  · exact identity_behind base s s' n bound identity maps
  · intro k less
    rw [maps.bits k less, identity.bits k less, ← Bool.decide_or]
    exact decide_eq_decide.mpr (by omega)
  · rw [mappings, identity.mappings, directory]
    rfl

theorem identity_rounds_result (base : Paging) (start : Identity base base 0)
    (room : base.placeAddr.toNat + 65536 ≤ 2 ^ 31) (n : Nat) (bound : n ≤ kernelPages) :
    ∃ s, identityRounds base n = some s ∧ Identity base s n := by
  unfold kernelPages at bound
  induction n with
  | zero => exact ⟨base, rfl, start⟩
  | succ n ih =>
      obtain ⟨s, done, identity⟩ := ih (by omega)
      obtain ⟨s', allocated, identity'⟩ := identity_round base s room n (by omega) identity
      refine ⟨s', ?_, identity'⟩
      simp only [identityRounds, done, Option.bind_eq_bind, Option.bind_some, allocated]

theorem align_place_addr_result (rounds : Nat) (a : Word) (low : a.toNat ≤ 2 ^ 31)
    (enough : 4096 ≤ a.toNat % 4096 + rounds ∨ a.toNat % 4096 = 0) :
    (alignPlaceAddr rounds a).toNat = (a.toNat + 4095) / 4096 * 4096 := by
  induction rounds generalizing a with
  | zero =>
      rw [alignPlaceAddr]
      omega
  | succ rounds ih =>
      have rest : a % 0x1000#32 = 0#32 ↔ a.toNat % 4096 = 0 := by
        constructor
        · intro zero
          have value := congrArg BitVec.toNat zero
          rwa [BitVec.toNat_umod] at value
        · intro zero
          apply BitVec.eq_of_toNat_eq
          rw [BitVec.toNat_umod]
          exact zero
      rw [alignPlaceAddr]
      split
      next more =>
        have some : a.toNat % 4096 ≠ 0 := fun zero => more (rest.mpr zero)
        have next : (a + 1#32).toNat = a.toNat + 1 := by bv_omega
        rw [ih (a + 1#32) (by omega) (by omega), next]
        omega
      next done =>
        have zero := rest.mp (not_not.mp done)
        omega

theorem kmalloc_a_aligned (s : Paging) (aligned : IsPage s.placeAddr) (size : Word) :
    kmallocA s size = (s.placeAddr, { s with
      placeAddr := s.placeAddr + size
      history := { s.history with regions := ⟨s.placeAddr, size, none⟩ :: s.history.regions } }) :=
  kmalloc_all_aligned s aligned size true

theorem kmalloc_a_result (s : Paging) (size : Word) (low : s.placeAddr.toNat ≤ 2 ^ 30) :
    ∃ start, kmallocA s size = (start, { s with
        placeAddr := start + size
        history := { s.history with regions := ⟨start, size, none⟩ :: s.history.regions } }) ∧
      IsPage start ∧ s.placeAddr.toNat ≤ start.toNat ∧ start.toNat < s.placeAddr.toNat + 4096 := by
  refine ⟨_, rfl, ?_⟩
  have aligned := align_place_addr_result 0x1000 s.placeAddr (by omega) (by omega)
  unfold IsPage
  split
  · rw [aligned]
    omega
  next done =>
    have zero : s.placeAddr % 0x1000#32 = 0#32 := by
      by_contra some
      exact done ⟨rfl, some⟩
    have value := congrArg BitVec.toNat zero
    rw [BitVec.toNat_umod] at value
    refine ⟨value, Nat.le_refl _, by omega⟩

/-- The state in which `init_paging` enters its loop: the directory and the
bitset lie one behind the other and are cleared. -/
theorem identity_start (base : Paging) (page : IsPage base.kernelDirectory)
    (low : base.kernelDirectory.toNat ≤ 2 ^ 30)
    (frames : base.frames.toNat = base.kernelDirectory.toNat + 4096)
    (place : base.placeAddr.toNat = base.kernelDirectory.toNat + 135168)
    (directories : base.history.directories = []) (mappings : base.history.mappings = [])
    (zero : ∀ x, InSpan base.kernelDirectory 135168 x → base.mem x = 0#8) : Identity base base 0 := by
  -- the directory is empty, so that it and the bitset are all there is
  have only : ∀ d, base.Listed d → d = base.kernelDirectory := by
    intro d listed
    unfold Paging.Listed at listed
    rw [directories] at listed
    simpa using listed
  have bitset : ∀ i < 32, (base.bitsetPage i).toNat = base.kernelDirectory.toNat + 4096 + 4096 * i := by
    intro i bound
    unfold Paging.bitsetPage
    bv_omega
  have blankPage : ∀ p, IsPage p → base.kernelDirectory.toNat ≤ p.toNat →
      p.toNat + 4096 ≤ base.kernelDirectory.toNat + 135168 → ∀ i < 1024,
      load32 base.mem (cell p i) = 0#32 := by
    intro p isPage above below i bound
    refine load_cell_zero _ _ _ isPage bound fun x inside => zero x ?_
    rw [in_span_iff _ _ _ (by omega)] at inside
    rw [in_span_iff _ _ _ (by omega)]
    omega
  have absent : ∀ t < 1024, ¬ Present (base.entry base.kernelDirectory t) := by
    intro t bound
    rw [Paging.entry, blankPage _ page (Nat.le_refl _) (by omega) t bound]
    decide
  have none : tablesFor 0 = 0 := rfl
  refine ⟨⟨?_, by omega, ?_, ?_⟩, ⟨rfl, rfl, rfl⟩, by rw [none]; omega, ?_,
    fun t bound present => absurd present (absent t bound), fun k less => by omega,
    fun page bound _ here => absent _ (by omega) here.1, ?_, mappings⟩
  · unfold IsPage at *
    omega
  · intro r p home
    cases home with
    | bitset i bound =>
        have value := bitset i bound
        unfold IsPage at *
        omega
    | directory _ listed =>
        rw [only p listed]
        exact ⟨page, by omega⟩
    | table d t listed bound present => exact absurd (only d listed ▸ present) (absent t bound)
  · intro r r' p first second
    cases first with
    | bitset i bound =>
        have value := bitset i bound
        generalize base.bitsetPage i = q at *
        cases second with
        | bitset j bound' =>
            have other := bitset j bound'
            have same : i = j := by omega
            rw [same]
        | directory _ listed =>
            have here := congrArg BitVec.toNat (only _ listed)
            omega
        | table d t listed bound' present => exact absurd (only d listed ▸ present) (absent t bound')
    | directory _ listed =>
        have here := congrArg BitVec.toNat (only p listed)
        cases second with
        | bitset j bound' =>
            have other := bitset j bound'
            omega
        | directory _ _ => rfl
        | table d t listed' bound' present =>
            exact absurd (only d listed' ▸ present) (absent t bound')
    | table d t listed bound present => exact absurd (only d listed ▸ present) (absent t bound)
  · intro t bound
    exact iff_of_false (absent t bound) (by rw [none]; omega)
  · intro k bound
    have value := bitset (k / 32768) (by omega)
    have isPage : IsPage (base.bitsetPage (k / 32768)) := by
      unfold IsPage at *
      omega
    rw [Paging.bit, blankPage _ isPage (by omega) (by omega) _ (Nat.mod_lt _ (by decide))]
    simp

/-- The state in which `init_paging` enters its loop, and what it does from there. -/
structure LoopEntered (s base : Paging) : Prop where
  returns : initPaging s =
    (identityRounds base kernelPages).map fun s => { s with currentDir := s.kernelDirectory }
  start : Identity base base 0
  directories : base.history.directories = []
  above : s.placeAddr.toNat ≤ base.kernelDirectory.toNat
  frames : base.frames.toNat = base.kernelDirectory.toNat + 4096
  place : base.placeAddr.toNat ≤ s.placeAddr.toNat + 139264
  blank : ∀ t < 1024, base.entry base.kernelDirectory t = 0#32

theorem init_paging_base (s : Paging) (low : s.placeAddr.toNat ≤ KERNEL_MEM_END.toNat)
    (empty : s.history = ⟨[], [], []⟩) : ∃ base, LoopEntered s base := by
  have limit : KERNEL_MEM_END.toNat = 16711680 := rfl
  obtain ⟨kd, first, page, above, below⟩ := kmalloc_a_result s 4096#32 (by omega)
  have next : (kd + 4096#32).toNat = kd.toNat + 4096 := by bv_omega
  have aligned : IsPage (kd + 4096#32) := by
    unfold IsPage at *
    omega
  have words : 4#32 * INDEX_FROM_BIT nframes = 131072#32 := by decide
  have bytes : (INDEX_FROM_BIT (4#32 * nframes)).toNat = 131072 := by decide
  have last : (kd + 4096#32 + 131072#32).toNat = kd.toNat + 135168 := by bv_omega
  let base : Paging := ⟨memset (memset s.mem kd 0#8 4096) (kd + 4096#32) 0#8 131072,
    kd + 4096#32 + 131072#32, kd, kd + 4096#32, s.currentDir,
    ⟨[⟨kd + 4096#32, 131072#32, none⟩, ⟨kd, 4096#32, none⟩], [], []⟩⟩
  have zero : ∀ x, InSpan kd 135168 x → base.mem x = 0#8 := by
    intro x inside
    show memset (memset s.mem kd 0#8 4096) (kd + 4096#32) 0#8 131072 x = 0#8
    rw [memset_apply _ _ _ _ _ (by decide), memset_apply _ _ _ _ _ (by decide)]
    by_cases inBitset : InSpan (kd + 4096#32) 131072 x
    · rw [if_pos inBitset]
    · rw [if_neg inBitset, if_pos]
      rw [in_span_iff _ _ _ (by omega)] at *
      omega
  refine ⟨base, ?_, identity_start base page (by dsimp only [base]; omega) next last rfl rfl zero, rfl,
    above, next, by dsimp only [base]; omega, fun t bound => ?_⟩
  · have second := kmalloc_a_aligned { s with
          placeAddr := kd + 4096#32
          history := ⟨[⟨kd, 4096#32, none⟩], [], []⟩
          kernelDirectory := kd
          mem := memset s.mem kd 0#8 4096 } aligned 131072#32
    unfold initPaging
    rw [first, empty]
    dsimp only
    rw [words, second]
    dsimp only
    rw [bytes]
    change (identityRounds base kernelPages).bind _ = _
    generalize identityRounds base kernelPages = result
    cases result with
    | none => rfl
    | some s' => rfl
  · refine load_cell_zero _ _ _ page bound fun x inside => zero x ?_
    change InSpan kd 4096 x at inside
    rw [in_span_iff _ _ _ (by omega)] at inside ⊢
    omega

theorem init_paging_result (s : Paging) (low : s.placeAddr.toNat ≤ KERNEL_MEM_END.toNat)
    (empty : s.history = ⟨[], [], []⟩) :
    ∃ base s', initPaging s = some s' ∧ Identity base s' kernelPages ∧ base.history.directories = [] ∧
      s'.currentDir = s'.kernelDirectory ∧ base.placeAddr.toNat ≤ s.placeAddr.toNat + 139264 := by
  have limit : KERNEL_MEM_END.toNat = 16711680 := rfl
  obtain ⟨base, enters⟩ := init_paging_base s low empty
  have place := enters.place
  obtain ⟨s', rounds, identity⟩ := identity_rounds_result base enters.start (by omega) kernelPages
    (Nat.le_refl _)
  refine ⟨base, { s' with currentDir := s'.kernelDirectory }, ?_, ?_, enters.directories, rfl, place⟩
  · rw [enters.returns, rounds]
    rfl
  · exact ⟨layout_same s' _ identity.layout ⟨rfl, rfl, rfl⟩ rfl fun _ _ _ _ => rfl,
      ⟨identity.roots.kernelDirectory, identity.roots.frames, identity.roots.directories⟩,
      identity.place, identity.entries, identity.writeable, identity.ptes,
      identity.behind, identity.bits, identity.mappings⟩

/-- The state of `get_new_kernel_mapped_dir` after `n` rounds of its loop. -/
structure KernelMapped (base s : Paging) (d : Word) (n : Nat) : Prop where
  keeps : Keeps base s none
  mappings : s.history.mappings = base.history.mappings
  place : s.placeAddr.toNat = base.placeAddr.toNat + 4096 * tablesFor n
  bits : ∀ k < 2 ^ 20, s.bit k = base.bit k
  entries : ∀ t < 1024, (Present (s.entry d t) ↔ t < tablesFor n)
  writeable : ∀ t < 1024, Present (s.entry d t) → s.entry d t &&& 2#32 ≠ 0#32
  ptes : ∀ k < n, s.pte d k = BitVec.ofNat 32 (4096 * k) ||| 0x3#32
  others : ∀ d', base.Listed d' → d' ≠ d → ∀ t < 1024, s.entry d' t = base.entry d' t
  top : 0 < n → ∃ t < tablesFor n, (pageOf (s.entry d t)).toNat + 4096 = s.placeAddr.toNat

/-- `middle` is `s` once the table of page `n` is there, newly made or not. -/
structure TableReady (base s middle : Paging) (d : Word) (n : Nat) : Prop where
  keeps : Keeps s middle none
  mappings : middle.history.mappings = s.history.mappings
  place : middle.placeAddr.toNat = base.placeAddr.toNat + 4096 * tablesFor (n + 1)
  bits : ∀ k < 2 ^ 20, middle.bit k = s.bit k
  entries : ∀ t < 1024, (Present (middle.entry d t) ↔ t < tablesFor (n + 1))
  writeable : ∀ t < 1024, Present (middle.entry d t) → middle.entry d t &&& 2#32 ≠ 0#32
  others : ∀ d', s.Listed d' → d' ≠ d → ∀ t < 1024, middle.entry d' t = s.entry d' t
  top : ∃ t < tablesFor (n + 1), (pageOf (middle.entry d t)).toNat + 4096 = middle.placeAddr.toNat

theorem kernel_rounds_succ (s : Paging) (d : Word) (n : Nat) : kernelRounds s d (n + 1) =
    (withTable (kernelRounds s d n) d (BitVec.ofNat 32 (4096 * n))).store
      (element (pageOf ((withTable (kernelRounds s d n) d (BitVec.ofNat 32 (4096 * n))).load
        (element d (TABLE_INDEX_FROM_VIRTUAL_ADDRESS (BitVec.ofNat 32 (4096 * n))))))
        (PAGE_INDEX_FROM_VIRTUAL_ADDRESS (BitVec.ofNat 32 (4096 * n))))
      (BitVec.ofNat 32 (4096 * n) ||| 0x3#32) := rfl

section KernelRounds
variable (base s : Paging) (d : Word) (listed : base.Listed d)
  (room : base.placeAddr.toNat + 65536 ≤ 2 ^ 31) (n : Nat) (bound : n < 4080)
  (mapped : KernelMapped base s d n)
include listed room bound mapped

theorem kernel_table_ready : TableReady base s (withTable s d (BitVec.ofNat 32 (4096 * n))) d n := by
  have tables := tables_few n (by omega)
  have place := mapped.place
  have last := tables_last n
  have inOld : s.Listed d := (listed_same base s mapped.keeps.roots d).mpr listed
  have here := mapped.entries (n / 1024) (by omega)
  have cases := with_table_cases s mapped.keeps.layout d (BitVec.ofNat 32 (4096 * n)) inOld
  rw [page_number n (by omega)] at cases
  generalize withTable s d (BitVec.ofNat 32 (4096 * n)) = middle at cases ⊢
  rcases cases with ⟨present, rfl⟩ | ⟨new, installs, _⟩
  · -- a later page of a table that an earlier round has made
    have inside := last.mp (here.mp present)
    have same : tablesFor n = tablesFor (n + 1) := by
      rw [tables_next, tables_here, if_neg inside]
    exact ⟨keeps_refl middle mapped.keeps.layout, rfl, same ▸ place, fun _ _ => rfl,
      same ▸ mapped.entries, mapped.writeable, fun _ _ _ _ _ => rfl,
      same ▸ mapped.top (Nat.pos_of_ne_zero fun none => inside (by rw [none]))⟩
  · -- the first page of a table: the round makes it
    have first : n % 1024 = 0 := not_not.mp fun inside => new (here.mpr (last.mpr inside))
    have full := tables_here n
    rw [if_pos first] at full
    obtain ⟨keeps, bits, others, _⟩ := installs_result s mapped.keeps.layout _ _ _ _ inOld (by omega)
      new (by decide) (by omega) installs
    have top : (s.placeAddr + 4096#32).toNat = s.placeAddr.toNat + 4096 := by bv_omega
    refine ⟨keeps, installs.mappings, ?_, bits, fun t less => ?_, fun t less present => ?_,
      fun d' inOld' different t less => others d' inOld' t less fun both => different both.1,
      n / 1024, ?_, ?_⟩
    · rw [installs.place, tables_next, top, place, full]
      omega
    · by_cases same : t = n / 1024
      · subst same
        refine iff_of_true ?_ (by rw [tables_next]; omega)
        rw [installs.entry, present_flagged _ _ mapped.keeps.layout.aligned]
        decide
      · rw [others d inOld t less fun both => same both.2, mapped.entries t less, tables_next, full]
        omega
    · by_cases same : t = n / 1024
      · subst same
        rw [installs.entry, flagged_and _ _ _ mapped.keeps.layout.aligned (by decide)]
        decide
      · have old := others d inOld t less fun both => same both.2
        rw [old] at present ⊢
        exact mapped.writeable t less present
    · rw [tables_next]
      omega
    · rw [installs.entry, installs.place, page_of_flagged _ _ mapped.keeps.layout.aligned (by decide), top]

omit room in
theorem kernel_page_stored (absent : ∀ t < 1024, ¬ Present (base.entry d t)) (middle s' : Paging)
    (ready : TableReady base s middle d n)
    (stored : StoresPage middle s' d n (BitVec.ofNat 32 (4096 * n) ||| 0x3#32)) :
    KernelMapped base s' d (n + 1) := by
  have inOld : s.Listed d := (listed_same base s mapped.keeps.roots d).mpr listed
  have listed' : middle.Listed d := (listed_same s middle ready.keeps.roots d).mpr inOld
  have toMiddle := keeps_trans base s middle none none mapped.keeps ready.keeps (Or.inl rfl)
  have whole := keeps_trans base middle s' _ _ (keeps_weaken base middle _ toMiddle) stored.keeps
    (Or.inr rfl)
  have same := stored.entries d listed'
  refine ⟨keeps_absent base s' _ _ whole fun present => ?_, ?_, ?_, fun k less => ?_, fun t less => ?_,
    fun t less present => ?_, fun k less => ?_, fun d' inBase different t less => ?_, fun _ => ?_⟩
  · exact absurd present (absent _ (by omega))
  · rw [stored.history, ready.mappings, mapped.mappings]
  · rw [stored.place, ready.place]
  · rw [stored.bits k less, ready.bits k less, mapped.bits k less]
  · rw [same t less]
    exact ready.entries t less
  · rw [same t less] at present ⊢
    exact ready.writeable t less present
  · rcases Nat.lt_succ_iff_lt_or_eq.mp less with earlier | rfl
    · have inTable : Present (s.entry d (k / 1024)) := by
        rw [mapped.entries _ (by omega)]
        exact tables_earlier n k earlier
      have both := keeps_trans s middle s' _ _ (keeps_weaken s middle _ ready.keeps) stored.keeps
        (Or.inr rfl)
      exact earlier_page_kept s s' d inOld n k both earlier (by omega) inTable
        (mapped.ptes k earlier)
    · exact stored.pte
  · have inOld' := (listed_same base s mapped.keeps.roots d').mpr inBase
    rw [stored.entries d' ((listed_same s middle ready.keeps.roots d').mpr inOld') t less,
      ready.others d' inOld' different t less, mapped.others d' inBase different t less]
  · obtain ⟨t, inUse, last⟩ := ready.top
    have few := tables_few (n + 1) (by omega)
    refine ⟨t, inUse, ?_⟩
    rw [same t (by omega), stored.place]
    exact last

end KernelRounds

theorem kernel_rounds_result (base : Paging) (layout : Layout base) (d : Word) (listed : base.Listed d)
    (room : base.placeAddr.toNat + 65536 ≤ 2 ^ 31) (blank : ∀ t < 1024, base.entry d t = 0#32)
    (n : Nat) (bound : n ≤ kernelPages) : KernelMapped base (kernelRounds base d n) d n := by
  unfold kernelPages at bound
  have absent : ∀ t < 1024, ¬ Present (base.entry d t) := by
    intro t less
    rw [blank t less]
    decide
  induction n with
  | zero =>
      have none : tablesFor 0 = 0 := rfl
      refine ⟨keeps_refl base layout, rfl, by rw [none]; rfl, fun _ _ => rfl, fun t less => ?_,
        fun t less present => absurd present (absent t less), fun k less => by omega, fun _ _ _ _ _ => rfl,
        fun some => absurd some (Nat.lt_irrefl 0)⟩
      exact iff_of_false (absent t less) (by rw [none]; omega)
  | succ n ih =>
      have mapped := ih (by omega)
      have number := page_number n (by omega)
      rw [kernel_rounds_succ]
      generalize kernelRounds base d n = s at mapped ⊢
      have ready := kernel_table_ready base s d listed room n (by omega) mapped
      generalize withTable s d (BitVec.ofNat 32 (4096 * n)) = middle at ready ⊢
      have inOld : s.Listed d := (listed_same base s mapped.keeps.roots d).mpr listed
      have table : Present (middle.entry d ((BitVec.ofNat 32 (4096 * n)).toNat / 4096 / 1024)) := by
        rw [number, ready.entries _ (by omega), tables_next]
        omega
      have stored := store_page middle ready.keeps.layout d (BitVec.ofNat 32 (4096 * n))
        (BitVec.ofNat 32 (4096 * n) ||| 0x3#32)
        ((listed_same s middle ready.keeps.roots d).mpr inOld) table
      rw [number] at stored
      exact kernel_page_stored base s d listed n (by omega) mapped absent middle _ ready stored

/-- A directory for a process: the pages below `KERNEL_MEM_END` and nothing else. -/
structure NewDirectory (s s' : Paging) (d : Word) : Prop where
  layout : Layout s'
  kernelDirectory : s'.kernelDirectory = s.kernelDirectory
  frames : s'.frames = s.frames
  currentDir : s'.currentDir = s.currentDir
  directories : s'.history.directories = d :: s.history.directories
  mappings : s'.history.mappings = s.history.mappings
  fresh : ¬ s.Listed d
  place : s'.placeAddr.toNat = s.placeAddr.toNat + 20480
  entries : ∀ d', s.Listed d' → ∀ t < 1024, s'.entry d' t = s.entry d' t
  ptes : ∀ d', s.Listed d' → ∀ page < 2 ^ 20, Present (s.entry d' (page / 1024)) →
    Present (s.pte d' page) → s'.pte d' page = s.pte d' page
  bits : ∀ n < 2 ^ 20, s'.bit n = s.bit n
  own : ∀ t < 1024, (Present (s'.entry d t) ↔ t < 4) ∧
    (Present (s'.entry d t) → s'.entry d t &&& 2#32 ≠ 0#32)
  half : ∀ k < kernelPages, s'.pte d k = BitVec.ofNat 32 (4096 * k) ||| 0x3#32
  top : ∃ t < 1024, Present (s'.entry d t) ∧ (pageOf (s'.entry d t)).toNat + 4096 = s'.placeAddr.toNat

theorem directory_cleared (s base : Paging) (layout : Layout s) (room : s.placeAddr.toNat + 131072 ≤ 2 ^ 31)
    (shape : ({ s with
      mem := memset s.mem s.placeAddr 0#8 4096
      placeAddr := s.placeAddr + 4096#32
      history := ⟨⟨s.placeAddr, 4096#32, none⟩ :: s.history.regions,
        s.placeAddr :: s.history.directories, s.history.mappings⟩ } : Paging) = base) :
    Layout base ∧ (∀ r p, s.Home r p → PageKept s.mem base.mem p) ∧
      (∀ d, s.Listed d → ∀ t < 1024, base.entry d t = s.entry d t) ∧
      ∀ t < 1024, base.entry s.placeAddr t = 0#32 := by
  have memory : ∀ x, base.mem x = if InSpan s.placeAddr 4096 x then 0#8 else s.mem x := by
    intro x
    rw [← shape]
    exact memset_apply _ _ _ _ _ (by decide)
  have kept : ∀ r p, s.Home r p → PageKept s.mem base.mem p := by
    intro r p home
    have housed := layout.housed r p home
    refine page_kept_outside _ _ _ _ housed.1 layout.aligned ?_ fun x outside => ?_
    · rintro rfl
      omega
    · rw [memory, if_neg outside]
  have entries : ∀ d, s.Listed d → ∀ t < 1024, base.entry d t = s.entry d t := by
    intro d listed t bound
    have home := Paging.Home.directory d listed
    exact entry_kept s base d t (layout.housed _ _ home).1 bound (kept _ _ home)
  have blank : ∀ t < 1024, base.entry s.placeAddr t = 0#32 := by
    intro t bound
    refine load_cell_zero _ _ _ layout.aligned bound fun x inside => ?_
    rw [memory, if_pos inside]
  refine ⟨?_, kept, entries, blank⟩
  subst shape
  exact layout_directory s _ layout rfl rfl rfl (by omega) rfl entries blank

theorem new_directory_result (s : Paging) (layout : Layout s)
    (room : s.placeAddr.toNat + 131072 ≤ 2 ^ 31) :
    (getNewKernelMappedDir s).1 = s.placeAddr ∧
      NewDirectory s (getNewKernelMappedDir s).2 s.placeAddr := by
  have first := kmalloc_a_aligned s layout.aligned 4096#32
  have top : (s.placeAddr + 4096#32).toNat = s.placeAddr.toNat + 4096 := by bv_omega
  unfold getNewKernelMappedDir
  rw [first]
  dsimp only
  refine ⟨rfl, ?_⟩
  generalize shape : ({ s with
    mem := memset s.mem s.placeAddr 0#8 4096
    placeAddr := s.placeAddr + 4096#32
    history := ⟨⟨s.placeAddr, 4096#32, none⟩ :: s.history.regions,
      s.placeAddr :: s.history.directories, s.history.mappings⟩ } : Paging) = base
  obtain ⟨layout1, kept, entries, blank⟩ := directory_cleared s base layout room shape
  have place : base.placeAddr.toNat = s.placeAddr.toNat + 4096 := by
    rw [← shape]
    exact top
  have roots : base.kernelDirectory = s.kernelDirectory ∧ base.frames = s.frames ∧
      base.currentDir = s.currentDir ∧
      base.history.directories = s.placeAddr :: s.history.directories ∧
      base.history.mappings = s.history.mappings := by
    rw [← shape]
    exact ⟨rfl, rfl, rfl, rfl, rfl⟩
  obtain ⟨kernelDirectory, frames, currentDir, directories, mappings⟩ := roots
  have more : ∀ d, s.Listed d → base.Listed d := by
    intro d listed
    unfold Paging.Listed at *
    rw [kernelDirectory, directories]
    exact listed.imp_right (List.mem_cons_of_mem _)
  have mine : base.Listed s.placeAddr := by
    unfold Paging.Listed
    rw [directories]
    exact Or.inr List.mem_cons_self
  have mapped := kernel_rounds_result base layout1 s.placeAddr mine (by omega) blank kernelPages
    (Nat.le_refl _)
  have four : tablesFor kernelPages = 4 := rfl
  have size := mapped.place
  have own := mapped.entries
  -- the kernel's half takes four tables, the last of them only in part
  obtain ⟨t, inUse, last⟩ := mapped.top (by decide)
  rw [four] at size own inUse
  generalize kernelRounds base s.placeAddr kernelPages = s' at mapped size own last ⊢
  have fresh : ¬ s.Listed s.placeAddr := by
    intro listed
    have below := (layout.housed _ _ (Paging.Home.directory _ listed)).2
    omega
  refine ⟨mapped.keeps.layout, mapped.keeps.roots.kernelDirectory.trans kernelDirectory,
    mapped.keeps.roots.frames.trans frames, mapped.keeps.currentDir.trans currentDir,
    mapped.keeps.roots.directories.trans directories, mapped.mappings.trans mappings, fresh, by omega,
    ?_, ?_, ?_, fun t bound => ⟨own t bound, mapped.writeable t bound⟩, mapped.ptes,
    t, by omega, (own t (by omega)).mpr inUse, last⟩
  · intro d listed t bound
    have different : d ≠ s.placeAddr := fun same => fresh (same ▸ listed)
    rw [mapped.others d (more d listed) different t bound, entries d listed t bound]
  · intro d listed page bound table present
    have same := entries d listed (page / 1024) (by omega)
    have home := Paging.Home.table d (page / 1024) listed (by omega) table
    have entry := pte_kept s base d page same (kept _ _ home)
    rw [← same] at table
    rw [← entry] at present ⊢
    exact mapped.keeps.ptes d (more d listed) page bound table (Or.inl present) (by simp)
  · intro n bound
    have home := Paging.Home.bitset (s := s) (n / 32768) (by omega)
    rw [mapped.bits n bound]
    exact bit_kept s base n frames (layout.housed _ _ home).1 (kept _ _ home)

end GargOS
