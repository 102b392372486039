import GargOS.Isolation
import GargOS.KernelHalf
import GargOS.KernelMemory

/-!
Data of the kernel that paging.c has taken no part of: its calls leave the
bytes alone, whatever other memory they take, and so do the stores of processes.
-/

namespace GargOS
open ByteMemory AddressSpace Pages Ledger Runs

/-- `data` lies below what is taken next, and in none of the structures. -/
structure Spares (data : Word → Prop) (s : Paging) : Prop where
  place : ∀ x, data x → x.toNat < s.placeAddr.toNat
  homes : ∀ r p, s.Home r p → ∀ x, data x → ¬ InSpan p 4096 x

structure KeepsData (data : Word → Prop) (s after : Paging) : Prop where
  spares : Spares data after
  kept : ∀ x, data x → after.mem x = s.mem x

theorem keeps_data_trans (data : Word → Prop) (s middle after : Paging) (first : KeepsData data s middle)
    (second : KeepsData data middle after) : KeepsData data s after :=
  ⟨second.spares, fun x inside => (second.kept x inside).trans (first.kept x inside)⟩

section Calls
variable (data : Word → Prop) (s : Paging) (spares : Spares data s)
include spares

theorem keeps_data_refl : KeepsData data s s := ⟨spares, fun _ _ => rfl⟩

theorem spares_same (after : Paging) (roots : SameRoots s after)
    (place : s.placeAddr.toNat ≤ after.placeAddr.toNat) (same : ∀ d, s.Listed d → ∀ t < 1024, after.entry d t = s.entry d t) :
    Spares data after :=
  ⟨fun x inside => Nat.lt_of_lt_of_le (spares.place x inside) place,
    fun r p home => spares.homes r p (home_same s after roots same r p home)⟩

theorem taken_spares (p : Word) (above : s.placeAddr.toNat ≤ p.toNat) (fits : p.toNat + 4096 ≤ 2 ^ 32) (x : Word)
    (inside : data x) : ¬ InSpan p 4096 x := by
  have below := spares.place x inside
  rw [in_span_iff p 4096 x fits]
  omega

variable (layout : Layout s)
include layout

theorem store_keeps (r : Role) (p : Word) (home : s.Home r p) (i : Nat) (bound : i < 1024) (v : Word)
    (same : ∀ d, s.Listed d → ∀ t < 1024, (s.store (cell p i) v).entry d t = s.entry d t) :
    KeepsData data s (s.store (cell p i) v) :=
  ⟨spares_same data s spares _ ⟨rfl, rfl, rfl⟩ (Nat.le_refl _) same, fun x inside =>
    store_outside_page s p i (layout.housed r p home).1 bound v x (spares.homes r p home x inside)⟩

theorem installs_keeps (after : Paging) (d : Word) (t : Nat) (flags : Word) (listed : s.Listed d)
    (bound : t < 1024) (absent : ¬ Present (s.entry d t)) (small : flags.toNat < 4096)
    (room : s.placeAddr.toNat + 4096 ≤ 2 ^ 31) (installs : Installs s after d t flags) :
    KeepsData data s after := by
  obtain ⟨_, _, others, _⟩ := installs_result s layout after d t flags listed bound absent small room installs
  have top : after.placeAddr.toNat = s.placeAddr.toNat + 4096 := by
    rw [installs.place]
    bv_omega
  have directory := spares.homes _ _ (Paging.Home.directory d listed)
  have fresh := taken_spares data s spares s.placeAddr (Nat.le_refl _) (by omega)
  refine ⟨⟨fun x inside => ?_, fun r p home => ?_⟩, fun x inside => ?_⟩
  · have below := spares.place x inside
    omega
  · cases home with
    | bitset i bound =>
        have same : after.bitsetPage i = s.bitsetPage i := by
          unfold Paging.bitsetPage
          rw [installs.roots.frames]
        rw [same]
        exact spares.homes _ _ (Paging.Home.bitset i bound)
    | directory _ inUse =>
        have earlier := (listed_same s after installs.roots p).mp inUse
        exact spares.homes _ _ (Paging.Home.directory p earlier)
    | table d' t' inUse bound' present =>
        have earlier := (listed_same s after installs.roots d').mp inUse
        by_cases here : d' = d ∧ t' = t
        · obtain ⟨rfl, rfl⟩ := here
          rw [installs.entry, page_of_flagged _ _ layout.aligned small]
          exact fresh
        · rw [others d' earlier t' bound' here] at present ⊢
          exact spares.homes _ _ (Paging.Home.table d' t' earlier bound' present)
  · have page := page_of_is_page x
    have offset := page_of_toNat x
    have own : InSpan (pageOf x) 4096 x := by
      unfold InSpan
      bv_omega
    refine installs.kept (pageOf x) page ?_ ?_ x own
    · rintro rfl
      exact directory x inside own
    · intro here
      exact fresh x inside (here ▸ own)

theorem with_table_keeps (room : s.placeAddr.toNat + 4096 ≤ 2 ^ 31) (d v : Word) (listed : s.Listed d) :
    KeepsData data s (withTable s d v) := by
  rcases with_table_cases s layout d v listed with ⟨_, same⟩ | ⟨absent, installs, _⟩
  · rw [same]
    exact keeps_data_refl data s spares
  · exact installs_keeps data s spares layout _ d _ _ listed (by omega) absent (by decide) room installs

theorem store_page_keeps (d v w : Word) (listed : s.Listed d)
    (present : Present (s.entry d (v.toNat / 4096 / 1024))) :
    KeepsData data s (s.store (element (pageOf (s.load (element d (TABLE_INDEX_FROM_VIRTUAL_ADDRESS v))))
      (PAGE_INDEX_FROM_VIRTUAL_ADDRESS v)) w) := by
  have stored := (store_page s layout d v w listed present).entries
  rw [load_entry, element_page] at stored ⊢
  exact store_keeps data s spares layout _ _ (Paging.Home.table d _ listed (by omega) present) _
    (Nat.mod_lt _ (by decide)) w stored

theorem write_bitset_keeps (frame : Word) : KeepsData data s (writeBitset s frame) := by
  have index := index_from_address frame
  have stored := (write_bitset_result s layout frame).2.1
  unfold writeBitset at stored ⊢
  dsimp only at stored ⊢
  rw [element_bitset s _ _ index] at stored ⊢
  exact store_keeps data s spares layout _ _ (Paging.Home.bitset _ (by omega)) _ (Nat.mod_lt _ (by decide)) _ stored

theorem add_frame_keeps (room : s.placeAddr.toNat + 4096 ≤ 2 ^ 31) (frame : Word) :
    KeepsData data s (addFrameToKernelDir s frame) := by
  have table := with_table_keeps data s spares layout room s.kernelDirectory frame (Or.inl rfl)
  obtain ⟨layout1, sameRoot, present⟩ := kernel_table_layout s layout room frame
  rw [add_frame_eq]
  generalize withTable s s.kernelDirectory frame = middle at table layout1 sameRoot present ⊢
  split
  · exact table
  · rw [sameRoot]
    exact keeps_data_trans data s middle _ table (store_page_keeps data middle table.spares layout1 _ frame _
      (Or.inl sameRoot.symm) present)

theorem map_page_keeps (room : s.placeAddr.toNat + 4096 ≤ 2 ^ 31) (d v physAddr isWriteable isKernel : Word)
    (listed : s.Listed d) (present : Present (s.entry d (v.toNat / 4096 / 1024))) :
    KeepsData data s (mapPage s d v physAddr isWriteable isKernel) := by
  have stored := store_page s layout d v (physAddr ||| pageFlags isWriteable isKernel) listed present
  have first := store_page_keeps data s spares layout d v (physAddr ||| pageFlags isWriteable isKernel) listed
    present
  have place1 : (s.store (element (pageOf (s.load (element d (TABLE_INDEX_FROM_VIRTUAL_ADDRESS v))))
    (PAGE_INDEX_FROM_VIRTUAL_ADDRESS v)) (physAddr ||| pageFlags isWriteable isKernel)).placeAddr = s.placeAddr := rfl
  unfold mapPage
  dsimp only
  generalize s.store (element (pageOf (s.load (element d (TABLE_INDEX_FROM_VIRTUAL_ADDRESS v))))
    (PAGE_INDEX_FROM_VIRTUAL_ADDRESS v)) (physAddr ||| pageFlags isWriteable isKernel) = s1 at stored first place1 ⊢
  have second := write_bitset_keeps data s1 first.spares stored.keeps.layout physAddr
  have layout2 := (write_bitset_result s1 stored.keeps.layout physAddr).1.layout
  have place2 : (writeBitset s1 physAddr).placeAddr = s1.placeAddr := rfl
  generalize writeBitset s1 physAddr = s2 at second layout2 place2 ⊢
  have both := keeps_data_trans data s s1 s2 first second
  split
  · have third := add_frame_keeps data s2 second.spares layout2 (by rw [place2, place1]; exact room) physAddr
    have all := keeps_data_trans data s s2 _ both third
    exact ⟨spares_same data _ all.spares _ ⟨rfl, rfl, rfl⟩ (Nat.le_refl _) fun _ _ _ _ => rfl, all.kept⟩
  · exact ⟨spares_same data s2 both.spares _ ⟨rfl, rfl, rfl⟩ (Nat.le_refl _) fun _ _ _ _ => rfl, both.kept⟩

theorem alloc_page_keeps (room : s.placeAddr.toNat + 8192 ≤ 2 ^ 31) (d v isWriteable isKernel frame : Word)
    (listed : s.Listed d) (after : Paging)
    (returned : allocPage s d v isWriteable isKernel = some (frame, after)) : KeepsData data s after := by
  obtain ⟨n, first, rfl, _, _⟩ := alloc_page_result s layout room d v isWriteable isKernel listed frame after
    returned
  rw [alloc_page_first s d v isWriteable isKernel n first] at returned
  by_cases present : Present (s.entry d (v.toNat / 4096 / 1024))
  · rw [alloc_page_pr_there s d v isWriteable isKernel n first.1 first.2.1 present] at returned
    obtain ⟨_, rfl⟩ := Prod.mk.inj (Option.some.inj returned)
    exact map_page_keeps data s spares layout (by omega) d v _ isWriteable isKernel listed present
  · have bound : (TABLE_INDEX_FROM_VIRTUAL_ADDRESS v).toNat < 1024 := by
      rw [table_index_toNat]
      omega
    have flags := table_flags_small isWriteable isKernel
    have installs := (install_table_installs s layout d (TABLE_INDEX_FROM_VIRTUAL_ADDRESS v) isWriteable
      isKernel listed bound).1
    rw [table_index_toNat] at installs
    obtain ⟨keeps, bits, _, _⟩ := installs_result s layout _ _ _ _ listed (by omega) present flags.1 (by omega)
      installs
    rw [alloc_page_pr_made s d v isWriteable isKernel n first.1 first.2.1 present n
      (first_free_same s _ bits n first)] at returned
    have table := installs_keeps data s spares layout _ d _ _ listed (by omega) present flags.1 (by omega) installs
    have top : (installTable s d (TABLE_INDEX_FROM_VIRTUAL_ADDRESS v) isWriteable isKernel).placeAddr.toNat =
        s.placeAddr.toNat + 4096 := by
      rw [installs.place]
      bv_omega
    generalize installTable s d (TABLE_INDEX_FROM_VIRTUAL_ADDRESS v) isWriteable isKernel = s1 at *
    have present1 : Present (s1.entry d (v.toNat / 4096 / 1024)) := by
      rw [installs.entry, present_flagged _ _ layout.aligned]
      exact flags.2.2
    obtain ⟨_, rfl⟩ := Prod.mk.inj (Option.some.inj returned)
    exact keeps_data_trans data s s1 _ table (map_page_keeps data s1 table.spares keeps.layout (by omega) d v _
      isWriteable isKernel ((listed_same s s1 installs.roots d).mpr listed) present1)

omit spares layout in
theorem listed_new (after : Paging) (d : Word) (new : NewDirectory s after d) (d' : Word)
    (listed : after.Listed d') : d' = d ∨ s.Listed d' := by
  unfold Paging.Listed at *
  rw [new.kernelDirectory, new.directories] at listed
  rcases listed with kernel | member
  · exact Or.inr (Or.inl kernel)
  · exact (List.mem_cons.mp member).imp id Or.inr

omit spares layout in
theorem new_directory_entries (aligned : IsPage s.placeAddr) (room : s.placeAddr.toNat + 20480 ≤ 2 ^ 31) (t : Nat)
    (bound : t < 1024) : (getNewKernelMappedDir s).2.entry s.placeAddr t =
      if t < 4 then tableBehind s.placeAddr t ||| 0x3#32 else 0#32 := by
  obtain ⟨base, made, start, _⟩ := new_directory_start s aligned
  have built := half_built_rounds s.placeAddr aligned room base kernelPages start (Nat.le_refl _)
  rw [made]
  exact built.entries t bound

theorem new_directory_keeps (room : s.placeAddr.toNat + 131072 ≤ 2 ^ 31) :
    KeepsData data s (getNewKernelMappedDir s).2 := by
  have new := (new_directory_result s layout room).2
  have tables := new.place
  refine ⟨⟨fun x inside => ?_, fun r p home => ?_⟩, fun x inside => ?_⟩
  · have below := spares.place x inside
    omega
  · cases home with
    | bitset i bound =>
        have same : (getNewKernelMappedDir s).2.bitsetPage i = s.bitsetPage i := by
          unfold Paging.bitsetPage
          rw [new.frames]
        rw [same]
        exact spares.homes _ _ (Paging.Home.bitset i bound)
    | directory _ inUse =>
        rcases listed_new s _ _ new p inUse with rfl | earlier
        · exact taken_spares data s spares _ (Nat.le_refl _) (by omega)
        · exact spares.homes _ _ (Paging.Home.directory p earlier)
    | table d t inUse bound present =>
        rcases listed_new s _ _ new d inUse with rfl | earlier
        · have entry := new_directory_entries s layout.aligned (by omega) t bound
          rw [entry] at present ⊢
          split at present
          next low =>
            have here := table_behind_page s.placeAddr layout.aligned (by omega) t (by omega)
            rw [if_pos low, page_of_flagged _ _ here.2 (by decide)]
            exact taken_spares data s spares _ (by omega) (by omega)
          next => exact absurd rfl present
        · rw [new.entries d earlier t bound] at present ⊢
          exact spares.homes _ _ (Paging.Home.table d t earlier bound present)
  · have below := spares.place x inside
    refine new_directory_outside s layout.aligned (by omega) x ?_
    rw [in_span_iff _ 20480 x (by omega)]
    omega

end Calls

/-! `init_paging`, and the runs that follow it. -/

theorem init_paging_loop (data : Word → Prop) (s : Paging) (below : ∀ x, data x → x.toNat < s.placeAddr.toNat)
    (low : s.placeAddr.toNat ≤ KERNEL_MEM_END.toNat) (empty : s.history = ⟨[], [], []⟩) : ∃ base,
      initPaging s = (identityRounds base kernelPages).map (fun s => { s with currentDir := s.kernelDirectory }) ∧
      Identity base base 0 ∧ base.placeAddr.toNat ≤ s.placeAddr.toNat + 139264 ∧
      KeepsData data s base := by
  have limit : KERNEL_MEM_END.toNat = 16711680 := rfl
  obtain ⟨kd, first, page, above, near⟩ := kmalloc_a_result s 4096#32 (by omega)
  have next : (kd + 4096#32).toNat = kd.toNat + 4096 := by bv_omega
  have aligned : IsPage (kd + 4096#32) := by
    unfold IsPage at *
    omega
  have words : 4#32 * INDEX_FROM_BIT nframes = 131072#32 := by decide
  have bytes : (INDEX_FROM_BIT (4#32 * nframes)).toNat = 131072 := by decide
  have last : (kd + 4096#32 + 131072#32).toNat = kd.toNat + 135168 := by bv_omega
  have memory : ∀ x, memset (memset s.mem kd 0#8 4096) (kd + 4096#32) 0#8 131072 x =
      if InSpan kd 135168 x then 0#8 else s.mem x := by
    intro x
    have whole : InSpan kd 135168 x ↔ InSpan kd 4096 x ∨ InSpan (kd + 4096#32) 131072 x := by
      rw [in_span_iff _ _ _ (by omega), in_span_iff _ _ _ (by omega), in_span_iff _ _ _ (by omega)]
      omega
    rw [memset_apply _ _ _ _ _ (by decide), memset_apply _ _ _ _ _ (by decide)]
    by_cases directory : InSpan kd 4096 x
    · rw [if_pos (whole.mpr (Or.inl directory)), if_pos directory, ite_self]
    · by_cases bitset : InSpan (kd + 4096#32) 131072 x
      · rw [if_pos (whole.mpr (Or.inr bitset)), if_pos bitset]
      · rw [if_neg fun inside => (whole.mp inside).elim directory bitset, if_neg bitset, if_neg directory]
  generalize cleared : memset (memset s.mem kd 0#8 4096) (kd + 4096#32) 0#8 131072 = m at memory
  let base : Paging := ⟨m, kd + 4096#32 + 131072#32, kd, kd + 4096#32, s.currentDir,
    ⟨[⟨kd + 4096#32, 131072#32, none⟩, ⟨kd, 4096#32, none⟩], [], []⟩⟩
  have start : Identity base base 0 :=
    identity_start base page (by dsimp only [base]; omega) next last rfl rfl fun x inside => by
      show m x = 0#8
      rw [memory, if_pos inside]
  refine ⟨base, ?_, start, by dsimp only [base]; omega, ⟨⟨fun x inside => ?_, fun r p home x inside => ?_⟩,
    fun x inside => ?_⟩⟩
  · have second := kmalloc_a_aligned { s with
          placeAddr := kd + 4096#32
          history := ⟨[⟨kd, 4096#32, none⟩], [], []⟩
          kernelDirectory := kd
          mem := memset s.mem kd 0#8 4096 } aligned 131072#32
    unfold initPaging
    rw [first, empty]
    dsimp only
    rw [words, second]
    dsimp only
    rw [bytes, cleared]
    change (identityRounds base kernelPages).bind _ = _
    generalize identityRounds base kernelPages = result
    cases result with
    | none => rfl
    | some s' => rfl
  · have place := below x inside
    dsimp only [base]
    omega
  · have place := below x inside
    cases home with
    | bitset i bound =>
        have page : (kd + 4096#32 + BitVec.ofNat 32 (4096 * i)).toNat = kd.toNat + 4096 + 4096 * i := by bv_omega
        show ¬ InSpan (kd + 4096#32 + BitVec.ofNat 32 (4096 * i)) 4096 x
        rw [in_span_iff _ _ _ (by omega)]
        omega
    | directory _ listed =>
        rcases listed with rfl | none
        · show ¬ InSpan p 4096 x
          rw [in_span_iff _ _ _ (by omega)]
          omega
        · simp [base] at none
    | table d t listed bound present =>
        rcases listed with rfl | none
        · have few := (start.entries t bound).mp present
          exact absurd few (Nat.not_lt_zero t)
        · simp [base] at none
  · have place := below x inside
    show m x = s.mem x
    rw [memory, if_neg]
    rw [in_span_iff _ _ _ (by omega)]
    omega

theorem identity_rounds_keeps (data : Word → Prop) (base : Paging) (start : Identity base base 0)
    (room : base.placeAddr.toNat + 65536 ≤ 2 ^ 31) (spares : Spares data base) (n : Nat)
    (bound : n ≤ kernelPages) (s : Paging) (done : identityRounds base n = some s) :
    KeepsData data base s := by
  have pages : kernelPages = 4080 := rfl
  induction n generalizing s with
  | zero =>
      obtain rfl := Option.some.inj done
      exact keeps_data_refl data base spares
  | succ n ih =>
      obtain ⟨middle, rounds, identity⟩ := identity_rounds_result base start room n (by omega)
      have earlier := ih (by omega) middle rounds
      have tables := tables_few n (by omega)
      have place := identity.place
      simp only [identityRounds, rounds, Option.bind_eq_bind, Option.bind_some] at done
      obtain ⟨⟨frame, after⟩, allocated, same⟩ := Option.bind_eq_some_iff.mp done
      obtain rfl := Option.some.inj same
      exact keeps_data_trans data base middle _ earlier (alloc_page_keeps data middle earlier.spares
        identity.layout (by omega) middle.kernelDirectory _ 1#32 1#32 frame (Or.inl rfl) _ allocated)

theorem init_paging_keeps (data : Word → Prop) (start s : Paging)
    (below : ∀ x, data x → x.toNat < start.placeAddr.toNat)
    (low : start.placeAddr.toNat ≤ KERNEL_MEM_END.toNat) (empty : start.history = ⟨[], [], []⟩)
    (done : initPaging start = some s) : KeepsData data start s := by
  have limit : KERNEL_MEM_END.toNat = 16711680 := rfl
  obtain ⟨base, returns, identity, place, keeps⟩ := init_paging_loop data start below low empty
  rw [returns] at done
  obtain ⟨last, rounds, rfl⟩ := Option.map_eq_some_iff.mp done
  have loop := identity_rounds_keeps data base identity (by omega) keeps.spares kernelPages (Nat.le_refl _) last
    rounds
  have all := keeps_data_trans data start base last keeps loop
  exact ⟨spares_same data last all.spares _ ⟨rfl, rfl, rfl⟩ (Nat.le_refl _) fun _ _ _ _ => rfl, all.kept⟩

section Moves
variable (data : Word → Prop) (s after : Paging) (held : SpacesHeld s) (spares : Spares data s)
include held spares

theorem move_keeps (e : PagedEvent) (moved : pagedStep s e = some after) : KeepsData data s after := by
  have room := paged_invariant_room s held.holds
  cases paged_cases s after held e moved with
  | newDirectory _ => exact new_directory_keeps data s spares held.holds.layout room
  | allocPage directory v isWriteable isKernel frame _ listed _ allocated _ =>
      exact alloc_page_keeps data s spares held.holds.layout (by omega) directory v isWriteable isKernel frame listed
        after allocated
  | switch dir listed =>
      exact ⟨spares_same data s spares _ ⟨rfl, rfl, rfl⟩ (Nat.le_refl _) fun _ _ _ _ => rfl, fun _ _ => rfl⟩
  | store a b m running found =>
      have kernel := stored_below s held.holds (held.process _ running) a m found b
      have entries := frames_entry s held.holds (s.stored m a b).mem s.currentDir kernel
      exact ⟨spares_same data s spares _ ⟨rfl, rfl, rfl⟩ (Nat.le_refl _) entries, fun x inside =>
        kernel x (Nat.lt_of_lt_of_le (spares.place x inside) held.holds.low)⟩

end Moves

/-! Memory outside the structures is of no account to the invariants. -/

section Homes
variable (s : Paging) (m : Memory) (layout : Layout s) (kept : ∀ r p, s.Home r p → PageKept s.mem m p)
include layout kept

theorem homes_entry (d : Word) (listed : s.Listed d) (t : Nat) (bound : t < 1024) :
    ({ s with mem := m } : Paging).entry d t = s.entry d t := by
  have home := Paging.Home.directory d listed
  exact entry_kept s _ d t (layout.housed _ _ home).1 bound (kept _ _ home)

theorem homes_pte (d : Word) (listed : s.Listed d) (page : Nat) (bound : page < 2 ^ 20)
    (present : Present (s.entry d (page / 1024))) : ({ s with mem := m } : Paging).pte d page = s.pte d page := by
  have home := Paging.Home.table d (page / 1024) listed (by omega) present
  exact pte_kept s _ d page (homes_entry s m layout kept d listed _ (by omega)) (kept _ _ home)

theorem homes_bit (n : Nat) (bound : n < 2 ^ 20) : ({ s with mem := m } : Paging).bit n = s.bit n := by
  have home := Paging.Home.bitset (s := s) (n / 32768) (by omega)
  exact bit_kept s _ n rfl (layout.housed _ _ home).1 (kept _ _ home)

omit layout in
theorem homes_invariant (holds : PagedInvariant s) : PagedInvariant { s with mem := m } := by
  have entries := homes_entry s m holds.layout kept
  have bits := homes_bit s m holds.layout kept
  refine ⟨⟨layout_same s _ holds.layout ⟨rfl, rfl, rfl⟩ rfl entries, fun mapping member => ?_, holds.once,
    fun n bound => ?_, fun d page mapping found => ?_, fun n less => ?_⟩, holds.low⟩
  · have recorded := holds.recorded mapping member
    exact ⟨recorded.listed, recorded.inSpace, recorded.frame, recorded.flags, recorded.process⟩
  · rw [bits n bound]
    exact holds.bits n bound
  · obtain ⟨present, entry⟩ := holds.current d page mapping found
    obtain ⟨member, key⟩ := latest_mem _ _ _ _ found
    obtain ⟨rfl, rfl⟩ := Prod.mk.inj key
    have recorded := holds.recorded mapping member
    have inSpace := recorded.inSpace
    rw [entries _ recorded.listed _ (by omega),
      homes_pte s m holds.layout kept _ recorded.listed _ inSpace present]
    exact ⟨present, entry⟩
  · have pages : kernelPages = 4080 := rfl
    rw [bits n (by omega)]
    exact holds.kernel n less

omit layout in
theorem homes_held (held : SpacesHeld s) : SpacesHeld { s with mem := m } := by
  refine ⟨homes_invariant s m kept held.holds, held.process, fun d inUse page inSpace behind absent => ?_⟩
  have listed : s.Listed d := Or.inr inUse
  rw [walk_same s { s with mem := m } d page
    (homes_entry s m held.holds.layout kept d listed _ (by omega))
    (homes_pte s m held.holds.layout kept d listed page inSpace)]
  exact held.unmapped d inUse page inSpace behind absent

theorem homes_half (d : Word) (listed : s.Listed d) (half : HalfMapped s d) :
    HalfMapped { s with mem := m } d := by
  have pages : kernelPages = 4080 := rfl
  intro k less
  obtain ⟨table, writeable, page⟩ := half k less
  rw [homes_entry s m layout kept d listed _ (by omega), homes_pte s m layout kept d listed k (by omega) table]
  exact ⟨table, writeable, page⟩

end Homes

theorem move_half (s after : Paging) (held : SpacesHeld s) (half : ∀ d, s.Listed d → HalfMapped s d)
    (e : PagedEvent) (moved : pagedStep s e = some after) (d : Word) (listed : after.Listed d) : HalfMapped after d := by
  cases paged_cases s after held e moved with
  | newDirectory low =>
      exact paging_step_half s _ held.holds half ⟨.getNewKernelMappedDir, trivial, rfl, low⟩ d listed
  | allocPage directory v isWriteable isKernel frame _ inUse above allocated low =>
      refine paging_step_half s after held.holds half
        ⟨.allocPage directory v isWriteable isKernel, ⟨inUse, above⟩, ?_, low⟩ d listed
      simp only [pagingCall, allocated, Option.bind_eq_bind, Option.bind_some]
  | switch dir _ => exact half d listed
  | store a b m running found =>
      have kernel := stored_below s held.holds (held.process _ running) a m found b
      exact homes_half s _ held.holds.layout (frames_home_kept s held.holds _ kernel) d listed (half d listed)

structure DataHeld (data : Word → Prop) (s : Paging) : Prop where
  held : SpacesHeld s
  half : ∀ d, s.Listed d → HalfMapped s d
  spares : Spares data s

section Data
variable (data : Word → Prop) (s : Paging) (holds : DataHeld data s)
include holds

theorem data_below (x : Word) (inside : data x) : x.toNat < KERNEL_MEM_END.toNat :=
  Nat.lt_of_lt_of_le (holds.spares.place x inside) holds.held.holds.low

theorem data_moved (after : Paging) (e : PagedEvent) (moved : pagedStep s e = some after) :
    DataHeld data after ∧ ∀ x, data x → after.mem x = s.mem x := by
  have keeps := move_keeps data s after holds.held holds.spares e moved
  exact ⟨⟨move_held s after holds.held e moved, move_half s after holds.held holds.half e moved, keeps.spares⟩,
    keeps.kept⟩

theorem data_written (m : Memory) (elsewhere : ∀ x, ¬ data x → m x = s.mem x) :
    DataHeld data { s with mem := m } := by
  have kept : ∀ r p, s.Home r p → PageKept s.mem m p := fun r p home x inHome =>
    elsewhere x fun inside => holds.spares.homes r p home x inside inHome
  have entries := homes_entry s m holds.held.holds.layout kept
  exact ⟨homes_held s m kept holds.held,
    fun d listed => homes_half s m holds.held.holds.layout kept d listed (holds.half d listed),
    spares_same data s holds.spares _ ⟨rfl, rfl, rfl⟩ (Nat.le_refl _) entries⟩

theorem data_shown (d : Word) (listed : s.Listed d) (x : Word) (inside : data x) :
    load8 (switchPageDirectory s d) x = some (s.mem x) := by
  have limit := kernel_mem_end
  have pages : kernelPages = 4080 := rfl
  have below := data_below data s holds x inside
  have here := (half_mapped_kernel_half s d (holds.half d listed)).same x (by omega)
  show ((switchPageDirectory s d).translate x).map s.mem = _
  rw [here]
  rfl

end Data
end GargOS
