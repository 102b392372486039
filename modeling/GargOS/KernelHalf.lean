import GargOS.HeapPaging

/-!
The kernel's half of the address space: every directory maps the pages below
`KERNEL_MEM_END` to themselves, so the kernel may run under any of them. And the
runs in which the code's accesses through the active directory are those of the
processor's walk to physical memory, as the model of paging.c has them.
-/

namespace GargOS
open ByteMemory Pages Runs

def HalfMapped (s : Paging) (d : Word) : Prop :=
  ∀ k < kernelPages, Present (s.entry d (k / 1024)) ∧ s.entry d (k / 1024) &&& 2#32 ≠ 0#32 ∧
    s.pte d k = BitVec.ofNat 32 (4096 * k) ||| 0x3#32

/-- What the kernel sees below `KERNEL_MEM_END` while the directory is current. -/
structure KernelHalf (s : Paging) (d : Word) : Prop where
  walks : ∀ k < kernelPages, s.Walks d k
  writeable : ∀ k < kernelPages, s.entry d (k / 1024) &&& 2#32 ≠ 0#32 ∧ s.pte d k &&& 2#32 ≠ 0#32
  same : ∀ a : Word, a.toNat < KERNEL_MEM_END.toNat → (switchPageDirectory s d).translate a = some a

theorem half_mapped_kernel_half (s : Paging) (d : Word) (half : HalfMapped s d) : KernelHalf s d := by
  have limit := kernel_mem_end
  have pages : kernelPages = 4080 := rfl
  have walks : ∀ k < kernelPages, s.Walks d k := by
    intro k less
    obtain ⟨table, _, page⟩ := half k less
    refine ⟨table, ?_⟩
    rw [page, present_flagged _ _ (frame_is_page k (by omega))]
    decide
  refine ⟨walks, fun k less => ?_, fun a below => ?_⟩
  · obtain ⟨_, writeable, page⟩ := half k less
    refine ⟨writeable, ?_⟩
    rw [page, flagged_and _ _ _ (frame_is_page k (by omega)) (by decide)]
    decide
  · have less : a.toNat / 4096 < kernelPages := by omega
    have here : (switchPageDirectory s d).Walks d (a.toNat / 4096) := walks _ less
    have target : (switchPageDirectory s d).target d (a.toNat / 4096) =
        BitVec.ofNat 32 (4096 * (a.toNat / 4096)) := by
      have page : (switchPageDirectory s d).pte d (a.toNat / 4096) = _ := (half _ less).2.2
      rw [Paging.target, page, page_of_flagged _ _ (frame_is_page _ (by omega)) (by decide)]
    have current : (switchPageDirectory s d).currentDir = d := rfl
    rw [Paging.translate, current, if_pos here, target]
    congr 1
    bv_omega

theorem half_mapped_kept (s after : Paging) (d : Word) (except : Option (Word × Nat)) (listed : s.Listed d)
    (keeps : Keeps s after except) (other : ∀ k < kernelPages, except ≠ some (d, k)) (half : HalfMapped s d) :
    HalfMapped after d := by
  have pages : kernelPages = 4080 := rfl
  intro k less
  obtain ⟨table, writeable, page⟩ := half k less
  have mapped := ((half_mapped_kernel_half s d half).walks k less).2
  rw [keeps.entries d listed _ (by omega) table]
  refine ⟨table, writeable, ?_⟩
  rw [keeps.ptes d listed k (by omega) table (Or.inl mapped) (other k less)]
  exact page

theorem identity_half (base s : Paging) (identity : Identity base s kernelPages) :
    HalfMapped s s.kernelDirectory := by
  have pages : kernelPages = 4080 := rfl
  intro k less
  have present : Present (s.entry s.kernelDirectory (k / 1024)) := by
    rw [identity.entries _ (by omega)]
    exact tables_earlier kernelPages k less
  exact ⟨present, identity.writeable _ (by omega) present, identity.ptes k less⟩

theorem new_directory_half (s after : Paging) (d : Word) (new : NewDirectory s after d) :
    HalfMapped after d := by
  have pages : kernelPages = 4080 := rfl
  intro k less
  have own := new.own (k / 1024) (by omega)
  have present := own.1.mpr (by omega)
  exact ⟨present, own.2 present, new.half k less⟩

theorem new_directory_keeps_half (s after : Paging) (made : Word) (new : NewDirectory s after made) (d : Word)
    (listed : s.Listed d) (half : HalfMapped s d) : HalfMapped after d := by
  have pages : kernelPages = 4080 := rfl
  intro k less
  obtain ⟨table, writeable, page⟩ := half k less
  have mapped := ((half_mapped_kernel_half s d half).walks k less).2
  rw [new.entries d listed _ (by omega)]
  refine ⟨table, writeable, ?_⟩
  rw [new.ptes d listed k (by omega) table mapped]
  exact page

theorem booted_half (s : Paging) (booted : PagingBooted s) (d : Word) (listed : s.Listed d) :
    HalfMapped s d := by
  obtain ⟨base, identity, nothing⟩ := booted_identity s booted
  unfold Paging.Listed at listed
  rw [nothing] at listed
  rcases listed with rfl | none
  · exact identity_half base s identity
  · simp at none

theorem paging_step_half (s after : Paging) (holds : PagedInvariant s)
    (half : ∀ d, s.Listed d → HalfMapped s d) (step : PagingStep s after) (d : Word)
    (listed : after.Listed d) : HalfMapped after d := by
  have limit := kernel_mem_end
  have pages : kernelPages = 4080 := rfl
  have room := paged_invariant_room s holds
  obtain ⟨call, allowed, returned, low⟩ := step
  cases call with
  | getNewKernelMappedDir =>
      obtain rfl := Option.some.inj returned
      have new := (new_directory_result s holds.layout room).2
      by_cases own : d = s.placeAddr
      · exact own ▸ new_directory_half s _ _ new
      · have earlier : s.Listed d := by
          unfold Paging.Listed at listed ⊢
          rw [new.kernelDirectory, new.directories] at listed
          exact listed.imp_right fun member => (List.mem_cons.mp member).resolve_left own
        exact new_directory_keeps_half s _ _ new d earlier (half d earlier)
  | allocPage directory vaddr isWriteable isKernel =>
      obtain ⟨frame, allocated⟩ := alloc_page_call s after directory vaddr isWriteable isKernel returned
      obtain ⟨n, _, _, maps, _⟩ := alloc_page_result s holds.layout (by omega) directory vaddr isWriteable
        isKernel allowed.1 frame after allocated
      have earlier := (listed_same s after maps.keeps.roots d).mp listed
      have above := allowed.2
      refine half_mapped_kept s after d _ earlier maps.keeps (fun k less here => ?_) (half d earlier)
      have page := (Prod.mk.inj (Option.some.inj here)).2
      omega

/-- Every directory maps the kernel's half to itself, present and writeable. -/
theorem kernel_half (s : Paging) (reached : Reached PagingBooted PagingStep s) (d : Word)
    (listed : s.Listed d) : KernelHalf s d := by
  apply half_mapped_kernel_half
  have both : PagedInvariant s ∧ ∀ d, s.Listed d → HalfMapped s d := by
    apply reached_invariant (fun s => PagedInvariant s ∧ ∀ d, s.Listed d → HalfMapped s d) _ _ s reached
    · exact fun s booted => ⟨booted_invariant s booted, booted_half s booted⟩
    · exact fun s after holds step => ⟨(paging_step_kept s after holds.1 step).1,
        paging_step_half s after holds.1 holds.2 step⟩
  exact both.2 d listed

theorem kernel_half_one_page : ∃ s d, s.history.directories = [d] ∧ d ≠ s.kernelDirectory ∧
    s.mapping d 0x1000 = some ⟨d, 0x1000, KERNEL_MEM_END, 3#32⟩ ∧ KernelHalf s d ∧
    KernelHalf s s.kernelDirectory := by
  obtain ⟨s, d, process⟩ := one_process
  obtain ⟨after, _, maps, _, reached⟩ := one_page s d process 0x1000000#32 1#32 (by decide)
  have directories : after.history.directories = [d] := by
    rw [maps.keeps.roots.directories, process.directories]
  refine ⟨after, d, directories, ?_, ?_, kernel_half after reached d (Or.inr ?_),
    kernel_half after reached _ (Or.inl rfl)⟩
  · rw [maps.keeps.roots.kernelDirectory]
    exact process.other
  · exact maps_mapping _ _ _ _ _ _ _ maps
  · rw [directories]
    exact List.mem_singleton_self d

/-! Runs that leave the half of the kernel's own directory alone. -/

/-- `alloc_page` is called on directories that exist, on the kernel's own only
above its half. -/
def HalfCall (s : Paging) : PagingCall → Prop
  | .getNewKernelMappedDir => True
  | .allocPage directory vaddr _ _ => s.Listed directory ∧
      (directory = s.kernelDirectory → KERNEL_MEM_END.toNat ≤ vaddr.toNat)

def HalfStep (s after : Paging) : Prop :=
  ∃ call, HalfCall s call ∧ pagingCall s call = some after ∧
    after.placeAddr.toNat ≤ KERNEL_MEM_END.toNat

/-- The kernel's directory is active, maps the half to itself, and the structures
end in it. -/
structure KernelActive (s : Paging) : Prop where
  low : s.placeAddr.toNat ≤ KERNEL_MEM_END.toNat
  current : s.currentDir = s.kernelDirectory
  half : HalfMapped s s.kernelDirectory

/-- An access of the code goes where the model has it go: to the address itself,
for every structure and every page that may become one. -/
structure AccessesDirect (s : Paging) : Prop where
  access : ∀ a : Word, a.toNat < KERNEL_MEM_END.toNat → s.translate a = some a
  structures : ∀ r p, s.Home r p → p.toNat + 4096 ≤ KERNEL_MEM_END.toNat

theorem kernel_active_direct (s : Paging) (layout : Layout s) (active : KernelActive s) :
    AccessesDirect s := by
  obtain ⟨low, current, half⟩ := active
  constructor
  · have same := (half_mapped_kernel_half s _ half).same
    unfold switchPageDirectory at same
    rw [← current] at same
    exact same
  · intro r p home
    have below := (layout.housed r p home).2
    omega

theorem kernel_active_kept (s after : Paging) (except : Option (Word × Nat)) (keeps : Keeps s after except)
    (other : ∀ k < kernelPages, except ≠ some (s.kernelDirectory, k))
    (low : after.placeAddr.toNat ≤ KERNEL_MEM_END.toNat) (active : KernelActive s) : KernelActive after := by
  have roots := keeps.roots
  refine ⟨low, ?_, ?_⟩
  · rw [keeps.currentDir, roots.kernelDirectory]
    exact active.current
  · rw [roots.kernelDirectory]
    exact half_mapped_kept s after _ except (Or.inl rfl) keeps other active.half

theorem maps_kernel_active (s after : Paging) (d v isWriteable isKernel : Word) (n : Nat)
    (maps : Maps s after d v n isWriteable isKernel)
    (above : d = s.kernelDirectory → KERNEL_MEM_END.toNat ≤ v.toNat)
    (low : after.placeAddr.toNat ≤ KERNEL_MEM_END.toNat) (active : KernelActive s) : KernelActive after := by
  have limit := kernel_mem_end
  refine kernel_active_kept s after _ maps.keeps (fun k less same => ?_) low active
  obtain ⟨rfl, page⟩ := Prod.mk.inj (Option.some.inj same)
  have here := above rfl
  omega

theorem new_directory_active (s after : Paging) (d : Word) (new : NewDirectory s after d)
    (low : after.placeAddr.toNat ≤ KERNEL_MEM_END.toNat) (active : KernelActive s) : KernelActive after := by
  refine ⟨low, ?_, ?_⟩
  · rw [new.currentDir, new.kernelDirectory]
    exact active.current
  · rw [new.kernelDirectory]
    exact new_directory_keeps_half s after d new _ (Or.inl rfl) active.half

theorem booted_active (s : Paging) (booted : PagingBooted s) : KernelActive s := by
  have half := booted_half s booted _ (Or.inl rfl)
  obtain ⟨start, empty, low, done, high⟩ := booted
  obtain ⟨_, s', again, _, _, current, _⟩ := init_paging_result start low empty
  rw [again] at done
  obtain rfl := Option.some.inj done
  exact ⟨high, current, half⟩

theorem half_call_listed (s : Paging) (call : PagingCall) (allowed : HalfCall s call) :
    PagingListed s call := by
  cases call with
  | getNewKernelMappedDir => trivial
  | allocPage directory vaddr isWriteable isKernel => exact allowed.1

theorem half_call_active (s after : Paging) (layout : Layout s) (room : s.placeAddr.toNat + 131072 ≤ 2 ^ 31)
    (active : KernelActive s) (call : PagingCall) (allowed : HalfCall s call)
    (returned : pagingCall s call = some after) (low : after.placeAddr.toNat ≤ KERNEL_MEM_END.toNat) :
    KernelActive after := by
  cases call with
  | getNewKernelMappedDir =>
      obtain rfl := Option.some.inj returned
      exact new_directory_active s _ _ (new_directory_result s layout room).2 low active
  | allocPage directory vaddr isWriteable isKernel =>
      obtain ⟨frame, allocated⟩ := alloc_page_call s after directory vaddr isWriteable isKernel returned
      obtain ⟨n, _, _, maps, _⟩ := alloc_page_result s layout (by omega) directory vaddr isWriteable
        isKernel allowed.1 frame after allocated
      exact maps_kernel_active s after directory vaddr isWriteable isKernel n maps allowed.2 low active

theorem half_step_any (s after : Paging) (holds : PagedInvariant s) (step : HalfStep s after) :
    AnyPagingStep s after := by
  obtain ⟨call, allowed, returned, _⟩ := step
  exact ⟨call, half_call_listed s call allowed, returned, paged_invariant_room s holds⟩

theorem half_step_invariant (s after : Paging) (holds : PagedInvariant s) (step : HalfStep s after) :
    PagedInvariant after := by
  refine ⟨any_step_records s after holds.toPagedRecords (half_step_any s after holds step), ?_⟩
  obtain ⟨_, _, _, low⟩ := step
  exact low

theorem half_run_invariant (s : Paging) (reached : Reached PagingBooted HalfStep s) :
    PagedInvariant s ∧ KernelActive s := by
  apply reached_invariant (fun s => PagedInvariant s ∧ KernelActive s) _ _ s reached
  · exact fun s booted => ⟨booted_invariant s booted, booted_active s booted⟩
  · intro s after holds step
    refine ⟨half_step_invariant s after holds.1 step, ?_⟩
    obtain ⟨call, allowed, returned, low⟩ := step
    exact half_call_active s after holds.1.layout (paged_invariant_room s holds.1) holds.2 call allowed returned
      low

/-- Throughout these runs the code reaches the structures where the walk does. -/
theorem half_run_direct (s : Paging) (reached : Reached PagingBooted HalfStep s) : AccessesDirect s := by
  obtain ⟨holds, active⟩ := half_run_invariant s reached
  exact kernel_active_direct s holds.layout active

theorem half_run_any (s : Paging) (reached : Reached PagingBooted HalfStep s) :
    Reached PagingBooted AnyPagingStep s := by
  induction reached with
  | start booted => exact Reached.start booted
  | next earlier step ih => exact Reached.next ih (half_step_any _ _ (half_run_invariant _ earlier).1 step)

theorem paging_step_half_step (s after : Paging) (step : PagingStep s after) : HalfStep s after := by
  obtain ⟨call, allowed, returned, low⟩ := step
  refine ⟨call, ?_, returned, low⟩
  cases call with
  | getNewKernelMappedDir => trivial
  | allocPage directory vaddr isWriteable isKernel => exact ⟨allowed.1, fun _ => allowed.2⟩

theorem paging_run_half (s : Paging) (reached : Reached PagingBooted PagingStep s) :
    Reached PagingBooted HalfStep s := by
  induction reached with
  | start booted => exact Reached.start booted
  | next earlier step ih => exact Reached.next ih (paging_step_half_step _ _ step)

end GargOS
