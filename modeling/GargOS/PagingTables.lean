import GargOS.Paging
import GargOS.Lib.Bitsets

/-!
The directories, tables and bitset of paging.c as arrays: which page each of
them lies in, and what the functions of paging.c do to their entries. No two of
them share a page as long as `place_addr` is page aligned.
-/

namespace GargOS
open ByteMemory Pages

def Present (entry : Word) : Prop := entry &&& 0x1#32 ≠ 0#32

instance (entry : Word) : Decidable (Present entry) := inferInstanceAs (Decidable (_ ≠ _))

def Paging.entry (s : Paging) (d : Word) (t : Nat) : Word := load32 s.mem (cell d t)

def Paging.pte (s : Paging) (d : Word) (page : Nat) : Word :=
  load32 s.mem (cell (pageOf (s.entry d (page / 1024))) (page % 1024))

def Paging.Walks (s : Paging) (d : Word) (page : Nat) : Prop :=
  Present (s.entry d (page / 1024)) ∧ Present (s.pte d page)

instance (s : Paging) (d : Word) (page : Nat) : Decidable (s.Walks d page) :=
  inferInstanceAs (Decidable (_ ∧ _))

def Paging.bitsetPage (s : Paging) (i : Nat) : Word := s.frames + BitVec.ofNat 32 (4096 * i)

def Paging.bit (s : Paging) (n : Nat) : Bool :=
  (load32 s.mem (cell (s.bitsetPage (n / 32768)) (n / 32 % 1024))).getLsbD (n % 32)

def Paging.Listed (s : Paging) (d : Word) : Prop := d = s.kernelDirectory ∨ d ∈ s.history.directories

/-- What a page of the kernel's structures is used for. -/
inductive Role
  | bitset (i : Nat)
  | directory (d : Word)
  | table (d : Word) (t : Nat)

/-- The page a role lives in. -/
inductive Paging.Home (s : Paging) : Role → Word → Prop
  | bitset (i : Nat) (bound : i < 32) : Home s (Role.bitset i) (s.bitsetPage i)
  | directory (d : Word) (listed : s.Listed d) : Home s (Role.directory d) d
  | table (d : Word) (t : Nat) (listed : s.Listed d) (bound : t < 1024) (present : Present (s.entry d t)) :
      Home s (Role.table d t) (pageOf (s.entry d t))

/-- Every structure has a page below `place_addr` to itself. -/
structure Layout (s : Paging) : Prop where
  aligned : IsPage s.placeAddr
  room : s.placeAddr.toNat ≤ 2 ^ 31
  housed : ∀ r p, s.Home r p → IsPage p ∧ p.toNat + 4096 ≤ s.placeAddr.toNat
  apart : ∀ r r' p, s.Home r p → s.Home r' p → r = r'

/-- The variables of paging.c that only `init_paging` sets, and the directories. -/
structure SameRoots (s s' : Paging) : Prop where
  kernelDirectory : s'.kernelDirectory = s.kernelDirectory
  frames : s'.frames = s.frames
  directories : s'.history.directories = s.history.directories

theorem listed_same (s s' : Paging) (roots : SameRoots s s') (d : Word) : s'.Listed d ↔ s.Listed d := by
  unfold Paging.Listed
  rw [roots.kernelDirectory, roots.directories]

theorem home_same (s s' : Paging) (roots : SameRoots s s')
    (same : ∀ d, s.Listed d → ∀ t < 1024, s'.entry d t = s.entry d t) (r : Role) (p : Word)
    (home : s'.Home r p) : s.Home r p := by
  cases home with
  | bitset i bound =>
      unfold Paging.bitsetPage
      rw [roots.frames]
      exact Paging.Home.bitset i bound
  | directory _ listed => exact Paging.Home.directory p ((listed_same s s' roots p).mp listed)
  | table d t listed bound present =>
      have inOld := (listed_same s s' roots d).mp listed
      rw [same d inOld t bound] at present ⊢
      exact Paging.Home.table d t inOld bound present

theorem layout_same (s s' : Paging) (layout : Layout s) (roots : SameRoots s s')
    (place : s'.placeAddr = s.placeAddr)
    (same : ∀ d, s.Listed d → ∀ t < 1024, s'.entry d t = s.entry d t) : Layout s' where
  aligned := place ▸ layout.aligned
  room := place ▸ layout.room
  housed r p home := place ▸ layout.housed r p (home_same s s' roots same r p home)
  apart r r' p first second :=
    layout.apart r r' p (home_same s s' roots same r p first) (home_same s s' roots same r' p second)

/-- The page at `place_addr` may become the home of one role more. -/
theorem layout_grown (s s' : Paging) (layout : Layout s) (role : Role)
    (room : s.placeAddr.toNat + 4096 ≤ 2 ^ 31) (place : s'.placeAddr = s.placeAddr + 4096#32)
    (old : ∀ r p, s'.Home r p → s.Home r p ∨ r = role ∧ p = s.placeAddr) : Layout s' := by
  have top : s'.placeAddr.toNat = s.placeAddr.toNat + 4096 := by
    rw [place]
    bv_omega
  have fresh : ∀ r, ¬ s.Home r s.placeAddr := by
    intro r home
    have below := (layout.housed r s.placeAddr home).2
    omega
  constructor
  · have aligned := layout.aligned
    unfold IsPage at *
    omega
  · omega
  · intro r p home
    rcases old r p home with before | ⟨_, rfl⟩
    · have below := layout.housed r p before
      exact ⟨below.1, by omega⟩
    · exact ⟨layout.aligned, by omega⟩
  · intro r r' p first second
    rcases old r p first with before | ⟨here, rfl⟩
    · rcases old r' p second with beforeToo | ⟨_, rfl⟩
      · exact layout.apart r r' p before beforeToo
      · exact absurd before (fresh r)
    · rcases old r' _ second with beforeToo | ⟨hereToo, _⟩
      · exact absurd beforeToo (fresh r')
      · rw [here, hereToo]

theorem layout_table (s s' : Paging) (layout : Layout s) (roots : SameRoots s s') (d : Word) (t : Nat)
    (w : Word) (new : pageOf w = s.placeAddr) (room : s.placeAddr.toNat + 4096 ≤ 2 ^ 31)
    (place : s'.placeAddr = s.placeAddr + 4096#32)
    (entries : ∀ d', s.Listed d' → ∀ t' < 1024,
      s'.entry d' t' = if d' = d ∧ t' = t then w else s.entry d' t') : Layout s' := by
  refine layout_grown s s' layout (Role.table d t) room place fun r p home => ?_
  cases home with
  | bitset i bound =>
      left
      unfold Paging.bitsetPage
      rw [roots.frames]
      exact Paging.Home.bitset i bound
  | directory _ listed =>
      exact Or.inl (Paging.Home.directory p ((listed_same s s' roots p).mp listed))
  | table d' t' listed bound present =>
      have inOld := (listed_same s s' roots d').mp listed
      have value := entries d' inOld t' bound
      by_cases here : d' = d ∧ t' = t
      · right
        rw [if_pos here] at value
        exact ⟨by rw [here.1, here.2], by rw [value, new]⟩
      · left
        rw [if_neg here] at value
        rw [value] at present ⊢
        exact Paging.Home.table d' t' inOld bound present

theorem layout_directory (s s' : Paging) (layout : Layout s) (frames : s'.frames = s.frames)
    (kernelDirectory : s'.kernelDirectory = s.kernelDirectory)
    (directories : s'.history.directories = s.placeAddr :: s.history.directories)
    (room : s.placeAddr.toNat + 4096 ≤ 2 ^ 31) (place : s'.placeAddr = s.placeAddr + 4096#32)
    (entries : ∀ d, s.Listed d → ∀ t < 1024, s'.entry d t = s.entry d t)
    (blank : ∀ t < 1024, s'.entry s.placeAddr t = 0#32) : Layout s' := by
  have listed : ∀ d, s'.Listed d → s.Listed d ∨ d = s.placeAddr := by
    intro d listed
    unfold Paging.Listed at *
    rw [kernelDirectory, directories] at listed
    rcases listed with kernel | process
    · exact Or.inl (Or.inl kernel)
    · rcases List.mem_cons.mp process with new | before
      · exact Or.inr new
      · exact Or.inl (Or.inr before)
  refine layout_grown s s' layout (Role.directory s.placeAddr) room place fun r p home => ?_
  cases home with
  | bitset i bound =>
      left
      unfold Paging.bitsetPage
      rw [frames]
      exact Paging.Home.bitset i bound
  | directory _ inNew =>
      rcases listed p inNew with before | rfl
      · exact Or.inl (Paging.Home.directory p before)
      · exact Or.inr ⟨rfl, rfl⟩
  | table d t inNew bound present =>
      rcases listed d inNew with before | rfl
      · left
        rw [entries d before t bound] at present ⊢
        exact Paging.Home.table d t before bound present
      · rw [blank t bound] at present
        exact absurd rfl present

/-! The expressions of the source as entries of the arrays. -/

theorem element_cell (array index : Word) : element array index = cell array index.toNat := by
  unfold element cell
  bv_omega

theorem table_index_toNat (v : Word) :
    (TABLE_INDEX_FROM_VIRTUAL_ADDRESS v).toNat = v.toNat / 4096 / 1024 := by
  unfold TABLE_INDEX_FROM_VIRTUAL_ADDRESS
  rw [BitVec.toNat_ushiftRight, Nat.shiftRight_eq_div_pow]
  omega

theorem page_index_toNat (v : Word) :
    (PAGE_INDEX_FROM_VIRTUAL_ADDRESS v).toNat = v.toNat / 4096 % 1024 := by
  unfold PAGE_INDEX_FROM_VIRTUAL_ADDRESS
  rw [BitVec.toNat_and, BitVec.toNat_ushiftRight, Nat.shiftRight_eq_div_pow,
    show (0x3FF#32).toNat = 2 ^ 10 - 1 from rfl, Nat.and_two_pow_sub_one_eq_mod]

theorem load_entry (s : Paging) (d v : Word) :
    s.load (element d (TABLE_INDEX_FROM_VIRTUAL_ADDRESS v)) = s.entry d (v.toNat / 4096 / 1024) := by
  rw [Paging.load, element_cell, table_index_toNat, Paging.entry]

theorem element_page (p v : Word) :
    element p (PAGE_INDEX_FROM_VIRTUAL_ADDRESS v) = cell p (v.toNat / 4096 % 1024) := by
  rw [element_cell, page_index_toNat]

theorem element_bitset (s : Paging) (i : Nat) (index : Word)
    (value : index.toNat = i) :
    element s.frames index = cell (s.bitsetPage (i / 1024)) (i % 1024) := by
  unfold element cell Paging.bitsetPage
  bv_omega

theorem bitset_word (s : Paging) (i : Nat) (bound : i < 32768) (j : Nat) (inWord : j < 32) :
    (s.load (element s.frames (BitVec.ofNat 32 i))).getLsbD j = s.bit (i * 32 + j) := by
  have value : (BitVec.ofNat 32 i).toNat = i := by
    rw [BitVec.toNat_ofNat]
    omega
  have word : (i * 32 + j) / 32 = i := by omega
  have page : (i * 32 + j) / 32768 = i / 1024 := by omega
  have lane : (i * 32 + j) % 32 = j := by omega
  rw [Paging.load, element_bitset s i _ value, Paging.bit, word, page, lane]

theorem bitset_words_apart (array i j : Word) (left : i.toNat < bitsetWords) (right : j.toNat < bitsetWords)
    (different : i ≠ j) : Apart (element array i) 4 (element array j) 4 := by
  unfold bitsetWords at left right
  intro x first second
  unfold InSpan element at first second
  bv_omega

theorem bitset_word_stored (s : Paging) (i j v : Word) (left : i.toNat < bitsetWords)
    (right : j.toNat < bitsetWords) : (s.store (element s.frames j) v).load (element s.frames i) =
      if i = j then v else s.load (element s.frames i) := by
  by_cases same : i = j
  · rw [if_pos same, same]
    exact load32_store32 _ _ _
  · rw [if_neg same]
    exact load32_store32_apart _ _ _ _ (bitset_words_apart _ i j left right same)

/-! What a change of memory outside a page leaves alone. -/

section Kept
variable (s s' : Paging) (d : Word)

theorem entry_kept (t : Nat) (page : IsPage d) (bound : t < 1024) (kept : PageKept s.mem s'.mem d) :
    s'.entry d t = s.entry d t :=
  load_cell_kept _ _ d t page bound kept

theorem pte_kept (page : Nat) (same : s'.entry d (page / 1024) = s.entry d (page / 1024))
    (kept : PageKept s.mem s'.mem (pageOf (s.entry d (page / 1024)))) :
    s'.pte d page = s.pte d page := by
  unfold Paging.pte
  rw [same]
  exact load_cell_kept _ _ _ _ (page_of_is_page _) (Nat.mod_lt _ (by decide)) kept

theorem bit_kept (n : Nat) (same : s'.frames = s.frames) (page : IsPage (s.bitsetPage (n / 32768)))
    (kept : PageKept s.mem s'.mem (s.bitsetPage (n / 32768))) : s'.bit n = s.bit n := by
  unfold Paging.bit Paging.bitsetPage
  rw [same]
  have word := load_cell_kept _ _ _ (n / 32 % 1024) page (Nat.mod_lt _ (by decide)) kept
  unfold Paging.bitsetPage at word
  rw [word]

end Kept

/-- What a call leaves alone: the present entries of directories and tables, in
a process's tables the absent ones as well, save the page `except`, and the
memory above the structures. -/
structure Keeps (s s' : Paging) (except : Option (Word × Nat)) : Prop where
  layout : Layout s'
  roots : SameRoots s s'
  currentDir : s'.currentDir = s.currentDir
  grown : s.placeAddr.toNat ≤ s'.placeAddr.toNat
  entries : ∀ d, s.Listed d → ∀ t < 1024, Present (s.entry d t) → s'.entry d t = s.entry d t
  ptes : ∀ d, s.Listed d → ∀ page < 2 ^ 20, Present (s.entry d (page / 1024)) →
    Present (s.pte d page) ∨ d ≠ s.kernelDirectory → except ≠ some (d, page) →
    s'.pte d page = s.pte d page
  above : ∀ x : Word, s'.placeAddr.toNat ≤ x.toNat → s'.mem x = s.mem x

theorem keeps_trans (s middle s' : Paging) (first second : Option (Word × Nat))
    (before : Keeps s middle first) (after : Keeps middle s' second)
    (both : second = none ∨ second = first) : Keeps s s' first where
  layout := after.layout
  roots := ⟨after.roots.kernelDirectory.trans before.roots.kernelDirectory,
    after.roots.frames.trans before.roots.frames,
    after.roots.directories.trans before.roots.directories⟩
  currentDir := after.currentDir.trans before.currentDir
  grown := Nat.le_trans before.grown after.grown
  entries d listed t bound present := by
    have here := before.entries d listed t bound present
    rw [← here] at present ⊢
    exact after.entries d ((listed_same s middle before.roots d).mpr listed) t bound present
  ptes d listed page bound table present other := by
    have directory := before.entries d listed (page / 1024) (by omega) table
    have here := before.ptes d listed page bound table present other
    rw [← directory] at table
    rw [← here, ← before.roots.kernelDirectory] at present
    rw [← here]
    refine after.ptes d ((listed_same s middle before.roots d).mpr listed) page bound table present ?_
    rcases both with rfl | rfl
    · simp
    · exact other
  above x high := by
    rw [after.above x high]
    exact before.above x (Nat.le_trans after.grown high)

/-! Stores into the structures. -/

/-- The entry of one page in its table becomes `w`, and nothing else changes. -/
structure StoresPage (s s' : Paging) (d : Word) (page : Nat) (w : Word) : Prop where
  keeps : Keeps s s' (some (d, page))
  history : s'.history = s.history
  place : s'.placeAddr = s.placeAddr
  entries : ∀ d', s.Listed d' → ∀ t < 1024, s'.entry d' t = s.entry d' t
  ptes : ∀ d', s.Listed d' → ∀ page' < 2 ^ 20, Present (s.entry d' (page' / 1024)) →
    (d', page') ≠ (d, page) → s'.pte d' page' = s.pte d' page'
  pte : s'.pte d page = w
  bits : ∀ n < 2 ^ 20, s'.bit n = s.bit n

section Stores
variable (s : Paging) (layout : Layout s)
include layout

theorem above_home (r : Role) (p : Word) (home : s.Home r p) (after : Memory)
    (kept : ∀ x, ¬ InSpan p 4096 x → after x = s.mem x) (x : Word)
    (high : s.placeAddr.toNat ≤ x.toNat) : after x = s.mem x := by
  apply kept
  have place := layout.housed r p home
  have top := layout.room
  rw [in_span_iff p 4096 x (by omega)]
  omega

omit layout in
theorem store_outside_page (p : Word) (i : Nat) (page : IsPage p) (bound : i < 1024) (v : Word) :
    ∀ x, ¬ InSpan p 4096 x → (s.store (cell p i) v).mem x = s.mem x :=
  fun x outside => store32_outside _ _ _ _ fun inside => outside (cell_in_page p i page bound x inside)

theorem home_kept (r r' : Role) (p q : Word) (home : s.Home r p) (other : s.Home r' q)
    (different : r ≠ r') (i : Nat) (bound : i < 1024) (v : Word) :
    PageKept s.mem (s.store (cell q i) v).mem p := by
  apply page_kept_store _ _ _ _ (layout.housed r p home).1 (layout.housed r' q other).1 bound
  rintro rfl
  exact different (layout.apart r r' p home other)

theorem store_in_table (d : Word) (t i : Nat) (listed : s.Listed d) (bound : t < 1024)
    (present : Present (s.entry d t)) (inTable : i < 1024) (v : Word) :
    StoresPage s (s.store (cell (pageOf (s.entry d t)) i) v) d (1024 * t + i) v := by
  have home := Paging.Home.table d t listed bound present
  have isPage := page_of_is_page (s.entry d t)
  have entries : ∀ d', s.Listed d' → ∀ t' < 1024,
      (s.store (cell (pageOf (s.entry d t)) i) v).entry d' t' = s.entry d' t' := by
    intro d' inOld t' bound'
    have other := Paging.Home.directory d' inOld
    exact entry_kept _ _ _ _ (layout.housed _ _ other).1 bound'
      (home_kept s layout _ _ _ _ other home (by simp) i inTable v)
  have roots : SameRoots s (s.store (cell (pageOf (s.entry d t)) i) v) := ⟨rfl, rfl, rfl⟩
  have table : (1024 * t + i) / 1024 = t := by omega
  have index : (1024 * t + i) % 1024 = i := by omega
  have ptes : ∀ d', s.Listed d' → ∀ page < 2 ^ 20, Present (s.entry d' (page / 1024)) →
      (d', page) ≠ (d, 1024 * t + i) →
      (s.store (cell (pageOf (s.entry d t)) i) v).pte d' page = s.pte d' page := by
    intro d' inOld page bound' present' other
    have inDirectory : page / 1024 < 1024 := by omega
    have home' := Paging.Home.table d' (page / 1024) inOld inDirectory present'
    by_cases same : Role.table d' (page / 1024) = Role.table d t
    · obtain ⟨rfl, rfl⟩ := Role.table.inj same
      have elsewhere : page % 1024 ≠ i := by
        rintro rfl
        exact other (by rw [Nat.div_add_mod])
      unfold Paging.pte
      rw [entries d' inOld _ inDirectory]
      exact (load_store_cell s.mem _ _ _ _ isPage isPage (Nat.mod_lt _ (by decide)) inTable v).trans
        (if_neg fun both => elsewhere both.2)
    · exact pte_kept _ _ _ _ (entries d' inOld _ inDirectory)
        (home_kept s layout _ _ _ _ home' home same i inTable v)
  refine ⟨⟨layout_same s _ layout roots rfl entries, roots, rfl, Nat.le_refl _,
    fun d' inOld t' bound' _ => entries d' inOld t' bound', fun d' inOld page bound' present' _ other =>
      ptes d' inOld page bound' present' fun same => other (by rw [same]), ?_⟩, rfl, rfl, entries, ptes, ?_, ?_⟩
  · exact above_home s layout _ _ home _ (store_outside_page s _ _ isPage inTable v)
  · unfold Paging.pte
    rw [table, index, entries d listed t bound]
    exact (load_store_cell s.mem _ _ _ _ isPage isPage inTable inTable v).trans (if_pos ⟨rfl, rfl⟩)
  · intro n bound'
    have other := Paging.Home.bitset (s := s) (n / 32768) (by omega)
    exact bit_kept _ _ n rfl (layout.housed _ _ other).1
      (home_kept s layout _ _ _ _ other home (by simp) i inTable v)

omit layout in
theorem or_bit (w k : Word) (j : Nat) (inWord : j < 32) :
    (w ||| (1#32 <<< k)).getLsbD j = (w.getLsbD j || decide (j = k.toNat)) := by
  rw [BitVec.shiftLeft_eq', ← BitVec.twoPow_eq]
  exact Bitsets.or_two_pow w k.toNat j inWord

omit layout in
theorem and_not_bit (w k : Word) (j : Nat) (inWord : j < 32) :
    (w &&& ~~~(1#32 <<< k)).getLsbD j = (w.getLsbD j && !decide (j = k.toNat)) := by
  rw [BitVec.shiftLeft_eq', ← BitVec.twoPow_eq]
  exact Bitsets.and_not_two_pow w k.toNat j inWord

omit layout in
theorem index_from_address (frame : Word) :
    (INDEX_FROM_ADDRESS frame).toNat = frame.toNat / 4096 / 32 := by
  unfold INDEX_FROM_ADDRESS INDEX_FROM_BIT
  rw [BitVec.toNat_udiv, BitVec.toNat_udiv]
  rfl

omit layout in
theorem offset_from_address (frame : Word) :
    (OFFSET_FROM_ADDRESS frame).toNat = frame.toNat / 4096 % 32 := by
  unfold OFFSET_FROM_ADDRESS OFFSET_FROM_BIT
  rw [BitVec.toNat_umod, BitVec.toNat_udiv]
  rfl

omit layout in
theorem bit_stored (frame v : Word) (n : Nat) (inSpace : n < 2 ^ 20) :
    (s.store (element s.frames (INDEX_FROM_ADDRESS frame)) v).bit n =
      if n / 32 = frame.toNat / 4096 / 32 then v.getLsbD (n % 32) else s.bit n := by
  have index := index_from_address frame
  have value : (BitVec.ofNat 32 (n / 32)).toNat = n / 32 := by
    rw [BitVec.toNat_ofNat]
    omega
  have few : frame.toNat / 4096 / 32 < bitsetWords ∧ n / 32 < bitsetWords := by
    unfold bitsetWords
    omega
  have same : BitVec.ofNat 32 (n / 32) = INDEX_FROM_ADDRESS frame ↔ n / 32 = frame.toNat / 4096 / 32 := by
    rw [← BitVec.toNat_inj, value, index]
  have stored := bitset_word_stored s (BitVec.ofNat 32 (n / 32)) (INDEX_FROM_ADDRESS frame) v
    (value.trans_lt few.2) (index.trans_lt few.1)
  have bits := fun t : Paging => bitset_word t (n / 32) few.2 (n % 32) (Nat.mod_lt n (by decide))
  rw [Nat.div_add_mod'] at bits
  rw [← bits s, ← bits, show (s.store _ v).frames = s.frames from rfl, stored]
  by_cases word : n / 32 = frame.toNat / 4096 / 32
  · rw [if_pos word, if_pos (same.mpr word)]
  · rw [if_neg word, if_neg (mt same.mp word)]

theorem bitset_store_result (frame v : Word) :
    Keeps s (s.store (element s.frames (INDEX_FROM_ADDRESS frame)) v) none ∧
      (∀ d, s.Listed d → ∀ t < 1024,
        (s.store (element s.frames (INDEX_FROM_ADDRESS frame)) v).entry d t = s.entry d t) ∧
      (∀ d, s.Listed d → ∀ page < 2 ^ 20, Present (s.entry d (page / 1024)) →
        (s.store (element s.frames (INDEX_FROM_ADDRESS frame)) v).pte d page = s.pte d page) ∧
      ∀ n < 2 ^ 20, (s.store (element s.frames (INDEX_FROM_ADDRESS frame)) v).bit n =
        if n / 32 = frame.toNat / 4096 / 32 then v.getLsbD (n % 32) else s.bit n := by
  have index := index_from_address frame
  have bound : frame.toNat / 4096 / 32 / 1024 < 32 := by omega
  have inPage : frame.toNat / 4096 / 32 % 1024 < 1024 := Nat.mod_lt _ (by decide)
  have home := Paging.Home.bitset (s := s) _ bound
  have isPage := (layout.housed _ _ home).1
  rw [element_bitset s _ _ index]
  have entries : ∀ d, s.Listed d → ∀ t < 1024, (s.store (cell (s.bitsetPage
      (frame.toNat / 4096 / 32 / 1024)) (frame.toNat / 4096 / 32 % 1024)) v).entry d t = s.entry d t := by
    intro d listed t inDirectory
    have other := Paging.Home.directory d listed
    exact entry_kept _ _ _ _ (layout.housed _ _ other).1 inDirectory
      (home_kept s layout _ _ _ _ other home (by simp) _ inPage v)
  have ptes : ∀ d, s.Listed d → ∀ page < 2 ^ 20, Present (s.entry d (page / 1024)) → (s.store (cell
      (s.bitsetPage (frame.toNat / 4096 / 32 / 1024)) (frame.toNat / 4096 / 32 % 1024)) v).pte d page =
        s.pte d page := by
    intro d listed page inSpace present
    have inDirectory : page / 1024 < 1024 := by omega
    have other := Paging.Home.table d (page / 1024) listed inDirectory present
    exact pte_kept _ _ _ _ (entries d listed _ inDirectory)
      (home_kept s layout _ _ _ _ other home (by simp) _ inPage _)
  refine ⟨⟨layout_same s _ layout ⟨rfl, rfl, rfl⟩ rfl entries, ⟨rfl, rfl, rfl⟩, rfl, Nat.le_refl _,
    fun d listed t inDirectory _ => entries d listed t inDirectory,
    fun d listed page inSpace present _ _ => ptes d listed page inSpace present, ?_⟩, entries, ptes, ?_⟩
  · exact above_home s layout _ _ home _ (store_outside_page s _ _ isPage inPage _)
  · rw [← element_bitset s _ _ index]
    exact fun n inSpace => bit_stored s frame v n inSpace

omit layout in
theorem bitset_word_loaded (frame : Word) (n : Nat) (word : n / 32 = frame.toNat / 4096 / 32) :
    (s.load (element s.frames (INDEX_FROM_ADDRESS frame))).getLsbD (n % 32) = s.bit n := by
  have index := index_from_address frame
  have page : n / 32768 = frame.toNat / 4096 / 32 / 1024 := by omega
  rw [Paging.load, element_bitset s _ _ index, ← page, ← word]
  rfl

theorem write_bitset_result (frame : Word) :
    Keeps s (writeBitset s frame) none ∧
      (∀ d, s.Listed d → ∀ t < 1024, (writeBitset s frame).entry d t = s.entry d t) ∧
      (∀ d, s.Listed d → ∀ page < 2 ^ 20, Present (s.entry d (page / 1024)) →
        (writeBitset s frame).pte d page = s.pte d page) ∧
      ∀ n < 2 ^ 20, (writeBitset s frame).bit n = (s.bit n || decide (n = frame.toNat / 4096)) := by
  have stored := bitset_store_result s layout frame
    (s.load (element s.frames (INDEX_FROM_ADDRESS frame)) ||| (1#32 <<< OFFSET_FROM_ADDRESS frame))
  refine ⟨stored.1, stored.2.1, stored.2.2.1, fun n inSpace => (stored.2.2.2 n inSpace).trans ?_⟩
  by_cases word : n / 32 = frame.toNat / 4096 / 32
  · rw [if_pos word, or_bit _ _ _ (Nat.mod_lt _ (by decide)), offset_from_address,
      bitset_word_loaded s frame n word]
    congr 1
    exact decide_eq_decide.mpr (by omega)
  · rw [if_neg word, decide_eq_false (by omega), Bool.or_false]

theorem clear_bitset_result (frame : Word) :
    Keeps s (clearBitset s frame) none ∧
      (∀ d, s.Listed d → ∀ t < 1024, (clearBitset s frame).entry d t = s.entry d t) ∧
      (∀ d, s.Listed d → ∀ page < 2 ^ 20, Present (s.entry d (page / 1024)) →
        (clearBitset s frame).pte d page = s.pte d page) ∧
      ∀ n < 2 ^ 20, (clearBitset s frame).bit n = (s.bit n && !decide (n = frame.toNat / 4096)) := by
  have stored := bitset_store_result s layout frame
    (s.load (element s.frames (INDEX_FROM_ADDRESS frame)) &&& ~~~(1#32 <<< OFFSET_FROM_ADDRESS frame))
  refine ⟨stored.1, stored.2.1, stored.2.2.1, fun n inSpace => (stored.2.2.2 n inSpace).trans ?_⟩
  by_cases word : n / 32 = frame.toNat / 4096 / 32
  · rw [if_pos word, and_not_bit _ _ _ (Nat.mod_lt _ (by decide)), offset_from_address,
      bitset_word_loaded s frame n word]
    congr 2
    exact decide_eq_decide.mpr (by omega)
  · rw [if_neg word, decide_eq_false (by omega), Bool.not_false, Bool.and_true]

/-- A table is made at `place_addr` for an entry that was absent. -/
structure Installs (s' : Paging) (d : Word) (t : Nat) (flags : Word) : Prop where
  roots : SameRoots s s'
  currentDir : s'.currentDir = s.currentDir
  mappings : s'.history.mappings = s.history.mappings
  place : s'.placeAddr = s.placeAddr + 4096#32
  entry : s'.entry d t = s.placeAddr ||| flags
  entries : ∀ t' < 1024, t' ≠ t → s'.entry d t' = s.entry d t'
  kept : ∀ p, IsPage p → p ≠ d → p ≠ s.placeAddr → PageKept s.mem s'.mem p

theorem installs_result (s' : Paging) (d : Word) (t : Nat) (flags : Word) (listed : s.Listed d)
    (bound : t < 1024) (absent : ¬ Present (s.entry d t)) (small : flags.toNat < 4096)
    (room : s.placeAddr.toNat + 4096 ≤ 2 ^ 31) (installs : Installs s s' d t flags) :
    Keeps s s' none ∧ (∀ n < 2 ^ 20, s'.bit n = s.bit n) ∧
      (∀ d', s.Listed d' → ∀ t' < 1024, ¬ (d' = d ∧ t' = t) → s'.entry d' t' = s.entry d' t') ∧
      ∀ d', s.Listed d' → ∀ page < 2 ^ 20, Present (s.entry d' (page / 1024)) →
        s'.pte d' page = s.pte d' page := by
  have top : s'.placeAddr.toNat = s.placeAddr.toNat + 4096 := by
    rw [installs.place]
    bv_omega
  have new : pageOf (s.placeAddr ||| flags) = s.placeAddr :=
    page_of_flagged _ _ layout.aligned small
  have below : ∀ r p, s.Home r p → p ≠ s.placeAddr := by
    rintro r p home rfl
    have place := (layout.housed r _ home).2
    omega
  have directory := Paging.Home.directory d listed
  have others : ∀ d', s.Listed d' → ∀ t' < 1024, ¬ (d' = d ∧ t' = t) →
      s'.entry d' t' = s.entry d' t' := by
    intro d' inOld t' bound' different
    by_cases same : d' = d
    · subst same
      exact installs.entries t' bound' fun here => different ⟨rfl, here⟩
    · have home := Paging.Home.directory d' inOld
      have isPage := (layout.housed _ _ home).1
      exact entry_kept _ _ _ _ isPage bound' (installs.kept d' isPage same (below _ _ home))
  have apart : ∀ r p, s.Home r p → r ≠ Role.directory d → PageKept s.mem s'.mem p := by
    intro r p home different
    refine installs.kept p (layout.housed r p home).1 ?_ (below r p home)
    rintro rfl
    exact different (layout.apart _ _ _ home directory)
  have ptes : ∀ d', s.Listed d' → ∀ page < 2 ^ 20, Present (s.entry d' (page / 1024)) →
      s'.pte d' page = s.pte d' page := by
    intro d' inOld page inSpace present
    have inDirectory : page / 1024 < 1024 := by omega
    have home := Paging.Home.table d' (page / 1024) inOld inDirectory present
    apply pte_kept
    · apply others d' inOld _ inDirectory
      rintro ⟨rfl, here⟩
      exact absent (here ▸ present)
    · exact apart _ _ home (by simp)
  refine ⟨⟨?_, installs.roots, installs.currentDir, by omega, ?_,
    fun d' inOld page inSpace present _ _ => ptes d' inOld page inSpace present, ?_⟩, ?_, others, ptes⟩
  · refine layout_table s s' layout installs.roots d t _ new room installs.place ?_
    intro d' inOld t' bound'
    by_cases here : d' = d ∧ t' = t
    · rw [if_pos here, here.1, here.2]
      exact installs.entry
    · rw [if_neg here]
      exact others d' inOld t' bound' here
  · intro d' inOld t' bound' present
    apply others d' inOld t' bound'
    rintro ⟨rfl, rfl⟩
    exact absent present
  · intro x high
    rw [top] at high
    have inOwn : ∀ p, IsPage p → p.toNat ≤ s.placeAddr.toNat → ¬ InSpan p 4096 x := by
      intro p page low
      rw [in_span_iff p 4096 x (by omega)]
      omega
    have isPage := page_of_is_page x
    have value := page_of_toNat x
    have mine : InSpan (pageOf x) 4096 x := by
      unfold InSpan
      bv_omega
    refine installs.kept (pageOf x) isPage ?_ ?_ x mine
    · rintro here
      have place := (layout.housed _ _ directory)
      exact inOwn d place.1 (by omega) (here ▸ mine)
    · intro here
      exact inOwn s.placeAddr layout.aligned (Nat.le_refl _) (here ▸ mine)
  · intro n inSpace
    have home := Paging.Home.bitset (s := s) (n / 32768) (by omega)
    exact bit_kept _ _ n installs.roots.frames (layout.housed _ _ home).1 (apart _ _ home (by simp))

omit layout in
theorem kmalloc_all_aligned (aligned : IsPage s.placeAddr) (size : Word) (align : Bool) :
    kmallocAll s size align = (s.placeAddr, { s with
      placeAddr := s.placeAddr + size
      history := { s.history with regions := ⟨s.placeAddr, size, none⟩ :: s.history.regions } }) := by
  have none : s.placeAddr % 0x1000#32 = 0#32 := by
    unfold IsPage at aligned
    bv_omega
  simp only [kmallocAll, none, ne_eq, not_true_eq_false, and_false, if_false]

omit layout in
theorem store_entry (p d : Word) (t : Nat) (page : IsPage d) (bound : t < 1024) (v : Word)
    (s' : Paging) (memory : s'.mem = store32 s.mem (cell d t) v) :
    s'.entry d t = v ∧ (∀ t' < 1024, t' ≠ t → s'.entry d t' = s.entry d t') ∧
      (IsPage p → p ≠ d → PageKept s.mem s'.mem p) := by
  unfold Paging.entry
  rw [memory]
  refine ⟨load32_store32 _ _ _, fun t' bound' different => ?_, fun other away => ?_⟩
  · rw [load_store_cell _ _ _ _ _ page page bound' bound, if_neg fun both => different both.2]
  · exact page_kept_store _ _ _ _ other page bound v away

theorem new_kernel_table_installs (d index : Word) (listed : s.Listed d) (bound : index.toNat < 1024) :
    Installs s (newKernelTable s d index) d index.toNat 0x3#32 := by
  have page := (layout.housed _ _ (Paging.Home.directory d listed)).1
  have memory : (newKernelTable s d index).mem =
      store32 s.mem (cell d index.toNat) (s.placeAddr ||| 0x3#32) := by
    simp only [newKernelTable, kmallocA, kmalloc_all_aligned s layout.aligned, Paging.store, element_cell]
  have stored := fun p => store_entry s p d index.toNat page bound _ _ memory
  simp only [newKernelTable, kmallocA, kmalloc_all_aligned s layout.aligned] at stored ⊢
  exact ⟨⟨rfl, rfl, rfl⟩, rfl, rfl, rfl, (stored d).1, (stored d).2.1,
    fun p other away _ => (stored p).2.2 other away⟩

theorem new_kernel_table_uncleared (d index : Word) (listed : s.Listed d) (bound : index.toNat < 1024) :
    PageKept s.mem (newKernelTable s d index).mem s.placeAddr := by
  have home := layout.housed _ _ (Paging.Home.directory d listed)
  have memory : (newKernelTable s d index).mem =
      store32 s.mem (cell d index.toNat) (s.placeAddr ||| 0x3#32) := by
    simp only [newKernelTable, kmallocA, kmalloc_all_aligned s layout.aligned, Paging.store, element_cell]
  rw [memory]
  refine page_kept_store _ _ _ _ layout.aligned home.1 bound _ ?_
  intro same
  have below := home.2
  rw [← same] at below
  omega

omit s layout in
theorem table_flags_small (isWriteable isKernel : Word) :
    (tableFlags isWriteable isKernel).toNat < 4096 ∧
      tableFlags isWriteable isKernel = pageFlags isWriteable isKernel ∧
      Present (tableFlags isWriteable isKernel) := by
  unfold tableFlags pageFlags Present
  split <;> split <;> decide

omit s layout in
theorem present_flagged (p flags : Word) (page : IsPage p) : Present (p ||| flags) ↔ Present flags := by
  unfold Present
  rw [flagged_and p flags 0x1#32 page (by decide)]

theorem install_table_installs (d index isWriteable isKernel : Word) (listed : s.Listed d)
    (bound : index.toNat < 1024) :
    Installs s (installTable s d index isWriteable isKernel) d index.toNat
        (tableFlags isWriteable isKernel) ∧
      ∀ i < 1024, load32 (installTable s d index isWriteable isKernel).mem (cell s.placeAddr i) = 0#32 := by
  have home := layout.housed _ _ (Paging.Home.directory d listed)
  have flags := (table_flags_small isWriteable isKernel).1
  have table : pageOf (s.placeAddr ||| tableFlags isWriteable isKernel) = s.placeAddr :=
    page_of_flagged _ _ layout.aligned flags
  have other : d ≠ s.placeAddr := by
    intro here
    have below := home.2
    rw [here] at below
    omega
  have memory : (installTable s d index isWriteable isKernel).mem =
      memset (store32 s.mem (cell d index.toNat) (s.placeAddr ||| tableFlags isWriteable isKernel))
        s.placeAddr 0#8 4096 := by
    simp only [installTable, kmallocA, kmalloc, kmalloc_all_aligned s layout.aligned, ite_self, Paging.store,
      Paging.load, element_cell, load32_store32, table]
  have cleared : ∀ x, (installTable s d index isWriteable isKernel).mem x =
      if InSpan s.placeAddr 4096 x then 0#8
      else store32 s.mem (cell d index.toNat) (s.placeAddr ||| tableFlags isWriteable isKernel) x := by
    intro x
    rw [memory, memset_apply _ _ _ _ _ (by decide)]
  have keeps : ∀ p, IsPage p → p ≠ s.placeAddr → PageKept
      (store32 s.mem (cell d index.toNat) (s.placeAddr ||| tableFlags isWriteable isKernel))
      (installTable s d index isWriteable isKernel).mem p := by
    intro p page away
    refine page_kept_outside _ _ _ _ page layout.aligned away fun x outside => ?_
    rw [cleared, if_neg outside]
  have stored := fun p => store_entry s p d index.toNat home.1 bound _
    (s.store (cell d index.toNat) (s.placeAddr ||| tableFlags isWriteable isKernel)) rfl
  have entries : ∀ t < 1024, (installTable s d index isWriteable isKernel).entry d t =
      (s.store (cell d index.toNat) (s.placeAddr ||| tableFlags isWriteable isKernel)).entry d t :=
    fun t inDirectory => load_cell_kept _ _ _ _ home.1 inDirectory (keeps d home.1 other)
  constructor
  · refine ⟨?_, ?_, ?_, ?_, ?_, ?_, ?_⟩
    · simp only [installTable, kmallocA, kmalloc, kmalloc_all_aligned s layout.aligned, ite_self]
      exact ⟨rfl, rfl, rfl⟩
    · simp only [installTable, kmallocA, kmalloc, kmalloc_all_aligned s layout.aligned, ite_self]
      rfl
    · simp only [installTable, kmallocA, kmalloc, kmalloc_all_aligned s layout.aligned, ite_self]
      rfl
    · simp only [installTable, kmallocA, kmalloc, kmalloc_all_aligned s layout.aligned, ite_self]
      rfl
    · rw [entries _ bound]
      exact (stored d).1
    · intro t inDirectory different
      rw [entries _ inDirectory]
      exact (stored d).2.1 t inDirectory different
    · intro p page away fresh
      exact page_kept_trans _ _ _ _ ((stored p).2.2 page away) (keeps p page fresh)
  · intro i inTable
    refine load_cell_zero _ _ _ layout.aligned inTable fun x inside => ?_
    rw [cleared, if_pos inside]

end Stores

theorem keeps_weaken (s s' : Paging) (except : Option (Word × Nat)) (keeps : Keeps s s' none) :
    Keeps s s' except :=
  ⟨keeps.layout, keeps.roots, keeps.currentDir, keeps.grown, keeps.entries,
    fun d listed page bound table present _ => keeps.ptes d listed page bound table present (by simp),
    keeps.above⟩

theorem keeps_history (s s' : Paging) (except : Option (Word × Nat)) (history : History)
    (same : history.directories = s'.history.directories) (keeps : Keeps s s' except) :
    Keeps s { s' with history := history } except := by
  have roots : SameRoots s' { s' with history := history } := ⟨rfl, rfl, same⟩
  exact ⟨layout_same s' _ keeps.layout roots rfl fun _ _ _ _ => rfl,
    ⟨keeps.roots.kernelDirectory, keeps.roots.frames, same.trans keeps.roots.directories⟩,
    keeps.currentDir, keeps.grown, keeps.entries, keeps.ptes, keeps.above⟩

/-- The exception is void for a page the kernel had not mapped. -/
theorem keeps_absent (s s' : Paging) (d : Word) (page : Nat) (keeps : Keeps s s' (some (d, page)))
    (absent : Present (s.entry d (page / 1024)) → d = s.kernelDirectory ∧ ¬ Present (s.pte d page)) :
    Keeps s s' none := by
  refine ⟨keeps.layout, keeps.roots, keeps.currentDir, keeps.grown, keeps.entries, ?_, keeps.above⟩
  intro d' listed page' bound table present _
  refine keeps.ptes d' listed page' bound table present ?_
  intro same
  obtain ⟨rfl, rfl⟩ := Prod.mk.inj (Option.some.inj same)
  obtain ⟨kernel, unmapped⟩ := absent table
  rcases present with mapped | process
  · exact unmapped mapped
  · exact process kernel

theorem keeps_refl (s : Paging) (layout : Layout s) : Keeps s s none :=
  ⟨layout, ⟨rfl, rfl, rfl⟩, rfl, Nat.le_refl _, fun _ _ _ _ _ => rfl, fun _ _ _ _ _ _ _ => rfl,
    fun _ _ => rfl⟩

theorem store_page (s : Paging) (layout : Layout s) (d v w : Word) (listed : s.Listed d)
    (present : Present (s.entry d (v.toNat / 4096 / 1024))) :
    StoresPage s (s.store (element (pageOf (s.load (element d (TABLE_INDEX_FROM_VIRTUAL_ADDRESS v))))
      (PAGE_INDEX_FROM_VIRTUAL_ADDRESS v)) w) d (v.toNat / 4096) w := by
  have stored := store_in_table s layout d _ (v.toNat / 4096 % 1024) listed (by omega) present
    (Nat.mod_lt _ (by decide)) w
  rw [Nat.div_add_mod] at stored
  rw [load_entry, element_page]
  exact stored

/-- The kernel's table for a frame: the one that is there, or a new one, which
holds what its memory held. -/
inductive KernelTable (s middle : Paging) (t : Nat) : Prop
  | found (present : Present (s.entry s.kernelDirectory t)) (same : middle = s)
  | made (absent : ¬ Present (s.entry s.kernelDirectory t))
      (installs : Installs s middle s.kernelDirectory t 0x3#32)
      (uncleared : PageKept s.mem middle.mem s.placeAddr)

def withTable (s : Paging) (d v : Word) : Paging :=
  if s.load (element d (TABLE_INDEX_FROM_VIRTUAL_ADDRESS v)) &&& 0x1#32 = 0#32 then
    newKernelTable s d (TABLE_INDEX_FROM_VIRTUAL_ADDRESS v)
  else s

theorem with_table_cases (s : Paging) (layout : Layout s) (d v : Word) (listed : s.Listed d) :
    (Present (s.entry d (v.toNat / 4096 / 1024)) ∧ withTable s d v = s) ∨
    (¬ Present (s.entry d (v.toNat / 4096 / 1024)) ∧
      Installs s (withTable s d v) d (v.toNat / 4096 / 1024) 0x3#32 ∧
      PageKept s.mem (withTable s d v).mem s.placeAddr) := by
  have bound : (TABLE_INDEX_FROM_VIRTUAL_ADDRESS v).toNat < 1024 := by
    rw [table_index_toNat]
    omega
  rw [← load_entry, ← table_index_toNat]
  by_cases missing : s.load (element d (TABLE_INDEX_FROM_VIRTUAL_ADDRESS v)) &&& 0x1#32 = 0#32
  · rw [withTable, if_pos missing]
    exact Or.inr ⟨not_not.mpr missing, new_kernel_table_installs s layout d _ listed bound,
      new_kernel_table_uncleared s layout d _ listed bound⟩
  · rw [withTable, if_neg missing]
    exact Or.inl ⟨missing, rfl⟩

theorem add_frame_cases (s : Paging) (layout : Layout s) (room : s.placeAddr.toNat + 4096 ≤ 2 ^ 31)
    (frame : Word) :
    ∃ middle, KernelTable s middle (frame.toNat / 4096 / 1024) ∧ Layout middle ∧
      Present (middle.entry s.kernelDirectory (frame.toNat / 4096 / 1024)) ∧
      (Present (middle.pte s.kernelDirectory (frame.toNat / 4096)) ∧ addFrameToKernelDir s frame = middle ∨
        ¬ Present (middle.pte s.kernelDirectory (frame.toNat / 4096)) ∧
          StoresPage middle (addFrameToKernelDir s frame) s.kernelDirectory (frame.toNat / 4096)
            (frame ||| 0x3#32)) := by
  have listed : s.Listed s.kernelDirectory := Or.inl rfl
  have bound : frame.toNat / 4096 / 1024 < 1024 := by omega
  have cases := with_table_cases s layout s.kernelDirectory frame listed
  generalize reached : withTable s s.kernelDirectory frame = middle at cases
  rw [withTable] at reached
  obtain ⟨table, layout', present, roots⟩ : KernelTable s middle (frame.toNat / 4096 / 1024) ∧ Layout middle ∧
      Present (middle.entry s.kernelDirectory (frame.toNat / 4096 / 1024)) ∧
      middle.kernelDirectory = s.kernelDirectory := by
    rcases cases with ⟨present, rfl⟩ | ⟨absent, installs, uncleared⟩
    · exact ⟨KernelTable.found present rfl, layout, present, rfl⟩
    · have result := installs_result s layout _ _ _ _ listed bound absent (by decide) room installs
      refine ⟨KernelTable.made absent installs uncleared, result.1.layout, ?_, installs.roots.kernelDirectory⟩
      rw [installs.entry, present_flagged _ _ layout.aligned]
      decide
  have listed' : middle.Listed s.kernelDirectory := Or.inl roots.symm
  have stored := store_page middle layout' s.kernelDirectory frame (frame ||| 0x3#32) listed' present
  refine ⟨middle, table, layout', present, ?_⟩
  unfold addFrameToKernelDir
  simp only [reached, roots]
  split
  next mapped =>
    left
    rw [load_entry, element_page] at mapped
    exact ⟨mapped, rfl⟩
  next free =>
    right
    rw [load_entry, element_page] at free
    exact ⟨free, stored⟩

theorem add_frame_table (s : Paging) (layout : Layout s) (room : s.placeAddr.toNat + 4096 ≤ 2 ^ 31)
    (frame : Word) (absent : ¬ Present (s.entry s.kernelDirectory (frame.toNat / 4096 / 1024))) :
    (addFrameToKernelDir s frame).entry s.kernelDirectory (frame.toNat / 4096 / 1024) =
      s.placeAddr ||| 0x3#32 := by
  obtain ⟨middle, table, _, _, result⟩ := add_frame_cases s layout room frame
  cases table with
  | found present _ => exact absurd present absent
  | made _ installs _ =>
      rw [← installs.entry]
      rcases result with ⟨_, done⟩ | ⟨_, stored⟩
      · rw [done]
      · exact stored.entries _ (Or.inl installs.roots.kernelDirectory.symm) _ (by omega)

/-- `add_frame_to_kernel_dir` changes no entry that is present, and no directory
of a process. -/
theorem add_frame_result (s : Paging) (layout : Layout s) (room : s.placeAddr.toNat + 4096 ≤ 2 ^ 31)
    (frame : Word) :
    Keeps s (addFrameToKernelDir s frame) none ∧
      (∀ n < 2 ^ 20, (addFrameToKernelDir s frame).bit n = s.bit n) ∧
      (addFrameToKernelDir s frame).placeAddr.toNat = s.placeAddr.toNat +
        (if Present (s.entry s.kernelDirectory (frame.toNat / 4096 / 1024)) then 0 else 4096) ∧
      (addFrameToKernelDir s frame).history.mappings = s.history.mappings ∧
      ∀ d, s.Listed d → d ≠ s.kernelDirectory → ∀ t < 1024,
        (addFrameToKernelDir s frame).entry d t = s.entry d t := by
  have listed : s.Listed s.kernelDirectory := Or.inl rfl
  have bound : frame.toNat / 4096 / 1024 < 1024 := by omega
  obtain ⟨middle, table, _, present, result⟩ := add_frame_cases s layout room frame
  -- the state once the table is there, in either case
  obtain ⟨keeps, bits, place, mappings, others⟩ : Keeps s middle none ∧
      (∀ n < 2 ^ 20, middle.bit n = s.bit n) ∧
      middle.placeAddr.toNat = s.placeAddr.toNat +
        (if Present (s.entry s.kernelDirectory (frame.toNat / 4096 / 1024)) then 0 else 4096) ∧
      middle.history.mappings = s.history.mappings ∧
      ∀ d, s.Listed d → d ≠ s.kernelDirectory → ∀ t < 1024, middle.entry d t = s.entry d t := by
    cases table with
    | found present same =>
        subst same
        rw [if_pos present]
        exact ⟨keeps_refl middle layout, fun _ _ => rfl, rfl, rfl, fun _ _ _ _ _ => rfl⟩
    | made absent installs _ =>
        obtain ⟨keeps, bits, others, _⟩ := installs_result s layout _ _ _ _ listed bound absent (by decide)
          room installs
        refine ⟨keeps, bits, ?_, installs.mappings, fun d inOld process t inDirectory =>
          others d inOld t inDirectory fun both => process both.1⟩
        rw [if_neg absent, installs.place]
        bv_omega
  rcases result with ⟨_, done⟩ | ⟨free, stored⟩
  · rw [done]
    exact ⟨keeps, bits, place, mappings, others⟩
  · refine ⟨?_, fun n inSpace => (stored.bits n inSpace).trans (bits n inSpace), ?_, ?_,
      fun d inOld process t inDirectory => ?_⟩
    · have both := keeps_trans s middle _ _ _ (keeps_weaken s middle _ keeps) stored.keeps (Or.inr rfl)
      refine keeps_absent s _ _ _ both fun inTable => ⟨rfl, fun mapped => free ?_⟩
      rw [keeps.ptes _ listed _ (by omega) inTable (Or.inl mapped) (by simp)]
      exact mapped
    · rw [stored.place]
      exact place
    · rw [stored.history]
      exact mappings
    · rw [stored.entries d ((listed_same s middle keeps.roots d).mpr inOld) t inDirectory]
      exact others d inOld process t inDirectory

end GargOS
