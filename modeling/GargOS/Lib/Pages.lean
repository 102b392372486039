import GargOS.Lib.ByteLanes

/-!
Memory as pages of 1024 aligned words. A page is named by its first address; a
word that holds a page and some flags is split again by masking.
-/

namespace Pages
open ByteMemory

def IsPage (p : Word) : Prop := p.toNat % 4096 = 0

def cell (p : Word) (i : Nat) : Word := p + BitVec.ofNat 32 (4 * i)

/-- The page a word with flags in its low bits names. -/
def pageOf (w : Word) : Word := w &&& 0xFFFFF000#32

theorem page_of_toNat (w : Word) : (pageOf w).toNat = w.toNat - w.toNat % 4096 := by
  have mask : pageOf w = (w >>> 12) <<< 12 := by
    ext i bound
    have ones : (0xFFFFF000#32 : Word)[i] = decide (12 ≤ i) := by
      revert i
      decide
    simp only [pageOf, BitVec.getElem_and, ones, BitVec.getElem_shiftLeft]
    by_cases low : i < 12
    · simp [low]
    · have back : 12 + (i - 12) = i := by omega
      simp [low, Nat.le_of_not_lt low, back, BitVec.getLsbD_eq_getElem bound]
  rw [mask, BitVec.toNat_shiftLeft, BitVec.toNat_ushiftRight, Nat.shiftRight_eq_div_pow,
    Nat.shiftLeft_eq]
  omega

theorem page_of_is_page (w : Word) : IsPage (pageOf w) := by
  have value := page_of_toNat w
  unfold IsPage
  omega

theorem flagged_toNat (p flags : Word) (page : IsPage p) (small : flags.toNat < 4096) :
    (p ||| flags).toNat = p.toNat + flags.toNat := by
  have split : p.toNat = p.toNat / 4096 * 2 ^ 12 := by
    unfold IsPage at page
    omega
  rw [BitVec.toNat_or, split, ByteLanes.packed _ _ 12 small]

theorem page_of_flagged (p flags : Word) (page : IsPage p) (small : flags.toNat < 4096) :
    pageOf (p ||| flags) = p := by
  apply BitVec.eq_of_toNat_eq
  rw [page_of_toNat, flagged_toNat p flags page small]
  unfold IsPage at page
  omega

theorem flagged_and (p flags mask : Word) (page : IsPage p) (low : mask.toNat < 4096) :
    (p ||| flags) &&& mask = flags &&& mask := by
  have none : p &&& mask = 0#32 := by
    ext i bound
    simp only [BitVec.getElem_and, BitVec.getElem_zero, Bool.and_eq_false_iff]
    by_cases inFlags : i < 12
    · left
      have bit : p[i] = p.toNat.testBit i := by
        rw [← BitVec.getLsbD_eq_getElem bound, BitVec.getLsbD]
      have shape : p.toNat = 2 ^ 12 * (p.toNat / 4096) := by
        unfold IsPage at page
        omega
      rw [bit, shape, Nat.testBit_two_pow_mul]
      simp [inFlags]
    · right
      rw [← BitVec.getLsbD_eq_getElem bound, BitVec.getLsbD]
      refine Nat.testBit_lt_two_pow (Nat.lt_of_lt_of_le low ?_)
      exact Nat.pow_le_pow_right (n := 2) (i := 12) (by decide) (by omega)
  have spread : (p ||| flags) &&& mask = (p &&& mask) ||| (flags &&& mask) := by
    ext i bound
    simp only [BitVec.getElem_and, BitVec.getElem_or, Bool.and_or_distrib_right]
  rw [spread, none, BitVec.zero_or]

theorem cell_toNat (p : Word) (i : Nat) (page : IsPage p) (bound : i < 1024) :
    (cell p i).toNat = p.toNat + 4 * i := by
  unfold cell IsPage at *
  bv_omega

theorem cell_in_page (p : Word) (i : Nat) (page : IsPage p) (bound : i < 1024) (x : Word)
    (inside : InSpan (cell p i) 4 x) : InSpan p 4096 x := by
  have place := cell_toNat p i page bound
  unfold InSpan IsPage at *
  bv_omega

theorem page_unique (p q x : Word) (page : IsPage p) (other : IsPage q) (left : InSpan p 4096 x)
    (right : InSpan q 4096 x) : p = q := by
  unfold InSpan IsPage at *
  bv_omega

theorem cells_apart (p q : Word) (i j : Nat) (page : IsPage p) (other : IsPage q) (left : i < 1024)
    (right : j < 1024) (different : ¬ (p = q ∧ i = j)) : Apart (cell p i) 4 (cell q j) 4 := by
  intro x inFirst inSecond
  have same := page_unique p q x page other (cell_in_page p i page left x inFirst)
    (cell_in_page q j other right x inSecond)
  subst same
  have first := cell_toNat p i page left
  have second := cell_toNat p j page right
  apply different
  refine ⟨rfl, ?_⟩
  unfold InSpan IsPage at *
  bv_omega

theorem load_store_cell (m : Memory) (p q : Word) (i j : Nat) (page : IsPage p) (other : IsPage q)
    (left : i < 1024) (right : j < 1024) (v : Word) :
    load32 (store32 m (cell q j) v) (cell p i) = if p = q ∧ i = j then v else load32 m (cell p i) := by
  by_cases same : p = q ∧ i = j
  · rw [if_pos same, same.1, same.2, load32_store32]
  · rw [if_neg same, load32_store32_apart _ _ _ _ (cells_apart p q i j page other left right same)]

def PageKept (m after : Memory) (p : Word) : Prop := ∀ x, InSpan p 4096 x → after x = m x

theorem page_kept_trans (m middle after : Memory) (p : Word) (first : PageKept m middle p)
    (second : PageKept middle after p) : PageKept m after p :=
  fun x inside => (second x inside).trans (first x inside)

theorem page_kept_store (m : Memory) (p q : Word) (j : Nat) (page : IsPage p) (other : IsPage q)
    (bound : j < 1024) (v : Word) (away : p ≠ q) : PageKept m (store32 m (cell q j) v) p := by
  intro x inside
  apply store32_outside
  intro inCell
  exact away (page_unique p q x page other inside (cell_in_page q j other bound x inCell))

theorem page_kept_outside (m after : Memory) (p q : Word) (page : IsPage p) (other : IsPage q)
    (away : p ≠ q) (kept : ∀ x, ¬ InSpan q 4096 x → after x = m x) : PageKept m after p := by
  intro x inside
  apply kept
  intro inOther
  exact away (page_unique p q x page other inside inOther)

theorem load_cell_kept (m after : Memory) (p : Word) (i : Nat) (page : IsPage p) (bound : i < 1024)
    (kept : PageKept m after p) : load32 after (cell p i) = load32 m (cell p i) :=
  load32_congr _ _ _ fun x inside => kept x (cell_in_page p i page bound x inside)

theorem load_cell_zero (after : Memory) (p : Word) (i : Nat) (page : IsPage p) (bound : i < 1024)
    (zero : ∀ x, InSpan p 4096 x → after x = 0#8) : load32 after (cell p i) = 0#32 := by
  have bytes : ∀ j : Word, j.toNat < 4 → after (cell p i + j) = 0#8 := by
    intro j inWord
    exact zero _ (cell_in_page p i page bound _ (offset_in_span _ _ _ inWord))
  have first := zero _ (cell_in_page p i page bound _ (base_in_span (cell p i) 4 (by decide)))
  simp only [load32, first, bytes 1#32 (by decide), bytes 2#32 (by decide), bytes 3#32 (by decide)]
  rfl

end Pages
