import GargOS.Screen

/-!
Runs of `putc` and the cursor keys after `init_video`: the cursor stays on the
screen, the controller knows it, and nothing is written outside video memory.
-/

namespace GargOS
open ByteMemory

def InVideo (a : Word) : Prop := InSpan VIDEO_MEMORY 4000 a

instance (a : Word) : Decidable (InVideo a) := inferInstanceAs (Decidable (InSpan _ _ _))

/-- All writes are inside video memory. -/
structure Confined (s after : Screen) : Prop where
  written : ∃ new, after.written = new ++ s.written ∧ ∀ a ∈ new, InVideo a
  outside : ∀ a, ¬ InVideo a → after.mem a = s.mem a

/-- The functions that write characters leave the cursor where it is. -/
structure Draws (s after : Screen) : Prop extends Confined s after where
  cx : after.cx = s.cx
  cy : after.cy = s.cy

theorem confined_same (s after : Screen) (mem : after.mem = s.mem) (written : after.written = s.written) :
    Confined s after :=
  ⟨⟨[], written, by simp⟩, fun a _ => congrFun mem a⟩

theorem confined_trans (s middle after : Screen) (first : Confined s middle) (second : Confined middle after) :
    Confined s after := by
  obtain ⟨earlier, before, inside⟩ := first.written
  obtain ⟨later, behind, inside'⟩ := second.written
  refine ⟨⟨later ++ earlier, ?_, ?_⟩, fun a away => ?_⟩
  · rw [behind, before, List.append_assoc]
  · intro a member
    exact (List.mem_append.mp member).elim (inside' a) (inside a)
  · rw [second.outside a away, first.outside a away]

theorem draws_refl (s : Screen) : Draws s s := ⟨confined_same s s rfl rfl, rfl, rfl⟩

theorem draws_trans (s middle after : Screen) (first : Draws s middle) (second : Draws middle after) :
    Draws s after :=
  ⟨confined_trans s middle after first.toConfined second.toConfined, second.cx.trans first.cx,
    second.cy.trans first.cy⟩

theorem draws_write (s : Screen) (a : Word) (b : Byte) (inside : InVideo a) : Draws s (s.write a b) := by
  refine ⟨⟨⟨[a], rfl, ?_⟩, fun x away => ?_⟩, rfl, rfl⟩
  · intro x member
    rw [List.mem_singleton.mp member]
    exact inside
  · refine if_neg ?_
    rintro rfl
    exact away inside

theorem cell_addr_toNat (index : Int) (low : 0 ≤ index) (high : index < 2000) :
    (cellAddr index).toNat = 0xB8000 + 2 * index.toNat := by
  have offset : (BitVec.ofInt 32 (2 * index)).toNat = 2 * index.toNat := by
    rw [BitVec.toNat_ofInt]
    omega
  have base : VIDEO_MEMORY.toNat = 0xB8000 := rfl
  rw [cellAddr, BitVec.toNat_add, base, offset]
  omega

theorem in_video_iff (a : Word) : InVideo a ↔ 0xB8000 ≤ a.toNat ∧ a.toNat < 0xB8000 + 4000 :=
  in_span_iff VIDEO_MEMORY 4000 a (by decide)

theorem draws_store (s : Screen) (index : Int) (low : 0 ≤ index) (high : index < 2000) (v : BitVec 16) :
    Draws s (s.store (cellAddr index) v) := by
  have place := cell_addr_toNat index low high
  have next : (cellAddr index + 1#32).toNat = 0xB8000 + 2 * index.toNat + 1 := by bv_omega
  refine draws_trans _ _ _ (draws_write s _ _ ?_) (draws_write _ _ _ ?_)
  · rw [in_video_iff]
    omega
  · rw [in_video_iff]
    omega

theorem draws_blank_row (s : Screen) (row n : Nat) (inRows : row < 25) (bound : n ≤ 80) :
    Draws s (blankRow s row n) := by
  have columns : (COLUMNS : Int) = 80 := rfl
  induction n with
  | zero => exact draws_refl s
  | succ n ih =>
      rw [blankRow, columns]
      exact draws_trans _ _ _ (ih (by omega)) (draws_store _ _ (by omega) (by omega) _)

theorem draws_memcpy (s : Screen) (dest src : Word) (n : Nat)
    (inside : ∀ i < n, InVideo (dest + BitVec.ofNat 32 i)) : Draws s (memcpy s dest src n) := by
  induction n with
  | zero => exact draws_refl s
  | succ n ih =>
      refine draws_trans _ _ _ (ih fun i less => inside i (by omega)) (draws_write _ _ _ ?_)
      exact inside n (Nat.lt_succ_self n)

theorem draws_copy_rows (s : Screen) (n : Nat) (bound : n ≤ 24) : Draws s (copyRows s n) := by
  have columns : COLUMNS = 80 := rfl
  induction n with
  | zero => exact draws_refl s
  | succ n ih =>
      refine draws_trans _ _ _ (ih (by omega)) (draws_memcpy _ _ _ _ fun i less => ?_)
      have base : VIDEO_MEMORY.toNat = 0xB8000 := rfl
      have place : (VIDEO_MEMORY + BitVec.ofNat 32 (n * COLUMNS * 2) + BitVec.ofNat 32 i).toNat =
          0xB8000 + n * 80 * 2 + i := by
        rw [columns, BitVec.toNat_add, BitVec.toNat_add, BitVec.toNat_ofNat, BitVec.toNat_ofNat]
        omega
      rw [columns] at less
      rw [in_video_iff, place]
      omega

theorem scroll_result (s : Screen) :
    Confined s (scroll s) ∧ (scroll s).cx = s.cx ∧ (scroll s).cy = s.cy - 1 := by
  have copied := draws_copy_rows s (ROWS - 1) (by decide)
  have cleared := draws_blank_row (copyRows s (ROWS - 1)) (ROWS - 1) COLUMNS (by decide) (by decide)
  have both := draws_trans _ _ _ copied cleared
  unfold scroll
  generalize blankRow (copyRows s (ROWS - 1)) (ROWS - 1) COLUMNS = middle at both
  dsimp only
  refine ⟨confined_trans _ _ _ both.toConfined (confined_same _ _ rfl rfl), both.cx, ?_⟩
  rw [both.cy]

theorem scroll_rounds_result (rounds : Nat) (s : Screen) (enough : s.cy < 25 + rounds) :
    Confined s (scrollRounds rounds s) ∧ (scrollRounds rounds s).cx = s.cx ∧
      (scrollRounds rounds s).cy = min s.cy 24 := by
  have rows : (ROWS : Int) = 25 := rfl
  induction rounds generalizing s with
  | zero => exact ⟨confined_same s s rfl rfl, rfl, by rw [scrollRounds]; omega⟩
  | succ rounds ih =>
      obtain ⟨confined, cx, cy⟩ := scroll_result s
      rw [scrollRounds]
      split
      next below =>
        obtain ⟨confined', cx', cy'⟩ := ih (scroll s) (by omega)
        exact ⟨confined_trans _ _ _ confined confined', cx'.trans cx, by omega⟩
      next => exact ⟨confined_same s s rfl rfl, rfl, by omega⟩

theorem scroll_if_needed_result (s : Screen) :
    Confined s (scrollIfNeeded s) ∧ (scrollIfNeeded s).cx = s.cx ∧ (scrollIfNeeded s).cy = min s.cy 24 :=
  scroll_rounds_result s.cy.toNat s (by omega)

def cursorPosition (s : Screen) : Nat := (s.crt 0x0E#8).toNat * 256 + (s.crt 0x0F#8).toNat

theorem update_cursor_result (s : Screen) (column : 0 ≤ s.cx ∧ s.cx < 80) (row : 0 ≤ s.cy ∧ s.cy < 25) :
    Draws s (updateCursor s) ∧ (cursorPosition (updateCursor s) : Int) = s.cy * 80 + s.cx := by
  have x : (BitVec.ofInt 8 s.cx).toNat = s.cx.toNat := by
    rw [BitVec.toNat_ofInt]
    omega
  have y : (BitVec.ofInt 8 s.cy).toNat = s.cy.toNat := by
    rw [BitVec.toNat_ofInt]
    omega
  generalize shape : (BitVec.ofInt 8 s.cy).setWidth 16 * BitVec.ofNat 16 COLUMNS +
    (BitVec.ofInt 8 s.cx).setWidth 16 = pos
  have value : pos.toNat = s.cy.toNat * 80 + s.cx.toNat := by
    have columns : (BitVec.ofNat 16 COLUMNS).toNat = 80 := rfl
    rw [← shape, BitVec.toNat_add, BitVec.toNat_mul, BitVec.toNat_setWidth, BitVec.toNat_setWidth, x, y,
      columns]
    omega
  have low : ((pos &&& 0xFF#16).setWidth 8).toNat = pos.toNat % 256 := by
    rw [BitVec.toNat_setWidth, BitVec.toNat_and, show (0xFF#16).toNat = 2 ^ 8 - 1 from rfl,
      Nat.and_two_pow_sub_one_eq_mod]
    omega
  have high : (((pos >>> 8) &&& 0xFF#16).setWidth 8).toNat = pos.toNat / 256 % 256 := by
    rw [BitVec.toNat_setWidth, BitVec.toNat_and, show (0xFF#16).toNat = 2 ^ 8 - 1 from rfl,
      Nat.and_two_pow_sub_one_eq_mod, BitVec.toNat_ushiftRight, Nat.shiftRight_eq_div_pow]
    omega
  constructor
  · exact ⟨confined_same _ _ rfl rfl, rfl, rfl⟩
  · have position : cursorPosition (updateCursor s) =
        (((pos >>> 8) &&& 0xFF#16).setWidth 8).toNat * 256 + ((pos &&& 0xFF#16).setWidth 8).toNat := by
      rw [← shape]
      rfl
    rw [position, low, high, value]
    omega

structure OnScreen (s : Screen) : Prop where
  column : 0 ≤ s.cx ∧ s.cx < 80
  row : 0 ≤ s.cy ∧ s.cy < 25
  cursor : (cursorPosition s : Int) = s.cy * 80 + s.cx

theorem settle_result (s middle : Screen) (confined : Confined s middle)
    (column : 0 ≤ middle.cx ∧ middle.cx < 80) (row : 0 ≤ middle.cy) :
    OnScreen (updateCursor (scrollIfNeeded middle)) ∧
      Confined s (updateCursor (scrollIfNeeded middle)) := by
  obtain ⟨scrolled, cx, cy⟩ := scroll_if_needed_result middle
  obtain ⟨draws, cursor⟩ := update_cursor_result (scrollIfNeeded middle) (by omega) (by omega)
  have cx' := draws.cx
  have cy' := draws.cy
  exact ⟨⟨by omega, by omega, by omega⟩,
    confined_trans _ _ _ confined (confined_trans _ _ _ scrolled draws.toConfined)⟩

theorem next_tab_result (rounds : Nat) (pos : BitVec 16) (low : pos.toNat ≤ 2000)
    (enough : 9 ≤ pos.toNat % 8 + rounds ∨ pos.toNat % 8 = 0 ∧ 0 < rounds) :
    (nextTab rounds pos).toNat = (pos.toNat + 7) / 8 * 8 + 1 := by
  induction rounds generalizing pos with
  | zero => omega
  | succ rounds ih =>
      have rest : pos % 8#16 = 0#16 ↔ pos.toNat % 8 = 0 := by
        rw [← BitVec.toNat_inj, BitVec.toNat_umod]
        rfl
      have next : (pos + 1#16).toNat = pos.toNat + 1 := by bv_omega
      rw [nextTab]
      split
      next more =>
        have some : pos.toNat % 8 ≠ 0 := fun zero => more (rest.mpr zero)
        rw [ih (pos + 1#16) (by omega) (by omega), next]
        omega
      next done =>
        have zero := rest.mp (not_not.mp done)
        omega

theorem putc_result (s : Screen) (screen : OnScreen s) (character : Byte) :
    OnScreen (putc s character) ∧ Confined s (putc s character) := by
  have columns : (COLUMNS : Int) = 80 := rfl
  have width : COLUMNS = 80 := rfl
  have column := screen.column
  have row := screen.row
  have drawn := fun index low high v => (draws_store s index low high v)
  unfold putc
  dsimp only
  rw [columns, width]
  by_cases newline : character = 10#8
  · rw [if_pos newline]
    exact settle_result s _ (confined_same _ _ rfl rfl) (by dsimp only; omega) (by dsimp only; omega)
  rw [if_neg newline]
  by_cases carriage : character = 13#8
  · rw [if_pos carriage]
    exact settle_result s _ (confined_same _ _ rfl rfl) (by dsimp only; omega) row.1
  rw [if_neg carriage]
  by_cases back : character = 8#8
  · rw [if_pos back]
    split
    next => exact ⟨screen, confined_same s s rfl rfl⟩
    next some =>
      have draws := drawn (s.cy * 80 + s.cx - 1) (by omega) (by omega) blank
      generalize s.store (cellAddr (s.cy * 80 + s.cx - 1)) blank = erased at draws
      have cx := draws.cx
      have cy := draws.cy
      have still : ∀ cx cy, Confined s { erased with cx := cx, cy := cy } := fun cx cy =>
        confined_trans _ _ _ draws.toConfined (confined_same _ _ rfl rfl)
      -- at the start of a row the cursor goes to the end of the row above
      split
      next under => exact settle_result s _ (still 79 (erased.cy - 1)) (by dsimp only; omega) (by dsimp only at *; omega)
      next inside => exact settle_result s _ (still (erased.cx - 1) erased.cy) (by dsimp only at *; omega) (by dsimp only; omega)
  rw [if_neg back]
  by_cases tab : character = 9#8
  · rw [if_pos tab]
    exact settle_result s _ (confined_same _ _ rfl rfl) (by dsimp only; omega) (by dsimp only; omega)
  rw [if_neg tab]
  have low : 0 ≤ s.cy * 80 + s.cx := by omega
  have high : s.cy * 80 + s.cx < 2000 := by omega
  by_cases delete : character = 127#8
  · rw [if_pos delete]
    have draws := drawn _ low high blank
    have cx := draws.cx
    have cy := draws.cy
    exact settle_result s _ draws.toConfined (by omega) (by omega)
  rw [if_neg delete]
  have draws := drawn _ low high (GRAY_ON_CYAN ||| character.setWidth 16)
  generalize s.store (cellAddr (s.cy * 80 + s.cx)) (GRAY_ON_CYAN ||| character.setWidth 16) = shown at draws
  have cx := draws.cx
  have cy := draws.cy
  have still : ∀ cx cy, Confined s { shown with cx := cx, cy := cy } := fun cx cy =>
    confined_trans _ _ _ draws.toConfined (confined_same _ _ rfl rfl)
  split
  next inside => exact settle_result s _ (still (shown.cx + 1) shown.cy) (by dsimp only; omega) (by dsimp only; omega)
  next last => exact settle_result s _ (still 0 (shown.cy + 1)) (by dsimp only; omega) (by dsimp only; omega)

/-! Runs. -/

inductive ScreenCall
  | putc (character : Byte)
  | moveCursorUp
  | moveCursorDown
  | moveCursorRight
  | moveCursorLeft

def screenCall (s : Screen) : ScreenCall → Screen
  | .putc character => putc s character
  | .moveCursorUp => moveCursorUp s
  | .moveCursorDown => moveCursorDown s
  | .moveCursorRight => moveCursorRight s
  | .moveCursorLeft => moveCursorLeft s

theorem cursor_moved (s middle : Screen) (mem : middle.mem = s.mem) (written : middle.written = s.written)
    (column : 0 ≤ middle.cx ∧ middle.cx < 80) (row : 0 ≤ middle.cy ∧ middle.cy < 25) :
    OnScreen (updateCursor middle) ∧ Confined s (updateCursor middle) := by
  obtain ⟨draws, cursor⟩ := update_cursor_result middle column row
  have cx := draws.cx
  have cy := draws.cy
  exact ⟨⟨by omega, by omega, by omega⟩,
    confined_trans _ _ _ (confined_same s middle mem written) draws.toConfined⟩

theorem screen_call_result (s : Screen) (screen : OnScreen s) (call : ScreenCall) :
    OnScreen (screenCall s call) ∧ Confined s (screenCall s call) := by
  have columns : (COLUMNS : Int) = 80 := rfl
  have rows : (ROWS : Int) = 25 := rfl
  have column := screen.column
  have row := screen.row
  cases call with
  | putc character => exact putc_result s screen character
  | moveCursorUp =>
      rw [screenCall, moveCursorUp]
      split
      · exact cursor_moved s _ rfl rfl column (by dsimp only; omega)
      · exact cursor_moved s s rfl rfl column row
  | moveCursorDown =>
      rw [screenCall, moveCursorDown]
      split
      · exact cursor_moved s _ rfl rfl column (by dsimp only; omega)
      · exact cursor_moved s s rfl rfl column row
  | moveCursorRight =>
      rw [screenCall, moveCursorRight]
      split
      · exact cursor_moved s _ rfl rfl (by dsimp only; omega) row
      · exact cursor_moved s s rfl rfl column row
  | moveCursorLeft =>
      rw [screenCall, moveCursorLeft]
      split
      · exact cursor_moved s _ rfl rfl (by dsimp only; omega) row
      · exact cursor_moved s s rfl rfl column row

theorem draws_blank_rows (s : Screen) (n : Nat) (bound : n ≤ 25) : Draws s (blankRows s n) := by
  induction n with
  | zero => exact draws_refl s
  | succ n ih =>
      exact draws_trans _ _ _ (ih (by omega)) (draws_blank_row _ n COLUMNS (by omega) (by decide))

theorem init_video_result (s : Screen) :
    OnScreen (initVideo s) ∧ Confined s (initVideo s) ∧ (initVideo s).cx = 0 ∧ (initVideo s).cy = 0 := by
  have draws := draws_blank_rows s ROWS (by decide)
  unfold initVideo
  generalize blankRows s ROWS = cleared at draws
  have origin : Confined cleared { cleared with cx := 0, cy := 0 } := confined_same _ _ rfl rfl
  generalize shape : ({ cleared with cx := 0, cy := 0 } : Screen) = home at origin
  have x : home.cx = 0 := by rw [← shape]
  have y : home.cy = 0 := by rw [← shape]
  obtain ⟨moved, cursor⟩ := update_cursor_result home (by omega) (by omega)
  have cx := moved.cx
  have cy := moved.cy
  exact ⟨⟨by omega, by omega, by omega⟩, confined_trans _ _ _ draws.toConfined
    (confined_trans _ _ _ origin moved.toConfined), by omega, by omega⟩

/-- After every call the cursor is on the screen and the controller shows it
there, and everything the calls wrote is inside video memory. -/
theorem screen_kept (start : Screen) (calls : List ScreenCall) :
    OnScreen (calls.foldl screenCall (initVideo start)) ∧
      Confined (initVideo start) (calls.foldl screenCall (initVideo start)) := by
  induction calls using List.reverseRecOn with
  | nil => exact ⟨(init_video_result start).1, confined_same _ _ rfl rfl⟩
  | append_singleton calls call ih =>
      obtain ⟨screen, confined⟩ := ih
      obtain ⟨screen', confined'⟩ := screen_call_result _ screen call
      rw [List.foldl_append, List.foldl_cons, List.foldl_nil]
      exact ⟨screen', confined_trans _ _ _ confined confined'⟩

end GargOS
