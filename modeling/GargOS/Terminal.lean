import GargOS.ScreenRuns
import GargOS.Lib.LineWrap

/-!
The screen as a terminal: after any text it shows the last lines of it, broken
at the newlines and after every 80 characters of a line.
-/

namespace GargOS
open ByteMemory LineWrap

def Screen.cell (s : Screen) (i : Nat) : BitVec 16 := load16 s.mem (cellAddr i)

theorem cell_toNat (i : Nat) (bound : i < 2000) : (cellAddr i).toNat = 0xB8000 + 2 * i := by
  have place := cell_addr_toNat i (by omega) (by omega)
  omega

theorem cell_in_span (i : Nat) (bound : i < 2000) (x : Word) :
    InSpan (cellAddr i) 2 x ↔ 0xB8000 + 2 * i ≤ x.toNat ∧ x.toNat < 0xB8000 + 2 * i + 2 := by
  have place := cell_toNat i bound
  rw [in_span_iff _ _ _ (by omega), place]

theorem store_cell (s : Screen) (k : Nat) (inside : k < 2000) (v : BitVec 16) (i : Nat) (bound : i < 2000) :
    (s.store (cellAddr k) v).cell i = if i = k then v else s.cell i := by
  have memory : (s.store (cellAddr k) v).mem = store16 s.mem (cellAddr k) v := rfl
  rw [Screen.cell, memory]
  split
  next same =>
    subst same
    exact load16_store16 _ _ _
  next different =>
    refine load16_congr _ _ _ fun x here => store16_outside _ _ _ _ fun there => ?_
    rw [cell_in_span i bound] at here
    rw [cell_in_span k inside] at there
    omega

theorem memcpy_mem (s : Screen) (dest src : Word) (n : Nat) (fits : n ≤ 2 ^ 32) (apart : Apart src n dest n)
    (x : Word) :
    (memcpy s dest src n).mem x = if InSpan dest n x then s.mem (src + (x - dest)) else s.mem x := by
  induction n generalizing x with
  | zero => exact (if_neg (Nat.not_lt_zero _)).symm
  | succ n ih =>
      have ih := ih (by omega) fun y inside outside => apart y (Nat.lt_succ_of_lt inside) (Nat.lt_succ_of_lt outside)
      have last : (BitVec.ofNat 32 n).toNat = n := by
        rw [BitVec.toNat_ofNat]
        omega
      have source : InSpan src (n + 1) (src + BitVec.ofNat 32 n) := offset_in_span _ _ _ (by omega)
      have unwritten : ¬ InSpan dest n (src + BitVec.ofNat 32 n) := fun inside =>
        apart _ source (Nat.lt_succ_of_lt inside)
      show (if x = dest + BitVec.ofNat 32 n then (memcpy s dest src n).mem (src + BitVec.ofNat 32 n)
        else (memcpy s dest src n).mem x) = _
      rw [ih x, ih (src + BitVec.ofNat 32 n), if_neg unwritten]
      have next := in_span_succ dest n (by omega) x
      by_cases here : x = dest + BitVec.ofNat 32 n
      · have offset : x - dest = BitVec.ofNat 32 n := by
          rw [here]
          bv_omega
        rw [if_pos here, if_pos (next.mpr (Or.inl here)), offset]
      · rw [if_neg here]
        simp only [next, here, false_or]

theorem copy_row_cell (s : Screen) (n : Nat) (above : n < 24) (i : Nat) (bound : i < 2000) :
    (memcpy s (VIDEO_MEMORY + BitVec.ofNat 32 (n * COLUMNS * 2))
      (VIDEO_MEMORY + BitVec.ofNat 32 ((n + 1) * COLUMNS * 2)) (COLUMNS * 2)).cell i =
      if 80 * n ≤ i ∧ i < 80 * n + 80 then s.cell (i + 80) else s.cell i := by
  have columns : COLUMNS = 80 := rfl
  have base : VIDEO_MEMORY.toNat = 0xB8000 := rfl
  have row : ∀ k ≤ 24, (VIDEO_MEMORY + BitVec.ofNat 32 (k * COLUMNS * 2)).toNat = 0xB8000 + 160 * k := by
    intro k less
    rw [columns, BitVec.toNat_add, BitVec.toNat_ofNat, base]
    omega
  have dest := row n (by omega)
  have src := row (n + 1) (by omega)
  rw [columns] at dest src ⊢
  generalize VIDEO_MEMORY + BitVec.ofNat 32 (n * 80 * 2) = a at *
  generalize VIDEO_MEMORY + BitVec.ofNat 32 ((n + 1) * 80 * 2) = b at *
  have moved := memcpy_mem s a b (80 * 2) (by omega) (apart_of_le a b _ _ (by omega) (by omega)).2
  have inRow := fun x => in_span_iff a (80 * 2) x (by omega)
  rw [Screen.cell]
  split
  next here =>
    have place := cell_toNat i bound
    have below := cell_toNat (i + 80) (by omega)
    -- both bytes of the cell come from 160 bytes further on
    have byte : ∀ j : Word, j.toNat < 2 → (memcpy s a b (80 * 2)).mem (cellAddr i + j) =
        s.mem (cellAddr (i + 80 : Nat) + j) := by
      intro j less
      have value : (cellAddr i + j).toNat = 0xB8000 + 2 * i + j.toNat := by bv_omega
      have inside : InSpan a (80 * 2) (cellAddr i + j) := by
        rw [inRow, value]
        omega
      have source : b + (cellAddr i + j - a) = cellAddr (i + 80 : Nat) + j := by bv_omega
      rw [moved, if_pos inside, source]
    have first := byte 0#32 (by decide)
    rw [BitVec.add_zero, BitVec.add_zero] at first
    rw [Screen.cell, load16, load16, first, byte 1#32 (by decide)]
  next outside =>
    refine load16_congr _ _ _ fun x inside => ?_
    rw [cell_in_span i bound] at inside
    rw [moved, if_neg]
    rw [inRow]
    omega

theorem copy_rows_cell (s : Screen) (n : Nat) (few : n ≤ 24) (i : Nat) (bound : i < 2000) :
    (copyRows s n).cell i = if i < 80 * n then s.cell (i + 80) else s.cell i := by
  induction n generalizing i with
  | zero => rfl
  | succ n ih =>
      rw [copyRows, copy_row_cell _ n (by omega) i bound]
      split
      next here =>
        rw [ih (by omega) (i + 80) (by omega), if_neg (by omega), if_pos (by omega)]
      next other =>
        rw [ih (by omega) i bound]
        by_cases above : i < 80 * n
        · rw [if_pos above, if_pos (by omega)]
        · rw [if_neg above, if_neg (by omega)]

theorem blank_row_cell (s : Screen) (row n : Nat) (inRows : row < 25) (few : n ≤ 80) (i : Nat)
    (bound : i < 2000) :
    (blankRow s row n).cell i = if 80 * row ≤ i ∧ i < 80 * row + n then blank else s.cell i := by
  have columns : (COLUMNS : Int) = 80 := rfl
  induction n with
  | zero => exact (if_neg (by omega)).symm
  | succ n ih =>
      have index : (row * COLUMNS + n : Int) = ((80 * row + n : Nat) : Int) := by
        rw [columns]
        omega
      rw [blankRow, index, store_cell _ _ (by omega) _ _ bound, ih (by omega)]
      by_cases last : i = 80 * row + n
      · rw [if_pos last, if_pos (by omega)]
      · rw [if_neg last]
        by_cases before : 80 * row ≤ i ∧ i < 80 * row + n
        · rw [if_pos before, if_pos (by omega)]
        · rw [if_neg before, if_neg (by omega)]

theorem scroll_drawn (s middle : Screen)
    (cleared : blankRow (copyRows s (ROWS - 1)) (ROWS - 1) COLUMNS = middle) (i : Nat) :
    (scroll s).cell i = middle.cell i := by
  unfold Screen.cell
  rw [scroll, cleared]

theorem scroll_cell (s : Screen) (i : Nat) (bound : i < 2000) :
    (scroll s).cell i = if i < 1920 then s.cell (i + 80) else blank := by
  have last := blank_row_cell (copyRows s (ROWS - 1)) (ROWS - 1) COLUMNS (by decide) (by decide) i bound
  have copied := copy_rows_cell s (ROWS - 1) (by decide) i bound
  have rows : ROWS - 1 = 24 := rfl
  have columns : COLUMNS = 80 := rfl
  rw [scroll_drawn s _ rfl, last, copied]
  by_cases above : i < 1920
  · rw [if_neg (by omega), if_pos (by omega), if_pos above]
  · rw [if_pos (by omega), if_neg above]

theorem blank_rows_cell (s : Screen) (n : Nat) (few : n ≤ 25) (i : Nat) (bound : i < 2000) (inside : i < 80 * n) :
    (blankRows s n).cell i = blank := by
  induction n with
  | zero => omega
  | succ n ih =>
      rw [blankRows, blank_row_cell _ n COLUMNS (by omega) (by decide) i bound]
      split
      next => rfl
      next other =>
        have columns : COLUMNS = 80 := rfl
        exact ih (by omega) (by omega)

/-! The text on the screen. -/

def newline : Byte := 10#8

def glyph : Option Byte → BitVec 16
  | some character => GRAY_ON_CYAN ||| character.setWidth 16
  | none => blank

def Displays (s : Screen) (text : List (List Byte)) (first : Nat) : Prop :=
  ∀ row < 25, ∀ column < 80, s.cell (80 * row + column) = glyph (charAt text (first + row) column)

/-- The last 25 lines are shown, with the cursor behind the last of them. -/
structure Shows (s : Screen) (text : List (List Byte)) : Prop where
  cells : ∀ row < 25, ∀ column < 80,
    s.cell (80 * row + column) = glyph (charAt (text.drop (text.length - 25)) row column)
  column : s.cx = (text.getLastD []).length
  row : s.cy + 1 = (text.drop (text.length - 25)).length

/-- A screen that shows the lines from `first` on, perhaps with the cursor one
row below it. -/
structure Pending (s : Screen) (text : List (List Byte)) (first : Nat) : Prop where
  displays : Displays s text first
  column : s.cx = (text.getLastD []).length
  row : s.cy + first + 1 = text.length
  onRow : 0 ≤ s.cy ∧ s.cy ≤ 25
  top : first = 0 ∨ 24 ≤ s.cy
  below : s.cy = 25 → text.getLastD [] = []

theorem shows_pending (s : Screen) (text : List (List Byte)) (some : 0 < text.length) (shows_ : Shows s text) :
    Pending s text (text.length - 25) ∧ s.cy ≤ 24 := by
  have row := shows_.row
  rw [List.length_drop] at row
  refine ⟨⟨fun r less c inside => ?_, shows_.column, by omega, by omega, by omega, by omega⟩, by omega⟩
  rw [shows_.cells r less c inside, char_at_drop]

theorem displays_same (s after : Screen) (text : List (List Byte)) (first : Nat) (same : after.mem = s.mem)
    (displays : Displays s text first) : Displays after text first := by
  intro row less column inside
  rw [Screen.cell, same]
  exact displays row less column inside

theorem displays_empty_line (s : Screen) (text : List (List Byte)) (first : Nat)
    (displays : Displays s text first) : Displays s (text ++ [[]]) first := by
  intro row less column inside
  rw [char_at_empty_line]
  exact displays row less column inside

theorem scroll_if_needed_cases (s : Screen) (low : 0 ≤ s.cy ∧ s.cy ≤ 25) :
    (s.cy ≤ 24 ∧ scrollIfNeeded s = s) ∨ (s.cy = 25 ∧ scrollIfNeeded s = scroll s) := by
  have rows : (ROWS : Int) = 25 := rfl
  have still : ∀ (rounds : Nat) (s : Screen), s.cy ≤ 24 → scrollRounds rounds s = s := by
    intro rounds s above
    cases rounds with
    | zero => rfl
    | succ rounds => exact if_neg (by omega)
  by_cases last : s.cy = 25
  · have count : s.cy.toNat = 24 + 1 := by omega
    have moved := (scroll_result s).2.2
    refine Or.inr ⟨last, ?_⟩
    rw [scrollIfNeeded, count, scrollRounds, if_pos (by omega)]
    exact still _ _ (by omega)
  · exact Or.inl ⟨by omega, still _ _ (by omega)⟩

theorem update_cursor_same (s : Screen) :
    (updateCursor s).mem = s.mem ∧ (updateCursor s).cx = s.cx ∧ (updateCursor s).cy = s.cy :=
  ⟨rfl, rfl, rfl⟩

theorem pending_settles (s : Screen) (text : List (List Byte)) (first : Nat) (pending : Pending s text first) :
    Shows (updateCursor (scrollIfNeeded s)) text := by
  have row := pending.row
  have top := pending.top
  obtain ⟨mem, cx, cy⟩ := update_cursor_same (scrollIfNeeded s)
  generalize updateCursor (scrollIfNeeded s) = after at mem cx cy ⊢
  rcases scroll_if_needed_cases s pending.onRow with ⟨above, same⟩ | ⟨last, scrolled⟩
  · rw [same] at mem cx cy
    have start : text.length - 25 = first := by omega
    refine ⟨fun r less c inside => ?_, cx.trans pending.column, ?_⟩
    · rw [start, char_at_drop]
      exact displays_same s after text first mem pending.displays r less c inside
    · rw [List.length_drop, cy]
      omega
  · rw [scrolled] at mem
    rw [scrolled, (scroll_result s).2.1] at cx
    rw [scrolled, (scroll_result s).2.2] at cy
    have start : text.length - 25 = first + 1 := by omega
    refine ⟨fun r less c inside => ?_, ?_, ?_⟩
    · have cell : after.cell (80 * r + c) = (scroll s).cell (80 * r + c) := by
        unfold Screen.cell
        rw [mem]
      rw [start, char_at_drop, cell, scroll_cell s _ (by omega)]
      by_cases onScreen : r < 24
      · have below : 80 * r + c + 80 = 80 * (r + 1) + c := by omega
        rw [if_pos (by omega), below, pending.displays (r + 1) (by omega) c inside]
        congr 2
        omega
      · -- the row that scrolls in is that of the last line, which is empty
        have empty := pending.below last
        have some : text ≠ [] := by
          rintro rfl
          rw [List.length_nil] at row
          omega
        have shape := List.dropLast_append_getLast some
        rw [List.getLastD_eq_getLast?, List.getLast?_eq_some_getLast some, Option.getD_some] at empty
        rw [empty] at shape
        have length : text.dropLast.length = text.length - 1 := List.length_dropLast
        rw [if_neg (by omega), ← shape, char_at_empty_line, char_at_behind _ _ _ (by omega)]
        rfl
    · exact cx.trans pending.column
    · rw [List.length_drop, cy]
      omega

/-- A character that is only shown. -/
def Plain (character : Byte) : Prop :=
  character ≠ 13#8 ∧ character ≠ 8#8 ∧ character ≠ 9#8 ∧ character ≠ 127#8

instance (character : Byte) : Decidable (Plain character) := inferInstanceAs (Decidable (_ ∧ _))

theorem putc_newline (s : Screen) (text : List (List Byte)) (some : 0 < text.length) (shows_ : Shows s text) :
    Shows (putc s newline) (text ++ [[]]) := by
  obtain ⟨pending, above⟩ := shows_pending s text some shows_
  have row := pending.row
  have onRow := pending.onRow
  have top := pending.top
  have taken : putc s newline = updateCursor (scrollIfNeeded { s with cy := s.cy + 1, cx := 0 }) := by
    rw [putc]
    exact if_pos rfl
  rw [taken]
  refine pending_settles _ _ (text.length - 25) ⟨?_, ?_, ?_, ?_, ?_, fun _ => ?_⟩
  · exact displays_same s _ _ _ rfl (displays_empty_line s text _ pending.displays)
  · simp
  · rw [List.length_append, List.length_singleton]
    dsimp only
    omega
  · dsimp only
    omega
  · dsimp only
    omega
  · simp

theorem displays_append (s : Screen) (earlier : List (List Byte)) (last : List Byte) (first : Nat)
    (pending : Pending s (earlier ++ [last]) first) (above : s.cy ≤ 24) (short : last.length < 80)
    (character : Byte) :
    Displays (s.store (cellAddr (s.cy * COLUMNS + s.cx)) (GRAY_ON_CYAN ||| character.setWidth 16))
      (earlier ++ [last ++ [character]]) first := by
  have columns : (COLUMNS : Int) = 80 := rfl
  have row := pending.row
  have column := pending.column
  have onRow := pending.onRow
  rw [List.length_append, List.length_singleton] at row
  rw [List.getLastD_concat] at column
  have index : s.cy * COLUMNS + s.cx = ((80 * s.cy.toNat + last.length : Nat) : Int) := by
    rw [columns]
    omega
  intro r less c inside
  rw [index, store_cell _ _ (by omega) _ _ (by omega), char_at_append]
  -- the cursor stands behind the last line, where the character goes
  by_cases here : first + r = earlier.length ∧ c = last.length
  · rw [if_pos here, if_pos (by omega)]
    rfl
  · rw [if_neg here, if_neg (by omega)]
    exact pending.displays r less c inside

theorem putc_plain (s : Screen) (earlier : List (List Byte)) (last : List Byte)
    (shows_ : Shows s (earlier ++ [last])) (short : last.length < 80) (character : Byte)
    (plain : Plain character) (other : character ≠ newline) :
    Shows (putc s character) (earlier ++
      if last.length + 1 = 80 then [last ++ [character], []] else [last ++ [character]]) := by
  have columns : (COLUMNS : Int) = 80 := rfl
  obtain ⟨pending, above⟩ := shows_pending s _ (by simp) shows_
  generalize (earlier ++ [last]).length - 25 = first at pending
  have displays := displays_append s earlier last first pending above short character
  have row := pending.row
  have column := pending.column
  have onRow := pending.onRow
  have top := pending.top
  rw [List.length_append, List.length_singleton] at row
  rw [List.getLastD_concat] at column
  obtain ⟨carriage, back, tab, delete⟩ := plain
  have other : character ≠ 10#8 := other
  unfold putc
  dsimp only
  rw [if_neg other, if_neg carriage, if_neg back, if_neg tab, if_neg delete]
  have drawn := draws_store s (s.cy * COLUMNS + s.cx) (by rw [columns]; omega) (by rw [columns]; omega)
    (GRAY_ON_CYAN ||| character.setWidth 16)
  generalize s.store (cellAddr (s.cy * COLUMNS + s.cx)) (GRAY_ON_CYAN ||| character.setWidth 16) = shown at *
  have cx := drawn.cx
  have cy := drawn.cy
  by_cases full : last.length + 1 = 80
  · -- the character fills its line, and an empty one begins below
    have wraps : ¬ shown.cx < COLUMNS - 1 := by
      rw [columns]
      omega
    have lines : earlier ++ [last ++ [character], []] = earlier ++ [last ++ [character]] ++ [[]] := by simp
    rw [if_pos full, if_neg wraps, lines]
    refine pending_settles _ _ first ⟨?_, ?_, ?_, ?_, ?_, fun _ => ?_⟩
    · exact displays_same shown _ _ _ rfl (displays_empty_line shown _ _ displays)
    · simp
    · simp only [List.length_append, List.length_singleton]
      omega
    · dsimp only
      omega
    · dsimp only
      omega
    · simp
  · have stays : shown.cx < COLUMNS - 1 := by
      rw [columns]
      omega
    rw [if_neg full, if_pos stays]
    refine pending_settles _ _ first ⟨?_, ?_, ?_, ?_, ?_, fun under => ?_⟩
    · exact displays_same shown _ _ _ rfl displays
    · rw [List.getLastD_concat, List.length_append, List.length_singleton]
      dsimp only
      omega
    · simp only [List.length_append, List.length_singleton]
      omega
    · dsimp only
      omega
    · dsimp only
      omega
    · dsimp only at under
      omega

/-- The simulation: what one character does to the text. -/
theorem putc_shows (s : Screen) (text : List Byte) (shows_ : Shows s (lines newline 80 text)) (character : Byte)
    (plain : Plain character) : Shows (putc s character) (lines newline 80 (text ++ [character])) := by
  obtain ⟨earlier, last, split, short⟩ := lines_split newline 80 text (by decide)
  by_cases breaks : character = newline
  · subst breaks
    rw [lines_newline newline 80 text (by decide)]
    refine putc_newline s _ ?_ shows_
    rw [split, List.length_append, List.length_singleton]
    omega
  · rw [lines_append newline 80 text (by decide) character breaks earlier last split]
    rw [split] at shows_
    exact putc_plain s earlier last shows_ short character plain breaks

theorem init_video_shows (start : Screen) : Shows (initVideo start) (lines newline 80 []) := by
  obtain ⟨_, _, cx, cy⟩ := init_video_result start
  rw [lines_nil newline 80 (by decide)]
  refine ⟨fun row less column inside => ?_, cx, by rw [cy]; rfl⟩
  have cells : (initVideo start).cell (80 * row + column) = (blankRows start ROWS).cell (80 * row + column) := by
    unfold Screen.cell initVideo
    rw [(update_cursor_same _).1]
  rw [cells, blank_rows_cell start ROWS (by decide) _ (by omega) (by rw [show ROWS = 25 from rfl]; omega)]
  cases row with
  | zero => rfl
  | succ row => rfl

theorem text_shows (start : Screen) (text : List Byte) (plain : ∀ character ∈ text, Plain character) :
    Shows (text.foldl putc (initVideo start)) (lines newline 80 text) := by
  induction text using List.reverseRecOn with
  | nil => exact init_video_shows start
  | append_singleton text character ih =>
      rw [List.foldl_append, List.foldl_cons, List.foldl_nil]
      refine putc_shows _ text (ih fun earlier member => plain earlier ?_) character (plain character ?_)
      · exact List.mem_append_left _ member
      · exact List.mem_append_right _ (List.mem_singleton_self character)

/-! Characters written one by one and as strings. -/

inductive Output
  | putc (character : Byte)
  | puts (string : List Byte)

def output (s : Screen) : Output → Screen
  | .putc character => putc s character
  | .puts string => puts s string

def Output.text : Output → List Byte
  | .putc character => [character]
  | .puts string => string.takeWhile (· ≠ 0#8)

theorem puts_text (s : Screen) (string : List Byte) :
    puts s string = (string.takeWhile (· ≠ 0#8)).foldl putc s := by
  induction string generalizing s with
  | nil => rfl
  | cons character string ih =>
      rw [puts]
      by_cases more : character ≠ 0#8
      · rw [if_pos more, List.takeWhile_cons_of_pos (by simp [more]), List.foldl_cons]
        exact ih _
      · rw [if_neg more, List.takeWhile_cons_of_neg (by simp [more]), List.foldl_nil]

theorem outputs_text (s : Screen) (outputs : List Output) :
    outputs.foldl output s = (outputs.flatMap Output.text).foldl putc s := by
  induction outputs generalizing s with
  | nil => rfl
  | cons one outputs ih =>
      rw [List.foldl_cons, List.flatMap_cons, List.foldl_append, ih]
      congr 1
      cases one with
      | putc character => rfl
      | puts string => exact puts_text s string

/-- The screen shows the last 25 lines of whatever was written. -/
theorem terminal_shows (start : Screen) (outputs : List Output)
    (plain : ∀ character ∈ outputs.flatMap Output.text, Plain character) :
    Shows (outputs.foldl output (initVideo start)) (lines newline 80 (outputs.flatMap Output.text)) := by
  rw [outputs_text]
  exact text_shows start _ plain

/-- A line that is longer than a row, and more lines than the screen has rows. -/
theorem terminal_shows_scrolled :
    Shows ([Output.puts (List.replicate 85 72#8 ++ List.replicate 26 newline), Output.putc 33#8].foldl output
      (initVideo ⟨fun _ => 0#8, 0, 0, 0#8, fun _ => 0#8, []⟩))
      (List.replicate 80 72#8 :: List.replicate 5 72#8 :: (List.replicate 25 [] ++ [[33#8]])) :=
  terminal_shows _ [Output.puts (List.replicate 85 72#8 ++ List.replicate 26 newline), Output.putc 33#8] (by decide)

end GargOS
