import GargOS.Terminal

/-!
What typing, erasing and tabs do to the cells: backspaces take back what was
typed, across the ends of rows and with the rows that scrolled meanwhile, and a
tab goes one column too far.
-/

namespace GargOS
open ByteMemory

def position (s : Screen) : Nat := (s.cy * COLUMNS + s.cx).toNat

theorem position_eq (s : Screen) : position s = (s.cy * 80 + s.cx).toNat := rfl

/-- Cell `i` once the screen has moved up by some rows, with blank rows below. -/
def Screen.movedUp (s : Screen) (rows i : Nat) : BitVec 16 :=
  if i + 80 * rows < 2000 then s.cell (i + 80 * rows) else blank

/-- The rows that scroll off for a cursor at cell `p`, which may be below the screen. -/
def scrolledRows (p : Nat) : Nat := p / 80 - 24

theorem on_screen_position (s : Screen) (screen : OnScreen s) :
    position s < 2000 ∧ s.cy * 80 + s.cx = (position s : Int) := by
  have column := screen.column
  have row := screen.row
  rw [position_eq]
  omega

theorem moved_up_again (s middle : Screen) (first second : Nat) (i : Nat)
    (moved : i + 80 * second < 2000 →
      middle.cell (i + 80 * second) = s.movedUp first (i + 80 * second)) :
    middle.movedUp second i = s.movedUp (first + second) i := by
  unfold Screen.movedUp at *
  have sum : i + 80 * (first + second) = i + 80 * second + 80 * first := by omega
  rw [sum]
  split
  next inside => exact moved inside
  next outside => rw [if_neg (by omega)]

theorem settle_cells (middle : Screen) (column : 0 ≤ middle.cx ∧ middle.cx < 80)
    (row : 0 ≤ middle.cy ∧ middle.cy ≤ 25) :
    position (updateCursor (scrollIfNeeded middle)) + 80 * scrolledRows (position middle) =
        position middle ∧
      ∀ i < 2000, (updateCursor (scrollIfNeeded middle)).cell i =
        middle.movedUp (scrolledRows (position middle)) i := by
  obtain ⟨mem, cx, cy⟩ := update_cursor_same (scrollIfNeeded middle)
  generalize updateCursor (scrollIfNeeded middle) = after at mem cx cy ⊢
  rcases scroll_if_needed_cases middle row with ⟨above, same⟩ | ⟨last, scrolled⟩
  · have rows : scrolledRows (position middle) = 0 := by
      rw [scrolledRows, position_eq]
      omega
    rw [same] at mem cx cy
    rw [rows]
    refine ⟨by rw [position_eq, position_eq, cx, cy]; omega, fun i less => ?_⟩
    rw [Screen.movedUp, if_pos (by omega), Screen.cell, mem]
    rfl
  · have rows : scrolledRows (position middle) = 1 := by
      rw [scrolledRows, position_eq]
      omega
    rw [scrolled] at mem cx cy
    rw [(scroll_result middle).2.1] at cx
    rw [(scroll_result middle).2.2] at cy
    rw [rows]
    refine ⟨by rw [position_eq, position_eq, cx, cy]; omega, fun i less => ?_⟩
    have cell : after.cell i = (scroll middle).cell i := by
      unfold Screen.cell
      rw [mem]
    rw [cell, scroll_cell middle i less, Screen.movedUp]
    by_cases inside : i < 1920
    · rw [if_pos inside, if_pos (by omega)]
    · rw [if_neg inside, if_neg (by omega)]

/-! Typing. -/

def Ordinary (character : Byte) : Prop := 32 ≤ character.toNat ∧ character ≠ 127#8

instance (character : Byte) : Decidable (Ordinary character) := inferInstanceAs (Decidable (_ ∧ _))

theorem putc_ordinary (s : Screen) (screen : OnScreen s) (character : Byte) (ordinary : Ordinary character) :
    position (putc s character) + 80 * scrolledRows (position s + 1) = position s + 1 ∧
      ∀ i < 2000, i + 80 * scrolledRows (position s + 1) ≠ position s →
        (putc s character).cell i = s.movedUp (scrolledRows (position s + 1)) i := by
  have columns : (COLUMNS : Int) = 80 := rfl
  have column := screen.column
  have row := screen.row
  obtain ⟨bound, index⟩ := on_screen_position s screen
  have control : ∀ other : Byte, other.toNat < 32 → character ≠ other := by
    rintro other small rfl
    have := ordinary.1
    omega
  rw [putc, if_neg (control _ (by decide)), if_neg (control _ (by decide)), if_neg (control _ (by decide)),
    if_neg (control _ (by decide)), if_neg ordinary.2, columns, index]
  have stored := fun i less => store_cell s (position s) bound (GRAY_ON_CYAN ||| character.setWidth 16) i less
  have draws := draws_store s (position s) (by omega) (by omega) (GRAY_ON_CYAN ||| character.setWidth 16)
  have cx := draws.cx
  have cy := draws.cy
  generalize s.store (cellAddr (position s)) (GRAY_ON_CYAN ||| character.setWidth 16) = shown at *
  dsimp only
  -- at the end of a row the cursor goes to the next one
  generalize moves : (if shown.cx < 80 - 1 then { shown with cx := shown.cx + 1 }
    else { shown with cx := 0, cy := shown.cy + 1 } : Screen) = middle
  have result : 0 ≤ middle.cx ∧ middle.cx < 80 ∧ 0 ≤ middle.cy ∧ middle.cy ≤ 25 ∧
      position middle = position s + 1 ∧ ∀ i, middle.cell i = shown.cell i := by
    rw [position_eq, ← moves]
    split
    next inside =>
      dsimp only
      exact ⟨by omega, by omega, by omega, by omega, by omega, fun i => rfl⟩
    next last =>
      dsimp only
      exact ⟨by omega, by omega, by omega, by omega, by omega, fun i => rfl⟩
  obtain ⟨left, right, top, bottom, next, cells⟩ := result
  obtain ⟨place, settled⟩ := settle_cells middle ⟨left, right⟩ ⟨top, bottom⟩
  rw [next] at place settled
  refine ⟨place, fun i less other => ?_⟩
  rw [settled i less, Screen.movedUp, Screen.movedUp]
  split
  next inside => rw [cells, stored _ inside, if_neg other]
  next => rfl

/-- A text typed at cell `p`: the cursor is behind it, and outside of it the
screen has only moved up. -/
structure Typed (s : Screen) (count : Nat) (after : Screen) : Prop where
  screen : OnScreen after
  place : position after + 80 * scrolledRows (position s + count) = position s + count
  cells : ∀ i < 2000, i + 80 * scrolledRows (position s + count) < position s ∨
    position s + count ≤ i + 80 * scrolledRows (position s + count) →
    after.cell i = s.movedUp (scrolledRows (position s + count)) i

theorem typed_run (s : Screen) (screen : OnScreen s) (w : List Byte) (ordinary : ∀ c ∈ w, Ordinary c) :
    Typed s w.length (w.foldl putc s) := by
  induction w using List.reverseRecOn with
  | nil =>
      have rows : scrolledRows (position s) = 0 := by
        have bound := (on_screen_position s screen).1
        unfold scrolledRows
        omega
      refine ⟨screen, ?_, fun i less _ => ?_⟩
      · rw [List.length_nil, Nat.add_zero, rows]
        rfl
      · rw [List.length_nil, Nat.add_zero, rows, Screen.movedUp, if_pos (by omega)]
        rfl
  | append_singleton w c ih =>
      have typed := ih fun other member => ordinary other (List.mem_append_left [c] member)
      rw [List.foldl_append, List.foldl_cons, List.foldl_nil, List.length_append, List.length_singleton]
      generalize w.foldl putc s = middle at typed ⊢
      have bound := (on_screen_position middle typed.screen).1
      have place := typed.place
      obtain ⟨next, cells⟩ := putc_ordinary middle typed.screen c (ordinary c (by simp))
      -- the rows scrolled so far, and the one this character may scroll
      have rows : scrolledRows (position s + (w.length + 1)) =
          scrolledRows (position s + w.length) + scrolledRows (position middle + 1) := by
        unfold scrolledRows at *
        omega
      refine ⟨(putc_result middle typed.screen c).1, ?_, fun i less outside => ?_⟩
      · rw [rows]
        omega
      · rw [rows] at outside ⊢
        rw [cells i less (by omega)]
        exact moved_up_again s middle _ _ i fun inside => typed.cells _ inside (by omega)

/-! Erasing. -/

theorem putc_backspace (s : Screen) (screen : OnScreen s) (later : 0 < position s) :
    position (putc s 8#8) + 1 = position s ∧
      ∀ i < 2000, (putc s 8#8).cell i = if i + 1 = position s then blank else s.cell i := by
  have columns : (COLUMNS : Int) = 80 := rfl
  have column := screen.column
  have row := screen.row
  obtain ⟨bound, index⟩ := on_screen_position s screen
  have back : s.cy * 80 + s.cx - 1 = ((position s - 1 : Nat) : Int) := by omega
  have start : ¬ (s.cx ≤ 0 ∧ s.cy ≤ 0) := by omega
  rw [putc, if_neg (by decide), if_neg (by decide), if_pos rfl, if_neg start, columns, back]
  have stored := fun i less => store_cell s (position s - 1) (by omega) blank i less
  have draws := draws_store s (((position s - 1 : Nat) : Int)) (by omega) (by omega) blank
  have cx := draws.cx
  have cy := draws.cy
  generalize s.store (cellAddr ((position s - 1 : Nat) : Int)) blank = erased at *
  dsimp only
  -- at the start of a row the cursor goes to the end of the row above
  generalize moves : (if erased.cx - 1 < 0 then { erased with cx := 80 - 1, cy := erased.cy - 1 }
    else { erased with cx := erased.cx - 1 } : Screen) = middle
  have result : 0 ≤ middle.cx ∧ middle.cx < 80 ∧ 0 ≤ middle.cy ∧ middle.cy ≤ 24 ∧
      position middle + 1 = position s ∧ ∀ i, middle.cell i = erased.cell i := by
    rw [position_eq, ← moves]
    split
    next under =>
      dsimp only
      exact ⟨by omega, by omega, by omega, by omega, by omega, fun i => rfl⟩
    next inside =>
      dsimp only
      exact ⟨by omega, by omega, by omega, by omega, by omega, fun i => rfl⟩
  obtain ⟨left, right, top, bottom, next, cells⟩ := result
  obtain ⟨place, settled⟩ := settle_cells middle ⟨left, right⟩ ⟨top, by omega⟩
  have rows : scrolledRows (position middle) = 0 := by
    unfold scrolledRows
    omega
  rw [rows] at place settled
  refine ⟨by omega, fun i less => ?_⟩
  rw [settled i less, Screen.movedUp, if_pos (by omega), Nat.mul_zero, Nat.add_zero, cells, stored i less]
  by_cases here : i + 1 = position s
  · rw [if_pos here, if_pos (by omega)]
  · rw [if_neg here, if_neg (by omega)]

theorem erased_run (s : Screen) (screen : OnScreen s) (count : Nat) (few : count ≤ position s) :
    OnScreen ((List.replicate count 8#8).foldl putc s) ∧
      position ((List.replicate count 8#8).foldl putc s) + count = position s ∧
      ∀ i < 2000, ((List.replicate count 8#8).foldl putc s).cell i =
        if position s ≤ i + count ∧ i < position s then blank else s.cell i := by
  induction count with
  | zero => exact ⟨screen, rfl, fun i less => (if_neg (by omega)).symm⟩
  | succ count ih =>
      obtain ⟨reached, place, cells⟩ := ih (by omega)
      rw [List.replicate_succ', List.foldl_append, List.foldl_cons, List.foldl_nil]
      generalize (List.replicate count 8#8).foldl putc s = middle at reached place cells ⊢
      obtain ⟨back, erased⟩ := putc_backspace middle reached (by omega)
      refine ⟨(putc_result middle reached 8#8).1, by omega, fun i less => ?_⟩
      rw [erased i less, cells i less]
      by_cases here : i + 1 = position middle
      · rw [if_pos here, if_pos (by omega)]
      · rw [if_neg here]
        by_cases before : position s ≤ i + count ∧ i < position s
        · rw [if_pos before, if_pos (by omega)]
        · rw [if_neg before, if_neg (by omega)]

/-- The screen after as many backspaces as characters were typed: the cursor is
where it was, the cells of the text are blank, and the others are as before, but
for the rows that scrolled. -/
structure Undone (s : Screen) (count rows : Nat) (after : Screen) : Prop where
  screen : OnScreen after
  place : position after + 80 * rows = position s
  erased : ∀ i, position after ≤ i → i < position after + count → after.cell i = blank
  others : ∀ i < 2000, i < position after ∨ position after + count ≤ i → after.cell i = s.movedUp rows i

/-- Backspaces undo typing, if the rows that scrolled meanwhile leave the cell
where it began on the screen. -/
theorem backspace_undoes (start s : Screen) (calls : List ScreenCall)
    (reached : calls.foldl screenCall (initVideo start) = s) (w : List Byte)
    (ordinary : ∀ c ∈ w, Ordinary c) :
    ∃ rows, position (w.foldl putc s) + 80 * rows = position s + w.length ∧
      (80 * rows ≤ position s →
        Undone s w.length rows ((List.replicate w.length 8#8).foldl putc (w.foldl putc s))) := by
  have screen : OnScreen s := reached ▸ (screen_kept start calls).1
  have typed := typed_run s screen w ordinary
  generalize w.foldl putc s = middle at typed ⊢
  have place := typed.place
  refine ⟨_, place, fun kept => ?_⟩
  have bound := (on_screen_position middle typed.screen).1
  obtain ⟨back, behind, cells⟩ := erased_run middle typed.screen w.length (by omega)
  refine ⟨back, by omega, fun i low high => ?_, fun i less outside => ?_⟩
  · rw [cells i (by omega), if_pos (by omega)]
  · rw [cells i less, if_neg (by omega)]
    exact typed.cells i less (by omega)

def emptyScreen : Screen := ⟨fun _ => 0#8, 0, 0, 0#8, fun _ => 0#8, []⟩

theorem letters_reach (n : Nat) (bound : n < 2000) :
    ∃ (calls : List ScreenCall) (s : Screen), calls.foldl screenCall (initVideo emptyScreen) = s ∧ OnScreen s ∧
      position s = n := by
  obtain ⟨screen, _, cx, cy⟩ := init_video_result emptyScreen
  have begins : position (initVideo emptyScreen) = 0 := by rw [position_eq, cx, cy]; rfl
  have ordinary : ∀ c ∈ List.replicate n 72#8, Ordinary c := fun c member =>
    List.eq_of_mem_replicate member ▸ by decide
  have typed := typed_run (initVideo emptyScreen) screen (List.replicate n 72#8) ordinary
  refine ⟨(List.replicate n 72#8).map ScreenCall.putc, _, List.foldl_map, typed.screen, ?_⟩
  have place := typed.place
  rw [begins, List.length_replicate] at place
  unfold scrolledRows at place
  show position ((List.replicate n 72#8).foldl putc (initVideo emptyScreen)) = n
  omega

/-- A word that is typed over the end of the last row: the screen scrolls by a row,
and the backspaces go back over the end of the row. -/
theorem backspace_undoes_word : ∃ s : Screen, position s = 1990 ∧
    Undone s 20 1 ((List.replicate 20 8#8).foldl putc ((List.replicate 20 72#8).foldl putc s)) := by
  obtain ⟨calls, s, reached, screen, place⟩ := letters_reach 1990 (by decide)
  have ordinary : ∀ c ∈ List.replicate 20 72#8, Ordinary c := by decide
  obtain ⟨rows, scrolled, undone⟩ := backspace_undoes emptyScreen s calls reached (List.replicate 20 72#8) ordinary
  have after := (typed_run s screen (List.replicate 20 72#8) ordinary).place
  rw [place, List.length_replicate] at scrolled undone after
  have one : rows = 1 := by
    unfold scrolledRows at after
    omega
  subst one
  exact ⟨s, place, undone (by decide)⟩

/-! Tabs. -/

def tab : Byte := 9#8

/-- A tab goes to the cell behind the next multiple of 8. -/
theorem putc_tab (s : Screen) (screen : OnScreen s) :
    position (putc s tab) + 80 * scrolledRows (position s / 8 * 8 + 8) = position s / 8 * 8 + 8 + 1 ∧
      ∀ i < 2000, (putc s tab).cell i = s.movedUp (scrolledRows (position s / 8 * 8 + 8)) i := by
  have columns : COLUMNS = 80 := rfl
  obtain ⟨bound, index⟩ := on_screen_position s screen
  have here : (BitVec.ofInt 16 (position s : Int) + 1#16).toNat = position s + 1 := by
    have value : (BitVec.ofInt 16 (position s : Int)).toNat = position s := by
      rw [BitVec.toNat_ofInt]
      omega
    have one : (1#16).toNat = 1 := rfl
    rw [BitVec.toNat_add, value, one]
    omega
  have stop := next_tab_result 8 (BitVec.ofInt 16 (position s : Int) + 1#16) (by omega) (by omega)
  rw [putc, if_neg (by decide), if_neg (by decide), if_neg (by decide), if_pos (show tab = 9#8 from rfl)]
  have shape : s.cy * COLUMNS + s.cx = (position s : Int) := index
  rw [shape]
  generalize nextTab 8 (BitVec.ofInt 16 (position s : Int) + 1#16) = pos at stop ⊢
  dsimp only
  generalize moves : ({ s with
    cy := ((pos.toNat / COLUMNS : Nat) : Int), cx := ((pos.toNat % COLUMNS : Nat) : Int) } : Screen) = middle
  have cx : middle.cx = ((pos.toNat % 80 : Nat) : Int) := by rw [← moves, columns]
  have cy : middle.cy = ((pos.toNat / 80 : Nat) : Int) := by rw [← moves, columns]
  have cells : ∀ i, middle.cell i = s.cell i := by
    intro i
    rw [← moves]
    rfl
  have next : position middle = position s / 8 * 8 + 8 + 1 := by
    rw [position, cx, cy, columns]
    omega
  obtain ⟨place, settled⟩ := settle_cells middle (by omega) (by omega)
  -- the cell behind a stop is in the row of the stop
  have rows : scrolledRows (position middle) = scrolledRows (position s / 8 * 8 + 8) := by
    unfold scrolledRows
    omega
  rw [rows, next] at place
  refine ⟨place, fun i less => ?_⟩
  rw [settled i less, rows, Screen.movedUp, Screen.movedUp, cells]

/-- The tab goes to the next multiple of 8 and changes no cell, apart from the
rows that scroll. -/
def TabStops (s : Screen) : Prop :=
  ∃ stop rows, IsLeast {p | position s < p ∧ 8 ∣ p} stop ∧ position (putc s tab) + 80 * rows = stop ∧
    (putc s tab).cx % 8 = 0 ∧ ∀ i < 2000, (putc s tab).cell i = s.movedUp rows i

def TabsStop (s : Screen) : List Byte → Prop
  | [] => True
  | character :: text => (character = tab → TabStops s) ∧ TabsStop (putc s character) text

theorem tab_misses_stop (s : Screen) (screen : OnScreen s) : ¬ TabStops s := by
  rintro ⟨stop, rows, ⟨⟨_, whole⟩, _⟩, place, _⟩
  have behind := (putc_tab s screen).1
  omega

theorem tabs_stop_on_screen (s : Screen) (screen : OnScreen s) (text : List Byte) :
    TabsStop s text ↔ tab ∉ text := by
  induction text generalizing s with
  | nil => simp [TabsStop]
  | cons character text ih =>
      rw [TabsStop, ih _ (putc_result s screen character).1, List.mem_cons, not_or]
      refine and_congr_left fun _ => ⟨fun stops here => ?_, fun other here => absurd here.symm other⟩
      exact tab_misses_stop s screen (stops here.symm)

/-- Tabs go to tab stops in a text exactly if it has no tab. -/
theorem tabs_stop_iff (start : Screen) (text : List Byte) :
    TabsStop (initVideo start) text ↔ tab ∉ text :=
  tabs_stop_on_screen _ (init_video_result start).1 text

theorem first_tab_misses : ¬ ∀ start text, TabsStop (initVideo start) text := by
  intro all
  exact tab_misses_stop _ (init_video_result emptyScreen).1 ((all emptyScreen [tab]).1 rfl)

end GargOS
