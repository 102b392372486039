import GargOS.System

/-!
screen.c: the characters in video memory, the cursor, and the registers of the
video controller that `outb` programs. `int32_t` coordinates are integers; the
addresses computed from them wrap around like the source's.
-/

namespace GargOS
open ByteMemory

structure Screen where
  mem : Memory
  cx : Int
  cy : Int
  crtIndex : Byte
  crt : Byte → Byte
  /-- The addresses written so far, latest first. No function of the source reads it. -/
  written : List Word

def VIDEO_MEMORY : Word := 0xB8000#32

def GRAY_ON_CYAN : BitVec 16 := 0x9000#16

def ROWS : Nat := 25

def COLUMNS : Nat := 80

def blank : BitVec 16 := GRAY_ON_CYAN ||| 0x20#16

def Screen.write (s : Screen) (a : Word) (b : Byte) : Screen :=
  { s with mem := ByteMemory.write s.mem a b, written := a :: s.written }

def Screen.store (s : Screen) (a : Word) (v : BitVec 16) : Screen :=
  (s.write a (v.extractLsb' 0 8)).write (a + 1#32) (v.extractLsb' 8 8)

/-- `(uint16_t*)VIDEO_MEMORY + index`. -/
def cellAddr (index : Int) : Word := VIDEO_MEMORY + BitVec.ofInt 32 (2 * index)

def outb (s : Screen) (port : BitVec 16) (byte : Byte) : Screen :=
  if port = 0x3D4#16 then { s with crtIndex := byte }
  else if port = 0x3D5#16 then { s with crt := fun i => if i = s.crtIndex then byte else s.crt i }
  else s

def moveCursor (s : Screen) (x y : Byte) : Screen :=
  let pos : BitVec 16 := y.setWidth 16 * BitVec.ofNat 16 COLUMNS + x.setWidth 16
  let s := outb s 0x3D4#16 0x0F#8
  let s := outb s 0x3D5#16 ((pos &&& 0xFF#16).setWidth 8)
  let s := outb s 0x3D4#16 0x0E#8
  outb s 0x3D5#16 (((pos >>> 8) &&& 0xFF#16).setWidth 8)

def updateCursor (s : Screen) : Screen := moveCursor s (BitVec.ofInt 8 s.cx) (BitVec.ofInt 8 s.cy)

/-- The loop that blanks the cells of a row after `n` rounds. -/
def blankRow (s : Screen) (row : Nat) : Nat → Screen
  | 0 => s
  | n + 1 => (blankRow s row n).store (cellAddr (row * COLUMNS + n)) blank

/-- The outer loop of `init_video` after `n` rounds. -/
def blankRows (s : Screen) : Nat → Screen
  | 0 => s
  | n + 1 => blankRow (blankRows s n) n COLUMNS

def initVideo (s : Screen) : Screen :=
  updateCursor { blankRows s ROWS with cx := 0, cy := 0 }

/-- The loop of `memcpy` after `n` rounds. -/
def memcpy (s : Screen) (dest src : Word) : Nat → Screen
  | 0 => s
  | n + 1 =>
      let s := memcpy s dest src n
      s.write (dest + BitVec.ofNat 32 n) (s.mem (src + BitVec.ofNat 32 n))

/-- The loop of `scroll_if_needed` over the rows after `n` rounds. -/
def copyRows (s : Screen) : Nat → Screen
  | 0 => s
  | n + 1 => memcpy (copyRows s n) (VIDEO_MEMORY + BitVec.ofNat 32 (n * COLUMNS * 2))
      (VIDEO_MEMORY + BitVec.ofNat 32 ((n + 1) * COLUMNS * 2)) (COLUMNS * 2)

/-- One round of `scroll_if_needed`. -/
def scroll (s : Screen) : Screen :=
  let s := blankRow (copyRows s (ROWS - 1)) (ROWS - 1) COLUMNS
  { s with cy := s.cy - 1 }

def scrollRounds : Nat → Screen → Screen
  | 0, s => s
  | rounds + 1, s => if s.cy ≥ ROWS then scrollRounds rounds (scroll s) else s

def scrollIfNeeded (s : Screen) : Screen := scrollRounds s.cy.toNat s

/-- The loop `while(pos++ % 8 != 0)`; eight rounds reach a multiple of 8. -/
def nextTab : Nat → BitVec 16 → BitVec 16
  | 0, pos => pos
  | rounds + 1, pos => if pos % 8#16 ≠ 0#16 then nextTab rounds (pos + 1#16) else pos + 1#16

def putc (s : Screen) (character : Byte) : Screen :=
  let index := s.cy * COLUMNS + s.cx
  let ptr := cellAddr index
  if character = 10#8 then -- '\n'
    updateCursor (scrollIfNeeded { s with cy := s.cy + 1, cx := 0 })
  else if character = 13#8 then -- '\r'
    updateCursor (scrollIfNeeded { s with cx := 0 })
  else if character = 8#8 then -- '\b'
    if s.cx ≤ 0 ∧ s.cy ≤ 0 then s
    else
      let s := s.store (cellAddr (index - 1)) blank
      let s := { s with cx := s.cx - 1 }
      let s := if s.cx < 0 then { s with cx := COLUMNS - 1, cy := s.cy - 1 } else s
      updateCursor (scrollIfNeeded s)
  else if character = 9#8 then -- '\t'
    let pos := nextTab 8 (BitVec.ofInt 16 index + 1#16)
    updateCursor (scrollIfNeeded { s with
      cy := ((pos.toNat / COLUMNS : Nat) : Int), cx := ((pos.toNat % COLUMNS : Nat) : Int) })
  else if character = 127#8 then
    updateCursor (scrollIfNeeded (s.store ptr blank))
  else
    let s := s.store ptr (GRAY_ON_CYAN ||| character.setWidth 16)
    let s := if s.cx < COLUMNS - 1 then { s with cx := s.cx + 1 } else { s with cx := 0, cy := s.cy + 1 }
    updateCursor (scrollIfNeeded s)

/-- A string ends at its first 0. -/
def puts (s : Screen) : List Byte → Screen
  | [] => s
  | character :: string => if character ≠ 0#8 then puts (putc s character) string else s

def moveCursorUp (s : Screen) : Screen :=
  updateCursor (if s.cy > 0 then { s with cy := s.cy - 1 } else s)

def moveCursorDown (s : Screen) : Screen :=
  updateCursor (if s.cy < ROWS - 1 then { s with cy := s.cy + 1 } else s)

def moveCursorRight (s : Screen) : Screen :=
  updateCursor (if s.cx < COLUMNS - 1 then { s with cx := s.cx + 1 } else s)

def moveCursorLeft (s : Screen) : Screen :=
  updateCursor (if s.cx > 0 then { s with cx := s.cx - 1 } else s)

end GargOS
