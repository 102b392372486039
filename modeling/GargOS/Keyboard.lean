import GargOS.Lib.ByteMemory
import GargOS.Lib.Bitsets

/-!
kb.c: the handler of the keyboard interrupt. It turns one scancode byte into a
change of `keyStatus` and into calls that type or move the cursor, which the
model lists in their order.
-/

namespace GargOS
open ByteMemory

def code (c : Char) : Byte := BitVec.ofNat 8 c.toNat

/-- What a key press asks of the other drivers. -/
inductive KeyEffect
  | putc (ch : Byte)
  | moveCursorUp
  | moveCursorDown
  | moveCursorLeft
  | moveCursorRight
  | sendByte (port : BitVec 8) (data : Byte)
  deriving DecidableEq

structure Keyboard where
  keyStatus : Word
  shiftLookup : Byte → Byte

/-- The table `kbdus`; the entries behind its last one are 0. -/
def kbdusTable : List Byte :=
  [0#8, 27#8, code '1', code '2', code '3', code '4', code '5', code '6', code '7', code '8',
    code '9', code '0', code '-', code '=', 8#8, 9#8,
    code 'q', code 'w', code 'e', code 'r', code 't', code 'y', code 'u', code 'i', code 'o',
    code 'p', code '[', code ']', 10#8, code '$',
    code 'a', code 's', code 'd', code 'f', code 'g', code 'h', code 'j', code 'k', code 'l',
    code ';', 39#8, 96#8, code 'L',
    92#8, code 'z', code 'x', code 'c', code 'v', code 'b', code 'n', code 'm', code ',', code '.',
    code '/', code 'R', code '*', code 'A', code ' ', code 'C',
    code 'D', code 'E', code 'F', code 'G', code 'H', code 'I', code 'J', code 'K', code '?',
    code 'M', code 'N', code 'S', code 'T', code 'U', code '!', code '-', code 'Z', 0#8, code 'V',
    code '+', 34#8, code 'X', code '@', code '#', code '%', 0#8, 0#8, 0#8, code '^', code '&', 0#8]

def kbdus (scancode : Byte) : Byte := kbdusTable.getD scancode.toNat 0#8

/-- The cases of the switch for break codes with their masks. -/
def releaseMasks : List (Byte × Word) :=
  [(code '$', 0xfffffffe#32), (code 'L', 0xfffffffd#32), (code 'R', 0xfffffffb#32),
    (code 'A', 0xfffffff7#32), (code 'D', 0xffffffef#32), (code 'E', 0xffffffdf#32),
    (code 'F', 0xffffffbf#32), (code 'G', 0xffffff7f#32), (code 'H', 0xfffffeff#32),
    (code 'I', 0xfffffdff#32), (code 'J', 0xfffffbff#32), (code 'K', 0xfffff7ff#32),
    (code '?', 0xffffefff#32), (code 'M', 0xffffdfff#32), (code 'N', 0xffffbfff#32),
    (code 'S', 0xffff7fff#32), (code 'T', 0xfffeffff#32), (code 'U', 0xfffdffff#32),
    (code '!', 0xfffbffff#32), (code 'Z', 0xfff7ffff#32), (code 'V', 0xffefffff#32),
    (34#8, 0xffdfffff#32), (code 'X', 0xffbfffff#32), (code '@', 0xff7fffff#32),
    (code '#', 0xfeffffff#32), (code '%', 0xfdffffff#32), (code '^', 0xfbffffff#32),
    (code '&', 0xf7ffffff#32)]

/-- The cases of the switch for make codes before that of Caps Lock. -/
def pressMasks : List (Byte × Word × List KeyEffect) :=
  [(code '$', 0x00000001#32, []), (code 'L', 0x00000002#32, []), (code 'R', 0x00000004#32, []),
    (code 'A', 0x00000008#32, []), (code 'D', 0x00000010#32, []), (code 'E', 0x00000020#32, []),
    (code 'F', 0x00000040#32, []), (code 'G', 0x00000080#32, []), (code 'H', 0x00000100#32, []),
    (code 'I', 0x00000200#32, []), (code 'J', 0x00000400#32, []), (code 'K', 0x00000800#32, []),
    (code '?', 0x00001000#32, []), (code 'M', 0x00002000#32, []), (code 'N', 0x00004000#32, []),
    (code 'S', 0x00008000#32, []), (code 'T', 0x00010000#32, []),
    (code 'U', 0x00020000#32, [KeyEffect.moveCursorUp]), (code '!', 0x00040000#32, []),
    (code 'Z', 0x00080000#32, [KeyEffect.moveCursorLeft]),
    (code 'V', 0x00100000#32, [KeyEffect.moveCursorRight]), (34#8, 0x00200000#32, []),
    (code 'X', 0x00400000#32, [KeyEffect.moveCursorDown]), (code '@', 0x00800000#32, []),
    (code '#', 0x01000000#32, []), (code '%', 0x02000000#32, [KeyEffect.putc 127#8]),
    (code '^', 0x04000000#32, []), (code '&', 0x08000000#32, [])]

def isLeftShiftPressed (keyStatus : Word) : Bool := 0x2#32 &&& keyStatus != 0#32

def isRightShiftPressed (keyStatus : Word) : Bool := 0x00000004#32 &&& keyStatus != 0#32

def isCapsOn (keyStatus : Word) : Bool := 0x10000000#32 &&& keyStatus != 0#32

def switchCapsLightOff : List KeyEffect :=
  [KeyEffect.sendByte 0x60#8 0xED#8, KeyEffect.sendByte 0x60#8 0x00#8]

def switchCapsLightOn : List KeyEffect :=
  [KeyEffect.sendByte 0x60#8 0xED#8, KeyEffect.sendByte 0x60#8 0x04#8]

/-- The default case: a key that types a character. -/
def typeCharacter (kb : Keyboard) (ch : Byte) : List KeyEffect :=
  let left := isLeftShiftPressed kb.keyStatus
  let right := isRightShiftPressed kb.keyStatus
  let caps := isCapsOn kb.keyStatus
  if (ch ≥ 97#8 ∧ ch ≤ 122#8) ∧ (((right || (left && !caps)) || (caps && !right && !left)) = true) then
    [KeyEffect.putc (ch - 32#8)]
  else if (ch ≥ 97#8 ∧ ch ≤ 122#8) ∧ ((caps && (right || left)) = true) then [KeyEffect.putc ch]
  else if (left || right) = true then [KeyEffect.putc (kb.shiftLookup ch)]
  else [KeyEffect.putc ch]

def keyboardHandler (kb : Keyboard) (scancode : Byte) : Keyboard × List KeyEffect :=
  if scancode &&& 0x80#8 ≠ 0#8 then
    let mask := (releaseMasks.lookup (kbdus (scancode &&& 0x7F#8))).getD 0xffffffff#32
    ({ kb with keyStatus := kb.keyStatus &&& mask }, [])
  else
    let ch := kbdus scancode
    match pressMasks.lookup ch with
    | some (mask, effects) => ({ kb with keyStatus := kb.keyStatus ||| mask }, effects)
    | none =>
        if ch = code 'C' then
          -- this mask clears the bit of Insert besides that of Caps Lock
          if isCapsOn kb.keyStatus then
            ({ kb with keyStatus := kb.keyStatus &&& 0x0effffff#32 }, switchCapsLightOff)
          else ({ kb with keyStatus := kb.keyStatus ||| 0x10000000#32 }, switchCapsLightOn)
        else (kb, typeCharacter kb ch)

/-! The keys behind the bits. -/

/-- The make codes of the keys that have the bits 0 to 27 of `keyStatus`. -/
def makeCodes : List Byte :=
  [0x1D#8, 0x2A#8, 0x36#8, 0x38#8, 0x3B#8, 0x3C#8, 0x3D#8, 0x3E#8, 0x3F#8, 0x40#8, 0x41#8, 0x42#8,
    0x43#8, 0x44#8, 0x45#8, 0x46#8, 0x47#8, 0x48#8, 0x49#8, 0x4B#8, 0x4D#8, 0x4F#8, 0x50#8, 0x51#8,
    0x52#8, 0x53#8, 0x57#8, 0x58#8]

def makeCode (bit : Nat) : Byte := makeCodes.getD bit 0#8

def capsMake : Byte := 0x3A#8

def insertBit : Nat := 24

def lastByte (make : Byte) (bytes : List Byte) : Option Byte :=
  (bytes.filter fun b => b &&& 0x7F#8 = make).getLast?

def Held (make : Byte) (bytes : List Byte) : Prop := lastByte make bytes = some make

instance (make : Byte) (bytes : List Byte) : Decidable (Held make bytes) :=
  inferInstanceAs (Decidable (_ = _))

def capsMakes (bytes : List Byte) : Nat := bytes.count capsMake

def handleAll (kb : Keyboard) (bytes : List Byte) : Keyboard :=
  bytes.foldl (fun kb scancode => (keyboardHandler kb scancode).1) kb

/-- What the handler keeps of `keyStatus` and what it sets. -/
def keyMasks (scancode : Byte) (caps : Bool) : Word × Word :=
  if scancode &&& 0x80#8 ≠ 0#8 then
    ((releaseMasks.lookup (kbdus (scancode &&& 0x7F#8))).getD 0xffffffff#32, 0#32)
  else
    match pressMasks.lookup (kbdus scancode) with
    | some (mask, _) => (0xffffffff#32, mask)
    | none =>
        if kbdus scancode = code 'C' then
          if caps then (0x0effffff#32, 0#32) else (0xffffffff#32, 0x10000000#32)
        else (0xffffffff#32, 0#32)

theorem handler_masks (kb : Keyboard) (scancode : Byte) :
    (keyboardHandler kb scancode).1.keyStatus =
      (kb.keyStatus &&& (keyMasks scancode (isCapsOn kb.keyStatus)).1) |||
        (keyMasks scancode (isCapsOn kb.keyStatus)).2 := by
  have keepAll : ∀ s : Word, s &&& 0xffffffff#32 = s := fun s => BitVec.and_allOnes
  unfold keyboardHandler keyMasks
  split
  · simp
  · dsimp only
    split
    next mask effects found => rw [keepAll]
    next missing =>
      by_cases key : kbdus scancode = code 'C'
      · by_cases caps : isCapsOn kb.keyStatus = true
        · simp [key, caps]
        · simp [key, caps, keepAll]
      · simp [key, keepAll]

/-- The bit of `keyStatus` for the key with a make code, if it has one. -/
def bitOf (make : Byte) : Word :=
  if make ∈ makeCodes then BitVec.twoPow 32 (makeCodes.idxOf make) else 0#32

theorem make_codes_nodup : makeCodes.Nodup := by
  decide +kernel

theorem bit_of_get (make : Byte) (bit : Nat) (tracked : bit < 28) :
    (bitOf make).getLsbD bit = decide (make = makeCode bit) := by
  have inside : bit < makeCodes.length := tracked
  have length : makeCodes.length = 28 := rfl
  have entry : makeCode bit = makeCodes[bit] := by
    rw [makeCode, List.getD_eq_getElem?_getD, List.getElem?_eq_getElem inside, Option.getD_some]
  unfold bitOf
  split
  next member =>
    rw [BitVec.getLsbD_twoPow, entry]
    have same : makeCodes.idxOf make = bit ↔ make = makeCodes[bit] := by
      constructor
      · rintro rfl
        exact (List.getElem_idxOf inside).symm
      · rintro rfl
        exact make_codes_nodup.idxOf_getElem bit inside
    have below : makeCodes.idxOf make < 28 := List.idxOf_lt_length_of_mem member
    rw [decide_eq_true (by omega : makeCodes.idxOf make < 32), Bool.true_and]
    exact decide_eq_decide.mpr same
  next missing =>
    have different : make ≠ makeCode bit := by
      rintro rfl
      exact missing (entry ▸ List.getElem_mem inside)
    rw [decide_eq_false different]
    exact BitVec.getLsbD_zero

/-- The two tables of masks agree with the make codes, except for the mask that
turns Caps Lock off: it clears the bit of the Insert key as well. -/
theorem key_masks_words : ∀ (scancode : Byte) (caps : Bool), keyMasks scancode caps =
    (if scancode &&& 0x80#8 ≠ 0#8 then ~~~ bitOf (scancode &&& 0x7F#8)
      else if scancode = capsMake ∧ caps = true then 0x0effffff#32 else 0xffffffff#32,
    if scancode &&& 0x80#8 ≠ 0#8 then 0#32
      else if scancode = capsMake ∧ caps = false then 0x10000000#32 else bitOf scancode) := by
  decide +kernel

theorem caps_off_keeps : ∀ bit < 28, (0x0effffff#32).getLsbD bit = decide (bit ≠ insertBit) := by
  decide

theorem masked_bit (keyStatus : Word) (bit : Nat) (bound : bit < 32) :
    (BitVec.twoPow 32 bit &&& keyStatus != 0#32) = keyStatus.getLsbD bit := by
  have zero := Bitsets.and_two_pow_zero_iff keyStatus bit bound
  rw [BitVec.and_comm, Bool.eq_iff_iff, bne_iff_ne, ne_eq, zero, Bool.not_eq_false]

theorem is_caps_on_bit (keyStatus : Word) : isCapsOn keyStatus = keyStatus.getLsbD 28 :=
  masked_bit keyStatus 28 (by decide)

theorem key_code : ∀ scancode : Byte, (scancode &&& 0x7F#8).toNat = scancode.toNat % 128 ∧
    (scancode ||| 0x80#8).toNat = scancode.toNat % 128 + 128 := by
  decide +kernel

theorem make_code_low : ∀ bit < 28, (makeCode bit).toNat < 128 ∧ makeCode bit ≠ capsMake ∧
    makeCode bit &&& 0x80#8 = 0#8 ∧ (makeCode bit ||| 0x80#8) &&& 0x80#8 ≠ 0#8 ∧
      capsMake &&& 0x7F#8 ≠ makeCode bit := by
  decide

theorem key_bytes (scancode : Byte) (bit : Nat) (tracked : bit < 28) :
    scancode &&& 0x7F#8 = makeCode bit ↔
      scancode = makeCode bit ∨ scancode = makeCode bit ||| 0x80#8 := by
  have low := (make_code_low bit tracked).1
  have keep := (key_code scancode).1
  have add := (key_code (makeCode bit)).2
  constructor
  · intro same
    rw [same] at keep
    by_cases high : scancode.toNat < 128
    · exact Or.inl (BitVec.eq_of_toNat_eq (by omega))
    · exact Or.inr (BitVec.eq_of_toNat_eq (by omega))
  · intro either
    apply BitVec.eq_of_toNat_eq
    rcases either with same | same
    · rw [keep, same]
      omega
    · rw [keep, same, add]
      omega

section Step
variable (kb : Keyboard) (scancode : Byte) (bit : Nat) (tracked : bit < 28)
include tracked

theorem handler_bit : (keyboardHandler kb scancode).1.keyStatus.getLsbD bit =
    (decide (scancode = makeCode bit) || (kb.keyStatus.getLsbD bit &&
      !decide (scancode = makeCode bit ||| 0x80#8) &&
      !(kb.keyStatus.getLsbD 28 && decide (scancode = capsMake) && decide (bit = insertBit)))) := by
  obtain ⟨_, notCaps, makeLow, breakHigh, _⟩ := make_code_low bit tracked
  have bound : bit < 32 := by omega
  have capsLow : capsMake &&& 0x80#8 = 0#8 := rfl
  have all : (0xffffffff#32).getLsbD bit = true := by
    rw [show (0xffffffff#32 : Word) = BitVec.allOnes 32 from rfl, BitVec.getLsbD_allOnes]
    exact decide_eq_true bound
  rw [handler_masks, BitVec.getLsbD_or, BitVec.getLsbD_and, key_masks_words, is_caps_on_bit]
  by_cases high : scancode &&& 0x80#8 ≠ 0#8
  · have notMake : scancode ≠ makeCode bit := by
      rintro rfl
      exact high makeLow
    have caps : scancode ≠ capsMake := by
      rintro rfl
      exact high capsLow
    have same : (scancode &&& 0x7F#8 = makeCode bit) ↔ scancode = makeCode bit ||| 0x80#8 := by
      rw [key_bytes scancode bit tracked]
      exact or_iff_right notMake
    simp only [high, not_false_eq_true, ne_eq, if_true, BitVec.getLsbD_not, bit_of_get _ _ tracked,
      BitVec.getLsbD_zero, Bool.or_false, notMake, caps, decide_false, Bool.false_or, Bool.and_false,
      Bool.false_and, Bool.not_false, Bool.and_true, same, bound, decide_true, Bool.true_and]
  · have notBreak : scancode ≠ makeCode bit ||| 0x80#8 := by
      rintro rfl
      exact high breakHigh
    have keep := caps_off_keeps bit tracked
    rw [if_neg high, if_neg high]
    -- of the make codes only that of Caps Lock has a mask that depends on the state
    by_cases caps : scancode = capsMake
    · have notMake : scancode ≠ makeCode bit := by
        rw [caps]
        exact notCaps.symm
      have capsBit : (0x10000000#32 : Word).getLsbD bit = false := by
        rw [show (0x10000000#32 : Word) = BitVec.twoPow 32 28 from rfl, BitVec.getLsbD_twoPow]
        simp
        omega
      have empty : (bitOf capsMake).getLsbD bit = false := by
        rw [bit_of_get _ _ tracked]
        exact decide_eq_false (Ne.symm notCaps)
      cases on : kb.keyStatus.getLsbD 28
      · simp only [caps, Bool.false_eq_true, and_false, if_false, true_and, if_true, all, capsBit,
          Ne.symm notCaps, decide_false, Bool.false_or, Bool.or_false, Bool.and_true,
          Bool.false_and, Bool.not_false]
        rw [← caps]
        simp [notBreak]
      · simp only [caps, if_true, and_self, keep, Bool.true_eq_false, and_false, if_false,
          Ne.symm notCaps, decide_false, Bool.false_or, empty, Bool.or_false, decide_true,
          Bool.true_and]
        rw [← caps]
        simp [notBreak]
    · simp only [caps, false_and, if_false, all, bit_of_get _ _ tracked, decide_false, notBreak,
        Bool.and_false, Bool.false_and, Bool.not_false, Bool.and_true]
      exact Bool.or_comm _ _

omit tracked in
/-- Only the Caps Lock make changes the bit of Caps Lock, and it toggles it. -/
theorem handler_caps : (keyboardHandler kb scancode).1.keyStatus.getLsbD 28 =
    (kb.keyStatus.getLsbD 28 ^^ decide (scancode = capsMake)) := by
  have untracked : ∀ make : Byte, (bitOf make)[28] = false := by
    intro make
    rw [← BitVec.getLsbD_eq_getElem]
    unfold bitOf
    split
    next member =>
      have below : makeCodes.idxOf make < 28 := List.idxOf_lt_length_of_mem member
      rw [BitVec.getLsbD_twoPow, decide_eq_false (by omega : ¬ makeCodes.idxOf make = 28),
        Bool.and_false]
    next => exact BitVec.getLsbD_zero
  rw [handler_masks, BitVec.getLsbD_or, BitVec.getLsbD_and, key_masks_words, is_caps_on_bit]
  by_cases high : scancode &&& 0x80#8 ≠ 0#8
  · have caps : scancode ≠ capsMake := by
      rintro rfl
      exact high rfl
    simp [high, caps, untracked]
  · rw [if_neg high, if_neg high]
    by_cases caps : scancode = capsMake
    · cases on : kb.keyStatus.getLsbD 28
      · simp [caps]
      · simp [caps, untracked]
    · simp [caps, untracked]

end Step

section Bytes
variable (make b : Byte) (bytes : List Byte)

theorem last_byte_concat : lastByte make (bytes ++ [b]) =
    if b &&& 0x7F#8 = make then some b else lastByte make bytes := by
  by_cases key : b &&& 0x7F#8 = make
  · simp [lastByte, List.filter_append, key]
  · simp [lastByte, List.filter_append, key]

theorem caps_makes_concat : capsMakes (bytes ++ [b]) =
    capsMakes bytes + if b = capsMake then 1 else 0 := by
  rw [capsMakes, List.count_append, capsMakes, List.count_singleton]
  simp

end Bytes

/-- Insert was held when a Caps Lock make turned Caps off, and no byte of the
Insert key has come since. -/
def InsertLost (bytes : List Byte) : Prop :=
  ∃ earlier later, bytes = earlier ++ capsMake :: later ∧ capsMakes earlier % 2 = 1 ∧
    Held (makeCode insertBit) earlier ∧ ∀ b ∈ later, b &&& 0x7F#8 ≠ makeCode insertBit

theorem insert_lost_concat (bytes : List Byte) (b : Byte) : InsertLost (bytes ++ [b]) ↔
    (InsertLost bytes ∧ b &&& 0x7F#8 ≠ makeCode insertBit) ∨
      (b = capsMake ∧ capsMakes bytes % 2 = 1 ∧ Held (makeCode insertBit) bytes) := by
  constructor
  · rintro ⟨earlier, later, split, odd, held, none⟩
    rcases List.eq_nil_or_concat later with rfl | ⟨before, last, rfl⟩
    · -- the byte that came last is the Caps Lock make itself
      obtain ⟨rfl, same⟩ := List.append_inj' split rfl
      simp only [List.cons.injEq, and_true] at same
      exact Or.inr ⟨same, odd, held⟩
    · rw [List.concat_eq_append] at split none
      rw [← List.cons_append, ← List.append_assoc] at split
      obtain ⟨rfl, same⟩ := List.append_inj' split rfl
      simp only [List.cons.injEq, and_true] at same
      refine Or.inl ⟨⟨earlier, before, rfl, odd, held, fun c member => none c (by simp [member])⟩, ?_⟩
      rw [same]
      exact none last (by simp)
  · rintro (⟨⟨earlier, later, rfl, odd, held, none⟩, other⟩ | ⟨rfl, odd, held⟩)
    · refine ⟨earlier, later ++ [b], by simp, odd, held, ?_⟩
      intro c member
      rcases List.mem_append.mp member with before | last
      · exact none c before
      · rw [List.mem_singleton.mp last]
        exact other
    · exact ⟨bytes, [], rfl, odd, held, by simp⟩

theorem insert_lost_held (bytes : List Byte) (lost : InsertLost bytes) :
    Held (makeCode insertBit) bytes := by
  obtain ⟨earlier, later, rfl, _, held, none⟩ := lost
  have caps : capsMake &&& 0x7F#8 ≠ makeCode insertBit := by decide
  have nothing : (capsMake :: later).filter (fun b => b &&& 0x7F#8 = makeCode insertBit) = [] := by
    rw [List.filter_eq_nil_iff]
    intro b member
    rcases List.mem_cons.mp member with rfl | behind
    · simpa using caps
    · simpa using none b behind
  rw [Held, lastByte, List.filter_append, nothing, List.append_nil]
  exact held

structure Tracks (keyStatus : Word) (bytes : List Byte) : Prop where
  keys : ∀ bit < 28, keyStatus.getLsbD bit = true ↔ Held (makeCode bit) bytes
  caps : keyStatus.getLsbD 28 = true ↔ capsMakes bytes % 2 = 1

/-- What the bits are after any sequence, by induction on its last byte. -/
theorem status_bits (shiftLookup : Byte → Byte) (bytes : List Byte) :
    (∀ bit < 28, (handleAll ⟨0#32, shiftLookup⟩ bytes).keyStatus.getLsbD bit = true ↔
      Held (makeCode bit) bytes ∧ ¬ (bit = insertBit ∧ InsertLost bytes)) ∧
    ((handleAll ⟨0#32, shiftLookup⟩ bytes).keyStatus.getLsbD 28 = true ↔
      capsMakes bytes % 2 = 1) := by
  induction bytes using List.reverseRecOn with
  | nil =>
      have nothing : ¬ InsertLost [] := by
        rintro ⟨earlier, later, split, _⟩
        simp at split
      have unheld : ∀ make, ¬ Held make [] := by simp [Held, lastByte]
      simp [handleAll, nothing, unheld, capsMakes]
  | append_singleton bytes b ih =>
      obtain ⟨keys, caps⟩ := ih
      have next : handleAll ⟨0#32, shiftLookup⟩ (bytes ++ [b]) =
          (keyboardHandler (handleAll ⟨0#32, shiftLookup⟩ bytes) b).1 := by
        simp [handleAll]
      set kb := handleAll ⟨0#32, shiftLookup⟩ bytes
      rw [next]
      constructor
      · intro bit tracked
        obtain ⟨_, notCaps, makeLow, breakHigh, _⟩ := make_code_low bit tracked
        have different : makeCode bit ||| 0x80#8 ≠ makeCode bit := by
          intro same
          rw [same] at breakHigh
          exact breakHigh makeLow
        rw [handler_bit kb b bit tracked, insert_lost_concat, Held, last_byte_concat]
        -- the byte presses the key, releases it, or belongs to another one
        by_cases make : b = makeCode bit
        · have own : b &&& 0x7F#8 = makeCode bit := (key_bytes b bit tracked).mpr (Or.inl make)
          have notCapsByte : b ≠ capsMake := make ▸ notCaps
          rw [if_pos own]
          simp only [make, decide_true, Bool.true_or, true_iff]
          refine ⟨trivial, ?_⟩
          rintro ⟨rfl, ⟨_, other⟩ | ⟨here, _⟩⟩
          · exact other (make ▸ own)
          · exact notCaps here
        · by_cases broken : b = makeCode bit ||| 0x80#8
          · have own : b &&& 0x7F#8 = makeCode bit := (key_bytes b bit tracked).mpr (Or.inr broken)
            rw [if_pos own]
            simp [broken, different]
          · have other : b &&& 0x7F#8 ≠ makeCode bit := by
              rw [ne_eq, key_bytes b bit tracked]
              exact not_or.mpr ⟨make, broken⟩
            rw [if_neg other]
            simp only [make, broken, decide_false, Bool.false_or, Bool.not_false, Bool.and_true,
              Bool.and_eq_true, keys bit tracked, Bool.not_eq_true', ← Bool.not_eq_true,
              decide_eq_true_eq, caps]
            rw [← Held]
            grind
      · rw [handler_caps kb b, caps_makes_concat]
        by_cases press : b = capsMake
        · simp only [press, decide_true, Bool.xor_true, Bool.not_eq_true', ← Bool.not_eq_true, caps,
            if_true]
          omega
        · simp only [press, decide_false, Bool.xor_false, caps, if_false, Nat.add_zero]

/-- `keyStatus` tracks the keys exactly as long as no Caps Lock press has
cleared the bit of a held Insert key. -/
theorem key_status_tracks (shiftLookup : Byte → Byte) (bytes : List Byte) :
    Tracks (handleAll ⟨0#32, shiftLookup⟩ bytes).keyStatus bytes ↔ ¬ InsertLost bytes := by
  obtain ⟨keys, caps⟩ := status_bits shiftLookup bytes
  constructor
  · intro tracks lost
    have held := (tracks.keys insertBit (by decide)).mpr (insert_lost_held bytes lost)
    exact ((keys insertBit (by decide)).mp held).2 ⟨rfl, lost⟩
  · intro kept
    refine ⟨fun bit tracked => ?_, caps⟩
    rw [keys bit tracked]
    exact and_iff_left fun lost => kept lost.2

/-- Caps Lock on, Insert pressed, Caps Lock off. -/
theorem insert_key_lost :
    ¬ Tracks (handleAll ⟨0#32, fun _ => 0#8⟩ [0x3A#8, 0x52#8, 0x3A#8]).keyStatus
      [0x3A#8, 0x52#8, 0x3A#8] := by
  intro tracks
  have held := (tracks.keys insertBit (by decide)).mpr (by decide)
  exact absurd held (by decide +kernel)

end GargOS
