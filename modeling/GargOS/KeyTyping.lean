import GargOS.Keyboard
import GargOS.Lib.Emission

/-!
What the keys type: the case of the letters under Caps Lock and the two shift
keys, and the symbols of the other keys under shift.
-/

namespace GargOS
open ByteMemory Emission

/-- The assignments of `initShiftLookup`. -/
def shiftSymbols : List (Byte × Byte) :=
  [(code '/', code '?'), (code '.', code '>'), (code ',', code '<'), (96#8, code '~'),
    (code '1', code '!'), (code '2', code '@'), (code '3', code '#'), (code '4', code '$'),
    (code '5', code '%'), (code '6', code '^'), (code '7', code '&'), (code '8', code '*'),
    (code '9', code '('), (code '0', code ')'), (code '-', code '_'), (code '=', code '+'),
    (code '[', 123#8), (code ']', 125#8), (code ';', code ':'), (39#8, 34#8)]

def initShiftLookup (kb : Keyboard) : Keyboard :=
  shiftSymbols.foldl (fun kb entry =>
    { kb with shiftLookup := fun ch => if ch = entry.1 then entry.2 else kb.shiftLookup ch }) kb

/-- `keyboard_install`, with the handler entered in the table of interrupts elsewhere. -/
def keyboardInstall (kb : Keyboard) : Keyboard × List KeyEffect :=
  (initShiftLookup kb, switchCapsLightOff)

/-- The variables of kb.c before anything runs. -/
def bootKeyboard : Keyboard := ⟨0#32, fun _ => 0#8⟩

def afterByte (kb : Keyboard) (scancode : Byte) : Keyboard := (keyboardHandler kb scancode).1

def KeyEffect.typed : KeyEffect → Option Byte
  | .putc ch => some ch
  | _ => none

def typedAt (kb : Keyboard) (scancode : Byte) : List Byte :=
  (keyboardHandler kb scancode).2.filterMap KeyEffect.typed

def typedBy (kb : Keyboard) (bytes : List Byte) : List Byte := emits afterByte typedAt kb bytes

def IsLetter (scancode : Byte) : Prop :=
  scancode &&& 0x80#8 = 0#8 ∧ 97#8 ≤ kbdus scancode ∧ kbdus scancode ≤ 122#8

instance (scancode : Byte) : Decidable (IsLetter scancode) := inferInstanceAs (Decidable (_ ∧ _))

def leftShift : Byte := 0x2A#8

def rightShift : Byte := 0x36#8

def ShiftHeld (bytes : List Byte) : Prop := Held leftShift bytes ∨ Held rightShift bytes

def CapsOn (bytes : List Byte) : Prop := capsMakes bytes % 2 = 1

instance (bytes : List Byte) : Decidable (ShiftHeld bytes) := inferInstanceAs (Decidable (_ ∨ _))

instance (bytes : List Byte) : Decidable (CapsOn bytes) := inferInstanceAs (Decidable (_ = _))

/-- The make code of a key that types a character, perhaps that of a 0. -/
def Types (scancode : Byte) : Prop :=
  scancode &&& 0x80#8 = 0#8 ∧ pressMasks.lookup (kbdus scancode) = none ∧ kbdus scancode ≠ code 'C'

instance (scancode : Byte) : Decidable (Types scancode) := inferInstanceAs (Decidable (_ ∧ _ ∧ _))

/-! What the handler types, by the three modifiers it asks for. -/

theorem left_shift_bit (keyStatus : Word) : isLeftShiftPressed keyStatus = keyStatus.getLsbD 1 :=
  masked_bit keyStatus 1 (by decide)

theorem right_shift_bit (keyStatus : Word) : isRightShiftPressed keyStatus = keyStatus.getLsbD 2 :=
  masked_bit keyStatus 2 (by decide)

theorem letter_types : ∀ scancode : Byte, IsLetter scancode → Types scancode := by
  decide +kernel

section Modifiers
variable (kb : Keyboard)

theorem type_letter (ch : Byte) (letter : ch ≥ 97#8 ∧ ch ≤ 122#8) :
    typeCharacter kb ch = [KeyEffect.putc (if (kb.keyStatus.getLsbD 2 ||
      (kb.keyStatus.getLsbD 1 ^^ kb.keyStatus.getLsbD 28)) = true then ch - 32#8 else ch)] := by
  rw [typeCharacter, left_shift_bit, right_shift_bit, is_caps_on_bit]
  simp only [letter, and_self, true_and]
  cases kb.keyStatus.getLsbD 1 <;> cases kb.keyStatus.getLsbD 2 <;> cases kb.keyStatus.getLsbD 28 <;> rfl

theorem type_other (ch : Byte) (other : ¬ (ch ≥ 97#8 ∧ ch ≤ 122#8)) :
    typeCharacter kb ch = [KeyEffect.putc (if (kb.keyStatus.getLsbD 1 || kb.keyStatus.getLsbD 2) = true
      then kb.shiftLookup ch else ch)] := by
  rw [typeCharacter, left_shift_bit, right_shift_bit, if_neg (fun both => other both.1),
    if_neg (fun both => other both.1)]
  split <;> rfl

theorem handler_types (scancode : Byte) (types : Types scancode) :
    (keyboardHandler kb scancode).2 = typeCharacter kb (kbdus scancode) := by
  obtain ⟨make, default, notCaps⟩ := types
  rw [keyboardHandler, if_neg (not_not.mpr make)]
  simp only [default, notCaps, if_false]

theorem typed_at_letter (scancode : Byte) (letter : IsLetter scancode) :
    (keyboardHandler kb scancode).2 = [KeyEffect.putc (if (kb.keyStatus.getLsbD 2 ||
      (kb.keyStatus.getLsbD 1 ^^ kb.keyStatus.getLsbD 28)) = true then kbdus scancode - 32#8
      else kbdus scancode)] := by
  rw [handler_types kb scancode (letter_types scancode letter), type_letter kb _ letter.2]

theorem typed_at_symbol (scancode : Byte) (types : Types scancode) (other : ¬ IsLetter scancode) :
    (keyboardHandler kb scancode).2 = [KeyEffect.putc (if (kb.keyStatus.getLsbD 1 ||
      kb.keyStatus.getLsbD 2) = true then kb.shiftLookup (kbdus scancode) else kbdus scancode)] := by
  rw [handler_types kb scancode types, type_other kb _ fun letter => other ⟨types.1, letter⟩]

theorem handler_lookup (scancode : Byte) :
    (keyboardHandler kb scancode).1.shiftLookup = kb.shiftLookup := by
  rw [keyboardHandler]
  split
  · rfl
  · dsimp only
    split
    · rfl
    · split
      · split <;> rfl
      · rfl

theorem handle_all_lookup (bytes : List Byte) : (handleAll kb bytes).shiftLookup = kb.shiftLookup := by
  induction bytes generalizing kb with
  | nil => rfl
  | cons scancode bytes ih => exact (ih (keyboardHandler kb scancode).1).trans (handler_lookup kb scancode)

/-- The effects of a key that types nothing of its own do not depend on the
modifiers, but for the light of Caps Lock. -/
theorem typed_at_other (other : Keyboard) (scancode : Byte) (silent : ¬ Types scancode) :
    typedAt kb scancode = typedAt other scancode := by
  unfold typedAt keyboardHandler
  by_cases make : scancode &&& 0x80#8 = 0#8
  · rw [if_neg (not_not.mpr make), if_neg (not_not.mpr make)]
    dsimp only
    cases pressed : pressMasks.lookup (kbdus scancode) with
    | some entry => rfl
    | none =>
        have caps : kbdus scancode = code 'C' := not_not.mp fun notCaps => silent ⟨make, pressed, notCaps⟩
        simp only [caps, if_true]
        cases isCapsOn kb.keyStatus <;> cases isCapsOn other.keyStatus <;> rfl
  · rw [if_pos make, if_pos make]

end Modifiers

/-! Letters. -/

/-- The left and the right shift key change places. -/
def swapShift (scancode : Byte) : Byte :=
  if scancode = leftShift then rightShift
  else if scancode = rightShift then leftShift
  else if scancode = leftShift ||| 0x80#8 then rightShift ||| 0x80#8
  else if scancode = rightShift ||| 0x80#8 then leftShift ||| 0x80#8
  else scancode

def CaseFollows (shiftLookup : Byte → Byte) (bytes : List Byte) : Prop :=
  ∀ before make after, bytes = before ++ make :: after → IsLetter make →
    (keyboardHandler (handleAll ⟨0#32, shiftLookup⟩ before) make).2 =
      [KeyEffect.putc (if CapsOn before ∧ ¬ ShiftHeld before ∨ ¬ CapsOn before ∧ ShiftHeld before
        then kbdus make - 32#8 else kbdus make)]

/-- Which of the shift keys is used makes no difference. -/
def SwapSame (shiftLookup : Byte → Byte) (bytes : List Byte) : Prop :=
  typedBy ⟨0#32, shiftLookup⟩ (bytes.map swapShift) = typedBy ⟨0#32, shiftLookup⟩ bytes

/-- The two runs in step: the bits of the shift keys are exchanged. -/
structure ShiftsSwapped (kb swapped : Keyboard) : Prop where
  lookup : swapped.shiftLookup = kb.shiftLookup
  left : swapped.keyStatus.getLsbD 1 = kb.keyStatus.getLsbD 2
  right : swapped.keyStatus.getLsbD 2 = kb.keyStatus.getLsbD 1
  caps : swapped.keyStatus.getLsbD 28 = kb.keyStatus.getLsbD 28

theorem swap_shift_codes : ∀ scancode : Byte,
    (swapShift scancode = makeCode 1 ↔ scancode = makeCode 2) ∧
    (swapShift scancode = makeCode 2 ↔ scancode = makeCode 1) ∧
    (swapShift scancode = makeCode 1 ||| 0x80#8 ↔ scancode = makeCode 2 ||| 0x80#8) ∧
    (swapShift scancode = makeCode 2 ||| 0x80#8 ↔ scancode = makeCode 1 ||| 0x80#8) ∧
    (swapShift scancode = capsMake ↔ scancode = capsMake) := by
  decide +kernel

theorem after_byte_swapped (kb swapped : Keyboard) (scancode : Byte) (related : ShiftsSwapped kb swapped) :
    ShiftsSwapped (afterByte kb scancode) (afterByte swapped (swapShift scancode)) := by
  obtain ⟨left, right, leftBreak, rightBreak, caps⟩ := swap_shift_codes scancode
  refine ⟨?_, ?_, ?_, ?_⟩
  · rw [afterByte, afterByte, handler_lookup, handler_lookup, related.lookup]
  · rw [afterByte, afterByte, handler_bit _ _ 1 (by decide), handler_bit _ _ 2 (by decide), related.left]
    simp [left, leftBreak, insertBit]
  · rw [afterByte, afterByte, handler_bit _ _ 2 (by decide), handler_bit _ _ 1 (by decide), related.right]
    simp [right, rightBreak, insertBit]
  · rw [afterByte, afterByte, handler_caps, handler_caps, related.caps]
    simp [caps]

theorem swap_shift_bytes : ∀ scancode : Byte, swapShift scancode = scancode ∨
    (¬ Types scancode ∧ typedAt bootKeyboard scancode = []) ∧
      ¬ Types (swapShift scancode) ∧ typedAt bootKeyboard (swapShift scancode) = [] := by
  decide +kernel

/-- A byte that types the same in both runs: any but that of a letter typed
under Caps Lock with one of the shift keys held. -/
def SwapAgrees (kb : Keyboard) (scancode : Byte) : Prop :=
  IsLetter scancode → kb.keyStatus.getLsbD 28 = true →
    kb.keyStatus.getLsbD 1 = kb.keyStatus.getLsbD 2

theorem upper_differs (ch : Byte) : ch - 32#8 ≠ ch := by
  intro same
  have nats := congrArg BitVec.toNat same
  rw [BitVec.toNat_sub] at nats
  have bound := ch.isLt
  have value : (32#8 : Byte).toNat = 32 := rfl
  omega

theorem typed_at_swapped (kb swapped : Keyboard) (scancode : Byte) (related : ShiftsSwapped kb swapped) :
    (typedAt swapped (swapShift scancode)).length = (typedAt kb scancode).length ∧
      (typedAt swapped (swapShift scancode) = typedAt kb scancode ↔ SwapAgrees kb scancode) := by
  by_cases types : Types scancode
  · have same : swapShift scancode = scancode :=
      (swap_shift_bytes scancode).resolve_right fun shift => shift.1.1 types
    rw [same]
    by_cases letter : IsLetter scancode
    · rw [typedAt, typedAt, typed_at_letter _ _ letter, typed_at_letter _ _ letter, related.left,
        related.right, related.caps]
      refine ⟨rfl, ?_⟩
      have differs := upper_differs (kbdus scancode)
      have differs' := differs.symm
      unfold SwapAgrees
      cases kb.keyStatus.getLsbD 1 <;> cases kb.keyStatus.getLsbD 2 <;>
        cases kb.keyStatus.getLsbD 28 <;> simp [KeyEffect.typed, letter, differs, differs']
    · rw [typedAt, typedAt, typed_at_symbol _ _ types letter, typed_at_symbol _ _ types letter,
        related.left, related.right, related.lookup, Bool.or_comm]
      exact ⟨rfl, iff_of_true rfl fun here => absurd here letter⟩
  · have equal : typedAt swapped (swapShift scancode) = typedAt kb scancode := by
      rcases swap_shift_bytes scancode with same | ⟨⟨_, nothing⟩, silent, nothing'⟩
      · rw [same]
        exact typed_at_other swapped kb scancode types
      · rw [typed_at_other swapped bootKeyboard _ silent, nothing',
          typed_at_other kb bootKeyboard _ types, nothing]
    exact ⟨congrArg List.length equal, iff_of_true equal fun letter =>
      absurd (letter_types scancode letter) types⟩

theorem modifier_bits (shiftLookup : Byte → Byte) (bytes : List Byte) :
    ((handleAll ⟨0#32, shiftLookup⟩ bytes).keyStatus.getLsbD 1 = true ↔ Held leftShift bytes) ∧
    ((handleAll ⟨0#32, shiftLookup⟩ bytes).keyStatus.getLsbD 2 = true ↔ Held rightShift bytes) ∧
    ((handleAll ⟨0#32, shiftLookup⟩ bytes).keyStatus.getLsbD 28 = true ↔ CapsOn bytes) := by
  obtain ⟨keys, caps⟩ := status_bits shiftLookup bytes
  refine ⟨(keys 1 (by decide)).trans (and_iff_left ?_), (keys 2 (by decide)).trans (and_iff_left ?_), caps⟩
  · exact fun lost => absurd lost.1 (by decide)
  · exact fun lost => absurd lost.1 (by decide)

theorem swap_same_iff (shiftLookup : Byte → Byte) (bytes : List Byte) : SwapSame shiftLookup bytes ↔
    ∀ before make after, bytes = before ++ make :: after → IsLetter make → CapsOn before →
      (Held leftShift before ↔ Held rightShift before) := by
  have start : ShiftsSwapped ⟨0#32, shiftLookup⟩ ⟨0#32, shiftLookup⟩ := ⟨rfl, by simp, by simp, rfl⟩
  have runs := emits_eq_iff afterByte typedAt afterByte typedAt swapShift ShiftsSwapped SwapAgrees
    after_byte_swapped (fun kb swapped scancode related => (typed_at_swapped kb swapped scancode related).1)
    (fun kb swapped scancode related => (typed_at_swapped kb swapped scancode related).2) _ _ start bytes
  rw [SwapSame, typedBy, typedBy, runs, along_iff]
  refine forall_congr' fun before => forall_congr' fun make => forall_congr' fun after =>
    imp_congr_right fun _ => imp_congr_right fun _ => ?_
  obtain ⟨left, right, caps⟩ := modifier_bits shiftLookup before
  have state : before.foldl afterByte ⟨0#32, shiftLookup⟩ = handleAll ⟨0#32, shiftLookup⟩ before := rfl
  rw [state, caps, Bool.eq_iff_iff, left, right]

theorem case_follows_iff (shiftLookup : Byte → Byte) (bytes : List Byte) : CaseFollows shiftLookup bytes ↔
    ∀ before make after, bytes = before ++ make :: after → IsLetter make →
      ¬ (CapsOn before ∧ Held rightShift before) := by
  refine forall_congr' fun before => forall_congr' fun make => forall_congr' fun after =>
    imp_congr_right fun _ => forall_congr' fun letter => ?_
  obtain ⟨left, right, caps⟩ := modifier_bits shiftLookup before
  simp only [typed_at_letter _ make letter, ShiftHeld, ← caps, ← left, ← right]
  cases (handleAll ⟨0#32, shiftLookup⟩ before).keyStatus.getLsbD 1 <;>
    cases (handleAll ⟨0#32, shiftLookup⟩ before).keyStatus.getLsbD 2 <;>
    cases (handleAll ⟨0#32, shiftLookup⟩ before).keyStatus.getLsbD 28 <;> simp

/-- The case of the letters is right, and the same for both shift keys, exactly
if no letter is typed under Caps Lock with a shift key held. -/
theorem letter_case_iff (shiftLookup : Byte → Byte) (bytes : List Byte) :
    CaseFollows shiftLookup bytes ∧ SwapSame shiftLookup bytes ↔
      ∀ before make after, bytes = before ++ make :: after → IsLetter make →
        ¬ (CapsOn before ∧ ShiftHeld before) := by
  rw [case_follows_iff, swap_same_iff]
  constructor
  · rintro ⟨noRight, same⟩ before make after split letter ⟨caps, left | right⟩
    · exact noRight before make after split letter
        ⟨caps, (same before make after split letter caps).mp left⟩
    · exact noRight before make after split letter ⟨caps, right⟩
  · intro none
    refine ⟨fun before make after split letter both => ?_, fun before make after split letter caps => ?_⟩
    · exact none before make after split letter ⟨both.1, Or.inr both.2⟩
    · have unheld := fun held => none before make after split letter ⟨caps, held⟩
      exact iff_of_false (fun left => unheld (Or.inl left)) fun right => unheld (Or.inr right)

/-- Caps Lock on, the right shift held, and an A. -/
theorem capital_under_caps : ¬ ∀ shiftLookup bytes,
    CaseFollows shiftLookup bytes ∧ SwapSame shiftLookup bytes := by
  intro all
  have typed := (all (fun _ => 0#8) [capsMake, rightShift, 0x1E#8]).1 [capsMake, rightShift] 0x1E#8 [] rfl
    (by decide)
  exact absurd typed (by decide +kernel)

/-! Symbols. -/

/-- What a byte types after those before it: no NUL, nothing for a key without
an entry in `kbdus`, and under shift the symbol of a key that is no letter, if it
has one. -/
structure SymbolTyped (before : List Byte) (scancode : Byte) (effects : List KeyEffect) : Prop where
  nonzero : ∀ ch, KeyEffect.putc ch ∈ effects → ch ≠ 0#8
  silent : scancode &&& 0x80#8 = 0#8 → kbdus scancode = 0#8 → effects = []
  symbol : Types scancode → kbdus scancode ≠ 0#8 → ¬ IsLetter scancode → ShiftHeld before →
    effects = [KeyEffect.putc ((shiftSymbols.lookup (kbdus scancode)).getD (kbdus scancode))]

theorem installed_lookup : ∀ ch : Byte,
    (keyboardInstall bootKeyboard).1.shiftLookup ch = (shiftSymbols.lookup ch).getD 0#8 := by
  decide +kernel

theorem installed_keyboard : (keyboardInstall bootKeyboard).1 =
    ⟨0#32, (keyboardInstall bootKeyboard).1.shiftLookup⟩ := rfl

def NoSymbol (scancode : Byte) : Prop :=
  Types scancode ∧ ¬ IsLetter scancode ∧ shiftSymbols.lookup (kbdus scancode) = none

instance (scancode : Byte) : Decidable (NoSymbol scancode) := inferInstanceAs (Decidable (_ ∧ _ ∧ _))

theorem symbols_nonzero : ∀ ch : Byte, shiftSymbols.lookup ch ≠ some 0#8 := by
  decide +kernel

/-- The Delete key types its own character, and the other keys that do not
reach the default case type none. -/
theorem other_keys_nonzero : ∀ scancode : Byte, ¬ Types scancode →
    0#8 ∉ typedAt bootKeyboard scancode := by
  decide +kernel

theorem no_entry_types : ∀ scancode : Byte, scancode &&& 0x80#8 = 0#8 → kbdus scancode = 0#8 →
    Types scancode ∧ ¬ IsLetter scancode := by
  decide +kernel

theorem letter_nonzero (ch : Byte) (letter : 97#8 ≤ ch ∧ ch ≤ 122#8) : ch ≠ 0#8 ∧ ch - 32#8 ≠ 0#8 := by
  obtain ⟨low, high⟩ := letter
  constructor
  · rintro rfl
    exact absurd low (by decide)
  · intro zero
    have same : ch = 32#8 := by bv_omega
    rw [same] at low
    exact absurd low (by decide)

section Installed
variable (before : List Byte) (scancode : Byte) (kb : Keyboard)
  (lookup : ∀ ch, kb.shiftLookup ch = (shiftSymbols.lookup ch).getD 0#8)
  (shift : (kb.keyStatus.getLsbD 1 || kb.keyStatus.getLsbD 2) = true ↔ ShiftHeld before)

theorem other_symbol_typed (other : ¬ Types scancode) :
    SymbolTyped before scancode (keyboardHandler kb scancode).2 := by
  refine ⟨fun ch member zero => ?_, fun make none => ?_, fun types => absurd types other⟩
  · have typed : ch ∈ typedAt kb scancode := List.mem_filterMap.mpr ⟨_, member, rfl⟩
    rw [typed_at_other kb bootKeyboard scancode other, zero] at typed
    exact other_keys_nonzero scancode other typed
  · exact absurd (no_entry_types scancode make none).1 other

theorem letter_symbol_typed (letter : IsLetter scancode) :
    SymbolTyped before scancode (keyboardHandler kb scancode).2 := by
  obtain ⟨plain, upper⟩ := letter_nonzero (kbdus scancode) letter.2
  rw [typed_at_letter kb scancode letter]
  refine ⟨fun ch member => ?_, fun _ none => absurd none plain, fun _ _ other => absurd letter other⟩
  obtain rfl := KeyEffect.putc.inj (List.mem_singleton.mp member)
  split
  · exact upper
  · exact plain

include lookup shift in
theorem symbol_typed_iff : SymbolTyped before scancode (keyboardHandler kb scancode).2 ↔
    (scancode &&& 0x80#8 = 0#8 → kbdus scancode ≠ 0#8 ∧ (NoSymbol scancode → ¬ ShiftHeld before)) := by
  by_cases types : Types scancode
  · by_cases letter : IsLetter scancode
    · refine iff_of_true (letter_symbol_typed before scancode kb letter) fun _ => ?_
      exact ⟨(letter_nonzero _ letter.2).1, fun none => absurd letter none.2.1⟩
    have effects := typed_at_symbol kb scancode types letter
    by_cases entry : kbdus scancode = 0#8
    · refine iff_of_false (fun typed => ?_) fun condition => (condition types.1).1 entry
      have silent := typed.silent types.1 entry
      rw [effects] at silent
      simp at silent
    rw [effects, lookup]
    by_cases held : ShiftHeld before
    · simp only [shift.mpr held, if_true]
      cases found : shiftSymbols.lookup (kbdus scancode) with
      | some symbol =>
          refine iff_of_true ⟨fun ch member => ?_, fun _ none => absurd none entry, fun _ _ _ _ => ?_⟩
            fun _ => ⟨entry, fun none => ?_⟩
          · obtain rfl := KeyEffect.putc.inj (List.mem_singleton.mp member)
            rintro rfl
            exact symbols_nonzero _ found
          · rw [found]
            rfl
          · rw [none.2.2] at found
            simp at found
      | none =>
          refine iff_of_false (fun typed => ?_) fun condition =>
            (condition types.1).2 ⟨types, letter, found⟩ held
          exact typed.nonzero 0#8 (List.mem_singleton.mpr rfl) rfl
    · simp only [mt shift.mp held]
      refine iff_of_true ⟨fun ch member => ?_, fun _ none => absurd none entry,
        fun _ _ _ here => absurd here held⟩ fun _ => ⟨entry, fun _ => held⟩
      obtain rfl := KeyEffect.putc.inj (List.mem_singleton.mp member)
      exact entry
  · refine iff_of_true (other_symbol_typed before scancode kb types) fun make => ⟨fun none => ?_, fun none => ?_⟩
    · exact types (no_entry_types scancode make none).1
    · exact absurd none.1 types

end Installed

/-- Every key types what it is to, exactly if no key without an entry is
pressed, and none without a symbol while a shift key is held. -/
theorem symbols_typed_iff (bytes : List Byte) :
    (∀ before scancode after, bytes = before ++ scancode :: after → SymbolTyped before scancode
      (keyboardHandler (handleAll (keyboardInstall bootKeyboard).1 before) scancode).2) ↔
    ∀ before make after, bytes = before ++ make :: after → make &&& 0x80#8 = 0#8 →
      kbdus make ≠ 0#8 ∧ (NoSymbol make → ¬ ShiftHeld before) := by
  refine forall_congr' fun before => forall_congr' fun scancode => forall_congr' fun after =>
    imp_congr_right fun _ => ?_
  apply symbol_typed_iff
  · intro ch
    rw [← installed_lookup ch]
    exact congrFun (handle_all_lookup _ before) ch
  · obtain ⟨left, right, _⟩ := modifier_bits (keyboardInstall bootKeyboard).1.shiftLookup before
    rw [Bool.or_eq_true, installed_keyboard, left, right]
    rfl

/-- Space with the left shift held. -/
theorem shifted_space_types_nul : ¬ ∀ bytes : List Byte,
    ∀ before scancode after, bytes = before ++ scancode :: after → SymbolTyped before scancode
      (keyboardHandler (handleAll (keyboardInstall bootKeyboard).1 before) scancode).2 := by
  intro all
  have typed := all [leftShift, 0x39#8] [leftShift] 0x39#8 [] rfl
  exact typed.nonzero 0#8 (by decide +kernel) rfl

end GargOS
