import GargOS.PagingCalls

/-!
`get_bitset`, `write_bitset` and `first_free_frame` with the accesses of the
array `frames` checked, and the set of frames that the array is.
-/

namespace GargOS
open ByteMemory Pages

/-- Why a call does not return: an index beyond the array, or the halt of
`first_free_frame`. -/
inductive Stop
  | outside
  | halted
  deriving DecidableEq

def Paging.frame (s : Paging) (index : Word) : Except Stop Word :=
  if index < INDEX_FROM_BIT nframes then .ok (s.load (element s.frames index)) else .error .outside

def Paging.setFrame (s : Paging) (index value : Word) : Except Stop Paging :=
  if index < INDEX_FROM_BIT nframes then .ok (s.store (element s.frames index) value)
  else .error .outside

def getBitset (s : Paging) (physAddr : Word) : Except Stop Word := do
  let word ← s.frame (INDEX_FROM_ADDRESS physAddr)
  return (word &&& (1#32 <<< OFFSET_FROM_ADDRESS physAddr)) >>> OFFSET_FROM_ADDRESS physAddr

def checkedWriteBitset (s : Paging) (physAddr toWrite : Word) : Except Stop Paging := do
  let a := if toWrite ≠ 0#32 then 1#32 <<< OFFSET_FROM_ADDRESS physAddr
    else ~~~(1#32 <<< OFFSET_FROM_ADDRESS physAddr)
  let word ← s.frame (INDEX_FROM_ADDRESS physAddr)
  if toWrite ≠ 0#32 then s.setFrame (INDEX_FROM_ADDRESS physAddr) (word ||| a)
  else s.setFrame (INDEX_FROM_ADDRESS physAddr) (word &&& a)

theorem bit_advances (j : Word) (inWord : j.toInt < 32) :
    (32 - (j + 1#32).toInt).toNat < (32 - j.toInt).toNat := by
  rw [BitVec.toInt_eq_toNat_cond] at inWord ⊢
  rw [BitVec.toInt_eq_toNat_cond]
  bv_omega

theorem word_advances (i bound : Word) (inArray : i < bound) :
    bound.toNat - (i + 1#32).toNat < bound.toNat - i.toNat := by
  bv_omega

/-- The inner loop of `first_free_frame` from bit `j` of word `i` on, and what
it returns. The signed loop variable is compared with a signed number. -/
def checkedFreeBit (s : Paging) (i j : Word) : Except Stop (Option Word) :=
  if j.toInt < 32 then do
    let word ← s.frame i
    if word &&& (1#32 <<< j) = 0#32 then return some ((i * 32#32 + j) * 4096#32)
    else checkedFreeBit s i (j + 1#32)
  else return none
termination_by (32 - j.toInt).toNat
decreasing_by exact bit_advances j ‹_›

/-- The outer loop of `first_free_frame` from word `i` on. Its variable is
compared with an unsigned number. -/
def checkedFreeFrom (s : Paging) (i : Word) : Except Stop Word :=
  if i < INDEX_FROM_BIT nframes then do
    let word ← s.frame i
    if word ≠ 0xFFFFFFFF#32 then
      match ← checkedFreeBit s i 0#32 with
      | some frame => return frame
      | none => checkedFreeFrom s (i + 1#32)
    else checkedFreeFrom s (i + 1#32)
  else .error .halted
termination_by (INDEX_FROM_BIT nframes).toNat - i.toNat
decreasing_by all_goals exact word_advances i _ ‹_›

def checkedFirstFreeFrame (s : Paging) : Except Stop Word := checkedFreeFrom s 0#32

/-! The accesses are in the array, and the functions are those of paging.c. -/

theorem in_bitset (index : Word) : index < INDEX_FROM_BIT nframes ↔ index.toNat < bitsetWords := by
  rw [BitVec.lt_def]
  rfl

theorem index_in_bitset (physAddr : Word) : (INDEX_FROM_ADDRESS physAddr).toNat < bitsetWords := by
  rw [index_from_address]
  unfold bitsetWords
  omega

section Accesses
variable (s : Paging) (index : Word) (inside : index.toNat < bitsetWords)
include inside

theorem frame_read : s.frame index = .ok (s.load (element s.frames index)) :=
  if_pos ((in_bitset index).mpr inside)

theorem frame_stored (value : Word) :
    s.setFrame index value = .ok (s.store (element s.frames index) value) :=
  if_pos ((in_bitset index).mpr inside)

end Accesses

theorem checked_write_bitset_eq (s : Paging) (physAddr toWrite : Word) :
    checkedWriteBitset s physAddr toWrite =
      .ok (if toWrite ≠ 0#32 then writeBitset s physAddr else clearBitset s physAddr) := by
  have inside := index_in_bitset physAddr
  unfold checkedWriteBitset
  rw [frame_read s _ inside]
  by_cases on : toWrite ≠ 0#32
  · rw [if_pos on, if_pos on]
    exact (if_pos on).trans (frame_stored s _ inside _)
  · rw [if_neg on, if_neg on]
    exact (if_neg on).trans (frame_stored s _ inside _)

theorem get_bitset_eq (s : Paging) (physAddr : Word) :
    getBitset s physAddr = .ok (if s.bit (physAddr.toNat / 4096) then 1#32 else 0#32) := by
  have inWord : physAddr.toNat / 4096 % 32 < 32 := Nat.mod_lt _ (by decide)
  have bit := bitset_word_loaded s physAddr (physAddr.toNat / 4096) rfl
  have selected := Bitsets.two_pow_selected (s.load (element s.frames (INDEX_FROM_ADDRESS physAddr)))
    _ inWord
  rw [bit, BitVec.twoPow_eq, ← offset_from_address, ← BitVec.shiftLeft_eq'] at selected
  unfold getBitset
  rw [frame_read s _ (index_in_bitset physAddr)]
  exact congrArg Except.ok selected

/-! The loops of `first_free_frame`. -/

theorem checked_free_bit_eq (s : Paging) (i word : Word) (read : s.frame i = .ok word) (rounds j : Nat)
    (ends : j + rounds = 32) :
    checkedFreeBit s i (BitVec.ofNat 32 j) =
      .ok ((firstFreeBit word rounds j).map fun j => (i * 32#32 + BitVec.ofNat 32 j) * 4096#32) := by
  induction rounds generalizing j with
  | zero =>
      have last : j = 32 := by omega
      rw [last, checkedFreeBit, if_neg (by decide)]
      rfl
  | succ rounds ih =>
      have value : (BitVec.ofNat 32 j).toNat = j := by
        rw [BitVec.toNat_ofNat]
        omega
      have inWord : (BitVec.ofNat 32 j).toInt < 32 := by
        rw [BitVec.toInt_eq_toNat_cond, value]
        omega
      have next : BitVec.ofNat 32 j + 1#32 = BitVec.ofNat 32 (j + 1) := (BitVec.ofNat_add j 1).symm
      rw [checkedFreeBit, if_pos inWord, read, firstFreeBit, next, ih (j + 1) (by omega),
        BitVec.shiftLeft_eq', value]
      by_cases clear : word &&& (1#32 <<< j) = 0#32
      · rw [if_pos clear]
        exact if_pos clear
      · rw [if_neg clear]
        exact if_neg clear

theorem checked_free_from_eq (s : Paging) (rounds i : Nat) (ends : i + rounds = bitsetWords) :
    checkedFreeFrom s (BitVec.ofNat 32 i) = (firstFreeFrom s rounds i).elim (.error .halted) .ok := by
  have small : bitsetWords < 2 ^ 32 := by decide
  induction rounds generalizing i with
  | zero =>
      have last : ¬ BitVec.ofNat 32 i < INDEX_FROM_BIT nframes := by
        rw [in_bitset, BitVec.toNat_ofNat]
        omega
      rw [checkedFreeFrom, if_neg last]
      rfl
  | succ rounds ih =>
      have value : (BitVec.ofNat 32 i).toNat = i := by
        rw [BitVec.toNat_ofNat]
        omega
      have inside : (BitVec.ofNat 32 i).toNat < bitsetWords := by omega
      have next : BitVec.ofNat 32 i + 1#32 = BitVec.ofNat 32 (i + 1) := (BitVec.ofNat_add i 1).symm
      have read := frame_read s _ inside
      have bits := checked_free_bit_eq s _ _ read 32 0 rfl
      have further := ih (i + 1) (by omega)
      rw [checkedFreeFrom, if_pos ((in_bitset _).mpr inside), firstFreeFrom, next, further, read, bits]
      by_cases full : s.load (element s.frames (BitVec.ofNat 32 i)) = 0xFFFFFFFF#32
      · rw [if_neg (not_not.mpr full)]
        exact if_neg (not_not.mpr full)
      · rw [if_pos full]
        refine (if_pos full).trans ?_
        cases firstFreeBit (s.load (element s.frames (BitVec.ofNat 32 i))) 32 0 with
        | none => rfl
        | some j =>
            have number : BitVec.ofNat 32 i * 32#32 + BitVec.ofNat 32 j = BitVec.ofNat 32 (i * 32 + j) := by
              rw [BitVec.ofNat_add, BitVec.ofNat_mul]
            show Except.ok ((BitVec.ofNat 32 i * 32#32 + BitVec.ofNat 32 j) * 4096#32) = _
            rw [number]
            rfl

theorem checked_first_free_frame_eq (s : Paging) :
    checkedFirstFreeFrame s = (firstFreeFrame s).elim (.error .halted) .ok :=
  checked_free_from_eq s bitsetWords 0 (Nat.zero_add _)

/-! The set of frames that the array is. -/

def frameNumber (physAddr : Word) : Nat := physAddr.toNat / 4096

def Paging.words (s : Paging) : Fin bitsetWords → Word :=
  fun i => s.load (element s.frames (BitVec.ofNat 32 i))

def Paging.frameSet (s : Paging) : Set Nat := Bitsets.members s.words

/-- What a write is to do to the set. -/
def setAfter (frames : Set Nat) (physAddr toWrite : Word) : Set Nat :=
  if toWrite ≠ 0#32 then insert (frameNumber physAddr) frames else frames \ {frameNumber physAddr}

theorem frame_number_lt (physAddr : Word) : frameNumber physAddr < 2 ^ 20 := by
  unfold frameNumber
  omega

theorem frame_number_page (n : Nat) (bound : n < 2 ^ 20) :
    frameNumber (BitVec.ofNat 32 (4096 * n)) = n := by
  rw [frameNumber, frame_toNat n bound, Nat.mul_div_cancel_left n (by decide)]

theorem mem_frame_set (s : Paging) (n : Nat) (bound : n < 2 ^ 20) : n ∈ s.frameSet ↔ s.bit n = true := by
  have inside : n / 32 < bitsetWords := by
    unfold bitsetWords
    omega
  have word := bitset_word s (n / 32) inside (n % 32) (Nat.mod_lt n (by decide))
  rw [Nat.div_add_mod'] at word
  rw [Paging.frameSet, Bitsets.mem_members s.words ⟨n / 32, inside⟩ n rfl, ← word]
  rfl

theorem words_stored (s : Paging) (index value : Word) (inside : index.toNat < bitsetWords) :
    (s.store (element s.frames index) value).words =
      Function.update s.words ⟨index.toNat, inside⟩ value := by
  have small : bitsetWords < 2 ^ 32 := by decide
  funext i
  have back : (BitVec.ofNat 32 i.val).toNat = i := by
    rw [BitVec.toNat_ofNat]
    omega
  have stored := bitset_word_stored s (BitVec.ofNat 32 i.val) index value (by omega) inside
  have same : BitVec.ofNat 32 i.val = index ↔ i = ⟨index.toNat, inside⟩ := by
    rw [← BitVec.toNat_inj, back, Fin.ext_iff]
  rw [Function.update_apply, Paging.words, Paging.words, show (s.store _ value).frames = s.frames from rfl,
    stored]
  exact if_congr same rfl rfl

section Writes
variable (s : Paging) (physAddr : Word)

theorem number_of_place :
    (INDEX_FROM_ADDRESS physAddr).toNat * 32 + (OFFSET_FROM_ADDRESS physAddr).toNat =
      frameNumber physAddr := by
  rw [index_from_address, offset_from_address]
  exact Nat.div_add_mod' _ _

theorem offset_in_word : (OFFSET_FROM_ADDRESS physAddr).toNat < 32 := by
  rw [offset_from_address]
  exact Nat.mod_lt _ (by decide)

theorem loaded_word : s.load (element s.frames (INDEX_FROM_ADDRESS physAddr)) =
    s.words ⟨(INDEX_FROM_ADDRESS physAddr).toNat, index_in_bitset physAddr⟩ := by
  unfold Paging.words
  rw [word_self]

theorem write_bitset_inserts :
    (writeBitset s physAddr).frameSet = insert (frameNumber physAddr) s.frameSet := by
  have turned := Bitsets.members_turn_on s.words ⟨_, index_in_bitset physAddr⟩ _ (offset_in_word physAddr)
  rw [number_of_place, Bitsets.turnOn, BitVec.twoPow_eq, ← loaded_word] at turned
  unfold writeBitset Paging.frameSet
  rw [words_stored s _ _ (index_in_bitset physAddr), BitVec.shiftLeft_eq']
  exact turned

theorem clear_bitset_removes :
    (clearBitset s physAddr).frameSet = s.frameSet \ {frameNumber physAddr} := by
  have turned := Bitsets.members_turn_off s.words ⟨_, index_in_bitset physAddr⟩ _ (offset_in_word physAddr)
  rw [number_of_place, Bitsets.turnOff, BitVec.twoPow_eq, ← loaded_word] at turned
  unfold clearBitset Paging.frameSet
  rw [words_stored s _ _ (index_in_bitset physAddr), BitVec.shiftLeft_eq']
  exact turned

end Writes

theorem checked_write_refines (s : Paging) (physAddr toWrite : Word) :
    ∃ after, checkedWriteBitset s physAddr toWrite = .ok after ∧
      after.frameSet = setAfter s.frameSet physAddr toWrite := by
  refine ⟨_, checked_write_bitset_eq s physAddr toWrite, ?_⟩
  unfold setAfter
  by_cases on : toWrite ≠ 0#32
  · rw [if_pos on, if_pos on]
    exact write_bitset_inserts s physAddr
  · rw [if_neg on, if_neg on]
    exact clear_bitset_removes s physAddr

/-- Writes one after another leave the set that they make of the first one. -/
theorem writes_refine (s : Paging) (calls : List (Word × Word)) :
    ∃ after, calls.foldlM (fun s call => checkedWriteBitset s call.1 call.2) s = .ok after ∧
      after.frameSet = calls.foldl (fun frames call => setAfter frames call.1 call.2) s.frameSet := by
  induction calls generalizing s with
  | nil => exact ⟨s, rfl, rfl⟩
  | cons call calls ih =>
      obtain ⟨middle, written, refines⟩ := checked_write_refines s call.1 call.2
      obtain ⟨after, run, rest⟩ := ih middle
      refine ⟨after, ?_, ?_⟩
      · rw [List.foldlM_cons, written]
        exact run
      · rw [List.foldl_cons, rest, refines]

theorem mem_set_after (frames : Set Nat) (physAddr toWrite : Word) (n : Nat) :
    n ∈ setAfter frames physAddr toWrite ↔
      if frameNumber physAddr = n then toWrite ≠ 0#32 else n ∈ frames := by
  unfold setAfter
  by_cases same : frameNumber physAddr = n
  · rw [if_pos same, same]
    by_cases on : toWrite ≠ 0#32
    · rw [if_pos on]
      exact iff_of_true (Set.mem_insert n frames) on
    · rw [if_neg on]
      exact iff_of_false (fun member => member.2 rfl) on
  · rw [if_neg same]
    by_cases on : toWrite ≠ 0#32
    · rw [if_pos on]
      exact Set.mem_insert_iff.trans (or_iff_right (Ne.symm same))
    · rw [if_neg on]
      exact Set.mem_sdiff_singleton.trans (and_iff_left (Ne.symm same))

/-! What the set says of a read and of the search. -/

section Reads
variable (s : Paging) (physAddr : Word)

theorem get_bitset_member (member : frameNumber physAddr ∈ s.frameSet) :
    getBitset s physAddr = .ok 1#32 := by
  have bit := (mem_frame_set s _ (frame_number_lt physAddr)).mp member
  exact (get_bitset_eq s physAddr).trans (congrArg Except.ok (if_pos bit))

theorem get_bitset_free (free : frameNumber physAddr ∉ s.frameSet) :
    getBitset s physAddr = .ok 0#32 := by
  have bit := mt (mem_frame_set s _ (frame_number_lt physAddr)).mpr free
  exact (get_bitset_eq s physAddr).trans (congrArg Except.ok (if_neg bit))

theorem get_bitset_zero_iff : getBitset s physAddr = .ok 0#32 ↔ frameNumber physAddr ∉ s.frameSet := by
  constructor
  · intro read member
    rw [get_bitset_member s physAddr member] at read
    exact absurd (Except.ok.inj read) (by decide)
  · exact get_bitset_free s physAddr

end Reads

theorem get_bitset_written (s after : Paging) (physAddr toWrite : Word)
    (refines : after.frameSet = setAfter s.frameSet physAddr toWrite) (b : Word) :
    getBitset after b = if frameNumber physAddr = frameNumber b
      then .ok (if toWrite ≠ 0#32 then 1#32 else 0#32) else getBitset s b := by
  have member := mem_set_after s.frameSet physAddr toWrite (frameNumber b)
  rw [← refines] at member
  by_cases same : frameNumber physAddr = frameNumber b
  · rw [if_pos same] at member ⊢
    by_cases on : toWrite ≠ 0#32
    · rw [if_pos on]
      exact get_bitset_member after b (member.mpr on)
    · rw [if_neg on]
      exact get_bitset_free after b (mt member.mp on)
  · rw [if_neg same] at member ⊢
    by_cases inside : frameNumber b ∈ s.frameSet
    · rw [get_bitset_member s b inside]
      exact get_bitset_member after b (member.mpr inside)
    · rw [get_bitset_free s b inside]
      exact get_bitset_free after b (mt member.mp inside)

/-- The search finds the least number outside the set, or halts at a full set. -/
theorem search_refines (s : Paging) :
    (checkedFirstFreeFrame s = .error .halted ∧ ∀ n < 2 ^ 20, n ∈ s.frameSet) ∨
    ∃ n < 2 ^ 20, IsLeast s.frameSetᶜ n ∧ checkedFirstFreeFrame s = .ok (BitVec.ofNat 32 (4096 * n)) := by
  rw [checked_first_free_frame_eq]
  rcases first_free_frame_result s with ⟨full, all⟩ | ⟨n, ⟨bound, clear, before⟩, found⟩
  · rw [full]
    exact Or.inl ⟨rfl, fun n bound => (mem_frame_set s n bound).mpr (all n bound)⟩
  · rw [found]
    refine Or.inr ⟨n, bound, ⟨fun member => ?_, fun k free => ?_⟩, rfl⟩
    · rw [(mem_frame_set s n bound).mp member] at clear
      simp at clear
    · by_contra less
      have lower : k < n := Nat.lt_of_not_le less
      exact free ((mem_frame_set s k (by omega)).mpr (before k lower))

theorem search_lowest (s : Paging) (b : Word) (clear : getBitset s b = .ok 0#32) :
    ∃ frame, checkedFirstFreeFrame s = .ok frame ∧ IsPage frame ∧ getBitset s frame = .ok 0#32 ∧
      ∀ lower, frameNumber lower < frameNumber frame → getBitset s lower = .ok 1#32 := by
  have free := (get_bitset_zero_iff s b).mp clear
  rcases search_refines s with ⟨_, all⟩ | ⟨n, bound, least, found⟩
  · exact absurd (all _ (frame_number_lt b)) free
  · have number := frame_number_page n bound
    refine ⟨_, found, frame_is_page n bound, get_bitset_free s _ ?_, fun lower before => ?_⟩
    · rw [number]
      exact least.1
    · rw [number] at before
      refine get_bitset_member s lower ?_
      by_contra outside
      exact absurd (least.2 outside) (Nat.not_le_of_lt before)

theorem search_halts (s : Paging) (full : ∀ b, getBitset s b = .ok 1#32) :
    checkedFirstFreeFrame s = .error .halted := by
  rcases search_refines s with ⟨halted, _⟩ | ⟨n, bound, least, _⟩
  · exact halted
  · have free : getBitset s (BitVec.ofNat 32 (4096 * n)) = .ok 0#32 := by
      apply get_bitset_free
      rw [frame_number_page n bound]
      exact least.1
    rw [full] at free
    exact absurd (Except.ok.inj free) (by decide)

/-- Reads give 0 or 1. A write changes what is read of its frame and nothing
else, and the search gives the lowest frame of which 0 is read. No access is
outside the array. -/
theorem bitset_is_frame_set (s : Paging) :
    (∀ a, getBitset s a = .ok 0#32 ∨ getBitset s a = .ok 1#32) ∧
    (∀ a toWrite, ∃ after, checkedWriteBitset s a toWrite = .ok after ∧
      ∀ b, getBitset after b = if frameNumber a = frameNumber b
        then .ok (if toWrite ≠ 0#32 then 1#32 else 0#32) else getBitset s b) ∧
    ((∃ b, getBitset s b = .ok 0#32) → ∃ frame, checkedFirstFreeFrame s = .ok frame ∧ IsPage frame ∧
      getBitset s frame = .ok 0#32 ∧
      ∀ lower, frameNumber lower < frameNumber frame → getBitset s lower = .ok 1#32) ∧
    ((∀ b, getBitset s b = .ok 1#32) → checkedFirstFreeFrame s = .error .halted) := by
  refine ⟨fun a => ?_, fun a toWrite => ?_, ?_, search_halts s⟩
  · by_cases member : frameNumber a ∈ s.frameSet
    · exact Or.inr (get_bitset_member s a member)
    · exact Or.inl (get_bitset_free s a member)
  · obtain ⟨after, written, refines⟩ := checked_write_refines s a toWrite
    exact ⟨after, written, get_bitset_written s after a toWrite refines⟩
  · rintro ⟨b, clear⟩
    exact search_lowest s b clear

/-- An array at 0 in which the bit of the last frame alone is clear. -/
def lastFrameFree : Paging where
  mem := fun a => if a = 0x1FFFF#32 then 0x7F#8 else 0xFF#8
  placeAddr := 0x20000#32
  kernelDirectory := 0#32
  frames := 0#32
  currentDir := 0#32
  history := ⟨[], [], []⟩

theorem bitset_is_frame_set_last :
    getBitset lastFrameFree 0xFFFFF000#32 = .ok 0#32 ∧
    ∃ frame, checkedFirstFreeFrame lastFrameFree = .ok frame ∧ IsPage frame ∧
      getBitset lastFrameFree frame = .ok 0#32 ∧
      ∀ lower, frameNumber lower < frameNumber frame → getBitset lastFrameFree lower = .ok 1#32 :=
  ⟨rfl, (bitset_is_frame_set lastFrameFree).2.2.1 ⟨0xFFFFF000#32, rfl⟩⟩

end GargOS
