import GargOS.Elf

/-!
What `parse_ELF` leaves in memory: the segments of a file that it can load, and
of any other file the bytes that it cannot have written.
-/

namespace GargOS.Loader
open ByteMemory Overlay

/-! What is printed. -/

/-- `n` characters are printed, and nothing else is done to memory. -/
structure Prints (s : Stage2) (n : Nat) (after : Stage2) : Prop where
  cursor : after.cursor = s.cursor + BitVec.ofNat 32 (2 * n)
  drive : after.drive = s.drive
  kept : ∀ x, ¬ InSpan s.cursor (2 * n) x → after.mem x = s.mem x

theorem prints_none (s : Stage2) : Prints s 0 s :=
  ⟨(BitVec.add_zero _).symm, rfl, fun _ _ => rfl⟩

theorem prints_trans (s middle after : Stage2) (n k : Nat) (first : Prints s n middle)
    (second : Prints middle k after) : Prints s (n + k) after := by
  refine ⟨?_, second.drive.trans first.drive, fun x outside => ?_⟩
  · rw [second.cursor, first.cursor, BitVec.add_assoc, ← BitVec.ofNat_add, Nat.mul_add]
  · rw [Nat.mul_add] at outside
    have behind : ¬ InSpan middle.cursor (2 * k) x := by
      rw [first.cursor]
      exact fun inside => outside (in_span_shift _ _ _ _ inside)
    have before : ¬ InSpan s.cursor (2 * n) x := fun inside =>
      outside (Nat.lt_of_lt_of_le inside (Nat.le_add_right _ _))
    rw [second.kept x behind, first.kept x before]

theorem putc_prints (s : Stage2) (c : Byte) : Prints s 1 (putc s c) :=
  ⟨rfl, rfl, fun x outside => store16_outside _ _ _ x outside⟩

theorem puts_prints (s : Stage2) (str : List Char) : Prints s str.length (puts s str) := by
  induction str generalizing s with
  | nil => exact prints_none s
  | cons c rest ih =>
      rw [List.length_cons, Nat.add_comm]
      exact prints_trans _ _ _ _ _ (putc_prints s _) (ih _)

theorem largest_power_le (a b : Word) : largestPower a b ≤ a := by
  fun_induction largestPower a b with
  | case1 b greater ih => exact ih
  | case2 b notGreater => exact BitVec.not_lt.mp notGreater

theorem put_digits_prints (n : Nat) (s : Stage2) (a b : Word) (small : b.toNat < 16 ^ n) :
    ∃ k ≤ n, Prints s k (putDigits s a b) := by
  induction n generalizing s a b with
  | zero =>
      have zero : ¬ b > 0#32 := by
        intro positive
        have : 0 < b.toNat := positive
        omega
      rw [putDigits, if_neg zero]
      exact ⟨0, Nat.le_refl 0, prints_none s⟩
  | succ n ih =>
      rw [putDigits]
      split
      next =>
        have next : (b / 0x10#32).toNat < 16 ^ n := by
          rw [BitVec.toNat_udiv, show (0x10#32).toNat = 16 from rfl]
          omega
        dsimp only
        split <;>
        · obtain ⟨k, bound, rest⟩ := ih _ (a % b) _ next
          exact ⟨1 + k, by omega, prints_trans _ _ _ _ _ (putc_prints s _) rest⟩
      next => exact ⟨0, Nat.zero_le _, prints_none s⟩

theorem puth_prints (s : Stage2) (a : Word) (small : a.toNat < 256) : ∃ k ≤ 4, Prints s k (puth s a) := by
  have start : Prints s 2 (puts s "0x".toList) := puts_prints s "0x".toList
  by_cases zero : a = 0#32
  · rw [puth, if_pos zero]
    exact ⟨2 + 1, by decide, prints_trans _ _ _ _ _ start (putc_prints _ _)⟩
  · rw [puth, if_neg zero]
    have first : (largestPower a 0x10000000#32).toNat < 16 ^ 2 :=
      Nat.lt_of_le_of_lt (largest_power_le a _) small
    obtain ⟨k, bound, rest⟩ := put_digits_prints 2 (puts s "0x".toList) a _ first
    exact ⟨2 + k, Nat.add_le_add_left bound 2, prints_trans _ _ _ _ _ start rest⟩

/-- The number of characters that the scan prints. -/
def printed (addUhci : AddUhci) (s : Stage2) : Nat :=
  5 * (checkAllBuses addUhci ⟨s.ports, []⟩).added.length

theorem texts_prints (added : List (Byte × Byte × Byte)) (s : Stage2) :
    Prints s (5 * added.length) (added.foldl (fun s _ => puts s "no, u".toList) s) := by
  induction added generalizing s with
  | nil => exact prints_none s
  | cons _ rest ih =>
      have text : Prints s 5 (puts s "no, u".toList) := puts_prints s "no, u".toList
      rw [List.length_cons, Nat.mul_succ, Nat.add_comm]
      exact prints_trans _ _ _ _ _ text (ih _)

theorem check_buses_prints (addUhci : AddUhci) (s : Stage2) :
    Prints s (printed addUhci s) (checkBuses addUhci s) := by
  obtain ⟨scan, count, result⟩ : ∃ scan : Scan, printed addUhci s = 5 * scan.added.length ∧
      checkBuses addUhci s =
        scan.added.foldl (fun s _ => puts s "no, u".toList) { s with ports := scan.ports } :=
    ⟨checkAllBuses addUhci ⟨s.ports, []⟩, rfl, rfl⟩
  rw [count, result]
  obtain ⟨cursor, drive, kept⟩ := texts_prints scan.added { s with ports := scan.ports }
  exact ⟨cursor, drive, kept⟩

/-! What is read from the disk. -/

theorem insl_result (s : Stage2) (addr : Word) (n : Nat) (bound : 4 * n ≤ 2 ^ 32) :
    insl s addr n =
      { s with
        mem := overlaid (spread addr (4 * n) fun j => s.drive.content (s.drive.position + j)) s.mem
        drive := { s.drive with position := s.drive.position + 4 * n } } := by
  induction n with
  | zero => rw [insl, Nat.mul_zero, overlaid_spread_zero, Nat.add_zero]
  | succ n ih =>
      have next := store32_spread (addr + BitVec.ofNat 32 (4 * n))
        (fun j => s.drive.content (s.drive.position + (4 * n + j)))
        (overlaid (spread addr (4 * n) fun j => s.drive.content (s.drive.position + j)) s.mem)
      have joined := overlaid_spread_append addr (4 * n) (fun j => s.drive.content (s.drive.position + j)) s.mem 4 bound
      rw [insl, ih (by omega)]
      dsimp only
      simp only [Nat.add_assoc]
      rw [next, joined, Nat.mul_succ]

theorem drive_bits (w : BitVec 4) :
    ((w.setWidth 32 ||| 0xE0#32).setWidth 8 &&& 0xF#8 : Byte) = (w.setWidth 32).setWidth 8 := by
  revert w
  decide

theorem sector_sent (v : Word) (small : v.toNat < 2 ^ 28) :
    (((v >>> 24 ||| 0xE0#32).setWidth 8 &&& 0xF#8) ++ (v >>> 16).setWidth 8 ++ (v >>> 8).setWidth 8 ++
      v.setWidth 8 : Word) = v := by
  have four : ((v >>> 24).setWidth 4).setWidth 32 = v >>> 24 := by
    apply BitVec.eq_of_toNat_eq
    rw [BitVec.toNat_setWidth, BitVec.toNat_setWidth, BitVec.toNat_ushiftRight, Nat.shiftRight_eq_div_pow]
    omega
  have top := drive_bits ((v >>> 24).setWidth 4)
  rw [four] at top
  rw [top]
  ext i bound
  simp only [BitVec.getElem_append, BitVec.getElem_setWidth, BitVec.getLsbD_ushiftRight]
  grind

theorem read_sector_result (s : Stage2) (sectorStart dest : Word) (small : sectorStart.toNat < 2 ^ 28) :
    ∃ drive : Drive, drive.content = s.drive.content ∧ readSector s sectorStart dest =
      { s with
        mem := overlaid (spread dest 512 fun j => s.drive.content (512 * sectorStart.toNat + j)) s.mem
        drive := drive } := by
  obtain ⟨drive, content, position, read⟩ : ∃ drive : Drive, drive.content = s.drive.content ∧
      drive.position = 512 * sectorStart.toNat ∧
      readSector s sectorStart dest = insl { s with drive := drive } dest 128 := by
    refine ⟨_, ?_, ?_, rfl⟩
    · rfl
    · show 512 * (Drive.sector _).toNat = _
      rw [Drive.sector]
      exact congrArg (512 * BitVec.toNat ·) (sector_sent sectorStart small)
  refine ⟨{ drive with position := drive.position + 512 }, content, ?_⟩
  rw [read, insl_result _ _ _ (by decide), ← content, ← position]

theorem read_sectors_result (s : Stage2) (toLoadFrom : Word) (n : Nat) (bound : n ≤ KERNEL_SECS_TO_LOAD)
    (small : toLoadFrom.toNat < 2 ^ 23) :
    ∃ drive : Drive, drive.content = s.drive.content ∧ readSectors s toLoadFrom n =
      { s with
        mem := overlaid (spread bufferStart (512 * n) fun j => s.drive.content (512 * toLoadFrom.toNat + j)) s.mem
        drive := drive } := by
  induction n with
  | zero => exact ⟨s.drive, rfl, by rw [readSectors, Nat.mul_zero, overlaid_spread_zero]⟩
  | succ n ih =>
      have few : n < 128 := bound
      obtain ⟨drive, content, before⟩ := ih (by omega)
      have sector : (toLoadFrom + BitVec.ofNat 32 n).toNat = toLoadFrom.toNat + n := by bv_omega
      have dest : bufferStart + BitVec.ofNat 32 n * 512#32 = bufferStart + BitVec.ofNat 32 (512 * n) := by
        rw [BitVec.mul_comm, BitVec.ofNat_mul]
      have joined := overlaid_spread_append bufferStart (512 * n)
        (fun j => s.drive.content (512 * toLoadFrom.toNat + j)) s.mem 512 (by omega)
      obtain ⟨drive', content', read⟩ := read_sector_result (readSectors s toLoadFrom n)
        (toLoadFrom + BitVec.ofNat 32 n) (bufferStart + BitVec.ofNat 32 (512 * n)) (by omega)
      refine ⟨drive', by rw [content', before, content], ?_⟩
      rw [readSectors, dest, read, before]
      dsimp only
      rw [sector, content, Nat.mul_add, Nat.mul_succ, ← joined]
      simp only [Nat.add_assoc]

/-! What the segments of a file are. -/

/-- The file at the sector `parseElf` starts with. -/
def fileAt (s : Stage2) (toLoadFrom : Word) : Memory :=
  fun x => s.drive.content (512 * (toLoadFrom.toNat / 512) + x.toNat)

/-- An entry of the program header table, in a file whose entries have `size` bytes. -/
def entry (file : Memory) (size : Word) (i : Nat) : Elf32Phdr :=
  programHeader file (ePhoff file 0#32 + size * BitVec.ofNat 32 i)

def Elf32Phdr.Destination (header : Elf32Phdr) (x : Word) : Prop :=
  header.pType ≠ PT_NULL ∧ InSpan header.pPaddr (max header.pFilesz.toNat header.pMemsz.toNat) x

def Elf32Phdr.segment (header : Elf32Phdr) (file : Memory) : Word → Option Byte :=
  if header.pType = PT_NULL then fun _ => none
  else spread header.pPaddr (max header.pFilesz.toNat header.pMemsz.toNat) fun j =>
    if j < header.pFilesz.toNat then file (header.pOffset + BitVec.ofNat 32 j) else 0#8

def Buffered (m file : Memory) : Prop := ∀ x : Word, x.toNat < 0x10000 → m (bufferStart + x) = file x

def tableEntry (file : Memory) (i : Nat) : Elf32Phdr := entry file ((ePhentsize file 0#32).setWidth 32) i

/-- The table, of entries of `size` bytes, and the segments are in what is read of
the file, and no segment is to be where the second stage and its buffer are. -/
structure Confined (file : Memory) (size : Word) : Prop where
  table : ∀ i < (ePhnum file 0#32).toNat, (ePhoff file 0#32).toNat + size.toNat * i + size.toNat ≤ 0x10000
  ranges : ∀ i < (ePhnum file 0#32).toNat, (entry file size i).pType ≠ PT_NULL →
    ∀ j < (entry file size i).pFilesz.toNat, (entry file size i).pOffset.toNat + j < 0x10000
  apart : ∀ i < (ePhnum file 0#32).toNat, ∀ x, (entry file size i).Destination x →
    ¬ (0x9000 ≤ x.toNat ∧ x.toNat < 0x1A000)

def StackSpared (stackLow : Word) (file : Memory) (size : Word) : Prop :=
  ∀ i < (ePhnum file 0#32).toNat, ∀ x, (entry file size i).Destination x →
    ¬ (stackLow.toNat ≤ x.toNat ∧ x.toNat < 0x9000)

/-- A file that can be loaded: besides, its entries have the size of the source's
structure, and no two segments are to be at the same place. -/
structure Loadable (file : Memory) : Prop where
  magic : eIdent file 0#32 0 = EHDR_MAG0
  entsize : ePhentsize file 0#32 = 32#16
  confined : Confined file ((ePhentsize file 0#32).setWidth 32)
  disjoint : ∀ i < (ePhnum file 0#32).toNat, ∀ k < (ePhnum file 0#32).toNat, i ≠ k → ∀ x,
    (tableEntry file i).Destination x → ¬ (tableEntry file k).Destination x

theorem memset_spread (m : Memory) (dest : Word) (c : Byte) (n : Nat) (bound : n ≤ 2 ^ 32) :
    memset m dest c n = overlaid (spread dest n fun _ => c) m := by
  funext x
  rw [memset_apply _ _ _ _ _ bound]
  by_cases inside : InSpan dest n x
  · rw [if_pos inside, overlaid_held _ _ _ _ (spread_inside _ _ _ _ inside)]
  · rw [if_neg inside, overlaid_rest _ _ _ (spread_outside _ _ _ _ inside)]

theorem memcpy_outside (see : Memory → Memory) (m : Memory) (dest src : Word) (n : Nat) (bound : n ≤ 2 ^ 32)
    (x : Word) (outside : ¬ InSpan dest n x) : memcpy see m dest src n x = m x := by
  induction n with
  | zero => rfl
  | succ n ih =>
      rw [in_span_succ dest n (by omega)] at outside
      rw [memcpy, write, if_neg fun here => outside (Or.inl here)]
      exact ih (by omega) fun inside => outside (Or.inr inside)

theorem memcpy_spread (see : Memory → Memory) (m : Memory) (dest src : Word) (n : Nat) (bound : n ≤ 2 ^ 32)
    (direct : ∀ m, ∀ j < n, see m (src + BitVec.ofNat 32 j) = m (src + BitVec.ofNat 32 j))
    (apart : ∀ j < n, ¬ InSpan dest n (src + BitVec.ofNat 32 j)) :
    memcpy see m dest src n = overlaid (spread dest n fun j => m (src + BitVec.ofNat 32 j)) m := by
  induction n with
  | zero => rw [memcpy, overlaid_spread_zero]
  | succ n ih =>
      have fewer : ∀ j < n + 1, ¬ InSpan dest n (src + BitVec.ofNat 32 j) := fun j below inside =>
        apart j below (Nat.lt_succ_of_lt inside)
      have source : memcpy see m dest src n (src + BitVec.ofNat 32 n) = m (src + BitVec.ofNat 32 n) :=
        memcpy_outside see m dest src n (by omega) _ (fewer n (Nat.lt_succ_self n))
      have earlier := ih (by omega) (fun m j below => direct m j (by omega)) fun j below => fewer j (by omega)
      rw [memcpy, direct _ n (Nat.lt_succ_self n), source, earlier]
      exact (overlaid_spread_succ dest n (fun j => m (src + BitVec.ofNat 32 j)) m bound).symm

theorem load_segment_outside (see : Memory → Memory) (m : Memory) (mainHdr : Word) (header : Elf32Phdr) (x : Word)
    (outside : ¬ header.Destination x) : loadSegment see m mainHdr header x = m x := by
  unfold loadSegment
  split
  next => rfl
  next placed =>
    have away : ¬ InSpan header.pPaddr (max header.pFilesz.toNat header.pMemsz.toNat) x :=
      fun inside => outside ⟨placed, inside⟩
    have files := header.pFilesz.isLt
    have copied := memcpy_outside see m header.pPaddr (mainHdr + header.pOffset) header.pFilesz.toNat
      (by omega) x fun inside => away (Nat.lt_of_lt_of_le inside (Nat.le_max_left _ _))
    dsimp only
    split
    next more =>
      have larger : header.pFilesz.toNat < header.pMemsz.toNat := more
      have length : (header.pMemsz - header.pFilesz).toNat = header.pMemsz.toNat - header.pFilesz.toNat := by
        bv_omega
      have behind : ¬ InSpan (header.pPaddr + header.pFilesz) (header.pMemsz - header.pFilesz).toNat x := by
        intro inside
        have shifted := in_span_shift header.pPaddr header.pFilesz.toNat
          (header.pMemsz - header.pFilesz).toNat x (by rwa [word_self])
        rw [length] at shifted
        exact away (Nat.lt_of_lt_of_le shifted (by omega))
      rw [memset_apply _ _ _ _ _ (by omega), if_neg behind, copied]
    next => exact copied

/-- The header that round `i` of the loop copies. -/
def headerAt (own : OwnMemory) (m : Memory) (mainHdr table : Word) (i : Nat) : Option Elf32Phdr :=
  (loadSegments own m mainHdr table i).map fun m =>
    programHeader (own.seen (2 * i) m) (table + 32#32 * BitVec.ofNat 32 i)

section Rounds
variable (own : OwnMemory) (m : Memory) (mainHdr table : Word)

theorem load_segments_succ (n : Nat) (before : Memory) (loaded : loadSegments own m mainHdr table n = some before) :
    loadSegments own m mainHdr table (n + 1) =
      if (programHeader (own.seen (2 * n) before) (table + 32#32 * BitVec.ofNat 32 n)).Overwrites own.stackLow then none
      else some (loadSegment (own.seen (2 * n + 1)) before mainHdr
        (programHeader (own.seen (2 * n) before) (table + 32#32 * BitVec.ofNat 32 n))) := by
  rw [loadSegments, loaded]
  rfl

/-- Whatever the headers are by the time they are read. -/
theorem load_segments_outside (n : Nat) (after : Memory)
    (loaded : loadSegments own m mainHdr table n = some after) (x : Word)
    (outside : ∀ i < n, ∀ header, headerAt own m mainHdr table i = some header → ¬ header.Destination x) :
    after x = m x := by
  induction n generalizing after with
  | zero => rw [← Option.some.inj loaded]
  | succ n ih =>
      obtain ⟨before, earlier, _⟩ := Option.bind_eq_some_iff.mp loaded
      have round := load_segments_succ own m mainHdr table n before earlier
      rw [loaded] at round
      split at round
      next => exact absurd round (Option.some_ne_none _)
      next =>
        have here : headerAt own m mainHdr table n =
            some (programHeader (own.seen (2 * n) before) (table + 32#32 * BitVec.ofNat 32 n)) := by
          rw [headerAt, earlier]
          rfl
        rw [Option.some.inj round, load_segment_outside _ _ _ _ x (outside n (Nat.lt_succ_self n) _ here)]
        exact ih before earlier fun i below => outside i (by omega)

/-- The loop is left without a result exactly if a header it reads is for a place
that the loader needs. -/
theorem load_segments_none (n : Nat) : loadSegments own m mainHdr table n = none ↔
    ∃ i < n, ∃ header, headerAt own m mainHdr table i = some header ∧ header.Overwrites own.stackLow := by
  induction n with
  | zero => simp [loadSegments]
  | succ n ih =>
      rw [Nat.exists_lt_succ_right, ← ih]
      cases earlier : loadSegments own m mainHdr table n with
      | none => simp [loadSegments, earlier]
      | some before =>
          rw [load_segments_succ own m mainHdr table n before earlier, headerAt, earlier]
          simp

end Rounds

theorem overwrites_destination (stackLow : Word) (header : Elf32Phdr) (overwrites : header.Overwrites stackLow) :
    ∃ x, header.Destination x ∧ Own stackLow x := by
  obtain ⟨placed, j, length, own⟩ := overwrites
  have word : j < 2 ^ 32 := by omega
  have offset : (BitVec.ofNat 32 j).toNat = j := by
    rw [BitVec.toNat_ofNat, Nat.mod_eq_of_lt word]
  exact ⟨_, ⟨placed, offset_in_span _ _ _ (offset.symm ▸ length)⟩, own⟩

theorem segment_none (header : Elf32Phdr) (file : Memory) (x : Word) (outside : ¬ header.Destination x) :
    header.segment file x = none := by
  unfold Elf32Phdr.segment
  split
  next => rfl
  next placed => exact spread_outside _ _ _ _ fun inside => outside ⟨placed, inside⟩

theorem segment_some (header : Elf32Phdr) (file : Memory) (x : Word) (inside : header.Destination x) :
    header.segment file x = some (if (x - header.pPaddr).toNat < header.pFilesz.toNat then
      file (header.pOffset + (x - header.pPaddr)) else 0#8) := by
  rw [Elf32Phdr.segment, if_neg inside.1, spread_inside _ _ _ _ inside.2, word_self]

theorem seen_buffer (own : OwnMemory) (n : Nat) (m : Memory) (a : Word) (inside : a.toNat < 0x10000) :
    own.seen n m (bufferStart + a) = m (bufferStart + a) := by
  have start : bufferStart = 0xA000#32 := rfl
  refine if_neg fun here => ?_
  unfold Own at here
  rw [start] at here
  bv_omega

section Buffer
variable (m file : Memory) (buffered : Buffered m file)
include buffered

theorem seen_buffered (own : OwnMemory) (n : Nat) : Buffered (own.seen n m) file := fun a inside =>
  (seen_buffer own n m a inside).trans (buffered a inside)

theorem load32_buffered (a : Word) (inside : a.toNat + 4 ≤ 0x10000) :
    load32 m (bufferStart + a) = load32 file a := by
  have at_ : ∀ j : Word, j.toNat < 4 → m (bufferStart + a + j) = file (a + j) := by
    intro j bound
    rw [BitVec.add_assoc]
    exact buffered _ (by bv_omega)
  simp only [load32, at_ 1#32 (by decide), at_ 2#32 (by decide), at_ 3#32 (by decide),
    buffered a (by omega)]

theorem program_header_buffered (a : Word) (inside : a.toNat + 32 ≤ 0x10000) :
    programHeader m (bufferStart + a) = programHeader file a := by
  have field : ∀ k : Word, k.toNat + 4 ≤ 32 → load32 m (bufferStart + a + k) = load32 file (a + k) := by
    intro k bound
    rw [BitVec.add_assoc]
    exact load32_buffered _ _ buffered _ (by bv_omega)
  rw [programHeader, load32_buffered _ _ buffered a (by omega), field 4#32 (by decide),
    field 12#32 (by decide), field 16#32 (by decide), field 20#32 (by decide), programHeader]

theorem phoff_buffered : ePhoff m bufferStart = ePhoff file 0#32 :=
  load32_buffered _ _ buffered 28#32 (by decide)

theorem phnum_buffered : ePhnum m bufferStart = ePhnum file 0#32 := by
  have low : m (bufferStart + 44#32) = file 44#32 := buffered 44#32 (by decide)
  have high : m (bufferStart + 44#32 + 1#32) = file 45#32 := buffered 45#32 (by decide)
  simp only [ePhnum, load16, low, high]
  rfl

theorem entry_buffered (confined : Confined file 32#32) (i : Nat) (bound : i < (ePhnum file 0#32).toNat) :
    programHeader m (bufferStart + ePhoff m bufferStart + 32#32 * BitVec.ofNat 32 i) = entry file 32#32 i := by
  have inside : _ + 32 * i + 32 ≤ _ := confined.table i bound
  rw [phoff_buffered _ _ buffered, BitVec.add_assoc, program_header_buffered _ _ buffered, entry]
  bv_omega

theorem load_segment_result (own : OwnMemory) (n : Nat) (header : Elf32Phdr)
    (range : header.pType ≠ PT_NULL → ∀ j < header.pFilesz.toNat, header.pOffset.toNat + j < 0x10000)
    (apart : ∀ x, header.Destination x → ¬ InSpan bufferStart 0x10000 x) :
    loadSegment (own.seen n) m bufferStart header = overlaid (header.segment file) m := by
  unfold loadSegment Elf32Phdr.segment
  split
  next => rfl
  next placed =>
    have files := header.pFilesz.isLt
    have source : ∀ j < header.pFilesz.toNat,
        (header.pOffset + BitVec.ofNat 32 j).toNat = header.pOffset.toNat + j := by
      intro j below
      have inside := range placed j below
      bv_omega
    have away : ∀ j < header.pFilesz.toNat, ¬ InSpan header.pPaddr header.pFilesz.toNat
        (bufferStart + header.pOffset + BitVec.ofNat 32 j) := by
      intro j below inside
      refine apart _ ⟨placed, Nat.lt_of_lt_of_le inside (Nat.le_max_left _ _)⟩ ?_
      rw [BitVec.add_assoc]
      exact offset_in_span _ _ _ (source j below ▸ range placed j below)
    have direct : ∀ m, ∀ j < header.pFilesz.toNat, own.seen n m (bufferStart + header.pOffset + BitVec.ofNat 32 j) =
        m (bufferStart + header.pOffset + BitVec.ofNat 32 j) := by
      intro m j below
      rw [BitVec.add_assoc]
      exact seen_buffer own n m _ (source j below ▸ range placed j below)
    have copied : memcpy (own.seen n) m header.pPaddr (bufferStart + header.pOffset) header.pFilesz.toNat =
        overlaid (spread header.pPaddr header.pFilesz.toNat fun j =>
          if j < header.pFilesz.toNat then file (header.pOffset + BitVec.ofNat 32 j) else 0#8) m := by
      rw [memcpy_spread _ m _ _ _ (by omega) direct away]
      refine congrArg (fun p => overlaid p m) (spread_congr _ _ _ _ fun j below => ?_)
      rw [if_pos below, BitVec.add_assoc]
      exact buffered _ (source j below ▸ range placed j below)
    dsimp only
    rw [copied]
    split
    next more =>
      have larger : header.pFilesz.toNat < header.pMemsz.toNat := more
      have length : (header.pMemsz - header.pFilesz).toNat = header.pMemsz.toNat - header.pFilesz.toNat := by
        bv_omega
      have zeros : (spread (header.pPaddr + header.pFilesz) (header.pMemsz.toNat - header.pFilesz.toNat)
          fun _ => 0#8) = spread (header.pPaddr + BitVec.ofNat 32 header.pFilesz.toNat)
            (header.pMemsz.toNat - header.pFilesz.toNat) fun j =>
              if header.pFilesz.toNat + j < header.pFilesz.toNat then
                file (header.pOffset + BitVec.ofNat 32 (header.pFilesz.toNat + j)) else 0#8 := by
        rw [word_self]
        exact spread_congr _ _ _ _ fun j _ => (if_neg (by omega)).symm
      have whole : header.pFilesz.toNat + (header.pMemsz.toNat - header.pFilesz.toNat) =
          max header.pFilesz.toNat header.pMemsz.toNat := by omega
      rw [memset_spread _ _ _ _ (by omega), length, zeros,
        overlaid_spread_append header.pPaddr header.pFilesz.toNat (fun j =>
          if j < header.pFilesz.toNat then file (header.pOffset + BitVec.ofNat 32 j) else 0#8) m _ (by omega),
        whole]
    next noMore =>
      have whole : max header.pFilesz.toNat header.pMemsz.toNat = header.pFilesz.toNat :=
        Nat.max_eq_left (Nat.not_lt.mp noMore)
      rw [whole]

theorem load_segments_result (own : OwnMemory) (confined : Confined file 32#32)
    (spared : StackSpared own.stackLow file 32#32) (n : Nat) (bound : n ≤ (ePhnum file 0#32).toNat) :
    loadSegments own m bufferStart (bufferStart + ePhoff m bufferStart) n =
        some (overlays (fun i => (entry file 32#32 i).segment file) m n) ∧
      Buffered (overlays (fun i => (entry file 32#32 i).segment file) m n) file := by
  induction n with
  | zero => exact ⟨rfl, buffered⟩
  | succ n ih =>
      obtain ⟨earlier, held⟩ := ih (by omega)
      have apart : ∀ x, (entry file 32#32 n).Destination x → ¬ InSpan bufferStart 0x10000 x := by
        intro x destination inside
        have place := (in_span_iff bufferStart 0x10000 x (by decide)).mp inside
        have start : bufferStart.toNat = 0xA000 := rfl
        exact confined.apart n (by omega) x destination (by omega)
      have safe : ¬ (entry file 32#32 n).Overwrites own.stackLow := by
        intro overwrites
        obtain ⟨x, destination, here⟩ := overwrites_destination own.stackLow _ overwrites
        have start : bufferStart.toNat = 0xA000 := rfl
        have low := confined.apart n (by omega) x destination
        unfold Own at here
        exact spared n (by omega) x destination (by omega)
      have shown := seen_buffered _ _ held own (2 * n)
      have read := entry_buffered _ _ shown confined n (by omega)
      rw [phoff_buffered _ _ shown, ← phoff_buffered m file buffered] at read
      rw [load_segments_succ _ _ _ _ _ _ earlier, read, if_neg safe,
        load_segment_result _ _ held _ _ _ (confined.ranges n (by omega)) apart]
      refine ⟨rfl, fun x inside => ?_⟩
      rw [overlays, overlaid_rest _ _ _ (segment_none _ _ _ fun destination => apart _ destination
        (offset_in_span _ _ _ inside)), held x inside]

end Buffer

theorem parse_buffer_taken (own : OwnMemory) (s : Stage2) (file : Memory) (buffered : Buffered s.mem file)
    (magic : eIdent file 0#32 0 = EHDR_MAG0) :
    parseBuffer own s = (loadSegments own s.mem bufferStart (bufferStart + ePhoff s.mem bufferStart)
      (ePhnum file 0#32).toNat).map fun m => { s with mem := m } := by
  have first : eIdent s.mem bufferStart 0 = EHDR_MAG0 := (buffered 0#32 (by decide)).trans magic
  rw [parseBuffer, if_neg (not_not.mpr first), phnum_buffered _ _ buffered, Option.map_eq_bind]
  rfl

/-- Fifteen characters, `0x` and at most two digits. -/
theorem parse_buffer_rejected (own : OwnMemory) (s : Stage2) (file : Memory) (buffered : Buffered s.mem file)
    (other : eIdent file 0#32 0 ≠ EHDR_MAG0) :
    ∃ after, parseBuffer own s = some after ∧ ∃ k ≤ 19, Prints s k after := by
  have first : eIdent s.mem bufferStart 0 = eIdent file 0#32 0 := buffered 0#32 (by decide)
  rw [← first] at other
  rw [parseBuffer, if_pos other]
  have complaint : Prints s 15 (puts s "Incorrect MAG0 ".toList) := puts_prints s "Incorrect MAG0 ".toList
  obtain ⟨k, few, value⟩ := puth_prints (puts s "Incorrect MAG0 ".toList)
    ((eIdent (puts s "Incorrect MAG0 ".toList).mem bufferStart 0).setWidth 32)
    (by rw [BitVec.toNat_setWidth]; omega)
  exact ⟨_, rfl, 15 + k, Nat.add_le_add_left few 15, prints_trans _ _ _ _ _ complaint value⟩

/-! `parseElf` from what is in the buffer on. -/

theorem sectors_buffered (s start : Stage2) (n : Nat) (prints : Prints s n start) (toLoadFrom : Word) :
    ∃ after, readSectors start (toLoadFrom / 512#32) KERNEL_SECS_TO_LOAD = after ∧
      after.cursor = s.cursor + BitVec.ofNat 32 (2 * n) ∧ Buffered after.mem (fileAt s toLoadFrom) ∧
      ∀ x, ¬ InSpan bufferStart 0x10000 x → ¬ InSpan s.cursor (2 * n) x → after.mem x = s.mem x := by
  have sector : (toLoadFrom / 512#32).toNat = toLoadFrom.toNat / 512 := BitVec.toNat_udiv
  obtain ⟨drive, _, read⟩ := read_sectors_result start (toLoadFrom / 512#32) KERNEL_SECS_TO_LOAD
    (Nat.le_refl _) (by omega)
  rw [prints.drive, sector] at read
  refine ⟨_, read, prints.cursor, fun x inside => ?_, fun x notBuffer notText => ?_⟩
  · have place := spread_at bufferStart 0x10000
      (fun j => s.drive.content (512 * (toLoadFrom.toNat / 512) + j)) x.toNat inside x.isLt
    rw [word_self] at place
    exact overlaid_held _ _ _ _ place
  · exact (overlaid_rest _ _ _ (spread_outside _ _ _ _ notBuffer)).trans (prints.kept x notText)

def afterRead (addUhci : AddUhci) (s : Stage2) (toLoadFrom : Word) : Stage2 :=
  readSectors (checkBuses addUhci s) (toLoadFrom / 512#32) KERNEL_SECS_TO_LOAD

def headerRead (addUhci : AddUhci) (own : OwnMemory) (s : Stage2) (toLoadFrom : Word) (i : Nat) : Option Elf32Phdr :=
  let m := (afterRead addUhci s toLoadFrom).mem
  headerAt own m bufferStart (bufferStart + ePhoff m bufferStart) i

section Parse
variable (addUhci : AddUhci) (own : OwnMemory) (s : Stage2) (toLoadFrom : Word)

theorem sectors_read : ∃ after, parseElf addUhci own s toLoadFrom = parseBuffer own after ∧
    afterRead addUhci s toLoadFrom = after ∧
    after.cursor = s.cursor + BitVec.ofNat 32 (2 * printed addUhci s) ∧
    Buffered after.mem (fileAt s toLoadFrom) ∧
    ∀ x, ¬ InSpan bufferStart 0x10000 x → ¬ InSpan s.cursor (2 * printed addUhci s) x →
      after.mem x = s.mem x := by
  obtain ⟨after, read, rest⟩ := sectors_buffered s _ _ (check_buses_prints addUhci s) toLoadFrom
  exact ⟨after, congrArg (parseBuffer own) read, read, rest⟩

theorem parse_elf_rejected (other : eIdent (fileAt s toLoadFrom) 0#32 0 ≠ EHDR_MAG0) :
    ∃ after, parseElf addUhci own s toLoadFrom = some after ∧ ∀ x, ¬ InSpan bufferStart 0x10000 x →
      ¬ InSpan s.cursor (2 * printed addUhci s + 38) x → after.mem x = s.mem x := by
  obtain ⟨read, parsed, _, cursor, buffered, kept⟩ := sectors_read addUhci own s toLoadFrom
  obtain ⟨after, returned, k, few, rejected⟩ := parse_buffer_rejected own read _ buffered other
  refine ⟨after, parsed.trans returned, fun x notBuffer notText => ?_⟩
  have notComplaint : ¬ InSpan read.cursor (2 * k) x := by
    rw [cursor]
    intro inside
    have short : 2 * k ≤ 38 := Nat.mul_le_mul_left 2 few
    exact notText (Nat.lt_of_lt_of_le (in_span_shift _ _ _ _ inside) (Nat.add_le_add_left short _))
  have before : ¬ InSpan s.cursor (2 * printed addUhci s) x := fun inside =>
    notText (Nat.lt_of_lt_of_le inside (Nat.le_add_right _ _))
  rw [rejected.kept x notComplaint]
  exact kept x notBuffer before

theorem parse_elf_taken (magic : eIdent (fileAt s toLoadFrom) 0#32 0 = EHDR_MAG0) :
    (parseElf addUhci own s toLoadFrom = none ↔ ∃ i < (ePhnum (fileAt s toLoadFrom) 0#32).toNat,
      ∃ header, headerRead addUhci own s toLoadFrom i = some header ∧ header.Overwrites own.stackLow) ∧
    ∀ after, parseElf addUhci own s toLoadFrom = some after → ∀ x, ¬ InSpan bufferStart 0x10000 x →
      ¬ InSpan s.cursor (2 * printed addUhci s) x →
      (∀ i < (ePhnum (fileAt s toLoadFrom) 0#32).toNat, ∀ header,
        headerRead addUhci own s toLoadFrom i = some header → ¬ header.Destination x) →
      after.mem x = s.mem x := by
  obtain ⟨read, parsed, same, _, buffered, kept⟩ := sectors_read addUhci own s toLoadFrom
  rw [parsed, parse_buffer_taken own read _ buffered magic]
  unfold headerRead
  rw [same]
  constructor
  · rw [Option.map_eq_none_iff]
    exact load_segments_none own read.mem bufferStart _ _
  · intro after returned x notBuffer notText outside
    obtain ⟨m, loaded, rfl⟩ := Option.map_eq_some_iff.mp returned
    exact (load_segments_outside own read.mem bufferStart _ _ m loaded x outside).trans (kept x notBuffer notText)

theorem parse_elf_segments (magic : eIdent (fileAt s toLoadFrom) 0#32 0 = EHDR_MAG0)
    (confined : Confined (fileAt s toLoadFrom) 32#32) (spared : StackSpared own.stackLow (fileAt s toLoadFrom) 32#32) :
    ∃ (m : Memory) (after : Stage2), parseElf addUhci own s toLoadFrom = some after ∧
    after.mem = overlays (fun i => (entry (fileAt s toLoadFrom) 32#32 i).segment (fileAt s toLoadFrom)) m
        (ePhnum (fileAt s toLoadFrom) 0#32).toNat ∧
    (∀ x, ¬ InSpan bufferStart 0x10000 x → ¬ InSpan s.cursor (2 * printed addUhci s) x → m x = s.mem x) ∧
    ∀ i < (ePhnum (fileAt s toLoadFrom) 0#32).toNat,
      headerRead addUhci own s toLoadFrom i = some (entry (fileAt s toLoadFrom) 32#32 i) := by
  obtain ⟨read, parsed, same, _, buffered, kept⟩ := sectors_read addUhci own s toLoadFrom
  have rounds := load_segments_result _ _ buffered own confined spared
  refine ⟨read.mem, { read with mem := overlays _ read.mem _ }, ?_, rfl, kept, fun i below => ?_⟩
  · rw [parsed, parse_buffer_taken own read _ buffered magic, (rounds _ (Nat.le_refl _)).1]
    rfl
  · obtain ⟨earlier, held⟩ := rounds i (Nat.le_of_lt below)
    have shown := seen_buffered _ _ held own (2 * i)
    have header := entry_buffered _ _ shown confined i below
    rw [phoff_buffered _ _ shown, ← phoff_buffered _ _ buffered] at header
    unfold headerRead headerAt
    dsimp only
    rw [same, earlier]
    exact congrArg some header

/-- A file that can be loaded is loaded: its segments are in memory, with zeros
where they are longer than in the file, and the rest is as it was. -/
theorem parse_elf_loads (loadable : Loadable (fileAt s toLoadFrom))
    (spared : StackSpared own.stackLow (fileAt s toLoadFrom) 32#32) :
    ∃ after, parseElf addUhci own s toLoadFrom = some after ∧
    (∀ i < (ePhnum (fileAt s toLoadFrom) 0#32).toNat,
      (tableEntry (fileAt s toLoadFrom) i).pType ≠ PT_NULL →
      (∀ j < (tableEntry (fileAt s toLoadFrom) i).pFilesz.toNat,
        after.mem ((tableEntry (fileAt s toLoadFrom) i).pPaddr + BitVec.ofNat 32 j) =
          fileAt s toLoadFrom ((tableEntry (fileAt s toLoadFrom) i).pOffset + BitVec.ofNat 32 j)) ∧
      ∀ j, (tableEntry (fileAt s toLoadFrom) i).pFilesz.toNat ≤ j →
        j < (tableEntry (fileAt s toLoadFrom) i).pMemsz.toNat →
        after.mem ((tableEntry (fileAt s toLoadFrom) i).pPaddr + BitVec.ofNat 32 j) = 0#8) ∧
    ∀ x, ¬ InSpan bufferStart 0x10000 x → ¬ InSpan s.cursor (2 * printed addUhci s) x →
      (∀ i < (ePhnum (fileAt s toLoadFrom) 0#32).toNat,
        ¬ (tableEntry (fileAt s toLoadFrom) i).Destination x) →
      after.mem x = s.mem x := by
  obtain ⟨magic, entsize, confined, disjoint⟩ := loadable
  have size : (ePhentsize (fileAt s toLoadFrom) 0#32).setWidth 32 = 32#32 := by
    rw [entsize]
    rfl
  have same : ∀ i, tableEntry (fileAt s toLoadFrom) i = entry (fileAt s toLoadFrom) 32#32 i := by
    intro i
    rw [tableEntry, size]
  rw [size] at confined
  simp only [same] at disjoint ⊢
  obtain ⟨m, after, returned, memory, kept, _⟩ :=
    parse_elf_segments addUhci own s toLoadFrom magic confined spared
  refine ⟨after, returned, ?_⟩
  generalize fileAt s toLoadFrom = file at *
  have held : ∀ i < (ePhnum file 0#32).toNat, ∀ x, (entry file 32#32 i).Destination x →
      some (after.mem x) = (entry file 32#32 i).segment file x := by
    intro i below x inside
    rw [memory, segment_some _ _ _ inside]
    refine congrArg some (overlays_held _ m _ x _ i below (segment_some _ _ _ inside) ?_)
    intro k other different
    exact segment_none _ _ _ (disjoint i below k other (Ne.symm different) x inside)
  have placed : ∀ i < (ePhnum file 0#32).toNat, (entry file 32#32 i).pType ≠ PT_NULL → ∀ j,
      j < max (entry file 32#32 i).pFilesz.toNat (entry file 32#32 i).pMemsz.toNat →
      after.mem ((entry file 32#32 i).pPaddr + BitVec.ofNat 32 j) =
        if j < (entry file 32#32 i).pFilesz.toNat then
          file ((entry file 32#32 i).pOffset + BitVec.ofNat 32 j) else 0#8 := by
    intro i below used j length
    have word : j < 2 ^ 32 := by omega
    have offset : (BitVec.ofNat 32 j).toNat = j := by
      rw [BitVec.toNat_ofNat, Nat.mod_eq_of_lt word]
    have inside : (entry file 32#32 i).Destination ((entry file 32#32 i).pPaddr + BitVec.ofNat 32 j) :=
      ⟨used, offset_in_span _ _ _ (offset.symm ▸ length)⟩
    have value := held i below _ inside
    rw [Elf32Phdr.segment, if_neg used, spread_at _ _ _ j length word] at value
    exact Option.some.inj value
  refine ⟨fun i below used => ⟨fun j length => ?_, fun j above length => ?_⟩, fun x notBuffer notText rest => ?_⟩
  · rw [placed i below used j (Nat.lt_of_lt_of_le length (Nat.le_max_left _ _)), if_pos length]
  · rw [placed i below used j (Nat.lt_of_lt_of_le length (Nat.le_max_right _ _)), if_neg (Nat.not_lt.mpr above)]
  · rw [memory, overlays_rest _ _ _ _ fun i below => segment_none _ _ _ (rest i below)]
    exact kept x notBuffer notText

end Parse

/-- A file of two segments: two bytes at offset 116 are to be at 1 MiB with two
zeros behind them, and the byte behind these at 1 MiB and 4 KiB with one. -/
def tinyFile (mag1 : Byte) : List Byte :=
  [0x7F#8, mag1, 0x4C#8, 0x46#8] ++ List.replicate 24 0#8 ++ [52#8, 0#8, 0#8, 0#8] ++
    List.replicate 10 0#8 ++ [32#8, 0#8, 2#8, 0#8] ++ List.replicate 6 0#8 ++
    [1#8, 0#8, 0#8, 0#8, 116#8, 0#8, 0#8, 0#8] ++ List.replicate 6 0#8 ++ [0x10#8, 0#8] ++
    [2#8, 0#8, 0#8, 0#8, 4#8, 0#8, 0#8, 0#8] ++ List.replicate 8 0#8 ++
    [1#8, 0#8, 0#8, 0#8, 118#8, 0#8, 0#8, 0#8] ++ List.replicate 5 0#8 ++ [0x10#8, 0x10#8, 0#8] ++
    [1#8, 0#8, 0#8, 0#8, 2#8, 0#8, 0#8, 0#8] ++ List.replicate 8 0#8 ++ [0xB8#8, 0x01#8, 0xC3#8]

def tinyStage (mag1 : Byte) : Stage2 :=
  ⟨fun _ => 0xAA#8, 0xB8000#32, ⟨0#32, fun _ => 0xFFFFFFFF#32⟩,
    ⟨fun n => (tinyFile mag1).getD (n - 1024) 0#8, fun _ => 0#8, 0⟩⟩

def tinyOwn : OwnMemory := ⟨0x8000#32, fun _ _ => 0xCC#8⟩

theorem tiny_header (mag1 : Byte) (known : mag1 = 0x45#8 ∨ mag1 = 0#8) :
    eIdent (fileAt (tinyStage mag1) 1024#32) 0#32 0 = EHDR_MAG0 ∧
    ePhnum (fileAt (tinyStage mag1) 1024#32) 0#32 = 2#16 ∧
    ePhentsize (fileAt (tinyStage mag1) 1024#32) 0#32 = 32#16 ∧
    ePhoff (fileAt (tinyStage mag1) 1024#32) 0#32 = 52#32 ∧
    entry (fileAt (tinyStage mag1) 1024#32) 32#32 0 = ⟨1#32, 116#32, 0x100000#32, 2#32, 4#32⟩ ∧
    entry (fileAt (tinyStage mag1) 1024#32) 32#32 1 = ⟨1#32, 118#32, 0x101000#32, 1#32, 2#32⟩ := by
  rcases known with rfl | rfl <;> decide

/-- The headers say the same of both: few bytes, and in different pages above 1 MiB. -/
theorem tiny_entry (mag1 : Byte) (known : mag1 = 0x45#8 ∨ mag1 = 0#8) (i : Nat)
    (below : i < (ePhnum (fileAt (tinyStage mag1) 1024#32) 0#32).toNat) :
    i < 2 ∧ (∀ j < (entry (fileAt (tinyStage mag1) 1024#32) 32#32 i).pFilesz.toNat,
      (entry (fileAt (tinyStage mag1) 1024#32) 32#32 i).pOffset.toNat + j < 0x10000) ∧
    ∀ x, (entry (fileAt (tinyStage mag1) 1024#32) 32#32 i).Destination x → x.toNat / 4096 = 256 + i := by
  obtain ⟨_, count, _, _, first, second⟩ := tiny_header mag1 known
  rw [count] at below
  have two : i < 2 := below
  have span : ∀ a : Word, a.toNat % 4096 = 0 → ∀ n ≤ 4, ∀ x, InSpan a n x → x.toNat / 4096 = a.toNat / 4096 := by
    intro a page n few x inside
    have room := a.isLt
    rw [in_span_iff _ _ _ (by omega)] at inside
    omega
  refine ⟨two, ?_⟩
  rcases (show i = 0 ∨ i = 1 by omega) with rfl | rfl
  · rw [first]
    refine ⟨fun j less => ?_, fun x inside => span 0x100000#32 rfl 4 (by decide) x inside.2⟩
    have short : j < 2 := less
    show 116 + j < 0x10000
    omega
  · rw [second]
    refine ⟨fun j less => ?_, fun x inside => span 0x101000#32 rfl 2 (by decide) x inside.2⟩
    have short : j < 1 := less
    show 118 + j < 0x10000
    omega

theorem tiny_confined (mag1 : Byte) (known : mag1 = 0x45#8 ∨ mag1 = 0#8) :
    Confined (fileAt (tinyStage mag1) 1024#32) 32#32 ∧
      StackSpared 0x8000#32 (fileAt (tinyStage mag1) 1024#32) 32#32 := by
  have table := (tiny_header mag1 known).2.2.2.1
  refine ⟨⟨fun i below => ?_, fun i below _ => (tiny_entry mag1 known i below).2.1,
    fun i below x inside => ?_⟩, fun i below x inside => ?_⟩
  · have two := (tiny_entry mag1 known i below).1
    rw [table]
    show 52 + 32 * i + 32 ≤ 0x10000
    omega
  · have page := (tiny_entry mag1 known i below).2.2 x inside
    omega
  · have page := (tiny_entry mag1 known i below).2.2 x inside
    omega

theorem tiny_loadable : Loadable (fileAt (tinyStage 0x45#8) 1024#32) := by
  obtain ⟨magic, _, entsize, _⟩ := tiny_header 0x45#8 (Or.inl rfl)
  have size : (ePhentsize (fileAt (tinyStage 0x45#8) 1024#32) 0#32).setWidth 32 = 32#32 := by
    rw [entsize]
    rfl
  have page := fun i below => (tiny_entry 0x45#8 (Or.inl rfl) i below).2.2
  refine ⟨magic, entsize, size ▸ (tiny_confined 0x45#8 (Or.inl rfl)).1,
    fun i below k other different x here there => ?_⟩
  rw [tableEntry, size] at here there
  have first := page i below x here
  have second := page k other x there
  omega

theorem parse_elf_loads_tiny : ∃ after,
    parseElf Loader.addUhci tinyOwn (tinyStage 0x45#8) 1024#32 = some after ∧
    after.mem 0x100001#32 = 0x01#8 ∧ after.mem 0x100003#32 = 0#8 ∧ after.mem 0x101000#32 = 0xC3#8 ∧
    after.mem 0x101001#32 = 0#8 := by
  have known : (0x45#8 : Byte) = 0x45#8 ∨ (0x45#8 : Byte) = 0#8 := Or.inl rfl
  have count := (tiny_header 0x45#8 known).2.1
  have first : tableEntry (fileAt (tinyStage 0x45#8) 1024#32) 0 =
      ⟨1#32, 116#32, 0x100000#32, 2#32, 4#32⟩ := by decide
  have second : tableEntry (fileAt (tinyStage 0x45#8) 1024#32) 1 =
      ⟨1#32, 118#32, 0x101000#32, 1#32, 2#32⟩ := by decide
  have bytes : fileAt (tinyStage 0x45#8) 1024#32 (116#32 + BitVec.ofNat 32 1) = 0x01#8 ∧
      fileAt (tinyStage 0x45#8) 1024#32 (118#32 + BitVec.ofNat 32 0) = 0xC3#8 := by decide
  obtain ⟨after, returned, loaded, _⟩ := parse_elf_loads Loader.addUhci tinyOwn (tinyStage 0x45#8) 1024#32
    tiny_loadable (tiny_confined 0x45#8 known).2
  have one := loaded 0 (by rw [count]; decide)
  have two := loaded 1 (by rw [count]; decide)
  rw [first] at one
  rw [second] at two
  obtain ⟨copied, zeros⟩ := one (by decide)
  obtain ⟨copied', zeros'⟩ := two (by decide)
  exact ⟨after, returned, (copied 1 (by decide)).trans bytes.1, zeros 3 (by decide) (by decide),
    (copied' 0 (by decide)).trans bytes.2, zeros' 1 (by decide) (by decide)⟩

section Parse
variable (addUhci : AddUhci) (own : OwnMemory) (s : Stage2) (toLoadFrom : Word)

/-- What holds of every disk content: without the first byte only text is printed;
with it the destinations of the headers are written to, unless one of them is where
the loader itself is; they are those of the file if nothing of the table, the segments
and the destinations is out of place, and then nothing is copied that was not read. -/
theorem parse_elf_contained :
    (eIdent (fileAt s toLoadFrom) 0#32 0 ≠ EHDR_MAG0 →
      ∃ after, parseElf addUhci own s toLoadFrom = some after ∧ ∀ x, ¬ InSpan bufferStart 0x10000 x →
        ¬ InSpan s.cursor (2 * printed addUhci s + 38) x → after.mem x = s.mem x) ∧
    (eIdent (fileAt s toLoadFrom) 0#32 0 = EHDR_MAG0 →
      (parseElf addUhci own s toLoadFrom = none ↔ ∃ i < (ePhnum (fileAt s toLoadFrom) 0#32).toNat,
        ∃ header, headerRead addUhci own s toLoadFrom i = some header ∧ header.Overwrites own.stackLow) ∧
      (∀ after, parseElf addUhci own s toLoadFrom = some after → ∀ x, ¬ InSpan bufferStart 0x10000 x →
        ¬ InSpan s.cursor (2 * printed addUhci s) x →
        (∀ i < (ePhnum (fileAt s toLoadFrom) 0#32).toNat, ∀ header,
          headerRead addUhci own s toLoadFrom i = some header → ¬ header.Destination x) →
        after.mem x = s.mem x) ∧
      (Confined (fileAt s toLoadFrom) 32#32 → StackSpared own.stackLow (fileAt s toLoadFrom) 32#32 →
        ∃ after, parseElf addUhci own s toLoadFrom = some after ∧
          (∀ i < (ePhnum (fileAt s toLoadFrom) 0#32).toNat,
            headerRead addUhci own s toLoadFrom i = some (entry (fileAt s toLoadFrom) 32#32 i)) ∧
          ∀ i < (ePhnum (fileAt s toLoadFrom) 0#32).toNat, ∀ x,
            (entry (fileAt s toLoadFrom) 32#32 i).Destination x →
            after.mem x = 0#8 ∨
              ∃ offset : Word, offset.toNat < 0x10000 ∧ after.mem x = fileAt s toLoadFrom offset)) := by
  refine ⟨parse_elf_rejected addUhci own s toLoadFrom, fun magic => ?_⟩
  obtain ⟨halts, outside⟩ := parse_elf_taken addUhci own s toLoadFrom magic
  refine ⟨halts, outside, fun confined spared => ?_⟩
  obtain ⟨m, after, returned, memory, _, headers⟩ :=
    parse_elf_segments addUhci own s toLoadFrom magic confined spared
  refine ⟨after, returned, headers, fun i below x inside => ?_⟩
  rw [memory]
  rcases overlays_cases (fun i => (entry (fileAt s toLoadFrom) 32#32 i).segment (fileAt s toLoadFrom)) m
      (ePhnum (fileAt s toLoadFrom) 0#32).toNat x with ⟨none, _⟩ | ⟨k, other, value⟩
  · have placed := none i below
    rw [segment_some _ _ _ inside] at placed
    exact absurd placed (Option.some_ne_none _)
  · generalize overlays _ _ _ x = byte at value ⊢
    by_cases placed : (entry (fileAt s toLoadFrom) 32#32 k).Destination x
    · rw [segment_some _ _ _ placed] at value
      obtain rfl := Option.some.inj value
      split
      next filed =>
        refine Or.inr ⟨_, ?_, rfl⟩
        have range := confined.ranges k other placed.1 _ filed
        rwa [BitVec.toNat_add, Nat.mod_eq_of_lt (by omega)]
      next => exact Or.inl rfl
    · rw [segment_none _ _ _ placed] at value
      exact absurd value.symm (Option.some_ne_none _)

end Parse

theorem parse_elf_contained_tiny :
    headerRead Loader.addUhci tinyOwn (tinyStage 0x45#8) 1024#32 1 =
      some ⟨1#32, 118#32, 0x101000#32, 1#32, 2#32⟩ ∧
    ∃ after, parseElf Loader.addUhci tinyOwn (tinyStage 0x45#8) 1024#32 = some after := by
  obtain ⟨magic, count, _, _, _, header⟩ := tiny_header 0x45#8 (Or.inl rfl)
  obtain ⟨confined, spared⟩ := tiny_confined 0x45#8 (Or.inl rfl)
  have taken := (parse_elf_contained Loader.addUhci tinyOwn (tinyStage 0x45#8) 1024#32).2 magic
  obtain ⟨after, returned, headers, _⟩ := taken.2.2 confined spared
  exact ⟨(headers 1 (by rw [count]; decide)).trans (congrArg some header), after, returned⟩

/-- A file whose second byte is wrong is loaded all the same. -/
theorem unchecked_image_loaded : eIdent (fileAt (tinyStage 0#8) 1024#32) 0#32 1 ≠ 0x45#8 ∧
    ¬ InSpan bufferStart 0x10000 0x100000#32 ∧ ¬ InSpan 0xB8000#32 0x8000 0x100000#32 ∧
    (tinyStage 0#8).mem 0x100000#32 = 0xAA#8 ∧
    ∃ after, parseElf Loader.addUhci tinyOwn (tinyStage 0#8) 1024#32 = some after ∧
      after.mem 0x100000#32 = 0xB8#8 := by
  refine ⟨by decide, by decide, by decide, rfl, ?_⟩
  obtain ⟨magic, count, _, _, header, header'⟩ := tiny_header 0#8 (Or.inr rfl)
  obtain ⟨confined, spared⟩ := tiny_confined 0#8 (Or.inr rfl)
  obtain ⟨m, after, returned, memory, _⟩ :=
    parse_elf_segments Loader.addUhci tinyOwn (tinyStage 0#8) 1024#32 magic confined spared
  refine ⟨after, returned, ?_⟩
  have placed : (entry (fileAt (tinyStage 0#8) 1024#32) 32#32 0).segment (fileAt (tinyStage 0#8) 1024#32)
      0x100000#32 = some 0xB8#8 := by
    rw [header]
    decide
  have elsewhere : (entry (fileAt (tinyStage 0#8) 1024#32) 32#32 1).segment (fileAt (tinyStage 0#8) 1024#32)
      0x100000#32 = none := by
    rw [header']
    decide
  rw [memory, count]
  refine overlays_held _ m 2 _ _ 0 (by decide) placed fun k below other => ?_
  obtain rfl : k = 1 := by omega
  exact elsewhere

end GargOS.Loader
