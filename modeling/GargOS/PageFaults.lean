import GargOS.Formats
import GargOS.FrameBitset
import GargOS.PageLookup
import GargOS.Scheduler
import GargOS.Lib.Delimited

/-!
`page_fault_handler` of paging.c and `print_regs` of system.c: what they print,
and that all of it can be read back.
-/

namespace GargOS
open ByteMemory Numerals Delimited
open Printing (IsString converted hexPrefix hexadecimal decimal digitValue digitChar)

section Source
variable {σ : Type} (putc : σ → Byte → σ) (v : Memory) (literal : String → Word) (fuel : Nat)

/-- `printf`, for a format that the compiler has put at `literal format`. -/
def printfLiteral (format : String) (args : List Word) (out : σ) : Option σ :=
  (Printing.printf putc v (literal format) (fun k => args.getD k 0#32) fuel out).map Printing.Format.out

def regsFormat : String :=
  "CS: %x\tDS: %x\tES: %x\tFS: %x\nGS: %x\tEDI: %x\tESI: %x\tEBP: %x\tESP: %x\nEBX: %x\tEDX: %x\tECX: %x\tEAX: %x\nINT_NO: %x\tERR_CODE: %x\tEIP: %x\nEFLAGS: %x\tUSERESP: %x\tSS: %x\t"

/-- In the order in which `print_regs` prints them. -/
def printedRegs (regs : Regs) : List Word :=
  [regs.cs, regs.ds, regs.es, regs.fs, regs.gs, regs.edi, regs.esi, regs.ebp, regs.esp, regs.ebx, regs.edx,
    regs.ecx, regs.eax, regs.intNo, regs.errCode, regs.eip, regs.eflags, regs.useresp, regs.ss]

def printRegs (regs : Regs) (out : σ) : Option σ :=
  printfLiteral putc v literal fuel regsFormat (printedRegs regs) out

/-- `page_fault_handler` up to its `for(;;)`. -/
def pageFaultHandler (s : Paging) (r : Regs) (cr2 cr3 : Word) (out : σ) : Option σ := do
  let printf := printfLiteral putc v literal fuel
  let errcode := r.errCode
  let out ← printf "\nFaulty Directory: %x" [cr3] out
  let out ← printf "\nThe fault occurred at: %x" [cr2] out
  let out ← printf "\nThe page was %spresent\n" [literal (if errcode &&& 1#32 ≠ 0#32 then "" else "not ")] out
  let out ← printf "The fault was a %s" [literal (if errcode &&& 2#32 ≠ 0#32 then "write\n" else "read\n")] out
  let out ← printf "Processor was running in %s"
    [literal (if errcode &&& 4#32 ≠ 0#32 then "user mode\n" else "kernel mode\n")] out
  let out ← printf "Reserved bits were %soverwritten.\n"
    [literal (if errcode &&& 8#32 ≠ 0#32 then "being " else "not being ")] out
  let out ← printf "The fault %sduring an instruction fetch.\n"
    [literal (if errcode &&& 16#32 ≠ 0#32 then "occurred " else "did not occur ")] out
  let bit ← (getBitset s cr2).toOption
  let out ← printf "Bitset at that address: %d" [bit] out
  let out ← printf "\nPage for that address: %x" [getPage s s.currentDir cr2] out
  let out ← printRegs putc v literal fuel r out
  printf "\nSystem Halted!" [] out

end Source

def pageFaultLiterals : List String :=
  ["\nFaulty Directory: %x", "\nThe fault occurred at: %x", "\nThe page was %spresent\n", "", "not ",
    "The fault was a %s", "write\n", "read\n", "Processor was running in %s", "user mode\n", "kernel mode\n",
    "Reserved bits were %soverwritten.\n", "being ", "not being ", "The fault %sduring an instruction fetch.\n",
    "occurred ", "did not occur ", "Bitset at that address: %d", "\nPage for that address: %x", regsFormat,
    "\nSystem Halted!"]

structure PageFault where
  directory : Word
  address : Word
  bit : Bool
  page : Word
  regs : Regs

def writeHex (a : Word) : List Byte := hexPrefix ++ hexadecimal a

def regLabels : List (List Byte) :=
  ["\tDS: ", "\tES: ", "\tFS: ", "\nGS: ", "\tEDI: ", "\tESI: ", "\tEBP: ", "\tESP: ", "\nEBX: ", "\tEDX: ",
    "\tECX: ", "\tEAX: ", "\nINT_NO: ", "\tERR_CODE: ", "\tEIP: ", "\nEFLAGS: ", "\tUSERESP: ", "\tSS: ",
    "\t"].map textOf

def regsText (regs : Regs) : List Byte := textOf "CS: " ++ fields writeHex regLabels (printedRegs regs)

def sentence (before yes no after : String) (flag : Bool) : List Byte :=
  textOf before ++ textOf (if flag then yes else no) ++ textOf after

def PageFault.flag (f : PageFault) (mask : Word) : Bool := f.regs.errCode &&& mask ≠ 0#32

/-- The report up to the page. -/
def PageFault.head (f : PageFault) : List Byte :=
  textOf "\nFaulty Directory: " ++ writeHex f.directory ++
  (textOf "\nThe fault occurred at: " ++ writeHex f.address) ++
  sentence "\nThe page was " "" "not " "present\n" (f.flag 1#32) ++
  sentence "The fault was a " "write\n" "read\n" "" (f.flag 2#32) ++
  sentence "Processor was running in " "user mode\n" "kernel mode\n" "" (f.flag 4#32) ++
  sentence "Reserved bits were " "being " "not being " "overwritten.\n" (f.flag 8#32) ++
  sentence "The fault " "occurred " "did not occur " "during an instruction fetch.\n" (f.flag 16#32) ++
  (textOf "Bitset at that address: " ++ decimal (if f.bit then 1#32 else 0#32))

def PageFault.text (f : PageFault) : List Byte :=
  f.head ++ (textOf "\nPage for that address: " ++ writeHex f.page) ++
  regsText f.regs ++
  textOf "\nSystem Halted!"

/-! What is printed. -/

def hexParts (labels : List (List Byte)) : List Part :=
  labels.flatMap fun label => [.conversion 120#8, .literal label]

theorem shown_hex (m : Memory) (valist : Nat → Word) (labels : List (List Byte)) (values : List Word) (k : Nat)
    (length : values.length = labels.length) (args : ∀ i < values.length, valist (k + i) = values.getD i 0#32) :
    shown m valist (hexParts labels) k = fields writeHex labels values := by
  induction labels generalizing values k with
  | nil => rfl
  | cons label labels ih =>
      cases values with
      | nil => simp at length
      | cons a values =>
          have first := args 0 (Nat.succ_pos _)
          rw [Nat.add_zero, List.getD_cons_zero] at first
          have later := ih values (k + 1) (Nat.succ.inj length) fun i bound => by
            have next := args (i + 1) (Nat.succ_lt_succ bound)
            rw [List.getD_cons_succ] at next
            rw [← next]
            congr 1
            omega
          show converted m (valist k) 120#8 ++ (label ++ shown m valist (hexParts labels) (k + 1)) = _
          rw [later, first, fields, List.append_assoc]
          rfl

theorem literals_short : ∀ text ∈ pageFaultLiterals, (textOf text).length < 512 := by decide +kernel

theorem regs_parts : textOf regsFormat = spelled (.literal (textOf "CS: ") :: hexParts regLabels) ∧
    ∀ part ∈ Part.literal (textOf "CS: ") :: hexParts regLabels, part.Proper := by
  decide +kernel

section Printed
variable {σ : Type} (putc : σ → Byte → σ) (v : Memory) (literal : String → Word) (fuel : Nat)
  (enough : 2 ^ 33 ≤ fuel) (literals : ∀ text ∈ pageFaultLiterals, IsString v (literal text) (textOf text))
include enough literals

theorem literal_printed (format : String) (member : format ∈ pageFaultLiterals) (parts : List Part)
    (shape : textOf format = spelled parts ∧ ∀ part ∈ parts, part.Proper) (args : List Word) (out : σ) :
    printfLiteral putc v literal fuel format args out =
      some ((shown v (fun k => args.getD k 0#32) parts 0).foldl putc out) := by
  have short := literals_short format member
  exact format_printed putc v fuel out (literal format) _ (textOf format) parts shape.1 shape.2 (by omega)
    (literals format member)

theorem hex_printed (format : String) (member : format ∈ pageFaultLiterals) (before : List Byte)
    (shape : textOf format = spelled [.literal before, .conversion 120#8] ∧ Part.Proper (.literal before))
    (a : Word) (out : σ) :
    printfLiteral putc v literal fuel format [a] out = some ((before ++ writeHex a).foldl putc out) := by
  have printed := literal_printed putc v literal fuel enough literals format member _ ⟨shape.1, by
    intro part among
    rcases List.mem_cons.mp among with rfl | rest
    · exact shape.2
    · rw [List.mem_singleton.mp rest]
      decide⟩ [a] out
  rw [printed]
  simp only [shown, List.append_nil]
  rfl

theorem sentence_printed (format before yes no after : String) (member : format ∈ pageFaultLiterals)
    (yesMember : yes ∈ pageFaultLiterals) (noMember : no ∈ pageFaultLiterals)
    (shape : textOf format = spelled [.literal (textOf before), .conversion 115#8, .literal (textOf after)] ∧
      Part.Proper (.literal (textOf before)) ∧ Part.Proper (.literal (textOf after))) (flag : Prop) [Decidable flag]
    (out : σ) :
    printfLiteral putc v literal fuel format [literal (if flag then yes else no)] out =
      some ((sentence before yes no after (decide flag)).foldl putc out) := by
  have printed := literal_printed putc v literal fuel enough literals format member _ ⟨shape.1, by
    intro part among
    rcases List.mem_cons.mp among with rfl | rest
    · exact shape.2.1
    · rcases List.mem_cons.mp rest with rfl | last
      · exact by decide
      · rw [List.mem_singleton.mp last]
        exact shape.2.2⟩ [literal (if flag then yes else no)] out
  have text : ∀ choice ∈ pageFaultLiterals, Printing.string v (literal choice) = textOf choice := by
    intro choice among
    have short := literals_short choice among
    exact string_text v _ _ (literals choice among) (by omega)
  have string : converted v (literal (if flag then yes else no)) 115#8 = textOf (if flag then yes else no) := by
    show Printing.string v _ = _
    split
    next => exact text yes yesMember
    next => exact text no noMember
  rw [printed]
  simp only [shown, List.getD_cons_zero, string, List.append_nil, sentence, decide_eq_true_eq, List.append_assoc]

theorem regs_printed (regs : Regs) (out : σ) :
    printRegs putc v literal fuel regs out = some ((regsText regs).foldl putc out) := by
  have printed := literal_printed putc v literal fuel enough literals regsFormat
    (by simp [pageFaultLiterals]) _ regs_parts
    (printedRegs regs) out
  have text := shown_hex v (fun k => (printedRegs regs).getD k 0#32) regLabels (printedRegs regs) 0 rfl fun i _ => by
    rw [Nat.zero_add]
  rw [printRegs, printed, shown, text]
  rfl

theorem page_fault_printed (s : Paging) (r : Regs) (cr2 cr3 : Word) (out : σ) :
    pageFaultHandler putc v literal fuel s r cr2 cr3 out =
      some ((PageFault.text ⟨cr3, cr2, s.bit (cr2.toNat / 4096), getPage s s.currentDir cr2, r⟩).foldl putc out) := by
  have hex := hex_printed putc v literal fuel enough literals
  have speaks := sentence_printed putc v literal fuel enough literals
  have number := literal_printed putc v literal fuel enough literals "Bitset at that address: %d"
    (by simp [pageFaultLiterals]) [.literal (textOf "Bitset at that address: "), .conversion 100#8] (by decide +kernel)
  have halted := literal_printed putc v literal fuel enough literals "\nSystem Halted!"
    (by simp [pageFaultLiterals]) [.literal (textOf "\nSystem Halted!")] (by decide +kernel)
  have bit : (getBitset s cr2).toOption = some (if s.bit (cr2.toNat / 4096) then 1#32 else 0#32) := by
    rw [get_bitset_eq]
    rfl
  have decimals : ∀ a : Word, shown v (fun k => [a].getD k 0#32)
      [.literal (textOf "Bitset at that address: "), .conversion 100#8] 0 =
      textOf "Bitset at that address: " ++ decimal a := by
    intro a
    simp only [shown, List.append_nil]
    rfl
  have last : shown v (fun k => ([] : List Word).getD k 0#32) [.literal (textOf "\nSystem Halted!")] 0 =
      textOf "\nSystem Halted!" := by
    simp only [shown, List.append_nil]
  unfold pageFaultHandler
  simp only [bit, Option.bind_eq_bind, Option.bind_some, number, halted, decimals, last,
    regs_printed putc v literal fuel enough literals,
    hex "\nFaulty Directory: %x" (by simp [pageFaultLiterals]) (textOf "\nFaulty Directory: ") (by decide +kernel),
    hex "\nThe fault occurred at: %x" (by simp [pageFaultLiterals]) (textOf "\nThe fault occurred at: ")
      (by decide +kernel),
    hex "\nPage for that address: %x" (by simp [pageFaultLiterals]) (textOf "\nPage for that address: ")
      (by decide +kernel),
    speaks "\nThe page was %spresent\n" "\nThe page was " "" "not " "present\n" (by simp [pageFaultLiterals])
      (by simp [pageFaultLiterals]) (by simp [pageFaultLiterals]) (by decide +kernel),
    speaks "The fault was a %s" "The fault was a " "write\n" "read\n" "" (by simp [pageFaultLiterals])
      (by simp [pageFaultLiterals]) (by simp [pageFaultLiterals]) (by decide +kernel),
    speaks "Processor was running in %s" "Processor was running in " "user mode\n" "kernel mode\n" ""
      (by simp [pageFaultLiterals]) (by simp [pageFaultLiterals]) (by simp [pageFaultLiterals]) (by decide +kernel),
    speaks "Reserved bits were %soverwritten.\n" "Reserved bits were " "being " "not being " "overwritten.\n"
      (by simp [pageFaultLiterals]) (by simp [pageFaultLiterals]) (by simp [pageFaultLiterals]) (by decide +kernel),
    speaks "The fault %sduring an instruction fetch.\n" "The fault " "occurred " "did not occur "
      "during an instruction fetch.\n" (by simp [pageFaultLiterals]) (by simp [pageFaultLiterals])
      (by simp [pageFaultLiterals]) (by decide +kernel)]
  simp only [PageFault.text, PageFault.head, PageFault.flag, List.foldl_append]

end Printed
/-! Reading a report. -/

def isNumber (c : Byte) : Bool := (digitValue c).isSome || c = 120#8

theorem numeral_digits (base : Nat) (many : 1 < base) (few : base ≤ 16) (a : Nat) :
    ∀ c ∈ (numeral base a).map digitChar, (digitValue c).isSome = true := by
  intro c member
  obtain ⟨d, digit, rfl⟩ := List.mem_map.mp member
  have valid := numeral_valid base many a d digit
  rw [Printing.digit_value_char d (by omega)]
  rfl

theorem hexadecimal_read (a : Word) : readNumeral digitValue 16 (hexadecimal a) = some a.toNat :=
  (numeral_spells 16 (by decide) digitValue digitChar Printing.digit_value_char a.toNat).reads

theorem write_hex_injective : Function.Injective writeHex := by
  intro a b same
  have digits := congrArg (readNumeral digitValue 16) (List.append_cancel_left same)
  rw [hexadecimal_read, hexadecimal_read] at digits
  exact BitVec.eq_of_toNat_eq (Option.some.inj digits)

theorem write_hex_digits (a : Word) : ∀ c ∈ writeHex a, isNumber c = true := by
  intro c member
  rcases List.mem_append.mp member with sign | digit
  · have both : ∀ c ∈ hexPrefix, isNumber c = true := by decide
    exact both c sign
  · rw [isNumber, numeral_digits 16 (by decide) (Nat.le_refl _) a.toNat c digit]
    rfl

theorem bit_decimal (b : Bool) : decimal (if b then 1#32 else 0#32) = [if b then 49#8 else 48#8] := by
  cases b with
  | true => simp [decimal, numeral, digitChar]
  | false => simp [decimal, numeral, digitChar]

theorem hex_read (label : String) (ends : ∃ c ∈ textOf label, isNumber c = false) (a b : Word)
    (rest rest' : List Byte) (same : writeHex a ++ (textOf label ++ rest) = writeHex b ++ (textOf label ++ rest')) :
    a = b ∧ rest = rest' := by
  rw [← List.append_assoc, ← List.append_assoc] at same
  exact number_separates isNumber writeHex write_hex_injective write_hex_digits _ ends a b rest rest' same

/-- The two endings of a sentence begin differently. -/
theorem sentence_read (yes no after : String) (inYes : 0 < (textOf yes ++ textOf after).length)
    (inNo : 0 < (textOf no ++ textOf after).length)
    (different : (textOf yes ++ textOf after)[0] ≠ (textOf no ++ textOf after)[0]) (a b : Bool) (rest rest' : List Byte)
    (same : textOf (if a then yes else no) ++ (textOf after ++ rest) =
      textOf (if b then yes else no) ++ (textOf after ++ rest')) : a = b ∧ rest = rest' := by
  have chosen : ∀ c : Bool, textOf (if c then yes else no) ++ textOf after =
      if c then textOf yes ++ textOf after else textOf no ++ textOf after := by
    intro c
    cases c <;> rfl
  rw [← List.append_assoc, ← List.append_assoc, chosen, chosen] at same
  exact choice_separates _ _ 0 inYes inNo different a b rest rest' same

theorem printed_regs_injective (r r' : Regs) (same : printedRegs r = printedRegs r') : r = r' := by
  simp only [printedRegs, List.cons.injEq, and_true] at same
  cases r
  cases r'
  simp only [Regs.mk.injEq]
  tauto

theorem labels_end : ∀ label ∈ regLabels, ∃ c ∈ label, isNumber c = false := by decide +kernel

theorem report_read (f g : PageFault) (same : f.text = g.text) : f = g := by
  simp only [PageFault.text, PageFault.head, sentence, regsText, bit_decimal, List.append_assoc] at same
  obtain ⟨directory, same⟩ := hex_read "\nThe fault occurred at: " (by decide +kernel) _ _ _ _
    (List.append_cancel_left same)
  obtain ⟨address, same⟩ := hex_read "\nThe page was " (by decide +kernel) _ _ _ _ same
  obtain ⟨_, same⟩ := sentence_read "" "not " "present\n" (by decide +kernel) (by decide +kernel)
    (by decide +kernel) _ _ _ _ same
  obtain ⟨_, same⟩ := sentence_read "write\n" "read\n" "" (by decide +kernel) (by decide +kernel)
    (by decide +kernel) _ _ _ _ (List.append_cancel_left same)
  obtain ⟨_, same⟩ := sentence_read "user mode\n" "kernel mode\n" "" (by decide +kernel) (by decide +kernel)
    (by decide +kernel) _ _ _ _ (List.append_cancel_left same)
  obtain ⟨_, same⟩ := sentence_read "being " "not being " "overwritten.\n" (by decide +kernel) (by decide +kernel)
    (by decide +kernel) _ _ _ _ (List.append_cancel_left same)
  obtain ⟨_, same⟩ := sentence_read "occurred " "did not occur " "during an instruction fetch.\n"
    (by decide +kernel) (by decide +kernel) (by decide +kernel) _ _ _ _ (List.append_cancel_left same)
  obtain ⟨shown, same⟩ := List.cons.inj (List.append_cancel_left same)
  have apart : ∀ a b : Bool, (if a then 49#8 else 48#8 : Byte) = (if b then 49#8 else 48#8) → a = b := by decide
  have bit := apart _ _ shown
  obtain ⟨page, same⟩ := hex_read "CS: " (by decide +kernel) _ _ _ _ (List.append_cancel_left same)
  obtain ⟨regs, _⟩ := fields_separate isNumber writeHex write_hex_injective write_hex_digits regLabels labels_end
    (printedRegs f.regs) (printedRegs g.regs) rfl rfl _ _ same
  have all := printed_regs_injective _ _ regs
  cases f
  cases g
  simp only [PageFault.mk.injEq]
  exact ⟨directory, address, bit, page, all⟩

/-- The digits of the page run on into the `C` of `CS`. -/
theorem page_misread (a : Word) (rest : List Byte) :
    readNumeral digitValue 16 ((hexadecimal a ++ (textOf "CS: " ++ rest)).takeWhile fun c => (digitValue c).isSome) =
      some (16 * a.toNat + 12) := by
  have label : textOf "CS: " = [67#8, 83#8, 58#8, 32#8] := by decide +kernel
  have digits : (hexadecimal a ++ (textOf "CS: " ++ rest)).takeWhile (fun c => (digitValue c).isSome) =
      hexadecimal a ++ [67#8] := by
    have own : ∀ c ∈ hexadecimal a, (digitValue c).isSome = true :=
      numeral_digits 16 (by decide) (Nat.le_refl _) a.toNat
    rw [List.takeWhile_append_of_pos own, label]
    rfl
  have value : readDigit digitValue 16 a.toNat 67#8 = some (a.toNat * 16 + 12) := by
    have c : digitValue 67#8 = some 12 := by decide
    simp only [readDigit, c, Option.bind_eq_bind, Option.bind_some]
    rfl
  have read := hexadecimal_read a
  rw [readNumeral] at read
  rw [digits, readNumeral, List.foldlM_append, read, Option.bind_eq_bind, Option.bind_some, List.foldlM_cons, value,
    Nat.mul_comm]
  rfl

theorem text_split (f : PageFault) : f.text = f.head ++ textOf "\nPage for that address: 0x" ++
    (hexadecimal f.page ++ (textOf "CS: " ++ (fields writeHex regLabels (printedRegs f.regs) ++
      textOf "\nSystem Halted!"))) := by
  have label : textOf "\nPage for that address: 0x" = textOf "\nPage for that address: " ++ hexPrefix := by
    decide +kernel
  rw [label, PageFault.text, regsText, writeHex]
  simp only [List.append_assoc]

/-- `page_fault_handler` prints a report from which the directory, the address,
its bit and its page, and every register can be told; only the page does not
stand off from what follows it. -/
theorem page_fault_told (v : Memory) (literal : String → Word) (fuel : Nat) (enough : 2 ^ 33 ≤ fuel)
    (literals : ∀ text ∈ pageFaultLiterals, IsString v (literal text) (textOf text)) (s s' : Paging) (r r' : Regs)
    (cr2 cr2' cr3 cr3' : Word) :
    ∃ told told', pageFaultHandler (fun out c => out ++ [c]) v literal fuel s r cr2 cr3 [] = some told ∧
      pageFaultHandler (fun out c => out ++ [c]) v literal fuel s' r' cr2' cr3' [] = some told' ∧
      (told = told' ↔ cr3 = cr3' ∧ cr2 = cr2' ∧ s.bit (cr2.toNat / 4096) = s'.bit (cr2'.toNat / 4096) ∧
        getPage s s.currentDir cr2 = getPage s' s'.currentDir cr2' ∧ r = r') ∧
      ∃ before digits, told = before ++ textOf "\nPage for that address: 0x" ++ digits ∧
        readNumeral digitValue 16 (digits.takeWhile fun c => (digitValue c).isSome) =
          some (16 * (getPage s s.currentDir cr2).toNat + 12) := by
  have collect : ∀ text : List Byte, text.foldl (fun out c => out ++ [c]) [] = text := by
    intro text
    induction text using List.reverseRecOn with
    | nil => rfl
    | append_singleton text c ih => rw [List.foldl_append, ih, List.foldl_cons, List.foldl_nil]
  have printed := fun s r cr2 cr3 => page_fault_printed (fun (out : List Byte) c => out ++ [c]) v literal fuel enough
    literals s r cr2 cr3 []
  simp only [collect] at printed
  refine ⟨_, _, printed s r cr2 cr3, printed s' r' cr2' cr3', ⟨fun same => ?_, ?_⟩, ?_⟩
  · simpa only [PageFault.mk.injEq] using report_read _ _ same
  · rintro ⟨rfl, rfl, bit, page, rfl⟩
    rw [bit, page]
  · exact ⟨_, _, text_split _, page_misread _ _⟩

/-- The literals 512 bytes apart. -/
def literalMemory : Memory := fun a =>
  (textOf (pageFaultLiterals.getD (a.toNat / 512) "")).getD (a.toNat % 512) 0#8

def literalAddress (text : String) : Word := BitVec.ofNat 32 (512 * pageFaultLiterals.idxOf text)

theorem literals_laid : ∀ text ∈ pageFaultLiterals, IsString literalMemory (literalAddress text) (textOf text) := by
  intro text member
  have nonzero : ∀ text ∈ pageFaultLiterals, 0#8 ∉ textOf text := by decide +kernel
  have short := literals_short text member
  have index := List.idxOf_lt_length_of_mem member
  have count : pageFaultLiterals.length = 21 := rfl
  refine is_string_laid _ _ _ (nonzero text member) fun i bound => ?_
  have place : (literalAddress text + BitVec.ofNat 32 i).toNat = 512 * pageFaultLiterals.idxOf text + i := by
    unfold literalAddress
    bv_omega
  have quotient : (512 * pageFaultLiterals.idxOf text + i) / 512 = pageFaultLiterals.idxOf text := by omega
  have rest : (512 * pageFaultLiterals.idxOf text + i) % 512 = i := by omega
  have found : pageFaultLiterals.getD (pageFaultLiterals.idxOf text) "" = text := by
    rw [List.getD_eq_getElem?_getD, List.getElem?_eq_getElem index, Option.getD_some, List.getElem_idxOf]
  rw [literalMemory, place, quotient, rest, found]

/-- A read and a write at the same address are told apart. -/
theorem page_fault_told_write : ∃ told told', told ≠ told' ∧
    pageFaultHandler (fun out c => out ++ [c]) literalMemory literalAddress (2 ^ 33) bootPaging default 0x1000000#32
      0#32 [] = some told ∧
    pageFaultHandler (fun out c => out ++ [c]) literalMemory literalAddress (2 ^ 33) bootPaging
      { (default : Regs) with errCode := 2#32 } 0x1000000#32 0#32 [] = some told' := by
  obtain ⟨told, told', returned, returnedToo, same, _⟩ := page_fault_told literalMemory literalAddress (2 ^ 33)
    (Nat.le_refl _) literals_laid bootPaging bootPaging default { (default : Regs) with errCode := 2#32 }
    0x1000000#32 0x1000000#32 0#32 0#32
  refine ⟨told, told', fun equal => ?_, returned, returnedToo⟩
  have codes := congrArg Regs.errCode (same.mp equal).2.2.2.2
  exact absurd codes (by decide)

end GargOS
