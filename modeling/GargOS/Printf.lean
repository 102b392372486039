import GargOS.Printing
import GargOS.Screen

/-!
`printf` of screen.c, on the memory its strings lie in, which printing leaves as it
is. `valist` are the words that `va_arg` takes, one after another.
-/

namespace GargOS.Printing
open ByteMemory

/-- A format being printed. No function of the source reads `reads`, the offsets
of the format it has read. -/
structure Format (σ : Type) where
  out : σ
  j : Nat
  args : Nat
  reads : List Nat

section Source
variable {σ : Type} (putc : σ → Byte → σ)

/-- The loop of `putb`, whose `i` is a `uint8_t`. -/
def putbRounds (a : Word) : Nat → σ → Byte → Option σ
  | 0, _, _ => none
  | fuel + 1, s, i =>
      if i ≥ 0#8 then
        -- the processor takes a shift count modulo 32
        let bit := a &&& (1#32 <<< (i.toNat % 32))
        putbRounds a fuel (putc s (if bit ≠ 0#32 then 49#8 else 48#8)) (i - 1#8)
      else some s

def putb (fuel : Nat) (s : σ) (a : Word) : Option σ := putbRounds putc a fuel s 31#8

variable (m : Memory)

/-- `puts` from index `i` on. -/
def putsFrom (string : Word) : Nat → σ → Word → Option σ
  | 0, _, _ => none
  | fuel + 1, s, i =>
      if m (string + i) ≠ 0#8 then putsFrom string fuel (putc s (m (string + i))) (i + 1#32)
      else some s

def puts (fuel : Nat) (s : σ) (string : Word) : Option σ := putsFrom putc m string fuel s 0#32

/-- `va_arg`. -/
def Format.taken (p : Format σ) (out : σ) : Format σ := { p with out := out, args := p.args + 1 }

variable (str : Word) (valist : Nat → Word)

/-- The `switch` of `printf`. -/
def conversion (fuel : Nat) (p : Format σ) (ch : Byte) : Option (Format σ) :=
  let arg := valist p.args
  if ch = 100#8 then (puti putc fuel p.out arg).map p.taken -- 'd'
  else if ch = 120#8 then (puth putc fuel p.out arg).map p.taken -- 'x'
  else if ch = 37#8 then some { p with out := putc p.out 37#8 } -- '%'
  else if ch = 98#8 then (putb putc fuel p.out arg).map p.taken -- 'b'
  else if ch = 115#8 then (puts putc m fuel p.out arg).map p.taken -- 's'
  else if ch = 99#8 then some (p.taken (putc p.out (arg.setWidth 8))) -- 'c'
  else some p

/-- `str[j]`. -/
def Format.ch (p : Format σ) : Byte := m (str + BitVec.ofNat 32 p.j)

def Format.read (p : Format σ) : Format σ := { p with reads := p.j :: p.reads }

def Format.next (p : Format σ) : Format σ := { p with j := p.j + 1 }

def printfRounds : Nat → Format σ → Option (Format σ)
  | 0, _ => none
  | fuel + 1, p =>
      let ch := p.ch m str
      let p := p.read
      if ch ≠ 0#8 then
        if ch = 37#8 then do
          let p := p.next
          let p ← conversion putc m valist fuel p.read (p.ch m str)
          printfRounds fuel p.next
        else printfRounds fuel { p with out := putc p.out ch }.next
      else some p

def printf (fuel : Nat) (s : σ) : Option (Format σ) :=
  printfRounds putc m str valist fuel ⟨s, 0, 0, []⟩

end Source

/-! What a format stands for. -/

section Meaning
variable (m : Memory)

def IsString : Word → List Byte → Prop
  | a, [] => m a = 0#8
  | a, c :: text => m a = c ∧ c ≠ 0#8 ∧ IsString (a + 1#32) text

/-- The string at `a`, up to `n` bytes of it. -/
def stringFrom : Nat → Word → List Byte
  | 0, _ => []
  | n + 1, a => if m a ≠ 0#8 then m a :: stringFrom n (a + 1#32) else []

def string (a : Word) : List Byte := stringFrom m (2 ^ 32) a

def binary (a : Word) : List Byte := (List.range 32).map fun i => if a.getLsbD (31 - i) then 49#8 else 48#8

def TakesArgument (kind : Byte) : Prop :=
  kind = 100#8 ∨ kind = 120#8 ∨ kind = 98#8 ∨ kind = 115#8 ∨ kind = 99#8

instance (kind : Byte) : Decidable (TakesArgument kind) := inferInstanceAs (Decidable (_ ∨ _))

def converted (arg : Word) (kind : Byte) : List Byte :=
  if kind = 100#8 then decimal arg
  else if kind = 120#8 then hexPrefix ++ hexadecimal arg
  else if kind = 37#8 then [37#8]
  else if kind = 98#8 then binary arg
  else if kind = 115#8 then string m arg
  else if kind = 99#8 then [arg.setWidth 8]
  else []

variable (valist : Nat → Word)

def rendered : List Byte → Nat → List Byte
  | [], _ => []
  | [ch], _ => if ch = 37#8 then [] else [ch]
  | ch :: kind :: rest, k =>
      if ch = 37#8 then
        converted m (valist k) kind ++ rendered rest (if TakesArgument kind then k + 1 else k)
      else ch :: rendered (kind :: rest) k

end Meaning

/-- `printf` returns, has read no byte behind the format, and has printed its text. -/
def Renders {σ : Type} (putc : σ → Byte → σ) (m : Memory) (str : Word) (valist : Nat → Word) (s : σ)
    (text : List Byte) : Prop :=
  ∃ fuel p, printf putc m str valist fuel s = some p ∧ (∀ j ∈ p.reads, j ≤ text.length) ∧
    p.out = (rendered m valist text 0).foldl putc s

/-- No conversion is `%b`, and no `%` is left over at the end. -/
def Plain : List Byte → Prop
  | [] => True
  | [ch] => ch ≠ 37#8
  | ch :: kind :: rest => if ch = 37#8 then kind ≠ 98#8 ∧ Plain rest else Plain (kind :: rest)

section Rounds
variable {σ : Type} (putc : σ → Byte → σ)

/-- `putb` never returns: its `i` is never below 0. -/
theorem putb_never (a : Word) (fuel : Nat) (s : σ) (i : Byte) : putbRounds putc a fuel s i = none := by
  induction fuel generalizing s i with
  | zero => rfl
  | succ fuel ih =>
      have stays : i ≥ 0#8 := Nat.zero_le i.toNat
      rw [putbRounds, if_pos stays]
      exact ih _ _

variable (m : Memory)

theorem puts_from_result (string : Word) (n bound fuel : Nat) (inside : n < bound) (enough : n < fuel)
    (s : σ) (i : Word) (ends : m (string + i + BitVec.ofNat 32 n) = 0#8) :
    putsFrom putc m string fuel s i = some ((stringFrom m bound (string + i)).foldl putc s) := by
  obtain ⟨fuel, rfl⟩ := Nat.exists_eq_succ_of_ne_zero (show fuel ≠ 0 by omega)
  obtain ⟨bound, rfl⟩ := Nat.exists_eq_succ_of_ne_zero (show bound ≠ 0 by omega)
  induction n generalizing s i fuel bound with
  | zero =>
      rw [BitVec.add_zero] at ends
      rw [putsFrom, stringFrom, if_neg (not_not.mpr ends), if_neg (not_not.mpr ends)]
      rfl
  | succ n ih =>
      rw [putsFrom, stringFrom]
      by_cases some : m (string + i) ≠ 0#8
      · obtain ⟨fuel, rfl⟩ := Nat.exists_eq_succ_of_ne_zero (show fuel ≠ 0 by omega)
        obtain ⟨bound, rfl⟩ := Nat.exists_eq_succ_of_ne_zero (show bound ≠ 0 by omega)
        have later : m (string + (i + 1#32) + BitVec.ofNat 32 n) = 0#8 := by
          rw [← ends]
          congr 1
          bv_omega
        rw [if_pos some, if_pos some, List.foldl_cons, ih (putc s _) (i + 1#32) later fuel (by omega) bound
          (by omega), BitVec.add_assoc]
      · rw [if_neg some, if_neg some]
        rfl

theorem puts_result (fuel : Nat) (enough : 2 ^ 32 ≤ fuel) (zero : Word) (ends : m zero = 0#8) (s : σ)
    (a : Word) : puts putc m fuel s a = some ((string m a).foldl putc s) := by
  have here : m (a + 0#32 + BitVec.ofNat 32 (zero - a).toNat) = 0#8 := by
    rw [← ends]
    congr 1
    bv_omega
  have less := (zero - a).isLt
  have text := puts_from_result putc m a (zero - a).toNat (2 ^ 32) fuel less (by omega) s 0#32 here
  rw [BitVec.add_zero] at text
  exact text

variable (valist : Nat → Word)

theorem conversion_result (fuel : Nat) (enough : 2 ^ 32 ≤ fuel) (zero : Word) (ends : m zero = 0#8)
    (p : Format σ) (ch : Byte) (other : ch ≠ 98#8) :
    conversion putc m valist fuel p ch = some { p with
      out := (converted m (valist p.args) ch).foldl putc p.out
      args := if TakesArgument ch then p.args + 1 else p.args } := by
  obtain ⟨more, rfl⟩ := Nat.exists_eq_add_of_le' (show 11 ≤ fuel by omega)
  unfold conversion converted TakesArgument
  dsimp only
  rw [puti_result, puth_result, puts_result putc m (more + 11) enough zero ends, if_neg other, if_neg other]
  split_ifs <;> simp_all [Format.taken]

theorem conversion_keeps (fuel : Nat) (p after : Format σ) (ch : Byte)
    (done : conversion putc m valist fuel p ch = some after) :
    ch ≠ 98#8 ∧ after.j = p.j ∧ after.reads = p.reads := by
  have taken : ∀ {result : Option σ}, result.map p.taken = some after →
      after.j = p.j ∧ after.reads = p.reads := by
    intro result same
    obtain ⟨out, _, rfl⟩ := Option.map_eq_some_iff.mp same
    exact ⟨rfl, rfl⟩
  unfold conversion at done
  dsimp only at done
  split_ifs at done with d x percent b s c
  · exact ⟨by rw [d]; decide, taken done⟩
  · exact ⟨by rw [x]; decide, taken done⟩
  · obtain rfl := Option.some.inj done
    exact ⟨by rw [percent]; decide, rfl, rfl⟩
  · rw [putb, putb_never] at done
    exact absurd done (by simp)
  · exact ⟨b, taken done⟩
  · obtain rfl := Option.some.inj done
    exact ⟨b, rfl, rfl⟩
  · obtain rfl := Option.some.inj done
    exact ⟨b, rfl, rfl⟩

variable (str : Word)

/-! One round of `printf`. -/

/-- Where a round that prints a character of the format leads. -/
def Format.shown (p : Format σ) (out : σ) : Format σ := { p.read with out := out }.next

@[simp] theorem shown_j (p : Format σ) (out : σ) : (p.shown out).j = p.next.j := rfl

@[simp] theorem shown_args (p : Format σ) (out : σ) : (p.shown out).args = p.args := rfl

@[simp] theorem shown_out (p : Format σ) (out : σ) : (p.shown out).out = out := rfl

@[simp] theorem shown_reads (p : Format σ) (out : σ) : (p.shown out).reads = p.j :: p.reads := rfl

theorem printf_end (fuel : Nat) (p : Format σ) (zero : p.ch m str = 0#8) :
    printfRounds putc m str valist (fuel + 1) p = some p.read := by
  rw [printfRounds]
  exact if_neg (not_not.mpr zero)

theorem printf_character (fuel : Nat) (p : Format σ) (some : p.ch m str ≠ 0#8)
    (plain : p.ch m str ≠ 37#8) :
    printfRounds putc m str valist (fuel + 1) p =
      printfRounds putc m str valist fuel (p.shown (putc p.out (p.ch m str))) := by
  rw [printfRounds]
  dsimp only
  rw [if_pos some, if_neg plain]
  rfl

theorem printf_conversion (fuel : Nat) (p : Format σ) (percent : p.ch m str = 37#8) :
    printfRounds putc m str valist (fuel + 1) p =
      (conversion putc m valist fuel p.read.next.read (p.next.ch m str)).bind
        fun p => printfRounds putc m str valist fuel p.next := by
  have some : p.ch m str ≠ 0#8 := by
    rw [percent]
    decide
  rw [printfRounds]
  dsimp only
  rw [if_pos some, if_pos percent]
  rfl

theorem next_address (p : Format σ) : str + BitVec.ofNat 32 p.next.j = str + BitVec.ofNat 32 p.j + 1#32 := by
  rw [Format.next, BitVec.ofNat_add, BitVec.add_assoc]

theorem string_ends (a : Word) (text : List Byte) (isString : IsString m a text) :
    ∃ zero, m zero = 0#8 := by
  induction text generalizing a with
  | nil => exact ⟨a, isString⟩
  | cons c text ih => exact ih (a + 1#32) isString.2.2

theorem plain_rendered (text : List Byte) (plain : Plain text) (fuel : Nat)
    (enough : text.length + 2 ^ 32 < fuel) (p : Format σ) (isString : IsString m (str + BitVec.ofNat 32 p.j) text) :
    ∃ after, printfRounds putc m str valist fuel p = some after ∧
      (∀ j ∈ after.reads, j ∈ p.reads ∨ j ≤ p.j + text.length) ∧
      after.out = (rendered m valist text p.args).foldl putc p.out := by
  obtain ⟨fuel, rfl⟩ := Nat.exists_eq_succ_of_ne_zero (show fuel ≠ 0 by omega)
  obtain ⟨zero, ends⟩ := string_ends m _ text isString
  induction text using Plain.induct generalizing fuel p with
  | case1 =>
      refine ⟨p.read, printf_end putc m valist str fuel p isString, fun j member => ?_, rfl⟩
      rcases List.mem_cons.mp member with rfl | earlier
      · exact Or.inr (Nat.le_refl _)
      · exact Or.inl earlier
  | case2 ch =>
      obtain ⟨here, some, stop⟩ := isString
      rw [← next_address] at stop
      obtain ⟨fuel, rfl⟩ := Nat.exists_eq_succ_of_ne_zero (show fuel ≠ 0 by omega)
      have character : p.ch m str = ch := here
      refine ⟨_, (printf_character putc m valist str _ p (character ▸ some) (character ▸ plain)).trans
        (printf_end putc m valist str fuel _ (by rw [Format.ch, shown_j]; exact stop)),
        fun j member => ?_, ?_⟩
      · simp only [Format.read, Format.next, shown_j, shown_reads, List.mem_cons] at member
        rw [List.length_singleton]
        rcases member with rfl | rfl | earlier
        · exact Or.inr (Nat.le_refl _)
        · exact Or.inr (Nat.le_succ _)
        · exact Or.inl earlier
      · rw [rendered, if_neg plain, character]
        rfl
  | case3 kind rest ih =>
      obtain ⟨here, _, second, _, isString⟩ := isString
      rw [Plain, if_pos rfl] at plain
      rw [← next_address] at second
      have converts := conversion_result putc m valist fuel (by omega) zero ends p.read.next.read kind plain.1
      generalize shape : ({ p.read.next.read with
        out := (converted m (valist p.read.next.read.args) kind).foldl putc p.read.next.read.out
        args := if TakesArgument kind then p.read.next.read.args + 1 else p.read.next.read.args } : Format σ) =
          middle at converts
      have address : str + BitVec.ofNat 32 p.j + 1#32 + 1#32 = str + BitVec.ofNat 32 middle.next.j := by
        rw [← shape, ← next_address, ← next_address]
        rfl
      rw [address] at isString
      obtain ⟨more, rfl⟩ := Nat.exists_eq_succ_of_ne_zero (show fuel ≠ 0 by omega)
      obtain ⟨after, done, reads, out⟩ := ih plain.2 middle.next isString more
        (by rw [List.length_cons, List.length_cons] at enough; omega)
      refine ⟨after, ?_, fun j member => ?_, ?_⟩
      · rw [printf_conversion putc m valist str _ p here, show p.next.ch m str = kind from second, converts]
        exact done
      · have before := reads j member
        rw [← shape] at before
        simp only [Format.read, Format.next, List.mem_cons] at before
        rw [List.length_cons, List.length_cons]
        rcases before with (rfl | rfl | earlier) | inside
        · exact Or.inr (by omega)
        · exact Or.inr (by omega)
        · exact Or.inl earlier
        · exact Or.inr (by omega)
      · rw [out, rendered, if_pos rfl, List.foldl_append, ← shape]
        rfl
  | case4 ch kind rest other ih =>
      obtain ⟨here, some, isString⟩ := isString
      rw [Plain, if_neg other] at plain
      rw [← next_address] at isString
      obtain ⟨fuel, rfl⟩ := Nat.exists_eq_succ_of_ne_zero (show fuel ≠ 0 by omega)
      have character : p.ch m str = ch := here
      rw [← shown_j p (putc p.out (p.ch m str))] at isString
      obtain ⟨after, done, reads, out⟩ := ih plain (p.shown (putc p.out (p.ch m str))) isString fuel
        (by rw [List.length_cons] at enough; omega)
      refine ⟨after,
        (printf_character putc m valist str _ p (character ▸ some) (character ▸ other)).trans done, fun j member => ?_, ?_⟩
      · have before := reads j member
        simp only [Format.next, shown_j, shown_reads, List.mem_cons] at before
        rw [List.length_cons]
        rcases before with (rfl | earlier) | inside
        · exact Or.inr (by omega)
        · exact Or.inl earlier
        · exact Or.inr (by omega)
      · rw [out, rendered, if_neg other, List.foldl_cons, character, shown_args, shown_out]

theorem printf_fuel (fuel : Nat) (p after : Format σ)
    (done : printfRounds putc m str valist fuel p = some after) : ∃ more, fuel = more + 1 := by
  cases fuel with
  | zero => simp [printfRounds] at done
  | succ more => exact ⟨more, rfl⟩

theorem printf_reads (fuel : Nat) (p after : Format σ)
    (done : printfRounds putc m str valist fuel p = some after) : ∀ j ∈ p.read.reads, j ∈ after.reads := by
  induction fuel generalizing p with
  | zero => simp [printfRounds] at done
  | succ fuel ih =>
      intro j member
      by_cases zero : p.ch m str = 0#8
      · rw [printf_end putc m valist str fuel p zero] at done
        obtain rfl := Option.some.inj done
        exact member
      · by_cases percent : p.ch m str = 37#8
        · rw [printf_conversion putc m valist str fuel p percent] at done
          obtain ⟨middle, converted, later⟩ := Option.bind_eq_some_iff.mp done
          have keeps := (conversion_keeps putc m valist fuel _ middle _ converted).2.2
          refine ih _ later j (List.mem_cons_of_mem _ ?_)
          show j ∈ middle.reads
          rw [keeps]
          exact List.mem_cons_of_mem _ member
        · rw [printf_character putc m valist str fuel p zero percent] at done
          exact ih _ done j (List.mem_cons_of_mem _ member)

/-- A format that is not plain is read beyond its end, if printing it ends at all. -/
theorem not_plain_beyond (text : List Byte) (mangled : ¬ Plain text) (fuel : Nat) (p after : Format σ)
    (isString : IsString m (str + BitVec.ofNat 32 p.j) text)
    (done : printfRounds putc m str valist fuel p = some after) : p.j + text.length + 1 ∈ after.reads := by
  obtain ⟨fuel, rfl⟩ := printf_fuel putc m valist str fuel p after done
  induction text using Plain.induct generalizing fuel p with
  | case1 => exact absurd trivial mangled
  | case2 ch =>
      have percent : ch = 37#8 := not_not.mp mangled
      subst percent
      rw [printf_conversion putc m valist str fuel p isString.1] at done
      obtain ⟨middle, converts, later⟩ := Option.bind_eq_some_iff.mp done
      have keeps := (conversion_keeps putc m valist fuel _ middle _ converts).2.1
      have behind : middle.next.j = p.j + 1 + 1 := by
        rw [Format.next, keeps]
        rfl
      have read := printf_reads putc m valist str fuel _ after later middle.next.j List.mem_cons_self
      rw [behind] at read
      exact read
  | case3 kind rest ih =>
      obtain ⟨here, _, second, _, isString⟩ := isString
      rw [← next_address] at second
      rw [printf_conversion putc m valist str fuel p here] at done
      obtain ⟨middle, converts, later⟩ := Option.bind_eq_some_iff.mp done
      rw [show p.next.ch m str = kind from second] at converts
      obtain ⟨other, keeps, _⟩ := conversion_keeps putc m valist fuel _ middle _ converts
      have behind : middle.next.j = p.j + 1 + 1 := by
        rw [Format.next, keeps]
        rfl
      have address : str + BitVec.ofNat 32 p.j + 1#32 + 1#32 = str + BitVec.ofNat 32 middle.next.j := by
        rw [behind, ← next_address, ← next_address]
        rfl
      rw [address] at isString
      rw [Plain, if_pos rfl, not_and] at mangled
      obtain ⟨more, rfl⟩ := printf_fuel putc m valist str fuel _ after later
      have read := ih (mangled other) middle.next isString more later
      rw [behind] at read
      rw [List.length_cons, List.length_cons]
      rwa [show p.j + (rest.length + 1 + 1) + 1 = p.j + 1 + 1 + rest.length + 1 by omega]
  | case4 ch kind rest other ih =>
      obtain ⟨here, some, isString⟩ := isString
      rw [← next_address] at isString
      rw [Plain, if_neg other] at mangled
      have character : p.ch m str = ch := here
      rw [printf_character putc m valist str fuel p (character ▸ some) (character ▸ other)] at done
      obtain ⟨more, rfl⟩ := printf_fuel putc m valist str fuel _ after done
      rw [← shown_j p (putc p.out (p.ch m str))] at isString
      have read := ih mangled (p.shown (putc p.out (p.ch m str))) isString more done
      rw [shown_j, Format.next] at read
      rw [List.length_cons]
      rwa [show p.j + ((kind :: rest).length + 1) + 1 = p.j + 1 + (kind :: rest).length + 1 by omega]

end Rounds

/-- `printf` renders exactly the formats without `%b` and without a `%` at their end. -/
theorem printf_renders_iff {σ : Type} (putc : σ → Byte → σ) (m : Memory) (str : Word)
    (valist : Nat → Word) (s : σ) (text : List Byte) (isString : IsString m str text) :
    Renders putc m str valist s text ↔ Plain text := by
  have here : IsString m (str + BitVec.ofNat 32 (Format.mk s 0 0 []).j) text := by
    show IsString m (str + 0#32) text
    rwa [BitVec.add_zero]
  constructor
  · rintro ⟨fuel, p, done, reads, _⟩
    by_contra mangled
    have beyond := reads _ (not_plain_beyond putc m valist str text mangled fuel _ p here done)
    dsimp only at beyond
    omega
  · intro plain
    obtain ⟨p, done, reads, out⟩ := plain_rendered putc m valist str text plain
      (text.length + 2 ^ 32 + 1) (by omega) ⟨s, 0, 0, []⟩ here
    refine ⟨_, p, done, fun j member => ?_, out⟩
    rcases reads j member with none | inside
    · simp at none
    · rwa [Nat.zero_add] at inside

/-- A memory with a text at address 0 and nothing else. -/
def textMemory (text : List Byte) : Memory := fun a => text.getD a.toNat 0#8

/-- The format `%d`. -/
theorem decimal_format_renders : IsString (textMemory [37#8, 100#8]) 0#32 [37#8, 100#8] ∧
    (Renders (fun out c => out ++ [c]) (textMemory [37#8, 100#8]) 0#32 (fun _ => 42#32) [] [37#8, 100#8] ↔
      Plain [37#8, 100#8]) :=
  have isString : IsString (textMemory [37#8, 100#8]) 0#32 [37#8, 100#8] := ⟨rfl, by decide, rfl, by decide, rfl⟩
  ⟨isString, printf_renders_iff _ _ _ _ _ _ isString⟩

/-- The formats `%b` and `%`: the one never returns, the other is read past its end. -/
theorem formats_not_rendered :
    IsString (textMemory [37#8, 98#8]) 0#32 [37#8, 98#8] ∧
    (∀ fuel, printf (fun out c => out ++ [c]) (textMemory [37#8, 98#8]) 0#32 (fun _ => 5#32) fuel [] = none) ∧
    ¬ Renders (fun out c => out ++ [c]) (textMemory [37#8, 98#8]) 0#32 (fun _ => 5#32) [] [37#8, 98#8] ∧
    IsString (textMemory [37#8]) 0#32 [37#8] ∧
    ¬ Renders (fun out c => out ++ [c]) (textMemory [37#8]) 0#32 (fun _ => 5#32) [] [37#8] := by
  have never : ∀ fuel, printf (fun out c => out ++ [c]) (textMemory [37#8, 98#8]) 0#32 (fun _ => 5#32) fuel
      ([] : List Byte) = none := by
    intro fuel
    rw [Option.eq_none_iff_forall_ne_some]
    intro p done
    cases fuel with
    | zero => exact absurd done (by simp [printf, printfRounds])
    | succ fuel =>
        rw [printf, printf_conversion _ _ _ _ _ _ rfl] at done
        obtain ⟨_, converts, _⟩ := Option.bind_eq_some_iff.mp done
        exact (conversion_keeps _ _ _ _ _ _ _ converts).1 rfl
  have alone : IsString (textMemory [37#8]) 0#32 [37#8] := ⟨rfl, by decide, rfl⟩
  refine ⟨⟨rfl, by decide, rfl, by decide, rfl⟩, never, ?_, alone, ?_⟩
  · rintro ⟨fuel, p, done, _⟩
    rw [never fuel] at done
    exact absurd done (by simp)
  · rintro ⟨fuel, p, done, reads, _⟩
    have beyond := reads _ (not_plain_beyond _ _ _ _ [37#8] (fun plain => plain rfl) fuel _ p alone done)
    exact absurd beyond (by decide)

end GargOS.Printing
