import GargOS.Lib.ByteMemory
import GargOS.Printf

/-!
Formats by their parts: what `printf` and `puts` of screen.c say of the string
literals of the source, wherever the compiler has put them.
-/

namespace GargOS
open ByteMemory
open Printing (IsString string stringFrom Plain TakesArgument converted rendered)

/-- The bytes of a string literal, without the 0 behind them. -/
def textOf (s : String) : List Byte := s.toUTF8.data.toList.map UInt8.toBitVec

inductive Part
  | literal (text : List Byte)
  | conversion (kind : Byte)

def Part.bytes : Part → List Byte
  | .literal text => text
  | .conversion kind => [37#8, kind]

def spelled (parts : List Part) : List Byte := parts.flatMap Part.bytes

/-- No `%` is left to a literal, and no conversion is `%b`. -/
def Part.Proper : Part → Prop
  | .literal text => 37#8 ∉ text
  | .conversion kind => kind ≠ 98#8

instance : (part : Part) → Decidable part.Proper
  | .literal _ => inferInstanceAs (Decidable (_ ∉ _))
  | .conversion _ => inferInstanceAs (Decidable (_ ≠ _))

def shown (m : Memory) (valist : Nat → Word) : List Part → Nat → List Byte
  | [], _ => []
  | .literal text :: rest, k => text ++ shown m valist rest k
  | .conversion kind :: rest, k =>
      converted m (valist k) kind ++ shown m valist rest (if TakesArgument kind then k + 1 else k)

theorem rendered_literal (m : Memory) (valist : Nat → Word) (text rest : List Byte) (k : Nat) (free : 37#8 ∉ text) :
    rendered m valist (text ++ rest) k = text ++ rendered m valist rest k := by
  induction text with
  | nil => rfl
  | cons ch text ih =>
      have plain : ch ≠ 37#8 := fun same => free (same ▸ List.mem_cons_self)
      have later := ih fun member => free (List.mem_cons_of_mem _ member)
      rw [List.cons_append, List.cons_append, ← later]
      cases text ++ rest with
      | nil => rw [rendered, rendered, if_neg plain]
      | cons kind behind => rw [rendered, if_neg plain]

theorem plain_literal (text rest : List Byte) (free : 37#8 ∉ text) (plain : Plain rest) : Plain (text ++ rest) := by
  induction text with
  | nil => exact plain
  | cons ch text ih =>
      have other : ch ≠ 37#8 := fun same => free (same ▸ List.mem_cons_self)
      have later := ih fun member => free (List.mem_cons_of_mem _ member)
      rw [List.cons_append]
      generalize text ++ rest = behind at later
      cases behind with
      | nil => exact other
      | cons kind behind =>
          rw [Plain, if_neg other]
          exact later

theorem rendered_spelled (m : Memory) (valist : Nat → Word) (parts : List Part) (k : Nat)
    (proper : ∀ part ∈ parts, part.Proper) :
    Plain (spelled parts) ∧ rendered m valist (spelled parts) k = shown m valist parts k := by
  induction parts generalizing k with
  | nil => exact ⟨trivial, rfl⟩
  | cons part parts ih =>
      have first := proper part List.mem_cons_self
      have later := fun k => ih k fun part member => proper part (List.mem_cons_of_mem _ member)
      cases part with
      | literal text =>
          have shape : spelled (.literal text :: parts) = text ++ spelled parts := rfl
          rw [shape]
          refine ⟨plain_literal text _ first (later 0).1, ?_⟩
          rw [rendered_literal m valist text _ k first, (later k).2, shown]
      | conversion kind =>
          have shape : spelled (.conversion kind :: parts) = 37#8 :: kind :: spelled parts := rfl
          rw [shape]
          refine ⟨?_, ?_⟩
          · rw [Plain, if_pos rfl]
            exact ⟨first, (later 0).1⟩
          · rw [rendered, if_pos rfl, (later _).2, shown]

/-! Strings in memory. -/

theorem is_string_congr (m v : Memory) (a : Word) (text : List Byte) (isString : IsString m a text)
    (same : ∀ x, InSpan a (text.length + 1) x → v x = m x) (short : text.length + 1 < 2 ^ 32) :
    IsString v a text := by
  induction text generalizing a with
  | nil => exact (same a (base_in_span a 1 (by decide))).trans isString
  | cons c text ih =>
      obtain ⟨here, nonzero, rest⟩ := isString
      rw [List.length_cons] at same short
      refine ⟨(same a (base_in_span a _ (by omega))).trans here, nonzero, ih (a + 1#32) rest (fun x inside => ?_)
        (by omega)⟩
      refine same x ?_
      unfold InSpan at *
      bv_omega

theorem is_string_laid (m : Memory) (a : Word) (text : List Byte) (nonzero : 0#8 ∉ text)
    (laid : ∀ i ≤ text.length, m (a + BitVec.ofNat 32 i) = text.getD i 0#8) : IsString m a text := by
  induction text generalizing a with
  | nil =>
      have here := laid 0 (Nat.le_refl 0)
      rw [BitVec.add_zero] at here
      exact here
  | cons c text ih =>
      have here := laid 0 (Nat.zero_le _)
      rw [BitVec.add_zero] at here
      refine ⟨here, fun zero => nonzero (zero ▸ List.mem_cons_self),
        ih (a + 1#32) (fun member => nonzero (List.mem_cons_of_mem _ member)) fun i bound => ?_⟩
      have next := laid (i + 1) (Nat.succ_le_succ bound)
      rw [List.getD_cons_succ] at next
      rw [← next]
      congr 1
      bv_omega

theorem string_from_text (m : Memory) (n : Nat) (a : Word) (text : List Byte) (isString : IsString m a text)
    (room : text.length < n) : stringFrom m n a = text := by
  induction text generalizing a n with
  | nil =>
      obtain ⟨n, rfl⟩ := Nat.exists_eq_succ_of_ne_zero (show n ≠ 0 by omega)
      have zero : m a = 0#8 := isString
      rw [stringFrom, if_neg (not_not.mpr zero)]
  | cons c text ih =>
      obtain ⟨here, nonzero, rest⟩ := isString
      rw [List.length_cons] at room
      obtain ⟨n, rfl⟩ := Nat.exists_eq_succ_of_ne_zero (show n ≠ 0 by omega)
      rw [stringFrom, here, if_pos nonzero, ih n (a + 1#32) rest (by omega)]

theorem string_text (m : Memory) (a : Word) (text : List Byte) (isString : IsString m a text)
    (short : text.length < 2 ^ 32) : string m a = text :=
  string_from_text m _ a text isString short

section Printed
variable {σ : Type} (putc : σ → Byte → σ) (m : Memory) (fuel : Nat) (s : σ)

theorem string_put (enough : 2 ^ 32 ≤ fuel) (a : Word) (text : List Byte) (isString : IsString m a text)
    (short : text.length < 2 ^ 32) : Printing.puts putc m fuel s a = some (text.foldl putc s) := by
  obtain ⟨zero, ends⟩ := Printing.string_ends m a text isString
  rw [Printing.puts_result putc m fuel enough zero ends, string_text m a text isString short]

theorem format_printed (str : Word) (valist : Nat → Word) (text : List Byte) (parts : List Part)
    (format : text = spelled parts) (proper : ∀ part ∈ parts, part.Proper) (enough : text.length + 2 ^ 32 < fuel)
    (isString : IsString m str text) :
    (Printing.printf putc m str valist fuel s).map Printing.Format.out =
      some ((shown m valist parts 0).foldl putc s) := by
  have here : IsString m (str + BitVec.ofNat 32 (Printing.Format.mk s 0 0 []).j) text := by
    show IsString m (str + 0#32) text
    rwa [BitVec.add_zero]
  obtain ⟨plain, texts⟩ := rendered_spelled m valist parts 0 proper
  rw [← format] at plain texts
  obtain ⟨p, done, _, out⟩ := Printing.plain_rendered putc m valist str text plain fuel enough ⟨s, 0, 0, []⟩ here
  rw [Printing.printf, done, Option.map_some, out, texts]

end Printed
end GargOS
