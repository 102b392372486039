import Mathlib.Data.List.TakeWhile

/-!
Texts that can be read back. A piece of a text separates its values if no two
of them are written so that what follows could make up for the difference.
-/

namespace Delimited
variable {α ν : Type}

/-- Whatever follows a piece, its value and what follows can be told from the whole. -/
def Separates (piece : ν → List α) : Prop :=
  ∀ a b rest rest', piece a ++ rest = piece b ++ rest' → a = b ∧ rest = rest'

theorem choice_separates (s t : List α) (i : Nat) (inS : i < s.length) (inT : i < t.length) (different : s[i] ≠ t[i]) :
    Separates fun b : Bool => if b then s else t := by
  have apart : ∀ rest rest', s ++ rest ≠ t ++ rest' := by
    intro rest rest' same
    have place := congrArg (fun text => text[i]?) same
    simp only [List.getElem?_append_left inS, List.getElem?_append_left inT, List.getElem?_eq_getElem inS,
      List.getElem?_eq_getElem inT] at place
    exact different (Option.some.inj place)
  intro a b rest rest' same
  cases a with
  | true =>
      cases b with
      | true => exact ⟨rfl, List.append_cancel_left same⟩
      | false => exact absurd same (apart rest rest')
  | false =>
      cases b with
      | true => exact absurd same.symm (apart rest' rest)
      | false => exact ⟨rfl, List.append_cancel_left same⟩

section Numbers
variable (digit : α → Bool) (write : ν → List α) (injective : Function.Injective write)
  (digits : ∀ a, ∀ c ∈ write a, digit c = true)

/-- The digits that a label begins with count among those of the number before it. -/
theorem digits_before (label : List α) (ends : ∃ c ∈ label, digit c = false) (text rest : List α)
    (valid : ∀ c ∈ text, digit c = true) :
    (text ++ (label ++ rest)).takeWhile digit = text ++ label.takeWhile digit := by
  rw [List.takeWhile_append_of_pos valid]
  congr 1
  induction label with
  | nil =>
      obtain ⟨c, member, _⟩ := ends
      simp at member
  | cons c label ih =>
      rw [List.cons_append]
      by_cases more : digit c = true
      · rw [List.takeWhile_cons_of_pos more, List.takeWhile_cons_of_pos more, ih]
        obtain ⟨d, member, last⟩ := ends
        rcases List.mem_cons.mp member with rfl | later
        · rw [more] at last
          exact absurd last (by decide)
        · exact ⟨d, later, last⟩
      · rw [List.takeWhile_cons_of_neg more, List.takeWhile_cons_of_neg more]

include injective digits

theorem number_separates (label : List α) (ends : ∃ c ∈ label, digit c = false) :
    Separates fun a => write a ++ label := by
  intro a b rest rest' same
  simp only [List.append_assoc] at same
  have read := congrArg (List.takeWhile digit) same
  rw [digits_before digit label ends (write a) rest (digits a),
    digits_before digit label ends (write b) rest' (digits b)] at read
  obtain rfl := injective (List.append_cancel_right read)
  exact ⟨rfl, List.append_cancel_left (List.append_cancel_left same)⟩

/-- Numbers with a label behind each of them. -/
def fields (write : ν → List α) : List (List α) → List ν → List α
  | label :: labels, a :: values => write a ++ label ++ fields write labels values
  | _, _ => []

theorem fields_separate (labels : List (List α)) (ends : ∀ label ∈ labels, ∃ c ∈ label, digit c = false)
    (values others : List ν) (length : values.length = labels.length) (lengthToo : others.length = labels.length)
    (rest rest' : List α) (same : fields write labels values ++ rest = fields write labels others ++ rest') :
    values = others ∧ rest = rest' := by
  induction labels generalizing values others with
  | nil =>
      rw [List.length_nil, List.length_eq_zero_iff] at length lengthToo
      subst length lengthToo
      exact ⟨rfl, same⟩
  | cons label labels ih =>
      cases values with
      | nil => simp at length
      | cons a values =>
          cases others with
          | nil => simp at lengthToo
          | cons b others =>
              simp only [fields, List.append_assoc] at same
              rw [← List.append_assoc, ← List.append_assoc (write b)] at same
              obtain ⟨rfl, behind⟩ := number_separates digit write injective digits label
                (ends label List.mem_cons_self) a b _ _ same
              obtain ⟨rfl, last⟩ := ih (fun l member => ends l (List.mem_cons_of_mem _ member)) values others
                (Nat.succ.inj length) (Nat.succ.inj lengthToo) behind
              exact ⟨rfl, last⟩

end Numbers
end Delimited
