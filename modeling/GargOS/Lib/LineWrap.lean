import Mathlib.Data.List.Basic

/-!
Text laid out in lines of a fixed width: it is broken at each newline, and a
paragraph after every `width` characters, so that a full line is followed by
another one. What one more character does to the last line.
-/

namespace LineWrap

variable {α : Type}

/-- The lines of a paragraph: the `i`-th holds its characters from `i * width` on. -/
def wrap (width : Nat) (paragraph : List α) : List (List α) :=
  (List.range (paragraph.length / width + 1)).map fun i => (paragraph.drop (i * width)).take width

def lines [BEq α] (newline : α) (width : Nat) (text : List α) : List (List α) :=
  (text.splitOn newline).flatMap (wrap width)

section Paragraph
variable (width : Nat) (some : 0 < width) (paragraph : List α)

def fullLines : List (List α) :=
  (List.range (paragraph.length / width)).map fun i => (paragraph.drop (i * width)).take width

def lastLine : List α := paragraph.drop (paragraph.length / width * width)

theorem last_line_length : (lastLine width paragraph).length = paragraph.length % width := by
  have split := Nat.div_add_mod paragraph.length width
  rw [Nat.mul_comm] at split
  rw [lastLine, List.length_drop]
  omega

include some

theorem last_line_short : (lastLine width paragraph).length < width := by
  rw [last_line_length width]
  exact Nat.mod_lt _ some

theorem wrap_split : wrap width paragraph = fullLines width paragraph ++ [lastLine width paragraph] := by
  have short := last_line_short width some paragraph
  rw [wrap, List.range_succ, List.map_append, List.map_singleton]
  congr 2
  exact List.take_of_length_le (Nat.le_of_lt short)

/-- One more character goes to the last line, which may now be full. -/
theorem wrap_append (c : α) : wrap width (paragraph ++ [c]) = fullLines width paragraph ++
    if (lastLine width paragraph).length + 1 = width then [lastLine width paragraph ++ [c], []]
    else [lastLine width paragraph ++ [c]] := by
  have split := Nat.div_add_mod paragraph.length width
  rw [Nat.mul_comm] at split
  have length : (paragraph ++ [c]).length = paragraph.length + 1 := by simp
  -- the lines before the last are whole already
  have before : ((List.range (paragraph.length / width)).map fun i =>
      ((paragraph ++ [c]).drop (i * width)).take width) = fullLines width paragraph := by
    refine List.map_congr_left fun i inRange => ?_
    have less := List.mem_range.mp inRange
    have inside : (i + 1) * width ≤ paragraph.length / width * width := Nat.mul_le_mul_right width less
    rw [Nat.add_mul, Nat.one_mul] at inside
    rw [List.drop_append_of_le_length (by omega), List.take_append_of_le_length (by simp; omega)]
  have dropped : (paragraph ++ [c]).drop (paragraph.length / width * width) =
      lastLine width paragraph ++ [c] := List.drop_append_of_le_length (by omega)
  have rest := last_line_length width paragraph
  by_cases full : (lastLine width paragraph).length + 1 = width
  · have count : (paragraph ++ [c]).length / width = paragraph.length / width + 1 := by
      rw [length]
      have whole : paragraph.length + 1 = (paragraph.length / width + 1) * width := by
        rw [Nat.add_mul, Nat.one_mul]
        omega
      rw [whole, Nat.mul_div_cancel _ some]
    rw [if_pos full, wrap, count, List.range_succ, List.range_succ, List.map_append, List.map_append, before,
      List.append_assoc]
    congr 1
    simp only [List.map_cons, List.map_nil, List.cons_append, List.nil_append, dropped]
    congr 2
    · exact List.take_of_length_le (by simp; omega)
    · rw [List.drop_eq_nil_of_le, List.take_nil]
      rw [length, Nat.add_mul, Nat.one_mul]
      omega
  · have short := last_line_short width some paragraph
    have count : (paragraph ++ [c]).length / width = paragraph.length / width := by
      rw [length]
      have whole : paragraph.length + 1 = paragraph.length % width + 1 + paragraph.length / width * width := by
        omega
      rw [whole, Nat.add_mul_div_right _ _ some, Nat.div_eq_of_lt (by omega), Nat.zero_add]
    rw [if_neg full, wrap, count, List.range_succ, List.map_append, before]
    congr 1
    simp only [List.map_cons, List.map_nil, dropped]
    congr 1
    exact List.take_of_length_le (by simp; omega)

end Paragraph

section Text
variable [BEq α] [LawfulBEq α] (newline : α) (width : Nat) (text : List α)

omit [LawfulBEq α] in
theorem paragraphs_split : ∃ before last, text.splitOn newline = before ++ [last] := by
  have some := List.splitOn_ne_nil newline text
  exact ⟨_, _, (List.dropLast_append_getLast some).symm⟩

theorem paragraphs_append (c : α) (other : c ≠ newline) (before : List (List α)) (last : List α)
    (split : text.splitOn newline = before ++ [last]) :
    (text ++ [c]).splitOn newline = before ++ [last ++ [c]] := by
  have different : (c == newline) = false := beq_eq_false_iff_ne.mpr other
  induction text generalizing before last with
  | nil =>
      rw [List.splitOn_nil] at split
      have single : before = [] ∧ last = [] := by
        cases before with
        | nil => exact ⟨rfl, (List.singleton_inj.mp split).symm⟩
        | cons first rest => simp at split
      obtain ⟨rfl, rfl⟩ := single
      simp [List.splitOn_cons_eq_if_modifyHead, different]
  | cons first text ih =>
      rw [List.cons_append, List.splitOn_cons_eq_if_modifyHead]
      rw [List.splitOn_cons_eq_if_modifyHead] at split
      by_cases here : (first == newline) = true
      · rw [if_pos here] at split ⊢
        cases before with
        | nil =>
            have none := (List.cons.inj split).2
            exact absurd none (List.splitOn_ne_nil newline text)
        | cons paragraph before =>
            obtain ⟨rfl, rest⟩ := List.cons.inj split
            rw [ih before last rest]
            rfl
      · rw [if_neg here] at split ⊢
        obtain ⟨paragraph, rest, shape⟩ := List.exists_cons_of_ne_nil (List.splitOn_ne_nil newline text)
        rw [shape, List.modifyHead_cons] at split
        cases before with
        | nil =>
            obtain ⟨rfl, none⟩ := List.cons.inj split
            subst none
            rw [ih [] paragraph shape]
            rfl
        | cons one before =>
            obtain ⟨rfl, behind⟩ := List.cons.inj split
            subst behind
            rw [ih (paragraph :: before) last shape]
            rfl

variable (some : 0 < width)
include some

omit [LawfulBEq α] in
theorem lines_nil : lines newline width ([] : List α) = [[]] := by
  rw [lines, List.splitOn_nil, List.flatMap_singleton, wrap_split width some]
  simp [fullLines, lastLine]

omit [LawfulBEq α] in
theorem lines_split : ∃ earlier last, lines newline width text = earlier ++ [last] ∧
    last.length < width := by
  obtain ⟨before, paragraph, split⟩ := paragraphs_split newline text
  refine ⟨before.flatMap (wrap width) ++ fullLines width paragraph, lastLine width paragraph, ?_,
    last_line_short width some paragraph⟩
  rw [lines, split, List.flatMap_append, List.flatMap_singleton, wrap_split width some, List.append_assoc]

theorem lines_newline : lines newline width (text ++ [newline]) = lines newline width text ++ [[]] := by
  rw [lines, List.splitOn_append_cons_self, List.flatMap_append]
  congr 1
  exact lines_nil newline width some

theorem lines_append (c : α) (other : c ≠ newline) (earlier : List (List α)) (last : List α)
    (split : lines newline width text = earlier ++ [last]) :
    lines newline width (text ++ [c]) = earlier ++
      if last.length + 1 = width then [last ++ [c], []] else [last ++ [c]] := by
  obtain ⟨before, paragraph, shape⟩ := paragraphs_split newline text
  rw [lines, shape, List.flatMap_append, List.flatMap_singleton, wrap_split width some,
    ← List.append_assoc] at split
  obtain ⟨rfl, same⟩ := List.append_inj' split rfl
  obtain rfl := List.singleton_inj.mp same
  rw [lines, paragraphs_append newline text c other before paragraph shape, List.flatMap_append,
    List.flatMap_singleton, wrap_append width some, List.append_assoc]

end Text

/-! The character at a place of the text, if there is one. -/

section Places

def charAt (lines : List (List α)) (row column : Nat) : Option α :=
  lines[row]?.bind fun characters => characters[column]?

theorem char_at_empty_line (lines : List (List α)) (row column : Nat) :
    charAt (lines ++ [[]]) row column = charAt lines row column := by
  unfold charAt
  rcases Nat.lt_trichotomy row lines.length with inside | rfl | behind
  · rw [List.getElem?_append_left inside]
  · rw [List.getElem?_append_right (Nat.le_refl _), List.getElem?_eq_none (Nat.le_refl _)]
    simp
  · rw [List.getElem?_append_right (by omega), List.getElem?_eq_none (by simp; omega),
      List.getElem?_eq_none (by omega)]

theorem char_at_append (earlier : List (List α)) (last : List α) (c : α) (row column : Nat) :
    charAt (earlier ++ [last ++ [c]]) row column =
      if row = earlier.length ∧ column = last.length then some c
      else charAt (earlier ++ [last]) row column := by
  unfold charAt
  rcases Nat.lt_trichotomy row earlier.length with inside | rfl | behind
  · rw [if_neg (by omega), List.getElem?_append_left inside, List.getElem?_append_left inside]
  · rw [List.getElem?_append_right (Nat.le_refl _), List.getElem?_append_right (Nat.le_refl _), Nat.sub_self]
    simp only [List.getElem?_cons_zero, Option.bind_some, true_and]
    rw [List.getElem?_append]
    split
    next inLine => rw [if_neg (by omega)]
    next outside =>
      by_cases here : column = last.length
      · subst here
        simp
      · rw [if_neg here, List.getElem?_eq_none (by simp; omega), List.getElem?_eq_none (by omega)]
  · rw [if_neg (by omega), List.getElem?_append_right (by omega), List.getElem?_append_right (by omega),
      List.getElem?_eq_none (by simp; omega), List.getElem?_eq_none (by simp; omega)]

theorem char_at_behind (lines : List (List α)) (row column : Nat) (behind : lines.length ≤ row) :
    charAt lines row column = none := by
  rw [charAt, List.getElem?_eq_none behind]
  rfl

theorem char_at_drop (lines : List (List α)) (first row column : Nat) :
    charAt (lines.drop first) row column = charAt lines (first + row) column := by
  rw [charAt, List.getElem?_drop, charAt]

end Places
end LineWrap
