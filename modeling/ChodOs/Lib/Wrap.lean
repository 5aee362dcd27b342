/-
Text laid out in rows of a fixed width. Wrapping is eager: a row that is full
ends, and the next one is there before it has anything in it. A screen shows
the last rows of a layout.
-/
import Mathlib.Data.List.Basic
import Mathlib.Data.List.Induction

namespace Wrap

variable {α : Type}

/-- The rows of a line. -/
def rowsOf (width : Nat) (line : List α) : List (List α) :=
  (List.range (line.length / width + 1)).map fun i => (line.drop (i * width)).take width

/-- The rows of a text. -/
def layout [BEq α] (width : Nat) (newline : α) (text : List α) : List (List α) :=
  (text.splitOn newline).flatMap (rowsOf width)

def padTo (width : Nat) (blank : α) (row : List α) : List α := row ++ List.replicate (width - row.length) blank

/-- The last rows, as many as there is place for. -/
def lastRows (height : Nat) (rows : List (List α)) : List (List α) := rows.drop (rows.length - height)

/-- They are shown from the top, and everything else is blank. -/
def screen (height width : Nat) (blank : α) (rows : List (List α)) : List (List α) :=
  (List.range height).map fun r => padTo width blank ((lastRows height rows).getD r [])

variable {width height : Nat} {newline blank b : α} {line row text : List α} {rows init : List (List α)} {last : List α}

/-! ## One line -/

/-- The rows that are full. -/
def fullRows (width : Nat) (line : List α) : List (List α) :=
  (List.range (line.length / width)).map fun i => (line.drop (i * width)).take width

/-- What is left for the last row. -/
def rest (width : Nat) (line : List α) : List α := line.drop (line.length / width * width)

theorem length_rest (width : Nat) (line : List α) : (rest width line).length = line.length % width := by
  have hdiv := Nat.div_add_mod' line.length width
  rw [rest, List.length_drop]
  omega

theorem rowsOf_eq (hpos : 0 < width) (line : List α) : rowsOf width line = fullRows width line ++ [rest width line] := by
  have hlt := Nat.mod_lt line.length hpos
  have hlast : (rest width line).take width = rest width line :=
    List.take_of_length_le (by rw [length_rest]; omega)
  rw [rowsOf, List.range_succ, List.map_append, List.map_singleton]
  exact congrArg (fun row => fullRows width line ++ [row]) hlast

/-- What a row becomes when an element is put at its end. -/
def grown (width : Nat) (row : List α) (b : α) : List (List α) :=
  if row.length + 1 < width then [row ++ [b]] else [row ++ [b], []]

/-- A full row stays what it is. -/
theorem row_concat {i : Nat} (hi : (i + 1) * width ≤ line.length) (b : α) :
    ((line ++ [b]).drop (i * width)).take width = (line.drop (i * width)).take width := by
  have hmul : (i + 1) * width = i * width + width := Nat.succ_mul i width
  rw [List.drop_append_of_le_length (by omega), List.take_append_of_le_length (by rw [List.length_drop]; omega)]

theorem fullRows_concat (width : Nat) (line : List α) (b : α) :
    (List.range (line.length / width)).map (fun i => ((line ++ [b]).drop (i * width)).take width) =
      fullRows width line := by
  refine List.map_congr_left fun i hi => row_concat ?_ b
  exact Nat.le_trans (Nat.mul_le_mul_right width (Nat.succ_le_of_lt (List.mem_range.mp hi)))
    (Nat.div_mul_le_self line.length width)

theorem rowsOf_concat (hpos : 0 < width) (line : List α) (b : α) :
    rowsOf width (line ++ [b]) = fullRows width line ++ grown width (rest width line) b := by
  have hlt := Nat.mod_lt line.length hpos
  have hdiv := Nat.div_add_mod' line.length width
  have hrest : (line ++ [b]).drop (line.length / width * width) = rest width line ++ [b] :=
    List.drop_append_of_le_length (by omega)
  have hrow : ((line ++ [b]).drop (line.length / width * width)).take width = rest width line ++ [b] := by
    rw [hrest]
    refine List.take_of_length_le ?_
    rw [List.length_append, length_rest, List.length_singleton]
    omega
  have hdvd : width ∣ line.length + 1 ↔ ¬ line.length % width + 1 < width := by
    rw [← hdiv, Nat.add_assoc, Nat.dvd_add_right (Nat.dvd_mul_left width _), Nat.mul_add_mod', Nat.mod_mod]
    constructor
    · intro h hroom
      exact absurd (Nat.le_of_dvd (Nat.succ_pos _) h) (by omega)
    · intro h
      have hfull : line.length % width + 1 = width := by omega
      exact ⟨1, by rw [Nat.mul_one, hfull]⟩
  rw [rowsOf, List.length_append, List.length_singleton, grown, length_rest, Nat.succ_div]
  by_cases hroom : line.length % width + 1 < width
  · rw [if_neg (fun h => hdvd.mp h hroom), if_pos hroom, Nat.add_zero, List.range_succ, List.map_append,
      List.map_singleton, fullRows_concat, hrow]
  · have hempty : (line ++ [b]).drop ((line.length / width + 1) * width) = [] := by
      refine List.drop_eq_nil_of_le ?_
      rw [List.length_append, List.length_singleton, Nat.succ_mul]
      omega
    rw [if_pos (hdvd.mpr hroom), if_neg hroom, List.range_succ, List.range_succ, List.map_append, List.map_append,
      List.map_singleton, List.map_singleton, fullRows_concat, hrow, hempty, List.take_nil, List.append_assoc]
    rfl

/-! ## A text -/

/-- An element that is no newline goes to the end of the last line. -/
theorem splitOn_concat [BEq α] (h : (b == newline) = false) (text : List α) : ∃ init last,
    text.splitOn newline = init ++ [last] ∧ (text ++ [b]).splitOn newline = init ++ [last ++ [b]] := by
  induction text with
  | nil =>
    refine ⟨[], [], rfl, ?_⟩
    rw [List.nil_append, List.splitOn_cons_eq_if_modifyHead, h]
    rfl
  | cons c text ih =>
    obtain ⟨init, last, hold, hnew⟩ := ih
    rw [List.cons_append, List.splitOn_cons_eq_if_modifyHead, List.splitOn_cons_eq_if_modifyHead, hold, hnew]
    cases hc : c == newline with
    | true => exact ⟨[] :: init, last, rfl, rfl⟩
    | false =>
      cases init with
      | nil => exact ⟨[], c :: last, rfl, rfl⟩
      | cons first init => exact ⟨(c :: first) :: init, last, rfl, rfl⟩

/-- What one more element does to a layout: a newline starts a row, and any
other one goes to the last row, which has room for it. -/
structure Snoc [BEq α] (width : Nat) (newline : α) (text : List α) (init : List (List α)) (last : List α) : Prop where
  rows : layout width newline text = init ++ [last]
  room : last.length < width
  concat_newline : layout width newline (text ++ [newline]) = init ++ [last, []]
  concat : ∀ b, (b == newline) = false → layout width newline (text ++ [b]) = init ++ grown width last b

theorem layout_eq [BEq α] (hpos : 0 < width) {lines : List (List α)} (h : text.splitOn newline = lines ++ [line]) :
    layout width newline text = lines.flatMap (rowsOf width) ++ fullRows width line ++ [rest width line] := by
  rw [layout, h, List.flatMap_append, List.flatMap_singleton, rowsOf_eq hpos, List.append_assoc]

theorem exists_snoc [BEq α] [ReflBEq α] (hpos : 0 < width) (newline : α) (text : List α) :
    ∃ init last, Snoc width newline text init last := by
  obtain ⟨lines, line, hlines⟩ : ∃ lines line, text.splitOn newline = lines ++ [line] :=
    (List.eq_nil_or_concat' _).resolve_left (List.splitOn_ne_nil newline text)
  refine ⟨lines.flatMap (rowsOf width) ++ fullRows width line, rest width line, layout_eq hpos hlines, ?_, ?_,
    fun b hb => ?_⟩
  · rw [length_rest]
    exact Nat.mod_lt _ hpos
  · have hnew : (text ++ [newline]).splitOn newline = (lines ++ [line]) ++ [[]] := by
      rw [List.splitOn_append_cons_self, hlines]
      rfl
    have hempty : rowsOf width ([] : List α) = [[]] := by
      rw [rowsOf_eq hpos, fullRows, rest, List.length_nil, Nat.zero_div, List.drop_nil]
      rfl
    rw [layout, hnew, List.flatMap_append, List.flatMap_append, List.flatMap_singleton, List.flatMap_singleton,
      rowsOf_eq hpos line, hempty]
    simp only [List.append_assoc]
    rfl
  · obtain ⟨lines', line', hold, hnew⟩ := splitOn_concat hb text
    obtain ⟨rfl, hline⟩ := List.append_inj' (hlines.symm.trans hold) rfl
    obtain rfl : line = line' := List.singleton_inj.mp hline
    rw [layout, hnew, List.flatMap_append, List.flatMap_singleton, rowsOf_concat hpos, List.append_assoc]

example : layout 3 0 [1, 2, 3, 0, 4] = [[1, 2, 3], [], [4]] := by decide

theorem length_le_of_mem [BEq α] (h : row ∈ layout width newline text) : row.length ≤ width := by
  obtain ⟨line, -, hrow⟩ := List.mem_flatMap.mp h
  obtain ⟨i, -, rfl⟩ := List.mem_map.mp hrow
  exact List.length_take_le _ _

/-! ## The last rows -/

theorem getElem?_padTo (h : row.length ≤ width) (i : Nat) :
    (padTo width blank row)[i]? = if i < width then some (row.getD i blank) else none := by
  rw [padTo]
  by_cases hi : i < row.length
  · rw [List.getElem?_append_left hi, if_pos (by omega), List.getD_eq_getElem?_getD, List.getElem?_eq_getElem hi,
      Option.getD_some]
  · rw [List.getElem?_append_right (by omega), List.getElem?_replicate, List.getD_eq_getElem?_getD,
      List.getElem?_eq_none (by omega), Option.getD_none]
    by_cases hw : i < width
    · rw [if_pos (by omega), if_pos hw]
    · rw [if_neg (by omega), if_neg hw]

theorem length_lastRows : (lastRows height rows).length = min rows.length height := by
  rw [lastRows, List.length_drop]
  omega

/-- A row more, at the bottom. -/
theorem lastRows_concat (hpos : 0 < height) (rows : List (List α)) (row : List α) : lastRows height (rows ++ [row]) =
    (if rows.length < height then lastRows height rows else (lastRows height rows).tail) ++ [row] := by
  rw [lastRows, lastRows, List.length_append, List.length_singleton]
  split
  · rw [show rows.length + 1 - height = 0 by omega, show rows.length - height = 0 by omega, List.drop_zero,
      List.drop_zero]
  · rw [List.tail_drop, List.drop_append_of_le_length (by omega),
      show rows.length + 1 - height = rows.length - height + 1 by omega]

end Wrap
