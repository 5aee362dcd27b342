/-
A line of the shell (`read_line` in `mushell/src/main.rs`) and its echo on
the terminal (`term.rs`). The line is edited as one expects; what is seen of
it is right until a character is erased at the left edge of the grid, for the
cursor does not go back to the row above.
-/
import ChodOs.Gui.Term

namespace ChodOs

open Wrap

/-! ## The code -/

/-- `buf` and `n`, and what has been written. -/
structure LineState where
  buf : List UInt8
  n : Nat
  echo : List UInt8

def backspace : UInt8 := 0x08

/-- `127 | 8`. -/
def isErase (c : UInt8) : Bool := c == 127 || c == 8

/-- `b'\n' | b'\r'`, `^C` and `^D`. -/
def endsLine (c : UInt8) : Bool := c == newline || c == 0x0D || c == 3 || c == 4

namespace LineState

/-- A turn of the loop, and what is returned if it is the last. -/
def turn (s : LineState) (c : UInt8) : LineState × Option Nat :=
  if c = newline ∨ c = 0x0D then ({ s with echo := s.echo ++ [newline] }, some s.n)
  else if c = 3 then ({ s with echo := s.echo ++ [0x5E, 0x43, newline] }, some 0)
  else if c = 4 then
    ({ s with buf := [0x65, 0x78, 0x69, 0x74] ++ s.buf.drop 4, echo := s.echo ++ [newline] }, some 4)
  else if isErase c then
    if 0 < s.n then ({ s with n := s.n - 1, echo := s.echo ++ [backspace, space, backspace] }, none) else (s, none)
  else if isPrintable c then
    if s.n + 1 < s.buf.length then
      ({ buf := s.buf.set s.n c, n := s.n + 1, echo := s.echo ++ [c] }, none)
    else (s, none)
  else (s, none)

/-- `read_line`, over the bytes that are read: what it returns and the bytes that it has not read.
`none`: it waits for more. -/
def readLine (s : LineState) : List UInt8 → LineState × Option (Nat × List UInt8)
  | [] => (s, none)
  | c :: cs =>
    match s.turn c with
    | (s, some n) => (s, some (n, cs))
    | (s, none) => s.readLine cs

/-- The line as it is. -/
def line (s : LineState) : List UInt8 := s.buf.take s.n

end LineState

/-- The buffer of `mukernel_main`. -/
def lineMax : Nat := 256

/-! ## An editor -/

/-- A key of a line of at most 255 characters. -/
def editKey (line : List UInt8) (c : UInt8) : List UInt8 :=
  if isErase c then line.dropLast
  else if isPrintable c ∧ line.length + 1 < lineMax then line ++ [c]
  else line

def edited (keys : List UInt8) : List UInt8 := keys.foldl editKey []

/-- The line that a key ends, and what is written then. -/
def lineEnd (line : List UInt8) (c : UInt8) : List UInt8 × List UInt8 :=
  if c = 3 then ([], [0x5E, 0x43, newline])
  else if c = 4 then ([0x65, 0x78, 0x69, 0x74], [newline])
  else (line, [newline])

/-! ## What is seen -/

/-- The layout of a text ends with an empty row. -/
def atEdge (text : List UInt8) : Bool := (layout termCols newline text).getLast? == some []

/-- The line and what is seen of it, behind a text. -/
structure Seen where
  line : List UInt8
  shown : List UInt8

/-- An erased character stays to be seen when the cursor is at the left edge. -/
def Seen.key (text : List UInt8) (s : Seen) (c : UInt8) : Seen where
  line := editKey s.line c
  shown :=
    if isErase c then
      if s.line ≠ [] ∧ atEdge (text ++ s.shown) = false then s.shown.dropLast else s.shown
    else if isPrintable c ∧ s.line.length + 1 < lineMax then s.shown ++ [c]
    else s.shown

def seen (text keys : List UInt8) : Seen := keys.foldl (Seen.key text) ⟨[], []⟩

/-- No character is erased at the left edge. -/
def NoEdge (text keys : List UInt8) : Prop := ∀ g c, g ++ [c] <+: keys → isErase c = true → edited g ≠ [] →
  atEdge (text ++ edited g) = false

/-- The terminal displays a text. -/
def Term.Shows (t : Term) (text : List UInt8) : Prop := ∃ init last,
  layout termCols newline text = init ++ [last] ∧ t.Displays init last

variable {t : Term} {s : LineState} {text keys line : List UInt8} {b c : UInt8} {init rows : List (List UInt8)}
  {last : List UInt8}

/-! ## The buffer -/

namespace LineState

/-- The buffer holds the line. -/
structure Holds (s : LineState) (line : List UInt8) : Prop where
  size : s.buf.length = lineMax
  n : s.n = line.length
  room : line.length < lineMax
  eq : s.line = line

/-- What a key writes. -/
def echoOf (line : List UInt8) (c : UInt8) : List UInt8 :=
  if isErase c then if line ≠ [] then [backspace, space, backspace] else []
  else if isPrintable c ∧ line.length + 1 < lineMax then [c]
  else []

theorem endsLine_eq_false (h : endsLine c = false) : ¬ (c = newline ∨ c = 0x0D) ∧ c ≠ 3 ∧ c ≠ 4 := by
  simp only [endsLine, Bool.or_eq_false_iff, beq_eq_false_iff_ne, ne_eq] at h
  tauto

theorem Holds.turn (h : s.Holds line) (hc : endsLine c = false) : (s.turn c).2 = none ∧
    (s.turn c).1.Holds (editKey line c) ∧ (s.turn c).1.echo = s.echo ++ echoOf line c := by
  obtain ⟨hsize, hn, hroom, heq⟩ := h
  obtain ⟨hnl, h3, h4⟩ := endsLine_eq_false hc
  rw [LineState.turn, if_neg hnl, if_neg h3, if_neg h4, editKey, echoOf]
  by_cases he : isErase c = true
  · rw [if_pos he, if_pos he, if_pos he]
    by_cases hpos : line = []
    · subst hpos
      rw [if_neg (by rw [hn]; decide), if_neg (by simp)]
      exact ⟨rfl, ⟨hsize, hn, hroom, heq⟩, (List.append_nil _).symm⟩
    · have hlen := List.length_pos_iff.mpr hpos
      rw [if_pos (by omega), if_pos hpos]
      refine ⟨rfl, ⟨hsize, ?_, ?_, ?_⟩, rfl⟩
      · rw [List.length_dropLast, ← hn]
      · rw [List.length_dropLast]
        omega
      · rw [← heq, LineState.line, LineState.line, List.dropLast_take (by omega)]
  · rw [if_neg he, if_neg he, if_neg he]
    by_cases hp : isPrintable c = true
    · by_cases hlen : line.length + 1 < lineMax
      · rw [if_pos hp, if_pos (by rw [hsize, hn]; exact hlen), if_pos ⟨hp, hlen⟩, if_pos ⟨hp, hlen⟩]
        refine ⟨rfl, ⟨?_, ?_, ?_, ?_⟩, rfl⟩
        · rw [List.length_set, hsize]
        · rw [List.length_append, List.length_singleton, hn]
        · rw [List.length_append, List.length_singleton]
          exact hlen
        · rw [LineState.line, List.take_add_one, List.take_set_of_le (Nat.le_refl _), List.getElem?_set_self (by omega)]
          exact congrArg (· ++ [c]) heq
      · rw [if_pos hp, if_neg (by rw [hsize, hn]; exact hlen), if_neg (fun h => hlen h.2), if_neg (fun h => hlen h.2)]
        exact ⟨rfl, ⟨hsize, hn, hroom, heq⟩, (List.append_nil _).symm⟩
    · rw [if_neg hp, if_neg (fun h => hp h.1), if_neg (fun h => hp h.1)]
      exact ⟨rfl, ⟨hsize, hn, hroom, heq⟩, (List.append_nil _).symm⟩

theorem Holds.ends (h : s.Holds line) (hc : endsLine c = true) : ∃ n, (s.turn c).2 = some n ∧
    (s.turn c).1.buf.take n = (lineEnd line c).1 ∧ (s.turn c).1.echo = s.echo ++ (lineEnd line c).2 := by
  obtain ⟨hsize, hn, hroom, heq⟩ := h
  simp only [endsLine, Bool.or_eq_true, beq_iff_eq] at hc
  rw [LineState.turn, lineEnd]
  rcases hc with ((rfl | rfl) | rfl) | rfl
  · exact ⟨_, rfl, heq, rfl⟩
  · exact ⟨_, rfl, heq, rfl⟩
  · exact ⟨_, rfl, rfl, rfl⟩
  · exact ⟨_, rfl, rfl, rfl⟩

end LineState

/-! ## The grid -/

namespace Term

theorem getD_concat_default {α : Type} (l : List α) (d : α) (i : Nat) : (l ++ [d]).getD i d = l.getD i d := by
  rcases Nat.lt_trichotomy i l.length with hlt | rfl | hgt
  · rw [List.getD_append _ _ _ _ hlt]
  · rw [List.getD_append_right _ _ _ _ (Nat.le_refl _), List.getD_eq_default _ _ (Nat.le_refl _), Nat.sub_self]
    rfl
  · rw [List.getD_eq_default _ _ (by rw [List.length_append, List.length_singleton]; omega),
      List.getD_eq_default _ _ (by omega)]

/-- Rows are seen as their cells are. -/
theorem Cells.congr (row : List UInt8) {row' : List UInt8} (h : Cells t (rows ++ [row]))
    (hrow : ∀ c, row.getD c space = row'.getD c space) : Cells t (rows ++ [row']) := by
  intro r c hr hc
  rw [h r c hr hc]
  rcases Nat.lt_trichotomy r rows.length with hlt | rfl | hgt
  · rw [List.getD_append _ _ _ _ hlt, List.getD_append _ _ _ _ hlt]
  · rw [List.getD_append_right _ _ _ _ (Nat.le_refl _), List.getD_append_right _ _ _ _ (Nat.le_refl _), Nat.sub_self,
      List.getD_cons_zero, List.getD_cons_zero, hrow]
  · have hbelow (row : List UInt8) : (rows ++ [row]).getD r [] = [] :=
      List.getD_eq_default _ _ (by rw [List.length_append, List.length_singleton]; omega)
    rw [hbelow, hbelow]

/-- The last byte of the last row is overwritten. -/
theorem Cells.overwrite (h : Cells t (rows ++ [last ++ [b]])) (hcol : last.length < termCols)
    (hrow : rows.length < termRows) : Cells (t.store rows.length last.length space) (rows ++ [last]) := by
  intro r c hr hc
  rw [getElem?_store _ _ _ (index_lt hrow hcol), h r c hr hc]
  simp only [index_inj hc hcol]
  rcases Nat.lt_trichotomy r rows.length with hlt | rfl | hgt
  · rw [if_neg (by omega), List.getD_append _ _ _ _ hlt, List.getD_append _ _ _ _ hlt]
  · rw [List.getD_append_right _ _ _ _ (Nat.le_refl _), List.getD_append_right _ _ _ _ (Nat.le_refl _), Nat.sub_self,
      List.getD_cons_zero, List.getD_cons_zero]
    rcases Nat.lt_trichotomy c last.length with hlt | rfl | hgt
    · rw [if_neg (by omega), List.getD_append _ _ _ _ hlt]
    · rw [if_pos ⟨rfl, rfl⟩, List.getD_eq_default _ _ (Nat.le_refl _)]
    · rw [if_neg (by omega), List.getD_eq_default _ _ (by rw [List.length_append, List.length_singleton]; omega),
        List.getD_eq_default _ _ (by omega)]
  · have hbelow (row : List UInt8) : (rows ++ [row]).getD r [] = [] :=
      List.getD_eq_default _ _ (by rw [List.length_append, List.length_singleton]; omega)
    rw [if_neg (by omega), hbelow, hbelow]

/-- The rows in the grid above the last one. -/
theorem Displays.above (h : Displays t init last) : ∃ above : List (List UInt8), above.length = t.row ∧
    ∀ row, lastRows termRows (init ++ [row]) = above ++ [row] := by
  have hheight : 0 < termRows := by decide
  refine ⟨_, ?_, fun row => lastRows_concat hheight init row⟩
  have hlen : (lastRows termRows (init ++ [last])).length = min (init.length + 1) termRows := by
    rw [length_lastRows, List.length_append, List.length_singleton]
  rw [lastRows_concat hheight, List.length_append, List.length_singleton] at hlen
  have hrow := h.row
  omega

theorem writeByte_backspace (hesc : t.esc = .normal) : t.writeByte backspace = { t with col := t.col - 1 } := by
  obtain ⟨buf, col, row, e⟩ := t
  obtain rfl : e = .normal := hesc
  simp only [writeByte]
  rw [if_neg (by decide), if_neg (by decide), if_neg (by decide), if_pos (by rfl)]
  split
  · rfl
  · next hpos => rw [Nat.eq_zero_of_not_pos hpos]

/-- A blank at the cursor's left, or at the cursor if it is at the edge. -/
theorem writeBytes_erase (hesc : t.esc = .normal) (hgrid : t.InGrid) :
    t.writeBytes [backspace, space, backspace] = { t.store t.row (t.col - 1) space with col := t.col - 1 } := by
  obtain ⟨hrow, hcol⟩ := hgrid
  have hspace : ({ t with col := t.col - 1 } : Term).writeByte space =
      { t.store t.row (t.col - 1) space with col := t.col - 1 + 1 } := by
    rw [writeByte_printable (t := { t with col := t.col - 1 }) hesc ⟨hrow, by dsimp only; omega⟩ (by decide),
      if_neg (by simp only [termCols] at *; omega)]
    rfl
  rw [writeBytes, List.foldl_cons, List.foldl_cons, List.foldl_cons, List.foldl_nil, writeByte_backspace hesc, hspace,
    writeByte_backspace (t := { t.store t.row (t.col - 1) space with col := t.col - 1 + 1 }) hesc]
  rfl

/-- At the left edge nothing is erased. -/
theorem Displays.edge (h : Displays t init []) : Displays (t.writeBytes [backspace, space, backspace]) init [] := by
  have hcol : t.col = 0 := h.col
  rw [writeBytes_erase h.esc h.inGrid, hcol]
  obtain ⟨above, hlen, hrows⟩ := h.above
  refine ⟨?_, h.row, rfl, h.room, h.esc⟩
  have hstore := h.store space
  rw [hcol, hrows, List.nil_append] at hstore
  rw [hrows]
  exact Cells.congr [space] hstore fun c => getD_concat_default [] space c

/-- Elsewhere the last byte of the row is. -/
theorem Displays.erase (h : Displays t init (last ++ [b])) :
    Displays (t.writeBytes [backspace, space, backspace]) init last := by
  have hcol : t.col = last.length + 1 := by rw [h.col, List.length_append, List.length_singleton]
  have hroom := h.room
  rw [List.length_append, List.length_singleton] at hroom
  rw [writeBytes_erase h.esc h.inGrid, hcol, Nat.add_sub_cancel]
  obtain ⟨above, hlen, hrows⟩ := h.above
  have hcells := h.cells
  rw [hrows] at hcells
  refine ⟨?_, h.row, rfl, by omega, h.esc⟩
  rw [hrows, ← hlen]
  exact hcells.overwrite (by omega) (hlen ▸ h.inGrid.1)

/-! ## The line on the terminal -/

theorem Shows.printable (h : t.Shows text) (hb : isPrintable b = true) : (t.writeByte b).Shows (text ++ [b]) := by
  obtain ⟨init, last, hrows, hd⟩ := h
  obtain ⟨init', last', hsnoc⟩ : ∃ init last, Snoc termCols newline text init last :=
    exists_snoc (by decide) newline text
  obtain ⟨rfl, hlast⟩ := List.append_inj' (hrows.symm.trans hsnoc.rows) rfl
  obtain rfl := List.singleton_inj.mp hlast
  obtain ⟨init'', last'', hnext, hgrown⟩ := hd.printable hb
  have hne : (b == newline) = false := by
    rw [beq_eq_false_iff_ne]
    rintro rfl
    exact absurd hb (by decide)
  exact ⟨init'', last'', (hsnoc.concat b hne).trans hgrown.symm, hnext⟩

theorem atEdge_iff (hrows : layout termCols newline text = init ++ [last]) : atEdge text = true ↔ last = [] := by
  rw [atEdge, hrows, List.getLast?_concat, beq_iff_eq, Option.some.injEq]

theorem Shows.edge (h : t.Shows text) (he : atEdge text = true) :
    (t.writeBytes [backspace, space, backspace]).Shows text := by
  obtain ⟨init, last, hrows, hd⟩ := h
  obtain rfl := (atEdge_iff hrows).mp he
  exact ⟨init, [], hrows, hd.edge⟩

theorem Shows.erase (h : t.Shows (text ++ [b])) (hb : isPrintable b = true) (he : atEdge (text ++ [b]) = false) :
    (t.writeBytes [backspace, space, backspace]).Shows text := by
  obtain ⟨init, last, hrows, hd⟩ := h
  obtain ⟨init', last', hsnoc⟩ : ∃ init last, Snoc termCols newline text init last :=
    exists_snoc (by decide) newline text
  have hne : (b == newline) = false := by
    rw [beq_eq_false_iff_ne]
    rintro rfl
    exact absurd hb (by decide)
  have hgrown := hrows.symm.trans (hsnoc.concat b hne)
  rw [grown] at hgrown
  split at hgrown
  · obtain ⟨rfl, hlast⟩ := List.append_inj' hgrown rfl
    obtain rfl := List.singleton_inj.mp hlast
    exact ⟨init, last', hsnoc.rows, hd.erase⟩
  · have hempty : init' ++ [last' ++ [b], []] = (init' ++ [last' ++ [b]]) ++ [[]] := by rw [List.append_assoc]; rfl
    rw [hempty] at hgrown
    obtain ⟨-, hlast⟩ := List.append_inj' hgrown rfl
    rw [(atEdge_iff hrows).mpr (List.singleton_inj.mp hlast)] at he
    cases he

end Term

/-! ## Runs -/

/-- What is seen has the line's length at least, and printable characters only. -/
structure Seen.Sound (p : Seen) : Prop where
  length : p.line.length ≤ p.shown.length
  printable : ∀ b ∈ p.shown, isPrintable b = true

theorem seen_concat (text keys : List UInt8) (c : UInt8) : seen text (keys ++ [c]) = (seen text keys).key text c :=
  List.foldl_append

theorem edited_concat (keys : List UInt8) (c : UInt8) : edited (keys ++ [c]) = editKey (edited keys) c :=
  List.foldl_append

theorem seen_line (text keys : List UInt8) : (seen text keys).line = edited keys := by
  induction keys using List.reverseRecOn with
  | nil => rfl
  | append_singleton keys c ih => rw [seen_concat, edited_concat, ← ih, Seen.key]

theorem Seen.Sound.key {p : Seen} (h : p.Sound) (text : List UInt8) (c : UInt8) : (p.key text c).Sound := by
  obtain ⟨hlen, hprint⟩ := h
  rw [Seen.key, editKey]
  by_cases he : isErase c = true
  · simp only [if_pos he]
    split
    · exact ⟨by simp only [List.length_dropLast]; omega, fun b hb => hprint b (List.dropLast_subset _ hb)⟩
    · exact ⟨by simp only [List.length_dropLast]; omega, hprint⟩
  · simp only [if_neg he]
    split
    · next hp =>
      refine ⟨by simp only [List.length_append, List.length_singleton]; omega, fun b hb => ?_⟩
      rcases List.mem_append.mp hb with hb | hb
      · exact hprint b hb
      · rw [List.mem_singleton.mp hb]
        exact hp.1
    · exact ⟨hlen, hprint⟩

theorem seen_sound (text keys : List UInt8) : (seen text keys).Sound := by
  induction keys using List.reverseRecOn with
  | nil => exact ⟨Nat.le_refl _, fun b hb => by cases hb⟩
  | append_singleton keys c ih => rw [seen_concat]; exact ih.key text c

/-- What a key writes shows it. -/
theorem Term.Shows.key {p : Seen} (h : t.Shows (text ++ p.shown)) (hp : p.Sound) (c : UInt8) :
    (t.writeBytes (LineState.echoOf p.line c)).Shows (text ++ (p.key text c).shown) := by
  rw [LineState.echoOf, Seen.key]
  by_cases he : isErase c = true
  · simp only [if_pos he]
    by_cases hline : p.line = []
    · rw [if_neg (by simp [hline]), if_neg (by simp [hline])]
      exact h
    · rw [if_pos hline]
      cases hedge : atEdge (text ++ p.shown) with
      | true =>
        rw [if_neg (by simp)]
        exact h.edge hedge
      | false =>
        rw [if_pos ⟨hline, rfl⟩]
        have hpos := List.length_pos_iff.mpr hline
        have hshown : p.shown ≠ [] := List.length_pos_iff.mp (Nat.lt_of_lt_of_le hpos hp.length)
        rw [← List.dropLast_append_getLast hshown, ← List.append_assoc] at h hedge
        exact h.erase (hp.printable _ (List.getLast_mem hshown)) hedge
  · simp only [if_neg he]
    split
    · next hprint =>
      rw [← List.append_assoc]
      exact h.printable hprint.1
    · exact h

/-- What is seen stays the line as long as no character is erased at the edge, and never becomes it again. -/
theorem Seen.Sound.key_eq_iff {p : Seen} (h : p.Sound) (heq : p.shown.length = p.line.length → p.shown = p.line)
    (text : List UInt8) (c : UInt8) : ((p.key text c).shown.length = (p.key text c).line.length ↔
      p.shown = p.line ∧ (isErase c = true → p.line ≠ [] → atEdge (text ++ p.line) = false)) ∧
    ((p.key text c).shown.length = (p.key text c).line.length → (p.key text c).shown = (p.key text c).line) := by
  have hlen := h.length
  rw [Seen.key, editKey]
  by_cases he : isErase c = true
  · simp only [if_pos he]
    by_cases hline : p.line = []
    · rw [if_neg (by simp [hline])]
      simp only [hline, List.dropLast_nil, ne_eq, not_true_eq_false, false_implies, implies_true, and_true,
        List.length_nil, List.length_eq_zero_iff]
      exact ⟨trivial, fun h => h⟩
    · have hpos := List.length_pos_iff.mpr hline
      cases hedge : atEdge (text ++ p.shown) with
      | true =>
        rw [if_neg (by simp), List.length_dropLast]
        refine ⟨⟨fun hcon => by omega, fun hcon => ?_⟩, fun hcon => by omega⟩
        obtain ⟨hsame, hno⟩ := hcon
        rw [hsame, hno he hline] at hedge
        cases hedge
      | false =>
        rw [if_pos ⟨hline, rfl⟩, List.length_dropLast, List.length_dropLast]
        refine ⟨⟨fun hsame => ?_, fun hsame => by rw [hsame.1]⟩, fun hsame => by rw [heq (by omega)]⟩
        have hsame := heq (by omega)
        exact ⟨hsame, fun _ _ => hsame ▸ hedge⟩
  · rw [if_neg he, if_neg he]
    simp only [he, false_implies, and_true, Bool.false_eq_true]
    split
    · simp only [List.length_append, List.length_singleton, Nat.add_right_cancel_iff]
      exact ⟨⟨heq, congrArg List.length⟩, fun hsame => by rw [heq hsame]⟩
    · exact ⟨⟨heq, congrArg List.length⟩, heq⟩

theorem noEdge_concat : NoEdge text (keys ++ [c]) ↔
    NoEdge text keys ∧ (isErase c = true → edited keys ≠ [] → atEdge (text ++ edited keys) = false) := by
  constructor
  · intro h
    exact ⟨fun g c' hg => h g c' (hg.trans (List.prefix_append _ _)), h keys c (List.prefix_refl _)⟩
  · rintro ⟨h, hlast⟩ g c' hg
    rcases List.prefix_concat_iff.mp hg with he | hg
    · obtain ⟨rfl, hc⟩ := List.append_inj' he rfl
      obtain rfl := List.singleton_inj.mp hc
      exact hlast
    · exact h g c' hg

/-- What is seen is the line exactly when no character was erased at the edge. -/
theorem seen_shown_iff (text keys : List UInt8) : (seen text keys).shown = edited keys ↔ NoEdge text keys := by
  suffices h : ((seen text keys).shown.length = (seen text keys).line.length ↔ NoEdge text keys) ∧
      ((seen text keys).shown.length = (seen text keys).line.length → (seen text keys).shown = (seen text keys).line) by
    rw [← seen_line text keys, ← h.1]
    exact ⟨congrArg List.length, h.2⟩
  induction keys using List.reverseRecOn with
  | nil =>
    refine ⟨⟨fun _ g c hg => ?_, fun _ => rfl⟩, fun _ => rfl⟩
    exact absurd (List.prefix_nil.mp hg) (by simp)
  | append_singleton keys c ih =>
    obtain ⟨hiff, heq⟩ := ih
    obtain ⟨hstep, hnext⟩ := (seen_sound text keys).key_eq_iff heq text c
    rw [seen_concat]
    refine ⟨?_, hnext⟩
    rw [noEdge_concat, hstep, ← hiff, ← seen_line text keys]
    exact and_congr_left' ⟨congrArg List.length, heq⟩

/-- A loop that goes on: the buffer is as edited, and what is written shows it. -/
theorem LineState.Holds.goesOn (text : List UInt8) (hs : s.Holds []) (hkeys : ∀ c ∈ keys, endsLine c = false)
    (ht : t.Shows text) (rest : List UInt8) : ∃ (s' : LineState) (echo : List UInt8),
      s.readLine (keys ++ rest) = s'.readLine rest ∧ s'.Holds (edited keys) ∧ s'.echo = s.echo ++ echo ∧
        (t.writeBytes echo).Shows (text ++ (seen text keys).shown) := by
  induction keys using List.reverseRecOn generalizing rest with
  | nil => exact ⟨s, [], rfl, hs, (List.append_nil _).symm, by rw [seen, List.foldl_nil, List.append_nil]; exact ht⟩
  | append_singleton keys c ih =>
    obtain ⟨s', echo, hrun, hheld, hecho, hshows⟩ := ih (fun c hc => hkeys c (List.mem_append_left _ hc)) ([c] ++ rest)
    obtain ⟨hnone, hheld', hecho'⟩ := hheld.turn (hkeys c (List.mem_append_right _ (List.mem_singleton_self c)))
    refine ⟨(s'.turn c).1, echo ++ echoOf (edited keys) c, ?_, ?_, ?_, ?_⟩
    · rw [List.append_assoc, hrun, List.singleton_append, readLine]
      generalize s'.turn c = r at hnone
      obtain ⟨s'', n⟩ := r
      obtain rfl : n = none := hnone
      rfl
    · rw [edited_concat]
      exact hheld'
    · rw [hecho', hecho, List.append_assoc]
    · have hkey := hshows.key (seen_sound text keys) c
      rw [seen_line, ← Term.writeBytes_append] at hkey
      rw [seen_concat]
      exact hkey

/-- The shell's prompt is shown, the buffer holds whatever it did, and keys
come, the last of them one that ends the line. Then `read_line` returns the
line as an editor makes it of the keys (`^C`: nothing, `^D`: `exit`), what
comes after them is left, and what it has written up to the last key shows the
same line behind the prompt, rows of 34 columns under each other, exactly when
no character was erased while the cursor was at the left edge. -/
theorem line_read_and_shown {prompt : List UInt8} {buf rest : List UInt8} (hbuf : buf.length = lineMax)
    (ht : t.Shows prompt) (hkeys : ∀ c ∈ keys, endsLine c = false) (hc : endsLine c = true) :
    ∃ (s : LineState) (n : Nat) (echo shown : List UInt8),
      LineState.readLine ⟨buf, 0, []⟩ (keys ++ c :: rest) = (s, some (n, rest)) ∧
      s.buf.take n = (lineEnd (edited keys) c).1 ∧ s.echo = echo ++ (lineEnd (edited keys) c).2 ∧
      (t.writeBytes echo).Shows (prompt ++ shown) ∧ (shown = edited keys ↔ NoEdge prompt keys) := by
  have hs : LineState.Holds ⟨buf, 0, []⟩ [] := ⟨hbuf, rfl, by decide, rfl⟩
  obtain ⟨s', echo, hrun, hheld, hecho, hshows⟩ := hs.goesOn prompt hkeys ht (c :: rest)
  obtain ⟨n, hn, hline, hend⟩ := hheld.ends hc
  refine ⟨(s'.turn c).1, n, echo, _, ?_, hline, ?_, hshows, seen_shown_iff prompt keys⟩
  · rw [hrun, LineState.readLine]
    generalize s'.turn c = r at hn
    obtain ⟨s'', n'⟩ := r
    obtain rfl : n' = some n := hn
    rfl
  · rw [hend, hecho]
    rfl

/-- `mukernel$ `. -/
def shellPrompt : List UInt8 := [0x6D, 0x75, 0x6B, 0x65, 0x72, 0x6E, 0x65, 0x6C, 0x24, 0x20]

/-- The 24th character takes the cursor to the next row, and there it cannot be erased. -/
example : (seen shellPrompt (List.replicate 24 0x61 ++ [127])).shown.length = 24 ∧
    (edited (List.replicate 24 0x61 ++ [127])).length = 23 := by decide +kernel

/-- `lt`, the `t` erased, and `s`. -/
theorem line_read_and_shown_ls : ∃ (s : LineState) (n : Nat) (echo shown : List UInt8),
    LineState.readLine ⟨List.replicate lineMax 0, 0, []⟩ ([0x6C, 0x74, 0x7F, 0x73] ++ [newline]) = (s, some (n, [])) ∧
    s.buf.take n = [0x6C, 0x73] ∧ s.echo = echo ++ [newline] ∧
    ((Term.cleared.writeBytes shellPrompt).writeBytes echo).Shows (shellPrompt ++ shown) ∧
    (shown = [0x6C, 0x73] ↔ NoEdge shellPrompt [0x6C, 0x74, 0x7F, 0x73]) :=
  line_read_and_shown List.length_replicate
    (Term.displays_writeBytes fun b hb => .inl (List.all_eq_true.mp (by decide : shellPrompt.all isPrintable = true) b hb))
    (fun c hc => Bool.eq_false_iff.mpr fun he => absurd (List.any_eq_true.mpr ⟨c, hc, he⟩)
      (by decide : ¬ [0x6C, 0x74, 0x7F, 0x73].any endsLine = true)) rfl

end ChodOs
