/-
The terminal of the shell's window (`term.rs`): a grid of 17 rows and 34
columns, the cursor, and the escape sequences that are skipped. It shows the
tail of the text, laid out with eager wrapping.
-/
import ChodOs.Lib.Slots
import ChodOs.Lib.Wrap
import Mathlib.Data.List.GetD

namespace ChodOs

open Wrap

def termCols : Nat := 34
def termRows : Nat := 17

def space : UInt8 := 0x20
def newline : UInt8 := 0x0A

inductive EscState
  | normal | esc | csi
  deriving DecidableEq, Repr

/-- `TERM_BUF`, `TERM_COL`, `TERM_ROW` and `ESC_STATE`. -/
structure Term where
  buf : Table UInt8 (termCols * termRows)
  col : Nat
  row : Nat
  esc : EscState

/-- `u8::is_ascii_alphabetic`. -/
def isAsciiAlphabetic (b : UInt8) : Bool := (0x41 ≤ b && b ≤ 0x5A) || (0x61 ≤ b && b ≤ 0x7A)

/-- `b' '..=b'~'`. -/
def isPrintable (b : UInt8) : Bool := 0x20 ≤ b && b ≤ 0x7E

namespace Term

/-- The cleared terminal. -/
def cleared : Term := ⟨.fill _ space, 0, 0, .normal⟩

/-- `cell(r, c).store(b)`. -/
def store (t : Term) (r c : Nat) (b : UInt8) : Term := { t with buf := t.buf.set (r * termCols + c) b }

/-- `cell(r, c).store(cell(r + 1, c).load())`. -/
def copyUp (r : Nat) (t : Term) (c : Nat) : Term :=
  (t.buf.1[(r + 1) * termCols + c]?).elim t fun b => t.store r c b

def scrollUp (t : Term) : Term :=
  let t := (List.range (termRows - 1)).foldl (fun t r => (List.range termCols).foldl (copyUp r) t) t
  let t := (List.range termCols).foldl (fun t c => t.store (termRows - 1) c space) t
  { t with row := termRows - 1 }

/-- To the start of the next row. -/
def nextRow (t : Term) : Term :=
  let t := { t with col := 0 }
  if t.row + 1 < termRows then { t with row := t.row + 1 } else t.scrollUp

def writeByte (t : Term) (b : UInt8) : Term :=
  match t.esc with
  | .esc => if b = 0x5B then { t with esc := .csi } else { t with esc := .normal }
  | .csi => if isAsciiAlphabetic b then { t with esc := .normal } else t
  | .normal =>
    if b = 0x1B then { t with esc := .esc }
    else if b = 0x0D then { t with col := 0 }
    else if b = newline then t.nextRow
    else if b = 0x08 then if 0 < t.col then { t with col := t.col - 1 } else t
    else if b = 0x07 then t
    else if isPrintable b then
      if t.row < termRows ∧ t.col < termCols then
        let t := t.store t.row t.col b
        if termCols ≤ t.col + 1 then t.nextRow else { t with col := t.col + 1 }
      else t
    else t

/-- `write_bytes`, without the repaint. -/
def writeBytes (t : Term) (bytes : List UInt8) : Term := bytes.foldl writeByte t

/-- The rows of the grid. -/
def grid (t : Term) : List (List UInt8) := (List.range termRows).map fun r => (t.buf.1.drop (r * termCols)).take termCols

/-- The cursor is in the grid. -/
def InGrid (t : Term) : Prop := t.row < termRows ∧ t.col < termCols

/-- The grid is the tail of the layout, and the cursor is at its end. -/
structure ShowsTail (t : Term) (rows : List (List UInt8)) : Prop where
  grid : t.grid = screen termRows termCols space rows
  row : t.row + 1 = min rows.length termRows
  col : rows.getLast?.map List.length = some t.col

/-- `ESC [`, and on to a letter. -/
def IsCsi (seq : List UInt8) : Prop :=
  ∃ body letter, seq = 0x1B :: 0x5B :: (body ++ [letter]) ∧ (∀ b ∈ body, isAsciiAlphabetic b = false) ∧
    isAsciiAlphabetic letter = true

/-- The stream is the text with escape sequences somewhere in it. -/
inductive WithCsi : List UInt8 → List UInt8 → Prop
  | nil : WithCsi [] []
  | byte (b : UInt8) {text stream : List UInt8} : WithCsi text stream → WithCsi (b :: text) (b :: stream)
  | csi {seq text stream : List UInt8} : IsCsi seq → WithCsi text stream → WithCsi text (seq ++ stream)

variable {t t' : Term} {b : UInt8} {bytes seq text stream row last : List UInt8} {rows init : List (List UInt8)}
  {i n r c : Nat}

/-! ## Scrolling -/

theorem getElem?_store (t : Term) (c : Nat) (b : UInt8) (h : r * termCols + c < termCols * termRows) (i : Nat) :
    (t.store r c b).buf.1[i]? = if i = r * termCols + c then some b else t.buf.1[i]? := by
  have hsize := t.buf.2
  change (t.buf.1.set (r * termCols + c) b)[i]? = _
  rw [List.getElem?_set]
  by_cases hi : r * termCols + c = i
  · rw [if_pos hi, if_pos hi.symm, if_pos (by omega)]
  · rw [if_neg hi, if_neg (Ne.symm hi)]

/-- A loop that stores along a row, where what it stores depends on other rows only. -/
theorem getElem?_storeRow {f : Term → Nat → Term} {cell : Nat → UInt8} (hr : r < termRows) (hn : n ≤ termCols)
    (hf : ∀ t' c, c < n → (∀ i, r * termCols + termCols ≤ i → t'.buf.1[i]? = t.buf.1[i]?) → f t' c = t'.store r c (cell c))
    (i : Nat) : ((List.range n).foldl f t).buf.1[i]? =
      if r * termCols ≤ i ∧ i < r * termCols + n then some (cell (i - r * termCols)) else t.buf.1[i]? := by
  have hrow : (r + 1) * termCols ≤ termCols * termRows := by
    rw [Nat.mul_comm]
    exact Nat.mul_le_mul_left termCols hr
  have hmul : (r + 1) * termCols = r * termCols + termCols := Nat.succ_mul r termCols
  induction n generalizing i with
  | zero => rw [if_neg (by omega)]; rfl
  | succ n ih =>
    have hbefore := ih (by omega) fun t' c hc => hf t' c (by omega)
    have hother : ∀ i, r * termCols + termCols ≤ i → ((List.range n).foldl f t).buf.1[i]? = t.buf.1[i]? := by
      intro i hi
      rw [hbefore, if_neg (by omega)]
    rw [List.range_succ, List.foldl_append, List.foldl_cons, List.foldl_nil, hf _ n (Nat.lt_succ_self n) hother,
      getElem?_store _ _ _ (by omega), hbefore]
    by_cases hi : i = r * termCols + n
    · rw [if_pos hi, if_pos (by omega), hi, Nat.add_sub_cancel_left]
    · rw [if_neg hi]
      by_cases hin : r * termCols ≤ i ∧ i < r * termCols + n
      · rw [if_pos hin, if_pos (by omega)]
      · rw [if_neg hin, if_neg (by omega)]

theorem getElem?_copyRow (t : Term) (hr : r + 1 < termRows) (i : Nat) :
    ((List.range termCols).foldl (copyUp r) t).buf.1[i]? =
      if r * termCols ≤ i ∧ i < r * termCols + termCols then t.buf.1[i + termCols]? else t.buf.1[i]? := by
  have hmul : (r + 1) * termCols = r * termCols + termCols := Nat.succ_mul r termCols
  have hrow : (r + 2) * termCols ≤ termCols * termRows := by
    rw [Nat.mul_comm]
    exact Nat.mul_le_mul_left termCols hr
  have hmul' : (r + 2) * termCols = r * termCols + termCols + termCols := by rw [Nat.succ_mul, hmul]
  have hsize := t.buf.2
  have hnext : ∀ c, c < termCols → t.buf.1[(r + 1) * termCols + c]? = some (t.buf.1.getD ((r + 1) * termCols + c) 0) := by
    intro c hc
    rw [List.getD_eq_getElem?_getD, List.getElem?_eq_getElem (by omega), Option.getD_some]
  have hstep : ∀ t' c, c < termCols → (∀ i, r * termCols + termCols ≤ i → t'.buf.1[i]? = t.buf.1[i]?) →
      copyUp r t' c = t'.store r c (t.buf.1.getD ((r + 1) * termCols + c) 0) := by
    intro t' c hc hother
    rw [copyUp, hother _ (by omega), hnext c hc, Option.elim_some]
  rw [getElem?_storeRow (Nat.lt_of_succ_lt hr) (Nat.le_refl _) hstep]
  split
  · rw [← hnext _ (by omega), show (r + 1) * termCols + (i - r * termCols) = i + termCols by omega]
  · rfl

theorem getElem?_copyRows (t : Term) (hn : n < termRows) (i : Nat) :
    ((List.range n).foldl (fun t r => (List.range termCols).foldl (copyUp r) t) t).buf.1[i]? =
      if i < n * termCols then t.buf.1[i + termCols]? else t.buf.1[i]? := by
  induction n generalizing i with
  | zero => rw [if_neg (by omega)]; rfl
  | succ n ih =>
    have hmul : (n + 1) * termCols = n * termCols + termCols := Nat.succ_mul n termCols
    rw [List.range_succ, List.foldl_append, List.foldl_cons, List.foldl_nil, getElem?_copyRow _ hn,
      ih (by omega), ih (by omega)]
    by_cases hi : n * termCols ≤ i ∧ i < n * termCols + termCols
    · rw [if_pos hi, if_neg (by omega), if_pos (by omega)]
    · rw [if_neg hi]
      by_cases hbefore : i < n * termCols
      · rw [if_pos hbefore, if_pos (by omega)]
      · rw [if_neg hbefore, if_neg (by omega)]

theorem getElem?_blankRow (t : Term) (hr : r < termRows) (i : Nat) :
    ((List.range termCols).foldl (fun t c => t.store r c space) t).buf.1[i]? =
      if r * termCols ≤ i ∧ i < r * termCols + termCols then some space else t.buf.1[i]? :=
  getElem?_storeRow hr (Nat.le_refl _) (fun _ _ _ _ => rfl) i

/-- Each row has what was in the next one, and the last one is blank. -/
theorem getElem?_scrollUp (t : Term) (hi : i < termCols * termRows) : t.scrollUp.buf.1[i]? =
    if i < (termRows - 1) * termCols then t.buf.1[i + termCols]? else some space := by
  have hmul : termCols * termRows = (termRows - 1) * termCols + termCols := rfl
  simp only [scrollUp]
  rw [getElem?_blankRow _ (by decide), getElem?_copyRows _ (by decide)]
  by_cases hlast : i < (termRows - 1) * termCols
  · rw [if_neg (by omega), if_pos hlast, if_pos hlast]
  · rw [if_pos (by omega), if_neg hlast]

/-- The loops move nothing but the cells. -/
theorem copyUp_col (r : Nat) (t : Term) (c : Nat) :
    (copyUp r t c).col = t.col ∧ (copyUp r t c).esc = t.esc := by
  unfold copyUp
  cases t.buf.1[(r + 1) * termCols + c]? with
  | none => exact ⟨rfl, rfl⟩
  | some b => exact ⟨rfl, rfl⟩

theorem foldl_same {f : Term → Nat → Term} (hf : ∀ t c, (f t c).col = t.col ∧ (f t c).esc = t.esc) (l : List Nat)
    (t : Term) : (l.foldl f t).col = t.col ∧ (l.foldl f t).esc = t.esc := by
  induction l generalizing t with
  | nil => exact ⟨rfl, rfl⟩
  | cons c l ih =>
    obtain ⟨hcol, hesc⟩ := hf t c
    obtain ⟨hcol', hesc'⟩ := ih (f t c)
    exact ⟨hcol'.trans hcol, hesc'.trans hesc⟩

theorem scrollUp_same (t : Term) : t.scrollUp.col = t.col ∧ t.scrollUp.esc = t.esc := by
  have hrows := foldl_same (fun t r => foldl_same (copyUp_col r) (List.range termCols) t) (List.range (termRows - 1)) t
  have hblank := foldl_same (f := fun t c => t.store (termRows - 1) c space) (fun _ _ => ⟨rfl, rfl⟩) (List.range termCols)
    ((List.range (termRows - 1)).foldl (fun t r => (List.range termCols).foldl (copyUp r) t) t)
  simp only [scrollUp]
  exact ⟨hblank.1.trans hrows.1, hblank.2.trans hrows.2⟩

/-! ## The rows in the cells -/

/-- The cells are the rows, from the top, with blanks behind each and below them all. -/
def Cells (t : Term) (rows : List (List UInt8)) : Prop :=
  ∀ r c, r < termRows → c < termCols → t.buf.1[r * termCols + c]? = some ((rows.getD r []).getD c space)

theorem index_lt (hr : r < termRows) (hc : c < termCols) : r * termCols + c < termCols * termRows := by
  simp only [termRows, termCols] at hr hc ⊢
  omega

theorem index_inj {r' c' : Nat} (hc : c < termCols) (hc' : c' < termCols) :
    r * termCols + c = r' * termCols + c' ↔ r = r' ∧ c = c' := by
  simp only [termCols] at hc hc' ⊢
  omega

theorem cells_cleared : Cells cleared [[]] := by
  intro r c hr hc
  have hrow : ([[]] : List (List UInt8)).getD r [] = [] := by cases r <;> rfl
  rw [hrow]
  exact List.getElem?_replicate_of_lt (index_lt hr hc)

/-- A row with nothing in it changes nothing. -/
theorem Cells.concat_nil (h : Cells t rows) : Cells t (rows ++ [[]]) := by
  intro r c hr hc
  have hrow : (rows ++ [[]]).getD r [] = rows.getD r [] := by
    simp only [List.getD_eq_getElem?_getD]
    rcases Nat.lt_trichotomy r rows.length with hlt | rfl | hgt
    · rw [List.getElem?_append_left hlt]
    · rw [List.getElem?_concat_length, List.getElem?_eq_none (Nat.le_refl _)]
      rfl
    · rw [List.getElem?_eq_none (by rw [List.length_append, List.length_singleton]; omega),
        List.getElem?_eq_none (by omega)]
  rw [hrow]
  exact h r c hr hc

theorem Cells.scrollUp (h : Cells t rows) (hlen : rows.length ≤ termRows) : Cells t.scrollUp rows.tail := by
  intro r c hr hc
  have hnext : (r + 1) * termCols = r * termCols + termCols := Nat.succ_mul r termCols
  rw [getElem?_scrollUp t (index_lt hr hc)]
  have htail : rows.tail.getD r [] = rows.getD (r + 1) [] := by
    simp only [List.getD_eq_getElem?_getD, List.getElem?_tail]
  rw [htail]
  split
  · next hlt =>
    have hr' : r + 1 < termRows := by
      simp only [termRows, termCols] at hlt ⊢
      omega
    rw [show r * termCols + c + termCols = (r + 1) * termCols + c by omega]
    exact h (r + 1) c hr' hc
  · next hge =>
    have hlast : rows.length ≤ r + 1 := by
      simp only [termRows, termCols] at hge hc hlen ⊢
      omega
    rw [List.getD_eq_default _ _ hlast]
    rfl

/-- The byte goes to the end of the last row. -/
theorem Cells.store (h : Cells t (init ++ [last])) (hrow : init.length < termRows) (hcol : last.length < termCols)
    (b : UInt8) : Cells (t.store init.length last.length b) (init ++ [last ++ [b]]) := by
  intro r c hr hc
  rw [getElem?_store _ _ _ (index_lt hrow hcol), h r c hr hc]
  simp only [index_inj hc hcol]
  rcases Nat.lt_trichotomy r init.length with hlt | rfl | hgt
  · rw [if_neg (by omega), List.getD_append _ _ _ _ hlt, List.getD_append _ _ _ _ hlt]
  · rw [List.getD_append_right _ _ _ _ (Nat.le_refl _), List.getD_append_right _ _ _ _ (Nat.le_refl _), Nat.sub_self,
      List.getD_cons_zero, List.getD_cons_zero]
    rcases Nat.lt_trichotomy c last.length with hlt | rfl | hgt
    · rw [if_neg (by omega), List.getD_append _ _ _ _ hlt]
    · rw [if_pos ⟨rfl, rfl⟩, List.getD_append_right _ _ _ _ (Nat.le_refl _), Nat.sub_self, List.getD_cons_zero]
    · rw [if_neg (by omega), List.getD_eq_default _ _ (by omega),
        List.getD_eq_default _ _ (by rw [List.length_append, List.length_singleton]; omega)]
  · have hbelow (row : List UInt8) : (init ++ [row]).getD r [] = [] :=
      List.getD_eq_default _ _ (by rw [List.length_append, List.length_singleton]; omega)
    rw [if_neg (by omega), hbelow, hbelow]

/-! ## The layout on the screen -/

/-- The grid shows the tail of these rows, and the cursor is behind the last one. -/
structure Displays (t : Term) (init : List (List UInt8)) (last : List UInt8) : Prop where
  cells : Cells t (lastRows termRows (init ++ [last]))
  row : t.row + 1 = min (init.length + 1) termRows
  col : t.col = last.length
  room : last.length < termCols
  esc : t.esc = .normal

theorem displays_cleared : Displays cleared [] [] := ⟨cells_cleared, rfl, rfl, by decide, rfl⟩

/-- The next row begins. -/
theorem displays_nextRow (hcells : Cells t (lastRows termRows (init ++ [row])))
    (hrow : t.row + 1 = min (init.length + 1) termRows) (hesc : t.esc = .normal) :
    Displays t.nextRow (init ++ [row]) [] := by
  have hheight : 0 < termRows := by decide
  have hlen : (init ++ [row]).length = init.length + 1 := by rw [List.length_append, List.length_singleton]
  unfold nextRow
  by_cases hroom : t.row + 1 < termRows
  · simp only [if_pos hroom]
    refine ⟨?_, ?_, rfl, by decide, hesc⟩
    · rw [lastRows_concat hheight, if_pos (by omega)]
      exact hcells.concat_nil
    · rw [hlen]
      change t.row + 1 + 1 = _
      omega
  · simp only [if_neg hroom]
    obtain ⟨hcol, hesc'⟩ := scrollUp_same { t with col := 0 }
    refine ⟨?_, ?_, hcol, by decide, hesc'.trans hesc⟩
    · rw [lastRows_concat hheight, if_neg (by omega)]
      exact (Cells.scrollUp (t := { t with col := 0 }) hcells (by rw [length_lastRows]; omega)).concat_nil
    · rw [hlen]
      change termRows - 1 + 1 = _
      omega

/-- A byte at the end of the last row. -/
theorem Displays.store (h : Displays t init last) (b : UInt8) :
    Cells (t.store t.row t.col b) (lastRows termRows (init ++ [last ++ [b]])) := by
  have hheight : 0 < termRows := by decide
  have hcells := h.cells
  have hrow := h.row
  rw [lastRows_concat hheight] at hcells ⊢
  generalize hshown : (if init.length < termRows then lastRows termRows init else (lastRows termRows init).tail) = shown
    at hcells ⊢
  have hlen : shown.length = t.row := by
    have hwhole : (lastRows termRows (init ++ [last])).length = shown.length + 1 := by
      rw [lastRows_concat hheight, hshown, List.length_append, List.length_singleton]
    rw [length_lastRows, List.length_append, List.length_singleton] at hwhole
    omega
  rw [h.col, ← hlen]
  exact hcells.store (by omega) h.room b

theorem Displays.newline (h : Displays t init last) : Displays (t.writeByte newline) (init ++ [last]) [] := by
  have hstep : t.writeByte ChodOs.newline = t.nextRow := by
    rw [writeByte, h.esc]
    rfl
  rw [hstep]
  exact displays_nextRow h.cells h.row h.esc

theorem writeByte_printable (hesc : t.esc = .normal) (hgrid : t.InGrid) (hb : isPrintable b = true) :
    t.writeByte b = if termCols ≤ t.col + 1 then (t.store t.row t.col b).nextRow
      else { t.store t.row t.col b with col := t.col + 1 } := by
  have hlow : 0x20 ≤ b := by simp only [isPrintable, Bool.and_eq_true, decide_eq_true_eq] at hb; exact hb.1
  have hne (x : UInt8) (hx : x < 0x20) : b ≠ x := by
    intro h
    obtain rfl := h
    exact absurd hlow (UInt8.not_le.mpr hx)
  rw [writeByte, hesc]
  simp only
  rw [if_neg (hne 0x1B (by decide)), if_neg (hne 0x0D (by decide)), if_neg (hne newline (by decide)),
    if_neg (hne 0x08 (by decide)), if_neg (hne 0x07 (by decide)), if_pos hb,
    if_pos (show t.row < termRows ∧ t.col < termCols from hgrid)]
  rfl

theorem Displays.inGrid (h : Displays t init last) : t.InGrid := by
  have hrow := h.row
  exact ⟨by omega, h.col ▸ h.room⟩

/-- The last row grows by a printable byte. -/
theorem Displays.printable (h : Displays t init last) (hb : isPrintable b = true) : ∃ init' last',
    Displays (t.writeByte b) init' last' ∧ init' ++ [last'] = init ++ grown termCols last b := by
  have hcol := h.col
  rw [writeByte_printable h.esc h.inGrid hb, grown]
  by_cases hroom : last.length + 1 < termCols
  · rw [if_neg (by omega), if_pos hroom]
    refine ⟨init, last ++ [b], ⟨h.store b, h.row, ?_, ?_, h.esc⟩, rfl⟩
    · rw [List.length_append, List.length_singleton, ← hcol]
    · rw [List.length_append, List.length_singleton]
      exact hroom
  · rw [if_pos (by omega), if_neg hroom]
    refine ⟨init ++ [last ++ [b]], [], displays_nextRow (h.store b) h.row h.esc, ?_⟩
    rw [List.append_assoc]
    rfl

/-- What is displayed after a text of printable bytes and newlines is its layout. -/
theorem displays_writeBytes (htext : ∀ b ∈ text, isPrintable b = true ∨ b = newline) : ∃ init last,
    layout termCols newline text = init ++ [last] ∧ Displays (cleared.writeBytes text) init last := by
  induction text using List.reverseRecOn with
  | nil => exact ⟨[], [], rfl, displays_cleared⟩
  | append_singleton text b ih =>
    obtain ⟨init, last, hrows, hdisplays⟩ := ih fun b hb => htext b (List.mem_append_left _ hb)
    obtain ⟨init', last', hsnoc⟩ : ∃ init last, Snoc termCols newline text init last :=
      exists_snoc (by decide) newline text
    obtain ⟨rfl, hlast⟩ := List.append_inj' (hrows.symm.trans hsnoc.rows) rfl
    obtain rfl := List.singleton_inj.mp hlast
    have hwrite : cleared.writeBytes (text ++ [b]) = (cleared.writeBytes text).writeByte b := by
      rw [writeBytes, List.foldl_append]
      rfl
    rw [hwrite]
    by_cases hb : b = newline
    · subst hb
      refine ⟨init ++ [last], [], ?_, hdisplays.newline⟩
      rw [hsnoc.concat_newline, List.append_assoc]
      rfl
    · have hprintable := (htext b (List.mem_append_right _ (List.mem_singleton_self b))).resolve_right hb
      obtain ⟨init'', last'', hnext, hgrown⟩ := hdisplays.printable hprintable
      exact ⟨init'', last'', (hsnoc.concat b (beq_eq_false_iff_ne.mpr hb)).trans hgrown.symm, hnext⟩

/-! ## The cursor -/

theorem nextRow_same (t : Term) : t.nextRow.col = 0 ∧ t.nextRow.esc = t.esc := by
  unfold nextRow
  simp only
  split
  · exact ⟨rfl, rfl⟩
  · exact scrollUp_same { t with col := 0 }

theorem inGrid_nextRow (t : Term) : t.nextRow.InGrid := by
  refine ⟨?_, t.nextRow_same.1 ▸ by decide⟩
  unfold nextRow
  simp only
  split
  · next h => exact h
  · exact (by decide : termRows - 1 < termRows)

theorem InGrid.writeByte (h : t.InGrid) (b : UInt8) : (t.writeByte b).InGrid := by
  have hcol := h.2
  cases hesc : t.esc with
  | esc =>
    simp only [Term.writeByte, hesc]
    split <;> exact h
  | csi =>
    simp only [Term.writeByte, hesc]
    split
    · exact h
    · exact h
  | normal =>
    by_cases hb : isPrintable b = true
    · rw [writeByte_printable hesc h hb]
      split
      · exact inGrid_nextRow _
      · next hroom => exact ⟨h.1, Nat.lt_of_not_le hroom⟩
    · simp only [Term.writeByte, hesc, if_neg hb]
      split
      · exact h
      split
      · exact ⟨h.1, (by decide : 0 < termCols)⟩
      split
      · exact inGrid_nextRow t
      split
      · split
        · exact ⟨h.1, Nat.lt_of_le_of_lt (Nat.sub_le _ _) hcol⟩
        · exact h
      split <;> exact h

theorem InGrid.writeBytes (h : t.InGrid) (bytes : List UInt8) : (t.writeBytes bytes).InGrid := by
  induction bytes generalizing t with
  | nil => exact h
  | cons b bytes ih => exact ih (h.writeByte b)

/-! ## Escape sequences -/

/-- The bytes up to the letter are skipped. -/
theorem writeBytes_body {body : List UInt8} (hbody : ∀ b ∈ body, isAsciiAlphabetic b = false) (hesc : t.esc = .csi) :
    t.writeBytes body = t := by
  induction body with
  | nil => rfl
  | cons b body ih =>
    have hskip : t.writeByte b = t := by
      simp only [writeByte, hesc, hbody b List.mem_cons_self]
      rfl
    rw [writeBytes, List.foldl_cons, hskip]
    exact ih fun b hb => hbody b (List.mem_cons_of_mem _ hb)

theorem writeBytes_append (t : Term) (bytes stream : List UInt8) :
    t.writeBytes (bytes ++ stream) = (t.writeBytes bytes).writeBytes stream := List.foldl_append

theorem writeBytes_csi (hseq : IsCsi seq) (hesc : t.esc = .normal) : t.writeBytes seq = t := by
  obtain ⟨body, letter, rfl, hbody, hletter⟩ := hseq
  have hesc' : t.writeByte 0x1B = { t with esc := .esc } := by
    rw [writeByte, hesc]
    rfl
  have hopen : (t.writeByte 0x1B).writeByte 0x5B = { t with esc := .csi } := by
    rw [hesc']
    rfl
  have hskip : ({ t with esc := .csi } : Term).writeBytes body = { t with esc := .csi } := writeBytes_body hbody rfl
  rw [writeBytes, List.foldl_cons, List.foldl_cons, hopen]
  change ({ t with esc := .csi } : Term).writeBytes (body ++ [letter]) = t
  rw [writeBytes_append, hskip]
  simp only [writeBytes, List.foldl_cons, List.foldl_nil, writeByte, hletter, if_pos, ← hesc]

theorem writeByte_esc (hesc : t.esc = .normal) (hb : b ≠ 0x1B) : (t.writeByte b).esc = .normal := by
  have hnext (t : Term) (h : t.esc = .normal) : t.nextRow.esc = .normal := t.nextRow_same.2.trans h
  simp only [writeByte, hesc, if_neg hb]
  split
  · rfl
  split
  · exact hnext t hesc
  split
  · split
    · rfl
    · exact hesc
  split
  · exact hesc
  split
  · split
    · split
      · exact hnext _ hesc
      · exact hesc
    · exact hesc
  · exact hesc

/-- A stream with escape sequences in it does what the text alone does. -/
theorem writeBytes_withCsi (h : WithCsi text stream) (htext : ∀ b ∈ text, isPrintable b = true ∨ b = newline)
    (hesc : t.esc = .normal) : t.writeBytes stream = t.writeBytes text := by
  induction h generalizing t with
  | nil => rfl
  | @byte b text stream _ ih =>
    have hb : b ≠ 0x1B := by
      intro h
      obtain rfl := h
      exact absurd (htext _ List.mem_cons_self) (by decide)
    exact ih (fun b hb => htext b (List.mem_cons_of_mem _ hb)) (writeByte_esc hesc hb)
  | csi hseq _ ih =>
    rw [writeBytes_append, writeBytes_csi hseq hesc]
    exact ih htext hesc

/-! ## The tail of the text -/

theorem Cells.grid (h : Cells t (lastRows termRows rows)) (hrows : ∀ row ∈ rows, row.length ≤ termCols) :
    t.grid = screen termRows termCols space rows := by
  refine List.map_congr_left fun r hr => List.ext_getElem? fun c => ?_
  have hlen : ((lastRows termRows rows).getD r []).length ≤ termCols := by
    rw [List.getD_eq_getElem?_getD]
    cases hrow : (lastRows termRows rows)[r]? with
    | none => exact Nat.zero_le _
    | some row => exact hrows row (List.drop_subset _ _ (List.mem_of_getElem? hrow))
  rw [getElem?_padTo hlen, List.getElem?_take]
  split
  · next hc => rw [List.getElem?_drop, h r c (List.mem_range.mp hr) hc]
  · rfl

/-- Under every stream of bytes the cursor stays in the grid. After a text of
printable bytes and newlines, with any escape sequences in it, the grid has the
last rows of the layout of the text and the cursor is at its end; and wherever
no sequence is half read, a whole one changes nothing. -/
theorem shows_tail :
    (∀ (t : Term) (bytes : List UInt8), t.InGrid → (t.writeBytes bytes).InGrid) ∧
    (∀ text stream, (∀ b ∈ text, isPrintable b = true ∨ b = newline) → WithCsi text stream →
      ShowsTail (cleared.writeBytes stream) (layout termCols newline text)) ∧
    ∀ (t : Term) (seq : List UInt8), t.esc = .normal → IsCsi seq → t.writeBytes seq = t := by
  refine ⟨fun t bytes h => h.writeBytes bytes, fun text stream htext h => ?_, fun t seq hesc hseq =>
    writeBytes_csi hseq hesc⟩
  obtain ⟨init, last, hrows, hdisplays⟩ := displays_writeBytes htext
  rw [writeBytes_withCsi h htext rfl]
  refine ⟨?_, ?_, ?_⟩
  · refine Cells.grid ?_ fun row hrow => length_le_of_mem hrow
    rw [hrows]
    exact hdisplays.cells
  · rw [hrows, List.length_append, List.length_singleton]
    exact hdisplays.row
  · rw [hrows, List.getLast?_concat, Option.map_some, hdisplays.col]

/-- A prompt in colour, and a line's end. -/
theorem shows_tail_prompt :
    ShowsTail (cleared.writeBytes [0x1B, 0x5B, 0x33, 0x31, 0x6D, 0x24, 0x0A]) (layout termCols newline [0x24, 0x0A]) := by
  have hcsi : IsCsi [0x1B, 0x5B, 0x33, 0x31, 0x6D] := ⟨[0x33, 0x31], 0x6D, rfl, by simp [isAsciiAlphabetic], rfl⟩
  exact shows_tail.2.1 _ _ (by simp [isPrintable, newline]) (.csi hcsi (.byte _ (.byte _ .nil)))

end Term

end ChodOs
