/-
The framebuffer (`fb.rs`): what each call writes to it, in order, and the
mouse cursor, which saves the pixels that it is drawn over.
-/
import ChodOs.Lib.Canvas
import Mathlib.Algebra.Ring.Nat
import Mathlib.Data.List.Basic

namespace ChodOs

open Canvas

/-- What `init` is told. A row of pixels fits in a row of memory. `font` is
the file of glyphs, eight bytes each. -/
structure Fb where
  width : UInt32
  height : UInt32
  pitch : UInt32
  rShift : UInt32
  gShift : UInt32
  bShift : UInt32
  font : Nat → UInt8
  width_le : 4 * width.toNat ≤ pitch.toNat

/-- Writes of pixels, each at its offset. -/
abbrev Writes := List (Nat × UInt32)

/-- `u32::saturating_add`, `saturating_sub`. -/
def saturatingAdd (a b : UInt32) : UInt32 := if a.toNat + b.toNat < 2 ^ 32 then a + b else 0xFFFFFFFF
def saturatingSub (a b : UInt32) : UInt32 := if b ≤ a then a - b else 0

/-- `lo..hi`. -/
def u32Range (lo hi : UInt32) : List UInt32 := (List.range' lo.toNat (hi.toNat - lo.toNat)).map UInt32.ofNat

namespace Fb

def rgb (fb : Fb) (r g b : UInt8) : UInt32 :=
  r.toUInt32 <<< fb.rShift ||| g.toUInt32 <<< fb.gShift ||| b.toUInt32 <<< fb.bShift

/-- Where `put_pixel` and `read_pixel` go; nowhere off the screen. -/
def offset (fb : Fb) (x y : UInt32) : Option Nat :=
  if fb.width ≤ x ∨ fb.height ≤ y then none else some (y.toNat * fb.pitch.toNat + x.toNat * 4)

def putPixel (fb : Fb) (x y color : UInt32) : Writes := ((fb.offset x y).map (·, color)).toList

def fillRect (fb : Fb) (x y w h color : UInt32) : Writes :=
  (u32Range y (saturatingAdd y h)).flatMap fun row =>
    (u32Range x (saturatingAdd x w)).flatMap fun col => fb.putPixel col row color

def drawChar (fb : Fb) (cx cy : UInt32) (c : UInt8) (fg bg : UInt32) : Writes :=
  (List.range 8).flatMap fun row =>
    let byte := fb.font ((min c 127).toNat * 8 + row)
    (List.range 8).flatMap fun col =>
      fb.putPixel (cx + UInt32.ofNat col) (cy + UInt32.ofNat row) (if byte &&& 1 <<< UInt8.ofNat col ≠ 0 then fg else bg)

def drawText (fb : Fb) (x y : UInt32) : List UInt8 → UInt32 → UInt32 → Writes
  | [], _, _ => []
  | c :: text, fg, bg => fb.drawChar x y c fg bg ++ fb.drawText (x + 8) y text fg bg

def clear (fb : Fb) (color : UInt32) : Writes := fb.fillRect 0 0 fb.width fb.height color

end Fb

/-! ## The cursor -/

def cursorW : Nat := 12
def cursorH : Nat := 18

/-- `CURSOR_MAP`: 0 is transparent, 1 black, 2 white. -/
def cursorMap : List (List Nat) :=
  [[1,0,0,0,0,0,0,0,0,0,0,0],
   [1,2,0,0,0,0,0,0,0,0,0,0],
   [1,2,2,0,0,0,0,0,0,0,0,0],
   [1,2,2,2,0,0,0,0,0,0,0,0],
   [1,2,2,2,2,0,0,0,0,0,0,0],
   [1,2,2,2,2,2,0,0,0,0,0,0],
   [1,2,2,2,2,2,2,0,0,0,0,0],
   [1,2,2,2,2,2,2,2,0,0,0,0],
   [1,2,2,2,2,2,2,2,2,0,0,0],
   [1,2,2,2,2,2,2,2,2,2,0,0],
   [1,2,2,2,2,2,2,2,2,2,2,0],
   [1,2,2,2,2,2,2,0,0,0,0,0],
   [1,2,2,2,1,2,2,2,0,0,0,0],
   [1,2,2,1,0,0,1,2,2,0,0,0],
   [1,2,1,0,0,0,0,1,2,2,0,0],
   [1,1,0,0,0,0,0,0,1,2,2,0],
   [0,0,0,0,0,0,0,0,0,1,2,1],
   [0,0,0,0,0,0,0,0,0,0,1,0]]

/-- The cell in a row and a column. -/
def cursorCell (row col : Nat) : Nat := ((cursorMap[row]?).bind (·[col]?)).getD 0

/-- The turns of the loops over the cursor that do not `continue`: its opaque cells. -/
def cursorCells : List (Nat × Nat) :=
  (List.range cursorH).flatMap fun row => ((List.range cursorW).filter fun col => cursorCell row col ≠ 0).map (row, ·)

/-- The framebuffer, `CURSOR_BG`, and `CURSOR_PREV_X` and `_Y`. -/
structure Screen where
  mem : Nat → UInt32
  cursorBg : Nat → UInt32
  prev : Int32 × Int32

namespace Fb

/-- Where a cell is with the cursor at `pos`; nowhere off the screen. -/
def spot (fb : Fb) (pos : Int32 × Int32) (cell : Nat × Nat) : Option Nat :=
  let sx := pos.1 + Int32.ofNat cell.2
  let sy := pos.2 + Int32.ofNat cell.1
  if 0 ≤ sx ∧ 0 ≤ sy then fb.offset sx.toUInt32 sy.toUInt32 else none

/-- `row * CW + col`. -/
def bgIndex (cell : Nat × Nat) : Nat := cell.1 * cursorW + cell.2

def cellColor (fb : Fb) (cell : Nat × Nat) : UInt32 :=
  if cursorCell cell.1 cell.2 = 1 then fb.rgb 0 0 0 else fb.rgb 255 255 255

/-- The first loop of `draw_cursor`, with its test. -/
def restored (fb : Fb) (s : Screen) : Nat → UInt32 :=
  if 0 ≤ s.prev.1 ∧ 0 ≤ s.prev.2 then
    paint s.mem (cursorCells.filterMap fun cell => (fb.spot s.prev cell).map (·, s.cursorBg (bgIndex cell)))
  else s.mem

/-- `draw_cursor`: the old place is restored, the new one is saved and drawn. -/
def drawCursor (fb : Fb) (s : Screen) (pos : Int32 × Int32) : Screen :=
  let mem := fb.restored s
  { mem := paint mem (cursorCells.filterMap fun cell => (fb.spot pos cell).map (·, fb.cellColor cell))
    cursorBg := paint s.cursorBg (cursorCells.map fun cell => (bgIndex cell, ((fb.spot pos cell).map mem).getD 0))
    prev := pos }

/-! ## Places on the screen -/

variable {fb : Fb} {x y x' y' w h color fg bg : UInt32} {q : Nat} {pos : Int32 × Int32} {a b : Nat × Nat}

theorem offset_eq_some : fb.offset x y = some q ↔
    x < fb.width ∧ y < fb.height ∧ q = y.toNat * fb.pitch.toNat + x.toNat * 4 := by
  unfold offset
  split
  · next hoff =>
    refine iff_of_false nofun fun h => ?_
    rcases hoff with hw | hh
    · exact UInt32.not_lt.mpr hw h.1
    · exact UInt32.not_lt.mpr hh h.2.1
  · next hon =>
    rw [not_or, UInt32.not_le, UInt32.not_le] at hon
    rw [Option.some.injEq, eq_comm]
    exact ⟨fun h => ⟨hon.1, hon.2, h⟩, fun h => h.2.2⟩

/-- No two pixels are at one place. -/
theorem offset_inj (h : fb.offset x y = some q) (h' : fb.offset x' y' = some q) : x = x' ∧ y = y' := by
  obtain ⟨hx, -, hq⟩ := offset_eq_some.mp h
  obtain ⟨hx', -, hq'⟩ := offset_eq_some.mp h'
  have hw := fb.width_le
  rw [UInt32.lt_iff_toNat_lt] at hx hx'
  have hrow {n m : Nat} (hlt : n < m) : n * fb.pitch.toNat + fb.pitch.toNat ≤ m * fb.pitch.toNat := by
    rw [← Nat.succ_mul]
    exact Nat.mul_le_mul_right _ hlt
  rcases Nat.lt_trichotomy y.toNat y'.toNat with hlt | heq | hgt
  · have := hrow hlt
    omega
  · refine ⟨UInt32.toNat_inj.mp ?_, UInt32.toNat_inj.mp heq⟩
    rw [heq] at hq
    omega
  · have := hrow hgt
    omega

theorem mem_u32Range {lo hi v : UInt32} : v ∈ u32Range lo hi ↔ lo ≤ v ∧ v < hi := by
  unfold u32Range
  rw [List.mem_map, UInt32.le_iff_toNat_le, UInt32.lt_iff_toNat_lt]
  constructor
  · intro ⟨n, hn, hv⟩
    have hlt : hi.toNat < UInt32.size := hi.toNat_lt
    rw [List.mem_range'_1] at hn
    rw [← hv, UInt32.toNat_ofNat_of_lt' (by omega)]
    omega
  · intro h
    exact ⟨v.toNat, List.mem_range'_1.mpr (by omega), UInt32.ofNat_toNat⟩

theorem mem_putPixel {c : UInt32} : (q, c) ∈ fb.putPixel x y color ↔ fb.offset x y = some q ∧ c = color := by
  unfold putPixel
  rw [Option.mem_toList, Option.map_eq_some_iff]
  constructor
  · intro ⟨q', hq, heq⟩
    obtain ⟨rfl, rfl⟩ := Prod.mk.inj heq
    exact ⟨hq, rfl⟩
  · intro ⟨hq, hc⟩
    exact ⟨q, hq, by rw [hc]⟩

theorem mem_fillRect {c : UInt32} : (q, c) ∈ fb.fillRect x y w h color ↔
    c = color ∧ ∃ col row, x ≤ col ∧ col < saturatingAdd x w ∧ y ≤ row ∧ row < saturatingAdd y h ∧
      fb.offset col row = some q := by
  unfold fillRect
  simp only [List.mem_flatMap, mem_putPixel, mem_u32Range]
  constructor
  · intro ⟨row, ⟨hlo, hhi⟩, col, ⟨hlo', hhi'⟩, hq, hc⟩
    exact ⟨hc, col, row, hlo', hhi', hlo, hhi, hq⟩
  · intro ⟨hc, col, row, hlo', hhi', hlo, hhi, hq⟩
    exact ⟨row, ⟨hlo, hhi⟩, col, ⟨hlo', hhi'⟩, hq, hc⟩

/-- A rectangle has its colour. -/
theorem paint_fillRect {m : Nat → UInt32} (hx : x ≤ x') (hw : x' < saturatingAdd x w) (hy : y ≤ y')
    (hh : y' < saturatingAdd y h) (hq : fb.offset x' y' = some q) : paint m (fb.fillRect x y w h color) q = color :=
  paint_of_mem (mem_fillRect.mpr ⟨rfl, x', y', hx, hw, hy, hh, hq⟩) fun _ hc => (mem_fillRect.mp hc).1

/-- Left of a rectangle nothing changes. -/
theorem paint_fillRect_left {m : Nat → UInt32} (hx : x' < x) (hq : fb.offset x' y' = some q) :
    paint m (fb.fillRect x y w h color) q = m q := by
  refine paint_of_not_mem fun hmem => ?_
  obtain ⟨p, hp, rfl⟩ := List.mem_map.mp hmem
  obtain ⟨-, col, row, hcol, -, -, -, hoff⟩ := mem_fillRect.mp hp
  rw [← (offset_inj hq hoff).1] at hcol
  exact UInt32.not_lt.mpr hcol hx

theorem lt_saturatingAdd (hx : x < 0xFFFFFFFF) (hw : 0 < w) : x < saturatingAdd x w := by
  rw [UInt32.lt_iff_toNat_lt, UInt32.toNat_zero] at hw
  unfold saturatingAdd
  split
  · next hsum =>
    rw [UInt32.lt_iff_toNat_lt, UInt32.toNat_add, Nat.mod_eq_of_lt hsum]
    omega
  · exact hx

theorem mem_drawChar {ch : UInt8} {c : UInt32} (hmem : (q, c) ∈ fb.drawChar x y ch fg bg) :
    ∃ row < 8, ∃ col, fb.offset col (y + UInt32.ofNat row) = some q := by
  obtain ⟨row, hrow, hmem⟩ := List.mem_flatMap.mp hmem
  obtain ⟨col, -, hmem⟩ := List.mem_flatMap.mp hmem
  exact ⟨row, List.mem_range.mp hrow, _, (mem_putPixel.mp hmem).1⟩

/-- A line of text is eight pixels high. -/
theorem mem_drawText {text : List UInt8} {c : UInt32} (hmem : (q, c) ∈ fb.drawText x y text fg bg) :
    ∃ row < 8, ∃ col, fb.offset col (y + UInt32.ofNat row) = some q := by
  induction text generalizing x with
  | nil => cases hmem
  | cons ch text ih =>
    rcases List.mem_append.mp hmem with hmem | hmem
    · exact mem_drawChar hmem
    · exact ih hmem

theorem paint_drawText_of_row {m : Nat → UInt32} {text : List UInt8} (hy : ∀ row < 8, y' ≠ y + UInt32.ofNat row)
    (hq : fb.offset x' y' = some q) : paint m (fb.drawText x y text fg bg) q = m q := by
  refine paint_of_not_mem fun hmem => ?_
  obtain ⟨p, hp, rfl⟩ := List.mem_map.mp hmem
  obtain ⟨row, hrow, col, hoff⟩ := mem_drawText hp
  exact hy row hrow (offset_inj hq hoff).2

/-- `clear` writes to every place on the screen. -/
theorem mem_clear (hq : fb.offset x y = some q) (color : UInt32) : q ∈ (fb.clear color).map (·.1) := by
  obtain ⟨hx, hy, -⟩ := offset_eq_some.mp hq
  have hzero (v : UInt32) : saturatingAdd 0 v = v := by
    unfold saturatingAdd
    rw [UInt32.toNat_zero, Nat.zero_add, if_pos v.toNat_lt, UInt32.zero_add]
  refine List.mem_map.mpr ⟨(q, color), mem_fillRect.mpr ⟨rfl, x, y, ?_⟩, rfl⟩
  rw [hzero, hzero]
  exact ⟨UInt32.zero_le, hx, UInt32.zero_le, hy, hq⟩

/-! ## Cells of the cursor -/

theorem cell_lt (ha : a ∈ cursorCells) : a.1 < cursorH ∧ a.2 < cursorW := by
  obtain ⟨row, hrow, hmem⟩ := List.mem_flatMap.mp ha
  obtain ⟨col, hcol, rfl⟩ := List.mem_map.mp hmem
  exact ⟨List.mem_range.mp hrow, List.mem_range.mp (List.mem_filter.mp hcol).1⟩

theorem bgIndex_inj (ha : a ∈ cursorCells) (hb : b ∈ cursorCells) (h : bgIndex a = bgIndex b) : a = b := by
  have hlt := (cell_lt ha).2
  have hlt' := (cell_lt hb).2
  unfold bgIndex cursorW at *
  exact Prod.ext (by omega) (by omega)

theorem int32_add_inj {p : Int32} {n m : Nat} (hn : n < 2 ^ 31) (hm : m < 2 ^ 31)
    (h : (p + Int32.ofNat n).toUInt32 = (p + Int32.ofNat m).toUInt32) : n = m := by
  have hsum : p + Int32.ofNat n = p + Int32.ofNat m := congrArg UInt32.toInt32 h
  have heq : Int32.ofNat n = Int32.ofNat m := (Int32.add_right_inj p).mp hsum
  have hint := congrArg Int32.toInt heq
  rw [Int32.toInt_ofNat_of_lt hn, Int32.toInt_ofNat_of_lt hm] at hint
  exact Int.ofNat_inj.mp hint

/-- No two cells are at one place. -/
theorem spot_inj (ha : a ∈ cursorCells) (hb : b ∈ cursorCells) (hq : fb.spot pos a = some q)
    (hq' : fb.spot pos b = some q) : a = b := by
  have hcell := cell_lt ha
  have hcell' := cell_lt hb
  unfold cursorH cursorW at hcell hcell'
  simp only [spot] at hq hq'
  split at hq
  · split at hq'
    · obtain ⟨hx, hy⟩ := offset_inj hq hq'
      exact Prod.ext (int32_add_inj (by omega) (by omega) hy) (int32_add_inj (by omega) (by omega) hx)
    · cases hq'
  · cases hq

/-! ## One drawing -/

/-- An opaque cell of the cursor at `pos` is at `q`. -/
def Covers (fb : Fb) (pos : Int32 × Int32) (q : Nat) : Prop := ∃ cell ∈ cursorCells, fb.spot pos cell = some q

/-- What `draw_cursor` tests before it restores. -/
def Restores (pos : Int32 × Int32) : Prop := 0 ≤ pos.1 ∧ 0 ≤ pos.2

instance (pos : Int32 × Int32) : Decidable (Restores pos) := inferInstanceAs (Decidable (0 ≤ pos.1 ∧ 0 ≤ pos.2))

variable {s : Screen} {cell : Nat × Nat}

theorem restored_of_spot (hr : Restores s.prev) (hc : cell ∈ cursorCells) (hq : fb.spot s.prev cell = some q) :
    fb.restored s q = s.cursorBg (bgIndex cell) := by
  unfold restored
  rw [if_pos (show 0 ≤ s.prev.1 ∧ 0 ≤ s.prev.2 from hr)]
  exact paint_filterMap (fun a ha b hb q hqa hqb => spot_inj ha hb hqa hqb) hc hq

theorem restored_of_not (h : ¬ (Restores s.prev ∧ fb.Covers s.prev q)) : fb.restored s q = s.mem q := by
  unfold restored
  split
  · next hr => exact paint_filterMap_of_not fun a ha hq => h ⟨hr, a, ha, hq⟩
  · rfl

/-- The cursor is where it is opaque. -/
theorem mem_drawCursor_of_spot (hc : cell ∈ cursorCells) (hq : fb.spot pos cell = some q) :
    (fb.drawCursor s pos).mem q = fb.cellColor cell :=
  paint_filterMap (fun _ ha _ hb _ hqa hqb => spot_inj ha hb hqa hqb) hc hq

theorem mem_drawCursor_of_not (h : ¬ fb.Covers pos q) : (fb.drawCursor s pos).mem q = fb.restored s q :=
  paint_filterMap_of_not fun a ha hq => h ⟨a, ha, hq⟩

/-- What the cursor is drawn over is saved. -/
theorem cursorBg_drawCursor (hc : cell ∈ cursorCells) (hq : fb.spot pos cell = some q) :
    (fb.drawCursor s pos).cursorBg (bgIndex cell) = fb.restored s q := by
  have hmem : (bgIndex cell, fb.restored s q) ∈
      cursorCells.map fun cell => (bgIndex cell, ((fb.spot pos cell).map (fb.restored s)).getD 0) :=
    List.mem_map.mpr ⟨cell, hc, by rw [hq, Option.map_some, Option.getD_some]⟩
  refine paint_of_mem hmem fun c' hc' => ?_
  obtain ⟨cell', hcell', heq⟩ := List.mem_map.mp hc'
  obtain ⟨hindex, rfl⟩ := Prod.mk.inj heq
  obtain rfl := bgIndex_inj hcell' hc hindex
  rw [hq, Option.map_some, Option.getD_some]

end Fb

end ChodOs
