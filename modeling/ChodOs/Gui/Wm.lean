/-
The windows (`wm.rs`): what `render_desktop` draws, the terminal's grid
(`term.rs`) in the second window. Sums wrap, as without overflow checks.
-/
import ChodOs.Gui.Fb
import ChodOs.Gui.Term

namespace ChodOs

/-- The bytes of a text of ASCII characters. -/
def textBytes (text : String) : List UInt8 := text.toList.map fun c => UInt8.ofNat c.toNat

abbrev winCount : Nat := 3

def winW : Fin winCount → UInt32
  | 0 => 290
  | 1 => 290
  | 2 => 600

def winH : Fin winCount → UInt32
  | 0 => 200
  | 1 => 200
  | 2 => 130

def winTitles : Fin winCount → String
  | 0 => "MuKernel Info"
  | 1 => "MuShell"
  | 2 => "System Monitor"

/-- `WIN_X`, `WIN_Y` and `WIN_VIS`. -/
structure Wm where
  winX : Fin winCount → Int32
  winY : Fin winCount → Int32
  winVis : Fin winCount → Bool

/-- Where the windows are at first. -/
def Wm.initial : Wm where
  winX
    | 0 => 20
    | 1 => 330
    | 2 => 20
  winY
    | 0 => 20
    | 1 => 20
    | 2 => 240
  winVis _ := true

structure Wm.Window where
  x : UInt32
  y : UInt32
  w : UInt32
  h : UInt32
  title : List UInt8

def titleH : UInt32 := 16
def border : UInt32 := 1

namespace Wm.Window

def draw (win : Wm.Window) (fb : Fb) : Writes :=
  let titleBg := fb.rgb 45 65 145
  let btnX := win.x + saturatingSub win.w (border + 13)
  let btnY := win.y + border + 2
  let contTop := win.y + border + titleH
  let contH := saturatingSub win.h (border + titleH + border)
  fb.fillRect win.x win.y win.w win.h (fb.rgb 80 100 200) ++
  fb.fillRect (win.x + border) (win.y + border) (saturatingSub win.w (border * 2)) titleH titleBg ++
  fb.drawText (win.x + border + 4) (win.y + border + 4) win.title (fb.rgb 255 255 255) titleBg ++
  fb.fillRect btnX btnY 12 12 (fb.rgb 180 40 40) ++
  fb.drawChar (btnX + 2) (btnY + 2) 0x58 (fb.rgb 255 255 255) (fb.rgb 180 40 40) ++
  fb.fillRect (win.x + border) contTop (saturatingSub win.w (border * 2)) contH (fb.rgb 18 18 32)

def drawLine (win : Wm.Window) (fb : Fb) (row : UInt32) (text : String) (fg : UInt32) : Writes :=
  fb.drawText (win.x + border + 4) (win.y + border + titleH + 4 + row * 10) (textBytes text) fg (fb.rgb 18 18 32)

/-- Lines of text, from `row` on. -/
def drawLines (win : Wm.Window) (fb : Fb) : UInt32 → List (String × UInt32) → Writes
  | _, [] => []
  | row, (text, fg) :: lines => win.drawLine fb row text fg ++ win.drawLines fb (row + 1) lines

end Wm.Window

/-- `render_at`. -/
def Term.renderAt (t : Term) (fb : Fb) (cx cy : UInt32) : Writes :=
  let bg := fb.rgb 18 18 32
  fb.fillRect cx cy (UInt32.ofNat termCols * 8) (UInt32.ofNat termRows * 10) bg ++
  (List.range termRows).flatMap fun r => (List.range termCols).flatMap fun c =>
    let ch := (t.buf.1[r * termCols + c]?).getD space
    let px := cx + UInt32.ofNat c * 8
    let py := cy + UInt32.ofNat r * 10
    if r = t.row ∧ c = t.col then fb.drawChar px py (if ch = space then 0x5F else ch) (fb.rgb 0 255 128) bg
    else if ch ≠ space then fb.drawChar px py ch (fb.rgb 220 220 220) bg
    else []

namespace Wm

/-- `win_window`. -/
def window (wm : Wm) (i : Fin winCount) : Wm.Window where
  x := (wm.winX i).toUInt32
  y := (wm.winY i).toUInt32
  w := winW i
  h := winH i
  title := textBytes (winTitles i)

/-- `shell_content_origin`. -/
def shellContentOrigin (wm : Wm) : Option (UInt32 × UInt32) :=
  if wm.winVis 1 then some ((wm.winX 1).toUInt32 + border + 4, (wm.winY 1).toUInt32 + border + titleH + 4) else none

/-- The top row of the background. -/
def gradient (fb : Fb) : Writes := (u32Range 0 fb.width).flatMap fun x =>
  let t := (x * 30 / max fb.width 1).toUInt8
  fb.putPixel x 0 (fb.rgb (20 + t) 20 (50 + t))

def infoLines (fb : Fb) : List (String × UInt32) :=
  let white := fb.rgb 220 220 220
  let cyan := fb.rgb 80 210 210
  [("OS:   MuKernel v0.1.0-alpha", white), ("Arch: x86_64  (UEFI ALPHA)", white), ("Boot: Limine v8.x", white),
   ("GUI:  BETA 2 (Interactive WM)", fb.rgb 80 220 80), ("RAM:  256 MB", white),
   ("Font: 8x8 bitmap (128 glyphs)", white), ("WM:   MuWM v0.2  drag+close", cyan),
   ("PKG:  mukg 0.1.0  5 pkgs", cyan), ("(c) 2026 MuKernel Project", fb.rgb 140 140 160)]

def monitorLines (fb : Fb) : List (String × UInt32) :=
  let white := fb.rgb 220 220 220
  [("CPU [####......] 42%   MEM [######....] 58%", fb.rgb 220 220 60),
   ("Tasks: 4 running   Uptime: ~3s   IRQ: OK", white), ("VirtIO: blk+net OK   IPC: zero-copy cap", fb.rgb 80 210 210),
   ("Syscalls: musl-static (syscall instr) OK", fb.rgb 140 140 160), ("ext4 mounted   tmpfs OK   mukg: 5 pkgs", white)]

/-- The three windows, those that are shown. -/
def renderWindows (wm : Wm) (term : Term) (fb : Fb) : Writes :=
  (if wm.winVis 0 then (wm.window 0).draw fb ++ (wm.window 0).drawLines fb 0 (infoLines fb) else []) ++
  (if wm.winVis 1 then
    (wm.window 1).draw fb ++ (wm.shellContentOrigin.elim [] fun (cx, cy) => term.renderAt fb cx cy)
   else []) ++
  (if wm.winVis 2 then (wm.window 2).draw fb ++ (wm.window 2).drawLines fb 0 (monitorLines fb) else [])

def drawTaskbarBtn (fb : Fb) (x tbY : UInt32) (label : String) (active : Bool) : Writes :=
  let color := if active then fb.rgb 50 50 90 else fb.rgb 35 35 55
  let fg := if active then fb.rgb 200 200 220 else fb.rgb 110 110 130
  fb.fillRect x (tbY + 2) 68 18 color ++ fb.drawText (x + 4) (tbY + 7) (textBytes label) fg color

def renderTaskbar (wm : Wm) (fb : Fb) : Writes :=
  let sw := fb.width
  let tbY := saturatingSub fb.height 22
  let tbBg := fb.rgb 28 28 46
  fb.fillRect 0 tbY sw 22 tbBg ++
  fb.fillRect 0 tbY sw 1 (fb.rgb 60 70 140) ++
  fb.fillRect 2 (tbY + 2) 56 18 (fb.rgb 40 60 130) ++
  fb.drawText 6 (tbY + 7) (textBytes "MuStart") (fb.rgb 220 220 220) (fb.rgb 40 60 130) ++
  drawTaskbarBtn fb 66 tbY "MuKernel" (wm.winVis 0) ++
  drawTaskbarBtn fb 138 tbY "MuShell" (wm.winVis 1) ++
  drawTaskbarBtn fb 210 tbY "Monitor" (wm.winVis 2) ++
  fb.drawText (saturatingSub sw 72) (tbY + 7) (textBytes "BETA 2") (fb.rgb 80 210 210) tbBg

def renderDesktop (wm : Wm) (term : Term) (fb : Fb) : Writes :=
  fb.clear (fb.rgb 12 12 28) ++ gradient fb ++ wm.renderWindows term fb ++ wm.renderTaskbar fb

end Wm

end ChodOs
