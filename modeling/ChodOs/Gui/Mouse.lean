/-
The mouse (`mouse.rs`) and the windows under it (the handlers of `wm.rs`), byte
by byte as the interrupts come: how the packets are told apart, and that the
windows follow the pointer while the button is held and stay on the screen.
-/
import ChodOs.Gui.Wm
import ChodOs.Lib.Framed
import ChodOs.Lib.Run
import Mathlib.Data.List.FinRange

namespace ChodOs

open StepSys

/-! ## The windows' handlers -/

namespace Wm

structure Rect where
  x : UInt32
  y : UInt32
  w : UInt32
  h : UInt32

namespace Rect

def contains (r : Rect) (px py : UInt32) : Bool :=
  decide (r.x ≤ px ∧ px < r.x + r.w ∧ r.y ≤ py ∧ py < r.y + r.h)

def closeBtn (r : Rect) : Rect where
  x := r.x + saturatingSub r.w (border + 13)
  y := r.y + border + 2
  w := 12
  h := 12

def titleBar (r : Rect) : Rect where
  x := r.x + border
  y := r.y + border
  w := saturatingSub r.w (border * 2)
  h := titleH

end Rect

/-- `win_rect`. -/
def rect (wm : Wm) (i : Fin winCount) : Rect where
  x := (wm.winX i).toUInt32
  y := (wm.winY i).toUInt32
  w := winW i
  h := winH i

/-- The hit test: windows on top come first. -/
def hit (wm : Wm) (cx cy : UInt32) : Option (Fin winCount) :=
  (List.finRange winCount).reverse.find? fun i => wm.winVis i && (wm.rect i).contains cx cy

end Wm

/-- `btn_starts`. -/
def btnStarts : Fin winCount → UInt32
  | 0 => 66
  | 1 => 138
  | 2 => 210

/-- The mouse: `MOUSE_X` and `MOUSE_Y`, `MOUSE_BTN`, `PREV_BTN`, `PKT`,
`PKT_IDX` and `READY`; and the windows, with `DRAG_WIN` (none for -1), `DRAG_OX` and `DRAG_OY`. -/
structure Mouse where
  x : Int32
  y : Int32
  btn : UInt8
  prevBtn : UInt8
  pkt : Vector UInt8 3
  pktIdx : Fin 3
  ready : Bool
  wm : Wm
  dragWin : Option (Fin winCount)
  dragOx : Int32
  dragOy : Int32

/-- What the handlers do besides: the desktop is drawn, a window's title is in
the colour of the focus, a window is taken hold of at a place in it or let go
where it is, the cursor is drawn, and the input ring is told. -/
inductive MouseEvent
  | desktop (wm : Wm)
  | focused (win : Wm.Window)
  | grabbed (i : Fin winCount) (ox oy : Int32)
  | dropped (i : Fin winCount) (x y : Int32)
  | cursor (x y : Int32)
  | click (x y : Int32) (btn : UInt8)
  | move (x y : Int32)

namespace Mouse

/-- `render_desktop` and `redraw_cursor`. -/
def redrawn (m : Mouse) : List MouseEvent := [.desktop m.wm, .cursor m.x m.y]

/-- `on_click` of `wm.rs`. -/
def onClick (fb : Fb) (m : Mouse) (cx cy : UInt32) : List MouseEvent × Mouse :=
  if saturatingSub fb.height 22 ≤ cy then
    if 2 ≤ cx ∧ cx < 58 then
      let m := { m with wm := .initial }
      (m.redrawn, m)
    else
      match (List.finRange winCount).find? fun i => decide (btnStarts i ≤ cx ∧ cx < btnStarts i + 68) with
      | some i =>
        let m := { m with wm := { m.wm with winVis := Function.update m.wm.winVis i !m.wm.winVis i } }
        (m.redrawn, m)
      | none => ([], m)
  else
    match m.wm.hit cx cy with
    | none => ([], m)
    | some i =>
      if (m.wm.rect i).closeBtn.contains cx cy then
        let m := { m with wm := { m.wm with winVis := Function.update m.wm.winVis i false } }
        (m.redrawn, m)
      else if (m.wm.rect i).titleBar.contains cx cy then
        let m := { m with
          dragWin := some i
          dragOx := cx.toInt32 - m.wm.winX i
          dragOy := cy.toInt32 - m.wm.winY i }
        ([.focused (m.wm.window i), .grabbed i m.dragOx m.dragOy], m)
      else ([.focused (m.wm.window i)], m)

/-- `on_drag`. -/
def onDrag (fb : Fb) (m : Mouse) (x y : Int32) : List MouseEvent × Mouse :=
  match m.dragWin with
  | none => ([], m)
  | some i =>
    let newX := min (max (x - m.dragOx) 0) (fb.width.toInt32 - (winW i).toInt32)
    let newY := min (max (y - m.dragOy) 0) (fb.height.toInt32 - 22 - (winH i).toInt32)
    let m := { m with wm := { m.wm with
      winX := Function.update m.wm.winX i newX
      winY := Function.update m.wm.winY i newY } }
    (m.redrawn, m)

/-- `on_release`. -/
def onRelease (m : Mouse) : List MouseEvent × Mouse :=
  match m.dragWin with
  | none => ([], m)
  | some i => ([.dropped i (m.wm.winX i) (m.wm.winY i)], { m with dragWin := none })

/-! ## Packets -/

/-- A motion byte and its sign. -/
def delta (b : UInt8) (negative : Bool) : Int32 := if negative then Int32.ofNat b.toNat - 256 else Int32.ofNat b.toNat

/-- The left button. -/
def left (btn : UInt8) : Bool := btn &&& 0x01 != 0

/-- A press, as `process_packet` passes it on. -/
def press (fb : Fb) (m : Mouse) : List MouseEvent × Mouse :=
  let r := m.onClick fb m.x.toUInt32 m.y.toUInt32
  (r.1 ++ [.click m.x m.y m.btn], r.2)

/-- The edges of the left button, and a drag, as `process_packet` tells them apart. -/
def buttons (fb : Fb) (m : Mouse) (moved : Bool) : List MouseEvent × Mouse :=
  let r₁ := if left m.btn && !left m.prevBtn then m.press fb else ([], m)
  let r₂ := if left m.btn && moved then r₁.2.onDrag fb m.x m.y else ([], r₁.2)
  let r₃ := if left m.prevBtn && !left m.btn then r₂.2.onRelease else ([], r₂.2)
  (r₁.1 ++ r₂.1 ++ r₃.1, r₃.2)

/-- `process_packet`. -/
def processPacket (fb : Fb) (m : Mouse) : List MouseEvent × Mouse :=
  let b0 := m.pkt[0]
  if !m.ready then ([], m)
  else if b0 &&& 0xC0 != 0 then ([], m)
  else
    let dx := delta m.pkt[1] (b0 &&& 0x10 != 0)
    let dy := delta m.pkt[2] (b0 &&& 0x20 != 0)
    let w := fb.width.toInt32
    let h := fb.height.toInt32
    if w = 0 ∨ h = 0 then ([], m)
    else
      let x := min (max (m.x + dx) 0) (w - 1)
      let y := min (max (m.y - dy) 0) (h - 1)
      let btn := b0 &&& 0x07
      let moved := dx != 0 || dy != 0
      let (es, m) := { m with x, y, btn }.buttons fb moved
      (es ++ (if moved then [.move x y] else []) ++ [.cursor x y], { m with prevBtn := btn })

theorem packetLen_pos : 0 < 3 := by decide

/-- Where the first byte of a packet goes. -/
abbrev packetStart : Fin 3 := ⟨0, packetLen_pos⟩

/-- `handle_irq`, with the byte that is read. -/
def handleIrq (fb : Fb) (m : Mouse) (byte : UInt8) : List MouseEvent × Mouse :=
  if m.pktIdx.val == 0 && byte &&& 0x08 == 0 then ([], m)
  else
    let m := { m with pkt := m.pkt.set m.pktIdx byte }
    if h : m.pktIdx.val + 1 < 3 then ([], { m with pktIdx := ⟨m.pktIdx.val + 1, h⟩ })
    else { m with pktIdx := packetStart }.processPacket fb

/-- `init`. -/
def init (fb : Fb) (m : Mouse) : Mouse :=
  if 0 < fb.width ∧ 0 < fb.height then
    { m with x := fb.width.toInt32 / 2, y := fb.height.toInt32 / 2, ready := true }
  else { m with ready := true }

/-- As it is at first. -/
def cold : Mouse where
  x := 0
  y := 0
  btn := 0
  prevBtn := 0
  pkt := .replicate 3 0
  pktIdx := packetStart
  ready := false
  wm := .initial
  dragWin := none
  dragOx := 0
  dragOy := 0

/-- One interrupt after the other. -/
def irqs (fb : Fb) (m : Mouse) : List UInt8 → List MouseEvent × Mouse
  | [] => ([], m)
  | b :: bs =>
    let r := m.handleIrq fb b
    let rs := irqs fb r.2 bs
    (r.1 ++ rs.1, rs.2)

/-- An interrupt, as a step. -/
def step (fb : Fb) (m : Mouse) (byte : UInt8) : Option (List MouseEvent × Mouse) := some (m.handleIrq fb byte)

end Mouse

/-! ## Telling the packets apart -/

/-- A packet, as the mouse sends it. -/
structure Packet where
  b0 : UInt8
  b1 : UInt8
  b2 : UInt8
  marked : b0 &&& 0x08 ≠ 0

def Packet.bytes (p : Packet) : List UInt8 := [p.b0, p.b1, p.b2]

/-- Bit 3 of the first byte. -/
def marks (b : UInt8) : Bool := b &&& 0x08 != 0

theorem Packet.isFrame (p : Packet) : Framed.IsFrame 3 marks p.bytes := ⟨rfl, bne_iff_ne.mpr p.marked⟩

namespace Mouse

/-- A packet that has come. -/
def packet (fb : Fb) (m : Mouse) (p : Packet) : List MouseEvent × Mouse :=
  { m with pkt := #v[p.b0, p.b1, p.b2] }.processPacket fb

def packets (fb : Fb) (m : Mouse) : List Packet → List MouseEvent × Mouse
  | [] => ([], m)
  | p :: ps =>
    let r := m.packet fb p
    let rs := packets fb r.2 ps
    (r.1 ++ rs.1, rs.2)

/-- The bytes of the packet that has begun. -/
def held (m : Mouse) : List UInt8 := m.pkt.toList.take m.pktIdx

/-- What the handlers leave alone. -/
structure SamePkt (m m' : Mouse) : Prop where
  pkt : m'.pkt = m.pkt
  pktIdx : m'.pktIdx = m.pktIdx

variable {fb : Fb} {m m' m'' : Mouse} {b : UInt8} {bs : List UInt8} {ps qs : List Packet} {x y : Int32} {cx cy : UInt32}

theorem SamePkt.rfl : SamePkt m m := ⟨Eq.refl _, Eq.refl _⟩

theorem SamePkt.trans (h : SamePkt m m') (h' : SamePkt m' m'') : SamePkt m m'' :=
  ⟨h'.pkt.trans h.pkt, h'.pktIdx.trans h.pktIdx⟩

theorem samePkt_onClick : SamePkt m (m.onClick fb cx cy).2 := by
  unfold onClick
  split
  · split
    · exact ⟨Eq.refl _, Eq.refl _⟩
    · split <;> exact ⟨Eq.refl _, Eq.refl _⟩
  · split
    · exact .rfl
    · split
      · exact ⟨Eq.refl _, Eq.refl _⟩
      · split <;> exact ⟨Eq.refl _, Eq.refl _⟩

theorem samePkt_onDrag : SamePkt m (m.onDrag fb x y).2 := by
  unfold onDrag
  split <;> exact ⟨Eq.refl _, Eq.refl _⟩

theorem samePkt_onRelease : SamePkt m m.onRelease.2 := by
  unfold onRelease
  split <;> exact ⟨Eq.refl _, Eq.refl _⟩

theorem buttons_press {moved : Bool} (hbtn : left m.btn = true) (hprev : left m.prevBtn = false) : m.buttons fb moved =
    if moved then ((m.press fb).1 ++ ((m.press fb).2.onDrag fb m.x m.y).1, ((m.press fb).2.onDrag fb m.x m.y).2)
    else m.press fb := by
  unfold buttons
  rw [hbtn, hprev]
  cases moved
  · simp
  · simp

theorem buttons_hold {moved : Bool} (hbtn : left m.btn = true) (hprev : left m.prevBtn = true) : m.buttons fb moved =
    if moved then m.onDrag fb m.x m.y else ([], m) := by
  unfold buttons
  rw [hbtn, hprev]
  cases moved <;> simp

theorem buttons_release {moved : Bool} (hbtn : left m.btn = false) (hprev : left m.prevBtn = true) :
    m.buttons fb moved = m.onRelease := by
  unfold buttons
  rw [hbtn, hprev]
  simp

theorem buttons_idle {moved : Bool} (hbtn : left m.btn = false) (hprev : left m.prevBtn = false) :
    m.buttons fb moved = ([], m) := by
  unfold buttons
  rw [hbtn, hprev]
  simp

theorem samePkt_buttons {moved : Bool} : SamePkt m (m.buttons fb moved).2 := by
  cases hbtn : left m.btn with
  | true =>
    cases hprev : left m.prevBtn with
    | true =>
      rw [buttons_hold hbtn hprev]
      split
      · exact samePkt_onDrag
      · exact .rfl
    | false =>
      rw [buttons_press hbtn hprev]
      have hpress : SamePkt m (m.press fb).2 := samePkt_onClick
      split
      · exact hpress.trans samePkt_onDrag
      · exact hpress
  | false =>
    cases hprev : left m.prevBtn with
    | true =>
      rw [buttons_release hbtn hprev]
      exact samePkt_onRelease
    | false =>
      rw [buttons_idle hbtn hprev]
      exact .rfl

/-- Where a packet leads: nowhere, or the pointer moves by `dx` and `-dy`. -/
theorem processPacket_cases (fb : Fb) (m : Mouse) : m.processPacket fb = ([], m) ∨
    ∃ b₁ n₁ b₂ n₂, ∃ btn x y, x = min (max (m.x + delta b₁ n₁) 0) (fb.width.toInt32 - 1) ∧
      y = min (max (m.y - delta b₂ n₂) 0) (fb.height.toInt32 - 1) ∧
      ∃ moved, (moved = false → delta b₁ n₁ = 0 ∧ delta b₂ n₂ = 0) ∧ ∃ es r, { m with x, y, btn }.buttons fb moved = (es, r) ∧
        m.processPacket fb = (es ++ (if moved then [.move x y] else []) ++ [.cursor x y], { r with prevBtn := btn }) := by
  by_cases hready : (!m.ready) = true
  · exact .inl (if_pos hready)
  · by_cases hover : (m.pkt[0] &&& 0xC0 != 0) = true
    · exact .inl ((if_neg hready).trans (if_pos hover))
    · by_cases hscreen : fb.width.toInt32 = 0 ∨ fb.height.toInt32 = 0
      · exact .inl ((if_neg hready).trans ((if_neg hover).trans (if_pos hscreen)))
      · refine .inr ⟨_, _, _, _, _, _, _, rfl, rfl, _, fun hmoved => ?_, _, _, rfl,
          (if_neg hready).trans ((if_neg hover).trans ((if_neg hscreen).trans rfl))⟩
        simpa using hmoved

theorem samePkt_processPacket (fb : Fb) (m : Mouse) : SamePkt m (m.processPacket fb).2 := by
  rcases processPacket_cases fb m with h | ⟨_, _, _, _, btn, x, y, -, -, moved, -, es, r, hr, h⟩
  · rw [h]
    exact .rfl
  · rw [h]
    have hsame : SamePkt { m with x, y, btn } ({ m with x, y, btn }.buttons fb moved).2 := samePkt_buttons
    rw [hr] at hsame
    exact ⟨hsame.pkt, hsame.pktIdx⟩

theorem length_held (m : Mouse) : m.held.length = m.pktIdx := by
  rw [held, List.length_take, Vector.length_toList]
  omega

theorem held_eq_nil : m.held = [] ↔ m.pktIdx = 0 := by
  rw [← List.length_eq_zero_iff, length_held, Fin.ext_iff]
  rfl

/-- The reader of frames under the interrupts. -/
theorem held_handleIrq (fb : Fb) (m : Mouse) (b : UInt8) : (m.handleIrq fb b).2.held = (Framed.feed 3 marks m.held b).2 := by
  have hempty : m.held.isEmpty = (m.pktIdx.val == 0) := by
    rw [Bool.eq_iff_iff, List.isEmpty_iff, held_eq_nil, beq_iff_eq, Fin.ext_iff]
    rfl
  have hmark : (!marks b) = (b &&& 0x08 == 0) := by rw [marks, bne, Bool.not_not]
  have hset : (m.pkt.set m.pktIdx b).toList.take (m.pktIdx + 1) = m.held ++ [b] := by
    rw [Vector.toList_set, List.take_add_one, List.take_set_of_le (Nat.le_refl _),
      List.getElem?_set_self (by rw [Vector.length_toList]; exact m.pktIdx.isLt)]
    rfl
  rw [Framed.feed, hempty, hmark, length_held, handleIrq]
  split
  · next h =>
    rw [Bool.and_eq_true, beq_iff_eq] at h
    exact held_eq_nil.mpr (Fin.ext h.1)
  · dsimp only
    split
    · rw [if_neg (by omega)]
      exact hset
    · rw [if_pos (by omega)]
      have hsame := samePkt_processPacket fb { m with pkt := m.pkt.set m.pktIdx b, pktIdx := 0 }
      exact held_eq_nil.mpr hsame.pktIdx

theorem held_irqs (fb : Fb) (m : Mouse) (bs : List UInt8) : (m.irqs fb bs).2.held = (Framed.feeds 3 marks m.held bs).2 := by
  induction bs generalizing m with
  | nil => rfl
  | cons b bs ih => exact (ih _).trans (by rw [held_handleIrq]; rfl)

/-- In step, a packet is processed when its last byte has come. -/
theorem irqs_packet (hidx : m.pktIdx = 0) (p : Packet) : m.irqs fb p.bytes = m.packet fb p := by
  have hfirst : m.handleIrq fb p.b0 = ([], { m with pkt := m.pkt.set 0 p.b0, pktIdx := 1 }) := by
    cases m
    cases hidx
    refine if_neg ?_
    rw [beq_eq_false_iff_ne.mpr p.marked]
    exact Bool.false_ne_true
  have hpkt : ((m.pkt.set 0 p.b0).set 1 p.b1).set 2 p.b2 = #v[p.b0, p.b1, p.b2] := by
    refine Vector.ext fun i hi => ?_
    rcases i with _ | _ | _ | i
    · simp
    · simp
    · simp
    · omega
  have hlast : { m with pkt := (m.pkt.set 0 p.b0).set 1 p.b1, pktIdx := 2 }.handleIrq fb p.b2 =
      { m with pkt := ((m.pkt.set 0 p.b0).set 1 p.b1).set 2 p.b2, pktIdx := 0 }.processPacket fb := rfl
  have hsecond : { m with pkt := m.pkt.set 0 p.b0, pktIdx := 1 }.handleIrq fb p.b1 =
      ([], { m with pkt := (m.pkt.set 0 p.b0).set 1 p.b1, pktIdx := 2 }) := rfl
  rw [Packet.bytes, irqs, hfirst]
  dsimp only
  rw [irqs, hsecond]
  dsimp only
  rw [irqs, hlast, hpkt, packet, hidx, irqs]
  dsimp only
  rw [List.append_nil, List.nil_append, List.nil_append]

theorem irqs_append (fb : Fb) (m : Mouse) (bs cs : List UInt8) : m.irqs fb (bs ++ cs) =
    ((m.irqs fb bs).1 ++ ((m.irqs fb bs).2.irqs fb cs).1, ((m.irqs fb bs).2.irqs fb cs).2) := by
  induction bs generalizing m with
  | nil => rfl
  | cons b bs ih =>
    rw [List.cons_append, irqs, irqs, ih]
    dsimp only
    rw [List.append_assoc]

theorem irqs_packets (hidx : m.pktIdx = 0) : m.irqs fb (ps.flatMap Packet.bytes) = m.packets fb ps := by
  induction ps generalizing m with
  | nil => rfl
  | cons p ps ih =>
    have hsame : (m.packet fb p).2.pktIdx = 0 := (samePkt_processPacket fb _).pktIdx.trans hidx
    rw [List.flatMap_cons, irqs_append, irqs_packet hidx, ih hsame]
    rfl

end Mouse

open Framed

/-- Packets that come to a mouse out of step leave it so exactly when in each
of them a byte behind the first has bit 3 set, and none before that of the
packet before; a packet whose two motion bytes have it clear ends this. In
step, each packet is processed as it was sent. -/
theorem mouse_in_step_iff (fb : Fb) (m : Mouse) (ps : List Packet) :
    ((m.irqs fb (ps.flatMap Packet.bytes)).2.pktIdx ≠ 0 ↔
      m.pktIdx ≠ 0 ∧ Strays marks (3 - m.pktIdx) (ps.map Packet.bytes)) ∧
    ((∃ p ∈ ps, marks p.b1 = false ∧ marks p.b2 = false) → (m.irqs fb (ps.flatMap Packet.bytes)).2.pktIdx = 0) ∧
    ∀ qs, (m.irqs fb (ps.flatMap Packet.bytes)).2.pktIdx = 0 →
      (m.irqs fb (ps.flatMap Packet.bytes)).2.irqs fb (qs.flatMap Packet.bytes) =
        (m.irqs fb (ps.flatMap Packet.bytes)).2.packets fb qs := by
  have hfs : ∀ f ∈ ps.map Packet.bytes, IsFrame 3 marks f := fun f hf => by
    obtain ⟨p, -, rfl⟩ := List.mem_map.mp hf
    exact p.isFrame
  have hiff : (m.irqs fb (ps.flatMap Packet.bytes)).2.pktIdx ≠ 0 ↔
      m.pktIdx ≠ 0 ∧ Strays marks (3 - m.pktIdx) (ps.map Packet.bytes) := by
    rw [Ne, ← Mouse.held_eq_nil, Mouse.held_irqs, List.flatMap_def, Ne, ← Mouse.held_eq_nil]
    by_cases hheld : m.held = []
    · rw [hheld, feeds_frames hfs]
      exact iff_of_false (fun h => h rfl) fun h => h.1 rfl
    · rw [← Mouse.length_held, and_iff_right hheld]
      exact out_of_step_iff hheld (by rw [Mouse.length_held]; exact m.pktIdx.isLt) hfs
  refine ⟨hiff, fun ⟨p, hp, h₁, h₂⟩ => ?_, fun qs hidx => Mouse.irqs_packets hidx⟩
  by_contra hne
  obtain ⟨j, hj, hmark⟩ := (hiff.mp hne).2.marked (List.mem_map_of_mem hp)
  have hlt := m.pktIdx.isLt
  rcases j with _ | _ | _ | j
  · omega
  · exact Bool.false_ne_true (h₁.symm.trans hmark)
  · exact Bool.false_ne_true (h₂.symm.trans hmark)
  · cases hmark

end ChodOs
