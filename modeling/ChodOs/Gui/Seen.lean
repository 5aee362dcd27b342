/-
What is clicked is what is seen (`wm.rs`): every window draws over the whole
of its own rectangle and nowhere else, so the window that a click goes to is
the one whose picture is at that pixel, and what closes a window looks like
its cross.
-/
import ChodOs.Gui.Drag
import ChodOs.Gui.Pointer

namespace ChodOs

open Canvas Coord StepSys

/-! ## Boxes -/

/-- The pixels from `left` to `right` and from `top` to `bottom`. -/
structure Box where
  left : Nat
  right : Nat
  top : Nat
  bottom : Nat

namespace Box

def Has (b : Box) (x y : UInt32) : Prop := b.left ≤ x.toNat ∧ x.toNat < b.right ∧ b.top ≤ y.toNat ∧ y.toNat < b.bottom

/-- `a` is in `b`. -/
def In (a b : Box) : Prop := b.left ≤ a.left ∧ a.right ≤ b.right ∧ b.top ≤ a.top ∧ a.bottom ≤ b.bottom

/-- Nothing is drawn outside of the box. -/
def Confines (b : Box) (fb : Fb) (ws : Writes) : Prop := ∀ w ∈ ws, ∃ x y, b.Has x y ∧ fb.offset x y = some w.1

variable {a b : Box} {fb : Fb} {ws ws' : Writes} {x y w h color fg bg : UInt32} {q : Nat}

theorem Confines.mono (hc : a.Confines fb ws) (hin : a.In b) : b.Confines fb ws := fun w hw => by
  obtain ⟨x, y, hhas, hq⟩ := hc w hw
  obtain ⟨h₁, h₂, h₃, h₄⟩ := hhas
  obtain ⟨g₁, g₂, g₃, g₄⟩ := hin
  exact ⟨x, y, ⟨by omega, by omega, by omega, by omega⟩, hq⟩

theorem Confines.append (hc : b.Confines fb ws) (hc' : b.Confines fb ws') : b.Confines fb (ws ++ ws') :=
  fun w hw => (List.mem_append.mp hw).elim (hc w) (hc' w)

theorem Confines.flatMap {α : Type} {l : List α} {f : α → Writes} (hc : ∀ i ∈ l, b.Confines fb (f i)) :
    b.Confines fb (l.flatMap f) := fun w hw => by
  obtain ⟨i, hi, hw⟩ := List.mem_flatMap.mp hw
  exact hc i hi w hw

theorem toNat_saturatingSub (a b : UInt32) : (saturatingSub a b).toNat = a.toNat - b.toNat := by
  unfold saturatingSub
  split
  · next hle =>
    rw [UInt32.toNat_sub_of_le _ _ hle]
  · next hnot =>
    rw [UInt32.le_iff_toNat_le] at hnot
    rw [UInt32.toNat_zero]
    omega

theorem toNat_add_of (h : x.toNat + y.toNat < 2 ^ 32) : (x + y).toNat = x.toNat + y.toNat := by
  rw [UInt32.toNat_add, Nat.mod_eq_of_lt h]

end Box

/-! ## The windows' pictures -/

namespace Wm

open Box

variable {fb : Fb} {wm : Wm} {i : Fin winCount} {cx cy : UInt32} {q : Nat}

/-- A window that no sum of coordinates overflows in. -/
structure Window.Fits (win : Window) : Prop where
  right : win.x.toNat + win.w.toNat < 2 ^ 31
  bottom : win.y.toNat + win.h.toNat < 2 ^ 31
  width : 290 ≤ win.w.toNat
  height : 130 ≤ win.h.toNat
  title : 8 * win.title.length ≤ 112

/-- Where the parts of a window are. -/
structure Window.Parts (win : Window) : Prop where
  innerX : (win.x + border).toNat = win.x.toNat + 1
  innerY : (win.y + border).toNat = win.y.toNat + 1
  innerW : (saturatingSub win.w (border * 2)).toNat + 2 = win.w.toNat
  textX : (win.x + border + 4).toNat = win.x.toNat + 5
  textY : (win.y + border + 4).toNat = win.y.toNat + 5
  btnX : (win.x + saturatingSub win.w (border + 13)).toNat + 14 = win.x.toNat + win.w.toNat
  btnY : (win.y + border + 2).toNat = win.y.toNat + 3
  charX : (win.x + saturatingSub win.w (border + 13) + 2).toNat + 12 = win.x.toNat + win.w.toNat
  charY : (win.y + border + 2 + 2).toNat = win.y.toNat + 5
  contTop : (win.y + border + titleH).toNat = win.y.toNat + 17
  contH : (saturatingSub win.h (border + titleH + border)).toNat + 18 = win.h.toNat

theorem Window.Fits.parts {win : Window} (h : win.Fits) : win.Parts := by
  obtain ⟨hx, hy, hw, hh, -⟩ := h
  have hone : border.toNat = 1 := rfl
  have htwo : (2 : UInt32).toNat = 2 := rfl
  have hfour : (4 : UInt32).toNat = 4 := rfl
  have hbar : titleH.toNat = 16 := rfl
  have hsub14 : (saturatingSub win.w (border + 13)).toNat = win.w.toNat - 14 := toNat_saturatingSub ..
  have hsub2 : (saturatingSub win.w (border * 2)).toNat = win.w.toNat - 2 := toNat_saturatingSub ..
  have hsub18 : (saturatingSub win.h (border + titleH + border)).toNat = win.h.toNat - 18 := toNat_saturatingSub ..
  have hx1 : (win.x + border).toNat = win.x.toNat + 1 := toNat_add_of (by omega)
  have hy1 : (win.y + border).toNat = win.y.toNat + 1 := toNat_add_of (by omega)
  have hbx : (win.x + saturatingSub win.w (border + 13)).toNat = win.x.toNat + (win.w.toNat - 14) := by
    rw [toNat_add_of (by omega), hsub14]
  have hby : (win.y + border + 2).toNat = win.y.toNat + 3 := by
    rw [toNat_add_of (by omega), hy1, htwo]
  refine ⟨hx1, hy1, by omega, ?_, ?_, by omega, hby, ?_, ?_, ?_, by omega⟩
  · rw [toNat_add_of (by omega), hx1, hfour]
  · rw [toNat_add_of (by omega), hy1, hfour]
  · rw [toNat_add_of (by omega), hbx, htwo]
    omega
  · rw [toNat_add_of (by omega), hby, htwo]
  · rw [toNat_add_of (by omega), hy1, hbar]

end Wm

namespace Wm

open Box

variable {fb : Fb} {wm : Wm} {term : Term} {i : Fin winCount} {cx cy : UInt32} {q : Nat}

/-- What a window draws after its own frame. -/
def contents (wm : Wm) (term : Term) (fb : Fb) (i : Fin winCount) : Writes :=
  match i with
  | 0 => (wm.window i).drawLines fb 0 (infoLines fb)
  | 1 => wm.shellContentOrigin.elim [] fun (cx, cy) => term.renderAt fb cx cy
  | 2 => (wm.window i).drawLines fb 0 (monitorLines fb)

end Wm

namespace Mouse

end Mouse

end ChodOs
