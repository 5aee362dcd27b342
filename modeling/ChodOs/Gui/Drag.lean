/-
Where the pointer and the windows go, whatever bytes the mouse sends: they
stay on the screen, and a window that is held is where the pointer has taken
it, as far as the screen goes.
-/
import ChodOs.Gui.Mouse
import Mathlib.Algebra.Ring.Int.Defs

namespace ChodOs

open StepSys

/-! ## Coordinates -/

namespace Coord

variable {a b : Int32} {n : UInt32} {lo hi v : Int}

theorem toInt_max (a b : Int32) : (max a b).toInt = max a.toInt b.toInt := by
  change (if a ≤ b then b else a).toInt = _
  rw [Int.max_def]
  simp only [Int32.le_iff_toInt_le]
  split <;> rfl

theorem toInt_min (a b : Int32) : (min a b).toInt = min a.toInt b.toInt := by
  change (if a ≤ b then a else b).toInt = _
  rw [Int.min_def]
  simp only [Int32.le_iff_toInt_le]
  split <;> rfl

theorem toInt_add (hlo : -2 ^ 31 ≤ a.toInt + b.toInt) (hhi : a.toInt + b.toInt < 2 ^ 31) :
    (a + b).toInt = a.toInt + b.toInt := by
  rw [Int32.toInt_add]
  exact Int.bmod_eq_of_le (by omega) (by omega)

theorem toInt_sub (hlo : -2 ^ 31 ≤ a.toInt - b.toInt) (hhi : a.toInt - b.toInt < 2 ^ 31) :
    (a - b).toInt = a.toInt - b.toInt := by
  rw [Int32.toInt_sub]
  exact Int.bmod_eq_of_le (by omega) (by omega)

theorem toInt_toInt32 (h : n.toNat < 2 ^ 31) : n.toInt32.toInt = n.toNat := by
  have hn : n.toInt32 = Int32.ofNat n.toNat := by
    rw [← UInt32.toInt32_ofNat', UInt32.ofNat_toNat]
  rw [hn, Int32.toInt_ofNat_of_lt h]

/-- A coordinate that is not negative is the same unsigned. -/
theorem toNat_toUInt32 (h : 0 ≤ a.toInt) : (a.toUInt32.toNat : Int) = a.toInt := by
  have hle : (0 : Int32) ≤ a := Int32.le_iff_toInt_le.mpr h
  rw [Int32.toNat_toUInt32_of_le hle]
  exact Int.toNat_of_nonneg h

/-- `max(0).min(hi)`. -/
def clamp (hi v : Int) : Int := min (max v 0) hi

theorem toInt_clamp (a b : Int32) : (min (max a 0) b).toInt = clamp b.toInt a.toInt := by
  rw [toInt_min, toInt_max]
  rfl

theorem clamp_of (hlo : 0 ≤ v) (hhi : v ≤ hi) : clamp hi v = v := by
  rw [clamp]
  omega

theorem clamp_mem (h : 0 ≤ hi) : 0 ≤ clamp hi v ∧ clamp hi v ≤ hi := by
  rw [clamp]
  omega

theorem toInt_delta (b : UInt8) (negative : Bool) :
    -256 ≤ (Mouse.delta b negative).toInt ∧ (Mouse.delta b negative).toInt ≤ 255 := by
  have hb : b.toNat < 256 := b.toNat_lt
  have hnat : (Int32.ofNat b.toNat).toInt = b.toNat := Int32.toInt_ofNat_of_lt (by omega)
  have hsign : (256 : Int32).toInt = 256 := rfl
  cases negative with
  | false =>
    rw [Mouse.delta, if_neg Bool.false_ne_true, hnat]
    omega
  | true =>
    rw [Mouse.delta, if_pos rfl, toInt_sub (by omega) (by omega), hnat, hsign]
    omega

end Coord

open Coord

/-! ## What holds all the time -/

/-- A screen that the windows fit on as they are at first, and on which no
coordinate overflows. -/
structure Fb.Roomy (fb : Fb) : Prop where
  width : 620 ≤ fb.width.toNat
  height : 392 ≤ fb.height.toNat
  width_le : fb.width.toNat + 256 ≤ 2 ^ 31
  height_le : fb.height.toNat + 256 ≤ 2 ^ 31

/-- How far to the right and down a window goes. -/
def Fb.spareX (fb : Fb) (i : Fin winCount) : Int := fb.width.toNat - (winW i).toNat
def Fb.spareY (fb : Fb) (i : Fin winCount) : Int := fb.height.toNat - 22 - (winH i).toNat

/-- The windows are on the screen, above the taskbar. -/
structure Wm.OnDesk (fb : Fb) (wm : Wm) : Prop where
  x : ∀ i, 0 ≤ (wm.winX i).toInt ∧ (wm.winX i).toInt ≤ fb.spareX i
  y : ∀ i, 0 ≤ (wm.winY i).toInt ∧ (wm.winY i).toInt ≤ fb.spareY i

/-- Window `i` is shown and held at a place in its title, and is where the
pointer at `px` and `py` has taken it, as far as the screen goes. -/
structure Wm.Holds (fb : Fb) (wm : Wm) (px py : Int32) (i : Fin winCount) (ox oy : Int32) : Prop where
  shown : wm.winVis i = true
  titleX : 1 ≤ ox.toInt ∧ ox.toInt + 1 < (winW i).toNat
  titleY : 1 ≤ oy.toInt ∧ oy.toInt ≤ titleH.toNat
  x : (wm.winX i).toInt = clamp (fb.spareX i) (px.toInt - ox.toInt)
  y : (wm.winY i).toInt = clamp (fb.spareY i) (py.toInt - oy.toInt)

/-- The window that is held, and where, by what was reported. -/
def gripAfter (h : List MouseEvent) : Option (Fin winCount × Int32 × Int32) :=
  h.foldl (fun grip e => match e with
    | .grabbed i ox oy => some (i, ox, oy)
    | .dropped .. => none
    | _ => grip) none

/-- Where the cursor was drawn last. -/
def cursorAfter (h : List MouseEvent) : Option (Int32 × Int32) :=
  h.foldl (fun pos e => match e with
    | .cursor x y => some (x, y)
    | _ => pos) none

/-- What is let go of had been taken hold of, and is where the cursor was when
it was last drawn, as far as the screen goes. -/
def DroppedRight (fb : Fb) (h : List MouseEvent) : Prop :=
  ∀ past i x y rest, h = past ++ .dropped i x y :: rest → ∃ ox oy px py, gripAfter past = some (i, ox, oy) ∧
    cursorAfter past = some (px, py) ∧ x.toInt = clamp (fb.spareX i) (px.toInt - ox.toInt) ∧
    y.toInt = clamp (fb.spareY i) (py.toInt - oy.toInt)

namespace Mouse

/-- The window that is held, and where. -/
def grip (m : Mouse) : Option (Fin winCount × Int32 × Int32) := m.dragWin.map (·, m.dragOx, m.dragOy)

structure Followed (fb : Fb) (h : List MouseEvent) (m : Mouse) : Prop where
  x : 0 ≤ m.x.toInt ∧ m.x.toInt < fb.width.toNat
  y : 0 ≤ m.y.toInt ∧ m.y.toInt < fb.height.toNat
  onDesk : m.wm.OnDesk fb
  grip : gripAfter h = m.grip
  pressed : m.dragWin.isSome → left m.prevBtn = true ∧ cursorAfter h = some (m.x, m.y)
  holds : ∀ i ox oy, m.grip = some (i, ox, oy) → m.wm.Holds fb m.x m.y i ox oy
  dropped : DroppedRight fb h

end Mouse

/-! ## Events -/

variable {fb : Fb} {h es : List MouseEvent} {m m' : Mouse} {i j : Fin winCount} {ox oy px py : Int32}

/-- Nothing is taken hold of or let go. -/
def MouseEvent.still : MouseEvent → Bool
  | .grabbed .. | .dropped .. => false
  | _ => true

theorem gripAfter_still (hes : ∀ e ∈ es, e.still = true) : gripAfter (h ++ es) = gripAfter h := by
  induction es using List.reverseRecOn with
  | nil => rw [List.append_nil]
  | append_singleton es e ih =>
    have he := hes e (List.mem_append_right _ (List.mem_singleton_self _))
    rw [← List.append_assoc, gripAfter, List.foldl_append, ← gripAfter, ih fun e' he' => hes e' (List.mem_append_left _ he')]
    cases e with
    | grabbed => cases he
    | dropped => cases he
    | _ => rfl

theorem gripAfter_concat_grabbed : gripAfter (h ++ [.grabbed i ox oy]) = some (i, ox, oy) := by
  rw [gripAfter, List.foldl_append]
  rfl

theorem gripAfter_concat_dropped : gripAfter (h ++ [.dropped i ox oy]) = none := by
  rw [gripAfter, List.foldl_append]
  rfl

theorem cursorAfter_concat_cursor : cursorAfter (h ++ [.cursor px py]) = some (px, py) := by
  rw [cursorAfter, List.foldl_append]
  rfl

theorem DroppedRight.append (hd : DroppedRight fb h) (hes : ∀ i x y, .dropped i x y ∉ es) : DroppedRight fb (h ++ es) := by
  intro past i x y rest heq
  rcases List.append_eq_append_iff.mp heq with ⟨es', rfl, hes'⟩ | ⟨rest', hrest, hes'⟩
  · exact absurd (by rw [hes']; exact List.mem_append_right _ List.mem_cons_self) (hes i x y)
  · cases rest' with
    | nil => exact absurd (by rw [← List.nil_append es, ← hes']; exact List.mem_cons_self) (hes i x y)
    | cons e rest' =>
      cases hes'
      exact hd past i x y rest' hrest

theorem DroppedRight.concat {x y : Int32} (hd : DroppedRight fb h) (hgrip : gripAfter h = some (i, ox, oy))
    (hcursor : cursorAfter h = some (px, py)) (hx : x.toInt = clamp (fb.spareX i) (px.toInt - ox.toInt))
    (hy : y.toInt = clamp (fb.spareY i) (py.toInt - oy.toInt)) : DroppedRight fb (h ++ [.dropped i x y]) := by
  intro past j x' y' rest heq
  rcases List.append_eq_append_iff.mp heq with ⟨es', rfl, hes'⟩ | ⟨rest', hrest, hes'⟩
  · cases es' with
    | nil =>
      cases hes'
      rw [List.append_nil]
      exact ⟨ox, oy, px, py, hgrip, hcursor, hx, hy⟩
    | cons e es' => cases es' <;> cases hes'
  · cases rest' with
    | nil =>
      cases hes'
      rw [hrest, List.append_nil] at hgrip hcursor
      exact ⟨ox, oy, px, py, hgrip, hcursor, hx, hy⟩
    | cons e rest' =>
      cases hes'
      exact hd past j x' y' rest' hrest

/-! ## The windows -/

theorem winW_le (i : Fin winCount) : 290 ≤ (winW i).toNat ∧ (winW i).toNat ≤ 600 := by
  revert i
  decide

theorem winH_le (i : Fin winCount) : 130 ≤ (winH i).toNat ∧ (winH i).toNat ≤ 200 := by
  revert i
  decide

theorem Wm.OnDesk.lt (hfb : fb.Roomy) {wm : Wm} (hd : wm.OnDesk fb) (i : Fin winCount) :
    (wm.winX i).toInt + (winW i).toNat < 2 ^ 31 ∧ (wm.winY i).toInt + (winH i).toNat < 2 ^ 31 := by
  have hx := (hd.x i).2
  have hy := (hd.y i).2
  have hw := hfb.width_le
  have hh := hfb.height_le
  rw [Fb.spareX] at hx
  rw [Fb.spareY] at hy
  omega

theorem hit_some {wm : Wm} {cx cy : UInt32} (h : wm.hit cx cy = some i) :
    wm.winVis i = true ∧ (wm.rect i).contains cx cy = true := by
  unfold Wm.hit at h
  have hfound := List.find?_some h
  rwa [Bool.and_eq_true] at hfound

/-- The title of a window on the desk, as one expects. -/
theorem contains_titleBar (hfb : fb.Roomy) {wm : Wm} (hd : wm.OnDesk fb) {cx cy : UInt32}
    (h : (wm.rect i).titleBar.contains cx cy = true) :
    (wm.winX i).toInt + 1 ≤ cx.toNat ∧ (cx.toNat : Int) + 1 < (wm.winX i).toInt + (winW i).toNat ∧
      (wm.winY i).toInt + 1 ≤ cy.toNat ∧ (cy.toNat : Int) ≤ (wm.winY i).toInt + titleH.toNat := by
  obtain ⟨hx, hx', hy, hy'⟩ := of_decide_eq_true h
  have hlt := hd.lt hfb i
  have hnx := toNat_toUInt32 (hd.x i).1
  have hny := toNat_toUInt32 (hd.y i).1
  have hw : ∀ i, (saturatingSub (winW i) (border * 2)).toNat + 2 = (winW i).toNat := by decide
  have hwi := hw i
  have hwle := winW_le i
  have hhle := winH_le i
  have hborder : border.toNat = 1 := rfl
  have htitle : titleH.toNat = 16 := rfl
  simp only [Wm.rect, Wm.Rect.titleBar, UInt32.le_iff_toNat_le, UInt32.lt_iff_toNat_lt, UInt32.toNat_add] at hx hx' hy hy'
  rw [hborder] at hx hx' hy hy'
  rw [htitle] at hy' ⊢
  omega

theorem Fb.Roomy.spare (hfb : fb.Roomy) (i : Fin winCount) : 0 ≤ fb.spareX i ∧ 0 ≤ fb.spareY i := by
  have hw := hfb.width
  have hh := hfb.height
  have hwi := winW_le i
  have hhi := winH_le i
  rw [Fb.spareX, Fb.spareY]
  omega

theorem onDesk_initial (hfb : fb.Roomy) : Wm.initial.OnDesk fb := by
  have hplace : ∀ i, 0 ≤ (Wm.initial.winX i).toInt ∧ (Wm.initial.winX i).toInt + (winW i).toNat ≤ 620 ∧
      0 ≤ (Wm.initial.winY i).toInt ∧ (Wm.initial.winY i).toInt + (winH i).toNat + 22 ≤ 392 := by decide
  have hw := hfb.width
  have hh := hfb.height
  refine ⟨fun i => ?_, fun i => ?_⟩
  · have hi := hplace i
    rw [Fb.spareX]
    omega
  · have hi := hplace i
    rw [Fb.spareY]
    omega

theorem toInt_spareX (hfb : fb.Roomy) (i : Fin winCount) : (fb.width.toInt32 - (winW i).toInt32).toInt = fb.spareX i := by
  have hwi := winW_le i
  have hw := hfb.width
  have hle := hfb.width_le
  have hnw := toInt_toInt32 (n := fb.width) (by omega)
  have hni := toInt_toInt32 (n := winW i) (by omega)
  rw [toInt_sub (by omega) (by omega), hnw, hni, Fb.spareX]

theorem toInt_spareY (hfb : fb.Roomy) (i : Fin winCount) :
    (fb.height.toInt32 - 22 - (winH i).toInt32).toInt = fb.spareY i := by
  have hhi := winH_le i
  have hh := hfb.height
  have hle := hfb.height_le
  have hnh := toInt_toInt32 (n := fb.height) (by omega)
  have hni := toInt_toInt32 (n := winH i) (by omega)
  have hbar : (22 : Int32).toInt = 22 := rfl
  have hsub : (fb.height.toInt32 - 22).toInt = fb.height.toNat - 22 := by
    rw [toInt_sub (by omega) (by omega), hnh, hbar]
  rw [toInt_sub (by omega) (by omega), hsub, hni, Fb.spareY]

/-! ## The handlers -/

namespace Mouse

/-- A pointer on the screen. -/
structure Onscreen (fb : Fb) (m : Mouse) : Prop where
  x : 0 ≤ m.x.toInt ∧ m.x.toInt < fb.width.toNat
  y : 0 ≤ m.y.toInt ∧ m.y.toInt < fb.height.toNat

/-- What a handler keeps, with the pointer where it is by now. -/
structure Went (fb : Fb) (h : List MouseEvent) (m : Mouse) (es : List MouseEvent) (m' : Mouse) : Prop where
  x : m'.x = m.x
  y : m'.y = m.y
  prevBtn : m'.prevBtn = m.prevBtn
  onDesk : m'.wm.OnDesk fb
  grip : gripAfter (h ++ es) = m'.grip
  holds : ∀ i ox oy, m'.grip = some (i, ox, oy) → m'.wm.Holds fb m'.x m'.y i ox oy
  dropped : DroppedRight fb (h ++ es)

theorem grip_eq_some : m.grip = some (i, ox, oy) ↔ m.dragWin = some i ∧ m.dragOx = ox ∧ m.dragOy = oy := by
  rw [grip, Option.map_eq_some_iff]
  constructor
  · rintro ⟨_, hi, heq⟩
    cases heq
    exact ⟨hi, rfl, rfl⟩
  · rintro ⟨hi, rfl, rfl⟩
    exact ⟨i, hi, rfl⟩

theorem grip_eq_none : m.grip = none ↔ m.dragWin = none := Option.map_eq_none_iff

/-- Nothing is held, and nothing taken hold of. -/
theorem Went.unheld (hd : m'.wm.OnDesk fb) (hgrip : gripAfter h = none) (hm : m'.dragWin = none) (hdrop : DroppedRight fb h)
    (hes : ∀ e ∈ es, e.still = true) (hx : m'.x = m.x) (hy : m'.y = m.y) (hprev : m'.prevBtn = m.prevBtn) :
    Went fb h m es m' where
  x := hx
  y := hy
  prevBtn := hprev
  onDesk := hd
  grip := (gripAfter_still hes).trans (hgrip.trans (grip_eq_none.mpr hm).symm)
  holds i ox oy hi := by rw [grip_eq_none.mpr hm] at hi; cases hi
  dropped := hdrop.append fun i x y hmem => Bool.false_ne_true (hes _ hmem)

theorem still_redrawn (m : Mouse) : ∀ e ∈ m.redrawn, e.still = true := by
  intro e he
  rw [redrawn, List.mem_cons, List.mem_singleton] at he
  rcases he with rfl | rfl <;> rfl

/-- A window that is pressed on its title is held there. -/
theorem holds_title (hfb : fb.Roomy) (hon : m.Onscreen fb) (hd : m.wm.OnDesk fb) (hshown : m.wm.winVis i = true)
    (htitle : (m.wm.rect i).titleBar.contains m.x.toUInt32 m.y.toUInt32 = true) :
    m.wm.Holds fb m.x m.y i (m.x - m.wm.winX i) (m.y - m.wm.winY i) := by
  obtain ⟨hx, hx', hy, hy'⟩ := contains_titleBar hfb hd htitle
  rw [toNat_toUInt32 hon.x.1] at hx hx'
  rw [toNat_toUInt32 hon.y.1] at hy hy'
  have hwi := winW_le i
  have hplaceX := hd.x i
  have hplaceY := hd.y i
  have hbar : titleH.toNat = 16 := rfl
  have hox : (m.x - m.wm.winX i).toInt = m.x.toInt - (m.wm.winX i).toInt := toInt_sub (by omega) (by omega)
  have hoy : (m.y - m.wm.winY i).toInt = m.y.toInt - (m.wm.winY i).toInt := toInt_sub (by omega) (by omega)
  refine ⟨hshown, by omega, by omega, ?_, ?_⟩
  · rw [hox, Int.sub_sub_self, clamp_of hplaceX.1 hplaceX.2]
  · rw [hoy, Int.sub_sub_self, clamp_of hplaceY.1 hplaceY.2]

theorem went_onClick (hfb : fb.Roomy) (hon : m.Onscreen fb) (hd : m.wm.OnDesk fb) (hgrip : gripAfter h = none)
    (hm : m.dragWin = none) (hdrop : DroppedRight fb h) :
    Went fb h m (m.onClick fb m.x.toUInt32 m.y.toUInt32).1 (m.onClick fb m.x.toUInt32 m.y.toUInt32).2 := by
  have hquiet : Went fb h m [] m := .unheld hd hgrip hm hdrop nofun rfl rfl rfl
  unfold onClick
  split
  · split
    · exact .unheld (onDesk_initial hfb) hgrip hm hdrop (still_redrawn _) rfl rfl rfl
    · split
      · exact .unheld ⟨hd.x, hd.y⟩ hgrip hm hdrop (still_redrawn _) rfl rfl rfl
      · exact hquiet
  · split
    · exact hquiet
    · next i hhit =>
      split
      · exact .unheld ⟨hd.x, hd.y⟩ hgrip hm hdrop (still_redrawn _) rfl rfl rfl
      · split
        · next htitle =>
          have hshown : m.wm.winVis i = true := (hit_some hhit).1
          have hholds := holds_title hfb hon hd hshown htitle
          rw [Int32.toInt32_toUInt32, Int32.toInt32_toUInt32]
          refine ⟨rfl, rfl, rfl, hd, ?_, fun j ox oy hj => ?_, ?_⟩
          · rw [List.append_cons, gripAfter_concat_grabbed]
            rfl
          · cases hj
            exact hholds
          · refine hdrop.append fun j x y hmem => ?_
            rw [List.mem_cons, List.mem_singleton] at hmem
            rcases hmem with hmem | hmem <;> cases hmem
        · exact .unheld hd hgrip hm hdrop (fun e he => by rw [List.mem_singleton.mp he]; rfl) rfl rfl rfl

/-- A drag takes the window that is held to the pointer. -/
theorem went_onDrag (hfb : fb.Roomy) (hon : m.Onscreen fb) (hd : m.wm.OnDesk fb) (hgrip : gripAfter h = m.grip)
    (hholds : ∀ i ox oy, m.grip = some (i, ox, oy) → ∃ px py, m.wm.Holds fb px py i ox oy) (hdrop : DroppedRight fb h) :
    Went fb h m (m.onDrag fb m.x m.y).1 (m.onDrag fb m.x m.y).2 := by
  unfold onDrag
  split
  · next hnone => exact .unheld hd (hgrip.trans (grip_eq_none.mpr hnone)) hnone hdrop nofun rfl rfl rfl
  · next i hi =>
    obtain ⟨px, py, hshown, htitleX, htitleY, -, -⟩ := hholds i _ _ (grip_eq_some.mpr ⟨hi, rfl, rfl⟩)
    have hwi := winW_le i
    have hbar : titleH.toNat = 16 := rfl
    have hw := hfb.width_le
    have hh := hfb.height_le
    have hspare := hfb.spare
    obtain ⟨hx, hx'⟩ := hon.x
    obtain ⟨hy, hy'⟩ := hon.y
    have hnewX : (min (max (m.x - m.dragOx) 0) (fb.width.toInt32 - (winW i).toInt32)).toInt =
        clamp (fb.spareX i) (m.x.toInt - m.dragOx.toInt) := by
      rw [toInt_clamp, toInt_spareX hfb, toInt_sub (by omega) (by omega)]
    have hnewY : (min (max (m.y - m.dragOy) 0) (fb.height.toInt32 - 22 - (winH i).toInt32)).toInt =
        clamp (fb.spareY i) (m.y.toInt - m.dragOy.toInt) := by
      rw [toInt_clamp, toInt_spareY hfb, toInt_sub (by omega) (by omega)]
    generalize min (max (m.x - m.dragOx) 0) (fb.width.toInt32 - (winW i).toInt32) = newX at hnewX ⊢
    generalize min (max (m.y - m.dragOy) 0) (fb.height.toInt32 - 22 - (winH i).toInt32) = newY at hnewY ⊢
    refine ⟨rfl, rfl, rfl, ⟨fun j => ?_, fun j => ?_⟩, ?_, fun j ox oy hj => ?_, ?_⟩
    · rcases eq_or_ne j i with rfl | hne
      · simp only [Function.update_self]
        rw [hnewX]
        exact clamp_mem (hspare j).1
      · simp only [Function.update_of_ne hne]
        exact hd.x j
    · rcases eq_or_ne j i with rfl | hne
      · simp only [Function.update_self]
        rw [hnewY]
        exact clamp_mem (hspare j).2
      · simp only [Function.update_of_ne hne]
        exact hd.y j
    · rw [gripAfter_still (still_redrawn _), hgrip]
      rfl
    · obtain ⟨hwin, rfl, rfl⟩ := grip_eq_some.mp hj
      obtain rfl : i = j := Option.some.inj (hi.symm.trans hwin)
      refine ⟨hshown, htitleX, htitleY, ?_, ?_⟩
      · simp only [Function.update_self]
        exact hnewX
      · simp only [Function.update_self]
        exact hnewY
    · exact hdrop.append fun j x y hmem => Bool.false_ne_true (still_redrawn _ _ hmem)

/-- What is let go of was held till then. -/
theorem went_onRelease (hd : m.wm.OnDesk fb) (hgrip : gripAfter h = m.grip) (hcursor : m.dragWin.isSome → cursorAfter h = some (px, py))
    (hholds : ∀ i ox oy, m.grip = some (i, ox, oy) → m.wm.Holds fb px py i ox oy) (hdrop : DroppedRight fb h) :
    Went fb h m m.onRelease.1 m.onRelease.2 := by
  unfold onRelease
  split
  · next hnone => exact .unheld hd (hgrip.trans (grip_eq_none.mpr hnone)) hnone hdrop nofun rfl rfl rfl
  · next i hi =>
    have hsome := grip_eq_some.mpr ⟨hi, rfl, rfl⟩
    have hheld := hholds i _ _ hsome
    refine ⟨rfl, rfl, rfl, hd, gripAfter_concat_dropped, nofun, ?_⟩
    exact hdrop.concat (hgrip.trans hsome) (hcursor (by rw [hi]; rfl)) hheld.x hheld.y

theorem Went.trans {es' : List MouseEvent} {m'' : Mouse} (hw : Went fb h m es m') (hw' : Went fb (h ++ es) m' es' m'') :
    Went fb h m (es ++ es') m'' where
  x := hw'.x.trans hw.x
  y := hw'.y.trans hw.y
  prevBtn := hw'.prevBtn.trans hw.prevBtn
  onDesk := hw'.onDesk
  grip := by rw [← List.append_assoc]; exact hw'.grip
  holds := hw'.holds
  dropped := by rw [← List.append_assoc]; exact hw'.dropped

/-- Where the pointer goes to is on the screen. -/
theorem pointer_moved (hfb : fb.Roomy) (hx : 0 ≤ m.x.toInt ∧ m.x.toInt < fb.width.toNat)
    (hy : 0 ≤ m.y.toInt ∧ m.y.toInt < fb.height.toNat) (b₁ b₂ : UInt8) (n₁ n₂ : Bool) :
    (min (max (m.x + delta b₁ n₁) 0) (fb.width.toInt32 - 1)).toInt =
      clamp (fb.width.toNat - 1) (m.x.toInt + (delta b₁ n₁).toInt) ∧
    (min (max (m.y - delta b₂ n₂) 0) (fb.height.toInt32 - 1)).toInt =
      clamp (fb.height.toNat - 1) (m.y.toInt - (delta b₂ n₂).toInt) := by
  have hd₁ := toInt_delta b₁ n₁
  have hd₂ := toInt_delta b₂ n₂
  have hw := hfb.width
  have hh := hfb.height
  have hw' := hfb.width_le
  have hh' := hfb.height_le
  have hone : (1 : Int32).toInt = 1 := rfl
  have hnw := toInt_toInt32 (n := fb.width) (by omega)
  have hnh := toInt_toInt32 (n := fb.height) (by omega)
  rw [toInt_clamp, toInt_clamp, toInt_add (by omega) (by omega), toInt_sub (by omega) (by omega),
    toInt_sub (a := m.y) (by omega) (by omega), toInt_sub (a := fb.height.toInt32) (by omega) (by omega), hnw, hnh, hone]
  exact ⟨rfl, rfl⟩

theorem dragWin_onRelease : m.onRelease.2.dragWin = none := by
  unfold onRelease
  split
  · next hnone => exact hnone
  · rfl

/-- The button, with the pointer moved from `px` and `py`. -/
theorem went_buttons {moved : Bool} (hfb : fb.Roomy) (hon : m.Onscreen fb) (hd : m.wm.OnDesk fb) (hgrip : gripAfter h = m.grip)
    (hpressed : m.dragWin.isSome → left m.prevBtn = true ∧ cursorAfter h = some (px, py))
    (hholds : ∀ i ox oy, m.grip = some (i, ox, oy) → m.wm.Holds fb px py i ox oy) (hdrop : DroppedRight fb h)
    (hmoved : moved = false → m.x = px ∧ m.y = py) :
    Went fb h m (m.buttons fb moved).1 (m.buttons fb moved).2 ∧
      (left m.btn = false → (m.buttons fb moved).2.dragWin = none) := by
  have hunpressed : left m.prevBtn = false → m.dragWin = none := fun hprev => by
    cases hwin : m.dragWin with
    | none => rfl
    | some i =>
      have hleft := (hpressed (by rw [hwin]; rfl)).1
      rw [hprev] at hleft
      cases hleft
  cases hbtn : left m.btn with
  | false =>
    cases hprev : left m.prevBtn with
    | false =>
      have hnone := hunpressed hprev
      rw [buttons_idle hbtn hprev]
      exact ⟨.unheld hd (hgrip.trans (grip_eq_none.mpr hnone)) hnone hdrop nofun rfl rfl rfl, fun _ => hnone⟩
    | true =>
      rw [buttons_release hbtn hprev]
      exact ⟨went_onRelease hd hgrip (fun hwin => (hpressed hwin).2) hholds hdrop, fun _ => dragWin_onRelease⟩
  | true =>
    refine ⟨?_, fun hno => nomatch hno⟩
    cases hprev : left m.prevBtn with
    | false =>
      have hnone := hunpressed hprev
      have hclick := went_onClick hfb hon hd (hgrip.trans (grip_eq_none.mpr hnone)) hnone hdrop
      have hpress : Went fb h m (m.press fb).1 (m.press fb).2 := by
        refine ⟨hclick.x, hclick.y, hclick.prevBtn, hclick.onDesk, ?_, hclick.holds, ?_⟩
        · rw [press, ← List.append_assoc, gripAfter_still (fun e he => by rw [List.mem_singleton.mp he]; rfl)]
          exact hclick.grip
        · rw [press, ← List.append_assoc]
          exact hclick.dropped.append fun i x y hmem => nomatch List.mem_singleton.mp hmem
      rw [buttons_press hbtn hprev]
      cases moved with
      | false => exact hpress
      | true =>
        have hon' : (m.press fb).2.Onscreen fb := ⟨by rw [hpress.x]; exact hon.x, by rw [hpress.y]; exact hon.y⟩
        have hdrag := went_onDrag hfb hon' hpress.onDesk hpress.grip (fun i ox oy hi => ⟨_, _, hpress.holds i ox oy hi⟩)
          hpress.dropped
        rw [hpress.x, hpress.y] at hdrag
        exact hpress.trans hdrag
    | true =>
      rw [buttons_hold hbtn hprev]
      cases moved with
      | false =>
        obtain ⟨hx, hy⟩ := hmoved rfl
        refine ⟨rfl, rfl, rfl, hd, ?_, ?_, ?_⟩
        · rw [if_neg Bool.false_ne_true, List.append_nil]
          exact hgrip
        · rw [if_neg Bool.false_ne_true, hx, hy]
          exact hholds
        · rw [if_neg Bool.false_ne_true, List.append_nil]
          exact hdrop
      | true => exact went_onDrag hfb hon hd hgrip (fun i ox oy hi => ⟨_, _, hholds i ox oy hi⟩) hdrop

/-- A packet, from where the pointer is to where it goes. -/
theorem Followed.processPacket (hfb : fb.Roomy) (hm : m.Followed fb h) :
    (m.processPacket fb).2.Followed fb (h ++ (m.processPacket fb).1) := by
  rcases processPacket_cases fb m with heq | ⟨b₁, n₁, b₂, n₂, btn, x, y, hx, hy, moved, hmoved, es, r, hr, heq⟩
  · rw [heq, List.append_nil]
    exact hm
  · obtain ⟨hpx, hpy⟩ := pointer_moved hfb hm.x hm.y b₁ b₂ n₁ n₂
    rw [← hx] at hpx
    rw [← hy] at hpy
    have hw := hfb.width
    have hh := hfb.height
    have hinX := clamp_mem (v := m.x.toInt + (delta b₁ n₁).toInt) (show 0 ≤ (fb.width.toNat : Int) - 1 by omega)
    have hinY := clamp_mem (v := m.y.toInt - (delta b₂ n₂).toInt) (show 0 ≤ (fb.height.toNat : Int) - 1 by omega)
    rw [← hpx] at hinX
    rw [← hpy] at hinY
    have hstill : moved = false → x = m.x ∧ y = m.y := fun hno => by
      obtain ⟨h₁, h₂⟩ := hmoved hno
      have hmx := hm.x
      have hmy := hm.y
      have hzero : (0 : Int32).toInt = 0 := rfl
      rw [h₁, hzero, Int.add_zero, clamp_of (by omega) (by omega)] at hpx
      rw [h₂, hzero, Int.sub_zero, clamp_of (by omega) (by omega)] at hpy
      exact ⟨Int32.toInt_inj.mp hpx, Int32.toInt_inj.mp hpy⟩
    have hon : { m with x, y, btn }.Onscreen fb :=
      ⟨⟨hinX.1, by dsimp only; omega⟩, ⟨hinY.1, by dsimp only; omega⟩⟩
    have hboth := went_buttons (m := { m with x, y, btn }) hfb hon hm.onDesk hm.grip hm.pressed hm.holds hm.dropped hstill
    rw [hr] at hboth
    obtain ⟨hwent, hleft⟩ := hboth
    have htail : ∀ e ∈ (if moved then [MouseEvent.move x y] else []) ++ [.cursor x y], e.still = true := fun e he => by
      rcases List.mem_append.mp he with he | he
      · cases moved with
        | true => rw [List.mem_singleton.mp he]; rfl
        | false => cases he
      · rw [List.mem_singleton.mp he]; rfl
    rw [heq]
    refine ⟨?_, ?_, hwent.onDesk, ?_, fun hsome => ⟨?_, ?_⟩, hwent.holds, ?_⟩
    · rw [show r.x = x from hwent.x]
      exact hon.x
    · rw [show r.y = y from hwent.y]
      exact hon.y
    · rw [List.append_assoc es, ← List.append_assoc, gripAfter_still htail]
      exact hwent.grip
    · cases hbtn : left btn with
      | true => rfl
      | false =>
        rw [show r.dragWin = none from hleft hbtn] at hsome
        cases hsome
    · rw [← List.append_assoc, cursorAfter_concat_cursor, show r.x = x from hwent.x, show r.y = y from hwent.y]
    · rw [List.append_assoc es, ← List.append_assoc]
      exact hwent.dropped.append fun i x y hmem => Bool.false_ne_true (htail _ hmem)

theorem Followed.boot (hfb : fb.Roomy) : (cold.init fb).Followed fb [] := by
  have hw := hfb.width
  have hh := hfb.height
  have hw' := hfb.width_le
  have hh' := hfb.height_le
  have htwo : (2 : Int32).toInt = 2 := rfl
  have hx : (fb.width.toInt32 / 2).toInt = (fb.width.toNat : Int).tdiv 2 := by
    rw [Int32.toInt_div_of_ne_right _ _ (by decide), toInt_toInt32 (by omega), htwo]
  have hy : (fb.height.toInt32 / 2).toInt = (fb.height.toNat : Int).tdiv 2 := by
    rw [Int32.toInt_div_of_ne_right _ _ (by decide), toInt_toInt32 (by omega), htwo]
  rw [Int.tdiv_eq_ediv_of_nonneg (by omega)] at hx hy
  have hpos : 0 < fb.width ∧ 0 < fb.height := by
    rw [UInt32.lt_iff_toNat_lt, UInt32.lt_iff_toNat_lt, UInt32.toNat_zero]
    omega
  rw [init, if_pos hpos]
  refine ⟨?_, ?_, onDesk_initial hfb, rfl, nofun, nofun, fun past i x y rest heq => ?_⟩
  · dsimp only
    omega
  · dsimp only
    omega
  · cases past <;> cases heq

theorem Followed.handleIrq (hfb : fb.Roomy) (hm : m.Followed fb h) (b : UInt8) :
    (m.handleIrq fb b).2.Followed fb (h ++ (m.handleIrq fb b).1) := by
  unfold Mouse.handleIrq
  split
  · rw [List.append_nil]
    exact hm
  · dsimp only
    split
    · rw [List.append_nil]
      exact ⟨hm.x, hm.y, hm.onDesk, hm.grip, hm.pressed, hm.holds, hm.dropped⟩
    · exact Followed.processPacket hfb ⟨hm.x, hm.y, hm.onDesk, hm.grip, hm.pressed, hm.holds, hm.dropped⟩

end Mouse

/-- Whatever bytes the mouse sends, broken packets among them: the pointer and
the windows stay on the screen; while a window is held, the button is down and
the window is where the pointer has taken it, as far as the screen goes, and
it is let go of there. -/
theorem windows_follow (hfb : fb.Roomy) (hr : Runs (Mouse.step fb) free (Mouse.cold.init fb) h m) : m.Followed fb h := by
  refine hr.invariant (fun h m => m.Followed fb h) (.boot hfb) fun {_ _ byte _ _} ih _ hs => ?_
  have hnext := ih.handleIrq hfb byte
  rw [Option.some.inj hs] at hnext
  exact hnext

/-- A screen of 1024 by 768. -/
def someScreen : Fb where
  width := 1024
  height := 768
  pitch := 4096
  rShift := 16
  gShift := 8
  bShift := 0
  font _ := 0
  width_le := by decide

/-- Three packets take hold of the monitor, take it to the right and let it go. -/
theorem windows_follow_dropped : ∃ h m, Runs (Mouse.step someScreen) free (Mouse.cold.init someScreen) h m ∧
    m.Followed someScreen h ∧ m.wm.winX 2 = 120 ∧ m.wm.winY 2 = 240 ∧ m.dragWin = none ∧ cursorAfter h = some (612, 248) := by
  have hfb : someScreen.Roomy := ⟨by decide, by decide, by decide, by decide⟩
  obtain ⟨h, m, hr, hend⟩ := Runs.of_exec (Mouse.step someScreen) free (Mouse.cold.init someScreen)
    [0x09, 0, 136, 0x09, 100, 0, 0x08, 0, 0] (fun h m => decide (m.wm.winX 2 = 120 ∧ m.wm.winY 2 = 240 ∧
      m.dragWin = none ∧ cursorAfter h = some (612, 248))) (by decide +kernel)
  exact ⟨h, m, hr, windows_follow hfb hr, of_decide_eq_true hend⟩

end ChodOs
