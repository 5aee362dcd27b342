/-
The mouse cursor over a scene that changes (`fb.rs`, `wm.rs`): runs of
`draw_cursor` and of `render_desktop` with `redraw_cursor`. What the cursor
saved from one scene is put back over the next.
-/
import ChodOs.Lib.Since
import ChodOs.Gui.Wm
import Mathlib.Data.List.Infix

namespace ChodOs

open Canvas History

/-- What `render_desktop` reads. -/
abbrev Desktop := Wm × Term

/-- The mouse moves, or the desktop is drawn again and the cursor with it. -/
inductive ScreenOp where
  | move (pos : Int32 × Int32)
  | redraw (d : Desktop) (pos : Int32 × Int32)

namespace ScreenOp

/-- Where the cursor is drawn. -/
def pos : ScreenOp → Int32 × Int32
  | move pos => pos
  | redraw _ pos => pos

/-- The desktop that is on the screen. -/
def desktop (d : Desktop) : ScreenOp → Desktop
  | move _ => d
  | redraw d' _ => d'

end ScreenOp

namespace Fb

/-- The scene that `render_desktop` draws. -/
def scene (fb : Fb) (d : Desktop) : Nat → UInt32 := paint (fun _ => 0) (d.1.renderDesktop d.2 fb)

/-- When the desktop has been drawn for the first time, over whatever there was. -/
def started (fb : Fb) (m : Nat → UInt32) (d : Desktop) : Screen where
  mem := paint m (d.1.renderDesktop d.2 fb)
  cursorBg _ := 0
  prev := (-1, -1)

/-- What a step draws before the cursor. -/
def render (fb : Fb) (s : Screen) : ScreenOp → Screen
  | .move _ => s
  | .redraw d _ => { s with mem := paint s.mem (d.1.renderDesktop d.2 fb) }

def step (fb : Fb) (s : Screen) (op : ScreenOp) : Screen := fb.drawCursor (fb.render s op) op.pos

def run (fb : Fb) (s : Screen) (h : List ScreenOp) : Screen := h.foldl fb.step s

/-! ## What a run is to show -/

/-- The most recently drawn scene. -/
def sceneAfter (fb : Fb) (d : Desktop) (h : List ScreenOp) : Nat → UInt32 := fb.scene (h.foldl ScreenOp.desktop d)

/-- Where the cursor is; nowhere at first. -/
def lastPos (h : List ScreenOp) : Option (Int32 × Int32) := h.getLast?.map ScreenOp.pos

/-- A pixel of the screen is at `q`. -/
def Visible (fb : Fb) (q : Nat) : Prop := ∃ x y, fb.offset x y = some q

/-- Every pixel that the cursor does not cover is the scene's. -/
def Shows (fb : Fb) (d : Desktop) (h : List ScreenOp) (s : Screen) : Prop :=
  ∀ q, fb.Visible q → (∀ pos, lastPos h = some pos → ¬ fb.Covers pos q) → s.mem q = fb.sceneAfter d h q

/-! ## When it does -/

/-- The cursor covers `q`, and will put back what it saved there. -/
def Keeps (fb : Fb) (q : Nat) (h : List ScreenOp) : Prop :=
  ∃ pos, lastPos h = some pos ∧ Restores pos ∧ fb.Covers pos q

/-- The cursor's own colour, where it covers `q` and will not put anything back. -/
def stain (fb : Fb) (h : List ScreenOp) (q : Nat) : Option UInt32 :=
  (lastPos h).bind fun pos =>
    if Restores pos then none else (cursorCells.find? fun cell => fb.spot pos cell = some q).map fb.cellColor

/-- What is at `q` when a step draws the cursor, if none was kept there: the
scene, or what a cursor left that a move did not clear away. -/
def found (fb : Fb) (d : Desktop) (h : List ScreenOp) (op : ScreenOp) (q : Nat) : UInt32 :=
  match op with
  | .move _ => (fb.stain h q).getD (fb.sceneAfter d h q)
  | .redraw d' _ => fb.scene d' q

/-- `q` had the colour `c` when the cursor came over it. -/
def CameOver (fb : Fb) (d : Desktop) (q : Nat) (h : List ScreenOp) (c : UInt32) : Prop :=
  ∃ i op, BeganAt (fb.Keeps q) h i ∧ h[i]? = some op ∧ fb.found d (h.take i) op q = c

/-- What is under the cursor is still the scene's, wherever the step takes the
cursor away. -/
def Leaves (fb : Fb) (d : Desktop) (h : List ScreenOp) (op : ScreenOp) : Prop :=
  ∀ q, fb.Visible q → ¬ fb.Covers op.pos q →
    (¬ fb.Keeps q h → fb.found d h op q = fb.sceneAfter d (h ++ [op]) q) ∧
    (∀ c, fb.CameOver d q h c → c = fb.sceneAfter d (h ++ [op]) q)

variable {fb : Fb} {m : Nat → UInt32} {d : Desktop} {h : List ScreenOp} {op : ScreenOp} {s : Screen} {q : Nat}
variable {c c' : UInt32}

@[simp] theorem lastPos_concat : lastPos (h ++ [op]) = some op.pos := by
  unfold lastPos
  rw [List.getLast?_concat, Option.map_some]

@[simp] theorem run_concat : fb.run s (h ++ [op]) = fb.step (fb.run s h) op := List.foldl_append

theorem sceneAfter_concat : fb.sceneAfter d (h ++ [op]) = fb.scene (op.desktop (h.foldl ScreenOp.desktop d)) := by
  unfold sceneAfter
  rw [List.foldl_append]
  rfl

@[simp] theorem prev_render : (fb.render s op).prev = s.prev := by cases op <;> rfl

@[simp] theorem cursorBg_render : (fb.render s op).cursorBg = s.cursorBg := by cases op <;> rfl

/-- A scene does not depend on what it is drawn over. -/
theorem paint_scene (hv : fb.Visible q) (m : Nat → UInt32) (d : Desktop) :
    paint m (d.1.renderDesktop d.2 fb) q = fb.scene d q := by
  obtain ⟨x, y, hq⟩ := hv
  refine paint_congr ?_
  unfold Wm.renderDesktop
  simp only [List.map_append, List.mem_append]
  exact .inl (.inl (.inl (mem_clear hq _)))

theorem visible_of_spot {pos : Int32 × Int32} {cell : Nat × Nat} (hq : fb.spot pos cell = some q) : fb.Visible q := by
  simp only [spot] at hq
  split at hq
  · exact ⟨_, _, hq⟩
  · cases hq

theorem stain_eq_some {pos : Int32 × Int32} (hpos : lastPos h = some pos) (hc : fb.stain h q = some c) :
    ∃ cell ∈ cursorCells, fb.spot pos cell = some q ∧ fb.cellColor cell = c := by
  unfold stain at hc
  rw [hpos, Option.bind_some] at hc
  split at hc
  · cases hc
  · obtain ⟨cell, hfind, hcolor⟩ := Option.map_eq_some_iff.mp hc
    have hspot := List.find?_some hfind
    exact ⟨cell, List.mem_of_find?_eq_some hfind, of_decide_eq_true hspot, hcolor⟩

theorem not_covers_of_stain {pos : Int32 × Int32} (hpos : lastPos h = some pos) (hc : fb.stain h q = none)
    (hk : ¬ fb.Keeps q h) : ¬ fb.Covers pos q := by
  intro hcov
  unfold stain at hc
  rw [hpos, Option.bind_some] at hc
  split at hc
  · next hr => exact hk ⟨pos, hpos, hr, hcov⟩
  · obtain ⟨cell, hcell, hspot⟩ := hcov
    exact List.find?_eq_none.mp (Option.map_eq_none_iff.mp hc) cell hcell (decide_eq_true hspot)

/-! ## Coming over a pixel -/

theorem CameOver.keeps (hc : fb.CameOver d q h c) : fb.Keeps q h := by
  obtain ⟨i, op, hb, -, -⟩ := hc
  exact hb.holds

theorem CameOver.unique (hc : fb.CameOver d q h c) (hc' : fb.CameOver d q h c') : c = c' := by
  obtain ⟨i, op, hb, hop, rfl⟩ := hc
  obtain ⟨j, op', hb', hop', rfl⟩ := hc'
  obtain rfl := hb.unique hb'
  rw [hop] at hop'
  rw [Option.some.inj hop']

theorem CameOver.concat (hc : fb.CameOver d q h c) (hk : fb.Keeps q (h ++ [op])) : fb.CameOver d q (h ++ [op]) c := by
  obtain ⟨i, op', hb, hop, hcolor⟩ := hc
  refine ⟨i, op', hb.concat hk, ?_, ?_⟩
  · rw [List.getElem?_append_left hb.lt, hop]
  · rw [List.take_append_of_le_length (Nat.le_of_lt hb.lt), hcolor]

theorem cameOver_concat (hno : ¬ fb.Keeps q h) (hk : fb.Keeps q (h ++ [op])) :
    fb.CameOver d q (h ++ [op]) (fb.found d h op q) := by
  refine ⟨h.length, op, beganAt_concat hno hk, List.getElem?_concat_length, ?_⟩
  rw [List.take_append_of_le_length (Nat.le_refl _), List.take_length]

/-! ## The invariant -/

/-- After a run that has shown the scene all along: the cursor is drawn, and
what it saved is what it came over. -/
structure Tracks (fb : Fb) (d : Desktop) (h : List ScreenOp) (s : Screen) : Prop where
  prev : s.prev = (lastPos h).getD (-1, -1)
  shows : fb.Shows d h s
  drawn : ∀ pos, lastPos h = some pos → ∀ cell ∈ cursorCells, ∀ q, fb.spot pos cell = some q →
    s.mem q = fb.cellColor cell
  saved : ∀ pos, lastPos h = some pos → Restores pos → ∀ cell ∈ cursorCells, ∀ q, fb.spot pos cell = some q →
    fb.CameOver d q h (s.cursorBg (bgIndex cell))

theorem tracks_started (fb : Fb) (m : Nat → UInt32) (d : Desktop) : fb.Tracks d [] (fb.started m d) where
  prev := rfl
  shows _ hv _ := paint_scene hv m d
  drawn _ hpos := nomatch hpos
  saved _ hpos := nomatch hpos

theorem Tracks.restored_of_not (ht : fb.Tracks d h s) (hv : fb.Visible q) (hk : ¬ fb.Keeps q h) (op : ScreenOp) :
    fb.restored (fb.render s op) q = fb.found d h op q := by
  have hno : ¬ (Restores (fb.render s op).prev ∧ fb.Covers (fb.render s op).prev q) := by
    rw [prev_render, ht.prev]
    cases hpos : lastPos h with
    | none => exact fun hr => absurd hr.1 (by decide)
    | some pos => exact fun hr => hk ⟨pos, hpos, hr⟩
  rw [Fb.restored_of_not hno]
  cases op with
  | redraw d' pos => exact paint_scene hv s.mem d'
  | move pos' =>
    show s.mem q = (fb.stain h q).getD (fb.sceneAfter d h q)
    cases hstain : fb.stain h q with
    | none => exact ht.shows q hv fun pos hpos => not_covers_of_stain hpos hstain hk
    | some c =>
      cases hpos : lastPos h with
      | none => simp [stain, hpos] at hstain
      | some pos =>
        obtain ⟨cell, hcell, hspot, hcolor⟩ := stain_eq_some hpos hstain
        rw [ht.drawn pos hpos cell hcell q hspot, hcolor, Option.getD_some]

theorem Tracks.cameOver (ht : fb.Tracks d h s) {pos : Int32 × Int32} {cell : Nat × Nat} (hpos : lastPos h = some pos)
    (hr : Restores pos) (hcell : cell ∈ cursorCells) (hspot : fb.spot pos cell = some q) (op : ScreenOp) :
    fb.CameOver d q h (fb.restored (fb.render s op) q) := by
  have hprev : (fb.render s op).prev = pos := by rw [prev_render, ht.prev, hpos, Option.getD_some]
  rw [restored_of_spot (by rwa [hprev]) hcell (by rwa [hprev]), cursorBg_render]
  exact ht.saved pos hpos hr cell hcell q hspot

/-- What the cursor is drawn over is what it came over. -/
theorem Tracks.cameOver_concat (ht : fb.Tracks d h s) (hv : fb.Visible q) (hk : fb.Keeps q (h ++ [op])) :
    fb.CameOver d q (h ++ [op]) (fb.restored (fb.render s op) q) := by
  by_cases hkeeps : fb.Keeps q h
  · obtain ⟨pos, hpos, hr, cell, hcell, hspot⟩ := hkeeps
    exact (ht.cameOver hpos hr hcell hspot op).concat hk
  · rw [ht.restored_of_not hv hkeeps op]
    exact Fb.cameOver_concat hkeeps hk

/-- The next step shows the scene, or it does not: that is what `Leaves` says. -/
theorem Tracks.shows_step_iff (ht : fb.Tracks d h s) : fb.Shows d (h ++ [op]) (fb.step s op) ↔ fb.Leaves d h op := by
  have hmem {q : Nat} (hcov : ¬ fb.Covers op.pos q) : (fb.step s op).mem q = fb.restored (fb.render s op) q :=
    mem_drawCursor_of_not hcov
  constructor
  · intro hs q hv hcov
    have hq := hs q hv fun pos hpos => by
      rw [lastPos_concat] at hpos
      rwa [← Option.some.inj hpos]
    rw [hmem hcov] at hq
    refine ⟨fun hk => ?_, fun c hc => ?_⟩
    · rw [← ht.restored_of_not hv hk op, hq]
    · obtain ⟨pos, hpos, hr, cell, hcell, hspot⟩ := hc.keeps
      rw [hc.unique (ht.cameOver hpos hr hcell hspot op), hq]
  · intro hl q hv hno
    have hcov : ¬ fb.Covers op.pos q := hno op.pos lastPos_concat
    rw [hmem hcov]
    by_cases hk : fb.Keeps q h
    · obtain ⟨pos, hpos, hr, cell, hcell, hspot⟩ := hk
      exact (hl q hv hcov).2 _ (ht.cameOver hpos hr hcell hspot op)
    · rw [ht.restored_of_not hv hk op]
      exact (hl q hv hcov).1 hk

theorem Tracks.step (ht : fb.Tracks d h s) (hl : fb.Leaves d h op) : fb.Tracks d (h ++ [op]) (fb.step s op) where
  prev := by rw [lastPos_concat]; rfl
  shows := ht.shows_step_iff.mpr hl
  drawn pos hpos cell hcell q hspot := by
    rw [lastPos_concat, Option.some.injEq] at hpos
    subst hpos
    exact mem_drawCursor_of_spot hcell hspot
  saved pos hpos hr cell hcell q hspot := by
    have hk : fb.Keeps q (h ++ [op]) := ⟨pos, hpos, hr, cell, hcell, hspot⟩
    rw [lastPos_concat, Option.some.injEq] at hpos
    subst hpos
    rw [show (fb.step s op).cursorBg (bgIndex cell) = _ from cursorBg_drawCursor hcell hspot]
    exact ht.cameOver_concat (visible_of_spot hspot) hk

/-! ## Runs -/

/-- Every step of the run leaves what is under the cursor the scene's. -/
def Clean (fb : Fb) (d : Desktop) (h : List ScreenOp) : Prop := ∀ g op, g ++ [op] <+: h → fb.Leaves d g op

theorem clean_nil : fb.Clean d [] := fun g op hg =>
  absurd (List.prefix_nil.mp hg) (List.append_ne_nil_of_right_ne_nil g (List.cons_ne_nil op []))

theorem clean_concat : fb.Clean d (h ++ [op]) ↔ fb.Clean d h ∧ fb.Leaves d h op := by
  unfold Clean
  simp only [List.prefix_concat_iff]
  constructor
  · intro hc
    exact ⟨fun g op' hg => hc g op' (.inr hg), hc h op (.inl rfl)⟩
  · intro ⟨hc, hl⟩ g op' hg
    rcases hg with heq | hg
    · obtain ⟨rfl, hop⟩ := List.append_inj' heq rfl
      cases hop
      exact hl
    · exact hc g op' hg

theorem Clean.tracks (hc : fb.Clean d h) (m : Nat → UInt32) : fb.Tracks d h (fb.run (fb.started m d) h) := by
  induction h using List.reverseRecOn with
  | nil => exact tracks_started fb m d
  | append_singleton h op ih =>
    obtain ⟨hclean, hl⟩ := clean_concat.mp hc
    rw [run_concat]
    exact (ih hclean).step hl

/-- The cursor leaves no trace in the runs whose every step takes it away only
from pixels at which the scene has what was there when it came over them. -/
theorem no_trace_iff (fb : Fb) (m : Nat → UInt32) (d : Desktop) (h : List ScreenOp) :
    (∀ g, g <+: h → fb.Shows d g (fb.run (fb.started m d) g)) ↔ fb.Clean d h := by
  constructor
  · intro hs
    induction h using List.reverseRecOn with
    | nil => exact clean_nil
    | append_singleton h op ih =>
      have hclean : fb.Clean d h := ih fun g hg => hs g (hg.trans (List.prefix_append h [op]))
      have hstep := hs (h ++ [op]) (List.prefix_refl _)
      rw [run_concat] at hstep
      exact clean_concat.mpr ⟨hclean, (hclean.tracks m).shows_step_iff.mp hstep⟩
  · intro hc g hg
    have hclean : fb.Clean d g := fun g' op hg' => hc g' op (hg'.trans hg)
    exact (hclean.tracks m).shows

/-! ## Moves alone -/

section moves

variable {ps : List (Int32 × Int32)}

theorem sceneAfter_moves : fb.sceneAfter d (ps.map .move) = fb.scene d := by
  unfold sceneAfter
  rw [List.foldl_map]
  exact congrArg fb.scene (List.foldl_fixed' (fun _ => rfl) ps)

theorem found_moves (hps : ∀ pos ∈ ps, Restores pos) (pos : Int32 × Int32) :
    fb.found d (ps.map .move) (.move pos) q = fb.scene d q := by
  have hstain : fb.stain (ps.map .move) q = none := by
    unfold stain lastPos
    rw [List.getLast?_map]
    cases hlast : ps.getLast? with
    | none => rfl
    | some last => exact if_pos (hps last (List.mem_of_getLast? hlast))
  show (fb.stain (ps.map .move) q).getD (fb.sceneAfter d (ps.map .move) q) = _
  rw [hstain, sceneAfter_moves, Option.getD_none]

/-- While nothing is drawn again the cursor leaves no trace. -/
theorem clean_moves (hps : ∀ pos ∈ ps, Restores pos) : fb.Clean d (ps.map .move) := by
  induction ps using List.reverseRecOn with
  | nil => exact clean_nil
  | append_singleton ps pos ih =>
    have hps' : ∀ pos ∈ ps, Restores pos := fun pos hpos => hps pos (List.mem_append_left _ hpos)
    rw [List.map_append, List.map_singleton, clean_concat]
    refine ⟨ih hps', fun q _ _ => ?_⟩
    rw [← List.map_singleton, ← List.map_append, sceneAfter_moves]
    refine ⟨fun _ => found_moves hps' pos, fun c hc => ?_⟩
    obtain ⟨i, op, -, hop, rfl⟩ := hc
    obtain ⟨pos', -, rfl⟩ := List.mem_map.mp (List.mem_of_getElem? hop)
    rw [← List.map_take]
    exact found_moves (fun pos hpos => hps' pos (List.mem_of_mem_take hpos)) pos'

end moves

/-! ## A trace -/

theorem leaves_first (op : ScreenOp) : fb.Leaves d [] op := by
  intro q _ _
  have hno : ¬ fb.Keeps q [] := fun ⟨pos, hpos, _⟩ => nomatch hpos
  exact ⟨fun _ => by cases op <;> rfl, fun c hc => absurd hc.keeps hno⟩

/-- Drawing the scene again with the cursor where it is. -/
theorem leaves_redraw {pos : Int32 × Int32} (hpos : lastPos h = some pos) (d' : Desktop) :
    fb.Leaves d h (.redraw d' pos) := by
  intro q _ hcov
  have hno : ¬ fb.Keeps q h := by
    intro ⟨pos', hpos', _, hcov'⟩
    rw [hpos, Option.some.injEq] at hpos'
    subst hpos'
    exact hcov hcov'
  exact ⟨fun _ => by rw [sceneAfter_concat]; rfl, fun c hc => absurd hc.keeps hno⟩

/-- The scene changes under the cursor, and then the cursor goes. -/
theorem trace_of_redraw {pos pos' : Int32 × Int32} {d' : Desktop} (m : Nat → UInt32) (hr : Restores pos)
    (hcov : fb.Covers pos q) (hno : ¬ fb.Covers pos' q) (hne : fb.scene d q ≠ fb.scene d' q) :
    ¬ fb.Shows d [.move pos, .redraw d' pos, .move pos']
      (fb.run (fb.started m d) [.move pos, .redraw d' pos, .move pos']) := by
  intro hs
  have hfirst : fb.Clean d [.move pos] := clean_concat (h := []).mpr ⟨clean_nil, leaves_first _⟩
  have hclean : fb.Clean d [.move pos, .redraw d' pos] :=
    clean_concat (h := [.move pos]).mpr ⟨hfirst, leaves_redraw rfl d'⟩
  -- What the cursor came over is the old scene.
  have hkeeps {g : List ScreenOp} (hpos : lastPos g = some pos) : fb.Keeps q g := ⟨pos, hpos, hr, hcov⟩
  have hnil : ¬ fb.Keeps q [] := fun ⟨_, hpos, _⟩ => nomatch hpos
  have hcame : fb.CameOver d q [.move pos] (fb.scene d q) := cameOver_concat (h := []) hnil (hkeeps rfl)
  have hcame' : fb.CameOver d q [.move pos, .redraw d' pos] (fb.scene d q) :=
    hcame.concat (hkeeps (g := [.move pos, .redraw d' pos]) rfl)
  have hl : fb.Leaves d [.move pos, .redraw d' pos] (.move pos') := (hclean.tracks m).shows_step_iff.mp hs
  obtain ⟨cell, -, hspot⟩ := hcov
  exact hne ((hl q (visible_of_spot hspot) hno).2 _ hcame')

/-- The corner of the first button in the taskbar is lit while its window is shown. -/
theorem scene_taskbarBtn (hq : fb.offset 66 (saturatingSub fb.height 22 + 2) = some q) (d : Desktop) :
    fb.scene d q = if d.1.winVis 0 then fb.rgb 50 50 90 else fb.rgb 35 35 55 := by
  obtain ⟨-, hheight, -⟩ := offset_eq_some.mp hq
  have hcol : (66 : UInt32) < saturatingAdd 66 68 := by decide
  have hrow : saturatingSub fb.height 22 + 2 < saturatingAdd (saturatingSub fb.height 22 + 2) 18 :=
    lt_saturatingAdd (UInt32.lt_of_lt_of_le hheight (UInt32.le_iff_toNat_le.mpr (Nat.le_of_lt_succ fb.height.toNat_lt)))
      (by decide)
  -- The texts begin five rows lower.
  have htext : ∀ row < 8, saturatingSub fb.height 22 + 2 ≠ saturatingSub fb.height 22 + 7 + UInt32.ofNat row := by
    intro row hlt heq
    rw [UInt32.add_assoc, UInt32.add_right_inj] at heq
    revert heq
    revert row
    decide
  unfold scene Wm.renderDesktop Wm.renderTaskbar Wm.drawTaskbarBtn
  simp only [paint_append]
  rw [paint_drawText_of_row htext hq, paint_drawText_of_row htext hq, paint_fillRect_left (by decide) hq,
    paint_drawText_of_row htext hq, paint_fillRect_left (by decide) hq, paint_drawText_of_row htext hq]
  exact paint_fillRect (UInt32.le_refl _) hcol (UInt32.le_refl _) hrow hq

end Fb

/-- A click on a window's button in the taskbar. -/
def Wm.toggle (wm : Wm) (i : Fin winCount) : Wm :=
  { wm with winVis := Function.update wm.winVis i (!wm.winVis i) }

/-- The first window's button is clicked at its corner, and the mouse goes:
the corner is lit as if the window were still shown. -/
theorem click_leaves_trace :
    let fb : Fb := ⟨1024, 768, 4096, 16, 8, 0, fun _ => 0, by decide⟩
    let d : Desktop := (Wm.initial, Term.cleared)
    let clicks : List ScreenOp := [.move (66, 748), .redraw (Wm.initial.toggle 0, Term.cleared) (66, 748), .move (0, 0)]
    ¬ fb.Shows d clicks (fb.run (fb.started (fun _ => 0) d) clicks) := by
  intro fb d clicks
  have hq : fb.offset 66 (saturatingSub fb.height 22 + 2) = some (748 * 4096 + 66 * 4) := by decide
  have hcov : fb.Covers (66, 748) (748 * 4096 + 66 * 4) := ⟨(0, 0), by decide, by decide⟩
  have hno : ∀ cell ∈ cursorCells, fb.spot (0, 0) cell ≠ some (748 * 4096 + 66 * 4) := by decide
  refine Fb.trace_of_redraw _ (by decide) hcov (fun ⟨cell, hcell, hspot⟩ => hno cell hcell hspot) ?_
  rw [Fb.scene_taskbarBtn hq, Fb.scene_taskbarBtn hq]
  decide

end ChodOs
