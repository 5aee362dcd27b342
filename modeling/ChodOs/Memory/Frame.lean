/-
The physical frame allocator (`memory/frame.rs`): a bitmap of 4 KiB
frames, one bit a frame, a set bit meaning free.
-/
import Mathlib.Data.BitVec
import ChodOs.Lib.Slots

namespace ChodOs

/-- `u64` and `usize` addition with overflow checks. `none`: panic. -/
def addU64 (a b : Nat) : Option Nat := if a + b < 2 ^ 64 then some (a + b) else none

theorem addU64_eq_some {a b c : Nat} : addU64 a b = some c ↔ a + b < 2 ^ 64 ∧ a + b = c := by
  unfold addU64
  split
  · next h => rw [Option.some.injEq]; exact ⟨fun he => ⟨h, he⟩, And.right⟩
  · next h => exact ⟨nofun, fun he => absurd he.1 h⟩

def pageSize : Nat := 4096
def bitmapWords : Nat := 32768
def maxFrames : Nat := bitmapWords * 64

/-- `BITMAP` and `FREE_FRAMES`. -/
structure FrameAlloc where
  bitmap : Nat → BitVec 64
  freeFrames : Nat

namespace FrameAlloc

/-- `is_free`: bit `frame % 64` of word `frame / 64`. -/
def isFree (a : FrameAlloc) (frame : Nat) : Bool := (a.bitmap (frame / 64)).getLsbD (frame % 64)

/-- `set_free`, on the bitmap alone. -/
def setFree (a : FrameAlloc) (frame : Nat) : FrameAlloc :=
  { a with bitmap := Function.update a.bitmap (frame / 64) (a.bitmap (frame / 64) ||| 1#64 <<< (frame % 64)) }

/-- `set_used`, on the bitmap alone. -/
def setUsed (a : FrameAlloc) (frame : Nat) : FrameAlloc :=
  { a with bitmap := Function.update a.bitmap (frame / 64) (a.bitmap (frame / 64) &&& ~~~(1#64 <<< (frame % 64))) }

/-- `u64::trailing_zeros`. -/
def trailingZeros (w : BitVec 64) : Nat := (Slots.firstUp w.getLsbD 64 0).getD 64

/-- `alloc_frame`: the lowest set bit of the first nonzero word. -/
def allocFrame (a : FrameAlloc) : Option (Nat × FrameAlloc) := do
  let word ← Slots.firstUp (fun i => a.bitmap i != 0#64) bitmapWords 0
  let frame := word * 64 + trailingZeros (a.bitmap word)
  some (frame * pageSize, { a.setUsed frame with freeFrames := a.freeFrames - 1 })

/-- `set_used` of `count` frames from `start`. -/
def setUsedRange (a : FrameAlloc) (start count : Nat) : FrameAlloc :=
  (List.range count).foldl (fun a i => a.setUsed (start + i)) a

/-- The scan of `alloc_contiguous` over `n` frames from `frame`: the start of
the first run of `count` free frames, given the run that ends here. -/
def scanRun (a : FrameAlloc) (count : Nat) : Nat → Nat → Nat → Nat → Option Nat
  | 0, _, _, _ => none
  | n + 1, frame, runStart, runLen =>
    if a.isFree frame then
      let runStart := if runLen = 0 then frame else runStart
      if runLen + 1 = count then some runStart else scanRun a count n (frame + 1) runStart (runLen + 1)
    else scanRun a count n (frame + 1) runStart 0

/-- `alloc_contiguous`. -/
def allocContiguous (a : FrameAlloc) (count : Nat) : Option (Nat × FrameAlloc) :=
  if count = 0 then none
  else do
    let start ← a.scanRun count maxFrames 0 0 0
    some (start * pageSize, { a.setUsedRange start count with freeFrames := a.freeFrames - count })

/-- `free_frame`: a frame that is already free is left alone. -/
def freeFrame (a : FrameAlloc) (physAddr : Nat) : FrameAlloc :=
  let frame := physAddr / pageSize
  if frame < maxFrames then
    if !a.isFree frame then { a.setFree frame with freeFrames := a.freeFrames + 1 } else a
  else a

/-- An entry of the boot loader's memory map; `usable` is `type_ == MEMMAP_USABLE`. -/
structure MemmapEntry where
  base : Nat
  length : Nat
  usable : Bool

/-- `set_free` of a frame, which is counted. -/
def markFree (a : FrameAlloc) (frame : Nat) : FrameAlloc :=
  { a.setFree frame with freeFrames := a.freeFrames + 1 }

/-- `markFree` of the frames of a range. -/
def setFreeRange (a : FrameAlloc) (start stop : Nat) : FrameAlloc :=
  (List.range (stop - start)).foldl (fun a i => a.markFree (start + i)) a

/-- One turn of the loop of `init`. `none`: the end address overflows. -/
def initEntry (a : FrameAlloc) (entry : MemmapEntry) : Option FrameAlloc :=
  if entry.usable then do
    let stop ← addU64 entry.base entry.length
    some (a.setFreeRange (entry.base / pageSize) (min (stop / pageSize) maxFrames))
  else some a

/-- `init`, without the count of all usable frames. -/
def init (entries : List MemmapEntry) : Option FrameAlloc :=
  entries.foldlM initEntry { bitmap := fun _ => 0#64, freeFrames := 0 }

theorem getLsbD_one_shiftLeft {i j : Nat} (hj : j < 64) :
    (1#64 <<< i).getLsbD j = decide (i = j) := by
  simp only [BitVec.getLsbD_shiftLeft, BitVec.getLsbD_one, hj, decide_true, Bool.true_and]
  by_cases h : i = j
  · subst h; simp
  · by_cases hlt : j < i
    · simp [hlt, h]
    · simp [hlt, h]; omega

/-- A word that is changed at one bit. -/
theorem isFree_update {a : FrameAlloc} {f g : Nat} {w : BitVec 64} {b : Bool}
    (hw : ∀ i < 64, w.getLsbD i = if i = f % 64 then b else (a.bitmap (f / 64)).getLsbD i) :
    ({ a with bitmap := Function.update a.bitmap (f / 64) w } : FrameAlloc).isFree g = if g = f then b else a.isFree g := by
  simp only [isFree, Function.update_apply]
  by_cases hword : g / 64 = f / 64
  · rw [if_pos hword, hw _ (Nat.mod_lt g (by decide)), hword]
    by_cases hbit : g % 64 = f % 64
    · rw [if_pos hbit, if_pos (by omega)]
    · rw [if_neg hbit, if_neg (by omega)]
  · rw [if_neg hword, if_neg (by omega)]

theorem isFree_setUsed {a : FrameAlloc} {f g : Nat} :
    (a.setUsed f).isFree g = if g = f then false else a.isFree g := by
  refine isFree_update fun i hi => ?_
  simp only [BitVec.getLsbD_and, BitVec.getLsbD_not, hi, getLsbD_one_shiftLeft hi, decide_true, Bool.true_and]
  by_cases hf : i = f % 64
  · simp [hf]
  · simp [hf, Ne.symm hf]

theorem isFree_setFree {a : FrameAlloc} {f g : Nat} :
    (a.setFree f).isFree g = if g = f then true else a.isFree g := by
  refine isFree_update fun i hi => ?_
  simp only [BitVec.getLsbD_or, getLsbD_one_shiftLeft hi]
  by_cases hf : i = f % 64
  · simp [hf]
  · simp [hf, Ne.symm hf]

theorem trailingZeros_spec {w : BitVec 64} (h : w ≠ 0#64) :
    trailingZeros w < 64 ∧ w.getLsbD (trailingZeros w) = true := by
  unfold trailingZeros
  cases hf : Slots.firstUp w.getLsbD 64 0 with
  | some i => simpa using Slots.firstUp_some hf
  | none =>
    refine absurd (BitVec.eq_of_getLsbD_eq fun i hi => ?_) h
    simp [Slots.firstUp_none hf (Nat.zero_le i) (by simpa using hi)]

/-- What `alloc_frame` hands out was free, is used afterwards, and nothing
else changes. -/
theorem allocFrame_spec {a a' : FrameAlloc} {phys : Nat} (h : a.allocFrame = some (phys, a')) :
    ∃ f, phys = f * pageSize ∧ a.isFree f = true ∧ ∀ g, a'.isFree g = if g = f then false else a.isFree g := by
  simp only [allocFrame, Option.bind_eq_bind, Option.bind_eq_some_iff, Option.some.injEq, Prod.mk.injEq] at h
  obtain ⟨w, hw, rfl, rfl⟩ := h
  have hne : a.bitmap w ≠ 0#64 := by simpa using (Slots.firstUp_some hw).2
  obtain ⟨hlt, hbit⟩ := trailingZeros_spec hne
  refine ⟨_, rfl, ?_, fun g => isFree_setUsed⟩
  rw [isFree, show (w * 64 + trailingZeros (a.bitmap w)) / 64 = w by omega,
    show (w * 64 + trailingZeros (a.bitmap w)) % 64 = trailingZeros (a.bitmap w) by omega]
  exact hbit

theorem trailingZeros_least {w : BitVec 64} {i : Nat} (h : i < trailingZeros w) : w.getLsbD i = false := by
  unfold trailingZeros at h
  cases hf : Slots.firstUp w.getLsbD 64 0 with
  | some j =>
    rw [hf, Option.getD_some] at h
    exact Slots.firstUp_least hf (Nat.zero_le i) h
  | none =>
    rw [hf, Option.getD_none] at h
    exact Slots.firstUp_none hf (Nat.zero_le i) (by omega)

/-- `alloc_frame` hands out the lowest free frame, and counts it. -/
theorem allocFrame_least {a a' : FrameAlloc} {phys : Nat} (h : a.allocFrame = some (phys, a')) :
    phys / pageSize < maxFrames ∧ (∀ g < phys / pageSize, a.isFree g = false) ∧ a'.freeFrames = a.freeFrames - 1 := by
  simp only [allocFrame, Option.bind_eq_bind, Option.bind_eq_some_iff, Option.some.injEq, Prod.mk.injEq] at h
  obtain ⟨w, hw, rfl, rfl⟩ := h
  obtain ⟨hlt, hne⟩ := Slots.firstUp_some hw
  have hbit := (trailingZeros_spec (w := a.bitmap w) (by simpa using hne)).1
  have hdiv : (w * 64 + trailingZeros (a.bitmap w)) * pageSize / pageSize = w * 64 + trailingZeros (a.bitmap w) :=
    Nat.mul_div_cancel _ (by decide)
  rw [hdiv]
  refine ⟨by simp only [maxFrames] at *; omega, fun g hg => ?_, rfl⟩
  by_cases hgw : g / 64 = w
  · rw [isFree, hgw]
    exact trailingZeros_least (by omega)
  · -- A word before the first one with a free frame is zero.
    have hzero := Slots.firstUp_least hw (Nat.zero_le (g / 64)) (by omega)
    have hword : a.bitmap (g / 64) = 0#64 := by simpa using hzero
    rw [isFree, hword, BitVec.getLsbD_zero]

/-- `alloc_frame` fails only when no frame is free. -/
theorem allocFrame_none {a : FrameAlloc} (h : a.allocFrame = none) {g : Nat} (hg : g < maxFrames) :
    a.isFree g = false := by
  simp only [allocFrame, Option.bind_eq_bind, Option.bind_eq_none_iff, reduceCtorEq, imp_false] at h
  have hnone : Slots.firstUp (fun i => a.bitmap i != 0#64) bitmapWords 0 = none :=
    Option.eq_none_iff_forall_ne_some.mpr h
  have hword := Slots.firstUp_none hnone (Nat.zero_le (g / 64)) (by simp only [maxFrames] at hg; omega)
  have hzero : a.bitmap (g / 64) = 0#64 := by simpa using hword
  rw [isFree, hzero, BitVec.getLsbD_zero]

/-- Freeing a frame frees no other one. -/
theorem isFree_freeFrame {a : FrameAlloc} {phys g : Nat} (h : g ≠ phys / pageSize) :
    (a.freeFrame phys).isFree g = a.isFree g := by
  have hs := @isFree_setFree a (phys / pageSize) g
  rw [if_neg h] at hs
  simp only [freeFrame]
  split
  · split
    · exact hs
    · rfl
  · rfl

end FrameAlloc

end ChodOs
