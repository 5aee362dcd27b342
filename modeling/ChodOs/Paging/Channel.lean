/-
Channel frames (`paging/mod.rs`, `alloc_channel_frame` and what it calls):
one physical frame, written through the direct map (HHDM) and read through
a page of the read-only channel window.

The four-level walk through `KERNEL_CR3` is represented by the map it
implements, from a page address to its entry. The tables on the way are
kept only as the set of those that exist, because creating one takes a
frame from the same allocator and clears it.
-/
import ChodOs.Lib.ByteMem
import ChodOs.Memory.Frame

namespace ChodOs

/-- A present page-table entry. -/
structure Pte where
  phys : Nat
  writable : Bool
  user : Bool

/-- Physical memory as the channel code uses it. -/
structure ChannelMem where
  frames : FrameAlloc
  bytes : ByteMem
  /-- `hhdm_offset()`: where the direct map starts. -/
  hhdm : Nat
  /-- `RO_CHANNEL_SLOT`. -/
  roSlot : Nat
  /-- The intermediate tables under `KERNEL_CR3`, by level (address shift) and index path. -/
  tables : List (Nat × Nat)
  /-- The entry a walk of `KERNEL_CR3` finds for a page. -/
  kernelPte : Nat → Option Pte

def roChannelBase : Nat := 0xFFFFA00000000000

namespace ChannelMem

/-- A small machine: `n` free frames from address 0, and nothing mapped yet. -/
def ofFrames (n : Nat) : ChannelMem where
  frames := { bitmap := fun i => if i = 0 then BitVec.ofNat 64 (2 ^ n - 1) else 0#64, freeFrames := n }
  bytes := fun _ => 0
  hhdm := 0xFFFF800000000000
  roSlot := 0
  tables := []
  kernelPte := fun _ => none

/-- `get_or_create`: the table for `va` below level `shift`, a cleared new
frame when there is none (`alloc_table`). `none`: out of memory. -/
def getOrCreate (m : ChannelMem) (shift va : Nat) : Option ChannelMem :=
  if m.tables.contains (shift, va / 2 ^ shift) then some m
  else do
    let (phys, frames) ← m.frames.allocFrame
    some { m with
      frames
      bytes := m.bytes.write phys (List.replicate pageSize 0)
      tables := (shift, va / 2 ^ shift) :: m.tables }

/-- `map_4k` into the kernel's tables. -/
def map4k (m : ChannelMem) (va : Nat) (pte : Pte) : Option ChannelMem := do
  let m ← m.getOrCreate 39 va
  let m ← m.getOrCreate 30 va
  let m ← m.getOrCreate 21 va
  some { m with kernelPte := Function.update m.kernelPte va (some pte) }

/-- `alloc_channel_frame`: the write address, the read address and the
frame. `none`: out of memory (the source panics). -/
def allocChannelFrame (m : ChannelMem) : Option ((Nat × Nat × Nat) × ChannelMem) := do
  let (phys, frames) ← m.frames.allocFrame
  let readVa := roChannelBase + m.roSlot * pageSize
  let m ← { m with frames, roSlot := m.roSlot + 1 }.map4k readVa { phys, writable := false, user := false }
  some ((phys + m.hhdm, readVa, phys), m)

/-- `free_channel_frame`: the frame goes back to the allocator; the entry in
the read-only window stays. -/
def freeChannelFrame (m : ChannelMem) (phys : Nat) : ChannelMem :=
  { m with frames := m.frames.freeFrame phys }

/-- A write through the direct map. -/
def writeHhdm (m : ChannelMem) (va : Nat) (bs : List UInt8) : ChannelMem :=
  { m with bytes := m.bytes.write (va - m.hhdm) bs }

/-- A read of the start of a page through the kernel's tables. `none`: page fault. -/
def readKernel (m : ChannelMem) (va n : Nat) : Option (List UInt8) :=
  (m.kernelPte va).map fun pte => m.bytes.read pte.phys n

/-! ## Frames in use are kept -/

/-- From `m` to `m'` every frame in use stays in use and keeps its bytes. -/
structure Keeps (m m' : ChannelMem) : Prop where
  used : ∀ {g}, m.frames.isFree g = false → m'.frames.isFree g = false
  bytes : ∀ {x}, m.frames.isFree (x / pageSize) = false → m'.bytes x = m.bytes x
  hhdm : m'.hhdm = m.hhdm

theorem Keeps.refl (m : ChannelMem) : Keeps m m := ⟨id, fun _ => rfl, rfl⟩

theorem Keeps.trans {m₁ m₂ m₃ : ChannelMem} (h : Keeps m₁ m₂) (h' : Keeps m₂ m₃) : Keeps m₁ m₃ :=
  ⟨fun hg => h'.used (h.used hg), fun hx => (h'.bytes (h.used hx)).trans (h.bytes hx), h'.hhdm.trans h.hhdm⟩

/-- An allocation takes nothing that is in use. -/
theorem alloc_used {m : ChannelMem} {phys : Nat} {frames : FrameAlloc}
    (h : m.frames.allocFrame = some (phys, frames)) {g : Nat} (hg : m.frames.isFree g = false) :
    frames.isFree g = false := by
  obtain ⟨f, -, -, hf⟩ := FrameAlloc.allocFrame_spec h
  rw [hf]; split
  · rfl
  · exact hg

/-- A walk that may create a table keeps every frame in use, and the
entries of the last level. -/
theorem getOrCreate_keeps {m m' : ChannelMem} {shift va : Nat} (h : m.getOrCreate shift va = some m') :
    Keeps m m' ∧ m'.kernelPte = m.kernelPte ∧ m'.roSlot = m.roSlot := by
  unfold getOrCreate at h
  split at h
  · cases h; exact ⟨Keeps.refl m, rfl, rfl⟩
  · simp only [Option.bind_eq_bind, Option.bind_eq_some_iff, Option.some.injEq] at h
    obtain ⟨⟨phys, frames⟩, ha, rfl⟩ := h
    refine ⟨⟨alloc_used ha, fun {x} hx => ?_, rfl⟩, rfl, rfl⟩
    obtain ⟨f, rfl, hfree, -⟩ := FrameAlloc.allocFrame_spec ha
    -- The cleared frame was free, so `x` is not in it.
    refine ByteMem.write_outside ?_
    by_contra hin
    rw [List.length_replicate] at hin
    have hxf : x / pageSize = f := by simp only [pageSize] at hin ⊢; omega
    rw [hxf, hfree] at hx
    cases hx

theorem map4k_keeps {m m' : ChannelMem} {va : Nat} {pte : Pte} (h : m.map4k va pte = some m') :
    Keeps m m' ∧ m'.kernelPte = Function.update m.kernelPte va (some pte) ∧ m'.roSlot = m.roSlot := by
  simp only [map4k, Option.bind_eq_bind, Option.bind_eq_some_iff, Option.some.injEq] at h
  obtain ⟨m₁, h₁, m₂, h₂, m₃, h₃, rfl⟩ := h
  obtain ⟨k₁, p₁, s₁⟩ := getOrCreate_keeps h₁
  obtain ⟨k₂, p₂, s₂⟩ := getOrCreate_keeps h₂
  obtain ⟨k₃, p₃, s₃⟩ := getOrCreate_keeps h₃
  have hk := (k₁.trans k₂).trans k₃
  exact ⟨⟨hk.used, hk.bytes, hk.hhdm⟩, by rw [p₃, p₂, p₁], by rw [s₃, s₂, s₁]⟩

/-- What `alloc_channel_frame` returns: a frame that was free and is now in
use, its direct-map address, and a fresh window page mapped to it. -/
theorem allocChannelFrame_spec {m m' : ChannelMem} {w r phys : Nat}
    (h : m.allocChannelFrame = some ((w, r, phys), m')) :
    Keeps m m' ∧ m'.roSlot = m.roSlot + 1 ∧ w = phys + m'.hhdm ∧ r = roChannelBase + m.roSlot * pageSize ∧
      m'.kernelPte = Function.update m.kernelPte r (some { phys, writable := false, user := false }) ∧
      ∃ f, phys = f * pageSize ∧ m.frames.isFree f = true ∧ m'.frames.isFree f = false := by
  simp only [allocChannelFrame, Option.bind_eq_bind, Option.bind_eq_some_iff, Option.some.injEq,
    Prod.mk.injEq] at h
  obtain ⟨⟨p, frames⟩, ha, m₁, hm, ⟨rfl, rfl, rfl⟩, rfl⟩ := h
  obtain ⟨hk, hp, hs⟩ := map4k_keeps hm
  have hk₀ : Keeps m m₁ :=
    ⟨fun hg => hk.used (alloc_used ha hg), fun hx => hk.bytes (alloc_used ha hx), hk.hhdm⟩
  obtain ⟨f, hf, hfree, hspec⟩ := FrameAlloc.allocFrame_spec ha
  have hused : frames.isFree f = false := by rw [hspec, if_pos rfl]
  exact ⟨hk₀, hs, rfl, rfl, hp, f, hf, hfree, hk.used hused⟩

end ChannelMem

end ChodOs
