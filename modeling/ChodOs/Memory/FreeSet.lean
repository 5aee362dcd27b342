/-
The frame allocator against a finite set of free frames
(`memory/frame.rs`). Every call is a set operation: one frame is a run of
one, and the counter is the size of the set.
-/
import Mathlib.Order.Interval.Finset.Nat
import Mathlib.Order.Bounds.Basic
import ChodOs.Lib.Run
import ChodOs.Memory.Frame

namespace ChodOs

open StepSys

/-! ## Runs of members -/

namespace FreeSet

/-- `count` members in a row from `start`. -/
def IsRun (S : Finset Nat) (count start : Nat) : Prop := ∀ f, start ≤ f → f < start + count → f ∈ S

/-- What may be answered to a request for `count` members in a row: the
lowest run, which leaves the set, or that there is none. -/
inductive Takes (S : Finset Nat) (count : Nat) : Option Nat → Finset Nat → Prop
  | lowest {start : Nat} : IsLeast {s | IsRun S count s} start →
      Takes S count (some start) (S \ Finset.Ico start (start + count))
  | exhausted : (∀ s, ¬IsRun S count s) → Takes S count none S

theorem isRun_one {S : Finset Nat} {f : Nat} : IsRun S 1 f ↔ f ∈ S := by
  refine ⟨fun h => h f (Nat.le_refl f) (Nat.lt_succ_self f), fun h g hle hlt => ?_⟩
  obtain rfl : g = f := by omega
  exact h

end FreeSet

namespace FrameAlloc

variable {a a' : FrameAlloc} {f phys : Nat}

/-! ## The free frames -/

def freeSet (a : FrameAlloc) : Finset Nat := (Finset.range maxFrames).filter fun f => a.isFree f = true

theorem mem_freeSet : f ∈ a.freeSet ↔ f < maxFrames ∧ a.isFree f = true := by simp [freeSet]

theorem freeSet_setUsed : (a.setUsed f).freeSet = a.freeSet.erase f := by
  ext g
  rw [Finset.mem_erase, mem_freeSet, mem_freeSet, isFree_setUsed]
  by_cases h : g = f <;> simp [h]

theorem freeSet_setFree (hf : f < maxFrames) : (a.setFree f).freeSet = insert f a.freeSet := by
  ext g
  rw [Finset.mem_insert, mem_freeSet, mem_freeSet, isFree_setFree]
  by_cases h : g = f <;> simp [h, hf]

theorem freeSet_markFree (hf : f < maxFrames) : (a.markFree f).freeSet = insert f a.freeSet := freeSet_setFree hf

theorem freeSet_setUsedRange (a : FrameAlloc) (start count : Nat) :
    (a.setUsedRange start count).freeSet = a.freeSet \ Finset.Ico start (start + count) := by
  induction count with
  | zero => simp [setUsedRange]
  | succ n ih =>
    have hstep : a.setUsedRange start (n + 1) = (a.setUsedRange start n).setUsed (start + n) := by
      rw [setUsedRange, List.range_succ, List.foldl_append]
      rfl
    rw [hstep, freeSet_setUsed, ih]
    ext g
    simp only [Finset.mem_erase, Finset.mem_sdiff, Finset.mem_Ico]
    grind

/-! ## Allocation -/

theorem allocFrame_takes (a : FrameAlloc) :
    (a.allocFrame = none ∧ FreeSet.Takes a.freeSet 1 none a.freeSet) ∨
      ∃ f a', a.allocFrame = some (f * pageSize, a') ∧ FreeSet.Takes a.freeSet 1 (some f) a'.freeSet ∧
        a'.freeFrames = a.freeFrames - 1 := by
  cases h : a.allocFrame with
  | none =>
    refine .inl ⟨rfl, .exhausted fun s hs => ?_⟩
    have hfree := mem_freeSet.mp (FreeSet.isRun_one.mp hs)
    rw [allocFrame_none h hfree.1] at hfree
    exact absurd hfree.2 (by decide)
  | some r =>
    obtain ⟨phys, a'⟩ := r
    obtain ⟨f, rfl, hfree, hspec⟩ := allocFrame_spec h
    obtain ⟨hlt, hleast, hcount⟩ := allocFrame_least h
    rw [Nat.mul_div_cancel f (by decide)] at hlt hleast
    have hset : a'.freeSet = a.freeSet \ Finset.Ico f (f + 1) := by
      ext g
      rw [mem_freeSet, hspec, Finset.mem_sdiff, mem_freeSet, Finset.mem_Ico]
      split
      · next he => simp [he]
      · next hne => simp only [show ¬(f ≤ g ∧ g < f + 1) by omega, not_false_eq_true, and_true]
    have hlowest : IsLeast {s | FreeSet.IsRun a.freeSet 1 s} f := by
      refine ⟨FreeSet.isRun_one.mpr (mem_freeSet.mpr ⟨hlt, hfree⟩), fun g hg => ?_⟩
      have hg := (mem_freeSet.mp (FreeSet.isRun_one.mp hg)).2
      by_contra hcon
      rw [hleast g (by omega)] at hg
      cases hg
    exact .inr ⟨f, a', rfl, by rw [hset]; exact .lowest hlowest, hcount⟩

/-- The scan, from the state its loop is in at `frame`: the run that ends
here is as long as it can be, and no run of `count` has been passed. -/
theorem scanRun_takes {count n frame runStart runLen : Nat} (hcount : 0 < count)
    (hend : frame + n = maxFrames) (hlen : runLen ≤ frame) (hshort : runLen < count)
    (hstart : 0 < runLen → runStart = frame - runLen)
    (hrun : ∀ f, frame - runLen ≤ f → f < frame → a.isFree f = true)
    (hbreak : runLen < frame → a.isFree (frame - runLen - 1) = false)
    (hpassed : ∀ s, s + count ≤ frame → ¬FreeSet.IsRun a.freeSet count s) :
    (a.scanRun count n frame runStart runLen = none ∧ ∀ s, ¬FreeSet.IsRun a.freeSet count s) ∨
      ∃ start, a.scanRun count n frame runStart runLen = some start ∧
        IsLeast {s | FreeSet.IsRun a.freeSet count s} start := by
  induction n generalizing frame runStart runLen with
  | zero =>
    refine .inl ⟨rfl, fun s hs => ?_⟩
    -- A run would end below the last frame, and has been passed.
    have hlast := (mem_freeSet.mp (hs (s + count - 1) (by omega) (by omega))).1
    exact hpassed s (by omega) hs
  | succ n ih =>
    rw [scanRun]
    split
    · next hfree =>
      have hrun' : ∀ f, frame + 1 - (runLen + 1) ≤ f → f < frame + 1 → a.isFree f = true := by
        intro f hle hlt
        by_cases he : f = frame
        · rw [he]; exact hfree
        · exact hrun f (by omega) (by omega)
      -- The start is known, whether or not the run has just begun.
      have hbegin : (if runLen = 0 then frame else runStart) = frame - runLen := by
        split
        · next h0 => omega
        · next hne => exact hstart (by omega)
      dsimp only
      rw [hbegin]
      split
      · next hfull =>
        refine .inr ⟨_, rfl, ?_, fun s hs => ?_⟩
        · intro f hle hlt
          exact mem_freeSet.mpr ⟨by omega, hrun' f (by omega) (by omega)⟩
        · by_contra hcon
          exact hpassed s (by omega) hs
      · next hmore =>
        refine ih (by omega) (by omega) (by omega) (fun _ => by omega) hrun' (fun hlt => ?_) fun s hs hisrun => ?_
        · rw [show frame + 1 - (runLen + 1) - 1 = frame - runLen - 1 by omega]
          exact hbreak (by omega)
        · by_cases hs' : s + count ≤ frame
          · exact hpassed s hs' hisrun
          · -- It would contain the frame that ends the run to the left.
            have hused := hbreak (by omega)
            have hin := mem_freeSet.mp (hisrun (frame - runLen - 1) (by omega) (by omega))
            rw [hused] at hin
            exact absurd hin.2 (by decide)
    · next hused =>
      refine ih (by omega) (by omega) hcount (by omega) (by omega) (fun _ => ?_) fun s hs hisrun => ?_
      · rw [show frame + 1 - 0 - 1 = frame by omega]
        simpa using hused
      · by_cases hs' : s + count ≤ frame
        · exact hpassed s hs' hisrun
        · exact hused (mem_freeSet.mp (hisrun frame (by omega) (by omega))).2

theorem allocContiguous_takes {count : Nat} (a : FrameAlloc) (hcount : 0 < count) :
    (a.allocContiguous count = none ∧ FreeSet.Takes a.freeSet count none a.freeSet) ∨
      ∃ start a', a.allocContiguous count = some (start * pageSize, a') ∧
        FreeSet.Takes a.freeSet count (some start) a'.freeSet ∧ a'.freeFrames = a.freeFrames - count := by
  have hscan := @scanRun_takes a count maxFrames 0 0 0 hcount
    (Nat.zero_add _) (Nat.le_refl _) hcount (by omega) (by omega) (by omega) (by omega)
  have hne : count ≠ 0 := by omega
  rcases hscan with ⟨hnone, hno⟩ | ⟨start, hsome, hleast⟩
  · refine .inl ⟨?_, .exhausted hno⟩
    simp only [allocContiguous, hne, if_false, hnone, Option.bind_eq_bind, Option.bind_none]
  · refine .inr ⟨start, { a.setUsedRange start count with freeFrames := a.freeFrames - count }, ?_, ?_, rfl⟩
    · simp only [allocContiguous, hne, if_false, hsome, Option.bind_eq_bind, Option.bind_some]
    · have htakes := FreeSet.Takes.lowest hleast
      rw [← freeSet_setUsedRange a start count] at htakes
      exact htakes

/-! ## Release -/

/-- A frame beyond those of the allocator is passed over. -/
theorem freeFrame_beyond (hf : ¬f < maxFrames) : a.freeFrame (f * pageSize) = a := by
  have hdiv : f * pageSize / pageSize = f := Nat.mul_div_cancel f (by decide)
  simp only [freeFrame, hdiv, hf, if_false]

theorem freeSet_freeFrame (hf : f < maxFrames) : (a.freeFrame (f * pageSize)).freeSet = insert f a.freeSet := by
  have hdiv : f * pageSize / pageSize = f := Nat.mul_div_cancel f (by decide)
  simp only [freeFrame, hdiv, hf, if_true]
  split
  · exact freeSet_setFree hf
  · next hfree =>
    have hmem : f ∈ a.freeSet := mem_freeSet.mpr ⟨hf, by simpa using hfree⟩
    rw [Finset.insert_eq_of_mem hmem]

theorem freeFrames_freeFrame (hf : f < maxFrames) (hused : f ∉ a.freeSet) :
    (a.freeFrame (f * pageSize)).freeFrames = a.freeFrames + 1 := by
  have hdiv : f * pageSize / pageSize = f := Nat.mul_div_cancel f (by decide)
  have hfree : a.isFree f = false := by
    by_contra hcon
    exact hused (mem_freeSet.mpr ⟨hf, by simpa using hcon⟩)
  simp only [freeFrame, hdiv, hf, if_true, hfree, Bool.not_false]

/-! ## The memory map -/

/-- The frames an entry gives to the allocator. -/
def MemmapEntry.frames (e : MemmapEntry) : Finset Nat :=
  Finset.Ico (e.base / pageSize) (min ((e.base + e.length) / pageSize) maxFrames)

/-- The counter is the number of set bits. -/
def Counted (a : FrameAlloc) : Prop := a.freeFrames = a.freeSet.card

theorem setFreeRange_spec (a : FrameAlloc) (start : Nat) {stop : Nat} (hstop : stop ≤ maxFrames) :
    (a.setFreeRange start stop).freeSet = a.freeSet ∪ Finset.Ico start stop ∧
      (a.setFreeRange start stop).freeFrames = a.freeFrames + (stop - start) := by
  have key : ∀ n, n ≤ stop - start →
      let a' := (List.range n).foldl (fun a i => a.markFree (start + i)) a
      a'.freeSet = a.freeSet ∪ Finset.Ico start (start + n) ∧ a'.freeFrames = a.freeFrames + n := by
    intro n
    induction n with
    | zero => simp
    | succ n ih =>
      intro hn
      obtain ⟨hset, hcount⟩ := ih (by omega)
      simp only [List.range_succ, List.foldl_append, List.foldl_cons, List.foldl_nil]
      refine ⟨?_, by rw [markFree, hcount]; rfl⟩
      rw [freeSet_markFree (by omega), hset]
      ext g
      simp only [Finset.mem_insert, Finset.mem_union, Finset.mem_Ico]
      grind
  obtain ⟨hset, hcount⟩ := key _ (Nat.le_refl _)
  refine ⟨hset.trans ?_, hcount⟩
  ext g
  simp only [Finset.mem_union, Finset.mem_Ico]
  grind

theorem initEntry_spec {e : MemmapEntry} (h : a.initEntry e = some a') :
    a'.freeSet = (if e.usable then a.freeSet ∪ e.frames else a.freeSet) ∧
      (a.Counted → (e.usable → Disjoint a.freeSet e.frames) → a'.Counted) := by
  unfold initEntry at h
  split at h
  · next hu =>
    simp only [Option.bind_eq_bind, Option.bind_eq_some_iff, addU64_eq_some, Option.some.injEq] at h
    obtain ⟨stop, ⟨-, rfl⟩, rfl⟩ := h
    obtain ⟨hset, hcount⟩ := a.setFreeRange_spec (e.base / pageSize)
      (Nat.min_le_right ((e.base + e.length) / pageSize) maxFrames)
    rw [if_pos hu]
    refine ⟨hset, fun hc hd => ?_⟩
    rw [Counted, hset, hcount, hc, ← MemmapEntry.frames, Finset.card_union_of_disjoint (hd hu), MemmapEntry.frames,
      Nat.card_Ico]
  · next hu =>
    cases h
    rw [if_neg hu]
    exact ⟨rfl, fun hc _ => hc⟩

/-- What the boot loader promises of its map. -/
structure MemoryMap (entries : List MemmapEntry) : Prop where
  aligned : ∀ e ∈ entries, e.usable → e.base % pageSize = 0 ∧ e.length % pageSize = 0
  apart : entries.Pairwise fun e e' => e.usable → e'.usable →
    e.base + e.length ≤ e'.base ∨ e'.base + e'.length ≤ e.base

theorem disjoint_frames {e e' : MemmapEntry} (h : e.base + e.length ≤ e'.base ∨ e'.base + e'.length ≤ e.base) :
    Disjoint e.frames e'.frames := by
  rw [Finset.disjoint_left]
  intro f hf hf'
  simp only [MemmapEntry.frames, Finset.mem_Ico, pageSize] at hf hf'
  omega

theorem init_spec {entries : List MemmapEntry} (hmap : MemoryMap entries) (h : init entries = some a) :
    (∀ f, f ∈ a.freeSet ↔ ∃ e ∈ entries, e.usable ∧ f ∈ e.frames) ∧ a.Counted := by
  have key : ∀ (l : List MemmapEntry) (a₀ : FrameAlloc), MemoryMap l → a₀.Counted →
      (∀ e ∈ l, e.usable → Disjoint a₀.freeSet e.frames) → l.foldlM initEntry a₀ = some a →
      (∀ f, f ∈ a.freeSet ↔ f ∈ a₀.freeSet ∨ ∃ e ∈ l, e.usable ∧ f ∈ e.frames) ∧ a.Counted := by
    intro l
    induction l with
    | nil =>
      intro a₀ _ hc _ he
      cases he
      exact ⟨fun f => by simp, hc⟩
    | cons e l ih =>
      intro a₀ hm hc hd he
      rw [List.foldlM_cons, Option.bind_eq_bind, Option.bind_eq_some_iff] at he
      obtain ⟨a₁, h₁, hl⟩ := he
      obtain ⟨hset, hcount⟩ := initEntry_spec h₁
      have hapart := List.pairwise_cons.mp hm.apart
      have hm' : MemoryMap l := ⟨fun e' he' => hm.aligned e' (List.mem_cons_of_mem _ he'), hapart.2⟩
      have hd' : ∀ e' ∈ l, e'.usable → Disjoint a₁.freeSet e'.frames := by
        intro e' he' hu'
        have hold := hd e' (List.mem_cons_of_mem _ he') hu'
        rw [hset]
        split
        · next hu => exact Finset.disjoint_union_left.mpr ⟨hold, disjoint_frames (hapart.1 e' he' hu hu')⟩
        · exact hold
      obtain ⟨hfree, hc'⟩ := ih a₁ hm' (hcount hc (hd e List.mem_cons_self)) hd' hl
      refine ⟨fun f => ?_, hc'⟩
      rw [hfree, hset]
      by_cases hu : e.usable = true
      · simp [hu, or_assoc]
      · simp [hu]
  have hempty : FrameAlloc.freeSet { bitmap := fun _ => 0#64, freeFrames := 0 } = ∅ := by
    ext f
    simp [mem_freeSet, isFree]
  obtain ⟨hfree, hc⟩ := key entries { bitmap := fun _ => 0#64, freeFrames := 0 } hmap
    (by rw [Counted, hempty]; rfl) (fun e _ _ => by rw [hempty]; exact Finset.disjoint_empty_left _) h
  refine ⟨fun f => ?_, hc⟩
  rw [hfree, hempty]
  simp

end FrameAlloc

/-! ## Runs -/

/-- The allocator with the frames that are handed out. -/
structure FrameHeap where
  alloc : FrameAlloc
  live : List Nat

inductive FrameOp
  | alloc
  | contiguous (count : Nat)
  | free (phys : Nat)

namespace FrameHeap

/-- One call; it reports the address it answers, if any. -/
def step (s : FrameHeap) : FrameOp → Option (List (Option Nat) × FrameHeap)
  | .alloc =>
    match s.alloc.allocFrame with
    | some (phys, a) => some ([some phys], { alloc := a, live := phys / pageSize :: s.live })
    | none => some ([none], s)
  | .contiguous count =>
    match s.alloc.allocContiguous count with
    | some (phys, a) =>
      some ([some phys], { alloc := a, live := (List.range count).map (phys / pageSize + ·) ++ s.live })
    | none => some ([none], s)
  | .free phys => some ([], { alloc := s.alloc.freeFrame phys, live := s.live.erase (phys / pageSize) })

/-- `free_frame` is given addresses of live allocations only. -/
def OnlyLive (_ : List (Option Nat)) (s : FrameHeap) : FrameOp → Prop
  | .free phys => ∃ f ∈ s.live, phys = f * pageSize
  | _ => True

instance (h : List (Option Nat)) (s : FrameHeap) (op : FrameOp) : Decidable (OnlyLive h s op) := by
  cases op <;> unfold OnlyLive <;> infer_instance

/-- The bitmap and the live frames split the frames that were free at first. -/
structure Refines (a₀ : FrameAlloc) (s : FrameHeap) : Prop where
  counted : s.alloc.Counted
  free : ∀ f, f ∈ s.alloc.freeSet ↔ f ∈ a₀.freeSet ∧ f ∉ s.live
  nodup : s.live.Nodup
  live : ∀ f ∈ s.live, f ∈ a₀.freeSet

variable {a₀ a : FrameAlloc} {s s' : FrameHeap} {op : FrameOp} {h es : List (Option Nat)}

theorem Refines.start (hc : a₀.Counted) : Refines a₀ { alloc := a₀, live := [] } :=
  ⟨hc, fun f => by simp, .nil, nofun⟩

/-- A run of free frames is handed out. -/
theorem Refines.take (hs : Refines a₀ s) {count start : Nat} (ht : FreeSet.Takes s.alloc.freeSet count (some start) a.freeSet)
    (hcount : a.freeFrames = s.alloc.freeFrames - count) :
    Refines a₀ { alloc := a, live := (List.range count).map (start + ·) ++ s.live } := by
  generalize hfree : a.freeSet = S at ht
  cases ht with
  | lowest hleast =>
    have hsub : Finset.Ico start (start + count) ⊆ s.alloc.freeSet := by
      intro f hf
      rw [Finset.mem_Ico] at hf
      exact hleast.1 f hf.1 hf.2
    have hmem : ∀ f, f ∈ (List.range count).map (start + ·) ↔ f ∈ Finset.Ico start (start + count) := by
      intro f
      rw [List.mem_map, Finset.mem_Ico]
      constructor
      · intro h
        obtain ⟨i, hi, rfl⟩ := h
        rw [List.mem_range] at hi
        omega
      · intro hf
        exact ⟨f - start, List.mem_range.mpr (by omega), by omega⟩
    refine ⟨?_, fun f => ?_, ?_, fun f hf => ?_⟩
    · have hcounted : s.alloc.freeFrames = s.alloc.freeSet.card := hs.counted
      rw [FrameAlloc.Counted, hfree, hcount, Finset.card_sdiff_of_subset hsub, Nat.card_Ico, hcounted]
      omega
    · rw [hfree, Finset.mem_sdiff, hs.free, List.mem_append, hmem, not_or]
      exact ⟨fun ⟨⟨h₀, hl⟩, hr⟩ => ⟨h₀, hr, hl⟩, fun ⟨h₀, hr, hl⟩ => ⟨⟨h₀, hl⟩, hr⟩⟩
    · rw [List.nodup_append]
      refine ⟨(List.nodup_range).map fun i j hij => by simpa using hij, hs.nodup, fun f hf g hg => ?_⟩
      intro h
      obtain rfl := h
      exact ((hs.free f).mp (hsub ((hmem f).mp hf))).2 hg
    · rcases List.mem_append.mp hf with hf | hf
      · exact ((hs.free f).mp (hsub ((hmem f).mp hf))).1
      · exact hs.live f hf

/-- A live frame is given back. -/
theorem Refines.give (hs : Refines a₀ s) {f : Nat} (hf : f ∈ s.live) :
    Refines a₀ { alloc := s.alloc.freeFrame (f * pageSize), live := s.live.erase f } := by
  have hmax : f < maxFrames := (FrameAlloc.mem_freeSet.mp (hs.live f hf)).1
  have hused : f ∉ s.alloc.freeSet := fun hfree => ((hs.free f).mp hfree).2 hf
  refine ⟨?_, fun g => ?_, hs.nodup.erase f, fun g hg => hs.live g (List.mem_of_mem_erase hg)⟩
  · have hcounted : s.alloc.freeFrames = s.alloc.freeSet.card := hs.counted
    rw [FrameAlloc.Counted, FrameAlloc.freeFrames_freeFrame hmax hused, FrameAlloc.freeSet_freeFrame hmax,
      Finset.card_insert_of_notMem hused, hcounted]
  · rw [FrameAlloc.freeSet_freeFrame hmax, Finset.mem_insert, hs.free, hs.nodup.mem_erase_iff]
    by_cases hg : g = f
    · subst hg; simp [hs.live g hf]
    · simp [hg]

theorem Refines.step (hs : Refines a₀ s) (hok : OnlyLive h s op) (hstep : s.step op = some (es, s')) :
    Refines a₀ s' := by
  cases op with
  | alloc =>
    rcases s.alloc.allocFrame_takes with ⟨hnone, -⟩ | ⟨f, a, hsome, ht, hcount⟩
    · simp only [FrameHeap.step, hnone, Option.some.injEq, Prod.mk.injEq] at hstep
      exact hstep.2 ▸ hs
    · simp only [FrameHeap.step, hsome, Option.some.injEq, Prod.mk.injEq] at hstep
      rw [← hstep.2, Nat.mul_div_cancel f (by decide)]
      exact hs.take ht hcount
  | contiguous count =>
    by_cases h0 : count = 0
    · simp only [FrameHeap.step, FrameAlloc.allocContiguous, h0, if_true, Option.some.injEq, Prod.mk.injEq] at hstep
      exact hstep.2 ▸ hs
    rcases s.alloc.allocContiguous_takes (Nat.pos_of_ne_zero h0) with ⟨hnone, -⟩ | ⟨start, a, hsome, ht, hcount⟩
    · simp only [FrameHeap.step, hnone, Option.some.injEq, Prod.mk.injEq] at hstep
      exact hstep.2 ▸ hs
    · simp only [FrameHeap.step, hsome, Option.some.injEq, Prod.mk.injEq] at hstep
      rw [← hstep.2, Nat.mul_div_cancel start (by decide)]
      exact hs.take ht hcount
  | free phys =>
    obtain ⟨f, hf, rfl⟩ := hok
    cases hstep
    rw [Nat.mul_div_cancel f (by decide)]
    exact hs.give hf

end FrameHeap

/-- A frame that lies in a usable entry and below 8 GiB. -/
def FrameAlloc.Usable (entries : List FrameAlloc.MemmapEntry) (f : Nat) : Prop :=
  (f + 1) * pageSize ≤ 8 * 2 ^ 30 ∧
    ∃ e ∈ entries, e.usable ∧ e.base ≤ f * pageSize ∧ (f + 1) * pageSize ≤ e.base + e.length

theorem FrameAlloc.usable_of_mem {entries : List FrameAlloc.MemmapEntry} {f : Nat} {e : FrameAlloc.MemmapEntry}
    (hmap : FrameAlloc.MemoryMap entries) (he : e ∈ entries) (hu : e.usable) (hf : f ∈ e.frames) :
    FrameAlloc.Usable entries f := by
  obtain ⟨hbase, hlen⟩ := hmap.aligned e he hu
  simp only [FrameAlloc.MemmapEntry.frames, Finset.mem_Ico, pageSize, maxFrames, bitmapWords] at hf hbase hlen
  refine ⟨by simp only [pageSize]; omega, e, he, hu, ?_, ?_⟩ <;> simp only [pageSize] <;> omega

/-- After any calls that free live frames only: the counter is right, both
allocations answer the lowest run there is or that there is none, live
frames are distinct and usable, and with none live the set is the first one. -/
theorem frames_refine_free_set {entries : List FrameAlloc.MemmapEntry} (hmap : FrameAlloc.MemoryMap entries)
    {a₀ : FrameAlloc} (hinit : FrameAlloc.init entries = some a₀) {h : List (Option Nat)} {s : FrameHeap}
    (hr : Runs FrameHeap.step FrameHeap.OnlyLive { alloc := a₀, live := [] } h s) :
    s.alloc.freeFrames = s.alloc.freeSet.card ∧
      (s.alloc.allocFrame = none ∧ s.alloc.freeSet = ∅ ∨
        ∃ f a', s.alloc.allocFrame = some (f * pageSize, a') ∧ IsLeast (s.alloc.freeSet : Set Nat) f ∧
          a'.freeSet = s.alloc.freeSet.erase f) ∧
      (∀ count, 0 < count →
        (s.alloc.allocContiguous count = none ∧ (∀ start, ¬FreeSet.IsRun s.alloc.freeSet count start) ∧
            (s.step (.contiguous count)).map (·.2) = some s) ∨
          ∃ start a', s.alloc.allocContiguous count = some (start * pageSize, a') ∧
            IsLeast {start | FreeSet.IsRun s.alloc.freeSet count start} start ∧
            a'.freeSet = s.alloc.freeSet \ Finset.Ico start (start + count)) ∧
      s.live.Nodup ∧ (∀ f ∈ s.live, FrameAlloc.Usable entries f ∧ f ∉ s.alloc.freeSet) ∧
      (s.live = [] → s.alloc.freeSet = a₀.freeSet) := by
  obtain ⟨hfree, hc⟩ := FrameAlloc.init_spec hmap hinit
  have hs : FrameHeap.Refines a₀ s := hr.invariant_state _ (.start hc) fun hi hok hstep => hi.step hok hstep
  refine ⟨hs.counted, ?_, fun count hcount => ?_, hs.nodup, fun f hf => ⟨?_, ?_⟩, fun hnil => ?_⟩
  · rcases s.alloc.allocFrame_takes with ⟨hnone, ht⟩ | ⟨f, a', hsome, ht, -⟩
    · cases ht with
      | exhausted hno =>
        refine .inl ⟨hnone, Finset.eq_empty_of_forall_notMem fun f hf => hno f (FreeSet.isRun_one.mpr hf)⟩
    · generalize hset : a'.freeSet = S at ht
      cases ht with
      | lowest hleast =>
        refine .inr ⟨f, a', hsome, ⟨FreeSet.isRun_one.mp hleast.1, fun g hg => ?_⟩, ?_⟩
        · exact hleast.2 (FreeSet.isRun_one.mpr hg)
        · rw [hset]
          ext g
          simp only [Finset.mem_sdiff, Finset.mem_Ico, Finset.mem_erase]
          grind
  · rcases s.alloc.allocContiguous_takes hcount with ⟨hnone, ht⟩ | ⟨start, a', hsome, ht, -⟩
    · cases ht with
      | exhausted hno =>
        refine .inl ⟨hnone, hno, ?_⟩
        simp only [FrameHeap.step, hnone, Option.map_some]
    · generalize hset : a'.freeSet = S at ht
      cases ht with
      | lowest hleast => exact .inr ⟨start, a', hsome, hleast, hset⟩
  · obtain ⟨e, he, hu, hmem⟩ := (hfree f).mp (hs.live f hf)
    exact FrameAlloc.usable_of_mem hmap he hu hmem
  · exact fun hin => ((hs.free f).mp hin).2 hf
  · ext f
    rw [hs.free, hnil]
    simp

/-- Three frames from the second one on, and the one after them not usable. -/
def smallMap : List FrameAlloc.MemmapEntry :=
  [{ base := 4096, length := 3 * 4096, usable := true }, { base := 16384, length := 4096, usable := false }]

theorem smallMap_ok : FrameAlloc.MemoryMap smallMap where
  aligned := by decide
  apart := by decide

theorem smallMap_isSome : (FrameAlloc.init smallMap).isSome = true := by decide

/-- Two frames are allocated in a row and one alone, and the first is freed. -/
theorem frames_refine_small : ∃ h s, Runs FrameHeap.step FrameHeap.OnlyLive
    { alloc := (FrameAlloc.init smallMap).get smallMap_isSome, live := [] } h s ∧
    h = [some 4096, some 12288, none] ∧ s.live = [3, 2] ∧ s.alloc.freeFrames = s.alloc.freeSet.card := by
  obtain ⟨h, s, hr, hP⟩ := Runs.of_exec FrameHeap.step FrameHeap.OnlyLive
    { alloc := (FrameAlloc.init smallMap).get smallMap_isSome, live := [] } [.contiguous 2, .alloc]
    (fun h s => decide (h = [some 4096, some 12288] ∧ s.live = [3, 1, 2] ∧ s.alloc.freeFrames = 0)) (by decide)
  obtain ⟨rfl, hlive, hcount⟩ := of_decide_eq_true hP
  have hinit := (Option.some_get smallMap_isSome).symm
  have hnone : s.alloc.allocFrame = none := by
    obtain ⟨hcounted, hnone | ⟨f, -, -, hleast, -⟩, -⟩ := frames_refine_free_set smallMap_ok hinit hr
    · exact hnone.1
    · rw [hcount, eq_comm, Finset.card_eq_zero] at hcounted
      exact absurd (hcounted ▸ hleast.1) (Finset.notMem_empty f)
  have halloc : s.step .alloc = some ([none], s) := by rw [FrameHeap.step, hnone]
  have hfree : FrameHeap.OnlyLive ([some 4096, some 12288] ++ [none]) s (.free 4096) :=
    ⟨1, by rw [hlive]; decide, rfl⟩
  have hr := (hr.next (show FrameHeap.OnlyLive _ s .alloc from trivial) halloc).next hfree rfl
  exact ⟨_, _, hr, rfl, congrArg (·.erase 1) hlive, (frames_refine_free_set smallMap_ok hinit hr).1⟩

end ChodOs
