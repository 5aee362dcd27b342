/-
Physical memory as the page-table code uses it: frames, bytes and the two
globals of `paging/mod.rs`. Pointers into the direct map are physical
addresses here; the offset is added and taken away again in the source.

A call's footprint (`Within`) is built one primitive at a time: the frames
it has allocated so far are its own, and it writes nowhere else.
-/
import ChodOs.Lib.ByteMem
import ChodOs.Memory.FreeSet

namespace ChodOs

/-- An allocation or a write. The machine keeps them for statements about
what a call touches; no code reads them. -/
inductive MemEvent
  | alloc (phys : Nat)
  | write (addr len : Nat)
  deriving DecidableEq

structure Phys where
  frames : FrameAlloc
  bytes : ByteMem
  /-- `KERNEL_CR3`. -/
  kernelCr3 : Nat
  /-- `RO_CHANNEL_SLOT`. -/
  roSlot : Nat
  log : List MemEvent

namespace Phys

/-- The frames the allocator may hand out. -/
def free (m : Phys) : Finset Nat := m.frames.freeSet

/-- `alloc_frame`. `none`: out of memory (every caller here panics). -/
def alloc (m : Phys) : Option (Nat × Phys) := do
  let (phys, frames) ← m.frames.allocFrame
  some (phys, { m with frames, log := m.log ++ [.alloc phys] })

/-- `f 0`, `f 1` and so on, stored from `addr`. -/
def put (m : Phys) (addr len : Nat) (f : Nat → UInt8) : Phys :=
  { m with bytes := m.bytes.patch addr len f, log := m.log ++ [.write addr len] }

/-- `write_bytes(page, 0, 4096)`. -/
def zeroPage (m : Phys) (phys : Nat) : Phys := m.put phys pageSize fun _ => 0

/-- `copy_nonoverlapping` from a slice. -/
def copyIn (m : Phys) (data : List UInt8) (src dst len : Nat) : Phys :=
  m.put dst len fun i => data.getD (src + i) 0

/-- `copy_nonoverlapping` inside physical memory. -/
def copyPhys (m : Phys) (src dst len : Nat) : Phys := m.put dst len fun i => m.bytes (src + i)

/-- Entry `i` of the table at `t`. -/
def entry (m : Phys) (t i : Nat) : Nat := m.bytes.le (t + 8 * i) 8

def setEntry (m : Phys) (t i v : Nat) : Phys := m.put (t + 8 * i) 8 (ByteMem.leByte v)

/-- `alloc_table`. -/
def allocTable (m : Phys) : Option (Nat × Phys) := do
  let (t, m) ← m.alloc
  some (t, m.zeroPage t)

variable {m₀ m₁ m₂ m m' : Phys} {phys t f : Nat}

/-! ## The primitives -/

/-- An allocation takes the lowest free frame and touches no byte. -/
structure Allocs (m : Phys) (f : Nat) (m' : Phys) : Prop where
  mem : f ∈ m.free
  least : ∀ g ∈ m.free, f ≤ g
  free : m'.free = m.free.erase f
  bytes : m'.bytes = m.bytes
  kernelCr3 : m'.kernelCr3 = m.kernelCr3
  roSlot : m'.roSlot = m.roSlot
  log : m'.log = m.log ++ [.alloc (f * pageSize)]

theorem alloc_cases (h : m.alloc = some (phys, m')) : ∃ f, phys = f * pageSize ∧ m.Allocs f m' := by
  simp only [alloc, Option.bind_eq_bind, Option.bind_eq_some_iff, Option.some.injEq, Prod.mk.injEq] at h
  obtain ⟨⟨p, frames⟩, ha, rfl, rfl⟩ := h
  rcases m.frames.allocFrame_takes with ⟨hnone, -⟩ | ⟨f, a, hsome, ht, -⟩
  · rw [hnone] at ha; cases ha
  · rw [hsome] at ha
    cases ha
    generalize hset : frames.freeSet = S at ht
    cases ht with
    | lowest hleast =>
      refine ⟨f, rfl, FreeSet.isRun_one.mp hleast.1, fun g hg => hleast.2 (FreeSet.isRun_one.mpr hg), ?_, rfl, rfl, rfl,
        rfl⟩
      refine hset.trans ?_
      ext g
      simp only [Phys.free, Finset.mem_sdiff, Finset.mem_Ico, Finset.mem_erase]
      grind

@[simp] theorem put_free {addr len : Nat} {f : Nat → UInt8} : (m.put addr len f).free = m.free := rfl
@[simp] theorem put_kernelCr3 {addr len : Nat} {f : Nat → UInt8} : (m.put addr len f).kernelCr3 = m.kernelCr3 := rfl
@[simp] theorem put_roSlot {addr len : Nat} {f : Nat → UInt8} : (m.put addr len f).roSlot = m.roSlot := rfl

theorem put_outside {addr len x : Nat} {f : Nat → UInt8} (h : x < addr ∨ addr + len ≤ x) :
    (m.put addr len f).bytes x = m.bytes x := ByteMem.patch_outside h

theorem put_inside {addr len i : Nat} {f : Nat → UInt8} (h : i < len) : (m.put addr len f).bytes (addr + i) = f i :=
  ByteMem.patch_inside h

/-- What is stored in one frame leaves the others. -/
theorem put_frame {addr len x : Nat} {g : Nat → UInt8} (hin : ∀ x, addr ≤ x → x < addr + len → x / pageSize = f)
    (hx : x / pageSize ≠ f) : (m.put addr len g).bytes x = m.bytes x := by
  refine put_outside ?_
  by_contra hcon
  exact hx (hin x (by omega) (by omega))

theorem copyIn_frame {data : List UInt8} {src dst len x : Nat} (hin : ∀ x, dst ≤ x → x < dst + len → x / pageSize = f)
    (hx : x / pageSize ≠ f) : (m.copyIn data src dst len).bytes x = m.bytes x := put_frame hin hx

theorem Allocs.frame_lt (hal : m.Allocs f m') : f * pageSize < 2 ^ 64 := by
  have hmax := (FrameAlloc.mem_freeSet.mp hal.mem).1
  simp only [pageSize, maxFrames, bitmapWords] at *
  omega

/-- Clearing the frame that was handed out leaves the bytes of all others. -/
theorem Allocs.zeroPage_bytes {x : Nat} (hal : m.Allocs f m') (hx : x / pageSize ≠ f) :
    (m'.zeroPage (f * pageSize)).bytes x = m.bytes x := by
  refine (put_outside ?_).trans (congrFun hal.bytes x)
  simp only [pageSize] at *
  omega

/-! ## Entries -/

theorem entry_lt (m : Phys) (t i : Nat) : m.entry t i < 2 ^ 64 := m.bytes.le_lt _ 8

/-- An entry is made of bytes of its table's frame. -/
theorem entry_congr {i : Nat} (hi : i < 512) (ht : t % pageSize = 0)
    (h : ∀ x, x / pageSize = t / pageSize → m'.bytes x = m.bytes x) : m'.entry t i = m.entry t i := by
  refine ByteMem.le_congr fun x hx hx' => h x ?_
  simp only [pageSize] at *
  omega

theorem entry_setEntry_self {i v : Nat} (hv : v < 2 ^ 64) : (m.setEntry t i v).entry t i = v := ByteMem.le_patch hv

theorem entry_setEntry_other {t' i j v : Nat} (hi : i < 512) (hj : j < 512) (ht : t % pageSize = 0)
    (ht' : t' % pageSize = 0) (hne : ¬(t' = t ∧ j = i)) : (m.setEntry t i v).entry t' j = m.entry t' j := by
  refine ByteMem.le_patch_of_disjoint ?_
  simp only [pageSize] at ht ht'
  omega

theorem entry_zeroPage {i : Nat} (hi : i < 512) : (m.zeroPage t).entry t i = 0 := by
  refine ByteMem.le_zero fun x hx hx' => ?_
  obtain ⟨k, rfl⟩ : ∃ k, x = t + k := ⟨x - t, by omega⟩
  exact put_inside (by simp only [pageSize]; omega)

/-! ## Footprints -/

/-- Allocated since `m₀`. -/
def Owned (m₀ m : Phys) (f : Nat) : Prop := f ∈ m₀.free ∧ f ∉ m.free

theorem Allocs.owned (hal : m.Allocs f m') : Owned m m' f :=
  ⟨hal.mem, by rw [hal.free]; exact Finset.notMem_erase _ _⟩

/-- The frames allocated by a list of events. -/
def allocated (es : List MemEvent) : List Nat :=
  es.filterMap fun
    | .alloc phys => some (phys / pageSize)
    | .write _ _ => none

/-- Every write lies in frames of `S` or in frames allocated before it. -/
def WritesIn (S : Nat → Prop) : List MemEvent → Prop
  | [] => True
  | .alloc phys :: es => WritesIn (fun f => f = phys / pageSize ∨ S f) es
  | .write addr len :: es => (∀ x, addr ≤ x → x < addr + len → S (x / pageSize)) ∧ WritesIn S es

theorem WritesIn.mono {S S' : Nat → Prop} {es : List MemEvent} (h : WritesIn S es) (hS : ∀ f, S f → S' f) :
    WritesIn S' es := by
  induction es generalizing S S' with
  | nil => trivial
  | cons e es ih =>
    cases e with
    | alloc phys => exact @ih (fun f => f = phys / pageSize ∨ S f) _ h fun f hf => hf.imp_right (hS f)
    | write addr len => exact ⟨fun x hx hx' => hS _ (h.1 x hx hx'), ih h.2 hS⟩

theorem writesIn_append {S : Nat → Prop} {es es' : List MemEvent} :
    WritesIn S (es ++ es') ↔ WritesIn S es ∧ WritesIn (fun f => f ∈ allocated es ∨ S f) es' := by
  induction es generalizing S with
  | nil => simp [WritesIn, allocated]
  | cons e es ih =>
    cases e with
    | alloc phys =>
      rw [List.cons_append, WritesIn, WritesIn, ih]
      refine and_congr_right fun _ => ?_
      have hset : (fun f => f ∈ allocated es ∨ f = phys / pageSize ∨ S f) =
          fun f => f ∈ allocated (.alloc phys :: es) ∨ S f := by
        funext f
        rw [show allocated (.alloc phys :: es) = phys / pageSize :: allocated es from rfl, List.mem_cons]
        exact propext ⟨fun h => by tauto, fun h => by tauto⟩
      rw [hset]
    | write addr len =>
      rw [List.cons_append, WritesIn, WritesIn, ih, and_assoc]
      rfl

/-- From `m₀` to `m` frames are only allocated, lowest first, and written
are only those, those of `S`, and up to `k` frames past one of the former. -/
structure Within (k : Nat) (S : Nat → Prop) (m₀ m : Phys) : Prop where
  free : m.free ⊆ m₀.free
  low : ∀ {g f}, Owned m₀ m g → f ∈ m.free → g < f
  bytes : ∀ {x}, m.bytes x ≠ m₀.bytes x →
    S (x / pageSize) ∨ ∃ f, Owned m₀ m f ∧ f ≤ x / pageSize ∧ x / pageSize ≤ f + k
  kernelCr3 : m.kernelCr3 = m₀.kernelCr3
  roSlot : m.roSlot = m₀.roSlot
  log : ∃ es, m.log = m₀.log ++ es ∧ (∀ f, f ∈ allocated es ↔ Owned m₀ m f) ∧ (k = 0 → WritesIn S es)

namespace Within

variable {k : Nat} {S S' : Nat → Prop}

theorem refl (k : Nat) (S : Nat → Prop) (m : Phys) : Within k S m m where
  free := Finset.Subset.refl _
  low h := absurd h.1 h.2
  bytes h := absurd rfl h
  kernelCr3 := rfl
  roSlot := rfl
  log := ⟨[], (List.append_nil _).symm, fun _ => ⟨nofun, fun h => absurd h.1 h.2⟩, fun _ => trivial⟩

theorem owned_left (h' : Within k S m₁ m₂) (ho : Owned m₀ m₁ f) : Owned m₀ m₂ f :=
  ⟨ho.1, fun hf => ho.2 (h'.free hf)⟩

theorem owned_right (h : Within k S m₀ m₁) (ho : Owned m₁ m₂ f) : Owned m₀ m₂ f := ⟨h.free ho.1, ho.2⟩

theorem owned_cases (ho : Owned m₀ m₂ f) : Owned m₀ m₁ f ∨ Owned m₁ m₂ f := by
  by_cases hf : f ∈ m₁.free
  · exact .inr ⟨hf, ho.2⟩
  · exact .inl ⟨ho.1, hf⟩

/-- A call made inside another one, on frames that the outer one may write. -/
theorem trans {k' : Nat} (h : Within k S m₀ m₁) (h' : Within k' S' m₁ m₂) (hk : k' ≤ k)
    (hS : ∀ f, S' f → S f ∨ Owned m₀ m₁ f) : Within k S m₀ m₂ where
  free := h'.free.trans h.free
  low := by
    intro g f hg hf
    rcases owned_cases hg with hg | hg
    · exact h.low hg (h'.free hf)
    · exact h'.low hg hf
  bytes := by
    intro x hx
    by_cases hx' : m₂.bytes x = m₁.bytes x
    · rw [hx'] at hx
      rcases h.bytes hx with hs | ⟨f, hf, hle, hlt⟩
      · exact .inl hs
      · exact .inr ⟨f, h'.owned_left hf, hle, hlt⟩
    · rcases h'.bytes hx' with hs | ⟨f, hf, hle, hlt⟩
      · rcases hS _ hs with hs | ho
        · exact .inl hs
        · exact .inr ⟨_, h'.owned_left ho, Nat.le_refl _, Nat.le_add_right _ _⟩
      · exact .inr ⟨f, h.owned_right hf, hle, by omega⟩
  kernelCr3 := h'.kernelCr3.trans h.kernelCr3
  roSlot := h'.roSlot.trans h.roSlot
  log := by
    obtain ⟨es, hlog, hes, hw⟩ := h.log
    obtain ⟨es', hlog', hes', hw'⟩ := h'.log
    refine ⟨es ++ es', by rw [hlog', hlog, List.append_assoc], fun f => ?_, fun hk0 => ?_⟩
    · rw [allocated, List.filterMap_append, List.mem_append]
      refine ⟨fun hf => ?_, fun hf => ?_⟩
      · rcases hf with hf | hf
        · exact h'.owned_left ((hes f).mp hf)
        · exact h.owned_right ((hes' f).mp hf)
      · rcases owned_cases hf with hf | hf
        · exact .inl ((hes f).mpr hf)
        · exact .inr ((hes' f).mpr hf)
    · refine writesIn_append.mpr ⟨hw hk0, (hw' (by omega)).mono fun f hf => ?_⟩
      rcases hS f hf with hs | ho
      · exact .inr hs
      · exact .inl ((hes f).mpr ho)

theorem of_allocs (h : m.Allocs f m') : Within k S m m' where
  free := by rw [h.free]; exact Finset.erase_subset _ _
  low := by
    intro g f' hg hf'
    have hfree := h.free
    rw [Owned, hfree, Finset.mem_erase, not_and] at hg
    rw [hfree, Finset.mem_erase] at hf'
    obtain rfl : g = f := by
      by_contra hne
      exact hg.2 hne hg.1
    have := h.least f' hf'.2
    omega
  bytes := fun hx => absurd (by rw [h.bytes]) hx
  kernelCr3 := h.kernelCr3
  roSlot := h.roSlot
  log := by
    refine ⟨_, h.log, fun g => ?_, fun _ => trivial⟩
    have hdiv : f * pageSize / pageSize = f := Nat.mul_div_cancel f (by decide)
    rw [show allocated [.alloc (f * pageSize)] = [f * pageSize / pageSize] from rfl, hdiv, List.mem_singleton, Owned,
      h.free, Finset.mem_erase, not_and]
    constructor
    · intro h
      obtain rfl := h
      exact ⟨h.mem, fun hne _ => hne rfl⟩
    · intro hg
      by_contra hne
      exact hg.2 hne hg.1

theorem of_put {addr len : Nat} {f : Nat → UInt8} (hS : ∀ x, addr ≤ x → x < addr + len → S (x / pageSize)) :
    Within k S m (m.put addr len f) where
  free := Finset.Subset.refl _
  low h := absurd h.1 h.2
  bytes := by
    intro x hx
    by_cases hin : addr ≤ x ∧ x < addr + len
    · exact .inl (hS x hin.1 hin.2)
    · exact absurd (put_outside (by omega)) hx
  kernelCr3 := rfl
  roSlot := rfl
  log := ⟨[.write addr len], rfl, fun _ => ⟨nofun, fun h => absurd h.1 h.2⟩, fun _ => ⟨hS, trivial⟩⟩

/-- A write in the frames of the call itself. -/
theorem put (h : Within k S m₀ m) {addr len : Nat} {f : Nat → UInt8}
    (hin : ∀ x, addr ≤ x → x < addr + len → S (x / pageSize) ∨ Owned m₀ m (x / pageSize)) :
    Within k S m₀ (m.put addr len f) :=
  h.trans (of_put (k := 0) (S := fun g => S g ∨ Owned m₀ m g) hin) (Nat.zero_le _) fun _ hg => hg

/-- A write that begins in a frame of the call and may run over its end by `k` frames. -/
theorem putNear (h : Within k S m₀ m) {addr len : Nat} {f : Nat → UInt8} {g : Nat} (hg : Owned m₀ m g)
    (hin : ∀ x, addr ≤ x → x < addr + len → g ≤ x / pageSize ∧ x / pageSize ≤ g + k) :
    Within k S m₀ (m.put addr len f) where
  free := h.free
  low := h.low
  bytes := by
    intro x hx
    by_cases hin' : addr ≤ x ∧ x < addr + len
    · exact .inr ⟨g, hg, hin x hin'.1 hin'.2⟩
    · rw [put_outside (by omega)] at hx
      exact h.bytes hx
  kernelCr3 := h.kernelCr3
  roSlot := h.roSlot
  log := by
    obtain ⟨es, hlog, hes, hw⟩ := h.log
    refine ⟨es ++ [.write addr len], by rw [← List.append_assoc, ← hlog]; rfl, fun f => ?_, fun hk => ?_⟩
    · rw [allocated, List.filterMap_append, List.mem_append]
      exact ⟨fun hf => (hes f).mp (hf.resolve_right nofun), fun hf => .inl ((hes f).mpr hf)⟩
    · refine writesIn_append.mpr ⟨hw hk, fun x hx hx' => .inl ((hes _).mpr ?_), trivial⟩
      obtain ⟨hle, hlt⟩ := hin x hx hx'
      obtain rfl : x / pageSize = g := by omega
      exact hg

theorem allocs (h : Within k S m₀ m) (ha : m.Allocs f m') : Within k S m₀ m' :=
  h.trans (of_allocs (k := 0) (S := S) ha) (Nat.zero_le _) fun _ hg => .inl hg

/-- A new frame is filled. -/
theorem fill {g : Nat → UInt8} (h : Within k S m₀ m) (ha : m.Allocs f m') :
    Within k S m₀ (m'.put (f * pageSize) pageSize g) := by
  refine (h.allocs ha).put fun x hx hx' => .inr ?_
  obtain rfl : f = x / pageSize := by
    simp only [pageSize] at *
    omega
  exact ⟨h.free ha.mem, ha.owned.2⟩

/-- What is neither allocated nor in `S` keeps its bytes. -/
theorem bytes_eq (h : Within 0 S m₀ m) {x : Nat} (hS : ¬S (x / pageSize)) (ho : ¬Owned m₀ m (x / pageSize)) :
    m.bytes x = m₀.bytes x := by
  by_contra hx
  rcases h.bytes hx with hs | ⟨f, hf, hle, hlt⟩
  · exact hS hs
  · obtain rfl : f = x / pageSize := by omega
    exact ho hf

end Within

end Phys

end ChodOs
