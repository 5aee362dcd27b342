/-
Copying an address space for `fork` (`clone_user_space` in `paging/mod.rs`).
The four nested loops of the source are one loop over the entries of a
table, at four levels.

What carries the copy: the loops read frames that were in use before the
call and write frames the call has allocated, so the source never changes
under them; and every frame of the copy is tagged with its path, which
keeps the copies of different entries apart.
-/
import ChodOs.Paging.Load

namespace ChodOs

open Pt

namespace Phys

/-! ## The code -/

/-- One of the loops: the present entries of a table. -/
def forEntries (m : Phys) (src n : Nat) (body : Phys → Nat → Nat → Option Phys) : Option Phys :=
  (List.range n).foldlM
    (fun m i => if present (m.entry src i) then body m i (m.entry src i) else some m) m

/-- The body of the innermost loop: a page. -/
def clonePage (dst : Nat) (m : Phys) (i pte : Nat) : Option Phys := do
  let (dstPhys, m) ← m.alloc
  some ((m.copyPhys (addrOf pte) dstPhys pageSize).setEntry dst i (dstPhys ||| pte % pageSize))

/-- The body of the others: a new table is linked, then filled. -/
def cloneTable (fill : Phys → Nat → Nat → Option Phys) (dst : Nat) (m : Phys) (i e : Nat) : Option Phys := do
  let (t, m) ← m.allocTable
  fill (m.setEntry dst i (t ||| e % pageSize)) (addrOf e) t

/-- The loop over a table with `d` levels of tables under it: a page table
(0), a directory (1), whose huge pages are shared, or a directory pointer
table (2). -/
def cloneEntries : Nat → Phys → Nat → Nat → Option Phys
  | 0, m, src, dst => m.forEntries src 512 (clonePage dst)
  | d + 1, m, src, dst => m.forEntries src 512 fun m i e =>
    if d = 0 ∧ huge e = true then some (m.setEntry dst i e) else cloneTable (cloneEntries d) dst m i e

/-- `clone_user_space`. `none`: out of memory. -/
def cloneUserSpace (m : Phys) (srcCr3 : Nat) : Option (Nat × Phys) := do
  let (newPml4, m) ← m.allocUserPml4
  let m ← m.forEntries (addrOf srcCr3) 256 (cloneTable (cloneEntries 2) newPml4)
  some (newPml4, m)

/-! ## What is copied -/

/-- Paths of at most `d` indices. -/
def Slots (d : Nat) (q : List Nat) : Prop := q.length ≤ d ∧ ∀ i ∈ q, i < 512

/-- The tables and pages under an entry at level `d` were in use at the
start, and there are no huge pages among them. -/
structure Sound (m₀ : Phys) (d e : Nat) : Prop where
  used : ∀ {q v}, Slots d q → m₀.node (addrOf e) q = some v → v / pageSize ∉ m₀.free
  top : d = 1 → huge e = false
  small : ∀ {q i v}, q.length + 2 = d → (∀ j ∈ q, j < 512) → i < 512 → m₀.node (addrOf e) q = some v →
    present (m₀.entry v i) = true → huge (m₀.entry v i) = false

/-- The same flags, if there is an entry at all. -/
def SameFlags (e e' : Nat) : Prop := present e' = present e ∧ (present e = true → e' % pageSize = e % pageSize)

/-- `e'` is a copy of the entry `e`, down to the bytes of the pages. -/
def Mirror (m₀ m : Phys) : Nat → Nat → Nat → Prop
  | 0, e, e' => SameFlags e e' ∧
    (present e = true → ∀ o < pageSize, m.bytes (addrOf e' + o) = m₀.bytes (addrOf e + o))
  | d + 1, e, e' => SameFlags e e' ∧
    (present e = true → ∀ i < 512, Mirror m₀ m d (m₀.entry (addrOf e) i) (m.entry (addrOf e') i))

variable {m₀ m m' m₁ m₂ : Phys} {d e e' s t i n f : Nat} {q : List Nat} {lab : Nat → List Nat}

theorem node_cons (hp : present (m.entry t i) = true) : m.node t (i :: q) = m.node (addrOf (m.entry t i)) q := by
  rw [node, Radix.node, child, if_pos hp, Option.bind_some]
  rfl

theorem node_cons_absent (hp : present (m.entry t i) = false) : m.node t (i :: q) = none := by
  rw [node, Radix.node, child, if_neg (by rw [hp]; decide), Option.bind_none]

theorem Slots.cons (hi : i < 512) (hq : Slots d q) : Slots (d + 1) (i :: q) :=
  ⟨Nat.succ_le_succ hq.1, fun _ hj => (List.mem_cons.mp hj).elim (fun he => he ▸ hi) (hq.2 _)⟩

theorem Slots.tail (hq : Slots (d + 1) (i :: q)) : Slots d q :=
  ⟨Nat.le_of_succ_le_succ hq.1, fun j hj => hq.2 j (List.mem_cons_of_mem i hj)⟩

theorem slots_nil : Slots d [] := ⟨Nat.zero_le _, nofun⟩

theorem Sound.child (h : Sound m₀ (d + 1) e) (hi : i < 512) (hp : present (m₀.entry (addrOf e) i) = true) :
    Sound m₀ d (m₀.entry (addrOf e) i) where
  used hq hv := h.used (hq.cons hi) ((node_cons hp).trans hv)
  top hd := h.small (q := []) (by rw [hd]; rfl) nofun hi rfl hp
  small hq hj hi' hv := h.small (by rw [List.length_cons]; omega)
    (fun j hmem => (List.mem_cons.mp hmem).elim (fun he => he ▸ hi) (hj j)) hi' ((node_cons hp).trans hv)

/-- Nodes and entries under a table depend on its own frames only. -/
theorem node_of_bytes (ht : t % pageSize = 0)
    (h : ∀ {q v}, Slots d q → m.node t q = some v → ∀ x, x / pageSize = v / pageSize → m'.bytes x = m.bytes x)
    (hq : Slots (d + 1) q) : m'.node t q = m.node t q := by
  refine Radix.node_congr (I := Slots (d + 1)) (fun {p i} hp => ?_) (fun p i v hp hv => ?_) hq
  · exact ⟨by have := hp.1; rw [List.length_append] at this; omega,
      fun j hj => hp.2 j (List.mem_append.mpr (.inl hj))⟩
  · have hlen := hp.1
    rw [List.length_append, List.length_singleton] at hlen
    have hall := fun j hj => hp.2 j (List.mem_append.mpr (.inl hj))
    exact entry_congr (hp.2 i (List.mem_append.mpr (.inr (List.mem_singleton_self i)))) (node_aligned ht hv)
      (h ⟨by omega, hall⟩ hv)

theorem Mirror.flags (hM : Mirror m₀ m d e e') : SameFlags e e' := by
  cases d with
  | zero => exact hM.1
  | succ d => exact hM.1

/-- A copy stays one while its own frames keep their bytes. -/
theorem Mirror.congr (hM : Mirror m₀ m d e e')
    (h : present e' = true → ∀ {q v}, Slots d q → m.node (addrOf e') q = some v →
      ∀ x, x / pageSize = v / pageSize → m'.bytes x = m.bytes x) : Mirror m₀ m' d e e' := by
  induction d generalizing e e' with
  | zero =>
    refine ⟨hM.1, fun hp o ho => ?_⟩
    rw [← hM.2 hp o ho]
    refine h (hM.flags.1.trans hp) slots_nil rfl _ ?_
    simp only [addrOf, pageSize] at *
    omega
  | succ d ih =>
    refine ⟨hM.1, fun hp i hi => ?_⟩
    have hp' := hM.flags.1.trans hp
    have hentry : m'.entry (addrOf e') i = m.entry (addrOf e') i :=
      entry_congr hi (addrOf_mod _) (h hp' slots_nil rfl)
    rw [hentry]
    exact ih (hM.2 hp i hi) fun hc {q v} hq hv => h hp' (hq.cons hi) ((node_cons hc).trans hv)

/-! ## What the loops write -/

/-- Written are the entry `i` of the table `t` and frames allocated since. -/
structure Touches (m : Phys) (t i : Nat) (m' : Phys) : Prop where
  within : Within 0 (· = t / pageSize) m m'
  others : ∀ {j}, j < 512 → j ≠ i → m'.entry t j = m.entry t j

theorem touches_setEntry {v : Nat} (ht : t % pageSize = 0) (hi : i < 512) : Touches m t i (m.setEntry t i v) where
  within := by
    refine .of_put fun x hx hx' => ?_
    simp only [pageSize] at *
    omega
  others hj hji := entry_setEntry_other hi hj ht ht fun hcon => hji hcon.2

/-- The same after a new frame has been filled; it is not the table's. -/
theorem touches_new {addr v : Nat} {g : Nat → UInt8} (ht : t % pageSize = 0) (hused : t / pageSize ∉ m.free)
    (hi : i < 512) (hal : m.Allocs f m₁) (haddr : addr = f * pageSize) :
    Touches m t i ((m₁.put addr pageSize g).setEntry t i v) := by
  subst haddr
  have hne : t / pageSize ≠ f := fun hcon => hused (hcon ▸ hal.mem)
  have hset := touches_setEntry (m := m₁.put (f * pageSize) pageSize g) (v := v) ht hi
  refine ⟨((Within.refl 0 _ m).fill hal).trans hset.within (Nat.le_refl 0) fun _ hs => .inl hs,
    fun hj hji => (hset.others hj hji).trans ?_⟩
  refine entry_congr hj ht fun x hx => (put_outside ?_).trans (congrFun hal.bytes x)
  simp only [pageSize] at *
  omega

theorem clonePage_touches (ht : t % pageSize = 0) (hused : t / pageSize ∉ m.free) (hi : i < 512)
    (h : clonePage t m i e = some m') : Touches m t i m' := by
  simp only [clonePage, Option.bind_eq_bind, Option.bind_eq_some_iff, Option.some.injEq, Prod.exists] at h
  obtain ⟨phys, m₁, ha, rfl⟩ := h
  obtain ⟨f, hf, hal⟩ := alloc_cases ha
  exact touches_new ht hused hi hal hf

/-- A loop over a table writes that table and new frames. -/
def Confined (fill : Phys → Nat → Nat → Option Phys) : Prop :=
  ∀ m m' s t, t % pageSize = 0 → t / pageSize ∉ m.free → fill m s t = some m' → Within 0 (· = t / pageSize) m m'

theorem cloneTable_touches {fill : Phys → Nat → Nat → Option Phys} (hfill : Confined fill) (ht : t % pageSize = 0)
    (hused : t / pageSize ∉ m.free) (hi : i < 512) (h : cloneTable fill t m i e = some m') : Touches m t i m' := by
  simp only [cloneTable, allocTable, Option.bind_eq_bind, Option.bind_eq_some_iff, Option.some.injEq, Prod.exists,
    Prod.mk.injEq] at h
  obtain ⟨_, _, ⟨phys, m₁, ha, rfl, rfl⟩, h⟩ := h
  obtain ⟨f, rfl, hal⟩ := alloc_cases ha
  have hnew := touches_new (g := fun _ => 0) (v := f * pageSize ||| e % pageSize) ht hused hi hal rfl
  have hfdiv : f * pageSize / pageSize = f := Nat.mul_div_cancel _ (by decide)
  have hown : f ∈ m.free ∧ f ∉ m₁.free := hal.owned
  have hne : t / pageSize ≠ f := fun hcon => hused (hcon ▸ hal.mem)
  have hw := hfill _ _ _ _ (Nat.mul_mod_left _ _) (by rw [hfdiv]; exact hown.2) h
  refine ⟨hnew.within.trans hw (Nat.le_refl 0) fun g hg => .inr (by rw [hg, hfdiv]; exact hown), fun hj hji => ?_⟩
  -- Filling the new table leaves the one it hangs in.
  rw [← hnew.others hj hji]
  refine entry_congr hj ht fun x hx => hw.bytes_eq ?_ fun ho => hused (hx ▸ hnew.within.free ho.1)
  rw [hfdiv, hx]
  exact hne

theorem forEntries_touches {body : Phys → Nat → Nat → Option Phys} (hused : t / pageSize ∉ m.free)
    (hbody : ∀ {m m' i e}, t / pageSize ∉ m.free → i < n → body m i e = some m' → Touches m t i m')
    (h : m.forEntries s n body = some m') :
    Within 0 (· = t / pageSize) m m' ∧ ∀ {j}, n ≤ j → j < 512 → m'.entry t j = m.entry t j := by
  refine Loop.invariant_range (fun i m' => Within 0 (· = t / pageSize) m m' ∧
    ∀ {j}, i ≤ j → j < 512 → m'.entry t j = m.entry t j) h ⟨.refl _ _ _, fun _ _ => rfl⟩
    fun {i m₁ m₂} hi hI hstep => ?_
  split at hstep
  · have hT := hbody (fun hmem => hused (hI.1.free hmem)) hi hstep
    refine ⟨hI.1.trans hT.within (Nat.le_refl 0) fun _ hs => .inl hs, fun hj hj' => ?_⟩
    rw [hT.others hj' (by omega), hI.2 (by omega) hj']
  · cases hstep
    exact ⟨hI.1, fun hj hj' => hI.2 (by omega) hj'⟩

theorem cloneEntries_confined (d : Nat) : Confined (cloneEntries d) := by
  induction d with
  | zero => exact fun _ _ _ _ ht hused h => (forEntries_touches hused (fun hu hi hb => clonePage_touches ht hu hi hb) h).1
  | succ d ih =>
    intro m m' s t ht hused h
    refine (forEntries_touches hused (fun {m m' i e} hu hi hb => ?_) h).1
    split at hb
    · cases hb
      exact touches_setEntry ht hi
    · exact cloneTable_touches ih ht hu hi hb

/-! ## What the loops make -/

/-- Between two steps of the copy into the table `t`: the frames that were
in use at the start are as they were, and `t` is not one of them. -/
structure Ready (m₀ m : Phys) (t : Nat) : Prop where
  source : ∀ {x}, x / pageSize ∉ m₀.free → m.bytes x = m₀.bytes x
  free : m.free ⊆ m₀.free
  fresh : Owned m₀ m (t / pageSize)
  aligned : t % pageSize = 0

theorem Ready.within {u : Nat} (hR : Ready m₀ m t) (hw : Within 0 (· = t / pageSize) m m') (hu : Owned m₀ m' (u / pageSize))
    (hal : u % pageSize = 0) : Ready m₀ m' u where
  source := by
    intro x hx
    rw [hw.bytes_eq (fun he => hx (he ▸ hR.fresh.1)) (fun ho => hx (hR.free ho.1)), hR.source hx]
  free := hw.free.trans hR.free
  fresh := hu
  aligned := hal

theorem Ready.next (hR : Ready m₀ m t) (hw : Within 0 (· = t / pageSize) m m') : Ready m₀ m' t :=
  hR.within hw (hw.owned_left hR.fresh) hR.aligned

/-- The entry `i` of `t` has become a copy of `e`, in frames allocated since. -/
structure EntryCopied (m₀ : Phys) (d : Nat) (m : Phys) (t i e : Nat) (m' : Phys) (lab : Nat → List Nat) : Prop where
  touches : Touches m t i m'
  mirror : Mirror m₀ m' d e (m'.entry t i)
  tags : present (m'.entry t i) = true → ∀ {q v}, Slots d q → m'.node (addrOf (m'.entry t i)) q = some v →
    Owned m m' (v / pageSize) ∧ lab (v / pageSize) = q

/-- The first `n` entries of `t` have become copies of those of `s`; a
frame's tag is its path from `t`. -/
structure TableCopied (m₀ : Phys) (d : Nat) (m : Phys) (s t n : Nat) (m' : Phys) (lab : Nat → List Nat) : Prop where
  within : Within 0 (· = t / pageSize) m m'
  rest : ∀ {j}, n ≤ j → j < 512 → m'.entry t j = m.entry t j
  mirror : ∀ {i}, i < n → Mirror m₀ m' d (m₀.entry s i) (m'.entry t i)
  tags : ∀ {i}, i < n → present (m'.entry t i) = true → ∀ {q v}, Slots d q →
    m'.node (addrOf (m'.entry t i)) q = some v → Owned m m' (v / pageSize) ∧ lab (v / pageSize) = i :: q

/-- A further entry: the copies made before are in frames of their own. -/
theorem TableCopied.step (lab' : Nat → List Nat) (h : TableCopied m₀ d m s t n m₁ lab)
    (hused : t / pageSize ∉ m.free) (hn : n < 512) (he : EntryCopied m₀ d m₁ t n (m₀.entry s n) m₂ lab') :
    ∃ lab, TableCopied m₀ d m s t (n + 1) m₂ lab := by
  classical
  have hkeep : ∀ {i}, i < n → present (m₁.entry t i) = true → ∀ {q v}, Slots d q →
      m₁.node (addrOf (m₁.entry t i)) q = some v → ∀ x, x / pageSize = v / pageSize → m₂.bytes x = m₁.bytes x := by
    intro i hi hp q v hq hv x hx
    have hown := (h.tags hi hp hq hv).1
    rw [← hx] at hown
    refine he.touches.within.bytes_eq (fun hs => hused (hs ▸ hown.1)) fun ho => hown.2 ho.1
  refine ⟨fun f => if Owned m₁ m₂ f then n :: lab' f else lab f, ?_, fun hj hj' => ?_, fun {i} hi => ?_,
    fun {i} hi hp {q v} hq hv => ?_⟩
  · exact h.within.trans he.touches.within (Nat.le_refl 0) fun f hf => .inl hf
  · rw [he.touches.others hj' (by omega), h.rest (by omega) hj']
  · rcases Nat.lt_succ_iff_lt_or_eq.mp hi with hlt | rfl
    · rw [he.touches.others (by omega) (by omega)]
      exact (h.mirror hlt).congr (hkeep hlt)
    · exact he.mirror
  · rcases Nat.lt_succ_iff_lt_or_eq.mp hi with hlt | rfl
    · rw [he.touches.others (by omega) (by omega)] at hp hv
      have hsame : m₂.node (addrOf (m₁.entry t i)) q = m₁.node (addrOf (m₁.entry t i)) q :=
        node_of_bytes (addrOf_mod (m₁.entry t i)) (d := d) (fun hq hv => hkeep hlt hp hq hv) ⟨Nat.le_succ_of_le hq.1, hq.2⟩
      rw [hsame] at hv
      obtain ⟨hown, hlab⟩ := h.tags hlt hp hq hv
      refine ⟨he.touches.within.owned_left hown, ?_⟩
      rw [if_neg fun ho => hown.2 ho.1, hlab]
    · obtain ⟨hown, hlab⟩ := he.tags hp hq hv
      exact ⟨h.within.owned_right hown, by rw [if_pos hown, hlab]⟩

/-- What a body has to do for each present entry. -/
def Copies (m₀ : Phys) (d s t n : Nat) (body : Phys → Nat → Nat → Option Phys) : Prop :=
  ∀ m m' i, Ready m₀ m t → i < n → present (m₀.entry s i) = true → body m i (m₀.entry s i) = some m' →
    ∃ lab, EntryCopied m₀ d m t i (m₀.entry s i) m' lab

theorem forEntries_spec {body : Phys → Nat → Nat → Option Phys} (hbody : Copies m₀ d s t n body)
    (hR : Ready m₀ m t) (hs : s % pageSize = 0) (hsused : s / pageSize ∉ m₀.free) (hn : n ≤ 512)
    (hzero : ∀ {i}, i < n → m.entry t i = 0) (h : m.forEntries s n body = some m') :
    ∃ lab, TableCopied m₀ d m s t n m' lab := by
  refine Loop.invariant_range (fun i m' => ∃ lab, TableCopied m₀ d m s t i m' lab) h
    ⟨fun _ => [], .refl _ _ _, fun _ _ => rfl, fun hi => absurd hi (Nat.not_lt_zero _),
      fun hi => absurd hi (Nat.not_lt_zero _)⟩ fun {i m₁ m₂} hi hI hstep => ?_
  obtain ⟨lab, hI⟩ := hI
  have hR₁ := hR.next hI.within
  have hsrc : m₁.entry s i = m₀.entry s i :=
    entry_congr (by omega) hs fun x hx => hR₁.source (hx.symm ▸ hsused)
  rw [hsrc] at hstep
  split at hstep
  · next hp =>
    obtain ⟨lab', he⟩ := hbody _ _ _ hR₁ hi hp hstep
    exact hI.step lab' hR.fresh.2 (by omega) he
  · next hp =>
    -- An absent entry stays a zero.
    cases hstep
    have hz : m₁.entry t i = 0 := (hI.rest (Nat.le_refl i) (by omega)).trans (hzero hi)
    have hp0 : present (m₁.entry t i) = false := by rw [hz]; rfl
    have hflags : SameFlags (m₀.entry s i) (m₁.entry t i) :=
      ⟨by rw [hp0, Bool.eq_false_iff.mpr hp], fun hcon => absurd hcon hp⟩
    refine hI.step (fun _ => []) hR.fresh.2 (by omega)
      ⟨⟨.refl _ _ _, fun _ _ => rfl⟩, ?_, fun hcon => absurd (hp0.symm.trans hcon) (by decide)⟩
    cases d with
    | zero => exact ⟨hflags, fun hcon => absurd hcon hp⟩
    | succ d => exact ⟨hflags, fun hcon => absurd hcon hp⟩

/-- A new frame under the flags of the entry it stands for. -/
theorem cloneEntry (hf : f ∈ m.free) : f * pageSize ||| e % pageSize < 2 ^ 64 ∧
    SameFlags e (f * pageSize ||| e % pageSize) ∧ addrOf (f * pageSize ||| e % pageSize) = f * pageSize := by
  have hmax := (FrameAlloc.mem_freeSet.mp hf).1
  have hal : f * pageSize % pageSize = 0 := Nat.mul_mod_left _ _
  have hlow : e % pageSize < pageSize := Nat.mod_lt _ (by decide)
  refine ⟨?_, ⟨?_, fun _ => ?_⟩, addrOf_lor hal hlow⟩
  · rw [lor_flags hal hlow]
    simp only [pageSize, maxFrames, bitmapWords] at *
    omega
  · have hodd : (f * pageSize + e % pageSize) % 2 = e % 2 := by
      simp only [pageSize]
      omega
    rw [lor_flags hal hlow, present, present, hodd]
  · rw [lor_flags hal hlow]
    simp only [pageSize]
    omega

theorem clonePage_spec (hR : Ready m₀ m t) (hi : i < 512) (he : Sound m₀ 0 e) (h : clonePage t m i e = some m') :
    ∃ lab, EntryCopied m₀ 0 m t i e m' lab := by
  have htouches := clonePage_touches hR.aligned hR.fresh.2 hi h
  simp only [clonePage, Option.bind_eq_bind, Option.bind_eq_some_iff, Option.some.injEq, Prod.exists] at h
  obtain ⟨phys, m₁, ha, rfl⟩ := h
  obtain ⟨f, rfl, hal⟩ := alloc_cases ha
  obtain ⟨hlt, hflags, haddr⟩ := cloneEntry (e := e) hal.mem
  have hne : t / pageSize ≠ f := fun hcon => hR.fresh.2 (hcon ▸ hal.mem)
  have htal := hR.aligned
  have hown : Owned m m₁ f := hal.owned
  generalize hv : f * pageSize ||| e % pageSize = v at htouches hlt hflags haddr
  have hself : ((m₁.copyPhys (addrOf e) (f * pageSize) pageSize).setEntry t i v).entry t i = v :=
    entry_setEntry_self hlt
  -- The page's bytes are copied before the entry is stored, elsewhere.
  have hbytes : ∀ o < pageSize, ((m₁.copyPhys (addrOf e) (f * pageSize) pageSize).setEntry t i v).bytes
      (f * pageSize + o) = m.bytes (addrOf e + o) := by
    intro o ho
    have hcopy : (m₁.copyPhys (addrOf e) (f * pageSize) pageSize).bytes (f * pageSize + o) =
        m₁.bytes (addrOf e + o) := put_inside ho
    rw [← hal.bytes, ← hcopy]
    refine put_outside ?_
    simp only [pageSize] at *
    omega
  refine ⟨fun _ => [], htouches, ?_, fun _ {q u} hq hu => ?_⟩
  · rw [hself]
    refine ⟨hflags, fun _ o ho => ?_⟩
    rw [haddr, hbytes o ho]
    refine hR.source ?_
    rw [show (addrOf e + o) / pageSize = addrOf e / pageSize by simp only [addrOf, pageSize] at *; omega]
    exact he.used slots_nil rfl
  · rw [hself, haddr] at hu
    obtain rfl : q = [] := List.length_eq_zero_iff.mp (Nat.le_zero.mp hq.1)
    cases hu
    rw [Nat.mul_div_cancel _ (by decide)]
    exact ⟨hown, rfl⟩

/-- What filling a new table means. -/
def Fills (m₀ : Phys) (d : Nat) (fill : Phys → Nat → Nat → Option Phys) : Prop :=
  ∀ m m' e t, Ready m₀ m t → present e = true → Sound m₀ (d + 1) e → (∀ i < 512, m.entry t i = 0) →
    fill m (addrOf e) t = some m' → ∃ lab, TableCopied m₀ d m (addrOf e) t 512 m' lab

theorem cloneTable_spec {fill : Phys → Nat → Nat → Option Phys} (hconf : Confined fill) (hfill : Fills m₀ d fill) (hR : Ready m₀ m t)
    (hi : i < 512) (hp : present e = true) (he : Sound m₀ (d + 1) e) (h : cloneTable fill t m i e = some m') :
    ∃ lab, EntryCopied m₀ (d + 1) m t i e m' lab := by
  classical
  have htouches := cloneTable_touches hconf hR.aligned hR.fresh.2 hi h
  simp only [cloneTable, allocTable, Option.bind_eq_bind, Option.bind_eq_some_iff, Option.some.injEq, Prod.exists,
    Prod.mk.injEq] at h
  obtain ⟨_, _, ⟨phys, m₁, ha, rfl, rfl⟩, h⟩ := h
  obtain ⟨f, rfl, hal⟩ := alloc_cases ha
  obtain ⟨hlt, hflags, haddr⟩ := cloneEntry (e := e) hal.mem
  have hne : t / pageSize ≠ f := fun hcon => hR.fresh.2 (hcon ▸ hal.mem)
  have htal := hR.aligned
  have hfal : f * pageSize % pageSize = 0 := Nat.mul_mod_left _ _
  have hfdiv : f * pageSize / pageSize = f := Nat.mul_div_cancel _ (by decide)
  generalize hv : f * pageSize ||| e % pageSize = v at h hlt hflags haddr
  have hnew : Touches m t i ((m₁.zeroPage (f * pageSize)).setEntry t i v) := touches_new htal hR.fresh.2 hi hal rfl
  have hown₂ : Owned m ((m₁.zeroPage (f * pageSize)).setEntry t i v) f := by
    refine ⟨hal.mem, ?_⟩
    change f ∉ m₁.free
    rw [hal.free]
    exact Finset.notMem_erase _ _
  have hself : ((m₁.zeroPage (f * pageSize)).setEntry t i v).entry t i = v := entry_setEntry_self hlt
  have hzero : ∀ j < 512, ((m₁.zeroPage (f * pageSize)).setEntry t i v).entry (f * pageSize) j = 0 := by
    intro j hj
    rw [entry_setEntry_other hi hj htal hfal fun hcon => hne (by rw [← hcon.1, hfdiv]), entry_zeroPage hj]
  generalize (m₁.zeroPage (f * pageSize)).setEntry t i v = m₂ at h hnew hown₂ hself hzero
  have hR₂ : Ready m₀ m₂ (f * pageSize) :=
    hR.within hnew.within (by rw [hfdiv]; exact ⟨hR.free hal.mem, hown₂.2⟩) hfal
  obtain ⟨lab, hT⟩ := hfill _ _ _ _ hR₂ hp he hzero h
  have hentry : m'.entry t i = v := by
    rw [← hself]
    refine entry_congr hi htal fun x hx => hT.within.bytes_eq ?_ fun ho => hR.fresh.2 (hx ▸ hnew.within.free ho.1)
    rw [hfdiv, hx]
    exact hne
  refine ⟨fun g => if g = f then [] else lab g, htouches, ?_, fun _ {q u} hq hu => ?_⟩
  · rw [hentry]
    refine ⟨hflags, fun _ j hj => ?_⟩
    rw [haddr]
    exact hT.mirror hj
  · rw [hentry, haddr] at hu
    cases q with
    | nil =>
      cases hu
      rw [hfdiv]
      exact ⟨hT.within.owned_left hown₂, if_pos rfl⟩
    | cons j q =>
      have hj := hq.2 j List.mem_cons_self
      have hpj : present (m'.entry (f * pageSize) j) = true := by
        by_contra hcon
        rw [node_cons_absent (Bool.eq_false_iff.mpr hcon)] at hu
        cases hu
      obtain ⟨ho, hlab⟩ := hT.tags hj hpj hq.tail ((node_cons hpj).symm.trans hu)
      have hnot : ¬u / pageSize = f := fun hcon => hown₂.2 (hcon ▸ ho.1)
      refine ⟨hnew.within.owned_right ho, ?_⟩
      rw [if_neg hnot, hlab]

theorem cloneEntries_spec (m₀ : Phys) (d : Nat) : Fills m₀ d (cloneEntries d) := by
  induction d with
  | zero =>
    intro m m' e t hR hp he hzero h
    refine forEntries_spec (fun _ _ _ hR hi hp' hbody => clonePage_spec hR hi (he.child hi hp') hbody) hR (addrOf_mod e)
      (he.used slots_nil rfl) (Nat.le_refl _) (fun hi => hzero _ hi) h
  | succ d ih =>
    intro m m' e t hR hp he hzero h
    refine forEntries_spec (fun m m' i hR hi hp' hbody => ?_) hR (addrOf_mod e) (he.used slots_nil rfl)
      (Nat.le_refl _) (fun hi => hzero _ hi) h
    have hchild := he.child hi hp'
    split at hbody
    · next hhuge =>
      rw [hchild.top (by omega)] at hhuge
      exact absurd hhuge.2 (by decide)
    · exact cloneTable_spec (cloneEntries_confined d) ih hR hi hp' hchild hbody

/-! ## The new space -/

/-- The nodes of a copy are those of what was copied. -/
theorem Mirror.node (hM : Mirror m₀ m (d + 1) e e') (hp : present e = true) (hq : Slots d q) :
    (m₀.node (addrOf e) q = none ∧ m.node (addrOf e') q = none) ∨
      ∃ v v', m₀.node (addrOf e) q = some v ∧ m.node (addrOf e') q = some v' ∧
        ∀ i < 512, Mirror m₀ m (d - q.length) (m₀.entry v i) (m.entry v' i) := by
  induction q generalizing d e e' with
  | nil => exact .inr ⟨_, _, rfl, rfl, hM.2 hp⟩
  | cons i q ih =>
    cases d with
    | zero => exact absurd hq.1 (Nat.not_succ_le_zero _)
    | succ d =>
      have hi := hM.2 hp i (hq.2 i List.mem_cons_self)
      cases hpi : present (m₀.entry (addrOf e) i) with
      | false => exact .inl ⟨node_cons_absent hpi, node_cons_absent (hi.flags.1.trans hpi)⟩
      | true =>
        rw [node_cons hpi, node_cons (hi.flags.1.trans hpi), List.length_cons, Nat.add_sub_add_right]
        exact ih hi hpi hq.tail

theorem SameFlags.huge (h : SameFlags e e') (hp : present e = true) : Pt.huge e' = Pt.huge e := by
  have hlow := h.2 hp
  have hbit : e' / 128 % 2 = e / 128 % 2 := by
    simp only [pageSize] at hlow
    omega
  rw [Pt.huge, Pt.huge, hbit]

theorem node_page {root va : Nat} (h : m.pte root va = some e) :
    m.node root (pathOf va ++ [idx 12 va]) = some (addrOf e) := by
  simp only [pte, Option.bind_eq_bind, Option.bind_eq_some_iff] at h
  obtain ⟨v, hv, he⟩ := h
  split at he
  · next hp =>
    cases he
    rw [Phys.node, Radix.node_snoc, show Radix.node child m.entry root (pathOf va) = some v from hv,
      Option.bind_some, child, if_pos hp]
  · cases he

/-- The frames of the pages of the user half. -/
def pages (m : Phys) (root f : Nat) : Prop := ∃ va e, userHalf (idx 39 va) ∧ m.pte root va = some e ∧ f = e / pageSize

/-- The frames of the user half, tables and pages. -/
def Reaches (m : Phys) (root f : Nat) : Prop := tables userHalf m root f ∨ pages m root f

theorem exists_va {a b c j : Nat} (ha : a < 512) (hb : b < 512) (hc : c < 512) (hj : j < 512) :
    ∃ va, pathOf va = [a, b, c] ∧ idx 12 va = j ∧ idx 39 va = a := by
  refine ⟨a * 2 ^ 39 + b * 2 ^ 30 + c * 2 ^ 21 + j * 2 ^ 12, ?_⟩
  simp only [pathOf, idx, List.cons.injEq, and_true]
  omega

theorem path_cons (hi : i < 256) (hq : Slots 2 q) : Path userHalf (i :: q) :=
  ⟨Nat.succ_le_succ hq.1, fun _ hj => (List.mem_cons.mp hj).elim (fun he => by rw [he]; omega) (hq.2 _),
    fun j hj => by cases hj; exact hi⟩

theorem slots_of_path {root : Nat} (h : Path userHalf (root :: q)) : root < 256 ∧ Slots 2 q :=
  ⟨h.2.2 root rfl, Nat.le_of_succ_le_succ h.1, fun j hj => h.2.1 j (List.mem_cons_of_mem _ hj)⟩

/-- A well-formed space can be copied. -/
theorem sound_of_pageTree (hT : PageTree userHalf (pages m₀ s) m₀ s) (hi : i < 256)
    (hp : present (m₀.entry s i) = true) : Sound m₀ 3 (m₀.entry s i) where
  used := by
    intro q v hq hv
    rw [← node_cons hp] at hv
    rcases Nat.lt_or_ge q.length 3 with hlt | hge
    · exact (hT.used ⟨_, _, path_cons hi ⟨Nat.le_of_lt_succ hlt, hq.2⟩, hv, rfl⟩).1
    · -- The last index is that of a page.
      obtain ⟨a, b, c, rfl⟩ := List.length_eq_three.mp (Nat.le_antisymm hq.1 hge)
      have hlt : ∀ j ∈ [a, b, c], j < 512 := hq.2
      simp only [List.mem_cons, List.not_mem_nil, or_false, forall_eq_or_imp, forall_eq] at hlt
      obtain ⟨ha, hb, hc⟩ := hlt
      obtain ⟨va, hpath, hidx, htop⟩ := exists_va (Nat.lt_trans hi (by decide)) ha hb hc
      refine hT.data ⟨va, ?_⟩
      rw [show [i, a, b, c] = [i, a, b] ++ [c] from rfl, node, Radix.node_snoc, Option.bind_eq_some_iff] at hv
      obtain ⟨pt, hpt, hchild⟩ := hv
      unfold child at hchild
      split at hchild
      · next hpc =>
        cases hchild
        refine ⟨m₀.entry pt c, by rw [userHalf, htop]; exact hi, ?_, addrOf_div _⟩
        rw [pte, hpath, hidx, show m₀.node s [i, a, b] = some pt from hpt, Option.bind_eq_bind, Option.bind_some,
          if_pos hpc]
      · cases hchild
  top := nofun
  small := by
    intro q j v hq hall hj hv hpj
    rw [← node_cons hp] at hv
    have hlen : q.length = 1 := by omega
    refine hT.small (p := i :: q) ?_ (List.cons_ne_nil _ _) hv hpj
    exact path_cons (q := q ++ [j]) hi ⟨by rw [List.length_append, hlen]; exact Nat.le_refl 2, fun k hk =>
      (List.mem_append.mp hk).elim (hall k) fun he => (List.mem_singleton.mp he) ▸ hj⟩

/-- The copy under a new root, with the state `m₁` after the root was made. -/
structure Cloned (m₀ : Phys) (s t : Nat) (m₁ m' : Phys) (lab : Nat → List Nat) : Prop where
  root : Loading 0 m₀ t (fun _ => False) m₁
  table : TableCopied m₀ 3 m₁ s t 256 m' lab

theorem cloneUserSpace_spec {srcCr3 new : Nat} (hT : PageTree userHalf (pages m₀ (addrOf srcCr3)) m₀ (addrOf srcCr3))
    (h : m₀.cloneUserSpace srcCr3 = some (new, m')) : ∃ m₁ lab, Cloned m₀ (addrOf srcCr3) new m₁ m' lab := by
  simp only [cloneUserSpace, Option.bind_eq_bind, Option.bind_eq_some_iff, Option.some.injEq, Prod.exists,
    Prod.mk.injEq] at h
  obtain ⟨new, m₁, hroot, m', h, rfl, rfl⟩ := h
  have hL := Loading.start (k := 0) hroot
  have hown : Owned m₀ m₁ (new / pageSize) := hL.own ⟨[], new, path_nil, rfl, rfl⟩
  have hR : Ready m₀ m₁ new :=
    ⟨fun {x} hx => hL.within.bytes_eq not_false fun ho => hx ho.1, hL.within.free, hown, hL.tree.aligned⟩
  have hbody : Copies m₀ 3 (addrOf srcCr3) new 256 (cloneTable (cloneEntries 2) new) := fun _ _ _ hR hi hp hb =>
    cloneTable_spec (cloneEntries_confined 2) (cloneEntries_spec m₀ 2) hR (Nat.lt_trans hi (by decide)) hp
      (sound_of_pageTree hT hi hp) hb
  obtain ⟨lab, hC⟩ := forEntries_spec hbody hR (addrOf_mod srcCr3) (hT.used ⟨[], _, path_nil, rfl, rfl⟩).1 (by decide)
    (fun hi => allocUserPml4_entry hroot hi) h
  exact ⟨m₁, lab, hL, hC⟩

namespace Cloned

variable {v : Nat} (h : Cloned m₀ s t m₁ m' lab)

include h

/-- The tables of the copy are those of the source. -/
theorem nodes (hi : i < 256) (hq : Slots 2 q) :
    (m₀.node s (i :: q) = none ∧ m'.node t (i :: q) = none) ∨
      ∃ v v', m₀.node s (i :: q) = some v ∧ m'.node t (i :: q) = some v' ∧
        ∀ j < 512, Mirror m₀ m' (2 - q.length) (m₀.entry v j) (m'.entry v' j) := by
  have hM := h.table.mirror hi
  cases hp : present (m₀.entry s i) with
  | false => exact .inl ⟨node_cons_absent hp, node_cons_absent (hM.flags.1.trans hp)⟩
  | true =>
    rw [node_cons hp, node_cons (hM.flags.1.trans hp)]
    exact hM.node hp hq

/-- Its frames are new, and each has its path for a tag. -/
theorem tag (hi : i < 256) (hq : Slots 3 q) (hv : m'.node t (i :: q) = some v) :
    Owned m₁ m' (v / pageSize) ∧ lab (v / pageSize) = i :: q := by
  have hp : present (m'.entry t i) = true := by
    by_contra hcon
    rw [node_cons_absent (Bool.eq_false_iff.mpr hcon)] at hv
    cases hv
  exact h.table.tags hi hp hq ((node_cons hp).symm.trans hv)

theorem tag_page {va e : Nat} (hva : userHalf (idx 39 va)) (he : m'.pte t va = some e) :
    Owned m₁ m' (e / pageSize) ∧ lab (e / pageSize) = pathOf va ++ [idx 12 va] := by
  have htag := h.tag (i := idx 39 va) (q := [idx 30 va, idx 21 va, idx 12 va]) hva ⟨Nat.le_refl 3, fun j hj => ?_⟩
    (node_page he)
  · rw [addrOf_div] at htag
    exact htag
  · simp only [List.mem_cons, List.not_mem_nil, or_false] at hj
    rcases hj with rfl | rfl | rfl <;> exact idx_lt _ _

theorem root_owned : Owned m₀ m₁ (t / pageSize) := h.root.own ⟨[], t, path_nil, rfl, rfl⟩

/-- A page of the source, and its copy. -/
theorem page {va : Nat} (hva : userHalf (idx 39 va)) :
    (m₀.pte s va = none ∧ m'.pte t va = none) ∨ ∃ e e', m₀.pte s va = some e ∧ m'.pte t va = some e' ∧
      e' % pageSize = e % pageSize ∧ ∀ o < pageSize, m'.bytes (addrOf e' + o) = m₀.bytes (addrOf e + o) := by
  have hq : Slots 2 [idx 30 va, idx 21 va] := (slots_of_path (path_pathOf hva)).2
  simp only [pte, pathOf, Option.bind_eq_bind]
  rcases h.nodes hva hq with ⟨hs, ht⟩ | ⟨v, v', hs, ht, hM⟩
  · exact .inl ⟨by rw [hs, Option.bind_none], by rw [ht, Option.bind_none]⟩
  · have hleaf : Mirror m₀ m' 0 (m₀.entry v (idx 12 va)) (m'.entry v' (idx 12 va)) := hM _ (idx_lt 12 va)
    rw [hs, ht, Option.bind_some, Option.bind_some, hleaf.1.1]
    cases hp : present (m₀.entry v (idx 12 va)) with
    | false => exact .inl ⟨rfl, rfl⟩
    | true => exact .inr ⟨_, _, rfl, rfl, hleaf.1.2 hp, hleaf.2 hp⟩

theorem within : Within 0 (fun _ => False) m₀ m' :=
  h.root.within.trans h.table.within (Nat.le_refl 0) fun _ hf => .inr (hf ▸ h.root_owned)

/-- Its frames were free. -/
theorem fresh (hf : Reaches m' t f) : f ∈ m₀.free := by
  rcases hf with ⟨q, v, hq, hv, rfl⟩ | ⟨va, e, hva, he, rfl⟩
  · cases q with
    | nil =>
      cases hv
      exact h.root_owned.1
    | cons i q =>
      obtain ⟨hi, hq⟩ := slots_of_path hq
      exact h.root.within.free (h.tag hi ⟨Nat.le_succ_of_le hq.1, hq.2⟩ hv).1.1
  · exact h.root.within.free (h.tag_page hva he).1.1

/-- Its pages are in frames of their own. -/
theorem distinct {va va' e e' : Nat} (hva : userHalf (idx 39 va)) (hva' : userHalf (idx 39 va'))
    (he : m'.pte t va = some e) (he' : m'.pte t va' = some e') (hf : e / pageSize = e' / pageSize) :
    pageOf va = pageOf va' := by
  have htag := (h.tag_page hva he).2.symm.trans ((hf ▸ rfl : _ = lab _).trans (h.tag_page hva' he').2)
  have hsplit := List.append_inj' htag rfl
  exact (pageOf_eq_iff.mpr ⟨hsplit.1.symm, (List.singleton_inj.mp hsplit.2).symm⟩).symm

theorem kernelHalf (hk : addrOf m₀.kernelCr3 / pageSize ∉ m₀.free) (hi : 256 ≤ i) (hi' : i < 512) :
    m'.entry t i = m₀.entry (addrOf m₀.kernelCr3) i := by
  rw [h.table.rest hi hi', h.root.kernelHalf hk hi hi']

/-- The new space is well-formed. -/
theorem tree (hT : PageTree userHalf (pages m₀ s) m₀ s) : PageTree userHalf (pages m' t) m' t where
  aligned := h.root.tree.aligned
  tree := by
    intro p q v hp hq hpv hqv
    cases p with
    | nil =>
      cases hpv
      cases q with
      | nil => rfl
      | cons j q =>
        obtain ⟨hj, hq⟩ := slots_of_path hq
        exact absurd (h.tag hj ⟨Nat.le_succ_of_le hq.1, hq.2⟩ hqv).1.1 h.root_owned.2
    | cons i p =>
      obtain ⟨hi, hp⟩ := slots_of_path hp
      have hpt := h.tag hi ⟨Nat.le_succ_of_le hp.1, hp.2⟩ hpv
      cases q with
      | nil =>
        cases hqv
        exact absurd hpt.1.1 h.root_owned.2
      | cons j q =>
        obtain ⟨hj, hq⟩ := slots_of_path hq
        exact hpt.2.symm.trans (h.tag hj ⟨Nat.le_succ_of_le hq.1, hq.2⟩ hqv).2
  small := by
    intro p j v' hp hp0 hv' hpj
    cases p with
    | nil => exact absurd rfl hp0
    | cons i p =>
      obtain ⟨hi, hp'⟩ := slots_of_path hp.init
      rcases h.nodes hi hp' with ⟨-, hnone⟩ | ⟨v, w, hv, hw, hM⟩
      · rw [hnone] at hv'
        cases hv'
      · rw [hw] at hv'
        cases hv'
        have hlt := hp.last_lt
        have hflags := (hM j hlt).flags
        have hpj' := hflags.1.symm.trans hpj
        rw [hflags.huge hpj']
        exact hT.small hp hp0 hv hpj'
  used := by
    intro f h
    obtain ⟨p, v, hp, hv, rfl⟩ := h
    cases p with
    | nil =>
      cases hv
      refine ⟨fun hmem => h.root_owned.2 (h.table.within.free hmem), ?_⟩
      intro ⟨va, e, hva, he, hf⟩
      exact h.root_owned.2 (hf ▸ (h.tag_page hva he).1.1)
    | cons i p =>
      obtain ⟨hi, hp⟩ := slots_of_path hp
      have htag := h.tag hi ⟨Nat.le_succ_of_le hp.1, hp.2⟩ hv
      refine ⟨htag.1.2, ?_⟩
      -- A table's tag is shorter than that of a page.
      intro ⟨va, e, hva, he, hf⟩
      have hpage := (h.tag_page hva he).2
      rw [← hf, htag.2] at hpage
      have hlen := congrArg List.length hpage
      have hp1 := hp.1
      simp only [List.length_cons, pathOf, List.cons_append, List.nil_append, List.length_nil] at hlen
      omega
  data := by
    intro f h
    obtain ⟨va, e, hva, he, rfl⟩ := h
    exact (h.tag_page hva he).1.2

end Cloned

/-! ## Two spaces -/

/-- A byte stored at a user address; nothing happens where nothing is mapped. -/
def userStore (m : Phys) (root va : Nat) (b : UInt8) : Phys :=
  match m.virtToPhys root va with
  | some pa => m.put pa 1 fun _ => b
  | none => m

/-- Two well-formed spaces without a common frame. -/
structure Apart (m : Phys) (a b : Nat) : Prop where
  left : PageTree userHalf (pages m a) m a
  right : PageTree userHalf (pages m b) m b
  disjoint : ∀ {f}, Reaches m a f → ¬Reaches m b f

variable {a b va : Nat} {x : UInt8}

theorem SameTables.pages_iff (h : SameTables userHalf m s m') : pages m' s f ↔ pages m s f := by
  constructor
  · intro h
    obtain ⟨va, e, hva, he, rfl⟩ := h
    exact ⟨va, e, hva, (h.pte hva) ▸ he, rfl⟩
  · intro h
    obtain ⟨va, e, hva, he, rfl⟩ := h
    exact ⟨va, e, hva, (h.pte hva).trans he, rfl⟩

theorem SameTables.reaches_iff (h : SameTables userHalf m s m') : Reaches m' s f ↔ Reaches m s f :=
  or_congr h.tables_iff h.pages_iff

theorem SameTables.wellFormed (h : SameTables userHalf m s m') (hT : PageTree userHalf (pages m s) m s)
    (hfree : m'.free = m.free) : PageTree userHalf (pages m' s) m' s := by
  refine h.tree hT (fun {f} hf => ?_) fun {f} hf => ?_
  · obtain ⟨hused, hnot⟩ := hT.used hf
    exact ⟨by rw [hfree]; exact hused, fun hp => hnot (h.pages_iff.mp hp)⟩
  · rw [hfree]
    exact hT.data (h.pages_iff.mp hf)

namespace Apart

theorem symm (h : Apart m a b) : Apart m b a := ⟨h.right, h.left, fun hb ha => h.disjoint ha hb⟩

/-- A write in one space keeps them apart, and the other does not see it. -/
theorem store (h : Apart m a b) (hva : userHalf (idx 39 va)) : Apart (m.userStore a va x) a b ∧
    ∀ {va'}, userHalf (idx 39 va') → (m.userStore a va x).userByte b va' = m.userByte b va' := by
  have htrans := h.left.virtToPhys_eq hva
  cases hpte : m.pte a va with
  | none =>
    have hstore : m.userStore a va x = m := by
      rw [userStore, htrans, hpte]
      rfl
    rw [hstore]
    exact ⟨h, fun _ => rfl⟩
  | some e =>
    have hstore : m.userStore a va x = m.put (addrOf e + va % pageSize) 1 fun _ => x := by
      rw [userStore, htrans, hpte]
      rfl
    rw [hstore]
    have hpage : pages m a (e / pageSize) := ⟨va, e, hva, hpte, rfl⟩
    generalize hm' : m.put (addrOf e + va % pageSize) 1 (fun _ => x) = m'
    have hkeep : ∀ y, y / pageSize ≠ e / pageSize → m'.bytes y = m.bytes y := by
      intro y hy
      rw [← hm']
      refine put_outside ?_
      by_contra hcon
      simp only [addrOf, pageSize] at *
      omega
    have ha : SameTables userHalf m a m' := sameTables_of_bytes h.left.aligned fun y hy =>
      hkeep y fun he => (h.left.used hy).2 (he ▸ hpage)
    have hb : SameTables userHalf m b m' := sameTables_of_bytes h.right.aligned fun y hy =>
      hkeep y fun he => h.disjoint (.inr (he ▸ hpage)) (.inl hy)
    have hfree : m'.free = m.free := by rw [← hm']; rfl
    have hright := hb.wellFormed h.right hfree
    refine ⟨⟨ha.wellFormed h.left hfree, hright, fun hf hg => ?_⟩, fun {va'} hva' => ?_⟩
    · exact h.disjoint (ha.reaches_iff.mp hf) (hb.reaches_iff.mp hg)
    · rw [userByte, userByte, hright.virtToPhys_eq hva', h.right.virtToPhys_eq hva', hb.pte hva']
      cases hpte' : m.pte b va' with
      | none => rfl
      | some e' =>
        rw [Option.map_some, Option.map_some, Option.map_some]
        refine congrArg some (hkeep _ fun he => h.disjoint (.inr hpage) (.inr ⟨va', e', hva', hpte', ?_⟩))
        rw [← he, addrOf_add_div]

/-- Whatever was written in the two spaces, they are still apart. -/
theorem stores {ws : List (Nat × Nat × UInt8)} (h : Apart m a b)
    (hws : ∀ w ∈ ws, (w.1 = a ∨ w.1 = b) ∧ userHalf (idx 39 w.2.1)) :
    Apart (ws.foldl (fun m w => m.userStore w.1 w.2.1 w.2.2) m) a b := by
  induction ws generalizing m with
  | nil => exact h
  | cons w ws ih =>
    obtain ⟨hroot, hva⟩ := hws w List.mem_cons_self
    have hstep : Apart (m.userStore w.1 w.2.1 w.2.2) a b := by
      rcases hroot with hroot | hroot
      · rw [hroot]
        exact (h.store hva).1
      · rw [hroot]
        exact (h.symm.store hva).1.symm
    rw [List.foldl_cons]
    exact ih hstep fun w' hw' => hws w' (List.mem_cons_of_mem w hw')

end Apart

end Phys

open Phys

/-- A new space has no user pages. -/
theorem Phys.newSpace_pte {m₀ m : Phys} {root va : Nat} (h : m₀.allocUserPml4 = some (root, m))
    (hva : userHalf (idx 39 va)) : m.pte root va = none := by
  rw [pte, pathOf, node_cons_absent (by rw [allocUserPml4_entry h hva]; rfl)]
  rfl

/-- A space that has just been made is well-formed. -/
theorem newSpace_wellFormed {m₀ m : Phys} {root : Nat} (h : m₀.allocUserPml4 = some (root, m)) :
    PageTree userHalf (pages m root) m root := by
  have hL := Phys.Loading.start (k := 0) h
  have hnone : ∀ {f}, ¬pages m root f := by
    intro f h
    obtain ⟨va, e, hva, he, -⟩ := h
    rw [Phys.newSpace_pte h hva] at he
    cases he
  exact ⟨hL.tree.aligned, hL.tree.tree, hL.tree.small, fun hf => ⟨(hL.tree.used hf).1, hnone⟩, fun hf => absurd hf hnone⟩

end ChodOs
