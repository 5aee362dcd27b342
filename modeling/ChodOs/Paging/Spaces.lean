/-
All address spaces together (`paging/mod.rs`): `init`, the calls that make
a space, and `alloc_channel_frame`, which maps into the kernel's own table.

A new space takes the upper half of `KERNEL_CR3` by value, so what keeps
the kernel half the same everywhere is that the kernel's top-level entries
do not change once a space has copied them. `map_4k` changes one only when
it is absent, which for the channel window is the first call of all.
-/
import ChodOs.Lib.Run
import ChodOs.Paging.Channel
import ChodOs.Paging.Clone

namespace ChodOs

open Pt StepSys

namespace Phys

/-- `init`: the kernel's own table, with the upper half of the boot loader's. -/
def init (m : Phys) (oldCr3 : Nat) : Option Phys := do
  let (newPml4, m) ← m.allocTable
  some { m.copyPhys (addrOf oldCr3 + 8 * 256) (newPml4 + 8 * 256) (8 * 256) with kernelCr3 := newPml4 }

/-- `alloc_channel_frame`: the write address, the read address and the
frame. `none`: out of memory or overflow. -/
def allocChannelFrame (m : Phys) (hhdm : Nat) : Option ((Nat × Nat × Nat) × Phys) := do
  let (phys, m) ← m.alloc
  let writeVa ← addU64 phys hhdm
  let readVa ← addU64 roChannelBase (m.roSlot * pageSize)
  let m ← { m with roSlot := m.roSlot + 1 }.map4k (addrOf m.kernelCr3) readVa phys ptePresent
  some ((writeVa, readVa, phys), m)

end Phys

open Phys

/-- The machine with the address spaces made so far. -/
structure Spaces where
  m : Phys
  /-- `hhdm_offset()`. -/
  hhdm : Nat
  roots : List Nat

namespace Spaces

inductive Op
  | allocUserPml4
  | loadElf (elfData : List UInt8)
  | loadDyn (elfData : List UInt8) (baseAddr phdrVa phent phnum execEntry finalEntry : Nat)
  | clone (srcCr3 : Nat)
  | channelFrame

/-- A space has been made. -/
def made (s : Spaces) (root : Nat) (m : Phys) : List Nat × Spaces := ([root], { s with m, roots := s.roots ++ [root] })

/-- A call and the address it returns. `none`: the kernel stops. -/
def step (s : Spaces) : Op → Option (List Nat × Spaces)
  | .allocUserPml4 => s.m.allocUserPml4.map fun (cr3, m) => s.made cr3 m
  | .loadElf elfData => (s.m.loadElfIntoSpace elfData).map fun ((cr3, _, _), m) => s.made cr3 m
  | .loadDyn elfData baseAddr phdrVa phent phnum execEntry finalEntry =>
    (s.m.loadDynExec elfData baseAddr phdrVa phent phnum execEntry finalEntry).map fun ((cr3, _, _), m) => s.made cr3 m
  | .clone srcCr3 => (s.m.cloneUserSpace srcCr3).map fun (cr3, m) => s.made cr3 m
  | .channelFrame => (s.m.allocChannelFrame s.hhdm).map fun ((_, readVa, _), m) => ([readVa], { s with m })

/-- The next page of the channel window. -/
def nextReadVa (s : Spaces) : Nat := roChannelBase + s.m.roSlot * pageSize

/-- The segments of an image lie at user addresses and fit their pages. -/
def UserImage (elfData : List UInt8) (base : Nat) : Prop :=
  ∀ segs ∈ (Elf64.parse elfData).bind Elf64.loadSegments, ∀ seg ∈ segs,
    base + seg.vaddr + seg.memsz ≤ 2 ^ 47 ∧ seg.Fits (base + seg.vaddr)

instance (elfData : List UInt8) (base : Nat) : Decidable (UserImage elfData base) :=
  inferInstanceAs (Decidable (∀ segs ∈ _, _))

/-- Images are user images, and the kernel's entry for the channel window
is there before any space is made. -/
def InOrder (_ : List Nat) (s : Spaces) : Op → Prop
  | .loadElf elfData => UserImage elfData 0
  | .loadDyn elfData baseAddr _ _ _ _ _ => UserImage elfData baseAddr
  | .channelFrame => s.roots = [] ∨ present (s.m.entry (addrOf s.m.kernelCr3) (idx 39 s.nextReadVa)) = true
  | _ => True

instance (h : List Nat) (s : Spaces) (op : Op) : Decidable (InOrder h s op) := by
  cases op <;> unfold InOrder <;> infer_instance

/-- The top-level index of the channel window. -/
def windowTop (i : Nat) : Prop := i = 320

/-- The kernel's tables of the window are its own, and every space has the
kernel's upper half. -/
structure Shared (s : Spaces) : Prop where
  tree : PageTree windowTop (fun f => ∃ r ∈ s.roots, f = r / pageSize) s.m (addrOf s.m.kernelCr3)
  aligned : ∀ {r}, r ∈ s.roots → r % pageSize = 0
  same : ∀ {r i}, r ∈ s.roots → 256 ≤ i → i < 512 → s.m.entry r i = s.m.entry (addrOf s.m.kernelCr3) i
  slots : s.m.roSlot + s.m.free.card ≤ maxFrames

variable {s s' : Spaces} {m m' : Phys} {r : Nat} {op : Op} {es h : List Nat}

theorem Shared.kernel_used (hs : Shared s) : addrOf s.m.kernelCr3 / pageSize ∉ s.m.free :=
  (hs.tree.used ⟨[], _, path_nil, rfl, rfl⟩).1

/-- A space that was made in new frames only, with the kernel's upper half. -/
theorem Shared.grow (hs : Shared s) (hw : Within 0 (fun _ => False) s.m m') (hal : r % pageSize = 0)
    (hown : Owned s.m m' (r / pageSize))
    (hk : ∀ {i}, 256 ≤ i → i < 512 → m'.entry r i = s.m.entry (addrOf s.m.kernelCr3) i) :
    Shared { s with m := m', roots := s.roots ++ [r] } := by
  have hold : ∀ {x}, x / pageSize ∉ s.m.free → m'.bytes x = s.m.bytes x := fun hx =>
    hw.bytes_eq not_false fun ho => hx ho.1
  have hkernel : ∀ {i}, i < 512 → m'.entry (addrOf s.m.kernelCr3) i = s.m.entry (addrOf s.m.kernelCr3) i := fun hi =>
    entry_congr hi (addrOf_mod _) fun x hx => hold (hx.symm ▸ hs.kernel_used)
  have hroots : ∀ {r' i}, r' ∈ s.roots → i < 512 → m'.entry r' i = s.m.entry r' i := fun hr' hi =>
    entry_congr hi (hs.aligned hr') fun x hx => hold (hx.symm ▸ hs.tree.data ⟨_, hr', rfl⟩)
  have hsame : SameTables windowTop s.m (addrOf s.m.kernelCr3) m' :=
    sameTables_of_bytes (addrOf_mod _) fun x hx => hold (hs.tree.used hx).1
  have hcr3 := hw.kernelCr3
  refine ⟨?_, fun {r'} hr' => ?_, fun {r' i} hr' hi hi' => ?_, ?_⟩
  · change PageTree windowTop _ m' (addrOf m'.kernelCr3)
    rw [hcr3]
    refine hsame.tree hs.tree (fun {f} hf => ⟨fun hmem => (hs.tree.used hf).1 (hw.free hmem), ?_⟩) fun {f} hf => ?_
    · intro ⟨r', hr', hfr⟩
      rcases List.mem_append.mp hr' with hr' | hr'
      · exact (hs.tree.used hf).2 ⟨r', hr', hfr⟩
      · cases List.mem_singleton.mp hr'
        exact (hs.tree.used hf).1 (hfr ▸ hown.1)
    · obtain ⟨r', hr', rfl⟩ := hf
      rcases List.mem_append.mp hr' with hr' | hr'
      · exact fun hmem => hs.tree.data ⟨r', hr', rfl⟩ (hw.free hmem)
      · cases List.mem_singleton.mp hr'
        exact hown.2
  · rcases List.mem_append.mp hr' with hr' | hr'
    · exact hs.aligned hr'
    · cases List.mem_singleton.mp hr'
      exact hal
  · change m'.entry r' i = m'.entry (addrOf m'.kernelCr3) i
    rw [hcr3, hkernel hi']
    rcases List.mem_append.mp hr' with hr' | hr'
    · rw [hroots hr' hi', hs.same hr' hi hi']
    · cases List.mem_singleton.mp hr'
      exact hk hi hi'
  · have hcard := Finset.card_le_card hw.free
    have hslots := hs.slots
    change m'.roSlot + m'.free.card ≤ maxFrames
    rw [hw.roSlot]
    omega

/-- A space that the loaders leave. -/
theorem Shared.loaded {D : Nat → Prop} (hs : Shared s) (hL : Phys.Loading 0 s.m r D m') :
    Shared { s with m := m', roots := s.roots ++ [r] } :=
  hs.grow hL.within hL.tree.aligned (hL.own ⟨[], r, path_nil, rfl, rfl⟩) fun hi hi' =>
    hL.kernelHalf hs.kernel_used hi hi'

theorem Shared.load {data : List UInt8} {base entry sp : Nat} {auxv : List Nat} (hs : Shared s)
    (himage : UserImage data base) (h : s.m.loadSpace data base auxv = some ((r, entry, sp), m)) :
    Shared { s with m, roots := s.roots ++ [r] } := by
  obtain ⟨elf, segs, hparse, hsegs⟩ := loadSpace_parses h
  have hall := himage segs (by rw [hparse]; exact hsegs)
  obtain ⟨D, hL, -⟩ := loadSpace_loading hparse hsegs (fun seg hseg => (hall seg hseg).1)
    (fun seg hseg => (hall seg hseg).2) h
  exact hs.loaded hL

theorem Shared.clone {srcCr3 : Nat} (hs : Shared s) (h : s.m.cloneUserSpace srcCr3 = some (r, m)) :
    Shared { s with m, roots := s.roots ++ [r] } := by
  simp only [cloneUserSpace, Option.bind_eq_bind, Option.bind_eq_some_iff, Option.some.injEq, Prod.exists,
    Prod.mk.injEq] at h
  obtain ⟨_, m₁, hroot, _, h, rfl, rfl⟩ := h
  have hL := Phys.Loading.start (k := 0) hroot
  have hown : Owned s.m m₁ (_ / pageSize) := hL.own ⟨[], _, path_nil, rfl, rfl⟩
  obtain ⟨hw, hrest⟩ := forEntries_touches hown.2 (fun hu hi hb =>
    cloneTable_touches (cloneEntries_confined 2) hL.tree.aligned hu (Nat.lt_trans hi (by decide)) hb) h
  refine hs.grow (hL.within.trans hw (Nat.le_refl 0) fun f hf => .inr (hf ▸ hown)) hL.tree.aligned
    (hw.owned_left hown) fun hi hi' => ?_
  rw [hrest hi hi', hL.kernelHalf hs.kernel_used hi hi']

/-- The window's pages lie under one top-level entry: there are fewer frames than it has pages. -/
theorem window_idx {n : Nat} (h : n < maxFrames) : idx 39 (roChannelBase + n * pageSize) = 320 := by
  simp only [idx, roChannelBase, pageSize, maxFrames, bitmapWords] at *
  omega

theorem Shared.channelFrame {w v phys : Nat} (hs : Shared s)
    (hok : s.roots = [] ∨ present (s.m.entry (addrOf s.m.kernelCr3) (idx 39 s.nextReadVa)) = true)
    (h : s.m.allocChannelFrame s.hhdm = some ((w, v, phys), m)) : Shared { s with m } := by
  simp only [allocChannelFrame, Option.bind_eq_bind, Option.bind_eq_some_iff, addU64_eq_some, Option.some.injEq,
    Prod.exists, Prod.mk.injEq] at h
  obtain ⟨_, m₁, ha, _, -, va, ⟨-, hva⟩, m₂, hmap, -, rfl⟩ := h
  obtain ⟨f, rfl, hal⟩ := alloc_cases ha
  have hslots := hs.slots
  have hcard := Finset.card_erase_add_one hal.mem
  have hnext : va = s.nextReadVa := by rw [← hva, hal.roSlot, nextReadVa]
  have htop : idx 39 va = 320 := by
    rw [hnext]
    exact window_idx (by omega)
  rw [← hnext] at hok
  generalize hm' : ({ m₁ with roSlot := m₁.roSlot + 1 } : Phys) = m' at hmap
  have hbytes : m'.bytes = s.m.bytes := by rw [← hm', ← hal.bytes]
  have hfree : m'.free = s.m.free.erase f := by rw [← hal.free, ← hm']; rfl
  have hcr3 : m'.kernelCr3 = s.m.kernelCr3 := by rw [← hm', ← hal.kernelCr3]
  have hslot : m'.roSlot = s.m.roSlot + 1 := by rw [← hm', ← hal.roSlot]
  have hsame : SameTables windowTop s.m (addrOf s.m.kernelCr3) m' :=
    sameTables_of_bytes (addrOf_mod _) fun x _ => congrFun hbytes x
  have hsub : m'.free ⊆ s.m.free := by rw [hfree]; exact Finset.erase_subset _ _
  have hT : PageTree windowTop (fun f => ∃ r ∈ s.roots, f = r / pageSize) m' (addrOf s.m.kernelCr3) :=
    hsame.tree hs.tree (fun hf => ⟨fun hmem => (hs.tree.used hf).1 (hsub hmem), (hs.tree.used hf).2⟩)
      fun hf hmem => hs.tree.data hf (hsub hmem)
  rw [show addrOf m₁.kernelCr3 = addrOf s.m.kernelCr3 by rw [hal.kernelCr3]] at hmap
  have hM := map4k_spec hT htop hal.frame_lt (by decide) hmap
  have hentry : ∀ {t i}, t % pageSize = 0 → i < 512 → m'.entry t i = s.m.entry t i := fun ht hi =>
    entry_congr hi ht fun x _ => congrFun hbytes x
  -- The roots are in use and no tables of the window, so they are as they were.
  have hroots : ∀ {r i}, r ∈ s.roots → i < 512 → m₂.entry r i = s.m.entry r i := by
    intro r i hr hi
    rw [← hentry (hs.aligned hr) hi]
    refine entry_congr hi (hs.aligned hr) fun x hx => hM.within.bytes_eq (fun ht => ?_) fun ho => ?_
    · exact (hT.used ht).2 ⟨r, hr, hx⟩
    · exact hT.data ⟨r, hr, hx⟩ ho.1
  have hcr3' : m₂.kernelCr3 = s.m.kernelCr3 := hM.within.kernelCr3.trans hcr3
  refine ⟨?_, hs.aligned, fun {r i} hr hi hi' => ?_, ?_⟩
  · change PageTree windowTop _ m₂ (addrOf m₂.kernelCr3)
    rw [hcr3']
    exact hM.tree
  · change m₂.entry r i = m₂.entry (addrOf m₂.kernelCr3) i
    rw [hcr3', hroots hr hi', hs.same hr hi hi', hM.rootEntry hi' fun he => ?_, hentry (addrOf_mod _) hi']
    rw [he, hentry (addrOf_mod _) (idx_lt 39 va)]
    exact hok.resolve_left fun hnil => by rw [hnil] at hr; cases hr
  · have hle := Finset.card_le_card hM.within.free
    change m₂.roSlot + m₂.free.card ≤ maxFrames
    rw [hM.within.roSlot, hslot]
    rw [hfree] at hle
    omega

theorem Shared.step (hs : Shared s) (hok : InOrder h s op) (hstep : s.step op = some (es, s')) : Shared s' := by
  cases op with
  | allocUserPml4 =>
    obtain ⟨⟨r, m⟩, hr, he⟩ := Option.map_eq_some_iff.mp hstep
    cases he
    exact hs.loaded (Phys.Loading.start hr)
  | loadElf elfData =>
    obtain ⟨⟨⟨r, entry, sp⟩, m⟩, hr, he⟩ := Option.map_eq_some_iff.mp hstep
    cases he
    exact hs.load hok hr
  | loadDyn elfData baseAddr phdrVa phent phnum execEntry finalEntry =>
    obtain ⟨⟨⟨r, entry, sp⟩, m⟩, hr, he⟩ := Option.map_eq_some_iff.mp hstep
    cases he
    obtain ⟨⟨⟨r', e, sp'⟩, m'⟩, hr, he⟩ := Option.map_eq_some_iff.mp hr
    cases he
    exact hs.load hok hr
  | clone srcCr3 =>
    obtain ⟨⟨r, m⟩, hr, he⟩ := Option.map_eq_some_iff.mp hstep
    cases he
    exact hs.clone hr
  | channelFrame =>
    obtain ⟨⟨⟨w, v, phys⟩, m⟩, hr, he⟩ := Option.map_eq_some_iff.mp hstep
    cases he
    exact hs.channelFrame hok hr

/-- A space with the kernel's upper half translates its addresses as the kernel does. -/
theorem Shared.translates (hs : Shared s) (hr : r ∈ s.roots) {va : Nat} (hva : 256 ≤ idx 39 va) :
    s.m.virtToPhys r va = s.m.virtToPhys s.m.kernelCr3 va := by
  simp only [virtToPhys, walk, addrOf_eq (hs.aligned hr), hs.same hr hva (idx_lt 39 va)]

/-! ## The first state -/

variable {m₀ : Phys} {oldCr3 hhdm : Nat}

theorem init_eq (m₀ : Phys) (oldCr3 : Nat) : m₀.init oldCr3 =
    ({ m₀ with kernelCr3 := oldCr3 } : Phys).allocUserPml4.map fun (r, m) => { m with kernelCr3 := r } := by
  simp only [init, allocUserPml4, allocTable, alloc, Option.bind_eq_bind]
  cases m₀.frames.allocFrame with
  | none => rfl
  | some a => rfl

/-- The boot loader's part of the window hangs under the kernel's table as it did under its own. -/
theorem Shared.start (hT : PageTree windowTop (fun _ => False) m₀ (addrOf oldCr3)) (hslot : m₀.roSlot = 0)
    (h : m₀.init oldCr3 = some m) : Shared { m, hhdm, roots := [] } := by
  rw [init_eq] at h
  obtain ⟨⟨r, m₁⟩, hroot, hm⟩ := Option.map_eq_some_iff.mp h
  replace hm : ({ m₁ with kernelCr3 := r } : Phys) = m := hm
  have hL := Phys.Loading.start (k := 0) hroot
  have hold : ∀ {x}, x / pageSize ∉ m₀.free → m₁.bytes x = m₀.bytes x := fun hx =>
    hL.within.bytes_eq not_false fun ho => hx ho.1
  have hown : Owned m₀ m₁ (r / pageSize) := hL.own ⟨[], r, path_nil, rfl, rfl⟩
  have hal : addrOf r = r := addrOf_eq hL.tree.aligned
  have htop : ∀ {i}, i < 512 → windowTop i → m₁.entry r i = m₀.entry (addrOf oldCr3) i := by
    intro i hi hw
    refine hL.kernelHalf (hT.used ⟨[], _, path_nil, rfl, rfl⟩).1 ?_ hi
    rw [windowTop] at hw
    omega
  have hbytes : m.bytes = m₁.bytes := by rw [← hm]
  have hfree : m.free = m₁.free := by rw [← hm]; rfl
  have hentry : ∀ {q i v}, Phys.Path windowTop (q ++ [i]) → m₀.node (addrOf oldCr3) q = some v →
      m.entry v i = m₀.entry v i := by
    intro q i v hq hv
    refine entry_congr hq.last_lt (node_aligned (addrOf_mod _) hv) fun x hx => ?_
    rw [hbytes]
    exact hold (hx.symm ▸ (hT.used ⟨q, v, hq.init, hv, rfl⟩).1)
  -- Below the root every path leads where it led before.
  have hnode : ∀ {i q}, Phys.Path windowTop (i :: q) → m.node r (i :: q) = m₀.node (addrOf oldCr3) (i :: q) := by
    intro i q hq
    have hi : i < 512 := hq.2.1 i List.mem_cons_self
    have hsame : m.entry r i = m₁.entry r i := entry_congr hi hL.tree.aligned fun x _ => congrFun hbytes x
    exact Radix.node_regraft Phys.Path.init (hsame.trans (htop hi (hq.2.2 i rfl))) (fun p j v hp hv => hentry hp hv) hq
  have hne : ∀ {q v}, Phys.Path windowTop q → m₀.node (addrOf oldCr3) q = some v → v / pageSize ≠ r / pageSize :=
    fun hq hv he => (hT.used ⟨_, _, hq, hv, rfl⟩).1 (he ▸ hown.1)
  have htree : PageTree windowTop (fun f => ∃ r ∈ ([] : List Nat), f = r / pageSize) m r := by
    refine ⟨hL.tree.aligned, fun p q v hp hq hv hv' => ?_, fun {p i v} hp hp0 hv hpi => ?_, fun {f} hf => ?_, nofun⟩
    · cases p with
      | nil =>
        cases hv
        cases q with
        | nil => rfl
        | cons j q => exact absurd rfl (hne hq ((hnode hq).symm.trans hv'))
      | cons i p =>
        have hv := (hnode hp).symm.trans hv
        cases q with
        | nil =>
          cases hv'
          exact absurd rfl (hne hp hv)
        | cons j q => exact hT.tree _ _ v hp hq hv ((hnode hq).symm.trans hv')
    · cases p with
      | nil => exact absurd rfl hp0
      | cons j p =>
        have hv := (hnode hp.init).symm.trans hv
        rw [hentry hp hv] at hpi ⊢
        exact hT.small hp hp0 hv hpi
    · refine ⟨?_, nofun⟩
      rw [hfree]
      obtain ⟨p, v, hp, hv, rfl⟩ := hf
      cases p with
      | nil =>
        cases hv
        exact hown.2
      | cons i p =>
        exact fun hmem => (hT.used ⟨_, v, hp, (hnode hp).symm.trans hv, rfl⟩).1 (hL.within.free hmem)
  have hkernel : addrOf m.kernelCr3 = r := by rw [← hm]; exact hal
  have hslots : m.roSlot + m.free.card ≤ maxFrames := by
    have hzero : m.roSlot = 0 := by rw [← hm, ← hslot]; exact hL.within.roSlot
    have hcard : m.free.card ≤ (Finset.range maxFrames).card :=
      Finset.card_le_card fun f hf => Finset.mem_range.mpr (FrameAlloc.mem_freeSet.mp hf).1
    rw [Finset.card_range] at hcard
    omega
  rw [← hkernel] at htree
  exact ⟨htree, nofun, nofun, hslots⟩

end Spaces

/-- Every space ever made translates the kernel half as the kernel does,
in every run in which images are user images and the channel window's
top-level entry exists before the first space. -/
theorem spaces_share_kernel_half {m₀ m : Phys} {oldCr3 hhdm : Nat}
    (hboot : PageTree Spaces.windowTop (fun _ => False) m₀ (addrOf oldCr3)) (hslot : m₀.roSlot = 0)
    (hinit : m₀.init oldCr3 = some m) {h : List Nat} {s : Spaces}
    (hr : Runs Spaces.step Spaces.InOrder { m, hhdm, roots := [] } h s) :
    ∀ root ∈ s.roots, ∀ va, 256 ≤ idx 39 va → s.m.virtToPhys root va = s.m.virtToPhys s.m.kernelCr3 va := by
  have hs : Spaces.Shared s :=
    hr.invariant_state Spaces.Shared (.start hboot hslot hinit) fun hI hok hstep => hI.step hok hstep
  exact fun root hroot va hva => hs.translates hroot hva

theorem blankMachine_boots : (blankMachine.init 0).isSome = true := by decide

/-- The small machine after `init`. -/
def bootSpaces : Spaces where
  m := (blankMachine.init 0).get blankMachine_boots
  hhdm := 0xFFFF800000000000
  roots := []

theorem blankMachine_window : PageTree Spaces.windowTop (fun _ => False) blankMachine (addrOf 0) := by
  have hT := blankMachine_tree Spaces.windowTop
  exact ⟨hT.aligned, hT.tree, hT.small, fun hf => ⟨(hT.used hf).1, not_false⟩, nofun⟩

/-- A channel page, two spaces and a second channel page, which both see. -/
theorem spaces_share_channel_pages : ∃ h s root, Runs Spaces.step Spaces.InOrder bootSpaces h s ∧
    h.length = 4 ∧ root ∈ s.roots ∧
      s.m.virtToPhys root 0xFFFFA00000001000 = s.m.virtToPhys s.m.kernelCr3 0xFFFFA00000001000 := by
  obtain ⟨h, s, hr, hP⟩ := Runs.of_exec Spaces.step Spaces.InOrder bootSpaces
    [.channelFrame, .allocUserPml4, .channelFrame, .clone 0]
    (fun h s => decide (h.length = 4 ∧ s.roots ≠ [])) (by decide +kernel)
  obtain ⟨hlen, hroots⟩ := of_decide_eq_true hP
  obtain ⟨root, hroot⟩ := List.exists_mem_of_ne_nil _ hroots
  exact ⟨h, s, root, hr, hlen, hroot, spaces_share_kernel_half blankMachine_window rfl (Option.some_get _).symm hr
    root hroot _ (by decide)⟩

/-- A space made before the first channel page never sees the window. -/
theorem early_space_lacks_window : ∃ h s root, Runs Spaces.step free bootSpaces h s ∧ root ∈ s.roots ∧
    256 ≤ idx 39 0xFFFFA00000000000 ∧
    s.m.virtToPhys root 0xFFFFA00000000000 ≠ s.m.virtToPhys s.m.kernelCr3 0xFFFFA00000000000 := by
  obtain ⟨h, s, hr, hP⟩ := Runs.of_exec Spaces.step free bootSpaces [.allocUserPml4, .channelFrame]
    (fun _ s => s.roots.any fun root => decide
      (s.m.virtToPhys root 0xFFFFA00000000000 ≠ s.m.virtToPhys s.m.kernelCr3 0xFFFFA00000000000)) (by decide)
  obtain ⟨root, hroot, hne⟩ := List.any_eq_true.mp hP
  exact ⟨h, s, root, hr, hroot, by decide, of_decide_eq_true hne⟩

end ChodOs
