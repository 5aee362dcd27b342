/-
`sys_munmap` (`syscall/mod.rs`). It frees the pages of the mapping that is
on record at the address, or those that are asked for if there is none, and
it leaves the VMA table alone: a lazy page comes back with the next fault.
-/
import ChodOs.User.Ordered

namespace ChodOs

open Pt StepSys Phys

/-- The page of the address meets `[addr, addr + len)`. -/
def InRange (addr len va : Nat) : Prop :=
  addr / pageSize ≤ va / pageSize ∧ va / pageSize < (addr + len + 4095) / pageSize

/-- An address that the processor translates: of the user half or the kernel half. -/
def Canonical (va : Nat) : Prop := va < userEnd ∨ 2 ^ 64 - userEnd ≤ va ∧ va < 2 ^ 64

theorem Canonical.kernel {va : Nat} (h : Canonical va) (hva : ¬va < userEnd) : 256 ≤ idx 39 va := by
  have h := h.resolve_left hva
  simp only [idx, userEnd] at *
  omega

theorem inRange_iff_inPages {addr n va : Nat} (haddr : addr % pageSize = 0) (huser : addr + n * pageSize ≤ userEnd)
    (hva : va < userEnd) : InRange addr (n * pageSize) va ↔ InPages addr n va := by
  rcases Nat.eq_zero_or_pos n with rfl | hn
  · simp only [InRange, InPages, pageOf, pageSize] at *
    omega
  · have hle : 1 * pageSize ≤ n * pageSize := Nat.mul_le_mul_right _ hn
    simp only [InRange, InPages, pageOf, pageSize, userEnd] at *
    omega

namespace MemSys

/-- In the same space, and to the same end. -/
def SameWalk (s s' : MemSys) (root va : Nat) : Prop :=
  s'.phys.virtToPhys root va = s.phys.virtToPhys root va ∧ s'.phys.getUserPte root va = s.phys.getUserPte root va

/-- The range is gone for good, and nothing else has changed. -/
structure Unmapped (s : MemSys) (addr len : Nat) (s' : MemSys) : Prop where
  gone : ∀ {va}, InRange addr len va → s'.phys.virtToPhys s.procs.currentCr3 va = none ∧
    s'.tryDemandPage va s.procs.currentCr3 = some (false, s')
  pages : ∀ {va}, Canonical va → ¬InRange addr len va → SameWalk s s' s.procs.currentCr3 va
  vmas : ∀ {va}, ¬InRange addr len va → s'.vmas.find va = s.vmas.find va
  others : ∀ {root va}, s.procs.Root root → root ≠ s.procs.currentCr3 → Canonical va → SameWalk s s' root va

/-- How many pages the call looks at. -/
def unmapCount (s : MemSys) (addr len : Nat) : Nat :=
  if s.procs.currentCr3 = 0 then 0 else s.mmaps.pagesAt addr ((len + 4095) / 4096)

/-- No page of the range is lazy, and the pages that the call looks at are
those of the range, up to pages that are not mapped. -/
structure Plain (s : MemSys) (addr len : Nat) : Prop where
  eager : ∀ {va}, InRange addr len va → ∀ e ∈ s.vmas.find va, e.lazy = false
  recorded : ∀ {va}, va < userEnd → (InRange addr len va ↔ ¬InRange addr (s.unmapCount addr len * pageSize) va) →
    s.phys.virtToPhys s.procs.currentCr3 va = none

/-- What a walk makes of the last entry has no part in whether there is one. -/
theorem walk_none {m : Phys} {cr3 va : Nat} {leaf leaf' : Nat → Nat → Nat} (h : m.walk cr3 va leaf = none) :
    m.walk cr3 va leaf' = none := by
  simp only [walk] at h ⊢
  split_ifs at h ⊢ <;> rfl

variable {m₀ : Phys} {s s' : MemSys} {addr len r va cr3 : Nat} {h : List Op}

theorem tryDemandPage_false_iff : s.tryDemandPage va cr3 = some (false, s) ↔ ∀ e ∈ s.vmas.find va, e.lazy = false := by
  rw [tryDemandPage]
  cases s.vmas.find va with
  | none => exact ⟨fun _ _ he => (by cases he), fun _ => rfl⟩
  | some e =>
    simp only [Option.mem_some_iff, forall_eq']
    cases e.lazy with
    | false => exact ⟨fun _ => rfl, fun _ => rfl⟩
    | true =>
      refine ⟨fun hcon => ?_, fun hlazy => by cases hlazy⟩
      obtain ⟨phys, -, he⟩ := Option.bind_eq_some_iff.mp hcon
      cases he

/-- What the call does to memory. -/
theorem sysMunmap_spec (hcall : s.sysMunmap addr len = some (r, s')) : s'.procs = s.procs ∧ s'.vmas = s.vmas ∧
    (s.procs.currentCr3 = 0 ∧ s'.phys = s.phys ∨ s.procs.currentCr3 ≠ 0 ∧
      unmapPages s.phys s.procs.currentCr3 addr (s.unmapCount addr len) = some s'.phys) := by
  unfold sysMunmap at hcall
  obtain ⟨pages, hpages, hcall⟩ := Option.bind_eq_some_iff.mp hcall
  obtain ⟨b, hb, rfl⟩ := Option.map_eq_some_iff.mp hpages
  obtain ⟨-, rfl⟩ := addU64_eq_some.mp hb
  dsimp only at hcall
  split at hcall
  · next hcr3 =>
    cases hcall
    exact ⟨rfl, rfl, .inl ⟨hcr3, rfl⟩⟩
  · next hcr3 =>
    obtain ⟨phys, hunmap, he⟩ := Option.bind_eq_some_iff.mp hcall
    cases he
    refine ⟨rfl, rfl, .inr ⟨hcr3, ?_⟩⟩
    rw [unmapCount, if_neg hcr3]
    exact hunmap

/-- In a space whose pages `[addr, addr + n)` were taken away. -/
theorem Space.unmapPages {m m' : Phys} {n : Nat} (hS : Space m cr3) (huser : addr + n * pageSize ≤ 2 ^ 47)
    (hrun : unmapPages m cr3 addr n = some m') : Touched cr3 m m' ∧ ∀ {va}, userHalf (idx 39 va) →
      m'.pte cr3 va = if InPages addr n va then none else m.pte cr3 va := by
  unfold MemSys.unmapPages at hrun
  split at hrun
  · exact hS.munmapPages huser hrun
  · next hn =>
    cases hrun
    refine ⟨hS.touched_refl, fun _ => (if_neg fun hin => ?_).symm⟩
    have := hin.1
    have := hin.2
    omega

/-- Where the entry of a page of the changed space is as it was, and in every other space, walks end as they did. -/
theorem SameWalk.of_touched {root : Nat} (hk : KernelApart m₀) (ho : Ordered m₀ s) (hcr3 : s.procs.Root cr3)
    (hu : Touched cr3 s.phys s'.phys) (hr : s.procs.Root root ∨ root = cr3) (hva : Canonical va)
    (hsame : root = cr3 → va < userEnd → s'.phys.pte cr3 va = s.phys.pte cr3 va) : SameWalk s s' root va := by
  by_cases hown : root = cr3 ∧ va < userEnd
  · obtain ⟨rfl, hva⟩ := hown
    have hhalf := userHalf_of_lt hva
    have hS := Phys.Orderly.space ho hcr3
    rw [SameWalk, hu.space.tree.virtToPhys_eq hhalf, hu.space.tree.getUserPte_eq hhalf, hS.tree.virtToPhys_eq hhalf,
      hS.tree.getUserPte_eq hhalf, hsame rfl hva]
    exact ⟨rfl, rfl⟩
  · have hr : s.procs.Root root := hr.elim id fun he => he ▸ hcr3
    have hother : root ≠ cr3 ∨ 256 ≤ idx 39 va := (not_and_or.mp hown).imp_right hva.kernel
    exact ⟨Phys.Orderly.walk_others ho hk hcr3 hu hr hother _, Phys.Orderly.walk_others ho hk hcr3 hu hr hother _⟩

theorem unmapCount_le {b : Nat} (hok : InOrder h s (.munmap addr len)) (hb : addU64 len 4095 = some b) :
    addr + (len + 4095) / 4096 * pageSize ≤ userEnd ∧ addr + s.unmapCount addr len * pageSize ≤ userEnd := by
  have hmax := hok (b / 4096) (Option.map_eq_some_iff.mpr ⟨b, hb, rfl⟩)
  obtain ⟨-, rfl⟩ := addU64_eq_some.mp hb
  have hpages := Nat.mul_le_mul_right pageSize
    (Nat.le_max_left ((len + 4095) / 4096) (s.mmaps.pagesAt addr ((len + 4095) / 4096)))
  have hcount := Nat.mul_le_mul_right pageSize
    (Nat.le_max_right ((len + 4095) / 4096) (s.mmaps.pagesAt addr ((len + 4095) / 4096)))
  refine ⟨by omega, ?_⟩
  rw [unmapCount]
  split <;> omega

/-- The pages that the call looks at are unmapped, and it does nothing else to page tables. -/
theorem munmap_walk (hk : KernelApart m₀) (ho : Ordered m₀ s) (haddr : addr % pageSize = 0)
    (huser : addr + s.unmapCount addr len * pageSize ≤ userEnd) (hcall : s.sysMunmap addr len = some (r, s')) :
    (∀ {va}, va < userEnd → InRange addr (s.unmapCount addr len * pageSize) va →
      s'.phys.virtToPhys s.procs.currentCr3 va = none ∧ s'.phys.getUserPte s.procs.currentCr3 va = none) ∧
    ∀ {root va}, s.procs.Root root ∨ root = s.procs.currentCr3 → Canonical va →
      (root = s.procs.currentCr3 → ¬InRange addr (s.unmapCount addr len * pageSize) va) → SameWalk s s' root va := by
  obtain ⟨-, -, ⟨hzero, hphys⟩ | ⟨hcr3, hunmap⟩⟩ := sysMunmap_spec hcall
  · refine ⟨fun {va} _ hin => ?_, fun _ _ _ => ⟨by rw [hphys], by rw [hphys]⟩⟩
    rw [unmapCount, if_pos hzero] at hin
    simp only [InRange, pageSize] at *
    omega
  · have hroot := Uprocs.root_currentCr3 hcr3
    have hS := Phys.Orderly.space ho hroot
    obtain ⟨htouched, hpte⟩ := Space.unmapPages hS huser hunmap
    refine ⟨fun {va} hva hin => ?_, fun {root va} hr hva hnot => ?_⟩
    · have hhalf := userHalf_of_lt hva
      have hnone := hpte hhalf
      rw [if_pos ((inRange_iff_inPages haddr huser hva).mp hin)] at hnone
      rw [htouched.space.tree.virtToPhys_eq hhalf, htouched.space.tree.getUserPte_eq hhalf, hnone]
      exact ⟨rfl, rfl⟩
    · refine SameWalk.of_touched hk ho hroot htouched hr hva fun he hva => ?_
      rw [hpte (userHalf_of_lt hva), if_neg fun hin => hnot he ((inRange_iff_inPages haddr huser hva).mpr hin)]

theorem unmapped_iff_plain (hk : KernelApart m₀) (ho : Ordered m₀ s) (haddr : addr % pageSize = 0)
    (hok : InOrder h s (.munmap addr len)) (hcall : s.sysMunmap addr len = some (r, s')) :
    Unmapped s addr len s' ↔ s.Plain addr len := by
  obtain ⟨hprocs, hvmas, -⟩ := sysMunmap_spec hcall
  obtain ⟨b, hb⟩ : ∃ b, addU64 len 4095 = some b := by
    unfold sysMunmap at hcall
    obtain ⟨_, hpages, -⟩ := Option.bind_eq_some_iff.mp hcall
    obtain ⟨b, hb, -⟩ := Option.map_eq_some_iff.mp hpages
    exact ⟨b, hb⟩
  obtain ⟨hrange, huser⟩ := unmapCount_le hok hb
  obtain ⟨hgone, hsame⟩ := munmap_walk hk ho haddr huser hcall
  have hin : ∀ {va}, InRange addr len va → va < userEnd := by
    intro va hva
    simp only [InRange, pageSize, userEnd] at *
    omega
  have hdemand : ∀ va, s'.tryDemandPage va s.procs.currentCr3 = some (false, s') ↔
      ∀ e ∈ s.vmas.find va, e.lazy = false := fun va => by rw [tryDemandPage_false_iff, hvmas]
  constructor
  · intro hU
    refine ⟨fun {va} hva => (hdemand va).mp (hU.gone hva).2, fun {va} hva hiff => ?_⟩
    by_cases hr : InRange addr len va
    · -- of the range, and not looked at
      rw [← (hsame (.inr rfl) (.inl hva) fun _ => hiff.mp hr).1]
      exact (hU.gone hr).1
    · have hlooked : InRange addr (s.unmapCount addr len * pageSize) va := not_not.mp fun hcon => hr (hiff.mpr hcon)
      rw [← (hU.pages (.inl hva) hr).1]
      exact (hgone hva hlooked).1
  · intro hP
    refine ⟨fun {va} hva => ⟨?_, (hdemand va).mpr (hP.eager hva)⟩, fun {va} hva hr => ?_, fun _ => by rw [hvmas],
      fun hroot hne hva => hsame (.inl hroot) hva fun he => absurd he hne⟩
    · by_cases hlooked : InRange addr (s.unmapCount addr len * pageSize) va
      · exact (hgone (hin hva) hlooked).1
      · rw [(hsame (.inr rfl) (.inl (hin hva)) fun _ => hlooked).1]
        exact hP.recorded (hin hva) ⟨fun _ => hlooked, fun _ => hva⟩
    · by_cases hlooked : InRange addr (s.unmapCount addr len * pageSize) va
      · have hva : va < userEnd := by
          simp only [InRange, pageSize, userEnd] at *
          omega
        have hnone := hP.recorded hva ⟨fun hcon => absurd hcon hr, fun hcon => absurd hlooked hcon⟩
        obtain ⟨hnone', hpte'⟩ := hgone hva hlooked
        exact ⟨hnone'.trans hnone.symm, hpte'.trans (walk_none hnone).symm⟩
      · exact hsame (.inr rfl) hva fun _ => hlooked

end MemSys

open MemSys

/-- In every run, `sys_munmap` removes exactly its range if and only if no
page of it is lazy and the pages on record at its address are those of the
range, up to pages that are not mapped. -/
theorem munmap_exact_iff_plain {m₀ : Phys} {h : List MemSys.Op} {s s' : MemSys} {addr len : Nat} (hk : KernelApart m₀)
    (hr : Runs MemSys.step MemSys.InOrder (boot m₀) h s) (haddr : addr % pageSize = 0)
    (hok : MemSys.InOrder h s (.munmap addr len)) (hcall : s.sysMunmap addr len = some (0, s')) :
    Unmapped s addr len s' ↔ s.Plain addr len :=
  unmapped_iff_plain hk (ordered_of_runs hk hr) haddr hok hcall

theorem bootMachine_kernelApart : KernelApart bootMachine := by
  have hzero : ∀ t i, bootMachine.entry t i = 0 := fun t i => ByteMem.le_zero fun _ _ _ => rfl
  refine ⟨fun h0 => absurd (FrameAlloc.mem_freeSet.mp h0).2 (by decide), fun {va} _ t ht => ?_⟩
  simp only [walkTables, hzero] at ht
  cases ht

theorem twoByteElf_clean : Clean (fun _ => none) (twoByteElf 0x10000) := by
  refine clean_of_static (by decide +kernel) fun segs hsegs seg hseg => ?_
  have hsegments : (Elf64.parse (twoByteElf 0x10000)).bind Elf64.loadSegments = some [twoByteSegment 0x10000] := by
    decide +kernel
  cases hsegments.symm.trans hsegs
  cases List.mem_singleton.mp hseg
  decide

/-- The first program is loaded at `0x10000`. -/
theorem runs_first {image : Nat × Nat × Nat} {s : MemSys}
    (henter : (boot bootMachine).enterElf (fun _ => none) (twoByteElf 0x10000) 1 0 = some (image, s)) :
    Runs MemSys.step MemSys.InOrder (boot bootMachine) [] s := by
  have hok : MemSys.InOrder [] (boot bootMachine) (.enterElf (fun _ => none) (twoByteElf 0x10000) 1 0) :=
    twoByteElf_clean
  exact Runs.start.next hok (by simp only [MemSys.step, henter, Option.map_some])

/-- It unmaps the page of its own image. -/
theorem munmap_exact_image_page : ∃ (h : List MemSys.Op) (s s' : MemSys),
    Runs MemSys.step MemSys.InOrder (boot bootMachine) h s ∧
    s.sysMunmap 0x10000 4096 = some (0, s') ∧ Unmapped s 0x10000 4096 s' := by
  obtain ⟨⟨image, s⟩, henter, hP⟩ := (Option.any_eq_true
    (fun (r : (Nat × Nat × Nat) × MemSys) => r.2.vmas.1.all (fun e => !e.valid) &&
      r.2.mmaps.pagesAt 0x10000 1 == 1 && r.2.procs.currentCr3 != 0 && (r.2.sysMunmap 0x10000 4096).any (·.1 == 0))
    ((boot bootMachine).enterElf (fun _ => none) (twoByteElf 0x10000) 1 0)).mp (by decide +kernel)
  simp only [Bool.and_eq_true, beq_iff_eq, bne_iff_ne, Option.any_eq_true, List.all_eq_true, Bool.not_eq_true'] at hP
  obtain ⟨⟨⟨hvmas, hcount⟩, hcr3⟩, ⟨_, s'⟩, hcall, rfl⟩ := hP
  have hrun := runs_first henter
  have hone : s.unmapCount 0x10000 4096 = 1 := (if_neg hcr3).trans hcount
  refine ⟨_, s, s', hrun, hcall, (munmap_exact_iff_plain bootMachine_kernelApart hrun (by decide) ?_ hcall).mpr
    ⟨fun {va} _ e he => ?_, fun {va} _ hiff => ?_⟩⟩
  · intro pages hpages
    cases hpages
    change 0x10000 + max 1 (s.mmaps.pagesAt 0x10000 1) * pageSize ≤ userEnd
    rw [hcount]
    decide
  · rw [find_eq_none hvmas va] at he
    cases he
  · rw [hone] at hiff
    exact absurd hiff (by simp [pageSize])

/-- A lazy page comes back after it was unmapped. -/
theorem unmapped_page_comes_back : ∃ (h : List MemSys.Op) (s s' : MemSys),
    Runs MemSys.step MemSys.InOrder (boot bootMachine) h s ∧
    s.sysMunmap 0x40000000 4096 = some (0, s') ∧ s'.DemandPageable s.procs.currentCr3 0x40000000 ∧
    ¬Unmapped s 0x40000000 4096 s' := by
  obtain ⟨⟨image, s₀⟩, henter, hP⟩ := (Option.any_eq_true
    (fun (r : (Nat × Nat × Nat) × MemSys) => (r.2.step (.mmap (fun _ _ _ => []) 0 4096 3 0x22 (-1) 0)).any fun r =>
      r.1.isEmpty && (r.2.sysMunmap 0x40000000 4096).any fun r' => r'.1 == 0 &&
        (r'.2.tryDemandPage 0x40000000 r.2.procs.currentCr3).any (·.1))
    ((boot bootMachine).enterElf (fun _ => none) (twoByteElf 0x10000) 1 0)).mp (by decide +kernel)
  obtain ⟨⟨es, s⟩, hmmap, hP⟩ := (Option.any_eq_true _ _).mp hP
  simp only [Bool.and_eq_true, beq_iff_eq, Option.any_eq_true] at hP
  obtain ⟨-, ⟨_, s'⟩, hcall, rfl, ⟨ok, s''⟩, hdemand, rfl⟩ := hP
  have hok : MemSys.InOrder [] s₀ (.mmap (fun _ _ _ => []) 0 4096 3 0x22 (-1) 0) := by
    intro pages h va hva
    obtain - := h
    cases hva
  refine ⟨_, s, s', (runs_first henter).next hok hmmap, hcall, ⟨s'', hdemand⟩, fun hU => ?_⟩
  · have hgone := (hU.gone (show InRange 0x40000000 4096 0x40000000 by simp [InRange, pageSize])).2
    cases hdemand.symm.trans hgone

end ChodOs
