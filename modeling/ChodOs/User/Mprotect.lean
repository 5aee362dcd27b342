/-
`mem::sys_mprotect` (`syscall/mem.rs`). `set_page_prot` changes the entries
of the mapped pages of the range; `update_prot` changes the VMAs that
overlap the range, each as a whole, so that lazy pages of these VMAs outside
the range come in with the new permission as well.
-/
import ChodOs.User.Munmap

namespace ChodOs

open Pt StepSys Phys

/-- The test of `update_prot`. -/
def VmaEntry.overlaps (addr stop : Nat) (e : VmaEntry) : Bool :=
  e.valid && (decide (addr < e.endAddr) && decide (e.base < stop))

/-- The write permission that a page fault on an address would give, if it gives a page. -/
def VmaTable.demandWrite (t : VmaTable) (va : Nat) : Option Bool :=
  (t.find va).bind fun e => if e.lazy then some (e.prot.testBit 1) else none

namespace MemSys

/-- The pages of the range have the permission, mapped or lazy, and nothing else has changed. -/
structure Protected (s : MemSys) (addr len prot : Nat) (s' : MemSys) : Prop where
  mapped : ∀ {va e}, InRange addr len va → s'.phys.getUserPte s.procs.currentCr3 va = some e →
    e.testBit 1 = prot.testBit 1
  lazy : ∀ {va w}, InRange addr len va → s'.vmas.demandWrite va = some w → w = prot.testBit 1
  pages : ∀ {va}, Canonical va → ¬InRange addr len va → SameWalk s s' s.procs.currentCr3 va
  vmas : ∀ {va}, ¬InRange addr len va → s'.vmas.demandWrite va = s.vmas.demandWrite va
  others : ∀ {root va}, s.procs.Root root → root ≠ s.procs.currentCr3 → Canonical va → SameWalk s s' root va

/-- Where the VMA of a lazy page overlaps the range and the page is not of
the range, or the other way round, it has the permission already. -/
def Agreed (s : MemSys) (addr len prot : Nat) : Prop := ∀ va, ∀ e ∈ s.vmas.find va, e.lazy = true →
  (InRange addr len va ↔ e.overlaps addr (addr + len) = false) → e.prot.testBit 1 = prot.testBit 1

variable {m₀ : Phys} {s s' : MemSys} {t t' : VmaTable} {addr len prot r va : Nat} {h : List Op} {b : Bool}

theorem find_updateProt (hrun : t.updateProt addr len prot = some (b, t')) : t'.find va =
    (t.find va).map fun e => if e.overlaps addr (addr + len) then { e with prot } else e := by
  obtain ⟨stop, hstop, he⟩ := Option.bind_eq_some_iff.mp hrun
  obtain ⟨-, rfl⟩ := addU64_eq_some.mp hstop
  cases he
  refine List.find?_map.trans (congrArg (Option.map _) ?_)
  congr 1
  funext e
  simp only [Function.comp_apply]
  split <;> rfl

/-- What the call does. -/
theorem sysMprotect_spec (haddr : addr % pageSize = 0) (hlen : 0 < len)
    (hcall : s.sysMprotect addr len prot = some (0, s')) :
    s.procs.currentCr3 ≠ 0 ∧ s'.procs = s.procs ∧ len + 4095 < 2 ^ 64 ∧
      (∃ b, s.vmas.updateProt addr len (prot % 2 ^ 32) = some (b, s'.vmas)) ∧
      s.phys.setPageProt s.procs.currentCr3 addr ((len + 4095) / 4096) (prot % 2 ^ 32) = some s'.phys := by
  unfold sysMprotect at hcall
  rw [if_neg (not_not.mpr haddr), if_neg (Nat.ne_of_gt hlen)] at hcall
  obtain ⟨pages, hpages, hcall⟩ := Option.bind_eq_some_iff.mp hcall
  obtain ⟨_, hb, rfl⟩ := Option.map_eq_some_iff.mp hpages
  obtain ⟨hlt, rfl⟩ := addU64_eq_some.mp hb
  dsimp only at hcall
  split at hcall
  · cases hcall
  · next hcr3 =>
    obtain ⟨⟨b, vmas⟩, hvmas, hcall⟩ := Option.bind_eq_some_iff.mp hcall
    obtain ⟨phys, hphys, he⟩ := Option.bind_eq_some_iff.mp hcall
    cases he
    exact ⟨hcr3, rfl, hlt, ⟨b, hvmas⟩, hphys⟩

theorem inPages_iff_inRange (haddr : addr % pageSize = 0) (huser : addr + (len + 4095) / 4096 * pageSize ≤ userEnd)
    (hva : va < userEnd) : InPages addr ((len + 4095) / 4096) va ↔ InRange addr len va := by
  rw [← inRange_iff_inPages haddr huser hva]
  simp only [InRange, pageSize] at *
  omega

theorem mprotect_walk (hk : KernelApart m₀) (ho : Ordered m₀ s) (haddr : addr % pageSize = 0)
    (huser : addr + (len + 4095) / 4096 * pageSize ≤ userEnd) (hcr3 : s.procs.currentCr3 ≠ 0)
    (hrun : s.phys.setPageProt s.procs.currentCr3 addr ((len + 4095) / 4096) (prot % 2 ^ 32) = some s'.phys) :
    (∀ {va e}, InRange addr len va → s'.phys.getUserPte s.procs.currentCr3 va = some e →
      e.testBit 1 = prot.testBit 1) ∧
    ∀ {root va}, s.procs.Root root ∨ root = s.procs.currentCr3 → Canonical va →
      (root = s.procs.currentCr3 → ¬InRange addr len va) → SameWalk s s' root va := by
  have hroot := Uprocs.root_currentCr3 hcr3
  have hS := Phys.Orderly.space ho hroot
  obtain ⟨htouched, hpte⟩ := hS.setPageProt huser hrun
  refine ⟨fun {va e} hin he => ?_, fun {root va} hr hva hnot => ?_⟩
  · have hva : va < userEnd := by
      simp only [InRange, pageSize, userEnd] at *
      omega
    have hhalf := userHalf_of_lt hva
    rw [htouched.space.tree.getUserPte_eq hhalf, hpte hhalf, if_pos ((inPages_iff_inRange haddr huser hva).mpr hin),
      Option.bind_eq_some_iff] at he
    obtain ⟨e₀, he₀, he⟩ := he
    obtain ⟨pt, -, hentry, -⟩ := pte_some he₀
    have hlt : e₀ < 2 ^ 64 := hentry ▸ s.phys.entry_lt _ _
    unfold protPte at he
    split at he
    · cases he
    · next hne =>
      cases he
      rw [(protEntry_spec hlt).2.2.2 hne, Nat.testBit_mod_two_pow]
      exact Bool.true_and _
  · refine SameWalk.of_touched hk ho hroot htouched hr hva fun he hva => ?_
    rw [hpte (userHalf_of_lt hva), if_neg fun hin => hnot he ((inPages_iff_inRange haddr huser hva).mp hin)]

theorem demandWrite_updateProt (hrun : t.updateProt addr len prot = some (b, t')) : t'.demandWrite va =
    (t.find va).bind fun e =>
      if e.lazy then some (if e.overlaps addr (addr + len) then prot.testBit 1 else e.prot.testBit 1) else none := by
  rw [VmaTable.demandWrite, find_updateProt hrun, Option.bind_map]
  refine congrArg _ (funext fun e => ?_)
  simp only [Function.comp_apply]
  split <;> rfl

theorem protected_iff_agreed (hk : KernelApart m₀) (ho : Ordered m₀ s) (haddr : addr % pageSize = 0) (hlen : 0 < len)
    (hok : InOrder h s (.mprotect addr len prot)) (hcall : s.sysMprotect addr len prot = some (0, s')) :
    Protected s addr len prot s' ↔ s.Agreed addr len prot := by
  obtain ⟨hcr3, -, hlt, ⟨b, hvmas⟩, hphys⟩ := sysMprotect_spec haddr hlen hcall
  have huser : addr + (len + 4095) / 4096 * pageSize ≤ userEnd :=
    hok _ (Option.map_eq_some_iff.mpr ⟨_, addU64_eq_some.mpr ⟨hlt, rfl⟩, rfl⟩)
  obtain ⟨hmapped, hsame⟩ := mprotect_walk hk ho haddr huser hcr3 hphys
  have hbit : (prot % 2 ^ 32).testBit 1 = prot.testBit 1 := by
    rw [Nat.testBit_mod_two_pow]
    exact Bool.true_and _
  have hdemand : ∀ va, s'.vmas.demandWrite va = (s.vmas.find va).bind fun e =>
      if e.lazy then some (if e.overlaps addr (addr + len) then prot.testBit 1 else e.prot.testBit 1) else none := by
    intro va
    rw [← hbit]
    exact demandWrite_updateProt hvmas
  constructor
  · intro hP va e he hlazy hiff
    have hnow := hdemand va
    rw [he, Option.bind_some, if_pos hlazy] at hnow
    by_cases hin : InRange addr len va
    · rw [hiff.mp hin, if_neg Bool.false_ne_true] at hnow
      exact hP.lazy hin hnow
    · have hover : e.overlaps addr (addr + len) = true := by
        rw [← Bool.not_eq_false]
        exact fun hcon => hin (hiff.mpr hcon)
      rw [hover, if_pos rfl, hP.vmas hin, VmaTable.demandWrite, he, Option.bind_some, if_pos hlazy] at hnow
      exact Option.some.inj hnow
  · intro hA
    refine ⟨hmapped, fun {va w} hin hw => ?_, fun hva hin => hsame (.inr rfl) hva fun _ => hin, fun {va} hin => ?_,
      fun hroot hne hva => hsame (.inl hroot) hva fun he => absurd he hne⟩
    · rw [hdemand] at hw
      obtain ⟨e, he, hw⟩ := Option.bind_eq_some_iff.mp hw
      split at hw
      · next hlazy =>
        cases hw
        cases hover : e.overlaps addr (addr + len) with
        | true => rfl
        | false => exact hA va e he hlazy (iff_of_true hin hover)
      · cases hw
    · rw [hdemand, VmaTable.demandWrite]
      cases he : s.vmas.find va with
      | none => rfl
      | some e =>
        rw [Option.bind_some, Option.bind_some]
        cases hlazy : e.lazy with
        | false => rfl
        | true =>
          cases hover : e.overlaps addr (addr + len) with
          | false => rfl
          | true =>
            rw [hA va e he hlazy (iff_of_false hin (by rw [hover]; decide))]
            rfl

end MemSys

open MemSys

/-- In every run, `sys_mprotect` changes exactly its range if and only if the
lazy pages that the range covers only in part of the VMA, or whose VMA starts
behind it, have the permission already. -/
theorem mprotect_exact_iff_agreed {m₀ : Phys} {h : List MemSys.Op} {s s' : MemSys} {addr len prot : Nat}
    (hk : KernelApart m₀) (hr : Runs MemSys.step MemSys.InOrder (boot m₀) h s) (haddr : addr % pageSize = 0) (hlen : 0 < len)
    (hok : MemSys.InOrder h s (.mprotect addr len prot)) (hcall : s.sysMprotect addr len prot = some (0, s')) :
    Protected s addr len prot s' ↔ s.Agreed addr len prot :=
  protected_iff_agreed hk (ordered_of_runs hk hr) haddr hlen hok hcall

/-- The first program takes the write permission of a page of its image away. -/
theorem mprotect_exact_image_page : ∃ (h : List MemSys.Op) (s s' : MemSys),
    Runs MemSys.step MemSys.InOrder (boot bootMachine) h s ∧
    s.sysMprotect 0x10000 4096 1 = some (0, s') ∧ Protected s 0x10000 4096 1 s' := by
  obtain ⟨⟨image, s⟩, henter, hP⟩ := (Option.any_eq_true
    (fun (r : (Nat × Nat × Nat) × MemSys) => r.2.vmas.1.all (fun e => !e.valid) &&
      (r.2.sysMprotect 0x10000 4096 1).any (·.1 == 0))
    ((boot bootMachine).enterElf (fun _ => none) (twoByteElf 0x10000) 1 0)).mp (by decide +kernel)
  simp only [Bool.and_eq_true, beq_iff_eq, Option.any_eq_true, List.all_eq_true, Bool.not_eq_true'] at hP
  obtain ⟨hvmas, ⟨_, s'⟩, hcall, rfl⟩ := hP
  have hrun := runs_first henter
  refine ⟨_, s, s', hrun, hcall, (mprotect_exact_iff_agreed bootMachine_kernelApart hrun (by decide) (by decide) ?_
    hcall).mpr fun va e he => ?_⟩
  · intro pages hpages
    cases hpages
    decide
  · rw [find_eq_none hvmas va] at he
    cases he

/-- Of two lazy pages mapped together, the second becomes read-only with the first. -/
theorem mprotect_reaches_whole_vma : ∃ (h : List MemSys.Op) (s s' : MemSys),
    Runs MemSys.step MemSys.InOrder (boot bootMachine) h s ∧
    s.sysMprotect 0x40000000 4096 1 = some (0, s') ∧ s.vmas.demandWrite 0x40001000 = some true ∧
    s'.vmas.demandWrite 0x40001000 = some false ∧ ¬Protected s 0x40000000 4096 1 s' := by
  obtain ⟨⟨image, s₀⟩, henter, hP⟩ := (Option.any_eq_true
    (fun (r : (Nat × Nat × Nat) × MemSys) => (r.2.step (.mmap (fun _ _ _ => []) 0 8192 3 0x22 (-1) 0)).any fun r =>
      r.1.isEmpty && (r.2.sysMprotect 0x40000000 4096 1).any fun r' => r'.1 == 0 &&
        (r.2.vmas.demandWrite 0x40001000 == some true && r'.2.vmas.demandWrite 0x40001000 == some false))
    ((boot bootMachine).enterElf (fun _ => none) (twoByteElf 0x10000) 1 0)).mp (by decide +kernel)
  obtain ⟨⟨es, s⟩, hmmap, hP⟩ := (Option.any_eq_true _ _).mp hP
  simp only [Bool.and_eq_true, beq_iff_eq, Option.any_eq_true] at hP
  obtain ⟨-, ⟨_, s'⟩, hcall, rfl, hbefore, hafter⟩ := hP
  have hok : MemSys.InOrder [] s₀ (.mmap (fun _ _ _ => []) 0 8192 3 0x22 (-1) 0) := by
    intro pages h va hva
    obtain - := h
    cases hva
  refine ⟨_, s, s', (runs_first henter).next hok hmmap, hcall, hbefore, hafter, fun hP => ?_⟩
  have hsame := hP.vmas (show ¬InRange 0x40000000 4096 0x40001000 by simp [InRange, pageSize])
  rw [hbefore, hafter] at hsame
  cases hsame

end ChodOs
