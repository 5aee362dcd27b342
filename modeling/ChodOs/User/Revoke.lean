/-
Access taken away and given back with `sys_mprotect` (`syscall/mem.rs`).
Without access an entry is not present, like that of a page which was never
touched; `set_page_prot` passes such entries over, so that the frame behind
one is out of reach for good.
-/
import ChodOs.User.Mprotect

namespace ChodOs

open Pt StepSys Phys

namespace MemSys

/-- The process uses pages outside a range. Reading a page that is there changes nothing. -/
def Elsewhere (addr len : Nat) (_ : List Op) (_ : MemSys) : Op → Prop
  | .fault va => va < userEnd ∧ ¬InRange addr len va
  | .store va _ => va < userEnd ∧ ¬InRange addr len va
  | _ => False

/-- The pages of the range that were mapped are mapped to the same frames, with the same bytes. -/
def Kept (s : MemSys) (addr len : Nat) (s' : MemSys) : Prop :=
  ∀ va phys, InRange addr len va → s.phys.virtToPhys s.procs.currentCr3 va = some phys →
    s'.phys.virtToPhys s.procs.currentCr3 va = some phys ∧ s'.phys.bytes phys = s.phys.bytes phys

/-- No page of the range is mapped. -/
def Untouched (s : MemSys) (addr len : Nat) : Prop :=
  ∀ va, InRange addr len va → s.phys.virtToPhys s.procs.currentCr3 va = none

variable {m₀ : Phys} {s s' s₁ s₂ s₃ : MemSys} {addr len prot r va : Nat} {h es : List Op} {op : Op}

theorem sysMprotect_aligned (hcall : s.sysMprotect addr len prot = some (0, s')) : addr % pageSize = 0 := by
  unfold sysMprotect at hcall
  split at hcall
  · cases hcall
  · next haddr => exact not_not.mp haddr

theorem pageOf_ne (huser : va < userEnd) {va' : Nat} (huser' : va' < userEnd) (hin : InRange addr len va)
    (hout : ¬InRange addr len va') : pageOf va ≠ pageOf va' := by
  simp only [InRange, pageOf, pageSize, userEnd] at *
  omega

/-! ## One step -/

/-- The page of a range has the entry that `set_page_prot` makes of its old one. -/
theorem mprotect_pte (ho : Ordered m₀ s) (hlen : 0 < len) (huser : addr + (len + 4095) / 4096 * pageSize ≤ userEnd)
    (hcall : s.sysMprotect addr len prot = some (0, s')) (hva : va < userEnd) (hin : InRange addr len va) :
    s'.phys.pte s.procs.currentCr3 va = (s.phys.pte s.procs.currentCr3 va).bind (protPte (prot % 2 ^ 32)) := by
  have haddr := sysMprotect_aligned hcall
  obtain ⟨hcr3, -, -, -, hrun⟩ := sysMprotect_spec haddr hlen hcall
  have hS := Phys.Orderly.space ho (Uprocs.root_currentCr3 hcr3)
  rw [(hS.setPageProt huser hrun).2 (userHalf_of_lt hva), if_pos ((inPages_iff_inRange haddr huser hva).mpr hin)]

/-- What is done elsewhere is done in the space of the process, and leaves the page's entry. -/
theorem elsewhere_pte (ho : Ordered m₀ s) (hok : Elsewhere addr len h s op) (hstep : s.step op = some (es, s')) :
    s'.procs = s.procs ∧ ∀ va, va < userEnd → InRange addr len va →
      s'.phys.pte s.procs.currentCr3 va = s.phys.pte s.procs.currentCr3 va := by
  cases op with
  | fault va' =>
    obtain ⟨hva', hout⟩ := hok
    obtain ⟨p, hp, hstep⟩ := Option.bind_eq_some_iff.mp hstep
    obtain ⟨⟨ok, s₁⟩, hcall, he⟩ := Option.map_eq_some_iff.mp hstep
    cases he
    have hcr3 : p.userCr3 = s.procs.currentCr3 := by rw [Uprocs.currentCr3, hp, Option.map_some, Option.getD_some]
    have hS := Phys.Orderly.space ho (Uprocs.root_cur hp)
    rw [hcr3] at hcall hS
    unfold tryDemandPage at hcall
    split at hcall
    · cases hcall
      exact ⟨rfl, fun _ _ _ => rfl⟩
    · split at hcall
      · obtain ⟨phys, hpage, he⟩ := Option.bind_eq_some_iff.mp hcall
        cases he
        rw [demandAllocPage, addrOf_eq hS.tree.aligned] at hpage
        have hhalf : userHalf (idx 39 (addrOf va')) := userHalf_of_lt (by
          simp only [addrOf, pageSize, userEnd] at *
          omega)
        obtain ⟨e, hpte⟩ := (hS.mapZeroed hhalf (userFlags_lt _) hpage).page
        refine ⟨rfl, fun va hva hin => ?_⟩
        have hsame : pageOf (addrOf va') = pageOf va' := by rw [pageOf, addrOf_div, pageOf]
        rw [hpte (userHalf_of_lt hva), if_neg (hsame ▸ pageOf_ne hva hva' hin hout)]
      · cases hcall
        exact ⟨rfl, fun _ _ _ => rfl⟩
  | store va' b =>
    obtain ⟨hva', hout⟩ := hok
    obtain ⟨p, hp, hstep⟩ := Option.bind_eq_some_iff.mp hstep
    obtain ⟨m, hstore, he⟩ := Option.map_eq_some_iff.mp hstep
    cases he
    have hcr3 : p.userCr3 = s.procs.currentCr3 := by rw [Uprocs.currentCr3, hp, Option.map_some, Option.getD_some]
    have hS := Phys.Orderly.space ho (Uprocs.root_cur hp)
    rw [hcr3] at hstore hS
    simp only [Phys.storeUser, Option.bind_eq_bind, Option.bind_eq_some_iff] at hstore
    obtain ⟨_, -, phys, hphys, hstore⟩ := hstore
    split at hstore
    · cases hstore
      have hsame : SameTables userHalf s.phys s.procs.currentCr3 (s.phys.put phys 1 fun _ => b) :=
        (hS.put (hS.translates (userHalf_of_lt hva') hphys) fun x hx hx' => by rw [show x = phys by omega]).2
      exact ⟨rfl, fun va hva _ => hsame.pte (userHalf_of_lt hva)⟩
    · cases hstore
  | _ => exact hok.elim

theorem Elsewhere.inOrder (hok : Elsewhere addr len h s op) : InOrder h s op := by
  cases op with
  | fault va => exact hok.1
  | store va b => exact hok.1
  | _ => exact hok.elim

/-! ## A whole run -/

/-- Pages that are absent stay absent, whatever is done elsewhere. -/
theorem elsewhere_absent (hk : KernelApart m₀) (ho : Ordered m₀ s₁)
    (hr : Runs MemSys.step (Elsewhere addr len) s₁ h s₂)
    (habs : ∀ va, va < userEnd → InRange addr len va → s₁.phys.pte s₁.procs.currentCr3 va = none) :
    Ordered m₀ s₂ ∧ s₂.procs = s₁.procs ∧
      ∀ va, va < userEnd → InRange addr len va → s₂.phys.pte s₁.procs.currentCr3 va = none := by
  refine hr.invariant_state (fun s => Ordered m₀ s ∧ s.procs = s₁.procs ∧
    ∀ va, va < userEnd → InRange addr len va → s.phys.pte s₁.procs.currentCr3 va = none) ⟨ho, rfl, habs⟩
    fun {h s op es s'} hI hok hstep => ?_
  obtain ⟨ho, hprocs, habs⟩ := hI
  obtain ⟨hprocs', hpte⟩ := elsewhere_pte ho hok hstep
  refine ⟨ho.step hk hok.inOrder hstep, hprocs'.trans hprocs, fun va hva hin => ?_⟩
  rw [← hprocs, hpte va hva hin, hprocs]
  exact habs va hva hin

/-- After both calls no page of the range is mapped. -/
theorem revoked_absent (hk : KernelApart m₀) (ho : Ordered m₀ s) (hlen : 0 < len)
    (hok : InOrder h s (.mprotect addr len 0)) (hnone : s.sysMprotect addr len 0 = some (0, s₁))
    {h' : List Op} (hr : Runs MemSys.step (Elsewhere addr len) s₁ h' s₂)
    (hrw : s₂.sysMprotect addr len 3 = some (0, s₃)) (hin : InRange addr len va) :
    s₃.phys.virtToPhys s.procs.currentCr3 va = none := by
  have haddr := sysMprotect_aligned hnone
  obtain ⟨hcr3, hprocs, hlt, -, -⟩ := sysMprotect_spec haddr hlen hnone
  have huser : addr + (len + 4095) / 4096 * pageSize ≤ userEnd :=
    hok _ (Option.map_eq_some_iff.mpr ⟨_, addU64_eq_some.mpr ⟨hlt, rfl⟩, rfl⟩)
  have hva : va < userEnd := by
    simp only [InRange, pageSize, userEnd] at *
    omega
  have ho₁ : Ordered m₀ s₁ := ho.mprotect hok hnone
  have habs₁ : ∀ va, va < userEnd → InRange addr len va → s₁.phys.pte s₁.procs.currentCr3 va = none := by
    intro va hva hin
    rw [hprocs, mprotect_pte ho hlen huser hnone hva hin]
    exact Option.bind_eq_none_iff.mpr fun e _ => if_pos rfl
  obtain ⟨ho₂, hprocs₂, habs₂⟩ := elsewhere_absent hk ho₁ hr habs₁
  have hcr3₂ : s₂.procs.currentCr3 = s.procs.currentCr3 := by rw [hprocs₂, hprocs]
  have ho₃ : Ordered m₀ s₃ := Ordered.mprotect (h := []) ho₂ (fun pages hpages => hok pages hpages) hrw
  obtain ⟨-, hprocs₃, -⟩ := sysMprotect_spec haddr hlen hrw
  have hS₃ : Space s₃.phys s.procs.currentCr3 := Phys.Orderly.space ho₃ (by
    rw [hprocs₃, ← hcr3₂]
    exact Uprocs.root_currentCr3 (hcr3₂ ▸ hcr3))
  have hpte := mprotect_pte ho₂ hlen huser hrw hva hin
  rw [hcr3₂, ← congrArg Uprocs.currentCr3 hprocs, habs₂ va hva hin, Option.bind_none,
    congrArg Uprocs.currentCr3 hprocs] at hpte
  rw [hS₃.tree.virtToPhys_eq (userHalf_of_lt hva), hpte, Option.map_none]

end MemSys

open MemSys

/-- In every run, a range of pages is what it was after access to it was
taken away and given back if and only if none of the pages was mapped. -/
theorem revoke_keeps_iff_untouched {m₀ : Phys} {h h' : List MemSys.Op} {s s₁ s₂ s₃ : MemSys} {addr len : Nat}
    (hk : KernelApart m₀) (hr : Runs MemSys.step MemSys.InOrder (boot m₀) h s)
    (hok : MemSys.InOrder h s (.mprotect addr len 0)) (hnone : s.sysMprotect addr len 0 = some (0, s₁))
    (huse : Runs MemSys.step (Elsewhere addr len) s₁ h' s₂) (hrw : s₂.sysMprotect addr len 3 = some (0, s₃)) :
    s.Kept addr len s₃ ↔ s.Untouched addr len := by
  constructor
  · intro hkept va hin
    rcases Nat.eq_zero_or_pos len with rfl | hlen
    · have haddr := sysMprotect_aligned hnone
      simp only [InRange, pageSize] at *
      omega
    · cases hphys : s.phys.virtToPhys s.procs.currentCr3 va with
      | none => rfl
      | some phys =>
        have habs := revoked_absent hk (ordered_of_runs hk hr) hlen hok hnone huse hrw hin
        rw [(hkept va phys hin hphys).1] at habs
        cases habs
  · intro hun va phys hin hphys
    rw [hun va hin] at hphys
    cases hphys

/-- A lazy page that was never used is still one afterwards. -/
theorem revoke_keeps_unused : ∃ h s s₁ s₂, Runs MemSys.step MemSys.InOrder (boot bootMachine) h s ∧
    s.sysMprotect 0x40000000 4096 0 = some (0, s₁) ∧ s₁.sysMprotect 0x40000000 4096 3 = some (0, s₂) ∧
    s.Kept 0x40000000 4096 s₂ := by
  obtain ⟨⟨image, s⟩, henter, hP⟩ := (Option.any_eq_true
    (fun (r : (Nat × Nat × Nat) × MemSys) => (r.2.sysMprotect 0x40000000 4096 0).any fun r₁ =>
      r₁.1 == 0 && (r₁.2.sysMprotect 0x40000000 4096 3).any (·.1 == 0) &&
        r.2.phys.virtToPhys r.2.procs.currentCr3 0x40000000 == none)
    ((boot bootMachine).enterElf (fun _ => none) (twoByteElf 0x10000) 1 0)).mp (by decide +kernel)
  simp only [Bool.and_eq_true, beq_iff_eq, Option.any_eq_true] at hP
  obtain ⟨⟨_, s₁⟩, hnone, ⟨rfl, ⟨_, s₂⟩, hrw, rfl⟩, habs⟩ := hP
  have hrun := runs_first henter
  have hok : MemSys.InOrder [] s (.mprotect 0x40000000 4096 0) := by
    intro pages hpages
    cases hpages
    decide
  refine ⟨_, s, s₁, s₂, hrun, hnone, hrw, (revoke_keeps_iff_untouched bootMachine_kernelApart hrun hok hnone .start
    hrw).mpr fun va hin => ?_⟩
  -- one page, which is looked up wherever it is read
  have hcr3 := (sysMprotect_spec (sysMprotect_aligned hnone) (by decide) hnone).1
  have hS := Phys.Orderly.space (ordered_of_runs bootMachine_kernelApart hrun) (Uprocs.root_currentCr3 hcr3)
  have hva : va < userEnd ∧ pageOf va = pageOf 0x40000000 := by
    simp only [InRange, pageOf, pageSize, userEnd] at *
    omega
  exact hS.absent_page (userHalf_of_lt (by decide)) (userHalf_of_lt hva.1) hva.2 habs

/-- A byte is stored in an anonymous page; after access to the page was taken
away and given back the page is not there, and the next fault gives a new one. -/
theorem revoke_loses_stored_byte : ∃ h s s₁ s₂ phys, Runs MemSys.step MemSys.InOrder (boot bootMachine) h s ∧
    s.sysMprotect 0x40000000 4096 0 = some (0, s₁) ∧ s₁.sysMprotect 0x40000000 4096 3 = some (0, s₂) ∧
    (∃ e ∈ s.vmas.find 0x40000000, e.endAddr = 0x40000000 + 4096) ∧
    s.phys.virtToPhys s.procs.currentCr3 0x40000000 = some phys ∧ s.phys.bytes phys = 7 ∧
    s₂.phys.virtToPhys s.procs.currentCr3 0x40000000 = none ∧ ¬s.Kept 0x40000000 4096 s₂ := by
  obtain ⟨⟨image, s₀⟩, henter, hP⟩ := (Option.any_eq_true
    (fun (r : (Nat × Nat × Nat) × MemSys) => (r.2.step (.mmap (fun _ _ _ => []) 0 4096 3 0x22 (-1) 0)).any fun r =>
      (r.2.step (.fault 0x40000000)).any fun r => (r.2.step (.store 0x40000000 7)).any fun r =>
        (r.2.sysMprotect 0x40000000 4096 0).any fun r₁ => (r₁.2.sysMprotect 0x40000000 4096 3).any fun r₂ =>
          r₁.1 == 0 && r₂.1 == 0 && (r.2.vmas.find 0x40000000).any (·.endAddr == 0x40000000 + 4096) &&
            (r.2.phys.virtToPhys r.2.procs.currentCr3 0x40000000).any (r.2.phys.bytes · == 7) &&
            r₂.2.phys.virtToPhys r.2.procs.currentCr3 0x40000000 == none)
    ((boot bootMachine).enterElf (fun _ => none) (twoByteElf 0x10000) 1 0)).mp (by decide +kernel)
  obtain ⟨⟨_, s⟩, hmmap, hP⟩ := (Option.any_eq_true _ _).mp hP
  obtain ⟨⟨_, s'⟩, hfault, hP⟩ := (Option.any_eq_true _ _).mp hP
  obtain ⟨⟨_, s''⟩, hstore, hP⟩ := (Option.any_eq_true _ _).mp hP
  simp only [Bool.and_eq_true, beq_iff_eq, Option.any_eq_true] at hP
  obtain ⟨⟨_, s₁⟩, hnone, ⟨_, s₂⟩, hrw, ⟨⟨⟨rfl, rfl⟩, e, he, hend⟩, phys, hphys, hbyte⟩, habs⟩ := hP
  have hok : MemSys.InOrder [] s₀ (.mmap (fun _ _ _ => []) 0 4096 3 0x22 (-1) 0) := by
    intro pages h va hva
    obtain - := h
    cases hva
  have hok' : ∀ h, MemSys.InOrder h s (.fault 0x40000000) := fun _ => (by decide : 0x40000000 < userEnd)
  have hok'' : ∀ h, MemSys.InOrder h s' (.store 0x40000000 7) := fun _ => (by decide : 0x40000000 < userEnd)
  have hrun := (((runs_first henter).next hok hmmap).next (hok' _) hfault).next (hok'' _) hstore
  refine ⟨_, s'', s₁, s₂, phys, hrun, hnone, hrw, ⟨e, he, hend⟩, hphys, hbyte, habs, fun hkept => ?_⟩
  have hlost := (hkept 0x40000000 phys (by simp [InRange, pageSize]) hphys).1
  rw [habs] at hlost
  cases hlost

end ChodOs
