/-
The heap of a program: `brk_base` above its image, and every page from
there to `brk_cur` mapped or lazily mapped.

The dynamic path of `exec_replace` sets the break to the end of the image
that the linker has loaded. The static path and `enter_elf` leave it as it
is: at 0 in a new process, at the parent's in a forked one.
-/
import ChodOs.User.Exec

namespace ChodOs

open Pt StepSys

/-! ## The end of the image -/

namespace Phys

variable {m m' : Phys} {cr3 slotBase stop : Nat} {data : List UInt8} {seg : PtLoad} {segs : List PtLoad}

theorem le_pageEnd {a b : Nat} (h : addU64 a 0xFFF = some b) : a ≤ addrOf b := by
  obtain ⟨-, rfl⟩ := addU64_eq_some.mp h
  simp only [addrOf, pageSize]
  omega

theorem loadSoSegment_end (h : loadSoSegment cr3 slotBase data m seg = some (stop, m')) :
    slotBase + seg.vaddr + seg.memsz ≤ stop := by
  simp only [loadSoSegment, Option.bind_eq_bind, Option.bind_eq_some_iff, Option.some.injEq, Prod.mk.injEq] at h
  obtain ⟨mapped, hmapped, last, hlast, last', hlast', _, -, rfl, -⟩ := h
  obtain ⟨-, rfl⟩ := addU64_eq_some.mp hmapped
  obtain ⟨-, rfl⟩ := addU64_eq_some.mp hlast
  exact le_pageEnd hlast'

/-- The end that the loader returns is above every segment. -/
theorem loadSoSegments_end (h : loadSoSegments cr3 slotBase data segs m = some (stop, m')) :
    ∀ seg ∈ segs, slotBase + seg.vaddr + seg.memsz ≤ stop := by
  rw [loadSoSegments] at h
  suffices hall : (slotBase, m).1 ≤ stop ∧ ∀ seg ∈ segs, slotBase + seg.vaddr + seg.memsz ≤ stop from hall.2
  generalize (slotBase, m) = st at h ⊢
  induction segs generalizing st with
  | nil =>
    cases h
    exact ⟨Nat.le_refl _, List.forall_mem_nil _⟩
  | cons seg segs ih =>
    rw [List.foldlM_cons] at h
    obtain ⟨⟨low, m₁⟩, hseg, h⟩ := Option.bind_eq_some_iff.mp h
    obtain ⟨⟨pageEnd, m₂⟩, hseg, he⟩ := Option.bind_eq_some_iff.mp hseg
    cases he
    obtain ⟨hlow, hrest⟩ := ih _ h
    have hend := loadSoSegment_end hseg
    refine ⟨by omega, fun s hs => ?_⟩
    rcases List.mem_cons.mp hs with rfl | hs
    · omega
    · exact hrest s hs

theorem loadSoAt_end {name : String} {elf : Elf64} {lib : Option SharedLib} (hparse : Elf64.parse data = some elf)
    (hsegs : elf.loadSegments = some segs) (h : m.loadSoAt name data cr3 slotBase = some (lib, m')) :
    ∃ l, lib = some l ∧ ∀ seg ∈ segs, slotBase + seg.vaddr + seg.memsz ≤ l.vaddrEnd := by
  simp only [loadSoAt, hparse, hsegs, Option.bind_eq_bind, Option.bind_some, Option.bind_eq_some_iff, Option.some.injEq,
    Prod.exists, Prod.mk.injEq] at h
  obtain ⟨stop, m₁, hload, _, -, _, -, _, -, _, -, _, -, _, -, _, -, rfl, -⟩ := h
  exact ⟨_, rfl, loadSoSegments_end hload⟩

end Phys

namespace DynLinker

variable {d d' : DynLinker} {m m' : Phys} {elf : Elf64} {data : List UInt8} {lib : LibProvider} {segs : List PtLoad}
  {o : Option DynLinker} {entry : Option Nat}

theorem loadMain_end (hparse : Elf64.parse data = some elf) (hsegs : elf.loadSegments = some segs)
    (h : d.loadMain m elf data = some (o, m')) :
    ∃ d', o = some d' ∧ ∀ seg ∈ segs, execBase elf + seg.vaddr + seg.memsz ≤ d'.execVaddrEnd := by
  obtain ⟨⟨l, m₁⟩, hso, h⟩ := Option.bind_eq_some_iff.mp h
  obtain ⟨lib, rfl, hend⟩ := Phys.loadSoAt_end hparse hsegs hso
  simp only [Option.bind_eq_bind, Option.bind_eq_some_iff, Option.some.injEq, Prod.mk.injEq] at h
  obtain ⟨_, -, _, -, _, -, _, -, _, -, _, -, rfl, -⟩ := h
  exact ⟨_, rfl, hend⟩

theorem loadInterp_end (h : d.loadInterp m elf lib = some (some d', m')) : d'.execVaddrEnd = d.execVaddrEnd := by
  obtain ⟨interp, -, h⟩ := Option.bind_eq_some_iff.mp h
  cases interp with
  | none =>
    cases h
    rfl
  | some path =>
    dsimp only at h
    split at h
    · cases h
      rfl
    · split at h
      · cases h
      · obtain ⟨⟨l, m₁⟩, -, h⟩ := Option.bind_eq_some_iff.mp h
        cases l with
        | none => cases h
        | some l =>
          simp only [Option.bind_eq_bind, Option.bind_eq_some_iff, Option.some.injEq, Prod.mk.injEq] at h
          obtain ⟨_, -, _, -, rfl, -⟩ := h
          rfl

theorem loadDeps_end {needed : List String} (h : loadDeps lib d m needed = some (d', m')) :
    d'.execVaddrEnd = d.execVaddrEnd := by
  induction d, m, needed using loadDeps.induct lib with
  | case1 d m => 
    rw [loadDeps] at h
    cases h
    rfl
  | case2 d m depName rest hdep =>
    rw [loadDeps] at h
    split at h
    · cases h
    · next hdep' =>
      rw [hdep] at hdep'
      cases hdep'
  | case3 d m depName rest d₁ m₁ sub hdep ih =>
    rw [loadDeps] at h
    split at h
    · cases h
    · next hdep' =>
      rw [hdep] at hdep'
      cases hdep'
      rw [ih h]
      rcases loadDep_cases hdep with ⟨rfl, -⟩ | ⟨-, hend⟩
      · rfl
      · exact hend

/-- Whatever the interpreter and the libraries are, the break is set above the executable. -/
theorem loadExec_end (hparse : Elf64.parse data = some elf) (hsegs : elf.loadSegments = some segs)
    (h : d.loadExec m data lib = some (entry, d', m')) :
    ∀ seg ∈ segs, execBase elf + seg.vaddr + seg.memsz ≤ d'.execVaddrEnd := by
  rw [loadExec, hparse] at h
  obtain ⟨⟨o, m₁⟩, hmain, h⟩ := Option.bind_eq_some_iff.mp h
  obtain ⟨d₁, rfl, hend⟩ := loadMain_end hparse hsegs hmain
  obtain ⟨⟨o, m₂⟩, hinterp, h⟩ := Option.bind_eq_some_iff.mp h
  cases o with
  | none =>
    cases h
    exact hend
  | some d₂ =>
    obtain ⟨⟨d₃, m₃⟩, hdeps, h⟩ := Option.bind_eq_some_iff.mp h
    cases h
    rw [loadDeps_end hdeps, loadInterp_end hinterp]
    exact hend

end DynLinker

/-! ## Starting a program -/

/-- Where the segments of a program lie, by the path that loads it. -/
def imageBase (elf : Elf64) (dyn : Bool) : Nat := if dyn then DynLinker.execBase elf else 0

/-- The break starts at or above the end of every segment. -/
def AboveImage (base : Nat) (segs : List PtLoad) (p : UserProc) : Prop :=
  ∀ seg ∈ segs, base + seg.vaddr + seg.memsz ≤ p.brkBase

/-- Above the image, and the heap is empty. -/
def BreakClear (base : Nat) (segs : List PtLoad) (p : UserProc) : Prop :=
  AboveImage base segs p ∧ p.brkCur ≤ p.brkBase

namespace MemSys

/-- A program is started by either path, in the process that is current in
the table `u`: the caller of `exec_replace`, or the one that `enter_elf` registers. -/
inductive Starts (s : MemSys) (lib : LibProvider) (elfData : List UInt8) : Uprocs → MemSys → Prop
  | replace {image s'} : s.execReplace lib elfData = some (image, s') → Starts s lib elfData s.procs s'
  | enter {image s' pid kstack} (cr3 : Nat) : s.enterElf lib elfData pid kstack = some (image, s') →
      Starts s lib elfData (s.procs.register pid 0 cr3 kstack).2 s'

variable {s s' s₁ : MemSys} {lib : LibProvider} {elfData : List UInt8} {elf : Elf64} {segs : List PtLoad}
  {image : Nat × Nat × Nat} {p : UserProc} {u : Uprocs} {dyn : Bool} {pid kstack : Nat}

/-- Entries that differ in the address space have the same break. -/
def SameBreak (o o' : Option UserProc) : Prop :=
  o'.map (fun p => (p.brkBase, p.brkCur)) = o.map (fun p => (p.brkBase, p.brkCur))

theorem SameBreak.forall {o o' : Option UserProc} {base : Nat} (h : SameBreak o o')
    (hp : ∀ p ∈ o, BreakClear base segs p) : ∀ p ∈ o', BreakClear base segs p := by
  intro p' h
  obtain rfl := h
  obtain ⟨p, rfl, he⟩ := Option.map_eq_some_iff.mp h.symm
  obtain ⟨hbase, hcur⟩ := Prod.mk.injEq .. ▸ he
  obtain ⟨himage, hempty⟩ := hp p rfl
  exact ⟨fun seg hseg => hbase ▸ himage seg hseg, by omega⟩

/-- The address space makes no difference to the break. -/
theorem sameBreak_register (cr3 cr3' : Nat) :
    SameBreak (u.register pid 0 cr3 kstack).2.cur (u.register pid 0 cr3' kstack).2.cur := by
  simp only [Uprocs.register]
  split
  · next i _ =>
    change SameBreak ((u.modify i _).at? i) ((u.modify i _).at? i)
    rw [Uprocs.at?_modify_self, Uprocs.at?_modify_self]
    cases u.at? i <;> rfl
  · split
    · next i _ =>
      simp only [SameBreak, Uprocs.cur, Uprocs.at?, Table.set, List.getElem?_set_self']
      cases u.slots.1[i]? <;> rfl
    · rfl

/-- The dynamic path sets the break. -/
theorem loadDynamic_clear (hparse : Elf64.parse elfData = some elf) (hsegs : elf.loadSegments = some segs)
    (h : s.loadDynamic lib elfData = some (image, s')) :
    ∀ p ∈ s'.procs.cur, BreakClear (DynLinker.execBase elf) segs p := by
  simp only [loadDynamic, Option.bind_eq_bind, Option.bind_eq_some_iff, Option.some.injEq, Prod.exists,
    Prod.mk.injEq] at h
  obtain ⟨_, _, -, _, dl, _, hload, _, _, -, procs, hbrk, _, _, -, -, rfl⟩ := h
  have hend := DynLinker.loadExec_end hparse hsegs hload
  intro p hp
  change procs.cur = some p at hp
  unfold Uprocs.setBrkBase at hbrk
  split at hbrk
  · next hnone =>
    cases hbrk
    rw [hnone] at hp
    cases hp
  · obtain ⟨aligned, hup, he⟩ := Option.bind_eq_some_iff.mp hbrk
    cases he
    rw [Uprocs.cur_update] at hp
    obtain ⟨q, -, rfl⟩ := Option.map_eq_some_iff.mp hp
    obtain ⟨b, hb, rfl⟩ := Option.map_eq_some_iff.mp hup
    have hle := Phys.le_pageEnd hb
    exact ⟨fun seg hseg => (hend seg hseg).trans hle, Nat.le_refl _⟩

/-- The static path leaves it as it is. -/
theorem loadStatic_procs (h : s.loadStatic elfData = some (image, s')) : s'.procs = s.procs := by
  obtain ⟨r, -, he⟩ := Option.map_eq_some_iff.mp h
  cases he
  rfl

theorem execReplace_clear (hparse : Elf64.parse elfData = some elf) (hsegs : elf.loadSegments = some segs)
    (hdyn : needsDynlink elfData = some dyn) (hclear : dyn = false → ∀ p ∈ s.procs.cur, BreakClear 0 segs p)
    (h : s.execReplace lib elfData = some (image, s')) :
    ∀ p ∈ s'.procs.cur, BreakClear (imageBase elf dyn) segs p := by
  simp only [execReplace, loadImage, hdyn, Option.bind_eq_bind, Option.bind_eq_some_iff, Option.bind_some, Option.some.injEq,
    Prod.exists, Prod.mk.injEq] at h
  obtain ⟨_, _, _, s₁, hload, q, hq, -, rfl⟩ := h
  have hbefore : ∀ p ∈ s₁.procs.cur, BreakClear (imageBase elf dyn) segs p := by
    cases dyn with
    | true => exact loadDynamic_clear hparse hsegs hload
    | false =>
      rw [loadStatic_procs hload]
      exact hclear rfl
  refine SameBreak.forall (o := s₁.procs.cur) ?_ hbefore
  rw [SameBreak, Uprocs.cur_update, Option.map_map]
  rfl

theorem Starts.clear (hparse : Elf64.parse elfData = some elf) (hsegs : elf.loadSegments = some segs)
    (hdyn : needsDynlink elfData = some dyn) (hclear : dyn = false → ∀ p ∈ u.cur, BreakClear 0 segs p)
    (h : s.Starts lib elfData u s') : ∀ p ∈ s'.procs.cur, BreakClear (imageBase elf dyn) segs p := by
  cases h with
  | replace hexec => exact execReplace_clear hparse hsegs hdyn hclear hexec
  | @enter image _ pid kstack cr3 henter =>
    simp only [enterElf, hdyn, Option.bind_eq_bind, Option.bind_some] at henter
    cases dyn with
    | true =>
      obtain ⟨⟨tmpCr3, phys⟩, -, hexec⟩ := Option.bind_eq_some_iff.mp henter
      exact execReplace_clear hparse hsegs hdyn nofun hexec
    | false =>
      obtain ⟨⟨image', s₁⟩, hload, he⟩ := Option.bind_eq_some_iff.mp henter
      cases he
      change ∀ p ∈ (s₁.procs.register pid 0 image'.1 kstack).2.cur, _
      rw [loadStatic_procs hload]
      exact (sameBreak_register cr3 image'.1).forall (hclear rfl)

/-! ## The heap -/

/-- Demand paging gives the page read and write access. -/
def RwLazy (a : Nat × Bool) : Prop := a.2 = true ∧ a.1.testBit 0 = true ∧ a.1.testBit 1 = true

/-- Every page of the heap is mapped or lazily read-write. -/
def HeapBacked (s : MemSys) (p : UserProc) : Prop := ∀ v, p.brkBase ≤ v → v < p.brkCur →
  (s.phys.virtToPhys p.userCr3 v).isSome = true ∨ ∃ a ∈ (s.vmas.find v).map VmaEntry.access, RwLazy a

/-- The calls that move the break. -/
def brkStep (s : MemSys) (addr : Nat) : Option (List Unit × MemSys) := (s.sysBrk addr).map fun (_, s) => ([], s)

/-- The VMA that a call inserts. -/
def growth (p : UserProc) (new : Nat) : VmaEntry where
  base := p.brkCur
  pages := (new - p.brkCur + 4095) / 4096
  prot := 3
  lazy := true
  valid := true

/-- Where the heap grows, its new VMA fits the table. -/
def GrowthFits (_ : List Unit) (s : MemSys) (addr : Nat) : Prop :=
  ∀ p ∈ s.procs.cur, ∀ new ∈ p.brkTarget addr, p.brkCur < new → s.vmas.Fits (growth p new)

/-- The heap of the current process is sound: above the image, backed. -/
def HeapOK (base : Nat) (segs : List PtLoad) (s : MemSys) : Prop :=
  ∀ p ∈ s.procs.cur, AboveImage base segs p ∧ s.HeapBacked p

variable {base addr new : Nat} {h : List Unit} {es : List Unit}

/-- What a VMA that fits leaves of the heap and adds to it. -/
theorem HeapBacked.grow (hb : s.HeapBacked p) (hlt : p.brkCur < new) (hfit : s.vmas.Fits (growth p new)) :
    HeapBacked { s with vmas := s.vmas.insert p.brkCur ((new - p.brkCur + 4095) / 4096) 3 true }
      { p with brkCur := new } := by
  have hover := (VmaTable.overrides_iff_fits s.vmas p.brkCur ((new - p.brkCur + 4095) / 4096) 3 true).mpr hfit
  intro v hlow hhigh
  change p.brkBase ≤ v at hlow
  change v < new at hhigh
  have hfind : ((s.vmas.insert p.brkCur ((new - p.brkCur + 4095) / 4096) 3 true).find v).map VmaEntry.access =
      if (growth p new).covers v then some (growth p new).access else (s.vmas.find v).map VmaEntry.access := hover v
  rw [hfind]
  by_cases hv : v < p.brkCur
  · have hout : (growth p new).covers v = false := by
      rw [Bool.eq_false_iff, ne_eq, VmaEntry.covers_iff]
      simp only [growth]
      omega
    rw [hout]
    exact hb v hlow hv
  · have hin : (growth p new).covers v = true := by
      refine VmaEntry.covers_iff.mpr ⟨rfl, Nat.not_lt.mp hv, ?_⟩
      simp only [growth, pageSize]
      omega
    rw [if_pos hin]
    exact .inr ⟨(3, true), rfl, rfl, rfl, rfl⟩

theorem HeapOK.brk (hok : HeapOK base segs s) (hfit : GrowthFits h s addr) (hs : s.brkStep addr = some (es, s')) :
    HeapOK base segs s' := by
  obtain ⟨⟨new, s₁⟩, hcall, he⟩ := Option.map_eq_some_iff.mp hs
  cases he
  obtain ⟨⟨_, procs, vmas⟩, hbrk, he'⟩ := Option.map_eq_some_iff.mp hcall
  cases he'
  unfold Uprocs.sysBrk at hbrk
  split at hbrk
  · cases hbrk
    exact hok
  · next p hp =>
    obtain ⟨himage, hback⟩ := hok p hp
    split at hbrk
    · cases hbrk
      exact hok
    · next haddr =>
      obtain ⟨_, hup, he⟩ := Option.bind_eq_some_iff.mp hbrk
      cases he
      intro q hq
      have hcur : (s.procs.update fun p => { p with brkCur := new }).cur = some { p with brkCur := new } := by
        rw [Uprocs.cur_update, hp]
        rfl
      obtain rfl := Option.some.inj (hcur.symm.trans hq)
      refine ⟨himage, ?_⟩
      unfold Uprocs.brkGrow
      split
      · next hlt => exact hback.grow hlt (hfit p hp new (by rw [UserProc.brkTarget, if_neg haddr]; exact hup) hlt)
      · next hle => exact fun w hlow (hhigh : w < new) => hback w hlow (by omega)

theorem HeapOK.start (hclear : ∀ p ∈ s.procs.cur, BreakClear base segs p) : HeapOK base segs s := fun p hp =>
  ⟨(hclear p hp).1, fun v hlow hhigh => absurd (hclear p hp).2 (by omega)⟩

end MemSys

open MemSys

/-- From the start of a program on, its heap lies above its image and is
backed, as long as the static path finds the break clear of the image and
the VMA of every growth fits. -/
theorem heap_clear_of_image {s₀ s₁ s : MemSys} {lib : LibProvider} {elfData : List UInt8} {elf : Elf64}
    {segs : List PtLoad} {dyn : Bool} {u : Uprocs} {h : List Unit} (hparse : Elf64.parse elfData = some elf)
    (hsegs : elf.loadSegments = some segs) (hdyn : needsDynlink elfData = some dyn)
    (hstart : s₀.Starts lib elfData u s₁) (hclear : dyn = false → ∀ p ∈ u.cur, BreakClear 0 segs p)
    (hr : Runs brkStep GrowthFits s₁ h s) :
    ∀ p, s.procs.cur = some p → AboveImage (imageBase elf dyn) segs p ∧ s.HeapBacked p := by
  have hok : HeapOK (imageBase elf dyn) segs s :=
    hr.invariant_state (HeapOK (imageBase elf dyn) segs) (.start (hstart.clear hparse hsegs hdyn hclear))
      fun hok hfit hs => hok.brk hfit hs
  exact hok

/-- Any VMA fits a table without valid entries. -/
theorem VmaTable.fits_of_invalid {t : VmaTable} {new : VmaEntry} (h : ∀ e ∈ t.1, e.valid = false) : t.Fits new := by
  have hcov : ∀ e ∈ t.1, ∀ v, e.covers v = false := fun e he v => by rw [VmaEntry.covers, h e he, Bool.false_and]
  have hnone : t.1.findIdx? (·.startsAt new.base) = none :=
    List.findIdx?_eq_none_iff.mpr fun e he => by rw [VmaEntry.startsAt, h e he, Bool.false_and]
  rw [VmaTable.Fits, hnone]
  refine ⟨fun v _ => .inl ?_, fun v _ y hy hv => ?_⟩
  · rw [before, answer, List.find?_eq_none.mpr fun e he => ?_, Option.map_none]
    rw [hcov e (List.mem_of_mem_take he)]
    decide
  · rw [hcov y (List.mem_of_getElem? hy)] at hv
    cases hv

/-- A process with its break at `0x20000`. -/
def smallProcess : MemSys :=
  { MemSys.boot bootMachine with
    procs := ((MemSys.boot bootMachine).procs.register 1 0 0 0).2.update fun p =>
      { p with brkBase := 0x20000, brkCur := 0x20000 } }

/-- It is replaced by a static program that ends below, and asks for two pages. -/
theorem heap_clear_of_image_small : ∃ (elf : Elf64) (s : MemSys) (p : UserProc), Elf64.parse (twoByteElf 0x10000) = some elf ∧
    s.procs.cur = some p ∧ p.brkCur = 0x22000 ∧ AboveImage (imageBase elf false) [twoByteSegment 0x10000] p ∧
    s.HeapBacked p := by
  obtain ⟨elf, hparse, hsegs⟩ := Option.bind_eq_some_iff.mp
    (show (Elf64.parse (twoByteElf 0x10000)).bind Elf64.loadSegments = some [twoByteSegment 0x10000] by
      decide +kernel)
  obtain ⟨⟨image, s₁⟩, hexec, hP⟩ := (Option.any_eq_true
    (fun (r : (Nat × Nat × Nat) × MemSys) => (r.2.brkStep 0x22000).any fun b =>
      b.2.procs.cur.any fun (p : UserProc) => p.brkCur == 0x22000)
    (smallProcess.execReplace (fun _ => none) (twoByteElf 0x10000))).mp (by decide +kernel)
  obtain ⟨⟨es, s⟩, hbrk, hP⟩ := (Option.any_eq_true _ _).mp hP
  obtain ⟨p, hp, hcur⟩ := (Option.any_eq_true _ _).mp hP
  have hfit : GrowthFits [] s₁ 0x22000 := by
    intro q _ new _ _
    rw [(execReplace_tables hexec).1]
    refine VmaTable.fits_of_invalid fun e he => ?_
    obtain ⟨e', -, rfl⟩ := List.mem_map.mp he
    rfl
  have hclear : ∀ p ∈ smallProcess.procs.cur, BreakClear 0 [twoByteSegment 0x10000] p := by
    intro q hq
    cases hq
    exact ⟨fun seg hseg => List.mem_singleton.mp hseg ▸ by decide, Nat.le_refl _⟩
  have hstatic : needsDynlink (twoByteElf 0x10000) = some false := by decide +kernel
  have hheap := heap_clear_of_image hparse hsegs hstatic (.replace hexec) (fun _ => hclear)
    (.next .start hfit hbrk) p hp
  exact ⟨elf, s, p, hparse, hp, beq_iff_eq.mp hcur, hheap⟩

/-- The first program starts with its break at 0, under its image. -/
theorem heap_starts_under_image : ∃ elf image s p, Elf64.parse (twoByteElf 0x10000) = some elf ∧
    elf.loadSegments = some [twoByteSegment 0x10000] ∧
    (MemSys.boot bootMachine).enterElf (fun _ => none) (twoByteElf 0x10000) 1 0 = some (image, s) ∧
    s.procs.cur = some p ∧ ¬AboveImage (imageBase elf false) [twoByteSegment 0x10000] p := by
  obtain ⟨elf, hparse, hsegs⟩ := Option.bind_eq_some_iff.mp
    (show (Elf64.parse (twoByteElf 0x10000)).bind Elf64.loadSegments = some [twoByteSegment 0x10000] by
      decide +kernel)
  obtain ⟨⟨image, s⟩, henter, hP⟩ := (Option.any_eq_true
    (fun (r : (Nat × Nat × Nat) × MemSys) => r.2.procs.cur.any fun (p : UserProc) => p.brkBase == 0)
    ((MemSys.boot bootMachine).enterElf (fun _ => none) (twoByteElf 0x10000) 1 0)).mp (by decide +kernel)
  obtain ⟨p, hp, hzero⟩ := (Option.any_eq_true _ _).mp hP
  refine ⟨elf, image, s, p, hparse, hsegs, henter, hp, fun h => ?_⟩
  have hend := h _ (List.mem_singleton_self _)
  rw [beq_iff_eq.mp hzero] at hend
  cases hend

end ChodOs
