/-
Where the dynamic linker puts its modules. `load_exec` has a fixed address
for the executable and one for the interpreter, and a slot of 16 MB for each
library that it finds; how long a module is, and how many there are, it does
not check.
-/
import ChodOs.Paging.Orderly
import ChodOs.User.Dynlink

namespace ChodOs

open Pt Elf

/-! ## The modules of a program -/

/-- The pages from `r.1` up to `r.2`. -/
def RangeHas (r : Nat × Nat) (p : Nat) : Prop := r.1 ≤ p ∧ p < r.2

/-- Two ranges have a page in common. -/
def RangesMeet (r s : Nat × Nat) : Prop := max r.1 s.1 < min r.2 s.2

instance (r s : Nat × Nat) : Decidable (RangesMeet r s) := inferInstanceAs (Decidable (_ < _))

/-- The pages of a segment that is loaded from `slotBase` on, `page_start` to `page_end`. -/
def segmentRange (slotBase : Nat) (seg : PtLoad) : Nat × Nat :=
  ((slotBase + seg.vaddr) / pageSize, (slotBase + seg.vaddr + seg.memsz + 0xFFF) / pageSize)

/-- The pages of the user stack. -/
def stackRange : Nat × Nat := ((userStackTop - userStackPages * pageSize) / pageSize, userStackTop / pageSize)

/-- A file, and where its addresses count from. -/
structure LoadedModule where
  name : String
  data : List UInt8
  base : Nat

namespace LoadedModule

def segments (x : LoadedModule) : List PtLoad := ((Elf64.parse x.data).bind Elf64.loadSegments).getD []

def ranges (x : LoadedModule) : List (Nat × Nat) := x.segments.map (segmentRange x.base)

/-- The segments lie at user addresses. -/
def User (x : LoadedModule) : Prop := ∀ seg ∈ x.segments, x.base + seg.vaddr + seg.memsz ≤ 2 ^ 47

/-- A page of one of the segments. -/
def HasPage (x : LoadedModule) (p : Nat) : Prop := ∃ r ∈ x.ranges, RangeHas r p

instance (x : LoadedModule) : Decidable x.User := inferInstanceAs (Decidable (∀ _ ∈ _, _))

end LoadedModule

/-- The names that a file's `DT_NEEDED` entries give. -/
def neededBy (data : List UInt8) : Option (List String) := do
  let elf ← Elf64.parse data
  let dyn := (← elf.dynamicEntries).foldl DynInfo.add .empty
  let strtabFoff := (← elf.vaddrToFileOff dyn.strtabVa).getD 0
  dyn.neededIdxs.filterMapM fun idx => do some ((← elf.dynStr strtabFoff idx).bind fromUtf8)

/-- What one name leads to: the library, if it is found now, the next slot, and the names that it needs. -/
def libraryFor (lib : LibProvider) (seen : List String) (slot : Nat) (depName : String) :
    Option (List LoadedModule × Nat × List String) :=
  if seen.contains depName then some ([], slot, [])
  else
    match lib (baseName depName) with
    | none => some ([], slot, [])
    | some data => (addU64 slot soSlotSize).map fun next =>
      if (Elf64.parse data).isNone then ([], next, [])
      else ([⟨baseName depName, data, slot⟩], next, (neededBy data).getD [])

theorem libraryFor_cases {lib : LibProvider} {seen : List String} {slot next : Nat} {depName : String}
    {found : List LoadedModule} {sub : List String} (h : libraryFor lib seen slot depName = some (found, next, sub)) :
    (next = slot ∧ sub = []) ∨ DynLinker.room next < DynLinker.room slot := by
  unfold libraryFor at h
  split at h
  · cases h
    exact .inl ⟨rfl, rfl⟩
  · split at h
    · cases h
      exact .inl ⟨rfl, rfl⟩
    · obtain ⟨next', hnext, h⟩ := Option.map_eq_some_iff.mp h
      have hroom := DynLinker.room_lt hnext
      split at h <;> cases h <;> exact .inr hroom

/-- The libraries that the names lead to, each in the next slot: what one
needs itself comes before the rest, and none comes twice. -/
def librariesFrom (lib : LibProvider) (seen : List String) (slot : Nat) : List String → List LoadedModule
  | [] => []
  | depName :: rest =>
    match _h : libraryFor lib seen slot depName with
    | none => []
    | some (found, next, sub) => found ++ librariesFrom lib (seen ++ found.map (·.name)) next (sub ++ rest)
termination_by names => (DynLinker.room slot, names.length)
decreasing_by
  rcases libraryFor_cases _h with ⟨hslot, hsub⟩ | hroom
  · rw [hslot, hsub, List.nil_append]
    exact Prod.Lex.right _ (Nat.lt_succ_self _)
  · exact Prod.Lex.left _ _ hroom

/-- The interpreter, if there is one. -/
def interpreterOf (elf : Elf64) (lib : LibProvider) : List LoadedModule :=
  match elf.interp with
  | some (some interpPath) =>
    let libName := baseName ((fromUtf8 interpPath).getD "")
    ((lib libName).map fun data => ⟨libName, data, interpLoadBase⟩).toList
  | _ => []

/-- The modules of an executable: itself, the interpreter and the libraries. -/
def modulesOf (execData : List UInt8) (lib : LibProvider) : List LoadedModule :=
  match Elf64.parse execData with
  | none => []
  | some elf =>
    let first := ⟨"(exec)", execData, DynLinker.execBase elf⟩ :: interpreterOf elf lib
    first ++ librariesFrom lib (first.map (·.name)) soLoadBase ((neededBy execData).getD [])

/-! ## No overlap -/

/-- No segment meets one of another module, or the stack. -/
structure ModulesApart (xs : List LoadedModule) : Prop where
  modules : xs.Pairwise fun x y => ∀ r ∈ x.ranges, ∀ s ∈ y.ranges, ¬ RangesMeet r s
  stack : ∀ x ∈ xs, ∀ r ∈ x.ranges, ¬ RangesMeet r stackRange

namespace Phys

/-- What is loaded of a module. -/
def loadModule (root : Nat) (m : Phys) (x : LoadedModule) : Option Phys := do
  let (lib, m) ← m.loadSoAt x.name x.data root x.base
  lib.map fun _ => m

/-- Loaded one after the other, none of the modules takes a page away from those before it. -/
def NoneReplaced (root : Nat) : Phys → List LoadedModule → Prop
  | _, [] => True
  | m, x :: xs => ∀ m', loadModule root m x = some m' →
      (∀ va e, userHalf (idx 39 va) → m.pte root va = some e → m'.pte root va = some e) ∧ NoneReplaced root m' xs

/-- Nothing is mapped where the stack goes. -/
def StackFree (root : Nat) (m : Phys) : Prop :=
  ∀ va, userHalf (idx 39 va) → RangeHas stackRange (pageOf va) → m.pte root va = none

end Phys

/-- What the linker has loaded, as it remembers it. -/
def DynLinker.modules (d : DynLinker) : List LoadedModule :=
  (d.libs.zip d.elfBufs).map fun (l, data) => ⟨l.name, data, l.loadBase⟩

/-! ## What a load maps -/

namespace Phys

variable {m m' m₁ m₂ : Phys} {root cr3 va pa flags t i slotBase mapped stop : Nat} {data : List UInt8} {seg : PtLoad}
  {segs : List PtLoad} {P Q : Nat → Prop}

theorem getOrCreate_free (h : m.getOrCreate t i flags = some (pa, m')) : m'.free ⊆ m.free := by
  unfold getOrCreate at h
  obtain ⟨m₁, hm, he⟩ := Option.map_eq_some_iff.mp h
  cases he
  split at hm
  · cases hm
    exact Finset.Subset.refl _
  · obtain ⟨⟨t', m₂⟩, htable, rfl⟩ := Option.map_eq_some_iff.mp hm
    obtain ⟨⟨f, m₃⟩, ha, htable⟩ := Option.bind_eq_some_iff.mp htable
    cases htable
    obtain ⟨g, -, hal⟩ := alloc_cases ha
    show m₃.free ⊆ m.free
    rw [hal.free]
    exact Finset.erase_subset _ _

/-- Mapping a page takes frames and gives none back. -/
theorem map4k_free (h : m.map4k root va pa flags = some m') : m'.free ⊆ m.free := by
  simp only [map4k, Option.bind_eq_bind, Option.bind_eq_some_iff, Option.some.injEq, Prod.exists] at h
  obtain ⟨_, m₁, h₁, _, m₂, h₂, _, m₃, h₃, rfl⟩ := h
  exact ((getOrCreate_free h₃).trans (getOrCreate_free h₂)).trans (getOrCreate_free h₁)

/-- The pages of `P`, and no others, have been mapped to frames that were free before. -/
structure Populates (root : Nat) (P : Nat → Prop) (m m' : Phys) : Prop where
  space : Space m' root
  free : m'.free ⊆ m.free
  new : ∀ va, userHalf (idx 39 va) → P (pageOf va) → ∃ e, m'.pte root va = some e ∧ e / pageSize ∈ m.free
  old : ∀ va, userHalf (idx 39 va) → ¬ P (pageOf va) → m'.pte root va = m.pte root va

theorem Space.populates_nothing (h : Space m root) (hP : ∀ p, ¬ P p) : Populates root P m m :=
  ⟨h, Finset.Subset.refl _, fun _ _ hp => absurd hp (hP _), fun _ _ _ => rfl⟩

theorem Populates.trans (h : Populates root P m m₁) (h' : Populates root Q m₁ m₂) : Populates root (fun p => P p ∨ Q p) m m₂ where
  space := h'.space
  free := h'.free.trans h.free
  new va hva hp := by
    by_cases hq : Q (pageOf va)
    · obtain ⟨e, he, hf⟩ := h'.new va hva hq
      exact ⟨e, he, h.free hf⟩
    · rw [h'.old va hva hq]
      exact h.new va hva (hp.resolve_right hq)
  old va hva hp := by
    rw [not_or] at hp
    rw [h'.old va hva hp.2, h.old va hva hp.1]

theorem Populates.congr (h : Populates root P m m') (hPQ : ∀ va, userHalf (idx 39 va) → (P (pageOf va) ↔ Q (pageOf va))) :
    Populates root Q m m' where
  space := h.space
  free := h.free
  new va hva hq := h.new va hva ((hPQ va hva).mpr hq)
  old va hva hq := h.old va hva fun hp => hq ((hPQ va hva).mp hp)

/-- Where the bytes of a segment in the page at `va` end. -/
def copyEnd (mapped : Nat) (seg : PtLoad) (va : Nat) : Nat := min (mapped + seg.filesz) (va + pageSize)

/-- A frame is cleared, and gets the bytes of the segment in the page. -/
theorem loadSoPage_cases (hrun : m.loadSoPage cr3 data mapped seg va = some m') : ∃ (f : Nat) (m₁ m₂ : Phys),
    m.Allocs f m₁ ∧ m₂.map4k (addrOf cr3) va (f * pageSize) (userFlags (seg.flags.testBit 1)) = some m' ∧
      (m₂ = m₁.zeroPage (f * pageSize) ∧
          (max mapped va < copyEnd mapped seg va → data.length < seg.offset + (copyEnd mapped seg va - mapped)) ∨
        max mapped va < copyEnd mapped seg va ∧ m₂ = (m₁.zeroPage (f * pageSize)).copyIn data
          (seg.offset + (max mapped va - mapped)) (f * pageSize + (max mapped va - va))
          (copyEnd mapped seg va - max mapped va)) := by
  simp only [loadSoPage, Option.bind_eq_bind, Option.bind_eq_some_iff, Prod.exists] at hrun
  obtain ⟨phys, m₁, ha, pageVaEnd, hend, fileEnd, hfile, hrun⟩ := hrun
  obtain ⟨-, rfl⟩ := addU64_eq_some.mp hend
  obtain ⟨-, rfl⟩ := addU64_eq_some.mp hfile
  obtain ⟨f, rfl, hal⟩ := alloc_cases ha
  split at hrun
  · next hlt =>
    simp only [Option.bind_eq_some_iff] at hrun
    obtain ⟨srcOff, hsrc, srcEnd, hsrcEnd, m₂, hcopy, hmap⟩ := hrun
    obtain ⟨-, rfl⟩ := addU64_eq_some.mp hsrc
    obtain ⟨-, rfl⟩ := addU64_eq_some.mp hsrcEnd
    refine ⟨f, m₁, m₂, hal, hmap, ?_⟩
    cases hcopy
    split
    · exact .inr ⟨hlt, rfl⟩
    · next hout =>
      refine .inl ⟨rfl, fun _ => ?_⟩
      simp only [copyEnd]
      omega
  · next hge =>
    rw [Option.bind_some] at hrun
    exact ⟨f, m₁, _, hal, hrun, .inl ⟨rfl, fun hlt => absurd hlt hge⟩⟩

/-- What is stored of a page of a segment is in its frame. -/
theorem loadSoPage_eq (hrun : m.loadSoPage cr3 data mapped seg va = some m') : ∃ (f : Nat) (m₁ m₂ : Phys), m.Allocs f m₁ ∧
    m₂.free = m₁.free ∧ m₂.kernelCr3 = m₁.kernelCr3 ∧ (∀ x, x / pageSize ≠ f → m₂.bytes x = m.bytes x) ∧
    m₂.map4k (addrOf cr3) va (f * pageSize) (userFlags (seg.flags.testBit 1)) = some m' := by
  obtain ⟨f, m₁, m₂, hal, hmap, hcopy⟩ := loadSoPage_cases hrun
  rcases hcopy with ⟨rfl, -⟩ | ⟨hlt, rfl⟩
  · exact ⟨f, m₁, m₁.zeroPage (f * pageSize), hal, rfl, rfl, fun x hx => hal.zeroPage_bytes hx, hmap⟩
  · refine ⟨f, m₁, (m₁.zeroPage (f * pageSize)).copyIn data _ _ _, hal, rfl, rfl,
      fun x hx => Eq.trans ?_ (hal.zeroPage_bytes hx), hmap⟩
    refine copyIn_frame (fun y hy hy' => ?_) hx
    simp only [copyEnd, pageSize] at *
    omega

theorem Space.loadSoPage (h : Space m (addrOf cr3)) (hva : userHalf (idx 39 va))
    (hrun : m.loadSoPage cr3 data mapped seg va = some m') : Populates (addrOf cr3) (· = pageOf va) m m' := by
  obtain ⟨f, m₁, m₂, hal, hfree, hcr3, hbytes, hmap⟩ := loadSoPage_eq hrun
  have hflags : userFlags (seg.flags.testBit 1) < pageSize := by cases seg.flags.testBit 1 <;> decide
  obtain ⟨htouched, hpte⟩ := h.newPage hal hfree hcr3 hbytes hva hflags hmap
  refine ⟨htouched.space, ?_, fun va' hva' hp => ⟨_, (hpte hva').trans (if_pos hp), ?_⟩, fun va' hva' hp =>
    (hpte hva').trans (if_neg hp)⟩
  · refine (map4k_free hmap).trans ?_
    rw [hfree, hal.free]
    exact Finset.erase_subset _ _
  · rw [Nat.or_assoc, ← addrOf_div, addrOf_lor (Nat.mul_mod_left _ _)
      (Nat.or_lt_two_pow (n := 12) hflags (by decide)), Nat.mul_div_cancel _ (by decide)]
    exact hal.mem

theorem Space.loadSoSegment (h : Space m (addrOf cr3)) (huser : slotBase + seg.vaddr + seg.memsz ≤ 2 ^ 47)
    (hrun : loadSoSegment cr3 slotBase data m seg = some (stop, m')) :
    Populates (addrOf cr3) (RangeHas (segmentRange slotBase seg)) m m' := by
  simp only [Phys.loadSoSegment, Option.bind_eq_bind, Option.bind_eq_some_iff, addU64_eq_some, Option.some.injEq,
    Prod.mk.injEq] at hrun
  obtain ⟨mapped, ⟨-, rfl⟩, _, ⟨-, rfl⟩, _, ⟨-, rfl⟩, m₁, hrun, -, rfl⟩ := hrun
  generalize hlo : (slotBase + seg.vaddr) / pageSize = lo
  have hloop := Loop.invariant_range (fun i m' => Populates (addrOf cr3) (RangeHas (lo, lo + i)) m m') hrun
    (h.populates_nothing fun p hp => by simp only [RangeHas] at hp; omega) fun {i s s'} hi hI hstep => ?_
  · refine hloop.congr fun va hva => ?_
    simp only [RangeHas, segmentRange, addrOf, pageSize] at hlo ⊢
    omega
  · have hpage : addrOf (slotBase + seg.vaddr) + i * pageSize = (lo + i) * pageSize := by
      rw [addrOf, hlo, Nat.add_mul]
    rw [hpage] at hstep
    obtain ⟨hva, hpageOf⟩ := @page_user (lo + i) (by simp only [addrOf, pageSize] at *; omega)
    refine (hI.trans (hI.space.loadSoPage hva hstep)).congr fun va' _ => ?_
    rw [hpageOf]
    simp only [RangeHas]
    omega

theorem Space.loadSoSegments (h : Space m (addrOf cr3))
    (huser : ∀ seg ∈ segs, slotBase + seg.vaddr + seg.memsz ≤ 2 ^ 47)
    (hrun : loadSoSegments cr3 slotBase data segs m = some (stop, m')) :
    Populates (addrOf cr3) (fun p => ∃ seg ∈ segs, RangeHas (segmentRange slotBase seg) p) m m' := by
  have hloop := Loop.invariant (fun done (s : Nat × Phys) =>
    Populates (addrOf cr3) (fun p => ∃ seg ∈ done, RangeHas (segmentRange slotBase seg) p) m s.2) hrun
    (h.populates_nothing fun p hp => by simp at hp) fun {done seg rest s s'} hl hI hstep => ?_
  · exact hloop
  · obtain ⟨⟨pageEnd, m₁⟩, hseg, he⟩ := Option.bind_eq_some_iff.mp hstep
    cases he
    have hmem : seg ∈ segs := by rw [hl]; simp
    refine (hI.trans (hI.space.loadSoSegment (huser seg hmem) hseg)).congr fun va _ => ?_
    simp only [List.mem_append, List.mem_singleton, or_and_right, exists_or, exists_eq_left]

/-- `load_so_at` refuses what is not an ELF file; else it maps the segments. -/
theorem loadSoAt_cases {name : String} {lib : Option SharedLib} (h : m.loadSoAt name data cr3 slotBase = some (lib, m')) :
    (lib = none ∧ m' = m ∧ Elf64.parse data = none) ∨
    ∃ l elf segs stop, lib = some l ∧ l.name = name ∧ l.loadBase = slotBase ∧ neededBy data = some l.needed ∧
      Elf64.parse data = some elf ∧ elf.loadSegments = some segs ∧
      loadSoSegments cr3 slotBase data segs m = some (stop, m') := by
  cases hparse : Elf64.parse data with
  | none =>
    rw [loadSoAt, hparse] at h
    cases h
    exact .inl ⟨rfl, rfl, rfl⟩
  | some elf =>
    simp only [loadSoAt, hparse, Option.bind_eq_bind, Option.bind_eq_some_iff, Option.some.injEq, Prod.exists,
      Prod.mk.injEq] at h
    obtain ⟨segs, hsegs, stop, m₁, hload, entries, hdyn, _, -, str, hstr, _, -, _, -, needed, hneeded, _, -, rfl, rfl⟩ := h
    refine .inr ⟨_, elf, segs, stop, rfl, rfl, rfl, ?_, rfl, hsegs, hload⟩
    simp only [neededBy, hparse, Option.bind_eq_bind, Option.bind_some, hdyn, hstr]
    exact hneeded

variable {x : LoadedModule} {xs : List LoadedModule}

theorem loadModule_cases (h : loadModule root m x = some m') :
    ∃ stop, loadSoSegments root x.base x.data x.segments m = some (stop, m') := by
  obtain ⟨⟨lib, m₁⟩, hso, h⟩ := Option.bind_eq_some_iff.mp h
  obtain ⟨l, hlib, he⟩ := Option.map_eq_some_iff.mp h
  rcases loadSoAt_cases hso with ⟨hnone, -, -⟩ | ⟨_, elf, segs, stop, -, -, -, -, hparse, hsegs, hload⟩
  · rw [hnone] at hlib
    cases hlib
  · refine ⟨stop, ?_⟩
    rw [LoadedModule.segments, hparse, Option.bind_some, hsegs, Option.getD_some]
    exact he ▸ hload

theorem Space.loadModule (h : Space m root) (huser : x.User) (hrun : Phys.loadModule root m x = some m') :
    Populates root x.HasPage m m' := by
  obtain ⟨stop, hload⟩ := loadModule_cases hrun
  have hroot : addrOf root = root := addrOf_eq h.tree.aligned
  have hpop := @Space.loadSoSegments m m' root x.base stop x.data x.segments (by rwa [hroot]) huser hload
  rw [hroot] at hpop
  exact hpop.congr fun va _ => by simp [LoadedModule.HasPage, LoadedModule.ranges]

/-- All that is mapped is mapped by one of the modules. -/
theorem Space.loadModules (h : Space m root) (huser : ∀ x ∈ xs, x.User)
    (hrun : xs.foldlM (Phys.loadModule root) m = some m') :
    Populates root (fun p => ∃ x ∈ xs, x.HasPage p) m m' := by
  refine Loop.invariant (fun done m' => Populates root (fun p => ∃ x ∈ done, x.HasPage p) m m') hrun
    (h.populates_nothing fun p hp => by simp at hp) fun {done x rest s s'} hl hI hstep => ?_
  refine (hI.trans (hI.space.loadModule (huser x (by rw [hl]; simp)) hstep)).congr fun va _ => ?_
  simp only [List.mem_append, List.mem_singleton, or_and_right, exists_or, exists_eq_left]

/-! ## When one replaces another's mapping -/

/-- A load leaves what is mapped just in case it maps none of those pages itself. -/
theorem Populates.keeps_iff (h : Space m root) (hpop : Populates root P m m') :
    (∀ va e, userHalf (idx 39 va) → m.pte root va = some e → m'.pte root va = some e) ↔
      ∀ va, userHalf (idx 39 va) → P (pageOf va) → m.pte root va = none := by
  constructor
  · intro hkeep va hva hp
    by_contra hne
    obtain ⟨e, he⟩ := Option.ne_none_iff_exists'.mp hne
    obtain ⟨e', he', hfree⟩ := hpop.new va hva hp
    obtain rfl := Option.some.inj ((hkeep va e hva he).symm.trans he')
    exact h.used (.inr ⟨va, e, hva, he, rfl⟩) hfree
  · intro hnone va e hva he
    rw [hpop.old va hva fun hp => ?_, he]
    rw [hnone va hva hp] at he
    cases he

/-- What is not mapped after a load was not before, nor is it one of its pages. -/
theorem Populates.pte_eq_none_iff (hpop : Populates root P m m') (hva : userHalf (idx 39 va)) :
    m'.pte root va = none ↔ ¬ P (pageOf va) ∧ m.pte root va = none := by
  by_cases hp : P (pageOf va)
  · obtain ⟨e, he, -⟩ := hpop.new va hva hp
    simp [he, hp]
  · simp [hpop.old va hva hp, hp]

/-- No module has a page that is mapped before all of them, or by one of those before it. -/
theorem noneReplaced_iff (h : Space m root) (huser : ∀ x ∈ xs, x.User)
    (hrun : xs.foldlM (Phys.loadModule root) m = some m') : NoneReplaced root m xs ↔
      xs.Pairwise (fun x y => ∀ va, userHalf (idx 39 va) → x.HasPage (pageOf va) → ¬ y.HasPage (pageOf va)) ∧
      ∀ x ∈ xs, ∀ va, userHalf (idx 39 va) → x.HasPage (pageOf va) → m.pte root va = none := by
  induction xs generalizing m with
  | nil => simp [NoneReplaced]
  | cons x xs ih =>
    rw [List.foldlM_cons] at hrun
    obtain ⟨m₁, hx, hrun⟩ := Option.bind_eq_some_iff.mp hrun
    have hpop := h.loadModule (huser x List.mem_cons_self) hx
    have hfirst : NoneReplaced root m (x :: xs) ↔
        (∀ va, userHalf (idx 39 va) → x.HasPage (pageOf va) → m.pte root va = none) ∧ NoneReplaced root m₁ xs := by
      rw [← hpop.keeps_iff h]
      exact ⟨fun hn => hn m₁ hx, fun hn m₂ hm₂ => Option.some.inj (hx.symm.trans hm₂) ▸ hn⟩
    have hrest : (∀ y ∈ xs, ∀ va, userHalf (idx 39 va) → y.HasPage (pageOf va) → m₁.pte root va = none) ↔
        (∀ y ∈ xs, ∀ va, userHalf (idx 39 va) → x.HasPage (pageOf va) → ¬ y.HasPage (pageOf va)) ∧
        ∀ y ∈ xs, ∀ va, userHalf (idx 39 va) → y.HasPage (pageOf va) → m.pte root va = none := by
      constructor
      · intro hnone
        exact ⟨fun y hy va hva hxp hyp => ((hpop.pte_eq_none_iff hva).mp (hnone y hy va hva hyp)).1 hxp,
          fun y hy va hva hyp => ((hpop.pte_eq_none_iff hva).mp (hnone y hy va hva hyp)).2⟩
      · intro ⟨hap, hnone⟩ y hy va hva hyp
        exact (hpop.pte_eq_none_iff hva).mpr ⟨fun hxp => hap y hy va hva hxp hyp, hnone y hy va hva hyp⟩
    rw [hfirst, ih hpop.space (fun y hy => huser y (List.mem_cons_of_mem _ hy)) hrun, hrest, List.pairwise_cons,
      List.forall_mem_cons]
    exact ⟨fun ⟨hfree, hpair, hap, hnone⟩ => ⟨⟨hap, hpair⟩, hfree, hnone⟩,
      fun ⟨⟨hap, hpair⟩, hfree, hnone⟩ => ⟨hfree, hpair, hap, hnone⟩⟩

end Phys

namespace LoadedModule

variable {x y : LoadedModule} {xs : List LoadedModule} {r s : Nat × Nat}

theorem rangesMeet_iff : RangesMeet r s ↔ ∃ p, RangeHas r p ∧ RangeHas s p := by
  simp only [RangesMeet, RangeHas]
  exact ⟨fun h => ⟨max r.1 s.1, by omega⟩, fun ⟨p, hr, hs⟩ => by omega⟩

/-- The pages at user addresses are those of the lower half. -/
theorem User.page_lt (h : x.User) {p : Nat} (hp : x.HasPage p) : p < 2 ^ 35 := by
  obtain ⟨r, hr, hin⟩ := hp
  obtain ⟨seg, hseg, rfl⟩ := List.mem_map.mp hr
  have hend := h seg hseg
  simp only [RangeHas, segmentRange, pageSize] at hin
  omega

/-- On user pages, as on all pages. -/
theorem User.forall_iff (h : x.User) {P : Nat → Prop} :
    (∀ va, Phys.userHalf (idx 39 va) → x.HasPage (pageOf va) → P (pageOf va)) ↔ ∀ p, x.HasPage p → P p := by
  refine ⟨fun hall p hp => ?_, fun hall va _ hp => hall _ hp⟩
  obtain ⟨hva, hpage⟩ := Phys.page_user (h.page_lt hp)
  have hthis := hall (p * pageSize) hva
  rw [hpage] at hthis
  exact hthis hp

theorem apart_iff : (∀ r ∈ x.ranges, ∀ s ∈ y.ranges, ¬ RangesMeet r s) ↔ ∀ p, x.HasPage p → ¬ y.HasPage p := by
  simp only [rangesMeet_iff, HasPage, not_exists, not_and]
  exact ⟨fun h p ⟨r, hr, hrp⟩ s hs hsp => h r hr s hs p hrp hsp, fun h r hr s hs p hrp hsp => h p ⟨r, hr, hrp⟩ s hs hsp⟩

theorem stack_iff : (∀ r ∈ x.ranges, ¬ RangesMeet r stackRange) ↔ ∀ p, x.HasPage p → ¬ RangeHas stackRange p := by
  simp only [rangesMeet_iff, HasPage, not_exists, not_and]
  exact ⟨fun h p ⟨r, hr, hrp⟩ hsp => h r hr p hrp hsp, fun h r hr p hrp hsp => h p ⟨r, hr, hrp⟩ hsp⟩

end LoadedModule

/-! ## What `load_exec` loads -/

namespace DynLinker

variable {d d₁ d₂ d' : DynLinker} {m m₁ m' : Phys} {elf : Elf64} {data : List UInt8} {lib : LibProvider}
  {xs ys : List LoadedModule}

/-- Between `d` and `d'` the modules `xs` have been loaded. -/
structure Loads (d : DynLinker) (m : Phys) (xs : List LoadedModule) (d' : DynLinker) (m' : Phys) : Prop where
  cr3 : d'.cr3 = d.cr3
  libs : d.libs <+: d'.libs
  paired : d'.libs.length = d'.elfBufs.length
  modules : d'.modules = d.modules ++ xs
  loads : xs.foldlM (Phys.loadModule d.cr3) m = some m'

theorem Loads.nil (hpaired : d.libs.length = d.elfBufs.length) : Loads d m [] d m :=
  ⟨rfl, List.prefix_rfl, hpaired, (List.append_nil _).symm, rfl⟩

theorem Loads.trans (h : Loads d m xs d₁ m₁) (h' : Loads d₁ m₁ ys d' m') : Loads d m (xs ++ ys) d' m' where
  cr3 := h'.cr3.trans h.cr3
  libs := h.libs.trans h'.libs
  paired := h'.paired
  modules := by rw [h'.modules, h.modules, List.append_assoc]
  loads := by
    rw [Loop.foldlM_append, h.loads, Option.bind_some, ← h.cr3]
    exact h'.loads

theorem neededBy_eq {name : String} {cr3 base : Nat} {l : SharedLib}
    (h : m.loadSoAt name data cr3 base = some (some l, m')) : neededBy data = some l.needed := by
  rcases Phys.loadSoAt_cases h with ⟨hnone, -, -⟩ | ⟨_, _, _, _, hl, -, -, hneeded, -, -, -⟩
  · cases hnone
  · exact Option.some.inj hl ▸ hneeded

/-- A file that is loaded is remembered. -/
theorem Loads.push {name : String} {base : Nat} {l : SharedLib} (hpaired : d.libs.length = d.elfBufs.length)
    (hcr3 : d₁.cr3 = d.cr3) (hlibs : d₁.libs = d.libs) (hbufs : d₁.elfBufs = d.elfBufs)
    (h : m.loadSoAt name data d.cr3 base = some (some l, m')) : Loads d m [⟨name, data, base⟩] (d₁.push l data) m' := by
  rcases Phys.loadSoAt_cases h with ⟨hnone, -, -⟩ | ⟨l', elf, segs, stop, hl, hname, hbase, -⟩
  · cases hnone
  · obtain rfl := Option.some.inj hl
    refine ⟨hcr3, ?_, ?_, ?_, ?_⟩
    · rw [DynLinker.push, hlibs]
      exact List.prefix_append _ _
    · simp [DynLinker.push, hlibs, hbufs, hpaired]
    · simp only [DynLinker.modules, DynLinker.push, hlibs, hbufs]
      rw [List.zip_append hpaired, List.map_append, List.zip_cons_cons, List.zip_nil_left, List.map_singleton, hname, hbase]
    · rw [List.foldlM_cons, Phys.loadModule, h]
      rfl

theorem map_name_modules (hpaired : d.libs.length = d.elfBufs.length) :
    d.modules.map (·.name) = d.libs.map (·.name) := by
  rw [modules, List.map_map]
  have hzip : (d.libs.zip d.elfBufs).map Prod.fst = d.libs := List.map_fst_zip (Nat.le_of_eq hpaired)
  conv_rhs => rw [← hzip, List.map_map]
  rfl

theorem loadDep_loads {depName : String} {sub : List String} (hpaired : d.libs.length = d.elfBufs.length)
    (h : loadDep lib d m depName = some (d', m', sub)) :
    ∃ found, libraryFor lib (d.modules.map (·.name)) d.nextSlot depName = some (found, d'.nextSlot, sub) ∧
      Loads d m found d' m' := by
  have hseen : (d.modules.map (·.name)).contains depName = d.libs.any (·.name == depName) := by
    rw [map_name_modules hpaired, List.contains_eq_any_beq, List.any_map]
    exact congrArg (d.libs.any ·) (funext fun l => Bool.beq_comm)
  unfold loadDep at h
  unfold libraryFor
  rw [hseen]
  split at h
  · next hany =>
    cases h
    exact ⟨[], if_pos hany, .nil hpaired⟩
  · next hany =>
    rw [if_neg hany]
    cases hlib : lib (baseName depName) with
    | none =>
      simp only [hlib] at h
      cases h
      exact ⟨[], rfl, .nil hpaired⟩
    | some data =>
      simp only [hlib] at h
      obtain ⟨next, hnext, h⟩ := Option.bind_eq_some_iff.mp h
      obtain ⟨⟨l, m₁⟩, hso, h⟩ := Option.bind_eq_some_iff.mp h
      dsimp only
      rw [hnext, Option.map_some]
      cases l with
      | none =>
        cases h
        rcases Phys.loadSoAt_cases hso with ⟨-, rfl, hparse⟩ | ⟨_, _, _, _, hl, -⟩
        · exact ⟨[], by rw [hparse]; rfl, rfl, List.prefix_rfl, hpaired, (List.append_nil _).symm, rfl⟩
        · cases hl
      | some l =>
        cases h
        rcases Phys.loadSoAt_cases hso with ⟨hl, -, -⟩ | ⟨_, elf, _, _, -, -, -, -, hparse, -, -⟩
        · cases hl
        · refine ⟨[⟨baseName depName, data, d.nextSlot⟩], ?_, .push hpaired rfl rfl rfl hso⟩
          rw [hparse, neededBy_eq hso]
          rfl

theorem loadDeps_loads {needed : List String} (hpaired : d.libs.length = d.elfBufs.length)
    (h : loadDeps lib d m needed = some (d', m')) :
    Loads d m (librariesFrom lib (d.modules.map (·.name)) d.nextSlot needed) d' m' := by
  induction d, m, needed using loadDeps.induct lib with
  | case1 d m =>
    rw [loadDeps] at h
    cases h
    rw [librariesFrom]
    exact .nil hpaired
  | case2 d m depName rest hdep =>
    rw [loadDeps] at h
    split at h
    · cases h
    · next hdep' =>
      rw [hdep] at hdep'
      cases hdep'
  | case3 d m depName rest d₁ m₁ sub hdep ih =>
    rw [loadDeps] at h
    split at h
    · cases h
    · next hdep' =>
      rw [hdep] at hdep'
      cases hdep'
      obtain ⟨found, hfound, hloads⟩ := loadDep_loads hpaired hdep
      have hrest := ih hloads.paired h
      rw [hloads.modules, List.map_append] at hrest
      rw [librariesFrom]
      split
      · next hnone =>
        rw [hfound] at hnone
        cases hnone
      · next hsome =>
        rw [hfound] at hsome
        cases hsome
        exact hloads.trans hrest

theorem loadInterp_loads (hpaired : d.libs.length = d.elfBufs.length)
    (h : d.loadInterp m elf lib = some (some d', m')) :
    Loads d m (interpreterOf elf lib) d' m' ∧ d'.nextSlot = d.nextSlot := by
  obtain ⟨interp, hinterp, h⟩ := Option.bind_eq_some_iff.mp h
  rw [interpreterOf, hinterp]
  cases interp with
  | none =>
    cases h
    exact ⟨.nil hpaired, rfl⟩
  | some path =>
    dsimp only at h ⊢
    split at h
    · next hlib =>
      cases h
      rw [hlib]
      exact ⟨.nil hpaired, rfl⟩
    · next data hlib =>
      rw [hlib]
      split at h
      · cases h
      · obtain ⟨⟨l, m₁⟩, hso, h⟩ := Option.bind_eq_some_iff.mp h
        cases l with
        | none => cases h
        | some l =>
          simp only [Option.bind_eq_bind, Option.bind_eq_some_iff, Option.some.injEq, Prod.mk.injEq] at h
          obtain ⟨_, -, _, -, rfl, rfl⟩ := h
          dsimp only [Option.map_some, Option.toList_some]
          exact ⟨.push hpaired rfl rfl rfl hso, rfl⟩

theorem loadMain_loads (hpaired : d.libs.length = d.elfBufs.length)
    (h : d.loadMain m elf data = some (some d', m')) :
    Loads d m [⟨"(exec)", data, execBase elf⟩] d' m' ∧ d'.nextSlot = d.nextSlot ∧
      ∃ l, d'.libs = d.libs ++ [l] ∧ neededBy data = some l.needed := by
  obtain ⟨⟨l, m₁⟩, hso, h⟩ := Option.bind_eq_some_iff.mp h
  cases l with
  | none => cases h
  | some l =>
    simp only [Option.bind_eq_bind, Option.bind_eq_some_iff, Option.some.injEq, Prod.mk.injEq] at h
    obtain ⟨_, -, _, -, _, -, _, -, _, -, _, -, rfl, rfl⟩ := h
    exact ⟨.push hpaired rfl rfl rfl hso, rfl, l, rfl, neededBy_eq hso⟩

/-- `load_exec` loads the modules of the executable, in their order, and nothing else. -/
theorem loadExec_loads {root entry : Nat} (h : (new root).loadExec m data lib = some (some entry, d', m')) :
    d'.modules = modulesOf data lib ∧ (modulesOf data lib).foldlM (Phys.loadModule root) m = some m' := by
  cases hparse : Elf64.parse data with
  | none =>
    rw [loadExec, hparse] at h
    cases h
  | some elf =>
    rw [loadExec, hparse] at h
    obtain ⟨⟨o, m₁⟩, hmain, h⟩ := Option.bind_eq_some_iff.mp h
    cases o with
    | none => cases h
    | some d₁ =>
      obtain ⟨⟨o, m₂⟩, hinterp, h⟩ := Option.bind_eq_some_iff.mp h
      cases o with
      | none => cases h
      | some d₂ =>
        obtain ⟨⟨d₃, m₃⟩, hdeps, h⟩ := Option.bind_eq_some_iff.mp h
        cases h
        obtain ⟨h₁, hslot₁, l, hl, hneeded⟩ := loadMain_loads rfl hmain
        obtain ⟨h₂, hslot₂⟩ := loadInterp_loads h₁.paired hinterp
        have hhead : d₂.libs.head? = some l := by
          obtain ⟨rest, hrest⟩ := h₂.libs
          rw [← hrest, hl]
          rfl
        rw [hhead] at hdeps
        have hfirst := h₁.trans h₂
        have h₃ := loadDeps_loads h₂.paired hdeps
        rw [hslot₂, hslot₁, hfirst.modules] at h₃
        have hall := hfirst.trans h₃
        rw [modulesOf, hparse, hneeded]
        exact ⟨hall.modules, hall.loads⟩

end DynLinker

/-! ## When the modules are apart -/

namespace Phys

variable {m₀ m m' : Phys} {root : Nat} {xs : List LoadedModule}

theorem noneReplaced_iff_ranges (h : Space m root) (hempty : ∀ va, userHalf (idx 39 va) → m.pte root va = none)
    (huser : ∀ x ∈ xs, x.User) (hrun : xs.foldlM (Phys.loadModule root) m = some m') :
    NoneReplaced root m xs ↔ xs.Pairwise fun x y => ∀ r ∈ x.ranges, ∀ s ∈ y.ranges, ¬ RangesMeet r s := by
  rw [noneReplaced_iff h huser hrun, and_iff_left fun x _ va hva _ => hempty va hva]
  refine List.Pairwise.iff_of_mem fun {x y} hx _ => ?_
  rw [LoadedModule.apart_iff]
  exact @LoadedModule.User.forall_iff x (huser x hx) fun p => ¬ y.HasPage p

theorem stackFree_iff_ranges (h : Space m root) (hempty : ∀ va, userHalf (idx 39 va) → m.pte root va = none)
    (huser : ∀ x ∈ xs, x.User) (hrun : xs.foldlM (Phys.loadModule root) m = some m') :
    StackFree root m' ↔ ∀ x ∈ xs, ∀ r ∈ x.ranges, ¬ RangesMeet r stackRange := by
  have hpop := h.loadModules huser hrun
  have hfree : StackFree root m' ↔
      ∀ x ∈ xs, ∀ va, userHalf (idx 39 va) → x.HasPage (pageOf va) → ¬ RangeHas stackRange (pageOf va) := by
    constructor
    · intro hs x hx va hva hp hin
      exact ((hpop.pte_eq_none_iff hva).mp (hs va hva hin)).1 ⟨x, hx, hp⟩
    · intro hs va hva hin
      exact (hpop.pte_eq_none_iff hva).mpr ⟨fun ⟨x, hx, hp⟩ => hs x hx va hva hp hin, hempty va hva⟩
  rw [hfree]
  refine forall₂_congr fun x hx => ?_
  rw [LoadedModule.stack_iff]
  exact @LoadedModule.User.forall_iff x (huser x hx) fun p => ¬ RangeHas stackRange p

end Phys

/-- The modules that `load_exec` maps, one after the other, keep to pages of
their own and off the stack's just in case no two ranges of their segments
meet, with the executable and the interpreter at their addresses and each
library in the next slot of 16 MB. -/
theorem loaded_modules_apart_iff {m₀ m m' : Phys} {root entry : Nat} {data : List UInt8} {lib : LibProvider}
    {d : DynLinker} (hk : addrOf m₀.kernelCr3 / pageSize ∉ m₀.free) (hnew : m₀.allocUserPml4 = some (root, m))
    (hload : (DynLinker.new root).loadExec m data lib = some (some entry, d, m'))
    (huser : ∀ x ∈ modulesOf data lib, x.User) :
    d.modules.foldlM (Phys.loadModule root) m = some m' ∧
    (Phys.NoneReplaced root m d.modules ∧ Phys.StackFree root m' ↔ ModulesApart (modulesOf data lib)) := by
  obtain ⟨hmodules, hrun⟩ := DynLinker.loadExec_loads hload
  have hspace := (Phys.built_allocUserPml4 hk hnew).space
  have hempty : ∀ va, Phys.userHalf (idx 39 va) → m.pte root va = none := fun _ => Phys.newSpace_pte hnew
  rw [hmodules, Phys.noneReplaced_iff_ranges hspace hempty huser hrun, Phys.stackFree_iff_ranges hspace hempty huser hrun]
  exact ⟨hrun, fun ⟨hp, hs⟩ => ⟨hp, hs⟩, fun hap => ⟨hap.modules, hap.stack⟩⟩

/-! ## Two programs -/

namespace DynLinker

/-- `load_deps` with a bound on its turns, which can be run. -/
def runDeps (lib : LibProvider) : Nat → DynLinker → Phys → List String → Option (DynLinker × Phys)
  | _, d, m, [] => some (d, m)
  | 0, _, _, _ :: _ => none
  | n + 1, d, m, depName :: rest => do
    let (d, m, sub) ← loadDep lib d m depName
    runDeps lib n d m (sub ++ rest)

theorem loadDeps_of_run {lib : LibProvider} {n : Nat} {d : DynLinker} {m : Phys} {needed : List String}
    {r : DynLinker × Phys} (h : runDeps lib n d m needed = some r) : loadDeps lib d m needed = some r := by
  induction n generalizing d m needed with
  | zero =>
    cases needed with
    | nil => rw [loadDeps]; exact h
    | cons depName rest => cases h
  | succ n ih =>
    cases needed with
    | nil => rw [loadDeps]; exact h
    | cons depName rest =>
      obtain ⟨⟨d₁, m₁, sub⟩, hdep, h⟩ := Option.bind_eq_some_iff.mp h
      rw [loadDeps]
      split
      · next hnone =>
        rw [hdep] at hnone
        cases hnone
      · next hsome =>
        rw [hdep] at hsome
        cases hsome
        exact ih h

/-- The three parts of `load_exec`, run so. -/
def runExec (lib : LibProvider) (n : Nat) (d : DynLinker) (m : Phys) (data : List UInt8) : Option (DynLinker × Phys) :=
  (Elf64.parse data).bind fun elf => (d.loadMain m elf data).bind fun r => r.1.bind fun d₁ =>
    (d₁.loadInterp r.2 elf lib).bind fun q => q.1.bind fun d₂ =>
      runDeps lib n d₂ q.2 ((d₂.libs.head?.map (·.needed)).getD [])

theorem loadExec_of_run {lib : LibProvider} {n : Nat} {d d' : DynLinker} {m m' : Phys} {data : List UInt8}
    (h : runExec lib n d m data = some (d', m')) : ∃ entry, d.loadExec m data lib = some (some entry, d', m') := by
  simp only [runExec, Option.bind_eq_some_iff, Prod.exists] at h
  obtain ⟨elf, hparse, o, m₁, hmain, d₁, rfl, o, m₂, hinterp, d₂, rfl, hdeps⟩ := h
  have hdeps' := loadDeps_of_run hdeps
  simp only [loadExec, hparse, hmain, hinterp, hdeps', Option.bind_eq_bind, Option.bind_some]
  exact ⟨_, rfl⟩

end DynLinker

instance (xs : List LoadedModule) : Decidable (ModulesApart xs) :=
  decidable_of_iff (_ ∧ _) ⟨fun ⟨hp, hs⟩ => ⟨hp, hs⟩, fun h => ⟨h.modules, h.stack⟩⟩

/-- An executable at `vaddr` that needs one library, `a`. -/
def oneLibraryElf (vaddr : Nat) : List UInt8 :=
  [0x7F, 0x45, 0x4C, 0x46, 2, 1, 1, 0] ++ ByteMem.leBytes 8 0 ++ ByteMem.leBytes 2 etExec ++ ByteMem.leBytes 2 0x3E ++
    ByteMem.leBytes 4 1 ++ ByteMem.leBytes 8 vaddr ++ ByteMem.leBytes 8 64 ++ ByteMem.leBytes 8 0 ++
    ByteMem.leBytes 4 0 ++ ByteMem.leBytes 2 64 ++ ByteMem.leBytes 2 56 ++ ByteMem.leBytes 2 2 ++ ByteMem.leBytes 6 0 ++
  -- `PT_LOAD` and `PT_DYNAMIC`
  ByteMem.leBytes 4 ptLoad ++ ByteMem.leBytes 4 5 ++ ByteMem.leBytes 8 0 ++ ByteMem.leBytes 8 vaddr ++
    ByteMem.leBytes 8 0 ++ ByteMem.leBytes 8 227 ++ ByteMem.leBytes 8 227 ++ ByteMem.leBytes 8 1 ++
  ByteMem.leBytes 4 ptDynamic ++ ByteMem.leBytes 4 5 ++ ByteMem.leBytes 8 176 ++ ByteMem.leBytes 8 (vaddr + 176) ++
    ByteMem.leBytes 8 0 ++ ByteMem.leBytes 8 48 ++ ByteMem.leBytes 8 48 ++ ByteMem.leBytes 8 1 ++
  -- `DT_NEEDED`, `DT_STRTAB` and `DT_NULL`
  ByteMem.leBytes 8 1 ++ ByteMem.leBytes 8 1 ++ ByteMem.leBytes 8 5 ++ ByteMem.leBytes 8 (vaddr + 224) ++
    ByteMem.leBytes 8 0 ++ ByteMem.leBytes 8 0 ++
  [0, 0x61, 0]

/-- Any library is two bytes at its start. -/
def twoByteLibrary : LibProvider := fun _ => some ((twoByteElf 0).set 16 3)

/-- It is loaded, and the library in the first slot. -/
theorem oneLibrary_run {vaddr : Nat} (h : vaddr = 0x10000 ∨ vaddr = soLoadBase) :
    ∃ root m entry d m', bootMachine.allocUserPml4 = some (root, m) ∧
      (DynLinker.new root).loadExec m (oneLibraryElf vaddr) twoByteLibrary = some (some entry, d, m') ∧
      (∀ x ∈ d.modules, x.User) ∧ (∀ x ∈ d.modules, ∀ r ∈ x.ranges, ¬ RangesMeet r stackRange) ∧
      (ModulesApart d.modules ↔ vaddr = 0x10000) := by
  have hany : (bootMachine.allocUserPml4.any fun r =>
      (DynLinker.runExec twoByteLibrary 1 (.new r.1) r.2 (oneLibraryElf vaddr)).any fun q =>
        decide ((∀ x ∈ q.1.modules, x.User) ∧ (∀ x ∈ q.1.modules, ∀ r ∈ x.ranges, ¬ RangesMeet r stackRange) ∧
          (ModulesApart q.1.modules ↔ vaddr = 0x10000))) = true := by
    rcases h with rfl | rfl <;> decide +kernel
  obtain ⟨⟨root, m⟩, hnew, hP⟩ := (Option.any_eq_true _ _).mp hany
  obtain ⟨⟨d, m'⟩, hrun, hP⟩ := (Option.any_eq_true _ _).mp hP
  obtain ⟨entry, hload⟩ := DynLinker.loadExec_of_run hrun
  exact ⟨root, m, entry, d, m', hnew, hload, of_decide_eq_true hP⟩

theorem bootMachine_kernel_used : addrOf bootMachine.kernelCr3 / pageSize ∉ bootMachine.free :=
  fun h => absurd (FrameAlloc.mem_freeSet.mp h).2 (by decide)

/-- An executable at 64 KB and its library, at 2 GB. -/
theorem loaded_modules_apart_low : ∃ root m entry d m', bootMachine.allocUserPml4 = some (root, m) ∧
    (DynLinker.new root).loadExec m (oneLibraryElf 0x10000) twoByteLibrary = some (some entry, d, m') ∧
    Phys.NoneReplaced root m d.modules ∧ Phys.StackFree root m' := by
  obtain ⟨root, m, entry, d, m', hnew, hload, huser, -, hapart⟩ := oneLibrary_run (.inl rfl)
  have hmodules := (DynLinker.loadExec_loads hload).1
  have hap := hapart.mpr rfl
  rw [hmodules] at huser hap
  exact ⟨root, m, entry, d, m', hnew, hload, (loaded_modules_apart_iff bootMachine_kernel_used hnew hload huser).2.mpr hap⟩

/-- An executable at 2 GB is accepted, and loses its first page to its library. -/
theorem library_replaces_executable : ∃ root m entry d m', bootMachine.allocUserPml4 = some (root, m) ∧
    (DynLinker.new root).loadExec m (oneLibraryElf soLoadBase) twoByteLibrary = some (some entry, d, m') ∧
    (∀ x ∈ d.modules, x.User) ∧ ¬ Phys.NoneReplaced root m d.modules := by
  obtain ⟨root, m, entry, d, m', hnew, hload, huser, hstack, hapart⟩ := oneLibrary_run (.inr rfl)
  obtain ⟨hmodules, hrun⟩ := DynLinker.loadExec_loads hload
  refine ⟨root, m, entry, d, m', hnew, hload, huser, fun hnone => ?_⟩
  rw [← hmodules] at hrun
  have hspace := (Phys.built_allocUserPml4 bootMachine_kernel_used hnew).space
  have hpair := (Phys.noneReplaced_iff_ranges hspace (fun _ => Phys.newSpace_pte hnew) huser hrun).mp hnone
  exact absurd (hapart.mp ⟨hpair, hstack⟩) (show ¬ soLoadBase = 0x10000 by decide)

end ChodOs
