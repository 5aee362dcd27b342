/-
Programs come and go (`exec_replace` and `fork_current` in
`process/userproc.rs`, `enter_elf` in `paging/mod.rs`), as far as memory and
the tables of it are concerned.

`exec_replace` resets the VMA table and the mmap table, which are those of
all processes: what was lazily mapped in a parent is gone for good.
-/
import ChodOs.User.Dynlink
import ChodOs.User.Mmap
import ChodOs.User.Threads

namespace ChodOs

open Pt StepSys

namespace MemSys

/-! ## The code -/

/-- `needs_dynlink`: an interpreter is asked for. -/
def needsDynlink (elfData : List UInt8) : Option Bool :=
  match Elf64.parse elfData with
  | none => some false
  | some elf => elf.interp.map (·.isSome)

/-- `AT_BASE`. -/
def atBase (dl : DynLinker) : Nat := if dl.interpEntry ≠ 0 then interpLoadBase else dl.execLoadBase

/-- The dynamic path of `exec_replace`: the new table, the entry point and the stack pointer. -/
def loadDynamic (s : MemSys) (lib : LibProvider) (elfData : List UInt8) : Option ((Nat × Nat × Nat) × MemSys) := do
  let (newCr3, phys) ← s.phys.allocUserPml4
  let (entry, dl, phys) ← (DynLinker.new newCr3).loadExec phys elfData lib
  let (_, phys) ← dl.resolveAll phys
  let procs ← s.procs.setBrkBase dl.execVaddrEnd
  let (userRsp, phys) ←
    phys.setupUserStack newCr3 dl.execPhdrVa dl.execPhent dl.execPhnum (atBase dl) dl.execEntry
  some ((newCr3, entry.getD execLoadBase, userRsp), { s with phys, procs })

/-- The static path: `load_elf_into_space`. -/
def loadStatic (s : MemSys) (elfData : List UInt8) : Option ((Nat × Nat × Nat) × MemSys) :=
  (s.phys.loadElfIntoSpace elfData).map fun (image, phys) => (image, { s with phys })

/-- The program is loaded by one of the two. -/
def loadImage (s : MemSys) (lib : LibProvider) (elfData : List UInt8) : Option ((Nat × Nat × Nat) × MemSys) := do
  if ← needsDynlink elfData then s.loadDynamic lib elfData else s.loadStatic elfData

/-- `exec_replace`, up to the return to user mode. `none`: the kernel stops. -/
def execReplace (s : MemSys) (lib : LibProvider) (elfData : List UInt8) : Option ((Nat × Nat × Nat) × MemSys) := do
  let (image, s) ← { s with vmas := s.vmas.reset, mmaps := ∅ }.loadImage lib elfData
  let _ ← s.procs.cur
  let procs := s.procs.update fun p =>
    { p with userCr3 := image.1, state := .running, savedFrameRsp := p.kstackTop - isrFrameSize }
  some (image, { s with procs })

/-- `enter_elf`, with the pid of `alloc_pid` and the kernel stack of a new entry. -/
def enterElf (s : MemSys) (lib : LibProvider) (elfData : List UInt8) (pid kstack : Nat) :
    Option ((Nat × Nat × Nat) × MemSys) := do
  if ← needsDynlink elfData then
    let (tmpCr3, phys) ← s.phys.allocUserPml4
    let (_, procs) := s.procs.register pid 0 tmpCr3 kstack
    { s with phys, procs }.execReplace lib elfData
  else
    let (image, s) ← s.loadStatic elfData
    some (image, { s with procs := (s.procs.register pid 0 image.1 kstack).2 })

/-- `fork_current`, with the pid of `alloc_pid` and the child's kernel stack. -/
def forkCurrent (s : MemSys) (pid kstack : Nat) : Option (Nat × MemSys) :=
  match s.procs.cur with
  | none => some (anyChild, s)
  | some p => do
    let (childCr3, phys) ← s.phys.cloneUserSpace p.userCr3
    some (pid, { s with phys, procs := s.procs.insert (p.forked pid childCr3 kstack) })

/-- The address space of a thread or process that `clone_thread` makes. -/
def clonedSpace (m : Phys) (flags : BitVec 64) (cr3 : Nat) : Option (Nat × Phys) :=
  if flags.getLsbD UserSys.cloneVm then some (cr3, m) else m.cloneUserSpace cr3

/-- `clone_thread` in the same way; its stores of thread ids are stores of the process. -/
def cloneThread (s : MemSys) (flags : BitVec 64) (childTid newtls pid kstack : Nat) : Option (Nat × MemSys) :=
  match s.procs.cur with
  | none => some (anyChild, s)
  | some p => do
    let (childCr3, phys) ← clonedSpace s.phys flags p.userCr3
    let procs := s.procs.insert (UserSys.cloned p flags childTid newtls pid childCr3 kstack)
    some (pid, { s with phys, procs })

/-- Another process runs. -/
def switchTo (s : MemSys) (i : Nat) : MemSys :=
  { s with procs := { s.procs.modify i (fun p => { p with state := .running }) with current := i } }

/-! ## Runs -/

/-- What processes do to memory. The files are those at the time of the call. -/
inductive Op
  | enterElf (lib : LibProvider) (elfData : List UInt8) (pid kstack : Nat)
  | exec (lib : LibProvider) (elfData : List UInt8)
  | fork (pid kstack : Nat)
  | clone (flags : BitVec 64) (childTid newtls pid kstack : Nat)
  | switchTo (i : Nat)
  /-- A thread has exited, or a process was waited for. -/
  | leave (i : Nat)
  | mmap (read : Pread) (addr len prot flags : Nat) (fd : Int) (offset : Nat)
  | munmap (addr len : Nat)
  | mprotect (addr len prot : Nat)
  | brk (addr : Nat)
  /-- A page fault on an absent page. -/
  | fault (va : Nat)
  /-- A store of the process itself. -/
  | store (va : Nat) (b : UInt8)

/-- A call. `none`: the kernel stops, or the process faults. -/
def step (s : MemSys) : Op → Option (List Op × MemSys)
  | .enterElf lib elfData pid kstack => (s.enterElf lib elfData pid kstack).map fun (_, s) => ([], s)
  | .exec lib elfData => (s.execReplace lib elfData).map fun (_, s) => ([], s)
  | .fork pid kstack => (s.forkCurrent pid kstack).map fun (_, s) => ([], s)
  | .clone flags childTid newtls pid kstack =>
    (s.cloneThread flags childTid newtls pid kstack).map fun (_, s) => ([], s)
  | .switchTo i => some ([], s.switchTo i)
  | .leave i => some ([], { s with procs := s.procs.clear i })
  | .mmap read addr len prot flags fd offset => (s.sysMmap read addr len prot flags fd offset).map fun (_, s) => ([], s)
  | .munmap addr len => (s.sysMunmap addr len).map fun (_, s) => ([], s)
  | .mprotect addr len prot => (s.sysMprotect addr len prot).map fun (_, s) => ([], s)
  | .brk addr => (s.sysBrk addr).map fun (_, s) => ([], s)
  | .fault va => do
    let p ← s.procs.cur
    (s.tryDemandPage va p.userCr3).map fun (_, s) => ([], s)
  | .store va b => do
    let p ← s.procs.cur
    (s.phys.storeUser p.userCr3 va b).map fun phys => ([], { s with phys })

/-- Before the first process. -/
def boot (phys : Phys) : MemSys where
  phys
  procs := { slots := .fill Uprocs.maxProcs none, current := 0 }
  vmas := .boot
  mmaps := ∅

/-! ## A parent and its child -/

/-- `try_demand_page` succeeds at an address of a space. -/
def DemandPageable (s : MemSys) (cr3 va : Nat) : Prop := ∃ s', s.tryDemandPage va cr3 = some (true, s')

/-- The address and the pages that `sys_munmap` gives to `munmap_pages`. -/
def released (s : MemSys) (addr len : Nat) : Option (Nat × Nat) :=
  (pagesOf len).map fun pages => (addr, s.mmaps.pagesAt addr pages)

variable {s s' : MemSys} {lib : LibProvider} {elfData : List UInt8} {image : Nat × Nat × Nat} {cr3 va : Nat}

theorem not_demandPageable (h : s.vmas.find va = none) : ¬s.DemandPageable cr3 va := by
  intro ⟨s', hs'⟩
  rw [tryDemandPage, h] at hs'
  cases hs'

theorem find_eq_none {t : VmaTable} (h : ∀ e ∈ t.1, e.valid = false) (va : Nat) : t.find va = none := by
  refine List.find?_eq_none.mpr fun e he => ?_
  rw [VmaEntry.covers, h e he]
  exact Bool.false_ne_true

theorem find_boot (va : Nat) : VmaTable.boot.find va = none := by
  refine find_eq_none (fun e he => ?_) va
  obtain rfl : e = .empty := List.eq_of_mem_replicate he
  rfl

theorem find_reset (t : VmaTable) (va : Nat) : t.reset.find va = none := by
  refine find_eq_none (fun e he => ?_) va
  obtain ⟨e', -, rfl⟩ := List.mem_map.mp he
  rfl

/-- Loading leaves the two tables alone. -/
theorem loadImage_tables (h : s.loadImage lib elfData = some (image, s')) : s'.vmas = s.vmas ∧ s'.mmaps = s.mmaps := by
  obtain ⟨dyn, -, h⟩ := Option.bind_eq_some_iff.mp h
  cases dyn with
  | false =>
    obtain ⟨r, -, he⟩ := Option.map_eq_some_iff.mp h
    cases he
    exact ⟨rfl, rfl⟩
  | true =>
    simp only [if_true, loadDynamic, Option.bind_eq_bind, Option.bind_eq_some_iff, Option.some.injEq, Prod.exists,
      Prod.mk.injEq] at h
    obtain ⟨_, _, -, _, _, _, -, _, _, -, _, -, _, _, -, -, rfl⟩ := h
    exact ⟨rfl, rfl⟩

/-- `exec_replace` leaves them empty. -/
theorem execReplace_tables (h : s.execReplace lib elfData = some (image, s')) :
    s'.vmas = s.vmas.reset ∧ s'.mmaps = ∅ := by
  simp only [execReplace, Option.bind_eq_bind, Option.bind_eq_some_iff, Option.some.injEq, Prod.exists, Prod.mk.injEq] at h
  obtain ⟨_, _, _, _, hload, _, -, -, rfl⟩ := h
  exact loadImage_tables hload

/-- With no mapping on record what is released is what is asked for; and only then. -/
theorem released_of_empty_iff (hempty : s'.mmaps = ∅) :
    (∀ addr len, s'.released addr len = s.released addr len) ↔ s.mmaps = ∅ := by
  constructor
  · intro h
    refine Std.ExtTreeMap.ext_getElem? fun addr => ?_
    rw [Std.ExtTreeMap.getElem?_empty]
    cases hat : s.mmaps[addr]? with
    | none => rfl
    | some count =>
      -- a length that asks for another number of pages
      have hzero := h addr 0
      have hone := h addr 1
      simp [released, pagesOf, addU64, MmapTable.pagesAt, hempty, hat] at hzero hone
      omega
  · intro h addr len
    rw [released, released, hempty, h]

end MemSys

open MemSys

/-- After a program is replaced, what a process can still demand-page and
what `sys_munmap` gives back for it are as before exactly when there was
nothing to lose. -/
theorem exec_spares_others_iff_empty {s s' : MemSys} {lib : LibProvider} {elfData : List UInt8}
    {image : Nat × Nat × Nat} {parentCr3 : Nat} (h : s.execReplace lib elfData = some (image, s')) :
    ((∀ va, s'.DemandPageable parentCr3 va ↔ s.DemandPageable parentCr3 va) ∧
        ∀ addr len, s'.released addr len = s.released addr len) ↔
      (∀ va, ¬s.DemandPageable parentCr3 va) ∧ s.mmaps = ∅ := by
  obtain ⟨hvmas, hmmaps⟩ := execReplace_tables h
  have hnone : ∀ va, ¬s'.DemandPageable parentCr3 va := fun va =>
    not_demandPageable (by rw [hvmas]; exact find_reset _ _)
  rw [released_of_empty_iff hmmaps]
  exact and_congr_left' (forall_congr' fun va => iff_comm.trans (iff_false_right (hnone va)))

/-- A process with one lazy page and the child that it has forked, which runs. -/
def family : Option (UserProc × UserProc × MemSys) := do
  let (image, phys) ← bootMachine.loadElfIntoSpace (twoByteElf 0x10000)
  let (copy, phys) ← phys.loadElfIntoSpace (twoByteElf 0x10000)
  let s := { boot phys with procs := ((boot phys).procs.register 1 0 image.1 0).2 }
  let (_, s) ← s.sysMmap (fun _ _ _ => []) 0 4096 3 0x22 (-1) 0
  let parent ← s.procs.cur
  let child := parent.forked 2 copy.1 0x20000
  some (parent, child, { s with procs := s.procs.insert child }.switchTo 1)

/-- With nothing mapped lazily nothing is lost. -/
theorem exec_spares_others_empty : ∃ (s s' : MemSys) (image : Nat × Nat × Nat),
    s.execReplace (fun _ => none) (twoByteElf 0x10000) = some (image, s') ∧
    (∀ va, s'.DemandPageable 0x1000 va ↔ s.DemandPageable 0x1000 va) ∧
    ∀ addr len, s'.released addr len = s.released addr len := by
  obtain ⟨⟨image, s'⟩, hexec⟩ := Option.isSome_iff_exists.mp
    (show ({ boot bootMachine with procs := ((boot bootMachine).procs.register 1 0 0 0).2 }.execReplace (fun _ => none)
      (twoByteElf 0x10000)).isSome = true by decide +kernel)
  exact ⟨_, s', image, hexec, (exec_spares_others_iff_empty hexec).mpr
    ⟨fun va => not_demandPageable (find_boot va), rfl⟩⟩

/-- The parent's lazy page is gone, and so is what `sys_munmap` knows of it. -/
theorem child_exec_disturbs_parent : ∃ parent child s image s', family = some (parent, child, s) ∧
    s.procs.at? 0 = some parent ∧ s.procs.cur.map (·.parentPid) = some parent.pid ∧
    s.execReplace (fun _ => none) (twoByteElf 0x10000) = some (image, s') ∧
    s.DemandPageable parent.userCr3 0x40000000 ∧ ¬s'.DemandPageable parent.userCr3 0x40000000 ∧
    s.released 0x40000000 0 ≠ s'.released 0x40000000 0 := by
  obtain ⟨⟨parent, child, s⟩, hfamily, hP⟩ := (Option.any_eq_true
    (fun (f : UserProc × UserProc × MemSys) => f.2.2.procs.at? 0 == some f.1 &&
      f.2.2.procs.cur.map (·.parentPid) == some f.1.pid && f.2.2.released 0x40000000 0 == some (0x40000000, 1) &&
      (f.2.2.tryDemandPage 0x40000000 f.1.userCr3).any (·.1) &&
      (f.2.2.execReplace (fun _ => none) (twoByteElf 0x10000)).isSome) family).mp (by decide +kernel)
  simp only [Bool.and_eq_true, beq_iff_eq, Option.any_eq_true, Option.isSome_iff_exists] at hP
  obtain ⟨⟨⟨⟨hparent, hchild⟩, hreleased⟩, ⟨ok, s₁⟩, hfault, rfl⟩, ⟨image, s'⟩, hexec⟩ := hP
  obtain ⟨hvmas, hmmaps⟩ := execReplace_tables hexec
  refine ⟨parent, child, s, image, s', hfamily, hparent, hchild, hexec, ⟨s₁, hfault⟩,
    not_demandPageable (by rw [hvmas]; exact find_reset _ _), ?_⟩
  rw [hreleased, released, hmmaps]
  decide

end ChodOs
