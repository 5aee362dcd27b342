/-
The memory calls of a process (`syscall/mod.rs`, `syscall/mem.rs` and what
they use of `paging/mod.rs` and `process/vma.rs`): mmap, munmap, mprotect,
brk and the page fault on a lazy page.

Three tables describe one region: the page tables of the process, and the
VMA table and the mmap table, which all processes share.
-/
import ChodOs.Paging.Residue
import ChodOs.User.Proc

namespace ChodOs

open Pt

namespace Phys

/-! ## Pages -/

/-- `free_frame`. -/
def freeFrame (m : Phys) (phys : Nat) : Phys := { m with frames := m.frames.freeFrame phys }

/-- A page of `mmap_map`. -/
def mapData (m : Phys) (root va flags : Nat) (data : List UInt8) (i : Nat) : Option Phys := do
  let (phys, m) ← m.alloc
  let m := m.zeroPage phys
  let start := i * pageSize
  let stop := min ((i + 1) * pageSize) data.length
  let m := if start < stop then m.copyIn data start phys (stop - start) else m
  m.map4k root va phys flags

/-- `mmap_map`. -/
def mmapMap (m : Phys) (cr3 va : Nat) (data : List UInt8) (writable : Bool) : Option Phys :=
  let pages := (data.length + 4095) / 4096
  let pages := if pages = 0 then 1 else pages
  (List.range pages).foldlM
    (fun m i => do m.mapData (addrOf cr3) (← addU64 va (i * pageSize)) (userFlags writable) data i) m

/-- The page table of an address, as `munmap_pages` and `set_page_prot` find it. Huge pages are not looked for. -/
def pageTable (m : Phys) (cr3 va : Nat) : Option Nat := do
  let pdpt ← child (m.entry (addrOf cr3) (idx 39 va))
  let pd ← child (m.entry pdpt (idx 30 va))
  child (m.entry pd (idx 21 va))

/-- A page of `munmap_pages`. -/
def munmapPage (m : Phys) (cr3 va : Nat) : Phys :=
  match m.virtToPhys cr3 va with
  | none => m
  | some phys =>
    let m := m.freeFrame (addrOf phys)
    match m.pageTable cr3 va with
    | none => m
    | some pt => m.setEntry pt (idx 12 va) 0

/-- `munmap_pages`. `none`: overflow. -/
def munmapPages (m : Phys) (cr3 va count : Nat) : Option Phys :=
  (List.range count).foldlM (fun m i => do some (m.munmapPage cr3 (← addU64 va (i * pageSize)))) m

/-- The entry that `set_page_prot` makes of an old one. -/
def protEntry (pte prot : Nat) : Nat :=
  if prot = 0 then addrOf pte
  else addrOf pte ||| (ptePresent ||| pteUser ||| if prot.testBit 1 then pteWritable else 0)

/-- A page of `set_page_prot`. -/
def setProtPage (m : Phys) (cr3 va prot : Nat) : Phys :=
  match m.pageTable cr3 va with
  | none => m
  | some pt =>
    let pte := m.entry pt (idx 12 va)
    if present pte then m.setEntry pt (idx 12 va) (protEntry pte prot) else m

/-- `set_page_prot`. `none`: overflow. -/
def setPageProt (m : Phys) (cr3 va pages prot : Nat) : Option Phys :=
  (List.range pages).foldlM (fun m i => do some (m.setProtPage cr3 (← addU64 va (i * pageSize)) prot)) m

/-- A byte stored at a user address. `none`: the page is absent or read-only. -/
def storeUser (m : Phys) (cr3 va : Nat) (b : UInt8) : Option Phys := do
  let pte ← m.getUserPte cr3 va
  let phys ← m.virtToPhys cr3 va
  if pte.testBit 1 then some (m.put phys 1 fun _ => b) else none

/-- `copy_nonoverlapping` to a user address. -/
def copyToUser (m : Phys) (cr3 va : Nat) (data : List UInt8) : Option Phys :=
  (List.range data.length).foldlM (fun m i => m.storeUser cr3 (va + i) (data.getD i 0)) m

end Phys

/-! ## Calls -/

def mapFixed : Nat := 4
def mapAnonymous : Nat := 5

/-- `MMAP_TABLE`: the pages of a mapping by its address. -/
abbrev MmapTable := Std.ExtTreeMap Nat Nat

namespace MmapTable

/-- The test of `sys_mmap` for a range inside an existing mapping. `none`: overflow. -/
def inExisting (t : MmapTable) (addr len : Nat) : Option Bool :=
  match t.getEntryLE? addr with
  | none => some false
  | some (base, cnt) => do
    let stop ← addU64 addr len
    let baseEnd ← addU64 base (cnt * 4096)
    some (decide (base ≤ addr ∧ stop ≤ baseEnd))

/-- The pages that a mapping made at the address has, else the given number. -/
def pagesAt (t : MmapTable) (addr pages : Nat) : Nat := t[addr]?.getD pages

end MmapTable

/-- What `pread` reads from a file descriptor: at most `len` bytes from an offset. -/
abbrev Pread := Int → Nat → Nat → List UInt8

/-- The memory of user processes and the kernel's tables of it. -/
structure MemSys where
  phys : Phys
  procs : Uprocs
  vmas : VmaTable
  mmaps : MmapTable

namespace MemSys

/-- `(len as usize + 4095) / 4096`. `none`: overflow. -/
def pagesOf (len : Nat) : Option Nat := (addU64 len 4095).map (· / 4096)

/-- `read_for_mmap`. -/
def readForMmap (read : Pread) (fd : Int) (offset len : Nat) : List UInt8 := (read fd len offset).take len

/-- `try_demand_page`. `none`: out of memory. -/
def tryDemandPage (s : MemSys) (cr2 cr3 : Nat) : Option (Bool × MemSys) :=
  match s.vmas.find cr2 with
  | none => some (false, s)
  | some e =>
    if e.lazy then do
      let phys ← s.phys.demandAllocPage cr3 (addrOf cr2) (e.prot.testBit 1)
      some (true, { s with phys })
    else some (false, s)

/-- `MAP_FIXED` inside an existing mapping. -/
def remapFixed (s : MemSys) (read : Pread) (cr3 addr len prot pages : Nat) (isAnon : Bool) (fd : Int) (offset : Nat) :
    Option MemSys :=
  if isAnon then some { s with vmas := s.vmas.insert addr pages prot true }
  else do
    let phys ← s.phys.copyToUser cr3 addr (readForMmap read fd offset (pages * 4096))
    let (_, vmas) ← s.vmas.updateProt addr len prot
    some { s with phys, vmas }

/-- Pages of a file, mapped and filled at once. -/
def mapFile (m : Phys) (read : Pread) (cr3 addr pages : Nat) (fd : Int) (offset : Nat) : Option Phys :=
  m.mmapMap cr3 addr (readForMmap read fd offset (pages * 4096)) true

/-- Anonymous pages or those of a file. -/
def mapNow (m : Phys) (read : Pread) (cr3 addr pages : Nat) (isAnon : Bool) (fd : Int) (offset : Nat) : Option Phys :=
  if isAnon then m.mmapAnon cr3 addr pages true else mapFile m read cr3 addr pages fd offset

/-- The same, where anonymous pages are left to page faults. -/
def mapLater (m : Phys) (read : Pread) (cr3 addr pages : Nat) (isAnon : Bool) (fd : Int) (offset : Nat) : Option Phys :=
  if isAnon then some m else mapFile m read cr3 addr pages fd offset

/-- `MAP_FIXED` elsewhere: mapped at once. -/
def mapFixedAt (s : MemSys) (read : Pread) (cr3 addr prot pages : Nat) (isAnon : Bool) (fd : Int) (offset : Nat) :
    Option MemSys := do
  let phys ← mapNow s.phys read cr3 addr pages isAnon fd offset
  some { s with phys, mmaps := s.mmaps.insert addr pages, vmas := s.vmas.insert addr pages prot false }

/-- At an address of the kernel's choice; an anonymous mapping is lazy. -/
def mapAnywhere (s : MemSys) (read : Pread) (cr3 prot pages : Nat) (isAnon : Bool) (fd : Int) (offset : Nat) :
    Option (Nat × MemSys) := do
  let (vaddr, procs) ← s.procs.allocMmapVaddr pages
  let phys ← mapLater s.phys read cr3 vaddr pages isAnon fd offset
  some (vaddr, { phys, procs, mmaps := s.mmaps.insert vaddr pages, vmas := s.vmas.insert vaddr pages prot isAnon })

/-- `sys_mmap`. `none`: overflow, out of memory or a page fault in the kernel. -/
def sysMmap (s : MemSys) (read : Pread) (addr len prot flags : Nat) (fd : Int) (offset : Nat) : Option (Nat × MemSys) :=
  if len = 0 then some (errno 22, s)
  else do
    let pages ← pagesOf len
    let cr3 := s.procs.currentCr3
    let isAnon := flags.testBit mapAnonymous || fd == -1
    if cr3 = 0 then some (errno 12, s)
    else if flags.testBit mapFixed ∧ addr ≠ 0 then
      let prot := prot % 2 ^ 32
      if ← s.mmaps.inExisting addr len then
        (s.remapFixed read cr3 addr len prot pages isAnon fd offset).map fun s => (addr, s)
      else (s.mapFixedAt read cr3 addr prot pages isAnon fd offset).map fun s => (addr, s)
    else s.mapAnywhere read cr3 (prot % 2 ^ 32) pages isAnon fd offset

/-- The pages are given back, if there are any. -/
def unmapPages (m : Phys) (cr3 addr pages : Nat) : Option Phys :=
  if 0 < pages then m.munmapPages cr3 addr pages else some m

/-- `sys_munmap`. `none`: overflow. -/
def sysMunmap (s : MemSys) (addr len : Nat) : Option (Nat × MemSys) := do
  let pages ← pagesOf len
  let cr3 := s.procs.currentCr3
  if cr3 = 0 then some (0, s)
  else
    let actualPages := s.mmaps.pagesAt addr pages
    let phys ← unmapPages s.phys cr3 addr actualPages
    some (0, { s with phys, mmaps := s.mmaps.erase addr })

/-- `sys_mprotect`. `none`: overflow. -/
def sysMprotect (s : MemSys) (addr len prot : Nat) : Option (Nat × MemSys) :=
  if addr % pageSize ≠ 0 then some (errno 22, s)
  else if len = 0 then some (0, s)
  else do
    let pages ← pagesOf len
    let cr3 := s.procs.currentCr3
    if cr3 = 0 then some (errno 22, s)
    else
      let (_, vmas) ← s.vmas.updateProt addr len (prot % 2 ^ 32)
      let phys ← s.phys.setPageProt cr3 addr pages (prot % 2 ^ 32)
      some (0, { s with phys, vmas })

/-- `sys_brk`. `none`: overflow. -/
def sysBrk (s : MemSys) (addr : Nat) : Option (Nat × MemSys) :=
  (s.procs.sysBrk s.vmas addr).map fun (brk, procs, vmas) => (brk, { s with procs, vmas })

end MemSys

end ChodOs
