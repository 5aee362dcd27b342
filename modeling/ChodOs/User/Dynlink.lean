/-
The dynamic linker (`dynlink.rs`): an executable, its interpreter and the
libraries that it needs are loaded into an address space and relocated.

The files of `/lib` are a function from names to contents. A slice out of
range, an overflow and a want of memory stop the kernel.
-/
import ChodOs.Paging.Residue
import ChodOs.User.Vma

namespace ChodOs

open Pt Elf

def execLoadBase : Nat := 0x400000
def soLoadBase : Nat := 0x80000000
def soSlotSize : Nat := 0x1000000
def interpLoadBase : Nat := 0xC0000000

/-- `core::str::from_utf8`. -/
def fromUtf8 (bs : List UInt8) : Option String := String.fromUTF8? ⟨bs.toArray⟩

/-- `rsplit('/').next()`. -/
def baseName (name : String) : String := (name.splitOn "/").getLastD name

/-- `SharedLib`. -/
structure SharedLib where
  name : String
  loadBase : Nat
  symtabFoff : Nat
  strtabFoff : Nat
  relaFoff : Nat
  relaSz : Nat
  pltRelaFoff : Nat
  pltRelaSz : Nat
  initArray : List Nat
  needed : List String
  vaddrEnd : Nat

/-! ## Symbols -/

/-- `SymbolMap`: names by their bytes. -/
abbrev SymbolMap := List (List UInt8 × Nat)

namespace SymbolMap

def lookup (map : SymbolMap) (name : List UInt8) : Option Nat := (map.find? (·.1 == name)).map (·.2)

/-- The first definition of a name counts. -/
def define (map : SymbolMap) (name : List UInt8) (va : Nat) : SymbolMap :=
  if (map.lookup name).isNone then map ++ [(name, va)] else map

/-- `add_lib`. -/
def addLib (map : SymbolMap) (lib : SharedLib) (elfData : List UInt8) : Option SymbolMap := do
  let syms ← Elf64.dynsymAll elfData lib.symtabFoff lib.strtabFoff
  syms.foldlM (fun map sym =>
    if sym.isUndef || sym.stValue == 0 then some map
    else do
      let start ← addU64 lib.strtabFoff sym.stName
      if elfData.length < start || (fromUtf8 (cstr elfData start)).isNone then some map
      else some (define map (cstr elfData start) (← addU64 lib.loadBase sym.stValue))) map

end SymbolMap

/-! ## One file -/

/-- What `load_so_at` takes from the dynamic entries; the last one of a kind counts. -/
structure DynInfo where
  symtabVa : Nat
  strtabVa : Nat
  relaVa : Nat
  relaSz : Nat
  jmprelVa : Nat
  pltrelsz : Nat
  initArrVa : Nat
  initArrSz : Nat
  neededIdxs : List Nat

namespace DynInfo

def empty : DynInfo where
  symtabVa := 0
  strtabVa := 0
  relaVa := 0
  relaSz := 0
  jmprelVa := 0
  pltrelsz := 0
  initArrVa := 0
  initArrSz := 0
  neededIdxs := []

def add (i : DynInfo) (e : DynEntry) : DynInfo :=
  match e.tag with
  | 1 => { i with neededIdxs := i.neededIdxs ++ [e.val] }
  | 2 => { i with pltrelsz := e.val }
  | 5 => { i with strtabVa := e.val }
  | 6 => { i with symtabVa := e.val }
  | 7 => { i with relaVa := e.val }
  | 8 => { i with relaSz := e.val }
  | 23 => { i with jmprelVa := e.val }
  | 25 => { i with initArrVa := e.val }
  | 27 => { i with initArrSz := e.val }
  | _ => i

end DynInfo

namespace Phys

/-- One page of a segment in `load_so_at`. -/
def loadSoPage (cr3 : Nat) (data : List UInt8) (mapped : Nat) (seg : PtLoad) (m : Phys) (va : Nat) : Option Phys := do
  let (phys, m) ← m.alloc
  let m := m.zeroPage phys
  let pageVaEnd ← addU64 va pageSize
  let fileEnd ← addU64 mapped seg.filesz
  let copyLo := max mapped va
  let copyHi := min fileEnd pageVaEnd
  let m ← if copyLo < copyHi then do
      let srcOff ← addU64 seg.offset (copyLo - mapped)
      let srcEnd ← addU64 srcOff (copyHi - copyLo)
      some (if srcEnd ≤ data.length then m.copyIn data srcOff (phys + (copyLo - va)) (copyHi - copyLo) else m)
    else some m
  -- `pub_map_4k`
  m.map4k (addrOf cr3) va phys (userFlags (seg.flags.testBit 1))

/-- One segment: its end, rounded up to a page. -/
def loadSoSegment (cr3 slotBase : Nat) (data : List UInt8) (m : Phys) (seg : PtLoad) : Option (Nat × Phys) := do
  let mapped ← addU64 slotBase seg.vaddr
  let last ← addU64 mapped seg.memsz
  let last ← addU64 last 0xFFF
  let pages := (addrOf last - addrOf mapped) / pageSize
  let m ← (List.range pages).foldlM (fun m i => loadSoPage cr3 data mapped seg m (addrOf mapped + i * pageSize)) m
  some (addrOf last, m)

/-- The segments: the highest end, at least `slotBase`. -/
def loadSoSegments (cr3 slotBase : Nat) (data : List UInt8) (segs : List PtLoad) (m : Phys) : Option (Nat × Phys) :=
  segs.foldlM (fun (vaddrEnd, m) seg => do
    let (pageEnd, m) ← loadSoSegment cr3 slotBase data m seg
    some (max vaddrEnd pageEnd, m)) (slotBase, m)

/-- The functions of `DT_INIT_ARRAY`. -/
def readInitArray (elf : Elf64) (data : List UInt8) (slotBase : Nat) (dyn : DynInfo) : Option (List Nat) :=
  if dyn.initArrVa = 0 ∨ dyn.initArrSz = 0 then some []
  else do
    match ← elf.vaddrToFileOff dyn.initArrVa with
    | none => some []
    | some foff => (List.range (dyn.initArrSz / 8)).filterMapM fun i => do
      let off ← addU64 foff (i * 8)
      let stop ← addU64 off 8
      if stop ≤ data.length then some (some (← addU64 slotBase (← readLe data off 8))) else some none

/-- `load_so_at`. -/
def loadSoAt (m : Phys) (name : String) (data : List UInt8) (cr3 slotBase : Nat) : Option (Option SharedLib × Phys) :=
  match Elf64.parse data with
  | none => some (none, m)
  | some elf => do
    let (vaddrEnd, m) ← loadSoSegments cr3 slotBase data (← elf.loadSegments) m
    let dyn := (← elf.dynamicEntries).foldl DynInfo.add .empty
    let symtabFoff := (← elf.vaddrToFileOff dyn.symtabVa).getD 0
    let strtabFoff := (← elf.vaddrToFileOff dyn.strtabVa).getD 0
    let relaFoff := (← elf.vaddrToFileOff dyn.relaVa).getD 0
    let pltRelaFoff := (← elf.vaddrToFileOff dyn.jmprelVa).getD 0
    let needed ← dyn.neededIdxs.filterMapM fun idx => do some ((← elf.dynStr strtabFoff idx).bind fromUtf8)
    let initArray ← readInitArray elf data slotBase dyn
    some (some
      { name
        loadBase := slotBase
        symtabFoff
        strtabFoff
        relaFoff
        relaSz := dyn.relaSz
        pltRelaFoff
        pltRelaSz := dyn.pltrelsz
        initArray
        needed
        vaddrEnd }, m)

/-! ## Relocation -/

/-- `resolve_sym_inner`. -/
def resolveSym (elf : Elf64) (lib : SharedLib) (symIdx : Nat) (map : SymbolMap) : Option Nat := do
  match ← elf.sym lib.symtabFoff symIdx with
  | none => some 0
  | some sym =>
    if !sym.isUndef then addU64 lib.loadBase sym.stValue
    else
      let nameBytes := (← elf.dynStr lib.strtabFoff sym.stName).getD [0x3F, 0x3F]
      some ((map.lookup nameBytes).getD 0)

/-- `R_X86_64_COPY`: the data of a symbol. -/
def copySym (m : Phys) (elf : Elf64) (lib : SharedLib) (cr3 symVa rSym targetPhys : Nat) : Option Phys :=
  if symVa = 0 then some m
  else do
    match ← elf.sym lib.symtabFoff rSym with
    | none => some m
    | some sym =>
      if sym.stSize = 0 then some m
      else some (((m.virtToPhys cr3 symVa).map fun src => m.copyPhys src targetPhys sym.stSize).getD m)

/-- One relocation; one whose target is not mapped has failed. -/
def applyOne (elf : Elf64) (lib : SharedLib) (cr3 : Nat) (map : SymbolMap) (m : Phys) (rela : Elf64Rela) :
    Option (Nat × Phys) := do
  let targetVa ← addU64 lib.loadBase rela.rOffset
  match m.virtToPhys cr3 targetVa with
  | none => some (1, m)
  | some targetPhys =>
    let store (v : Nat) : Phys := m.put targetPhys 8 (ByteMem.leByte v)
    match rela.rType with
    | 8 => some (0, store ((lib.loadBase + rela.rAddend) % 2 ^ 64))
    | 1 => do some (0, store (((← resolveSym elf lib rela.rSym map) + rela.rAddend) % 2 ^ 64))
    | 6 => do some (0, store (← resolveSym elf lib rela.rSym map))
    | 7 => do some (0, store (← resolveSym elf lib rela.rSym map))
    | 5 => do some (0, ← m.copySym elf lib cr3 (← resolveSym elf lib rela.rSym map) rela.rSym targetPhys)
    | _ => some (0, m)

/-- `apply_rela_with_map`: the number of failures. -/
def applyRela (lib : SharedLib) (elfData : List UInt8) (cr3 : Nat) (map : SymbolMap) (m : Phys) : Option (Nat × Phys) :=
  match Elf64.parse elfData with
  | none => some (0, m)
  | some elf =>
    [(lib.relaFoff, lib.relaSz), (lib.pltRelaFoff, lib.pltRelaSz)].foldlM (fun (failed, m) (foff, sz) =>
      if sz = 0 then some (failed, m)
      else do
        (← elf.relaEntries foff sz).foldlM (fun (failed, m) rela => do
          let (n, m) ← applyOne elf lib cr3 map m rela
          some (failed + n, m)) (failed, m)) (0, m)

end Phys

/-! ## The linker -/

/-- `DynLinker`. -/
structure DynLinker where
  libs : List SharedLib
  elfBufs : List (List UInt8)
  cr3 : Nat
  nextSlot : Nat
  execPhdrVa : Nat
  execPhent : Nat
  execPhnum : Nat
  execLoadBase : Nat
  execEntry : Nat
  interpEntry : Nat
  /-- Where the executable ends: the initial break. -/
  execVaddrEnd : Nat

/-- The files of `/lib`. -/
abbrev LibProvider := String → Option (List UInt8)

namespace DynLinker

/-- `DynLinker::new`. -/
def new (cr3 : Nat) : DynLinker where
  libs := []
  elfBufs := []
  cr3
  nextSlot := soLoadBase
  execPhdrVa := 0
  execPhent := 0
  execPhnum := 0
  execLoadBase := 0
  execEntry := 0
  interpEntry := 0
  execVaddrEnd := 0

def push (d : DynLinker) (lib : SharedLib) (data : List UInt8) : DynLinker :=
  { d with libs := d.libs ++ [lib], elfBufs := d.elfBufs ++ [data] }

/-- The addresses behind a slot. -/
@[irreducible] def room (slot : Nat) : Nat := 2 ^ 64 - slot

/-- Every library takes a slot. -/
theorem room_lt {slot next : Nat} (h : addU64 slot soSlotSize = some next) : room next < room slot := by
  obtain ⟨hlt, rfl⟩ := addU64_eq_some.mp h
  simp only [room, soSlotSize] at *
  omega

/-- One turn of `load_deps`: what the library needs itself, if it is loaded now. -/
def loadDep (lib : LibProvider) (d : DynLinker) (m : Phys) (depName : String) :
    Option (DynLinker × Phys × List String) :=
  if d.libs.any (·.name == depName) then some (d, m, [])
  else
    match lib (baseName depName) with
    | none => some (d, m, [])
    | some data => do
      let nextSlot ← addU64 d.nextSlot soSlotSize
      match ← m.loadSoAt (baseName depName) data d.cr3 d.nextSlot with
      | (none, m) => some ({ d with nextSlot }, m, [])
      | (some l, m) => some ({ d with nextSlot }.push l data, m, l.needed)

theorem loadDep_cases {lib : LibProvider} {d d' : DynLinker} {m m' : Phys} {depName : String} {sub : List String}
    (h : loadDep lib d m depName = some (d', m', sub)) :
    (d' = d ∧ sub = []) ∨ (room d'.nextSlot < room d.nextSlot ∧ d'.execVaddrEnd = d.execVaddrEnd) := by
  unfold loadDep at h
  split at h
  · cases h
    exact .inl ⟨rfl, rfl⟩
  · split at h
    · cases h
      exact .inl ⟨rfl, rfl⟩
    · obtain ⟨next, hnext, h⟩ := Option.bind_eq_some_iff.mp h
      obtain ⟨⟨l, m₁⟩, -, h⟩ := Option.bind_eq_some_iff.mp h
      have hroom := room_lt hnext
      cases l <;> cases h <;> exact .inr ⟨hroom, rfl⟩

/-- `load_deps`. What a library needs itself is loaded before the rest, as by the recursion of the source. -/
def loadDeps (lib : LibProvider) (d : DynLinker) (m : Phys) : List String → Option (DynLinker × Phys)
  | [] => some (d, m)
  | depName :: rest =>
    match _h : loadDep lib d m depName with
    | none => none
    | some (d', m', sub) => loadDeps lib d' m' (sub ++ rest)
termination_by needed => (room d.nextSlot, needed.length)
decreasing_by
  rcases loadDep_cases _h with ⟨hd, hsub⟩ | ⟨hroom, -⟩
  · rw [hd, hsub, List.nil_append]
    exact Prod.Lex.right _ (Nat.lt_succ_self _)
  · exact Prod.Lex.left _ _ hroom

/-- `exec_phdr_va` of a file at fixed addresses: where its first segment over the headers has them. -/
def fixedPhdrVa (elf : Elf64) (ePhoff : Nat) : Option Nat := do
  let va ← elf.findPhdr fun ph =>
    if ph.pType ≠ ptLoad ∨ ePhoff < ph.pOffset then some none
    else do
      let stop ← addU64 ph.pOffset ph.pFilesz
      if stop ≤ ePhoff then some none
      else
        let va ← addU64 ph.pVaddr ePhoff
        some (some (va - ph.pOffset))
  some (va.getD ePhoff)

/-- Where the executable goes. -/
def execBase (elf : Elf64) : Nat := if elf.elfType = etDyn then ChodOs.execLoadBase else 0

/-- `exec_phdr_va`. -/
def phdrVa (elf : Elf64) (ePhoff : Nat) : Option Nat :=
  if elf.elfType = etDyn then addU64 (execBase elf) ePhoff else fixedPhdrVa elf ePhoff

/-- The executable itself. `none` for the linker: it is not an ELF file. -/
def loadMain (d : DynLinker) (m : Phys) (elf : Elf64) (execData : List UInt8) : Option (Option DynLinker × Phys) := do
  match ← m.loadSoAt "(exec)" execData d.cr3 (execBase elf) with
  | (none, m) => some (none, m)
  | (some lib, m) =>
    let execEntry ← addU64 (execBase elf) (← elf.entry)
    let execPhdrVa ← phdrVa elf (← readLe execData 32 8)
    let execPhent ← readLe execData 54 2
    let execPhnum ← readLe execData 56 2
    some (some (push
      { d with
        execPhdrVa
        execPhent
        execPhnum
        execLoadBase := execBase elf
        execEntry
        execVaddrEnd := lib.vaddrEnd } lib execData), m)

/-- The interpreter. `none` for the linker: its file is not an ELF file. -/
def loadInterp (d : DynLinker) (m : Phys) (elf : Elf64) (lib : LibProvider) : Option (Option DynLinker × Phys) := do
  match ← elf.interp with
  | none => some (some d, m)
  | some interpPath =>
    let libName := baseName ((fromUtf8 interpPath).getD "")
    match lib libName with
    | none => some (some d, m)
    | some interpData =>
      match Elf64.parse interpData with
      | none => some (none, m)
      | some interpElf =>
        match ← m.loadSoAt libName interpData d.cr3 interpLoadBase with
        | (none, m) => some (none, m)
        | (some l, m) =>
          let interpEntry ← addU64 interpLoadBase (← interpElf.entry)
          some (some ({ d with interpEntry }.push l interpData), m)

/-- `load_exec`: the entry point, and the linker as it is left behind. -/
def loadExec (d : DynLinker) (m : Phys) (execData : List UInt8) (lib : LibProvider) :
    Option (Option Nat × DynLinker × Phys) :=
  match Elf64.parse execData with
  | none => some (none, d, m)
  | some elf => do
    match ← d.loadMain m elf execData with
    | (none, m) => some (none, d, m)
    | (some d, m) =>
      match ← d.loadInterp m elf lib with
      | (none, m) => some (none, d, m)
      | (some d, m) =>
        let (d, m) ← d.loadDeps lib m ((d.libs.head?.map (·.needed)).getD [])
        some (some (if d.interpEntry ≠ 0 then d.interpEntry else d.execEntry), d, m)

/-- `resolve_all`: the number of failed relocations. -/
def resolveAll (d : DynLinker) (m : Phys) : Option (Nat × Phys) := do
  let map ← (d.libs.zip d.elfBufs).foldlM (fun map (lib, data) => SymbolMap.addLib map lib data) []
  (d.libs.zip d.elfBufs).foldlM (fun (failed, m) (lib, data) => do
    let (n, m) ← Phys.applyRela lib data d.cr3 map m
    some (failed + n, m)) (0, m)

end DynLinker

end ChodOs
