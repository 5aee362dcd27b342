/-
ELF64 images (`elf.rs`): the header check and the loadable segments. A
slice out of range stops the kernel, as does an address that overflows.
-/
import ChodOs.Lib.ByteMem
import ChodOs.Memory.Frame

namespace ChodOs

namespace Elf

/-- `u16le`, `u32le` and `u64le`, by their number of bytes. `none`: panic. -/
def readLe (d : List UInt8) (off n : Nat) : Option Nat :=
  if off + n ≤ d.length then some (ByteMem.le (fun i => d.getD i 0) off n) else none

def etExec : Nat := 2
def etDyn : Nat := 3
def ptLoad : Nat := 1
def ptDynamic : Nat := 2
def ptInterp : Nat := 3

/-- `RawPhdr`. -/
structure RawPhdr where
  pType : Nat
  pFlags : Nat
  pOffset : Nat
  pVaddr : Nat
  pFilesz : Nat
  pMemsz : Nat
  pAlign : Nat

/-- The program header at `base`. -/
def readPhdr (d : List UInt8) (base : Nat) : Option RawPhdr := do
  let pType ← readLe d base 4
  let pFlags ← readLe d (base + 4) 4
  let pOffset ← readLe d (base + 8) 8
  let pVaddr ← readLe d (base + 16) 8
  let _ ← readLe d (base + 24) 8
  let pFilesz ← readLe d (base + 32) 8
  let pMemsz ← readLe d (base + 40) 8
  let pAlign ← readLe d (base + 48) 8
  some { pType, pFlags, pOffset, pVaddr, pFilesz, pMemsz, pAlign }

/-- `PhdrIter` over `n` headers from the one at `idx`: it ends early at a
header that reaches over the end of the file. -/
def phdrIter (d : List UInt8) (phoff phsz : Nat) : Nat → Nat → Option (List RawPhdr)
  | 0, _ => some []
  | n + 1, idx => do
    let base ← addU64 phoff (idx * phsz)
    let stop ← addU64 base phsz
    if d.length < stop then some []
    else
      let ph ← readPhdr d base
      let rest ← phdrIter d phoff phsz n (idx + 1)
      some (ph :: rest)

/-- `find_map` over the same headers; those behind the first hit are not read. -/
def findPhdr {α : Type} (d : List UInt8) (phoff phsz : Nat) (f : RawPhdr → Option (Option α)) :
    Nat → Nat → Option (Option α)
  | 0, _ => some none
  | n + 1, idx => do
    let base ← addU64 phoff (idx * phsz)
    let stop ← addU64 base phsz
    if d.length < stop then some none
    else
      match ← f (← readPhdr d base) with
      | some x => some (some x)
      | none => findPhdr d phoff phsz f n (idx + 1)

/-- `DynEntry`. -/
structure DynEntry where
  tag : Nat
  val : Nat

/-- `DynIter` from `off` on: at most the entries that a file of that length has room for. -/
def dynIter (d : List UInt8) (stop : Nat) : Nat → Nat → Option (List DynEntry)
  | 0, _ => some []
  | n + 1, off => do
    let next ← addU64 off 16
    if stop < next then some []
    else
      let tag ← readLe d off 8
      let val ← readLe d (off + 8) 8
      -- `DT_NULL`
      if tag = 0 then some []
      else
        let rest ← dynIter d stop n next
        some ({ tag, val } :: rest)

/-- `Elf64Rela`; the addend is kept as its 64 bits. -/
structure Elf64Rela where
  rOffset : Nat
  rSym : Nat
  rType : Nat
  rAddend : Nat

/-- `RelaIter`. -/
def relaIter (d : List UInt8) (stop : Nat) : Nat → Nat → Option (List Elf64Rela)
  | 0, _ => some []
  | n + 1, off => do
    let next ← addU64 off 24
    if stop < next then some []
    else
      let rOffset ← readLe d off 8
      let rInfo ← readLe d (off + 8) 8
      let rAddend ← readLe d (off + 16) 8
      let rest ← relaIter d stop n next
      some ({ rOffset, rSym := rInfo / 2 ^ 32, rType := rInfo % 2 ^ 32, rAddend } :: rest)

/-- The fields of `Elf64Sym` that are used. -/
structure Elf64Sym where
  stName : Nat
  stShndx : Nat
  stValue : Nat
  stSize : Nat

/-- `is_undef`. -/
def Elf64Sym.isUndef (sym : Elf64Sym) : Bool := sym.stShndx == 0

/-- The symbol at `off`, if the file has it. -/
def readSym (d : List UInt8) (off : Nat) : Option (Option Elf64Sym) := do
  let stop ← addU64 off 24
  if d.length < stop then some none
  else
    let stName ← readLe d off 4
    let stShndx ← readLe d (off + 6) 2
    let stValue ← readLe d (off + 8) 8
    let stSize ← readLe d (off + 16) 8
    some (some { stName, stShndx, stValue, stSize })

/-- The bytes from `start` up to the next NUL or the end. -/
def cstr (d : List UInt8) (start : Nat) : List UInt8 := (d.drop start).takeWhile (· != 0)

end Elf

/-- `PtLoad`. -/
structure PtLoad where
  flags : Nat
  offset : Nat
  vaddr : Nat
  filesz : Nat
  memsz : Nat
  align : Nat
  deriving DecidableEq

structure Elf64 where
  data : List UInt8
  elfType : Nat

namespace Elf64

open Elf

/-- `Elf64::parse`. -/
def parse (data : List UInt8) : Option Elf64 :=
  if data.length < 64 then none
  else if data.take 4 ≠ [0x7F, 0x45, 0x4C, 0x46] then none
  else if data.getD 4 0 ≠ 2 then none
  else if data.getD 5 0 ≠ 1 then none
  else do
    let elfType ← readLe data 16 2
    let machine ← readLe data 18 2
    if elfType ≠ etExec ∧ elfType ≠ etDyn then none
    else if machine ≠ 0x3E then none
    else some { data, elfType }

/-- `entry`. -/
def entry (elf : Elf64) : Option Nat := readLe elf.data 24 8

/-- `load_segments`. -/
def loadSegments (elf : Elf64) : Option (List PtLoad) := do
  let phoff ← readLe elf.data 32 8
  let phnum ← readLe elf.data 56 2
  let phsz ← readLe elf.data 54 2
  let phdrs ← phdrIter elf.data phoff phsz phnum 0
  some (phdrs.filterMap fun ph =>
    if ph.pType ≠ ptLoad then none
    else some
      { flags := ph.pFlags
        offset := ph.pOffset
        vaddr := ph.pVaddr
        filesz := ph.pFilesz
        memsz := ph.pMemsz
        align := ph.pAlign })

/-- `phdr_iter().find_map(f)`. -/
def findPhdr {α : Type} (elf : Elf64) (f : RawPhdr → Option (Option α)) : Option (Option α) := do
  let phoff ← readLe elf.data 32 8
  let phnum ← readLe elf.data 56 2
  let phsz ← readLe elf.data 54 2
  Elf.findPhdr elf.data phoff phsz f phnum 0

/-- `dynamic_segment`. -/
def dynamicSegment (elf : Elf64) : Option (Option (Nat × Nat)) :=
  elf.findPhdr fun ph => some (if ph.pType = ptDynamic then some (ph.pOffset, ph.pFilesz) else none)

/-- `interp`. -/
def interp (elf : Elf64) : Option (Option (List UInt8)) :=
  elf.findPhdr fun ph =>
    if ph.pType ≠ ptInterp then some none
    else do
      let stop ← addU64 ph.pOffset ph.pFilesz
      some (if elf.data.length < stop then none
        else some (((elf.data.drop ph.pOffset).take ph.pFilesz).takeWhile (· != 0)))

/-- `dynamic_entries`. -/
def dynamicEntries (elf : Elf64) : Option (List DynEntry) := do
  match ← elf.dynamicSegment with
  | none => some []
  | some (off, sz) =>
    let stop ← addU64 off sz
    dynIter elf.data (min stop elf.data.length) (elf.data.length / 16 + 1) off

/-- `dyn_str`. -/
def dynStr (elf : Elf64) (strtabFileOff idx : Nat) : Option (Option (List UInt8)) := do
  let start ← addU64 strtabFileOff idx
  some (if elf.data.length ≤ start then none else some (cstr elf.data start))

/-- `rela_entries`. -/
def relaEntries (elf : Elf64) (fileOff totalSz : Nat) : Option (List Elf64Rela) := do
  let stop ← addU64 fileOff totalSz
  relaIter elf.data (min stop elf.data.length) (elf.data.length / 24 + 1) fileOff

/-- `sym`. -/
def sym (elf : Elf64) (symtabFileOff symIdx : Nat) : Option (Option Elf64Sym) := do
  readSym elf.data (← addU64 symtabFileOff (symIdx * 24))

/-- `dynsym_all`. -/
def dynsymAll (data : List UInt8) (symtabFoff strtabFoff : Nat) : Option (List Elf64Sym) := do
  let count := (strtabFoff - symtabFoff) / 24
  let syms ← (List.range count).mapM fun i => readSym data (symtabFoff + i * 24)
  some (syms.filterMap id)

/-- `vaddr_to_file_off`. -/
def vaddrToFileOff (elf : Elf64) (vaddr : Nat) : Option (Option Nat) :=
  elf.findPhdr fun ph =>
    if ph.pType ≠ ptLoad ∨ vaddr < ph.pVaddr then some none
    else do
      let stop ← addU64 ph.pVaddr ph.pFilesz
      if stop ≤ vaddr then some none
      else
        let off ← addU64 ph.pOffset (vaddr - ph.pVaddr)
        some (some off)

end Elf64

end ChodOs
