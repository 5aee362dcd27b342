/-
What `R_X86_64_COPY` does (`apply_rela_impl`). The executable defines the
symbol itself, where the copy is to be, so that `resolve_sym_inner` gives the
copy's own address: it is copied onto itself. A module that defines the symbol
goes on to use its own.
-/
import ChodOs.User.Repeats
import ChodOs.User.Symbols
import ChodOs.User.Targets

namespace ChodOs

open Elf Reloc

/-- What is copied onto itself is as it was. -/
theorem Phys.copyPhys_self {m : Phys} {p len : Nat} : (m.copyPhys p p len).bytes = m.bytes := by
  funext x
  by_cases hx : p ≤ x ∧ x < p + len
  · obtain ⟨i, rfl⟩ : ∃ i, x = p + i := ⟨x - p, by omega⟩
    rw [copyPhys, put_inside (by omega)]
  · rw [copyPhys, put_outside (by omega)]

namespace Reloc

variable {cr3 : Nat} {map : SymbolMap} {m m' : Phys} {n : Nat} {r : Reloc} {rs : List Reloc} {sym : Elf64Sym}
  {name : List UInt8}

/-- The types that go by a symbol: `64`, `COPY`, `GLOB_DAT` and `JUMP_SLOT`. -/
def symbolic : List Nat := [1, 5, 6, 7]

/-- It is to a symbol of the name, which its module has as `sym`. -/
structure RefersTo (r : Reloc) (sym : Elf64Sym) (name : List UInt8) : Prop where
  type : r.rela.rType ∈ symbolic
  entry : r.elf.sym r.lib.symtabFoff r.rela.rSym = some (some sym)
  named : r.elf.dynStr r.lib.strtabFoff sym.stName = some (some name)

/-- A module's own definition goes before the map. -/
theorem RefersTo.resolve (h : r.RefersTo sym name) : Phys.resolveSym r.elf r.lib r.rela.rSym map =
    if sym.isUndef then some ((map.lookup name).getD 0) else addU64 r.lib.loadBase sym.stValue := by
  rw [Phys.resolveSym, h.entry, Option.bind_eq_bind, Option.bind_some]
  cases hundef : sym.isUndef with
  | false => simp [hundef]
  | true => simp [hundef, h.named]

/-- A copy whose symbol is at its target is one onto itself. -/
theorem copy_self (h : r.RefersTo sym name) (htype : r.rela.rType = 5) (hdefined : sym.isUndef = false)
    (htarget : r.lib.loadBase + sym.stValue = r.target) (happly : r.apply cr3 map m = some (n, m')) :
    m'.bytes = m.bytes := by
  obtain ⟨va, hva, happly⟩ := Option.bind_eq_some_iff.mp happly
  obtain ⟨hlt, rfl⟩ := addU64_eq_some.mp hva
  have hresolve : Phys.resolveSym r.elf r.lib r.rela.rSym map = some (r.lib.loadBase + r.rela.rOffset) := by
    rw [h.resolve, hdefined, if_neg Bool.false_ne_true]
    exact addU64_eq_some.mpr ⟨htarget ▸ hlt, htarget⟩
  cases hphys : m.virtToPhys cr3 (r.lib.loadBase + r.rela.rOffset) with
  | none =>
    rw [hphys] at happly
    cases happly
    rfl
  | some pa =>
    simp only [hphys, htype, hresolve, Phys.copySym, h.entry, Option.bind_eq_bind, Option.bind_some, Option.map_some,
      Option.getD_some] at happly
    obtain ⟨m₁, hcopy, he⟩ := Option.bind_eq_some_iff.mp happly
    cases he
    split at hcopy
    · cases hcopy
      rfl
    · split at hcopy
      · cases hcopy
        rfl
      · cases hcopy
        exact Phys.copyPhys_self

end Reloc

namespace Phys

variable {m m' m'' : Phys} {cr3 va va' n : Nat}

/-- The memory at the addresses from `va` on is in `m` what it is from `va'` on in `m'`. -/
def SameBytes (cr3 : Nat) (m : Phys) (va : Nat) (m' : Phys) (va' n : Nat) : Prop :=
  ∀ b < n, ∃ p q, m.virtToPhys cr3 (va + b) = some p ∧ m'.virtToPhys cr3 (va' + b) = some q ∧ m.bytes p = m'.bytes q

/-- Between `m` and `m'` the memory at these addresses has not changed. -/
def Undisturbed (cr3 va n : Nat) (m m' : Phys) : Prop :=
  ∀ b < n, m'.virtToPhys cr3 (va + b) = m.virtToPhys cr3 (va + b) ∧
    ∀ p, m.virtToPhys cr3 (va + b) = some p → m'.bytes p = m.bytes p

theorem Undisturbed.of_bytes (h : m'.bytes = m.bytes) : Undisturbed cr3 va n m m' := by
  have hentry : m'.entry = m.entry := by
    funext t i
    rw [entry, entry, h]
  intro b _
  refine ⟨?_, fun p _ => congrFun h p⟩
  unfold virtToPhys walk
  rw [hentry]

theorem Undisturbed.trans (h : Undisturbed cr3 va n m m') (h' : Undisturbed cr3 va n m' m'') :
    Undisturbed cr3 va n m m'' := by
  intro b hb
  obtain ⟨hphys, hbytes⟩ := h b hb
  obtain ⟨hphys', hbytes'⟩ := h' b hb
  exact ⟨hphys'.trans hphys, fun p hp => (hbytes' p (hphys.trans hp)).trans (hbytes p hp)⟩

end Phys

theorem Reloc.run_undisturbed {cr3 va len k n : Nat} {map : SymbolMap} {m m' : Phys} {r : Reloc} {rs : List Reloc}
    (hat : AtEachTurn cr3 map (fun m r' => r' ≠ r → ∀ n m', r'.apply cr3 map m = some (n, m') →
      Phys.Undisturbed cr3 va len m m') m rs)
    (hself : ∀ {m n m'}, r.apply cr3 map m = some (n, m') → Phys.Undisturbed cr3 va len m m')
    (hrun : rs.foldlM (turn cr3 map) (k, m) = some (n, m')) : Phys.Undisturbed cr3 va len m m' := by
  induction rs generalizing m k with
  | nil =>
    cases hrun
    exact .of_bytes rfl
  | cons r' rs ih =>
    rw [List.foldlM_cons, Option.bind_eq_bind, Option.bind_eq_some_iff] at hrun
    obtain ⟨s, hturn, hrest⟩ := hrun
    obtain ⟨⟨j, m₁⟩, happly, rfl⟩ := Option.map_eq_some_iff.mp hturn
    obtain ⟨hstep, hat⟩ := (atEachTurn_cons happly).mp hat
    have hfirst : Phys.Undisturbed cr3 va len m m₁ := by
      by_cases hr : r' = r
      · subst hr
        exact hself happly
      · exact hstep hr j m₁ happly
    exact hfirst.trans (ih hat hrest)

/-- A data symbol that a library defines, and an executable that has a copy relocation for
it: it defines the symbol too, at the target, and this is that relocation's alone. -/
structure CopyObject (d : DynLinker) (m : Phys) where
  r : Reloc
  sym : Elf64Sym
  name : List UInt8
  /-- The library, its file, and the symbol's number in its symbol table. -/
  library : SharedLib × List UInt8
  idx : Nat
  source : Elf64Sym
  mem : ∀ rs, d.relocs = some rs → r ∈ rs
  type : r.rela.rType = 5
  refers : r.RefersTo sym name
  defined : sym.isUndef = false
  atTarget : r.lib.loadBase + sym.stValue = r.target
  loaded : library ∈ d.libs.zip d.elfBufs
  entry : symAt library.2 (library.1.symtabFoff + idx * 24) = some source
  exported : source.isUndef = false ∧ source.stValue ≠ 0 ∧
    cstr library.2 (library.1.strtabFoff + source.stName) = name
  alone : d.EachTurn m fun map m₁ r' => r' ≠ r → ∀ n m₂, r'.apply d.cr3 map m₁ = some (n, m₂) →
    Phys.Undisturbed d.cr3 r.target sym.stSize m₁ m₂

namespace CopyObject

variable {d : DynLinker} {m m' : Phys} {n : Nat}

/-- The executable's copy has the bytes that the library has for the symbol before any
relocation, and every reference to it is resolved to one address. -/
structure Shared (o : CopyObject d m) (m' : Phys) : Prop where
  copied : Phys.SameBytes d.cr3 m' o.r.target m (o.library.1.loadBase + o.source.stValue) o.sym.stSize
  oneAddress : ∃ va, ∀ map rs, d.symbolMap = some map → d.relocs = some rs → ∀ r' ∈ rs, ∀ sym',
    r'.RefersTo sym' o.name → Phys.resolveSym r'.elf r'.lib r'.rela.rSym map = some va

/-- The definitions of all modules, in load order, as far as they are read. -/
def definitions (d : DynLinker) : List (List UInt8 × Nat) :=
  (d.libs.zip d.elfBufs).flatMap fun x => x.1.definitions x.2

/-- No relocation changes the copy. -/
theorem kept (o : CopyObject d m) {map : SymbolMap} {rs : List Reloc} (hmap : d.symbolMap = some map)
    (hrs : d.relocs = some rs) (hrun : rs.foldlM (turn d.cr3 map) (0, m) = some (n, m')) :
    Phys.Undisturbed d.cr3 o.r.target o.sym.stSize m m' := by
  refine run_undisturbed (o.alone map rs hmap hrs) (fun happly => ?_) hrun
  exact .of_bytes (copy_self o.refers o.type o.defined o.atTarget happly)

end CopyObject

/-! ## A program with a copy -/

/-- The one relocation of the program and the library's symbol, when all is loaded. -/
structure CopyRun (d : DynLinker) (m : Phys) (r : Reloc) (sym source : Elf64Sym) (x : SharedLib × List UInt8) : Prop where
  relocs : d.relocs = some [r]
  type : r.rela.rType = 5
  entry : r.elf.sym r.lib.symtabFoff r.rela.rSym = some (some sym)
  named : r.elf.dynStr r.lib.strtabFoff sym.stName = some (some [0x78])
  defined : sym.isUndef = false
  atTarget : r.lib.loadBase + sym.stValue = r.target
  library : (d.libs.zip d.elfBufs)[1]? = some x
  sourceEntry : symAt x.2 (x.1.symtabFoff + 1 * 24) = some source
  exported : source.isUndef = false ∧ source.stValue ≠ 0 ∧ cstr x.2 (x.1.strtabFoff + source.stName) = [0x78]
  size : 0 < sym.stSize

def CopyRun.object {d : DynLinker} {m : Phys} {r : Reloc} {sym source : Elf64Sym} {x : SharedLib × List UInt8}
    (h : CopyRun d m r sym source x) : CopyObject d m where
  r
  sym
  name := [0x78]
  library := x
  idx := 1
  source
  mem := by
    intro rs hrs
    cases h.relocs.symm.trans hrs
    exact List.mem_singleton_self r
  type := h.type
  refers := ⟨by rw [h.type]; decide, h.entry, h.named⟩
  defined := h.defined
  atTarget := h.atTarget
  loaded := List.mem_of_getElem? h.library
  entry := h.sourceEntry
  exported := h.exported
  alone := by
    intro map rs _ hrs
    cases h.relocs.symm.trans hrs
    exact ⟨fun hr => absurd rfl hr, fun _ _ _ => trivial⟩

end ChodOs
