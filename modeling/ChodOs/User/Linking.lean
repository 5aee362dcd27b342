/-
What a link without failures says (`resolve_all`). The count takes in the
relocations whose target is not mapped, and no others: one of an unknown
type, one whose symbol is nowhere defined and one that has nothing to copy
from are passed over, as is a table's end that the file does not have.
-/
import ChodOs.User.Modules

namespace ChodOs

open Elf

/-- A relocation, and the module that it is of. -/
structure Reloc where
  lib : SharedLib
  elf : Elf64
  rela : Elf64Rela

/-- RELA and PLT-RELA: where the table is in the file, and its length. -/
def SharedLib.tables (lib : SharedLib) : List (Nat × Nat) :=
  [(lib.relaFoff, lib.relaSz), (lib.pltRelaFoff, lib.pltRelaSz)]

/-- The entries of a table that the linker goes through. -/
def Elf64.tableEntries (elf : Elf64) (t : Nat × Nat) : Option (List Elf64Rela) :=
  if t.2 = 0 then some [] else elf.relaEntries t.1 t.2

namespace Reloc

variable (cr3 : Nat) (map : SymbolMap)

/-- The relocations of a module. -/
def ofModule (lib : SharedLib) (data : List UInt8) : Option (List Reloc) :=
  match Elf64.parse data with
  | none => some []
  | some elf => (lib.tables.mapM elf.tableEntries).map fun ls => ls.flatten.map (Reloc.mk lib elf)

def apply (m : Phys) (r : Reloc) : Option (Nat × Phys) := m.applyOne r.elf r.lib cr3 map r.rela

/-- The next relocation, with the failures so far. -/
def turn (s : Nat × Phys) (r : Reloc) : Option (Nat × Phys) := (r.apply cr3 map s.2).map fun q => (s.1 + q.1, q.2)

/-- `P` holds of each relocation and the memory that it finds. -/
def AtEachTurn (P : Phys → Reloc → Prop) : Phys → List Reloc → Prop
  | _, [] => True
  | m, r :: rs => P m r ∧ ∀ n m', r.apply cr3 map m = some (n, m') → AtEachTurn P m' rs

/-- The target is mapped. -/
def Mapped (m : Phys) (r : Reloc) : Prop := (m.virtToPhys cr3 (r.lib.loadBase + r.rela.rOffset)).isSome = true

/-- `RELATIVE`, `64`, `GLOB_DAT`, `JUMP_SLOT` and `COPY`. -/
def types : List Nat := [8, 1, 6, 7, 5]

/-- The symbol is in the symbol table, and its name in the map if the module leaves it undefined. -/
def Found (r : Reloc) : Prop := ∃ sym, r.elf.sym r.lib.symtabFoff r.rela.rSym = some (some sym) ∧
  (sym.isUndef = true → ∃ name, r.elf.dynStr r.lib.strtabFoff sym.stName = some (some name) ∧
    (map.lookup name).isSome = true)

/-- The symbol's data, if it has any, can be read. -/
def Readable (m : Phys) (r : Reloc) : Prop := ∀ sym, r.elf.sym r.lib.symtabFoff r.rela.rSym = some (some sym) →
  sym.stSize = 0 ∨ ∃ va, Phys.resolveSym r.elf r.lib r.rela.rSym map = some va ∧ va ≠ 0 ∧
    (m.virtToPhys cr3 va).isSome = true

/-- What the linker needs of a relocation besides its target. -/
structure Applicable (m : Phys) (r : Reloc) : Prop where
  implemented : r.rela.rType ∈ types
  found : r.rela.rType ≠ 8 → r.Found map
  readable : r.rela.rType = 5 → r.Readable cr3 map m

/-- The relocation is applied. -/
structure Applied (m : Phys) (r : Reloc) : Prop extends Applicable cr3 map m r where
  mapped : r.Mapped cr3 m

end Reloc

namespace DynLinker

/-- The map that `resolve_all` builds. -/
def symbolMap (d : DynLinker) : Option SymbolMap :=
  (d.libs.zip d.elfBufs).foldlM (fun map (lib, data) => SymbolMap.addLib map lib data) []

/-- All relocations, in their order. -/
def relocs (d : DynLinker) : Option (List Reloc) :=
  ((d.libs.zip d.elfBufs).mapM fun x => Reloc.ofModule x.1 x.2).map List.flatten

/-- `P` holds of each relocation when its turn comes. -/
def EachTurn (d : DynLinker) (m : Phys) (P : SymbolMap → Phys → Reloc → Prop) : Prop :=
  ∀ map rs, d.symbolMap = some map → d.relocs = some rs → Reloc.AtEachTurn d.cr3 map (P map) m rs

/-- The modules were loaded by `load_so_at`, at some time and place. -/
structure Loaded (d : DynLinker) : Prop where
  paired : d.libs.length = d.elfBufs.length
  each : ∀ x ∈ d.libs.zip d.elfBufs, ∃ (m m' : Phys) (name : String) (cr3 base : Nat),
    m.loadSoAt name x.2 cr3 base = some (some x.1, m')

/-- All entries of all tables are applied. -/
structure Linked (d : DynLinker) (m : Phys) : Prop where
  read : ∀ x ∈ d.libs.zip d.elfBufs, ∀ t ∈ x.1.tables, ∃ elf es, Elf64.parse x.2 = some elf ∧
    elf.tableEntries t = some es ∧ es.length = t.2 / 24
  applied : d.EachTurn m (Reloc.Applied d.cr3)

/-- The files have their tables to the last entry. -/
def TablesInFile (d : DynLinker) : Prop :=
  ∀ x ∈ d.libs.zip d.elfBufs, ∀ t ∈ x.1.tables, t.2 / 24 = 0 ∨ t.1 + t.2 / 24 * 24 ≤ x.2.length

instance (d : DynLinker) : Decidable d.TablesInFile := inferInstanceAs (Decidable (∀ _ ∈ _, ∀ _ ∈ _, _))

end DynLinker

/-! ## The entries of a table -/

theorem Elf.length_relaIter {d : List UInt8} {stop n off : Nat} {es : List Elf64Rela}
    (h : relaIter d stop n off = some es) (hn : stop ≤ off + 24 * n) : es.length = (stop - off) / 24 := by
  induction n generalizing off es with
  | zero =>
    cases h
    rw [List.length_nil]
    omega
  | succ n ih =>
    rw [relaIter, Option.bind_eq_bind, Option.bind_eq_some_iff] at h
    obtain ⟨next, hnext, h⟩ := h
    obtain ⟨-, rfl⟩ := addU64_eq_some.mp hnext
    split at h
    · next hstop =>
      cases h
      rw [List.length_nil]
      omega
    · next hstop =>
      simp only [Option.bind_eq_bind, Option.bind_eq_some_iff, Option.some.injEq] at h
      obtain ⟨_, -, _, -, _, -, rest, hrest, rfl⟩ := h
      rw [List.length_cons, ih hrest (by omega)]
      omega

theorem Elf64.parse_data {data : List UInt8} {elf : Elf64} (h : Elf64.parse data = some elf) : elf.data = data := by
  unfold Elf64.parse at h
  iterate 4
    split at h
    · cases h
  simp only [Option.bind_eq_bind, Option.bind_eq_some_iff] at h
  obtain ⟨_, -, _, -, h⟩ := h
  iterate 2
    split at h
    · cases h
  cases h
  rfl

/-- A table is read to its last entry if the file has it. -/
theorem Elf64.tableEntries_length_iff {elf : Elf64} {t : Nat × Nat} {es : List Elf64Rela}
    (h : elf.tableEntries t = some es) :
    es.length = t.2 / 24 ↔ t.2 / 24 = 0 ∨ t.1 + t.2 / 24 * 24 ≤ elf.data.length := by
  unfold tableEntries at h
  split at h
  · next hzero =>
    cases h
    simp [hzero]
  · obtain ⟨stop, hstop, h⟩ := Option.bind_eq_some_iff.mp h
    obtain ⟨-, rfl⟩ := addU64_eq_some.mp hstop
    rw [Elf.length_relaIter h (by omega)]
    omega

/-! ## The run of the linker -/

namespace Reloc

variable {cr3 : Nat} {map : SymbolMap} {m m' : Phys} {n : Nat} {rs : List Reloc} {P Q : Phys → Reloc → Prop}

theorem ofModule_of_parse {lib : SharedLib} {data : List UInt8} {elf : Elf64} (h : Elf64.parse data = some elf) :
    ofModule lib data = (lib.tables.mapM elf.tableEntries).map fun ls => ls.flatten.map (Reloc.mk lib elf) := by
  rw [ofModule, h]

/-- The failures of a part of the relocations add up with those before. -/
theorem foldlM_turn_add (k : Nat) : rs.foldlM (turn cr3 map) (k, m) =
    (rs.foldlM (turn cr3 map) (0, m)).map fun s => (k + s.1, s.2) := by
  induction rs generalizing k m with
  | nil => rfl
  | cons r rs ih =>
    simp only [List.foldlM_cons, turn, Option.bind_eq_bind]
    cases r.apply cr3 map m with
    | none => rfl
    | some q =>
      simp only [Option.map_some, Option.bind_some]
      rw [ih (k + q.1), ih (0 + q.1), Option.map_map]
      congr 1
      funext s
      simp only [Function.comp_apply]
      rw [Nat.zero_add, Nat.add_assoc]

/-- `apply_rela_with_map` goes through the relocations of the module. -/
theorem applyRela_eq {lib : SharedLib} {data : List UInt8} (h : Phys.applyRela lib data cr3 map m = some (n, m')) :
    ∃ rs, ofModule lib data = some rs ∧ rs.foldlM (turn cr3 map) (0, m) = some (n, m') := by
  unfold Phys.applyRela at h
  cases hparse : Elf64.parse data with
  | none =>
    rw [hparse] at h
    exact ⟨[], by rw [ofModule, hparse], h⟩
  | some elf =>
    rw [hparse] at h
    rw [ofModule_of_parse hparse]
    have hbody : lib.tables.foldlM (fun s t => (elf.tableEntries t).bind fun es =>
        es.foldlM (fun s rela => turn cr3 map s ⟨lib, elf, rela⟩) s) (0, m) = some (n, m') := by
      refine Eq.trans ?_ h
      congr 1
      funext ⟨failed, m⟩ ⟨foff, sz⟩
      simp only [Elf64.tableEntries]
      split
      · rfl
      · cases elf.relaEntries foff sz with
        | none => rfl
        | some es =>
          refine congrArg (fun f => List.foldlM f (failed, m) es) ?_
          funext ⟨failed, m⟩ rela
          simp only [turn, apply]
          cases m.applyOne elf lib cr3 map rela <;> rfl
    obtain ⟨ls, hls, hrun⟩ := Loop.of_mapM hbody
    refine ⟨_, by rw [hls]; rfl, ?_⟩
    rw [List.foldlM_map]
    exact hrun

/-- So does `resolve_all`, through those of all modules. -/
theorem resolveAll_eq {d : DynLinker} (h : d.resolveAll m = some (n, m')) : ∃ map rs, d.symbolMap = some map ∧
    d.relocs = some rs ∧ rs.foldlM (turn d.cr3 map) (0, m) = some (n, m') := by
  obtain ⟨map, hmap, h⟩ := Option.bind_eq_some_iff.mp h
  have hbody : ∃ s', (d.libs.zip d.elfBufs).foldlM (fun s x => (ofModule x.1 x.2).bind fun rs =>
      rs.foldlM (turn d.cr3 map) s) (0, m) = some s' ∧ (n, m') = s' := by
    refine Loop.simulation Eq h rfl fun {x s s' t} _ hst hstep => ?_
    subst hst
    obtain ⟨⟨k, m₁⟩, happly, he⟩ := Option.bind_eq_some_iff.mp hstep
    cases he
    obtain ⟨rs, hrs, hrun⟩ := applyRela_eq happly
    refine ⟨_, ?_, rfl⟩
    rw [hrs, Option.bind_some]
    obtain ⟨failed, m₀⟩ := s
    rw [foldlM_turn_add, hrun]
    rfl
  obtain ⟨s', hrun, rfl⟩ := hbody
  obtain ⟨ls, hls, hrun⟩ := Loop.of_mapM hrun
  exact ⟨map, ls.flatten, hmap, by rw [DynLinker.relocs, hls]; rfl, hrun⟩

/-- A relocation fails just in case its target is not mapped. -/
theorem apply_failed_iff {r : Reloc} (h : r.apply cr3 map m = some (n, m')) : n = 0 ↔ r.Mapped cr3 m := by
  obtain ⟨va, hva, h⟩ := Option.bind_eq_some_iff.mp h
  obtain ⟨-, rfl⟩ := addU64_eq_some.mp hva
  unfold Mapped
  cases hphys : m.virtToPhys cr3 (r.lib.loadBase + r.rela.rOffset) with
  | none =>
    rw [hphys] at h
    cases h
    exact ⟨nofun, nofun⟩
  | some pa =>
    rw [hphys] at h
    refine ⟨fun _ => rfl, fun _ => ?_⟩
    dsimp only at h
    split at h
    · cases h; rfl
    · obtain ⟨_, -, h⟩ := Option.bind_eq_some_iff.mp h; cases h; rfl
    · obtain ⟨_, -, h⟩ := Option.bind_eq_some_iff.mp h; cases h; rfl
    · obtain ⟨_, -, h⟩ := Option.bind_eq_some_iff.mp h; cases h; rfl
    · obtain ⟨_, -, h⟩ := Option.bind_eq_some_iff.mp h
      obtain ⟨_, -, h⟩ := Option.bind_eq_some_iff.mp h
      cases h; rfl
    · cases h; rfl

/-- One that is applied has its value, or its symbol's data, at the target. -/
theorem Applied.stores {r : Reloc} (ha : r.Applied cr3 map m) (h : r.apply cr3 map m = some (n, m')) :
    ∃ pa, m.virtToPhys cr3 (r.lib.loadBase + r.rela.rOffset) = some pa ∧
      ((∃ v, m' = m.put pa 8 (ByteMem.leByte v)) ∨
        r.rela.rType = 5 ∧ ∃ sym, r.elf.sym r.lib.symtabFoff r.rela.rSym = some (some sym) ∧
          (sym.stSize = 0 ∧ m' = m ∨ ∃ src, m' = m.copyPhys src pa sym.stSize)) := by
  obtain ⟨pa, hpa⟩ := Option.isSome_iff_exists.mp ha.mapped
  refine ⟨pa, hpa, ?_⟩
  obtain ⟨va, hva, h⟩ := Option.bind_eq_some_iff.mp h
  obtain ⟨-, rfl⟩ := addU64_eq_some.mp hva
  rw [hpa] at h
  dsimp only at h
  split at h
  · cases h; exact .inl ⟨_, rfl⟩
  · obtain ⟨_, -, h⟩ := Option.bind_eq_some_iff.mp h; cases h; exact .inl ⟨_, rfl⟩
  · obtain ⟨_, -, h⟩ := Option.bind_eq_some_iff.mp h; cases h; exact .inl ⟨_, rfl⟩
  · obtain ⟨_, -, h⟩ := Option.bind_eq_some_iff.mp h; cases h; exact .inl ⟨_, rfl⟩
  · next htype =>
    obtain ⟨sym, hsym, -⟩ := ha.found (by rw [htype]; decide)
    refine .inr ⟨htype, sym, hsym, ?_⟩
    obtain ⟨symVa, hresolve, h⟩ := Option.bind_eq_some_iff.mp h
    obtain ⟨m₁, hcopy, h⟩ := Option.bind_eq_some_iff.mp h
    cases h
    simp only [Phys.copySym, hsym, Option.bind_eq_bind, Option.bind_some] at hcopy
    rcases ha.readable htype sym hsym with hzero | ⟨va, hva, hne, hmapped⟩
    · rw [if_pos hzero, ite_self] at hcopy
      exact .inl ⟨hzero, (Option.some.inj hcopy).symm⟩
    · cases hresolve.symm.trans hva
      obtain ⟨src, hsrc⟩ := Option.isSome_iff_exists.mp hmapped
      rw [if_neg hne, hsrc, Option.map_some, Option.getD_some] at hcopy
      split at hcopy
      · next hzero => exact .inl ⟨hzero, (Option.some.inj hcopy).symm⟩
      · exact .inr ⟨src, (Option.some.inj hcopy).symm⟩
  · next h₈ h₁ h₆ h₇ h₅ =>
    have htypes := ha.implemented
    simp only [types, List.mem_cons, List.not_mem_nil, or_false] at htypes
    rcases htypes with h | h | h | h | h
    exacts [(h₈ h).elim, (h₁ h).elim, (h₆ h).elim, (h₇ h).elim, (h₅ h).elim]

theorem atEachTurn_cons {r : Reloc} {n : Nat} (h : r.apply cr3 map m = some (n, m')) :
    AtEachTurn cr3 map P m (r :: rs) ↔ P m r ∧ AtEachTurn cr3 map P m' rs :=
  ⟨fun hat => ⟨hat.1, hat.2 _ _ h⟩, fun hat => ⟨hat.1, fun _ _ h' => by cases h.symm.trans h'; exact hat.2⟩⟩

theorem AtEachTurn.and_iff : AtEachTurn cr3 map (fun m r => P m r ∧ Q m r) m rs ↔
    AtEachTurn cr3 map P m rs ∧ AtEachTurn cr3 map Q m rs := by
  induction rs generalizing m with
  | nil => exact ⟨fun _ => ⟨trivial, trivial⟩, fun _ => trivial⟩
  | cons r rs ih =>
    simp only [AtEachTurn, ih]
    exact ⟨fun h => ⟨⟨h.1.1, fun n m' h' => (h.2 n m' h').1⟩, h.1.2, fun n m' h' => (h.2 n m' h').2⟩,
      fun h => ⟨⟨h.1.1, h.2.1⟩, fun n m' h' => ⟨h.1.2 n m' h', h.2.2 n m' h'⟩⟩⟩

/-- The count is of the targets that are not mapped. -/
theorem failed_eq_zero_iff (h : rs.foldlM (turn cr3 map) (0, m) = some (n, m')) :
    n = 0 ↔ AtEachTurn cr3 map (fun m r => r.Mapped cr3 m) m rs := by
  induction rs generalizing m n with
  | nil =>
    cases h
    exact ⟨fun _ => trivial, fun _ => rfl⟩
  | cons r rs ih =>
    rw [List.foldlM_cons, Option.bind_eq_bind, Option.bind_eq_some_iff] at h
    obtain ⟨s, hturn, hrest⟩ := h
    obtain ⟨⟨k, m₁⟩, happly, rfl⟩ := Option.map_eq_some_iff.mp hturn
    rw [foldlM_turn_add] at hrest
    obtain ⟨⟨n₁, m₂⟩, hrun, he⟩ := Option.map_eq_some_iff.mp hrest
    simp only [Prod.mk.injEq] at he
    obtain ⟨hsum, rfl⟩ := he
    rw [atEachTurn_cons happly, ← apply_failed_iff happly, ← ih hrun]
    omega

end Reloc

/-! ## A link without failures -/

open Reloc

/-- When `resolve_all` reports no failure, every relocation has been applied
just in case there was none whose target is not mapped among them, which is
reported, or else none of those that are passed over. -/
theorem clean_link_iff {d : DynLinker} {m m' : Phys} {n : Nat} (hloaded : d.Loaded) (h : d.resolveAll m = some (n, m')) :
    (n = 0 → d.Linked m) ↔
      ¬ d.EachTurn m (fun _ m r => r.Mapped d.cr3 m) ∨
        d.TablesInFile ∧ d.EachTurn m (Reloc.Applicable d.cr3) := by
  obtain ⟨map, rs, hmap, hrs, hrun⟩ := resolveAll_eq h
  have heach : ∀ P : SymbolMap → Phys → Reloc → Prop, d.EachTurn m P ↔ AtEachTurn d.cr3 map (P map) m rs := by
    intro P
    refine ⟨fun hP => hP map rs hmap hrs, fun hP map' rs' hmap' hrs' => ?_⟩
    cases hmap.symm.trans hmap'
    cases hrs.symm.trans hrs'
    exact hP
  have hread : (∀ x ∈ d.libs.zip d.elfBufs, ∀ t ∈ x.1.tables, ∃ elf es, Elf64.parse x.2 = some elf ∧
      elf.tableEntries t = some es ∧ es.length = t.2 / 24) ↔ d.TablesInFile := by
    refine forall₂_congr fun x hx => forall₂_congr fun t ht => ?_
    obtain ⟨m₁, m₂, name, cr3, base, hso⟩ := hloaded.each x hx
    rcases Phys.loadSoAt_cases hso with ⟨hnone, -, -⟩ | ⟨_, elf, _, _, -, -, -, -, hparse, -, -⟩
    · cases hnone
    · obtain ⟨ls, hls, -⟩ := Option.map_eq_some_iff.mp hrs
      obtain ⟨rs', -, hmodule⟩ := Loop.mapM_mem hls hx
      rw [ofModule_of_parse hparse] at hmodule
      obtain ⟨es, hes, -⟩ := Option.map_eq_some_iff.mp hmodule
      obtain ⟨es, -, hentries⟩ := Loop.mapM_mem hes ht
      have hlength := Elf64.tableEntries_length_iff hentries
      rw [Elf64.parse_data hparse] at hlength
      rw [← hlength]
      constructor
      · intro ⟨elf', es', hparse', hentries', hlen⟩
        cases hparse.symm.trans hparse'
        cases hentries.symm.trans hentries'
        exact hlen
      · exact fun hlen => ⟨elf, es, hparse, hentries, hlen⟩
  have happlied : d.EachTurn m (Reloc.Applied d.cr3) ↔
      d.EachTurn m (Reloc.Applicable d.cr3) ∧ d.EachTurn m (fun _ m r => r.Mapped d.cr3 m) := by
    rw [heach, heach, heach, ← AtEachTurn.and_iff]
    exact iff_of_eq (congrArg (fun P => AtEachTurn d.cr3 map P m rs) (funext₂ fun m r => propext
      ⟨fun ha => ⟨ha.toApplicable, ha.mapped⟩, fun ha => ⟨ha.1, ha.2⟩⟩))
  have hcount := (failed_eq_zero_iff hrun).trans (heach fun _ m r => r.Mapped d.cr3 m).symm
  rw [hcount]
  constructor
  · intro hclean
    by_cases hmapped : d.EachTurn m (fun _ m r => r.Mapped d.cr3 m)
    · have hlinked := hclean hmapped
      exact .inr ⟨hread.mp hlinked.read, (happlied.mp hlinked.applied).1⟩
    · exact .inl hmapped
  · intro h hmapped
    rcases h with hnot | ⟨hfile, happlicable⟩
    · exact absurd hmapped hnot
    · exact ⟨hread.mpr hfile, happlied.mpr ⟨happlicable, hmapped⟩⟩

/-! ## What `load_exec` leaves is loaded -/

namespace DynLinker

variable {d d₁ d' : DynLinker} {m m' : Phys} {elf : Elf64} {data : List UInt8} {lib : LibProvider}

theorem Loaded.push {name : String} {cr3 base : Nat} {l : SharedLib} (hd : d.Loaded) (hlibs : d₁.libs = d.libs)
    (hbufs : d₁.elfBufs = d.elfBufs) (h : m.loadSoAt name data cr3 base = some (some l, m')) : (d₁.push l data).Loaded where
  paired := by simp [DynLinker.push, hlibs, hbufs, hd.paired]
  each := by
    intro x hx
    simp only [DynLinker.push, hlibs, hbufs] at hx
    rw [List.zip_append hd.paired, List.mem_append] at hx
    rcases hx with hx | hx
    · exact hd.each x hx
    · obtain rfl : x = (l, data) := by simpa using hx
      exact ⟨m, m', name, cr3, base, h⟩

theorem Loaded.loadDep {depName : String} {sub : List String} (hd : d.Loaded)
    (h : loadDep lib d m depName = some (d', m', sub)) : d'.Loaded := by
  unfold DynLinker.loadDep at h
  split at h
  · cases h
    exact hd
  · split at h
    · cases h
      exact hd
    · obtain ⟨next, -, h⟩ := Option.bind_eq_some_iff.mp h
      obtain ⟨⟨l, m₁⟩, hso, h⟩ := Option.bind_eq_some_iff.mp h
      cases l with
      | none =>
        cases h
        exact ⟨hd.paired, hd.each⟩
      | some l =>
        cases h
        exact hd.push rfl rfl hso

theorem Loaded.loadDeps {needed : List String} (hd : d.Loaded) (h : loadDeps lib d m needed = some (d', m')) :
    d'.Loaded := by
  induction d, m, needed using loadDeps.induct lib with
  | case1 d m =>
    rw [DynLinker.loadDeps] at h
    cases h
    exact hd
  | case2 d m depName rest hdep =>
    rw [DynLinker.loadDeps] at h
    split at h
    · cases h
    · next hdep' => cases hdep.symm.trans hdep'
  | case3 d m depName rest d₁ m₁ sub hdep ih =>
    rw [DynLinker.loadDeps] at h
    split at h
    · cases h
    · next hdep' =>
      cases hdep.symm.trans hdep'
      exact ih (hd.loadDep hdep) h

theorem Loaded.loadInterp (hd : d.Loaded) (h : d.loadInterp m elf lib = some (some d', m')) : d'.Loaded := by
  obtain ⟨interp, -, h⟩ := Option.bind_eq_some_iff.mp h
  split at h
  · cases h
    exact hd
  · dsimp only at h
    split at h
    · cases h
      exact hd
    · split at h
      · cases h
      · obtain ⟨⟨l, m₁⟩, hso, h⟩ := Option.bind_eq_some_iff.mp h
        cases l with
        | none => cases h
        | some l =>
          simp only [Option.bind_eq_bind, Option.bind_eq_some_iff, Option.some.injEq, Prod.mk.injEq] at h
          obtain ⟨_, -, _, -, rfl, -⟩ := h
          exact hd.push rfl rfl hso

theorem Loaded.loadMain (hd : d.Loaded) (h : d.loadMain m elf data = some (some d', m')) : d'.Loaded := by
  obtain ⟨⟨l, m₁⟩, hso, h⟩ := Option.bind_eq_some_iff.mp h
  cases l with
  | none => cases h
  | some l =>
    simp only [Option.bind_eq_bind, Option.bind_eq_some_iff, Option.some.injEq, Prod.mk.injEq] at h
    obtain ⟨_, -, _, -, _, -, _, -, _, -, _, -, rfl, -⟩ := h
    exact hd.push rfl rfl hso

theorem loadExec_loaded {root entry : Nat} (h : (new root).loadExec m data lib = some (some entry, d', m')) :
    d'.Loaded := by
  cases hparse : Elf64.parse data with
  | none =>
    rw [loadExec, hparse] at h
    cases h
  | some elf =>
    rw [loadExec, hparse] at h
    obtain ⟨⟨o, m₁⟩, hmain, h⟩ := Option.bind_eq_some_iff.mp h
    cases o with
    | none => cases h
    | some d₁ =>
      obtain ⟨⟨o, m₂⟩, hinterp, h⟩ := Option.bind_eq_some_iff.mp h
      cases o with
      | none => cases h
      | some d₂ =>
        obtain ⟨⟨d₃, m₃⟩, hdeps, h⟩ := Option.bind_eq_some_iff.mp h
        cases h
        have hnew : (new root).Loaded := ⟨rfl, fun x hx => by cases hx⟩
        exact ((hnew.loadMain hmain).loadInterp hinterp).loadDeps hdeps

end DynLinker

/-! ## Two executables -/

/-- An executable at 64 KB with one relocation, of its own table. -/
def oneRelocElf (rType : Nat) : List UInt8 :=
  [0x7F, 0x45, 0x4C, 0x46, 2, 1, 1, 0] ++ ByteMem.leBytes 8 0 ++ ByteMem.leBytes 2 etExec ++ ByteMem.leBytes 2 0x3E ++
    ByteMem.leBytes 4 1 ++ ByteMem.leBytes 8 0x10000 ++ ByteMem.leBytes 8 64 ++ ByteMem.leBytes 8 0 ++
    ByteMem.leBytes 4 0 ++ ByteMem.leBytes 2 64 ++ ByteMem.leBytes 2 56 ++ ByteMem.leBytes 2 2 ++ ByteMem.leBytes 6 0 ++
  -- `PT_LOAD` and `PT_DYNAMIC`
  ByteMem.leBytes 4 ptLoad ++ ByteMem.leBytes 4 7 ++ ByteMem.leBytes 8 0 ++ ByteMem.leBytes 8 0x10000 ++
    ByteMem.leBytes 8 0 ++ ByteMem.leBytes 8 248 ++ ByteMem.leBytes 8 248 ++ ByteMem.leBytes 8 1 ++
  ByteMem.leBytes 4 ptDynamic ++ ByteMem.leBytes 4 7 ++ ByteMem.leBytes 8 176 ++ ByteMem.leBytes 8 (0x10000 + 176) ++
    ByteMem.leBytes 8 0 ++ ByteMem.leBytes 8 48 ++ ByteMem.leBytes 8 48 ++ ByteMem.leBytes 8 1 ++
  -- `DT_RELA`, `DT_RELASZ` and `DT_NULL`
  ByteMem.leBytes 8 7 ++ ByteMem.leBytes 8 (0x10000 + 224) ++ ByteMem.leBytes 8 8 ++ ByteMem.leBytes 8 24 ++
    ByteMem.leBytes 8 0 ++ ByteMem.leBytes 8 0 ++
  ByteMem.leBytes 8 (0x10000 + 224) ++ ByteMem.leBytes 8 rType ++ ByteMem.leBytes 8 0

/-- No libraries. -/
def noLibrary : LibProvider := fun _ => none

/-- It is loaded, and the link is clean. -/
theorem oneReloc_run {rType : Nat} (h : rType = 8 ∨ rType = 37) : ∃ root m entry d m' m'' map r,
    bootMachine.allocUserPml4 = some (root, m) ∧
    (DynLinker.new root).loadExec m (oneRelocElf rType) noLibrary = some (some entry, d, m') ∧
    d.resolveAll m' = some (0, m'') ∧ d.symbolMap = some map ∧ d.relocs = some [r] ∧ r.rela.rType = rType ∧
    d.TablesInFile := by
  have hany : (bootMachine.allocUserPml4.any fun r =>
      (DynLinker.runExec noLibrary 1 (.new r.1) r.2 (oneRelocElf rType)).any fun q =>
        (q.1.resolveAll q.2).any (fun z => z.1 == 0) && q.1.relocs.any (fun rs => rs.map (·.rela.rType) == [rType]) &&
          decide q.1.TablesInFile) = true := by
    rcases h with rfl | rfl <;> decide +kernel
  obtain ⟨⟨root, m⟩, hnew, hP⟩ := (Option.any_eq_true _ _).mp hany
  obtain ⟨⟨d, m'⟩, hrun, hP⟩ := (Option.any_eq_true _ _).mp hP
  simp only [Bool.and_eq_true, Option.any_eq_true, beq_iff_eq, decide_eq_true_eq] at hP
  obtain ⟨⟨⟨⟨n, m''⟩, hresolve, rfl⟩, rs, hrs, hone⟩, hfile⟩ := hP
  obtain ⟨entry, hload⟩ := DynLinker.loadExec_of_run hrun
  obtain ⟨map, -, hmap, -, -⟩ := resolveAll_eq hresolve
  obtain ⟨r, rfl, hr⟩ := List.map_eq_singleton_iff.mp hone
  exact ⟨root, m, entry, d, m', m'', map, r, hnew, hload, hresolve, hmap, hrs, hr, hfile⟩

/-- An `R_X86_64_RELATIVE` is applied. -/
theorem clean_link_relative : ∃ root m entry d m' m'', bootMachine.allocUserPml4 = some (root, m) ∧
    (DynLinker.new root).loadExec m (oneRelocElf 8) noLibrary = some (some entry, d, m') ∧
    d.resolveAll m' = some (0, m'') ∧ d.Linked m' := by
  obtain ⟨root, m, entry, d, m', m'', map, r, hnew, hload, hresolve, hmap, hrs, htype, hfile⟩ := oneReloc_run (.inl rfl)
  refine ⟨root, m, entry, d, m', m'', hnew, hload, hresolve,
    (clean_link_iff (DynLinker.loadExec_loaded hload) hresolve).mpr (.inr ⟨hfile, fun map' rs' _ hrs' => ?_⟩) rfl⟩
  cases hrs.symm.trans hrs'
  refine ⟨⟨?_, fun hne => absurd htype hne, fun hcopy => ?_⟩, fun _ _ _ => trivial⟩
  · rw [htype]
    decide
  · rw [htype] at hcopy
    cases hcopy

/-- An `R_X86_64_IRELATIVE` is passed over, and no failure is counted. -/
theorem clean_link_of_unknown_type : ∃ root m entry d m' m'', bootMachine.allocUserPml4 = some (root, m) ∧
    (DynLinker.new root).loadExec m (oneRelocElf 37) noLibrary = some (some entry, d, m') ∧
    d.resolveAll m' = some (0, m'') ∧ ¬ d.Linked m' := by
  obtain ⟨root, m, entry, d, m', m'', map, r, hnew, hload, hresolve, hmap, hrs, htype, -⟩ := oneReloc_run (.inr rfl)
  refine ⟨root, m, entry, d, m', m'', hnew, hload, hresolve, fun hlinked => ?_⟩
  have himplemented := (hlinked.applied map [r] hmap hrs).1.implemented
  rw [htype] at himplemented
  exact absurd himplemented (by decide)

end ChodOs
