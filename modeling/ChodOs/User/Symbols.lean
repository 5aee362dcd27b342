/-
Which symbols `SymbolMap` has (`dynlink.rs`). `dynsym_all` does not read how
many entries a symbol table has: it takes all 24 bytes up to the string
table for entries, so that what is found depends on where the tables are.
-/
import ChodOs.User.Accessors

namespace ChodOs

open Elf

/-! ## Maps -/

namespace SymbolMap

variable {map : SymbolMap} {name : List UInt8} {va : Nat} {es es' : List (List UInt8 × Nat)}

theorem lookup_append : lookup (es ++ es') name = (lookup es name).or (lookup es' name) := by
  simp only [lookup, List.find?_append]
  cases es.find? (·.1 == name) <;> rfl

theorem lookup_define {e : List UInt8 × Nat} : (map.define e.1 e.2).lookup name = lookup (map ++ [e]) name := by
  unfold define
  split
  · rfl
  · next h =>
    rw [Bool.not_eq_true, Option.isNone_eq_false_iff] at h
    rw [lookup_append]
    by_cases he : e.1 = name
    · subst he
      rw [Option.or_of_isSome h]
    · have hnone : lookup [e] name = none := by simp [lookup, he]
      rw [hnone, Option.or_none]

/-- `define` for an address that is a sum. -/
def defineAt (map : SymbolMap) (e : List UInt8 × Nat) : Option SymbolMap :=
  if e.2 < 2 ^ 64 then some (map.define e.1 e.2) else none

/-- What is defined first counts. -/
theorem lookup_of_defineAt {map' : SymbolMap} (h : es.foldlM defineAt map = some map') :
    map'.lookup name = lookup (map ++ es) name := by
  induction es generalizing map with
  | nil =>
    cases h
    rw [List.append_nil]
  | cons e es ih =>
    rw [List.foldlM_cons, Option.bind_eq_bind, Option.bind_eq_some_iff] at h
    obtain ⟨map₁, hdef, h⟩ := h
    rw [defineAt] at hdef
    split at hdef
    · cases hdef
      rw [ih h, lookup_append, lookup_define, ← lookup_append, List.append_assoc]
      rfl
    · cases hdef

theorem defineAt_isSome : (es.foldlM defineAt map).isSome ↔ ∀ e ∈ es, e.2 < 2 ^ 64 := by
  induction es generalizing map with
  | nil => simp
  | cons e es ih =>
    rw [List.foldlM_cons, Option.bind_eq_bind, List.forall_mem_cons, defineAt]
    by_cases he : e.2 < 2 ^ 64
    · rw [if_pos he, Option.bind_some, ih]
      simp only [he, true_and]
    · rw [if_neg he]
      exact iff_of_false Bool.false_ne_true fun h => he h.1

end SymbolMap

/-! ## What a module adds -/

namespace SharedLib

variable {lib : SharedLib} {data : List UInt8} {map map' : SymbolMap} {sym : Elf64Sym}

/-- What `add_lib` takes the symbol `sym` for, its name being anywhere in the file. -/
def found (lib : SharedLib) (data : List UInt8) (sym : Elf64Sym) : Option (List UInt8 × Nat) :=
  if sym.isUndef = false ∧ sym.stValue ≠ 0 ∧ lib.strtabFoff + sym.stName ≤ data.length ∧
      (fromUtf8 (cstr data (lib.strtabFoff + sym.stName))).isSome then
    some (cstr data (lib.strtabFoff + sym.stName), lib.loadBase + sym.stValue)
  else none

/-- The number of entries that `dynsym_all` reads. -/
def inferred (lib : SharedLib) : Nat := (lib.strtabFoff - lib.symtabFoff) / 24

/-- All that `add_lib` takes for definitions. -/
def definitions (lib : SharedLib) (data : List UInt8) : List (List UInt8 × Nat) :=
  (List.range lib.inferred).filterMap fun i => (symAt data (lib.symtabFoff + i * 24)).bind (lib.found data)

theorem stName_lt {d : List UInt8} {off : Nat} {sym : Elf64Sym} (h : symAt d off = some sym) : sym.stName < 2 ^ 32 := by
  rw [symAt] at h
  split at h
  · cases h
  · cases h
    have hlt := ByteMem.le_lt (fun i => d.getD i 0) off 4
    exact lt_of_lt_of_eq hlt (by decide)

/-- One symbol: what it defines, if it is found to define anything. -/
theorem addSym_eq (hstart : lib.strtabFoff + sym.stName < 2 ^ 64) :
    (if sym.isUndef || sym.stValue == 0 then some map
    else do
      let start ← addU64 lib.strtabFoff sym.stName
      if data.length < start || (fromUtf8 (cstr data start)).isNone then some map
      else some (SymbolMap.define map (cstr data start) (← addU64 lib.loadBase sym.stValue))) =
      (lib.found data sym).elim (some map) map.defineAt := by
  have hadd : addU64 lib.strtabFoff sym.stName = some (lib.strtabFoff + sym.stName) := if_pos hstart
  rw [hadd, found, Option.bind_eq_bind, Option.bind_some]
  by_cases hundef : sym.isUndef = true
  · simp [hundef]
  by_cases hzero : sym.stValue = 0
  · simp [hzero]
  by_cases hin : lib.strtabFoff + sym.stName ≤ data.length
  · cases hutf : fromUtf8 (cstr data (lib.strtabFoff + sym.stName)) with
    | none => simp
    | some name =>
      simp only [hundef, hin, Nat.not_lt.mpr hin]
      by_cases hva : lib.loadBase + sym.stValue < 2 ^ 64
      · have hadd : addU64 lib.loadBase sym.stValue = some (lib.loadBase + sym.stValue) := if_pos hva
        have hdef : ∀ name, map.defineAt (name, lib.loadBase + sym.stValue) = some (map.define name _) :=
          fun name => if_pos hva
        simp [hadd, hzero, hdef]
      · have hadd : addU64 lib.loadBase sym.stValue = none := if_neg hva
        have hdef : ∀ name, map.defineAt (name, lib.loadBase + sym.stValue) = none := fun name => if_neg hva
        simp [hadd, hzero, hdef]
  · simp [hin, Nat.not_le.mp hin]

theorem addLib_eq (hend : lib.strtabFoff + 2 ^ 32 ≤ 2 ^ 64) :
    map.addLib lib data = (lib.definitions data).foldlM SymbolMap.defineAt map := by
  rw [SymbolMap.addLib, Elf64.dynsymAll_eq (by omega), definitions, Option.bind_eq_bind, Option.bind_some,
    List.foldlM_filterMap, List.foldlM_filterMap]
  refine congrArg (fun turn => List.foldlM turn map _) (funext fun map => funext fun i => ?_)
  cases hsym : symAt data (lib.symtabFoff + i * 24) with
  | none => rfl
  | some sym =>
    have hname := stName_lt hsym
    refine (addSym_eq (by omega)).trans ?_
    rw [Option.bind_some]
    cases lib.found data sym <;> rfl

end SharedLib

/-! ## Libraries -/

/-- A library with a symbol table and a string table, at any two places of its file. The
counts are those of the tables; the linker does not look at them. -/
structure Library where
  lib : SharedLib
  data : List UInt8
  symCount : Nat
  strSize : Nat
  length_lt : data.length < 2 ^ 63
  symtab : lib.symtabFoff + symCount * 24 ≤ data.length
  strtab : lib.strtabFoff + strSize ≤ data.length
  /-- A string table ends with a NUL. -/
  terminated : ∀ b ∈ ((data.drop lib.strtabFoff).take strSize).getLast?, b = 0
  /-- The names of the defined symbols are in it. -/
  names : ∀ i < symCount, ∀ sym ∈ symAt data (lib.symtabFoff + i * 24), sym.isUndef = false → sym.stName < strSize

namespace Library

variable {L : Library} {i : Nat}

/-- The string table. -/
def strings (L : Library) : List UInt8 := (L.data.drop L.lib.strtabFoff).take L.strSize

/-- What entry `i` of the symbol table defines: a name in UTF-8, and its address. -/
def definition (L : Library) (i : Nat) : Option (List UInt8 × Nat) :=
  (symAt L.data (L.lib.symtabFoff + i * 24)).bind fun sym =>
    if sym.isUndef = false ∧ sym.stValue ≠ 0 ∧ (fromUtf8 (cstr L.strings sym.stName)).isSome then
      some (cstr L.strings sym.stName, L.lib.loadBase + sym.stValue)
    else none

/-- The definitions of the entries that are read. -/
def common (L : Library) : List (List UInt8 × Nat) := (List.range (min L.symCount L.lib.inferred)).filterMap L.definition

/-- Those of the entries of the table that are not read. -/
def missed (L : Library) : List (List UInt8 × Nat) :=
  (List.range' L.lib.inferred (L.symCount - L.lib.inferred)).filterMap L.definition

/-- What is taken for definitions behind the end of the table. -/
def foreign (L : Library) : List (List UInt8 × Nat) :=
  (List.range' L.symCount (L.lib.inferred - L.symCount)).filterMap fun i =>
    (symAt L.data (L.lib.symtabFoff + i * 24)).bind (L.lib.found L.data)

/-- The first definition of a name in the symbol table. -/
def lookup (L : Library) (name : List UInt8) : Option Nat :=
  SymbolMap.lookup ((List.range L.symCount).filterMap L.definition) name

/-! ## What is read -/

theorem cstr_eq {d : List UInt8} {start off size : Nat} (hoff : off < size) (hsize : start + size ≤ d.length)
    (hnul : ∀ b ∈ ((d.drop start).take size).getLast?, b = 0) :
    cstr ((d.drop start).take size) off = cstr d (start + off) := by
  have hlast : ((d.drop start).take size).drop off = (d.drop (start + off)).take (size - off) := by
    rw [List.drop_take, List.drop_drop]
  -- the NUL at the end of the table ends the name
  have hmem : (0 : UInt8) ∈ (d.drop (start + off)).take (size - off) := by
    rw [← hlast]
    have hne : ((d.drop start).take size).drop off ≠ [] := by
      rw [← List.length_pos_iff, List.length_drop, List.length_take, List.length_drop]
      omega
    have hget := List.getLast?_eq_some_getLast hne
    rw [List.getLast?_drop, if_neg (by rw [List.length_take, List.length_drop]; omega)] at hget
    rw [← hnul _ hget]
    exact List.getLast_mem hne
  rw [cstr, cstr, hlast]
  conv => rhs; rw [← List.take_append_drop (size - off) (d.drop (start + off))]
  rw [List.takeWhile_append, if_neg]
  intro hall
  rw [← (List.takeWhile_prefix _).eq_of_length hall] at hmem
  have hnz := List.all_eq_true.mp List.all_takeWhile _ hmem
  exact absurd hnz (by decide)

/-- The entries of the table that are read are read as they are. -/
theorem found_eq_definition (hi : i < L.symCount) :
    (symAt L.data (L.lib.symtabFoff + i * 24)).bind (L.lib.found L.data) = L.definition i := by
  rw [definition]
  cases hsym : symAt L.data (L.lib.symtabFoff + i * 24) with
  | none => rfl
  | some sym =>
    simp only [Option.bind_some, SharedLib.found]
    by_cases hundef : sym.isUndef = false
    · have hname : sym.stName < L.strSize := L.names i hi sym hsym hundef
      have hin : L.lib.strtabFoff + sym.stName ≤ L.data.length := by have := L.strtab; omega
      rw [strings, cstr_eq hname L.strtab L.terminated]
      simp only [hin, true_and]
    · rw [if_neg fun h => hundef h.1, if_neg fun h => hundef h.1]

theorem range_eq {a b : Nat} : List.range b = List.range (min a b) ++ List.range' a (b - a) := by
  rcases Nat.le_total a b with h | h
  · rw [Nat.min_eq_left h, List.range_eq_range', List.range_eq_range']
    have happ := @List.range'_append_1 0 a (b - a)
    rw [Nat.zero_add, Nat.add_sub_cancel' h] at happ
    exact happ.symm
  · rw [Nat.min_eq_right h, Nat.sub_eq_zero_of_le h]
    exact (List.append_nil _).symm

/-- All that `add_lib` takes for definitions. -/
theorem read_eq : L.lib.definitions L.data = L.common ++ L.foreign := by
  rw [SharedLib.definitions, @range_eq L.symCount, List.filterMap_append, common, foreign]
  congr 1
  refine List.filterMap_congr fun i hi => found_eq_definition ?_
  rw [List.mem_range] at hi
  omega

theorem lookup_eq {name : List UInt8} : L.lookup name = SymbolMap.lookup (L.common ++ L.missed) name := by
  rw [lookup, @range_eq L.lib.inferred L.symCount, List.filterMap_append, common, missed, Nat.min_comm]

theorem addLib_eq {map : SymbolMap} :
    map.addLib L.lib L.data = (L.common ++ L.foreign).foldlM SymbolMap.defineAt map := by
  rw [← read_eq]
  refine SharedLib.addLib_eq ?_
  have := L.strtab
  have := L.length_lt
  omega

/-- `add_lib` over the libraries in load order. -/
def addLibs (libs : List Library) : Option SymbolMap :=
  libs.foldlM (fun map L => SymbolMap.addLib map L.lib L.data) []

/-- The map has for every name what the first library says that has it, and nothing else. -/
def FirstDefinitions (libs : List Library) : Prop :=
  ∃ map, addLibs libs = some map ∧ ∀ name, map.lookup name = libs.findSome? (·.lookup name)

/-- The first library that has `name` among the entries of its table or those that are read
has it among the entries that are both; if not, the libraries behind it have
the same address at the first definition that the other side knows. -/
def Agrees (name : List UInt8) : List Library → Prop
  | [] => True
  | L :: after =>
    SymbolMap.lookup L.common name = none →
      (∀ va, SymbolMap.lookup L.missed name = some va →
        SymbolMap.lookup (after.flatMap fun M => M.common ++ M.foreign) name = some va) ∧
      (∀ va, SymbolMap.lookup L.foreign name = some va →
        SymbolMap.lookup (after.flatMap fun M => M.common ++ M.missed) name = some va) ∧
      (SymbolMap.lookup L.missed name = none → SymbolMap.lookup L.foreign name = none → Agrees name after)

/-- Every address that is taken for one of a symbol is a 64-bit number. -/
def AddressesFit (libs : List Library) : Prop := ∀ L ∈ libs, ∀ e ∈ L.common ++ L.foreign, e.2 < 2 ^ 64

/-- One of the two counts is the lower. -/
theorem missed_or_foreign : L.missed = [] ∨ L.foreign = [] := by
  rcases Nat.le_total L.symCount L.lib.inferred with h | h
  · left
    rw [missed, Nat.sub_eq_zero_of_le h]
    rfl
  · right
    rw [foreign, Nat.sub_eq_zero_of_le h]
    rfl

theorem lookups_eq_iff {name : List UInt8} {libs : List Library} :
    SymbolMap.lookup (libs.flatMap fun M => M.common ++ M.foreign) name =
      SymbolMap.lookup (libs.flatMap fun M => M.common ++ M.missed) name ↔ Agrees name libs := by
  induction libs with
  | nil => exact iff_of_true rfl trivial
  | cons L after ih =>
    simp only [List.flatMap_cons, SymbolMap.lookup_append, Agrees]
    cases hcommon : SymbolMap.lookup L.common name with
    | some va => simp
    | none =>
      simp only [Option.none_or, true_imp_iff]
      obtain hmissed | hforeign := @missed_or_foreign L
      · rw [hmissed]
        cases hforeign : SymbolMap.lookup L.foreign name with
        | none => simpa [SymbolMap.lookup] using ih
        | some va => simp [SymbolMap.lookup, eq_comm]
      · rw [hforeign]
        cases hmissed : SymbolMap.lookup L.missed name with
        | none => simpa [SymbolMap.lookup] using ih
        | some va => simp [SymbolMap.lookup]

theorem findSome_eq {name : List UInt8} {libs : List Library} :
    libs.findSome? (·.lookup name) = SymbolMap.lookup (libs.flatMap fun M => M.common ++ M.missed) name := by
  induction libs with
  | nil => rfl
  | cons L libs ih =>
    rw [List.findSome?_cons, ih, List.flatMap_cons, SymbolMap.lookup_append, lookup_eq]
    cases SymbolMap.lookup (L.common ++ L.missed) name <;> rfl

theorem addLibs_eq {libs : List Library} {map : SymbolMap} :
    libs.foldlM (fun map L => SymbolMap.addLib map L.lib L.data) map =
      (libs.flatMap fun M => M.common ++ M.foreign).foldlM SymbolMap.defineAt map := by
  induction libs generalizing map with
  | nil => rfl
  | cons L libs ih =>
    rw [List.foldlM_cons, List.flatMap_cons, Loop.foldlM_append, ← addLib_eq, Option.bind_eq_bind]
    exact congrArg _ (funext fun _ => ih)

/-- **Every name has its first definition exactly if the libraries agree.** -/
theorem first_definitions_iff (libs : List Library) :
    FirstDefinitions libs ↔ AddressesFit libs ∧ ∀ name, Agrees name libs := by
  have hfit : AddressesFit libs ↔ (addLibs libs).isSome := by
    rw [addLibs, addLibs_eq, SymbolMap.defineAt_isSome]
    simp only [AddressesFit, List.mem_flatMap, forall_exists_index, and_imp]
    exact ⟨fun h e L hL he => h L hL e he, fun h L hL e he => h e L hL he⟩
  have hlookup : ∀ map, addLibs libs = some map → ∀ name,
      (map.lookup name = libs.findSome? (·.lookup name) ↔ Agrees name libs) := by
    intro map hmap name
    rw [addLibs, addLibs_eq] at hmap
    rw [SymbolMap.lookup_of_defineAt hmap, List.nil_append, findSome_eq, lookups_eq_iff]
  rw [hfit, Option.isSome_iff_exists]
  constructor
  · intro h
    obtain ⟨map, hmap, h⟩ := h
    exact ⟨⟨map, hmap⟩, fun name => (hlookup map hmap name).mp (h name)⟩
  · intro h
    obtain ⟨⟨map, hmap⟩, h⟩ := h
    exact ⟨map, hmap, fun name => (hlookup map hmap name).mpr (h name)⟩

/-- A file whose string table, of the name `f`, is before its symbol table, of the null symbol and a function. -/
def stringsFirst : List UInt8 :=
  [0, 0x66, 0, 0, 0, 0, 0, 0] ++ List.replicate 24 0 ++
    [1, 0, 0, 0, 0x12, 0, 1, 0, 0x10, 0, 0, 0, 0, 0, 0, 0] ++ List.replicate 8 0

/-- None of the two symbols is read. -/
def unreadLibrary : Library where
  lib :=
    { name := "libf.so"
      loadBase := soLoadBase
      symtabFoff := 8
      strtabFoff := 0
      relaFoff := 0
      relaSz := 0
      pltRelaFoff := 0
      pltRelaSz := 0
      initArray := []
      needed := []
      vaddrEnd := soLoadBase }
  data := stringsFirst
  symCount := 2
  strSize := 3
  length_lt := by decide
  symtab := by decide
  strtab := by decide
  terminated := by
    intro b hb
    have hlast : ((stringsFirst.drop 0).take 3).getLast? = some 0 := rfl
    exact (Option.some.inj (hlast.symm.trans hb)).symm
  names := by
    intro i hi sym hsym _
    have hnames : ∀ i < 2, ((symAt stringsFirst (8 + i * 24)).all fun sym => decide (sym.stName < 3)) = true := by decide
    have hname := hnames i hi
    rw [hsym] at hname
    exact of_decide_eq_true hname

theorem lookup_misses_definition : ∃ libs, ¬FirstDefinitions libs := by
  refine ⟨[unreadLibrary], fun h => ?_⟩
  obtain ⟨map, hmap, h⟩ := h
  have hnone : addLibs [unreadLibrary] = some [] := rfl
  rw [hnone] at hmap
  cases hmap
  exact absurd (h [0x66]) (by decide)

end Library

end ChodOs
