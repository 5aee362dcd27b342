/-
Where a relocation's eight bytes go (`apply_rela_impl`). The store is made
through the physical address of the first of them: what does not fit into the
first page is written behind its frame, whatever the next page is mapped to.

`checks` says whether the build panics at a pointer that is not aligned, as the
dev profile does, or makes the store, as the release profile does.
-/
import ChodOs.User.Linking

namespace ChodOs

open Pt Elf

namespace Phys

variable {m m' : Phys} {cr3 va v p q i : Nat}

/-- The eight bytes of `v` are stored at `va`, where a walk of the tables finds
them, and no other byte has changed. -/
structure StoresAt (cr3 va v : Nat) (m m' : Phys) : Prop where
  bytes : ∀ i < 8, ∃ p, m.virtToPhys cr3 (va + i) = some p ∧ m'.bytes p = ByteMem.leByte v i
  others : ∀ x, (∀ i < 8, m.virtToPhys cr3 (va + i) ≠ some x) → m'.bytes x = m.bytes x

/-- The bytes on the next page, if there are any, are mapped to where those
behind the first page's frame are, or the two have the bytes of `v` already. -/
def Contiguous (cr3 va v : Nat) (m : Phys) : Prop :=
  ∀ i < 8, pageSize ≤ va % pageSize + i → ∀ p q, m.virtToPhys cr3 va = some p → m.virtToPhys cr3 (va + i) = some q →
    q = p + i ∨ m.bytes q = ByteMem.leByte v i ∧ m.bytes (p + i) = ByteMem.leByte v i

/-! ## A translation keeps the offset -/

theorem virtToPhys_mod (h : m.virtToPhys cr3 va = some p) : p % pageSize = va % pageSize := by
  simp only [virtToPhys, walk] at h
  split at h
  · cases h
  split at h
  · cases h
  split at h
  · cases h
    simp only [pageSize]
    omega
  split at h
  · cases h
  split at h
  · cases h
    simp only [pageSize]
    omega
  split at h
  · cases h
  · cases h
    simp only [pageSize]
    omega

theorem virtToPhys_add (hi : va % pageSize + i < pageSize) :
    m.virtToPhys cr3 (va + i) = (m.virtToPhys cr3 va).map (· + i) := by
  have hidx : ∀ b ∈ [39, 30, 21, 12], idx b (va + i) = idx b va := by
    intro b hb
    simp only [List.mem_cons, List.not_mem_nil, or_false] at hb
    simp only [idx, pageSize] at *
    rcases hb with rfl | rfl | rfl | rfl <;> omega
  have hoff : ∀ size ∈ [2 ^ 30, 2 ^ 21, pageSize], (va + i) % size = va % size + i := by
    intro size hsize
    simp only [List.mem_cons, List.not_mem_nil, or_false, pageSize] at *
    rcases hsize with rfl | rfl | rfl <;> omega
  simp only [virtToPhys, walk, hidx 39 (by decide), hidx 30 (by decide), hidx 21 (by decide), hidx 12 (by decide),
    hoff (2 ^ 30) (by decide), hoff (2 ^ 21) (by decide), hoff pageSize (by decide), ← Nat.add_assoc]
  split
  · rfl
  split
  · rfl
  split
  · rfl
  split
  · rfl
  split
  · rfl
  split <;> rfl

/-- A byte of eight that is mapped behind the first is mapped in its own place there. -/
theorem byte_inj {j : Nat} (hp : m.virtToPhys cr3 va = some p) (hi : i < 8) (hj : j < 8)
    (hq : m.virtToPhys cr3 (va + i) = some (p + j)) : i = j := by
  have hmod := virtToPhys_mod hp
  have hmod' := virtToPhys_mod hq
  simp only [pageSize] at hmod hmod'
  omega

/-! ## The store -/

/-- A store through the first byte's physical address is one at `va` if and
only if the bytes are contiguous. -/
theorem storesAt_put_iff (hmapped : ∀ i < 8, (m.virtToPhys cr3 (va + i)).isSome = true)
    (hp : m.virtToPhys cr3 va = some p) :
    StoresAt cr3 va v m (m.put p 8 (ByteMem.leByte v)) ↔ Contiguous cr3 va v m := by
  have hpage : ∀ {i q}, va % pageSize + i < pageSize → m.virtToPhys cr3 (va + i) = some q → q = p + i := by
    intro i q hin hq
    rw [virtToPhys_add hin, hp] at hq
    exact (Option.some.inj hq).symm
  constructor
  · intro hs i hi hover p' q hp' hq
    cases hp.symm.trans hp'
    by_cases hadj : q = p + i
    · exact .inl hadj
    refine .inr ⟨?_, ?_⟩
    · -- the byte is none of those written
      obtain ⟨q', hq', hbyte⟩ := hs.bytes i hi
      cases hq.symm.trans hq'
      rw [← hbyte, put_outside]
      by_contra hin
      obtain ⟨j, rfl⟩ : ∃ j, q = p + j := ⟨q - p, by omega⟩
      exact hadj (by rw [byte_inj hp hi (by omega) hq])
    · -- the byte that is written is none of those mapped
      rw [← hs.others (p + i) fun j hj hqj => hadj ?_, put_inside hi]
      obtain rfl := byte_inj hp hj hi hqj
      exact Option.some.inj (hq.symm.trans hqj)
  · intro hc
    refine ⟨fun i hi => ?_, fun x hx => ?_⟩
    · obtain ⟨q, hq⟩ := Option.isSome_iff_exists.mp (hmapped i hi)
      refine ⟨q, hq, ?_⟩
      by_cases hin : va % pageSize + i < pageSize
      · rw [hpage hin hq, put_inside hi]
      rcases hc i hi (Nat.not_lt.mp hin) p q hp hq with rfl | ⟨hold, -⟩
      · exact put_inside hi
      · by_cases hw : q < p ∨ p + 8 ≤ q
        · rw [put_outside hw, hold]
        · obtain ⟨j, rfl⟩ : ∃ j, q = p + j := ⟨q - p, by omega⟩
          have hj : j < 8 := by omega
          rw [put_inside hj, byte_inj hp hi hj hq]
    · by_cases hw : x < p ∨ p + 8 ≤ x
      · exact put_outside hw
      obtain ⟨i, rfl⟩ : ∃ i, x = p + i := ⟨x - p, by omega⟩
      have hi : i < 8 := by omega
      obtain ⟨q, hq⟩ := Option.isSome_iff_exists.mp (hmapped i hi)
      have hne : q ≠ p + i := fun he => hx i hi (he ▸ hq)
      have hover : pageSize ≤ va % pageSize + i := Nat.not_lt.mp fun hin => hne (hpage hin hq)
      rw [put_inside hi]
      exact ((hc i hi hover p q hp hq).resolve_left hne).2.symm

end Phys

/-! ## Relocations -/

namespace Reloc

variable {cr3 : Nat} {map : SymbolMap} {m m' : Phys} {n k : Nat} {r : Reloc} {rs : List Reloc} {P : Phys → Reloc → Prop}

def target (r : Reloc) : Nat := r.lib.loadBase + r.rela.rOffset

/-- `B + A`, `S + A` or `S`, by the type: what the relocation stores. -/
def value (map : SymbolMap) (r : Reloc) : Option Nat :=
  match r.rela.rType with
  | 8 => some ((r.lib.loadBase + r.rela.rAddend) % 2 ^ 64)
  | 1 => (Phys.resolveSym r.elf r.lib r.rela.rSym map).map fun s => (s + r.rela.rAddend) % 2 ^ 64
  | 6 => Phys.resolveSym r.elf r.lib r.rela.rSym map
  | 7 => Phys.resolveSym r.elf r.lib r.rela.rSym map
  | _ => none

/-- The types that store it: `RELATIVE`, `64`, `GLOB_DAT` and `JUMP_SLOT`. -/
def storing : List Nat := [8, 1, 6, 7]

/-- The value is to be stored through a `*mut u64` that is no multiple of
eight; the mapping of the physical memory begins at one. -/
def misaligned (cr3 : Nat) (m : Phys) (r : Reloc) : Bool :=
  storing.contains r.rela.rType && (m.virtToPhys cr3 r.target).any fun p => p % 8 != 0

/-- One relocation, with the pointer checks of the build. `none`: panic. -/
def applyIn (checks : Bool) (cr3 : Nat) (map : SymbolMap) (m : Phys) (r : Reloc) : Option (Nat × Phys) :=
  if checks && r.misaligned cr3 m then none else r.apply cr3 map m

/-- It stores a value, and the eight bytes of its target are mapped. -/
structure Storing (cr3 : Nat) (m : Phys) (r : Reloc) : Prop where
  type : r.rela.rType ∈ storing
  mapped : ∀ i < 8, (m.virtToPhys cr3 (r.target + i)).isSome = true

/-- Its value is stored at its target, and nothing else. -/
def Exact (checks : Bool) (cr3 : Nat) (map : SymbolMap) (m : Phys) (r : Reloc) : Prop :=
  ∃ v m', r.value map = some v ∧ r.applyIn checks cr3 map m = some (0, m') ∧ Phys.StoresAt cr3 r.target v m m'

/-- The target is aligned if the build checks that, and its bytes are contiguous. -/
structure FitsTarget (checks : Bool) (cr3 : Nat) (map : SymbolMap) (m : Phys) (r : Reloc) : Prop where
  aligned : checks = true → r.target % 8 = 0
  contiguous : ∀ v, r.value map = some v → Phys.Contiguous cr3 r.target v m

/-- An aligned target fits: it ends in its page. -/
theorem fitsTarget_of_aligned {checks : Bool} (h : r.target % 8 = 0) : r.FitsTarget checks cr3 map m := by
  refine ⟨fun _ => h, fun _ _ i hi hover => absurd hover ?_⟩
  simp only [pageSize]
  omega

/-- The value goes to the physical address of the first byte. -/
theorem Storing.apply_eq (hs : r.Storing cr3 m) (h : r.apply cr3 map m = some (n, m')) : ∃ v p,
    r.value map = some v ∧ m.virtToPhys cr3 r.target = some p ∧ n = 0 ∧ m' = m.put p 8 (ByteMem.leByte v) := by
  obtain ⟨p, hp⟩ := Option.isSome_iff_exists.mp (hs.mapped 0 (by decide))
  obtain ⟨va, hva, h⟩ := Option.bind_eq_some_iff.mp h
  obtain ⟨-, rfl⟩ := addU64_eq_some.mp hva
  have hp' : m.virtToPhys cr3 (r.lib.loadBase + r.rela.rOffset) = some p := hp
  rw [hp'] at h
  have htype := hs.type
  simp only [storing, List.mem_cons, List.not_mem_nil, or_false] at htype
  rcases htype with htype | htype | htype | htype
  · simp only [htype] at h
    cases h
    exact ⟨_, p, by simp only [value, htype], hp, rfl, rfl⟩
  all_goals
    simp only [htype, Option.bind_eq_bind, Option.bind_eq_some_iff] at h
    obtain ⟨s, hs, he⟩ := h
    cases he
    exact ⟨_, p, by simp only [value, htype, hs, Option.map_some], hp, rfl, rfl⟩

theorem Storing.misaligned_iff (hs : r.Storing cr3 m) : r.misaligned cr3 m = true ↔ r.target % 8 ≠ 0 := by
  obtain ⟨p, hp⟩ := Option.isSome_iff_exists.mp (hs.mapped 0 (by decide))
  have hp' : m.virtToPhys cr3 r.target = some p := hp
  have hmod := Phys.virtToPhys_mod hp'
  have hp8 : p % 8 = r.target % 8 := by
    simp only [pageSize] at hmod
    omega
  simp only [misaligned, List.contains_iff_mem.mpr hs.type, hp', Bool.true_and, Option.any_some, bne_iff_ne, hp8]

theorem Storing.exact_iff {checks : Bool} (hs : r.Storing cr3 m) (h : r.apply cr3 map m = some (n, m')) :
    r.Exact checks cr3 map m ↔ r.FitsTarget checks cr3 map m := by
  obtain ⟨v, p, hv, hp, rfl, rfl⟩ := hs.apply_eq h
  have hiff := Phys.storesAt_put_iff (v := v) hs.mapped hp
  by_cases htrap : (checks && r.misaligned cr3 m) = true
  · obtain ⟨hc, hmis⟩ := (Bool.and_eq_true _ _).mp htrap
    constructor
    · intro ⟨_, _, _, happly, _⟩
      rw [applyIn, if_pos htrap] at happly
      cases happly
    · exact fun hfits => absurd (hfits.aligned hc) (hs.misaligned_iff.mp hmis)
  · have hstep : r.applyIn checks cr3 map m = some (0, m.put p 8 (ByteMem.leByte v)) := by rw [applyIn, if_neg htrap, h]
    constructor
    · intro ⟨v', m', hv', happly, hstores⟩
      cases hv.symm.trans hv'
      cases hstep.symm.trans happly
      refine ⟨fun hc => ?_, fun v' hv' => ?_⟩
      · by_contra hmis
        exact htrap ((Bool.and_eq_true _ _).mpr ⟨hc, hs.misaligned_iff.mpr hmis⟩)
      · cases hv.symm.trans hv'
        exact hiff.mp hstores
    · exact fun hfits => ⟨v, _, hv, hstep, hiff.mpr (hfits.contiguous v hv)⟩

/-- What holds of every relocation that goes through holds at each turn of a run. -/
theorem atEachTurn_of_run (hP : ∀ m r n m', r.apply cr3 map m = some (n, m') → P m r)
    (h : rs.foldlM (turn cr3 map) (k, m) = some (n, m')) : AtEachTurn cr3 map P m rs := by
  induction rs generalizing m k with
  | nil => trivial
  | cons r rs ih =>
    rw [List.foldlM_cons, Option.bind_eq_bind, Option.bind_eq_some_iff] at h
    obtain ⟨s, hturn, hrest⟩ := h
    obtain ⟨⟨j, m₁⟩, happly, rfl⟩ := Option.map_eq_some_iff.mp hturn
    exact (atEachTurn_cons happly).mpr ⟨hP m r j m₁ happly, ih hrest⟩

end Reloc

open Reloc

/-- When the tables of a module are applied, a relocation of a type that stores
a value, with its target mapped, stores the eight bytes there and nothing else
if and only if the target fits when its turn comes. A build that checks
pointers goes through the same turns, to the first that panics. -/
theorem relocation_exact_iff (checks : Bool) {lib : SharedLib} {data : List UInt8} {cr3 : Nat} {map : SymbolMap} {m m' : Phys} {n : Nat}
    (h : Phys.applyRela lib data cr3 map m = some (n, m')) : ∃ rs, Reloc.ofModule lib data = some rs ∧
      rs.foldlM (turn cr3 map) (0, m) = some (n, m') ∧
      AtEachTurn cr3 map (fun m r => r.Storing cr3 m → (r.Exact checks cr3 map m ↔ r.FitsTarget checks cr3 map m)) m rs := by
  obtain ⟨rs, hrs, hrun⟩ := applyRela_eq h
  exact ⟨rs, hrs, hrun, atEachTurn_of_run (fun m r n m' happly hs => hs.exact_iff happly) hrun⟩

/-! ## Two libraries -/

/-- A library of two pages with one `R_X86_64_RELATIVE`, of the place `rOffset`. -/
def relativeElf (rOffset : Nat) : List UInt8 :=
  [0x7F, 0x45, 0x4C, 0x46, 2, 1, 1, 0] ++ ByteMem.leBytes 8 0 ++ ByteMem.leBytes 2 etDyn ++ ByteMem.leBytes 2 0x3E ++
    ByteMem.leBytes 4 1 ++ ByteMem.leBytes 8 0 ++ ByteMem.leBytes 8 64 ++ ByteMem.leBytes 8 0 ++
    ByteMem.leBytes 4 0 ++ ByteMem.leBytes 2 64 ++ ByteMem.leBytes 2 56 ++ ByteMem.leBytes 2 2 ++ ByteMem.leBytes 6 0 ++
  -- `PT_LOAD` and `PT_DYNAMIC`
  ByteMem.leBytes 4 ptLoad ++ ByteMem.leBytes 4 6 ++ ByteMem.leBytes 8 0 ++ ByteMem.leBytes 8 0 ++
    ByteMem.leBytes 8 0 ++ ByteMem.leBytes 8 248 ++ ByteMem.leBytes 8 0x2000 ++ ByteMem.leBytes 8 0x1000 ++
  ByteMem.leBytes 4 ptDynamic ++ ByteMem.leBytes 4 6 ++ ByteMem.leBytes 8 176 ++ ByteMem.leBytes 8 176 ++
    ByteMem.leBytes 8 0 ++ ByteMem.leBytes 8 48 ++ ByteMem.leBytes 8 48 ++ ByteMem.leBytes 8 1 ++
  -- `DT_RELA`, `DT_RELASZ` and `DT_NULL`
  ByteMem.leBytes 8 7 ++ ByteMem.leBytes 8 224 ++ ByteMem.leBytes 8 8 ++ ByteMem.leBytes 8 24 ++
    ByteMem.leBytes 8 0 ++ ByteMem.leBytes 8 0 ++
  ByteMem.leBytes 8 rOffset ++ ByteMem.leBytes 8 8 ++ ByteMem.leBytes 8 0x1122334400000000

/-- It is loaded and its table applied; the machine that this finds is as `P` says. -/
def relativeRun (o : Nat) (P : Phys → Nat → Bool) : Bool :=
  bootMachine.allocUserPml4.any fun s => (s.2.loadSoAt "so" (relativeElf o) s.1 soLoadBase).any fun q =>
    q.1.any fun lib => (Phys.applyRela lib (relativeElf o) s.1 [] q.2).any (fun z => z.1 == 0) &&
      (Reloc.ofModule lib (relativeElf o)).any (fun rs => rs.map (fun r => (r.target, r.value [], r.rela.rType)) ==
        [(soLoadBase + o, some 0x1122334480000000, 8)]) &&
      ((List.range 8).all fun i => (q.2.virtToPhys s.1 (soLoadBase + o + i)).isSome) && P q.2 s.1

theorem relative_run {o : Nat} {P : Phys → Nat → Bool} (h : relativeRun o P = true) : ∃ root m lib m' m'' r,
    bootMachine.allocUserPml4 = some (root, m) ∧
    m.loadSoAt "so" (relativeElf o) root soLoadBase = some (some lib, m') ∧
    Phys.applyRela lib (relativeElf o) root [] m' = some (0, m'') ∧ Reloc.ofModule lib (relativeElf o) = some [r] ∧
    r.target = soLoadBase + o ∧ r.value [] = some 0x1122334480000000 ∧ r.Storing root m' ∧ P m' root = true := by
  obtain ⟨⟨root, m⟩, hroot, hP⟩ := (Option.any_eq_true _ _).mp h
  obtain ⟨⟨_, m'⟩, hload, hP⟩ := (Option.any_eq_true _ _).mp hP
  obtain ⟨lib, rfl, hP⟩ := (Option.any_eq_true _ _).mp hP
  simp only [Bool.and_eq_true, Option.any_eq_true, beq_iff_eq, List.all_eq_true, List.mem_range] at hP
  obtain ⟨⟨⟨⟨⟨_, m''⟩, hrun, rfl⟩, rs, hrs, hone⟩, hmapped⟩, hP⟩ := hP
  obtain ⟨r, rfl, hr⟩ := List.map_eq_singleton_iff.mp hone
  obtain ⟨htarget, hvalue, htype⟩ : r.target = soLoadBase + o ∧ r.value [] = some 0x1122334480000000 ∧ r.rela.rType = 8 := by
    simpa using hr
  exact ⟨root, m, lib, m', m'', r, hroot, hload, hrun, hrs, htarget, hvalue, ⟨by rw [htype]; decide, htarget ▸ hmapped⟩, hP⟩

/-- In its page the target gets its eight bytes. -/
theorem relocation_exact_aligned : ∃ root m lib m' m'' r, bootMachine.allocUserPml4 = some (root, m) ∧
    m.loadSoAt "so" (relativeElf 0x800) root soLoadBase = some (some lib, m') ∧
    Phys.applyRela lib (relativeElf 0x800) root [] m' = some (0, m'') ∧
    Reloc.ofModule lib (relativeElf 0x800) = some [r] ∧ ∀ checks, r.Exact checks root [] m' := by
  obtain ⟨root, m, lib, m', m'', r, hroot, hload, hrun, hrs, htarget, -, hs, -⟩ := relative_run
    (show relativeRun 0x800 (fun _ _ => true) = true by decide +kernel)
  refine ⟨root, m, lib, m', m'', r, hroot, hload, hrun, hrs, fun checks => ?_⟩
  obtain ⟨_, hrs', -, hturn⟩ := relocation_exact_iff checks hrun
  cases hrs.symm.trans hrs'
  exact (hturn.1 hs).mpr (fitsTarget_of_aligned (by rw [htarget]; decide))

/-- Over the page's end the upper half of the value is lost: the next page goes
on to show zeros, or the kernel panics. -/
theorem relocation_spills : ∃ root m lib m' m'' r, bootMachine.allocUserPml4 = some (root, m) ∧
    m.loadSoAt "so" (relativeElf 0xFFC) root soLoadBase = some (some lib, m') ∧
    Phys.applyRela lib (relativeElf 0xFFC) root [] m' = some (0, m'') ∧
    Reloc.ofModule lib (relativeElf 0xFFC) = some [r] ∧ r.Storing root m' ∧ ∀ checks, ¬r.Exact checks root [] m' := by
  obtain ⟨root, m, lib, m', m'', r, hroot, hload, hrun, hrs, htarget, hvalue, hs, hplaces⟩ := relative_run
    (show relativeRun 0xFFC (fun m root => m.virtToPhys root (soLoadBase + 0xFFC) == some (2 * pageSize + 0xFFC) &&
      m.virtToPhys root (soLoadBase + 0xFFC + 4) == some (6 * pageSize) && m.bytes (6 * pageSize) == 0) = true by
      decide +kernel)
  refine ⟨root, m, lib, m', m'', r, hroot, hload, hrun, hrs, hs, fun checks hexact => ?_⟩
  obtain ⟨v, m₁, hv, happly, hstores⟩ := hexact
  cases hvalue.symm.trans hv
  have happly' : r.apply root [] m' = some (0, m₁) := by
    rw [applyIn] at happly
    split at happly
    · cases happly
    · exact happly
  obtain ⟨_, p, hv', hp, -, rfl⟩ := hs.apply_eq happly'
  cases hvalue.symm.trans hv'
  obtain ⟨q, hq, hbyte⟩ := hstores.bytes 4 (by decide)
  simp only [Bool.and_eq_true, beq_iff_eq, ← htarget] at hplaces
  obtain ⟨⟨hp', hq'⟩, hold⟩ := hplaces
  cases hp.symm.trans hp'
  cases hq.symm.trans hq'
  rw [Phys.put_outside (by decide), hold] at hbyte
  revert hbyte
  decide

end ChodOs
