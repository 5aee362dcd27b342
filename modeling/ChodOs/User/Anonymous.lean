/-
Anonymous memory (`sys_mmap` in `syscall/mod.rs`, `try_demand_page` in
`process/vma.rs`). A page is cleared when it is made, be it at once or at
the first fault. A lazy mapping makes no page: it only enters a VMA, and
what is mapped at its addresses already stays.
-/
import ChodOs.User.Munmap

namespace ChodOs

open Pt StepSys Phys

namespace Phys

variable {m m' : Phys} {root va va' phys pages : Nat}

/-! ## What a cleared page shows -/

theorem Space.userByte_eq (h : Space m root) (hva : userHalf (idx 39 va)) :
    m.userByte root va = (m.pte root va).map fun e => m.bytes (addrOf e + va % pageSize) := by
  rw [userByte, h.tree.virtToPhys_eq hva, Option.map_map]
  rfl

/-- Zeros in its page, the old bytes elsewhere. -/
theorem Cleared.userByte (h : Cleared root va m m') (hS : Space m root) (hva' : userHalf (idx 39 va')) :
    m'.userByte root va' = if pageOf va' = pageOf va then some 0 else m.userByte root va' := by
  obtain ⟨e, hpte⟩ := h.page
  rw [h.touched.space.userByte_eq hva']
  split
  · next hpage =>
    have he := hpte hva'
    rw [if_pos hpage] at he
    rw [he, Option.map_some, h.zero hva' hpage he _ (addrOf_add_div e va')]
  · next hpage =>
    rw [hpte hva', if_neg hpage, hS.userByte_eq hva']
    cases he : m.pte root va' with
    | none => rfl
    | some e => rw [Option.map_some, Option.map_some, h.bytes ⟨va', e, hva', he, addrOf_add_div e va'⟩]

/-- `mmap_anon` maps every page of its range anew. -/
theorem Space.mmapAnon_zero {writable : Bool} (h : Space m root) (huser : va + pages * pageSize ≤ 2 ^ 47)
    (hrun : m.mmapAnon root va pages writable = some m') : Space m' root ∧ ∀ {va'}, userHalf (idx 39 va') →
      m'.userByte root va' = if InPages va pages va' then some 0 else m.userByte root va' := by
  rw [Phys.mmapAnon, addrOf_eq h.tree.aligned] at hrun
  refine Loop.invariant_range (fun i m' => Space m' root ∧ ∀ {va'}, userHalf (idx 39 va') →
    m'.userByte root va' = if InPages va i va' then some 0 else m.userByte root va') hrun
    ⟨h, fun _ => (if_neg fun hin => by have := hin.1; have := hin.2; omega).symm⟩ fun {i m₁ m₂} hi hI hstep => ?_
  obtain ⟨hS, hbyte⟩ := hI
  simp only [Option.bind_eq_bind, Option.bind_eq_some_iff, addU64_eq_some] at hstep
  obtain ⟨_, ⟨-, rfl⟩, hstep⟩ := hstep
  have hC := hS.mapZeroed (userHalf_page huser hi) (userFlags_lt _) hstep
  refine ⟨hC.touched.space, fun {va'} hva' => ?_⟩
  rw [hC.userByte hS hva', hbyte hva', pageOf_add huser hi]
  simp only [InPages]
  grind

end Phys

namespace MemSys

/-! ## Reading -/

/-- A byte that the process reads; an absent page is asked for first. `none`:
out of memory. `none` for the byte: the process is stopped. -/
def readByte (s : MemSys) (va : Nat) : Option (Option UInt8 × MemSys) :=
  if userEnd ≤ va then some (none, s)
  else
    match s.phys.userByte s.procs.currentCr3 va with
    | some b => some (some b, s)
    | none => do
      let (ok, s) ← s.tryDemandPage va s.procs.currentCr3
      some (if ok then s.phys.userByte s.procs.currentCr3 va else none, s)

/-- One byte after another. -/
def readBytes (s : MemSys) : List Nat → Option (List (Option UInt8) × MemSys)
  | [] => some ([], s)
  | va :: vas => do
    let (b, s) ← s.readByte va
    let (bs, s) ← readBytes s vas
    some (b :: bs, s)

/-- Every page of `[r, r + len)` is mapped or left to a fault, and all bytes
of it, in whatever order they are read, are zero. -/
structure ReadsZero (s : MemSys) (r len : Nat) : Prop where
  there : ∀ va, r ≤ va → va < r + len →
    (s.phys.virtToPhys s.procs.currentCr3 va).isSome = true ∨ ∃ e ∈ s.vmas.find va, e.lazy = true
  zero : ∀ vas, (∀ va ∈ vas, r ≤ va ∧ va < r + len) → ∀ bs s', s.readBytes vas = some (bs, s') → ∀ b ∈ bs, b = some 0

/-- What a reader finds at an address: zero, or a lazy page, as `lazy` says. -/
def BlankIf (s : MemSys) (lazy : Nat → Prop) (va : Nat) : Prop :=
  va < userEnd ∧ (∀ b ∈ s.phys.userByte s.procs.currentCr3 va, b = 0) ∧
    (s.phys.userByte s.procs.currentCr3 va = none → lazy va)

/-- The VMA of an address is lazy. -/
def LazyAt (s : MemSys) (va : Nat) : Prop := ∃ e ∈ s.vmas.find va, e.lazy = true

variable {m₀ : Phys} {s s' : MemSys} {r len va : Nat}

theorem tryDemandPage_lazy {ok : Bool} {cr3 : Nat} (hlazy : s.LazyAt va) (hrun : s.tryDemandPage va cr3 = some (ok, s')) :
    ok = true ∧ s'.procs = s.procs ∧ s'.vmas = s.vmas ∧
      ∃ writable, s.phys.mapZeroed (addrOf cr3) (addrOf va) (userFlags writable) = some s'.phys := by
  obtain ⟨e, he, hlazy⟩ := hlazy
  rw [tryDemandPage, he] at hrun
  dsimp only at hrun
  rw [if_pos hlazy] at hrun
  obtain ⟨phys, hpage, he⟩ := Option.bind_eq_some_iff.mp hrun
  cases he
  exact ⟨rfl, rfl, rfl, _, hpage⟩

/-- Reading a blank byte gives zero and leaves blank what is blank. -/
theorem readByte_blank {b : Option UInt8} (hS : Space s.phys s.procs.currentCr3) (hva : s.BlankIf s.LazyAt va)
    (hread : s.readByte va = some (b, s')) : b = some 0 ∧ Space s'.phys s'.procs.currentCr3 ∧
      ∀ va', s.BlankIf s.LazyAt va' → s'.BlankIf s'.LazyAt va' := by
  obtain ⟨huser, hzero, hlazy⟩ := hva
  rw [readByte, if_neg (Nat.not_le.mpr huser)] at hread
  cases hbyte : s.phys.userByte s.procs.currentCr3 va with
  | some b =>
    rw [hbyte] at hread
    cases hread
    exact ⟨congrArg some (hzero b hbyte), hS, fun _ h => h⟩
  | none =>
    rw [hbyte] at hread
    obtain ⟨⟨ok, s₁⟩, hdemand, he⟩ := Option.bind_eq_some_iff.mp hread
    obtain ⟨rfl, hprocs, hvmas, writable, hmap⟩ := tryDemandPage_lazy (hlazy hbyte) hdemand
    simp only [if_true, Option.some.injEq, Prod.mk.injEq] at he
    obtain ⟨rfl, rfl⟩ := he
    rw [addrOf_eq hS.tree.aligned] at hmap
    have hpage : pageOf (addrOf va) = pageOf va := by rw [pageOf, addrOf_div, pageOf]
    have hhalf : userHalf (idx 39 (addrOf va)) := userHalf_of_lt (by
      simp only [addrOf, pageSize, userEnd] at *
      omega)
    have hC := hS.mapZeroed hhalf (userFlags_lt _) hmap
    have hnow : ∀ va', va' < userEnd → s₁.phys.userByte s.procs.currentCr3 va' =
        if pageOf va' = pageOf va then some 0 else s.phys.userByte s.procs.currentCr3 va' := fun va' hva' => by
      rw [hC.userByte hS (userHalf_of_lt hva'), hpage]
    rw [hprocs, hnow va huser, if_pos rfl]
    refine ⟨rfl, hC.touched.space, fun va' hblank => ?_⟩
    obtain ⟨huser', hzero', hlazy'⟩ := hblank
    refine ⟨huser', fun b hb => ?_, fun hnone => ?_⟩
    · rw [hprocs, hnow va' huser'] at hb
      split at hb
      · cases hb
        rfl
      · exact hzero' b hb
    · rw [hprocs, hnow va' huser'] at hnone
      split at hnone
      · cases hnone
      · obtain ⟨e, he, hlazy⟩ := hlazy' hnone
        exact ⟨e, by rw [hvmas]; exact he, hlazy⟩

theorem ReadsZero.one {b : Option UInt8} (h : s.ReadsZero r len) (hlow : r ≤ va) (hhigh : va < r + len)
    (hread : s.readByte va = some (b, s')) : b = some 0 := by
  refine h.zero [va] (fun va' hva' => ?_) [b] s' ?_ b (List.mem_singleton_self b)
  · cases List.mem_singleton.mp hva'
    exact ⟨hlow, hhigh⟩
  · rw [readBytes, hread]
    rfl

theorem ReadsZero.lt_userEnd (h : s.ReadsZero r len) (hlow : r ≤ va) (hhigh : va < r + len) : va < userEnd := by
  by_contra hcon
  cases h.one hlow hhigh (show s.readByte va = some (none, s) from if_pos (Nat.not_lt.mp hcon))

/-- All bytes of a range read as zero exactly when they are blank. -/
theorem readsZero_iff (hS : Space s.phys s.procs.currentCr3) :
    s.ReadsZero r len ↔ ∀ va, r ≤ va → va < r + len → s.BlankIf s.LazyAt va := by
  constructor
  · intro h va hlow hhigh
    have huser := h.lt_userEnd hlow hhigh
    refine ⟨huser, fun b hb => ?_, fun hnone => ?_⟩
    · have hread : s.readByte va = some (some b, s) := by
        rw [readByte, if_neg (Nat.not_le.mpr huser), hb]
      exact Option.some.inj (h.one hlow hhigh hread)
    · refine (h.there va hlow hhigh).resolve_left ?_
      rw [userByte, Option.map_eq_none_iff] at hnone
      rw [hnone]
      exact Bool.false_ne_true
  · intro h
    refine ⟨fun va hlow hhigh => ?_, fun vas hvas bs s' hrun => ?_⟩
    · cases hphys : s.phys.virtToPhys s.procs.currentCr3 va with
      | some phys => exact .inl rfl
      | none => exact .inr ((h va hlow hhigh).2.2 (by rw [userByte, hphys, Option.map_none]))
    · have hblank : ∀ va ∈ vas, s.BlankIf s.LazyAt va := fun va hva => h va (hvas va hva).1 (hvas va hva).2
      clear h hvas
      induction vas generalizing s bs with
      | nil =>
        cases hrun
        exact fun b hb => absurd hb List.not_mem_nil
      | cons va vas ih =>
        obtain ⟨⟨b, s₁⟩, hread, hrun⟩ := Option.bind_eq_some_iff.mp hrun
        obtain ⟨⟨bs', s₂⟩, hrest, he⟩ := Option.bind_eq_some_iff.mp hrun
        cases he
        obtain ⟨rfl, hS₁, hkeep⟩ := readByte_blank hS (hblank va List.mem_cons_self) hread
        intro b hb
        rcases List.mem_cons.mp hb with rfl | hb
        · rfl
        · exact ih hS₁ bs' hrest (fun va' hva' => hkeep va' (hblank va' (List.mem_cons_of_mem va hva'))) b hb

/-! ## The call -/

/-- The pages of a length. -/
def pageCount (len : Nat) : Nat := (len + 4095) / 4096

/-- No sum that `sys_mmap` forms with the length overflows. -/
def Sums (s : MemSys) (addr len flags : Nat) : Prop :=
  ∃ pages, pagesOf len = some pages ∧ (s.procs.currentCr3 ≠ 0 →
    if flags.testBit mapFixed = true ∧ addr ≠ 0 then
      (addU64 addr len).isSome = true ∧ ∀ i < pages, (addU64 addr (i * pageSize)).isSome = true
    else (s.procs.allocMmapVaddr pages).isSome = true)

/-- The call forms its sums, and where it gives memory, that is zero. -/
def GivesZeros (s : MemSys) (read : Pread) (addr len prot flags : Nat) (fd : Int) (offset : Nat) : Prop :=
  s.Sums addr len flags ∧ ∀ r s', s.sysMmap read addr len prot flags fd offset = some (r, s') → r < 2 ^ 63 →
    s'.ReadsZero r len

/-- At user addresses, where nothing but zeros is mapped and a new lazy VMA is seen where nothing is. -/
def Blank (s : MemSys) (r len prot : Nat) : Prop :=
  ∀ va, r ≤ va → va < r + len → s.BlankIf
    (s.vmas.SeenLazy { base := r, pages := pageCount len, prot := prot % 2 ^ 32, lazy := true, valid := true }) va

/-- With `MAP_FIXED` inside a mapping on record the memory must be blank; elsewhere
it is made anew, so that it only has to be the process's. -/
def BlankFixed (s : MemSys) (addr len prot : Nat) : Prop :=
  match s.mmaps.inExisting addr len with
  | none => True
  | some true => s.Blank addr len prot
  | some false =>
    (s.phys.mmapAnon s.procs.currentCr3 addr (pageCount len) true).isSome = true → addr + len ≤ userEnd

/-- The length is small enough, and the memory is blank where none is made. -/
def Fresh (s : MemSys) (addr len prot flags : Nat) : Prop :=
  len + 4095 < 2 ^ 64 ∧ (s.procs.currentCr3 ≠ 0 →
    if flags.testBit mapFixed = true ∧ addr ≠ 0 then
      addr + len < 2 ^ 64 ∧ (addr < 2 ^ 63 → s.BlankFixed addr len prot)
    else ∀ p ∈ s.procs.cur,
      p.mmapNext + pageCount len * 4096 < 2 ^ 64 ∧ (p.mmapNext < 2 ^ 63 → s.Blank p.mmapNext len prot))

variable {read : Pread} {addr prot flags offset : Nat} {fd : Int} {p : UserProc}

theorem pagesOf_eq (hlen : len + 4095 < 2 ^ 64) : pagesOf len = some (pageCount len) :=
  Option.map_eq_some_iff.mpr ⟨_, addU64_eq_some.mpr ⟨hlen, rfl⟩, rfl⟩

theorem pagesOf_isSome {pages : Nat} (h : pagesOf len = some pages) : len + 4095 < 2 ^ 64 ∧ pages = pageCount len := by
  obtain ⟨b, hb, rfl⟩ := Option.map_eq_some_iff.mp h
  obtain ⟨hlt, rfl⟩ := addU64_eq_some.mp hb
  exact ⟨hlt, rfl⟩

theorem addU64_isSome {a b : Nat} : (addU64 a b).isSome = true ↔ a + b < 2 ^ 64 := by
  rw [addU64]
  split
  · next h => exact iff_of_true rfl h
  · next h => exact iff_of_false Bool.false_ne_true h

theorem allocMmapVaddr_isSome {pages : Nat} (hp : s.procs.cur = some p) :
    (s.procs.allocMmapVaddr pages).isSome = true ↔ p.mmapNext + pages * 4096 < 2 ^ 64 := by
  rw [← addU64_isSome]
  simp only [Uprocs.allocMmapVaddr, hp, Option.bind_eq_bind]
  cases addU64 p.mmapNext (pages * 4096) <;> rfl

theorem cur_of_currentCr3 (hcr3 : s.procs.currentCr3 ≠ 0) : ∃ p, s.procs.cur = some p := by
  cases hc : s.procs.cur with
  | none => simp [Uprocs.currentCr3, hc] at hcr3
  | some p => exact ⟨p, rfl⟩

/-- A lazy VMA alone gives zeros where memory was blank. -/
theorem readsZero_insert (hS : Space s.phys s.procs.currentCr3) (hphys : s'.phys = s.phys)
    (hcr3 : s'.procs.currentCr3 = s.procs.currentCr3) (hvmas : s'.vmas = s.vmas.insert r (pageCount len) (prot % 2 ^ 32) true) :
    s'.ReadsZero r len ↔ s.Blank r len prot := by
  rw [readsZero_iff (by rw [hphys, hcr3]; exact hS)]
  refine forall_congr' fun va => forall_congr' fun hlow => forall_congr' fun hhigh => ?_
  have hseen := @VmaTable.insert_lazy_iff s.vmas r (pageCount len) (prot % 2 ^ 32) va hlow
    (by simp only [pageCount, pageSize]; omega)
  rw [← hvmas] at hseen
  rw [BlankIf, BlankIf, hphys, hcr3, LazyAt, hseen]

section

variable (hanon : flags.testBit mapAnonymous = true) (hlen : len ≠ 0) (hlt : len + 4095 < 2 ^ 64)

include hanon hlen hlt

/-- With `MAP_FIXED`. -/
theorem sysMmap_fixed (hcr3 : s.procs.currentCr3 ≠ 0) (hfixed : flags.testBit mapFixed = true ∧ addr ≠ 0) :
    s.sysMmap read addr len prot flags fd offset = (s.mmaps.inExisting addr len).bind fun inside =>
      if inside = true then
        some (addr, { s with vmas := s.vmas.insert addr (pageCount len) (prot % 2 ^ 32) true })
      else (s.phys.mmapAnon s.procs.currentCr3 addr (pageCount len) true).map fun phys =>
        (addr, { s with
          phys
          mmaps := s.mmaps.insert addr (pageCount len)
          vmas := s.vmas.insert addr (pageCount len) (prot % 2 ^ 32) false }) := by
  rw [sysMmap, if_neg hlen, pagesOf_eq hlt, Option.bind_eq_bind, Option.bind_some]
  dsimp only
  rw [if_neg hcr3, if_pos hfixed, hanon, Bool.true_or]
  refine congrArg _ (funext fun inside => ?_)
  cases inside with
  | true => rfl
  | false =>
    simp only [Bool.false_eq_true, if_false, mapFixedAt, mapNow, if_true, Option.bind_eq_bind]
    cases s.phys.mmapAnon s.procs.currentCr3 addr (pageCount len) true <;> rfl

/-- At an address of the kernel's choice. -/
theorem sysMmap_anywhere (hcr3 : s.procs.currentCr3 ≠ 0) (hfixed : ¬(flags.testBit mapFixed = true ∧ addr ≠ 0))
    (hp : s.procs.cur = some p) (hfits : p.mmapNext + pageCount len * 4096 < 2 ^ 64) :
    s.sysMmap read addr len prot flags fd offset = some (p.mmapNext,
      { s with
        procs := s.procs.update fun q => { q with mmapNext := p.mmapNext + pageCount len * 4096 }
        mmaps := s.mmaps.insert p.mmapNext (pageCount len)
        vmas := s.vmas.insert p.mmapNext (pageCount len) (prot % 2 ^ 32) true }) := by
  have halloc : s.procs.allocMmapVaddr (pageCount len) = some (p.mmapNext,
      s.procs.update fun q => { q with mmapNext := p.mmapNext + pageCount len * 4096 }) := by
    simp only [Uprocs.allocMmapVaddr, hp, addU64_eq_some.mpr ⟨hfits, rfl⟩, Option.bind_eq_bind, Option.bind_some]
  rw [sysMmap, if_neg hlen, pagesOf_eq hlt, Option.bind_eq_bind, Option.bind_some]
  dsimp only
  rw [if_neg hcr3, if_neg hfixed, hanon, Bool.true_or, mapAnywhere, halloc]
  rfl

end

theorem sums_iff (hlt : len + 4095 < 2 ^ 64) : s.Sums addr len flags ↔ (s.procs.currentCr3 ≠ 0 →
    if flags.testBit mapFixed = true ∧ addr ≠ 0 then addr + len < 2 ^ 64
    else ∀ p ∈ s.procs.cur, p.mmapNext + pageCount len * 4096 < 2 ^ 64) := by
  have hpages : s.Sums addr len flags ↔ (s.procs.currentCr3 ≠ 0 →
      if flags.testBit mapFixed = true ∧ addr ≠ 0 then
        (addU64 addr len).isSome = true ∧ ∀ i < pageCount len, (addU64 addr (i * pageSize)).isSome = true
      else (s.procs.allocMmapVaddr (pageCount len)).isSome = true) := by
    constructor
    · intro ⟨pages, hpages, h⟩
      rw [(pagesOf_isSome hpages).2] at h
      exact h
    · exact fun h => ⟨_, pagesOf_eq hlt, h⟩
  rw [hpages]
  refine forall_congr' fun hcr3 => ?_
  split
  · rw [addU64_isSome]
    refine and_iff_left_of_imp fun hfits i hi => addU64_isSome.mpr ?_
    simp only [pageCount, pageSize] at *
    omega
  · obtain ⟨p, hp⟩ := cur_of_currentCr3 hcr3
    rw [allocMmapVaddr_isSome hp, hp]
    simp

theorem forall_result {x : Nat} :
    (∀ r t, some (x, s) = some (r, t) → r < 2 ^ 63 → t.ReadsZero r len) ↔ (x < 2 ^ 63 → s.ReadsZero x len) := by
  constructor
  · exact fun h => h x s rfl
  · intro h r t he
    cases he
    exact h

/-- Pages that were made anew give zeros, if the process can read them at all. -/
theorem readsZero_mapped (hS : Space s.phys s.procs.currentCr3) (hcr3 : s'.procs.currentCr3 = s.procs.currentCr3)
    (hlen : len ≠ 0) (haddr : addr % pageSize = 0)
    (hmap : s.phys.mmapAnon s.procs.currentCr3 addr (pageCount len) true = some s'.phys) :
    s'.ReadsZero addr len ↔ addr + len ≤ userEnd := by
  constructor
  · intro h
    have hlast : addr + len - 1 < userEnd := h.lt_userEnd (by omega) (by omega)
    omega
  · intro hend
    have huser : addr + pageCount len * pageSize ≤ userEnd := by
      simp only [pageCount, pageSize, userEnd] at *
      omega
    obtain ⟨hS', hbyte⟩ := hS.mmapAnon_zero huser hmap
    rw [← hcr3] at hS' hbyte
    refine (readsZero_iff hS').mpr fun va hlow hhigh => ?_
    have hva : va < userEnd := by omega
    have hin : InPages addr (pageCount len) va := by
      simp only [InPages, pageOf, pageCount, pageSize, userEnd] at *
      omega
    have hzero := hbyte (userHalf_of_lt hva)
    rw [if_pos hin] at hzero
    refine ⟨hva, fun b hb => ?_, fun hnone => ?_⟩
    · rw [hzero] at hb
      exact (Option.some.inj hb).symm
    · rw [hzero] at hnone
      cases hnone

/-- The memory that the call gives is zero exactly when it was blank where none is made. -/
theorem givesZeros_iff (hspace : s.procs.currentCr3 ≠ 0 → Space s.phys s.procs.currentCr3)
    (hanon : flags.testBit mapAnonymous = true) (hlen : len ≠ 0)
    (haddr : flags.testBit mapFixed = true → addr % pageSize = 0) :
    s.GivesZeros read addr len prot flags fd offset ↔ s.Fresh addr len prot flags := by
  by_cases hlt : len + 4095 < 2 ^ 64
  · rw [GivesZeros, sums_iff hlt, Fresh, and_iff_right hlt]
    by_cases hcr3 : s.procs.currentCr3 = 0
    · -- no process: the call fails
      refine iff_of_true ⟨fun hne => absurd hcr3 hne, fun r s' hrun hr => ?_⟩ fun hne => absurd hcr3 hne
      rw [sysMmap, if_neg hlen, pagesOf_eq hlt, Option.bind_eq_bind, Option.bind_some] at hrun
      dsimp only at hrun
      rw [if_pos hcr3] at hrun
      cases hrun
      exact absurd hr (by decide)
    simp only [ne_eq, hcr3, not_false_eq_true, true_implies]
    have hS := hspace hcr3
    by_cases hfixed : flags.testBit mapFixed = true ∧ addr ≠ 0
    · rw [if_pos hfixed, if_pos hfixed]
      refine and_congr_right fun _ => ?_
      rw [sysMmap_fixed hanon hlen hlt hcr3 hfixed, BlankFixed]
      cases s.mmaps.inExisting addr len with
      | none => exact iff_of_true (fun r s' hrun => by cases hrun) fun _ => trivial
      | some inside =>
        rw [Option.bind_some]
        cases inside with
        | true =>
          rw [if_pos rfl]
          refine forall_result.trans (forall_congr' fun _ => ?_)
          exact readsZero_insert hS rfl rfl rfl
        | false =>
          rw [if_neg Bool.false_ne_true]
          cases hmap : s.phys.mmapAnon s.procs.currentCr3 addr (pageCount len) true with
          | none => exact iff_of_true (fun r s' hrun => by cases hrun) fun _ hcon => by cases hcon
          | some phys =>
            rw [Option.map_some]
            refine forall_result.trans (forall_congr' fun _ => ?_)
            refine Iff.trans (readsZero_mapped hS rfl hlen (haddr hfixed.1) hmap) ?_
            simp only [Option.isSome_some, true_implies]
    · rw [if_neg hfixed, if_neg hfixed]
      obtain ⟨p, hp⟩ := cur_of_currentCr3 hcr3
      simp only [hp, Option.mem_some_iff, forall_eq']
      refine and_congr_right fun hfits => ?_
      rw [sysMmap_anywhere hanon hlen hlt hcr3 hfixed hp hfits]
      refine forall_result.trans (forall_congr' fun _ => readsZero_insert hS rfl ?_ rfl)
      rw [Uprocs.currentCr3, Uprocs.cur_update, Option.map_map]
      rfl
  · refine iff_of_false (fun hgives => ?_) fun hfresh => hlt hfresh.1
    obtain ⟨pages, hpages, -⟩ := hgives.1
    exact hlt (pagesOf_isSome hpages).1

end MemSys

open MemSys

/-- In every run, an anonymous mapping forms its sums and reads as zero if and
only if its length is small enough and, where it is lazy, its addresses are
blank before. -/
theorem anonymous_zero_iff_fresh {m₀ : Phys} {h : List MemSys.Op} {s : MemSys} {read : Pread}
    {addr len prot flags offset : Nat} {fd : Int} (hk : KernelApart m₀)
    (hr : Runs MemSys.step MemSys.InOrder (boot m₀) h s) (hanon : flags.testBit mapAnonymous = true) (hlen : 0 < len)
    (haddr : flags.testBit mapFixed = true → addr % pageSize = 0) :
    s.GivesZeros read addr len prot flags fd offset ↔ s.Fresh addr len prot flags :=
  givesZeros_iff (fun hcr3 => Phys.Orderly.space (ordered_of_runs hk hr) (Uprocs.root_currentCr3 hcr3)) hanon
    (Nat.ne_of_gt hlen) haddr

/-- Before anything is mapped every VMA is seen. -/
theorem seenLazy_of_invalid {t : VmaTable} (h : ∀ e ∈ t.1, e.valid = false) (new : VmaEntry) (v : Nat) :
    t.SeenLazy new v := by
  have hnone : t.1.findIdx? (·.startsAt new.base) = none :=
    List.findIdx?_eq_none_iff.mpr fun e he => by rw [VmaEntry.startsAt, h e he, Bool.false_and]
  rw [VmaTable.SeenLazy, hnone]
  intro a ha
  obtain ⟨e, he, -⟩ := Option.map_eq_some_iff.mp ha
  have hcov := List.find?_some he
  rw [VmaEntry.covers, h e (List.mem_of_mem_take (List.mem_of_find?_eq_some he))] at hcov
  cases hcov

/-- The first page that the first program asks for. -/
theorem anonymous_zero_first : ∃ h s r s', Runs MemSys.step MemSys.InOrder (boot bootMachine) h s ∧
    s.sysMmap (fun _ _ _ => []) 0 4096 3 0x22 (-1) 0 = some (r, s') ∧ s'.ReadsZero r 4096 := by
  obtain ⟨⟨image, s⟩, henter, hP⟩ := (Option.any_eq_true
    (fun (r : (Nat × Nat × Nat) × MemSys) => r.2.vmas.1.all (fun e => !e.valid) && r.2.procs.currentCr3 != 0 &&
      r.2.procs.cur.map (·.mmapNext) == some 0x40000000 &&
      r.2.phys.virtToPhys r.2.procs.currentCr3 0x40000000 == none &&
      (r.2.sysMmap (fun _ _ _ => []) 0 4096 3 0x22 (-1) 0).any (·.1 == 0x40000000))
    ((boot bootMachine).enterElf (fun _ => none) (twoByteElf 0x10000) 1 0)).mp (by decide +kernel)
  simp only [Bool.and_eq_true, beq_iff_eq, bne_iff_ne, Option.any_eq_true, List.all_eq_true, Bool.not_eq_true'] at hP
  obtain ⟨⟨⟨⟨hvmas, hcr3⟩, hnext⟩, habs⟩, ⟨_, s'⟩, hcall, rfl⟩ := hP
  have hrun := runs_first henter
  have hS := Phys.Orderly.space (ordered_of_runs bootMachine_kernelApart hrun) (Uprocs.root_currentCr3 hcr3)
  have hfresh : s.Fresh 0 4096 3 0x22 := by
    refine ⟨by decide, fun _ => ?_⟩
    rw [if_neg (by decide)]
    intro p hp
    rw [Option.mem_def.mp hp, Option.map_some, Option.some.injEq] at hnext
    rw [hnext]
    refine ⟨by decide, fun _ va hlow hhigh => ?_⟩
    have hva : va < userEnd ∧ pageOf va = pageOf 0x40000000 := by
      simp only [pageOf, pageSize, userEnd]
      omega
    have hnone := hS.absent_page (userHalf_of_lt (by decide)) (userHalf_of_lt hva.1) hva.2 habs
    refine ⟨hva.1, fun b hb => ?_, fun _ => seenLazy_of_invalid hvmas _ va⟩
    rw [userByte, hnone] at hb
    cases hb
  have hgives : s.GivesZeros (fun _ _ _ => []) 0 4096 3 0x22 (-1) 0 :=
    (anonymous_zero_iff_fresh bootMachine_kernelApart hrun (by decide) (by decide)
      (fun hcon => absurd hcon (by decide))).mpr hfresh
  exact ⟨_, s, _, s', hrun, hcall, hgives.2 _ _ hcall (by decide)⟩

/-- A page with a byte stored in it is mapped anonymously once more, at its
address: the byte is still there. A length near `2 ^ 64` overflows at once. -/
theorem anonymous_shows_stored_byte : ∃ h s s', Runs MemSys.step MemSys.InOrder (boot bootMachine) h s ∧
    s.sysMmap (fun _ _ _ => []) 0x40000000 4096 3 0x32 (-1) 0 = some (0x40000000, s') ∧
    s'.readByte 0x40000000 = some (some 7, s') ∧
    ¬s.GivesZeros (fun _ _ _ => []) 0x40000000 4096 3 0x32 (-1) 0 ∧
    ¬s.GivesZeros (fun _ _ _ => []) 0 (2 ^ 64 - 1) 3 0x22 (-1) 0 := by
  obtain ⟨⟨image, s₀⟩, henter, hP⟩ := (Option.any_eq_true
    (fun (r : (Nat × Nat × Nat) × MemSys) => (r.2.step (.mmap (fun _ _ _ => []) 0 4096 3 0x22 (-1) 0)).any fun r =>
      (r.2.step (.fault 0x40000000)).any fun r => (r.2.step (.store 0x40000000 7)).any fun r =>
        (r.2.sysMmap (fun _ _ _ => []) 0x40000000 4096 3 0x32 (-1) 0).any fun r₁ =>
          r₁.1 == 0x40000000 && r₁.2.phys.userByte r₁.2.procs.currentCr3 0x40000000 == some 7)
    ((boot bootMachine).enterElf (fun _ => none) (twoByteElf 0x10000) 1 0)).mp (by decide +kernel)
  obtain ⟨⟨_, s₁⟩, hmmap, hP⟩ := (Option.any_eq_true _ _).mp hP
  obtain ⟨⟨_, s₂⟩, hfault, hP⟩ := (Option.any_eq_true _ _).mp hP
  obtain ⟨⟨_, s₃⟩, hstore, hP⟩ := (Option.any_eq_true _ _).mp hP
  simp only [Bool.and_eq_true, beq_iff_eq, Option.any_eq_true] at hP
  obtain ⟨⟨_, s'⟩, hcall, rfl, hbyte⟩ := hP
  have hok : MemSys.InOrder [] s₀ (.mmap (fun _ _ _ => []) 0 4096 3 0x22 (-1) 0) := by
    intro pages h va hva
    obtain - := h
    cases hva
  have hok₁ : ∀ h, MemSys.InOrder h s₁ (.fault 0x40000000) := fun _ => (by decide : 0x40000000 < userEnd)
  have hok₂ : ∀ h, MemSys.InOrder h s₂ (.store 0x40000000 7) := fun _ => (by decide : 0x40000000 < userEnd)
  have hrun := (((runs_first henter).next hok hmmap).next (hok₁ _) hfault).next (hok₂ _) hstore
  have hread : s'.readByte 0x40000000 = some (some 7, s') := by
    rw [readByte, if_neg (by decide), hbyte]
  refine ⟨_, s₃, s', hrun, hcall, hread, fun hgives => ?_, fun hgives => ?_⟩
  · have hzero := (hgives.2 _ _ hcall (by decide)).one (Nat.le_refl _) (by decide) hread
    exact absurd hzero (by decide)
  · obtain ⟨pages, hpages, -⟩ := hgives.1
    exact absurd (pagesOf_isSome hpages).1 (by decide)

end ChodOs
