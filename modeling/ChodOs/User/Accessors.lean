/-
Which ELF files `elf.rs` can read. A slice out of range and a sum over 64
bits stop the kernel; `parse` looks at the first 20 bytes only, so that the
rest of a file that it accepts may hold anything.
-/
import ChodOs.User.Linking

namespace ChodOs

open Elf

/-! ## The program headers -/

namespace Elf

variable {d : List UInt8} {phoff phsz n idx off stop : Nat} {α β : Type}

/-- The program header at `base`, as far as the file has it. -/
def phdrAt (d : List UInt8) (base : Nat) : RawPhdr :=
  let field (off n : Nat) : Nat := ByteMem.le (fun i => d.getD i 0) (base + off) n
  { pType := field 0 4
    pFlags := field 4 4
    pOffset := field 8 8
    pVaddr := field 16 8
    pFilesz := field 32 8
    pMemsz := field 40 8
    pAlign := field 48 8 }

theorem readLe_of_le (h : off + n ≤ d.length) : readLe d off n = some (ByteMem.le (fun i => d.getD i 0) off n) :=
  if_pos h

theorem readLe_of_lt (h : d.length < off + n) : readLe d off n = none := if_neg (by omega)

/-- A header is read with all its 56 bytes, whatever the size that the file gives for it. -/
theorem readPhdr_eq {base : Nat} : readPhdr d base = if base + 56 ≤ d.length then some (phdrAt d base) else none := by
  split
  · next h =>
    unfold readPhdr
    iterate 8 rw [readLe_of_le (by omega)]
    rfl
  · next h =>
    simp only [readPhdr, Option.bind_eq_bind, Option.bind_eq_none_iff]
    intro _ _ _ _ _ _ _ _ _ _ _ _ _ _ pAlign hread
    rw [readLe_of_lt (by omega)] at hread
    cases hread

/-- A search through `n` headers from the one at `idx`, which ends at the first that it takes
or that is not in the file: up to there no sum overflows, no header that
begins in the file has less than 56 bytes there, and none breaks the search. -/
def Searchable (d : List UInt8) (phoff phsz n idx : Nat) (takes breaks : RawPhdr → Prop) : Prop :=
  ∀ i < n,
    (∀ j < i, phoff + (idx + j) * phsz + phsz ≤ d.length ∧ ¬takes (phdrAt d (phoff + (idx + j) * phsz))) →
    phoff + (idx + i) * phsz + phsz < 2 ^ 64 ∧
      (phoff + (idx + i) * phsz + phsz ≤ d.length →
        phoff + (idx + i) * phsz + 56 ≤ d.length ∧ ¬breaks (phdrAt d (phoff + (idx + i) * phsz)))

theorem searchable_succ {takes breaks : RawPhdr → Prop} :
    Searchable d phoff phsz (n + 1) idx takes breaks ↔
      phoff + idx * phsz + phsz < 2 ^ 64 ∧ (phoff + idx * phsz + phsz ≤ d.length →
        phoff + idx * phsz + 56 ≤ d.length ∧ ¬breaks (phdrAt d (phoff + idx * phsz)) ∧
          (¬takes (phdrAt d (phoff + idx * phsz)) → Searchable d phoff phsz n (idx + 1) takes breaks)) := by
  have hidx : ∀ i, idx + 1 + i = idx + (i + 1) := fun i => by omega
  constructor
  · intro h
    obtain ⟨hsum, hin⟩ := h 0 (Nat.succ_pos n) (fun j hj => absurd hj (Nat.not_lt_zero j))
    refine ⟨hsum, fun hle => ⟨(hin hle).1, (hin hle).2, fun htakes i hi hbefore => ?_⟩⟩
    rw [hidx]
    refine h (i + 1) (Nat.succ_lt_succ hi) fun j hj => ?_
    cases j with
    | zero => exact ⟨hle, htakes⟩
    | succ j =>
      rw [← hidx]
      exact hbefore j (Nat.lt_of_succ_lt_succ hj)
  · intro h i hi hbefore
    obtain ⟨hsum, hin⟩ := h
    cases i with
    | zero => exact ⟨hsum, fun hle => ⟨(hin hle).1, (hin hle).2.1⟩⟩
    | succ i =>
      obtain ⟨hle, htakes⟩ := hbefore 0 (Nat.succ_pos i)
      rw [← hidx]
      refine (hin hle).2.2 htakes i (Nat.lt_of_succ_lt_succ hi) fun j hj => ?_
      rw [hidx]
      exact hbefore (j + 1) (Nat.succ_lt_succ hj)

/-- A search, and what is made of its result: `takes` are the headers that end it, and
`breaks` those at which it, or what follows on it, has no result. -/
theorem findPhdr_isSome {f : RawPhdr → Option (Option α)} {k : Option α → Option β} {takes breaks : RawPhdr → Prop}
    (hbreaks : ∀ ph, breaks ph → f ph = none ∨ ∃ x, f ph = some (some x) ∧ k (some x) = none)
    (htakes : ∀ ph, ¬breaks ph → takes ph → ∃ x, f ph = some (some x) ∧ (k (some x)).isSome)
    (hpasses : ∀ ph, ¬breaks ph → ¬takes ph → f ph = some none) (hnone : (k none).isSome) :
    ((findPhdr d phoff phsz f n idx).bind k).isSome ↔ Searchable d phoff phsz n idx takes breaks := by
  induction n generalizing idx with
  | zero => exact ⟨fun _ i hi => absurd hi (Nat.not_lt_zero i), fun _ => hnone⟩
  | succ n ih =>
    rw [searchable_succ, findPhdr]
    by_cases hsum : phoff + idx * phsz + phsz < 2 ^ 64
    · have hbase : addU64 phoff (idx * phsz) = some (phoff + idx * phsz) := if_pos (by omega)
      have hstop : addU64 (phoff + idx * phsz) phsz = some (phoff + idx * phsz + phsz) := if_pos hsum
      simp only [hbase, hstop, readPhdr_eq, Option.bind_eq_bind, Option.bind_some, hsum, true_and]
      by_cases hle : phoff + idx * phsz + phsz ≤ d.length
      · rw [if_neg (Nat.not_lt.mpr hle)]
        simp only [hle, true_imp_iff]
        by_cases hread : phoff + idx * phsz + 56 ≤ d.length
        · rw [if_pos hread]
          simp only [hread, true_and, Option.bind_some]
          by_cases hb : breaks (phdrAt d (phoff + idx * phsz))
          · obtain hf | ⟨x, hf, hk⟩ := hbreaks _ hb
            · simp [hf, hb]
            · simp [hf, hb, hk]
          · by_cases ht : takes (phdrAt d (phoff + idx * phsz))
            · obtain ⟨x, hf, hk⟩ := htakes _ hb ht
              simp [hf, hb, hk, ht]
            · simp only [hpasses _ hb ht, Option.bind_some, hb, ht, not_false_iff, true_and, true_imp_iff]
              exact ih
        · simp [hread]
      · rw [if_pos (Nat.not_le.mp hle)]
        simp [hle, hnone]
    · have hstop : ∀ base, addU64 phoff (idx * phsz) = some base → addU64 base phsz = none := by
        intro base hbase
        obtain ⟨-, rfl⟩ := addU64_eq_some.mp hbase
        exact if_neg hsum
      simp only [hsum, false_and, iff_false]
      cases hbase : addU64 phoff (idx * phsz) with
      | none => simp
      | some base => simp [hstop base hbase]

/-- All headers are read. -/
theorem phdrIter_isSome :
    (phdrIter d phoff phsz n idx).isSome ↔ Searchable d phoff phsz n idx (fun _ => False) fun _ => False := by
  have hfind : (phdrIter d phoff phsz n idx).isSome =
      ((findPhdr d phoff phsz (fun _ => some (none : Option Unit)) n idx).bind some).isSome := by
    induction n generalizing idx with
    | zero => rfl
    | succ n ih =>
      rw [phdrIter, findPhdr]
      cases addU64 phoff (idx * phsz) with
      | none => rfl
      | some base =>
        simp only [Option.bind_eq_bind, Option.bind_some]
        cases addU64 base phsz with
        | none => rfl
        | some stop =>
          simp only [Option.bind_some]
          split
          · rfl
          · cases readPhdr d base with
            | none => rfl
            | some ph =>
              simp only [Option.bind_some]
              rw [← ih]
              cases phdrIter d phoff phsz n (idx + 1) <;> rfl
  rw [hfind]
  exact findPhdr_isSome (fun _ h => h.elim) (fun _ _ h => h.elim) (fun _ _ _ => rfl) rfl

/-! ## The tables -/

theorem addU64_isSome_iff {a b : Nat} : (addU64 a b).isSome ↔ a + b < 2 ^ 64 := by
  unfold addU64
  split <;> simp_all

/-- The symbol at `off`, if the file has it. -/
def symAt (d : List UInt8) (off : Nat) : Option Elf64Sym :=
  let field (k n : Nat) : Nat := ByteMem.le (fun i => d.getD i 0) (off + k) n
  if d.length < off + 24 then none
  else some { stName := field 0 4, stShndx := field 6 2, stValue := field 8 8, stSize := field 16 8 }

theorem readSym_eq (h : off + 24 < 2 ^ 64) : readSym d off = some (symAt d off) := by
  have hstop : addU64 off 24 = some (off + 24) := if_pos h
  rw [readSym, hstop, symAt, Option.bind_eq_bind, Option.bind_some]
  split
  · rfl
  · iterate 4 rw [readLe_of_le (by omega)]
    rfl

/-- From an entry whose end is a 64-bit number on, no offset leaves the file. -/
theorem dynIter_isSome (hd : d.length < 2 ^ 63) (hstop : stop ≤ d.length) (h : off + 16 < 2 ^ 64) :
    (dynIter d stop n off).isSome := by
  induction n generalizing off with
  | zero => rfl
  | succ n ih =>
    have hnext : addU64 off 16 = some (off + 16) := if_pos h
    rw [dynIter, hnext, Option.bind_eq_bind, Option.bind_some]
    split
    · rfl
    · next hle =>
      rw [readLe_of_le (by omega), readLe_of_le (by omega)]
      simp only [Option.bind_eq_bind, Option.bind_some]
      split
      · rfl
      · obtain ⟨rest, hrest⟩ := Option.isSome_iff_exists.mp (ih (by omega : off + 16 + 16 < 2 ^ 64))
        rw [hrest]
        rfl

theorem relaIter_isSome (hd : d.length < 2 ^ 63) (hstop : stop ≤ d.length) (h : off + 24 < 2 ^ 64) :
    (relaIter d stop n off).isSome := by
  induction n generalizing off with
  | zero => rfl
  | succ n ih =>
    have hnext : addU64 off 24 = some (off + 24) := if_pos h
    rw [relaIter, hnext, Option.bind_eq_bind, Option.bind_some]
    split
    · rfl
    · next hle =>
      iterate 3 rw [readLe_of_le (by omega)]
      obtain ⟨rest, hrest⟩ := Option.isSome_iff_exists.mp (ih (by omega : off + 24 + 24 < 2 ^ 64))
      simp only [hrest, Option.bind_eq_bind, Option.bind_some]
      rfl

/-- The iterators `k` over a table of entries of `w` bytes look at the end of the table, and of the first entry. -/
theorem table_isSome {k : Nat → Option α} {sz w : Nat} (hk : ∀ stop, (k stop).isSome ↔ off + w < 2 ^ 64) :
    ((addU64 off sz).bind k).isSome ↔ off + max sz w < 2 ^ 64 := by
  have hsum : off + max sz w < 2 ^ 64 ↔ off + sz < 2 ^ 64 ∧ off + w < 2 ^ 64 := by omega
  rw [hsum]
  constructor
  · intro h
    obtain ⟨es, hes⟩ := Option.isSome_iff_exists.mp h
    obtain ⟨stop, hstop, hes⟩ := Option.bind_eq_some_iff.mp hes
    exact ⟨(addU64_eq_some.mp hstop).1, (hk stop).mp (Option.isSome_of_eq_some hes)⟩
  · intro h
    rw [addU64, if_pos h.1, Option.bind_some]
    exact (hk _).mpr h.2

theorem dynTable_isSome {sz : Nat} (hd : d.length < 2 ^ 63) :
    ((addU64 off sz).bind fun stop => dynIter d (min stop d.length) (n + 1) off).isSome ↔ off + max sz 16 < 2 ^ 64 :=
  table_isSome fun _ =>
    ⟨fun h => addU64_isSome_iff.mp (Option.isSome_of_isSome_bind h), dynIter_isSome hd (Nat.min_le_right _ _)⟩

theorem relaTable_isSome {sz : Nat} (hd : d.length < 2 ^ 63) :
    ((addU64 off sz).bind fun stop => relaIter d (min stop d.length) (n + 1) off).isSome ↔
      off + max sz 24 < 2 ^ 64 :=
  table_isSome fun _ =>
    ⟨fun h => addU64_isSome_iff.mp (Option.isSome_of_isSome_bind h), relaIter_isSome hd (Nat.min_le_right _ _)⟩

end Elf

/-! ## The accessors -/

namespace Elf64

/-- A call to one of the accessors; the arguments are what the file can give, any 64-bit numbers. -/
inductive Access where
  | loadSegments
  | dynamicSegment
  | interp
  | dynamicEntries
  | dynStr (strtabFileOff idx : UInt64)
  | relaEntries (fileOff totalSz : UInt64)
  | sym (symtabFileOff symIdx : UInt64)
  | dynsymAll (symtabFoff strtabFoff : UInt64)
  | vaddrToFileOff (vaddr : UInt64)

/-- The call returns. -/
def Access.finishes (elf : Elf64) : Access → Bool
  | loadSegments => elf.loadSegments.isSome
  | dynamicSegment => elf.dynamicSegment.isSome
  | interp => elf.interp.isSome
  | dynamicEntries => elf.dynamicEntries.isSome
  | dynStr strtabFileOff idx => (elf.dynStr strtabFileOff.toNat idx.toNat).isSome
  | relaEntries fileOff totalSz => (elf.relaEntries fileOff.toNat totalSz.toNat).isSome
  | sym symtabFileOff symIdx => (elf.sym symtabFileOff.toNat symIdx.toNat).isSome
  | dynsymAll symtabFoff strtabFoff => (Elf64.dynsymAll elf.data symtabFoff.toNat strtabFoff.toNat).isSome
  | vaddrToFileOff vaddr => (elf.vaddrToFileOff vaddr.toNat).isSome

/-- `Searchable` over the program headers of a file. -/
def HeadersSearchable (elf : Elf64) (takes breaks : RawPhdr → Prop) : Prop :=
  let field (off n : Nat) : Nat := ByteMem.le (fun i => elf.data.getD i 0) off n
  Searchable elf.data (field 32 8) (field 54 2) (field 56 2) 0 takes breaks

/-- What the file must have for a call to return. -/
def Access.Fits (elf : Elf64) : Access → Prop
  | loadSegments => elf.HeadersSearchable (fun _ => False) fun _ => False
  | dynamicSegment => elf.HeadersSearchable (·.pType = ptDynamic) fun _ => False
  | interp =>
    elf.HeadersSearchable (fun ph => ph.pType = ptInterp ∧ ph.pOffset + ph.pFilesz ≤ elf.data.length) fun ph =>
      ph.pType = ptInterp ∧ 2 ^ 64 ≤ ph.pOffset + ph.pFilesz
  | dynamicEntries =>
    elf.HeadersSearchable (·.pType = ptDynamic) fun ph =>
      ph.pType = ptDynamic ∧ 2 ^ 64 ≤ ph.pOffset + max ph.pFilesz 16
  | dynStr strtabFileOff idx => strtabFileOff.toNat + idx.toNat < 2 ^ 64
  | relaEntries fileOff totalSz => fileOff.toNat + max totalSz.toNat 24 < 2 ^ 64
  | sym symtabFileOff symIdx => symtabFileOff.toNat + symIdx.toNat * 24 + 24 < 2 ^ 64
  | dynsymAll _ _ => True
  | vaddrToFileOff vaddr =>
    elf.HeadersSearchable
      (fun ph => ph.pType = ptLoad ∧ ph.pVaddr ≤ vaddr.toNat ∧ vaddr.toNat < ph.pVaddr + ph.pFilesz)
      fun ph => ph.pType = ptLoad ∧ ph.pVaddr ≤ vaddr.toNat ∧
        (2 ^ 64 ≤ ph.pVaddr + ph.pFilesz ∨
          vaddr.toNat < ph.pVaddr + ph.pFilesz ∧ 2 ^ 64 ≤ ph.pOffset + (vaddr.toNat - ph.pVaddr))

/-! ## Each of them returns for the files that fit -/

section

variable {data : List UInt8} {elf : Elf64}

theorem length_of_parse (hparse : parse data = some elf) : 64 ≤ elf.data.length := by
  rw [parse_data hparse]
  unfold parse at hparse
  split at hparse
  · cases hparse
  · omega

/-- The fields of the ELF header are in the file. -/
theorem header_reads (h : 64 ≤ elf.data.length) (n : Nat) (off : Nat) (hoff : off + n ≤ 64) :
    readLe elf.data off n = some (ByteMem.le (fun i => elf.data.getD i 0) off n) := readLe_of_le (by omega)

theorem loadSegments_isSome (h : 64 ≤ elf.data.length) :
    elf.loadSegments.isSome ↔ elf.HeadersSearchable (fun _ => False) fun _ => False := by
  rw [loadSegments, header_reads h _ _ (by omega), header_reads h _ _ (by omega), header_reads h _ _ (by omega)]
  rw [HeadersSearchable, ← phdrIter_isSome]
  simp only [Option.bind_eq_bind, Option.bind_some]
  cases phdrIter elf.data _ _ _ 0 <;> simp

theorem findPhdr_isSome {α β : Type} {f : RawPhdr → Option (Option α)} {k : Option α → Option β}
    {takes breaks : RawPhdr → Prop} (h : 64 ≤ elf.data.length)
    (hbreaks : ∀ ph, breaks ph → f ph = none ∨ ∃ x, f ph = some (some x) ∧ k (some x) = none)
    (htakes : ∀ ph, ¬breaks ph → takes ph → ∃ x, f ph = some (some x) ∧ (k (some x)).isSome)
    (hpasses : ∀ ph, ¬breaks ph → ¬takes ph → f ph = some none) (hnone : (k none).isSome) :
    ((elf.findPhdr f).bind k).isSome ↔ elf.HeadersSearchable takes breaks := by
  rw [Elf64.findPhdr, header_reads h _ _ (by omega), header_reads h _ _ (by omega), header_reads h _ _ (by omega)]
  exact Elf.findPhdr_isSome hbreaks htakes hpasses hnone

theorem dynamicSegment_isSome (h : 64 ≤ elf.data.length) :
    elf.dynamicSegment.isSome ↔ elf.HeadersSearchable (·.pType = ptDynamic) fun _ => False := by
  rw [← Option.bind_fun_some elf.dynamicSegment]
  refine findPhdr_isSome (k := some) h (fun _ h => h.elim) (fun ph _ ht => ?_) (fun ph _ ht => ?_) rfl
  · exact ⟨_, congrArg some (if_pos ht), rfl⟩
  · exact congrArg some (if_neg ht)

theorem interp_isSome (h : 64 ≤ elf.data.length) : (elf.interp).isSome ↔ (Access.interp).Fits elf := by
  rw [Access.Fits, ← Option.bind_fun_some elf.interp]
  refine findPhdr_isSome (k := some) h (fun ph hb => .inl ?_) (fun ph hb ht => ?_) (fun ph hb ht => ?_) rfl
  · have hstop : addU64 ph.pOffset ph.pFilesz = none := if_neg (by omega)
    simp [hb.1, hstop]
  · have hstop : addU64 ph.pOffset ph.pFilesz = some (ph.pOffset + ph.pFilesz) := if_pos (by omega)
    simp [ht.1, hstop, ht.2]
  · by_cases htype : ph.pType = ptInterp
    · have hstop : addU64 ph.pOffset ph.pFilesz = some (ph.pOffset + ph.pFilesz) := if_pos (by omega)
      have hlen : elf.data.length < ph.pOffset + ph.pFilesz := by omega
      simp [htype, hstop, hlen]
    · simp [htype]

/-- What `dynamic_entries` does with the segment. -/
def segmentEntries (elf : Elf64) (seg : Option (Nat × Nat)) : Option (List DynEntry) :=
  seg.elim (some []) fun seg => (addU64 seg.1 seg.2).bind fun stop =>
    dynIter elf.data (min stop elf.data.length) (elf.data.length / 16 + 1) seg.1

theorem dynamicEntries_eq : elf.dynamicEntries = elf.dynamicSegment.bind elf.segmentEntries := by
  rw [dynamicEntries, Option.bind_eq_bind]
  congr 1
  funext seg
  cases seg <;> rfl

theorem dynamicEntries_isSome (hd : elf.data.length < 2 ^ 63) (h : 64 ≤ elf.data.length) :
    (elf.dynamicEntries).isSome ↔ (Access.dynamicEntries).Fits elf := by
  rw [dynamicEntries_eq, Access.Fits]
  have htable : ∀ off sz, (elf.segmentEntries (some (off, sz))).isSome ↔ off + max sz 16 < 2 ^ 64 :=
    fun off sz => dynTable_isSome hd
  refine findPhdr_isSome (k := elf.segmentEntries) h (fun ph hb => .inr ?_) (fun ph hb ht => ?_) (fun ph hb ht => ?_) rfl
  · refine ⟨(ph.pOffset, ph.pFilesz), congrArg some (if_pos hb.1), ?_⟩
    rw [← Option.not_isSome_iff_eq_none, htable]
    exact Nat.not_lt.mpr hb.2
  · refine ⟨(ph.pOffset, ph.pFilesz), congrArg some (if_pos ht), (htable _ _).mpr ?_⟩
    exact Nat.not_le.mp fun hsum => hb ⟨ht, hsum⟩
  · exact congrArg some (if_neg ht)

theorem vaddrToFileOff_isSome (h : 64 ≤ elf.data.length) {vaddr : UInt64} :
    (elf.vaddrToFileOff vaddr.toNat).isSome ↔ (Access.vaddrToFileOff vaddr).Fits elf := by
  rw [Access.Fits, ← Option.bind_fun_some (elf.vaddrToFileOff vaddr.toNat)]
  refine findPhdr_isSome (k := some) h (fun ph hb => .inl ?_) (fun ph hb ht => ?_) (fun ph hb ht => ?_) rfl
  · obtain ⟨htype, hlo, hsum | ⟨hhi, hoff⟩⟩ := hb
    · have hstop : addU64 ph.pVaddr ph.pFilesz = none := if_neg (by omega)
      simp [htype, hlo, hstop]
    · by_cases hsum : ph.pVaddr + ph.pFilesz < 2 ^ 64
      · have hstop : addU64 ph.pVaddr ph.pFilesz = some (ph.pVaddr + ph.pFilesz) := if_pos hsum
        have hoff : addU64 ph.pOffset (vaddr.toNat - ph.pVaddr) = none := if_neg (by omega)
        simp [htype, Nat.not_lt.mpr hlo, hstop, hoff, Nat.not_le.mpr hhi]
      · have hstop : addU64 ph.pVaddr ph.pFilesz = none := if_neg hsum
        simp [htype, hlo, hstop]
  · obtain ⟨htype, hlo, hhi⟩ := ht
    have hnot : ¬(2 ^ 64 ≤ ph.pVaddr + ph.pFilesz ∨
        vaddr.toNat < ph.pVaddr + ph.pFilesz ∧ 2 ^ 64 ≤ ph.pOffset + (vaddr.toNat - ph.pVaddr)) :=
      fun hb' => hb ⟨htype, hlo, hb'⟩
    have hstop : addU64 ph.pVaddr ph.pFilesz = some (ph.pVaddr + ph.pFilesz) := if_pos (by omega)
    have hoff : addU64 ph.pOffset (vaddr.toNat - ph.pVaddr) = some (ph.pOffset + (vaddr.toNat - ph.pVaddr)) :=
      if_pos (by omega)
    simp [htype, Nat.not_lt.mpr hlo, hstop, hoff, Nat.not_le.mpr hhi]
  · by_cases hpre : ph.pType ≠ ptLoad ∨ vaddr.toNat < ph.pVaddr
    · exact if_pos hpre
    · rw [not_or, not_not, Nat.not_lt] at hpre
      have hstop : addU64 ph.pVaddr ph.pFilesz = some (ph.pVaddr + ph.pFilesz) :=
        if_pos (Nat.not_le.mp fun hsum => hb ⟨hpre.1, hpre.2, .inl hsum⟩)
      have hhi : ph.pVaddr + ph.pFilesz ≤ vaddr.toNat := Nat.not_lt.mp fun hhi => ht ⟨hpre.1, hpre.2, hhi⟩
      simp [hpre.1, hstop, hhi]

theorem relaEntries_isSome (hd : elf.data.length < 2 ^ 63) {off sz : Nat} :
    (elf.relaEntries off sz).isSome ↔ off + max sz 24 < 2 ^ 64 := relaTable_isSome hd

theorem dynStr_isSome {off idx : Nat} : (elf.dynStr off idx).isSome ↔ off + idx < 2 ^ 64 := by
  rw [← addU64_isSome_iff, dynStr, Option.bind_eq_bind]
  cases addU64 off idx <;> simp

theorem sym_isSome {off idx : Nat} : (elf.sym off idx).isSome ↔ off + idx * 24 + 24 < 2 ^ 64 := by
  constructor
  · intro h
    obtain ⟨r, hr⟩ := Option.isSome_iff_exists.mp h
    rw [sym, Option.bind_eq_bind] at hr
    obtain ⟨base, hbase, hr⟩ := Option.bind_eq_some_iff.mp hr
    obtain ⟨-, rfl⟩ := addU64_eq_some.mp hbase
    rw [readSym, Option.bind_eq_bind] at hr
    obtain ⟨stop, hstop, -⟩ := Option.bind_eq_some_iff.mp hr
    exact (addU64_eq_some.mp hstop).1
  · intro h
    have hbase : addU64 off (idx * 24) = some (off + idx * 24) := if_pos (by omega)
    rw [sym, hbase]
    exact Option.isSome_of_eq_some (readSym_eq h)

/-- Every entry that it looks at ends before the string table. -/
theorem dynsymAll_eq {symtabFoff strtabFoff : Nat} (h : strtabFoff < 2 ^ 64) :
    Elf64.dynsymAll data symtabFoff strtabFoff =
      some ((List.range ((strtabFoff - symtabFoff) / 24)).filterMap fun i => symAt data (symtabFoff + i * 24)) := by
  have hread : ∀ i ∈ List.range ((strtabFoff - symtabFoff) / 24),
      readSym data (symtabFoff + i * 24) = some (symAt data (symtabFoff + i * 24)) := by
    intro i hi
    rw [List.mem_range] at hi
    exact readSym_eq (by omega)
  rw [Elf64.dynsymAll, Loop.mapM_eq_map hread, Option.bind_eq_bind, Option.bind_some, List.filterMap_map]
  rfl

/-- **A call returns exactly if the file fits it.** -/
theorem accessor_finishes_iff (hparse : parse data = some elf) (hlen : data.length < 2 ^ 63) (a : Access) :
    a.finishes elf = true ↔ a.Fits elf := by
  have h := length_of_parse hparse
  rw [← parse_data hparse] at hlen
  cases a with
  | loadSegments => exact loadSegments_isSome h
  | dynamicSegment => exact dynamicSegment_isSome h
  | interp => exact interp_isSome h
  | dynamicEntries => exact dynamicEntries_isSome hlen h
  | dynStr => exact dynStr_isSome
  | relaEntries => exact relaEntries_isSome hlen
  | sym => exact sym_isSome
  | dynsymAll symtabFoff strtabFoff =>
    exact iff_of_true (Option.isSome_of_eq_some (dynsymAll_eq strtabFoff.toNat_lt)) trivial
  | vaddrToFileOff => exact vaddrToFileOff_isSome h

end

/-! ## A file that stops the kernel -/

/-- An ELF header of 64 bytes and the fields of its program headers: where they are, their size and their number. -/
def bareHeader (phoff phentsize phnum : UInt8) : List UInt8 :=
  [0x7F, 0x45, 0x4C, 0x46, 2, 1, 1, 0] ++ List.replicate 8 0 ++ [2, 0, 0x3E, 0, 1, 0, 0, 0] ++
    List.replicate 8 0 ++ [phoff, 0, 0, 0, 0, 0, 0, 0] ++ List.replicate 14 0 ++ [phentsize, 0, phnum, 0] ++
    List.replicate 6 0

/-- Without program headers every segment has been read. -/
theorem accessor_finishes_without_headers :
    ∃ elf, parse (bareHeader 64 56 0) = some elf ∧
      (Access.loadSegments.finishes elf = true ↔ Access.loadSegments.Fits elf) :=
  have hparse : parse (bareHeader 64 56 0) = some ⟨bareHeader 64 56 0, 2⟩ := rfl
  ⟨⟨bareHeader 64 56 0, 2⟩, hparse, accessor_finishes_iff hparse (by decide) .loadSegments⟩

/-- A header of no size at the end of the file is in the file, and 56 bytes are read for it. -/
theorem load_segments_reads_beyond_file :
    ∃ data elf, parse data = some elf ∧ Access.loadSegments.finishes elf = false :=
  ⟨bareHeader 64 0 1, ⟨bareHeader 64 0 1, 2⟩, rfl, rfl⟩

end Elf64

end ChodOs
