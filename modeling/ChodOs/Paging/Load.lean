/-
Loading an image into a new address space (`paging/mod.rs`). Both loaders
run the same page loop and stack code and differ in the base address and
the auxiliary vector.

A loader works on frames it has just allocated (`Loading`): its tables and
pages are its own, and a page step adds one page and moves none.
-/
import ChodOs.Elf
import ChodOs.Lib.Loop
import ChodOs.Paging.Table

namespace ChodOs

open Pt

def userStackTop : Nat := 0x100000
def userStackPages : Nat := 4

/-- The segment starts on a page boundary, or its bytes end in the page it starts in. -/
def PtLoad.Fits (mapped : Nat) (seg : PtLoad) : Prop :=
  mapped % pageSize = 0 ∨ mapped % pageSize + seg.filesz ≤ pageSize

instance (mapped : Nat) (seg : PtLoad) : Decidable (seg.Fits mapped) := inferInstanceAs (Decidable (_ ∨ _))

/-- The pages of a segment, `page_start` to `page_end`, by number. -/
def PtLoad.Occupies (mapped : Nat) (seg : PtLoad) (p : Nat) : Prop :=
  mapped / pageSize ≤ p ∧ p < (mapped + seg.memsz + 0xFFF) / pageSize

/-- A segment whose bytes are in the file and whose addresses are user addresses. -/
structure PtLoad.Placed (data : List UInt8) (mapped : Nat) (seg : PtLoad) : Prop where
  inFile : seg.offset + seg.filesz ≤ data.length
  filesz : seg.filesz ≤ seg.memsz
  user : mapped + seg.memsz ≤ 2 ^ 47

/-- Segments inside the file, at user addresses, on pages of their own. -/
structure Layout (data : List UInt8) (base : Nat) (segs : List PtLoad) : Prop where
  placed : ∀ seg ∈ segs, seg.Placed data (base + seg.vaddr)
  disjoint : segs.Pairwise fun seg seg' => ∀ p, seg.Occupies (base + seg.vaddr) p →
    ¬seg'.Occupies (base + seg'.vaddr) p
  stack : ∀ seg ∈ segs, ∀ p, seg.Occupies (base + seg.vaddr) p → ¬(252 ≤ p ∧ p < 256)

/-- The pages of a segment at user addresses are user pages. -/
theorem PtLoad.occupies_lt {mapped p : Nat} (seg : PtLoad) (huser : mapped + seg.memsz ≤ 2 ^ 47)
    (hp : seg.Occupies mapped p) : p < 2 ^ 35 := by
  have hlt := hp.2
  simp only [pageSize] at *
  omega

namespace Phys

/-! ## The code -/

/-- `alloc_user_pml4`: the upper half of the kernel's top-level table,
entries 256 to 511, is copied. -/
def allocUserPml4 (m : Phys) : Option (Nat × Phys) := do
  let (userPml4, m) ← m.allocTable
  some (userPml4, m.copyPhys (addrOf m.kernelCr3 + 8 * 256) (userPml4 + 8 * 256) (8 * 256))

/-- The copy of one page of a segment that is mapped from `mapped` on. -/
def copyPage (data : List UInt8) (mapped : Nat) (seg : PtLoad) (m : Phys) (phys vpage : Nat) : Option Phys := do
  let pageOff := vpage - addrOf mapped
  let srcStart ← addU64 seg.offset pageOff
  let srcEnd ← addU64 srcStart pageSize
  let fileEnd ← addU64 seg.offset seg.filesz
  let copyEnd := min (min srcEnd fileEnd) data.length
  some (if srcStart < copyEnd then m.copyIn data srcStart (phys + (mapped - vpage)) (copyEnd - srcStart) else m)

/-- One turn of the page loop. `none`: out of memory or overflow. -/
def loadPage (root : Nat) (data : List UInt8) (mapped : Nat) (seg : PtLoad) (m : Phys) (vpage : Nat) : Option Phys := do
  let (phys, m) ← m.alloc
  let m ← copyPage data mapped seg (m.zeroPage phys) phys vpage
  m.map4k root vpage phys (pteUser ||| pteWritable)

/-- One segment: the pages from the one `mapped` lies in. -/
def loadSegment (root base : Nat) (data : List UInt8) (m : Phys) (seg : PtLoad) : Option Phys := do
  let mapped ← addU64 base seg.vaddr
  let last ← addU64 mapped seg.memsz
  let last ← addU64 last 0xFFF
  let pages := (addrOf last - addrOf mapped) / pageSize
  (List.range pages).foldlM (fun m i => loadPage root data mapped seg m (addrOf mapped + i * pageSize)) m

/-- The stack pages, the topmost first; they are mapped as they are. The
frame of the topmost one is returned. -/
def mapStack (m : Phys) (root : Nat) : Option (Nat × Phys) :=
  (List.range userStackPages).foldlM (fun (stackTopPhys, m) i => do
    let (phys, m) ← m.alloc
    let m ← m.map4k root (userStackTop - (i + 1) * pageSize) phys (pteWritable ||| pteUser)
    some (if i = 0 then phys else stackTopPhys, m)) (0, m)

/-- `push!` of each word, from page offset `cur` down. -/
def pushWords (m : Phys) (phys : Nat) : Nat → List Nat → Nat × Phys
  | cur, [] => (cur, m)
  | cur, v :: vs => pushWords (m.put (phys + (cur - 8)) 8 (ByteMem.leByte v)) phys (cur - 8) vs

/-- The initial stack contents: the program name, the auxiliary vector from
its end, the ends of `envp` and `argv`, `argv[0]` and `argc`. -/
def setupStack (m : Phys) (phys top : Nat) (auxv : List Nat) : Nat × Phys :=
  let m := m.copyIn [0x70, 0x72, 0x6F, 0x67, 0] 0 (phys + 4091) 5
  let (cur, m) := m.pushWords phys (4091 / 16 * 16) (auxv ++ [0, 0, top - pageSize + 4091, 1])
  (top - pageSize + cur, m)

/-- The auxiliary vector of `setup_elf_stack`, values before keys. -/
def auxvStatic : List Nat := [0, 0, 100, 17, 4096, 6]

/-- The auxiliary vector of `setup_elf_stack_dyn`. -/
def auxvDyn (phdrVa phent phnum base execEntry : Nat) : List Nat :=
  [0, 0, execEntry, 9, base, 7, phnum, 5, phent, 4, phdrVa, 3, 100, 17, 4096, 6]

/-- What the two loaders share: the new table, the segments from `base` on and the stack. -/
def loadSpace (m : Phys) (data : List UInt8) (base : Nat) (auxv : List Nat) : Option ((Nat × Nat × Nat) × Phys) := do
  let elf ← Elf64.parse data
  let entry ← elf.entry
  let (userCr3, m) ← m.allocUserPml4
  let segs ← elf.loadSegments
  let m ← segs.foldlM (loadSegment userCr3 base data) m
  let (stackTopPhys, m) ← m.mapStack userCr3
  let (userSp, m) := m.setupStack stackTopPhys userStackTop auxv
  some ((userCr3, entry, userSp), m)

/-- `load_elf_into_space`: the new `cr3`, the entry point and the stack pointer. -/
def loadElfIntoSpace (m : Phys) (elfData : List UInt8) : Option ((Nat × Nat × Nat) × Phys) :=
  m.loadSpace elfData 0 auxvStatic

/-- `load_dyn_exec`. -/
def loadDynExec (m : Phys) (elfData : List UInt8) (baseAddr phdrVa phent phnum execEntry finalEntry : Nat) :
    Option ((Nat × Nat × Nat) × Phys) :=
  (m.loadSpace elfData baseAddr (auxvDyn phdrVa phent phnum baseAddr execEntry)).map
    fun ((cr3, _, userSp), m) => ((cr3, finalEntry, userSp), m)

/-- The byte a user address shows. -/
def userByte (m : Phys) (root va : Nat) : Option UInt8 := (m.virtToPhys root va).map m.bytes

/-! ## A space under construction -/

/-- The top-level indices of the user half. -/
def userHalf (i : Nat) : Prop := i < 256

theorem userHalf_of_lt {va : Nat} (h : va < 2 ^ 47) : userHalf (idx 39 va) := by
  simp only [userHalf, idx]
  omega

/-- A call that began in `m₀` fills the space at `root`, whose tables and
pages it has allocated itself; the pages' frames are `D`. -/
structure Loading (k : Nat) (m₀ : Phys) (root : Nat) (D : Nat → Prop) (m : Phys) : Prop where
  tree : PageTree userHalf D m root
  within : Within k (fun _ => False) m₀ m
  own : ∀ {f}, tables userHalf m root f → Owned m₀ m f
  data : ∀ {f}, D f → Owned m₀ m f
  kernelHalf : addrOf m₀.kernelCr3 / pageSize ∉ m₀.free → ∀ {i}, 256 ≤ i → i < 512 →
    m.entry root i = m₀.entry (addrOf m₀.kernelCr3) i

variable {k : Nat} {D : Nat → Prop} {m₀ m m' m₁ m₂ m₃ : Phys} {root va f flags phys : Nat}

theorem allocUserPml4_cases (h : m₀.allocUserPml4 = some (root, m)) : ∃ f m₁, root = f * pageSize ∧ m₀.Allocs f m₁ ∧
    m = (m₁.zeroPage root).copyPhys (addrOf m₀.kernelCr3 + 8 * 256) (root + 8 * 256) (8 * 256) := by
  simp only [allocUserPml4, allocTable, Option.bind_eq_bind, Option.bind_eq_some_iff, Option.some.injEq, Prod.exists,
    Prod.mk.injEq] at h
  obtain ⟨t, m₂, ⟨phys, m₁, ha, rfl, rfl⟩, rfl, rfl⟩ := h
  obtain ⟨f, hf, hal⟩ := alloc_cases ha
  refine ⟨f, m₁, hf, hal, ?_⟩
  rw [show (m₁.zeroPage phys).kernelCr3 = m₀.kernelCr3 from hal.kernelCr3]

/-- The user half of a new table is empty. -/
theorem allocUserPml4_entry {i : Nat} (h : m₀.allocUserPml4 = some (root, m)) (hi : i < 256) : m.entry root i = 0 := by
  obtain ⟨f, m₁, -, hal, rfl⟩ := allocUserPml4_cases h
  refine ByteMem.le_zero fun x hx hx' => ?_
  rw [show (Phys.copyPhys _ _ _ _).bytes x = (m₁.zeroPage root).bytes x from put_outside (by omega)]
  obtain ⟨j, rfl⟩ : ∃ j, x = root + j := ⟨x - root, by omega⟩
  exact put_inside (by simp only [pageSize]; omega)

theorem Loading.start (h : m₀.allocUserPml4 = some (root, m)) : Loading k m₀ root (fun _ => False) m := by
  have hzero : ∀ i < 256, m.entry root i = 0 := fun i hi => allocUserPml4_entry h hi
  obtain ⟨f, m₁, hroot, hal, rfl⟩ := allocUserPml4_cases h
  have hrootal : root % pageSize = 0 := by rw [hroot]; exact Nat.mul_mod_left _ _
  have hdiv : root / pageSize = f := by rw [hroot]; exact Nat.mul_div_cancel _ (by decide)
  have hfree : m₁.free = m₀.free.erase f := hal.free
  have hown : Owned m₀ m₁ f := hal.owned
  have hframe : ∀ x, root ≤ x → x < root + pageSize → x / pageSize = f := by
    intro x hx hx'
    simp only [pageSize] at *
    omega
  generalize hm : (m₁.zeroPage root).copyPhys (addrOf m₀.kernelCr3 + 8 * 256) (root + 8 * 256) (8 * 256) = m at hzero
  have htree : PageTree userHalf (fun _ => False) m root := by
    refine pageTree_empty hrootal ⟨?_, not_false⟩ (fun h => False.elim h) fun i _ hi => ?_
    · rw [hdiv, ← hm]
      exact hown.2
    · rw [hzero i hi]
      rfl
  refine ⟨htree, ?_, fun {g} hg => ?_, False.elim, fun hk {i} hi hi' => ?_⟩
  · have hfill : Within k (fun _ => False) m₀ (m₁.zeroPage root) := hroot ▸ (Within.refl k _ m₀).fill hal
    rw [← hm]
    refine hfill.put fun x hx hx' => .inr ?_
    rw [hframe x (by omega) (by simp only [pageSize]; omega)]
    exact hown
  · -- Only the root is there so far.
    obtain ⟨q, v, hq, hv, rfl⟩ := hg
    cases q with
    | nil =>
      cases hv
      rw [hdiv, ← hm]
      exact hown
    | cons j q =>
      have hj : userHalf j := hq.2.2 j rfl
      have hnone : child (m.entry root j) = none := by rw [hzero j hj]; rfl
      rw [node, Radix.node, hnone] at hv
      cases hv
  · refine ByteMem.le_of_bytes_eq fun j hj => ?_
    have hx : root + 8 * i + j = root + 8 * 256 + (8 * (i - 256) + j) := by omega
    rw [← hm, hx, show (Phys.copyPhys _ _ _ _).bytes _ = _ from put_inside (by omega),
      show addrOf m₀.kernelCr3 + 8 * 256 + (8 * (i - 256) + j) = addrOf m₀.kernelCr3 + 8 * i + j by omega]
    -- The kernel's table is in use, so it is not the new one.
    have hne : addrOf m₀.kernelCr3 / pageSize ≠ f := fun he => hk (he ▸ hal.mem)
    have hkal := addrOf_mod m₀.kernelCr3
    rw [show (m₁.zeroPage root).bytes _ = m₁.bytes _ from put_outside ?_, hal.bytes]
    simp only [pageSize] at *
    omega

/-- The next page of the space: its frame `f` has been allocated and filled,
and what was filled lies above everything the call has used so far. -/
theorem Loading.page (hL : Loading k m₀ root D m) (hal : m.Allocs f m₁) (hw : Within k (fun _ => False) m₀ m₂)
    (hfree : m₂.free = m₁.free) (hb : ∀ x, x / pageSize < f → m₂.bytes x = m.bytes x) (hva : userHalf (idx 39 va))
    (hflags : flags < pageSize) (h : m₂.map4k root va (f * pageSize) flags = some m₃) :
    Loading k m₀ root (fun g => g = f ∨ D g) m₃ ∧
      (∀ {va'}, userHalf (idx 39 va') → m₃.pte root va' =
        if pageOf va' = pageOf va then some (f * pageSize ||| flags ||| ptePresent) else m.pte root va') ∧
      (∀ {x}, x / pageSize = f → m₃.bytes x = m₂.bytes x) ∧ (∀ {x}, D (x / pageSize) → m₃.bytes x = m.bytes x) := by
  have hfree₂ : m₂.free = m.free.erase f := hfree.trans hal.free
  have hsub : m₂.free ⊆ m.free := by rw [hfree₂]; exact Finset.erase_subset _ _
  have hf₂ : f ∉ m₂.free := by rw [hfree₂]; exact Finset.notMem_erase _ _
  have hup : ∀ {g}, Owned m₀ m g → Owned m₀ m₂ g := fun ho => ⟨ho.1, fun hg => ho.2 (hsub hg)⟩
  have hlow : ∀ {g}, Owned m₀ m g → g < f := fun ho => hL.within.low ho hal.mem
  obtain ⟨hsame, htree⟩ := hL.tree.alloc hal hfree fun x hx => hb x (hlow (hL.own hx))
  have hM := map4k_spec htree hva hal.frame_lt hflags h
  rw [addrOf_eq (Nat.mul_mod_left _ _)] at hM
  have hkeep : ∀ {x}, x / pageSize = f ∨ D (x / pageSize) → m₃.bytes x = m₂.bytes x := by
    intro x hx
    refine hM.within.bytes_eq (fun ht => (htree.used ht).2 hx) fun ho => ?_
    exact htree.data hx ho.1
  have htables : ∀ {g}, tables userHalf m₂ root g → Owned m₀ m₂ g := fun hg => hup (hL.own (hsame.tables_iff.mp hg))
  refine ⟨⟨hM.tree, ?_, fun {g} hg => ?_, fun {g} hg => ?_, fun hk {i} hi hi' => ?_⟩, fun hva' => ?_,
    fun hx => hkeep (.inl hx), fun {x} hx => ?_⟩
  · exact hw.trans hM.within (Nat.zero_le _) fun g hg => .inr (htables hg)
  · rcases hM.enlarges.tables hg with hg | hg
    · exact hM.within.owned_left (htables hg)
    · exact hw.owned_right hg
  · rcases hg with rfl | hD
    · exact hM.within.owned_left ⟨hL.within.free hal.mem, hf₂⟩
    · exact hM.within.owned_left (hup (hL.data hD))
  · have hne : i ≠ idx 39 va := by
      simp only [userHalf] at hva
      omega
    rw [hM.rootEntry hi' fun he => absurd he hne, hsame.entry path_nil hi' rfl, hL.kernelHalf hk hi hi']
  · rw [hM.pte hva', hsame.pte hva']
  · rw [hkeep (.inr hx), hb x (hlow (hL.data hx))]

/-! ## A page of a segment -/

variable {data : List UInt8} {mapped base i : Nat} {seg : PtLoad} {vpage : Nat}

/-- The byte of an image at offset `o` of the page at `vpage`. -/
def imageByte (data : List UInt8) (mapped : Nat) (seg : PtLoad) (vpage o : Nat) : UInt8 :=
  if mapped ≤ vpage + o ∧ vpage + o - mapped < seg.filesz then data.getD (seg.offset + (vpage + o - mapped)) 0 else 0

/-- How many bytes the page `i` of a segment gets, if they are all in the file. -/
def copyLen (seg : PtLoad) (i : Nat) : Nat := min pageSize (seg.filesz - i * pageSize)

theorem copyPage_eq (h : copyPage data mapped seg m phys (addrOf mapped + i * pageSize) = some m') :
    ∃ n ≤ copyLen seg i, (seg.offset + seg.filesz ≤ data.length → n = copyLen seg i) ∧
      m' = if 0 < n then m.copyIn data (seg.offset + i * pageSize) (phys + (mapped % pageSize - i * pageSize)) n
        else m := by
  have hsub : addrOf mapped + i * pageSize - addrOf mapped = i * pageSize := Nat.add_sub_cancel_left _ _
  have hdst : mapped - (addrOf mapped + i * pageSize) = mapped % pageSize - i * pageSize := by
    simp only [addrOf, pageSize]
    omega
  simp only [copyPage, Option.bind_eq_bind, Option.bind_eq_some_iff, addU64_eq_some, Option.some.injEq] at h
  obtain ⟨_, ⟨-, rfl⟩, _, ⟨-, rfl⟩, _, ⟨-, rfl⟩, rfl⟩ := h
  rw [hsub, hdst]
  refine ⟨min (min (seg.offset + i * pageSize + pageSize) (seg.offset + seg.filesz)) data.length -
    (seg.offset + i * pageSize), ?_, fun hin => ?_, by simp only [Nat.sub_pos_iff_lt]⟩
  · rw [copyLen]
    omega
  · rw [Nat.min_eq_left (Nat.le_trans (Nat.min_le_right _ _) hin), copyLen]
    omega

/-- The copy never leaves the next page, and stays in its own if the segment fits. -/
theorem copyLen_le (mapped : Nat) (seg : PtLoad) (i : Nat) :
    mapped % pageSize - i * pageSize + copyLen seg i ≤ 2 * pageSize ∧
      (seg.Fits mapped → mapped % pageSize - i * pageSize + copyLen seg i ≤ pageSize) := by
  have hmod : mapped % pageSize < pageSize := Nat.mod_lt _ (by decide)
  have hlen : copyLen seg i ≤ pageSize := Nat.min_le_left _ _
  have hlen' : copyLen seg i ≤ seg.filesz - i * pageSize := Nat.min_le_right _ _
  refine ⟨by omega, fun h => ?_⟩
  rcases Nat.eq_zero_or_pos i with rfl | hi
  · rcases h with h | h <;> omega
  · have : pageSize ≤ i * pageSize := Nat.le_mul_of_pos_left _ hi
    omega

/-- A page that is copied into a cleared frame shows the image. -/
theorem copyPage_bytes (hin : seg.offset + seg.filesz ≤ data.length) (hfits : seg.Fits mapped)
    (h : copyPage data mapped seg (m.zeroPage phys) phys (addrOf mapped + i * pageSize) = some m') {o : Nat}
    (ho : o < pageSize) : m'.bytes (phys + o) = imageByte data mapped seg (addrOf mapped + i * pageSize) o := by
  have hzero : (m.zeroPage phys).bytes (phys + o) = 0 := put_inside ho
  have hva : addrOf mapped = mapped - mapped % pageSize := by
    simp only [addrOf, pageSize]
    omega
  have hmod : mapped % pageSize < pageSize := Nat.mod_lt _ (by decide)
  have hmodle : mapped % pageSize ≤ mapped := Nat.mod_le _ _
  obtain ⟨n, -, hn, heq⟩ := copyPage_eq h
  rw [heq, hn hin, imageByte, hva]
  -- Page `i` shows the bytes from `i` pages on; the first one may start further in.
  by_cases hcopied : mapped % pageSize - i * pageSize ≤ o ∧ o < mapped % pageSize - i * pageSize + copyLen seg i
  · obtain ⟨j, rfl⟩ : ∃ j, o = mapped % pageSize - i * pageSize + j :=
      ⟨o - (mapped % pageSize - i * pageSize), by omega⟩
    have hj : j < copyLen seg i := by omega
    have hjf : i * pageSize + j < seg.filesz := by
      have := Nat.min_le_right pageSize (seg.filesz - i * pageSize)
      rw [copyLen] at hj
      omega
    have hpos : mapped - mapped % pageSize + i * pageSize + (mapped % pageSize - i * pageSize + j) =
        mapped + (i * pageSize + j) := by
      rcases Nat.eq_zero_or_pos i with rfl | hi
      · omega
      · have hle : pageSize ≤ i * pageSize := Nat.le_mul_of_pos_left _ hi
        have hzero : mapped % pageSize = 0 := hfits.resolve_right fun hend => by omega
        omega
    rw [if_pos (by omega), ← Nat.add_assoc phys, show (Phys.copyIn _ _ _ _ _).bytes _ = _ from put_inside hj, hpos,
      if_pos (by omega), Nat.add_sub_cancel_left, Nat.add_assoc]
  · have hout : ∀ src n, n = copyLen seg i →
        ((m.zeroPage phys).copyIn data src (phys + (mapped % pageSize - i * pageSize)) n).bytes (phys + o) = 0 := by
      intro src n h
      obtain rfl := h
      rw [show (Phys.copyIn _ _ _ _ _).bytes _ = (m.zeroPage phys).bytes (phys + o) from put_outside (by omega), hzero]
    have himage : ¬(mapped ≤ mapped - mapped % pageSize + i * pageSize + o ∧
        mapped - mapped % pageSize + i * pageSize + o - mapped < seg.filesz) := by
      intro hcon
      have hlen : copyLen seg i = min pageSize (seg.filesz - i * pageSize) := rfl
      rcases Nat.eq_zero_or_pos i with rfl | hi
      · omega
      · have hle : pageSize ≤ i * pageSize := Nat.le_mul_of_pos_left _ hi
        rcases hfits with hstart | hend <;> omega
    rw [if_neg himage]
    split
    · exact hout _ _ rfl
    · exact hzero

/-! ## Filling the space -/

/-- Pages of `P` were added; their frames are those of `D'` that were not in `D`. -/
structure Filled (k : Nat) (m₀ : Phys) (root : Nat) (D : Nat → Prop) (m : Phys) (P D' : Nat → Prop) (m' : Phys) :
    Prop where
  loading : Loading k m₀ root D' m'
  grows : ∀ {f}, D f → D' f
  pte : ∀ {va}, userHalf (idx 39 va) → ¬P (pageOf va) → m'.pte root va = m.pte root va
  bytes : ∀ {x}, D (x / pageSize) → m'.bytes x = m.bytes x

/-- The page at `va` is mapped to a frame of `D` that holds the bytes `c`. -/
def Shows (D : Nat → Prop) (m : Phys) (root va : Nat) (c : Nat → UInt8) : Prop :=
  ∃ f, D f ∧ m.pte root va = some (f * pageSize ||| (pteUser ||| pteWritable) ||| ptePresent) ∧
    ∀ o < pageSize, m.bytes (f * pageSize + o) = c o

variable {P Q D' D'' : Nat → Prop} {c : Nat → UInt8}

theorem frame_div {o : Nat} (ho : o < pageSize) : (f * pageSize + o) / pageSize = f := by
  simp only [pageSize] at *
  omega

namespace Filled

theorem refl (h : Loading k m₀ root D m) (P : Nat → Prop) : Filled k m₀ root D m P D m :=
  ⟨h, id, fun _ _ => rfl, fun _ => rfl⟩

theorem trans (h : Filled k m₀ root D m P D' m') (h' : Filled k m₀ root D' m' Q D'' m₁)
    (hP : ∀ p, P p → Q p) : Filled k m₀ root D m Q D'' m₁ where
  loading := h'.loading
  grows hf := h'.grows (h.grows hf)
  pte hva hQ := (h'.pte hva hQ).trans (h.pte hva fun hp => hQ (hP _ hp))
  bytes hx := (h'.bytes (h.grows hx)).trans (h.bytes hx)

theorem mono (h : Filled k m₀ root D m P D' m') (hP : ∀ p, P p → Q p) : Filled k m₀ root D m Q D' m' :=
  h.trans (refl h.loading Q) hP

/-- What a page outside `P` shows it goes on to show. -/
theorem shows (h : Filled k m₀ root D m P D' m') (hva : userHalf (idx 39 va)) (hP : ¬P (pageOf va))
    (hs : Shows D m root va c) : Shows D' m' root va c := by
  obtain ⟨f, hf, hpte, hbytes⟩ := hs
  refine ⟨f, h.grows hf, (h.pte hva hP).trans hpte, fun o ho => ?_⟩
  rw [h.bytes ((frame_div ho).symm ▸ hf), hbytes o ho]

end Filled

/-- A page that is filled but not mapped yet: nothing below its frame has changed. -/
theorem Loading.fill (hL : Loading k m₀ root D m) (hk : k = 0 → seg.Fits mapped) (ha : m.alloc = some (phys, m₁))
    (hcopy : copyPage data mapped seg (m₁.zeroPage phys) phys (addrOf mapped + i * pageSize) = some m₂) :
    ∃ f, phys = f * pageSize ∧ m.Allocs f m₁ ∧ Within k (fun _ => False) m₀ m₂ ∧ m₂.free = m₁.free ∧
      ∀ x, x / pageSize < f → m₂.bytes x = m.bytes x := by
  obtain ⟨f, rfl, hal⟩ := alloc_cases ha
  obtain ⟨n, hle, -, heq⟩ := copyPage_eq hcopy
  have hlen := copyLen_le mapped seg i
  have hown : Owned m₀ m₁ f := ⟨hL.within.free hal.mem, hal.owned.2⟩
  have hzeroed : Within k (fun _ => False) m₀ (m₁.zeroPage (f * pageSize)) := hL.within.fill hal
  refine ⟨f, rfl, hal, ?_, ?_, fun x hx => ?_⟩
  · -- What is copied runs into the next frame at most, and not even there if the segment fits.
    rw [heq]
    split
    · refine hzeroed.putNear hown fun x hx hx' => ?_
      rcases Nat.eq_zero_or_pos k with rfl | hpos
      · have := hlen.2 (hk rfl)
        simp only [pageSize] at *
        omega
      · have := hlen.1
        simp only [pageSize] at *
        omega
    · exact hzeroed
  · rw [heq]
    split <;> rfl
  · have hlt : x < f * pageSize := by
      simp only [pageSize] at *
      omega
    have hz : (m₁.zeroPage (f * pageSize)).bytes x = m.bytes x := hal.zeroPage_bytes (by
      simp only [pageSize] at *
      omega)
    rw [heq]
    split
    · exact (put_outside (by omega)).trans hz
    · exact hz

/-- One turn of the page loop. -/
theorem Loading.loadPage (hL : Loading k m₀ root D m) (hk : k = 0 → seg.Fits mapped)
    (hva : userHalf (idx 39 (addrOf mapped + i * pageSize)))
    (h : m.loadPage root data mapped seg (addrOf mapped + i * pageSize) = some m') :
    ∃ D', Filled k m₀ root D m (· = pageOf (addrOf mapped + i * pageSize)) D' m' ∧
      (k = 0 → seg.offset + seg.filesz ≤ data.length →
        Shows D' m' root (addrOf mapped + i * pageSize)
          (imageByte data mapped seg (addrOf mapped + i * pageSize))) := by
  simp only [Phys.loadPage, Option.bind_eq_bind, Option.bind_eq_some_iff, Prod.exists] at h
  obtain ⟨phys, m₁, ha, m₂, hcopy, hmap⟩ := h
  obtain ⟨f, rfl, hal, hw, hfree, hbelow⟩ := hL.fill hk ha hcopy
  obtain ⟨hload, hpte, hnew, hold⟩ := hL.page hal hw hfree hbelow hva (by decide) hmap
  refine ⟨_, ⟨hload, fun hf => .inr hf, fun hva' hne => (hpte hva').trans (if_neg hne), hold⟩, fun hk0 hin => ?_⟩
  refine ⟨f, .inl rfl, (hpte hva).trans (if_pos rfl), fun o ho => ?_⟩
  rw [hnew (frame_div ho), copyPage_bytes hin (hk hk0) hcopy ho]

/-- A page number of the user half, and the address it stands for. -/
theorem page_user {p : Nat} (hp : p < 2 ^ 35) :
    userHalf (idx 39 (p * pageSize)) ∧ pageOf (p * pageSize) = p := by
  simp only [userHalf, idx, pageOf, pageSize]
  omega

/-- All pages of a segment. -/
theorem Loading.loadSegment (hL : Loading k m₀ root D m) (hk : k = 0 → seg.Fits (base + seg.vaddr))
    (huser : base + seg.vaddr + seg.memsz ≤ 2 ^ 47) (h : m.loadSegment root base data seg = some m') :
    ∃ D', Filled k m₀ root D m (seg.Occupies (base + seg.vaddr)) D' m' ∧
      (k = 0 → seg.offset + seg.filesz ≤ data.length → ∀ p, seg.Occupies (base + seg.vaddr) p →
        Shows D' m' root (p * pageSize) (imageByte data (base + seg.vaddr) seg (p * pageSize))) := by
  simp only [Phys.loadSegment, Option.bind_eq_bind, Option.bind_eq_some_iff, addU64_eq_some] at h
  obtain ⟨mapped, ⟨-, hmapped⟩, _, ⟨-, rfl⟩, _, ⟨-, rfl⟩, h⟩ := h
  rw [hmapped] at hk huser ⊢
  have hpages : (addrOf (mapped + seg.memsz + 0xFFF) - addrOf mapped) / pageSize =
      (mapped + seg.memsz + 0xFFF) / pageSize - mapped / pageSize := by
    rw [addrOf, addrOf, ← Nat.sub_mul, Nat.mul_div_cancel _ (by decide)]
  have hstart : ∀ j, addrOf mapped + j * pageSize = (mapped / pageSize + j) * pageSize := fun j =>
    (Nat.add_mul _ _ _).symm
  rw [hpages] at h
  generalize hn : (mapped + seg.memsz + 0xFFF) / pageSize - mapped / pageSize = n at h
  have hsmall : ∀ j < n, mapped / pageSize + j < 2 ^ 35 := by
    intro j hj
    simp only [pageSize] at *
    omega
  -- The pages done so far show the image, and nothing outside them has changed.
  have hloop := Loop.invariant_range (fun i m' => ∃ D',
    Filled k m₀ root D m (fun p => mapped / pageSize ≤ p ∧ p < mapped / pageSize + i) D' m' ∧
      (k = 0 → seg.offset + seg.filesz ≤ data.length → ∀ j < i,
        Shows D' m' root ((mapped / pageSize + j) * pageSize)
          (imageByte data mapped seg ((mapped / pageSize + j) * pageSize)))) h
    ⟨D, .refl hL _, fun _ _ j hj => absurd hj (Nat.not_lt_zero j)⟩ fun {i s s'} hi hI hstep => ?_
  · obtain ⟨D', hfill, hshow⟩ := hloop
    refine ⟨D', hfill.mono fun p hp => ⟨hp.1, by omega⟩, fun hk0 hin p hp => ?_⟩
    obtain ⟨j, rfl⟩ : ∃ j, p = mapped / pageSize + j := ⟨p - mapped / pageSize, by have := hp.1; omega⟩
    refine hshow hk0 hin j ?_
    have := hp.2
    omega
  · obtain ⟨D', hfill, hshow⟩ := hI
    obtain ⟨hhalf, hpage⟩ := page_user (hsmall i hi)
    obtain ⟨D'', hfill', hshow'⟩ := hfill.loading.loadPage hk (by rw [hstart]; exact hhalf) hstep
    rw [hstart, hpage] at hfill'
    rw [hstart] at hshow'
    refine ⟨D'', (hfill.mono fun p hp => ⟨hp.1, by omega⟩).trans (hfill'.mono fun p hp => ⟨by omega, by omega⟩)
      fun p hp => hp, fun hk0 hin j hj => ?_⟩
    rcases Nat.lt_succ_iff_lt_or_eq.mp hj with hj | rfl
    · obtain ⟨hhalf', hpage'⟩ := page_user (hsmall j (by omega))
      exact hfill'.shows hhalf' (by rw [hpage']; omega) (hshow hk0 hin j hj)
    · exact hshow' hk0 hin

/-- All segments. They show if they are in the file and on pages of their own. -/
theorem Loading.loadSegments {segs : List PtLoad} (hL : Loading k m₀ root D m)
    (hk : k = 0 → ∀ seg ∈ segs, seg.Fits (base + seg.vaddr))
    (huser : ∀ seg ∈ segs, base + seg.vaddr + seg.memsz ≤ 2 ^ 47)
    (h : segs.foldlM (Phys.loadSegment root base data) m = some m') :
    ∃ D', Filled k m₀ root D m (fun p => ∃ seg ∈ segs, seg.Occupies (base + seg.vaddr) p) D' m' ∧
      (k = 0 → Layout data base segs → ∀ seg ∈ segs, ∀ p, seg.Occupies (base + seg.vaddr) p →
        Shows D' m' root (p * pageSize) (imageByte data (base + seg.vaddr) seg (p * pageSize))) := by
  refine Loop.invariant (fun done m' => ∃ D',
    Filled k m₀ root D m (fun p => ∃ seg ∈ done, seg.Occupies (base + seg.vaddr) p) D' m' ∧
      (k = 0 → Layout data base segs → ∀ seg ∈ done, ∀ p, seg.Occupies (base + seg.vaddr) p →
        Shows D' m' root (p * pageSize) (imageByte data (base + seg.vaddr) seg (p * pageSize)))) h
    ⟨D, .refl hL _, fun _ _ _ hseg => absurd hseg List.not_mem_nil⟩ fun {done seg rest s s'} hl hI hstep => ?_
  obtain ⟨D', hfill, hshow⟩ := hI
  have hmem : ∀ {seg'}, seg' ∈ done ++ [seg] → seg' ∈ segs := by
    intro seg' hseg'
    rw [hl, List.append_cons]
    exact List.mem_append.mpr (.inl hseg')
  have hlast : seg ∈ segs := hmem (List.mem_append.mpr (.inr (List.mem_singleton_self _)))
  obtain ⟨D'', hfill', hshow'⟩ := hfill.loading.loadSegment (fun hk0 => hk hk0 seg hlast) (huser seg hlast) hstep
  refine ⟨D'', (hfill.mono ?_).trans (hfill'.mono ?_) fun p hp => hp, fun hk0 hlay seg' hseg' p hp => ?_⟩
  · intro p ⟨seg', hseg', hp⟩
    exact ⟨seg', List.mem_append.mpr (.inl hseg'), hp⟩
  · exact fun p hp => ⟨seg, List.mem_append.mpr (.inr (List.mem_singleton_self _)), hp⟩
  · rcases List.mem_append.mp hseg' with hd | hs
    · -- An earlier segment: the new one has none of its pages.
      obtain ⟨hhalf, hpage⟩ := page_user (seg'.occupies_lt (huser seg' (hmem hseg')) hp)
      refine hfill'.shows hhalf ?_ (hshow hk0 hlay seg' hd p hp)
      have hdisj := hlay.disjoint
      rw [hl, List.pairwise_append] at hdisj
      rw [hpage]
      exact hdisj.2.2 seg' hd seg List.mem_cons_self p hp
    · cases List.mem_singleton.mp hs
      exact hshow' hk0 (hlay.placed _ hlast).inFile p hp

/-! ## The stack -/

/-- A write in a data frame leaves the tables and the other frames. -/
theorem Loading.put {addr len : Nat} {g : Nat → UInt8} (hL : Loading k m₀ root D m) (hf : D f)
    (hin : ∀ x, addr ≤ x → x < addr + len → x / pageSize = f) : Loading k m₀ root D (m.put addr len g) := by
  have hsame : SameTables userHalf m root (m.put addr len g) := hL.tree.sameTables_put hf hin
  refine ⟨hsame.tree hL.tree hL.tree.used hL.tree.data, hL.within.put fun x hx hx' => .inr ?_,
    fun hg => hL.own (hsame.tables_iff.mp hg), hL.data, fun hk {i} hi hi' => ?_⟩
  · rw [hin x hx hx']
    exact hL.data hf
  · rw [hsame.entry path_nil hi' rfl, hL.kernelHalf hk hi hi']

/-- The same for a frame that came after those of `D`. -/
theorem Filled.put {addr len : Nat} {g : Nat → UInt8} (h : Filled k m₀ root D m P D' m') (hf : D' f) (hnew : ¬D f)
    (hin : ∀ x, addr ≤ x → x < addr + len → x / pageSize = f) :
    Filled k m₀ root D m P D' (m'.put addr len g) := by
  have hsame : SameTables userHalf m' root (m'.put addr len g) := h.loading.tree.sameTables_put hf hin
  refine ⟨h.loading.put hf hin, h.grows, fun hva hP => (hsame.pte hva).trans (h.pte hva hP), fun {x} hx => ?_⟩
  rw [put_frame hin fun he => hnew (he ▸ hx), h.bytes hx]

theorem Filled.pushWords {vs : List Nat} {cur : Nat} (h : Filled k m₀ root D m P D' m') (hf : D' f) (hnew : ¬D f)
    (hcur : cur ≤ pageSize) : Filled k m₀ root D m P D' (m'.pushWords (f * pageSize) cur vs).2 := by
  induction vs generalizing cur m' with
  | nil => exact h
  | cons v vs ih =>
    refine ih (h.put hf hnew fun x hx hx' => ?_) (by omega)
    simp only [pageSize] at *
    omega

theorem Filled.setupStack (top : Nat) (auxv : List Nat) (h : Filled k m₀ root D m P D' m') (hf : D' f)
    (hnew : ¬D f) : Filled k m₀ root D m P D' (m'.setupStack (f * pageSize) top auxv).2 := by
  refine (h.put hf hnew fun x hx hx' => ?_).pushWords hf hnew (by decide)
  simp only [pageSize] at *
  omega

/-- The stack is mapped under its top, and the frame of its topmost page is new. -/
theorem Loading.mapStack {top : Nat} (hL : Loading k m₀ root D m) (h : m.mapStack root = some (top, m')) :
    ∃ D', Filled k m₀ root D m (fun p => 252 ≤ p ∧ p < 256) D' m' ∧ ∃ f, top = f * pageSize ∧ D' f ∧ ¬D f := by
  have hloop := Loop.invariant_range (fun i (s : Nat × Phys) => ∃ D',
    Filled k m₀ root D m (fun p => 256 - i ≤ p ∧ p < 256) D' s.2 ∧
      (0 < i → ∃ f, s.1 = f * pageSize ∧ D' f ∧ ¬D f)) h ⟨D, .refl hL _, fun hi => absurd hi (Nat.lt_irrefl 0)⟩
    fun {i s s'} hi hI hstep => ?_
  · obtain ⟨D', hfill, htop⟩ := hloop
    exact ⟨D', hfill, htop (by decide)⟩
  · obtain ⟨D', hfill, htop⟩ := hI
    obtain ⟨top, m₁⟩ := s
    simp only [Option.bind_eq_bind, Option.bind_eq_some_iff, Option.some.injEq, Prod.exists] at hstep
    obtain ⟨phys, m₂, ha, m₃, hmap, rfl⟩ := hstep
    obtain ⟨f, rfl, hal⟩ := alloc_cases ha
    have hva : userStackTop - (i + 1) * pageSize = (255 - i) * pageSize := by
      simp only [userStackTop, userStackPages, pageSize] at *
      omega
    rw [hva] at hmap
    obtain ⟨hhalf, hpage⟩ := page_user (p := 255 - i) (by omega)
    obtain ⟨hload, hpte, -, hold⟩ := hfill.loading.page hal (hfill.loading.within.allocs hal) rfl
      (fun x _ => congrFun hal.bytes x) hhalf (by decide) hmap
    have hnew : ¬D f := fun hD => hfill.loading.tree.data (hfill.grows hD) hal.mem
    have hstep : Filled k m₀ root D' m₁ (· = 255 - i) (fun g => g = f ∨ D' g) m₃ :=
      ⟨hload, .inr, fun hva' hne => (hpte hva').trans (if_neg (by rw [hpage]; exact hne)), hold⟩
    refine ⟨_, (hfill.mono fun p hp => ?_).trans (hstep.mono fun p hp => ?_) fun p hp => hp, fun _ => ?_⟩
    · exact ⟨by omega, hp.2⟩
    · simp only [userStackPages] at hi
      omega
    · rcases Nat.eq_zero_or_pos i with rfl | hpos
      · exact ⟨f, rfl, .inl rfl, hnew⟩
      · obtain ⟨g, hg, hD', hD⟩ := htop hpos
        exact ⟨g, (if_neg (Nat.ne_of_gt hpos)).trans hg, .inr hD', hD⟩

/-! ## The whole call -/

variable {segs : List PtLoad} {auxv : List Nat} {entry sp : Nat} {elf : Elf64}

theorem loadSpace_cases (hparse : Elf64.parse data = some elf) (hsegs : elf.loadSegments = some segs)
    (h : m₀.loadSpace data base auxv = some ((root, entry, sp), m')) :
    ∃ m₁ m₂ m₃ top, m₀.allocUserPml4 = some (root, m₁) ∧ segs.foldlM (Phys.loadSegment root base data) m₁ = some m₂ ∧
      m₂.mapStack root = some (top, m₃) ∧ m' = (m₃.setupStack top userStackTop auxv).2 := by
  simp only [loadSpace, hparse, hsegs, Option.bind_eq_bind, Option.bind_some, Option.bind_eq_some_iff,
    Option.some.injEq, Prod.exists, Prod.mk.injEq] at h
  obtain ⟨_, -, _, m₁, hroot, m₂, hload, top, m₃, hstack, ⟨rfl, -, -⟩, rfl⟩ := h
  exact ⟨m₁, m₂, m₃, top, hroot, hload, hstack, rfl⟩

theorem loadSpace_parses (h : m₀.loadSpace data base auxv = some ((root, entry, sp), m')) :
    ∃ elf segs, Elf64.parse data = some elf ∧ elf.loadSegments = some segs := by
  simp only [loadSpace, Option.bind_eq_bind, Option.bind_eq_some_iff, Prod.exists] at h
  obtain ⟨elf, hparse, _, -, _, _, -, segs, hsegs, -⟩ := h
  exact ⟨elf, segs, hparse, hsegs⟩

/-- If every segment fits, the call keeps to frames of its own; and the new
space shows the segments if they are laid out properly. -/
theorem loadSpace_loading (hparse : Elf64.parse data = some elf) (hsegs : elf.loadSegments = some segs)
    (huser : ∀ seg ∈ segs, base + seg.vaddr + seg.memsz ≤ 2 ^ 47) (hfits : ∀ seg ∈ segs, seg.Fits (base + seg.vaddr))
    (h : m₀.loadSpace data base auxv = some ((root, entry, sp), m')) :
    ∃ D, Loading 0 m₀ root D m' ∧ (Layout data base segs → ∀ seg ∈ segs, ∀ p, seg.Occupies (base + seg.vaddr) p →
      Shows D m' root (p * pageSize) (imageByte data (base + seg.vaddr) seg (p * pageSize))) := by
  obtain ⟨m₁, m₂, m₃, top, hroot, hload, hstack, rfl⟩ := loadSpace_cases hparse hsegs h
  obtain ⟨D₂, hfill, hshow⟩ := (Loading.start (k := 0) hroot).loadSegments (fun _ => hfits) huser hload
  obtain ⟨D₃, hfill', f, rfl, hf, hnew⟩ := hfill.loading.mapStack hstack
  have hfinal := hfill'.setupStack userStackTop auxv hf hnew
  refine ⟨D₃, hfinal.loading, fun hlay seg hseg p hp => ?_⟩
  obtain ⟨hhalf, hpage⟩ := page_user (seg.occupies_lt (huser seg hseg) hp)
  exact hfinal.shows hhalf (by rw [hpage]; exact hlay.stack seg hseg p hp) (hshow rfl hlay seg hseg p hp)

theorem Shows.userByte {p o : Nat} (hs : Shows D m root (p * pageSize) c) (hT : PageTree userHalf D m root)
    (hp : p < 2 ^ 35) (ho : o < pageSize) : m.userByte root (p * pageSize + o) = some (c o) := by
  obtain ⟨f, -, hpte, hbytes⟩ := hs
  have hva : pageOf (p * pageSize + o) = pageOf (p * pageSize) ∧ (p * pageSize + o) % pageSize = o := by
    simp only [pageOf, pageSize] at *
    omega
  have hhalf : userHalf (idx 39 (p * pageSize + o)) := by
    refine userHalf_of_lt ?_
    simp only [pageSize] at *
    omega
  rw [Phys.userByte, hT.virtToPhys_eq hhalf, pte_congr hva.1, hpte, Option.map_some, Option.map_some, hva.2,
    Nat.or_assoc, addrOf_lor (Nat.mul_mod_left _ _) (by decide), hbytes o ho]

/-! ## Writes of a call in frames of its own -/

/-- Every write since `m₀` went to a frame that had been allocated since `m₀`. -/
def OwnWrites (m₀ m : Phys) : Prop := ∃ es, m.log = m₀.log ++ es ∧ WritesIn (fun _ => False) es

theorem Loading.ownWrites (h : Loading 0 m₀ root D m) : OwnWrites m₀ m := by
  obtain ⟨es, hlog, -, hw⟩ := h.within.log
  exact ⟨es, hlog, hw rfl⟩

/-- A call whose writes are all in its frames was so halfway. -/
theorem OwnWrites.before (h : OwnWrites m₀ m') (hm : m₀.log <+: m.log) (hm' : m.log <+: m'.log) : OwnWrites m₀ m := by
  obtain ⟨es, hlog, hw⟩ := h
  obtain ⟨es₁, hlog₁⟩ := hm
  obtain ⟨es₂, hlog₂⟩ := hm'
  have hes : es = es₁ ++ es₂ := by
    rw [← hlog₁, hlog, List.append_assoc] at hlog₂
    exact (List.append_cancel_left hlog₂).symm
  rw [hes] at hw
  exact ⟨es₁, hlog₁.symm, (writesIn_append.mp hw).1⟩

theorem log_alloc (h : m.alloc = some (phys, m')) : m.log <+: m'.log := by
  obtain ⟨f, -, hal⟩ := alloc_cases h
  exact ⟨_, hal.log.symm⟩

theorem log_getOrCreate {t u : Nat} (h : m.getOrCreate t i flags = some (u, m')) : m.log <+: m'.log := by
  simp only [getOrCreate, Option.map_eq_some_iff, Prod.mk.injEq] at h
  obtain ⟨m₁, h, -, rfl⟩ := h
  split at h
  · cases h
    exact List.prefix_rfl
  · simp only [allocTable, Option.bind_eq_bind, Option.map_eq_some_iff, Option.bind_eq_some_iff, Option.some.injEq,
      Prod.exists, Prod.mk.injEq] at h
    obtain ⟨_, _, ⟨_, _, ha, rfl, rfl⟩, rfl⟩ := h
    exact ((log_alloc ha).trans ⟨_, rfl⟩).trans ⟨_, rfl⟩

theorem log_map4k {pa : Nat} (h : m.map4k root va pa flags = some m') : m.log <+: m'.log := by
  simp only [map4k, Option.bind_eq_bind, Option.bind_eq_some_iff, Option.some.injEq, Prod.exists] at h
  obtain ⟨_, m₁, h₁, _, m₂, h₂, _, m₃, h₃, rfl⟩ := h
  exact (((log_getOrCreate h₁).trans (log_getOrCreate h₂)).trans (log_getOrCreate h₃)).trans ⟨_, rfl⟩

theorem log_copyPage (h : copyPage data mapped seg m phys vpage = some m') : m.log <+: m'.log := by
  simp only [copyPage, Option.bind_eq_bind, Option.bind_eq_some_iff, Option.some.injEq] at h
  obtain ⟨_, -, _, -, _, -, rfl⟩ := h
  split
  · exact ⟨_, rfl⟩
  · exact List.prefix_rfl

theorem log_loadPage (h : m.loadPage root data mapped seg vpage = some m') : m.log <+: m'.log := by
  simp only [Phys.loadPage, Option.bind_eq_bind, Option.bind_eq_some_iff, Prod.exists] at h
  obtain ⟨_, m₁, ha, m₂, hcopy, hmap⟩ := h
  exact (((log_alloc ha).trans ⟨_, rfl⟩).trans (log_copyPage hcopy)).trans (log_map4k hmap)

theorem log_foldlM {α σ : Type} {f : σ → α → Option σ} (proj : σ → Phys) {l : List α} {s s' : σ}
    (h : l.foldlM f s = some s') (hf : ∀ {s x s'}, f s x = some s' → (proj s).log <+: (proj s').log) :
    (proj s).log <+: (proj s').log :=
  Loop.invariant (fun _ s' => (proj s).log <+: (proj s').log) h List.prefix_rfl fun _ hI hstep => hI.trans (hf hstep)

theorem log_loadSegment (h : m.loadSegment root base data seg = some m') : m.log <+: m'.log := by
  simp only [Phys.loadSegment, Option.bind_eq_bind, Option.bind_eq_some_iff] at h
  obtain ⟨_, -, _, -, _, -, h⟩ := h
  exact log_foldlM id h fun hstep => log_loadPage hstep

theorem log_mapStack {top : Nat} (h : m.mapStack root = some (top, m')) : m.log <+: m'.log := by
  refine log_foldlM Prod.snd h fun {s i s'} hstep => ?_
  simp only [Option.bind_eq_bind, Option.bind_eq_some_iff, Option.some.injEq, Prod.exists] at hstep
  obtain ⟨_, _, ha, _, hmap, rfl⟩ := hstep
  exact (log_alloc ha).trans (log_map4k hmap)

theorem log_pushWords {vs : List Nat} {cur : Nat} : m.log <+: (m.pushWords phys cur vs).2.log := by
  induction vs generalizing m cur with
  | nil => exact List.prefix_rfl
  | cons v vs ih => exact List.IsPrefix.trans (⟨_, rfl⟩ : m.log <+: (m.put (phys + (cur - 8)) 8 _).log) ih

/-- A segment that does not fit runs over the end of its first frame, into
a frame the call does not have: its frames are allocated lowest first. -/
theorem Loading.overrun (hL : Loading 1 m₀ root D m) (hin : seg.offset + seg.filesz ≤ data.length)
    (hnot : ¬seg.Fits mapped) (h : m.loadPage root data mapped seg (addrOf mapped + 0 * pageSize) = some m') :
    ¬OwnWrites m₀ m' := by
  simp only [Phys.loadPage, Option.bind_eq_bind, Option.bind_eq_some_iff, Prod.exists] at h
  obtain ⟨phys, m₁, ha, m₂, hcopy, hmap⟩ := h
  obtain ⟨f, rfl, hal⟩ := alloc_cases ha
  have hlen : pageSize < mapped % pageSize + copyLen seg 0 := by
    have hmod : mapped % pageSize < pageSize := Nat.mod_lt _ (by decide)
    simp only [PtLoad.Fits, not_or] at hnot
    rw [copyLen]
    omega
  obtain ⟨n, -, hn, heq⟩ := copyPage_eq hcopy
  rw [hn hin, if_pos (by have := Nat.mod_lt mapped (show 0 < pageSize by decide); omega)] at heq
  have hw : Within 1 (fun _ => False) m₀ (m₁.zeroPage (f * pageSize)) := hL.within.fill hal
  obtain ⟨es, hlog, hes, -⟩ := hw.log
  intro hOwn
  -- The copy itself is the write that goes wrong.
  have hOwn₂ : OwnWrites m₀ m₂ := by
    refine hOwn.before ?_ (log_map4k hmap)
    rw [heq]
    exact List.IsPrefix.trans ⟨es, hlog.symm⟩ ⟨_, rfl⟩
  obtain ⟨es', hlog', hw'⟩ := hOwn₂
  have hes' : es' = es ++ [.write (f * pageSize + (mapped % pageSize - 0 * pageSize)) (copyLen seg 0)] := by
    rw [heq] at hlog'
    change (m₁.zeroPage (f * pageSize)).log ++ [_] = _ at hlog'
    rw [hlog, List.append_assoc] at hlog'
    exact (List.append_cancel_left hlog').symm
  rw [hes'] at hw'
  have hnext := (writesIn_append.mp hw').2.1 ((f + 1) * pageSize)
  have hdiv : (f + 1) * pageSize / pageSize = f + 1 := Nat.mul_div_cancel _ (by decide)
  rw [hdiv] at hnext
  have hfour : f + 1 ∈ allocated es := by
    refine (hnext ?_ ?_).resolve_right id <;> simp only [Nat.add_mul, pageSize] at * <;> omega
  have hbad : Owned m₀ m (f + 1) := by
    obtain ⟨h₀, h₁⟩ := (hes _).mp hfour
    refine ⟨h₀, fun hmem => h₁ ?_⟩
    change f + 1 ∈ m₁.free
    rw [hal.free]
    exact Finset.mem_erase.mpr ⟨by omega, hmem⟩
  have := hL.within.low hbad hal.mem
  omega

/-- Wherever the segment stands in the image, the call runs over. -/
theorem loadSpace_fits (hparse : Elf64.parse data = some elf) (hsegs : elf.loadSegments = some segs)
    (hlay : Layout data base segs) (h : m₀.loadSpace data base auxv = some ((root, entry, sp), m'))
    (hOwn : OwnWrites m₀ m') : ∀ seg ∈ segs, seg.Fits (base + seg.vaddr) := by
  intro seg hseg
  by_contra hnot
  obtain ⟨m₁, m₂, m₃, top, hroot, hload, hstack, rfl⟩ := loadSpace_cases hparse hsegs h
  obtain ⟨before, rest, s₁, s₂, rfl, hbefore, hthis, hrest⟩ := Loop.reaches hload hseg
  have hplaced := hlay.placed seg hseg
  have hmem : ∀ {seg'}, seg' ∈ before → seg' ∈ before ++ seg :: rest := fun h => List.mem_append.mpr (.inl h)
  obtain ⟨D, hfill, -⟩ := (Loading.start (k := 1) hroot).loadSegments (fun hk => absurd hk (by decide))
    (fun seg' hseg' => (hlay.placed seg' (hmem hseg')).user) hbefore
  have hafter : s₂.log <+: (m₃.setupStack top userStackTop auxv).2.log := by
    have hlater : s₂.log <+: m₂.log := log_foldlM id hrest fun hstep => log_loadSegment hstep
    refine (hlater.trans (log_mapStack hstack)).trans ?_
    exact List.IsPrefix.trans (⟨_, rfl⟩ : m₃.log <+: (m₃.put (top + 4091) 5 _).log) log_pushWords
  simp only [Phys.loadSegment, Option.bind_eq_bind, Option.bind_eq_some_iff, addU64_eq_some] at hthis
  obtain ⟨mapped, ⟨-, hmapped⟩, _, ⟨-, rfl⟩, _, ⟨-, rfl⟩, hthis⟩ := hthis
  rw [hmapped] at hplaced hnot
  -- The segment has bytes, so the page loop takes its first turn.
  have hturns : 0 < (addrOf (mapped + seg.memsz + 0xFFF) - addrOf mapped) / pageSize := by
    have hfilesz := hplaced.filesz
    simp only [PtLoad.Fits, not_or, addrOf, pageSize] at *
    omega
  obtain ⟨n, hn⟩ : ∃ n, (addrOf (mapped + seg.memsz + 0xFFF) - addrOf mapped) / pageSize = n + 1 :=
    ⟨_, (Nat.succ_pred_eq_of_pos hturns).symm⟩
  rw [hn, List.range_succ_eq_map, List.foldlM_cons, Option.bind_eq_bind, Option.bind_eq_some_iff] at hthis
  obtain ⟨s', hpage, hpages⟩ := hthis
  refine hfill.loading.overrun hplaced.inFile hnot hpage (hOwn.before ?_ ?_)
  · obtain ⟨es, hlog, -⟩ := hfill.loading.within.log
    exact List.IsPrefix.trans ⟨es, hlog.symm⟩ (log_loadPage hpage)
  · exact (log_foldlM id hpages fun hstep => log_loadPage hstep).trans hafter

end Phys

open Phys

/-- A call of `load_elf_into_space`, or of `load_dyn_exec` at `base`, that ends with the table at `root`. -/
inductive Loads (data : List UInt8) : Nat → Phys → Nat → Phys → Prop
  | exec {m m' root entry sp} : m.loadElfIntoSpace data = some ((root, entry, sp), m') → Loads data 0 m root m'
  | dyn {m m' root base phdrVa phent phnum execEntry finalEntry e sp} :
    m.loadDynExec data base phdrVa phent phnum execEntry finalEntry = some ((root, e, sp), m') →
      Loads data base m root m'

theorem Loads.loadSpace {data : List UInt8} {base root : Nat} {m m' : Phys} (h : Loads data base m root m') :
    ∃ auxv entry sp, m.loadSpace data base auxv = some ((root, entry, sp), m') := by
  cases h with
  | exec h => exact ⟨_, _, _, h⟩
  | dyn h =>
    simp only [loadDynExec, Option.map_eq_some_iff, Prod.exists, Prod.mk.injEq] at h
    obtain ⟨r, e, s, m₁, h, ⟨rfl, -, -⟩, rfl⟩ := h
    exact ⟨_, _, _, h⟩

/-- Every byte of every segment, from the file or zero, at its user address. -/
def ByteExact (data : List UInt8) (base : Nat) (segs : List PtLoad) (m : Phys) (root : Nat) : Prop :=
  ∀ seg ∈ segs, ∀ i < seg.memsz, m.userByte root (base + seg.vaddr + i) =
    some (if i < seg.filesz then data.getD (seg.offset + i) 0 else 0)

/-- The loaders are exact, and write only in frames they have allocated, if
and only if every segment fits: it starts on a page boundary or its bytes
end in its first page. -/
theorem loaders_exact_iff_fits {data : List UInt8} {elf : Elf64} {segs : List PtLoad} {base root : Nat} {m m' : Phys}
    (hparse : Elf64.parse data = some elf) (hsegs : elf.loadSegments = some segs) (hlay : Layout data base segs)
    (h : Loads data base m root m') :
    (ByteExact data base segs m' root ∧ OwnWrites m m') ↔ ∀ seg ∈ segs, seg.Fits (base + seg.vaddr) := by
  obtain ⟨auxv, entry, sp, hload⟩ := h.loadSpace
  refine ⟨fun hgood => loadSpace_fits hparse hsegs hlay hload hgood.2, fun hfits => ?_⟩
  obtain ⟨D, hL, hshow⟩ := loadSpace_loading hparse hsegs (fun seg hseg => (hlay.placed seg hseg).user) hfits hload
  refine ⟨fun seg hseg i hi => ?_, hL.ownWrites⟩
  generalize hva : base + seg.vaddr + i = va
  have huser := (hlay.placed seg hseg).user
  have hoff : va % pageSize < pageSize := Nat.mod_lt _ (by decide)
  have hsplit : va / pageSize * pageSize + va % pageSize = va := Nat.div_add_mod' _ _
  have hocc : seg.Occupies (base + seg.vaddr) (va / pageSize) := by
    simp only [PtLoad.Occupies, pageSize]
    omega
  rw [← hsplit, (hshow hlay seg hseg _ hocc).userByte hL.tree (seg.occupies_lt huser hocc) hoff, imageByte, hsplit, ← hva, Nat.add_sub_cancel_left]
  simp only [Nat.le_add_right, true_and]

/-! ## An image -/

/-- An executable with one segment of two bytes, `AA BB`, at `vaddr`. -/
def twoByteElf (vaddr : Nat) : List UInt8 :=
  let word (n v : Nat) : List UInt8 := (List.range n).map (ByteMem.leByte v)
  [0x7F, 0x45, 0x4C, 0x46, 2, 1, 1, 0] ++ word 8 0 ++ word 2 Elf.etExec ++ word 2 0x3E ++ word 4 1 ++ word 8 vaddr ++
    word 8 64 ++ word 8 0 ++ word 4 0 ++ word 2 64 ++ word 2 56 ++ word 2 1 ++ word 6 0 ++
    word 4 Elf.ptLoad ++ word 4 5 ++ word 8 120 ++ word 8 vaddr ++ word 8 0 ++ word 8 2 ++ word 8 2 ++ word 8 1 ++
    [0xAA, 0xBB]

def twoByteSegment (vaddr : Nat) : PtLoad :=
  { flags := 5, offset := 120, vaddr, filesz := 2, memsz := 2, align := 1 }

/-- Thirty-one free frames from the second one on. -/
def bootMachine : Phys :=
  { blankMachine with frames := { bitmap := fun i => if i = 0 then 0xFFFFFFFE#64 else 0#64, freeFrames := 31 } }

theorem twoByteLayout {vaddr : Nat} (h : vaddr = 0x10000 ∨ vaddr = 0x10FFF) :
    Layout (twoByteElf vaddr) 0 [twoByteSegment vaddr] := by
  refine ⟨fun seg hseg => ?_, List.pairwise_singleton _ _, fun seg hseg p hp => ?_⟩
  · cases List.mem_singleton.mp hseg
    refine ⟨by rcases h with rfl | rfl <;> decide +kernel, Nat.le_refl 2, ?_⟩
    rcases h with rfl | rfl <;> decide
  · cases List.mem_singleton.mp hseg
    obtain ⟨h₁, h₂⟩ := hp
    simp only [twoByteSegment, pageSize] at h₁ h₂
    omega

/-- At a page boundary the two bytes show and the call keeps to its own frames. -/
theorem loaders_exact_aligned : ∃ m' root, Loads (twoByteElf 0x10000) 0 bootMachine root m' ∧
    ByteExact (twoByteElf 0x10000) 0 [twoByteSegment 0x10000] m' root ∧ OwnWrites bootMachine m' := by
  obtain ⟨elf, hparse, hsegs⟩ := Option.bind_eq_some_iff.mp
    (show (Elf64.parse (twoByteElf 0x10000)).bind Elf64.loadSegments = some [twoByteSegment 0x10000] by
      decide +kernel)
  obtain ⟨⟨⟨root, entry, sp⟩, m'⟩, hload⟩ := Option.isSome_iff_exists.mp
    (show (bootMachine.loadElfIntoSpace (twoByteElf 0x10000)).isSome = true by decide +kernel)
  exact ⟨m', root, .exec hload, (loaders_exact_iff_fits hparse hsegs (twoByteLayout (.inl rfl)) (.exec hload)).mpr
    fun seg hseg => List.mem_singleton.mp hseg ▸ (by decide)⟩

/-- Over a page boundary the second byte is lost: it is written past the end
of the first frame, and the second page shows a zero for it. -/
theorem loader_loses_second_page : ∃ elf m' root, Elf64.parse (twoByteElf 0x10FFF) = some elf ∧
    elf.loadSegments = some [twoByteSegment 0x10FFF] ∧ Layout (twoByteElf 0x10FFF) 0 [twoByteSegment 0x10FFF] ∧
    Loads (twoByteElf 0x10FFF) 0 bootMachine root m' ∧ m'.userByte root 0x11000 = some 0 ∧
    ¬ByteExact (twoByteElf 0x10FFF) 0 [twoByteSegment 0x10FFF] m' root := by
  obtain ⟨elf, hparse, hsegs⟩ := Option.bind_eq_some_iff.mp
    (show (Elf64.parse (twoByteElf 0x10FFF)).bind Elf64.loadSegments = some [twoByteSegment 0x10FFF] by
      decide +kernel)
  obtain ⟨⟨⟨root, entry, sp⟩, m'⟩, hload, hbyte⟩ := Option.map_eq_some_iff.mp
    (show (bootMachine.loadElfIntoSpace (twoByteElf 0x10FFF)).map (fun r => r.2.userByte r.1.1 0x11000) =
      some (some 0) by decide +kernel)
  refine ⟨elf, m', root, hparse, hsegs, twoByteLayout (.inr rfl), .exec hload, hbyte, fun hexact => ?_⟩
  have h := hexact _ (List.mem_singleton_self _) 1 (by decide)
  rw [show 0 + (twoByteSegment 0x10FFF).vaddr + 1 = 0x11000 from rfl, hbyte] at h
  revert h
  decide

end ChodOs
