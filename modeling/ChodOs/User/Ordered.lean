/-
The memory calls keep the address spaces of processes apart: from boot on,
every space is well-formed, no two share a frame, and the kernel half is
as it was, as long as programs are loaded into frames of their own and the
addresses that are given to the calls are user addresses, which none of
them checks.
-/
import ChodOs.Paging.Orderly
import ChodOs.User.Exec

namespace ChodOs

open Pt StepSys

namespace Phys

variable {m m' : Phys} {root cr3 va : Nat}

/-! ## The calls on a space -/

theorem userFlags_lt (writable : Bool) : userFlags writable < pageSize := by cases writable <;> decide

theorem Space.mapData {flags i : Nat} {data : List UInt8} (h : Space m root) (hva : userHalf (idx 39 va))
    (hflags : flags < pageSize) (hrun : m.mapData root va flags data i = some m') : Touched root m m' := by
  simp only [Phys.mapData, Option.bind_eq_bind, Option.bind_eq_some_iff, Prod.exists] at hrun
  obtain ⟨phys, m₁, ha, hmap⟩ := hrun
  obtain ⟨f, rfl, hal⟩ := alloc_cases ha
  refine (h.newPage hal ?_ ?_ (fun x hx => ?_) hva hflags hmap).1
  · split <;> rfl
  · split <;> rfl
  · split
    · refine (put_outside ?_).trans (hal.zeroPage_bytes hx)
      simp only [Nat.add_mul, pageSize] at *
      omega
    · exact hal.zeroPage_bytes hx

/-- The page of an address is mapped to a free frame, which has been cleared; the other pages are as before. -/
structure Cleared (root va : Nat) (m m' : Phys) : Prop where
  touched : Touched root m m'
  page : ∃ e, ∀ {va'}, userHalf (idx 39 va') →
    m'.pte root va' = if pageOf va' = pageOf va then some e else m.pte root va'
  zero : ∀ {va' e}, userHalf (idx 39 va') → pageOf va' = pageOf va → m'.pte root va' = some e →
    ∀ x, x / pageSize = e / pageSize → m'.bytes x = 0
  bytes : ∀ {x}, pages m root (x / pageSize) → m'.bytes x = m.bytes x

theorem Space.mapZeroed {flags : Nat} (h : Space m root) (hva : userHalf (idx 39 va)) (hflags : flags < pageSize)
    (hrun : m.mapZeroed root va flags = some m') : Cleared root va m m' := by
  simp only [Phys.mapZeroed, Option.bind_eq_bind, Option.bind_eq_some_iff, Prod.exists] at hrun
  obtain ⟨phys, m₁, ha, hmap⟩ := hrun
  obtain ⟨f, rfl, hal⟩ := alloc_cases ha
  have hfree : (m₁.zeroPage (f * pageSize)).free = m₁.free := rfl
  have hzero : ∀ x, x / pageSize ≠ f → (m₁.zeroPage (f * pageSize)).bytes x = m.bytes x := fun _ => hal.zeroPage_bytes
  obtain ⟨htouched, hpte⟩ := h.newPage hal hfree rfl hzero hva hflags hmap
  have hbytes := fun x => h.newPage_bytes (x := x) hal hfree hzero hva hflags hmap
  refine ⟨htouched, ⟨_, hpte⟩, fun {va' e} hva' hpage he x hx => ?_, fun {x} hx => ?_⟩
  · have hframe : (f * pageSize ||| flags ||| ptePresent) / pageSize = f := by
      rw [Nat.or_assoc, ← addrOf_div, addrOf_lor (Nat.mul_mod_left _ _)
        (Nat.or_lt_two_pow (n := 12) hflags (by decide)), Nat.mul_div_cancel _ (by decide)]
    rw [hpte hva', if_pos hpage] at he
    cases he
    rw [hframe] at hx
    rw [hbytes x (.inl hx)]
    obtain ⟨k, rfl⟩ : ∃ k, x = f * pageSize + k := ⟨x - f * pageSize, by simp only [pageSize] at *; omega⟩
    exact put_inside (by simp only [pageSize] at *; omega)
  · rw [hbytes x (.inr hx)]
    exact hzero x fun he => h.used (.inr hx) (he ▸ hal.mem)

/-- The page at an offset of a range of user pages is a user page. -/
theorem userHalf_page {pages i : Nat} (huser : va + pages * pageSize ≤ 2 ^ 47) (hi : i < pages) :
    userHalf (idx 39 (va + i * pageSize)) := by
  refine userHalf_of_lt ?_
  have hle : (i + 1) * pageSize ≤ pages * pageSize := Nat.mul_le_mul_right _ hi
  rw [Nat.add_mul] at hle
  simp only [pageSize] at *
  omega

/-- The pages of a range of user pages are numbered one after another. -/
theorem pageOf_add {pages i : Nat} (huser : va + pages * pageSize ≤ 2 ^ 47) (hi : i < pages) :
    pageOf (va + i * pageSize) = pageOf va + i := by
  have hle : (i + 1) * pageSize ≤ pages * pageSize := Nat.mul_le_mul_right _ hi
  simp only [Nat.add_mul, pageOf, pageSize] at *
  omega

theorem Space.mmapAnon {pages : Nat} {writable : Bool} (h : Space m cr3) (huser : va + pages * pageSize ≤ 2 ^ 47)
    (hrun : m.mmapAnon cr3 va pages writable = some m') : Touched cr3 m m' := by
  rw [Phys.mmapAnon, addrOf_eq h.tree.aligned] at hrun
  refine h.touched_loop hrun fun {m m' i} hi hS hstep => ?_
  simp only [Option.bind_eq_bind, Option.bind_eq_some_iff, addU64_eq_some] at hstep
  obtain ⟨_, ⟨-, rfl⟩, hstep⟩ := hstep
  exact (hS.mapZeroed (userHalf_page huser (List.mem_range.mp hi)) (userFlags_lt _) hstep).touched

theorem Space.mmapMap {pages : Nat} {data : List UInt8} {writable : Bool} (h : Space m cr3)
    (huser : va + pages * pageSize ≤ 2 ^ 47) (hpages : 0 < pages) (hlen : data.length ≤ pages * pageSize)
    (hrun : m.mmapMap cr3 va data writable = some m') : Touched cr3 m m' := by
  rw [Phys.mmapMap, addrOf_eq h.tree.aligned] at hrun
  refine h.touched_loop hrun fun {m m' i} hi hS hstep => ?_
  simp only [Option.bind_eq_bind, Option.bind_eq_some_iff, addU64_eq_some] at hstep
  obtain ⟨_, ⟨-, rfl⟩, hstep⟩ := hstep
  have hi : i < pages := by
    have hi := List.mem_range.mp hi
    simp only [pageSize] at hlen
    split at hi <;> omega
  exact hS.mapData (userHalf_page huser hi) (userFlags_lt _) hstep

/-- A translated user address is in a page of the space. -/
theorem Space.translates {phys : Nat} (h : Space m root) (hva : userHalf (idx 39 va))
    (hphys : m.virtToPhys root va = some phys) : pages m root (phys / pageSize) := by
  rw [h.tree.virtToPhys_eq hva, Option.map_eq_some_iff] at hphys
  obtain ⟨e, he, rfl⟩ := hphys
  refine ⟨va, e, hva, he, ?_⟩
  simp only [addrOf, pageSize]
  omega

/-- A page is mapped or absent as a whole. -/
theorem Space.absent_page {va' : Nat} (h : Space m root) (hva : userHalf (idx 39 va)) (hva' : userHalf (idx 39 va'))
    (hpage : pageOf va' = pageOf va) (habs : m.virtToPhys root va = none) : m.virtToPhys root va' = none := by
  rw [h.tree.virtToPhys_eq hva, Option.map_eq_none_iff] at habs
  rw [h.tree.virtToPhys_eq hva', pte_congr hpage, habs, Option.map_none]

theorem Space.storeUser {b : UInt8} (h : Space m root) (hva : userHalf (idx 39 va))
    (hrun : m.storeUser root va b = some m') : Touched root m m' := by
  simp only [Phys.storeUser, Option.bind_eq_bind, Option.bind_eq_some_iff] at hrun
  obtain ⟨pte, -, phys, hphys, hrun⟩ := hrun
  split at hrun
  · cases hrun
    exact (h.put (h.translates hva hphys) fun x hx hx' => by rw [show x = phys by omega]).1
  · cases hrun

theorem Space.copyToUser {data : List UInt8} (h : Space m root) (huser : va + data.length ≤ 2 ^ 47)
    (hrun : m.copyToUser root va data = some m') : Touched root m m' := by
  refine h.touched_loop hrun fun {m m' i} hi hS hstep => hS.storeUser (userHalf_of_lt ?_) hstep
  have hi := List.mem_range.mp hi
  omega

/-- The table that `munmap_pages` and `set_page_prot` look for. -/
theorem pageTable_eq (hal : root % pageSize = 0) : m.pageTable root va = m.node root (pathOf va) := by
  simp only [pageTable, addrOf_eq hal, node, pathOf, Radix.node, Option.bind_eq_bind]
  cases child (m.entry root (idx 39 va)) with
  | none => simp only [Option.bind_none]
  | some pdpt =>
    simp only [Option.bind_some]
    cases child (m.entry pdpt (idx 30 va)) with
    | none => simp only [Option.bind_none]
    | some pd =>
      simp only [Option.bind_some]
      cases child (m.entry pd (idx 21 va)) with
      | none => simp only [Option.bind_none]
      | some pt => simp only [Option.bind_some]

/-- The entries that a call of `set_page_prot` makes. -/
theorem protEntry_spec {e prot : Nat} (he : e < 2 ^ 64) : protEntry e prot < 2 ^ 64 ∧
    (present (protEntry e prot) = true ↔ prot ≠ 0) ∧ protEntry e prot / pageSize = e / pageSize ∧
      (prot ≠ 0 → (protEntry e prot).testBit 1 = prot.testBit 1) := by
  have hle : addrOf e < 2 ^ 64 := Nat.lt_of_le_of_lt (Nat.div_mul_le_self e pageSize) he
  rcases Nat.eq_zero_or_pos prot with rfl | hpos
  · have hpres : present (addrOf e) = false := by
      simp only [present, addrOf, pageSize, beq_eq_false_iff_ne, ne_eq]
      omega
    refine ⟨by rw [protEntry, if_pos rfl]; exact hle, ?_, by rw [protEntry, if_pos rfl, addrOf_div],
      fun hne => absurd rfl hne⟩
    rw [protEntry, if_pos rfl, hpres]
    simp
  · have hne : prot ≠ 0 := Nat.ne_of_gt hpos
    have hal := addrOf_mod e
    obtain ⟨flags, hfl⟩ : ∃ flags, (ptePresent ||| pteUser ||| if prot.testBit 1 then pteWritable else 0) = flags :=
      ⟨_, rfl⟩
    obtain ⟨hlt, hodd, hw⟩ : flags < 8 ∧ flags % 2 = 1 ∧ (flags / 2 % 2 = 1 ↔ prot.testBit 1 = true) := by
      rw [← hfl]
      cases prot.testBit 1 <;> decide
    have hentry : protEntry e prot = e / pageSize * pageSize + flags := by
      rw [protEntry, if_neg hne, hfl, lor_flags hal (by simp only [pageSize]; omega), addrOf]
    clear hfl hal hle
    refine ⟨?_, ⟨fun _ => hne, fun _ => ?_⟩, ?_, fun _ => ?_⟩
    · simp only [hentry, pageSize]
      omega
    · rw [present, beq_iff_eq, hentry]
      simp only [pageSize]
      omega
    · rw [hentry]
      simp only [pageSize]
      omega
    · rw [Bool.eq_iff_iff, ← hw, hentry, Nat.testBit_eq_decide_div_mod_eq, decide_eq_true_iff]
      simp only [pageSize]
      omega

/-- The pages from the one of `va` on, `n` of them. -/
def InPages (va n va' : Nat) : Prop := pageOf va ≤ pageOf va' ∧ pageOf va' < pageOf va + n

instance (va n va' : Nat) : Decidable (InPages va n va') := inferInstanceAs (Decidable (_ ∧ _))

/-- The table of a mapped page. -/
theorem pte_some {e : Nat} (h : m.pte root va = some e) : ∃ pt, m.node root (pathOf va) = some pt ∧
    m.entry pt (idx 12 va) = e ∧ present e = true := by
  simp only [pte, Option.bind_eq_bind, Option.bind_eq_some_iff] at h
  obtain ⟨pt, hpt, he⟩ := h
  split at he
  · next hp =>
    cases he
    exact ⟨pt, hpt, rfl, hp⟩
  · cases he

theorem munmapPage_absent (h : m.virtToPhys root va = none) : m.munmapPage root va = m := by rw [munmapPage, h]

theorem munmapPage_present {phys pt : Nat} (hal : root % pageSize = 0) (h : m.virtToPhys root va = some phys)
    (hpt : m.node root (pathOf va) = some pt) :
    m.munmapPage root va = (m.freeFrame (addrOf phys)).setEntry pt (idx 12 va) 0 := by
  have htable : (m.freeFrame (addrOf phys)).pageTable root va = some pt := (pageTable_eq hal).trans hpt
  simp only [munmapPage, h, htable]

/-- `munmap_pages` takes the page away, with its frame. -/
theorem Space.munmapPage (h : Space m root) (hva : userHalf (idx 39 va)) : Touched root m (m.munmapPage root va) ∧
    ∀ {va'}, userHalf (idx 39 va') →
      (m.munmapPage root va).pte root va' = if pageOf va' = pageOf va then none else m.pte root va' := by
  have htrans := h.tree.virtToPhys_eq hva
  cases hpte : m.pte root va with
  | none =>
    rw [munmapPage_absent (by rw [htrans, hpte, Option.map_none])]
    refine ⟨h.touched_refl, fun {va'} _ => ?_⟩
    by_cases hpage : pageOf va' = pageOf va
    · rw [if_pos hpage, pte_congr hpage, hpte]
    · rw [if_neg hpage]
  | some e =>
    obtain ⟨pt, hpt, -, -⟩ := pte_some hpte
    rw [hpte, Option.map_some] at htrans
    rw [munmapPage_present h.tree.aligned htrans hpt, addrOf_add]
    refine h.setLeaf hva hpt (by decide) (fun hp => by cases hp) rfl rfl fun g hg => ?_
    -- a frame beyond those of the allocator stays out
    by_cases hmax : e / pageSize < maxFrames
    · have hfree : (m.freeFrame (e / pageSize * pageSize)).free = insert (e / pageSize) m.free :=
        FrameAlloc.freeSet_freeFrame hmax
      rw [hfree, Finset.mem_insert] at hg
      exact hg.symm.imp_right fun hg => ⟨rfl, e, hpte, hg⟩
    · change g ∈ (m.frames.freeFrame (e / pageSize * pageSize)).freeSet at hg
      rw [FrameAlloc.freeFrame_beyond hmax] at hg
      exact .inl hg

/-- A call that changes the entry of each page of a range by `f`, one page after another. -/
theorem Space.pageLoop (op : Phys → Nat → Phys) (f : Option Nat → Option Nat) {pages : Nat} (h : Space m root)
    (huser : va + pages * pageSize ≤ 2 ^ 47)
    (hop : ∀ {m va}, Space m root → userHalf (idx 39 va) → Touched root m (op m va) ∧ ∀ {va'}, userHalf (idx 39 va') →
      (op m va).pte root va' = if pageOf va' = pageOf va then f (m.pte root va') else m.pte root va')
    (hrun : (List.range pages).foldlM (fun m i => do some (op m (← addU64 va (i * pageSize)))) m = some m') :
    Touched root m m' ∧ ∀ {va'}, userHalf (idx 39 va') →
      m'.pte root va' = if InPages va pages va' then f (m.pte root va') else m.pte root va' := by
  refine Loop.invariant_range (fun i m' => Touched root m m' ∧ ∀ {va'}, userHalf (idx 39 va') →
    m'.pte root va' = if InPages va i va' then f (m.pte root va') else m.pte root va') hrun
    ⟨h.touched_refl, fun _ => (if_neg fun hin => by have := hin.1; have := hin.2; omega).symm⟩
    fun {i m₁ m₂} hi hI hstep => ?_
  obtain ⟨htouched, hpte⟩ := hI
  simp only [Option.bind_eq_bind, Option.bind_eq_some_iff, addU64_eq_some, Option.some.injEq] at hstep
  obtain ⟨_, ⟨-, rfl⟩, rfl⟩ := hstep
  obtain ⟨hpage, hpte'⟩ := hop htouched.space (userHalf_page huser hi)
  refine ⟨htouched.trans hpage, fun {va'} hva' => ?_⟩
  rw [hpte' hva', hpte hva', pageOf_add huser hi]
  simp only [InPages]
  grind

theorem Space.munmapPages {count : Nat} (h : Space m root) (huser : va + count * pageSize ≤ 2 ^ 47)
    (hrun : m.munmapPages root va count = some m') : Touched root m m' ∧ ∀ {va'}, userHalf (idx 39 va') →
      m'.pte root va' = if InPages va count va' then none else m.pte root va' :=
  h.pageLoop (·.munmapPage root ·) (fun _ => none) huser (fun hS hva => hS.munmapPage hva) hrun

/-- What `set_page_prot` makes of a mapped page. -/
def protPte (prot e : Nat) : Option Nat := if prot = 0 then none else some (protEntry e prot)

theorem setProtPage_absent {prot : Nat} (hal : root % pageSize = 0) (h : m.pte root va = none) :
    m.setProtPage root va prot = m := by
  rw [setProtPage, pageTable_eq hal]
  cases hpt : m.node root (pathOf va) with
  | none => rfl
  | some pt =>
    simp only [pte, hpt, Option.bind_eq_bind, Option.bind_some, ite_eq_right_iff, reduceCtorEq, imp_false] at h
    exact if_neg h

theorem setProtPage_present {prot pt : Nat} (hal : root % pageSize = 0) (hpt : m.node root (pathOf va) = some pt)
    (hp : present (m.entry pt (idx 12 va)) = true) :
    m.setProtPage root va prot = m.setEntry pt (idx 12 va) (protEntry (m.entry pt (idx 12 va)) prot) := by
  rw [setProtPage, pageTable_eq hal, hpt]
  exact if_pos hp

/-- `set_page_prot` changes the entry of the page. -/
theorem Space.setProtPage {prot : Nat} (h : Space m root) (hva : userHalf (idx 39 va)) :
    Touched root m (m.setProtPage root va prot) ∧ ∀ {va'}, userHalf (idx 39 va') →
      (m.setProtPage root va prot).pte root va' =
        if pageOf va' = pageOf va then (m.pte root va').bind (protPte prot) else m.pte root va' := by
  cases hpte : m.pte root va with
  | none =>
    rw [setProtPage_absent h.tree.aligned hpte]
    refine ⟨h.touched_refl, fun {va'} _ => ?_⟩
    by_cases hpage : pageOf va' = pageOf va
    · rw [if_pos hpage, pte_congr hpage, hpte, Option.bind_none]
    · rw [if_neg hpage]
  | some e =>
    obtain ⟨pt, hpt, he, hp⟩ := pte_some hpte
    have hlt := m.entry_lt pt (idx 12 va)
    rw [setProtPage_present h.tree.aligned hpt (by rw [he]; exact hp), he]
    rw [he] at hlt
    obtain ⟨hlt', hpres, hframe, -⟩ := protEntry_spec (e := e) hlt
    obtain ⟨htouched, hset⟩ := h.setLeaf hva hpt hlt' (fun _ => ⟨e, hpte, hframe⟩) rfl rfl fun g hg => .inl hg
    refine ⟨htouched, fun {va'} hva' => ?_⟩
    rw [hset hva']
    by_cases hpage : pageOf va' = pageOf va
    · rw [if_pos hpage, if_pos hpage, pte_congr hpage, hpte, Option.bind_some, protPte]
      by_cases hprot : prot = 0
      · rw [if_pos hprot, if_neg (by rw [hpres]; exact not_not.mpr hprot)]
      · rw [if_neg hprot, if_pos (hpres.mpr hprot)]
    · rw [if_neg hpage, if_neg hpage]

theorem Space.setPageProt {pages prot : Nat} (h : Space m root) (huser : va + pages * pageSize ≤ 2 ^ 47)
    (hrun : m.setPageProt root va pages prot = some m') : Touched root m m' ∧ ∀ {va'}, userHalf (idx 39 va') →
      m'.pte root va' = if InPages va pages va' then (m.pte root va').bind (protPte prot) else m.pte root va' :=
  h.pageLoop (·.setProtPage root · prot) (·.bind (protPte prot)) huser (fun hS hva => hS.setProtPage hva) hrun

end Phys

open Phys

/-! ## Processes and their spaces -/

/-- The address space of a process. -/
def Uprocs.Root (u : Uprocs) (r : Nat) : Prop := ∃ p, some p ∈ u.slots.1 ∧ p.userCr3 = r

namespace Uprocs

variable {u u' : Uprocs} {p : UserProc} {r : Nat} {R : Nat → Prop}

theorem root_cur (h : u.cur = some p) : u.Root p.userCr3 := ⟨p, mem_of_at? h, rfl⟩

theorem all_root : u.All fun p => u.Root p.userCr3 := fun p hp => ⟨p, hp, rfl⟩

theorem All.root (h : u.All fun p => R p.userCr3) (hr : u.Root r) : R r := by
  obtain ⟨p, hp, rfl⟩ := hr
  exact h p hp

theorem root_currentCr3 (h : u.currentCr3 ≠ 0) : u.Root u.currentCr3 := by
  unfold currentCr3 at h ⊢
  cases hc : u.cur with
  | none =>
    rw [hc] at h
    exact absurd rfl h
  | some p => exact root_cur hc

/-- Its other fields make no difference. -/
theorem root_modify {i : Nat} {f : UserProc → UserProc} (hf : ∀ p, (f p).userCr3 = p.userCr3)
    (hr : (u.modify i f).Root r) : u.Root r :=
  All.root (all_root.modify fun p _ hp => show u.Root (f p).userCr3 from hf p ▸ hp) hr

theorem root_update {f : UserProc → UserProc} (hf : ∀ p, (f p).userCr3 = p.userCr3) (hr : (u.update f).Root r) :
    u.Root r := root_modify hf hr

theorem root_insert (hr : (u.insert p).Root r) : r = p.userCr3 ∨ u.Root r :=
  All.root (R := fun r => r = p.userCr3 ∨ u.Root r) (All.insert (fun q hq => .inr ⟨q, hq, rfl⟩) (.inl rfl)) hr

theorem root_register {pid parentPid cr3 kstack : Nat} (hr : (u.register pid parentPid cr3 kstack).2.Root r) :
    r = cr3 ∨ u.Root r :=
  All.root (R := fun r => r = cr3 ∨ u.Root r)
    (All.register (fun q hq => .inr ⟨q, hq, rfl⟩) (fun _ _ => .inl rfl) (.inl rfl)) hr

theorem root_setBrkBase {stop : Nat} (h : u.setBrkBase stop = some u') (hr : u'.Root r) : u.Root r := by
  unfold setBrkBase at h
  split at h
  · cases h
    exact hr
  · obtain ⟨aligned, -, he⟩ := Option.bind_eq_some_iff.mp h
    cases he
    exact root_update (f := fun p => { p with brkBase := aligned, brkCur := aligned }) (fun _ => rfl) hr

end Uprocs

namespace MemSys

/-- Wherever it is loaded, the program gets a space of its own, made of free frames. -/
def Clean (lib : LibProvider) (elfData : List UInt8) : Prop := ∀ s image s',
  addrOf s.phys.kernelCr3 / pageSize ∉ s.phys.free → MemSys.loadImage s lib elfData = some (image, s') →
    Built image.1 s.phys s'.phys

/-- A static program whose segments lie at user addresses and fit their pages. -/
theorem clean_of_static {lib : LibProvider} {elfData : List UInt8} (hstatic : needsDynlink elfData = some false)
    (himage : Spaces.UserImage elfData 0) : Clean lib elfData := by
  intro s image s' hk h
  rw [loadImage, hstatic] at h
  obtain ⟨⟨⟨root, entry, sp⟩, m⟩, hload, he⟩ := Option.map_eq_some_iff.mp h
  cases he
  exact built_loadSpace hk himage hload

/-- Where `sys_mmap` maps pages at once. -/
def mapsAt (s : MemSys) (addr flags : Nat) (fd : Int) : Option Nat :=
  if flags.testBit mapFixed ∧ addr ≠ 0 then some addr
  else if flags.testBit mapAnonymous || fd == -1 then none
  else s.procs.cur.map (·.mmapNext)

/-- Programs are loaded into spaces of their own, and the addresses of the calls are user addresses. -/
def InOrder (_ : List Op) (s : MemSys) : Op → Prop
  | .enterElf lib elfData _ _ => Clean lib elfData
  | .exec lib elfData => Clean lib elfData
  | .mmap _ addr len _ flags fd _ => ∀ pages ∈ pagesOf len, ∀ va ∈ s.mapsAt addr flags fd,
    va + pages * pageSize ≤ userEnd
  | .munmap addr len => ∀ pages ∈ pagesOf len, addr + max pages (s.mmaps.pagesAt addr pages) * pageSize ≤ userEnd
  | .mprotect addr len _ => ∀ pages ∈ pagesOf len, addr + pages * pageSize ≤ userEnd
  | .fault va => va < userEnd
  | .store va _ => va < userEnd
  | _ => True

/-- The spaces of the processes are in order since boot. -/
def Ordered (m₀ : Phys) (s : MemSys) : Prop := Phys.Orderly m₀ s.procs.Root s.phys

variable {m₀ : Phys} {s s' : MemSys} {lib : LibProvider} {elfData : List UInt8} {image : Nat × Nat × Nat}
  {addr len prot flags pages cr3 va : Nat} {fd : Int} {offset : Nat} {read : Pread} {es h : List Op} {op : Op}

theorem ordered_boot (m₀ : Phys) : Ordered m₀ (boot m₀) := by
  refine (Phys.Orderly.start m₀).mono fun hr => ?_
  obtain ⟨p, hp, -⟩ := hr
  cases List.eq_of_mem_replicate hp

/-- One space has changed, and the processes have no new one. -/
theorem Ordered.touched (ho : Ordered m₀ s) (hr : s.procs.Root cr3) (hu : Touched cr3 s.phys s'.phys)
    (hroots : ∀ {r}, s'.procs.Root r → s.procs.Root r) : Ordered m₀ s' :=
  (Phys.Orderly.touched ho hr hu).mono hroots

theorem Ordered.loaded (ho : Ordered m₀ s) (hk : KernelApart m₀) (hclean : Clean lib elfData)
    (h : s.loadImage lib elfData = some (image, s')) :
    Phys.Orderly m₀ (fun r => r = image.1 ∨ s.procs.Root r) s'.phys ∧ ∀ {r}, s'.procs.Root r → s.procs.Root r := by
  refine ⟨Phys.Orderly.built ho hk (hclean _ _ _ (Phys.Orderly.kernel_used ho hk) h), fun hr => ?_⟩
  obtain ⟨dyn, -, h⟩ := Option.bind_eq_some_iff.mp h
  cases dyn with
  | false =>
    obtain ⟨r, -, he⟩ := Option.map_eq_some_iff.mp h
    cases he
    exact hr
  | true =>
    simp only [if_true, loadDynamic, Option.bind_eq_bind, Option.bind_eq_some_iff, Option.some.injEq, Prod.exists,
      Prod.mk.injEq] at h
    obtain ⟨_, _, -, _, _, _, -, _, _, -, _, hbrk, _, _, -, -, rfl⟩ := h
    exact Uprocs.root_setBrkBase hbrk hr

theorem Ordered.exec (ho : Ordered m₀ s) (hk : KernelApart m₀) (hclean : Clean lib elfData)
    (h : s.execReplace lib elfData = some (image, s')) : Ordered m₀ s' := by
  simp only [execReplace, Option.bind_eq_bind, Option.bind_eq_some_iff, Option.some.injEq, Prod.exists,
    Prod.mk.injEq] at h
  obtain ⟨cr3, e, sp, s₁, hload, _, -, -, rfl⟩ := h
  obtain ⟨hloaded, hroots⟩ := Ordered.loaded (s := { s with vmas := s.vmas.reset, mmaps := ∅ }) ho hk hclean hload
  refine hloaded.mono fun {r} hr => ?_
  have hall : (s₁.procs.update fun p =>
      { p with userCr3 := cr3, state := .running, savedFrameRsp := p.kstackTop - isrFrameSize }).All
        fun p => p.userCr3 = cr3 ∨ s.procs.Root p.userCr3 :=
    Uprocs.All.update (fun q hq => .inr (hroots ⟨q, hq, rfl⟩)) fun _ _ _ => .inl rfl
  exact Uprocs.All.root (R := fun r => r = cr3 ∨ s.procs.Root r) hall hr

theorem Ordered.enter {pid kstack : Nat} (ho : Ordered m₀ s) (hk : KernelApart m₀) (hclean : Clean lib elfData)
    (h : s.enterElf lib elfData pid kstack = some (image, s')) : Ordered m₀ s' := by
  obtain ⟨dyn, hdyn, h⟩ := Option.bind_eq_some_iff.mp h
  cases dyn with
  | true =>
    obtain ⟨⟨tmpCr3, phys⟩, hroot, hexec⟩ := Option.bind_eq_some_iff.mp h
    have hbuilt := Phys.Orderly.built ho hk (built_allocUserPml4 (Phys.Orderly.kernel_used ho hk) hroot)
    exact Ordered.exec (s := { s with phys, procs := (s.procs.register pid 0 tmpCr3 kstack).2 })
      (hbuilt.mono Uprocs.root_register) hk hclean hexec
  | false =>
    obtain ⟨⟨image', s₁⟩, hload, he⟩ := Option.bind_eq_some_iff.mp h
    cases he
    have himage : s.loadImage lib elfData = some (image, s₁) := by
      rw [loadImage, hdyn]
      exact hload
    obtain ⟨hloaded, hroots⟩ := ho.loaded hk hclean himage
    exact hloaded.mono fun hr => (Uprocs.root_register hr).imp_right hroots

/-- A process comes in, in a space that is there or a new one. -/
theorem Ordered.insert {p : UserProc} {m : Phys} (ho : Phys.Orderly m₀ (fun r => r = p.userCr3 ∨ s.procs.Root r) m) :
    Ordered m₀ { s with phys := m, procs := s.procs.insert p } :=
  ho.mono Uprocs.root_insert

theorem Ordered.cloned {m : Phys} {srcCr3 : Nat} (ho : Ordered m₀ s) (hk : KernelApart m₀) (hr : s.procs.Root srcCr3)
    (h : s.phys.cloneUserSpace srcCr3 = some (cr3, m)) : Phys.Orderly m₀ (fun r => r = cr3 ∨ s.procs.Root r) m := by
  have hS := Phys.Orderly.space ho hr
  rw [← addrOf_eq hS.tree.aligned] at hS
  exact Phys.Orderly.built ho hk (built_cloneUserSpace (Phys.Orderly.kernel_used ho hk) hS h)

theorem Ordered.fork {pid kstack r : Nat} (ho : Ordered m₀ s) (hk : KernelApart m₀)
    (hcall : s.forkCurrent pid kstack = some (r, s')) : Ordered m₀ s' := by
  unfold forkCurrent at hcall
  split at hcall
  · cases hcall
    exact ho
  · next p hp =>
    obtain ⟨⟨cr3, m⟩, hclone, he⟩ := Option.bind_eq_some_iff.mp hcall
    cases he
    exact Ordered.insert (p := p.forked pid cr3 kstack) (ho.cloned hk (Uprocs.root_cur hp) hclone)

/-- A thread shares the space of its creator or gets a copy. -/
theorem Ordered.clone {childTid newtls pid kstack r : Nat} {flags : BitVec 64} (ho : Ordered m₀ s) (hk : KernelApart m₀)
    (hcall : s.cloneThread flags childTid newtls pid kstack = some (r, s')) : Ordered m₀ s' := by
  unfold cloneThread at hcall
  split at hcall
  · cases hcall
    exact ho
  · next p hp =>
    have hroot : s.procs.Root p.userCr3 := Uprocs.root_cur hp
    obtain ⟨⟨cr3, m⟩, hclone, he⟩ := Option.bind_eq_some_iff.mp hcall
    cases he
    refine Ordered.insert (p := UserSys.cloned p flags childTid newtls pid cr3 kstack) ?_
    unfold clonedSpace at hclone
    split at hclone
    · cases hclone
      exact Phys.Orderly.mono ho fun hr => hr.elim (fun he => he ▸ hroot) id
    · exact ho.cloned hk hroot hclone

theorem length_readForMmap (read : Pread) (fd : Int) (offset pages : Nat) :
    (readForMmap read fd offset (pages * 4096)).length ≤ pages * pageSize := by
  rw [readForMmap, List.length_take]
  exact Nat.min_le_left _ _

theorem pagesOf_pos (hlen : len ≠ 0) (h : pagesOf len = some pages) : 0 < pages := by
  obtain ⟨b, hb, rfl⟩ := Option.map_eq_some_iff.mp h
  obtain ⟨-, rfl⟩ := addU64_eq_some.mp hb
  omega

theorem Ordered.remapFixed {isAnon : Bool} (ho : Ordered m₀ s) (hroot : s.procs.Root cr3)
    (huser : addr + pages * pageSize ≤ userEnd)
    (h : s.remapFixed read cr3 addr len prot pages isAnon fd offset = some s') : Ordered m₀ s' := by
  unfold MemSys.remapFixed at h
  split at h
  · cases h
    exact ho
  · obtain ⟨phys, hcopy, h⟩ := Option.bind_eq_some_iff.mp h
    obtain ⟨_, -, he⟩ := Option.bind_eq_some_iff.mp h
    cases he
    refine ho.touched hroot ((Phys.Orderly.space ho hroot).copyToUser ?_ hcopy) id
    have := length_readForMmap read fd offset pages
    simp only [userEnd] at huser
    omega

theorem Ordered.mapFixedAt {isAnon : Bool} (ho : Ordered m₀ s) (hroot : s.procs.Root cr3) (hpos : 0 < pages)
    (huser : addr + pages * pageSize ≤ userEnd)
    (h : s.mapFixedAt read cr3 addr prot pages isAnon fd offset = some s') : Ordered m₀ s' := by
  have hS := Phys.Orderly.space ho hroot
  unfold MemSys.mapFixedAt at h
  obtain ⟨phys, hnow, he⟩ := Option.bind_eq_some_iff.mp h
  cases he
  refine ho.touched hroot ?_ id
  unfold mapNow at hnow
  split at hnow
  · exact hS.mmapAnon huser hnow
  · exact hS.mmapMap huser hpos (length_readForMmap _ _ _ _) hnow

theorem Ordered.mapAnywhere {isAnon : Bool} {r : Nat} {p : UserProc} (ho : Ordered m₀ s) (hroot : s.procs.Root cr3)
    (hp : s.procs.cur = some p) (hpos : 0 < pages) (huser : ¬isAnon = true → p.mmapNext + pages * pageSize ≤ userEnd)
    (h : s.mapAnywhere read cr3 prot pages isAnon fd offset = some (r, s')) : Ordered m₀ s' := by
  obtain ⟨⟨vaddr, procs⟩, halloc, h⟩ := Option.bind_eq_some_iff.mp h
  obtain ⟨phys, hmap, he⟩ := Option.bind_eq_some_iff.mp h
  cases he
  simp only [Uprocs.allocMmapVaddr, hp, Option.bind_eq_bind, Option.bind_eq_some_iff, Option.some.injEq,
    Prod.mk.injEq] at halloc
  obtain ⟨next, -, rfl, rfl⟩ := halloc
  have hroots : ∀ {r}, (s.procs.update fun p => { p with mmapNext := next }).Root r → s.procs.Root r :=
    Uprocs.root_update (f := fun p => { p with mmapNext := next }) fun _ => rfl
  unfold mapLater at hmap
  split at hmap
  · cases hmap
    exact Phys.Orderly.mono ho hroots
  · next hanon =>
    have hS := Phys.Orderly.space ho hroot
    exact ho.touched hroot (hS.mmapMap (huser hanon) hpos (length_readForMmap _ _ _ _) hmap) hroots

theorem Ordered.mmap {r : Nat} (ho : Ordered m₀ s) (hok : InOrder h s (.mmap read addr len prot flags fd offset))
    (hcall : s.sysMmap read addr len prot flags fd offset = some (r, s')) : Ordered m₀ s' := by
  unfold sysMmap at hcall
  split at hcall
  · cases hcall
    exact ho
  next hlen =>
  obtain ⟨pages, hpages, hcall⟩ := Option.bind_eq_some_iff.mp hcall
  have hpos := pagesOf_pos hlen hpages
  have hok := hok pages hpages
  dsimp only at hcall
  split at hcall
  · cases hcall
    exact ho
  next hcr3 =>
  have hroot := Uprocs.root_currentCr3 hcr3
  split at hcall
  · next hfixed =>
    have huser := hok addr (by rw [mapsAt, if_pos hfixed]; rfl)
    obtain ⟨inside, -, hcall⟩ := Option.bind_eq_some_iff.mp hcall
    cases inside with
    | true =>
      obtain ⟨s₁, hremap, he⟩ := Option.map_eq_some_iff.mp hcall
      cases he
      exact ho.remapFixed hroot huser hremap
    | false =>
      obtain ⟨s₁, hmap, he⟩ := Option.map_eq_some_iff.mp hcall
      cases he
      exact ho.mapFixedAt hroot hpos huser hmap
  · next hfixed =>
    obtain ⟨p, hp⟩ : ∃ p, s.procs.cur = some p := by
      cases hc : s.procs.cur with
      | none => simp [Uprocs.currentCr3, hc] at hcr3
      | some p => exact ⟨p, rfl⟩
    refine ho.mapAnywhere hroot hp hpos (fun hanon => hok p.mmapNext ?_) hcall
    rw [mapsAt, if_neg hfixed, if_neg hanon, hp]
    rfl

theorem Ordered.munmap {r : Nat} (ho : Ordered m₀ s) (hok : InOrder h s (.munmap addr len))
    (hcall : s.sysMunmap addr len = some (r, s')) : Ordered m₀ s' := by
  unfold sysMunmap at hcall
  obtain ⟨pages, hpages, hcall⟩ := Option.bind_eq_some_iff.mp hcall
  have huser := hok pages hpages
  dsimp only at hcall
  split at hcall
  · cases hcall
    exact ho
  · next hcr3 =>
    have hroot := Uprocs.root_currentCr3 hcr3
    obtain ⟨phys, hunmap, he⟩ := Option.bind_eq_some_iff.mp hcall
    cases he
    unfold unmapPages at hunmap
    split at hunmap
    · refine ho.touched hroot ((Phys.Orderly.space ho hroot).munmapPages ?_ hunmap).1 id
      refine Nat.le_trans (Nat.add_le_add_left (Nat.mul_le_mul_right _ (Nat.le_max_right _ _)) _) huser
    · cases hunmap
      exact ho

theorem Ordered.mprotect {r : Nat} (ho : Ordered m₀ s) (hok : InOrder h s (.mprotect addr len prot))
    (hcall : s.sysMprotect addr len prot = some (r, s')) : Ordered m₀ s' := by
  unfold sysMprotect at hcall
  split at hcall
  · cases hcall
    exact ho
  · split at hcall
    · cases hcall
      exact ho
    · obtain ⟨pages, hpages, hcall⟩ := Option.bind_eq_some_iff.mp hcall
      dsimp only at hcall
      split at hcall
      · cases hcall
        exact ho
      · next hcr3 =>
        have hroot := Uprocs.root_currentCr3 hcr3
        obtain ⟨_, -, hcall⟩ := Option.bind_eq_some_iff.mp hcall
        obtain ⟨phys, hprot, he⟩ := Option.bind_eq_some_iff.mp hcall
        cases he
        exact ho.touched hroot ((Phys.Orderly.space ho hroot).setPageProt (hok pages hpages) hprot).1 id

theorem Ordered.brk {r : Nat} (ho : Ordered m₀ s) (hcall : s.sysBrk addr = some (r, s')) : Ordered m₀ s' := by
  obtain ⟨⟨brk, procs, vmas⟩, hbrk, he⟩ := Option.map_eq_some_iff.mp hcall
  cases he
  refine Phys.Orderly.mono ho fun hr => ?_
  unfold Uprocs.sysBrk at hbrk
  split at hbrk
  · cases hbrk
    exact hr
  · split at hbrk
    · cases hbrk
      exact hr
    · obtain ⟨_, -, he⟩ := Option.bind_eq_some_iff.mp hbrk
      cases he
      exact Uprocs.root_update (f := fun p => { p with brkCur := r }) (fun _ => rfl) hr

theorem Ordered.fault {ok : Bool} (ho : Ordered m₀ s) (hva : va < userEnd) (hr : s.procs.Root cr3)
    (hcall : s.tryDemandPage va cr3 = some (ok, s')) : Ordered m₀ s' := by
  unfold tryDemandPage at hcall
  split at hcall
  · cases hcall
    exact ho
  · split at hcall
    · obtain ⟨phys, hpage, he⟩ := Option.bind_eq_some_iff.mp hcall
      cases he
      have hS := Phys.Orderly.space ho hr
      rw [demandAllocPage, addrOf_eq hS.tree.aligned] at hpage
      refine ho.touched hr (hS.mapZeroed (userHalf_of_lt ?_) (userFlags_lt _) hpage).touched id
      simp only [addrOf, pageSize, userEnd] at *
      omega
    · cases hcall
      exact ho

theorem Ordered.step (ho : Ordered m₀ s) (hk : KernelApart m₀) (hok : InOrder h s op)
    (hstep : s.step op = some (es, s')) : Ordered m₀ s' := by
  cases op with
  | enterElf lib elfData pid kstack =>
    obtain ⟨⟨image, s₁⟩, hcall, he⟩ := Option.map_eq_some_iff.mp hstep
    cases he
    exact ho.enter hk hok hcall
  | exec lib elfData =>
    obtain ⟨⟨image, s₁⟩, hcall, he⟩ := Option.map_eq_some_iff.mp hstep
    cases he
    exact ho.exec hk hok hcall
  | fork pid kstack =>
    obtain ⟨⟨r, s₁⟩, hcall, he⟩ := Option.map_eq_some_iff.mp hstep
    cases he
    exact ho.fork hk hcall
  | clone flags childTid newtls pid kstack =>
    obtain ⟨⟨r, s₁⟩, hcall, he⟩ := Option.map_eq_some_iff.mp hstep
    cases he
    exact ho.clone hk hcall
  | switchTo i =>
    cases hstep
    exact Phys.Orderly.mono ho fun hr =>
      Uprocs.root_modify (f := fun p => { p with state := .running }) (fun _ => rfl) hr
  | leave i =>
    cases hstep
    exact Phys.Orderly.mono ho fun hr => Uprocs.All.root (Uprocs.all_root.clear i) hr
  | mmap read addr len prot flags fd offset =>
    obtain ⟨⟨r, s₁⟩, hcall, he⟩ := Option.map_eq_some_iff.mp hstep
    cases he
    exact ho.mmap hok hcall
  | munmap addr len =>
    simp only [MemSys.step, Option.map_eq_some_iff] at hstep
    obtain ⟨⟨r, s₁⟩, hcall, he⟩ := hstep
    cases he
    exact ho.munmap hok hcall
  | mprotect addr len prot =>
    obtain ⟨⟨r, s₁⟩, hcall, he⟩ := Option.map_eq_some_iff.mp hstep
    cases he
    exact ho.mprotect hok hcall
  | brk addr =>
    obtain ⟨⟨r, s₁⟩, hcall, he⟩ := Option.map_eq_some_iff.mp hstep
    cases he
    exact ho.brk hcall
  | fault va =>
    obtain ⟨p, hp, hstep⟩ := Option.bind_eq_some_iff.mp hstep
    obtain ⟨⟨r, s₁⟩, hcall, he⟩ := Option.map_eq_some_iff.mp hstep
    cases he
    exact ho.fault hok (Uprocs.root_cur hp) hcall
  | store va b =>
    obtain ⟨p, hp, hstep⟩ := Option.bind_eq_some_iff.mp hstep
    obtain ⟨m, hstore, he⟩ := Option.map_eq_some_iff.mp hstep
    cases he
    have hr := Uprocs.root_cur hp
    exact ho.touched hr ((Phys.Orderly.space ho hr).storeUser (userHalf_of_lt hok) hstore) id

theorem ordered_of_runs (hk : KernelApart m₀) (hr : Runs MemSys.step InOrder (boot m₀) h s) : Ordered m₀ s :=
  hr.invariant_state (Ordered m₀) (ordered_boot m₀) fun ho hok hstep => ho.step hk hok hstep

end MemSys

end ChodOs
