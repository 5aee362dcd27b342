/-
What a new page shows of the frame's former contents (`paging/mod.rs`).
Two machines that differ in the contents of free frames only run the same
calls side by side: the page tables are cleared before they are used. A
page that is cleared as well shows the same in both; the stack pages are
mapped as they are and show what was there.
-/
import ChodOs.Paging.Clone

namespace ChodOs

open Pt

namespace Phys

/-! ## The code -/

/-- A cleared page at `va`, as `mmap_anon` and `demand_alloc_page` make one. -/
def mapZeroed (m : Phys) (root va flags : Nat) : Option Phys := do
  let (phys, m) ← m.alloc
  (m.zeroPage phys).map4k root va phys flags

/-- `PTE_USER | if writable { PTE_WRITABLE } else { 0 }`. -/
def userFlags (writable : Bool) : Nat := pteUser ||| if writable then pteWritable else 0

/-- `demand_alloc_page`. -/
def demandAllocPage (m : Phys) (cr3 va : Nat) (writable : Bool) : Option Phys :=
  m.mapZeroed (addrOf cr3) va (userFlags writable)

/-- `mmap_anon`. -/
def mmapAnon (m : Phys) (cr3 va pages : Nat) (writable : Bool) : Option Phys :=
  (List.range pages).foldlM
    (fun m i => do m.mapZeroed (addrOf cr3) (← addU64 va (i * pageSize)) (userFlags writable)) m

/-- `setup_user_stack`: the stack pointer. -/
def setupUserStack (m : Phys) (cr3 phdrVa phent phnum base entry : Nat) : Option (Nat × Phys) := do
  let (stackTopPhys, m) ← m.mapStack (addrOf cr3)
  let auxv := if phdrVa ≠ 0 ∨ base ≠ 0 then auxvDyn phdrVa phent phnum base entry else auxvStatic
  some (m.setupStack stackTopPhys userStackTop auxv)

/-! ## Two machines side by side -/

/-- The contents `b` agree with those of `m` in the frames in use, except those of `T`. -/
def Agrees (T : Nat → Prop) (m : Phys) (b : ByteMem) : Prop :=
  ∀ x, x / pageSize ∉ m.free → ¬T (x / pageSize) → b x = m.bytes x

/-- The machine with other contents. -/
def withBytes (m : Phys) (b : ByteMem) : Phys := { m with bytes := b }

variable {T D : Nat → Prop} {m m' m₁ : Phys} {b : ByteMem} {root va t i u f phys flags addr len : Nat} {g : Nat → UInt8}

@[simp] theorem withBytes_put : (m.withBytes b).put addr len g = (m.put addr len g).withBytes (b.patch addr len g) := rfl

theorem withBytes_alloc (h : m.alloc = some (phys, m₁)) : (m.withBytes b).alloc = some (phys, m₁.withBytes b) := by
  simp only [alloc, Option.bind_eq_bind, Option.bind_eq_some_iff, Option.some.injEq, Prod.mk.injEq] at h
  obtain ⟨⟨p, frames⟩, ha, rfl, rfl⟩ := h
  have ha' : (m.withBytes b).frames.allocFrame = some (p, frames) := ha
  simp only [alloc, ha', Option.bind_eq_bind, Option.bind_some]
  rfl

theorem patch_congr {b b' : ByteMem} {x : Nat} (h : b x = b' x) : b.patch addr len g x = b'.patch addr len g x := by
  unfold ByteMem.patch
  split
  · rfl
  · exact h

namespace Agrees

theorem put (h : Agrees T m b) : Agrees T (m.put addr len g) (b.patch addr len g) :=
  fun x hx hT => patch_congr (h x hx hT)

/-- A new frame that is filled holds the same in both. -/
theorem allocPut (h : Agrees T m b) (hal : m.Allocs f m₁) :
    Agrees T (m₁.put (f * pageSize) pageSize g) (b.patch (f * pageSize) pageSize g) := by
  intro x hx hT
  have hfree : (m₁.put (f * pageSize) pageSize g).free = m.free.erase f := hal.free
  by_cases hxf : x / pageSize = f
  · obtain ⟨o, rfl⟩ : ∃ o, x = f * pageSize + o := ⟨x - f * pageSize, by simp only [pageSize] at *; omega⟩
    have ho : o < pageSize := by
      simp only [pageSize] at *
      omega
    rw [ByteMem.patch_inside ho]
    exact (put_inside ho).symm
  · refine patch_congr ((h x (fun hmem => hx ?_) hT).trans (congrFun hal.bytes x).symm)
    rw [hfree]
    exact Finset.mem_erase.mpr ⟨hxf, hmem⟩

/-- One that is not is left out. -/
theorem alloc (h : Agrees T m b) (hal : m.Allocs f m₁) : Agrees (fun g => g = f ∨ T g) m₁ b := by
  intro x hx hT
  rw [not_or] at hT
  rw [h x (fun hmem => hx ?_) hT.2, hal.bytes]
  rw [hal.free]
  exact Finset.mem_erase.mpr ⟨hT.1, hmem⟩

theorem entry (h : Agrees T m b) (ht : t % pageSize = 0) (hused : t / pageSize ∉ m.free) (hT : ¬T (t / pageSize))
    (hi : i < 512) : (m.withBytes b).entry t i = m.entry t i :=
  entry_congr hi ht fun x hx => h x (hx ▸ hused) (hx ▸ hT)

theorem getOrCreate (h : Agrees T m b) (ht : t % pageSize = 0) (hused : t / pageSize ∉ m.free)
    (hT : ¬T (t / pageSize)) (hi : i < 512) (hrun : m.getOrCreate t i flags = some (u, m')) :
    ∃ b', (m.withBytes b).getOrCreate t i flags = some (u, m'.withBytes b') ∧ Agrees T m' b' := by
  have hentry := h.entry ht hused hT hi
  simp only [Phys.getOrCreate, Option.map_eq_some_iff, Prod.mk.injEq] at hrun
  obtain ⟨m₂, hrun, hu, rfl⟩ := hrun
  split at hrun
  · next hp =>
    cases hrun
    refine ⟨b, ?_, h⟩
    rw [Phys.getOrCreate, hentry, if_pos hp, Option.map_some, hentry, hu]
  · next hp =>
    simp only [allocTable, Option.bind_eq_bind, Option.map_eq_some_iff, Option.bind_eq_some_iff, Option.some.injEq,
      Prod.exists, Prod.mk.injEq] at hrun
    obtain ⟨phys, m₃, ⟨phys', m₄, ha, rfl, rfl⟩, rfl⟩ := hrun
    obtain ⟨f, rfl, hal⟩ := alloc_cases ha
    have hagree : Agrees T ((m₄.zeroPage (f * pageSize)).setEntry t i (f * pageSize ||| flags)) _ :=
      (h.allocPut hal).put
    refine ⟨_, ?_, hagree⟩
    rw [Phys.getOrCreate, hentry, if_neg hp, allocTable, withBytes_alloc ha]
    have hused' : t / pageSize ∉ ((m₄.zeroPage (f * pageSize)).setEntry t i (f * pageSize ||| flags)).free := by
      change t / pageSize ∉ m₄.free
      rw [hal.free]
      exact fun hmem => hused (Finset.mem_of_mem_erase hmem)
    have hlast := hagree.entry ht hused' hT hi
    rw [← hu, ← hlast]
    rfl

/-- `map_4k` reads tables only, and those are in use. -/
theorem map4k (h : Agrees T m b) (hTree : PageTree userHalf D m root) (hT : ∀ f, T f → D f)
    (hva : userHalf (idx 39 va)) (hrun : m.map4k root va phys flags = some m') :
    ∃ b', (m.withBytes b).map4k root va phys flags = some (m'.withBytes b') ∧ Agrees T m' b' := by
  simp only [Phys.map4k, Option.bind_eq_bind, Option.bind_eq_some_iff, Option.some.injEq, Prod.exists] at hrun
  obtain ⟨pdpt, m₁, h₁, pd, m₂, h₂, pt, m₃, h₃, rfl⟩ := hrun
  have hp₃ : Path userHalf ([idx 39 va, idx 30 va] ++ [idx 21 va]) := path_pathOf hva
  have hp₂ : Path userHalf ([idx 39 va] ++ [idx 30 va]) := hp₃.init
  have hp₁ : Path userHalf ([] ++ [idx 39 va]) := hp₂.init
  have hdata : ∀ {f}, ¬D f → ¬T f := fun hD hf => hD (hT _ hf)
  have s₁ := getOrCreate_spec hTree hp₁ rfl (by decide) (by decide) (by decide) h₁
  have hn₁ : m₁.node root [idx 39 va] = some pdpt := (s₁.node (q := [idx 39 va]) hp₁).trans (if_pos rfl)
  have s₂ := getOrCreate_spec s₁.tree hp₂ hn₁ (by decide) (by decide) (by decide) h₂
  have hn₂ : m₂.node root [idx 39 va, idx 30 va] = some pd :=
    (s₂.node (q := [idx 39 va, idx 30 va]) hp₂).trans (if_pos rfl)
  have u₀ := hTree.used ⟨[], root, path_nil, rfl, rfl⟩
  have u₁ := s₁.tree.used ⟨_, _, hp₂.init, hn₁, rfl⟩
  have u₂ := s₂.tree.used ⟨_, _, hp₃.init, hn₂, rfl⟩
  obtain ⟨b₁, r₁, a₁⟩ := h.getOrCreate hTree.aligned u₀.1 (hdata u₀.2) (idx_lt 39 va) h₁
  obtain ⟨b₂, r₂, a₂⟩ := a₁.getOrCreate (node_aligned s₁.tree.aligned hn₁) u₁.1 (hdata u₁.2) (idx_lt 30 va) h₂
  obtain ⟨b₃, r₃, a₃⟩ := a₂.getOrCreate (node_aligned s₂.tree.aligned hn₂) u₂.1 (hdata u₂.2) (idx_lt 21 va) h₃
  refine ⟨_, ?_, a₃.put⟩
  simp only [Phys.map4k, Option.bind_eq_bind, r₁, r₂, r₃, Option.bind_some]
  rfl

/-- The tables are the same in both. -/
theorem sameTables (h : Agrees T m b) (hTree : PageTree userHalf D m root)
    (hT : ∀ f, tables userHalf m root f → ¬T f) : SameTables userHalf m root (m.withBytes b) :=
  sameTables_of_bytes hTree.aligned fun x hx => h x (hTree.used hx).1 (hT _ hx)

/-- With no frame left out every user byte is the same. -/
theorem userByte (h : Agrees (fun _ => False) m b) (hTree : PageTree userHalf D m root)
    (hinto : MapsInto userHalf D m root) (hva : userHalf (idx 39 va)) :
    (m.withBytes b).userByte root va = m.userByte root va := by
  have hsame := h.sameTables hTree fun _ _ => not_false
  have hTree' : PageTree userHalf D (m.withBytes b) root :=
    hsame.tree hTree (fun hf => hTree.used hf) fun hf => hTree.data hf
  rw [Phys.userByte, Phys.userByte, hTree'.virtToPhys_eq hva, hTree.virtToPhys_eq hva, hsame.pte hva]
  cases hpte : m.pte root va with
  | none => rfl
  | some e =>
    rw [Option.map_some, Option.map_some, Option.map_some]
    refine congrArg some (h _ ?_ not_false)
    rw [addrOf_add_div]
    exact hTree.data (hinto hva hpte)

end Agrees

/-! ## Cleared pages -/

/-- Both machines hold the same in every frame in use, and the space is well-formed. -/
structure Alike (root : Nat) (m m₂ : Phys) : Prop where
  agrees : ∃ b, m₂ = m.withBytes b ∧ Agrees (fun _ => False) m b
  wellFormed : ∃ D, PageTree userHalf D m root ∧ MapsInto userHalf D m root

namespace Alike

variable {m₂ : Phys}

theorem mapZeroed (h : Alike root m m₂) (hva : userHalf (idx 39 va)) (hflags : flags < pageSize)
    (hrun : m.mapZeroed root va flags = some m') : ∃ m₂', m₂.mapZeroed root va flags = some m₂' ∧ Alike root m' m₂' := by
  obtain ⟨⟨b, rfl, hb⟩, D, hTree, hinto⟩ := h
  simp only [Phys.mapZeroed, Option.bind_eq_bind, Option.bind_eq_some_iff, Prod.exists] at hrun
  obtain ⟨phys, m₁, ha, hmap⟩ := hrun
  obtain ⟨f, rfl, hal⟩ := alloc_cases ha
  have hzero : ∀ x, tables userHalf m root (x / pageSize) → (m₁.zeroPage (f * pageSize)).bytes x = m.bytes x :=
    fun x hx => hal.zeroPage_bytes fun he => (hTree.used hx).1 (he ▸ hal.mem)
  obtain ⟨hsame, hTree₁⟩ := hTree.alloc hal (show (m₁.zeroPage (f * pageSize)).free = m₁.free from rfl) hzero
  have hM := map4k_spec hTree₁ hva hal.frame_lt hflags hmap
  obtain ⟨b', hrun', hb'⟩ := (hb.allocPut hal (g := fun _ => 0)).map4k hTree₁ (fun _ => False.elim) hva hmap
  refine ⟨m'.withBytes b', ?_, ⟨b', rfl, hb'⟩, _, hM.tree, hM.mapsInto (fun {va' e} hva' he => .inr ?_) ?_⟩
  · simp only [Phys.mapZeroed, withBytes_alloc ha, Option.bind_eq_bind, Option.bind_some, zeroPage, withBytes_put]
    exact hrun'
  · rw [hsame.pte hva'] at he
    exact hinto hva' he
  · left
    rw [addrOf_eq (Nat.mul_mod_left f pageSize), Nat.or_assoc, ← addrOf_div,
      addrOf_lor (Nat.mul_mod_left _ _) (Nat.or_lt_two_pow (n := 12) hflags (by decide))]
    exact Nat.mul_div_cancel _ (by decide)

theorem mmapAnon {cr3 pages : Nat} {writable : Bool} (h : Alike (addrOf cr3) m m₂)
    (huser : va + pages * pageSize ≤ 2 ^ 47) (hrun : m.mmapAnon cr3 va pages writable = some m') :
    ∃ m₂', m₂.mmapAnon cr3 va pages writable = some m₂' ∧ Alike (addrOf cr3) m' m₂' := by
  refine Loop.simulation (Alike (addrOf cr3)) hrun h fun {i s s' t} hi hR hstep => ?_
  simp only [Option.bind_eq_bind, Option.bind_eq_some_iff, addU64_eq_some] at hstep
  obtain ⟨_, ⟨hlt, rfl⟩, hstep⟩ := hstep
  have hi := List.mem_range.mp hi
  have hle : (i + 1) * pageSize ≤ pages * pageSize := Nat.mul_le_mul_right _ hi
  obtain ⟨t', ht', hR'⟩ := hR.mapZeroed (userHalf_of_lt (by rw [Nat.add_mul] at hle; simp only [pageSize] at *; omega))
    (by cases writable <;> decide) hstep
  refine ⟨t', ?_, hR'⟩
  rw [(addU64_eq_some).mpr ⟨hlt, rfl⟩]
  exact ht'

theorem userByte (h : Alike root m m₂) (hva : userHalf (idx 39 va)) : m₂.userByte root va = m.userByte root va := by
  obtain ⟨⟨b, rfl, hb⟩, D, hTree, hinto⟩ := h
  exact hb.userByte hTree hinto hva

end Alike

/-! ## Stack pages -/

variable {top : Nat} {auxv : List Nat}

/-- Writes to the new stack go to its top frame. -/
theorem pushWords_frame {vs : List Nat} {cur : Nat} (hcur : cur ≤ pageSize) :
    (m.pushWords (f * pageSize) cur vs).2.free = m.free ∧
      ∀ x, x / pageSize ≠ f → (m.pushWords (f * pageSize) cur vs).2.bytes x = m.bytes x := by
  induction vs generalizing cur m with
  | nil => exact ⟨rfl, fun _ _ => rfl⟩
  | cons v vs ih =>
    obtain ⟨hfree, hbytes⟩ := @ih (m.put (f * pageSize + (cur - 8)) 8 (ByteMem.leByte v)) (cur - 8) (by omega)
    refine ⟨hfree, fun x hx => (hbytes x hx).trans (put_outside ?_)⟩
    simp only [pageSize] at *
    omega

theorem setupStack_frame : (m.setupStack (f * pageSize) top auxv).2.free = m.free ∧
    ∀ x, x / pageSize ≠ f → (m.setupStack (f * pageSize) top auxv).2.bytes x = m.bytes x := by
  have hname : ∀ x, x / pageSize ≠ f →
      (m.copyIn [0x70, 0x72, 0x6F, 0x67, 0] 0 (f * pageSize + 4091) 5).bytes x = m.bytes x := by
    intro x hx
    refine put_outside ?_
    simp only [pageSize] at *
    omega
  obtain ⟨hfree, hbytes⟩ := @pushWords_frame (m.copyIn [0x70, 0x72, 0x6F, 0x67, 0] 0 (f * pageSize + 4091) 5) f
    (auxv ++ [0, 0, top - pageSize + 4091, 1]) (4091 / 16 * 16) (by decide)
  exact ⟨hfree, fun x hx => (hbytes x hx).trans (hname x hx)⟩

/-- The lowest page of a stack made in `m`: its frame `f` was free, and its
bytes are the ones that were there. -/
structure LowestPage (D : Nat → Prop) (m : Phys) (root f : Nat) (m' : Phys) : Prop where
  tree : PageTree userHalf D m' root
  data : D f
  fresh : f ∈ m.free
  pte : m'.pte root (252 * pageSize) = some (f * pageSize ||| (pteWritable ||| pteUser) ||| ptePresent)
  bytes : ∀ x, x / pageSize = f → m'.bytes x = m.bytes x

/-- The stack pages are allocated from the top one down, in frames from the
lowest one up, and mapped as they are. -/
theorem mapStack_lowest (hTree : PageTree userHalf D m root) (h : m.mapStack root = some (top, m')) :
    ∃ D' f t, top = t * pageSize ∧ D' t ∧ t ∈ m.free ∧ t < f ∧ LowestPage D' m root f m' := by
  have hloop := Loop.invariant_range (fun i (s : Nat × Phys) => ∃ D', PageTree userHalf D' s.2 root ∧
    Within 0 (· ∉ m.free) m s.2 ∧ (0 < i → ∃ t, s.1 = t * pageSize ∧ D' t ∧ Owned m s.2 t) ∧
    (i = 4 → ∃ f t, s.1 = t * pageSize ∧ t < f ∧ LowestPage D' m root f s.2)) h
    ⟨D, hTree, .refl _ _ _, fun hi => absurd hi (Nat.lt_irrefl 0), nofun⟩ fun {i s s'} hi hI hstep => ?_
  · obtain ⟨D', -, -, htop, hlast⟩ := hloop
    obtain ⟨t, ht, hDt, hown⟩ := htop (by decide)
    obtain ⟨f, t', ht', hlt, hlow⟩ := hlast rfl
    obtain rfl : t = t' := Nat.eq_of_mul_eq_mul_right (by decide) (ht.symm.trans ht')
    exact ⟨D', f, t, ht, hDt, hown.1, hlt, hlow⟩
  · obtain ⟨D', hTree, hw, htop, -⟩ := hI
    obtain ⟨top, m₁⟩ := s
    simp only [Option.bind_eq_bind, Option.bind_eq_some_iff, Option.some.injEq, Prod.exists] at hstep
    obtain ⟨phys, m₂, ha, m₃, hmap, rfl⟩ := hstep
    obtain ⟨f, rfl, hal⟩ := alloc_cases ha
    have hi4 : i < 4 := hi
    have hva : userStackTop - (i + 1) * pageSize = (255 - i) * pageSize := by
      simp only [userStackTop, pageSize] at *
      omega
    rw [hva] at hmap
    obtain ⟨hhalf, -⟩ := page_user (p := 255 - i) (by omega)
    obtain ⟨hsame, hTree₂⟩ := hTree.alloc hal rfl fun x _ => congrFun hal.bytes x
    have hM := map4k_spec hTree₂ hhalf hal.frame_lt (by decide) hmap
    have hw₂ : Within 0 (· ∉ m.free) m m₂ := hw.allocs hal
    have hw₃ : Within 0 (· ∉ m.free) m m₃ := hw₂.trans hM.within (Nat.le_refl 0) fun g hg => by
      by_cases hgm : g ∈ m.free
      · exact .inr ⟨hgm, (hTree₂.used hg).1⟩
      · exact .inl hgm
    have hown : Owned m m₂ f := ⟨hw.free hal.mem, (hTree₂.data (.inl rfl))⟩
    refine ⟨_, hM.tree, hw₃, fun _ => ?_, fun hi3 => ?_⟩
    · rcases Nat.eq_zero_or_pos i with rfl | hpos
      · exact ⟨f, rfl, .inl rfl, hM.within.owned_left hown⟩
      · obtain ⟨t, ht, hDt, ho⟩ := htop hpos
        exact ⟨t, (if_neg (Nat.ne_of_gt hpos)).trans ht, .inr hDt,
          hM.within.owned_left ⟨ho.1, fun hmem => (hTree₂.data (.inr hDt)) hmem⟩⟩
    · obtain rfl : i = 3 := by omega
      obtain ⟨t, ht, -, ho⟩ := htop (by decide)
      refine ⟨f, t, ht, hw.low ho hal.mem, hM.tree, .inl rfl, hown.1, ?_, fun x hx => ?_⟩
      · rw [hM.pte hhalf, if_pos rfl, addrOf_eq (Nat.mul_mod_left _ _)]
      · -- The frame was free until now, and neither the call nor the mapping has written it.
        rw [hM.within.bytes_eq (fun ht => (hTree₂.used ht).2 (.inl hx)) fun ho' => hown.2 (hx ▸ ho'.1), hal.bytes]
        exact hw.bytes_eq (fun hn => hn (hx ▸ hown.1)) fun ho' => ho'.2 (hx ▸ hal.mem)

theorem setupStack_sameTables (top : Nat) (auxv : List Nat) {t : Nat} (hTree : PageTree userHalf D m root) (hD : D t) :
    SameTables userHalf m root (m.setupStack (t * pageSize) top auxv).2 :=
  sameTables_of_bytes hTree.aligned fun x hx => setupStack_frame.2 x fun he => (hTree.used hx).2 (he ▸ hD)

theorem LowestPage.setupStack (top : Nat) (auxv : List Nat) {t : Nat} (h : LowestPage D m root f m') (hD : D t) (hlt : t < f) :
    LowestPage D m root f (m'.setupStack (t * pageSize) top auxv).2 := by
  obtain ⟨hfree, hbytes⟩ := @setupStack_frame m' t top auxv
  have hsame := setupStack_sameTables top auxv h.tree hD
  refine ⟨hsame.tree h.tree (fun hf => by rw [hfree]; exact h.tree.used hf) fun hf => by
    rw [hfree]; exact h.tree.data hf, h.data, h.fresh, ?_, fun x hx => ?_⟩
  · rw [hsame.pte (page_user (by decide)).1, h.pte]
  · rw [hbytes x (by omega), h.bytes x hx]

variable {data : List UInt8} {base entry sp : Nat} {segs : List PtLoad} {elf : Elf64} {m₂ : Phys}

/-- The same for a whole new space: no segment reaches the frame, since
three frames of the stack lie between. -/
theorem loadSpace_lowest (hparse : Elf64.parse data = some elf) (hsegs : elf.loadSegments = some segs)
    (huser : ∀ seg ∈ segs, base + seg.vaddr + seg.memsz ≤ 2 ^ 47)
    (h : m.loadSpace data base auxv = some ((root, entry, sp), m')) : ∃ D f, LowestPage D m root f m' := by
  obtain ⟨m₁, m₂, m₃, top, hroot, hload, hstack, rfl⟩ := loadSpace_cases hparse hsegs h
  obtain ⟨D, hfill, -⟩ := (Loading.start (k := 1) hroot).loadSegments (fun hk => absurd hk (by decide)) huser hload
  have hL := hfill.loading
  obtain ⟨D', f, t, rfl, hDt, htfree, hlt, hlow⟩ := mapStack_lowest hL.tree hstack
  have hfinal := hlow.setupStack userStackTop auxv hDt hlt
  refine ⟨D', f, hfinal.tree, hfinal.data, hL.within.free hfinal.fresh, hfinal.pte, fun x hx => ?_⟩
  rw [hfinal.bytes x hx]
  by_contra hne
  obtain ⟨g, hg, hle, hle'⟩ := (hL.within.bytes hne).resolve_left id
  have hgt := hL.within.low hg htfree
  omega

/-! ## The other machine keeps up -/

namespace Agrees

theorem copyPhys {src dst : Nat} (h : Agrees T m b)
    (hsrc : ∀ x, src ≤ x → x < src + len → x / pageSize ∉ m.free ∧ ¬T (x / pageSize)) :
    Agrees T (m.copyPhys src dst len) ((m.withBytes b).copyPhys src dst len).bytes := by
  intro x hx hT
  change b.patch dst len (fun i => b (src + i)) x = m.bytes.patch dst len (fun i => m.bytes (src + i)) x
  unfold ByteMem.patch
  split
  · next hin =>
    obtain ⟨hu, hT'⟩ := hsrc (src + (x - dst)) (by omega) (by omega)
    exact h _ hu hT'
  · exact h x hx hT

theorem allocUserPml4 (h : Agrees T m b) (hk : addrOf m.kernelCr3 / pageSize ∉ m.free)
    (hT : ¬T (addrOf m.kernelCr3 / pageSize)) (hrun : m.allocUserPml4 = some (root, m')) :
    ∃ b', (m.withBytes b).allocUserPml4 = some (root, m'.withBytes b') ∧ Agrees T m' b' := by
  simp only [Phys.allocUserPml4, allocTable, Option.bind_eq_bind, Option.bind_eq_some_iff, Option.some.injEq,
    Prod.exists, Prod.mk.injEq] at hrun
  obtain ⟨_, m₂, ⟨phys, m₁, ha, rfl, rfl⟩, rfl, rfl⟩ := hrun
  obtain ⟨f, rfl, hal⟩ := alloc_cases ha
  have hz : Agrees T (m₁.zeroPage (f * pageSize)) _ := h.allocPut hal
  have hcr3 : (m₁.zeroPage (f * pageSize)).kernelCr3 = m.kernelCr3 := hal.kernelCr3
  refine ⟨_, ?_, hz.copyPhys fun x hx hx' => ?_⟩
  · simp only [Phys.allocUserPml4, allocTable, withBytes_alloc ha, Option.bind_eq_bind, Option.bind_some]
    rfl
  · rw [hcr3] at hx hx'
    have hxf : x / pageSize = addrOf m.kernelCr3 / pageSize := by
      simp only [addrOf, pageSize] at *
      omega
    rw [hxf]
    refine ⟨fun hmem => hk ?_, hT⟩
    have hfree : (m₁.zeroPage (f * pageSize)).free = m.free.erase f := hal.free
    rw [hfree] at hmem
    exact Finset.mem_of_mem_erase hmem

theorem copyPage {mapped vpage : Nat} {seg : PtLoad} (h : Agrees T m b)
    (hrun : Phys.copyPage data mapped seg m phys vpage = some m') :
    ∃ b', Phys.copyPage data mapped seg (m.withBytes b) phys vpage = some (m'.withBytes b') ∧ Agrees T m' b' := by
  simp only [Phys.copyPage, Option.bind_eq_bind, Option.bind_eq_some_iff, Option.some.injEq] at hrun
  obtain ⟨a₁, h₁, a₂, h₂, a₃, h₃, rfl⟩ := hrun
  simp only [Phys.copyPage, h₁, h₂, h₃, Option.bind_eq_bind, Option.bind_some]
  split
  · exact ⟨_, rfl, h.put⟩
  · exact ⟨b, rfl, h⟩

theorem pushWords (phys cur : Nat) (vs : List Nat) (h : Agrees T m b) : ∃ b',
    (m.withBytes b).pushWords phys cur vs = ((m.pushWords phys cur vs).1, (m.pushWords phys cur vs).2.withBytes b') ∧
      Agrees T (m.pushWords phys cur vs).2 b' := by
  induction vs generalizing cur m b with
  | nil => exact ⟨b, rfl, h⟩
  | cons v vs ih => exact ih _ h.put

theorem setupStack (phys top : Nat) (auxv : List Nat) (h : Agrees T m b) : ∃ b', (m.withBytes b).setupStack phys top auxv =
    ((m.setupStack phys top auxv).1, (m.setupStack phys top auxv).2.withBytes b') ∧
      Agrees T (m.setupStack phys top auxv).2 b' := by
  have hname : Agrees T (m.copyIn [0x70, 0x72, 0x6F, 0x67, 0] 0 (phys + 4091) 5) _ := h.put
  obtain ⟨b', hrun, hb'⟩ := hname.pushWords phys (4091 / 16 * 16) (auxv ++ [0, 0, top - pageSize + 4091, 1])
  exact ⟨b', congrArg (fun r => (top - pageSize + r.1, r.2)) hrun, hb'⟩

/-- The stack pages are left out: they are not cleared. -/
theorem mapStack (h : Agrees T m b) (hTree : PageTree userHalf D m root) (hT : ∀ f, T f → D f)
    (hrun : m.mapStack root = some (top, m')) : ∃ T' D' b', (m.withBytes b).mapStack root = some (top, m'.withBytes b') ∧
      PageTree userHalf D' m' root ∧ (∀ f, T' f → D' f) ∧ Agrees T' m' b' := by
  have hloop : ∃ t, (m.withBytes b).mapStack root = some t ∧ ∃ T' D' b', t = (top, m'.withBytes b') ∧
      PageTree userHalf D' m' root ∧ (∀ f, T' f → D' f) ∧ Agrees T' m' b' := by
    refine Loop.simulation (fun (s t : Nat × Phys) => ∃ T' D' b', t = (s.1, s.2.withBytes b') ∧
      PageTree userHalf D' s.2 root ∧ (∀ f, T' f → D' f) ∧ Agrees T' s.2 b') hrun ⟨T, D, b, rfl, hTree, hT, h⟩
      fun {i s s' t} hi hR hstep => ?_
    obtain ⟨T', D', b', rfl, hTree', hT', hb'⟩ := hR
    obtain ⟨top', m₁⟩ := s
    simp only [Option.bind_eq_bind, Option.bind_eq_some_iff, Option.some.injEq, Prod.exists] at hstep
    obtain ⟨phys, m₂, ha, m₃, hmap, rfl⟩ := hstep
    obtain ⟨f, rfl, hal⟩ := alloc_cases ha
    have hi4 : i < 4 := List.mem_range.mp hi
    have hva : userStackTop - (i + 1) * pageSize = (255 - i) * pageSize := by
      simp only [userStackTop, pageSize] at *
      omega
    rw [hva] at hmap
    obtain ⟨hhalf, -⟩ := page_user (p := 255 - i) (by omega)
    obtain ⟨-, hTree₂⟩ := hTree'.alloc hal rfl fun x _ => congrFun hal.bytes x
    have hT₂ : ∀ g, g = f ∨ T' g → g = f ∨ D' g := fun g hg => hg.imp_right (hT' g)
    obtain ⟨b₂, hmap₂, hb₂⟩ := (hb'.alloc hal).map4k hTree₂ hT₂ hhalf hmap
    have hrun₂ : (m₁.withBytes b').alloc = some (f * pageSize, m₂.withBytes b') := withBytes_alloc ha
    refine ⟨_, ?_, _, _, b₂, rfl, (map4k_spec hTree₂ hhalf hal.frame_lt (by decide) hmap).tree, hT₂, hb₂⟩
    simp only [hrun₂, Option.bind_eq_bind, Option.bind_some, hva, hmap₂]
  obtain ⟨_, hrun', T', D', b', rfl, hrest⟩ := hloop
  exact ⟨T', D', b', hrun', hrest⟩

/-- One turn of the page loop of a loader. -/
theorem loadPage {m₀ : Phys} {mapped : Nat} {seg : PtLoad} (h : Agrees (fun _ => False) m b)
    (hL : Loading 1 m₀ root D m) (hva : userHalf (idx 39 (addrOf mapped + i * pageSize)))
    (hrun : m.loadPage root data mapped seg (addrOf mapped + i * pageSize) = some m') : ∃ b',
      (m.withBytes b).loadPage root data mapped seg (addrOf mapped + i * pageSize) = some (m'.withBytes b') ∧
        Agrees (fun _ => False) m' b' := by
  simp only [Phys.loadPage, Option.bind_eq_bind, Option.bind_eq_some_iff, Prod.exists] at hrun
  obtain ⟨phys, m₁, ha, m₂, hcopy, hmap⟩ := hrun
  obtain ⟨f, rfl, hal, -, hfree, hbelow⟩ := hL.fill (fun hk => absurd hk (by decide)) ha hcopy
  obtain ⟨-, hTree⟩ := hL.tree.alloc hal hfree fun x hx => hbelow x (hL.within.low (hL.own hx) hal.mem)
  obtain ⟨b₁, hcopy₁, hb₁⟩ := (h.allocPut hal (g := fun _ => 0)).copyPage hcopy
  obtain ⟨b₂, hmap₂, hb₂⟩ := hb₁.map4k hTree (fun _ => False.elim) hva hmap
  refine ⟨b₂, ?_, hb₂⟩
  simp only [Phys.loadPage, withBytes_alloc ha, Option.bind_eq_bind, Option.bind_some, zeroPage, withBytes_put, hcopy₁,
    hmap₂]

end Agrees

/-- A space under construction in the one machine and in the other. -/
def Beside (m₀ : Phys) (root : Nat) (m m₂ : Phys) : Prop :=
  ∃ D b, Loading 1 m₀ root D m ∧ m₂ = m.withBytes b ∧ Agrees (fun _ => False) m b

theorem Beside.loadSegment {m₀ m₂ : Phys} {seg : PtLoad} (h : Beside m₀ root m m₂)
    (huser : base + seg.vaddr + seg.memsz ≤ 2 ^ 47) (hrun : m.loadSegment root base data seg = some m') :
    ∃ m₂', m₂.loadSegment root base data seg = some m₂' ∧ Beside m₀ root m' m₂' := by
  simp only [Phys.loadSegment, Option.bind_eq_bind, Option.bind_eq_some_iff] at hrun ⊢
  obtain ⟨mapped, h₁, _, h₂, last, h₃, hrun⟩ := hrun
  obtain ⟨-, hmapped⟩ := addU64_eq_some.mp h₁
  obtain ⟨-, rfl⟩ := addU64_eq_some.mp h₂
  obtain ⟨-, rfl⟩ := addU64_eq_some.mp h₃
  rw [hmapped] at huser
  have hloop : ∃ m₂', (List.range ((addrOf (mapped + seg.memsz + 0xFFF) - addrOf mapped) / pageSize)).foldlM
      (fun m i => m.loadPage root data mapped seg (addrOf mapped + i * pageSize)) m₂ = some m₂' ∧
        Beside m₀ root m' m₂' := by
    refine Loop.simulation (Beside m₀ root) hrun h fun {i s s' t} hi hR hstep => ?_
    obtain ⟨D, b, hL, rfl, hb⟩ := hR
    have hi := List.mem_range.mp hi
    have hva : userHalf (idx 39 (addrOf mapped + i * pageSize)) := by
      refine userHalf_of_lt ?_
      simp only [addrOf, pageSize] at *
      omega
    obtain ⟨b', hrun', hb'⟩ := hb.loadPage hL hva hstep
    obtain ⟨D', hfill, -⟩ := hL.loadPage (fun hk => absurd hk (by decide)) hva hstep
    exact ⟨_, hrun', D', b', hfill.loading, rfl, hb'⟩
  obtain ⟨m₂', hrun', h'⟩ := hloop
  exact ⟨m₂', ⟨mapped, h₁, _, h₂, _, h₃, hrun'⟩, h'⟩

/-- So does a stack, with the same tables. -/
theorem stack_beside (top : Nat) (auxv : List Nat) {t : Nat} {m₃ : Phys} (hb : Agrees T m b) (hTree : PageTree userHalf D m root)
    (hT : ∀ f, T f → D f) (hstack : m.mapStack root = some (t, m₃)) : ∃ m₂ b', (m.withBytes b).mapStack root = some (t, m₂) ∧
      m₂.setupStack t top auxv = ((m₃.setupStack t top auxv).1, (m₃.setupStack t top auxv).2.withBytes b') ∧
      SameTables userHalf (m₃.setupStack t top auxv).2 root ((m₃.setupStack t top auxv).2.withBytes b') := by
  obtain ⟨T', D', b₃, hstack', hTree₃, hT', hb₃⟩ := hb.mapStack hTree hT hstack
  obtain ⟨b₄, hsetup, hb₄⟩ := hb₃.setupStack t top auxv
  obtain ⟨D'', f, t', rfl, hD, -, hlt, hlow⟩ := mapStack_lowest hTree hstack
  have hsame := setupStack_sameTables top auxv hlow.tree hD
  refine ⟨_, b₄, hstack', hsetup, hb₄.sameTables (hlow.setupStack top auxv hD hlt).tree fun g hg hTg => ?_⟩
  exact (hTree₃.used (hsame.tables_iff.mp hg)).2 (hT' g hTg)

/-- A loader ends in the other machine too, with the same tables. -/
theorem loadSpace_beside (hparse : Elf64.parse data = some elf) (hsegs : elf.loadSegments = some segs)
    (huser : ∀ seg ∈ segs, base + seg.vaddr + seg.memsz ≤ 2 ^ 47) (hk : addrOf m.kernelCr3 / pageSize ∉ m.free)
    (hb : Agrees (fun _ => False) m b) (h : m.loadSpace data base auxv = some ((root, entry, sp), m')) :
    ∃ b', (m.withBytes b).loadSpace data base auxv = some ((root, entry, sp), m'.withBytes b') ∧
      SameTables userHalf m' root (m'.withBytes b') := by
  simp only [loadSpace, hparse, hsegs, Option.bind_eq_bind, Option.bind_some, Option.bind_eq_some_iff,
    Option.some.injEq, Prod.exists, Prod.mk.injEq] at h
  obtain ⟨_, hentry, r, m₁, hroot, m₂, hload, top, m₃, hstack, ⟨rfl, rfl, rfl⟩, rfl⟩ := h
  obtain ⟨b₁, hroot', hb₁⟩ := hb.allocUserPml4 hk not_false hroot
  have hsegments : ∃ m₂', segs.foldlM (Phys.loadSegment r base data) (m₁.withBytes b₁) = some m₂' ∧
      Beside m r m₂ m₂' :=
    Loop.simulation (Beside m r) hload ⟨_, b₁, Loading.start hroot, rfl, hb₁⟩
      fun hseg hR hstep => hR.loadSegment (huser _ hseg) hstep
  obtain ⟨_, hload', D, b₂, hL, rfl, hb₂⟩ := hsegments
  obtain ⟨m₃', b', hstack', hsetup, hsame⟩ := stack_beside userStackTop auxv hb₂ hL.tree (fun _ => False.elim) hstack
  refine ⟨b', ?_, hsame⟩
  simp only [loadSpace, hparse, hsegs, hentry, hroot', hload', hstack', hsetup, Option.bind_eq_bind, Option.bind_some]

end Phys

open Phys

/-! ## The calls -/

/-- The calls that map user pages to new frames. -/
inductive PageCall
  | loadElf (elfData : List UInt8)
  | loadDyn (elfData : List UInt8) (baseAddr phdrVa phent phnum execEntry finalEntry : Nat)
  | setupUserStack (cr3 phdrVa phent phnum base entry : Nat)
  | mmapAnon (cr3 va pages : Nat) (writable : Bool)
  | demandAllocPage (cr3 va : Nat) (writable : Bool)

namespace PageCall

/-- The call, with the address of the top-level table it works on. -/
def run (m : Phys) : PageCall → Option (Nat × Phys)
  | loadElf elfData => (m.loadElfIntoSpace elfData).map fun ((cr3, _, _), m) => (cr3, m)
  | loadDyn elfData baseAddr phdrVa phent phnum execEntry finalEntry =>
    (m.loadDynExec elfData baseAddr phdrVa phent phnum execEntry finalEntry).map fun ((cr3, _, _), m) => (cr3, m)
  | setupUserStack cr3 phdrVa phent phnum base entry =>
    (m.setupUserStack cr3 phdrVa phent phnum base entry).map fun (_, m) => (addrOf cr3, m)
  | mmapAnon cr3 va pages writable => (m.mmapAnon cr3 va pages writable).map fun m => (addrOf cr3, m)
  | demandAllocPage cr3 va writable => (m.demandAllocPage cr3 va writable).map fun m => (addrOf cr3, m)

/-- The calls that clear every page they map. -/
def clears : PageCall → Bool
  | mmapAnon .. | demandAllocPage .. => true
  | _ => false

/-- The segments of an image lie at user addresses. -/
def UserSegments (elfData : List UInt8) (base : Nat) : Prop :=
  ∀ segs ∈ (Elf64.parse elfData).bind Elf64.loadSegments, ∀ seg ∈ segs, base + seg.vaddr + seg.memsz ≤ 2 ^ 47

/-- The call is for user addresses, of a well-formed space if there is one already. -/
def Valid (m : Phys) : PageCall → Prop
  | loadElf elfData => addrOf m.kernelCr3 / pageSize ∉ m.free ∧ UserSegments elfData 0
  | loadDyn elfData baseAddr _ _ _ _ _ => addrOf m.kernelCr3 / pageSize ∉ m.free ∧ UserSegments elfData baseAddr
  | setupUserStack cr3 _ _ _ _ _ => PageTree userHalf (pages m (addrOf cr3)) m (addrOf cr3)
  | mmapAnon cr3 va pages _ =>
    PageTree userHalf (Phys.pages m (addrOf cr3)) m (addrOf cr3) ∧ va + pages * pageSize ≤ 2 ^ 47
  | demandAllocPage cr3 va _ => PageTree userHalf (pages m (addrOf cr3)) m (addrOf cr3) ∧ va < 2 ^ 47

/-- Whatever the free frames held, the space shows the same user bytes. -/
def NoResidue (m : Phys) (call : PageCall) (root : Nat) (m' : Phys) : Prop :=
  ∀ b, Agrees (fun _ => False) m b → ∃ m₂', run (m.withBytes b) call = some (root, m₂') ∧
    ∀ va < 2 ^ 47, m₂'.userByte root va = m'.userByte root va

variable {m m' : Phys} {call : PageCall} {root : Nat} {b : ByteMem}

theorem noResidue_of_clears (hv : Valid m call) (hc : call.clears = true) (h : run m call = some (root, m')) :
    NoResidue m call root m' := by
  intro b hb
  have halike : ∀ {cr3}, PageTree userHalf (pages m cr3) m cr3 → Alike cr3 m (m.withBytes b) := fun hT =>
    ⟨⟨b, rfl, hb⟩, _, hT, fun hva he => ⟨_, _, hva, he, rfl⟩⟩
  cases call with
  | loadElf | loadDyn | setupUserStack => cases hc
  | mmapAnon cr3 va pages writable =>
    obtain ⟨m', hrun, he⟩ := Option.map_eq_some_iff.mp h
    cases he
    obtain ⟨m₂', hrun', hA⟩ := (halike hv.1).mmapAnon hv.2 hrun
    exact ⟨m₂', Option.map_eq_some_iff.mpr ⟨m₂', hrun', rfl⟩, fun va hva => hA.userByte (userHalf_of_lt hva)⟩
  | demandAllocPage cr3 va writable =>
    obtain ⟨m', hrun, he⟩ := Option.map_eq_some_iff.mp h
    cases he
    obtain ⟨m₂', hrun', hA⟩ := (halike hv.1).mapZeroed (userHalf_of_lt hv.2) (by cases writable <;> decide) hrun
    exact ⟨m₂', Option.map_eq_some_iff.mpr ⟨m₂', hrun', rfl⟩, fun va hva => hA.userByte (userHalf_of_lt hva)⟩

/-- The other calls leave the lowest page of the stack as it was, in the other machine too. -/
theorem lowest_of_not_clears (hv : Valid m call) (hc : call.clears = false) (h : run m call = some (root, m')) :
    (∃ D f, LowestPage D m root f m') ∧ ∀ {b}, Agrees (fun _ => False) m b →
      ∃ b', run (m.withBytes b) call = some (root, m'.withBytes b') ∧ SameTables userHalf m' root (m'.withBytes b') := by
  have hloader : ∀ {data base auxv r e sp m'}, addrOf m.kernelCr3 / pageSize ∉ m.free → UserSegments data base →
      m.loadSpace data base auxv = some ((r, e, sp), m') → (∃ D f, LowestPage D m r f m') ∧
        ∀ {b}, Agrees (fun _ => False) m b →
          ∃ b', (m.withBytes b).loadSpace data base auxv = some ((r, e, sp), m'.withBytes b') ∧
            SameTables userHalf m' r (m'.withBytes b') := by
    intro data base auxv r e sp m' hk huser hload
    obtain ⟨elf, segs, hparse, hsegs⟩ := loadSpace_parses hload
    have hall := huser segs (by rw [hparse]; exact hsegs)
    exact ⟨loadSpace_lowest hparse hsegs hall hload, fun hb => loadSpace_beside hparse hsegs hall hk hb hload⟩
  cases call with
  | mmapAnon | demandAllocPage => cases hc
  | loadElf elfData =>
    obtain ⟨⟨⟨r, e, sp⟩, m'⟩, hload, he⟩ := Option.map_eq_some_iff.mp h
    cases he
    obtain ⟨hlow, hbeside⟩ := hloader hv.1 hv.2 hload
    refine ⟨hlow, fun hb => ?_⟩
    obtain ⟨b', hload', hsame⟩ := hbeside hb
    exact ⟨b', Option.map_eq_some_iff.mpr ⟨_, hload', rfl⟩, hsame⟩
  | loadDyn elfData baseAddr phdrVa phent phnum execEntry finalEntry =>
    obtain ⟨⟨⟨r, e, sp⟩, m'⟩, hdyn, he⟩ := Option.map_eq_some_iff.mp h
    cases he
    obtain ⟨⟨⟨r', e', sp'⟩, m'⟩, hload, he⟩ := Option.map_eq_some_iff.mp hdyn
    cases he
    obtain ⟨hlow, hbeside⟩ := hloader hv.1 hv.2 hload
    refine ⟨hlow, fun hb => ?_⟩
    obtain ⟨b', hload', hsame⟩ := hbeside hb
    exact ⟨b', Option.map_eq_some_iff.mpr ⟨_, Option.map_eq_some_iff.mpr ⟨_, hload', rfl⟩, rfl⟩, hsame⟩
  | setupUserStack cr3 phdrVa phent phnum base entry =>
    obtain ⟨⟨sp, m'⟩, hrun, he⟩ := Option.map_eq_some_iff.mp h
    cases he
    simp only [Phys.setupUserStack, Option.bind_eq_bind, Option.bind_eq_some_iff, Option.some.injEq,
      Prod.exists] at hrun
    obtain ⟨top, m₃, hstack, hset⟩ := hrun
    generalize hauxv : (if phdrVa ≠ 0 ∨ base ≠ 0 then auxvDyn phdrVa phent phnum base entry else auxvStatic) = auxv
      at hset
    obtain ⟨D, f, t, rfl, hD, -, hlt, hlow⟩ := mapStack_lowest hv hstack
    have hm' : m' = (m₃.setupStack (t * pageSize) userStackTop auxv).2 := congrArg Prod.snd hset.symm
    refine ⟨⟨D, f, hm' ▸ hlow.setupStack userStackTop auxv hD hlt⟩, fun {b} hb => ?_⟩
    obtain ⟨m₂, b', hstack', hsetup, hsame⟩ := stack_beside userStackTop auxv hb hv nofun hstack
    rw [← hm'] at hsetup hsame
    refine ⟨b', Option.map_eq_some_iff.mpr ⟨((m₃.setupStack (t * pageSize) userStackTop auxv).1, m'.withBytes b'), ?_,
      rfl⟩, hsame⟩
    simp only [Phys.setupUserStack, hstack', hauxv, hsetup, Option.bind_eq_bind, Option.bind_some]

/-- The call can be made in the other machine as well. -/
theorem Valid.withBytes (hv : Valid m call) (hb : Agrees (fun _ => False) m b) : Valid (m.withBytes b) call := by
  have htree : ∀ {cr3}, PageTree userHalf (Phys.pages m cr3) m cr3 →
      PageTree userHalf (Phys.pages (m.withBytes b) cr3) (m.withBytes b) cr3 := fun hT =>
    (hb.sameTables hT fun _ _ => not_false).wellFormed hT rfl
  cases call with
  | loadElf | loadDyn => exact hv
  | setupUserStack => exact htree hv
  | mmapAnon | demandAllocPage => exact ⟨htree hv.1, hv.2⟩

end PageCall

theorem Pt.addrOf_stackEntry {f : Nat} :
    addrOf (f * pageSize ||| (pteWritable ||| pteUser) ||| ptePresent) = f * pageSize := by
  rw [Nat.or_assoc]
  exact addrOf_lor (Nat.mul_mod_left _ _) (by decide)

/-- The lowest stack page shows what its frame held. -/
theorem Phys.LowestPage.userByte {D : Nat → Prop} {m m' : Phys} {root f : Nat} (h : LowestPage D m root f m') :
    m'.userByte root (252 * pageSize) = some (m.bytes (f * pageSize)) := by
  have hbyte := h.bytes (f * pageSize) (Nat.mul_div_cancel _ (by decide))
  rw [Phys.userByte, h.tree.virtToPhys_eq (page_user (by decide)).1, h.pte, Option.map_some, Option.map_some,
    addrOf_stackEntry, Nat.mul_mod_left, Nat.add_zero, hbyte]

/-- A call shows nothing of what the free frames held if and only if it is one
of those that clear the pages they map. -/
theorem no_residue_iff_clears {m m' : Phys} {call : PageCall} {root : Nat} (hv : call.Valid m)
    (h : call.run m = some (root, m')) : call.NoResidue m root m' ↔ call.clears = true := by
  refine ⟨fun hno => ?_, fun hc => PageCall.noResidue_of_clears hv hc h⟩
  by_contra hc
  rw [Bool.not_eq_true] at hc
  obtain ⟨⟨D, f, hlow⟩, hbeside⟩ := PageCall.lowest_of_not_clears hv hc h
  -- the other machine differs in one byte of the frame of the lowest stack page
  let b : ByteMem := Function.update m.bytes (f * pageSize) (m.bytes (f * pageSize) + 1)
  have hb : Agrees (fun _ => False) m b := by
    intro x hx _
    refine Function.update_of_ne (fun he => hx ?_) _ _
    rw [he, Nat.mul_div_cancel _ (by decide)]
    exact hlow.fresh
  obtain ⟨b', hrun, hsame⟩ := hbeside hb
  obtain ⟨⟨D₂, f₂, hlow₂⟩, -⟩ := PageCall.lowest_of_not_clears (hv.withBytes hb) hc hrun
  have hpte : f₂ * pageSize ||| (pteWritable ||| pteUser) ||| ptePresent =
      f * pageSize ||| (pteWritable ||| pteUser) ||| ptePresent := by
    refine Option.some.inj ?_
    rw [← hlow₂.pte, ← hlow.pte]
    exact hsame.pte (page_user (by decide)).1
  have hframe : f₂ = f := by
    have haddr := congrArg addrOf hpte
    rw [addrOf_stackEntry, addrOf_stackEntry] at haddr
    exact Nat.eq_of_mul_eq_mul_right (by decide) haddr
  obtain ⟨m₂, hrun₂, hbytes⟩ := hno b hb
  cases hrun.symm.trans hrun₂
  have hbyte := hbytes (252 * pageSize) (by decide)
  rw [hlow₂.userByte, hlow.userByte, hframe] at hbyte
  have hother : (m.withBytes b).bytes (f * pageSize) = m.bytes (f * pageSize) + 1 := Function.update_self ..
  rw [hother] at hbyte
  have hsucc : ∀ c : UInt8, c + 1 ≠ c := by
    intro c hc
    have hnat := congrArg UInt8.toNat hc
    rw [UInt8.toNat_add, UInt8.toNat_one] at hnat
    omega
  exact hsucc _ (Option.some.inj hbyte)

/-- A page on demand in a new space. -/
theorem no_residue_demand_page : ∃ cr3 m m', bootMachine.allocUserPml4 = some (cr3, m) ∧
    (PageCall.demandAllocPage cr3 0x10000 true).run m = some (addrOf cr3, m') ∧
    (PageCall.demandAllocPage cr3 0x10000 true).NoResidue m (addrOf cr3) m' := by
  obtain ⟨m', hrun⟩ := Option.isSome_iff_exists.mp
    (show (bootMachine.allocUserPml4.bind fun r => r.2.demandAllocPage r.1 0x10000 true).isSome = true by decide +kernel)
  obtain ⟨⟨cr3, m⟩, hroot, hrun⟩ := Option.bind_eq_some_iff.mp hrun
  have hcall : (PageCall.demandAllocPage cr3 0x10000 true).run m = some (addrOf cr3, m') :=
    Option.map_eq_some_iff.mpr ⟨m', hrun, rfl⟩
  have hT := newSpace_wellFormed hroot
  rw [← addrOf_eq hT.aligned] at hT
  exact ⟨cr3, m, m', hroot, hcall, (@no_residue_iff_clears m m' (.demandAllocPage cr3 0x10000 true) (addrOf cr3)
    ⟨hT, by decide⟩ hcall).mpr rfl⟩

/-- The stack of a new process shows what its frames held: here the first byte
of its lowest page. -/
theorem stack_shows_residue : ∃ b m' m₂ root, Agrees (fun _ => False) bootMachine b ∧
    (PageCall.loadElf (twoByteElf 0x10000)).Valid bootMachine ∧
    (PageCall.loadElf (twoByteElf 0x10000)).run bootMachine = some (root, m') ∧
    (PageCall.loadElf (twoByteElf 0x10000)).run (bootMachine.withBytes b) = some (root, m₂) ∧
    m'.userByte root 0xFC000 = some 0 ∧ m₂.userByte root 0xFC000 = some 0x5A := by
  let b : ByteMem := fun x => if x = 9 * pageSize then 0x5A else 0
  let call := PageCall.loadElf (twoByteElf 0x10000)
  obtain ⟨⟨root, m'⟩, hrun, hbyte⟩ := Option.map_eq_some_iff.mp
    (show (call.run bootMachine).map (fun r => (r.1, r.2.userByte r.1 0xFC000)) = some (pageSize, some 0) by
      decide +kernel)
  obtain ⟨⟨root₂, m₂⟩, hrun₂, hbyte₂⟩ := Option.map_eq_some_iff.mp
    (show (call.run (bootMachine.withBytes b)).map (fun r => (r.1, r.2.userByte r.1 0xFC000)) =
      some (pageSize, some 0x5A) by decide +kernel)
  obtain ⟨rfl, hbyte⟩ := Prod.mk.inj hbyte
  obtain ⟨rfl, hbyte₂⟩ := Prod.mk.inj hbyte₂
  refine ⟨b, m', m₂, _, fun x hx _ => if_neg fun he => hx ?_, ⟨?_, ?_⟩, hrun, hrun₂, hbyte, hbyte₂⟩
  · rw [he, Nat.mul_div_cancel _ (by decide)]
    exact FrameAlloc.mem_freeSet.mpr (by decide)
  · exact fun h0 => absurd (FrameAlloc.mem_freeSet.mp h0).2 (by decide)
  · intro segs hsegs seg hseg
    have hsegments : (Elf64.parse (twoByteElf 0x10000)).bind Elf64.loadSegments = some [twoByteSegment 0x10000] := by
      decide +kernel
    cases hsegments.symm.trans hsegs
    cases List.mem_singleton.mp hseg
    decide

end ChodOs
