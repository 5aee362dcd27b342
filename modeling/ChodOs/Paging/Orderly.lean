/-
One address space among many (`paging/mod.rs`): what a call does to the
space at one root is made of new pages, bytes stored in pages, and entries
of pages that are set; each of them is an `Update` of that space. What holds
of all spaces together (`Orderly`) survives every update of one of them.
-/
import ChodOs.Paging.Residue
import ChodOs.Paging.Spaces

namespace ChodOs

open Pt

namespace Phys

/-! ## One space -/

/-- The user half of a space is well-formed, and its pages are in frames of their own. -/
structure Space (m : Phys) (root : Nat) : Prop where
  tree : PageTree userHalf (pages m root) m root
  distinct : ∀ {va va' e e'}, userHalf (idx 39 va) → userHalf (idx 39 va') → m.pte root va = some e →
    m.pte root va' = some e' → e / pageSize = e' / pageSize → pageOf va = pageOf va'

/-- From `m` to `m'` only the space at `root` has changed, whose frames were
those of `old` before: written and taken are these and free ones, given back
are these. The entries of its kernel half are `upper`. -/
structure Update (old : Nat → Prop) (upper : Nat → Nat) (root : Nat) (m m' : Phys) : Prop where
  space : Space m' root
  reaches : ∀ {f}, Reaches m' root f → old f ∨ f ∈ m.free
  free : ∀ {f}, f ∈ m'.free → f ∈ m.free ∨ old f
  bytes : ∀ {x}, m'.bytes x ≠ m.bytes x → old (x / pageSize) ∨ x / pageSize ∈ m.free
  kernelCr3 : m'.kernelCr3 = m.kernelCr3
  upper : ∀ {i}, 256 ≤ i → i < 512 → m'.entry root i = upper i

/-- A space that was there has changed. -/
abbrev Touched (root : Nat) (m m' : Phys) : Prop := Update (Reaches m root) (m.entry root) root m m'

/-- A space has been made. -/
abbrev Built (root : Nat) (m m' : Phys) : Prop := Update (fun _ => False) (m.entry (addrOf m.kernelCr3)) root m m'

variable {old D : Nat → Prop} {upper : Nat → Nat} {m m' m₁ m₂ m₃ : Phys} {root va f flags pt v : Nat}

theorem Space.touched_refl (h : Space m root) : Touched root m m where
  space := h
  reaches := .inl
  free := .inl
  bytes hx := absurd rfl hx
  kernelCr3 := rfl
  upper _ _ := rfl

theorem Update.trans (h : Update old upper root m m₁) (h' : Touched root m₁ m₂) : Update old upper root m m₂ where
  space := h'.space
  reaches hf := (h'.reaches hf).elim h.reaches fun hf => (h.free hf).symm
  free hf := (h'.free hf).elim h.free fun hf => (h.reaches hf).symm
  bytes := by
    intro x hx
    by_cases hx' : m₂.bytes x = m₁.bytes x
    · exact h.bytes (hx' ▸ hx)
    · exact (h'.bytes hx').elim h.reaches fun hf => (h.free hf).symm
  kernelCr3 := h'.kernelCr3.trans h.kernelCr3
  upper hi hi' := (h'.upper hi hi').trans (h.upper hi hi')

/-- A loop that does nothing else than change the space. -/
theorem Space.touched_loop {α : Type} {l : List α} {turn : Phys → α → Option Phys} (h : Space m root)
    (hrun : l.foldlM turn m = some m')
    (hturn : ∀ {m m' a}, a ∈ l → Space m root → turn m a = some m' → Touched root m m') : Touched root m m' := by
  refine Loop.invariant (fun _ m' => Touched root m m') hrun h.touched_refl fun {done a rest m₁ m₂} hl hI hstep => ?_
  refine hI.trans (hturn ?_ hI.space hstep)
  rw [hl]
  exact List.mem_append.mpr (.inr List.mem_cons_self)

theorem Space.used (h : Space m root) (hf : Reaches m root f) : f ∉ m.free :=
  hf.elim (fun ht => (h.tree.used ht).1) h.tree.data

/-- The frame of a page is no table. -/
theorem Space.page_not_table (h : Space m root) (hf : pages m root f) : ¬tables userHalf m root f := fun ht =>
  (h.tree.used ht).2 hf

/-! ## A new page -/

/-- A page in a new frame, which has been filled before. -/
theorem Space.newPage (h : Space m root) (hal : m.Allocs f m₁) (hfree : m₂.free = m₁.free)
    (hcr3 : m₂.kernelCr3 = m₁.kernelCr3) (hb : ∀ x, x / pageSize ≠ f → m₂.bytes x = m.bytes x)
    (hva : userHalf (idx 39 va)) (hflags : flags < pageSize) (hmap : m₂.map4k root va (f * pageSize) flags = some m₃) :
    Touched root m m₃ ∧ ∀ {va'}, userHalf (idx 39 va') → m₃.pte root va' =
      if pageOf va' = pageOf va then some (f * pageSize ||| flags ||| ptePresent) else m.pte root va' := by
  have hnot : ∀ {g}, Reaches m root g → g ≠ f := fun hg he => h.used hg (he ▸ hal.mem)
  obtain ⟨hsame, htree⟩ := h.tree.alloc hal hfree fun x hx => hb x (hnot (.inl hx))
  have hM := map4k_spec htree hva hal.frame_lt hflags hmap
  rw [addrOf_eq (Nat.mul_mod_left _ _)] at hM
  have hsub : m₂.free ⊆ m.free := by
    rw [hfree, hal.free]
    exact Finset.erase_subset _ _
  generalize he : f * pageSize ||| flags ||| ptePresent = e at hM
  have hframe : e / pageSize = f := by
    rw [← he, Nat.or_assoc, ← addrOf_div, addrOf_lor (Nat.mul_mod_left _ _)
      (Nat.or_lt_two_pow (n := 12) hflags (by decide)), Nat.mul_div_cancel _ (by decide)]
  have hpte : ∀ {va'}, userHalf (idx 39 va') →
      m₃.pte root va' = if pageOf va' = pageOf va then some e else m.pte root va' := fun hva' => by
    rw [hM.pte hva', hsame.pte hva']
  have hpages : ∀ {g}, pages m₃ root g → g = f ∨ pages m root g := by
    intro g h
    obtain ⟨va', e', hva', he', rfl⟩ := h
    rw [hpte hva'] at he'
    split at he'
    · cases he'
      exact .inl hframe
    · exact .inr ⟨va', e', hva', he', rfl⟩
  refine ⟨⟨⟨hM.tree.mono fun g hg => hpages hg, fun {va₁ va₂ e₁ e₂} h₁ h₂ he₁ he₂ hd => ?_⟩, fun {g} hg => ?_,
    fun hg => .inl (hsub (hM.within.free hg)), fun {x} hx => ?_, ?_, fun {i} hi hi' => ?_⟩, hpte⟩
  · rw [hpte h₁] at he₁
    rw [hpte h₂] at he₂
    split at he₁ <;> split at he₂
    · next hp₁ hp₂ => exact hp₁.trans hp₂.symm
    · cases he₁
      exact absurd (hframe.symm.trans hd).symm (hnot (.inr ⟨va₂, e₂, h₂, he₂, rfl⟩))
    · cases he₂
      exact absurd (hd.trans hframe) (hnot (.inr ⟨va₁, e₁, h₁, he₁, rfl⟩))
    · exact h.distinct h₁ h₂ he₁ he₂ hd
  · rcases hg with hg | hg
    · exact (hM.enlarges.tables hg).imp (fun hg => .inl (hsame.tables_iff.mp hg)) fun ho => hsub ho.1
    · rcases hpages hg with rfl | hg
      · exact .inr hal.mem
      · exact .inl (.inr hg)
  · by_cases hxf : x / pageSize = f
    · exact .inr (hxf ▸ hal.mem)
    · rw [← hb x hxf] at hx
      by_contra hcon
      rw [not_or] at hcon
      refine hx (hM.within.bytes_eq (fun ht => hcon.1 (.inl (hsame.tables_iff.mp ht))) fun ho => hcon.2 (hsub ho.1))
  · rw [hM.within.kernelCr3, hcr3, hal.kernelCr3]
  · have hne : i ≠ idx 39 va := by
      simp only [userHalf] at hva
      omega
    rw [hM.rootEntry hi' fun hcon => absurd hcon hne, hsame.entry path_nil hi' rfl]

/-- What fills it stays, and so do the bytes of the other pages. -/
theorem Space.newPage_bytes {x : Nat} (h : Space m root) (hal : m.Allocs f m₁) (hfree : m₂.free = m₁.free)
    (hb : ∀ x, x / pageSize ≠ f → m₂.bytes x = m.bytes x) (hva : userHalf (idx 39 va)) (hflags : flags < pageSize)
    (hmap : m₂.map4k root va (f * pageSize) flags = some m₃) (hx : x / pageSize = f ∨ pages m root (x / pageSize)) :
    m₃.bytes x = m₂.bytes x := by
  have hnot : ∀ {g}, Reaches m root g → g ≠ f := fun hg he => h.used hg (he ▸ hal.mem)
  obtain ⟨hsame, htree⟩ := h.tree.alloc hal hfree fun x hx => hb x (hnot (.inl hx))
  have hM := map4k_spec htree hva hal.frame_lt hflags hmap
  refine hM.within.bytes_eq (fun ht => ?_) fun ho => ?_
  · have ht := hsame.tables_iff.mp ht
    exact hx.elim (hnot (.inl ht)) fun hp => h.page_not_table hp ht
  · have ho := ho.1
    rw [hfree, hal.free, Finset.mem_erase] at ho
    exact hx.elim ho.1 fun hp => h.used (.inr hp) ho.2

/-! ## Bytes of a page -/

/-- What is stored in a page leaves the tables. -/
theorem Space.put {addr len : Nat} {g : Nat → UInt8} (h : Space m root) (hf : pages m root f)
    (hin : ∀ x, addr ≤ x → x < addr + len → x / pageSize = f) : Touched root m (m.put addr len g) ∧
      SameTables userHalf m root (m.put addr len g) := by
  have hsame : SameTables userHalf m root (m.put addr len g) := h.tree.sameTables_put hf hin
  refine ⟨⟨⟨hsame.wellFormed h.tree rfl, fun {va₁ va₂ e₁ e₂} h₁ h₂ he₁ he₂ hd => ?_⟩,
    fun hg => .inl (hsame.reaches_iff.mp hg), .inl, fun {x} hx => ?_, rfl, fun hi hi' => hsame.entry path_nil hi' rfl⟩,
    hsame⟩
  · rw [hsame.pte h₁] at he₁
    rw [hsame.pte h₂] at he₂
    exact h.distinct h₁ h₂ he₁ he₂ hd
  · by_cases hxf : x / pageSize = f
    · exact .inl (.inr (hxf ▸ hf))
    · exact absurd (put_frame hin hxf) hx

/-! ## The entry of a page -/

/-- An entry is set to one with the same frame, or to an absent one; then the frame may have been given back. -/
theorem Space.setLeaf (h : Space m root) (hva : userHalf (idx 39 va)) (hn : m.node root (pathOf va) = some pt)
    (hv : v < 2 ^ 64) (hsame : present v = true → ∃ e, m.pte root va = some e ∧ v / pageSize = e / pageSize)
    (hb : m₁.bytes = m.bytes) (hcr3 : m₁.kernelCr3 = m.kernelCr3)
    (hfree : ∀ g ∈ m₁.free, g ∈ m.free ∨ present v = false ∧ ∃ e, m.pte root va = some e ∧ g = e / pageSize) :
    Touched root m (m₁.setEntry pt (idx 12 va) v) ∧ ∀ {va'}, userHalf (idx 39 va') →
      (m₁.setEntry pt (idx 12 va) v).pte root va' =
        if pageOf va' = pageOf va then (if present v then some v else none) else m.pte root va' := by
  have hgiven : ∀ {g}, g ∈ m₁.free → g ∈ m.free ∨ pages m root g := fun hg =>
    (hfree _ hg).imp_right fun ⟨_, e, he, hge⟩ => ⟨va, e, hva, he, hge⟩
  have hst : SameTables userHalf m root m₁ := sameTables_of_bytes h.tree.aligned fun x _ => congrFun hb x
  -- the pages that are left are those whose frames were not given back
  have htree : PageTree userHalf (fun g => pages m root g ∧ g ∉ m₁.free) m₁ root := by
    refine hst.tree h.tree (fun {g} hg => ⟨fun hmem => ?_, fun hp => h.page_not_table hp.1 hg⟩) fun hp => hp.2
    rcases hgiven hmem with hmem | hp
    · exact h.used (.inl hg) hmem
    · exact h.page_not_table hp hg
  have hS := htree.setLeaf hva ((hst.node (path_pathOf hva)).trans hn) hv
  have hfree' : (m₁.setEntry pt (idx 12 va) v).free = m₁.free := rfl
  have hcr3' : (m₁.setEntry pt (idx 12 va) v).kernelCr3 = m.kernelCr3 := hcr3
  generalize m₁.setEntry pt (idx 12 va) v = m' at hS hfree' hcr3'
  have hpte : ∀ {va'}, userHalf (idx 39 va') → m'.pte root va' =
      if pageOf va' = pageOf va then (if present v then some v else none) else m.pte root va' := fun hva' => by
    rw [hS.pte hva', hst.pte hva']
  have hold : ∀ {va' e'}, userHalf (idx 39 va') → m'.pte root va' = some e' →
      (∃ e, m.pte root va' = some e ∧ e' / pageSize = e / pageSize) ∧ e' / pageSize ∉ m₁.free := by
    intro va' e' hva' he'
    rw [hpte hva'] at he'
    split at he'
    · next hpage =>
      split at he'
      · next hp =>
        cases he'
        obtain ⟨e, he, hf⟩ := hsame hp
        refine ⟨⟨e, (pte_congr hpage).trans he, hf⟩, fun hmem => ?_⟩
        rcases hfree _ hmem with hmem | ⟨habs, -⟩
        · exact h.used (.inr ⟨va, e, hva, he, hf⟩) hmem
        · rw [hp] at habs
          cases habs
      · cases he'
    · next hpage =>
      refine ⟨⟨e', he', rfl⟩, fun hmem => ?_⟩
      rcases hfree _ hmem with hmem | ⟨-, e, he, hf⟩
      · exact h.used (.inr ⟨va', e', hva', he', rfl⟩) hmem
      · exact hpage (h.distinct hva' hva he' he hf)
  have hpages : ∀ {g}, pages m' root g → pages m root g ∧ g ∉ m₁.free := by
    intro g h
    obtain ⟨va', e', hva', he', rfl⟩ := h
    obtain ⟨⟨e, he, hf⟩, hnot⟩ := hold hva' he'
    exact ⟨⟨va', e, hva', he, hf⟩, hnot⟩
  have htables : ∀ {g}, tables userHalf m' root g → tables userHalf m root g := by
    intro g h
    obtain ⟨q, u, hq, hu, rfl⟩ := h
    exact ⟨q, u, hq, ((hS.node hq).trans (hst.node hq)).symm.trans hu, rfl⟩
  refine ⟨⟨⟨hS.tree.mono fun g hg => hpages hg, fun {va₁ va₂ e₁ e₂} h₁ h₂ he₁ he₂ hd => ?_⟩,
    fun hg => .inl (hg.imp htables fun hg => (hpages hg).1), fun hg => (hgiven (hfree' ▸ hg)).imp_right .inr,
    fun {x} hx => ?_, hcr3', fun {i} hi hi' => (hS.rootEntry hi').trans (hst.entry path_nil hi' rfl)⟩, hpte⟩
  · obtain ⟨⟨a₁, ha₁, hd₁⟩, -⟩ := hold h₁ he₁
    obtain ⟨⟨a₂, ha₂, hd₂⟩, -⟩ := hold h₂ he₂
    exact h.distinct h₁ h₂ ha₁ ha₂ (hd₁.symm.trans (hd.trans hd₂))
  · by_cases hpt : x / pageSize = pt / pageSize
    · exact .inl (.inl ⟨pathOf va, pt, path_pathOf hva, hn, hpt⟩)
    · exact absurd ((hS.bytes hpt).trans (congrFun hb x)) hx

/-! ## A new space -/

/-- A space with nothing mapped. -/
theorem built_allocUserPml4 (hk : addrOf m.kernelCr3 / pageSize ∉ m.free) (h : m.allocUserPml4 = some (root, m')) :
    Built root m m' := by
  have hL := Loading.start (k := 0) h
  refine ⟨⟨newSpace_wellFormed h, fun {va va' e e'} hva hva' he => ?_⟩, fun {f} hf => .inr ?_,
    fun hf => .inl (hL.within.free hf), fun {x} hx => .inr ?_, hL.within.kernelCr3, fun hi hi' => hL.kernelHalf hk hi hi'⟩
  · rw [newSpace_pte h hva] at he
    cases he
  · rcases hf with hf | ⟨va, e, hva, he, -⟩
    · exact (hL.own hf).1
    · rw [newSpace_pte h hva] at he
      cases he
  · by_contra hcon
    exact hx (hL.within.bytes_eq not_false fun ho => hcon ho.1)

/-- A copy. -/
theorem built_cloneUserSpace {srcCr3 : Nat} (hk : addrOf m.kernelCr3 / pageSize ∉ m.free)
    (hsrc : Space m (addrOf srcCr3)) (h : m.cloneUserSpace srcCr3 = some (root, m')) : Built root m m' := by
  obtain ⟨m₁, lab, hC⟩ := cloneUserSpace_spec hsrc.tree h
  have hw := hC.within
  refine ⟨⟨hC.tree hsrc.tree, fun hva hva' he he' hf => hC.distinct hva hva' he he' hf⟩, fun hf => .inr (hC.fresh hf),
    fun hf => .inl (hw.free hf), fun {x} hx => .inr ?_, hw.kernelCr3, fun hi hi' => hC.kernelHalf hk hi hi'⟩
  by_contra hcon
  exact hx (hw.bytes_eq not_false fun ho => hcon ho.1)

/-! ## A loaded program -/

variable {data : List UInt8} {mapped base i top : Nat} {seg : PtLoad} {segs : List PtLoad} {auxv : List Nat}

/-- One turn of the page loop of a segment that fits. -/
theorem Space.loadPage (h : Space m root) (hfits : seg.Fits mapped)
    (hva : userHalf (idx 39 (addrOf mapped + i * pageSize)))
    (hrun : m.loadPage root data mapped seg (addrOf mapped + i * pageSize) = some m') : Touched root m m' := by
  simp only [Phys.loadPage, Option.bind_eq_bind, Option.bind_eq_some_iff, Prod.exists] at hrun
  obtain ⟨phys, m₁, ha, m₂, hcopy, hmap⟩ := hrun
  obtain ⟨f, rfl, hal⟩ := alloc_cases ha
  obtain ⟨n, hle, -, heq⟩ := copyPage_eq hcopy
  have hlen := (copyLen_le mapped seg i).2 hfits
  refine (h.newPage hal ?_ ?_ (fun x hx => ?_) hva (by decide) hmap).1
  · rw [heq]
    split <;> rfl
  · rw [heq]
    split <;> rfl
  · rw [heq]
    split
    · refine (put_outside ?_).trans (hal.zeroPage_bytes hx)
      simp only [pageSize] at *
      omega
    · exact hal.zeroPage_bytes hx

theorem Space.loadSegment (h : Space m root) (hfits : seg.Fits (base + seg.vaddr))
    (huser : base + seg.vaddr + seg.memsz ≤ 2 ^ 47) (hrun : m.loadSegment root base data seg = some m') :
    Touched root m m' := by
  simp only [Phys.loadSegment, Option.bind_eq_bind, Option.bind_eq_some_iff, addU64_eq_some] at hrun
  obtain ⟨mapped, ⟨-, rfl⟩, _, ⟨-, rfl⟩, _, ⟨-, rfl⟩, hrun⟩ := hrun
  refine h.touched_loop hrun fun {m m' j} hj hS hstep => hS.loadPage hfits (userHalf_of_lt ?_) hstep
  have hj := List.mem_range.mp hj
  simp only [addrOf, pageSize] at *
  omega

/-- Bytes stored in a page of the space. -/
theorem Update.put {addr len : Nat} {g : Nat → UInt8} (h : Update old upper root m m₁) (hf : pages m₁ root f)
    (hin : ∀ x, addr ≤ x → x < addr + len → x / pageSize = f) :
    Update old upper root m (m₁.put addr len g) ∧ pages (m₁.put addr len g) root f := by
  obtain ⟨htouched, hsame⟩ := h.space.put (g := g) hf hin
  exact ⟨h.trans htouched, hsame.pages_iff.mpr hf⟩

theorem Update.pushWords {vs : List Nat} {cur : Nat} (h : Update old upper root m m₁) (hf : pages m₁ root f)
    (hcur : cur ≤ pageSize) : Update old upper root m (m₁.pushWords (f * pageSize) cur vs).2 := by
  induction vs generalizing cur m₁ with
  | nil => exact h
  | cons w vs ih =>
    have hin : ∀ x, f * pageSize + (cur - 8) ≤ x → x < f * pageSize + (cur - 8) + 8 → x / pageSize = f := by
      intro x hx hx'
      simp only [pageSize] at *
      omega
    obtain ⟨hput, hf'⟩ := h.put (g := ByteMem.leByte w) hf hin
    exact ih hput hf' (by omega)

theorem Update.setupStack (sp : Nat) (auxv : List Nat) (h : Update old upper root m m₁) (hf : pages m₁ root f) :
    Update old upper root m (m₁.setupStack (f * pageSize) sp auxv).2 := by
  have hin : ∀ x, f * pageSize + 4091 ≤ x → x < f * pageSize + 4091 + 5 → x / pageSize = f := by
    intro x hx hx'
    simp only [pageSize] at *
    omega
  obtain ⟨hput, hf'⟩ := h.put (g := fun i => [0x70, 0x72, 0x6F, 0x67, 0].getD (0 + i) 0) hf hin
  exact hput.pushWords hf' (by decide)

/-- The stack, and the frame of its topmost page. -/
theorem Space.mapStack (h : Space m root) (hrun : m.mapStack root = some (top, m')) :
    Touched root m m' ∧ ∃ f, top = f * pageSize ∧ pages m' root f := by
  have hloop := Loop.invariant_range (fun i (s : Nat × Phys) => Touched root m s.2 ∧
    (0 < i → ∃ e, s.2.pte root (255 * pageSize) = some e ∧ s.1 = e / pageSize * pageSize)) hrun
    ⟨h.touched_refl, fun hi => absurd hi (Nat.lt_irrefl 0)⟩ fun {i s s'} hi hI hstep => ?_
  · obtain ⟨htouched, htop⟩ := hloop
    obtain ⟨e, he, htop⟩ := htop (by decide)
    exact ⟨htouched, _, htop, _, e, (page_user (by decide)).1, he, rfl⟩
  · obtain ⟨hI, htop⟩ := hI
    obtain ⟨top, m₁⟩ := s
    simp only [Option.bind_eq_bind, Option.bind_eq_some_iff, Option.some.injEq, Prod.exists] at hstep
    obtain ⟨phys, m₂, ha, m₃, hmap, rfl⟩ := hstep
    obtain ⟨f, rfl, hal⟩ := alloc_cases ha
    have hva : userStackTop - (i + 1) * pageSize = (255 - i) * pageSize := by
      simp only [userStackTop, userStackPages, pageSize] at *
      omega
    rw [hva] at hmap
    obtain ⟨hhalf, hpage⟩ := page_user (p := 255 - i) (by omega)
    obtain ⟨hhalf', hpage'⟩ := page_user (p := 255) (by decide)
    obtain ⟨hnew, hpte⟩ := hI.space.newPage hal rfl rfl (fun x _ => congrFun hal.bytes x) hhalf (by decide) hmap
    refine ⟨hI.trans hnew, fun _ => ?_⟩
    change ∃ e, m₃.pte root (255 * pageSize) = some e ∧ _
    rw [hpte hhalf', hpage, hpage']
    rcases Nat.eq_zero_or_pos i with rfl | hpos
    · refine ⟨_, if_pos rfl, ?_⟩
      rw [← addrOf, addrOf_stackEntry]
      rfl
    · obtain ⟨e, he, htop⟩ := htop hpos
      simp only [userStackPages] at hi
      exact ⟨e, (if_neg (by omega)).trans he, (if_neg (Nat.ne_of_gt hpos)).trans htop⟩

/-- A user image is loaded into a space of its own. -/
theorem built_loadSpace {entry sp : Nat} (hk : addrOf m.kernelCr3 / pageSize ∉ m.free)
    (himage : Spaces.UserImage data base) (h : m.loadSpace data base auxv = some ((root, entry, sp), m')) :
    Built root m m' := by
  obtain ⟨elf, segs, hparse, hsegs⟩ := loadSpace_parses h
  have hall := himage segs (by rw [hparse]; exact hsegs)
  obtain ⟨m₁, m₂, m₃, top, hroot, hload, hstack, rfl⟩ := loadSpace_cases hparse hsegs h
  have hbuilt := built_allocUserPml4 hk hroot
  have hsegments : Touched root m₁ m₂ := hbuilt.space.touched_loop hload fun hseg hS hstep =>
    hS.loadSegment (hall _ hseg).2 (hall _ hseg).1 hstep
  obtain ⟨hstacked, f, rfl, hf⟩ := hsegments.space.mapStack hstack
  exact ((hbuilt.trans hsegments).trans hstacked).setupStack userStackTop auxv hf

/-! ## The kernel half -/

/-- The tables that a walk looks at below the top one. -/
def walkTables (m : Phys) (cr3 va : Nat) : List Nat :=
  let pml4e := m.entry (addrOf cr3) (idx 39 va)
  if !present pml4e then []
  else
    let pdpte := m.entry (addrOf pml4e) (idx 30 va)
    addrOf pml4e ::
      if !present pdpte || huge pdpte then []
      else
        let pde := m.entry (addrOf pdpte) (idx 21 va)
        addrOf pdpte :: if !present pde || huge pde then [] else [addrOf pde]

/-- A walk reads these tables only. -/
theorem walk_congr {cr3 cr3' : Nat} (htop : m'.entry (addrOf cr3') (idx 39 va) = m.entry (addrOf cr3) (idx 39 va))
    (hb : ∀ t ∈ m.walkTables cr3 va, ∀ x, x / pageSize = t / pageSize → m'.bytes x = m.bytes x)
    (leaf : Nat → Nat → Nat) : m'.walk cr3' va leaf = m.walk cr3 va leaf := by
  have hentry : ∀ {e j}, j < 512 → addrOf e ∈ m.walkTables cr3 va → m'.entry (addrOf e) j = m.entry (addrOf e) j :=
    fun {e j} hj hmem => entry_congr hj (addrOf_mod e) (hb _ hmem)
  simp only [walk, htop]
  simp only [walkTables] at hentry
  generalize m.entry (addrOf cr3) (idx 39 va) = pml4e at hentry ⊢
  cases h₁ : present pml4e with
  | false => simp only [Bool.not_false, if_true]
  | true =>
    simp only [h₁, Bool.not_true, Bool.false_eq_true, if_false] at hentry ⊢
    rw [hentry (idx_lt 30 va) List.mem_cons_self]
    generalize m.entry (addrOf pml4e) (idx 30 va) = pdpte at hentry ⊢
    cases h₂ : present pdpte with
    | false => simp only [Bool.not_false, if_true]
    | true =>
      cases h₃ : huge pdpte with
      | true => simp only [Bool.not_true, Bool.false_eq_true, if_true, if_false]
      | false =>
        simp only [h₂, h₃, Bool.not_true, Bool.or_false, Bool.false_eq_true, if_false] at hentry ⊢
        rw [hentry (idx_lt 21 va) (List.mem_cons_of_mem _ List.mem_cons_self)]
        generalize m.entry (addrOf pdpte) (idx 21 va) = pde at hentry ⊢
        cases h₄ : present pde with
        | false => simp only [Bool.not_false, if_true]
        | true =>
          cases h₅ : huge pde with
          | true => simp only [Bool.not_true, Bool.false_eq_true, if_true, if_false]
          | false =>
            simp only [h₄, h₅, Bool.not_true, Bool.or_false, Bool.false_eq_true, if_false] at hentry ⊢
            rw [hentry (idx_lt 12 va) (List.mem_cons_of_mem _ (List.mem_cons_of_mem _ List.mem_cons_self))]

/-- The allocator has none of the frames that the kernel half is translated with. -/
structure KernelApart (m : Phys) : Prop where
  root : addrOf m.kernelCr3 / pageSize ∉ m.free
  tables : ∀ {va}, 256 ≤ idx 39 va → ∀ t ∈ m.walkTables m.kernelCr3 va, t / pageSize ∉ m.free

/-! ## All spaces -/

/-- Since `m₀`, when there was none, the spaces `R` have been made of free
frames, each of frames of its own; the rest of memory is as it was. -/
structure Orderly (m₀ : Phys) (R : Nat → Prop) (m : Phys) : Prop where
  space : ∀ {r}, R r → Space m r
  apart : ∀ {r r' f}, R r → R r' → Reaches m r f → Reaches m r' f → r = r'
  fresh : ∀ {r f}, R r → Reaches m r f → f ∈ m₀.free
  free : ∀ {f}, f ∈ m.free → f ∈ m₀.free
  bytes : ∀ {x}, x / pageSize ∉ m₀.free → m.bytes x = m₀.bytes x
  kernelCr3 : m.kernelCr3 = m₀.kernelCr3
  upper : ∀ {r i}, R r → 256 ≤ i → i < 512 → m.entry r i = m₀.entry (addrOf m₀.kernelCr3) i

namespace Orderly

variable {m₀ : Phys} {R R' : Nat → Prop} {r : Nat}

theorem start (m₀ : Phys) : Orderly m₀ (fun _ => False) m₀ where
  space := False.elim
  apart := False.elim
  fresh := False.elim
  free := id
  bytes _ := rfl
  kernelCr3 := rfl
  upper := False.elim

/-- Spaces that are forgotten keep their frames. -/
theorem mono (h : Orderly m₀ R m) (hR : ∀ {r}, R' r → R r) : Orderly m₀ R' m where
  space hr := h.space (hR hr)
  apart hr hr' := h.apart (hR hr) (hR hr')
  fresh hr := h.fresh (hR hr)
  free := h.free
  bytes := h.bytes
  kernelCr3 := h.kernelCr3
  upper hr := h.upper (hR hr)

theorem kernel_used (h : Orderly m₀ R m) (hk : KernelApart m₀) : addrOf m.kernelCr3 / pageSize ∉ m.free := by
  rw [h.kernelCr3]
  exact fun hmem => hk.root (h.free hmem)

/-- What the space at `root` has, and free frames, no other space has. -/
structure Own (m₀ : Phys) (R : Nat → Prop) (m : Phys) (root : Nat) (old : Nat → Prop) : Prop where
  fresh : ∀ {f}, old f → f ∈ m₀.free
  only : ∀ {r f}, R r → Reaches m r f → old f → r = root

/-- Another space is as it was. -/
theorem others (h : Orderly m₀ R m) (ho : Own m₀ R m root old) (hu : Update old upper root m m') (hr : R r)
    (hne : r ≠ root) : SameTables userHalf m r m' ∧ ∀ {f}, Reaches m r f → f ∉ m'.free := by
  refine ⟨sameTables_of_bytes (h.space hr).tree.aligned fun x hx => ?_, fun hf hmem => ?_⟩
  · by_contra hcon
    rcases hu.bytes hcon with hold | hfree
    · exact hne (ho.only hr (.inl hx) hold)
    · exact (h.space hr).used (.inl hx) hfree
  · rcases hu.free hmem with hmem | hold
    · exact (h.space hr).used hf hmem
    · exact hne (ho.only hr hf hold)

theorem update (h : Orderly m₀ R m) (ho : Own m₀ R m root old) (hu : Update old upper root m m')
    (hup : ∀ {i}, 256 ≤ i → i < 512 → upper i = m₀.entry (addrOf m₀.kernelCr3) i) :
    Orderly m₀ (fun r => r = root ∨ R r) m' := by
  have hnew : ∀ {f}, Reaches m' root f → f ∈ m₀.free := fun hf => (hu.reaches hf).elim ho.fresh h.free
  have hcross : ∀ {r f}, R r → r ≠ root → Reaches m r f → ¬Reaches m' root f := by
    intro r f hr hne hf hf'
    rcases hu.reaches hf' with hold | hfree
    · exact hne (ho.only hr hf hold)
    · exact (h.space hr).used hf hfree
  refine ⟨fun {r} hr => ?_, fun {r r' f} hr hr' hf hf' => ?_, fun {r f} hr hf => ?_, fun hf => ?_, fun {x} hx => ?_,
    hu.kernelCr3.trans h.kernelCr3, fun {r i} hr hi hi' => ?_⟩
  · by_cases hne : r = root
    · rw [hne]
      exact hu.space
    · have hr := hr.resolve_left hne
      obtain ⟨hst, hkept⟩ := h.others ho hu hr hne
      have hS := h.space hr
      refine ⟨hst.tree hS.tree (fun hf => ⟨hkept (.inl hf), fun hp => hS.page_not_table (hst.pages_iff.mp hp) hf⟩)
        fun hp => hkept (.inr (hst.pages_iff.mp hp)), fun {va₁ va₂ e₁ e₂} h₁ h₂ he₁ he₂ hd => ?_⟩
      rw [hst.pte h₁] at he₁
      rw [hst.pte h₂] at he₂
      exact hS.distinct h₁ h₂ he₁ he₂ hd
  · by_cases hne : r = root <;> by_cases hne' : r' = root
    · rw [hne, hne']
    · have hr' := hr'.resolve_left hne'
      exact absurd (hne ▸ hf) (hcross hr' hne' ((h.others ho hu hr' hne').1.reaches_iff.mp hf'))
    · have hr := hr.resolve_left hne
      exact absurd (hne' ▸ hf') (hcross hr hne ((h.others ho hu hr hne).1.reaches_iff.mp hf))
    · have hr := hr.resolve_left hne
      have hr' := hr'.resolve_left hne'
      exact h.apart hr hr' ((h.others ho hu hr hne).1.reaches_iff.mp hf)
        ((h.others ho hu hr' hne').1.reaches_iff.mp hf')
  · by_cases hne : r = root
    · exact hnew (hne ▸ hf)
    · have hr := hr.resolve_left hne
      exact h.fresh hr ((h.others ho hu hr hne).1.reaches_iff.mp hf)
  · exact (hu.free hf).elim h.free ho.fresh
  · rw [← h.bytes hx]
    by_contra hcon
    exact (hu.bytes hcon).elim (fun hold => hx (ho.fresh hold)) fun hfree => hx (h.free hfree)
  · by_cases hne : r = root
    · rw [hne, hu.upper hi hi', hup hi hi']
    · have hr := hr.resolve_left hne
      rw [(h.others ho hu hr hne).1.entry path_nil hi' rfl, h.upper hr hi hi']

theorem own (h : Orderly m₀ R m) (hr : R root) : Own m₀ R m root (Reaches m root) :=
  ⟨h.fresh hr, fun hr' hf hold => h.apart hr' hr hf hold⟩

/-- One of the spaces has changed. -/
theorem touched (h : Orderly m₀ R m) (hr : R root) (hu : Touched root m m') : Orderly m₀ R m' :=
  (h.update (h.own hr) hu (h.upper hr)).mono .inr

/-- A new one has been made. -/
theorem built (h : Orderly m₀ R m) (hk : KernelApart m₀) (hu : Built root m m') :
    Orderly m₀ (fun r => r = root ∨ R r) m' :=
  h.update ⟨False.elim, fun _ _ => False.elim⟩ hu fun _ hi' => by
    rw [h.kernelCr3]
    exact entry_congr hi' (addrOf_mod _) fun x hx => h.bytes (hx.symm ▸ hk.root)

/-- The kernel half of every space is translated as it was by the kernel's own table. -/
theorem walk_kernel (h : Orderly m₀ R m) (hk : KernelApart m₀) (hr : R r) (hva : 256 ≤ idx 39 va)
    (leaf : Nat → Nat → Nat) : m.walk r va leaf = m₀.walk m₀.kernelCr3 va leaf := by
  refine walk_congr ?_ (fun t ht x hx => h.bytes (hx.symm ▸ hk.tables hva t ht)) leaf
  rw [addrOf_eq (h.space hr).tree.aligned, h.upper hr hva (idx_lt 39 va)]

/-- What changes in one space is not seen in the user half of another, nor in any kernel half. -/
theorem walk_others (h : Orderly m₀ R m) (hk : KernelApart m₀) (hr : R root) (hu : Touched root m m') {r' : Nat}
    (hr' : R r') (hva : r' ≠ root ∨ 256 ≤ idx 39 va) (leaf : Nat → Nat → Nat) :
    m'.walk r' va leaf = m.walk r' va leaf := by
  have h' := h.touched hr hu
  by_cases htop : 256 ≤ idx 39 va
  · rw [h.walk_kernel hk hr' htop, h'.walk_kernel hk hr' htop]
  · have huser : userHalf (idx 39 va) := Nat.not_le.mp htop
    have hsame := (h.others (h.own hr) hu hr' (hva.resolve_right htop)).1
    rw [(h'.space hr').tree.walk_eq huser, (h.space hr').tree.walk_eq huser, hsame.pte huser]

end Orderly

end Phys

end ChodOs
