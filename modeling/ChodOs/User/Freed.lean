/-
`munmap_pages` (`paging/mod.rs`) on a whole table, wherever its range lies:
the pages of the range are gone, their frames are given back once each, and
nothing else has changed.

A page number has 36 bits, so that a long range may come back to pages that
are gone already; these are passed over.
-/
import ChodOs.User.Ordered

namespace ChodOs

open Pt

namespace Phys

/-- The page of an address is mapped to frame `f`. -/
def MapsTo (m : Phys) (cr3 va f : Nat) : Prop := ∃ phys, m.virtToPhys cr3 va = some phys ∧ phys / pageSize = f

/-- A table without huge pages. Its own frames and those it maps are in use
and apart, and no frame is mapped twice. -/
structure MapsOnce (m : Phys) (cr3 : Nat) : Prop where
  tree : PageTree (fun _ => True) (fun f => ∃ va, m.MapsTo cr3 va f) m (addrOf cr3)
  once : ∀ {va va' f}, m.MapsTo cr3 va f → m.MapsTo cr3 va' f → pageOf va = pageOf va'

/-- The page of `va'` is one of the `count` pages from that of `va` on. -/
def Covers (va count va' : Nat) : Prop := ∃ i < count, pageOf va' = pageOf (va + i * pageSize)

/-- The frame of a page; one beyond those of the allocator is never free. -/
def frameAt (m : Phys) (cr3 va : Nat) : Finset Nat :=
  ((m.virtToPhys cr3 va).map (· / pageSize)).toFinset ∩ Finset.range maxFrames

/-- The frames of a range. -/
def rangeFrames (m : Phys) (cr3 va count : Nat) : Finset Nat :=
  (Finset.range count).biUnion fun i => m.frameAt cr3 (va + i * pageSize)

/-- From `m` to `m'` the pages in `P` were taken away and the frames in `S` were given back. -/
structure Unmaps (m : Phys) (cr3 : Nat) (P : Nat → Prop) (S : Finset Nat) (m' : Phys) : Prop where
  table : MapsOnce m' cr3
  gone : ∀ {va}, P va → m'.virtToPhys cr3 va = none
  rest : ∀ {va}, ¬P va → m'.virtToPhys cr3 va = m.virtToPhys cr3 va
  used : Disjoint m.free S
  free : m'.free = m.free ∪ S
  counted : m'.frames.freeFrames = m.frames.freeFrames + S.card

variable {m m' m₁ : Phys} {cr3 va va' f count : Nat} {P Q : Nat → Prop} {S T : Finset Nat}

/-! ## One page -/

theorem munmapPage_addrOf : m.munmapPage (addrOf cr3) va = m.munmapPage cr3 va := by
  simp only [munmapPage, virtToPhys_addrOf, pageTable, addrOf_eq (addrOf_mod cr3)]

/-- The pages of a table are its entries. -/
theorem MapsOnce.virtToPhys_eq (h : MapsOnce m cr3) :
    m.virtToPhys cr3 va = (m.pte (addrOf cr3) va).map fun e => addrOf e + va % pageSize := by
  rw [← virtToPhys_addrOf]
  exact h.tree.virtToPhys_eq trivial

theorem MapsOnce.mapsTo_iff (h : MapsOnce m cr3) :
    m.MapsTo cr3 va f ↔ ∃ e, m.pte (addrOf cr3) va = some e ∧ e / pageSize = f := by
  simp only [MapsTo, h.virtToPhys_eq, Option.map_eq_some_iff]
  constructor
  · intro h
    obtain ⟨_, ⟨e, he, rfl⟩, rfl⟩ := h
    exact ⟨e, he, (addrOf_add_div e va).symm⟩
  · intro h
    obtain ⟨e, he, rfl⟩ := h
    exact ⟨_, ⟨e, he, rfl⟩, addrOf_add_div e va⟩

/-- The frame of a page does not depend on the place in it. -/
theorem MapsOnce.frameAt_eq (h : MapsOnce m cr3) :
    m.frameAt cr3 va = ((m.pte (addrOf cr3) va).map (· / pageSize)).toFinset ∩ Finset.range maxFrames := by
  have hframe : ((fun phys => phys / pageSize) ∘ fun e => addrOf e + va % pageSize) = fun e : Nat => e / pageSize := by
    funext e
    exact addrOf_add_div e va
  rw [frameAt, h.virtToPhys_eq, Option.map_map, hframe]

/-- A frame in use is given back. -/
theorem freeFrame_spec (hused : f ∉ m.free) :
    (m.freeFrame (f * pageSize)).free = m.free ∪ ({f} ∩ Finset.range maxFrames) ∧
      (m.freeFrame (f * pageSize)).frames.freeFrames = m.frames.freeFrames + ({f} ∩ Finset.range maxFrames).card := by
  by_cases hmax : f < maxFrames
  · have hset : ({f} : Finset Nat) ∩ Finset.range maxFrames = {f} :=
      Finset.inter_eq_left.mpr (Finset.singleton_subset_iff.mpr (Finset.mem_range.mpr hmax))
    rw [hset, Finset.card_singleton, Finset.union_comm, ← Finset.insert_eq]
    exact ⟨FrameAlloc.freeSet_freeFrame hmax, FrameAlloc.freeFrames_freeFrame hmax hused⟩
  · have hset : ({f} : Finset Nat) ∩ Finset.range maxFrames = ∅ :=
      Finset.singleton_inter_of_notMem fun hmem => hmax (Finset.mem_range.mp hmem)
    have hsame : m.freeFrame (f * pageSize) = m := by rw [freeFrame, FrameAlloc.freeFrame_beyond hmax]
    rw [hset, hsame, Finset.union_empty, Finset.card_empty]
    exact ⟨rfl, rfl⟩

theorem Unmaps.refl (h : MapsOnce m cr3) (hP : ∀ {va}, P va → m.virtToPhys cr3 va = none) : Unmaps m cr3 P ∅ m where
  table := h
  gone := hP
  rest _ := rfl
  used := Finset.disjoint_empty_right _
  free := (Finset.union_empty _).symm
  counted := rfl

/-- When frames of pages are given back, the tables are as before and the
frames in use those that were not given back. -/
theorem MapsOnce.tree_freeFrame {phys : Nat} (h : MapsOnce m cr3)
    (hsame : SameTables (fun _ => True) m (addrOf cr3) (m.freeFrame phys)) (hmapped : ∀ g ∈ S, ∃ va, m.MapsTo cr3 va g)
    (hfree : (m.freeFrame phys).free = m.free ∪ S) :
    PageTree (fun _ => True) (fun g => (∃ va, m.MapsTo cr3 va g) ∧ g ∉ S) (m.freeFrame phys) (addrOf cr3) := by
  refine hsame.tree h.tree (fun {g} hg => ⟨fun hcon => ?_, fun hcon => (h.tree.used hg).2 hcon.1⟩) fun {g} hg hcon => ?_
  · rw [hfree, Finset.mem_union] at hcon
    exact hcon.elim (h.tree.used hg).1 fun hcon => (h.tree.used hg).2 (hmapped g hcon)
  · rw [hfree, Finset.mem_union] at hcon
    exact hcon.elim (h.tree.data hg.1) hg.2

/-- `munmap_pages` takes a page away, with its frame. -/
theorem MapsOnce.munmapPage (h : MapsOnce m cr3) (va : Nat) :
    Unmaps m cr3 (pageOf · = pageOf va) (m.frameAt cr3 va) (m.munmapPage cr3 va) := by
  cases hpte : m.pte (addrOf cr3) va with
  | none =>
    have habsent : m.virtToPhys cr3 va = none := by rw [h.virtToPhys_eq, hpte, Option.map_none]
    have hframe : m.frameAt cr3 va = ∅ := by
      rw [frameAt, habsent, Option.map_none, Option.toFinset_none, Finset.empty_inter]
    rw [munmapPage_absent habsent, hframe]
    refine .refl h fun {va'} hpage => ?_
    rw [h.virtToPhys_eq, pte_congr hpage, hpte, Option.map_none]
  | some e =>
    obtain ⟨pt, hpt, -, -⟩ := pte_some hpte
    have hmapped : m.MapsTo cr3 va (e / pageSize) := h.mapsTo_iff.mpr ⟨e, hpte, rfl⟩
    have hused : e / pageSize ∉ m.free := h.tree.data ⟨va, hmapped⟩
    have hframe : m.frameAt cr3 va = {e / pageSize} ∩ Finset.range maxFrames := by
      rw [h.frameAt_eq, hpte, Option.map_some, Option.toFinset_some]
    have hphys : m.virtToPhys (addrOf cr3) va = some (addrOf e + va % pageSize) := by
      rw [virtToPhys_addrOf, h.virtToPhys_eq, hpte, Option.map_some]
    obtain ⟨hfree, hcount⟩ := freeFrame_spec hused
    rw [← munmapPage_addrOf, munmapPage_present (addrOf_mod cr3) hphys hpt, addrOf_add, hframe]
    generalize hS : ({e / pageSize} : Finset Nat) ∩ Finset.range maxFrames = S at hfree hcount ⊢
    have hmem : ∀ {g}, g ∈ S → g = e / pageSize := fun hg => by
      rw [← hS] at hg
      exact Finset.mem_singleton.mp (Finset.mem_of_mem_inter_left hg)
    have hsame : SameTables (fun _ => True) m (addrOf cr3) (m.freeFrame (e / pageSize * pageSize)) :=
      sameTables_of_bytes (addrOf_mod cr3) fun _ _ => rfl
    have htree := h.tree_freeFrame hsame (fun g hg => ⟨va, hmem hg ▸ hmapped⟩) hfree
    have hleaf := htree.setLeaf (v := 0) trivial ((hsame.node (path_pathOf trivial)).trans hpt) (by decide)
    have hfree' : ((m.freeFrame (e / pageSize * pageSize)).setEntry pt (idx 12 va) 0).free = m.free ∪ S := hfree
    have hcount' : ((m.freeFrame (e / pageSize * pageSize)).setEntry pt (idx 12 va) 0).frames.freeFrames =
        m.frames.freeFrames + S.card := hcount
    generalize (m.freeFrame (e / pageSize * pageSize)).setEntry pt (idx 12 va) 0 = m' at hleaf hfree' hcount' ⊢
    have hwalk : ∀ va', m'.virtToPhys cr3 va' = if pageOf va' = pageOf va then none else m.virtToPhys cr3 va' := by
      intro va'
      rw [← virtToPhys_addrOf, hleaf.tree.virtToPhys_eq trivial, hleaf.pte trivial, hsame.pte trivial]
      split
      · rfl
      · exact h.virtToPhys_eq.symm
    have hold : ∀ {va' g}, m'.MapsTo cr3 va' g → m.MapsTo cr3 va' g ∧ pageOf va' ≠ pageOf va := by
      intro va' g hto
      obtain ⟨phys, hphys, hg⟩ := hto
      rw [hwalk] at hphys
      split at hphys
      · cases hphys
      · next hne => exact ⟨⟨phys, hphys, hg⟩, hne⟩
    refine ⟨⟨hleaf.tree.mono ?_, fun h₁ h₂ => h.once (hold h₁).1 (hold h₂).1⟩, fun {va'} hva => ?_, fun {va'} hva => ?_,
      ?_, hfree', hcount'⟩
    · intro g hg
      obtain ⟨va', hg⟩ := hg
      obtain ⟨hg, hne⟩ := hold hg
      exact ⟨⟨va', hg⟩, fun hcon => hne (h.once hg (hmem hcon ▸ hmapped))⟩
    · rw [hwalk, if_pos hva]
    · rw [hwalk, if_neg hva]
    · exact Finset.disjoint_right.mpr fun g hg => hmem hg ▸ hused

/-! ## A range -/

theorem Unmaps.trans (h : Unmaps m cr3 P S m₁) (h' : Unmaps m₁ cr3 Q T m') :
    Unmaps m cr3 (fun va => P va ∨ Q va) (S ∪ T) m' := by
  have hdisj := h'.used
  rw [h.free, Finset.disjoint_union_left] at hdisj
  refine ⟨h'.table, fun {va} hva => ?_, fun {va} hva => ?_, ?_, ?_, ?_⟩
  · by_cases hQ : Q va
    · exact h'.gone hQ
    · rw [h'.rest hQ]
      exact h.gone (hva.resolve_right hQ)
  · rw [h'.rest fun hQ => hva (.inr hQ), h.rest fun hP => hva (.inl hP)]
  · exact Finset.disjoint_union_right.mpr ⟨h.used, hdisj.1⟩
  · rw [h'.free, h.free, Finset.union_assoc]
  · rw [h'.counted, h.counted, Finset.card_union_of_disjoint hdisj.2, Nat.add_assoc]

theorem munmapPages_succ : m.munmapPages cr3 va (count + 1) =
    (m.munmapPages cr3 va count).bind fun m => (addU64 va (count * pageSize)).map (m.munmapPage cr3 ·) := by
  rw [munmapPages, List.range_succ, Loop.foldlM_append]
  refine congrArg _ (funext fun m₁ => ?_)
  simp only [List.foldlM_cons, List.foldlM_nil, Option.bind_eq_bind]
  cases addU64 va (count * pageSize) <;> rfl

theorem covers_succ : Covers va (count + 1) va' ↔ Covers va count va' ∨ pageOf va' = pageOf (va + count * pageSize) := by
  constructor
  · intro ⟨i, hi, hpage⟩
    rcases Nat.lt_or_eq_of_le (Nat.le_of_lt_succ hi) with hi | rfl
    · exact .inl ⟨i, hi, hpage⟩
    · exact .inr hpage
  · intro h
    rcases h with ⟨i, hi, hpage⟩ | hpage
    · exact ⟨i, Nat.lt_succ_of_lt hi, hpage⟩
    · exact ⟨count, Nat.lt_succ_self _, hpage⟩

theorem rangeFrames_succ :
    m.rangeFrames cr3 va (count + 1) = m.rangeFrames cr3 va count ∪ m.frameAt cr3 (va + count * pageSize) := by
  rw [rangeFrames, Finset.range_add_one, Finset.biUnion_insert, Finset.union_comm]
  rfl

/-- The next page of the range gives back its frame, unless it was in the range before. -/
theorem Unmaps.next_frame (h : MapsOnce m cr3) (hi : Unmaps m cr3 (Covers va count) (m.rangeFrames cr3 va count) m₁) :
    m.rangeFrames cr3 va count ∪ m₁.frameAt cr3 (va + count * pageSize) = m.rangeFrames cr3 va (count + 1) := by
  rw [rangeFrames_succ]
  by_cases hcov : Covers va count (va + count * pageSize)
  · have hempty : m₁.frameAt cr3 (va + count * pageSize) = ∅ := by
      rw [frameAt, hi.gone hcov, Option.map_none, Option.toFinset_none, Finset.empty_inter]
    obtain ⟨i, hlt, hpage⟩ := hcov
    have hframe : m.frameAt cr3 (va + count * pageSize) = m.frameAt cr3 (va + i * pageSize) := by
      rw [h.frameAt_eq, h.frameAt_eq, pte_congr hpage]
    rw [hempty, Finset.union_empty, hframe, rangeFrames]
    exact (Finset.union_eq_left.mpr
      (Finset.subset_biUnion_of_mem (fun i => m.frameAt cr3 (va + i * pageSize)) (Finset.mem_range.mpr hlt))).symm
  · rw [frameAt, frameAt, hi.rest hcov]

end Phys

open Phys

/-- `munmap_pages` takes away the pages of its range and no other, and gives
back the frames that they were mapped to, each once. -/
theorem munmap_pages_frees_its_range {m : Phys} {cr3 va count : Nat} (h : MapsOnce m cr3)
    (hfits : va + count * pageSize ≤ 2 ^ 64) :
    ∃ m', m.munmapPages cr3 va count = some m' ∧ Unmaps m cr3 (Covers va count) (m.rangeFrames cr3 va count) m' := by
  induction count with
  | zero => exact ⟨m, rfl, .refl h fun ⟨_, hi, _⟩ => absurd hi (Nat.not_lt_zero _)⟩
  | succ n ih =>
    rw [Nat.add_mul, Nat.one_mul] at hfits
    obtain ⟨m₁, hrun, hi⟩ := ih (by omega)
    have hva : addU64 va (n * pageSize) = some (va + n * pageSize) :=
      addU64_eq_some.mpr ⟨by simp only [pageSize] at *; omega, rfl⟩
    refine ⟨m₁.munmapPage cr3 (va + n * pageSize), ?_, ?_⟩
    · rw [munmapPages_succ, hrun, Option.bind_some, hva, Option.map_some]
    · have hnext := hi.trans (hi.table.munmapPage (va + n * pageSize))
      rw [Unmaps.next_frame h hi] at hnext
      have hcov : (fun va' => Covers va n va' ∨ pageOf va' = pageOf (va + n * pageSize)) = Covers va (n + 1) :=
        funext fun _ => propext covers_succ.symm
      exact hcov ▸ hnext

/-- One page of data in an empty table. -/
theorem blankMachine_mapsOnce {m : Phys} (h : blankMachine.map4k 0 0x5000 (100 * pageSize) (userFlags true) = some m) :
    MapsOnce m 0 ∧ MapsTo m 0 0x5000 100 := by
  have hmap := map4k_spec (blankMachine_tree fun _ => True) trivial (by decide) (userFlags_lt true) h
  have hpte : ∀ va, m.pte 0 va = if pageOf va = pageOf 0x5000 then
      some (addrOf (100 * pageSize) ||| userFlags true ||| ptePresent) else none := by
    intro va
    rw [hmap.pte trivial]
    refine congrArg _ ?_
    have hzero : ∀ t i, blankMachine.entry t i = 0 := fun t i => ByteMem.le_zero fun _ _ _ => rfl
    simp only [pte, hzero]
    cases blankMachine.node 0 (pathOf va) <;> rfl
  have hframe : ∀ {va f}, m.MapsTo 0 va f ↔ pageOf va = pageOf 0x5000 ∧ f = 100 := by
    intro va f
    have hwalk := @hmap.tree.virtToPhys_eq _ _ _ _ va trivial
    rw [hpte] at hwalk
    rw [MapsTo, hwalk]
    split
    · next hpage =>
      have hdiv : (addrOf (addrOf (100 * pageSize) ||| userFlags true ||| ptePresent) + va % pageSize) / pageSize =
          100 := by
        rw [show addrOf (addrOf (100 * pageSize) ||| userFlags true ||| ptePresent) = 100 * pageSize by decide]
        simp only [pageSize]
        omega
      simp [hpage, hdiv, eq_comm]
    · next hpage => simp [hpage]
  refine ⟨⟨hmap.tree.mono fun f hf => ?_, fun h₁ h₂ => ?_⟩, hframe.mpr ⟨rfl, rfl⟩⟩
  · obtain ⟨va, hf⟩ := hf
    exact (hframe.mp hf).2
  · exact (hframe.mp h₁).1.trans (hframe.mp h₂).1.symm

/-- Three pages are taken away, the middle one of which is mapped. -/
theorem munmap_pages_frees_middle : ∃ m m',
    blankMachine.map4k 0 0x5000 (100 * pageSize) (userFlags true) = some m ∧ m.munmapPages 0 0x4000 3 = some m' ∧
      m.MapsTo 0 0x5000 100 ∧ m'.virtToPhys 0 0x5000 = none ∧ 100 ∉ m.free ∧ 100 ∈ m'.free := by
  obtain ⟨m, hm⟩ := Option.isSome_iff_exists.mp
    (show (blankMachine.map4k 0 0x5000 (100 * pageSize) (userFlags true)).isSome = true by decide)
  obtain ⟨honce, hmapped⟩ := blankMachine_mapsOnce hm
  obtain ⟨m', hrun, h⟩ := @munmap_pages_frees_its_range m 0 0x4000 3 honce (by decide)
  refine ⟨m, m', hm, hrun, hmapped, h.gone ⟨1, by decide, by decide⟩, honce.tree.data ⟨_, hmapped⟩, ?_⟩
  obtain ⟨phys, hphys, hdiv⟩ := hmapped
  rw [h.free, Finset.mem_union, rangeFrames, Finset.mem_biUnion]
  refine .inr ⟨1, by decide, ?_⟩
  rw [show 0x4000 + 1 * pageSize = 0x5000 by decide, frameAt, hphys, Option.map_some, Option.toFinset_some, hdiv]
  exact Finset.mem_inter.mpr ⟨Finset.mem_singleton_self _, Finset.mem_range.mpr (by decide)⟩

end ChodOs
