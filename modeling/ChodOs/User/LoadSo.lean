/-
What `load_so_at` (`dynlink.rs`) puts into an address space: every byte of
the file that `vaddr_to_file_off` finds, at its address, and zeros behind
them. Of the memory that was in use it writes to the page tables only.

The space may have pages already; those of the segments are mapped anew.
-/
import ChodOs.User.Linking

namespace ChodOs

open Pt Elf

/-- Every segment is in the file, and no two of them have a page in common,
by the page numbers that a walk looks at. -/
structure SoLayout (data : List UInt8) (slotBase : Nat) (segs : List PtLoad) : Prop where
  inFile : ∀ seg ∈ segs, seg.offset + seg.filesz ≤ data.length
  filesz : ∀ seg ∈ segs, seg.filesz ≤ seg.memsz
  disjoint : segs.Pairwise fun seg seg' => ∀ p p', seg.Occupies (slotBase + seg.vaddr) p →
    seg'.Occupies (slotBase + seg'.vaddr) p' → p % 2 ^ 36 ≠ p' % 2 ^ 36

namespace Phys

variable {H D D' D'' P Q : Nat → Prop} {m m' m₀ m₁ m₂ m₃ : Phys} {root cr3 va f p flags slotBase mapped stop : Nat}
  {data : List UInt8} {seg : PtLoad} {segs : List PtLoad} {c : Nat → UInt8}

/-! ## A frame is filled -/

/-- The frame of a page holds the bytes of the page, and nothing else has changed. -/
structure FrameFilled (m : Phys) (f : Nat) (m₁ : Phys) (c : Nat → UInt8) (m₂ : Phys) : Prop where
  allocs : m.Allocs f m₁
  free : m₂.free = m₁.free
  bytes : ∀ x, x / pageSize ≠ f → m₂.bytes x = m.bytes x
  page : ∀ o < pageSize, m₂.bytes (f * pageSize + o) = c o
  within : ∀ {S m₀}, Within 0 S m₀ m → Within 0 S m₀ m₂

/-- For a segment that is in the file these are the bytes of the image. -/
theorem loadSoPage_fills (hin : seg.offset + seg.filesz ≤ data.length)
    (hrun : m.loadSoPage cr3 data mapped seg va = some m') :
    ∃ (f : Nat) (m₁ m₂ : Phys), FrameFilled m f m₁ (imageByte data mapped seg va) m₂ ∧
      m₂.map4k (addrOf cr3) va (f * pageSize) (userFlags (seg.flags.testBit 1)) = some m' := by
  obtain ⟨f, m₁, m₂, hal, hmap, hcopy⟩ := loadSoPage_cases hrun
  refine ⟨f, m₁, m₂, ?_, hmap⟩
  have hzero : ∀ o < pageSize, (m₁.zeroPage (f * pageSize)).bytes (f * pageSize + o) = 0 := fun o ho => put_inside ho
  rcases hcopy with ⟨rfl, hnone⟩ | ⟨hlt, rfl⟩
  · refine ⟨hal, rfl, fun x hx => hal.zeroPage_bytes hx, fun o ho => ?_, fun hw => hw.fill hal⟩
    rw [hzero o ho, imageByte, if_neg fun hcon => ?_]
    -- a byte of the image would have been copied
    have hlt : max mapped va < copyEnd mapped seg va := by
      simp only [copyEnd]
      omega
    have hout := hnone hlt
    simp only [copyEnd] at *
    omega
  · have hframe : ∀ x, f * pageSize + (max mapped va - va) ≤ x →
        x < f * pageSize + (max mapped va - va) + (copyEnd mapped seg va - max mapped va) → x / pageSize = f := by
      intro x hx hx'
      simp only [copyEnd, pageSize] at *
      omega
    refine ⟨hal, rfl, fun x hx => (copyIn_frame hframe hx).trans (hal.zeroPage_bytes hx), fun o ho => ?_, fun hw => ?_⟩
    · by_cases hcopied : max mapped va ≤ va + o ∧ va + o < copyEnd mapped seg va
      · have hpos : f * pageSize + o = f * pageSize + (max mapped va - va) + (va + o - max mapped va) := by omega
        have hsrc : seg.offset + (max mapped va - mapped) + (va + o - max mapped va) = seg.offset + (va + o - mapped) := by
          omega
        rw [hpos, show (Phys.copyIn _ _ _ _ _).bytes _ = _ from put_inside (by omega), hsrc, imageByte, if_pos]
        simp only [copyEnd] at hcopied
        omega
      · rw [show (Phys.copyIn _ _ _ _ _).bytes _ = _ from put_outside (by omega), hzero o ho, imageByte, if_neg]
        simp only [copyEnd] at hcopied
        omega
    · exact (hw.fill hal).put fun x hx hx' => .inr (by
        rw [hframe x hx hx']
        exact ⟨hw.free hal.mem, hal.owned.2⟩)

/-! ## A space that is added to -/

/-- A call that began in `m₀` adds pages to the table at `root`, as far as it
is well-formed; the pages' frames are `D`. -/
structure Adding (H : Nat → Prop) (m₀ : Phys) (root : Nat) (D : Nat → Prop) (m : Phys) : Prop where
  tree : PageTree H D m root
  within : Within 0 (tables H m₀ root) m₀ m
  tables : ∀ {f}, tables H m root f → Phys.tables H m₀ root f ∨ Owned m₀ m f

/-- Pages of `P` were added; their frames are those of `D'` that were not in `D`. -/
structure Added (H : Nat → Prop) (m₀ : Phys) (root : Nat) (D : Nat → Prop) (m : Phys) (P D' : Nat → Prop) (m' : Phys) :
    Prop where
  adding : Adding H m₀ root D' m'
  grows : ∀ {f}, D f → D' f
  pte : ∀ {va}, H (idx 39 va) → ¬P (pageOf va) → m'.pte root va = m.pte root va
  bytes : ∀ {x}, D (x / pageSize) → m'.bytes x = m.bytes x

/-- The page `p` is mapped to a frame of `D` that holds the bytes `c`. -/
def Holds (D : Nat → Prop) (m : Phys) (root p : Nat) (c : Nat → UInt8) : Prop :=
  ∃ f e, D f ∧ m.pte root (p * pageSize) = some e ∧ addrOf e = f * pageSize ∧
    ∀ o < pageSize, m.bytes (f * pageSize + o) = c o

theorem Adding.start (hT : PageTree H (fun _ => False) m root) : Adding H m root (fun _ => False) m :=
  ⟨hT, .refl _ _ _, .inl⟩

/-- The next page. -/
theorem Adding.page (hA : Adding H m₀ root D m) (hF : FrameFilled m f m₁ c m₂) (hva : H (idx 39 (p * pageSize)))
    (hflags : flags < pageSize) (h : m₂.map4k root (p * pageSize) (f * pageSize) flags = some m₃) :
    Added H m₀ root D m (· = p % 2 ^ 36) (fun g => g = f ∨ D g) m₃ ∧ Holds (fun g => g = f ∨ D g) m₃ root p c := by
  have hal := hF.allocs
  have hfree : m₂.free = m.free.erase f := hF.free.trans hal.free
  have hsub : m₂.free ⊆ m.free := by
    rw [hfree]
    exact Finset.erase_subset _ _
  have hnot : ∀ {g}, g ∉ m.free → g ≠ f := fun hg he => hg (he ▸ hal.mem)
  obtain ⟨hsame, htree⟩ := hA.tree.alloc hal hF.free fun x hx => hF.bytes x (hnot (hA.tree.used hx).1)
  have hM := map4k_spec htree hva hal.frame_lt hflags h
  rw [addrOf_eq (Nat.mul_mod_left _ _)] at hM
  have hw := hF.within hA.within
  have htables : ∀ {g}, Phys.tables H m₂ root g → Phys.tables H m₀ root g ∨ Owned m₀ m₂ g := fun hg =>
    (hA.tables (hsame.tables_iff.mp hg)).imp_right fun ho => ⟨ho.1, fun hmem => ho.2 (hsub hmem)⟩
  have hkeep : ∀ {x}, x / pageSize = f ∨ D (x / pageSize) → m₃.bytes x = m₂.bytes x := by
    intro x hx
    refine hM.within.bytes_eq (fun ht => (htree.used ht).2 hx) fun ho => ?_
    exact htree.data hx ho.1
  have hpage : pageOf (p * pageSize) = p % 2 ^ 36 := by rw [pageOf, Nat.mul_div_cancel _ (by decide)]
  refine ⟨⟨⟨hM.tree, hw.trans hM.within (Nat.le_refl 0) fun g hg => htables hg, fun {g} hg => ?_⟩, .inr,
    fun hva' hne => ?_, fun {x} hx => ?_⟩, f, _, .inl rfl, (hM.pte hva).trans (if_pos rfl), ?_, fun o ho => ?_⟩
  · rcases hM.enlarges.tables hg with hg | hg
    · exact (htables hg).imp_right hM.within.owned_left
    · exact .inr (hw.owned_right hg)
  · rw [hM.pte hva', if_neg (by rw [hpage]; exact hne), hsame.pte hva']
  · rw [hkeep (.inr hx), hF.bytes x (hnot (hA.tree.data hx))]
  · rw [Nat.or_assoc, addrOf_lor (Nat.mul_mod_left _ _) (Nat.or_lt_two_pow (n := 12) hflags (by decide))]
  · rw [hkeep (.inl (frame_div ho)), hF.page o ho]

namespace Added

theorem refl (h : Adding H m₀ root D m) (P : Nat → Prop) : Added H m₀ root D m P D m :=
  ⟨h, id, fun _ _ => rfl, fun _ => rfl⟩

theorem trans (h : Added H m₀ root D m P D' m') (h' : Added H m₀ root D' m' Q D'' m₁) :
    Added H m₀ root D m (fun q => P q ∨ Q q) D'' m₁ where
  adding := h'.adding
  grows hf := h'.grows (h.grows hf)
  pte hva hPQ := (h'.pte hva fun hQ => hPQ (.inr hQ)).trans (h.pte hva fun hP => hPQ (.inl hP))
  bytes hx := (h'.bytes (h.grows hx)).trans (h.bytes hx)

theorem mono (h : Added H m₀ root D m P D' m') (hP : ∀ q, P q → Q q) : Added H m₀ root D m Q D' m' :=
  ⟨h.adding, h.grows, fun hva hQ => h.pte hva fun hp => hQ (hP _ hp), h.bytes⟩

/-- What a page outside `P` holds it goes on to hold. -/
theorem holds (h : Added H m₀ root D m P D' m') (hva : H (idx 39 (p * pageSize))) (hP : ¬P (p % 2 ^ 36))
    (hs : Holds D m root p c) : Holds D' m' root p c := by
  obtain ⟨f, e, hf, hpte, he, hbytes⟩ := hs
  have hpage : pageOf (p * pageSize) = p % 2 ^ 36 := by rw [pageOf, Nat.mul_div_cancel _ (by decide)]
  refine ⟨f, e, h.grows hf, (h.pte hva (by rw [hpage]; exact hP)).trans hpte, he, fun o ho => ?_⟩
  rw [h.bytes ((frame_div ho).symm ▸ hf), hbytes o ho]

end Added

/-! ## The segments -/

/-- The pages that a segment takes, by the numbers that a walk looks at. -/
def SegmentHas (slotBase : Nat) (seg : PtLoad) (q : Nat) : Prop :=
  ∃ p, seg.Occupies (slotBase + seg.vaddr) p ∧ q = p % 2 ^ 36

/-- Its pages hold the bytes of the image. -/
def SegmentHolds (D : Nat → Prop) (m : Phys) (root slotBase : Nat) (data : List UInt8) (seg : PtLoad) : Prop :=
  ∀ p, seg.Occupies (slotBase + seg.vaddr) p →
    Holds D m root p (imageByte data (slotBase + seg.vaddr) seg (p * pageSize))

theorem loadSoPage_card (hrun : m.loadSoPage cr3 data mapped seg va = some m') : m'.free.card + 1 ≤ m.free.card := by
  obtain ⟨f, m₁, m₂, hal, hfree, -, -, hmap⟩ := loadSoPage_eq hrun
  have hle := Finset.card_le_card (map4k_free hmap)
  have hpos := Finset.card_pos.mpr ⟨f, hal.mem⟩
  rw [hfree, hal.free, Finset.card_erase_of_mem hal.mem] at hle
  omega

theorem card_free_le (m : Phys) : m.free.card ≤ maxFrames := by
  have hsub : m.free ⊆ Finset.range maxFrames := Finset.filter_subset _ _
  exact (Finset.card_le_card hsub).trans_eq (Finset.card_range _)

theorem Adding.loadSoSegment (hA : Adding H m₀ (addrOf cr3) D m)
    (hH : ∀ p, seg.Occupies (slotBase + seg.vaddr) p → H (idx 39 (p * pageSize)))
    (hin : seg.offset + seg.filesz ≤ data.length) (hrun : loadSoSegment cr3 slotBase data m seg = some (stop, m')) :
    ∃ D', Added H m₀ (addrOf cr3) D m (SegmentHas slotBase seg) D' m' ∧
      SegmentHolds D' m' (addrOf cr3) slotBase data seg := by
  simp only [Phys.loadSoSegment, Option.bind_eq_bind, Option.bind_eq_some_iff, addU64_eq_some, Option.some.injEq,
    Prod.mk.injEq] at hrun
  obtain ⟨mapped, ⟨-, hmapped⟩, _, ⟨-, rfl⟩, _, ⟨-, rfl⟩, m₁, hrun, -, rfl⟩ := hrun
  simp only [SegmentHolds, hmapped] at hH ⊢
  generalize hn : (addrOf (mapped + seg.memsz + 0xFFF) - addrOf mapped) / pageSize = n at hrun
  have hocc : ∀ j, j < n ↔ seg.Occupies mapped (mapped / pageSize + j) := by
    intro j
    simp only [PtLoad.Occupies, addrOf, pageSize] at *
    omega
  -- a turn takes a frame, so that there are fewer turns than page numbers
  have hloop := Loop.invariant_range (fun i m' => m'.free.card + i ≤ m.free.card ∧ ∃ D',
    Added H m₀ (addrOf cr3) D m (fun q => ∃ j < i, q = (mapped / pageSize + j) % 2 ^ 36) D' m' ∧
      ∀ j < i, Holds D' m' (addrOf cr3) (mapped / pageSize + j)
        (imageByte data mapped seg ((mapped / pageSize + j) * pageSize))) hrun
    ⟨Nat.le_of_eq (Nat.add_zero _), D, .refl hA _, fun j hj => absurd hj (Nat.not_lt_zero j)⟩
    fun {i s s'} hi hI hstep => ?_
  · obtain ⟨-, D', hadd, hholds⟩ := hloop
    refine ⟨D', hadd.mono fun q hq => ?_, fun p hp => ?_⟩
    · obtain ⟨j, hj, hq⟩ := hq
      exact ⟨_, hmapped ▸ (hocc j).mp hj, hq⟩
    obtain ⟨j, rfl⟩ : ∃ j, p = mapped / pageSize + j := ⟨p - mapped / pageSize, by have := hp.1; omega⟩
    exact hholds j ((hocc j).mpr hp)
  · obtain ⟨hcard, D', hadd, hholds⟩ := hI
    have hva : addrOf mapped + i * pageSize = (mapped / pageSize + i) * pageSize := by rw [addrOf, Nat.add_mul]
    rw [hva] at hstep
    obtain ⟨f, m₂, m₃, hF, hmap⟩ := loadSoPage_fills hin hstep
    have hflags : userFlags (seg.flags.testBit 1) < pageSize := by cases seg.flags.testBit 1 <;> decide
    obtain ⟨hpage, hheld⟩ := hadd.adding.page hF (hH _ ((hocc i).mp hi)) hflags hmap
    refine ⟨?_, _, (hadd.trans hpage).mono fun q hq => ?_, fun j hj => ?_⟩
    · have := loadSoPage_card hstep
      omega
    · rcases hq with ⟨j, hj, hq⟩ | hq
      · exact ⟨j, by omega, hq⟩
      · exact ⟨i, Nat.lt_succ_self i, hq⟩
    · rcases Nat.lt_succ_iff_lt_or_eq.mp hj with hj | rfl
      · refine hpage.holds (hH _ ((hocc j).mp (by omega))) ?_ (hholds j hj)
        have hmax := card_free_le m
        simp only [maxFrames, bitmapWords] at hmax
        omega
      · exact hheld

theorem Adding.loadSoSegments (hA : Adding H m₀ (addrOf cr3) D m)
    (hH : ∀ seg ∈ segs, ∀ p, seg.Occupies (slotBase + seg.vaddr) p → H (idx 39 (p * pageSize)))
    (hlay : SoLayout data slotBase segs) (hrun : loadSoSegments cr3 slotBase data segs m = some (stop, m')) :
    ∃ D', Added H m₀ (addrOf cr3) D m (fun q => ∃ seg ∈ segs, SegmentHas slotBase seg q) D' m' ∧
      ∀ seg ∈ segs, SegmentHolds D' m' (addrOf cr3) slotBase data seg := by
  have hloop := Loop.invariant (fun done (s : Nat × Phys) => ∃ D',
    Added H m₀ (addrOf cr3) D m (fun q => ∃ seg ∈ done, SegmentHas slotBase seg q) D' s.2 ∧
      ∀ seg ∈ done, SegmentHolds D' s.2 (addrOf cr3) slotBase data seg) hrun
    ⟨D, .refl hA _, fun _ hseg => absurd hseg List.not_mem_nil⟩ fun {done seg rest s s'} hl hI hstep => ?_
  · exact hloop
  · obtain ⟨D', hadd, hholds⟩ := hI
    obtain ⟨⟨pageEnd, m₁⟩, hseg, he⟩ := Option.bind_eq_some_iff.mp hstep
    cases he
    have hmem : ∀ {x}, x ∈ done ∨ x = seg → x ∈ segs := by
      intro x hx
      rw [hl, List.mem_append, List.mem_cons]
      exact hx.imp_right .inl
    obtain ⟨D'', hnext, hheld⟩ := hadd.adding.loadSoSegment (hH seg (hmem (.inr rfl))) (hlay.inFile seg (hmem (.inr rfl))) hseg
    refine ⟨D'', (hadd.trans hnext).mono fun q hq => ?_, fun x hx => ?_⟩
    · rcases hq with ⟨x, hx, hq⟩ | hq
      · exact ⟨x, List.mem_append.mpr (.inl hx), hq⟩
      · exact ⟨seg, List.mem_append.mpr (.inr (List.mem_singleton_self _)), hq⟩
    · rcases List.mem_append.mp hx with hx | hx
      · -- an earlier segment has none of the new pages
        intro p hp
        refine hnext.holds (hH x (hmem (.inl hx)) p hp) (fun hcon => ?_) (hholds x hx p hp)
        obtain ⟨p', hp', hq⟩ := hcon
        have hdisj := hlay.disjoint
        rw [hl, List.pairwise_append] at hdisj
        exact hdisj.2.2 x hx seg List.mem_cons_self p p' hp hp' hq
      · cases List.mem_singleton.mp hx
        exact hheld

/-- What such a page shows to a program. -/
theorem Holds.userByte {o : Nat} (hs : Holds D m (addrOf cr3) p c) (hT : PageTree H D' m (addrOf cr3))
    (hva : H (idx 39 (p * pageSize))) (ho : o < pageSize) : m.userByte cr3 (p * pageSize + o) = some (c o) := by
  obtain ⟨f, e, -, hpte, he, hbytes⟩ := hs
  have hpage : pageOf (p * pageSize + o) = pageOf (p * pageSize) := by
    simp only [pageOf, pageSize] at *
    omega
  have hidx : idx 39 (p * pageSize + o) = idx 39 (p * pageSize) := by
    simp only [idx, pageSize] at *
    omega
  have hoff : (p * pageSize + o) % pageSize = o := by
    simp only [pageSize] at *
    omega
  rw [Phys.userByte, ← virtToPhys_addrOf, hT.virtToPhys_eq (by rw [hidx]; exact hva), pte_congr hpage, hpte, Option.map_some,
    Option.map_some, hoff, he, hbytes o ho]

end Phys

/-! ## Where an address is in the file -/

namespace Elf

variable {α : Type} {f : RawPhdr → Option (Option α)} {d : List UInt8} {phoff phsz idx n : Nat} {x : α}

/-- A hit is one of the headers that the iteration gives. -/
theorem findPhdr_mem {phdrs : List RawPhdr} (hiter : phdrIter d phoff phsz n idx = some phdrs)
    (h : findPhdr d phoff phsz f n idx = some (some x)) : ∃ ph ∈ phdrs, f ph = some (some x) := by
  induction n generalizing idx phdrs with
  | zero => cases h
  | succ n ih =>
    simp only [phdrIter, findPhdr, Option.bind_eq_bind, Option.bind_eq_some_iff] at hiter h
    obtain ⟨base, hbase, stop, hstop, h⟩ := h
    obtain ⟨_, hbase', _, hstop', hiter⟩ := hiter
    cases hbase.symm.trans hbase'
    cases hstop.symm.trans hstop'
    by_cases hend : d.length < stop
    · rw [if_pos hend] at h
      cases h
    · rw [if_neg hend, Option.bind_eq_some_iff] at h hiter
      obtain ⟨ph, hph, h⟩ := h
      obtain ⟨y, hy, h⟩ := Option.bind_eq_some_iff.mp h
      obtain ⟨_, hph', hiter⟩ := hiter
      cases hph.symm.trans hph'
      obtain ⟨rest, hrest, he⟩ := Option.bind_eq_some_iff.mp hiter
      cases he
      cases y with
      | some y =>
        cases h
        exact ⟨ph, List.mem_cons_self, hy⟩
      | none =>
        obtain ⟨ph', hmem, hhit⟩ := ih hrest h
        exact ⟨ph', List.mem_cons_of_mem _ hmem, hhit⟩

end Elf

/-- An address that is in the file is in the file's part of a segment. -/
theorem Elf64.vaddrToFileOff_mem {elf : Elf64} {segs : List PtLoad} {vaddr off : Nat} (hsegs : elf.loadSegments = some segs)
    (h : elf.vaddrToFileOff vaddr = some (some off)) :
    ∃ seg ∈ segs, ∃ i < seg.filesz, vaddr = seg.vaddr + i ∧ off = seg.offset + i := by
  simp only [Elf64.loadSegments, Elf64.vaddrToFileOff, Elf64.findPhdr, Option.bind_eq_bind,
    Option.bind_eq_some_iff, Option.some.injEq] at hsegs h
  obtain ⟨phoff, hphoff, phnum, hphnum, phsz, hphsz, phdrs, hiter, rfl⟩ := hsegs
  obtain ⟨_, hphoff', _, hphnum', _, hphsz', h⟩ := h
  cases hphoff.symm.trans hphoff'
  cases hphnum.symm.trans hphnum'
  cases hphsz.symm.trans hphsz'
  obtain ⟨ph, hmem, hhit⟩ := findPhdr_mem hiter h
  by_cases hout : ph.pType ≠ ptLoad ∨ vaddr < ph.pVaddr
  · rw [if_pos hout] at hhit
    cases hhit
  · rw [if_neg hout, Option.bind_eq_some_iff] at hhit
    obtain ⟨stop, hstop, hhit⟩ := hhit
    obtain ⟨-, rfl⟩ := addU64_eq_some.mp hstop
    by_cases hbehind : ph.pVaddr + ph.pFilesz ≤ vaddr
    · rw [if_pos hbehind] at hhit
      cases hhit
    · rw [if_neg hbehind, Option.bind_eq_some_iff] at hhit
      obtain ⟨_, hoff, he⟩ := hhit
      cases he
      obtain ⟨-, rfl⟩ := addU64_eq_some.mp hoff
      obtain ⟨hload, hfrom⟩ := not_or.mp hout
      have hlt : vaddr - ph.pVaddr < ph.pFilesz := by omega
      have hadd : vaddr = ph.pVaddr + (vaddr - ph.pVaddr) := by omega
      exact ⟨_, List.mem_filterMap.mpr ⟨ph, hmem, if_neg hload⟩, vaddr - ph.pVaddr, hlt, hadd, rfl⟩

/-! ## A shared object -/

open Phys

/-- What `load_so_at` leaves of a space whose part under `H` was well-formed:
the file's bytes are where `vaddr_to_file_off` says, zeros are behind them,
and the other pages are as they were. Written are the space's page tables and
the frames that the call has allocated. -/
structure SoLoaded (H : Nat → Prop) (data : List UInt8) (elf : Elf64) (segs : List PtLoad) (cr3 slotBase : Nat)
    (m m' : Phys) : Prop where
  file : ∀ {vaddr off}, elf.vaddrToFileOff vaddr = some (some off) →
    off < data.length ∧ m'.userByte cr3 (slotBase + vaddr) = data[off]?
  zeros : ∀ seg ∈ segs, ∀ i, seg.filesz ≤ i → i < seg.memsz → m'.userByte cr3 (slotBase + seg.vaddr + i) = some 0
  others : ∀ {va}, H (idx 39 va) → (∀ seg ∈ segs, ¬SegmentHas slotBase seg (pageOf va)) →
    m'.pte (addrOf cr3) va = m.pte (addrOf cr3) va
  bytes : ∀ {x}, m'.bytes x ≠ m.bytes x → tables H m (addrOf cr3) (x / pageSize) ∨ Phys.Owned m m' (x / pageSize)
  log : ∃ es, m'.log = m.log ++ es ∧ WritesIn (tables H m (addrOf cr3)) es

/-- A byte of a segment whose pages hold the image. -/
theorem Phys.SegmentHolds.userByte {H D : Nat → Prop} {m : Phys} {cr3 slotBase i : Nat} {data : List UInt8} {seg : PtLoad}
    (hs : SegmentHolds D m (addrOf cr3) slotBase data seg) (hT : PageTree H D m (addrOf cr3))
    (hH : ∀ p, seg.Occupies (slotBase + seg.vaddr) p → H (idx 39 (p * pageSize))) (hi : i < seg.memsz) :
    m.userByte cr3 (slotBase + seg.vaddr + i) =
      some (if i < seg.filesz then data.getD (seg.offset + i) 0 else 0) := by
  generalize hva : slotBase + seg.vaddr + i = va
  have hoff : va % pageSize < pageSize := Nat.mod_lt _ (by decide)
  have hsplit : va / pageSize * pageSize + va % pageSize = va := Nat.div_add_mod' _ _
  have hocc : seg.Occupies (slotBase + seg.vaddr) (va / pageSize) := by
    simp only [PtLoad.Occupies, pageSize]
    omega
  rw [← hsplit, (hs _ hocc).userByte hT (hH _ hocc) hoff, imageByte, hsplit, ← hva, Nat.add_sub_cancel_left]
  simp only [Nat.le_add_right, true_and]

/-- A shared object is loaded byte for byte, whatever the alignment of its segments. -/
theorem load_so_loads {H : Nat → Prop} {name : String} {data : List UInt8} {elf : Elf64} {segs : List PtLoad}
    {lib : SharedLib} {cr3 slotBase : Nat} {m m' : Phys} (hparse : Elf64.parse data = some elf)
    (hsegs : elf.loadSegments = some segs) (hlay : SoLayout data slotBase segs)
    (hT : PageTree H (fun _ => False) m (addrOf cr3))
    (hH : ∀ seg ∈ segs, ∀ p, seg.Occupies (slotBase + seg.vaddr) p → H (idx 39 (p * pageSize)))
    (h : m.loadSoAt name data cr3 slotBase = some (some lib, m')) : SoLoaded H data elf segs cr3 slotBase m m' := by
  rcases loadSoAt_cases h with ⟨hnone, -, -⟩ | ⟨_, elf', segs', stop, -, -, -, -, hparse', hsegs', hload⟩
  · cases hnone
  cases hparse.symm.trans hparse'
  cases hsegs.symm.trans hsegs'
  obtain ⟨D, hadd, hholds⟩ := (Adding.start hT).loadSoSegments hH hlay hload
  obtain ⟨es, hlog, -, hwrites⟩ := hadd.adding.within.log
  refine ⟨fun {vaddr off} hoff => ?_, fun seg hseg i hi hlt => ?_, fun hva hother => ?_, fun {x} hx => ?_,
    es, hlog, hwrites rfl⟩
  · obtain ⟨seg, hseg, i, hi, rfl, rfl⟩ := Elf64.vaddrToFileOff_mem hsegs hoff
    have hin := hlay.inFile seg hseg
    have hmem := hlay.filesz seg hseg
    have hlt : seg.offset + i < data.length := by omega
    refine ⟨hlt, ?_⟩
    rw [← Nat.add_assoc, (hholds seg hseg).userByte hadd.adding.tree (hH seg hseg) (by omega), if_pos hi,
      List.getD_eq_getElem?_getD, List.getElem?_eq_getElem hlt, Option.getD_some]
  · rw [(hholds seg hseg).userByte hadd.adding.tree (hH seg hseg) hlt, if_neg (Nat.not_lt.mpr hi)]
  · exact hadd.pte hva fun hin => by
      obtain ⟨seg, hseg, hhas⟩ := hin
      exact hother seg hseg hhas
  · refine (hadd.adding.within.bytes hx).imp_right fun howned => ?_
    obtain ⟨f, hf, hle, hge⟩ := howned
    rw [Nat.le_antisymm hge hle]
    exact hf

/-! ## An object over a page boundary -/

theorem straddlingLayout : SoLayout (twoByteElf 0x10FFF) 0x400000 [twoByteSegment 0x10FFF] where
  inFile seg hseg := by
    cases List.mem_singleton.mp hseg
    decide
  filesz seg hseg := by
    cases List.mem_singleton.mp hseg
    decide
  disjoint := List.pairwise_singleton _ _

theorem straddling_segments :
    (Elf64.parse (twoByteElf 0x10FFF)).bind Elf64.loadSegments = some [twoByteSegment 0x10FFF] := by decide +kernel

theorem straddling_run : (bootMachine.allocUserPml4.bind fun r =>
    (r.2.loadSoAt "so" (twoByteElf 0x10FFF) r.1 0x400000).bind fun q => q.1.map fun _ =>
      (r.1, q.2.bytes r.1, r.2.bytes r.1)) = some (pageSize, 7, 0) := by decide +kernel

/-- The second byte is on the next page, and shows. -/
theorem load_so_loads_straddling : ∃ root m lib m' elf, bootMachine.allocUserPml4 = some (root, m) ∧
    m.loadSoAt "so" (twoByteElf 0x10FFF) root 0x400000 = some (some lib, m') ∧
    SoLoaded userHalf (twoByteElf 0x10FFF) elf [twoByteSegment 0x10FFF] root 0x400000 m m' := by
  obtain ⟨elf, hparse, hsegs⟩ := Option.bind_eq_some_iff.mp straddling_segments
  obtain ⟨⟨root, m⟩, hroot, hrun⟩ := Option.bind_eq_some_iff.mp straddling_run
  obtain ⟨⟨_, m'⟩, hrun, hlib⟩ := Option.bind_eq_some_iff.mp hrun
  obtain ⟨lib, rfl, he⟩ := Option.map_eq_some_iff.mp hlib
  have htree := (Loading.start (k := 0) hroot).tree
  have haddr : addrOf root = root := addrOf_eq htree.aligned
  refine ⟨root, m, lib, m', elf, hroot, hrun, load_so_loads hparse hsegs straddlingLayout (haddr.symm ▸ htree)
    (fun seg hseg p hp => ?_) hrun⟩
  cases List.mem_singleton.mp hseg
  obtain ⟨-, hlt⟩ := hp
  refine (page_user ?_).1
  simp only [twoByteSegment, pageSize] at hlt
  omega

/-- The call also writes to the table that the space had: its own frames are
not the only ones. -/
theorem load_so_writes_old_table : ∃ root m lib m' x, bootMachine.allocUserPml4 = some (root, m) ∧
    (Elf64.parse (twoByteElf 0x10FFF)).bind Elf64.loadSegments = some [twoByteSegment 0x10FFF] ∧
    SoLayout (twoByteElf 0x10FFF) 0x400000 [twoByteSegment 0x10FFF] ∧
    m.loadSoAt "so" (twoByteElf 0x10FFF) root 0x400000 = some (some lib, m') ∧
    m'.bytes x ≠ m.bytes x ∧ ¬Phys.Owned m m' (x / pageSize) := by
  obtain ⟨⟨root, m⟩, hroot, hrun⟩ := Option.bind_eq_some_iff.mp straddling_run
  obtain ⟨⟨_, m'⟩, hrun, hlib⟩ := Option.bind_eq_some_iff.mp hrun
  obtain ⟨lib, rfl, he⟩ := Option.map_eq_some_iff.mp hlib
  obtain ⟨-, hnew, hold⟩ : root = pageSize ∧ m'.bytes root = 7 ∧ m.bytes root = 0 := by simpa using he
  refine ⟨root, m, lib, m', root, hroot, straddling_segments, straddlingLayout, hrun, by rw [hnew, hold]; decide,
    fun howned => ?_⟩
  exact ((Loading.start (k := 0) hroot).tree.used ⟨[], root, path_nil, rfl, rfl⟩).1 howned.1

end ChodOs
