/-
Page faults (`exception_handler` in `interrupts/handlers.rs`): a program that
loads and stores over lazy memory, faulting and starting again, sees what it
would see in a plain memory where every lazy page is there and zero.
-/
import ChodOs.Trap.Tables
import ChodOs.User.Anonymous

namespace ChodOs

open Pt StepSys Phys

/-! ## The code -/

/-- How `exception_handler` ends. -/
inductive ExceptionEnd
  /-- It returns, and the instruction starts again. -/
  | again
  /-- `raise_signal`, then `sys_exit_impl` of 128 more. -/
  | exits (signum : Nat)
  /-- `cli; hlt` for ever. -/
  | halts
  deriving DecidableEq

def sigill : Nat := 4
def sigbus : Nat := 7
def sigsegv : Nat := 11

namespace MemSys

/-- `exception_handler`, by its frame and `CR2`. `none`: out of memory. -/
def exceptionHandler (s : MemSys) (vec cs ec cr2 : Nat) : Option (ExceptionEnd × MemSys) :=
  let isUser := cs % 4 == 3
  if isUser && vec == 14 then
    if ec % 2 = 0 then do
      let (ok, s) ← s.tryDemandPage cr2 s.procs.currentCr3
      some (if ok then .again else .exits sigsegv, s)
    else some (.exits sigsegv, s)
  else if isUser && vec == 17 then some (.exits sigbus, s)
  else if isUser && vec == 6 then some (.exits sigill, s)
  else some (.halts, s)

end MemSys

/-! ## The program -/

/-- A byte that the program reads or writes. -/
inductive Access
  | load (va : Nat)
  | store (va : Nat) (b : UInt8)

def Access.va : Access → Nat
  | .load va | .store va _ => va

/-- What an instruction comes to: the byte, or the error code of its fault. -/
inductive Tried
  | done (b : UInt8) (m : Phys)
  | faults (ec : Nat)

namespace MemSys

/-- The processor. Bit 0 of the error code is set if the page is there, bit 1 for a write, bit 2 in user mode. -/
def attempt (s : MemSys) : Access → Tried
  | .load va =>
    match s.phys.getUserPte s.procs.currentCr3 va, s.phys.virtToPhys s.procs.currentCr3 va with
    | some pte, some phys => if pte.testBit 2 then .done (s.phys.bytes phys) s.phys else .faults 5
    | _, _ => .faults 4
  | .store va b =>
    match s.phys.getUserPte s.procs.currentCr3 va, s.phys.virtToPhys s.procs.currentCr3 va with
    | some pte, some phys =>
      if pte.testBit 2 && pte.testBit 1 then .done b (s.phys.put phys 1 fun _ => b) else .faults 7
    | _, _ => .faults 6

/-- An instruction with its faults, at most `fuel` times. `none` for the byte: the process is ended. -/
def access : Nat → MemSys → Access → Option (Option UInt8 × MemSys)
  | 0, _, _ => none
  | fuel + 1, s, a =>
    match s.attempt a with
    | .done b m => some (some b, { s with phys := m })
    | .faults ec => do
      let (e, s) ← s.exceptionHandler 14 userCs ec a.va
      if e = .again then access fuel s a else some (none, s)

/-- A program's instructions, as far as it gets. -/
def accesses (fuel : Nat) : MemSys → List Access → Option (List (Option UInt8) × MemSys)
  | s, [] => some ([], s)
  | s, a :: as => do
    let (r, s) ← access fuel s a
    if r = none then some ([none], s)
    else do
      let (rs, s) ← accesses fuel s as
      some (r :: rs, s)

end MemSys

/-! ## A memory without faults -/

/-- What is to be read at an address, and whether it may be written. -/
def FlatMem := Nat → Option (UInt8 × Bool)

namespace FlatMem

def access (p : FlatMem) : Access → Option UInt8 × FlatMem
  | .load va => ((p va).map (·.1), p)
  | .store va b =>
    if (p va).any (·.2) then (some b, fun x => if x = va then some (b, true) else p x) else (none, p)

theorem access_none {p : FlatMem} {a : Access} (h : p a.va = none) : p.access a = (none, p) := by
  cases a with
  | load va => exact congrArg (·, p) (congrArg (Option.map _) h)
  | store va b => exact if_neg (by rw [show p va = none from h]; exact Bool.false_ne_true)

def accesses : FlatMem → List Access → List (Option UInt8) × FlatMem
  | p, [] => ([], p)
  | p, a :: as =>
    let (r, p) := p.access a
    if r = none then ([none], p)
    else
      let (rs, p) := accesses p as
      (r :: rs, p)

end FlatMem

namespace MemSys

/-- The lazy area of an address. -/
def lazyAt (s : MemSys) (va : Nat) : Option VmaEntry := (s.vmas.find va).filter (·.lazy)

/-- What the tables promise: a page as it is, else zeros in a lazy area. -/
def view (s : MemSys) : FlatMem := fun va =>
  if va < userEnd then
    match s.phys.pte s.procs.currentCr3 va with
    | some e => if e.testBit 2 then (s.phys.userByte s.procs.currentCr3 va).map (·, e.testBit 1) else none
    | none => (s.lazyAt va).map fun e => (0, e.prot.testBit 1)
  else none

/-- Areas begin at pages. -/
def AreasAligned (s : MemSys) : Prop := ∀ e ∈ s.vmas.1, e.valid = true → e.base % pageSize = 0

variable {s s' : MemSys} {va va' : Nat} {b : UInt8} {a : Access} {fuel : Nat}

theorem lazyAt_phys {m : Phys} : ({ s with phys := m } : MemSys).lazyAt va = s.lazyAt va := rfl

/-- An area covers whole pages. -/
theorem find_congr (h : s.AreasAligned) (hva : va < userEnd) (hva' : va' < userEnd) (hpage : pageOf va' = pageOf va) :
    s.vmas.find va' = s.vmas.find va := by
  refine Slots.find?_congr fun e he => ?_
  rw [VmaEntry.covers, VmaEntry.covers]
  cases hv : e.valid with
  | false => rfl
  | true =>
    have hal := h e he hv
    rw [Bool.true_and, Bool.true_and, Bool.eq_iff_iff, Bool.and_eq_true, Bool.and_eq_true, decide_eq_true_iff,
      decide_eq_true_iff, decide_eq_true_iff, decide_eq_true_iff, VmaEntry.endAddr]
    simp only [pageOf, pageSize, userEnd] at *
    omega

theorem lazyAt_congr (h : s.AreasAligned) (hva : va < userEnd) (hva' : va' < userEnd) (hpage : pageOf va' = pageOf va) :
    s.lazyAt va' = s.lazyAt va := by
  rw [lazyAt, find_congr h hva hva' hpage, lazyAt]

/-! ## A fault -/

/-- The entry of a new page. -/
theorem mapZeroed_pte {m m' : Phys} {root flags : Nat} (h : Space m root) (hva : userHalf (idx 39 va))
    (hflags : flags < pageSize) (hrun : m.mapZeroed root va flags = some m') :
    ∃ f, ∀ {va'}, userHalf (idx 39 va') → m'.pte root va' =
      if pageOf va' = pageOf va then some (f * pageSize ||| flags ||| ptePresent) else m.pte root va' := by
  simp only [Phys.mapZeroed, Option.bind_eq_bind, Option.bind_eq_some_iff, Prod.exists] at hrun
  obtain ⟨phys, m₁, ha, hmap⟩ := hrun
  obtain ⟨f, rfl, hal⟩ := alloc_cases ha
  have hfree : (m₁.zeroPage (f * pageSize)).free = m₁.free := rfl
  have hzero : ∀ x, x / pageSize ≠ f → (m₁.zeroPage (f * pageSize)).bytes x = m.bytes x := fun _ => hal.zeroPage_bytes
  exact ⟨f, (h.newPage hal hfree rfl hzero hva hflags hmap).2⟩

/-- The bits that the processor looks at. -/
theorem userFlags_bits (f : Nat) (writable : Bool) :
    (f * pageSize ||| userFlags writable ||| ptePresent).testBit 2 = true ∧
      (f * pageSize ||| userFlags writable ||| ptePresent).testBit 1 = writable := by
  have hf : ∀ i < 12, (f * pageSize).testBit i = false := fun i hi => by
    rw [Nat.mul_comm, pageSize, show 4096 = 2 ^ 12 from rfl, Nat.testBit_two_pow_mul, decide_eq_false (by omega),
      Bool.false_and]
  rw [Nat.testBit_or, Nat.testBit_or, Nat.testBit_or, Nat.testBit_or, hf 1 (by decide), hf 2 (by decide)]
  cases writable <;> decide

/-- A new page that was cleared, with the access that was asked for. -/
theorem demandAllocPage_spec {m m' : Phys} {root : Nat} {writable : Bool} (hS : Space m root) (hva : va < userEnd)
    (h : m.demandAllocPage root (addrOf va) writable = some m') : Space m' root ∧ ∃ e : Nat,
      e.testBit 2 = true ∧ e.testBit 1 = writable ∧ ∀ va' < userEnd,
        m'.userByte root va' = (if pageOf va' = pageOf va then some 0 else m.userByte root va') ∧
        m'.pte root va' = if pageOf va' = pageOf va then some e else m.pte root va' := by
  rw [demandAllocPage, addrOf_eq hS.tree.aligned] at h
  have hpage : pageOf (addrOf va) = pageOf va := by rw [pageOf, addrOf_div, pageOf]
  have hhalf : userHalf (idx 39 (addrOf va)) := userHalf_of_lt (by
    simp only [addrOf, pageSize, userEnd] at *
    omega)
  have hC := hS.mapZeroed hhalf (userFlags_lt _) h
  obtain ⟨f, hpte⟩ := mapZeroed_pte hS hhalf (userFlags_lt _) h
  refine ⟨hC.touched.space, _, (userFlags_bits f writable).1, (userFlags_bits f writable).2, fun va' hva' => ⟨?_, ?_⟩⟩
  · rw [hC.userByte hS (userHalf_of_lt hva'), hpage]
  · rw [hpte (userHalf_of_lt hva'), hpage]

/-- What keeps the tables in order. -/
structure Mapped (s : MemSys) : Prop where
  space : Space s.phys s.procs.currentCr3
  aligned : s.AreasAligned

/-- A fault on an absent page: it is there now if it was promised, and the promise is as before. -/
theorem tryDemandPage_spec {ok : Bool} (h : s.Mapped) (hva : va < userEnd)
    (habs : s.phys.pte s.procs.currentCr3 va = none) (hrun : s.tryDemandPage va s.procs.currentCr3 = some (ok, s')) :
    ok = (s.lazyAt va).isSome ∧ (ok = false → s' = s) ∧ s'.Mapped ∧ s'.view = s.view ∧
      (ok = true → ∃ e, s'.phys.pte s'.procs.currentCr3 va = some e ∧ e.testBit 2 = true) := by
  rw [tryDemandPage] at hrun
  cases hfind : s.vmas.find va with
  | none =>
    rw [hfind] at hrun
    cases hrun
    simp [lazyAt, hfind, h]
  | some e =>
    rw [hfind] at hrun
    dsimp only at hrun
    split at hrun
    · next hlazy =>
      obtain ⟨phys, hpage, he⟩ := Option.bind_eq_some_iff.mp hrun
      cases he
      have hlazyAt : s.lazyAt va = some e := by simp [lazyAt, hfind, hlazy]
      obtain ⟨hS, e', huser, hwrite, hnow⟩ := demandAllocPage_spec h.space hva hpage
      refine ⟨by rw [hlazyAt]; rfl, fun hok => absurd hok (by decide), ⟨hS, h.aligned⟩, ?_,
        fun _ => ⟨e', by rw [(hnow va hva).2, if_pos rfl], huser⟩⟩
      funext va'
      simp only [view]
      split
      · next hva' =>
        obtain ⟨hbyte, hpte⟩ := hnow va' hva'
        rw [hpte, hbyte]
        by_cases hpage : pageOf va' = pageOf va
        · have hlazy' : s.lazyAt va' = some e := (lazyAt_congr h.aligned hva hva' hpage).trans hlazyAt
          rw [if_pos hpage, if_pos hpage, (pte_congr hpage).trans habs, lazyAt_phys, hlazy']
          simp [huser, hwrite]
        · rw [if_neg hpage, if_neg hpage, lazyAt_phys]
      · rfl
    · next hlazy =>
      cases hrun
      simp [lazyAt, hfind, hlazy, h]

/-! ## An access -/

/-- One byte of a page that is there. -/
theorem put_user {m : Phys} {root e : Nat} (hS : Space m root) (hva : va < userEnd) (hpte : m.pte root va = some e) :
    Space (m.put (addrOf e + va % pageSize) 1 fun _ => b) root ∧ ∀ va' < userEnd,
      (m.put (addrOf e + va % pageSize) 1 fun _ => b).pte root va' = m.pte root va' ∧
      (m.put (addrOf e + va % pageSize) 1 fun _ => b).userByte root va' =
        if va' = va then some b else m.userByte root va' := by
  have hhalf := userHalf_of_lt hva
  obtain ⟨hT, hsame⟩ := hS.put (g := fun _ => b) ⟨va, e, hhalf, hpte, addrOf_add_div e va⟩
    fun x (hx : addrOf e + va % pageSize ≤ x) (hx' : x < _ + 1) => by rw [show x = addrOf e + va % pageSize by omega]
  refine ⟨hT.space, fun va' hva' => ?_⟩
  have hhalf' := userHalf_of_lt hva'
  have hpte' := hsame.pte hhalf'
  refine ⟨hpte', ?_⟩
  rw [hT.space.userByte_eq hhalf', hpte', hS.userByte_eq hhalf']
  by_cases he : va' = va
  · subst he
    rw [if_pos rfl, hpte, Option.map_some]
    have hnew : (m.put (addrOf e + va' % pageSize) 1 fun _ => b).bytes (addrOf e + va' % pageSize + 0) = b :=
      put_inside Nat.one_pos
    rw [Nat.add_zero] at hnew
    rw [hnew]
  · rw [if_neg he]
    refine Option.map_congr fun e' he' => put_outside ?_
    -- two addresses of one byte are in one page, at one offset
    by_contra hcon
    have hx : addrOf e' + va' % pageSize = addrOf e + va % pageSize := by omega
    have hpage := hS.distinct hhalf' hhalf he' hpte (by rw [← addrOf_add_div e' va', hx, addrOf_add_div])
    simp only [addrOf, pageOf, pageSize, userEnd] at *
    omega

/-- The tables find the page. -/
theorem attempt_eq (h : s.Mapped) (hva : va < userEnd) :
    s.phys.getUserPte s.procs.currentCr3 va = s.phys.pte s.procs.currentCr3 va ∧
      s.phys.virtToPhys s.procs.currentCr3 va =
        (s.phys.pte s.procs.currentCr3 va).map fun e => addrOf e + va % pageSize :=
  ⟨h.space.tree.getUserPte_eq (userHalf_of_lt hva), h.space.tree.virtToPhys_eq (userHalf_of_lt hva)⟩

theorem attempt_absent (h : s.Mapped) (hva : a.va < userEnd) (habs : s.phys.pte s.procs.currentCr3 a.va = none) :
    ∃ ec, s.attempt a = .faults ec ∧ ec % 2 = 0 := by
  obtain ⟨he, hp⟩ := attempt_eq h hva
  cases a with
  | load va => exact ⟨4, by simp [attempt, Access.va] at *; rw [he, habs], rfl⟩
  | store va b => exact ⟨6, by simp [attempt, Access.va] at *; rw [he, habs], rfl⟩

/-- On a page that is there an access is as in the plain memory, or faults in earnest. -/
theorem attempt_there {e : Nat} (h : s.Mapped) (hva : a.va < userEnd)
    (hpte : s.phys.pte s.procs.currentCr3 a.va = some e) :
    (∃ b m, s.attempt a = .done b m ∧ m.free = s.phys.free ∧ ({ s with phys := m } : MemSys).Mapped ∧
      s.view.access a = (some b, ({ s with phys := m } : MemSys).view)) ∨
    ∃ ec, s.attempt a = .faults ec ∧ ec % 2 ≠ 0 ∧ s.view.access a = (none, s.view) := by
  obtain ⟨he, hp⟩ := attempt_eq h hva
  rw [hpte] at he hp
  have hbyte := h.space.userByte_eq (userHalf_of_lt hva)
  rw [hpte, Option.map_some] at hbyte
  have hview : s.view a.va =
      if e.testBit 2 then some (s.phys.bytes (addrOf e + a.va % pageSize), e.testBit 1) else none := by
    simp only [view, if_pos hva, hpte, hbyte, Option.map_some]
  cases a with
  | load va =>
    rw [Access.va] at *
    by_cases hu : e.testBit 2 = true
    · rw [if_pos hu] at hview
      exact .inl ⟨s.phys.bytes (addrOf e + va % pageSize), s.phys, by simp [attempt, he, hp, hu], rfl, h,
        by simp [FlatMem.access, hview]⟩
    · rw [if_neg hu] at hview
      exact .inr ⟨5, by simp [attempt, he, hp, hu], by decide, by simp [FlatMem.access, hview]⟩
  | store va b =>
    rw [Access.va] at *
    by_cases huw : e.testBit 2 = true ∧ e.testBit 1 = true
    · obtain ⟨hu, hw⟩ := huw
      rw [if_pos hu, hw] at hview
      obtain ⟨hS, hnow⟩ := put_user (b := b) h.space hva hpte
      refine .inl ⟨b, s.phys.put (addrOf e + va % pageSize) 1 fun _ => b, by simp [attempt, he, hp, hu, hw], rfl,
        ⟨hS, h.aligned⟩, ?_⟩
      rw [FlatMem.access, hview, Option.any_some, if_pos rfl]
      refine congrArg (some b, ·) (funext fun va' => ?_)
      by_cases hva' : va' < userEnd
      · obtain ⟨hpte', hbyte'⟩ := hnow va' hva'
        simp only [view, if_pos hva', hpte', hbyte', lazyAt_phys]
        by_cases hvv : va' = va
        · subst hvv
          rw [if_pos rfl, if_pos rfl, hpte]
          simp [hu, hw]
        · rw [if_neg hvv, if_neg hvv]
      · have hvv : va' ≠ va := fun hvv => hva' (hvv ▸ hva)
        simp only [view, if_neg hva', if_neg hvv]
    · rw [not_and, Bool.not_eq_true] at huw
      refine .inr ⟨7, by simp [attempt, he, hp]; exact huw, by decide, ?_⟩
      rw [FlatMem.access, hview]
      split
      · next hu => simp [huw hu]
      · rfl

/-! ## Frames -/

theorem alloc_some {m : Phys} (h : 0 < m.free.card) :
    ∃ phys m', m.alloc = some (phys, m') ∧ m.free.card = m'.free.card + 1 := by
  obtain ⟨f, hf⟩ := Finset.card_pos.mp h
  cases ha : m.alloc with
  | none =>
    rw [alloc, Option.bind_eq_bind, Option.bind_eq_none_iff] at ha
    have hnone : m.frames.allocFrame = none := by
      cases hr : m.frames.allocFrame with
      | none => rfl
      | some r => exact absurd (ha r hr) (Option.some_ne_none _)
    have hmem := FrameAlloc.mem_freeSet.mp hf
    rw [FrameAlloc.allocFrame_none hnone hmem.1] at hmem
    exact absurd hmem.2 (by decide)
  | some r =>
    obtain ⟨g, -, hal⟩ := alloc_cases ha
    exact ⟨_, _, rfl, by rw [hal.free, Finset.card_erase_add_one hal.mem]⟩

theorem getOrCreate_some {m : Phys} {t i : Nat} (flags : Nat) (h : 0 < m.free.card) :
    ∃ t' m', m.getOrCreate t i flags = some (t', m') ∧ m.free.card ≤ m'.free.card + 1 := by
  rw [getOrCreate]
  split
  · exact ⟨_, m, rfl, by omega⟩
  · obtain ⟨phys, m', ha, hcard⟩ := alloc_some h
    rw [allocTable, ha]
    exact ⟨_, _, rfl, hcard.le⟩

/-- A page and its three tables. -/
theorem mapZeroed_some {m : Phys} (root va flags : Nat) (h : 4 ≤ m.free.card) :
    ∃ m', m.mapZeroed root va flags = some m' ∧ m.free.card ≤ m'.free.card + 4 := by
  obtain ⟨phys, m₀, h₀, hc₀⟩ := alloc_some (m := m) (by omega)
  have hz : (m₀.zeroPage phys).free.card = m₀.free.card := rfl
  obtain ⟨t₁, m₁, h₁, hc₁⟩ := getOrCreate_some (m := m₀.zeroPage phys) (t := root) (i := idx 39 va)
    (ptePresent ||| pteWritable ||| pteUser) (by omega)
  obtain ⟨t₂, m₂, h₂, hc₂⟩ := getOrCreate_some (m := m₁) (t := t₁) (i := idx 30 va)
    (ptePresent ||| pteWritable ||| pteUser) (by omega)
  obtain ⟨t₃, m₃, h₃, hc₃⟩ := getOrCreate_some (m := m₂) (t := t₂) (i := idx 21 va)
    (ptePresent ||| pteWritable ||| pteUser) (by omega)
  simp only [mapZeroed, h₀, map4k, h₁, h₂, h₃, Option.bind_eq_bind, Option.bind_some]
  exact ⟨_, rfl, by simp only [setEntry, put_free]; omega⟩

theorem tryDemandPage_some (va cr3 : Nat) (h : 4 ≤ s.phys.free.card) :
    ∃ r s', s.tryDemandPage va cr3 = some (r, s') ∧ s.phys.free.card ≤ s'.phys.free.card + 4 := by
  rw [tryDemandPage]
  cases s.vmas.find va with
  | none => exact ⟨_, s, rfl, by omega⟩
  | some e =>
    dsimp only
    split
    · obtain ⟨m', hm, hcard⟩ := mapZeroed_some (addrOf cr3) (addrOf va) (userFlags (e.prot.testBit 1)) h
      rw [demandAllocPage, hm]
      exact ⟨_, _, rfl, hcard⟩
    · exact ⟨_, s, rfl, by omega⟩

/-! ## Runs -/

/-- A page fault in user mode. -/
theorem exceptionHandler_fault {ec : Nat} : s.exceptionHandler 14 userCs ec va =
    if ec % 2 = 0 then (s.tryDemandPage va s.procs.currentCr3).bind fun (ok, s) =>
      some (if ok then .again else .exits sigsegv, s)
    else some (.exits sigsegv, s) := by
  rw [exceptionHandler, show (userCs % 4 == 3) = true by decide]
  rfl

/-- An access ends as in the plain memory, after one fault at most that starts it again. -/
structure EndsAs (s : MemSys) (a : Access) (r : Option UInt8) (s' : MemSys) : Prop where
  byte : r = (s.view.access a).1
  mapped : s'.Mapped
  view : s'.view = (s.view.access a).2

/-- A page that is there takes no second fault. -/
theorem access_there (fuel : Nat) {e : Nat} (h : s.Mapped) (hva : a.va < userEnd)
    (hpte : s.phys.pte s.procs.currentCr3 a.va = some e) :
    ∃ r s', s.access (fuel + 1) a = some (r, s') ∧ s.EndsAs a r s' ∧ s'.phys.free = s.phys.free := by
  rcases attempt_there h hva hpte with ⟨b, m, ha, hfree, hm, hview⟩ | ⟨ec, ha, hec, hview⟩
  · exact ⟨some b, { s with phys := m }, by rw [access, ha], ⟨by rw [hview], hm, by rw [hview]⟩, hfree⟩
  · have hexc : s.exceptionHandler 14 userCs ec a.va = some (.exits sigsegv, s) := by
      rw [exceptionHandler_fault, if_neg hec]
    exact ⟨none, s, by simp [access, ha, hexc], ⟨by rw [hview], h, by rw [hview]⟩, rfl⟩

theorem access_spec (fuel : Nat) (h : s.Mapped) (hva : a.va < userEnd) :
    (s.access (fuel + 2) a = none ∧ s.phys.free.card < 4) ∨
    ∃ r s', s.access (fuel + 2) a = some (r, s') ∧ s.EndsAs a r s' ∧
      (4 ≤ s.phys.free.card → s.phys.free.card ≤ s'.phys.free.card + 4) := by
  cases hpte : s.phys.pte s.procs.currentCr3 a.va with
  | some e =>
    obtain ⟨r, s', hrun, hends, hfree⟩ := access_there (fuel + 1) h hva hpte
    exact .inr ⟨r, s', hrun, hends, fun _ => by rw [hfree]; omega⟩
  | none =>
    obtain ⟨ec, ha, hec⟩ := attempt_absent h hva hpte
    have hrun : s.access (fuel + 2) a = (s.tryDemandPage a.va s.procs.currentCr3).bind fun (ok, s) =>
        if ok then s.access (fuel + 1) a else some (none, s) := by
      rw [access, ha]
      dsimp only
      rw [exceptionHandler_fault, if_pos hec, Option.bind_eq_bind, Option.bind_assoc]
      congr 1
      funext ⟨ok, s₁⟩
      cases ok <;> rfl
    rw [hrun]
    cases htry : s.tryDemandPage a.va s.procs.currentCr3 with
    | none =>
      refine .inl ⟨rfl, Nat.lt_of_not_le fun hfree => ?_⟩
      obtain ⟨_, _, hsome, -⟩ := tryDemandPage_some a.va s.procs.currentCr3 hfree
      rw [htry] at hsome
      cases hsome
    | some r =>
      obtain ⟨ok, s₁⟩ := r
      have hcard : 4 ≤ s.phys.free.card → s.phys.free.card ≤ s₁.phys.free.card + 4 := fun hfree => by
        obtain ⟨_, _, hsome, hle⟩ := tryDemandPage_some a.va s.procs.currentCr3 hfree
        rw [htry] at hsome
        cases hsome
        exact hle
      obtain ⟨hok, hno, hm, hview, hyes⟩ := tryDemandPage_spec h hva hpte htry
      cases ok with
      | true =>
        obtain ⟨e, hpte', -⟩ := hyes rfl
        obtain ⟨r, s', hnext, hends, hfree⟩ := access_there fuel hm hva hpte'
        have hbyte := hends.byte
        have hview' := hends.view
        rw [hview] at hbyte hview'
        exact .inr ⟨r, s', hnext, ⟨hbyte, hends.mapped, hview'⟩, by rw [hfree]; exact hcard⟩
      | false =>
        obtain rfl := hno rfl
        have hlazy : s₁.lazyAt a.va = none := by
          rw [← Option.not_isSome_iff_eq_none, ← hok]
          exact Bool.false_ne_true
        have hnone : s₁.view a.va = none := by
          simp only [view, if_pos hva, hpte, hlazy, Option.map_none]
        have hacc := FlatMem.access_none hnone
        exact .inr ⟨none, s₁, rfl, ⟨by rw [hacc], h, by rw [hacc]⟩, hcard⟩

theorem accesses_spec (fuel : Nat) {as : List Access} (h : s.Mapped) (hva : ∀ a ∈ as, a.va < userEnd) :
    (∀ {rs s'}, s.accesses (fuel + 2) as = some (rs, s') →
      rs = (s.view.accesses as).1 ∧ s'.Mapped ∧ s'.view = (s.view.accesses as).2) ∧
    (4 * as.length ≤ s.phys.free.card → (s.accesses (fuel + 2) as).isSome) := by
  induction as generalizing s with
  | nil => exact ⟨fun hrun => by cases hrun; exact ⟨rfl, h, rfl⟩, fun _ => rfl⟩
  | cons a as ih =>
    obtain ⟨hva₀, hva⟩ := List.forall_mem_cons.mp hva
    rw [accesses, FlatMem.accesses]
    rcases access_spec fuel h hva₀ with ⟨hrun, hfree⟩ | ⟨r, s₁, hrun, hends, hcard⟩
    · rw [hrun, List.length_cons]
      refine ⟨fun hcon => ?_, fun hle => ?_⟩
      · cases hcon
      · omega
    · obtain ⟨hbyte, hm, hview⟩ := hends
      obtain ⟨hall, hsome⟩ := ih hm hva
      rw [hrun, Option.bind_eq_bind, Option.bind_some]
      dsimp only
      rw [← hbyte, ← hview]
      split
      · exact ⟨fun hrun => by cases hrun; exact ⟨rfl, hm, rfl⟩, fun _ => rfl⟩
      · refine ⟨fun hrun => ?_, fun hle => ?_⟩
        · obtain ⟨⟨rs', s₂⟩, hrest, he⟩ := Option.bind_eq_some_iff.mp hrun
          cases he
          obtain ⟨rfl, hm₂, hview₂⟩ := hall hrest
          exact ⟨rfl, hm₂, hview₂⟩
        · rw [List.length_cons] at hle
          obtain ⟨⟨rs', s₂⟩, hrest⟩ := Option.isSome_iff_exists.mp (hsome (by have := hcard (by omega); omega))
          rw [hrest]
          rfl

end MemSys

open MemSys

/-- In every reachable state with areas that begin at pages, a program that
loads and stores at user addresses cannot tell lazy memory from memory that
is there: it reads, writes and is ended as in the plain memory. Each access
is tried twice at most, and with four frames for each it never lacks one. -/
theorem demand_paging_invisible {m₀ : Phys} {h : List MemSys.Op} {s : MemSys} {as : List Access} {fuel : Nat}
    (hk : KernelApart m₀) (hr : Runs MemSys.step MemSys.InOrder (boot m₀) h s) (hcr3 : s.procs.currentCr3 ≠ 0)
    (hal : s.AreasAligned) (hva : ∀ a ∈ as, a.va < userEnd) (hfuel : 2 ≤ fuel) :
    (∀ rs s', s.accesses fuel as = some (rs, s') →
      rs = (s.view.accesses as).1 ∧ s'.view = (s.view.accesses as).2 ∧ s'.Mapped) ∧
    (4 * as.length ≤ s.phys.free.card → (s.accesses fuel as).isSome) := by
  have hS := Phys.Orderly.space (ordered_of_runs hk hr) (Uprocs.root_currentCr3 hcr3)
  obtain ⟨fuel, rfl⟩ := Nat.exists_eq_add_of_le' hfuel
  obtain ⟨hall, hsome⟩ := accesses_spec fuel ⟨hS, hal⟩ hva
  refine ⟨fun rs s' hrun => ?_, hsome⟩
  obtain ⟨hrs, hm, hview⟩ := hall hrun
  exact ⟨hrs, hview, hm⟩

/-- A lazy page is read, written and read again; next to it the program is ended. -/
theorem demand_paging_first_page : ∃ h s s', Runs MemSys.step MemSys.InOrder (boot bootMachine) h s ∧
    s.accesses 2 [.load 0x40000000, .store 0x40000001 9, .load 0x40000001, .load 0x40001000] =
      some ([some 0, some 9, some 9, none], s') ∧
    [some 0, some 9, some 9, none] = (s.view.accesses
      [.load 0x40000000, .store 0x40000001 9, .load 0x40000001, .load 0x40001000]).1 := by
  obtain ⟨⟨image, s₀⟩, henter, hP⟩ := (Option.any_eq_true
    (fun (r : (Nat × Nat × Nat) × MemSys) => (r.2.step (.mmap (fun _ _ _ => []) 0 4096 3 0x22 (-1) 0)).any fun r =>
      r.2.procs.currentCr3 != 0 && r.2.vmas.1.all (fun e => !e.valid || e.base % pageSize == 0) &&
        (r.2.accesses 2 [.load 0x40000000, .store 0x40000001 9, .load 0x40000001, .load 0x40001000]).any fun r =>
          r.1 == [some 0, some 9, some 9, none])
    ((boot bootMachine).enterElf (fun _ => none) (twoByteElf 0x10000) 1 0)).mp (by decide +kernel)
  obtain ⟨⟨_, s₁⟩, hmmap, hP⟩ := (Option.any_eq_true _ _).mp hP
  simp only [Bool.and_eq_true, beq_iff_eq, bne_iff_ne, Option.any_eq_true, List.all_eq_true, Bool.or_eq_true,
    Bool.not_eq_true'] at hP
  obtain ⟨⟨hcr3, hal⟩, ⟨_, s'⟩, hcall, rfl⟩ := hP
  have hok : MemSys.InOrder [] s₀ (.mmap (fun _ _ _ => []) 0 4096 3 0x22 (-1) 0) := by
    intro pages h va hva
    obtain - := h
    cases hva
  have hrun := (runs_first henter).next hok hmmap
  have hal' : s₁.AreasAligned := fun e he hv => (hal e he).resolve_left (by rw [hv]; decide)
  have hva : ∀ a ∈ [Access.load 0x40000000, .store 0x40000001 9, .load 0x40000001, .load 0x40001000], a.va < userEnd := by
    decide
  exact ⟨_, s₁, s', hrun, hcall,
    ((demand_paging_invisible bootMachine_kernelApart hrun hcr3 hal' hva (Nat.le_refl 2)).1 _ _ hcall).1⟩

end ChodOs
