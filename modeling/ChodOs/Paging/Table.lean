/-
The four-level page tables (`paging/mod.rs`): `map_4k` and the lookups.
A table is a frame of 512 entries in memory; under a root that is a tree of
them, the page tables are a map from pages to entries, and `map_4k` is an
update of it at one page.
-/
import ChodOs.Lib.Radix
import ChodOs.Paging.Phys

namespace ChodOs

/-! ## Entries -/

def ptePresent : Nat := 1
def pteWritable : Nat := 2
def pteUser : Nat := 4

namespace Pt

/-- `entry & PTE_PRESENT != 0`. -/
def present (e : Nat) : Bool := e % 2 == 1

/-- Bit 7, `PS`. -/
def huge (e : Nat) : Bool := e / 128 % 2 == 1

/-- `entry & !0xFFF`. -/
def addrOf (e : Nat) : Nat := e / pageSize * pageSize

/-- `(vaddr >> shift) & 0x1FF`. -/
def idx (shift va : Nat) : Nat := va / 2 ^ shift % 512

/-- The page of an address, by the 36 bits a walk looks at. -/
def pageOf (va : Nat) : Nat := va / pageSize % 2 ^ 36

theorem idx_lt (shift va : Nat) : idx shift va < 512 := Nat.mod_lt _ (by decide)

@[simp] theorem addrOf_mod (e : Nat) : addrOf e % pageSize = 0 := Nat.mul_mod_left _ _

theorem addrOf_eq {e : Nat} (h : e % pageSize = 0) : addrOf e = e := Nat.div_mul_cancel (Nat.dvd_of_mod_eq_zero h)

@[simp] theorem addrOf_div (e : Nat) : addrOf e / pageSize = e / pageSize := Nat.mul_div_cancel _ (by decide)

/-- What an entry maps is in its frame. -/
theorem addrOf_add_div (e va : Nat) : (addrOf e + va % pageSize) / pageSize = e / pageSize := by
  simp only [addrOf, pageSize]
  omega

theorem addrOf_add (e va : Nat) : addrOf (addrOf e + va % pageSize) = e / pageSize * pageSize := by
  rw [addrOf, addrOf_add_div]

/-- Flags below an aligned address. -/
theorem lor_flags {a f : Nat} (ha : a % pageSize = 0) (hf : f < pageSize) : a ||| f = a + f := by
  obtain ⟨k, rfl⟩ := Nat.dvd_of_mod_eq_zero ha
  exact (Nat.two_pow_add_eq_or_of_lt (i := 12) hf k).symm

theorem addrOf_lor {a f : Nat} (ha : a % pageSize = 0) (hf : f < pageSize) : addrOf (a ||| f) = a := by
  rw [lor_flags ha hf, addrOf]
  simp only [pageSize] at *
  omega

theorem huge_lor {a f : Nat} (ha : a % pageSize = 0) (hf : f < pageSize) (hs : huge f = false) :
    huge (a ||| f) = false := by
  rw [lor_flags ha hf]
  simp only [huge, beq_eq_false_iff_ne, ne_eq, pageSize] at *
  omega

theorem present_lor {a f : Nat} : present (a ||| f ||| ptePresent) = true := by
  rw [present, beq_iff_eq, Nat.or_mod_two_eq_one]
  exact .inr rfl

/-- The three upper indices of an address. -/
def pathOf (va : Nat) : List Nat := [idx 39 va, idx 30 va, idx 21 va]

theorem pageOf_eq_iff {va va' : Nat} :
    pageOf va' = pageOf va ↔ pathOf va' = pathOf va ∧ idx 12 va' = idx 12 va := by
  simp only [pathOf, List.cons.injEq, and_true, idx, pageOf, pageSize]
  omega

end Pt

open Pt

namespace Phys

/-! ## The code -/

/-- `get_or_create`: the table under entry `i` of the table `t`. `none`: out of memory. -/
def getOrCreate (m : Phys) (t i flags : Nat) : Option (Nat × Phys) :=
  let m' := if present (m.entry t i) then some m
    else m.allocTable.map fun (phys, m) => m.setEntry t i (phys ||| flags)
  m'.map fun m => (addrOf (m.entry t i), m)

/-- `map_4k`. -/
def map4k (m : Phys) (pml4 va pa flags : Nat) : Option Phys := do
  let midFlags := ptePresent ||| pteWritable ||| pteUser
  let (pdpt, m) ← m.getOrCreate pml4 (idx 39 va) midFlags
  let (pd, m) ← m.getOrCreate pdpt (idx 30 va) midFlags
  let (pt, m) ← m.getOrCreate pd (idx 21 va) midFlags
  some (m.setEntry pt (idx 12 va) (addrOf pa ||| flags ||| ptePresent))

/-- The walk the lookups share, with what they make of the last entry and
the size of what it maps. -/
def walk (m : Phys) (cr3 va : Nat) (leaf : Nat → Nat → Nat) : Option Nat :=
  let pml4e := m.entry (addrOf cr3) (idx 39 va)
  if !present pml4e then none
  else
    let pdpte := m.entry (addrOf pml4e) (idx 30 va)
    if !present pdpte then none
    else if huge pdpte then some (leaf pdpte (2 ^ 30))
    else
      let pde := m.entry (addrOf pdpte) (idx 21 va)
      if !present pde then none
      else if huge pde then some (leaf pde (2 ^ 21))
      else
        let pte := m.entry (addrOf pde) (idx 12 va)
        if !present pte then none else some (leaf pte pageSize)

/-- `virt_to_phys`. -/
def virtToPhys (m : Phys) (cr3 va : Nat) : Option Nat := m.walk cr3 va fun e size => e / size * size + va % size

/-- `get_user_pte`. -/
def getUserPte (m : Phys) (cr3 va : Nat) : Option Nat := m.walk cr3 va fun e _ => e

/-- `get_kernel_pte`. -/
def getKernelPte (m : Phys) (va : Nat) : Option Nat := m.getUserPte m.kernelCr3 va

/-! ## The tree under a root -/

/-- The table a present entry points to. -/
def child (e : Nat) : Option Nat := if present e then some (addrOf e) else none

/-- The table at the end of a path of indices. -/
def node (m : Phys) (root : Nat) (p : List Nat) : Option Nat := Radix.node child m.entry root p

/-- A path to a table, its first index in `H`. -/
def Path (H : Nat → Prop) (p : List Nat) : Prop := p.length ≤ 3 ∧ (∀ i ∈ p, i < 512) ∧ ∀ i ∈ p.head?, H i

/-- The frames of the tables. -/
def tables (H : Nat → Prop) (m : Phys) (root f : Nat) : Prop :=
  ∃ p t, Path H p ∧ m.node root p = some t ∧ f = t / pageSize

/-- The part of the table at `root` under the top-level indices `H` is
well-formed: its tables are distinct frames in use and none of the data
frames `D`, which are in use too, and there are no huge pages. -/
structure PageTree (H D : Nat → Prop) (m : Phys) (root : Nat) : Prop where
  aligned : root % pageSize = 0
  tree : Radix.Tree child (Path H) m.entry root
  small : ∀ {p i t}, Path H (p ++ [i]) → p ≠ [] → m.node root p = some t → present (m.entry t i) = true →
    huge (m.entry t i) = false
  used : ∀ {f}, tables H m root f → f ∉ m.free ∧ ¬D f
  data : ∀ {f}, D f → f ∉ m.free

/-- The entry of the page of an address, if there is one. -/
def pte (m : Phys) (root va : Nat) : Option Nat := do
  let pt ← m.node root (pathOf va)
  if present (m.entry pt (idx 12 va)) then some (m.entry pt (idx 12 va)) else none

variable {H D : Nat → Prop} {m m' m₁ : Phys} {root va pa flags t u i : Nat} {p : List Nat}

theorem Path.init {p : List Nat} {i : Nat} (h : Path H (p ++ [i])) : Path H p := by
  refine ⟨by have := h.1; rw [List.length_append] at this; omega,
    fun j hj => h.2.1 j (List.mem_append.mpr (.inl hj)), fun j hj => ?_⟩
  cases p with
  | nil => cases hj
  | cons k p => exact h.2.2 j hj

theorem Path.last_lt {p : List Nat} {i : Nat} (h : Path H (p ++ [i])) : i < 512 :=
  h.2.1 i (List.mem_append.mpr (.inr (List.mem_singleton_self i)))

theorem Path.length_lt {p : List Nat} {i : Nat} (h : Path H (p ++ [i])) : p.length < 3 := by
  have := h.1
  rw [List.length_append, List.length_singleton] at this
  omega

theorem path_nil : Path H [] := ⟨by decide, nofun, nofun⟩

theorem path_pathOf (h : H (idx 39 va)) : Path H (pathOf va) := by
  refine ⟨Nat.le_refl 3, fun j hj => ?_, fun j hj => ?_⟩
  · simp only [pathOf, List.mem_cons, List.not_mem_nil, or_false] at hj
    rcases hj with rfl | rfl | rfl <;> exact idx_lt _ _
  · simp only [pathOf, List.head?_cons, Option.mem_def, Option.some.injEq] at hj
    exact hj ▸ h

theorem node_aligned (hr : root % pageSize = 0) (h : m.node root p = some t) : t % pageSize = 0 := by
  induction p using List.reverseRecOn with
  | nil => cases h; exact hr
  | append_singleton q j _ =>
    rw [node, Radix.node_snoc, Option.bind_eq_some_iff] at h
    obtain ⟨v, -, hc⟩ := h
    unfold child at hc
    split at hc
    · cases hc; exact addrOf_mod _
    · cases hc

theorem node_one : m.node root [i] = child (m.entry root i) := by
  rw [node, ← List.nil_append [_], Radix.node_snoc]
  exact Option.bind_some _ _

/-- Without huge pages a lookup finds the entry of the page. -/
theorem PageTree.walk_eq (hT : PageTree H D m root) (hva : H (idx 39 va)) (leaf : Nat → Nat → Nat) :
    m.walk root va leaf = (m.pte root va).map (leaf · pageSize) := by
  have h3 := path_pathOf hva
  have hone : m.node root [idx 39 va] = child (m.entry root (idx 39 va)) := node_one
  have htwo : m.node root [idx 39 va, idx 30 va] =
      (child (m.entry root (idx 39 va))).bind fun t => child (m.entry t (idx 30 va)) := by
    rw [← hone, node, show [idx 39 va, idx 30 va] = [idx 39 va] ++ [idx 30 va] from rfl, Radix.node_snoc]
    rfl
  have hthree : m.node root (pathOf va) = ((child (m.entry root (idx 39 va))).bind fun t =>
      child (m.entry t (idx 30 va))).bind fun t => child (m.entry t (idx 21 va)) := by
    rw [← htwo, node, show pathOf va = [idx 39 va, idx 30 va] ++ [idx 21 va] from rfl, Radix.node_snoc]
    rfl
  simp only [walk, pte, addrOf_eq hT.aligned, hthree, child]
  cases h1 : present (m.entry root (idx 39 va)) with
  | false => rfl
  | true =>
    simp only [Bool.not_true, Bool.false_eq_true, if_false, if_true, Option.bind_some]
    have hpd := fun hp => hT.small (p := [idx 39 va]) (Path.init (p := [idx 39 va, idx 30 va]) h3) (by simp)
      (hone.trans (if_pos h1)) hp
    cases h2 : present (m.entry (addrOf (m.entry root (idx 39 va))) (idx 30 va)) with
    | false => rfl
    | true =>
      simp only [hpd h2, Bool.not_true, Bool.false_eq_true, if_false, if_true, Option.bind_some]
      have htwo' := htwo
      simp only [child, h1, h2, if_true, Option.bind_some] at htwo'
      have hpt := fun hp => hT.small (p := [idx 39 va, idx 30 va]) h3 (by simp) htwo' hp
      cases hp3 : present (m.entry (addrOf (m.entry (addrOf (m.entry root (idx 39 va))) (idx 30 va))) (idx 21 va)) with
      | false => rfl
      | true =>
        simp only [hpt hp3, Bool.not_true, Bool.false_eq_true, if_false, if_true, Option.bind_eq_bind,
          Option.bind_some]
        split
        · next hnot =>
          rw [if_neg (by simpa using hnot)]
          rfl
        · next hyes =>
          rw [if_pos (by simpa using hyes)]
          rfl

/-! ## A table comes into being -/

/-- The entry of a new table: its address and the flags of an intermediate table. -/
theorem midEntry {f flags : Nat} (hf : f ∈ m.free) (hflags : flags < pageSize) (hp : flags % 2 = 1) :
    f * pageSize ||| flags < 2 ^ 64 ∧ child (f * pageSize ||| flags) = some (f * pageSize) := by
  have hmax := (FrameAlloc.mem_freeSet.mp hf).1
  have hal : f * pageSize % pageSize = 0 := Nat.mul_mod_left _ _
  refine ⟨?_, ?_⟩
  · rw [lor_flags hal hflags]
    simp only [pageSize, maxFrames, bitmapWords] at *
    omega
  · have hpres : present (f * pageSize ||| flags) = true := by
      rw [present, beq_iff_eq, Nat.or_mod_two_eq_one]
      exact .inr hp
    rw [child, if_pos hpres, addrOf_lor hal hflags]

/-- After `get_or_create` under entry `i` of the table at the end of `p`:
the path goes on to `u`, and nothing else has moved. -/
structure Hung (H D : Nat → Prop) (m : Phys) (root : Nat) (p : List Nat) (i u : Nat) (m' : Phys) : Prop where
  tree : PageTree H D m' root
  node : ∀ {q}, Path H q → m'.node root q = if q = p ++ [i] then some u else m.node root q
  entry : ∀ {q j v}, Path H q → j < 512 → m.node root q = some v → ¬(q = p ∧ j = i) → m'.entry v j = m.entry v j
  old : ∀ {v}, m.node root (p ++ [i]) = some v → m' = m
  fresh : m.node root (p ++ [i]) = none → Owned m m' (u / pageSize) ∧ ∀ j < 512, m'.entry u j = 0
  within : Within 0 (tables H m root) m m'

/-- A table in a new frame is hung under an entry that was absent. -/
theorem PageTree.hung {f e : Nat} (hT : PageTree H D m root) (hp : Path H (p ++ [i])) (hn : m.node root p = some t)
    (hold : m.node root (p ++ [i]) = none) (hf : f ∈ m.free) (hfree : m'.free = m.free.erase f)
    (hself : m'.entry t i = e) (hchild : child e = some (f * pageSize)) (hsmall : huge e = false)
    (hentry : ∀ {q j v}, Path H q → j < 512 → m.node root q = some v → ¬(q = p ∧ j = i) → m'.entry v j = m.entry v j)
    (hnew : ∀ j < 512, m'.entry (f * pageSize) j = 0) (hwithin : Within 0 (tables H m root) m m') :
    Hung H D m root p i (f * pageSize) m' := by
  have hfdiv : f * pageSize / pageSize = f := Nat.mul_div_cancel _ (by decide)
  have hnext : m.node root (p ++ [i]) = child (m.entry t i) := by
    rw [Phys.node, Radix.node_snoc, show Radix.node child m.entry root p = some t from hn, Option.bind_some]
  have hnode : ∀ {q}, Path H q → m'.node root q = if q = p ++ [i] then some (f * pageSize) else m.node root q := by
    intro q hq
    refine Radix.node_hang Path.init hn (hnext.symm.trans hold) (by rw [hself]; exact hchild) (fun j hj => ?_)
      (fun q j v hq' hv hne => hentry hq'.init hq'.last_lt hv hne) hq
    rw [hnew j hj.last_lt]
    rfl
  refine ⟨⟨hT.aligned, ?_, ?_, ?_, ?_⟩, hnode, hentry, fun {v} hv => ?_, fun _ => ⟨?_, hnew⟩, hwithin⟩
  · -- The new frame is none of the tables: those are in use.
    refine hT.tree.hang (fun q hq hv => ?_) fun q hq => hnode hq
    exact (hT.used ⟨_, _, hq, hv, hfdiv.symm⟩).1 hf
  · intro q j v hq hq0 hv hpr
    rw [hnode hq.init] at hv
    split at hv
    · cases hv
      rw [hnew j hq.last_lt] at hpr
      cases hpr
    · by_cases hqi : q = p ∧ j = i
      · obtain ⟨rfl, rfl⟩ := hqi
        rw [hn, Option.some.injEq] at hv
        subst hv
        rw [hself]
        exact hsmall
      · rw [hentry hq.init hq.last_lt hv hqi] at hpr ⊢
        exact hT.small hq hq0 hv hpr
  · intro g h
    obtain ⟨q, v, hq, hv, rfl⟩ := h
    rw [hnode hq] at hv
    split at hv
    · cases hv
      rw [hfdiv, hfree]
      exact ⟨Finset.notMem_erase _ _, fun hD => hT.data hD hf⟩
    · obtain ⟨hu, hd⟩ := hT.used ⟨q, v, hq, hv, rfl⟩
      exact ⟨fun hmem => hu (hwithin.free hmem), hd⟩
  · exact fun hD hmem => hT.data hD (hwithin.free hmem)
  · rw [hold] at hv
    cases hv
  · rw [hfdiv]
    exact ⟨hf, by rw [hfree]; exact Finset.notMem_erase _ _⟩

theorem getOrCreate_spec (hT : PageTree H D m root) (hp : Path H (p ++ [i])) (hn : m.node root p = some t)
    (hflags : flags < pageSize) (hodd : flags % 2 = 1) (hsmall : huge flags = false)
    (h : m.getOrCreate t i flags = some (u, m')) :
    Hung H D m root p i u m' := by
  have hnext : m.node root (p ++ [i]) = child (m.entry t i) := by
    rw [Phys.node, Radix.node_snoc, show Radix.node child m.entry root p = some t from hn, Option.bind_some]
  have htal := node_aligned hT.aligned hn
  simp only [getOrCreate, Option.map_eq_some_iff, Prod.mk.injEq] at h
  obtain ⟨m₁, hm₁, hu, rfl⟩ := h
  split at hm₁
  · next hpres =>
    cases hm₁
    have hsome : m.node root (p ++ [i]) = some u := by rw [hnext, child, if_pos hpres, hu]
    refine ⟨hT, fun {q} _ => ?_, fun _ _ _ _ => rfl, fun _ => rfl, fun hnone => ?_, .refl _ _ _⟩
    · split
      · next he => rw [he, hsome]
      · rfl
    · rw [hsome] at hnone; cases hnone
  · next hpres =>
    simp only [allocTable, Option.bind_eq_bind, Option.map_eq_some_iff, Option.bind_eq_some_iff, Option.some.injEq,
      Prod.exists, Prod.mk.injEq] at hm₁
    obtain ⟨phys, m₂, ⟨phys', m₃, ha, rfl, rfl⟩, rfl⟩ := hm₁
    obtain ⟨f, rfl, hal⟩ := alloc_cases ha
    have hfal : f * pageSize % pageSize = 0 := Nat.mul_mod_left _ _
    obtain ⟨hlt, hchild⟩ := midEntry hal.mem hflags hodd
    have hi := hp.last_lt
    have hnot : ∀ {q v}, Path H q → m.node root q = some v → v / pageSize ≠ f := fun hq hv he =>
      (hT.used ⟨_, _, hq, hv, he.symm⟩).1 hal.mem
    have hself : ((m₃.zeroPage (f * pageSize)).setEntry t i (f * pageSize ||| flags)).entry t i =
        f * pageSize ||| flags := entry_setEntry_self hlt
    obtain rfl : f * pageSize = u := by rw [← hu, hself, addrOf_lor hfal hflags]
    refine hT.hung hp hn (hnext.trans (if_neg hpres)) hal.mem hal.free hself hchild (huge_lor hfal hflags hsmall)
      (fun {q j v} hq hj hv hne => ?_) (fun j hj => ?_) ?_
    · have hval := node_aligned hT.aligned hv
      rw [entry_setEntry_other hi hj htal hval fun hcon => hne ⟨hT.tree q p t hq hp.init (hcon.1 ▸ hv) hn, hcon.2⟩]
      exact entry_congr hj hval fun x hx => hal.zeroPage_bytes (hx ▸ hnot hq hv)
    · have hfdiv : f * pageSize / pageSize = f := Nat.mul_div_cancel _ (by decide)
      rw [entry_setEntry_other hi hj htal hfal fun hcon => hnot hp.init hn (by rw [← hcon.1, hfdiv]), entry_zeroPage hj]
    · refine ((Within.refl 0 _ m).fill hal).put fun x hx hx' => .inl ⟨p, t, hp.init, hn, ?_⟩
      simp only [pageSize] at *
      omega

/-! ## Mapping a page -/

/-- The tables of the new tree are those of the old one and frames allocated since. -/
def Enlarges (H : Nat → Prop) (m : Phys) (root : Nat) (m' : Phys) : Prop :=
  ∀ q v, Path H q → m'.node root q = some v → m.node root q = some v ∨ Owned m m' (v / pageSize)

theorem Enlarges.tables {f : Nat} (h : Enlarges H m root m') (hf : tables H m' root f) :
    tables H m root f ∨ Owned m m' f := by
  obtain ⟨q, v, hq, hv, rfl⟩ := hf
  exact (h q v hq hv).imp_left fun hv => ⟨q, v, hq, hv, rfl⟩

namespace Hung

theorem enlarges (h : Hung H D m root p i u m') : Enlarges H m root m' := by
  intro q v hq hv
  rw [h.node hq] at hv
  split at hv
  · next he =>
    cases hv
    cases hn : m.node root (p ++ [i]) with
    | none => exact .inr (h.fresh hn).1
    | some v =>
      left
      have hsame := h.node hq
      rw [if_pos he, h.old hn] at hsame
      exact hsame
  · exact .inl hv

/-- The entries of pages are as before. -/
theorem pte (h : Hung H D m root p i u m') (hp : Path H (p ++ [i])) (hva : H (idx 39 va)) :
    m'.pte root va = m.pte root va := by
  have hpath := path_pathOf hva
  cases hn : m.node root (p ++ [i]) with
  | some v => rw [h.old hn]
  | none =>
    simp only [Phys.pte, h.node hpath, Option.bind_eq_bind]
    split
    · next he =>
      rw [he, hn, Option.bind_some, (h.fresh hn).2 _ (idx_lt _ _)]
      rfl
    · cases hv : m.node root (pathOf va) with
      | none => rw [Option.bind_none, Option.bind_none]
      | some v =>
        have hlen := hp.length_lt
        have hsame : m'.entry v (idx 12 va) = m.entry v (idx 12 va) := by
          refine h.entry hpath (idx_lt _ _) hv fun hcon => ?_
          rw [← hcon.1] at hlen
          exact absurd hlen (by simp [pathOf])
        simp only [Option.bind_some, hsame]

end Hung

/-- The tables on the way to a page exist, the last one at `pt`, and no page has moved. -/
structure Walked (H D : Nat → Prop) (m : Phys) (root va pt : Nat) (m' : Phys) : Prop where
  tree : PageTree H D m' root
  node : m'.node root (pathOf va) = some pt
  pte : ∀ {va'}, H (idx 39 va') → m'.pte root va' = m.pte root va'
  enlarges : Enlarges H m root m'
  rootEntry : ∀ {j}, j < 512 → (j = idx 39 va → present (m.entry root j) = true) → m'.entry root j = m.entry root j
  within : Within 0 (tables H m root) m m'

/-- The three calls of `get_or_create` in `map_4k`. -/
theorem walked_of_getOrCreate {m₂ m₃ : Phys} {pdpt pd pt : Nat} (hT : PageTree H D m root) (hva : H (idx 39 va))
    (hflags : flags < pageSize) (hodd : flags % 2 = 1) (hsmall : huge flags = false)
    (h₁ : m.getOrCreate root (idx 39 va) flags = some (pdpt, m₁))
    (h₂ : m₁.getOrCreate pdpt (idx 30 va) flags = some (pd, m₂))
    (h₃ : m₂.getOrCreate pd (idx 21 va) flags = some (pt, m₃)) : Walked H D m root va pt m₃ := by
  have hp₃ : Path H ([idx 39 va, idx 30 va] ++ [idx 21 va]) := path_pathOf hva
  have hp₂ : Path H ([idx 39 va] ++ [idx 30 va]) := hp₃.init
  have hp₁ : Path H ([] ++ [idx 39 va]) := hp₂.init
  have s₁ := getOrCreate_spec hT hp₁ rfl hflags hodd hsmall h₁
  have hn₁ : m₁.node root [idx 39 va] = some pdpt := (s₁.node (q := [idx 39 va]) hp₁).trans (if_pos rfl)
  have s₂ := getOrCreate_spec s₁.tree hp₂ hn₁ hflags hodd hsmall h₂
  have hn₂ : m₂.node root [idx 39 va, idx 30 va] = some pd :=
    (s₂.node (q := [idx 39 va, idx 30 va]) hp₂).trans (if_pos rfl)
  have s₃ := getOrCreate_spec s₂.tree hp₃ hn₂ hflags hodd hsmall h₃
  have he₁ := s₁.enlarges
  have he₂ : Enlarges H m root m₂ := fun q v hq hv => (s₂.enlarges q v hq hv).elim
    (fun hv => (he₁ q v hq hv).imp_right s₂.within.owned_left) fun ho => .inr (s₁.within.owned_right ho)
  have w₂ := s₁.within.trans s₂.within (Nat.le_refl 0) fun f hf => he₁.tables hf
  refine ⟨s₃.tree, (s₃.node (q := pathOf va) hp₃).trans (if_pos rfl), fun hva' => ?_, fun q v hq hv => ?_,
    fun {j} hj hne => ?_, ?_⟩
  · rw [s₃.pte hp₃ hva', s₂.pte hp₂ hva', s₁.pte hp₁ hva']
  · exact (s₃.enlarges q v hq hv).elim (fun hv => (he₂ q v hq hv).imp_right s₃.within.owned_left)
      fun ho => .inr (w₂.owned_right ho)
  · rw [s₃.entry path_nil hj rfl (by simp), s₂.entry path_nil hj rfl (by simp)]
    by_cases hji : j = idx 39 va
    · -- The top-level entry was there, so nothing was created for it.
      have hp := hne hji
      rw [hji] at hp
      have hthere : m.node root [idx 39 va] = some (addrOf (m.entry root (idx 39 va))) := node_one.trans (if_pos hp)
      rw [s₁.old hthere]
    · exact s₁.entry path_nil hj rfl fun hcon => hji hcon.2
  · exact w₂.trans s₃.within (Nat.le_refl 0) fun f hf => he₂.tables hf

/-- What `map_4k` does: the entry of one page, and new tables on the way. -/
structure Mapped (H D : Nat → Prop) (m : Phys) (root va e : Nat) (m' : Phys) : Prop where
  tree : PageTree H D m' root
  pte : ∀ {va'}, H (idx 39 va') → m'.pte root va' = if pageOf va' = pageOf va then some e else m.pte root va'
  enlarges : Enlarges H m root m'
  rootEntry : ∀ {j}, j < 512 → (j = idx 39 va → present (m.entry root j) = true) → m'.entry root j = m.entry root j
  within : Within 0 (tables H m root) m m'

/-- The entry of one page has been set to `v`, in the table `pt`; no table and no other page has moved. -/
structure LeafSet (H D : Nat → Prop) (m : Phys) (root va pt v : Nat) (m' : Phys) : Prop where
  tree : PageTree H D m' root
  node : ∀ {q}, Path H q → m'.node root q = m.node root q
  pte : ∀ {va'}, H (idx 39 va') → m'.pte root va' =
    if pageOf va' = pageOf va then (if present v then some v else none) else m.pte root va'
  rootEntry : ∀ {j}, j < 512 → m'.entry root j = m.entry root j
  bytes : ∀ {x}, x / pageSize ≠ pt / pageSize → m'.bytes x = m.bytes x

theorem PageTree.setLeaf {pt v : Nat} (hT : PageTree H D m root) (hva : H (idx 39 va))
    (hn : m.node root (pathOf va) = some pt) (hv : v < 2 ^ 64) :
    LeafSet H D m root va pt v (m.setEntry pt (idx 12 va) v) := by
  have hpath := path_pathOf hva
  have hptal := node_aligned hT.aligned hn
  have hentry : ∀ {q j u}, Path H q → j < 512 → m.node root q = some u → ¬(q = pathOf va ∧ j = idx 12 va) →
      (m.setEntry pt (idx 12 va) v).entry u j = m.entry u j := by
    intro q j u hq hj hu hne
    refine entry_setEntry_other (idx_lt _ _) hj hptal (node_aligned hT.aligned hu) fun hcon => ?_
    exact hne ⟨hT.tree q (pathOf va) pt hq hpath (hcon.1 ▸ hu) hn, hcon.2⟩
  have hshort : ∀ {q j}, Path H (q ++ [j]) → ¬q = pathOf va := by
    intro q j hq h
    obtain rfl := h
    exact absurd hq.length_lt (by simp [pathOf])
  have hnode : ∀ {q}, Path H q → (m.setEntry pt (idx 12 va) v).node root q = m.node root q := fun hq =>
    Radix.node_congr Path.init
      (fun q j u hq hu => hentry hq.init hq.last_lt hu fun hcon => hshort hq hcon.1) hq
  refine ⟨⟨hT.aligned, hT.tree.congr fun q hq => hnode hq, ?_, ?_, hT.data⟩, hnode, fun {va'} hva' => ?_,
    fun {j} hj => hentry path_nil hj rfl (by simp [pathOf]), fun {x} hx => put_outside ?_⟩
  · intro q j u hq hq0 hu hpr
    rw [hnode hq.init] at hu
    rw [hentry hq.init hq.last_lt hu fun hcon => hshort hq hcon.1] at hpr ⊢
    exact hT.small hq hq0 hu hpr
  · intro f h
    obtain ⟨q, u, hq, hu, rfl⟩ := h
    exact hT.used ⟨q, u, hq, (hnode hq) ▸ hu, rfl⟩
  · have hpath' := path_pathOf hva'
    simp only [Phys.pte, hnode hpath', Option.bind_eq_bind]
    split
    · next hpage =>
      obtain ⟨hq, hj⟩ := pageOf_eq_iff.mp hpage
      rw [hq, hn, Option.bind_some, hj, entry_setEntry_self hv]
    · next hpage =>
      cases hu : m.node root (pathOf va') with
      | none => rw [Option.bind_none, Option.bind_none]
      | some u =>
        have hsame := hentry hpath' (idx_lt 12 va') hu fun hcon => hpage (pageOf_eq_iff.mpr hcon)
        simp only [Option.bind_some, hsame]
  · have hlt := idx_lt 12 va
    simp only [pageSize] at *
    omega

/-- Storing the entry of a page moves no table and no other page. -/
theorem Walked.setEntry {pt e : Nat} {m' : Phys} (h : Walked H D m root va pt m') (hva : H (idx 39 va))
    (he : e < 2 ^ 64) (hpres : present e = true) : Mapped H D m root va e (m'.setEntry pt (idx 12 va) e) := by
  have hS := h.tree.setLeaf hva h.node he
  have hptal := node_aligned h.tree.aligned h.node
  refine ⟨hS.tree, fun {va'} hva' => ?_, fun q v hq hv => ?_, fun {j} hj hne => ?_, h.within.put fun x hx hx' => ?_⟩
  · rw [hS.pte hva', if_pos hpres, h.pte hva']
  · rw [hS.node hq] at hv
    exact h.enlarges q v hq hv
  · rw [hS.rootEntry hj, h.rootEntry hj hne]
  · have hfx : x / pageSize = pt / pageSize := by
      have hlt := idx_lt 12 va
      simp only [pageSize] at *
      omega
    rw [hfx]
    exact h.enlarges.tables ⟨pathOf va, pt, path_pathOf hva, h.node, rfl⟩

theorem map4k_spec (hT : PageTree H D m root) (hva : H (idx 39 va)) (hpa : pa < 2 ^ 64) (hflags : flags < pageSize)
    (h : m.map4k root va pa flags = some m') : Mapped H D m root va (addrOf pa ||| flags ||| ptePresent) m' := by
  simp only [map4k, Option.bind_eq_bind, Option.bind_eq_some_iff, Option.some.injEq, Prod.exists] at h
  obtain ⟨pdpt, m₁, h₁, pd, m₂, h₂, pt, m₃, h₃, rfl⟩ := h
  have hw := walked_of_getOrCreate hT hva (by decide) (by decide) (by decide) h₁ h₂ h₃
  refine hw.setEntry hva ?_ present_lor
  refine Nat.or_lt_two_pow (Nat.or_lt_two_pow ?_ ?_) (by decide)
  · exact Nat.lt_of_le_of_lt (Nat.div_mul_le_self pa pageSize) hpa
  · exact Nat.lt_of_lt_of_le hflags (by decide)

/-! ## What does not touch the tables -/

/-- The same tables with the same entries. -/
structure SameTables (H : Nat → Prop) (m : Phys) (root : Nat) (m' : Phys) : Prop where
  node : ∀ {q}, Path H q → m'.node root q = m.node root q
  entry : ∀ {q j v}, Path H q → j < 512 → m.node root q = some v → m'.entry v j = m.entry v j

theorem sameTables_of_bytes (hal : root % pageSize = 0)
    (h : ∀ x, tables H m root (x / pageSize) → m'.bytes x = m.bytes x) : SameTables H m root m' := by
  have hentry : ∀ {q j v}, Path H q → j < 512 → m.node root q = some v → m'.entry v j = m.entry v j :=
    fun {q j v} hq hj hv => entry_congr hj (node_aligned hal hv) fun x hx => h x (hx ▸ ⟨q, v, hq, hv, rfl⟩)
  exact ⟨fun hq => Radix.node_congr Path.init (fun q j v hq hv => hentry hq.init hq.last_lt hv) hq, hentry⟩

namespace SameTables

theorem pte (h : SameTables H m root m') (hva : H (idx 39 va)) : m'.pte root va = m.pte root va := by
  have hpath := path_pathOf hva
  simp only [Phys.pte, h.node hpath, Option.bind_eq_bind]
  cases hv : m.node root (pathOf va) with
  | none => rw [Option.bind_none, Option.bind_none]
  | some v => simp only [Option.bind_some, h.entry hpath (idx_lt 12 va) hv]

theorem tables_iff {f : Nat} (h : SameTables H m root m') : tables H m' root f ↔ tables H m root f := by
  constructor
  · intro h
    obtain ⟨q, v, hq, hv, rfl⟩ := h
    exact ⟨q, v, hq, h.node hq ▸ hv, rfl⟩
  · intro h
    obtain ⟨q, v, hq, hv, rfl⟩ := h
    exact ⟨q, v, hq, (h.node hq).trans hv, rfl⟩

theorem tree {D' : Nat → Prop} (h : SameTables H m root m') (hT : PageTree H D m root)
    (hused : ∀ {f}, tables H m root f → f ∉ m'.free ∧ ¬D' f) (hdata : ∀ {f}, D' f → f ∉ m'.free) :
    PageTree H D' m' root where
  aligned := hT.aligned
  tree := hT.tree.congr fun _ hq => h.node hq
  small := by
    intro q j v hq hq0 hv hpr
    rw [h.node hq.init] at hv
    rw [h.entry hq.init hq.last_lt hv] at hpr ⊢
    exact hT.small hq hq0 hv hpr
  used hf := hused (h.tables_iff.mp hf)
  data := hdata

end SameTables

/-- The tables do not notice what is stored in a data frame. -/
theorem PageTree.sameTables_put {f addr len : Nat} {g : Nat → UInt8} (hT : PageTree H D m root) (hf : D f)
    (hin : ∀ x, addr ≤ x → x < addr + len → x / pageSize = f) : SameTables H m root (m.put addr len g) :=
  sameTables_of_bytes hT.aligned fun _ hx => put_frame hin fun he => (hT.used hx).2 (he ▸ hf)

/-- A new data frame, filled without a write to the tables. -/
theorem PageTree.alloc {f : Nat} {m₂ : Phys} (hT : PageTree H D m root) (hal : m.Allocs f m₁)
    (hfree : m₂.free = m₁.free) (hb : ∀ x, tables H m root (x / pageSize) → m₂.bytes x = m.bytes x) :
    SameTables H m root m₂ ∧ PageTree H (fun g => g = f ∨ D g) m₂ root := by
  have hfree₂ : m₂.free = m.free.erase f := hfree.trans hal.free
  have hsub : m₂.free ⊆ m.free := by rw [hfree₂]; exact Finset.erase_subset _ _
  have hsame := sameTables_of_bytes hT.aligned hb
  refine ⟨hsame, hsame.tree hT (fun {g} hg => ⟨fun hmem => (hT.used hg).1 (hsub hmem), ?_⟩) fun {g} hg => ?_⟩
  · intro h
    rcases h with rfl | hD
    · exact (hT.used hg).1 hal.mem
    · exact (hT.used hg).2 hD
  · rcases hg with rfl | hD
    · rw [hfree₂]
      exact Finset.notMem_erase _ _
    · exact fun hmem => hT.data hD (hsub hmem)

/-- Fewer data frames. -/
theorem PageTree.mono {D' : Nat → Prop} (hT : PageTree H D m root) (h : ∀ f, D' f → D f) : PageTree H D' m root where
  aligned := hT.aligned
  tree := hT.tree
  small := hT.small
  used hf := ⟨(hT.used hf).1, fun hD => (hT.used hf).2 (h _ hD)⟩
  data hD := hT.data (h _ hD)

/-- A root with nothing under it. -/
theorem pageTree_empty (hal : root % pageSize = 0) (hroot : root / pageSize ∉ m.free ∧ ¬D (root / pageSize))
    (hdata : ∀ {f}, D f → f ∉ m.free) (h : ∀ i < 512, H i → present (m.entry root i) = false) :
    PageTree H D m root := by
  have hnone : ∀ {p i}, Path H (p ++ [i]) → m.node root (p ++ [i]) = none := by
    intro p i hp
    induction p using List.reverseRecOn generalizing i with
    | nil =>
      have habs := h i hp.last_lt (hp.2.2 i rfl)
      rw [node, Radix.node_snoc]
      simp only [Radix.node, Option.bind_some, child, habs, Bool.false_eq_true, if_false]
    | append_singleton q j ih =>
      have hq := ih hp.init
      rw [node] at hq
      rw [node, Radix.node_snoc, hq, Option.bind_none]
  have hnil : ∀ {p t}, Path H p → m.node root p = some t → p = [] ∧ t = root := by
    intro p t hp ht
    cases p using List.reverseRecOn with
    | nil => cases ht; exact ⟨rfl, rfl⟩
    | append_singleton q j => rw [hnone hp] at ht; cases ht
  refine ⟨hal, fun p q t hp hq ht ht' => ?_, fun {p i t} hp hp0 ht => ?_, ?_, hdata⟩
  · rw [(hnil hp ht).1, (hnil hq ht').1]
  · exact absurd (hnil hp.init ht).1 hp0
  · intro f h
    obtain ⟨p, t, hp, ht, rfl⟩ := h
    rw [(hnil hp ht).2]
    exact hroot

theorem PageTree.virtToPhys_eq (hT : PageTree H D m root) (hva : H (idx 39 va)) :
    m.virtToPhys root va = (m.pte root va).map fun e => addrOf e + va % pageSize := hT.walk_eq hva _

/-- The flag bits of the root do not matter. -/
theorem virtToPhys_addrOf : m.virtToPhys (addrOf root) va = m.virtToPhys root va := by
  rw [virtToPhys, walk, addrOf_eq (addrOf_mod root)]
  rfl

theorem PageTree.getUserPte_eq (hT : PageTree H D m root) (hva : H (idx 39 va)) :
    m.getUserPte root va = m.pte root va := by
  rw [getUserPte, hT.walk_eq hva]
  simp

/-- A walk sees the page only. -/
theorem pte_congr {va' : Nat} (h : pageOf va' = pageOf va) : m.pte root va' = m.pte root va := by
  obtain ⟨hp, hi⟩ := pageOf_eq_iff.mp h
  rw [pte, pte, hp, hi]

/-- The frames that pages are mapped to are data frames. -/
def MapsInto (H D : Nat → Prop) (m : Phys) (root : Nat) : Prop :=
  ∀ {va e}, H (idx 39 va) → m.pte root va = some e → D (e / pageSize)

theorem Mapped.mapsInto {e : Nat} (h : Mapped H D m root va e m') (hm : MapsInto H D m root) (he : D (e / pageSize)) :
    MapsInto H D m' root := by
  intro va' e' hva' hpte
  rw [h.pte hva'] at hpte
  split at hpte
  · cases hpte; exact he
  · exact hm hva' hpte

end Phys

open Phys

/-- After `map_4k` the page translates to the frame, with its flags; no
other page, mapped or not, translates differently; and the tables are
well-formed again. -/
theorem map_4k_agrees_with_lookups {D : Nat → Prop} {m m' : Phys} {root va pa flags : Nat}
    (hT : PageTree (fun _ => True) D m root) (hva : va % pageSize = 0) (hpa : pa % pageSize = 0) (hpa64 : pa < 2 ^ 64)
    (hflags : flags < pageSize) (h : m.map4k root va pa flags = some m') :
    (∀ o < pageSize, m'.virtToPhys root (va + o) = some (pa + o)) ∧
      (∀ va', pageOf va' ≠ pageOf va → m'.virtToPhys root va' = m.virtToPhys root va') ∧
      m'.getUserPte root va = some (pa ||| (flags ||| ptePresent)) ∧
      PageTree (fun _ => True) D m' root ∧
      (MapsInto (fun _ => True) D m root → D (pa / pageSize) → MapsInto (fun _ => True) D m' root) := by
  have hm := map4k_spec hT trivial hpa64 hflags h
  rw [addrOf_eq hpa] at hm
  have hfl : flags ||| ptePresent < pageSize := Nat.or_lt_two_pow (n := 12) hflags (by decide)
  have haddr : addrOf (pa ||| flags ||| ptePresent) = pa := by
    rw [Nat.or_assoc, addrOf_lor hpa hfl]
  refine ⟨fun o ho => ?_, fun va' hne => ?_, ?_, hm.tree, fun hinto hD => hm.mapsInto hinto ?_⟩
  · have hpage : pageOf (va + o) = pageOf va := by simp only [pageOf, pageSize] at *; omega
    have hoff : (va + o) % pageSize = o := by simp only [pageSize] at *; omega
    rw [hm.tree.virtToPhys_eq trivial, hm.pte trivial, if_pos hpage, Option.map_some, haddr, hoff]
  · rw [hm.tree.virtToPhys_eq trivial, hT.virtToPhys_eq trivial, hm.pte trivial, if_neg hne]
  · rw [hm.tree.getUserPte_eq trivial, hm.pte trivial, if_pos rfl, Nat.or_assoc]
  · rw [← addrOf_div, haddr]
    exact hD

/-- Eight free frames from the second one on, and nothing in memory. -/
def blankMachine : Phys where
  frames := { bitmap := fun i => if i = 0 then 0x1FE#64 else 0#64, freeFrames := 8 }
  bytes := fun _ => 0
  kernelCr3 := 0
  roSlot := 0
  log := []

theorem blankMachine_tree (H : Nat → Prop) : PageTree H (· = 100) blankMachine 0 := by
  have hfree : ∀ f, f ∈ blankMachine.free → f < 64 := by
    intro f hf
    have hbit := (FrameAlloc.mem_freeSet.mp hf).2
    by_contra hge
    have hw : f / 64 ≠ 0 := by omega
    simp only [blankMachine, FrameAlloc.isFree, hw, if_false, BitVec.getLsbD_zero] at hbit
    cases hbit
  refine pageTree_empty (by decide) ⟨fun h0 => ?_, by decide⟩ (fun {f} hf h => ?_) fun i _ _ => ?_
  · exact absurd (FrameAlloc.mem_freeSet.mp h0).2 (by decide)
  · have := hfree f h
    omega
  · have hzero : blankMachine.entry 0 i = 0 := ByteMem.le_zero fun _ _ _ => rfl
    rw [hzero]
    rfl

/-- The first page of the kernel half, mapped to a frame of data in an empty table. -/
theorem map_4k_agrees_blank : ∃ m', blankMachine.map4k 0 0x800000000000 (100 * pageSize) pteWritable = some m' ∧
    m'.virtToPhys 0 0x800000000123 = some (100 * pageSize + 0x123) ∧ m'.virtToPhys 0 0x1000 = none := by
  obtain ⟨m', hm'⟩ := Option.isSome_iff_exists.mp
    (show (blankMachine.map4k 0 0x800000000000 (100 * pageSize) pteWritable).isSome = true by decide)
  have h := map_4k_agrees_with_lookups (blankMachine_tree _) (by decide) (by decide) (by decide) (by decide) hm'
  refine ⟨m', hm', h.1 0x123 (by decide), (h.2.1 0x1000 (by decide)).trans (by decide)⟩

end ChodOs
