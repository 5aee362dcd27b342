/-
The VMA table (`process/vma.rs`): 128 slots, searched from the front.

A lookup takes the first slot that covers the address, so an insertion is
an update of the map from addresses to permissions exactly when no slot in
front of the new VMA hides it and nobody misses what it overwrites or moves.
-/
import ChodOs.Lib.Run
import ChodOs.Memory.Frame

namespace ChodOs

open StepSys

def protWrite : Nat := 2
def maxVma : Nat := 128

/-- `VmaEntry`. Its end is a number of 64 bits: an end beyond stops the kernel at the first lookup. -/
structure VmaEntry where
  base : Nat
  pages : Nat
  /-- `PROT_*` flags. -/
  prot : Nat
  /-- Demand paging. -/
  lazy : Bool
  valid : Bool
  deriving DecidableEq

namespace VmaEntry

/-- `VmaEntry::empty`. -/
def empty : VmaEntry := { base := 0, pages := 0, prot := 0, lazy := false, valid := false }

/-- `e.base + e.pages as u64 * 4096`. -/
def endAddr (e : VmaEntry) : Nat := e.base + e.pages * pageSize

/-- The test of `find`. -/
def covers (v : Nat) (e : VmaEntry) : Bool := e.valid && (decide (e.base ≤ v) && decide (v < e.endAddr))

/-- The test for an entry that starts at an address. -/
def startsAt (addr : Nat) (e : VmaEntry) : Bool := e.valid && e.base == addr

/-- What a page fault looks at. -/
def access (e : VmaEntry) : Nat × Bool := (e.prot, e.lazy)

/-- The part of an old VMA behind a shorter new one at the same base. -/
def remainder (e : VmaEntry) (base pages : Nat) : Option VmaEntry :=
  if pages < e.pages then some { e with base := base + pages * pageSize, pages := e.pages - pages, valid := true }
  else none

end VmaEntry

/-- `VMA_TABLE`. -/
abbrev VmaTable := Table VmaEntry maxVma

namespace VmaTable

/-! ## The code -/

def boot : VmaTable := .fill maxVma .empty

/-- The slot that `insert_slot` takes: the first free one, else the first of the smallest. -/
def slot (t : VmaTable) : Nat := Slots.freeIdx (fun e => !e.valid) (fun a b => decide (a.pages < b.pages)) t.1

/-- `insert_slot`. -/
def insertSlot (t : VmaTable) (entry : VmaEntry) : VmaTable := t.set t.slot entry

/-- `insert`. -/
def insert (t : VmaTable) (base pages prot : Nat) (lazy : Bool) : VmaTable :=
  let newEntry : VmaEntry := { base, pages, prot, lazy, valid := true }
  match t.1.findIdx? (·.startsAt base) with
  | none => t.insertSlot newEntry
  | some i =>
    match t.1[i]?.bind (·.remainder base pages) with
    | none => t.set i newEntry
    | some rem => insertSlot (t.set i newEntry) rem

/-- `reset`. -/
def reset (t : VmaTable) : VmaTable := t.map fun e => { e with valid := false }

/-- `remove`. The entry is returned as it is left behind. -/
def remove (t : VmaTable) (addr : Nat) : Option VmaEntry × VmaTable :=
  ((t.1.find? (·.startsAt addr)).map fun e => { e with valid := false },
    t.updateFirst (·.startsAt addr) fun e => { e with valid := false })

/-- `find`. -/
def find (t : VmaTable) (vaddr : Nat) : Option VmaEntry := t.1.find? (·.covers vaddr)

/-- `update_prot`. `none`: overflow. -/
def updateProt (t : VmaTable) (addr len newProt : Nat) : Option (Bool × VmaTable) := do
  let stop ← addU64 addr len
  let hit (e : VmaEntry) : Bool := e.valid && (decide (addr < e.endAddr) && decide (e.base < stop))
  some (t.1.any hit, t.map fun e => if hit e then { e with prot := newProt } else e)

/-! ## Runs -/

inductive Op
  | insert (base pages prot : Nat) (lazy : Bool)
  | remove (addr : Nat)
  | updateProt (addr len newProt : Nat)
  | reset

def step (t : VmaTable) : Op → Option (List Op × VmaTable)
  | .insert base pages prot lazy => some ([], t.insert base pages prot lazy)
  | .remove addr => some ([], (t.remove addr).2)
  | .updateProt addr len newProt => (t.updateProt addr len newProt).map fun (_, t) => ([], t)
  | .reset => some ([], t.reset)

/-- Whole pages are inserted. -/
def Paged (_ : List Op) (_ : VmaTable) : Op → Prop
  | .insert base pages _ _ => base % pageSize = 0 ∧ 0 < pages ∧ base + pages * pageSize < 2 ^ 64
  | _ => True

instance (h : List Op) (t : VmaTable) (op : Op) : Decidable (Paged h t op) := by
  induction op using Op.casesOn <;> unfold Paged <;> infer_instance

end VmaTable

/-! ## What a search answers -/

/-- `prot` and `lazy` of the first slot that covers an address. -/
def answer (l : List VmaEntry) (v : Nat) : Option (Nat × Bool) := (l.find? (·.covers v)).map VmaEntry.access

/-- What an entry alone answers. -/
def VmaEntry.gives (v : Nat) (e : VmaEntry) : Option (Nat × Bool) := if e.covers v then some e.access else none

/-- What the slots in front of slot `i` answer. -/
def before (l : List VmaEntry) (i v : Nat) : Option (Nat × Bool) := answer (l.take i) v

/-- What the slots behind slot `i` answer. -/
def behind (l : List VmaEntry) (i v : Nat) : Option (Nat × Bool) := answer (l.drop (i + 1)) v

section

variable {l : List VmaEntry} {i k v : Nat} {e x y new rem : VmaEntry}

theorem VmaEntry.covers_iff : e.covers v = true ↔ e.valid = true ∧ e.base ≤ v ∧ v < e.base + e.pages * pageSize := by
  rw [VmaEntry.covers, Bool.and_eq_true, Bool.and_eq_true, decide_eq_true_eq, decide_eq_true_eq, VmaEntry.endAddr]

theorem VmaEntry.gives_of_covers (h : e.covers v = true) : e.gives v = some e.access := if_pos h

theorem VmaEntry.gives_of_not_covers (h : e.covers v = false) : e.gives v = none := if_neg (by simp [h])

theorem answer_set (x : VmaEntry) (hi : i < l.length) :
    answer (l.set i x) v = (before l i v).or ((x.gives v).or (behind l i v)) := by
  rw [answer, Slots.find?_set x hi, Option.map_or, Option.map_or]
  cases hx : x.covers v <;> simp [before, behind, answer, VmaEntry.gives, Option.filter, hx]

theorem answer_at (hy : l[i]? = some y) : answer l v = (before l i v).or ((y.gives v).or (behind l i v)) := by
  obtain ⟨hi, rfl⟩ := List.getElem?_eq_some_iff.mp hy
  rw [← answer_set l[i] hi, List.set_getElem_self]

/-- Writing an entry that gives what the old one gave. -/
theorem answer_set_same (hy : l[i]? = some y) (h : x.gives v = y.gives v) : answer (l.set i x) v = answer l v := by
  rw [answer_set x (List.getElem?_eq_some_iff.mp hy).1, answer_at hy, h]

theorem before_set_same (hy : l[i]? = some y) (h : x.gives v = y.gives v) : before (l.set i x) k v = before l k v := by
  rw [before, List.take_set]
  by_cases hik : i < k
  · exact answer_set_same ((List.getElem?_take_of_lt hik).trans hy) h
  · rw [List.set_eq_of_length_le (by rw [List.length_take]; omega), before]

theorem behind_set_same (hy : l[i]? = some y) (h : x.gives v = y.gives v) : behind (l.set i x) k v = behind l k v := by
  rw [behind, List.drop_set]
  split
  · rfl
  · next hik =>
    refine answer_set_same (l := l.drop (k + 1)) ?_ h
    rw [List.getElem?_drop, show k + 1 + (i - (k + 1)) = i by omega]
    exact hy

/-! ## One write, two writes -/

/-- No slot in front of slot `i` hides the VMA. -/
def Visible (l : List VmaEntry) (i : Nat) (new : VmaEntry) : Prop :=
  ∀ v, new.covers v = true → before l i v = none ∨ before l i v = some new.access

/-- Where `heir` does not reach, the slots behind slot `i` answer as the VMA in it did. -/
def Spared (l : List VmaEntry) (i : Nat) (heir : VmaEntry) : Prop :=
  ∀ v, heir.covers v = false → ∀ y ∈ l[i]?, y.covers v = true → before l i v = none → behind l i v = some y.access

/-- The new answers where the new VMA is, the old ones elsewhere. -/
def Overrides (l l' : List VmaEntry) (new : VmaEntry) : Prop :=
  ∀ v, answer l' v = if new.covers v then some new.access else answer l v

theorem overrides_set_iff (hy : l[i]? = some y) :
    Overrides l (l.set i new) new ↔ Visible l i new ∧ Spared l i new := by
  have hi := (List.getElem?_eq_some_iff.mp hy).1
  constructor
  · intro h
    refine ⟨fun v hv => ?_, fun v hv z hz hcov hb => ?_⟩
    · have hov := h v
      rw [answer_set new hi, VmaEntry.gives_of_covers hv, if_pos hv] at hov
      cases hb : before l i v with
      | none => exact .inl rfl
      | some a => rw [hb] at hov; exact .inr hov
    · obtain rfl : y = z := Option.some.inj (hy.symm.trans hz)
      have hov := h v
      rw [answer_set new hi, VmaEntry.gives_of_not_covers hv, answer_at hy, VmaEntry.gives_of_covers hcov, hb] at hov
      simpa [hv] using hov
  · intro ⟨hvis, hspare⟩ v
    rw [answer_set new hi]
    split
    · next hv =>
      rw [VmaEntry.gives_of_covers hv]
      rcases hvis v hv with hb | hb <;> rw [hb] <;> rfl
    · next hv =>
      have hv : new.covers v = false := by simpa using hv
      rw [VmaEntry.gives_of_not_covers hv, answer_at hy]
      cases hcov : y.covers v with
      | false => rw [VmaEntry.gives_of_not_covers hcov]
      | true =>
        rw [VmaEntry.gives_of_covers hcov]
        cases hb : before l i v with
        | none => exact hspare v hv y hy hcov hb
        | some a => rfl

/-- A VMA is shortened to its tail, which keeps its permissions, and gives its start to a new one. -/
structure Splits (e new rem : VmaEntry) : Prop where
  covers : ∀ v, e.covers v = (new.covers v || rem.covers v)
  apart : ∀ v, ¬(new.covers v = true ∧ rem.covers v = true)
  access : rem.access = e.access

/-- The slots in front of slot `k` leave of the tail what those in front of slot `i` left of the whole. -/
def Moved (l : List VmaEntry) (i k : Nat) (e new rem : VmaEntry) : Prop :=
  ∀ v, rem.covers v = true → (before l i v).getD e.access = (before (l.set i new) k v).getD e.access

/-- The tail overwrites the new VMA itself. -/
theorem overrides_split_self (he : l[i]? = some e) (hs : Splits e new rem) :
    Overrides l ((l.set i new).set i rem) new ↔
      ∀ v, new.covers v = true → (before l i v).or (behind l i v) = some new.access := by
  have hi := (List.getElem?_eq_some_iff.mp he).1
  rw [List.set_set]
  refine forall_congr' fun v => ?_
  cases hn : new.covers v with
  | true =>
    have hr : rem.covers v = false := by simpa [hn] using hs.apart v
    rw [answer_set rem hi, VmaEntry.gives_of_not_covers hr, if_pos rfl]
    exact ⟨fun h _ => h, fun h => h rfl⟩
  | false =>
    have hsame : rem.gives v = e.gives v := by
      rw [VmaEntry.gives, VmaEntry.gives, hs.covers v, hn, hs.access, Bool.false_or]
    simp [answer_set_same he hsame]

/-- On the new range the tail's slot is silent. -/
theorem answer_split_new (he : l[i]? = some e) (hne : k ≠ i) (hv : new.covers v = true) :
    answer ((l.set i new).set k rem) v = (before (l.set k rem) i v).or (some new.access) := by
  have hi := (List.getElem?_eq_some_iff.mp he).1
  rw [List.set_comm _ _ hne.symm, answer_set new (by rw [List.length_set]; exact hi), VmaEntry.gives_of_covers hv]
  rfl

theorem overrides_split_iff (he : l[i]? = some e) (hy : l[k]? = some y) (hne : k ≠ i) (hs : Splits e new rem) :
    Overrides l ((l.set i new).set k rem) new ↔
      Visible (l.set k rem) i new ∧ Spared l k e ∧ Moved l i k e new rem := by
  have hi := (List.getElem?_eq_some_iff.mp he).1
  have hk := (List.getElem?_eq_some_iff.mp hy).1
  have hy' : (l.set i new)[k]? = some y := (List.getElem?_set_ne hne.symm).trans hy
  have hnew : ∀ v, new.covers v = true → answer ((l.set i new).set k rem) v =
      (before (l.set k rem) i v).or (some new.access) := fun v hv => answer_split_new he hne hv
  have htail : ∀ v, rem.covers v = true → answer ((l.set i new).set k rem) v =
      some ((before (l.set i new) k v).getD e.access) ∧ answer l v = some ((before l i v).getD e.access) := by
    intro v hv
    have hcov : e.covers v = true := by rw [hs.covers v, hv, Bool.or_true]
    rw [answer_set rem (by rw [List.length_set]; exact hk), VmaEntry.gives_of_covers hv, answer_at he,
      VmaEntry.gives_of_covers hcov, hs.access]
    constructor
    · cases before (l.set i new) k v <;> rfl
    · cases before l i v <;> rfl
  have hrest : ∀ v, e.covers v = false → answer ((l.set i new).set k rem) v = (before l k v).or (behind l k v) := by
    intro v hv
    have hparts : new.covers v = false ∧ rem.covers v = false := by simpa [hv] using (hs.covers v).symm
    have hsame : new.gives v = e.gives v := by
      rw [VmaEntry.gives_of_not_covers hparts.1, VmaEntry.gives_of_not_covers hv]
    rw [answer_set rem (by rw [List.length_set]; exact hk), VmaEntry.gives_of_not_covers hparts.2,
      before_set_same he hsame, behind_set_same he hsame]
    rfl
  constructor
  · intro h
    refine ⟨fun v hv => ?_, fun v hv z hz hcov hb => ?_, fun v hv => ?_⟩
    · have hov := h v
      rw [hnew v hv, if_pos hv] at hov
      cases hb : before (l.set k rem) i v with
      | none => exact .inl rfl
      | some a => rw [hb] at hov; exact .inr hov
    · obtain rfl : y = z := Option.some.inj (hy.symm.trans hz)
      have hparts : new.covers v = false ∧ rem.covers v = false := by simpa [hv] using (hs.covers v).symm
      have hov := h v
      rw [hrest v hv, answer_at hy, VmaEntry.gives_of_covers hcov, hb, hparts.1] at hov
      exact hov
    · have hn : new.covers v = false := by simpa [hv] using hs.apart v
      have hov := h v
      rw [(htail v hv).1, (htail v hv).2, hn] at hov
      exact (Option.some.inj hov).symm
  · intro ⟨hvis, hspare, hmoved⟩ v
    cases hn : new.covers v with
    | true =>
      rw [hnew v hn, if_pos rfl]
      rcases hvis v hn with hb | hb <;> rw [hb] <;> rfl
    | false =>
      rw [if_neg nofun]
      cases hr : rem.covers v with
      | true => rw [(htail v hr).1, (htail v hr).2, hmoved v hr]
      | false =>
        have hcov : e.covers v = false := by rw [hs.covers v, hn, hr]; rfl
        rw [hrest v hcov, answer_at hy]
        cases hyc : y.covers v with
        | false => rw [VmaEntry.gives_of_not_covers hyc]; rfl
        | true =>
          rw [VmaEntry.gives_of_covers hyc]
          cases hb : before l k v with
          | none => exact hspare v hcov y hy hyc hb
          | some a => rfl

end

/-! ## Insertion -/

namespace VmaTable

/-- Nothing hides the new VMA, and what it overwrites or moves is not
missed. The slot is the one of the VMA at the same base, whose tail moves
to slot `k` if it is longer, and else the free or smallest one. -/
def Fits (t : VmaTable) (new : VmaEntry) : Prop :=
  match t.1.findIdx? (·.startsAt new.base) with
  | none => Visible t.1 t.slot new ∧ Spared t.1 t.slot new
  | some i => ∀ e ∈ t.1[i]?,
    match e.remainder new.base new.pages with
    | none => Visible t.1 i new
    | some rem =>
      let k := slot (t.set i new)
      if k = i then ∀ v, new.covers v = true → (before t.1 i v).or (behind t.1 i v) = some new.access
      else Visible (t.1.set k rem) i new ∧ Spared t.1 k e ∧ Moved t.1 i k e new rem

variable {t : VmaTable} {new e rem : VmaEntry} {base pages prot : Nat} {lazy : Bool}

theorem slot_lt (t : VmaTable) : t.slot < t.1.length := Slots.freeIdx_lt t.ne_nil

theorem getElem?_slot (t : VmaTable) : ∃ y, t.1[t.slot]? = some y := ⟨_, List.getElem?_eq_getElem t.slot_lt⟩

/-- A VMA no longer than the new one at its base is covered by it. -/
theorem spared_of_remainder {i : Nat} (he : t.1[i]? = some e) (hbase : e.base = new.base) (hvalid : new.valid = true)
    (hrem : e.remainder new.base new.pages = none) : Spared t.1 i new := by
  intro v hv y hy hcov
  obtain rfl : e = y := Option.some.inj (he.symm.trans hy)
  have hle : e.pages ≤ new.pages := by
    by_contra hlt
    rw [VmaEntry.remainder, if_pos (by omega)] at hrem
    cases hrem
  rw [Bool.eq_false_iff, ne_eq, VmaEntry.covers_iff] at hv
  rw [VmaEntry.covers_iff] at hcov
  simp only [hvalid, true_and, pageSize] at hv hcov
  omega

theorem splits_of_remainder (hbase : e.base = new.base) (he : e.valid = true) (hvalid : new.valid = true)
    (hrem : e.remainder new.base new.pages = some rem) : Splits e new rem := by
  simp only [VmaEntry.remainder] at hrem
  split at hrem
  · next hlt =>
    cases hrem
    refine ⟨fun v => ?_, fun v h => ?_, rfl⟩
    · have hend : new.base + new.pages * pageSize + (e.pages - new.pages) * pageSize =
          e.base + e.pages * pageSize := by
        simp only [pageSize]
        omega
      rw [Bool.eq_iff_iff, Bool.or_eq_true]
      simp only [VmaEntry.covers_iff, he, hvalid, true_and, hend, hbase]
      simp only [pageSize] at *
      omega
    · simp only [VmaEntry.covers_iff] at h
      omega
  · cases hrem

/-- `insert` is an update of the map from addresses to permissions exactly when it fits. -/
theorem overrides_iff_fits (t : VmaTable) (base pages prot : Nat) (lazy : Bool) :
    Overrides t.1 (t.insert base pages prot lazy).1 { base, pages, prot, lazy, valid := true } ↔
      t.Fits { base, pages, prot, lazy, valid := true } := by
  generalize hnew : ({ base, pages, prot, lazy, valid := true } : VmaEntry) = new
  have hvalid : new.valid = true := by rw [← hnew]
  have hb : new.base = base := by rw [← hnew]
  have hp : new.pages = pages := by rw [← hnew]
  rw [insert, Fits, hnew, hb]
  dsimp only
  cases hfind : t.1.findIdx? (·.startsAt base) with
  | none =>
    obtain ⟨y, hy⟩ := t.getElem?_slot
    exact overrides_set_iff hy
  | some i =>
    obtain ⟨hi, hstart, -⟩ := List.findIdx?_eq_some_iff_getElem.mp hfind
    obtain ⟨e, he⟩ : ∃ e, t.1[i]? = some e := ⟨_, List.getElem?_eq_getElem hi⟩
    obtain rfl : t.1[i] = e := Option.some.inj ((List.getElem?_eq_getElem hi).symm.trans he)
    simp only [VmaEntry.startsAt, Bool.and_eq_true, beq_iff_eq] at hstart
    have hbase : t.1[i].base = new.base := hstart.2.trans hb.symm
    simp only [he, Option.bind_some, Option.mem_def, Option.some.injEq, forall_eq', hp]
    rw [← hb, ← hp]
    cases hrem : t.1[i].remainder new.base new.pages with
    | none => exact (overrides_set_iff he).trans (and_iff_left (spared_of_remainder he hbase hvalid hrem))
    | some rem =>
      have hs := splits_of_remainder hbase hstart.1 hvalid hrem
      dsimp only
      split
      · next hk =>
        rw [insertSlot, hk]
        exact overrides_split_self he hs
      · next hk =>
        obtain ⟨y, hy⟩ : ∃ y, t.1[slot (t.set i new)]? = some y := by
          have hlt := slot_lt (t.set i new)
          exact ⟨_, List.getElem?_eq_getElem (by simpa [Table.set] using hlt)⟩
        exact overrides_split_iff he hy hk hs

/-- A lazy VMA is seen as one at an address that it covers: no slot that is
searched before it has an eager VMA there. -/
def SeenLazy (t : VmaTable) (new : VmaEntry) (v : Nat) : Prop :=
  match t.1.findIdx? (·.startsAt new.base) with
  | none => ∀ a ∈ before t.1 t.slot v, a.2 = true
  | some i => ∀ e ∈ t.1[i]?,
    match e.remainder new.base new.pages with
    | none => ∀ a ∈ before t.1 i v, a.2 = true
    | some rem =>
      let k := slot (t.set i new)
      if k = i then ∃ a ∈ (before t.1 i v).or (behind t.1 i v), a.2 = true
      else ∀ a ∈ before (t.1.set k rem) i v, a.2 = true

theorem find_lazy_iff {v : Nat} : (∃ e ∈ t.find v, e.lazy = true) ↔ ∃ a ∈ answer t.1 v, a.2 = true := by
  rw [find, answer]
  cases t.1.find? (·.covers v) <;> simp [VmaEntry.access]

/-- What is searched first decides. -/
theorem exists_or_lazy {o : Option (Nat × Bool)} {a : Nat × Bool} (ha : a.2 = true) :
    (∃ b ∈ o.or (some a), b.2 = true) ↔ ∀ b ∈ o, b.2 = true := by
  cases o with
  | none => simp [ha]
  | some b => simp

/-- A fault on a page of a lazy VMA that was inserted finds a lazy VMA exactly when that one is seen. -/
theorem insert_lazy_iff (t : VmaTable) {base pages prot v : Nat} (hlow : base ≤ v) (hhigh : v < base + pages * pageSize) :
    (∃ e ∈ (t.insert base pages prot true).find v, e.lazy = true) ↔
      t.SeenLazy { base, pages, prot, lazy := true, valid := true } v := by
  generalize hnew : ({ base, pages, prot, lazy := true, valid := true } : VmaEntry) = new
  have hcov : new.covers v = true := by
    rw [← hnew]
    exact VmaEntry.covers_iff.mpr ⟨rfl, hlow, hhigh⟩
  have hlazy : new.access.2 = true := by rw [← hnew]; rfl
  have hb : new.base = base := by rw [← hnew]
  have hp : new.pages = pages := by rw [← hnew]
  have hset : ∀ {i y}, t.1[i]? = some y →
      ((∃ a ∈ answer (t.1.set i new) v, a.2 = true) ↔ ∀ a ∈ before t.1 i v, a.2 = true) := by
    intro i y hy
    rw [answer_set new (List.getElem?_eq_some_iff.mp hy).1, VmaEntry.gives_of_covers hcov, Option.some_or]
    exact exists_or_lazy hlazy
  rw [find_lazy_iff, insert, SeenLazy, hnew, hb]
  dsimp only
  cases hfind : t.1.findIdx? (·.startsAt base) with
  | none =>
    obtain ⟨y, hy⟩ := t.getElem?_slot
    exact hset hy
  | some i =>
    obtain ⟨hi, hstart, -⟩ := List.findIdx?_eq_some_iff_getElem.mp hfind
    obtain ⟨e, he⟩ : ∃ e, t.1[i]? = some e := ⟨_, List.getElem?_eq_getElem hi⟩
    obtain rfl : t.1[i] = e := Option.some.inj ((List.getElem?_eq_getElem hi).symm.trans he)
    simp only [VmaEntry.startsAt, Bool.and_eq_true, beq_iff_eq] at hstart
    have hbase : t.1[i].base = new.base := hstart.2.trans hb.symm
    simp only [he, Option.bind_some, Option.mem_def, Option.some.injEq, forall_eq', hp]
    rw [← hb, ← hp]
    cases hrem : t.1[i].remainder new.base new.pages with
    | none => exact hset he
    | some rem =>
      have hvalid : new.valid = true := by rw [← hnew]
      have hs := splits_of_remainder hbase hstart.1 hvalid hrem
      dsimp only
      split
      · next hk =>
        -- the tail overwrites the new VMA
        have hr : rem.covers v = false := by simpa [hcov] using hs.apart v
        have hsets : (insertSlot (t.set i new) rem).1 = t.1.set i rem := by
          rw [insertSlot, hk]
          exact List.set_set ..
        rw [hsets, answer_set rem (List.getElem?_eq_some_iff.mp he).1, VmaEntry.gives_of_not_covers hr, Option.none_or]
      · next hk =>
        have hans : answer (insertSlot (t.set i new) rem).1 v = _ := answer_split_new he hk hcov
        rw [hans]
        exact exists_or_lazy hlazy

end VmaTable

/-- After `insert`, `find` gives the new permissions in the new range and
the old ones elsewhere, in any table at all, exactly when the VMA fits. -/
theorem vma_insert_overrides_iff_fits (t : VmaTable) (base pages prot : Nat) (lazy : Bool) :
    (∀ v, ((t.insert base pages prot lazy).find v).map VmaEntry.access =
        if base ≤ v ∧ v < base + pages * pageSize then some (prot, lazy) else (t.find v).map VmaEntry.access) ↔
      t.Fits { base, pages, prot, lazy, valid := true } := by
  rw [← VmaTable.overrides_iff_fits]
  refine forall_congr' fun v => ?_
  have hcov : ({ base, pages, prot, lazy, valid := true } : VmaEntry).covers v = true ↔
      base ≤ v ∧ v < base + pages * pageSize := VmaEntry.covers_iff.trans (and_iff_right rfl)
  rw [if_congr hcov rfl rfl]
  exact Iff.rfl

/-- A page inserted inside a VMA stays hidden behind it. -/
theorem vma_insert_hidden : ∃ h t, Runs VmaTable.step VmaTable.Paged VmaTable.boot h t ∧
    0x2000 % pageSize = 0 ∧ ((t.insert 0x2000 1 1 false).find 0x2000).map VmaEntry.access = some (3, true) := by
  obtain ⟨h, t, hr, hP⟩ := Runs.of_exec VmaTable.step VmaTable.Paged VmaTable.boot [.insert 0x1000 4 3 true]
    (fun _ t => ((t.insert 0x2000 1 1 false).find 0x2000).map VmaEntry.access == some (3, true)) (by decide)
  exact ⟨h, t, hr, by decide, by simpa using hP⟩

end ChodOs
