/-
A ring buffer with a head and a tail index that keeps one slot empty: it
is full when the tail's successor is the head. What is in it is a list,
`contents`, which a push extends at the end and a pop shortens in front.
-/
import Mathlib.Data.Fin.Basic
import Mathlib.Data.Nat.ModEq
import Mathlib.Logic.Function.Basic

structure RingBuf (α : Type) (cap : Nat) where
  buf : Fin cap → α
  head : Fin cap
  tail : Fin cap

namespace RingBuf

variable {α : Type} {cap : Nat}

/-- The slot `n` places on. -/
def slot (i : Fin cap) (n : Nat) : Fin cap := ⟨(i + n) % cap, Nat.mod_lt _ i.pos⟩

/-- No room for a push. -/
def isFull (r : RingBuf α cap) : Bool := slot r.tail 1 == r.head

/-- `none`: the ring is full. -/
def push (r : RingBuf α cap) (a : α) : Option (RingBuf α cap) :=
  if r.isFull then none else some { r with buf := Function.update r.buf r.tail a, tail := slot r.tail 1 }

/-- `none`: the ring is empty. -/
def pop (r : RingBuf α cap) : Option (α × RingBuf α cap) :=
  if r.head = r.tail then none else some (r.buf r.head, { r with head := slot r.head 1 })

/-- What pops return one after another, at most `n` of them. -/
def drain : Nat → RingBuf α cap → List α
  | 0, _ => []
  | n + 1, r =>
    match r.pop with
    | none => []
    | some (a, r) => a :: drain n r

def length (r : RingBuf α cap) : Nat := (r.tail + cap - r.head) % cap

/-- What is in the ring, the oldest first. -/
def contents (r : RingBuf α cap) : List α := (List.range r.length).map fun i => r.buf (slot r.head i)

/-! ## Slots -/

@[simp] theorem slot_val (i : Fin cap) (n : Nat) : (slot i n : Nat) = (i + n) % cap := rfl

@[simp] theorem slot_zero (i : Fin cap) : slot i 0 = i := Fin.ext (Nat.mod_eq_of_lt i.2)

@[simp] theorem slot_slot (i : Fin cap) (m n : Nat) : slot (slot i m) n = slot i (m + n) := by
  refine Fin.ext ?_
  simp only [slot_val, Nat.mod_add_mod, Nat.add_assoc]

/-- Slots fewer than a turn apart are different. -/
theorem slot_inj {i : Fin cap} {m n : Nat} (hm : m < cap) (hn : n < cap) : slot i m = slot i n ↔ m = n := by
  refine ⟨fun h => ?_, fun h => by rw [h]⟩
  have hv : (i + m) % cap = (i + n) % cap := congrArg Fin.val h
  have hmod : m % cap = n % cap := Nat.ModEq.add_left_cancel' (i : Nat) hv
  rwa [Nat.mod_eq_of_lt hm, Nat.mod_eq_of_lt hn] at hmod

theorem length_lt (r : RingBuf α cap) : r.length < cap := Nat.mod_lt _ r.head.pos

/-- The tail is as far from the head as there are elements. -/
theorem slot_length (r : RingBuf α cap) : slot r.head r.length = r.tail := by
  refine Fin.ext ?_
  have hle : (r.head : Nat) ≤ r.tail + cap := Nat.le_trans (Nat.le_of_lt r.head.2) (Nat.le_add_left _ _)
  rw [slot_val, length, Nat.add_mod_mod, Nat.add_sub_cancel' hle, Nat.add_mod_right, Nat.mod_eq_of_lt r.tail.2]

/-- A ring whose tail is `n` places after its head has `n` elements. -/
theorem length_of_slot {r : RingBuf α cap} {n : Nat} (hn : n < cap) (h : slot r.head n = r.tail) : r.length = n := by
  rw [← slot_length] at h
  exact ((slot_inj hn r.length_lt).mp h).symm

theorem isFull_iff (r : RingBuf α cap) : r.isFull = true ↔ r.length + 1 = cap := by
  rw [isFull, beq_iff_eq, ← slot_length, slot_slot]
  have hlt := r.length_lt
  constructor
  · intro h
    by_contra hne
    rw [← slot_zero r.head, slot_slot, Nat.zero_add, slot_inj (by omega) (by omega)] at h
    omega
  · intro h
    refine Fin.ext ?_
    rw [slot_val, h, Nat.add_mod_right, Nat.mod_eq_of_lt r.head.2]

/-! ## Contents -/

@[simp] theorem length_contents (r : RingBuf α cap) : r.contents.length = r.length := by simp [contents]

/-- A ring whose head is its tail is empty. -/
theorem contents_eq_nil {r : RingBuf α cap} (h : r.head = r.tail) : r.contents = [] := by
  rw [← List.length_eq_zero_iff, length_contents]
  exact length_of_slot r.head.pos (by rw [slot_zero, h])

theorem push_contents {r r' : RingBuf α cap} {a : α} (h : r.push a = some r') : r'.contents = r.contents ++ [a] := by
  unfold push at h
  split at h
  · cases h
  next hf =>
  cases h
  rw [isFull_iff] at hf
  have hlt := r.length_lt
  -- One element more, the old ones where they were.
  have hlen : ({ r with buf := Function.update r.buf r.tail a, tail := slot r.tail 1 } : RingBuf α cap).length =
      r.length + 1 := by
    refine length_of_slot (by omega) ?_
    change slot r.head (r.length + 1) = slot r.tail 1
    rw [← slot_slot, slot_length]
  simp only [contents, hlen, List.range_succ, List.map_append, List.map_singleton, slot_length, Function.update_self]
  congr 1
  refine List.map_congr_left fun i hi => ?_
  rw [List.mem_range] at hi
  refine Function.update_of_ne (fun he => ?_) _ _
  rw [← slot_length, slot_inj (by omega) hlt] at he
  omega

theorem pop_contents {r r' : RingBuf α cap} {a : α} (h : r.pop = some (a, r')) : r.contents = a :: r'.contents := by
  unfold pop at h
  split at h
  · cases h
  next hne =>
  cases h
  have hlt := r.length_lt
  have hpos : r.length ≠ 0 := fun h0 => hne (by rw [← slot_length, h0, slot_zero])
  obtain ⟨n, hn⟩ := Nat.exists_eq_succ_of_ne_zero hpos
  have hlen : ({ r with head := slot r.head 1 } : RingBuf α cap).length = n := by
    refine length_of_slot (by omega) ?_
    rw [slot_slot, Nat.add_comm, ← Nat.succ_eq_add_one, ← hn, slot_length]
  simp only [contents, hlen, hn, Nat.succ_eq_add_one, List.range_succ_eq_map, List.map_cons, slot_zero, List.map_map,
    Function.comp_def, slot_slot, Nat.add_comm 1]

theorem contents_of_pop_none {r : RingBuf α cap} (h : r.pop = none) : r.contents = [] := by
  unfold pop at h
  split at h
  · next he => exact contents_eq_nil he
  · cases h

/-- Pops return what is in the ring, in order. -/
theorem drain_eq (n : Nat) (r : RingBuf α cap) : r.drain n = r.contents.take n := by
  induction n generalizing r with
  | zero => rfl
  | succ n ih =>
    rw [drain]
    split
    · next h => rw [contents_of_pop_none h, List.take_nil]
    · next h => rw [pop_contents h, List.take_succ_cons, ih]

/-- As many pops as there are slots return all of it. -/
theorem drain_cap (r : RingBuf α cap) : r.drain cap = r.contents := by
  rw [drain_eq, List.take_of_length_le]
  rw [length_contents]
  exact Nat.le_of_lt r.length_lt

/-! ## As a queue with a bound -/

theorem push_eq_none_iff {r : RingBuf α cap} {a : α} : r.push a = none ↔ r.isFull = true := by
  unfold push
  split <;> simp [*]

/-- A full ring drops what is pushed, any other appends it. -/
theorem contents_push_getD (r : RingBuf α cap) (a : α) :
    ((r.push a).getD r).contents = if r.isFull then r.contents else r.contents ++ [a] := by
  cases h : r.push a with
  | none => rw [Option.getD_none, if_pos (push_eq_none_iff.mp h)]
  | some r' =>
    have hfull : ¬r.isFull = true := fun hf => by
      rw [push_eq_none_iff.mpr hf] at h
      cases h
    rw [Option.getD_some, if_neg hfull, push_contents h]

/-- There is room for as many elements as there are slots, but one. -/
theorem not_isFull (r : RingBuf α cap) : (!r.isFull) = decide (r.contents.length < cap - 1) := by
  have hlt := r.length_lt
  rw [length_contents, Bool.eq_iff_iff, decide_eq_true_iff, Bool.not_eq_true', ← Bool.not_eq_true, r.isFull_iff]
  omega

end RingBuf
