/-
Rings between two parties that address them by free-running 16-bit indices,
each at its index modulo the size of the ring. What lies from one index to
another is a list, `between`; writing at the end index and moving it on
extends the list, moving the start index on takes the first element off.
The size divides 2^16, so that the slots stay apart when an index wraps.
-/
import Mathlib.Data.Nat.ModEq
import Mathlib.Logic.Function.Basic

namespace IndexRing

variable {α : Type} {q : Nat} {ring : Nat → α} {a b c : UInt16}

/-- The slot of an index. -/
def slot (q : Nat) (i : UInt16) : Nat := i.toNat % q

/-- How far `a` is ahead of `b`. -/
def ahead (a b : UInt16) : Nat := (a - b).toNat

/-- What is in the ring from index `b` up to index `a`. -/
def between (ring : Nat → α) (q : Nat) (b a : UInt16) : List α :=
  (List.range (ahead a b)).map fun k => ring (slot q (b + UInt16.ofNat k))

/-! ## Distance -/

theorem ahead_eq (a b : UInt16) : ahead a b = (a.toNat + 2 ^ 16 - b.toNat) % 2 ^ 16 := by
  have hb := b.toNat_lt
  rw [ahead, UInt16.toNat_sub]
  congr 1
  omega

@[simp] theorem ahead_self (a : UInt16) : ahead a a = 0 := by simp [ahead]

theorem ahead_eq_zero : ahead a b = 0 ↔ a = b := by
  have ha := a.toNat_lt
  have hb := b.toNat_lt
  rw [ahead_eq, ← UInt16.toNat_inj]
  omega

theorem ahead_succ_left (h : ahead a b + 1 < 2 ^ 16) : ahead (a + 1) b = ahead a b + 1 := by
  have hb := b.toNat_lt
  rw [ahead_eq] at h ⊢
  rw [ahead_eq, UInt16.toNat_add, UInt16.toNat_one]
  omega

theorem ahead_succ_right (h : a ≠ b) : ahead a b = ahead a (b + 1) + 1 := by
  have ha := a.toNat_lt
  have hb := b.toNat_lt
  rw [Ne, ← UInt16.toNat_inj] at h
  rw [ahead_eq, ahead_eq, UInt16.toNat_add, UInt16.toNat_one]
  omega

theorem add_ahead (a b : UInt16) : b + UInt16.ofNat (ahead a b) = a := by
  rw [ahead, UInt16.ofNat_toNat, UInt16.add_comm, UInt16.sub_add_cancel]

/-- Distances add up as long as they are less than a turn of the index. -/
theorem ahead_add (h : ahead a b + ahead c a < 2 ^ 16) : ahead c b = ahead a b + ahead c a := by
  have ha := a.toNat_lt
  have hb := b.toNat_lt
  have hc := c.toNat_lt
  rw [ahead_eq a b, ahead_eq c a] at h ⊢
  rw [ahead_eq]
  omega

/-! ## Slots -/

theorem slot_add (hq : q ∣ 2 ^ 16) (b : UInt16) (k : Nat) : slot q (b + UInt16.ofNat k) = (b.toNat + k) % q := by
  rw [slot, UInt16.toNat_add, UInt16.toNat_ofNat', Nat.add_mod_mod, Nat.mod_mod_of_dvd _ hq]

/-- Indices less than a turn apart have different slots. -/
theorem slot_inj (hq : q ∣ 2 ^ 16) {k l : Nat} (hk : k < q) (hl : l < q)
    (h : slot q (b + UInt16.ofNat k) = slot q (b + UInt16.ofNat l)) : k = l := by
  rw [slot_add hq, slot_add hq] at h
  have hmod : k % q = l % q := Nat.ModEq.add_left_cancel' b.toNat h
  rwa [Nat.mod_eq_of_lt hk, Nat.mod_eq_of_lt hl] at hmod

/-! ## The list between two indices -/

@[simp] theorem length_between : (between ring q b a).length = ahead a b := by simp [between]

@[simp] theorem between_self : between ring q a a = [] := by simp [between]

theorem between_congr {ring' : Nat → α}
    (h : ∀ k < ahead a b, ring (slot q (b + UInt16.ofNat k)) = ring' (slot q (b + UInt16.ofNat k))) :
    between ring q b a = between ring' q b a :=
  List.map_congr_left fun k hk => h k (List.mem_range.mp hk)

/-- A write at an index not before the end and within a turn of the start changes nothing. -/
theorem between_update (hq : q ∣ 2 ^ 16) (hc : ahead c b < q) (hle : ahead a b ≤ ahead c b) (x : α) :
    between (Function.update ring (slot q c) x) q b a = between ring q b a := by
  refine between_congr fun k hk => Function.update_of_ne (fun he => ?_) _ _
  rw [← add_ahead c b] at he
  have := slot_inj hq (by omega) hc he
  omega

/-- The last element is the one before the end index. -/
theorem between_succ (h : ahead a b + 1 < 2 ^ 16) :
    between ring q b (a + 1) = between ring q b a ++ [ring (slot q a)] := by
  rw [between, ahead_succ_left h, List.range_succ, List.map_append, List.map_singleton, add_ahead]
  rfl

/-- The first element is the one at the start index. -/
theorem between_pop (h : a ≠ b) : between ring q b a = ring (slot q b) :: between ring q (b + 1) a := by
  rw [between, ahead_succ_right h, List.range_succ_eq_map, List.map_cons, List.map_map]
  have hb : b + UInt16.ofNat 0 = b := by simp
  rw [hb]
  refine congrArg _ (List.map_congr_left fun k _ => congrArg (fun i => ring (slot q i)) ?_)
  rw [Nat.succ_eq_add_one, UInt16.ofNat_add, UInt16.add_comm (UInt16.ofNat k), ← UInt16.add_assoc]
  rfl

theorem between_push (hq : q ∣ 2 ^ 16) (h : ahead a b < q) (hlt : q < 2 ^ 16) (x : α) :
    between (Function.update ring (slot q a) x) q b (a + 1) = between ring q b a ++ [x] := by
  rw [between_succ (by omega), between_update hq h (Nat.le_refl _), Function.update_self]

/-- What lies from `b` to `c` is what lies to `a` between them and from there on. -/
theorem between_append (h : ahead a b + ahead c a < 2 ^ 16) :
    between ring q b c = between ring q b a ++ between ring q a c := by
  rw [between, ahead_add h, List.range_add, List.map_append, List.map_map]
  refine congrArg (between ring q b a ++ ·) (List.map_congr_left fun k _ => congrArg (fun i => ring (slot q i)) ?_)
  rw [UInt16.ofNat_add, ← UInt16.add_assoc, add_ahead]

end IndexRing
