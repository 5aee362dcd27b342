/-
Going around `n` places. A search that starts after the place it last found
goes through the marked places in one cyclic order, for ever.
-/
import Mathlib.Data.List.Rotate

namespace Cyclic

variable {α : Type}

/-! ## Scans -/

/-- The places from `c` on, around to the one before it. -/
def scan (n c : Nat) : List Nat := (List.range n).map fun i => (c + i) % n

@[simp] theorem length_scan (n c : Nat) : (scan n c).length = n := by simp [scan]

theorem scan_rotate (n c k : Nat) : (scan n c).rotate k = scan n (c + k) := by
  refine List.ext_getElem (by simp) fun i hi _ => ?_
  rw [List.getElem_rotate]
  simp only [scan, List.getElem_map, List.getElem_range, List.length_map, List.length_range, Nat.add_mod_mod]
  rw [Nat.add_comm i k, Nat.add_assoc]

theorem scan_mod_add (n c k : Nat) : scan n (c % n + k) = scan n (c + k) := by
  refine List.map_congr_left fun i _ => ?_
  rw [Nat.add_assoc, Nat.mod_add_mod, Nat.add_assoc]

/-- It goes through all of them. -/
theorem scan_perm (n c : Nat) : (scan n c).Perm (List.range n) := by
  have hzero : scan n 0 = List.range n := by
    refine List.ext_getElem (by simp) fun i hi _ => ?_
    rw [length_scan] at hi
    simp only [scan, List.getElem_map, List.getElem_range, Nat.zero_add, Nat.mod_eq_of_lt hi]
  rw [← Nat.zero_add c, ← scan_rotate, hzero]
  exact List.rotate_perm _ _

/-- A scan that starts after the first marked place of another sees the same ones, that place last. -/
theorem filter_scan_next {P : Nat → Bool} {n c a : Nat} {rest : List Nat} (h : (scan n c).filter P = a :: rest) :
    (scan n (a + 1)).filter P = rest ++ [a] := by
  obtain ⟨l₁, l₂, hl, hbefore, ha, hrest⟩ := List.filter_eq_cons_iff.mp h
  have hlen : l₁.length < n := by
    have := congrArg List.length hl
    simp only [length_scan, List.length_append, List.length_cons] at this
    omega
  have hplace : a = (c + l₁.length) % n := by
    have hget : (scan n c)[l₁.length]? = some a := by
      rw [hl, List.getElem?_append_right (Nat.le_refl _), Nat.sub_self, List.getElem?_cons_zero]
    simpa [scan, hlen] using hget.symm
  have hsplit : scan n (a + 1) = l₂ ++ (l₁ ++ [a]) := by
    rw [hplace, scan_mod_add, Nat.add_assoc, ← scan_rotate, hl, ← hplace,
      show l₁ ++ a :: l₂ = l₁ ++ [a] ++ l₂ by simp, show l₁.length + 1 = (l₁ ++ [a]).length by simp]
    exact List.rotate_append_length_eq _ _
  have hnone : l₁.filter P = [] := List.filter_eq_nil_iff.mpr hbefore
  rw [hsplit, List.filter_append, List.filter_append, hrest, hnone, List.nil_append, List.filter_singleton, ha, cond_true]

/-! ## Turns -/

/-- The first of a list, `m` times; each time it goes to the end. -/
def turns : Nat → List α → List α
  | 0, _ => []
  | _ + 1, [] => []
  | m + 1, a :: l => a :: turns m (l ++ [a])

theorem turns_append (m : Nat) (l₁ l₂ : List α) : turns (l₁.length + m) (l₁ ++ l₂) = l₁ ++ turns m (l₂ ++ l₁) := by
  induction l₁ generalizing l₂ with
  | nil => rw [List.length_nil, Nat.zero_add, List.nil_append, List.nil_append, List.append_nil]
  | cons a l₁ ih =>
    rw [List.length_cons, Nat.add_right_comm, List.cons_append, turns, List.append_assoc, ih, List.append_assoc]
    rfl

theorem turns_drop (k m : Nat) (l : List α) : (turns (k + m) l).drop k = turns m (l.rotate k) := by
  induction k generalizing l with
  | zero => rw [Nat.zero_add, List.drop_zero, List.rotate_zero]
  | succ k ih =>
    rw [Nat.add_right_comm]
    cases l with
    | nil => cases m <;> simp [turns]
    | cons a l => rw [turns, List.drop_succ_cons, ih, List.rotate_cons_succ]

@[simp] theorem length_turns (m : Nat) {l : List α} (h : l ≠ []) : (turns m l).length = m := by
  induction m generalizing l with
  | zero => rfl
  | succ m ih =>
    cases l with
    | nil => exact absurd rfl h
    | cons a l => rw [turns, List.length_cons, ih (by simp)]

/-- As many consecutive turns as there are elements are one turn for each. -/
theorem turns_window {k m : Nat} {l : List α} (h : k + l.length ≤ m) : (((turns m l).drop k).take l.length).Perm l := by
  obtain ⟨m', rfl⟩ := Nat.exists_eq_add_of_le h
  have hround := turns_append m' (l.rotate k) []
  rw [List.length_rotate, List.append_nil, List.nil_append] at hround
  rw [Nat.add_assoc, turns_drop, hround, List.take_append_of_le_length (by rw [List.length_rotate]),
    List.take_of_length_le (by rw [List.length_rotate])]
  exact List.rotate_perm _ _

end Cyclic
