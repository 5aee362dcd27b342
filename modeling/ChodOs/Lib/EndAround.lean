/-
Ones' complement arithmetic: digits of a base `b`, added with the carry
brought round to the low end. A sum of any size stands for a digit, the one
with its remainder by `b - 1`; nothing but 0 stands for 0. Bringing carries
round at the end of a sum gives the same as bringing them round in each step.
-/
import Mathlib.Algebra.Ring.Nat
import Mathlib.Data.List.Induction

namespace EndAround

variable {b s x y : Nat}

/-- The sum of two digits. -/
def add (b x y : Nat) : Nat := if x + y < b then x + y else x + y - b + 1

/-- The digit that a sum stands for. -/
def digit (b s : Nat) : Nat := if s = 0 then 0 else (s - 1) % (b - 1) + 1

/-- A sum with what is above its low digit added to that. -/
def turn (b s : Nat) : Nat := s % b + s / b

theorem digit_lt (hb : 2 ≤ b) : digit b s < b := by
  have hmod : (s - 1) % (b - 1) < b - 1 := Nat.mod_lt _ (by omega)
  unfold digit
  split
  · omega
  · omega

theorem digit_of_lt (h : s < b) : digit b s = s := by
  unfold digit
  split
  · next hs => exact hs.symm
  · rw [Nat.mod_eq_of_lt (by omega)]
    omega

/-- Sums that are not 0 stand for the same digit if `b - 1` divides their difference. -/
theorem digit_add_mul (hs : s ≠ 0) (k : Nat) : digit b (s + k * (b - 1)) = digit b s := by
  have hsub : s + k * (b - 1) - 1 = s - 1 + k * (b - 1) := by omega
  unfold digit
  rw [if_neg (by omega), if_neg hs, hsub, Nat.add_mul_mod_self_right]

/-- A sum is its digit and a multiple of `b - 1`. -/
theorem exists_eq_digit_add (s : Nat) : ∃ k, s = digit b s + k * (b - 1) := by
  by_cases hs : s = 0
  · exact ⟨0, by rw [hs, digit, if_pos rfl, Nat.zero_mul]⟩
  · refine ⟨(s - 1) / (b - 1), ?_⟩
    have hdiv := Nat.mod_add_div' (s - 1) (b - 1)
    unfold digit
    rw [if_neg hs]
    omega

theorem digit_eq_zero : digit b s = 0 ↔ s = 0 := by
  unfold digit
  split
  · next hs => exact iff_of_true rfl hs
  · next hs => exact iff_of_false (Nat.succ_ne_zero _) hs

/-- A sum and one with its parts put to digits stand for the same digit. -/
theorem digit_add_digit (s t : Nat) : digit b (digit b s + t) = digit b (s + t) := by
  obtain ⟨k, hk⟩ := exists_eq_digit_add (b := b) s
  by_cases hs : digit b s + t = 0
  · have h0 : s = 0 := digit_eq_zero.mp (Nat.eq_zero_of_add_eq_zero_right hs)
    rw [h0, digit_eq_zero.mpr rfl]
  · have hst : s + t = digit b s + t + k * (b - 1) := by omega
    rw [hst, digit_add_mul hs]

theorem add_eq_digit (hx : x < b) (hy : y < b) : add b x y = digit b (x + y) := by
  unfold add
  split
  · next h => exact (digit_of_lt h).symm
  · next h =>
    have hxy : x + y = x + y - b + 1 + 1 * (b - 1) := by omega
    rw [hxy, digit_add_mul (Nat.succ_ne_zero _), digit_of_lt (by omega), ← hxy]

/-- Adding digits one by one gives the digit of the sum. -/
theorem foldl_add (hb : 2 ≤ b) {l : List Nat} (hl : ∀ x ∈ l, x < b) : l.foldl (add b) 0 = digit b l.sum := by
  induction l using List.reverseRecOn with
  | nil => rfl
  | append_singleton l x ih =>
    have hx : x < b := hl x (List.mem_append_right _ List.mem_cons_self)
    rw [List.foldl_append, List.foldl_cons, List.foldl_nil, ih fun y hy => hl y (List.mem_append_left _ hy),
      add_eq_digit (digit_lt hb) hx, digit_add_digit, List.sum_append, List.sum_singleton]

/-! ## Folding carries -/

theorem digit_turn (hb : 2 ≤ b) (s : Nat) : digit b (turn b s) = digit b s := by
  have hdiv := Nat.mod_add_div s b
  by_cases hs : turn b s = 0
  · have h0 : s = 0 := by
      unfold turn at hs
      rw [(Nat.add_eq_zero_iff.mp hs).1, (Nat.add_eq_zero_iff.mp hs).2] at hdiv
      exact hdiv.symm
    rw [h0, turn, Nat.zero_mod, Nat.zero_div]
  · have hturn : s = turn b s + s / b * (b - 1) := by
      have hmul : b * (s / b) = s / b + s / b * (b - 1) := by
        obtain ⟨c, rfl⟩ : ∃ c, b = c + 1 := ⟨b - 1, by omega⟩
        rw [Nat.add_sub_cancel, Nat.mul_comm, Nat.mul_succ, Nat.add_comm]
      unfold turn
      omega
    conv_rhs => rw [hturn]
    exact (digit_add_mul hs _).symm

/-- Two turns bring a sum of two digits' length down to one. -/
theorem turn_turn_lt (hb : 2 ≤ b) (h : s < b * b) : turn b (turn b s) < b := by
  have hmod : s % b < b := Nat.mod_lt s (by omega)
  have hdiv : s / b < b := Nat.div_lt_of_lt_mul h
  unfold turn
  by_cases hlt : s % b + s / b < b
  · rw [Nat.mod_eq_of_lt hlt, Nat.div_eq_of_lt hlt]
    exact hlt
  · have hone : (s % b + s / b) / b = 1 := Nat.div_eq_of_lt_le (by omega) (by omega)
    rw [hone, Nat.mod_eq_sub_mod (by omega), Nat.mod_eq_of_lt (by omega)]
    omega

/-! ## Complements -/

/-- A sum and the complement of its digit make the highest digit. -/
theorem digit_add_compl (hb : 2 ≤ b) (s : Nat) : digit b (s + (b - 1 - digit b s)) = b - 1 := by
  have hlt := digit_lt (s := s) hb
  rw [← digit_add_digit, digit_of_lt (by omega)]
  omega

end EndAround
