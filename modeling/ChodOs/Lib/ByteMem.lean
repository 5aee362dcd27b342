/-
Byte-addressed memory: reading and writing runs of bytes, and numbers
stored in them in little-endian order.
-/
import Mathlib.Algebra.Ring.Nat
import Mathlib.Data.List.Basic

/-- Memory as a byte at every address. -/
abbrev ByteMem := Nat → UInt8

namespace ByteMem

/-- The `n` bytes from `a`. -/
def read (m : ByteMem) (a n : Nat) : List UInt8 := (List.range n).map fun i => m (a + i)

/-- `bs` stored from `a`. -/
def write (m : ByteMem) (a : Nat) (bs : List UInt8) : ByteMem := fun x =>
  if a ≤ x then (bs[x - a]?).getD (m x) else m x

@[simp] theorem length_read (m : ByteMem) (a n : Nat) : (m.read a n).length = n := by simp [read]

theorem write_outside {m : ByteMem} {a : Nat} {bs : List UInt8} {x : Nat} (h : x < a ∨ a + bs.length ≤ x) :
    m.write a bs x = m x := by
  unfold write
  split
  · rw [List.getElem?_eq_none (by omega)]; rfl
  · rfl

theorem write_nil (m : ByteMem) (a : Nat) : m.write a [] = m := funext fun x => write_outside (by simp; omega)

theorem write_cons (m : ByteMem) (a : Nat) (b : UInt8) (bs : List UInt8) :
    m.write a (b :: bs) = (m.write a [b]).write (a + 1) bs := by
  funext x
  rcases Nat.lt_trichotomy x a with hx | rfl | hx
  · rw [write_outside (.inl hx), write_outside (.inl (by omega)), write_outside (.inl hx)]
  · rw [@write_outside (m.write x [b]) _ _ _ (.inl (by omega))]
    simp [write]
  · have hi : x - a = x - (a + 1) + 1 := by omega
    rw [write, if_pos (by omega), write, if_pos (by omega), hi, List.getElem?_cons_succ, write_outside (.inr hx)]

theorem read_congr {m m' : ByteMem} {a n : Nat} (h : ∀ x, a ≤ x → x < a + n → m' x = m x) :
    m'.read a n = m.read a n := by
  simp only [read, List.map_inj_left, List.mem_range]
  exact fun i hi => h _ (by omega) (by omega)

/-- A write leaves every run of bytes it does not meet. -/
theorem read_write_of_disjoint {m : ByteMem} {a b n : Nat} {bs : List UInt8}
    (h : a + n ≤ b ∨ b + bs.length ≤ a) : (m.write b bs).read a n = m.read a n :=
  read_congr fun _ _ _ => write_outside (by omega)

/-- Reading the start of what was written. -/
theorem read_write_take {m : ByteMem} {a n : Nat} {bs : List UInt8} (h : n ≤ bs.length) :
    (m.write a bs).read a n = bs.take n := by
  refine List.ext_getElem (by simp [h]) fun i hi hi' => ?_
  have hib : i < bs.length := by simp at hi; omega
  simp [read, write, hib]

theorem read_take {m : ByteMem} {a n k : Nat} (h : k ≤ n) : (m.read a n).take k = m.read a k := by
  simp [read, ← List.map_take, List.take_range, Nat.min_eq_left h]

theorem read_add {m : ByteMem} {a n k : Nat} : m.read a (n + k) = m.read a n ++ m.read (a + n) k := by
  simp only [read, List.range_add, List.map_append, List.map_map]
  refine congrArg _ (List.map_congr_left fun i _ => ?_)
  rw [Function.comp_apply, Nat.add_assoc]

/-! ## Runs of given bytes -/

/-- The bytes `bs` are at `a`. -/
def Holds (m : ByteMem) (a : Nat) (bs : List UInt8) : Prop := m.read a bs.length = bs

theorem holds_append {m : ByteMem} {a : Nat} {bs cs : List UInt8} :
    m.Holds a (bs ++ cs) ↔ m.Holds a bs ∧ m.Holds (a + bs.length) cs := by
  rw [Holds, List.length_append, read_add]
  exact ⟨fun h => List.append_inj h (by simp), fun ⟨hb, hc⟩ => congrArg₂ _ hb hc⟩

theorem holds_singleton {m : ByteMem} {a : Nat} {b : UInt8} : m.Holds a [b] ↔ m a = b := by
  simp [Holds, read]

theorem holds_write {m : ByteMem} {a : Nat} {bs : List UInt8} : (m.write a bs).Holds a bs := by
  rw [Holds, read_write_take (Nat.le_refl _), List.take_length]

theorem Holds.congr {m m' : ByteMem} {a : Nat} {bs : List UInt8} (h : m.Holds a bs)
    (hsame : ∀ x, a ≤ x → x < a + bs.length → m' x = m x) : m'.Holds a bs := (read_congr hsame).trans h

/-! ## Bytes given by a function -/

/-- The `n` bytes from `a` replaced by `f 0`, `f 1` and so on. -/
def patch (m : ByteMem) (a n : Nat) (f : Nat → UInt8) : ByteMem := fun x =>
  if a ≤ x ∧ x < a + n then f (x - a) else m x

theorem patch_outside {m : ByteMem} {a n x : Nat} {f : Nat → UInt8} (h : x < a ∨ a + n ≤ x) :
    m.patch a n f x = m x := if_neg (by omega)

theorem patch_inside {m : ByteMem} {a n i : Nat} {f : Nat → UInt8} (h : i < n) : m.patch a n f (a + i) = f i := by
  rw [patch, if_pos (by omega), Nat.add_sub_cancel_left]

/-! ## Little-endian numbers -/

/-- The number in the `n` bytes from `a`. -/
def le (m : ByteMem) (a : Nat) : Nat → Nat
  | 0 => 0
  | n + 1 => (m a).toNat + 256 * le m (a + 1) n

/-- The bytes of a number. -/
def leByte (v i : Nat) : UInt8 := UInt8.ofNat (v / 256 ^ i)

theorem le_lt (m : ByteMem) (a n : Nat) : m.le a n < 256 ^ n := by
  induction n generalizing a with
  | zero => simp [le]
  | succ n ih =>
    have hb := (m a).toNat_lt
    have hr := ih (a + 1)
    rw [le, Nat.pow_succ]
    omega

theorem le_congr {m m' : ByteMem} {a n : Nat} (h : ∀ x, a ≤ x → x < a + n → m' x = m x) : m'.le a n = m.le a n := by
  induction n generalizing a with
  | zero => rfl
  | succ n ih =>
    rw [le, le, h a (Nat.le_refl a) (by omega), ih fun x hx hx' => h x (by omega) (by omega)]

theorem le_of_bytes_eq {m m' : ByteMem} {a b n : Nat} (h : ∀ i < n, m' (a + i) = m (b + i)) : m'.le a n = m.le b n := by
  induction n generalizing a b with
  | zero => rfl
  | succ n ih =>
    have h0 : m' a = m b := h 0 (by omega)
    rw [le, le, h0, ih fun i hi => ?_]
    rw [Nat.add_assoc, Nat.add_assoc, Nat.add_comm 1 i]
    exact h (i + 1) (by omega)

theorem le_of_bytes {m : ByteMem} {a n v : Nat} (h : ∀ i < n, m (a + i) = leByte v i) : m.le a n = v % 256 ^ n := by
  induction n generalizing a v with
  | zero => simp [le, Nat.mod_one]
  | succ n ih =>
    have hrest : m.le (a + 1) n = v / 256 % 256 ^ n := by
      refine ih fun i hi => ?_
      rw [Nat.add_assoc, Nat.add_comm 1 i, h (i + 1) (by omega), leByte, leByte, Nat.pow_succ', Nat.div_div_eq_div_mul]
    have hfirst : (m a).toNat = v % 256 := by
      have h0 := h 0 (by omega)
      rw [Nat.add_zero] at h0
      rw [h0, leByte, Nat.pow_zero, Nat.div_one, UInt8.toNat_ofNat']
    rw [le, hrest, hfirst, Nat.pow_succ', Nat.mod_mul]

/-- `to_le_bytes` of a number of `n` bytes. -/
def leBytes (n v : Nat) : List UInt8 := (List.range n).map (leByte v)

@[simp] theorem length_leBytes (n v : Nat) : (leBytes n v).length = n := by simp [leBytes]

theorem Holds.le {m : ByteMem} {a n v : Nat} (h : m.Holds a (leBytes n v)) : m.le a n = v % 256 ^ n := by
  refine le_of_bytes fun i hi => ?_
  rw [Holds, length_leBytes, read, leBytes, List.map_inj_left] at h
  exact h i (List.mem_range.mpr hi)

/-- What is stored is read back. -/
theorem le_patch {m : ByteMem} {a n v : Nat} (h : v < 256 ^ n) : (m.patch a n (leByte v)).le a n = v := by
  rw [le_of_bytes (v := v) fun i hi => patch_inside hi, Nat.mod_eq_of_lt h]

/-- A store leaves the numbers it does not meet. -/
theorem le_patch_of_disjoint {m : ByteMem} {a n b k : Nat} {f : Nat → UInt8} (h : a + n ≤ b ∨ b + k ≤ a) :
    (m.patch b k f).le a n = m.le a n := le_congr fun _ _ _ => patch_outside (by omega)

/-- Zeroed bytes are the number zero. -/
theorem le_zero {m : ByteMem} {a n : Nat} (h : ∀ x, a ≤ x → x < a + n → m x = 0) : m.le a n = 0 := by
  induction n generalizing a with
  | zero => rfl
  | succ n ih =>
    rw [le, h a (Nat.le_refl a) (by omega), ih fun x hx hx' => h x (by omega) (by omega)]
    rfl

/-! ## Words of 64 bits -/

/-- `*(a as *const u64)`. -/
def word (m : ByteMem) (a : Nat) : Nat := m.le a 8

/-- `*(a as *mut u64) = v`. -/
def setWord (m : ByteMem) (a v : Nat) : ByteMem := m.patch a 8 (leByte v)

theorem word_lt (m : ByteMem) (a : Nat) : m.word a < 2 ^ 64 := m.le_lt a 8

theorem word_congr {m m' : ByteMem} {a : Nat} (h : ∀ x, a ≤ x → x < a + 8 → m' x = m x) : m'.word a = m.word a :=
  le_congr h

theorem word_zero {m : ByteMem} {a : Nat} (h : ∀ x, a ≤ x → x < a + 8 → m x = 0) : m.word a = 0 := le_zero h

theorem word_of_bytes_eq {m m' : ByteMem} {a b : Nat} (h : ∀ i < 8, m' (a + i) = m (b + i)) : m'.word a = m.word b :=
  le_of_bytes_eq h

theorem setWord_outside {m : ByteMem} {a v x : Nat} (h : x < a ∨ a + 8 ≤ x) : m.setWord a v x = m x :=
  patch_outside h

@[simp] theorem word_setWord_self (m : ByteMem) (a v : Nat) : (m.setWord a v).word a = v % 2 ^ 64 :=
  le_of_bytes fun _ hi => patch_inside hi

theorem word_setWord_of_disjoint {m : ByteMem} {a b v : Nat} (h : a + 8 ≤ b ∨ b + 8 ≤ a) :
    (m.setWord b v).word a = m.word a := le_patch_of_disjoint h

theorem setWord_comm {m : ByteMem} {a b v w : Nat} (h : a + 8 ≤ b ∨ b + 8 ≤ a) :
    (m.setWord a v).setWord b w = (m.setWord b w).setWord a v := by
  funext x
  simp only [setWord, patch]
  split <;> split <;> first | rfl | omega

attribute [irreducible] word setWord

/-! ## Several words -/

/-- `vs` stored from `a`, eight bytes each. -/
def setWords (m : ByteMem) : Nat → List Nat → ByteMem
  | _, [] => m
  | a, v :: vs => (m.setWord a v).setWords (a + 8) vs

theorem setWords_outside {m : ByteMem} {a x : Nat} {vs : List Nat} (h : x < a ∨ a + 8 * vs.length ≤ x) :
    m.setWords a vs x = m x := by
  induction vs generalizing m a with
  | nil => rfl
  | cons v vs ih =>
    rw [List.length_cons] at h
    rw [setWords, ih (by omega), setWord_outside (by omega)]

theorem word_setWords_of_disjoint {m : ByteMem} {a b : Nat} {vs : List Nat} (h : a + 8 ≤ b ∨ b + 8 * vs.length ≤ a) :
    (m.setWords b vs).word a = m.word a := word_congr fun _ _ _ => setWords_outside (by omega)

/-- The word stored at place `i` is read back. -/
theorem word_setWords {m : ByteMem} {a i v : Nat} {vs : List Nat} (h : vs[i]? = some v) :
    (m.setWords a vs).word (a + 8 * i) = v % 2 ^ 64 := by
  induction vs generalizing m a i with
  | nil => cases h
  | cons w vs ih =>
    cases i with
    | zero =>
      obtain rfl : w = v := Option.some.inj h
      rw [setWords, word_setWords_of_disjoint (by omega), Nat.mul_zero, Nat.add_zero, word_setWord_self]
    | succ i =>
      rw [setWords, show a + 8 * (i + 1) = a + 8 + 8 * i by omega]
      exact ih h

theorem setWords_setWord {m : ByteMem} {a b v : Nat} {vs : List Nat} (h : b + 8 ≤ a ∨ a + 8 * vs.length ≤ b) :
    (m.setWord b v).setWords a vs = (m.setWords a vs).setWord b v := by
  induction vs generalizing m a with
  | nil => rfl
  | cons w vs ih =>
    rw [List.length_cons] at h
    rw [setWords, setWords, setWord_comm (by omega), ih (by omega)]

theorem setWords_append {m : ByteMem} {a : Nat} {vs ws : List Nat} :
    m.setWords a (vs ++ ws) = (m.setWords a vs).setWords (a + 8 * vs.length) ws := by
  induction vs generalizing m a with
  | nil => rfl
  | cons v vs ih =>
    rw [List.cons_append, setWords, ih, setWords, List.length_cons]
    congr 1
    omega

end ByteMem
