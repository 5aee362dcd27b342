/-
Rings that overwrite: a write goes to the slot at the head, full or not, and
moves the head on. Read from the head (from the first slot, until the ring has
been filled), what is in the ring is the last that was written, in order.
-/
import ChodOs.Lib.Slots
import Mathlib.Data.List.Induction
import Mathlib.Data.Nat.ModEq

/-- `total` writes have been made; the next one goes to slot `head`. -/
structure LastRing (α : Type) (cap : Nat) where
  buf : Table α cap
  head : Nat
  total : Nat

namespace LastRing

variable {α : Type} {cap : Nat}

/-- With every slot filled with `a`, and nothing written. -/
def new (a : α) : LastRing α cap := ⟨.fill cap a, 0, 0⟩

def push (r : LastRing α cap) (a : α) : LastRing α cap :=
  { buf := r.buf.set r.head a, head := (r.head + 1) % cap, total := r.total + 1 }

def count (r : LastRing α cap) : Nat := min r.total cap

def start (r : LastRing α cap) : Nat := if cap ≤ r.total then r.head else 0

/-- The slot that is read in turn `i`. -/
def turn (r : LastRing α cap) (i : Nat) : Option α := r.buf.1[(r.start + i) % cap]?

/-- What is read, turn by turn. -/
def snapshot (r : LastRing α cap) : List α := (List.range r.count).filterMap r.turn

/-- The loop that copies it: each turn writes slot `i` of `dst`. -/
def copyTo (r : LastRing α cap) (dst : Table α cap) : Table α cap :=
  (List.range r.count).foldl (fun dst i => (r.turn i).elim dst fun a => dst.set i a) dst

variable {r : LastRing α cap} {h : List α} {a : α} {i j n : Nat}

/-- The last `cap` of `h` are in the slots of their numbers, modulo `cap`. -/
structure Holds (r : LastRing α cap) (h : List α) : Prop where
  head : r.head = h.length % cap
  total : r.total = h.length
  slots : ∀ j, j < h.length → h.length < j + cap + 1 → r.buf.1[j % cap]? = h[j]?

theorem holds_new (a : α) : Holds (new a : LastRing α cap) [] := ⟨(Nat.zero_mod cap).symm, rfl, nofun⟩

/-- Numbers less than a turn apart have different slots. -/
theorem mod_ne_of_lt (hij : i < j) (h : j < i + cap) : i % cap ≠ j % cap := by
  intro heq
  obtain ⟨k, hk⟩ := (Nat.modEq_iff_dvd' (Nat.le_of_lt hij)).mp heq
  rcases Nat.eq_zero_or_pos k with rfl | hpos
  · omega
  · have hle : cap * 1 ≤ cap * k := Nat.mul_le_mul_left cap hpos
    omega

theorem Holds.push (hcap : 0 < cap) (hr : Holds r h) (a : α) : Holds (r.push a) (h ++ [a]) := by
  have hlen : (h ++ [a]).length = h.length + 1 := List.length_append
  refine ⟨?_, ?_, fun j hj hnear => ?_⟩
  · rw [hlen, LastRing.push, hr.head, Nat.mod_add_mod]
  · rw [hlen, LastRing.push, hr.total]
  · change (r.buf.1.set r.head a)[j % cap]? = _
    rw [hr.head]
    by_cases hlast : j = h.length
    · have hslot : j % cap < r.buf.1.length := by
        rw [r.buf.2]
        exact Nat.mod_lt j hcap
      rw [← hlast, List.getElem?_set_self hslot, hlast, List.getElem?_concat_length]
    · rw [List.getElem?_set_ne (mod_ne_of_lt (by omega) (by omega)).symm, List.getElem?_append_left (by omega)]
      exact hr.slots j (by omega) (by omega)

theorem holds_foldl (hcap : 0 < cap) (a : α) (h : List α) : Holds (h.foldl LastRing.push (new a : LastRing α cap)) h := by
  induction h using List.reverseRecOn with
  | nil => exact holds_new a
  | append_singleton h x ih =>
    rw [List.foldl_append]
    exact ih.push hcap x

theorem Holds.count_eq (hr : Holds r h) : r.count = min h.length cap := by rw [count, hr.total]

/-- Turn `i` reads the element `i` places on from the oldest one that is left. -/
theorem Holds.turn_eq (hr : Holds r h) (hi : i < r.count) : r.turn i = h[h.length - r.count + i]? := by
  rw [hr.count_eq] at hi ⊢
  unfold turn start
  rw [hr.total]
  split
  · next hfull =>
    -- from the head on: the slot of the number itself
    have hmod : (r.head + i) % cap = (h.length - min h.length cap + i) % cap := by
      have hturn : h.length + i = (h.length - cap + i) + cap := by omega
      rw [hr.head, Nat.mod_add_mod, hturn, Nat.add_mod_right, Nat.min_eq_right hfull]
    rw [hmod]
    exact hr.slots _ (by omega) (by omega)
  · next hpart =>
    rw [Nat.zero_add, hr.slots i (by omega) (by omega)]
    congr 1
    omega

theorem filterMap_range {f : Nat → Option α} {l : List α} (h : ∀ i, i < l.length → f i = l[i]?) :
    (List.range l.length).filterMap f = l := by
  induction l using List.reverseRecOn with
  | nil => rfl
  | append_singleton l a ih =>
    have hlen : (l ++ [a]).length = l.length + 1 := List.length_append
    have hlast : f l.length = some a := by rw [h _ (by omega), List.getElem?_concat_length]
    rw [hlen, List.range_succ, List.filterMap_append, ih fun i hi => by
      rw [h i (by omega), List.getElem?_append_left hi], List.filterMap_cons, hlast]
    rfl

/-- The last that was written, in order. -/
theorem Holds.snapshot_eq (hr : Holds r h) : r.snapshot = h.drop (h.length - r.count) := by
  have hlen : (h.drop (h.length - r.count)).length = r.count := by
    have := hr.count_eq
    rw [List.length_drop]
    omega
  unfold snapshot
  conv_lhs => rw [← hlen]
  refine filterMap_range fun i hi => ?_
  rw [List.getElem?_drop]
  exact hr.turn_eq (hlen ▸ hi)

/-- After `n` turns of the copy, the first `n` slots are what they read. -/
theorem take_copy {f : Nat → Option α} {dst : Table α cap} (hn : n ≤ cap) (h : ∀ i, i < n → (f i).isSome = true) :
    ((List.range n).foldl (fun dst i => (f i).elim dst fun a => dst.set i a) dst).1.take n =
      (List.range n).filterMap f := by
  induction n with
  | zero => rfl
  | succ n ih =>
    obtain ⟨a, ha⟩ := Option.isSome_iff_exists.mp (h n (Nat.lt_succ_self n))
    rw [List.range_succ, List.foldl_append, List.filterMap_append, ← ih (by omega) fun i hi => h i (by omega)]
    generalize (List.range n).foldl (fun dst i => (f i).elim dst fun a => dst.set i a) dst = done
    have hlt : n < done.1.length := by rw [done.2]; omega
    simp only [List.foldl_cons, List.foldl_nil, List.filterMap_cons, List.filterMap_nil, ha, Option.elim_some]
    change (done.1.set n a).take (n + 1) = done.1.take n ++ [a]
    rw [List.take_add_one, List.getElem?_set_self hlt, List.take_set_of_le (Nat.le_refl n)]
    rfl

theorem Holds.take_copyTo (hr : Holds r h) (dst : Table α cap) : (r.copyTo dst).1.take r.count = r.snapshot := by
  refine take_copy (Nat.min_le_right _ _) fun i hi => ?_
  have := hr.count_eq
  rw [hr.turn_eq hi, List.getElem?_eq_getElem (by omega)]
  rfl

end LastRing
