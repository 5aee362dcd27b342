/-
Tables of which the first `len` slots are in use: what the loops and writes
of such a table do to the list of these slots, `held`.
-/
import ChodOs.Lib.Slots

structure Filled (α : Type) (n : Nat) where
  slots : Table α n
  len : Nat
  len_le : len ≤ n

namespace Filled

variable {α : Type} {n : Nat}

def new (z : α) : Filled α n := ⟨.fill n z, 0, Nat.zero_le n⟩

/-- The slots that are in use. -/
def held (t : Filled α n) : List α := t.slots.1.take t.len

/-- Where the loop `for i in 0..len { if p(slots[i]) { .. } }` stops. -/
def find (p : α → Bool) (t : Filled α n) : Option Nat := Slots.firstUp (fun i => t.slots.1[i]?.any p) t.len 0

def modify (t : Filled α n) (i : Nat) (f : α → α) : Filled α n := { t with slots := t.slots.modify i f }

def set (t : Filled α n) (i : Nat) (a : α) : Filled α n := { t with slots := t.slots.set i a }

/-- `slots[len] = a; len += 1`. -/
def push (t : Filled α n) (a : α) (h : t.len < n) : Filled α n :=
  { slots := t.slots.set t.len a, len := t.len + 1, len_le := h }

/-- `len -= 1; slots[i] = slots[len]; slots[len] = z`. -/
def swapRemove (z : α) (t : Filled α n) (i : Nat) : Filled α n where
  slots := ((t.slots.1[t.len - 1]?).elim t.slots fun b => t.slots.set i b).set (t.len - 1) z
  len := t.len - 1
  len_le := Nat.le_trans (Nat.sub_le _ _) t.len_le

/-- The loop `while i < len { if p(slots[i]) { swap_remove(i) } else { i += 1 } }`;
`none`: it is not left within so many turns. -/
def removeWhere (p : α → Bool) (z : α) : Nat → Nat → Filled α n → Option (Filled α n)
  | 0, i, t => if i < t.len then none else some t
  | turns + 1, i, t =>
    if i < t.len then do
      let a ← t.slots.1[i]?
      if p a then removeWhere p z turns i (t.swapRemove z i) else removeWhere p z turns (i + 1) t
    else some t

variable {t : Filled α n} {p : α → Bool} {i j : Nat} {a z : α}

@[simp] theorem length_held (t : Filled α n) : t.held.length = t.len := by
  rw [held, List.length_take, t.slots.2, Nat.min_eq_left t.len_le]

theorem getElem?_held (hi : i < t.len) : t.held[i]? = t.slots.1[i]? := List.getElem?_take_of_lt hi

/-- A table in full use. -/
theorem held_of_full (h : ¬ t.len < n) : t.held = t.slots.1 := by
  refine List.take_of_length_le ?_
  rw [t.slots.2]
  omega

/-- The loop finds the first slot in use that passes. -/
theorem find_eq (p : α → Bool) (t : Filled α n) : t.find p = t.held.findIdx? p := by
  cases hfind : t.find p with
  | none =>
    refine (List.findIdx?_eq_none_iff.mpr fun a ha => ?_).symm
    obtain ⟨j, hj⟩ := List.mem_iff_getElem?.mp ha
    have hlt : j < t.len := t.length_held ▸ (List.getElem?_eq_some_iff.mp hj).1
    have hno := Slots.firstUp_none hfind (Nat.zero_le j) (by omega)
    rwa [← getElem?_held hlt, hj, Option.any_some] at hno
  | some i =>
    obtain ⟨hlt, hhit⟩ := Slots.firstUp_some hfind
    have hi : i < t.held.length := by rw [t.length_held]; omega
    refine (List.findIdx?_eq_some_iff_getElem.mpr ⟨hi, ?_, fun j hj => ?_⟩).symm
    · rwa [← getElem?_held (by omega), List.getElem?_eq_getElem hi, Option.any_some] at hhit
    · have hmiss := Slots.firstUp_least hfind (Nat.zero_le j) hj
      rw [← getElem?_held (by omega), List.getElem?_eq_getElem (by omega), Option.any_some] at hmiss
      exact Bool.not_eq_true _ ▸ hmiss

/-- What is found is a slot in use that passes, and the first one. -/
theorem find_some (h : t.find p = some i) : ∃ a, t.held[i]? = some a ∧ t.held.find? p = some a := by
  rw [find_eq] at h
  obtain ⟨hi, hhit, hleast⟩ := List.findIdx?_eq_some_iff_getElem.mp h
  exact ⟨t.held[i], List.getElem?_eq_getElem hi, List.find?_eq_some_iff_getElem.mpr ⟨hhit, i, hi, rfl, fun j hj => by
    simpa using hleast j hj⟩⟩

theorem find_none (h : t.find p = none) : t.held.find? p = none := by
  rw [find_eq, List.findIdx?_eq_none_iff] at h
  exact List.find?_eq_none.mpr fun a ha => by simpa using h a ha

theorem held_modify (t : Filled α n) (i : Nat) (f : α → α) : (t.modify i f).held = t.held.modify i f := by
  change (t.slots.1.modify i f).take t.len = (t.slots.1.take t.len).modify i f
  refine List.ext_getElem? fun j => ?_
  rw [List.getElem?_take, List.getElem?_modify, List.getElem?_modify, List.getElem?_take]
  split
  · rfl
  · split <;> rfl

/-- The first slot that passes is rewritten. -/
theorem held_modify_find {f : α → α} (h : t.find p = some i) : (t.modify i f).held = Slots.updateFirst p f t.held := by
  rw [held_modify, Slots.updateFirst_eq_modify, ← find_eq, h]
  rfl

theorem held_set (t : Filled α n) (i : Nat) (a : α) : (t.set i a).held = t.held.set i a := List.take_set

theorem held_push (h : t.len < n) : (t.push a h).held = t.held ++ [a] := by
  have hlen := t.len_le
  have hsize := t.slots.2
  change (t.slots.1.set t.len a).take (t.len + 1) = t.slots.1.take t.len ++ [a]
  rw [List.take_add_one, List.getElem?_set_self (by omega), List.take_set_of_le (Nat.le_refl _)]
  rfl

theorem held_swapRemove (z : α) (hi : i < t.len) : (t.swapRemove z i).held = Slots.swapRemove i t.held := by
  have hlen := t.len_le
  have hsize := t.slots.2
  obtain ⟨b, hb⟩ : ∃ b, t.slots.1[t.len - 1]? = some b := ⟨_, List.getElem?_eq_getElem (by omega)⟩
  have hlast : t.held.getLast? = some b := by
    rw [List.getLast?_eq_getElem?, length_held, getElem?_held (by omega), hb]
  rw [Slots.swapRemove, hlast, Option.elim_some, ← held_set, List.dropLast_eq_take, length_held]
  simp only [held, swapRemove, hb, Option.elim_some]
  change ((t.slots.1.set i b).set (t.len - 1) z).take (t.len - 1) = ((t.slots.1.set i b).take t.len).take (t.len - 1)
  rw [List.take_set_of_le (Nat.le_refl _), List.take_take, Nat.min_eq_left (Nat.sub_le _ _)]

/-- Every slot out of use has `z` in it. -/
def Blank (z : α) (t : Filled α n) : Prop := ∀ j, t.len ≤ j → j < n → t.slots.1[j]? = some z

theorem Blank.new (z : α) : Blank z (new z : Filled α n) := fun _ _ hj => List.getElem?_replicate_of_lt hj

theorem Blank.swapRemove (hz : Blank z t) (hi : i < t.len) : Blank z (t.swapRemove z i) := by
  intro j hle hj
  have hsize := t.slots.2
  obtain ⟨b, hb⟩ : ∃ b, t.slots.1[t.len - 1]? = some b := by
    have hlen := t.len_le
    exact ⟨_, List.getElem?_eq_getElem (by omega)⟩
  simp only [Filled.swapRemove, hb, Option.elim_some] at hle ⊢
  change ((t.slots.1.set i b).set (t.len - 1) z)[j]? = some z
  rcases Nat.eq_or_lt_of_le hle with rfl | hlt
  · rw [List.getElem?_set_self (by rw [List.length_set]; omega)]
  · rw [List.getElem?_set_ne (by omega), List.getElem?_set_ne (by omega)]
    exact hz j (by omega) hj

theorem Blank.push (hz : Blank z t) (h : t.len < n) : Blank z (t.push a h) := by
  intro j hle hj
  change (t.slots.1.set t.len a)[j]? = some z
  have hlt : t.len + 1 ≤ j := hle
  rw [List.getElem?_set_ne (by omega)]
  exact hz j (by omega) hj

theorem Blank.modify (hz : Blank z t) {f : α → α} (hi : i < t.len) : Blank z (t.modify i f) := by
  intro j hle hj
  have hlt : t.len ≤ j := hle
  change (t.slots.1.modify i f)[j]? = some z
  rw [List.getElem?_modify, hz j hlt hj, Option.map_eq_map, Option.map_some, if_neg (by omega)]

theorem Blank.set (hz : Blank z t) (hi : i < t.len) : Blank z (t.set i a) := by
  intro j hle hj
  have hlt : t.len ≤ j := hle
  change (t.slots.1.set i a)[j]? = some z
  rw [List.getElem?_set_ne (by omega)]
  exact hz j hlt hj

/-- With a turn for each slot in use the loop is left, and has done what it does to the list. -/
theorem removeWhere_spec (p : α → Bool) (z : α) {turns : Nat} (h : t.len ≤ i + turns) : ∃ t',
    removeWhere p z turns i t = some t' ∧ t'.held = Slots.dropWhere p turns i t.held ∧ (Blank z t → Blank z t') := by
  induction turns generalizing i t with
  | zero => exact ⟨t, if_neg (by omega), rfl, id⟩
  | succ turns ih =>
    rw [removeWhere, Slots.dropWhere]
    by_cases hi : i < t.len
    · have hlt : i < t.held.length := by
        rw [t.length_held]
        exact hi
      rw [if_pos hi, ← getElem?_held hi, List.getElem?_eq_getElem hlt, Option.bind_eq_bind, Option.bind_some]
      simp only
      split
      · obtain ⟨t', hrun, hheld, hblank⟩ := @ih (t.swapRemove z i) i (show t.len - 1 ≤ i + turns by omega)
        exact ⟨t', hrun, held_swapRemove z hi ▸ hheld, fun hz => hblank (hz.swapRemove hi)⟩
      · exact ih (by omega)
    · rw [if_neg hi, List.getElem?_eq_none (by rw [t.length_held]; omega)]
      exact ⟨t, rfl, rfl, id⟩

/-- More turns change nothing. -/
theorem removeWhere_mono {turns more : Nat} {t' : Filled α n} (h : removeWhere p z turns i t = some t')
    (hle : turns ≤ more) : removeWhere p z more i t = some t' := by
  induction turns generalizing more i t with
  | zero =>
    rw [removeWhere] at h
    split at h
    · cases h
    · next hi => cases more <;> rw [removeWhere, if_neg hi] <;> exact h
  | succ turns ih =>
    obtain ⟨more, rfl⟩ := Nat.exists_eq_add_of_le' (Nat.le_trans (Nat.succ_le_succ (Nat.zero_le _)) hle)
    rw [removeWhere] at h ⊢
    split at h
    · next hi =>
      obtain ⟨a, ha, h⟩ := Option.bind_eq_some_iff.mp h
      rw [if_pos hi, ha, Option.bind_eq_bind, Option.bind_some]
      split at h
      · next hp => rw [if_pos hp]; exact ih h (by omega)
      · next hp => rw [if_neg hp]; exact ih h (by omega)
    · next hi => rw [if_neg hi]; exact h

end Filled
