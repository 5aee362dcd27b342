/-
The bytes of a file: what a write and a change of length make of them, and
what a series of changes has left at each place.
-/
import Mathlib.Data.List.Induction

namespace FileBytes

/-- `Vec::resize` with zeros. -/
def resize (data : List UInt8) (size : Nat) : List UInt8 := data.take size ++ List.replicate (size - data.length) 0

/-- `bs` stored at `pos`, in a file that is filled up with zeros if it is too short. -/
def writeAt (data : List UInt8) (pos : Nat) (bs : List UInt8) : List UInt8 :=
  let data := if data.length < pos + bs.length then resize data (pos + bs.length) else data
  data.take pos ++ bs ++ data.drop (pos + bs.length)

/-- At most `n` bytes from `pos`. -/
def slice (data : List UInt8) (pos n : Nat) : List UInt8 := (data.drop pos).take n

inductive Change
  | write (pos : Nat) (bs : List UInt8)
  | truncate (size : Nat)
  | replace (bs : List UInt8)
  deriving DecidableEq

def Change.apply (data : List UInt8) : Change → List UInt8
  | .write pos bs => writeAt data pos bs
  | .truncate size => resize data size
  | .replace bs => bs

/-- What a change leaves at place `i` that had `b`; `none` is beyond the end. -/
def Change.leaves (c : Change) (i : Nat) (b : Option UInt8) : Option UInt8 :=
  match c with
  | .write pos bs =>
    if i < pos then some (b.getD 0)
    else if i < pos + bs.length then bs[i - pos]?
    else b
  | .truncate size => if i < size then some (b.getD 0) else none
  | .replace bs => bs[i]?

/-- What the changes, the oldest first, have left at place `i` of a file that was empty. -/
def left (h : List Change) (i : Nat) : Option UInt8 := h.foldl (fun b c => c.leaves i b) none

variable {data bs : List UInt8} {pos size n i : Nat} {h : List Change} {c : Change}

theorem getElem?_resize : (resize data size)[i]? = if i < size then some (data[i]?.getD 0) else none := by
  unfold resize
  by_cases hi : i < size
  · rw [if_pos hi]
    by_cases hd : i < data.length
    · have htake : i < (data.take size).length := by rw [List.length_take]; omega
      rw [List.getElem?_append_left htake, List.getElem?_take_of_lt hi, List.getElem?_eq_getElem hd]
      rfl
    · have htake : (data.take size).length = data.length := by rw [List.length_take]; omega
      rw [List.getElem?_append_right (by omega), List.getElem?_replicate, if_pos (by omega),
        List.getElem?_eq_none (by omega)]
      rfl
  · rw [if_neg hi]
    refine List.getElem?_eq_none ?_
    rw [List.length_append, List.length_take, List.length_replicate]
    omega

@[simp] theorem length_resize : (resize data size).length = size := by
  rw [resize, List.length_append, List.length_take, List.length_replicate]
  omega

/-- Bytes put over others of a file that is long enough. -/
theorem getElem?_overwrite (hlen : pos + bs.length ≤ data.length) :
    (data.take pos ++ bs ++ data.drop (pos + bs.length))[i]? =
      if i < pos then data[i]? else if i < pos + bs.length then bs[i - pos]? else data[i]? := by
  have htake : (data.take pos).length = pos := by rw [List.length_take]; omega
  rw [List.append_assoc]
  split
  · next hi => rw [List.getElem?_append_left (by omega), List.getElem?_take_of_lt hi]
  · next hi =>
    rw [List.getElem?_append_right (by omega), htake]
    split
    · next hi' => rw [List.getElem?_append_left (by omega)]
    · next hi' =>
      rw [List.getElem?_append_right (by omega), List.getElem?_drop]
      congr 1
      omega

theorem getElem?_writeAt : (writeAt data pos bs)[i]? = (Change.write pos bs).leaves i data[i]? := by
  unfold writeAt Change.leaves
  by_cases hshort : data.length < pos + bs.length
  · simp only [if_pos hshort]
    rw [getElem?_overwrite (Nat.le_of_eq length_resize.symm), getElem?_resize]
    split
    · next hi => rw [if_pos (by omega)]
    · split
      · rfl
      · next hi => rw [List.getElem?_eq_none (by omega)]
  · simp only [if_neg hshort]
    rw [getElem?_overwrite (by omega)]
    split
    · next hi =>
      rw [List.getElem?_eq_getElem (by omega)]
      rfl
    · rfl

theorem getElem?_apply : (c.apply data)[i]? = c.leaves i data[i]? := by
  cases c with
  | write pos bs => exact getElem?_writeAt
  | truncate size => exact getElem?_resize
  | replace bs => rfl

@[simp] theorem length_writeAt : (writeAt data pos bs).length = max data.length (pos + bs.length) := by
  unfold writeAt
  by_cases hshort : data.length < pos + bs.length
  · simp only [if_pos hshort, List.length_append, List.length_take, List.length_drop, length_resize]
    omega
  · simp only [if_neg hshort, List.length_append, List.length_take, List.length_drop]
    omega

/-- Bytes stored at the end are appended. -/
theorem writeAt_length : writeAt data data.length bs = data ++ bs := by
  refine List.ext_getElem? fun i => ?_
  rw [getElem?_writeAt, Change.leaves, List.getElem?_append]
  split
  · next hi => rw [List.getElem?_eq_getElem hi, Option.getD_some]
  · next hi =>
    split
    · rfl
    · rw [List.getElem?_eq_none (by omega), List.getElem?_eq_none (by omega)]

/-- A file that all changes went to holds at each place what they have left there. -/
theorem getElem?_foldl_apply : (h.foldl Change.apply [])[i]? = left h i := by
  induction h using List.reverseRecOn with
  | nil => rfl
  | append_singleton h c ih =>
    rw [left, List.foldl_append, List.foldl_append, List.foldl_cons, List.foldl_nil, getElem?_apply, ih]
    rfl

theorem getElem?_slice : (slice data pos n)[i]? = if i < n then data[pos + i]? else none := by
  rw [slice, List.getElem?_take]
  split
  · rw [List.getElem?_drop]
  · rfl

end FileBytes
