/-
A file as POSIX has it, a byte array and a cursor, with each call told place
by place: reads end at the end of the file, writes beyond it fill the gap with
zeros, a write of nothing does nothing, and neither a seek that fails nor a
change of length moves the cursor.
-/
import ChodOs.Lib.FileBytes

structure PosixFile where
  bytes : List UInt8
  cursor : Nat
  deriving DecidableEq

/-- The calls, with the bytes that are to be written. -/
inductive FileOp
  | read (count : Nat)
  | write (bs : List UInt8)
  | lseek (offset : Int) (whence : Nat)
  | ftruncate (size : Nat)
  | pread (count offset : Nat)
  | pwrite (bs : List UInt8) (offset : Nat)

/-- What a call returns, with the bytes that are read. -/
structure FileResult where
  ret : Int
  data : List UInt8
  deriving DecidableEq

namespace PosixFile

/-- `EINVAL`. -/
def einval : Int := -22

def size (f : PosixFile) : Nat := f.bytes.length

/-- The byte at a place, and zero beyond the end. -/
def byteAt (f : PosixFile) (i : Nat) : UInt8 := f.bytes.getD i 0

def readAt (f : PosixFile) (pos count : Nat) : List UInt8 :=
  (List.range (min count (f.size - pos))).map fun i => f.byteAt (pos + i)

def writeAt (f : PosixFile) (pos : Nat) (bs : List UInt8) : List UInt8 :=
  if bs = [] then f.bytes
  else (List.range (max f.size (pos + bs.length))).map fun i =>
    if pos ≤ i ∧ i < pos + bs.length then bs.getD (i - pos) 0 else f.byteAt i

def cutTo (f : PosixFile) (size : Nat) : List UInt8 := (List.range size).map f.byteAt

/-- What an offset is counted from. -/
def base (f : PosixFile) : Nat → Option Nat
  | 0 => some 0
  | 1 => some f.cursor
  | 2 => some f.size
  | _ => none

def seekTo (f : PosixFile) (base : Nat) (offset : Int) : FileResult × PosixFile :=
  if base + offset < 0 then (⟨einval, []⟩, f)
  else (⟨base + offset, []⟩, { f with cursor := (base + offset).toNat })

def seek (f : PosixFile) (offset : Int) (whence : Nat) : FileResult × PosixFile :=
  match f.base whence with
  | none => (⟨einval, []⟩, f)
  | some base => f.seekTo base offset

def step (f : PosixFile) : FileOp → FileResult × PosixFile
  | .read count =>
    let data := f.readAt f.cursor count
    (⟨data.length, data⟩, { f with cursor := f.cursor + data.length })
  | .write bs => (⟨bs.length, []⟩, { bytes := f.writeAt f.cursor bs, cursor := f.cursor + bs.length })
  | .lseek offset whence => f.seek offset whence
  | .ftruncate size => (⟨0, []⟩, { f with bytes := f.cutTo size })
  | .pread count offset =>
    let data := f.readAt offset count
    (⟨data.length, data⟩, f)
  | .pwrite bs offset => (⟨bs.length, []⟩, { f with bytes := f.writeAt offset bs })

/-- It is so of each call, of the file as the calls before have left it. -/
def Along (P : PosixFile → FileOp → Prop) : PosixFile → List FileOp → Prop
  | _, [] => True
  | f, op :: ops => P f op ∧ Along P (f.step op).2 ops

/-- The sums of positions, offsets and lengths stay below `lim`. -/
def InRange (lim : Nat) (f : PosixFile) : FileOp → Prop
  | .write bs => f.cursor + bs.length < lim
  | .lseek offset whence => ∀ base ∈ f.base whence, base + offset < lim
  | .ftruncate size => size < lim
  | .pwrite bs offset => offset + bs.length < lim
  | _ => True

/-- A write of nothing beyond the end. -/
def EmptyBeyondEnd (f : PosixFile) : FileOp → Prop
  | .write bs => bs = [] ∧ f.size < f.cursor
  | .pwrite bs offset => bs = [] ∧ f.size < offset
  | _ => False

instance (lim : Nat) (f : PosixFile) : ∀ op, Decidable (InRange lim f op)
  | .write bs => inferInstanceAs (Decidable (f.cursor + bs.length < lim))
  | .lseek offset whence => inferInstanceAs (Decidable (∀ base ∈ f.base whence, (base : Int) + offset < lim))
  | .ftruncate size => inferInstanceAs (Decidable (size < lim))
  | .pwrite bs offset => inferInstanceAs (Decidable (offset + bs.length < lim))
  | .read _ | .pread _ _ => .isTrue trivial

instance (f : PosixFile) : ∀ op, Decidable (EmptyBeyondEnd f op)
  | .write bs => inferInstanceAs (Decidable (bs = [] ∧ f.size < f.cursor))
  | .pwrite bs offset => inferInstanceAs (Decidable (bs = [] ∧ f.size < offset))
  | .read _ | .lseek _ _ | .ftruncate _ | .pread _ _ => .isFalse id

instance (P : PosixFile → FileOp → Prop) [∀ f op, Decidable (P f op)] : ∀ ops f, Decidable (Along P f ops)
  | [], _ => .isTrue trivial
  | op :: ops, f =>
    have : Decidable (Along P (f.step op).2 ops) := instDecidableAlong P ops (f.step op).2
    inferInstanceAs (Decidable (P f op ∧ Along P (f.step op).2 ops))

variable {f : PosixFile} {pos count size : Nat} {bs : List UInt8}

/-! ## Seeks -/

theorem seek_set (f : PosixFile) (offset : Nat) : f.seek offset 0 = (⟨offset, []⟩, { f with cursor := offset }) := by
  change f.seekTo 0 offset = _
  rw [seekTo, if_neg (by omega), Int.natCast_zero, Int.zero_add, Int.toNat_natCast]

theorem seek_data (f : PosixFile) (offset : Int) (whence : Nat) : (f.seek offset whence).1.data = [] := by
  unfold seek seekTo
  split
  · rfl
  · split <;> rfl

/-- A seek that asks where the cursor is. -/
theorem seek_cur_zero (f : PosixFile) : f.seek 0 1 = (⟨f.cursor, []⟩, f) := by
  change f.seekTo f.cursor 0 = _
  rw [seekTo, if_neg (by omega), Int.add_zero, Int.toNat_natCast]

/-! ## The same with lists -/

theorem readAt_eq (f : PosixFile) (pos count : Nat) : f.readAt pos count = FileBytes.slice f.bytes pos count := by
  refine List.ext_getElem? fun i => ?_
  rw [FileBytes.getElem?_slice, readAt, List.getElem?_map]
  by_cases hi : i < min count (f.size - pos)
  · have hlt : pos + i < f.bytes.length := by
      rw [PosixFile.size] at hi
      omega
    rw [List.getElem?_range hi, if_pos (by omega), Option.map_some, byteAt, List.getD_eq_getElem?_getD,
      List.getElem?_eq_getElem hlt, Option.getD_some]
  · rw [List.getElem?_eq_none (by rw [List.length_range]; omega), Option.map_none]
    split
    · rw [PosixFile.size] at hi
      rw [List.getElem?_eq_none (by omega)]
    · rfl

theorem cutTo_eq (f : PosixFile) (size : Nat) : f.cutTo size = FileBytes.resize f.bytes size := by
  refine List.ext_getElem? fun i => ?_
  rw [FileBytes.getElem?_resize, cutTo, List.getElem?_map]
  by_cases hi : i < size
  · rw [List.getElem?_range hi, if_pos hi, Option.map_some, byteAt, List.getD_eq_getElem?_getD]
  · rw [List.getElem?_eq_none (by rw [List.length_range]; omega), if_neg hi, Option.map_none]

theorem writeAt_eq (f : PosixFile) (hne : bs ≠ []) : f.writeAt pos bs = FileBytes.writeAt f.bytes pos bs := by
  have hpos : 0 < bs.length := List.length_pos_iff.mpr hne
  refine List.ext_getElem? fun i => ?_
  rw [FileBytes.getElem?_writeAt, FileBytes.Change.leaves, writeAt, if_neg hne, List.getElem?_map]
  by_cases hi : i < max f.size (pos + bs.length)
  · rw [List.getElem?_range hi, Option.map_some]
    by_cases hbefore : i < pos
    · rw [if_pos hbefore, if_neg (by omega), byteAt, List.getD_eq_getElem?_getD]
    · rw [if_neg hbefore]
      by_cases hin : i < pos + bs.length
      · rw [if_pos ⟨by omega, hin⟩, if_pos hin, List.getD_eq_getElem?_getD, List.getElem?_eq_getElem (by omega),
          Option.getD_some]
      · have hlt : i < f.bytes.length := by
          rw [PosixFile.size] at hi
          omega
        rw [if_neg (fun h => hin h.2), if_neg hin, byteAt, List.getD_eq_getElem?_getD, List.getElem?_eq_getElem hlt,
          Option.getD_some]
  · have hend : f.bytes.length ≤ i := by
      rw [PosixFile.size] at hi
      omega
    rw [List.getElem?_eq_none (by rw [List.length_range]; omega), Option.map_none, if_neg (by omega), if_neg (by omega),
      List.getElem?_eq_none hend]

/-- Storing no bytes changes a list only where it is filled up for them. -/
theorem writeAt_nil_iff (f : PosixFile) (pos : Nat) :
    FileBytes.writeAt f.bytes pos [] = f.writeAt pos [] ↔ ¬ f.size < pos := by
  rw [writeAt, if_pos rfl, FileBytes.writeAt, PosixFile.size]
  simp only [List.length_nil, Nat.add_zero, List.append_nil, List.take_append_drop]
  split
  · next hlt =>
    refine iff_of_false (fun h => ?_) (fun h => h hlt)
    have hlen := congrArg List.length h
    rw [FileBytes.length_resize] at hlen
    omega
  · next hge => exact iff_of_true rfl hge

/-- A write as lists have it is a POSIX write, unless it writes nothing beyond the end. -/
theorem writeAt_eq_iff (f : PosixFile) (pos : Nat) (bs : List UInt8) :
    FileBytes.writeAt f.bytes pos bs = f.writeAt pos bs ↔ ¬ (bs = [] ∧ f.size < pos) := by
  by_cases hbs : bs = []
  · subst hbs
    rw [writeAt_nil_iff]
    simp only [true_and]
  · exact iff_of_true (f.writeAt_eq hbs).symm fun h => hbs h.1

end PosixFile
