/-
A descriptor that is open for writing, as a POSIX file (`syscall/fd.rs`,
`sys_pwrite64`). Every call does what POSIX has it do, but for a write of
nothing beyond the end, which makes the file longer.
-/
import ChodOs.Fs.Contents
import ChodOs.Lib.PosixFile

namespace ChodOs

open StepSys

namespace FsState

/-! ## The calls -/

/-- `offset as i64`. -/
def asI64 (offset : Nat) : Int := if offset < 2 ^ 63 then offset else offset - 2 ^ 64

/-- `sys_pwrite64` of the bytes at `buf`. What goes to the screen is not modelled. -/
def sysPwrite64 (s : FsState) (fd : Nat) (bs : List UInt8) (offset : Nat) : Option (Int × FsState) :=
  if fd = 1 ∨ fd = 2 then some (bs.length, s)
  else if 3 ≤ fd then do
    let (oldPos, s) ← s.seek fd 0 1
    if oldPos < 0 then some (oldPos, s)
    else do
      let (r, s) ← s.seek fd (asI64 offset) 0
      if r < 0 then some (r, s)
      else do
        let (n, s) ← s.writeFd fd bs
        let (_, s) ← s.seek fd oldPos 0
        some (n, s)
  else some (ebadf, s)

/-- What `read` and `pread` return. -/
def readResult : Option (List UInt8) → FileResult
  | some data => ⟨data.length, data⟩
  | none => ⟨ebadf, []⟩

def fileCall (s : FsState) (fd : Nat) : FileOp → Option (FileResult × FsState)
  | .read count => some (readResult (s.read fd count).1, (s.read fd count).2)
  | .write bs => (s.writeFd fd bs).map fun (r, s) => (⟨r, []⟩, s)
  | .lseek offset whence => (s.seek fd offset whence).map fun (r, s) => (⟨r, []⟩, s)
  | .ftruncate size => some (⟨(s.truncateFd fd size).1, []⟩, (s.truncateFd fd size).2)
  | .pread count offset => some (readResult (s.pread fd count offset), s)
  | .pwrite bs offset => (s.sysPwrite64 fd bs offset).map fun (r, s) => (⟨r, []⟩, s)

/-- The data of the file that is open at `fd`, and its position. -/
def fileOf (s : FsState) (fd : Nat) : Option PosixFile := do
  let a ← s.fileAt fd Rights.none
  let bytes ← s.vfs.contents (← a.value.vfsNode)
  some ⟨bytes, s.pos a.serial⟩

/-- Call by call, the descriptor returns what the POSIX file does, and is it afterwards. -/
def Behaves (fd : Nat) : FsState → PosixFile → List FileOp → Prop
  | _, _, [] => True
  | s, f, op :: ops => ∃ s', s.fileCall fd op = some ((f.step op).1, s') ∧ s'.fileOf fd = some (f.step op).2 ∧
      Behaves fd s' (f.step op).2 ops

/-- `a` is open at `fd` for reading and writing, live on the node `n`, and is
the file `f`. Descriptors are counted from 3 on; a `Vec` has no more than
`i64::MAX` bytes. -/
structure Live (s : FsState) (fd : Nat) (a : Arc FileResource) (n : NodeRef) (f : PosixFile) : Prop where
  opened : 3 ≤ fd
  reads : s.fileAt fd Rights.read = some a
  writes : s.fileAt fd Rights.write = some a
  write : a.value.write = true
  node : a.value.vfsNode = some n
  bytes : s.vfs.contents n = some f.bytes
  cursor : s.pos a.serial = f.cursor
  size_lt : f.size < 2 ^ 63
  cursor_lt : f.cursor < 2 ^ 63

variable {s s' : FsState} {fd : Nat} {a : Arc FileResource} {n : NodeRef} {f f' : PosixFile} {op : FileOp}
  {bs : List UInt8} {ops : List FileOp}

/-! ## What a descriptor is -/

theorem Live.fileAt (h : Live s fd a n f) : s.fileAt fd Rights.none = some a := by
  obtain ⟨cap, hraw, hobj, -⟩ := HandleTable.get_eq_some.mp h.reads
  refine HandleTable.get_eq_some.mpr ⟨cap, hraw, hobj, fun i hi => ?_⟩
  exact absurd hi (by simp [Rights.none])

theorem Live.fileOf (h : Live s fd a n f) : s.fileOf fd = some f := by
  simp only [FsState.fileOf, h.fileAt, h.node, h.bytes, h.cursor, Option.bind_eq_bind, Option.bind_some]

theorem Live.bytesOf (h : Live s fd a n f) : s.bytesOf a.value = f.bytes := by
  simp only [FsState.bytesOf, h.node, h.bytes, Option.getD_some]

/-- A call that leaves the table alone leaves the descriptor open. -/
theorem Live.of_fds (h : Live s fd a n f) (hfds : s'.fds = s.fds) (hbytes : s'.vfs.contents n = some f'.bytes)
    (hcursor : s'.pos a.serial = f'.cursor) (hsize : f'.size < 2 ^ 63) (hlt : f'.cursor < 2 ^ 63) :
    Live s' fd a n f' := by
  refine ⟨h.opened, ?_, ?_, h.write, h.node, hbytes, hcursor, hsize, hlt⟩
  · rw [FsState.fileAt, hfds]
    exact h.reads
  · rw [FsState.fileAt, hfds]
    exact h.writes

@[simp] theorem setPos_self (s : FsState) (a : Arc FileResource) (pos : Nat) : (s.setPos a pos).pos a.serial = pos :=
  if_pos rfl

theorem Live.setPos (h : Live s fd a n f) {pos : Nat} (hlt : pos < 2 ^ 63) :
    Live (s.setPos a pos) fd a n { f with cursor := pos } :=
  h.of_fds rfl h.bytes (setPos_self s a pos) h.size_lt hlt

theorem contents_changeNode {v : Vfs} {data : List UInt8} (h : v.contents n = some data) (c : FileBytes.Change) :
    (v.changeNode n c).contents n = some (c.apply data) := by
  obtain ⟨node, hn, hdata⟩ := Option.bind_eq_some_iff.mp h
  cases node with
  | dir dir info => cases hdata
  | file g =>
    obtain rfl : g.data = data := Option.some.inj hdata
    simp only [Vfs.changeNode, hn]
    exact Vfs.contents_set.trans (if_pos rfl)

/-! ## Each call -/

theorem Live.read (h : Live s fd a n f) (count : Nat) :
    (s.read fd count).1 = some (f.readAt f.cursor count) ∧
      Live (s.read fd count).2 fd a n { f with cursor := f.cursor + (f.readAt f.cursor count).length } := by
  have hlen : (f.readAt f.cursor count).length ≤ f.size - f.cursor := by
    rw [PosixFile.readAt, List.length_map, List.length_range]
    exact Nat.min_le_right _ _
  have hsize := h.size_lt
  have hcursor := h.cursor_lt
  unfold FsState.read
  rw [h.reads]
  simp only [h.bytesOf, h.cursor, ← PosixFile.readAt_eq]
  exact ⟨trivial, h.setPos (by omega)⟩

theorem Live.pread (h : Live s fd a n f) (count offset : Nat) :
    s.pread fd count offset = some (f.readAt offset count) := by
  rw [FsState.pread, h.reads, Option.map_some, h.bytesOf, PosixFile.readAt_eq]

theorem Live.writeFd (h : Live s fd a n f) (hlt : f.cursor + bs.length < 2 ^ 63) : ∃ s',
    s.writeFd fd bs = some ((bs.length : Int), s') ∧
      Live s' fd a n ⟨FileBytes.writeAt f.bytes f.cursor bs, f.cursor + bs.length⟩ := by
  have hsize : (FileBytes.writeAt f.bytes f.cursor bs).length < 2 ^ 63 := by
    have hold := h.size_lt
    rw [PosixFile.size] at hold
    rw [FileBytes.length_writeAt]
    omega
  refine ⟨{ s.setPos a (f.cursor + bs.length) with vfs := s.vfs.changeNode n (.write f.cursor bs) }, ?_,
    h.of_fds rfl ?_ ?_ hsize hlt⟩
  · simp only [FsState.writeFd, h.writes, h.write, h.node, h.bytes, h.cursor, Option.isNone_some, Bool.not_true,
      Bool.false_eq_true, if_false, if_pos hlt]
  · exact contents_changeNode h.bytes (.write f.cursor bs)
  · exact setPos_self s a (f.cursor + bs.length)

theorem Live.truncateFd (h : Live s fd a n f) {size : Nat} (hlt : size < 2 ^ 63) :
    (s.truncateFd fd size).1 = 0 ∧ Live (s.truncateFd fd size).2 fd a n { f with bytes := f.cutTo size } := by
  have hsize : (f.cutTo size).length < 2 ^ 63 := by
    rw [PosixFile.cutTo_eq, FileBytes.length_resize]
    exact hlt
  have hbytes := contents_changeNode h.bytes (.truncate size)
  rw [← Vfs.truncateNode_snd] at hbytes
  unfold FsState.truncateFd
  simp only [h.writes, h.node]
  refine ⟨?_, h.of_fds rfl ?_ h.cursor hsize h.cursor_lt⟩
  · obtain ⟨node, hn, hdata⟩ := Option.bind_eq_some_iff.mp h.bytes
    cases node with
    | dir dir info => cases hdata
    | file g => rw [Vfs.truncateNode, hn]
  · rw [PosixFile.cutTo_eq]
    exact hbytes

theorem Live.seekTo (h : Live s fd a n f) {base : Nat} {offset : Int} (hlt : base + offset < 2 ^ 63) : ∃ s',
    (if 2 ^ 63 ≤ base + offset then none
      else if base + offset < 0 then some (einval, s)
      else some (base + offset, s.setPos a (base + offset).toNat)) = some ((f.seekTo base offset).1.ret, s') ∧
    Live s' fd a n (f.seekTo base offset).2 := by
  unfold PosixFile.seekTo
  rw [if_neg (by omega)]
  split
  · exact ⟨s, rfl, h⟩
  · exact ⟨_, rfl, h.setPos (by omega)⟩

theorem Live.seek (h : Live s fd a n f) {offset : Int} {whence : Nat}
    (hlt : f.InRange (2 ^ 63) (.lseek offset whence)) : ∃ s',
    s.seek fd offset whence = some ((f.seek offset whence).1.ret, s') ∧ Live s' fd a n (f.seek offset whence).2 := by
  unfold FsState.seek
  simp only [h.fileAt, h.bytesOf, h.cursor]
  match whence with
  | 0 => exact h.seekTo (hlt 0 rfl)
  | 1 => exact h.seekTo (hlt f.cursor rfl)
  | 2 => exact h.seekTo (hlt f.size rfl)
  | _ + 3 => exact ⟨s, rfl, h⟩

/-- `SEEK_SET`. -/
theorem Live.seekSet (h : Live s fd a n f) {offset : Nat} (hlt : offset < 2 ^ 63) : ∃ s',
    s.seek fd offset 0 = some ((offset : Int), s') ∧ Live s' fd a n { f with cursor := offset } := by
  have hrange : f.InRange (2 ^ 63) (.lseek offset 0) := fun base hb => by
    cases hb
    omega
  obtain ⟨s', hseek, hlive⟩ := h.seek hrange
  rw [f.seek_set] at hseek hlive
  exact ⟨s', hseek, hlive⟩

/-- Seek, write, and seek back. -/
theorem Live.sysPwrite64 (h : Live s fd a n f) {offset : Nat} (hlt : offset + bs.length < 2 ^ 63) : ∃ s',
    s.sysPwrite64 fd bs offset = some ((bs.length : Int), s') ∧
      Live s' fd a n { f with bytes := FileBytes.writeAt f.bytes offset bs } := by
  have hopened := h.opened
  have hcursor := h.cursor_lt
  have hcur : f.InRange (2 ^ 63) (.lseek 0 1) := fun base hb => by
    cases hb
    omega
  obtain ⟨s₁, hget, h₁⟩ := h.seek hcur
  rw [f.seek_cur_zero] at hget h₁
  obtain ⟨s₂, hset, h₂⟩ := h₁.seekSet (show offset < 2 ^ 63 by omega)
  obtain ⟨s₃, hwrite, h₃⟩ := h₂.writeFd hlt
  obtain ⟨s₄, hback, h₄⟩ := h₃.seekSet h.cursor_lt
  refine ⟨s₄, ?_, h₄⟩
  unfold FsState.sysPwrite64
  rw [if_neg (by omega), if_pos hopened, hget, asI64, if_pos (by omega)]
  simp only [Option.bind_eq_bind, Option.bind_some]
  rw [if_neg (by omega), hset]
  simp only [Option.bind_some]
  rw [if_neg (by omega), hwrite]
  simp only [Option.bind_some]
  rw [hback]
  rfl

/-! ## Runs -/

/-- A call returns what the POSIX file returns, and leaves the descriptor as
that file just in case it is no write of nothing beyond the end. -/
theorem Live.fileCall (h : Live s fd a n f) (hrange : f.InRange (2 ^ 63) op) : ∃ s' f',
    s.fileCall fd op = some ((f.step op).1, s') ∧ Live s' fd a n f' ∧
      (f' = (f.step op).2 ↔ ¬ f.EmptyBeyondEnd op) := by
  cases op with
  | read count =>
    obtain ⟨hread, hlive⟩ := h.read count
    refine ⟨_, _, ?_, hlive, iff_of_true rfl id⟩
    rw [FsState.fileCall, hread]
    rfl
  | write bs =>
    obtain ⟨s', hwrite, hlive⟩ := h.writeFd hrange
    refine ⟨s', _, ?_, hlive, ?_⟩
    · rw [FsState.fileCall, hwrite]
      rfl
    · rw [PosixFile.EmptyBeyondEnd, ← PosixFile.writeAt_eq_iff, PosixFile.step, PosixFile.mk.injEq]
      exact and_iff_left rfl
  | lseek offset whence =>
    obtain ⟨s', hseek, hlive⟩ := h.seek hrange
    refine ⟨s', _, ?_, hlive, iff_of_true rfl id⟩
    have hdata : (f.seek offset whence).1.data = [] := f.seek_data offset whence
    rw [FsState.fileCall, hseek, PosixFile.step, ← hdata]
    rfl
  | ftruncate size =>
    obtain ⟨hret, hlive⟩ := h.truncateFd hrange
    refine ⟨_, _, ?_, hlive, iff_of_true rfl id⟩
    rw [FsState.fileCall, hret]
    rfl
  | pread count offset =>
    refine ⟨s, f, ?_, h, iff_of_true rfl id⟩
    rw [FsState.fileCall, h.pread]
    rfl
  | pwrite bs offset =>
    obtain ⟨s', hwrite, hlive⟩ := h.sysPwrite64 hrange
    refine ⟨s', _, ?_, hlive, ?_⟩
    · rw [FsState.fileCall, hwrite]
      rfl
    · rw [PosixFile.EmptyBeyondEnd, ← PosixFile.writeAt_eq_iff, PosixFile.step, PosixFile.mk.injEq]
      exact and_iff_left rfl

/-- On every live descriptor, whatever calls are made with sums below `2^63`:
each returns what the POSIX file does, and leaves its data, size and cursor as
the POSIX file's, just in case none of them is a write of nothing beyond the
end. -/
theorem posix_file_iff (h : Live s fd a n f) (hrange : f.Along (PosixFile.InRange (2 ^ 63)) ops) :
    Behaves fd s f ops ↔ f.Along (fun f op => ¬ f.EmptyBeyondEnd op) ops := by
  induction ops generalizing s f with
  | nil => exact Iff.rfl
  | cons op ops ih =>
    obtain ⟨hop, hrest⟩ := hrange
    obtain ⟨s', f', hcall, hlive, hiff⟩ := h.fileCall hop
    constructor
    · intro ⟨s₁, hcall₁, hfile, hbehaves⟩
      obtain rfl : s' = s₁ := (Prod.mk.inj (Option.some.inj (hcall.symm.trans hcall₁))).2
      obtain rfl : f' = (f.step op).2 := Option.some.inj (hlive.fileOf.symm.trans hfile)
      exact ⟨hiff.mp rfl, (ih hlive hrest).mp hbehaves⟩
    · intro ⟨hnone, hnones⟩
      obtain rfl := hiff.mpr hnone
      exact ⟨s', hcall, hlive.fileOf, (ih hlive hrest).mpr hnones⟩

/-- `/tmp/a` has been made and opened for writing, as 3. -/
def openedTmp : FsState := ((boot none).step (.open ⟨1, 1⟩ (some "/tmp/a".toList) 0x42)).elim (boot none) (·.2)

theorem live_openedTmp : Live openedTmp 3 ⟨0, .newLive "/tmp/a".toList 22⟩ 22 ⟨[], 0⟩ :=
  ⟨by decide, rfl, rfl, rfl, rfl, by decide, rfl, by decide, by decide⟩

/-- A byte written beyond the end, a cut and a byte at the end of what is left. -/
theorem posix_file_cut : Behaves 3 openedTmp ⟨[], 0⟩
    [.pwrite [120] 2, .lseek 0 2, .ftruncate 1, .write [121], .lseek (-4) 1, .pread 9 0] :=
  (posix_file_iff live_openedTmp (by decide)).mpr (by decide)

/-- A `pwrite64` of nothing at 10 makes an empty file 10 bytes long. -/
theorem empty_write_extends :
    Live openedTmp 3 ⟨0, .newLive "/tmp/a".toList 22⟩ 22 ⟨[], 0⟩ ∧
    PosixFile.Along (PosixFile.InRange (2 ^ 63)) ⟨[], 0⟩ [.pwrite [] 10] ∧
    ((openedTmp.fileCall 3 (.pwrite [] 10)).bind fun r => r.2.fileOf 3) = some ⟨List.replicate 10 0, 0⟩ ∧
    ¬ Behaves 3 openedTmp ⟨[], 0⟩ [.pwrite [] 10] := by
  have hfile : ((openedTmp.fileCall 3 (.pwrite [] 10)).bind fun r => r.2.fileOf 3) = some ⟨List.replicate 10 0, 0⟩ := by
    decide
  refine ⟨live_openedTmp, by decide, hfile, ?_⟩
  intro ⟨s', hcall, hposix, _⟩
  rw [hcall, Option.bind_some, hposix] at hfile
  exact absurd hfile (by decide)

end FsState

end ChodOs
