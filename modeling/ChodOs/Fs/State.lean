/-
What the file calls of a process work on, and `sys_open_impl` with all that
it changes: a descriptor, and the tree where a file is made, copied up or
truncated.
-/
import ChodOs.Fs.Overlay
import ChodOs.Lib.ByteMem

namespace ChodOs

/-- `pos` has the position of each open file, by the serial of its `Arc`.
`lastOpen` is the path that `set_last_open` kept, when it was a directory's;
nothing calls it. -/
structure FsState where
  fds : FdSys
  vfs : Vfs
  ext4 : Option Ext4View
  lastOpen : Option Path
  pos : Nat → Nat
  mem : ByteMem

namespace FsState

/-- After boot. -/
def boot (ext4 : Option Ext4View) : FsState where
  fds := .boot
  vfs := .init .boot
  ext4
  lastOpen := none
  pos := fun _ => 0
  mem := fun _ => 0

/-- `fd::dir_path`. -/
def dirPath (s : FsState) (fd : Nat) : Option Path :=
  (s.fds.table.get .dir (fd % 2 ^ 32) Rights.none).map fun d => d.value.path

/-- `fd::file_path`. -/
def filePath (s : FsState) (fd : Nat) : Option Path :=
  (s.fds.table.get .file (fd % 2 ^ 32) Rights.none).map fun f => f.value.path

/-- What the file system answers to an open. -/
def view (s : FsState) (info : ProcInfo) : VfsView where
  existsAny := s.vfs.existsAny s.ext4 info
  procRead := ChodOs.procRead info
  procExists := ChodOs.procExists info
  nodeFor path := s.vfs.lookup path <|> (s.vfs.createFile path).1
  openWritable path oCreat := (s.vfs.openWritable s.ext4 path oCreat).1
  openReadonly := s.vfs.openReadonly s.ext4
  isDir := s.vfs.isDirPath s.ext4

/-- An open gets as far as `open_writable`. -/
def opensWritable (path : Path) (flags : Nat) : Bool :=
  !isDev path && !(flags &&& 0o200000 != 0 || path == ['/'] || path.getLast? == some '/') && !isProc path &&
    (flags &&& 0x03 != 0 || flags &&& 0x40 != 0)

/-- The tree after an open. -/
def openedVfs (s : FsState) (path : Path) (flags : Nat) : Vfs :=
  if opensWritable path flags then
    match s.vfs.openWritable s.ext4 path (flags &&& 0x40 != 0) with
    | (some node, vfs) => if flags &&& 0x200 != 0 then (vfs.truncateNode node 0).2 else vfs
    | (none, vfs) => vfs
  else s.vfs

/-- `sys_open_impl`: a new open file starts at 0. -/
def sysOpenImpl (s : FsState) (info : ProcInfo) (path : Option Path) (flags : Nat) : Option (Int × FsState) :=
  (s.fds.sysOpenImpl (s.view info) path flags).map fun (r, fds) =>
    (r, { s with
      fds
      vfs := (path.map (s.openedVfs · flags)).getD s.vfs
      pos := fun k => if k = s.fds.made then 0 else s.pos k })

end FsState
end ChodOs
