/-
The calls that take a directory and a path (`syscall/fs.rs`). `resolve_at`
puts the two together for three of them; `sys_openat` and `sys_newfstatat`
go on with the path alone, which counts from the root.
-/
import ChodOs.Fs.CopyUp
import ChodOs.Fs.State

namespace ChodOs

/-- `AT_FDCWD`. -/
def atFdcwd : Int := -100

namespace FsState

/-- The directory that a relative path starts at, in `resolve_at`; `cwd` is `current_cwd()`. -/
def atBase (s : FsState) (cwd : Path) (dirfd : Int) : Option Path :=
  if dirfd = atFdcwd then some cwd
  else
    let fd := (dirfd % 2 ^ 32).toNat
    s.dirPath fd <|> s.filePath fd

def resolveAt (s : FsState) (cwd : Path) (dirfd : Int) (path : Option Path) : Option Path := do
  let path ← path
  if path.head? = some '/' then some path
  else
    let base ← s.atBase cwd dirfd
    let sep := if base.getLast? = some '/' then [] else ['/']
    some (base ++ sep ++ path)

def sysMkdirat (s : FsState) (cwd : Path) (dirfd : Int) (path : Option Path) : Int × FsState :=
  match s.resolveAt cwd dirfd path with
  | none => (einval, s)
  | some full =>
    match s.vfs.mkdir full with
    | (some _, vfs) => (0, { s with vfs })
    | (none, vfs) => (-17, { s with vfs })

def sysRenameat (s : FsState) (cwd : Path) (olddirfd : Int) (oldPath : Option Path) (newdirfd : Int)
    (newPath : Option Path) : Int × FsState :=
  match s.resolveAt cwd olddirfd oldPath with
  | none => (einval, s)
  | some old =>
    match s.resolveAt cwd newdirfd newPath with
    | none => (einval, s)
    | some new =>
      let (r, vfs) := s.vfs.rename old new
      (r, { s with vfs })

/-- What `sys_openat` and `sys_newfstatat` make of their directory and path: `let _ = dirfd`. -/
def ignoreDirfd (_s : FsState) (_cwd : Path) (_dirfd : Int) (path : Option Path) : Option Path := path

def sysOpenat (s : FsState) (info : ProcInfo) (cwd : Path) (dirfd : Int) (path : Option Path) (flags : Nat) :
    Option (Int × FsState) := s.sysOpenImpl info (s.ignoreDirfd cwd dirfd path) flags

variable {s : FsState} {cwd path base full : Path} {dirfd : Int}

end FsState
end ChodOs
