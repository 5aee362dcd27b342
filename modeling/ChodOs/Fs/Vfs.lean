/-
The writable file tree (`vfs/mod.rs`, `vfs/tmpfs.rs`): nodes in a heap,
directories that map names to nodes, and the operations on paths. A node that
nothing refers to any more stays in the heap, where nothing finds it.

The calls run one at a time, and none takes a node's lock twice, so locks
are not modelled; nor is what a file's data is used for.
-/
import ChodOs.Fs.Handle
import ChodOs.Fs.Path

namespace ChodOs

structure VfsMeta where
  ino : Nat
  mode : Nat
  uid : Nat
  gid : Nat
  nlink : Nat
  deriving DecidableEq

def VfsMeta.newFile (ino mode : Nat) : VfsMeta := { ino, mode, uid := 0, gid := 0, nlink := 1 }
def VfsMeta.newDir (ino : Nat) : VfsMeta := { ino, mode := 0o755, uid := 0, gid := 0, nlink := 2 }

structure FileNode where
  data : List UInt8
  info : VfsMeta
  deriving DecidableEq

def FileNode.new (ino mode : Nat) : FileNode := ⟨[], .newFile ino mode⟩

/-- `TmpfsDir`: `lookup`, `remove`, `insert` and `is_empty` are the map's own. -/
abbrev TmpfsDir := Std.ExtTreeMap Name NodeRef

inductive VfsNode
  | file (f : FileNode)
  | dir (dir : TmpfsDir) (info : VfsMeta)

/-- The heap of nodes, with `ROOT` and `INO_SEQ`. -/
structure Vfs where
  heap : Std.ExtTreeMap NodeRef VfsNode
  nextRef : NodeRef
  root : Option NodeRef
  inoSeq : Nat

namespace Vfs

/-- The statics before `init`. -/
def boot : Vfs := ⟨∅, 0, none, 2⟩

def set (s : Vfs) (n : NodeRef) (node : VfsNode) : Vfs := { s with heap := s.heap.insert n node }

/-- `Arc::new(Mutex::new(..))` of a node with a new inode number. -/
def alloc (s : Vfs) (new : Nat → VfsNode) : NodeRef × Vfs :=
  (s.nextRef, { s.set s.nextRef (new s.inoSeq) with nextRef := s.nextRef + 1, inoSeq := (s.inoSeq + 1) % 2 ^ 64 })

/-- What a directory has under a name; nothing, if the node is none. -/
def entry (s : Vfs) (d : NodeRef) (name : Name) : Option NodeRef :=
  match s.heap[d]? with
  | some (.dir dir _) => dir[name]?
  | _ => none

/-- The loop of `lookup`. -/
def walk (s : Vfs) : NodeRef → List Name → Option NodeRef
  | current, [] => some current
  | current, part :: rest => (s.entry current part).bind fun next => s.walk next rest

def lookup (s : Vfs) (path : Path) : Option NodeRef :=
  match s.root with
  | none => none
  | some root => if path = ['/'] then some root else s.walk root (parts path)

/-! ### Making nodes -/

/-- `TmpfsDir::create_file`, `create_dir`: `entry(name).or_insert_with(new)` in the directory `parent`. -/
def orInsertWith (s : Vfs) (parent : NodeRef) (dir : TmpfsDir) (info : VfsMeta) (name : Name) (new : Nat → VfsNode) :
    NodeRef × Vfs :=
  match dir[name]? with
  | some n => (n, s)
  | none =>
    let (n, s) := s.alloc new
    (n, s.set parent (.dir (dir.insert name n) info))

/-- The common body of `create_file` and `mkdir`. -/
def create (s : Vfs) (path : Path) (new : Nat → VfsNode) : Option NodeRef × Vfs :=
  match splitParent path with
  | none => (none, s)
  | some (parentPath, name) =>
    match s.lookup parentPath with
    | none => (none, s)
    | some parent =>
      match s.heap[parent]? with
      | some (.dir dir info) =>
        let (n, s) := s.orInsertWith parent dir info name new
        (some n, s)
      | _ => (none, s)

def createFile (s : Vfs) (path : Path) : Option NodeRef × Vfs := s.create path fun ino => .file (.new ino 0o644)

def mkdir (s : Vfs) (path : Path) : Option NodeRef × Vfs := s.create path fun ino => .dir ∅ (.newDir ino)

/-! ### Removing and moving -/

/-- `dir.remove(&name)` in the directory `parent`; `none` if that is no directory, or has no such entry. -/
def remove (s : Vfs) (parent : NodeRef) (name : Name) : Option (NodeRef × Vfs) :=
  match s.heap[parent]? with
  | some (.dir dir info) =>
    match dir[name]? with
    | some node => some (node, s.set parent (.dir (dir.erase name) info))
    | none => none
  | _ => none

/-- `dir.insert(name, node)`, likewise. -/
def insert (s : Vfs) (parent : NodeRef) (name : Name) (node : NodeRef) : Option Vfs :=
  match s.heap[parent]? with
  | some (.dir dir info) => some (s.set parent (.dir (dir.insert name node) info))
  | _ => none

/-- `remove_entry`. -/
def removeEntry (s : Vfs) (path : Path) (allowDir : Bool) : Int × Vfs :=
  match splitParent path with
  | none => (einval, s)
  | some (parentPath, name) =>
    match s.lookup parentPath with
    | none => (enoent, s)
    | some parent =>
      match s.entry parent name with
      | none => (enoent, s)
      | some target =>
        let refusal : Option Int := match s.heap[target]? with
          | some (.dir dir _) => if !allowDir then some (-21) else if !dir.isEmpty then some (-39) else none
          | _ => none
        match refusal with
        | some e => (e, s)
        | none =>
          match s.remove parent name with
          | some (_, s) => (0, s)
          | none => (enoent, s)

def rename (s : Vfs) (oldPath newPath : Path) : Int × Vfs :=
  match splitParent oldPath with
  | none => (einval, s)
  | some (oldParentPath, oldName) =>
    match splitParent newPath with
    | none => (einval, s)
    | some (newParentPath, newName) =>
      match s.lookup oldParentPath with
      | none => (enoent, s)
      | some oldParent =>
        match s.lookup newParentPath with
        | none => (enoent, s)
        | some newParent =>
          if oldParent = newParent then
            match s.remove oldParent oldName with
            | none => (enoent, s)
            | some (node, s) =>
              match s.insert oldParent newName node with
              | some s => (0, s)
              | none => (enoent, s)
          else
            match s.remove oldParent oldName with
            | none => (enoent, s)
            | some (node, s) =>
              match s.insert newParent newName node with
              | some s => (0, s)
              | none => (enoent, s)

/-- `link_vfs`. `none`: the link count traps. -/
def linkVfs (s : Vfs) (oldPath newPath : Path) : Option (Int × Vfs) :=
  match s.lookup oldPath with
  | none => some (enoent, s)
  | some node =>
    match s.heap[node]? with
    | some (.dir _ _) => some (-1, s)
    | _ =>
      match splitParent newPath with
      | none => some (einval, s)
      | some (parentPath, name) =>
        match s.lookup parentPath with
        | none => some (enoent, s)
        | some parent =>
          match s.insert parent name node with
          | none => some (enoent, s)
          | some s =>
            match s.heap[node]? with
            | some (.file f) => do
              let nlink ← addU32 true f.info.nlink 1
              some (0, s.set node (.file { f with info := { f.info with nlink } }))
            | _ => some (0, s)

/-! ### Copy-up -/

/-- The loop of `ensure_parent_dirs`; `cur` is the path so far. -/
def ensureDirs (s : Vfs) (cur : Path) : List Name → Vfs
  | [] => s
  | part :: rest =>
    let cur := cur ++ '/' :: part
    let s := if (s.lookup cur).isNone then (s.mkdir cur).2 else s
    s.ensureDirs cur rest

def ensureParentDirs (s : Vfs) (path : Path) : Vfs :=
  let parts := parts (path.rdropWhile (· == '/'))
  if parts.length ≤ 1 then s else s.ensureDirs [] (parts.take (parts.length - 1))

/-- `copy_up`; `ext4ReadFile` is the file below, as the mounted image has it. -/
def copyUp (s : Vfs) (ext4ReadFile : Path → Option (List UInt8)) (path : Path) : Option NodeRef × Vfs :=
  match s.lookup path with
  | some node => (some node, s)
  | none =>
    match ext4ReadFile path with
    | none => (none, s)
    | some data =>
      match (s.ensureParentDirs path).createFile path with
      | (none, s) => (none, s)
      | (some node, s) =>
        match s.heap[node]? with
        | some (.file f) => (some node, s.set node (.file { f with data }))
        | _ => (some node, s)

/-! ### Runs -/

/-- The directories that `init` makes. -/
def standardDirs : List Path :=
  ["/tmp", "/run", "/run/lock", "/var", "/var/lib", "/var/lib/pacman", "/var/cache", "/var/cache/pacman",
   "/var/cache/pacman/pkg", "/var/log", "/etc", "/etc/pacman.d", "/usr", "/usr/bin", "/usr/lib", "/usr/share",
   "/usr/local", "/usr/local/bin", "/proc", "/sys", "/dev"].map String.toList

/-- `tmpfs::new_root`, as `ROOT`. -/
def mountRoot (s : Vfs) : Vfs :=
  let (root, s) := s.alloc fun ino => .dir ∅ (.newDir ino)
  { s with root := some root }

/-- `init`. -/
def init (s : Vfs) : Vfs := standardDirs.foldl (fun s d => (s.mkdir d).2) s.mountRoot

end Vfs

inductive VfsOp
  | createFile (path : Path)
  | mkdir (path : Path)
  | removeEntry (path : Path) (allowDir : Bool)
  | rename (oldPath newPath : Path)
  | linkVfs (oldPath newPath : Path)
  | copyUp (ext4ReadFile : Path → Option (List UInt8)) (path : Path)

/-- One call, with the value it returns, where that is a number. -/
def Vfs.step (s : Vfs) : VfsOp → Option (List Int × Vfs)
  | .createFile path => some ([], (s.createFile path).2)
  | .mkdir path => some ([], (s.mkdir path).2)
  | .removeEntry path allowDir => some ([(s.removeEntry path allowDir).1], (s.removeEntry path allowDir).2)
  | .rename oldPath newPath => some ([(s.rename oldPath newPath).1], (s.rename oldPath newPath).2)
  | .linkVfs oldPath newPath => (s.linkVfs oldPath newPath).map fun (r, s) => ([r], s)
  | .copyUp ext4ReadFile path => some ([], (s.copyUp ext4ReadFile path).2)

end ChodOs
