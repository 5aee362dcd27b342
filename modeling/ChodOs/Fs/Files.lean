/-
What the nodes of the tree hold (`vfs/mod.rs`): contents by path, and
metadata. Calls that change a node leave every entry as it is.
-/
import ChodOs.Fs.Tree
import ChodOs.Lib.FileBytes

namespace ChodOs

open FileBytes

/-- What `stat_node` returns. -/
structure NodeStat where
  ino : Nat
  mode : Nat
  uid : Nat
  gid : Nat
  nlink : Nat
  size : Nat
  deriving DecidableEq

/-- `DirEntry`. -/
structure DirEntry where
  name : Name
  isDir : Bool
  size : Nat
  deriving DecidableEq

/-- `stat_node`. -/
def VfsNode.stat : VfsNode → NodeStat
  | .file f => ⟨f.info.ino, f.info.mode ||| 0o100000, f.info.uid, f.info.gid, f.info.nlink, f.data.length⟩
  | .dir _ info => ⟨info.ino, info.mode ||| 0o040000, info.uid, info.gid, info.nlink, 0⟩

namespace Vfs

/-- The file that a node is, if it is one. -/
def file (s : Vfs) (n : NodeRef) : Option FileNode :=
  match s.heap[n]? with
  | some (.file f) => some f
  | _ => none

/-- The node that a path leads to. -/
def nodeAt (s : Vfs) (path : Path) : Option (NodeRef × VfsNode) := do
  let n ← s.lookup path
  some (n, ← s.heap[n]?)

/-! ### Contents -/

def readFile (s : Vfs) (path : Path) : Option (List UInt8) :=
  match s.nodeAt path with
  | some (_, .file f) => some f.data
  | _ => none

/-- The common body of `write_file`, `append_file` and `truncate_vfs`: the file gets other contents. -/
def setData (s : Vfs) (n : NodeRef) (f : FileNode) (data : List UInt8) : Vfs := s.set n (.file { f with data })

def writeFile (s : Vfs) (path : Path) (data : List UInt8) : Bool × Vfs :=
  match s.nodeAt path with
  | some (n, .file f) => (true, s.setData n f data)
  | _ => (false, s)

def appendFile (s : Vfs) (path : Path) (data : List UInt8) : Bool × Vfs :=
  match s.nodeAt path with
  | some (n, .file f) => (true, s.setData n f (f.data ++ data))
  | _ => (false, s)

/-- `truncate_node`, of a node that is there. -/
def truncateNode (s : Vfs) (n : NodeRef) (size : Nat) : Int × Vfs :=
  match s.heap[n]? with
  | some (.file f) => (0, s.setData n f (resize f.data size))
  | _ => (-21, s)

def truncateVfs (s : Vfs) (path : Path) (size : Nat) : Int × Vfs :=
  match s.lookup path with
  | none => (enoent, s)
  | some n => s.truncateNode n size

/-- `TmpfsDir::list` of a directory, in the order of the names. -/
def listNodes (s : Vfs) (dir : TmpfsDir) : List DirEntry :=
  dir.toList.map fun (name, n) =>
    match s.heap[n]? with
    | some (.file f) => ⟨name, false, f.data.length⟩
    | _ => ⟨name, true, 0⟩

def listDir (s : Vfs) (path : Path) : List DirEntry :=
  match s.nodeAt path with
  | some (_, .dir dir _) => s.listNodes dir
  | _ => []

/-! ### Metadata -/

/-- The node with other metadata. -/
def setInfo (s : Vfs) (path : Path) (change : VfsMeta → VfsMeta) : Int × Vfs :=
  match s.nodeAt path with
  | none => (enoent, s)
  | some (n, .file f) => (0, s.set n (.file { f with info := change f.info }))
  | some (n, .dir dir info) => (0, s.set n (.dir dir (change info)))

def chmodVfs (s : Vfs) (path : Path) (mode : Nat) : Int × Vfs :=
  s.setInfo path fun info => { info with mode := mode &&& 0o7777 }

def chownVfs (s : Vfs) (path : Path) (uid gid : Nat) : Int × Vfs :=
  s.setInfo path fun info => { info with uid, gid }

/-- `stat_node`. -/
def statNode (s : Vfs) (n : NodeRef) : Option NodeStat := s.heap[n]?.map VfsNode.stat

def statPath (s : Vfs) (path : Path) : Option NodeStat := do s.statNode (← s.lookup path)

/-! ### Calls that change nodes -/

variable {s s' s'' : Vfs} {n r : NodeRef} {node node' : VfsNode} {path : Path}

theorem file_eq_some {f : FileNode} : s.file n = some f ↔ s.heap[n]? = some (.file f) := by
  unfold file
  split
  · next g hn =>
    rw [hn]
    exact ⟨fun h => by rw [Option.some.inj h], fun h => by cases h; rfl⟩
  · next hno => exact ⟨fun h => (by cases h), fun h => absurd h (hno f)⟩

theorem isDir_of_file {f : FileNode} (hf : s.file n = some f) : s.isDir n = false := by
  rw [isDir, file_eq_some.mp hf]

theorem file_set {p : NodeRef} : (s.set n node).file p = if n = p then (match node with | .file f => some f | _ => none) else s.file p := by
  simp only [file, getElem?_set]
  by_cases hn : n = p
  · rw [if_pos hn, if_pos hn]
    cases node <;> rfl
  · rw [if_neg hn, if_neg hn]

theorem file_of_isDir (hn : s.isDir n = true) : s.file n = none := by
  obtain ⟨dir, info, hn⟩ := isDir_iff.mp hn
  rw [file, hn]

/-- The states differ in what nodes hold only, not in where they are. -/
structure SameTree (s s' : Vfs) : Prop where
  root : s'.root = s.root
  nextRef : s'.nextRef = s.nextRef
  entry : s'.entry = s.entry
  isDir : ∀ a, s'.isDir a = s.isDir a

namespace SameTree

theorem refl : SameTree s s := ⟨rfl, rfl, rfl, fun _ => rfl⟩

theorem tree (h : SameTree s s') (ht : Tree s r) : Tree s' r := ht.congr h.root h.nextRef h.entry h.isDir

theorem find (h : SameTree s s') (names : List Name) : s'.find names = s.find names := by
  unfold Vfs.find
  rw [h.root]
  cases s.root with
  | none => rfl
  | some root => rw [Option.bind_some, Option.bind_some, walk_eq_follow, walk_eq_follow, h.entry]

theorem lookup (h : SameTree s s') (path : Path) : s'.lookup path = s.lookup path := by
  rw [lookup_eq_find, lookup_eq_find, h.find]

end SameTree

theorem nodeAt_eq_some : s.nodeAt path = some (n, node) ↔ s.lookup path = some n ∧ s.heap[n]? = some node := by
  unfold nodeAt
  cases s.lookup path with
  | none => simp
  | some m =>
    cases hm : s.heap[m]? with
    | none =>
      simp only [Option.bind_eq_bind, Option.bind_some, hm, Option.bind_none]
      constructor
      · intro h
        cases h
      · intro ⟨h, hn⟩
        obtain rfl := Option.some.inj h
        cases hm.symm.trans hn
    | some node' =>
      simp only [Option.bind_eq_bind, Option.bind_some, hm, Option.some.injEq, Prod.mk.injEq]
      constructor
      · intro h
        obtain ⟨rfl, rfl⟩ := h
        exact ⟨rfl, hm⟩
      · intro h
        obtain ⟨rfl, hn⟩ := h
        exact ⟨rfl, Option.some.inj (hm.symm.trans hn)⟩

theorem sameTree_set (hn : s.heap[n]? = some node) (he : node'.entry = node.entry) (hd : node'.isDir = node.isDir) :
    SameTree s (s.set n node') := by
  refine ⟨rfl, rfl, funext₂ fun a x => ?_, fun a => ?_⟩
  · rw [entry_set]
    split
    · next ha =>
      subst ha
      rw [he, entry, hn]
      cases node <;> rfl
    · rfl
  · rw [isDir_set]
    split
    · next ha =>
      subst ha
      rw [hd, isDir, hn]
      cases node <;> rfl
    · rfl

theorem sameTree_setData {f : FileNode} (hn : s.heap[n]? = some (.file f)) (data : List UInt8) :
    SameTree s (s.setData n f data) := sameTree_set hn rfl rfl

theorem sameTree_truncateNode (n : NodeRef) (size : Nat) : SameTree s (s.truncateNode n size).2 := by
  unfold truncateNode
  split
  · next f hn => exact sameTree_setData hn _
  · exact .refl

theorem sameTree_setInfo (path : Path) (change : VfsMeta → VfsMeta) : SameTree s (s.setInfo path change).2 := by
  unfold setInfo
  split
  · exact .refl
  · next n f hnode => exact sameTree_set (nodeAt_eq_some.mp hnode).2 rfl rfl
  · next n dir info hnode => exact sameTree_set (nodeAt_eq_some.mp hnode).2 rfl rfl

end Vfs
end ChodOs
