/-
The layers that a path is looked for in (`vfs/mod.rs`): the devices, the
process files, the writable tree and, below it, the mounted image. Each call
asks them in an order of its own.
-/
import ChodOs.Fs.Fds
import ChodOs.Fs.Files

namespace ChodOs

open FileBytes StepSys

/-! ### Process files (`procfs.rs`) -/

/-- `current_pid()` and `cpu_count()`. -/
structure ProcInfo where
  pid : Nat
  cpus : Nat

/-- The bytes of a text without other than ASCII characters. -/
def ascii (text : String) : List UInt8 := text.toList.map fun c => UInt8.ofNat c.toNat

/-- `procfs::read`. -/
def procRead (info : ProcInfo) (path : Path) : Option (List UInt8) :=
  let pid := info.pid
  let cpus := info.cpus
  if path = "/proc/version".toList then
    some (ascii "Linux version 5.15.0-mukernel (MuKernel) (gcc 12.2.0) #1 SMP MuKernel 2026\n")
  else if path = "/proc/meminfo".toList then
    some (ascii ("MemTotal:       524288 kB\nMemFree:        262144 kB\nMemAvailable:   262144 kB\n" ++
      "Buffers:        0 kB\nCached:         0 kB\nSwapTotal:      0 kB\nSwapFree:       0 kB\n"))
  else if path = "/proc/filesystems".toList then some (ascii "nodev\ttmpfs\n\text4\n")
  else if path = "/proc/mounts".toList ∨ path = "/proc/self/mounts".toList then
    some (ascii "tmpfs / tmpfs rw,relatime 0 0\next4 /ext4 ext4 ro,relatime 0 0\n")
  else if path = "/proc/self/exe".toList then some (ascii "/usr/bin/sh\x00")
  else if path = "/proc/self/cmdline".toList then some (ascii "sh\x00")
  else if path = "/proc/self/environ".toList then some (ascii "PATH=/usr/bin:/bin\x00HOME=/root\x00\x00")
  else if path = "/proc/self/status".toList then
    some (ascii s!"Name:\tsh\nState:\tR (running)\nPid:\t{pid}\nPPid:\t0\nVmRSS:\t4096 kB\nThreads:\t1\n")
  else if path = "/proc/self/maps".toList then some []
  else if path = "/proc/self/fd".toList then some []
  else if path = "/proc/sys/kernel/hostname".toList then some (ascii "mukernel\n")
  else if path = "/proc/sys/kernel/ostype".toList then some (ascii "Linux\n")
  else if path = "/proc/sys/kernel/osrelease".toList then some (ascii "5.15.0-mukernel\n")
  else if path = "/proc/cpuinfo".toList then
    some (ascii (s!"processor\t: 0\nvendor_id\t: MuKernel\ncpu family\t: 6\nmodel name\t: MuKernel x86_64 vCPU\n" ++
      s!"cpu cores\t: {cpus}\ncache size\t: 4096 KB\n\n"))
  else none

/-- The directories among the process files. -/
def isProcDir (path : Path) : Bool :=
  path == "/proc".toList || path == "/proc/self".toList || path == "/proc/self/fd".toList ||
    path == "/proc/sys".toList || path == "/proc/sys/kernel".toList

/-- `procfs::exists`. -/
def procExists (info : ProcInfo) (path : Path) : Bool := isProcDir path || (procRead info path).isSome

/-- `procfs::list`. -/
def procList (path : Path) : List (Name × Bool) :=
  if path = "/proc".toList then
    [("version".toList, false), ("meminfo".toList, false), ("filesystems".toList, false), ("mounts".toList, false),
     ("cpuinfo".toList, false), ("self".toList, true), ("sys".toList, true)]
  else if path = "/proc/self".toList then
    [("exe".toList, false), ("cmdline".toList, false), ("environ".toList, false), ("status".toList, false),
     ("maps".toList, false), ("fd".toList, true), ("mounts".toList, false)]
  else if path = "/proc/sys".toList then [("kernel".toList, true)]
  else if path = "/proc/sys/kernel".toList then
    [("hostname".toList, false), ("ostype".toList, false), ("osrelease".toList, false)]
  else []

/-! ### Devices (`dev.rs`) -/

/-- `dev::exists`. -/
def devExists (path : Path) : Bool := path == "/dev".toList || path == "/dev/pts".toList || (kindOf path).isSome

/-- `dev::list`. -/
def devList (path : Path) : List (Name × Bool) :=
  if path = "/dev".toList then
    [("null".toList, false), ("zero".toList, false), ("full".toList, false), ("random".toList, false),
     ("urandom".toList, false), ("tty".toList, false), ("console".toList, false), ("stdin".toList, false),
     ("stdout".toList, false), ("stderr".toList, false), ("pts".toList, true)]
  else if path = "/dev/pts".toList then [("0".toList, false)]
  else []

/-- `dev::stat`: mode and size. -/
def devStat (path : Path) : Option (Nat × Nat) :=
  if isDevDir path then some (0o040755, 0) else (kindOf path).map fun _ => (0o020666, 0)

/-! ### The image (`ext4fs.rs`) -/

/-- `ext4_view::DirEntry`: the name as `from_utf8_lossy` has it, and whether the type is `Directory`. -/
structure Ext4Entry where
  fileName : Name
  isDir : Bool

/-- A loaded image, as `ext4_view` reads it: `none` is an error, of the path
or of the call; an entry that cannot be read is `none`, too. -/
structure Ext4View where
  read : Path → Option (List UInt8)
  readDir : Path → Option (List (Option Ext4Entry))
  metadata : Path → Bool

/-- `Ext4Fs::list_dir`. -/
def Ext4View.listDir (fs : Ext4View) (path : Path) : List DirEntry :=
  match fs.readDir path with
  | none => []
  | some entries => entries.reduceOption.filterMap fun entry =>
    let name := entry.fileName
    if name = ".".toList ∨ name = "..".toList then none
    else
      let full := path.rdropWhile (· == '/') ++ '/' :: name
      some ⟨name, entry.isDir, if entry.isDir then 0 else ((fs.read full).map List.length).getD 0⟩

/-- An image that has `/etc/os-release` and nothing else. -/
def oneFile : Ext4View where
  read path :=
    if path.head? = some '/' ∧ parts path = ["etc".toList, "os-release".toList] then some (ascii "ID=mu\n") else none
  readDir path :=
    let dots := [some ⟨".".toList, true⟩, some ⟨"..".toList, true⟩]
    if path.head? = some '/' ∧ parts path = [] then some (dots ++ [some ⟨"etc".toList, true⟩])
    else if path.head? = some '/' ∧ parts path = ["etc".toList] then some (dots ++ [some ⟨"os-release".toList, false⟩])
    else none
  metadata path :=
    path.head? = some '/' ∧ parts path ∈ [[], ["etc".toList], ["etc".toList, "os-release".toList]]

section
variable (ext4 : Option Ext4View)

def ext4ReadFile (path : Path) : Option (List UInt8) := ext4.bind fun fs => fs.read path

def ext4ListDir (path : Path) : List DirEntry := (ext4.map fun fs => fs.listDir path).getD []

def ext4Exists (path : Path) : Bool := (ext4.map fun fs => fs.metadata path).getD false

namespace Vfs

/-! ### The layers together -/

def openWritable (s : Vfs) (path : Path) (oCreat : Bool) : Option NodeRef × Vfs :=
  match s.lookup path with
  | some node => (some node, s)
  | none =>
    if ext4Exists ext4 path then s.copyUp (ext4ReadFile ext4) path
    else if oCreat then (s.ensureParentDirs path).createFile path
    else (none, s)

def openReadonly (s : Vfs) (path : Path) : Option (List UInt8) :=
  match s.readFile path with
  | some v => some v
  | none => ext4ReadFile ext4 path

/-- `is_dir` of a path. -/
def isDirPath (s : Vfs) (path : Path) : Bool :=
  if path = ['/'] then true
  else if ChodOs.isDev path then isDevDir path
  else match s.lookup path with
    | some n => s.isDir n
    | none => !(ext4ListDir ext4 path).isEmpty

def existsAny (s : Vfs) (info : ProcInfo) (path : Path) : Bool :=
  if path = ['/'] then true
  else if isProc path then procExists info path
  else if ChodOs.isDev path then devExists path
  else if (s.lookup path).isSome then true
  else if (ext4ReadFile ext4 path).isSome then true
  else !(ext4ListDir ext4 path).isEmpty

/-- What `stat_any` says of a process file. -/
def procStat (info : ProcInfo) (path : Path) : NodeStat :=
  ⟨0, if isProcDir path then 0o040555 else 0o100444, 0, 0, 1,
    if isProcDir path then 0 else ((procRead info path).map List.length).getD 0⟩

def statAny (s : Vfs) (info : ProcInfo) (path : Path) : Option NodeStat :=
  if path = ['/'] then some ⟨1, 0o040755, 0, 0, 2, 0⟩
  else if ChodOs.isDev path then (devStat path).map fun (mode, size) => ⟨0, mode, 0, 0, 1, size⟩
  else if isProc path && procExists info path then some (procStat info path)
  else match s.statPath path with
    | some st => some st
    | none =>
      match ext4ReadFile ext4 path with
      | some data => some ⟨0, 0o100644, 0, 0, 1, data.length⟩
      | none => if (ext4ListDir ext4 path).isEmpty then none else some ⟨0, 0o040755, 0, 0, 2, 0⟩

end Vfs

/-! ### Runs of all calls -/

/-- The calls on a mounted file system; `change` is a descriptor's write to its node. -/
inductive VfsCall
  | tree (op : VfsOp)
  | openWritable (path : Path) (oCreat : Bool)
  | writeFile (path : Path) (data : List UInt8)
  | appendFile (path : Path) (data : List UInt8)
  | truncateVfs (path : Path) (size : Nat)
  | chmodVfs (path : Path) (mode : Nat)
  | chownVfs (path : Path) (uid gid : Nat)
  | change (n : NodeRef) (c : Change)

namespace Vfs

/-- `FileResource::write_at` and `truncate` of an open node: what is no file stays as it is. -/
def changeNode (s : Vfs) (n : NodeRef) (c : Change) : Vfs :=
  match s.heap[n]? with
  | some (.file f) => s.setData n f (c.apply f.data)
  | _ => s

/-- One call, with the value it returns, where that is a number. -/
def call (s : Vfs) : VfsCall → Option (List Int × Vfs)
  | .tree op => s.step op
  | .openWritable path oCreat => some ([], (s.openWritable ext4 path oCreat).2)
  | .writeFile path data => some ([], (s.writeFile path data).2)
  | .appendFile path data => some ([], (s.appendFile path data).2)
  | .truncateVfs path size => some ([(s.truncateVfs path size).1], (s.truncateVfs path size).2)
  | .chmodVfs path mode => some ([(s.chmodVfs path mode).1], (s.chmodVfs path mode).2)
  | .chownVfs path uid gid => some ([(s.chownVfs path uid gid).1], (s.chownVfs path uid gid).2)
  | .change n c => some ([], s.changeNode n c)

end Vfs
end

/-! ### What every call keeps -/

def VfsNode.info : VfsNode → VfsMeta
  | .file f => f.info
  | .dir _ info => info

namespace Vfs

variable {s s' : Vfs} {n p q m r : NodeRef} {node : VfsNode} {x y : Name} {path : Path} {ext4 : Option Ext4View}

/-- Every node that was allocated is there, and modes are permission bits. -/
structure Stored (s : Vfs) : Prop where
  all : ∀ n < s.nextRef, (s.heap[n]?).isSome = true
  mode : ∀ {n : NodeRef} {node : VfsNode}, s.heap[n]? = some node → node.info.mode < 0o10000

theorem Stored.set (h : Stored s) (hmode : node.info.mode < 0o10000) : Stored (s.set n node) := by
  refine ⟨fun a ha => ?_, fun {a node'} ha => ?_⟩
  · rw [getElem?_set]
    split
    · rfl
    · exact h.all a ha
  · rw [getElem?_set] at ha
    split at ha
    · exact Option.some.inj ha ▸ hmode
    · exact h.mode ha

/-- The node has the metadata of one that is there. -/
theorem Stored.set_of {node' : VfsNode} (h : Stored s) (hn : s.heap[m]? = some node) (hinfo : node'.info = node.info) :
    Stored (s.set n node') := h.set (hinfo ▸ h.mode hn)

theorem Stored.alloc {new : Nat → VfsNode} (h : Stored s) (hnew : ∀ ino, (new ino).info.mode < 0o10000) :
    Stored (s.alloc new).2 := by
  have hset : Stored (s.set s.nextRef (new s.inoSeq)) := h.set (hnew _)
  refine ⟨fun a ha => ?_, hset.mode⟩
  rcases Nat.lt_succ_iff_lt_or_eq.mp ha with hlt | rfl
  · exact hset.all a hlt
  · show ((s.set s.nextRef _).heap[s.nextRef]?).isSome = true
    rw [getElem?_set, if_pos rfl]
    rfl

theorem Stored.remove (h : Stored s) (hr : s.remove p x = some (m, s')) : Stored s' := by
  unfold Vfs.remove at hr
  split at hr
  · next dir info hp =>
    split at hr
    · obtain ⟨-, rfl⟩ := Prod.mk.inj (Option.some.inj hr)
      exact h.set_of hp rfl
    · cases hr
  · cases hr

theorem Stored.insert (h : Stored s) (hi : s.insert q y m = some s') : Stored s' := by
  unfold Vfs.insert at hi
  split at hi
  · next dir info hq =>
    obtain rfl := Option.some.inj hi
    exact h.set_of hq rfl
  · cases hi

theorem Stored.create {new : Nat → VfsNode} (h : Stored s) (path : Path) (hnew : ∀ ino, (new ino).info.mode < 0o10000) :
    Stored (s.create path new).2 := by
  unfold Vfs.create
  split
  · exact h
  split
  · exact h
  split
  · next dir info hp =>
    simp only [orInsertWith]
    split
    · exact h
    · exact (h.alloc hnew).set (show info.mode < 0o10000 from h.mode hp)
  · exact h

theorem Stored.createFile (h : Stored s) (path : Path) : Stored (s.createFile path).2 :=
  h.create path fun _ => show 0o644 < 0o10000 by decide

theorem Stored.mkdir (h : Stored s) (path : Path) : Stored (s.mkdir path).2 :=
  h.create path fun _ => show 0o755 < 0o10000 by decide

theorem Stored.ensureDirs {names : List Name} {cur : Path} (h : Stored s) : Stored (s.ensureDirs cur names) := by
  induction names generalizing s cur with
  | nil => exact h
  | cons part names ih =>
    simp only [Vfs.ensureDirs]
    split
    · exact ih (h.mkdir _)
    · exact ih h

theorem Stored.ensureParentDirs (h : Stored s) (path : Path) : Stored (s.ensureParentDirs path) := by
  unfold Vfs.ensureParentDirs
  simp only
  split
  · exact h
  · exact h.ensureDirs

theorem Stored.copyUp (h : Stored s) (ext4ReadFile : Path → Option (List UInt8)) (path : Path) :
    Stored (s.copyUp ext4ReadFile path).2 := by
  have hfile := (h.ensureParentDirs path).createFile path
  unfold Vfs.copyUp
  split
  · exact h
  split
  · exact h
  split
  · next heq => rwa [heq] at hfile
  · next node s₁ heq =>
    rw [heq] at hfile
    split
    · next f hn => exact hfile.set_of hn rfl
    · exact hfile

theorem Stored.removeEntry (h : Stored s) (path : Path) (allowDir : Bool) : Stored (s.removeEntry path allowDir).2 := by
  unfold Vfs.removeEntry
  split
  · exact h
  split
  · exact h
  split
  · exact h
  simp only
  split
  · exact h
  split
  · next hr => exact h.remove hr
  · exact h

theorem Stored.rename (h : Stored s) (oldPath newPath : Path) : Stored (s.rename oldPath newPath).2 :=
  rename_induct h (fun hr => h.remove hr) fun hr hi => (h.remove hr).insert hi

theorem Stored.linkVfs {oldPath newPath : Path} {e : Int} (h : Stored s) (hl : s.linkVfs oldPath newPath = some (e, s')) :
    Stored s' := by
  have hsame : ∀ {e'}, some (e', s) = some (e, s') → Stored s' := fun heq =>
    (Prod.mk.inj (Option.some.inj heq)).2 ▸ h
  unfold Vfs.linkVfs at hl
  split at hl
  · exact hsame hl
  split at hl
  · exact hsame hl
  split at hl
  · exact hsame hl
  split at hl
  · exact hsame hl
  split at hl
  · exact hsame hl
  next s₁ hi =>
  have hs₁ := h.insert hi
  split at hl
  · next f hf =>
    obtain ⟨nlink, -, hl⟩ := Option.bind_eq_some_iff.mp hl
    obtain ⟨-, rfl⟩ := Prod.mk.inj (Option.some.inj hl)
    exact hs₁.set (show f.info.mode < 0o10000 from hs₁.mode hf)
  · obtain ⟨-, rfl⟩ := Prod.mk.inj (Option.some.inj hl)
    exact hs₁

theorem Stored.step {op : VfsOp} {ret : List Int} (h : Stored s) (hs : s.step op = some (ret, s')) : Stored s' := by
  cases op with
  | createFile path =>
    obtain ⟨-, rfl⟩ := Prod.mk.inj (Option.some.inj hs)
    exact h.createFile path
  | mkdir path =>
    obtain ⟨-, rfl⟩ := Prod.mk.inj (Option.some.inj hs)
    exact h.mkdir path
  | removeEntry path allowDir =>
    obtain ⟨-, rfl⟩ := Prod.mk.inj (Option.some.inj hs)
    exact h.removeEntry path allowDir
  | rename oldPath newPath =>
    obtain ⟨-, rfl⟩ := Prod.mk.inj (Option.some.inj hs)
    exact h.rename oldPath newPath
  | linkVfs oldPath newPath =>
    obtain ⟨⟨e, s₁⟩, hl, heq⟩ := Option.map_eq_some_iff.mp hs
    obtain ⟨-, rfl⟩ := Prod.mk.inj heq
    exact h.linkVfs hl
  | copyUp ext4ReadFile path =>
    obtain ⟨-, rfl⟩ := Prod.mk.inj (Option.some.inj hs)
    exact h.copyUp ext4ReadFile path

/-- A tree whose nodes are all there. -/
structure Sound (s : Vfs) (r : NodeRef) : Prop where
  tree : Tree s r
  stored : Stored s

theorem Sound.setData (h : Sound s r) {f : FileNode} (hn : s.heap[n]? = some (.file f)) (data : List UInt8) :
    Sound (s.setData n f data) r := ⟨(sameTree_setData hn data).tree h.tree, h.stored.set_of hn rfl⟩

theorem Sound.setInfo (h : Sound s r) (path : Path) {change : VfsMeta → VfsMeta}
    (hchange : ∀ info, info.mode < 0o10000 → (change info).mode < 0o10000) : Sound (s.setInfo path change).2 r := by
  refine ⟨(sameTree_setInfo path change).tree h.tree, ?_⟩
  unfold Vfs.setInfo
  split
  · exact h.stored
  · next n f hnode => exact h.stored.set (hchange f.info (h.stored.mode (nodeAt_eq_some.mp hnode).2))
  · next n dir info hnode => exact h.stored.set (hchange info (h.stored.mode (nodeAt_eq_some.mp hnode).2))

theorem Sound.openWritable (h : Sound s r) (path : Path) (oCreat : Bool) :
    Sound (s.openWritable ext4 path oCreat).2 r := by
  unfold Vfs.openWritable
  split
  · exact h
  split
  · exact ⟨(grown_copyUp _ path h.tree).tree, h.stored.copyUp _ path⟩
  split
  · exact ⟨(grown_createFile path (grown_ensureParentDirs path h.tree).tree).tree,
      (h.stored.ensureParentDirs path).createFile path⟩
  · exact h

theorem Sound.changeNode (h : Sound s r) (n : NodeRef) (c : Change) : Sound (s.changeNode n c) r := by
  unfold Vfs.changeNode
  split
  · next hn => exact h.setData hn _
  · exact h

theorem Sound.call {c : VfsCall} {ret : List Int} (h : Sound s r) (hs : s.call ext4 c = some (ret, s')) : Sound s' r := by
  cases c with
  | tree op => exact ⟨(h.tree.step hs).1, h.stored.step hs⟩
  | openWritable path oCreat =>
    obtain ⟨-, rfl⟩ := Prod.mk.inj (Option.some.inj hs)
    exact h.openWritable path oCreat
  | writeFile path data =>
    obtain ⟨-, rfl⟩ := Prod.mk.inj (Option.some.inj hs)
    unfold Vfs.writeFile
    split
    · next hnode => exact h.setData (nodeAt_eq_some.mp hnode).2 _
    · exact h
  | appendFile path data =>
    obtain ⟨-, rfl⟩ := Prod.mk.inj (Option.some.inj hs)
    unfold Vfs.appendFile
    split
    · next hnode => exact h.setData (nodeAt_eq_some.mp hnode).2 _
    · exact h
  | truncateVfs path size =>
    obtain ⟨-, rfl⟩ := Prod.mk.inj (Option.some.inj hs)
    unfold Vfs.truncateVfs truncateNode
    split
    · exact h
    split
    · next hn => exact h.setData hn _
    · exact h
  | chmodVfs path mode =>
    obtain ⟨-, rfl⟩ := Prod.mk.inj (Option.some.inj hs)
    exact h.setInfo path fun _ _ => Nat.lt_succ_of_le Nat.and_le_right
  | chownVfs path uid gid =>
    obtain ⟨-, rfl⟩ := Prod.mk.inj (Option.some.inj hs)
    exact h.setInfo path fun _ hmode => hmode
  | change n c =>
    obtain ⟨-, rfl⟩ := Prod.mk.inj (Option.some.inj hs)
    exact h.changeNode n c

theorem sound_init : Sound boot.init 0 := by
  refine ⟨tree_init, ?_⟩
  have hboot : Stored boot :=
    ⟨fun n hn => absurd hn (Nat.not_lt_zero n), fun hn => by cases Std.ExtTreeMap.getElem?_empty.symm.trans hn⟩
  have halloc : Stored (boot.alloc fun ino => .dir ∅ (.newDir ino)).2 :=
    hboot.alloc fun _ => show 0o755 < 0o10000 by decide
  have hroot : Stored boot.mountRoot := ⟨halloc.all, halloc.mode⟩
  have hdirs : ∀ (dirs : List Path) (s : Vfs), Stored s → Stored (dirs.foldl (fun s d => (s.mkdir d).2) s) := by
    intro dirs
    induction dirs with
    | nil => exact fun s h => h
    | cons d dirs ih => exact fun s h => ih _ (h.mkdir d)
  exact hdirs standardDirs _ hroot

theorem sound_of_runs {h : List Int} (hr : Runs (Vfs.call ext4) free boot.init h s) : Sound s 0 :=
  hr.invariant_state (Sound · 0) sound_init fun hsound _ hs => hsound.call hs

end Vfs
end ChodOs
