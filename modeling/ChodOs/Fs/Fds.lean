/-
File descriptors (`syscall/fd.rs`, `dev.rs`, `pipe.rs`, `sock.rs`, and
`sys_open_impl`, `sys_read`, `sys_write`, `sys_close`). Five allocators give
out numbers: the handle table from 3, pipes from 10, sockets from 20, 9 for
an epoll instance and 99 for the null stub.

A number is the bit pattern of an `i32` or `u32`. Two fields of the state are
ghosts: `made` counts the objects, so that each has a serial of its own (an
`Arc`'s is its allocation), and `pipe` is the serial of the pipe that the
one ring buffer stands for.
-/
import ChodOs.Fs.Handle
import ChodOs.Fs.Path
import Mathlib.Algebra.Ring.Int.Defs

namespace ChodOs

open History StepSys

/-- `Arc<T>`: which allocation it is, and what is in it. -/
structure Arc (T : Type) where
  serial : Nat
  value : T

/-! ### What the table holds -/

/-- The types whose values are registered. -/
inductive ResourceType
  | file | dir | dev
  deriving DecidableEq, Repr

/-- `FileResource`; the position in the file is not modelled. -/
structure FileResource where
  path : Path
  vfsNode : Option NodeRef
  data : List UInt8
  write : Bool

def FileResource.newReadonly (path : Path) (data : List UInt8) : FileResource :=
  { path, vfsNode := none, data, write := false }

def FileResource.newLive (path : Path) (node : NodeRef) : FileResource :=
  { path, vfsNode := some node, data := [], write := true }

structure DirResource where
  path : Path

inductive DevKind
  | null | zero | full | random | tty | pts (n : Nat) | stdin | stdout | stderr
  deriving DecidableEq, Repr

structure DevResource where
  kind : DevKind
  path : Path

/-- The `Arc`s of each type. -/
def Resource : ResourceType → Type
  | .file => Arc FileResource
  | .dir => Arc DirResource
  | .dev => Arc DevResource

def Resource.serial : {T : ResourceType} → Resource T → Nat
  | .file, a => Arc.serial a
  | .dir, a => Arc.serial a
  | .dev, a => Arc.serial a

/-! ### Device paths (`dev.rs`) -/

/-- `str::parse::<u32>`. -/
def parseU32 (s : List Char) : Option Nat :=
  let digits := match s with
    | '+' :: c :: cs => c :: cs
    | _ => s
  if digits.isEmpty || !digits.all Char.isDigit then none
  else
    let n := digits.foldl (fun n c => 10 * n + (c.toNat - '0'.toNat)) 0
    if n < 2 ^ 32 then some n else none

/-- `kind_of`. -/
def kindOf (path : Path) : Option DevKind :=
  if path = "/dev/null".toList then some .null
  else if path = "/dev/zero".toList then some .zero
  else if path = "/dev/full".toList then some .full
  else if path = "/dev/random".toList then some .random
  else if path = "/dev/urandom".toList then some .random
  else if path = "/dev/tty".toList then some .tty
  else if path = "/dev/console".toList then some .tty
  else if path = "/dev/stdin".toList then some .stdin
  else if path = "/dev/stdout".toList then some .stdout
  else if path = "/dev/stderr".toList then some .stderr
  else if "/dev/pts/".toList.isPrefixOf path then
    some (.pts ((parseU32 (path.drop "/dev/pts/".toList.length)).getD 0))
  else none

/-- `dev::is_dir`. -/
def isDevDir (path : Path) : Bool := path == "/dev".toList || path == "/dev/pts".toList

/-! ### The state -/

/-- `-1_i32`. -/
def minusOne : Nat := 2 ^ 32 - 1

/-- `FD_DEV_NULL`. -/
def fdDevNull : Nat := 99

def efault : Int := -14
def eafnosupport : Int := -97
def eprotonosupport : Int := -93

structure FdSys where
  table : HandleTable Resource
  nextPipeFd : Nat
  pipeReadFd : Nat
  pipeWriteFd : Nat
  sockNextFd : Nat
  made : Nat
  pipe : Nat

/-- What the file system answers while one `open` runs; `nodeFor` is `lookup`, or else `create_file`. -/
structure VfsView where
  existsAny : Path → Bool
  procRead : Path → Option (List UInt8)
  procExists : Path → Bool
  nodeFor : Path → Option NodeRef
  openWritable : Path → Bool → Option NodeRef
  openReadonly : Path → Option (List UInt8)
  isDir : Path → Bool

namespace FdSys

def boot : FdSys where
  table := .new
  nextPipeFd := 10
  pipeReadFd := minusOne
  pipeWriteFd := minusOne
  sockNextFd := 20
  made := 0
  pipe := 0

/-! ### Opening -/

/-- `with_table(|t| t.insert(Capability::new(..)).id)`: a new `Arc` goes into the table. -/
def register (s : FdSys) (T : ResourceType) (new : Nat → Resource T) (rights : Rights) : Option (Nat × FdSys) := do
  let (h, table) ← s.table.insert true ⟨new s.made, rights⟩
  some (h.id, { s with table, made := s.made + 1 })

def openFileWritable (s : FdSys) (path : Path) (node : NodeRef) : Option (Nat × FdSys) :=
  s.register .file (⟨·, .newLive path node⟩) (Rights.read.or Rights.write)

def openFile (s : FdSys) (vfs : VfsView) (path : Path) (data : List UInt8) (writable : Bool) :
    Option (Nat × FdSys) :=
  match if writable then vfs.nodeFor path else none with
  | some node => s.openFileWritable path node
  | none => s.register .file (⟨·, .newReadonly path data⟩) Rights.read

def openDir (s : FdSys) (path : Path) : Option (Nat × FdSys) := s.register .dir (⟨·, ⟨path⟩⟩) Rights.read

/-- `dev::open`. The inner `none` is a path that is no device's. -/
def devOpen (s : FdSys) (path : Path) : Option (Option Nat × FdSys) :=
  match kindOf path with
  | none => some (none, s)
  | some kind => do
    let (fd, s) ← s.register .dev (⟨·, ⟨kind, path⟩⟩) (Rights.read.or Rights.write)
    some (some fd, s)

/-- A descriptor as an `i64` return value. -/
def ret (r : Option (Nat × FdSys)) : Option (Int × FdSys) := r.map fun (fd, s) => ((fd : Int), s)

/-- `sys_open_impl`; `path` is what `read_cstr` read. -/
def sysOpenImpl (s : FdSys) (vfs : VfsView) (path : Option Path) (flags : Nat) : Option (Int × FdSys) :=
  match path with
  | none => some (einval, s)
  | some path =>
    if isDev path then
      if isDevDir path then ret (s.openDir path)
      else if path = "/dev/null".toList ∨ path = "/dev/zero".toList then some (fdDevNull, s)
      else (s.devOpen path).map fun
        | (some fd, s) => ((fd : Int), s)
        | (none, s) => (enoent, s)
    else
      let oDir := flags &&& 0o200000 != 0
      let oCreat := flags &&& 0x40 != 0
      let writable := flags &&& 0x03 != 0
      if oDir || path == ['/'] || path.getLast? == some '/' then
        if vfs.existsAny path then ret (s.openDir path) else some (enoent, s)
      else if isProc path then
        match vfs.procRead path with
        | some data => ret (s.openFile vfs path data false)
        | none => if vfs.procExists path then ret (s.openDir path) else some (enoent, s)
      else if writable || oCreat then
        match vfs.openWritable path oCreat with
        | some node => ret (s.openFileWritable path node)
        | none => some (enoent, s)
      else match vfs.openReadonly path with
        | some data => ret (s.openFile vfs path data false)
        | none => if vfs.isDir path then ret (s.openDir path) else some (enoent, s)

/-- `sys_pipe`: the value and the two numbers written for the caller. `none`: `r + 1` traps. -/
def sysPipe (s : FdSys) (fdsVaddr : Nat) : Option (Int × Option (Nat × Nat) × FdSys) :=
  if fdsVaddr = 0 then some (efault, none, s)
  else
    let r := s.nextPipeFd
    if r = 2 ^ 31 - 1 then none
    else
      let w := (r + 1) % 2 ^ 32
      some (0, some (r, w),
        { s with nextPipeFd := (r + 2) % 2 ^ 32, pipeReadFd := r, pipeWriteFd := w, pipe := s.made, made := s.made + 1 })

/-- `domain` and `sock_type` are ones that `sys_socket` takes. -/
def sockError (domain sockType : Nat) : Option Int :=
  if ¬ (domain = 1 ∨ domain = 2 ∨ domain = 10) then some eafnosupport
  else
    let baseType := sockType - (sockType &&& 0x800)
    if ¬ (baseType = 1 ∨ baseType = 2 ∨ baseType = 3) then some eprotonosupport else none

/-- The pattern `n` as an `i32`. -/
def asI32 (n : Nat) : Int := if n < 2 ^ 31 then n else (n : Int) - 2 ^ 32

def sysSocket (s : FdSys) (domain sockType : Nat) : Int × FdSys :=
  match sockError domain sockType with
  | some e => (e, s)
  | none => (asI32 s.sockNextFd, { s with sockNextFd := (s.sockNextFd + 1) % 2 ^ 32, made := s.made + 1 })

/-- `sys_epoll_create`: the one watch list is emptied. -/
def sysEpollCreate (s : FdSys) : Int × FdSys := (9, { s with made := s.made + 1 })

/-! ### Reading, writing, closing -/

/-- `is_read_fd`, `is_write_fd`. -/
def isReadFd (s : FdSys) (fd : Nat) : Bool := fd != minusOne && fd == s.pipeReadFd
def isWriteFd (s : FdSys) (fd : Nat) : Bool := fd != minusOne && fd == s.pipeWriteFd

end FdSys

/-- What a descriptor is opened for, or a call on one reaches: each successful
call opens an object of its own, but `/dev/null` is one device. -/
inductive Object
  | stdin | terminal
  | null | zero
  | resource (serial : Nat) (type : ResourceType) (rights : Rights)
  | pipeRead (serial : Nat)
  | pipeWrite (serial : Nat)
  | socket (serial : Nat)
  | epoll (serial : Nat)
  deriving DecidableEq

def RawCapability.toObject (raw : RawCapability Resource) : Object :=
  .resource raw.object.2.serial raw.object.1 raw.rights

namespace FdSys

/-- `get::<T>(fd, required)`, as an object reached. -/
def reachTable (s : FdSys) (T : ResourceType) (fd : Nat) (required : Rights) : Option Object :=
  if (s.table.get T fd required).isSome then s.table.table[fd]?.map (·.toObject) else none

/-- `dev::is_dev_fd`. -/
def isDevFd (s : FdSys) (fd : Nat) : Bool := (s.table.get .dev fd Rights.none).isSome

/-- The object that `sys_read` of some bytes goes to; `none` where it has an error to return. -/
def sysRead (s : FdSys) (fd : Nat) : Option Object :=
  if s.isReadFd (fd % 2 ^ 32) then some (.pipeRead s.pipe)
  else if fd = 0 then some .stdin
  else if fd = fdDevNull then some .null
  else if 3 ≤ fd then
    if s.isDevFd (fd % 2 ^ 32) then s.reachTable .dev (fd % 2 ^ 32) Rights.none
    else s.reachTable .file (fd % 2 ^ 32) Rights.read
  else none

/-- The same for `sys_write`. -/
def sysWrite (s : FdSys) (fd : Nat) : Option Object :=
  if s.isWriteFd (fd % 2 ^ 32) then some (.pipeWrite s.pipe)
  else if fd = 1 ∨ fd = 2 then some .terminal
  else if fd = fdDevNull then some .null
  else if 3 ≤ fd then
    if s.isDevFd (fd % 2 ^ 32) then s.reachTable .dev (fd % 2 ^ 32) Rights.none
    else s.reachTable .file (fd % 2 ^ 32) Rights.write
  else none

/-- `sys_close`, with the object it closes or leaves open on purpose. -/
def sysClose (s : FdSys) (fd : Nat) : Option Object × FdSys :=
  if fd = 0 then (some .stdin, s)
  else if fd = 1 ∨ fd = 2 then (some .terminal, s)
  else if fd = fdDevNull then (some .null, s)
  else if s.isReadFd (fd % 2 ^ 32) then (some (.pipeRead s.pipe), s)
  else if s.isWriteFd (fd % 2 ^ 32) then (some (.pipeWrite s.pipe), s)
  else
    (s.table.table[fd % 2 ^ 32]?.map (·.toObject), { s with table := (s.table.close (fd % 2 ^ 32)).2 })

end FdSys

/-! ### Runs -/

inductive FdCall
  | open (vfs : VfsView) (path : Option Path) (flags : Nat)
  | pipe (fdsVaddr : Nat)
  | socket (domain sockType : Nat)
  | epollCreate
  | close (fd : Nat)

/-- A descriptor was handed out for an object, or its number was closed. -/
inductive FdEvent
  | opened (fd : Nat) (obj : Object)
  | closed (fd : Nat)
  deriving DecidableEq

namespace FdSys

/-- What an `open` of `path` that succeeded has opened: the newest table entry, but for the stub's two paths. -/
def openedObject (s : FdSys) (path : Option Path) (fd : Nat) : Option Object :=
  if path = some "/dev/null".toList then some .null
  else if path = some "/dev/zero".toList then some .zero
  else s.table.table[fd]?.map (·.toObject)

/-- A descriptor that a call returned, if it is one. -/
def handOut (r : Int) (obj : Option Object) : List FdEvent :=
  if r < 0 then [] else obj.toList.map (.opened r.toNat)

def step (s : FdSys) : FdCall → Option (List FdEvent × FdSys)
  | .open vfs path flags => (s.sysOpenImpl vfs path flags).map fun (r, s') =>
      (handOut r (s'.openedObject path r.toNat), s')
  | .pipe fdsVaddr => (s.sysPipe fdsVaddr).map fun
      | (_, some (r, w), s') => ([.opened r (.pipeRead s.made), .opened w (.pipeWrite s.made)], s')
      | (_, none, s') => ([], s')
  | .socket domain sockType =>
      let (r, s') := s.sysSocket domain sockType
      some (handOut r (some (.socket s.made)), s')
  | .epollCreate =>
      let (r, s') := s.sysEpollCreate
      some (handOut r (some (.epoll s.made)), s')
  | .close fd => some ([.closed (fd % 2 ^ 32)], (s.sysClose fd).2)

end FdSys

/-- The descriptor `fd` was handed out for `obj` and has not been closed since. -/
def OpenFd (h : List FdEvent) (fd : Nat) (obj : Object) : Prop := Since (· = .opened fd obj) (· = .closed fd) h

instance {h : List FdEvent} {fd : Nat} {obj : Object} : Decidable (OpenFd h fd obj) :=
  inferInstanceAs (Decidable (Since _ _ h))

/-- A call on a descriptor. -/
inductive FdUse
  | read | write | close
  deriving DecidableEq

/-- The object that a call on `fd` reaches. -/
def FdSys.reach (s : FdSys) (use : FdUse) (fd : Nat) : Option Object :=
  match use with
  | .read => s.sysRead fd
  | .write => s.sysWrite fd
  | .close => (s.sysClose fd).1

/-- The call is one that the kernel has for the object: files by their
rights, directories to be closed only, the pipe that the buffer stands for
at its own end. Sockets, the epoll instance and earlier pipes have none. -/
def FdSys.Serves (s : FdSys) (use : FdUse) : Object → Prop
  | .stdin | .terminal | .null | .zero => True
  | .resource _ .dev _ => True
  | .resource _ .dir _ => use = .close
  | .resource _ .file rights =>
    match use with
    | .read => rights.contains Rights.read = true
    | .write => rights.contains Rights.write = true
    | .close => True
  | .pipeRead n => n = s.pipe ∧ use ≠ .write
  | .pipeWrite n => n = s.pipe ∧ use ≠ .read
  | .socket _ | .epoll _ => False

/-- Descriptors are unambiguous: two that are open under one number are for
the same object, and a call on one reaches the object it was opened for, where
the kernel has that call for it, and nothing else. -/
structure Unambiguous (h : List FdEvent) (s : FdSys) : Prop where
  distinct : ∀ fd o o', OpenFd h fd o → OpenFd h fd o' → o = o'
  serves : ∀ fd o use, OpenFd h fd o → s.Serves use o → s.reach use fd = some o
  nothing : ∀ fd o use, OpenFd h fd o → ¬ s.Serves use o → s.reach use fd = none

end ChodOs
