/-
Open files (`syscall/fd.rs`). One opened for writing holds its node; one
opened for reading only holds a copy of what the path read when it was opened,
and no write to the file reaches it.
-/
import ChodOs.Fs.Changes
import ChodOs.Fs.CopyUp
import ChodOs.Fs.Numbers
import ChodOs.Fs.State

namespace ChodOs

open FileBytes StepSys

/-- `EBADF`. -/
def ebadf : Int := -9

namespace FsState

/-! ### `FileResource` -/

/-- What an open file reads from, and has the length of: its node, or its copy. -/
def bytesOf (s : FsState) (f : FileResource) : List UInt8 :=
  match f.vfsNode with
  | some n => (s.vfs.contents n).getD []
  | none => f.data

/-- `with_table(|t| t.get::<FileResource>(fd, required))`. -/
def fileAt (s : FsState) (fd : Nat) (required : Rights) : Option (Arc FileResource) :=
  s.fds.table.get .file (fd % 2 ^ 32) required

def setPos (s : FsState) (f : Arc FileResource) (pos : Nat) : FsState :=
  { s with pos := fun k => if k = f.serial then pos else s.pos k }

/-- `fd::read`, with the bytes that it stores at `buf`. `none` is `EBADF`. -/
def read (s : FsState) (fd count : Nat) : Option (List UInt8) × FsState :=
  match s.fileAt fd Rights.read with
  | none => (none, s)
  | some f =>
    let bytes := slice (s.bytesOf f.value) (s.pos f.serial) count
    (some bytes, s.setPos f (s.pos f.serial + bytes.length))

/-- `fd::pread`, likewise. -/
def pread (s : FsState) (fd count offset : Nat) : Option (List UInt8) :=
  (s.fileAt fd Rights.read).map fun f => slice (s.bytesOf f.value) offset count

/-- `fd::write_fd` of the bytes at `buf`. `none`: the file would be longer than a `Vec` can be. -/
def writeFd (s : FsState) (fd : Nat) (bs : List UInt8) : Option (Int × FsState) :=
  match s.fileAt fd Rights.write with
  | none => some (ebadf, s)
  | some f =>
    if !f.value.write then some (ebadf, s)
    else
      match f.value.vfsNode with
      | none => some (ebadf, s)
      | some n =>
        if (s.vfs.contents n).isNone then some (ebadf, s)
        else
          let pos := s.pos f.serial
          if pos + bs.length < 2 ^ 63 then
            some (bs.length, { s.setPos f (pos + bs.length) with vfs := s.vfs.changeNode n (.write pos bs) })
          else none

/-- `fd::truncate_fd`. -/
def truncateFd (s : FsState) (fd size : Nat) : Int × FsState :=
  match s.fileAt fd Rights.write with
  | none => (einval, s)
  | some f =>
    match f.value.vfsNode with
    | none => (einval, s)
    | some n => ((s.vfs.truncateNode n size).1, { s with vfs := (s.vfs.truncateNode n size).2 })

/-- `fd::seek`; lengths and positions are no more than `i64::MAX`. `none`: the sum traps. -/
def seek (s : FsState) (fd : Nat) (offset : Int) (whence : Nat) : Option (Int × FsState) :=
  match s.fileAt fd Rights.none with
  | none => some (ebadf, s)
  | some f =>
    let base : Option Int := match whence with
      | 0 => some 0
      | 1 => some (s.pos f.serial)
      | 2 => some (s.bytesOf f.value).length
      | _ => none
    match base with
    | none => some (einval, s)
    | some base =>
      if 2 ^ 63 ≤ base + offset then none
      else if base + offset < 0 then some (einval, s)
      else some (base + offset, s.setPos f (base + offset).toNat)

end FsState

/-! ### Runs -/

/-- The calls; those that change no file, position or descriptor are left out. -/
inductive FsCall
  | open (info : ProcInfo) (path : Option Path) (flags : Nat)
  | close (fd : Nat)
  | pipe (fdsVaddr : Nat)
  | socket (domain sockType : Nat)
  | epollCreate
  | read (fd count : Nat)
  | write (fd : Nat) (bs : List UInt8)
  | truncate (fd size : Nat)
  | seek (fd : Nat) (offset : Int) (whence : Nat)
  | vfs (c : VfsCall)

/-- A write or truncate of a file is complete; or an object has been opened at
a path, which leads to `node` then and reads as `shown`. -/
inductive FsEvent
  | changed (n : NodeRef) (c : Change)
  | opened (serial : Nat) (path : Path) (node : Option NodeRef) (shown : Option (List UInt8))
  deriving DecidableEq

namespace FsState

/-- What an open writes: the copy of the image's file, and the cut to length 0. -/
def openChanges (s : FsState) (path : Path) (flags : Nat) : List (NodeRef × Change) :=
  if opensWritable path flags then
    s.vfs.changes s.ext4 (.openWritable path (flags &&& 0x40 != 0)) ++
      match s.vfs.openWritable s.ext4 path (flags &&& 0x40 != 0) with
      | (some node, vfs) => if flags &&& 0x200 != 0 then vfs.changed node (.truncate 0) else []
      | (none, _) => []
  else []

/-- What a path reads as. -/
def reads (s : FsState) (info : ProcInfo) (path : Path) : Option (List UInt8) :=
  if isProc path then procRead info path else s.vfs.openReadonly s.ext4 path

/-- The object that the call to `s'` has opened, if it has. -/
def openedEvents (s s' : FsState) (info : ProcInfo) (path : Path) : List FsEvent :=
  if s'.fds.made = s.fds.made then []
  else [.opened s.fds.made path (s'.vfs.lookup path) (s'.reads info path)]

def toEvents (cs : List (NodeRef × Change)) : List FsEvent := cs.map fun (n, c) => .changed n c

/-- What a call on a descriptor changes, if it does not fail. -/
def fdChanges (s : FsState) (fd : Nat) (c : Nat → Change) : List (NodeRef × Change) :=
  match s.fileAt fd Rights.write with
  | none => []
  | some f =>
    match f.value.vfsNode with
    | none => []
    | some n => s.vfs.changed n (c (s.pos f.serial))

/-- A call that returns an error is not completed. -/
def completed (r : Int) (cs : List (NodeRef × Change)) : List FsEvent := if r < 0 then [] else toEvents cs

def step (s : FsState) : FsCall → Option (List FsEvent × FsState)
  | .open info path flags => (s.sysOpenImpl info path flags).map fun (_, s') =>
      (path.elim [] fun path => toEvents (s.openChanges path flags) ++ s.openedEvents s' info path, s')
  | .close fd => some ([], { s with fds := (s.fds.sysClose fd).2 })
  | .pipe fdsVaddr => (s.fds.sysPipe fdsVaddr).map fun (_, _, fds) => ([], { s with fds })
  | .socket domain sockType => some ([], { s with fds := (s.fds.sysSocket domain sockType).2 })
  | .epollCreate => some ([], { s with fds := s.fds.sysEpollCreate.2 })
  | .read fd count => some ([], (s.read fd count).2)
  | .write fd bs => (s.writeFd fd bs).map fun (r, s') => (completed r (s.fdChanges fd fun pos => .write pos bs), s')
  | .truncate fd size =>
      let (r, s') := s.truncateFd fd size
      some (completed r (s.fdChanges fd fun _ => .truncate size), s')
  | .seek fd offset whence => (s.seek fd offset whence).map fun (_, s') => ([], s')
  | .vfs c => (s.vfs.call s.ext4 c).map fun (_, vfs) => (toEvents (s.vfs.changes s.ext4 c), { s with vfs })

/-- The completed changes of a run, the oldest first. -/
def changesOf (h : List FsEvent) : List (NodeRef × Change) := h.filterMap fun
  | .changed n c => some (n, c)
  | .opened .. => none

/-- The changes of one file. -/
def writesTo (h : List FsEvent) (n : NodeRef) : List Change := Vfs.changesTo n (changesOf h)

/-- The bytes are what the changes have left in these places. -/
def LeftAt (cs : List Change) (offset count : Nat) (bytes : List UInt8) : Prop :=
  ∀ i, bytes[i]? = if i < count then left cs (offset + i) else none

/-- The changes have left in these places what was shown there. -/
def AsShown (cs : List Change) (offset count : Nat) (shown : Option (List UInt8)) : Prop :=
  ∀ i, offset ≤ i → i < offset + count → left cs i = (shown.getD [])[i]?

variable {s s' : FsState} {h : List FsEvent} {cs : List (NodeRef × Change)} {f : Arc FileResource} {fd k flags : Nat}
  {n : NodeRef} {path : Path} {r : Int} {info : ProcInfo} {node : Option NodeRef} {shown : Option (List UInt8)}
  {ext4 : Option Ext4View} {raw : RawCapability Resource}

theorem changesOf_append {es : List FsEvent} : changesOf (h ++ es) = changesOf h ++ changesOf es :=
  List.filterMap_append

@[simp] theorem changesOf_toEvents : changesOf (toEvents cs) = cs := by
  rw [changesOf, toEvents, List.filterMap_map]
  exact List.filterMap_some

@[simp] theorem changesOf_openedEvents : changesOf (s.openedEvents s' info path) = [] := by
  unfold openedEvents
  split
  · rfl
  · rfl

/-! ### What an open registers -/

/-- The ways an open can end, for the table: a live file, a copy, or what is no file. -/
inductive Registers (s : FdSys) (vfs : VfsView) (path : Path) (flags : Nat) (s' : FdSys) : Prop
  | nothing : s' = s → Registers s vfs path flags s'
  | other {T : ResourceType} {new : Nat → Resource T} {rights : Rights} {fd : Nat} : T ≠ .file →
      s.register T new rights = some (fd, s') → Registers s vfs path flags s'
  | live {node : NodeRef} {fd : Nat} : opensWritable path flags = true →
      vfs.openWritable path (flags &&& 0x40 != 0) = some node → s.openFileWritable path node = some (fd, s') →
      Registers s vfs path flags s'
  | copy {data : List UInt8} {fd : Nat} : opensWritable path flags = false →
      (if isProc path then vfs.procRead path else vfs.openReadonly path) = some data →
      s.register .file (⟨·, .newReadonly path data⟩) Rights.read = some (fd, s') → Registers s vfs path flags s'

theorem registers_dirIf {t t' : FdSys} {vfs : VfsView} {b : Bool}
    (h : (if b then FdSys.ret (t.openDir path) else some (enoent, t)) = some (r, t')) :
    Registers t vfs path flags t' := by
  split at h
  · obtain ⟨fd, hreg, -⟩ := FdSys.ret_eq_some h
    exact .other (by decide) hreg
  · obtain ⟨-, rfl⟩ := Prod.mk.inj (Option.some.inj h)
    exact .nothing rfl

theorem registers_dev {t t' : FdSys} {vfs : VfsView} (hdev : isDev path = true)
    (hopen : t.sysOpenImpl vfs (some path) flags = some (r, t')) : Registers t vfs path flags t' := by
  simp only [FdSys.sysOpenImpl, if_pos hdev] at hopen
  split at hopen
  · obtain ⟨fd, hreg, -⟩ := FdSys.ret_eq_some hopen
    exact .other (by decide) hreg
  split at hopen
  · obtain ⟨-, rfl⟩ := Prod.mk.inj (Option.some.inj hopen)
    exact .nothing rfl
  obtain ⟨⟨o, t₁⟩, ho, hr⟩ := Option.map_eq_some_iff.mp hopen
  unfold FdSys.devOpen at ho
  split at ho
  · obtain ⟨rfl, rfl⟩ := Prod.mk.inj (Option.some.inj ho)
    obtain ⟨-, rfl⟩ := Prod.mk.inj hr
    exact .nothing rfl
  · obtain ⟨⟨fd, t₂⟩, hreg, ho⟩ := Option.bind_eq_some_iff.mp ho
    obtain ⟨rfl, rfl⟩ := Prod.mk.inj (Option.some.inj ho)
    obtain ⟨-, rfl⟩ := Prod.mk.inj hr
    exact .other (by decide) hreg

theorem registers_of_open {t t' : FdSys} {vfs : VfsView}
    (hopen : t.sysOpenImpl vfs (some path) flags = some (r, t')) : Registers t vfs path flags t' := by
  by_cases hdev : isDev path = true
  · exact registers_dev hdev hopen
  have hwrites : opensWritable path flags = (!(flags &&& 0o200000 != 0 || path == ['/'] || path.getLast? == some '/') &&
      !isProc path && (flags &&& 0x03 != 0 || flags &&& 0x40 != 0)) := by
    rw [opensWritable, Bool.not_eq_true _ |>.mp hdev]
    rfl
  simp only [FdSys.sysOpenImpl, if_neg hdev] at hopen
  by_cases hdir : (flags &&& 0o200000 != 0 || path == ['/'] || path.getLast? == some '/') = true
  · rw [if_pos hdir] at hopen
    exact registers_dirIf hopen
  rw [if_neg hdir] at hopen
  by_cases hproc : isProc path = true
  · rw [if_pos hproc] at hopen
    cases hread : vfs.procRead path with
    | some data =>
      rw [hread] at hopen
      obtain ⟨fd, hreg, -⟩ := FdSys.ret_eq_some hopen
      exact .copy (by rw [hwrites, hproc]; simp) ((if_pos hproc).trans hread) hreg
    | none =>
      rw [hread] at hopen
      exact registers_dirIf hopen
  rw [if_neg hproc] at hopen
  by_cases hwrite : (flags &&& 0x03 != 0 || flags &&& 0x40 != 0) = true
  · rw [if_pos hwrite] at hopen
    cases hnode : vfs.openWritable path (flags &&& 0x40 != 0) with
    | some node =>
      rw [hnode] at hopen
      obtain ⟨fd, hreg, -⟩ := FdSys.ret_eq_some hopen
      exact .live (by simp only [hwrites, hdir, hproc, hwrite]; rfl) hnode hreg
    | none =>
      rw [hnode] at hopen
      obtain ⟨-, rfl⟩ := Prod.mk.inj (Option.some.inj hopen)
      exact .nothing rfl
  · rw [if_neg hwrite] at hopen
    cases hread : vfs.openReadonly path with
    | some data =>
      rw [hread] at hopen
      obtain ⟨fd, hreg, -⟩ := FdSys.ret_eq_some hopen
      exact .copy (by simp only [hwrites, hwrite, Bool.and_false]) ((if_neg hproc).trans hread) hreg
    | none =>
      rw [hread] at hopen
      exact registers_dirIf hopen

/-! ### The tree after an open -/

/-- A node that is opened for writing is the one its path leads to. -/
theorem lookup_openWritable {v v' : Vfs} {n₀ : NodeRef} {oCreat : Bool} (ht : v.Tree n₀)
    (ho : v.openWritable ext4 path oCreat = (some n, v')) : v'.lookup path = some n := by
  unfold Vfs.openWritable at ho
  split at ho
  · next m hl =>
    cases ho
    exact hl
  next hl =>
  split at ho
  · cases hread : ext4ReadFile ext4 path with
    | none =>
      simp only [Vfs.copyUp, hl, hread] at ho
      cases (Prod.mk.inj ho).1
    | some data =>
      rcases ht.copyUp_cases hl hread with ⟨-, hnone⟩ | ⟨m, hm, hcopied⟩
      · rw [hnone] at ho
        cases (Prod.mk.inj ho).1
      · rw [ho] at hm hcopied
        obtain rfl := Option.some.inj hm
        exact Vfs.lookup_eq_find.trans hcopied.find
  split at ho
  · have hens := ht.ensured_parents path
    rcases hens.tree.createFile_cases (ht.lookup_ensureParentDirs hl) with hsame | ⟨hm, hmade⟩
    · cases (Prod.mk.inj (hsame.symm.trans ho)).1
    · rw [ho] at hm hmade
      obtain rfl := Option.some.inj hm
      exact Vfs.lookup_eq_find.trans ((hmade.find _).trans (if_pos rfl))
  · cases (Prod.mk.inj ho).1

theorem lookup_openedVfs {n₀ : NodeRef} (ht : s.vfs.Tree n₀) (hwrites : opensWritable path flags = true)
    (hnode : (s.view info).openWritable path (flags &&& 0x40 != 0) = some n) :
    (s.openedVfs path flags).lookup path = some n := by
  have hfst : (s.vfs.openWritable s.ext4 path (flags &&& 0x40 != 0)).1 = some n := hnode
  rw [openedVfs, if_pos hwrites]
  generalize ho : s.vfs.openWritable s.ext4 path (flags &&& 0x40 != 0) = opened at hfst
  obtain ⟨m, v⟩ := opened
  obtain rfl := hfst
  have hl := lookup_openWritable ht ho
  simp only
  split
  · rw [(Vfs.sameTree_truncateNode n 0).lookup, hl]
  · exact hl

theorem sound_openedVfs {n₀ : NodeRef} (hs : s.vfs.Sound n₀) : (s.openedVfs path flags).Sound n₀ := by
  have hopened : ∀ b, (s.vfs.openWritable s.ext4 path b).2.Sound n₀ := fun b => hs.openWritable path b
  unfold openedVfs
  split
  · split
    · next node v ho =>
      have hv := hopened (flags &&& 0x40 != 0)
      rw [ho] at hv
      split
      · rw [Vfs.truncateNode_snd]
        exact hv.changeNode node (.truncate 0)
      · exact hv
    · next v ho =>
      have hv := hopened (flags &&& 0x40 != 0)
      rw [ho] at hv
      exact hv
  · exact hs

theorem recorded_openedVfs (hr : s.vfs.Recorded cs) :
    (s.openedVfs path flags).Recorded (cs ++ s.openChanges path flags) := by
  have hopen : (s.vfs.openWritable s.ext4 path (flags &&& 0x40 != 0)).2.Recorded
      (cs ++ s.vfs.changes s.ext4 (.openWritable path (flags &&& 0x40 != 0))) :=
    hr.follows (Vfs.follows_openWritable hr.bounded path _)
  unfold openedVfs openChanges
  split
  · generalize s.vfs.openWritable s.ext4 path (flags &&& 0x40 != 0) = opened at hopen
    obtain ⟨_ | node, v⟩ := opened
    · simp only [List.append_nil]
      exact hopen
    · simp only
      split
      · rw [Vfs.truncateNode_snd, ← List.append_assoc]
        exact hopen.follows ((Vfs.Quiet.refl hopen.bounded).follows_changed node (.truncate 0))
      · rw [List.append_nil]
        exact hopen
  · rw [List.append_nil]
    exact hr

/-! ### What holds in every run -/

/-- An open file holds the node that its path led to when it was opened, or a copy of what the path read as. -/
def Shows (f : FileResource) (node : Option NodeRef) (shown : Option (List UInt8)) : Prop :=
  match f.vfsNode with
  | some n => f.write = true ∧ node = some n
  | none => f.write = false ∧ shown = some f.data

/-- The file was opened, and what its path was then. -/
def OpenedAs (h : List FsEvent) (f : Arc FileResource) : Prop :=
  ∃ node shown, .opened f.serial f.value.path node shown ∈ h ∧ Shows f.value node shown

structure Tracked (h : List FsEvent) (s : FsState) : Prop where
  sound : s.vfs.Sound 0
  recorded : s.vfs.Recorded (changesOf h)
  files : ∀ {k : Nat} {raw : RawCapability Resource} {f : Arc FileResource}, s.fds.table.table[k]? = some raw →
    raw.object = ⟨.file, f⟩ → OpenedAs h f

variable {es : List FsEvent}

theorem OpenedAs.mono (ho : OpenedAs h f) : OpenedAs (h ++ es) f := by
  obtain ⟨node, shown, hmem, hshows⟩ := ho
  exact ⟨node, shown, List.mem_append_left es hmem, hshows⟩

/-- Nothing is registered. -/
def NoneNew (t t' : FdSys) : Prop :=
  ∀ (k : Nat) (raw : RawCapability Resource), t'.table.table[k]? = some raw → t.table.table[k]? = some raw

theorem NoneNew.of_eq {t t' : FdSys} (h : t'.table = t.table) : NoneNew t t' := fun k raw hraw => by rwa [← h]

theorem noneNew_sysClose (t : FdSys) (fd : Nat) : NoneNew t (t.sysClose fd).2 := by
  unfold FdSys.sysClose
  split
  · exact .of_eq rfl
  split
  · exact .of_eq rfl
  split
  · exact .of_eq rfl
  split
  · exact .of_eq rfl
  split
  · exact .of_eq rfl
  · intro k raw hraw
    replace hraw : (t.table.table.erase (fd % 2 ^ 32))[k]? = some raw := hraw
    rw [Std.ExtTreeMap.getElem?_erase] at hraw
    split at hraw
    · cases hraw
    · exact hraw

theorem Tracked.next (ht : Tracked h s) (hs : s'.vfs.Sound 0) (hr : s'.vfs.Recorded (changesOf (h ++ es)))
    (hnew : NoneNew s.fds s'.fds) : Tracked (h ++ es) s' :=
  ⟨hs, hr, fun hraw hobj => (ht.files (hnew _ _ hraw) hobj).mono⟩

/-- The call does not touch the tree, either. -/
theorem Tracked.same (ht : Tracked h s) (hv : s'.vfs = s.vfs) (hnew : NoneNew s.fds s'.fds) : Tracked (h ++ []) s' := by
  refine ht.next (hv ▸ ht.sound) ?_ hnew
  rw [hv, List.append_nil]
  exact ht.recorded

/-- A registration puts one object more into the table. -/
theorem table_register {t t' : FdSys} {T : ResourceType} {new : Nat → Resource T} {rights : Rights}
    (hreg : t.register T new rights = some (fd, t')) (hraw : t'.table.table[k]? = some raw) :
    t'.made ≠ t.made ∧ (raw = ⟨⟨T, new t.made⟩, rights⟩ ∨ t.table.table[k]? = some raw) := by
  obtain ⟨-, -, rfl⟩ := FdSys.register_spec hreg
  refine ⟨Nat.succ_ne_self _, ?_⟩
  rw [Std.ExtTreeMap.getElem?_insert] at hraw
  split at hraw
  · exact .inl (Option.some.inj hraw).symm
  · exact .inr hraw

theorem mem_openedEvents (hmade : s'.fds.made ≠ s.fds.made) :
    .opened s.fds.made path (s'.vfs.lookup path) (s'.reads info path) ∈ s.openedEvents s' info path := by
  rw [openedEvents, if_neg hmade]
  exact List.mem_singleton_self _

theorem Tracked.open {path : Option Path} (ht : Tracked h s) (hs : s.step (.open info path flags) = some (es, s')) :
    Tracked (h ++ es) s' := by
  obtain ⟨⟨r, s₁⟩, hopen, heq⟩ := Option.map_eq_some_iff.mp hs
  obtain ⟨rfl, rfl⟩ := Prod.mk.inj heq
  obtain ⟨⟨r', fds⟩, hfds, hs₁⟩ := Option.map_eq_some_iff.mp hopen
  obtain ⟨-, hs₁⟩ := Prod.mk.inj hs₁
  cases path with
  | none =>
    obtain ⟨-, rfl⟩ := Prod.mk.inj (Option.some.inj hfds)
    exact ht.same (hs₁ ▸ rfl) (hs₁ ▸ .of_eq rfl)
  | some path =>
    have hvfs : s₁.vfs = s.openedVfs path flags := hs₁ ▸ rfl
    have hfds₁ : s₁.fds = fds := hs₁ ▸ rfl
    have hext4 : s₁.ext4 = s.ext4 := hs₁ ▸ rfl
    refine ⟨hvfs ▸ sound_openedVfs ht.sound, ?_, fun {k raw f} hraw hobj => ?_⟩
    · rw [hvfs, Option.elim_some, changesOf_append, changesOf_append, changesOf_toEvents, changesOf_openedEvents,
        List.append_nil]
      exact recorded_openedVfs ht.recorded
    · rw [hfds₁] at hraw
      have hopened : fds.made ≠ s.fds.made → .opened s.fds.made path (s₁.vfs.lookup path) (s₁.reads info path) ∈
          h ++ (some path).elim [] fun path => toEvents (s.openChanges path flags) ++ s.openedEvents s₁ info path :=
        fun hmade => List.mem_append_right _ (List.mem_append_right _ (mem_openedEvents (hfds₁ ▸ hmade)))
      cases registers_of_open hfds with
      | nothing hsame => exact (ht.files (hsame ▸ hraw) hobj).mono
      | other hT hreg =>
        rcases (table_register hreg hraw).2 with rfl | hraw
        · exact absurd (congrArg Sigma.fst hobj) hT
        · exact (ht.files hraw hobj).mono
      | live hwrites hnode hreg =>
        obtain ⟨hmade, rfl | hraw⟩ := table_register hreg hraw
        · cases hobj
          refine ⟨_, _, hopened hmade, rfl, ?_⟩
          rw [hvfs]
          exact lookup_openedVfs ht.sound.tree hwrites hnode
        · exact (ht.files hraw hobj).mono
      | copy hwrites hread hreg =>
        obtain ⟨hmade, rfl | hraw⟩ := table_register hreg hraw
        · cases hobj
          refine ⟨_, _, hopened hmade, rfl, ?_⟩
          have hv : s₁.vfs = s.vfs := hvfs.trans (if_neg (by rw [hwrites]; decide))
          rw [reads, hv, hext4]
          exact hread
        · exact (ht.files hraw hobj).mono

theorem frame_seek {offset : Int} {whence : Nat} (hs : s.seek fd offset whence = some (r, s')) :
    s'.vfs = s.vfs ∧ s'.fds = s.fds := by
  unfold FsState.seek at hs
  split at hs
  · cases hs
    exact ⟨rfl, rfl⟩
  simp only at hs
  split at hs
  · cases hs
    exact ⟨rfl, rfl⟩
  split at hs
  · cases hs
  split at hs
  · cases hs
    exact ⟨rfl, rfl⟩
  · cases hs
    exact ⟨rfl, rfl⟩

/-- A call on a descriptor fails, or changes the node as it is recorded. -/
inductive Writes (s : FsState) (fd : Nat) (c : Nat → Change) (r : Int) (s' : FsState) : Prop
  | failed : r < 0 → s'.vfs = s.vfs → Writes s fd c r s'
  | made {n : NodeRef} (pos : Nat) : 0 ≤ r → s.fdChanges fd c = s.vfs.changed n (c pos) →
      s'.vfs = s.vfs.changeNode n (c pos) → Writes s fd c r s'

theorem writes_writeFd {bs : List UInt8} (hs : s.writeFd fd bs = some (r, s')) :
    s'.fds = s.fds ∧ Writes s fd (fun pos => .write pos bs) r s' := by
  unfold FsState.writeFd at hs
  split at hs
  · cases hs
    exact ⟨rfl, .failed (by decide) rfl⟩
  next f hf =>
  split at hs
  · cases hs
    exact ⟨rfl, .failed (by decide) rfl⟩
  split at hs
  · cases hs
    exact ⟨rfl, .failed (by decide) rfl⟩
  next n hn =>
  split at hs
  · cases hs
    exact ⟨rfl, .failed (by decide) rfl⟩
  simp only at hs
  split at hs
  · cases hs
    exact ⟨rfl, .made _ (Int.natCast_nonneg _) (by simp only [fdChanges, hf, hn]) rfl⟩
  · cases hs

theorem writes_truncateFd (s : FsState) (fd size : Nat) :
    (s.truncateFd fd size).2.fds = s.fds ∧ Writes s fd (fun _ => .truncate size) (s.truncateFd fd size).1
      (s.truncateFd fd size).2 := by
  unfold FsState.truncateFd
  split
  · exact ⟨rfl, .failed (show einval < 0 by decide) rfl⟩
  next f hf =>
  split
  · exact ⟨rfl, .failed (show einval < 0 by decide) rfl⟩
  next n hn =>
  have hcs : s.fdChanges fd (fun _ => .truncate size) = s.vfs.changed n (.truncate size) := by
    simp only [fdChanges, hf, hn]
  refine ⟨rfl, ?_⟩
  rcases Vfs.truncateNode_cases s.vfs n size with hr | hr
  · exact .made 0 (Int.le_of_eq hr.symm) hcs (Vfs.truncateNode_snd s.vfs n size)
  · rw [hr]
    exact .failed (show (-21 : Int) < 0 by decide) rfl

/-- The change is recorded if the call has made it. -/
theorem Tracked.writes {c : Nat → Change} (ht : Tracked h s) (hfds : s'.fds = s.fds) (hw : Writes s fd c r s') :
    Tracked (h ++ completed r (s.fdChanges fd c)) s' := by
  cases hw with
  | failed hr hv =>
    rw [completed, if_pos hr]
    exact ht.same hv (.of_eq (congrArg FdSys.table hfds))
  | made pos hr hcs hv =>
    rw [completed, if_neg (Int.not_lt.mpr hr), hcs]
    refine ht.next ?_ ?_ (.of_eq (congrArg FdSys.table hfds))
    · rw [hv]
      exact ht.sound.changeNode _ (c pos)
    · rw [hv, changesOf_append, changesOf_toEvents]
      exact ht.recorded.follows ((Vfs.Quiet.refl ht.recorded.bounded).follows_changed _ (c pos))

theorem Tracked.step {c : FsCall} (ht : Tracked h s) (hs : s.step c = some (es, s')) : Tracked (h ++ es) s' := by
  cases c with
  | «open» info path flags => exact ht.open hs
  | close fd =>
    obtain ⟨rfl, rfl⟩ := Prod.mk.inj (Option.some.inj hs)
    exact ht.same rfl (noneNew_sysClose s.fds fd)
  | pipe fdsVaddr =>
    obtain ⟨⟨r, ends, fds⟩, hpipe, heq⟩ := Option.map_eq_some_iff.mp hs
    obtain ⟨rfl, rfl⟩ := Prod.mk.inj heq
    refine ht.same rfl (.of_eq ?_)
    unfold FdSys.sysPipe at hpipe
    split at hpipe
    · cases hpipe
      rfl
    · simp only at hpipe
      split at hpipe
      · cases hpipe
      · cases hpipe
        rfl
  | socket domain sockType =>
    obtain ⟨rfl, rfl⟩ := Prod.mk.inj (Option.some.inj hs)
    refine ht.same rfl (.of_eq ?_)
    show (s.fds.sysSocket domain sockType).2.table = s.fds.table
    unfold FdSys.sysSocket
    split
    · rfl
    · rfl
  | epollCreate =>
    obtain ⟨rfl, rfl⟩ := Prod.mk.inj (Option.some.inj hs)
    exact ht.same rfl (.of_eq rfl)
  | read fd count =>
    obtain ⟨rfl, rfl⟩ := Prod.mk.inj (Option.some.inj hs)
    unfold FsState.read
    split
    · exact ht.same rfl (.of_eq rfl)
    · exact ht.same rfl (.of_eq rfl)
  | write fd bs =>
    obtain ⟨⟨r, s₁⟩, hwrite, heq⟩ := Option.map_eq_some_iff.mp hs
    obtain ⟨rfl, rfl⟩ := Prod.mk.inj heq
    obtain ⟨hfds, hw⟩ := writes_writeFd hwrite
    exact ht.writes hfds hw
  | truncate fd size =>
    obtain ⟨rfl, rfl⟩ := Prod.mk.inj (Option.some.inj hs)
    obtain ⟨hfds, hw⟩ := writes_truncateFd s fd size
    exact ht.writes hfds hw
  | seek fd offset whence =>
    obtain ⟨⟨r, s₁⟩, hseek, heq⟩ := Option.map_eq_some_iff.mp hs
    obtain ⟨rfl, rfl⟩ := Prod.mk.inj heq
    obtain ⟨hv, hfds⟩ := frame_seek hseek
    exact ht.same hv (.of_eq (congrArg FdSys.table hfds))
  | vfs c =>
    obtain ⟨⟨ret, v⟩, hcall, heq⟩ := Option.map_eq_some_iff.mp hs
    obtain ⟨rfl, rfl⟩ := Prod.mk.inj heq
    refine ht.next (ht.sound.call hcall) ?_ (.of_eq rfl)
    rw [changesOf_append, changesOf_toEvents]
    exact ht.recorded.follows (Vfs.follows_call ht.recorded.bounded hcall)

theorem tracked_boot : Tracked [] (boot ext4) := by
  refine ⟨Vfs.sound_init, Vfs.recorded_init, fun hraw _ => ?_⟩
  cases Std.ExtTreeMap.getElem?_empty.symm.trans hraw

theorem tracked_of_runs (hr : Runs step free (boot ext4) h s) : Tracked h s :=
  hr.invariant Tracked tracked_boot fun ht _ hs => ht.step hs

/-! ### Reads -/

theorem leftAt_slice {cs : List Change} {data : List UInt8} {offset count : Nat} :
    LeftAt cs offset count (slice data offset count) ↔
      ∀ i, offset ≤ i → i < offset + count → left cs i = data[i]? := by
  constructor
  · intro h i hlow hhigh
    have hi := h (i - offset)
    rw [getElem?_slice, if_pos (by omega), if_pos (by omega), Nat.add_sub_cancel' hlow] at hi
    exact hi.symm
  · intro h i
    rw [getElem?_slice]
    split
    · exact (h _ (by omega) (by omega)).symm
    · rfl

/-- What a read of an open file returns is what the changes to the file have
left, just in case the file is live or they have left there what was shown. -/
theorem Tracked.leftAt_iff {offset count : Nat} (ht : Tracked h s) (hshows : Shows f.value node shown)
    (hnode : node = none ∨ node = some n) (hfile : (s.vfs.contents n).isSome = true) :
    LeftAt (writesTo h n) offset count (slice (s.bytesOf f.value) offset count) ↔
      f.value.write = true ∨ AsShown (writesTo h n) offset count shown := by
  obtain ⟨data, hdata⟩ := Option.isSome_iff_exists.mp hfile
  rw [leftAt_slice]
  unfold Shows at hshows
  split at hshows
  · next m hm =>
    -- the node that it holds is the path's
    obtain ⟨hwrite, rfl⟩ := hshows
    obtain rfl : m = n := Option.some.inj (hnode.resolve_left (Option.some_ne_none m))
    refine iff_of_true (fun i _ _ => ?_) (.inl hwrite)
    simp only [bytesOf, hm, hdata, Option.getD_some]
    rw [ht.recorded.holds m data hdata, getElem?_foldl_apply]
    rfl
  · next hm =>
    obtain ⟨hwrite, rfl⟩ := hshows
    simp only [bytesOf, hm, hwrite, AsShown, Bool.false_eq_true, false_or, Option.getD_some]

/-- In every run, a read through a descriptor returns what the writes and
truncates have left in the file that its path led to when it was opened (in any,
if it led to none), just in case the descriptor is live or they have left in
these places what the path read as then. -/
theorem reads_coherent_iff (hr : Runs step free (boot ext4) h s) (hf : s.fileAt fd Rights.read = some f)
    (hfile : (s.vfs.contents n).isSome = true) :
    ∃ node shown, .opened f.serial f.value.path node shown ∈ h ∧ (node = none ∨ node = some n →
      (∀ count offset, ∃ bytes, s.pread fd count offset = some bytes ∧
        (LeftAt (writesTo h n) offset count bytes ↔
          f.value.write = true ∨ AsShown (writesTo h n) offset count shown)) ∧
      ∀ count, ∃ bytes, (s.read fd count).1 = some bytes ∧
        (LeftAt (writesTo h n) (s.pos f.serial) count bytes ↔
          f.value.write = true ∨ AsShown (writesTo h n) (s.pos f.serial) count shown)) := by
  have ht := tracked_of_runs hr
  obtain ⟨cap, hraw, hobj, -⟩ := HandleTable.get_eq_some.mp hf
  obtain ⟨node, shown, hmem, hshows⟩ := ht.files (f := f) hraw (congrArg (Sigma.mk ResourceType.file) hobj)
  refine ⟨node, shown, hmem, fun hnode => ⟨fun count offset => ?_, fun count => ?_⟩⟩
  · exact ⟨_, congrArg (Option.map _) hf, ht.leftAt_iff hshows hnode hfile⟩
  · refine ⟨_, ?_, ht.leftAt_iff hshows hnode hfile⟩
    rw [FsState.read, hf]

/-- `/tmp/a` is made and opened for writing as 3, and to be read as 4; then `x` is written to it. -/
def writeWhileOpen : List FsCall :=
  [.open ⟨1, 1⟩ (some "/tmp/a".toList) 0x42, .open ⟨1, 1⟩ (some "/tmp/a".toList) 0, .write 3 (ascii "x")]

/-- Through 3, `x` is read. -/
theorem reads_coherent_live : ∃ h s f, Runs step free (boot none) h s ∧ s.fileAt 3 Rights.read = some f ∧
    f.value.path = "/tmp/a".toList ∧ (s.vfs.contents 22).isSome = true ∧
    ∃ bytes, s.pread 3 1 0 = some bytes ∧ LeftAt (writesTo h 22) 0 1 bytes := by
  obtain ⟨h, s, hr, hP⟩ := Runs.of_exec step free (boot none) writeWhileOpen
    (fun h s => (s.fileAt 3 Rights.read).any (fun f => f.value.path == "/tmp/a".toList && f.value.write) &&
      (s.vfs.contents 22).isSome && h.all fun e => match e with
        | .opened _ _ node _ => node == some 22
        | .changed _ _ => true) (by decide)
  rw [Bool.and_eq_true, Bool.and_eq_true, Option.any_eq_true] at hP
  obtain ⟨⟨⟨f, hf, hP⟩, hfile⟩, hall⟩ := hP
  obtain ⟨hpath, hwrite⟩ := Bool.and_eq_true_iff.mp hP
  obtain ⟨node, shown, hmem, hreads⟩ := reads_coherent_iff hr hf hfile
  have hnode : node = some 22 := eq_of_beq (List.all_eq_true.mp hall _ hmem)
  obtain ⟨bytes, hbytes, hiff⟩ := (hreads (.inr hnode)).1 1 0
  exact ⟨h, s, f, hr, hf, eq_of_beq hpath, hfile, bytes, hbytes, hiff.mpr (.inl hwrite)⟩

/-- Through 4, it is not. -/
theorem copy_reads_stale : ∃ h s f, Runs step free (boot none) h s ∧ s.fileAt 4 Rights.read = some f ∧
    s.vfs.lookup f.value.path = some 22 ∧ .opened f.serial f.value.path (some 22) (some []) ∈ h ∧
    left (writesTo h 22) 0 = some 120 ∧ s.pread 4 1 0 = some [] := by
  obtain ⟨h, s, hr, hP⟩ := Runs.of_exec step free (boot none) writeWhileOpen
    (fun h s => (s.fileAt 4 Rights.read).any fun f => s.vfs.lookup f.value.path == some 22 &&
      decide (.opened f.serial f.value.path (some 22) (some []) ∈ h ∧ left (writesTo h 22) 0 = some 120 ∧
        s.pread 4 1 0 = some [])) (by decide)
  obtain ⟨f, hf, hP⟩ := (Option.any_eq_true _ _).mp hP
  obtain ⟨hl, hrest⟩ := Bool.and_eq_true_iff.mp hP
  exact ⟨h, s, f, hr, hf, eq_of_beq hl, of_decide_eq_true hrest⟩

end FsState
end ChodOs
