/-
User processes and threads at work (`process/userproc.rs`): fork, clone,
exit, wait4 and the futex calls, with the memory they read and write.

Memory is a byte at every address: below `userEnd` that of the address space
in `cr3`, above it the kernel's, which all spaces share. What the allocators
return (a kernel stack, a new space) is an argument of the call.
-/
import ChodOs.Lib.ByteMem
import ChodOs.User.Proc

namespace ChodOs

structure UserSys where
  procs : Uprocs
  /-- What `alloc_pid` returns next. -/
  nextPid : Nat
  vmas : VmaTable
  cr3 : Nat
  kernelCr3 : Nat
  /-- `TSS.RSP0` and `syscall_kern_rsp`, which are always set together. -/
  kernRsp : Nat
  /-- `MSR_FS_BASE`. -/
  fsBase : Nat
  kernelMem : ByteMem
  /-- The user half of each address space. -/
  spaces : Nat → ByteMem
  /-- `GLOBAL_PENDING` in `signal.rs`. -/
  globalPending : BitVec 64
  /-- `SIG_PENDING` in `syscall/proc.rs`. -/
  sigPending : BitVec 64

/-- How a system call ends: with a value for the caller, with a jump into
the frame of another process, or back in the kernel's main loop. -/
inductive Outcome
  | ret (v : Nat)
  | resume (frameRsp : Nat)
  | kernelMain
  deriving DecidableEq

namespace UserSys

/-! ## Memory -/

/-- Memory through the current address space. -/
def mem (s : UserSys) : ByteMem := fun a => if a < userEnd then s.spaces s.cr3 a else s.kernelMem a

/-- Memory changes as seen through the current address space. -/
def setMem (s : UserSys) (m : ByteMem) : UserSys :=
  { s with
    kernelMem := fun a => if a < userEnd then s.kernelMem a else m a
    spaces := Function.update s.spaces s.cr3 fun a => if a < userEnd then m a else s.spaces s.cr3 a }

/-- `*(a as *mut u64) = v`. -/
def store (s : UserSys) (a v : Nat) : UserSys := s.setMem (s.mem.setWord a v)

/-- `*(a as *mut u32) = v`. -/
def store32 (s : UserSys) (a v : Nat) : UserSys := s.setMem (s.mem.patch a 4 (ByteMem.leByte v))

/-- A store through a pointer from user mode, which has to be a user address. -/
def storeUser32 (s : UserSys) (a v : Nat) : UserSys := if a ≠ 0 ∧ a < userEnd then s.store32 a v else s

/-- `copy_nonoverlapping` of an interrupt frame. -/
def copyFrame (s : UserSys) (src dst : Nat) : UserSys :=
  s.setMem (s.mem.patch dst isrFrameSize fun i => s.mem (src + i))

/-! ## Switching -/

/-- `iretq_to_frame`: the process in slot `i` goes on from `frameRsp`. -/
def iretqToFrame (s : UserSys) (cr3 frameRsp kstackTop : Nat) : Outcome × UserSys :=
  let fs := (s.procs.cur.map (·.fsBase)).getD 0
  (.resume frameRsp, { s with cr3, kernRsp := kstackTop, fsBase := if fs ≠ 0 then fs else s.fsBase })

/-- The longjmp into `after_user_demo`. -/
def toKernelMain (s : UserSys) : Outcome × UserSys := (.kernelMain, { s with cr3 := s.kernelCr3 })

/-- The process in slot `i` becomes the current one and goes on from its saved frame. -/
def switchTo (s : UserSys) (i : Nat) (p : UserProc) : Outcome × UserSys :=
  iretqToFrame { s with procs := { s.procs.modify i (fun p => { p with state := .running }) with current := i } }
    p.userCr3 p.savedFrameRsp p.kstackTop

/-- The next ready one from slot `start` on, if any, goes on. -/
def switchToReady (s : UserSys) (start : Nat) : Option (Outcome × UserSys) := do
  let i ← s.procs.findNextReadyFrom start
  let p ← s.procs.at? i
  some (s.switchTo i p)

/-! ## The calls -/

/-- `alloc_pid`. -/
def allocPid (s : UserSys) : Nat × UserSys := (s.nextPid, { s with nextPid := s.nextPid + 1 })

/-- `clone_user_space`: the new space `cr3` shows what the old one shows. -/
def cloneSpace (s : UserSys) (src cr3 : Nat) : UserSys := { s with spaces := Function.update s.spaces cr3 (s.spaces src) }

/-- A copy of the caller's frame at the top of the new kernel stack, with 0 for the result. -/
def childFrame (s : UserSys) (frameRsp kstack : Nat) : UserSys :=
  let dst := kstack + kstackSize - isrFrameSize
  (s.copyFrame frameRsp dst).store (dst + 0x40) 0

/-- `fork_current`. -/
def forkCurrent (s : UserSys) (frameRsp newCr3 kstack : Nat) : Nat × UserSys :=
  match s.procs.cur with
  | none => (errno 1, s)
  | some p =>
    let (pid, s) := s.allocPid
    let s := (s.cloneSpace p.userCr3 newCr3).childFrame frameRsp kstack
    (pid, { s with procs := s.procs.insert (p.forked pid newCr3 kstack) })

def cloneVm : Nat := 8
def cloneThreadBit : Nat := 16
def cloneSettls : Nat := 19
def cloneParentSettid : Nat := 20
def cloneChildCleartid : Nat := 21
def cloneChildSettid : Nat := 24

/-- The entry that `clone_thread` makes for a child of `p`. -/
def cloned (p : UserProc) (flags : BitVec 64) (childTid newtls pid userCr3 kstack : Nat) : UserProc :=
  { p.forked pid userCr3 kstack with
    fsBase := if flags.getLsbD cloneSettls then newtls else p.fsBase
    threadGroupPid :=
      if flags.getLsbD cloneThreadBit then (if p.threadGroupPid ≠ 0 then p.threadGroupPid else p.pid) else 0
    childTidPtr := if flags.getLsbD cloneChildCleartid || flags.getLsbD cloneChildSettid then childTid else 0 }

/-- `clone_thread`. -/
def cloneThread (s : UserSys) (flags : BitVec 64) (childStack parentTid childTid newtls frameRsp newCr3 kstack : Nat) :
    Nat × UserSys :=
  match s.procs.cur with
  | none => (errno 1, s)
  | some p =>
    let (pid, s) := s.allocPid
    let s := s.childFrame frameRsp kstack
    let s := if childStack ≠ 0 then s.store (kstack + kstackSize - isrFrameSize + 0x60) childStack else s
    let s := if flags.getLsbD cloneParentSettid then s.storeUser32 parentTid pid else s
    let s := if flags.getLsbD cloneChildSettid then s.storeUser32 childTid pid else s
    let (cr3, s) := if flags.getLsbD cloneVm then (p.userCr3, s) else (newCr3, s.cloneSpace p.userCr3 newCr3)
    (pid, { s with procs := s.procs.insert (cloned p flags childTid newtls pid cr3 kstack) })

/-- `code << 8`, as the 32 bits that are stored. -/
def waitStatus (code : Int) : Nat := (code * 256 % 2 ^ 32).toNat

/-- `wait4_impl`. -/
def wait4 (s : UserSys) (childPid statusPtr options frameRsp : Nat) : Outcome × UserSys :=
  match s.procs.cur with
  | none => (.ret (errno 10), s)
  | some parent =>
    match s.procs.findChild parent.pid childPid with
    | none => (.ret (errno 10), s)
    | some i =>
      match s.procs.at? i with
      | none => (.ret (errno 10), s)
      | some child =>
        match child.state with
        | .zombie code =>
          let s := s.storeUser32 statusPtr (waitStatus code)
          (.ret child.pid, { s with procs := s.procs.clear i })
        | _ =>
          if options % 2 = 1 then (.ret 0, s)
          else
            let waiting (p : UserProc) : UserProc := { p with savedFrameRsp := frameRsp, state := .waiting child.pid }
            let s := { s with procs := s.procs.update waiting }
            -- read again: the frame is the one just saved if the child is its own parent
            s.switchTo i ((s.procs.at? i).getD child)

/-- `raise_sigchld_to`. -/
def raiseSigchldTo (u : Uprocs) (pid : Nat) : Uprocs :=
  let raise (p : UserProc) : UserProc := { p with pendingSigs := p.pendingSigs ||| 1#64 <<< 16 }
  { u with slots := u.slots.updateFirst (fun s => s.any (·.pid == pid)) (·.map raise) }

/-- The thread part of `try_wake_parent`. -/
def exitThread (s : UserSys) (p : UserProc) : Outcome × UserSys :=
  let s := if p.childTidPtr ≠ 0 ∧ p.childTidPtr < userEnd then
      let s := s.store32 p.childTidPtr 0
      { s with procs := (s.procs.futexWake p.childTidPtr anyChild).2 }
    else s
  let s := { s with procs := s.procs.clear s.procs.current }
  (s.switchToReady 0).getD s.toKernelMain

/-- The process part of `try_wake_parent`. -/
def exitProcess (s : UserSys) (p : UserProc) (code : Int) : Outcome × UserSys :=
  let child := s.procs.current
  let s := { s with procs := s.procs.update fun p => { p with state := .zombie code } }
  match s.procs.slots.1.findIdx? fun t => t.any (·.pid == p.parentPid) with
  | none => s.toKernelMain
  | some i =>
    match s.procs.at? i with
    | none => s.toKernelMain
    | some parent =>
      match parent.state with
      | .waiting w =>
        if w ≠ p.pid ∧ w ≠ anyChild then s.toKernelMain
        else
          -- the parent's space is loaded first, for its status word
          let s := { s with
            cr3 := parent.userCr3
            procs := { s.procs.modify i (fun q => { q with state := .running }) with current := i } }
          let s := s.storeUser32 (s.mem.word (parent.savedFrameRsp + 0x28)) (waitStatus code)
          let s := s.store (parent.savedFrameRsp + 0x40) p.pid
          let s := { s with procs := s.procs.clear child }
          s.iretqToFrame parent.userCr3 parent.savedFrameRsp parent.kstackTop
      | _ => toKernelMain { s with procs := raiseSigchldTo s.procs p.parentPid }

/-- `sys_exit_impl`, with `try_wake_parent`. -/
def sysExit (s : UserSys) (code : Int) : Outcome × UserSys :=
  match s.procs.cur with
  | none => s.toKernelMain
  | some p =>
    if p.threadGroupPid ≠ 0 then s.exitThread p
    else if p.parentPid = 0 then s.toKernelMain
    else s.exitProcess p code

/-- The current process lays itself down with `state` and 0 for its result. -/
def suspend (s : UserSys) (frameRsp : Nat) (state : UState) : UserSys :=
  let s := s.store (frameRsp + 0x40) 0
  { s with procs := s.procs.update fun p => { p with savedFrameRsp := frameRsp, state } }

/-- It goes on after all. -/
def goOn (s : UserSys) : UserSys := { s with procs := s.procs.update fun p => { p with state := .running } }

/-- `sched_yield_impl`. -/
def schedYield (s : UserSys) (frameRsp : Nat) : Outcome × UserSys :=
  let s := s.suspend frameRsp .ready
  (s.switchToReady (s.procs.current + 1)).getD (.ret 0, s.goOn)

/-- `futex_wait_impl`. -/
def futexWait (s : UserSys) (uaddr expected frameRsp : Nat) : Outcome × UserSys :=
  if uaddr = 0 then (.ret (errno 14), s)
  else if s.mem.le uaddr 4 ≠ expected % 2 ^ 32 then (.ret (errno 11), s)
  else
    let s := s.suspend frameRsp (.blocked uaddr)
    (s.switchToReady 0).getD (.ret (errno 11), s.goOn)

/-- `futex_dispatch`: the flags `FUTEX_PRIVATE_FLAG` and `FUTEX_CLOCK_RT` are ignored. -/
def futexDispatch (s : UserSys) (uaddr : Nat) (op : BitVec 64) (val frameRsp : Nat) : Outcome × UserSys :=
  let kind := op &&& ~~~(128#64 ||| 256#64)
  if kind = 0#64 then s.futexWait uaddr val frameRsp
  else if kind = 1#64 then
    let (woken, procs) := s.procs.futexWake uaddr val
    (.ret woken, { s with procs })
  else (.ret 0, s)

/-! ## What a switch and a store leave -/

variable {s s' : UserSys} {a v i fr : Nat} {m : ByteMem} {o : Outcome}

@[simp] theorem procs_setMem : (s.setMem m).procs = s.procs := rfl

@[simp] theorem mem_setMem : (s.setMem m).mem = m := by
  funext a
  by_cases ha : a < userEnd <;> simp [mem, setMem, ha]

@[simp] theorem setMem_mem : s.setMem s.mem = s := by
  have hkernel : (fun a => if a < userEnd then s.kernelMem a else s.mem a) = s.kernelMem := by
    funext a
    by_cases ha : a < userEnd <;> simp [mem, ha]
  have hspace : (fun a => if a < userEnd then s.mem a else s.spaces s.cr3 a) = s.spaces s.cr3 := by
    funext a
    by_cases ha : a < userEnd <;> simp [mem, ha]
  rw [setMem, hkernel, hspace, Function.update_eq_self]

@[simp] theorem setMem_setMem {m' : ByteMem} : (s.setMem m).setMem m' = s.setMem m' := by
  have hkernel : (fun a => if a < userEnd then (s.setMem m).kernelMem a else m' a) =
      fun a => if a < userEnd then s.kernelMem a else m' a := by
    funext a
    by_cases ha : a < userEnd <;> simp [setMem, ha]
  have hspaces : Function.update (s.setMem m).spaces s.cr3
      (fun a => if a < userEnd then m' a else (s.setMem m).spaces s.cr3 a) =
      Function.update s.spaces s.cr3 fun a => if a < userEnd then m' a else s.spaces s.cr3 a := by
    rw [show (s.setMem m).spaces = Function.update s.spaces s.cr3 _ from rfl, Function.update_idem]
    congr 1
    funext a
    by_cases ha : a < userEnd <;> simp [ha]
  have hcr3 : (s.setMem m).cr3 = s.cr3 := rfl
  rw [setMem, hkernel, hcr3, hspaces]
  rfl

@[simp] theorem procs_store : (s.store a v).procs = s.procs := rfl

@[simp] theorem mem_store : (s.store a v).mem = s.mem.setWord a v := mem_setMem

@[simp] theorem procs_storeUser32 : (s.storeUser32 a v).procs = s.procs := by
  unfold storeUser32
  split <;> rfl

@[simp] theorem procs_childFrame {frameRsp kstack : Nat} : (s.childFrame frameRsp kstack).procs = s.procs := rfl

theorem switchToReady_ne_ret {start : Nat} {r : Outcome × UserSys} (hr : r.1 ≠ .ret v) :
    ((s.switchToReady start).getD r).1 ≠ .ret v := by
  cases hs : s.switchToReady start with
  | none => exact hr
  | some r' =>
    simp only [switchToReady, Option.bind_eq_bind, Option.bind_eq_some_iff, Option.some.injEq] at hs
    obtain ⟨j, -, p, -, rfl⟩ := hs
    nofun

/-- Who exits does not return. -/
theorem sysExit_ne_ret {code : Int} : (s.sysExit code).1 ≠ .ret v := by
  unfold sysExit
  split
  · nofun
  · split
    · exact switchToReady_ne_ret nofun
    · split
      · nofun
      · unfold exitProcess
        dsimp only
        split
        · nofun
        · split
          · nofun
          · split
            · split <;> nofun
            · nofun

/-! ## Signal masks and handlers -/

/-- A property that looks at the mask and the handlers only. -/
def OfSignals (P : UserProc → Prop) : Prop :=
  ∀ {p q : UserProc}, q.sigMask = p.sigMask → q.sigHandlers = p.sigHandlers → P p → P q

section

variable {P : UserProc → Prop} (hP : OfSignals P)

include hP

theorem all_switchTo {p : UserProc} (h : s.procs.All P) : (s.switchTo i p).2.procs.All P :=
  h.modify fun _ _ => hP rfl rfl

theorem all_switchToReady {start : Nat} (h : s.procs.All P) (hs : s.switchToReady start = some (o, s')) :
    s'.procs.All P := by
  simp only [switchToReady, Option.bind_eq_bind, Option.bind_eq_some_iff, Option.some.injEq] at hs
  obtain ⟨j, -, p, -, hs⟩ := hs
  have hs' : (s.switchTo j p).2 = s' := congrArg Prod.snd hs
  exact hs' ▸ all_switchTo hP h

/-- Where the next ready one goes on, or else what was given. -/
theorem all_switchToReady_getD {start : Nat} {r : Outcome × UserSys} (h : s.procs.All P) (hr : r.2.procs.All P) :
    ((s.switchToReady start).getD r).2.procs.All P := by
  cases hs : s.switchToReady start with
  | none => exact hr
  | some r' => exact all_switchToReady hP h hs

theorem all_forkCurrent {newCr3 kstack : Nat} (h : s.procs.All P) :
    (s.forkCurrent fr newCr3 kstack).2.procs.All P := by
  unfold forkCurrent
  split
  · exact h
  · next p hp => exact h.insert (hP (p := p) rfl rfl (h.cur hp))

theorem all_cloneThread {flags : BitVec 64} {childStack parentTid childTid newtls newCr3 kstack : Nat}
    (h : s.procs.All P) :
    (s.cloneThread flags childStack parentTid childTid newtls fr newCr3 kstack).2.procs.All P := by
  unfold cloneThread
  split
  · exact h
  · next p hp =>
    refine Uprocs.All.insert ?_ (hP (p := p) rfl rfl (h.cur hp))
    split <;> split <;> split <;> split <;> simp only [cloneSpace, procs_storeUser32, procs_store, procs_childFrame] <;>
      exact h

theorem all_wait4 {childPid statusPtr options : Nat} (h : s.procs.All P) :
    (s.wait4 childPid statusPtr options fr).2.procs.All P := by
  unfold wait4
  split
  · exact h
  · split
    · exact h
    · split
      · exact h
      · split
        · refine Uprocs.All.clear ?_ _
          rw [procs_storeUser32]
          exact h
        · split
          · exact h
          · exact all_switchTo hP (h.update fun _ _ => hP rfl rfl)

theorem all_exitThread {p : UserProc} (h : s.procs.All P) : (s.exitThread p).2.procs.All P := by
  unfold exitThread
  have hwoken : (if p.childTidPtr ≠ 0 ∧ p.childTidPtr < userEnd then
      { s.store32 p.childTidPtr 0 with procs := ((s.store32 p.childTidPtr 0).procs.futexWake p.childTidPtr anyChild).2 }
      else s).procs.All P := by
    split
    · exact h.futexWake (fun _ => hP rfl rfl) _ _
    · exact h
  have hcleared := hwoken.clear (if p.childTidPtr ≠ 0 ∧ p.childTidPtr < userEnd then
      { s.store32 p.childTidPtr 0 with procs := ((s.store32 p.childTidPtr 0).procs.futexWake p.childTidPtr anyChild).2 }
      else s).procs.current
  exact all_switchToReady_getD hP hcleared hcleared

theorem all_exitProcess {p : UserProc} {code : Int} (h : s.procs.All P) : (s.exitProcess p code).2.procs.All P := by
  have hz : (s.procs.update fun p => { p with state := .zombie code }).All P := h.update fun _ _ => hP rfl rfl
  unfold exitProcess
  dsimp only
  split
  · exact hz
  · split
    · exact hz
    · split
      · split
        · exact hz
        · refine Uprocs.All.clear ?_ _
          rw [procs_store, procs_storeUser32]
          exact hz.modify fun _ _ => hP rfl rfl
      · refine hz.updateFirst fun o q ho hq => ?_
        obtain ⟨r, hr, rfl⟩ := Option.map_eq_some_iff.mp hq
        exact hP (p := r) rfl rfl (ho r hr)

theorem all_sysExit {code : Int} (h : s.procs.All P) : (s.sysExit code).2.procs.All P := by
  unfold sysExit
  split
  · exact h
  · split
    · exact all_exitThread hP h
    · split
      · exact h
      · exact all_exitProcess hP h

theorem all_suspend {state : UState} (h : s.procs.All P) : (s.suspend fr state).procs.All P :=
  h.update fun _ _ => hP rfl rfl

theorem all_goOn (h : s.procs.All P) : s.goOn.procs.All P := h.update fun _ _ => hP rfl rfl

theorem all_schedYield (h : s.procs.All P) : (s.schedYield fr).2.procs.All P :=
  all_switchToReady_getD hP (all_suspend hP h) (all_goOn hP (all_suspend hP h))

theorem all_futexDispatch {uaddr val : Nat} {op : BitVec 64} (h : s.procs.All P) :
    (s.futexDispatch uaddr op val fr).2.procs.All P := by
  unfold futexDispatch futexWait
  dsimp only
  split
  · split
    · exact h
    · split
      · exact h
      · exact all_switchToReady_getD hP (all_suspend hP h) (all_goOn hP (all_suspend hP h))
  · split
    · exact h.futexWake (fun _ => hP rfl rfl) _ _
    · exact h

end

end UserSys

end ChodOs
