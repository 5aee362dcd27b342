/-
Which user process runs (`process/userproc.rs`): the calls that stop one
process and let another one go on.

`Hands` says which slot is next after a call, in what table, and `CallEffect` is
everything a call does to the table and to the registers. What runs keep is
proved from these two, not from the calls.
-/
import ChodOs.User.Signal

namespace ChodOs

open StepSys

/-- A call of the process that runs. -/
inductive UserCall
  /-- Anything but a call leaves memory like this. -/
  | memory (m : ByteMem)
  | fork (fr newCr3 kstack : Nat)
  | clone (flags : BitVec 64) (childStack parentTid childTid newtls fr newCr3 kstack : Nat)
  | setTid (tidptr : Nat)
  | setFs (addr : Nat)
  | wait4 (childPid statusPtr options fr : Nat)
  | exit (code : Int)
  /-- With what the loader returns. -/
  | exec (cr3 entry rsp : Nat)
  | yield (fr : Nat)
  | futex (uaddr : Nat) (op : BitVec 64) (val fr : Nat)

/-- `USER_CS_RPL3` and `USER_SS_RPL3`. -/
def userCsRpl3 : Nat := 0x2B
def userSsRpl3 : Nat := 0x33

namespace UserSys

/-- `sys_arch_prctl` with `ARCH_SET_FS`. -/
def archSetFs (s : UserSys) (addr : Nat) : UserSys :=
  { s with fsBase := addr, procs := s.procs.update fun p => { p with fsBase := addr } }

/-- The process goes on at the start of a new image, from a frame at the top of its kernel stack. -/
def replaced (cr3 : Nat) (p : UserProc) : UserProc :=
  { p with userCr3 := cr3, state := .running, savedFrameRsp := p.kstackTop - isrFrameSize }

/-- `exec_replace` by the current process `p`, once the loader is done. -/
def execReplace (s : UserSys) (p : UserProc) (cr3 entry rsp : Nat) : Outcome × UserSys :=
  let ffrsp := p.kstackTop - isrFrameSize
  let m := (s.mem.patch ffrsp isrFrameSize fun _ => 0).setWords (ffrsp + 0x48) [entry, userCsRpl3, 0x202, rsp, userSsRpl3]
  let s := { s.setMem m with vmas := s.vmas.reset, procs := s.procs.update (replaced cr3) }
  s.iretqToFrame cr3 ffrsp p.kstackTop

/-- `sys_execve`: a program that was not forked exits, and the next one is started in its place. -/
def sysExecve (s : UserSys) (cr3 entry rsp : Nat) : Outcome × UserSys :=
  match s.procs.cur with
  | some p => if p.parentPid ≠ 0 then s.execReplace p cr3 entry rsp else s.sysExit 0
  | none => s.sysExit 0

def call (s : UserSys) : UserCall → Outcome × UserSys
  | .memory m => (.ret 0, s.setMem m)
  | .fork fr newCr3 kstack => (.ret (s.forkCurrent fr newCr3 kstack).1, (s.forkCurrent fr newCr3 kstack).2)
  | .clone flags childStack parentTid childTid newtls fr newCr3 kstack =>
    let r := s.cloneThread flags childStack parentTid childTid newtls fr newCr3 kstack
    (.ret r.1, r.2)
  | .setTid tidptr => (.ret (s.procs.sysSetTidAddress tidptr).1, { s with procs := (s.procs.sysSetTidAddress tidptr).2 })
  | .setFs addr => (.ret 0, s.archSetFs addr)
  | .wait4 childPid statusPtr options fr => s.wait4 childPid statusPtr options fr
  | .exit code => s.sysExit code
  | .exec cr3 entry rsp => s.sysExecve cr3 entry rsp
  | .yield fr => s.schedYield fr
  | .futex uaddr op val fr => s.futexDispatch uaddr op val fr

end UserSys

namespace UserCall

/-- The exit code, if process `p` exits by the call. -/
def exits (p : UserProc) : UserCall → Option Int
  | .exit code => some code
  | .exec .. => if p.parentPid = 0 then some 0 else none
  | _ => none

/-- The calls that may do nothing to the table. -/
def quiet : UserCall → Bool
  | .memory _ | .wait4 .. | .futex .. => true
  | _ => false

end UserCall

/-- `futex_dispatch` waits, or wakes. -/
def futexOp (op : BitVec 64) : BitVec 64 := op &&& ~~~(128#64 ||| 256#64)

/-- The process has laid itself down. -/
def UserProc.laid (fr : Nat) (state : UState) (p : UserProc) : UserProc := { p with savedFrameRsp := fr, state }

namespace Uprocs

/-- The first slot with this pid. -/
def findPid (u : Uprocs) (pid : Nat) : Option Nat := u.slots.1.findIdx? fun s => s.any (·.pid == pid)

/-- The table after thread `p` has exited. -/
def reaped (u : Uprocs) (p : UserProc) : Uprocs :=
  (if p.childTidPtr ≠ 0 ∧ p.childTidPtr < userEnd then (u.futexWake p.childTidPtr anyChild).2 else u).clear u.current

/-- The table after the current process has exited. -/
def zombie (u : Uprocs) (code : Int) : Uprocs := u.update fun p => { p with state := .zombie code }

end Uprocs

/-- After the call of the current process `p` the table is `t`, and slot `i` is next. -/
inductive Hands (s : UserSys) (p : UserProc) : UserCall → Uprocs → Nat → Prop
  | wait4 {childPid statusPtr options fr i q} (find : s.procs.findChild p.pid childPid = some i)
      (child : s.procs.at? i = some q) (alive : ∀ code, q.state ≠ .zombie code) (hang : options % 2 ≠ 1) :
      Hands s p (.wait4 childPid statusPtr options fr) (s.procs.update (UserProc.laid fr (.waiting q.pid))) i
  | exitThread {c code i} (exits : c.exits p = some code) (thread : p.threadGroupPid ≠ 0)
      (find : (s.procs.reaped p).findNextReadyFrom 0 = some i) : Hands s p c (s.procs.reaped p) i
  | exitProcess {c code i q w} (exits : c.exits p = some code) (process : p.threadGroupPid = 0) (forked : p.parentPid ≠ 0)
      (find : (s.procs.zombie code).findPid p.parentPid = some i) (parent : (s.procs.zombie code).at? i = some q)
      (waits : q.state = .waiting w) (which : w = p.pid ∨ w = anyChild) :
      Hands s p c ((s.procs.zombie code).clear s.procs.current) i
  | exec {cr3 entry rsp} (forked : p.parentPid ≠ 0) :
      Hands s p (.exec cr3 entry rsp) (s.procs.update (UserSys.replaced cr3)) s.procs.current
  | yield {fr i} (find : (s.procs.update (UserProc.laid fr .ready)).findNextReadyFrom (s.procs.current + 1) = some i) :
      Hands s p (.yield fr) (s.procs.update (UserProc.laid fr .ready)) i
  | futex {uaddr op val fr i} (wait : futexOp op = 0#64) (addr : uaddr ≠ 0) (same : s.mem.le uaddr 4 = val % 2 ^ 32)
      (find : (s.procs.update (UserProc.laid fr (.blocked uaddr))).findNextReadyFrom 0 = some i) :
      Hands s p (.futex uaddr op val fr) (s.procs.update (UserProc.laid fr (.blocked uaddr))) i

/-- From the table `t` the process `q` in slot `i` goes on, with its space and kernel stack loaded. -/
structure Switched (s : UserSys) (t : Uprocs) (i : Nat) (q : UserProc) (s' : UserSys) : Prop where
  slot : t.at? i = some q
  current : s'.procs.current = i
  at? : ∀ j, s'.procs.at? j = if i = j then some { q with state := .running } else t.at? j
  cr3 : s'.cr3 = q.userCr3
  kernRsp : s'.kernRsp = q.kstackTop
  fsBase : s'.fsBase = if q.fsBase ≠ 0 then q.fsBase else s.fsBase
  nextPid : s'.nextPid = s.nextPid

/-- The call of the current process `p` ends in the kernel's main loop and leaves the table `t`. -/
inductive Leaves (s : UserSys) (p : UserProc) : UserCall → Uprocs → Prop
  | thread {c code} (exits : c.exits p = some code) (thread : p.threadGroupPid ≠ 0)
      (none : (s.procs.reaped p).findNextReadyFrom 0 = none) : Leaves s p c (s.procs.reaped p)
  | program {c code} (exits : c.exits p = some code) (process : p.threadGroupPid = 0) (root : p.parentPid = 0) :
      Leaves s p c s.procs
  | process {c code} (exits : c.exits p = some code) (process : p.threadGroupPid = 0) (forked : p.parentPid ≠ 0)
      (unwaited : ∀ i q w, (s.procs.zombie code).findPid p.parentPid = some i → (s.procs.zombie code).at? i = some q →
        q.state = .waiting w → w ≠ p.pid ∧ w ≠ anyChild) : Leaves s p c (s.procs.zombie code)

/-- The two registers that no switch is about. -/
structure Still (s s' : UserSys) : Prop where
  fsBase : s'.fsBase = s.fsBase
  nextPid : s'.nextPid = s.nextPid

/-- What a call of the current process `p` does. -/
inductive CallEffect (s : UserSys) (p : UserProc) : UserCall → Outcome → UserSys → Prop
  | quiet {c v s'} (hc : c.quiet = true) (stays : ∀ t i, ¬Hands s p c t i) (still : Still s s')
      (procs : s'.procs = s.procs) : CallEffect s p c (.ret v) s'
  | fork {fr newCr3 kstack s'} (fsBase : s'.fsBase = s.fsBase) (nextPid : s'.nextPid = s.nextPid + 1)
      (procs : s'.procs = s.procs.insert (p.forked s.nextPid newCr3 kstack)) :
      CallEffect s p (.fork fr newCr3 kstack) (.ret s.nextPid) s'
  | clone {flags childStack parentTid childTid newtls fr newCr3 kstack cr3 s'} (fsBase : s'.fsBase = s.fsBase)
      (nextPid : s'.nextPid = s.nextPid + 1)
      (procs : s'.procs = s.procs.insert (UserSys.cloned p flags childTid newtls s.nextPid cr3 kstack)) :
      CallEffect s p (.clone flags childStack parentTid childTid newtls fr newCr3 kstack) (.ret s.nextPid) s'
  | setTid {tidptr v s'} (still : Still s s') (procs : s'.procs = s.procs.update fun p => { p with childTidPtr := tidptr }) :
      CallEffect s p (.setTid tidptr) (.ret v) s'
  | setFs {addr v s'} (fsBase : s'.fsBase = addr) (nextPid : s'.nextPid = s.nextPid)
      (procs : s'.procs = s.procs.update fun p => { p with fsBase := addr }) : CallEffect s p (.setFs addr) (.ret v) s'
  | reaped {childPid statusPtr options fr i q code v s'} (find : s.procs.findChild p.pid childPid = some i)
      (child : s.procs.at? i = some q) (dead : q.state = .zombie code) (still : Still s s')
      (procs : s'.procs = s.procs.clear i) : CallEffect s p (.wait4 childPid statusPtr options fr) (.ret v) s'
  | woke {uaddr op val fr v s'} (wake : futexOp op = 1#64) (still : Still s s')
      (procs : s'.procs = (s.procs.futexWake uaddr val).2) : CallEffect s p (.futex uaddr op val fr) (.ret v) s'
  | alone {uaddr op val fr v s'} (none : (s.procs.update (UserProc.laid fr (.blocked uaddr))).findNextReadyFrom 0 = none)
      (still : Still s s') (procs : s'.procs = s.procs.update (UserProc.laid fr .running)) :
      CallEffect s p (.futex uaddr op val fr) (.ret v) s'
  | handed {c t i q s'} (hands : Hands s p c t i) (switched : Switched s t i q s') :
      CallEffect s p c (.resume q.savedFrameRsp) s'
  | left {c t s'} (leaves : Leaves s p c t) (still : Still s s') (current : s'.procs.current = t.current)
      (entries : ∀ j, s'.procs.at? j = t.at? j ∨
        ∃ q sigs, t.at? j = some q ∧ s'.procs.at? j = some { q with pendingSigs := sigs }) :
      CallEffect s p c .kernelMain s'

/-! ## What the calls do -/

namespace Uprocs

variable {u : Uprocs} {i pid : Nat} {q : UserProc}

theorem findPid_spec (h : u.findPid pid = some i) : ∃ q, u.at? i = some q ∧ q.pid = pid := by
  obtain ⟨hi, hq, -⟩ := List.findIdx?_eq_some_iff_getElem.mp h
  obtain ⟨q, hat, hpid⟩ := (Option.any_eq_true _ _).mp hq
  exact ⟨q, by rw [at?, List.getElem?_eq_getElem hi, hat]; rfl, beq_iff_eq.mp hpid⟩

theorem findPid_ne_none (hq : u.at? i = some q) (hpid : q.pid = pid) : u.findPid pid ≠ none := by
  intro h
  have hno := List.findIdx?_eq_none_iff.mp h _ (mem_of_at? hq)
  rw [Option.any_some, beq_eq_false_iff_ne] at hno
  exact hno hpid

end Uprocs

namespace UserSys

variable {s s' : UserSys} {p q : UserProc} {c : UserCall} {o : Outcome} {t : Uprocs} {i : Nat}

@[simp] theorem fsBase_storeUser32 {a v : Nat} : (s.storeUser32 a v).fsBase = s.fsBase := by
  unfold storeUser32
  split <;> rfl

@[simp] theorem nextPid_storeUser32 {a v : Nat} : (s.storeUser32 a v).nextPid = s.nextPid := by
  unfold storeUser32
  split <;> rfl

@[simp] theorem fsBase_store {a v : Nat} : (s.store a v).fsBase = s.fsBase := rfl

@[simp] theorem nextPid_store {a v : Nat} : (s.store a v).nextPid = s.nextPid := rfl

@[simp] theorem fsBase_cloneSpace {src cr3 : Nat} : (s.cloneSpace src cr3).fsBase = s.fsBase := rfl

@[simp] theorem nextPid_cloneSpace {src cr3 : Nat} : (s.cloneSpace src cr3).nextPid = s.nextPid := rfl

@[simp] theorem procs_cloneSpace {src cr3 : Nat} : (s.cloneSpace src cr3).procs = s.procs := rfl

@[simp] theorem fsBase_childFrame {fr kstack : Nat} : (s.childFrame fr kstack).fsBase = s.fsBase := rfl

@[simp] theorem nextPid_childFrame {fr kstack : Nat} : (s.childFrame fr kstack).nextPid = s.nextPid := rfl

/-- Slot `i` of the table `t` goes on. -/
theorem switched_switchTo (s₁ : UserSys) (hstill : Still s s₁) (hslot : s₁.procs.at? i = some q) :
    Switched s s₁.procs i q (s₁.switchTo i q).2 := by
  have hat : ∀ j, (s₁.switchTo i q).2.procs.at? j = if i = j then some { q with state := .running } else s₁.procs.at? j := by
    intro j
    have hmodify : (s₁.procs.modify i fun p => { p with state := .running }).at? j =
        if i = j then (s₁.procs.at? j).map fun p => { p with state := .running } else s₁.procs.at? j := Uprocs.at?_modify
    refine hmodify.trans ?_
    split
    · next hij => rw [← hij, hslot, Option.map_some]
    · rfl
  have hcur : (s₁.switchTo i q).2.procs.cur = some { q with state := .running } := (hat i).trans (if_pos rfl)
  refine ⟨hslot, rfl, hat, rfl, rfl, ?_, hstill.nextPid⟩
  have hfs : (s₁.switchTo i q).2.fsBase =
      if ((s₁.switchTo i q).2.procs.cur.map (·.fsBase)).getD 0 ≠ 0 then
        ((s₁.switchTo i q).2.procs.cur.map (·.fsBase)).getD 0 else s₁.fsBase := rfl
  rw [hfs, hcur, hstill.fsBase]
  rfl

theorem effect_switchTo (s₁ : UserSys) (hstill : Still s s₁) (hands : Hands s p c s₁.procs i)
    (hslot : s₁.procs.at? i = some q) : CallEffect s p c (s₁.switchTo i q).1 (s₁.switchTo i q).2 :=
  .handed hands (switched_switchTo s₁ hstill hslot)

/-- The next ready one goes on, or else what was given. -/
theorem effect_switchToReady (s₁ : UserSys) {start : Nat} {r : Outcome × UserSys} (hstill : Still s s₁)
    (hands : ∀ i, s₁.procs.findNextReadyFrom start = some i → Hands s p c s₁.procs i)
    (hr : s₁.procs.findNextReadyFrom start = none → CallEffect s p c r.1 r.2) :
    CallEffect s p c ((s₁.switchToReady start).getD r).1 ((s₁.switchToReady start).getD r).2 := by
  cases hf : s₁.procs.findNextReadyFrom start with
  | none =>
    have hnone : s₁.switchToReady start = none := by
      rw [switchToReady, hf]
      rfl
    rw [hnone]
    exact hr hf
  | some i =>
    obtain ⟨q, hq, -⟩ := Uprocs.findNextReadyFrom_spec hf
    have hsome : s₁.switchToReady start = some (s₁.switchTo i q) := by
      simp only [switchToReady, hf, hq, Option.bind_eq_bind, Option.bind_some]
    rw [hsome]
    exact effect_switchTo s₁ hstill (hands i hf) hq

theorem effect_wait4 (hc : s.procs.cur = some p) {childPid statusPtr options fr : Nat} :
    CallEffect s p (.wait4 childPid statusPtr options fr) (s.wait4 childPid statusPtr options fr).1
      (s.wait4 childPid statusPtr options fr).2 := by
  have hquiet : ∀ v, (∀ t i, ¬Hands s p (.wait4 childPid statusPtr options fr) t i) →
      CallEffect s p (.wait4 childPid statusPtr options fr) (.ret v) s := fun v hstays => .quiet rfl hstays ⟨rfl, rfl⟩ rfl
  simp only [wait4, hc]
  cases hf : s.procs.findChild p.pid childPid with
  | none =>
    refine hquiet _ fun t i hh => ?_
    cases hh with
    | wait4 hfind => exact absurd (hf.symm.trans hfind) nofun
    | exitThread hexits => cases hexits
    | exitProcess hexits => cases hexits
  | some i =>
    obtain ⟨q, hq, -⟩ := Uprocs.findChild_spec hf
    simp only [hq]
    cases hz : q.state with
    | zombie code =>
      dsimp only
      exact .reaped hf hq hz ⟨fsBase_storeUser32, nextPid_storeUser32⟩ (by rw [procs_storeUser32])
    | _ =>
      dsimp only
      split
      · next hhang =>
        refine hquiet _ fun t i hh => ?_
        cases hh with
        | wait4 _ _ _ hno => exact hno hhang
        | exitThread hexits => cases hexits
        | exitProcess hexits => cases hexits
      · next hhang =>
        -- the child is read again from the table with its waiting parent
        let t := s.procs.update (UserProc.laid fr (.waiting q.pid))
        obtain ⟨q', hq'⟩ : ∃ q', t.at? i = some q' := by
          have hupd : t.at? i = if s.procs.current = i then (s.procs.at? i).map (UserProc.laid fr (.waiting q.pid))
            else s.procs.at? i := Uprocs.at?_update
          rw [hupd, hq]
          split <;> exact ⟨_, rfl⟩
        have hget : (t.at? i).getD q = q' := by rw [hq', Option.getD_some]
        have hhands : Hands s p (.wait4 childPid statusPtr options fr) t i :=
          .wait4 hf hq (fun code he => by rw [hz] at he; cases he) hhang
        have hstill : Still s { s with procs := t } := ⟨rfl, rfl⟩
        have heff := effect_switchTo { s with procs := t } hstill hhands hq'
        rw [← hget] at heff
        exact heff

theorem findNextReadyFrom_of_ready {u : Uprocs} {start : Nat} (hq : u.at? i = some q) (hs : q.state = .ready) :
    ∃ j, u.findNextReadyFrom start = some j :=
  Option.ne_none_iff_exists'.mp fun h => Uprocs.findNextReadyFrom_eq_none h hq hs

theorem effect_yield (hc : s.procs.cur = some p) {fr : Nat} :
    CallEffect s p (.yield fr) (s.schedYield fr).1 (s.schedYield fr).2 := by
  refine effect_switchToReady (s.suspend fr .ready) ⟨rfl, rfl⟩ (fun i hf => .yield hf) fun hnone => ?_
  -- the caller itself is ready
  have hcur : (s.procs.update (UserProc.laid fr .ready)).cur = some (p.laid fr .ready) := by
    rw [Uprocs.cur_update, hc, Option.map_some]
  exact absurd rfl (Uprocs.findNextReadyFrom_eq_none hnone hcur)

theorem effect_futex {uaddr val fr : Nat} {op : BitVec 64} :
    CallEffect s p (.futex uaddr op val fr) (s.futexDispatch uaddr op val fr).1 (s.futexDispatch uaddr op val fr).2 := by
  have hquiet : ∀ v, (futexOp op = 0#64 → uaddr ≠ 0 → s.mem.le uaddr 4 = val % 2 ^ 32 → False) →
      CallEffect s p (.futex uaddr op val fr) (.ret v) s := by
    refine fun v hstays => .quiet rfl (fun t i hh => ?_) ⟨rfl, rfl⟩ rfl
    cases hh with
    | futex hwait haddr hsame _ => exact hstays hwait haddr hsame
    | exitThread hexits => cases hexits
    | exitProcess hexits => cases hexits
  unfold futexDispatch
  dsimp only
  split
  · next hwait =>
    unfold futexWait
    split
    · next hzero => exact hquiet _ fun _ haddr _ => haddr hzero
    · next haddr =>
      split
      · next hdiffer => exact hquiet _ fun _ _ hsame => hdiffer hsame
      · next hsame =>
        refine effect_switchToReady (s.suspend fr (.blocked uaddr)) ⟨rfl, rfl⟩
          (fun i hf => .futex hwait haddr (not_not.mp hsame) hf) fun hnone => .alone hnone ⟨rfl, rfl⟩ ?_
        -- laid down and up again
        have htwice : ∀ u : Uprocs, (u.update (UserProc.laid fr (.blocked uaddr))).update
            (fun p => { p with state := .running }) = u.update (UserProc.laid fr .running) := by
          intro u
          simp only [Uprocs.update, Uprocs.modify, Table.modify]
          congr 2
          rw [List.modify_modify_eq]
          congr 1
          funext o
          cases o <;> rfl
        exact htwice s.procs
  · split
    · next hwake => exact .woke hwake ⟨rfl, rfl⟩ rfl
    · next hwait _ => exact hquiet _ fun hzero _ _ => hwait hzero

theorem effect_exitThread {code : Int} (hexits : c.exits p = some code) (hthread : p.threadGroupPid ≠ 0) :
    CallEffect s p c (s.exitThread p).1 (s.exitThread p).2 := by
  let woken : UserSys := if p.childTidPtr ≠ 0 ∧ p.childTidPtr < userEnd then
      let s := s.store32 p.childTidPtr 0
      { s with procs := (s.procs.futexWake p.childTidPtr anyChild).2 }
    else s
  let s₁ : UserSys := { woken with procs := woken.procs.clear woken.procs.current }
  have hprocs : s₁.procs = s.procs.reaped p := by
    simp only [s₁, woken, Uprocs.reaped]
    split <;> rfl
  have hstill : Still s s₁ := by
    constructor <;> simp only [s₁, woken] <;> split <;> rfl
  have heff : CallEffect s p c ((s₁.switchToReady 0).getD s₁.toKernelMain).1 ((s₁.switchToReady 0).getD s₁.toKernelMain).2 := by
    refine effect_switchToReady s₁ hstill (fun i hf => ?_) fun hnone => ?_
    · rw [hprocs] at hf ⊢
      exact .exitThread hexits hthread hf
    · rw [hprocs] at hnone
      exact .left (.thread hexits hthread hnone) ⟨hstill.fsBase, hstill.nextPid⟩ (congrArg Uprocs.current hprocs)
        fun j => .inl (congrArg (Uprocs.at? · j) hprocs)
  exact heff

/-- `SIGCHLD` is all that changes. -/
theorem at?_raiseSigchldTo (u : Uprocs) (pid j : Nat) : (raiseSigchldTo u pid).at? j = u.at? j ∨
    ∃ q sigs, u.at? j = some q ∧ (raiseSigchldTo u pid).at? j = some { q with pendingSigs := sigs } := by
  simp only [Uprocs.at?, raiseSigchldTo, Table.updateFirst]
  rcases Slots.updateFirst_eq_set (fun s : Option UserProc => s.any (·.pid == pid))
    (·.map fun p => { p with pendingSigs := p.pendingSigs ||| 1#64 <<< 16 }) u.slots.1 with ⟨-, h⟩ | ⟨i, o, hi, ho, h⟩
  · exact .inl (by rw [h])
  · rw [h]
    by_cases hij : i = j
    · subst hij
      obtain ⟨q, rfl, -⟩ := (Option.any_eq_true _ _).mp ho
      refine .inr ⟨q, q.pendingSigs ||| 1#64 <<< 16, by rw [hi]; rfl, ?_⟩
      rw [List.getElem?_set_self (List.getElem?_eq_some_iff.mp hi).1]
      rfl
    · exact .inl (by rw [List.getElem?_set_ne hij])

/-- The process in slot `i` goes on, and the one in slot `child` is gone. -/
theorem switched_iretq (s₁ : UserSys) (hstill : Still s s₁) {child : Nat} (hne : child ≠ i) (hslot : t.at? i = some q)
    (hprocs : s₁.procs =
      ({ t.modify i (fun q => { q with state := .running }) with current := i } : Uprocs).clear child) :
    Switched s (t.clear child) i q (s₁.iretqToFrame q.userCr3 q.savedFrameRsp q.kstackTop).2 := by
  have hat : ∀ j, s₁.procs.at? j = if i = j then some { q with state := .running } else (t.clear child).at? j := by
    intro j
    have hmodify : ({ t.modify i (fun q => { q with state := .running }) with current := i } : Uprocs).at? j =
        if i = j then (t.at? j).map fun q => { q with state := .running } else t.at? j := Uprocs.at?_modify
    rw [hprocs, Uprocs.at?_clear, Uprocs.at?_clear, hmodify]
    by_cases hij : i = j
    · rw [if_neg (hij ▸ hne), if_pos hij, if_pos hij, ← hij, hslot, Option.map_some]
    · rw [if_neg hij, if_neg hij]
  have hcur : s₁.procs.cur = some { q with state := .running } := by
    rw [Uprocs.cur, hat, if_pos (by rw [hprocs]; rfl)]
  refine ⟨by rw [Uprocs.at?_clear, if_neg hne, hslot], by rw [iretqToFrame, hprocs]; rfl, hat, rfl, rfl, ?_, hstill.nextPid⟩
  simp only [iretqToFrame, hcur, Option.map_some, Option.getD_some, hstill.fsBase]

theorem effect_exitProcess (hc : s.procs.cur = some p) {code : Int} (hexits : c.exits p = some code)
    (hprocess : p.threadGroupPid = 0) (hforked : p.parentPid ≠ 0) :
    CallEffect s p c (s.exitProcess p code).1 (s.exitProcess p code).2 := by
  let t := s.procs.zombie code
  have hleft : ∀ (s' : UserSys), Still s s' → s'.procs.current = t.current →
      (∀ j, s'.procs.at? j = t.at? j ∨ ∃ q sigs, t.at? j = some q ∧ s'.procs.at? j = some { q with pendingSigs := sigs }) →
      (∀ i q w, t.findPid p.parentPid = some i → t.at? i = some q → q.state = .waiting w → w ≠ p.pid ∧ w ≠ anyChild) →
      CallEffect s p c .kernelMain s' := fun s' hstill hcur hentries hno =>
    .left (.process hexits hprocess hforked hno) hstill hcur hentries
  have hself : t.at? s.procs.current = some { p with state := .zombie code } := by
    have hcur : t.cur = s.procs.cur.map fun p => { p with state := .zombie code } := Uprocs.cur_update
    rw [hc] at hcur
    exact hcur
  unfold exitProcess
  dsimp only
  split
  · next hnone =>
    have hf : t.findPid p.parentPid = none := hnone
    exact hleft _ ⟨rfl, rfl⟩ rfl (fun j => .inl rfl) fun i q w hi => absurd (hf.symm.trans hi) nofun
  · next i hsome =>
    have hf : t.findPid p.parentPid = some i := hsome
    obtain ⟨parent, hparent, -⟩ := Uprocs.findPid_spec hf
    have honly : ∀ j q w, t.findPid p.parentPid = some j → t.at? j = some q → q.state = .waiting w →
        parent.state = .waiting w := by
      intro j q w hj hq hw
      obtain rfl := Option.some.inj (hf.symm.trans hj)
      obtain rfl := Option.some.inj (hparent.symm.trans hq)
      exact hw
    split
    · next hnone => exact absurd (hparent.symm.trans hnone) nofun
    · next q hq =>
      obtain rfl : q = parent := Option.some.inj (hq.symm.trans hparent)
      split
      · next w hw =>
        split
        · next hother =>
          refine hleft _ ⟨rfl, rfl⟩ rfl (fun j => .inl rfl) fun j q' w' hj hq' hw' => ?_
          have he := hw.symm.trans (honly j q' w' hj hq' hw')
          cases he
          exact hother
        · next hthis =>
          have hne : s.procs.current ≠ i := by
            intro he
            have hzombie := congrArg UserProc.state (Option.some.inj (hself.symm.trans (he ▸ hparent)))
            rw [hw] at hzombie
            cases hzombie
          refine .handed (.exitProcess hexits hprocess hforked hf hparent hw (by omega)) ?_
          refine switched_iretq _ ⟨?_, ?_⟩ hne hparent ?_
          · exact fsBase_storeUser32
          · exact nextPid_storeUser32
          · rw [procs_store, procs_storeUser32]
            rfl
      · next hstate =>
        refine hleft _ ⟨rfl, rfl⟩ rfl (fun j => at?_raiseSigchldTo t p.parentPid j) fun j q' w' hj hq' hw' => ?_
        exact absurd (honly j q' w' hj hq' hw') (hstate w')

theorem effect_sysExit (hc : s.procs.cur = some p) {code : Int} (hexits : c.exits p = some code) :
    CallEffect s p c (s.sysExit code).1 (s.sysExit code).2 := by
  simp only [sysExit, hc]
  split
  · next hthread => exact effect_exitThread hexits hthread
  · next hprocess =>
    split
    · next hroot =>
      exact .left (.program hexits (not_not.mp hprocess) hroot) ⟨rfl, rfl⟩ rfl fun j => .inl rfl
    · next hforked => exact effect_exitProcess hc hexits (not_not.mp hprocess) hforked

theorem effect_exec (hc : s.procs.cur = some p) {cr3 entry rsp : Nat} :
    CallEffect s p (.exec cr3 entry rsp) (s.sysExecve cr3 entry rsp).1 (s.sysExecve cr3 entry rsp).2 := by
  simp only [sysExecve, hc]
  split
  · next hforked =>
    have hcur : (s.procs.update (replaced cr3)).cur = some (replaced cr3 p) := by
      rw [Uprocs.cur_update, hc, Option.map_some]
    have hat : ∀ j, (s.procs.update (replaced cr3)).at? j =
        if s.procs.current = j then some { replaced cr3 p with state := .running }
        else (s.procs.update (replaced cr3)).at? j := by
      intro j
      split
      · next hj => exact hj ▸ hcur
      · rfl
    refine .handed (q := replaced cr3 p) (.exec hforked) ⟨hcur, rfl, hat, rfl, rfl, ?_, rfl⟩
    simp only [execReplace, iretqToFrame, hcur, Option.map_some, Option.getD_some]
    rfl
  · next hroot => exact effect_sysExit hc (if_pos (not_not.mp hroot))

theorem effect_clone (hc : s.procs.cur = some p) {flags : BitVec 64}
    {childStack parentTid childTid newtls fr newCr3 kstack : Nat} :
    CallEffect s p (.clone flags childStack parentTid childTid newtls fr newCr3 kstack)
      (s.call (.clone flags childStack parentTid childTid newtls fr newCr3 kstack)).1
      (s.call (.clone flags childStack parentTid childTid newtls fr newCr3 kstack)).2 := by
  simp only [call, cloneThread, hc, allocPid]
  refine .clone ?_ ?_ (?_ : _ = s.procs.insert (cloned p flags childTid newtls s.nextPid
    (if flags.getLsbD cloneVm then p.userCr3 else newCr3) kstack))
  · simp only [apply_ite Prod.snd, apply_ite UserSys.fsBase, fsBase_storeUser32, fsBase_store, fsBase_cloneSpace,
      fsBase_childFrame, ite_self]
  · simp only [apply_ite Prod.snd, apply_ite UserSys.nextPid, nextPid_storeUser32, nextPid_store, nextPid_cloneSpace,
      nextPid_childFrame, ite_self]
  · simp only [apply_ite Prod.snd, apply_ite Prod.fst, apply_ite UserSys.procs, procs_storeUser32, procs_store,
      procs_cloneSpace, procs_childFrame, ite_self]

/-- Everything that a call does. -/
theorem call_effect (hc : s.procs.cur = some p) (c : UserCall) : CallEffect s p c (s.call c).1 (s.call c).2 := by
  cases c with
  | memory m =>
    refine .quiet rfl (fun t i hh => ?_) ⟨rfl, rfl⟩ rfl
    cases hh with
    | exitThread hexits => cases hexits
    | exitProcess hexits => cases hexits
  | fork fr newCr3 kstack =>
    simp only [call, forkCurrent, hc]
    exact .fork rfl rfl rfl
  | clone => exact effect_clone hc
  | setTid tidptr => exact .setTid ⟨rfl, rfl⟩ rfl
  | setFs addr => exact .setFs rfl rfl rfl
  | wait4 => exact effect_wait4 hc
  | exit code => exact effect_sysExit hc rfl
  | exec => exact effect_exec hc
  | yield => exact effect_yield hc
  | futex => exact effect_futex

end UserSys

/-! ## One process runs -/

/-- The current process runs, and no other. -/
structure OneRunning (u : Uprocs) : Prop where
  cur : ∃ p, u.cur = some p ∧ p.state = .running
  only : ∀ i q, u.at? i = some q → q.state = .running → i = u.current

variable {s s' : UserSys} {p q : UserProc} {c : UserCall} {o : Outcome} {t u : Uprocs} {i : Nat}

/-- Rewriting the running process, which goes on running. -/
theorem OneRunning.update {f : UserProc → UserProc} (h : OneRunning u) (hf : ∀ p, p.state = .running → (f p).state = .running) :
    OneRunning (u.update f) := by
  obtain ⟨p, hc, hp⟩ := h.cur
  refine ⟨⟨f p, by rw [Uprocs.cur_update, hc, Option.map_some], hf p hp⟩, fun i q hq hs => ?_⟩
  rw [Uprocs.at?_update] at hq
  split at hq
  · next hi => exact hi.symm
  · exact h.only i q hq hs

theorem OneRunning.insert (h : OneRunning u) (hq : q.state ≠ .running) : OneRunning (u.insert q) := by
  obtain ⟨p, hc, hp⟩ := h.cur
  refine ⟨⟨p, Uprocs.at?_insert_of_some hc, hp⟩, fun i r hr hs => ?_⟩
  rcases Uprocs.insert_cases u q with ⟨-, he⟩ | ⟨k, -, -, hat⟩
  · exact h.only i r (he ▸ hr) hs
  · rw [hat] at hr
    split at hr
    · cases hr
      exact absurd hs hq
    · exact h.only i r hr hs

theorem OneRunning.clear (h : OneRunning u) (hi : i ≠ u.current) : OneRunning (u.clear i) := by
  obtain ⟨p, hc, hp⟩ := h.cur
  refine ⟨⟨p, ?_, hp⟩, fun j q hq hs => ?_⟩
  · rw [Uprocs.cur, Uprocs.at?_clear, Uprocs.current_clear, if_neg hi]
    exact hc
  · rw [Uprocs.at?_clear] at hq
    split at hq
    · cases hq
    · exact h.only j q hq hs

/-- Who is woken was not running. -/
theorem running_of_futexWake {uaddr maxCount : Nat} (hq : (u.futexWake uaddr maxCount).2.at? i = some q)
    (hs : q.state = .running) : u.at? i = some q := by
  rcases Uprocs.at?_futexWake u i uaddr maxCount with he | ⟨r, -, -, he⟩
  · exact he ▸ hq
  · obtain rfl := Option.some.inj (he.symm.trans hq)
    cases hs

theorem OneRunning.futexWake (h : OneRunning u) (uaddr maxCount : Nat) : OneRunning (u.futexWake uaddr maxCount).2 := by
  obtain ⟨p, hc, hp⟩ := h.cur
  refine ⟨⟨p, ?_, hp⟩, fun i q hq hs => h.only i q (running_of_futexWake hq hs) hs⟩
  rcases Uprocs.at?_futexWake u u.current uaddr maxCount with he | ⟨r, hr, hb, -⟩
  · exact he.trans hc
  · obtain rfl := Option.some.inj (hr.symm.trans hc)
    rw [hp] at hb
    cases hb

/-- The caller no longer runs in the table it leaves. -/
theorem Hands.only (hh : Hands s p c t i) (h : OneRunning s.procs) :
    ∀ j q, t.at? j = some q → q.state = .running → j = i := by
  have hlaid : ∀ {fr state j q}, (s.procs.update (UserProc.laid fr state)).at? j = some q → q.state = .running →
      state ≠ .running → False := by
    intro fr state j q hq hs hstate
    rw [Uprocs.at?_update] at hq
    split at hq
    · obtain ⟨r, -, rfl⟩ := Option.map_eq_some_iff.mp hq
      exact hstate hs
    · next hj => exact hj (h.only j q hq hs).symm
  intro j q hq hs
  cases hh with
  | wait4 => exact (hlaid hq hs nofun).elim
  | yield => exact (hlaid hq hs nofun).elim
  | futex => exact (hlaid hq hs nofun).elim
  | exitThread =>
    rw [Uprocs.reaped, Uprocs.at?_clear] at hq
    split at hq
    · cases hq
    · next hj =>
      split at hq
      · exact absurd (h.only j q (running_of_futexWake hq hs) hs).symm hj
      · exact absurd (h.only j q hq hs).symm hj
  | exitProcess =>
    rw [Uprocs.at?_clear] at hq
    split at hq
    · cases hq
    · next hj =>
      rw [Uprocs.zombie, Uprocs.at?_update, if_neg hj] at hq
      exact absurd (h.only j q hq hs).symm hj
  | exec =>
    rw [Uprocs.at?_update] at hq
    split at hq
    · next hj => exact hj.symm
    · exact h.only j q hq hs

/-- The process that goes on is then the one that runs. -/
theorem Switched.oneRunning (hsw : Switched s t i q s') (h : ∀ j r, t.at? j = some r → r.state = .running → j = i) :
    OneRunning s'.procs := by
  refine ⟨⟨{ q with state := .running }, ?_, rfl⟩, fun j r hr hs => ?_⟩
  · rw [Uprocs.cur, hsw.at?, hsw.current, if_pos rfl]
  · rw [hsw.current]
    rw [hsw.at?] at hr
    split at hr
    · next hj => exact hj.symm
    · exact h j r hr hs

/-- A call that stays in user processes. -/
theorem CallEffect.oneRunning (he : CallEffect s p c o s') (h : OneRunning s.procs) (ho : o ≠ .kernelMain) : OneRunning s'.procs := by
  cases he with
  | quiet _ _ _ hprocs => exact hprocs ▸ h
  | fork _ _ hprocs => exact hprocs ▸ h.insert nofun
  | clone _ _ hprocs => exact hprocs ▸ h.insert nofun
  | setTid _ hprocs => exact hprocs ▸ h.update fun _ hp => hp
  | setFs _ _ hprocs => exact hprocs ▸ h.update fun _ hp => hp
  | @reaped _ _ _ _ i q _ _ _ _ hq hdead _ hprocs =>
    refine hprocs ▸ h.clear fun hi => ?_
    obtain ⟨p', hc', hp'⟩ := h.cur
    obtain rfl := Option.some.inj ((hi ▸ hq).symm.trans hc')
    rw [hp'] at hdead
    cases hdead
  | woke _ _ hprocs => exact hprocs ▸ h.futexWake _ _
  | alone _ _ hprocs => exact hprocs ▸ h.update fun _ _ => rfl
  | handed hh hsw => exact hsw.oneRunning (hh.only h)
  | left => exact absurd rfl ho

/-! ## What stays of a process -/

/-- What no switch changes. -/
structure Ident where
  pid : Nat
  parentPid : Nat
  group : Nat
  fsBase : Nat

def UserProc.ident (p : UserProc) : Ident := ⟨p.pid, p.parentPid, p.threadGroupPid, p.fsBase⟩

def Uprocs.ident (u : Uprocs) (i : Nat) : Option Ident := (u.at? i).map (·.ident)

/-- Who is new after a call of process `p`. -/
inductive Born (s : UserSys) (p : UserProc) : UserCall → Ident → Prop
  | fork {fr newCr3 kstack} : Born s p (.fork fr newCr3 kstack) ⟨s.nextPid, p.pid, 0, 0⟩
  | clone {flags childStack parentTid childTid newtls fr newCr3 kstack group} :
      Born s p (.clone flags childStack parentTid childTid newtls fr newCr3 kstack)
        ⟨s.nextPid, p.pid, group, if flags.getLsbD UserSys.cloneSettls then newtls else p.fsBase⟩

/-- A call makes a process, ends one that was not started by `enter_elf`, sets a TLS base, or none of these. -/
inductive IdentStep (s : UserSys) (p : UserProc) (c : UserCall) (id' : Nat → Option Ident) : Prop
  | same (h : id' = s.procs.ident)
  | born {j b} (free : s.procs.at? j = none) (new : Born s p c b) (h : id' = Function.update s.procs.ident j (some b))
  | gone {j r} (was : s.procs.at? j = some r) (forked : r.parentPid ≠ 0) (h : id' = Function.update s.procs.ident j none)
  | setFs {addr} (call : c = .setFs addr)
      (h : id' = Function.update s.procs.ident s.procs.current (some { p.ident with fsBase := addr }))

namespace Uprocs

theorem ident_of_at? (h : u.at? i = some q) : u.ident i = some q.ident := by
  rw [ident, h]
  rfl

theorem at?_of_ident {b : Ident} (h : u.ident i = some b) : ∃ q, u.at? i = some q ∧ q.ident = b :=
  Option.map_eq_some_iff.mp h

theorem ident_update {f : UserProc → UserProc} (hf : ∀ q, (f q).ident = q.ident) : (u.update f).ident = u.ident := by
  funext j
  rw [ident, ident, at?_update]
  split
  · rw [Option.map_map]
    exact Option.map_congr fun q _ => hf q
  · rfl

theorem ident_setFs (hc : u.cur = some p) {addr : Nat} : (u.update fun p => { p with fsBase := addr }).ident =
    Function.update u.ident u.current (some { p.ident with fsBase := addr }) := by
  funext j
  rw [ident, at?_update]
  by_cases hj : u.current = j
  · have hat : u.at? j = some p := hj ▸ hc
    rw [if_pos hj, ← hj, Function.update_self, hj, hat]
    rfl
  · rw [if_neg hj, Function.update_of_ne (Ne.symm hj)]
    rfl

theorem ident_clear : (u.clear i).ident = Function.update u.ident i none := by
  funext j
  rw [ident, at?_clear]
  by_cases hij : i = j
  · rw [if_pos hij, hij, Function.update_self]
    rfl
  · rw [if_neg hij, Function.update_of_ne (Ne.symm hij)]
    rfl

theorem ident_futexWake {uaddr maxCount : Nat} : (u.futexWake uaddr maxCount).2.ident = u.ident := by
  funext j
  rw [ident, ident]
  rcases at?_futexWake u j uaddr maxCount with he | ⟨q, hq, -, he⟩
  · rw [he]
  · rw [he, hq]
    rfl

theorem ident_reaped : (u.reaped p).ident = Function.update u.ident u.current none := by
  rw [reaped, ident_clear]
  split
  · rw [ident_futexWake]
  · rfl

theorem ident_zombie {code : Int} : (u.zombie code).ident = u.ident := ident_update fun _ => rfl

theorem ident_insert : (u.insert q).ident = u.ident ∨
    ∃ i, u.at? i = none ∧ (u.insert q).ident = Function.update u.ident i (some q.ident) := by
  rcases insert_cases u q with ⟨-, he⟩ | ⟨i, -, hnone, hat⟩
  · exact .inl (by rw [he])
  · refine .inr ⟨i, hnone, ?_⟩
    funext j
    rw [ident, hat]
    by_cases hij : i = j
    · rw [if_pos hij, hij, Function.update_self]
      rfl
    · rw [if_neg hij, Function.update_of_ne (Ne.symm hij)]
      rfl

end Uprocs

theorem Switched.ident (hsw : Switched s t i q s') : s'.procs.ident = t.ident := by
  funext j
  rw [Uprocs.ident, Uprocs.ident, hsw.at?]
  split
  · next hij =>
    rw [← hij, hsw.slot]
    rfl
  · rfl

/-- The caller stays in the table, or was a forked process and is gone. -/
theorem Hands.ident (hh : Hands s p c t i) (hthread : p.threadGroupPid ≠ 0 → p.parentPid ≠ 0) :
    t.ident = s.procs.ident ∨
      p.parentPid ≠ 0 ∧ t.ident = Function.update s.procs.ident s.procs.current none := by
  cases hh with
  | wait4 => exact .inl (Uprocs.ident_update fun _ => rfl)
  | exitThread _ hgroup _ => exact .inr ⟨hthread hgroup, Uprocs.ident_reaped⟩
  | exitProcess _ _ hforked => exact .inr ⟨hforked, by rw [Uprocs.ident_clear, Uprocs.ident_zombie]⟩
  | exec => exact .inl (Uprocs.ident_update fun _ => rfl)
  | yield => exact .inl (Uprocs.ident_update fun _ => rfl)
  | futex => exact .inl (Uprocs.ident_update fun _ => rfl)

theorem Leaves.ident (hl : Leaves s p c t) (hthread : p.threadGroupPid ≠ 0 → p.parentPid ≠ 0) :
    t.ident = s.procs.ident ∨ p.parentPid ≠ 0 ∧ t.ident = Function.update s.procs.ident s.procs.current none := by
  cases hl with
  | thread _ hgroup _ => exact .inr ⟨hthread hgroup, Uprocs.ident_reaped⟩
  | program => exact .inl rfl
  | process => exact .inl Uprocs.ident_zombie

theorem CallEffect.ident (he : CallEffect s p c o s') (hc : s.procs.cur = some p)
    (hthread : p.threadGroupPid ≠ 0 → p.parentPid ≠ 0) (hpos : p.pid ≠ 0) :
    IdentStep s p c s'.procs.ident := by
  have hgone : ∀ {u : Uprocs}, (u.ident = s.procs.ident ∨
      p.parentPid ≠ 0 ∧ u.ident = Function.update s.procs.ident s.procs.current none) → IdentStep s p c u.ident := by
    intro u h
    rcases h with h | ⟨hforked, h⟩
    · exact .same h
    · exact .gone hc hforked h
  cases he with
  | quiet _ _ _ hprocs => exact .same (by rw [hprocs])
  | fork _ _ hprocs =>
    rw [hprocs]
    rcases Uprocs.ident_insert (u := s.procs) with h | ⟨i, hnone, h⟩
    · exact .same h
    · exact .born hnone .fork h
  | clone _ _ hprocs =>
    rw [hprocs]
    rcases Uprocs.ident_insert (u := s.procs) with h | ⟨i, hnone, h⟩
    · exact .same h
    · exact .born hnone .clone h
  | setTid _ hprocs => exact .same (by rw [hprocs]; exact Uprocs.ident_update fun _ => rfl)
  | setFs _ _ hprocs => exact .setFs rfl (by rw [hprocs, Uprocs.ident_setFs hc])
  | reaped hfind hchild _ _ hprocs =>
    obtain ⟨r, hr, hparent, -⟩ := Uprocs.findChild_spec hfind
    refine .gone hr ?_ (by rw [hprocs, Uprocs.ident_clear])
    rwa [hparent]
  | woke _ _ hprocs => exact .same (by rw [hprocs, Uprocs.ident_futexWake])
  | alone _ _ hprocs => exact .same (by rw [hprocs]; exact Uprocs.ident_update fun _ => rfl)
  | handed hh hsw => exact hgone (by rw [hsw.ident]; exact hh.ident hthread)
  | @left _ t _ hl _ _ hentries =>
    refine hgone ?_
    have ht : s'.procs.ident = t.ident := by
      funext j
      rw [Uprocs.ident, Uprocs.ident]
      rcases hentries j with h | ⟨r, sigs, hr, h⟩
      · rw [h]
      · rw [h, hr]
        rfl
    rw [ht]
    exact hl.ident hthread

/-! ## Runs -/

/-- Who got which TLS base. -/
inductive TlsEvent
  | given (pid v : Nat)
  | inherits (child parent : Nat)

namespace UserSys

/-- The TLS base that a call of process `p` sets or gives away. -/
def tlsEvents (s : UserSys) (p : UserProc) : UserCall → List TlsEvent
  | .setFs addr => [.given p.pid addr]
  | .fork .. => [.inherits s.nextPid p.pid]
  | .clone flags _ _ _ newtls _ _ _ =>
    if flags.getLsbD cloneSettls then [.given s.nextPid newtls] else [.inherits s.nextPid p.pid]
  | _ => []

/-- A call that stays in user processes. -/
def userStep (s : UserSys) (c : UserCall) : Option (List TlsEvent × UserSys) := do
  let p ← s.procs.cur
  if (s.call c).1 = .kernelMain then none else some (s.tlsEvents p c, (s.call c).2)

end UserSys

open UserSys

/-- One process is registered, and it runs. -/
structure Alone (u : Uprocs) : Prop where
  cur : ∃ p, u.cur = some p ∧ p.state = .running
  only : ∀ i q, u.at? i = some q → i = u.current

theorem userStep_spec {es : List TlsEvent} (h : s.userStep c = some (es, s')) :
    ∃ p o, s.procs.cur = some p ∧ s.call c = (o, s') ∧ o ≠ .kernelMain ∧ es = s.tlsEvents p c := by
  obtain ⟨p, hc, h⟩ := Option.bind_eq_some_iff.mp h
  split at h
  · cases h
  · next ho =>
    cases h
    exact ⟨p, _, hc, rfl, ho, rfl⟩

/-- While control stays in user processes the current one runs and no other,
and a switch loads what is in the slot of the process that goes on. -/
theorem one_context_runs {s₀ s : UserSys} {h : List TlsEvent} (halone : Alone s₀.procs) (hr : Runs userStep free s₀ h s) :
    (∃ p, s.procs.cur = some p ∧ p.state = .running) ∧
      (∀ i q, s.procs.at? i = some q → q.state = .running → i = s.procs.current) ∧
      ∀ c fr s', s.call c = (.resume fr, s') → ∃ q, s'.procs.cur = some q ∧ q.state = .running ∧
        s'.cr3 = q.userCr3 ∧ fr = q.savedFrameRsp ∧ s'.kernRsp = q.kstackTop := by
  have hone : OneRunning s.procs := by
    refine hr.invariant_state (fun s => OneRunning s.procs) ⟨halone.cur, fun i q hq _ => halone.only i q hq⟩ ?_
    intro h s c es s' hI _ hs
    obtain ⟨p, o, hc, hcall, ho, -⟩ := userStep_spec hs
    have heff := call_effect hc c
    rw [hcall] at heff
    exact heff.oneRunning hI ho
  refine ⟨hone.cur, hone.only, fun c fr s' hcall => ?_⟩
  obtain ⟨p, hc, -⟩ := hone.cur
  have heff := call_effect hc c
  rw [hcall] at heff
  cases heff with
  | @handed _ _ i q _ _ hsw =>
    exact ⟨{ q with state := .running }, by rw [Uprocs.cur, hsw.at?, hsw.current, if_pos rfl], rfl, hsw.cr3, rfl, hsw.kernRsp⟩

/-- The first program. -/
theorem alone_first {kernelMem : ByteMem} {spaces : Nat → ByteMem} {kernelCr3 kernRsp nextPid pid userCr3 kstack : Nat} :
    ∃ p, ((UserSys.boot kernelMem spaces kernelCr3 kernRsp nextPid).register pid 0 userCr3 kstack).procs.cur = some p ∧
      p = .new pid 0 userCr3 kstack ∧
      Alone ((UserSys.boot kernelMem spaces kernelCr3 kernRsp nextPid).register pid 0 userCr3 kstack).procs := by
  refine ⟨_, rfl, rfl, ⟨_, rfl, rfl⟩, fun i q hq => ?_⟩
  by_contra hi
  have hlt := Uprocs.at?_lt hq
  have hat : ((UserSys.boot kernelMem spaces kernelCr3 kernRsp nextPid).register pid 0 userCr3 kstack).procs.at? i =
      if 0 = i then some (.new pid 0 userCr3 kstack) else
        (UserSys.boot kernelMem spaces kernelCr3 kernRsp nextPid).procs.at? i := Uprocs.at?_set (by decide)
  rw [hat, if_neg (fun h => hi h.symm)] at hq
  cases List.eq_of_mem_replicate (Uprocs.mem_of_at? hq)

/-- A process forks and waits; its child yields. -/
theorem one_context_runs_forked : ∃ (s₀ s : UserSys) (h : List TlsEvent), Runs userStep free s₀ h s ∧
    s.procs.current = 1 ∧ (∃ p, s.procs.cur = some p ∧ p.state = .running) ∧
    ∀ i q, s.procs.at? i = some q → q.state = .running → i = s.procs.current := by
  let s₀ := (UserSys.boot (fun _ => 0) (fun _ _ => 0) 0 0 3).register 2 0 5 userEnd
  obtain ⟨-, -, -, halone⟩ : ∃ p, s₀.procs.cur = some p ∧ p = .new 2 0 5 userEnd ∧ Alone s₀.procs := alone_first
  obtain ⟨h, s, hr, hP⟩ := Runs.of_exec userStep free s₀
    [.fork userEnd 6 (userEnd + 0x20000), .wait4 anyChild 0 0 userEnd, .yield (userEnd + 0x20000)]
    (fun _ s => s.procs.current == 1) (by decide)
  obtain ⟨hcur, honly, -⟩ := one_context_runs halone hr
  exact ⟨s₀, s, h, hr, beq_iff_eq.mp hP, hcur, honly⟩

end ChodOs
