/-
Signals (`signal.rs`, and `sys_kill` and `deliver_sigint` of
`syscall/proc.rs`): raising, delivery at the end of a system call through a
frame on the user's stack, and the return from a handler.
-/
import ChodOs.Lib.Run
import ChodOs.User.Threads

namespace ChodOs

open StepSys

def sigkill : Nat := 9
def sigchld : Nat := 17
def sigcont : Nat := 18
def sigstop : Nat := 19
def sigwinch : Nat := 28

/-- `SA_NODEFER` and `SA_RESETHAND`, by their bits. -/
def saNodefer : Nat := 30
def saResethand : Nat := 31

/-- What a signal frame keeps of the interrupted code, in its order. -/
structure Regs where
  rip : Nat
  rflags : Nat
  rsp : Nat
  rax : Nat
  rcx : Nat
  rdx : Nat
  rsi : Nat
  rdi : Nat
  r8 : Nat
  r9 : Nat
  r10 : Nat
  r11 : Nat
  deriving DecidableEq

namespace Regs

def words (r : Regs) : List Nat :=
  [r.rip, r.rflags, r.rsp, r.rax, r.rcx, r.rdx, r.rsi, r.rdi, r.r8, r.r9, r.r10, r.r11]

/-- As the frame of a system call at `fr` has them. -/
def ofFrame (m : ByteMem) (fr : Nat) : Regs where
  rip := m.word (fr + 0x48)
  rflags := m.word (fr + 0x58)
  rsp := m.word (fr + 0x60)
  rax := m.word (fr + 0x40)
  rcx := m.word (fr + 0x38)
  rdx := m.word (fr + 0x30)
  rsi := m.word (fr + 0x28)
  rdi := m.word (fr + 0x20)
  r8 := m.word (fr + 0x18)
  r9 := m.word (fr + 0x10)
  r10 := m.word (fr + 0x08)
  r11 := m.word fr

/-- As the signal frame at `sf` has them. -/
def ofSigframe (m : ByteMem) (sf : Nat) : Regs where
  rip := m.word (sf + 16)
  rflags := m.word (sf + 24)
  rsp := m.word (sf + 32)
  rax := m.word (sf + 40)
  rcx := m.word (sf + 48)
  rdx := m.word (sf + 56)
  rsi := m.word (sf + 64)
  rdi := m.word (sf + 72)
  r8 := m.word (sf + 80)
  r9 := m.word (sf + 88)
  r10 := m.word (sf + 96)
  r11 := m.word (sf + 104)

/-- Back into the frame of a system call; `CS` and `SS` stay. -/
def restore (r : Regs) (m : ByteMem) (fr : Nat) : ByteMem :=
  (m.setWords fr [r.r11, r.r10, r.r9, r.r8, r.rdi, r.rsi, r.rdx, r.rcx, r.rax, r.rip]).setWords (fr + 0x58)
    [r.rflags, r.rsp]

end Regs

/-- `mov rax, 15; int 0x80` and seven `nop`. -/
def trampoline : List UInt8 :=
  [0x48, 0xC7, 0xC0, 0x0F, 0x00, 0x00, 0x00, 0xCD, 0x80, 0x90, 0x90, 0x90, 0x90, 0x90, 0x90, 0x90]

/-- The place of the signal frame: below the red zone, on a multiple of 16. -/
def sigframeAt (rsp : Nat) : Nat := (rsp - (128 + 120)) / 16 * 16

/-- What `deliver_pending_signals` does. -/
inductive Delivered
  | idle
  | ignored (signum : Nat)
  | handler (signum addr : Nat)
  | terminated (signum : Nat) (o : Outcome)
  deriving DecidableEq

namespace UserSys

/-! ## The code -/

/-- `raise_signal`. -/
def raiseSignal (s : UserSys) (signum : Nat) : UserSys :=
  if signum = 0 ∨ nsig < signum then s
  else
    match s.procs.cur with
    | some _ => { s with procs := s.procs.update fun p => { p with pendingSigs := p.pendingSigs ||| 1#64 <<< (signum - 1) } }
    | none => { s with globalPending := s.globalPending ||| 1#64 <<< (signum - 1) }

/-- The signal frame, with the address of its code under it for the handler to return to. -/
def writeSigframe (m : ByteMem) (sf : Nat) (r : Regs) (mask : BitVec 64) : ByteMem :=
  ((m.write sf trampoline).setWords (sf + 16) (r.words ++ [mask.toNat])).setWord (sf - 8) sf

/-- The frame of the system call goes to the handler. -/
def redirect (m : ByteMem) (fr signum handler rsp : Nat) : ByteMem :=
  ((m.setWords (fr + 0x20) [signum, 0, 0]).setWord (fr + 0x48) handler).setWord (fr + 0x60) rsp

/-- `install_sigframe`. `none`: the stack pointer is too small (overflow). -/
def installSigframe (s : UserSys) (fr signum handler : Nat) (newMask : BitVec 64) : Option UserSys :=
  let r := Regs.ofFrame s.mem fr
  let sf := sigframeAt r.rsp
  if sf < 8 then none
  else some (s.setMem (redirect (writeSigframe s.mem sf r newMask) fr signum handler (sf - 8)))

/-- The mask while a handler runs. -/
def handlerMask (mask : BitVec 64) (act : SigAction) (i : Nat) : BitVec 64 :=
  (if act.flags.getLsbD saNodefer then mask else mask ||| 1#64 <<< i) ||| act.mask

/-- The process enters the handler of signal `i + 1`. -/
def enterHandler (act : SigAction) (i : Nat) (p : UserProc) : UserProc :=
  { p with
    sigMask := handlerMask p.sigMask act i
    sigHandlers := if act.flags.getLsbD saResethand then p.sigHandlers.set i .default else p.sigHandlers }

/-- Signal `i + 1` is pending no more. -/
def unpend (i : Nat) (p : UserProc) : UserProc := { p with pendingSigs := p.pendingSigs &&& ~~~(1#64 <<< i) }

/-- The next signal to deliver, less one: the lowest that is pending and not masked. -/
def nextSignal (p : UserProc) : Option Nat :=
  let deliverable := p.pendingSigs &&& ~~~p.sigMask
  if deliverable = 0#64 then none else some (FrameAlloc.trailingZeros deliverable)

/-- Signal `i + 1`, which is no longer pending, meets its action. -/
def deliver (s : UserSys) (fr i : Nat) (p : UserProc) (act : SigAction) : Option (Delivered × UserSys) :=
  let signum := i + 1
  if act.handler = 0 then
    if signum = sigchld ∨ signum = sigcont ∨ signum = sigwinch then some (.ignored signum, s)
    else some (.terminated signum (s.sysExit (128 + signum)).1, (s.sysExit (128 + signum)).2)
  else if act.handler = 1 then some (.ignored signum, s)
  else
    ({ s with procs := s.procs.update (enterHandler act i) }.installSigframe fr signum act.handler
      (handlerMask p.sigMask act i)).map (.handler signum act.handler, ·)

/-- `deliver_pending_signals`. `none`: a signal beyond the table, or no room for the frame. -/
def deliverPendingSignals (s : UserSys) (fr : Nat) : Option (Delivered × UserSys) :=
  match s.procs.cur with
  | none => some (.idle, s)
  | some p =>
    match nextSignal p with
    | none => some (.idle, s)
    | some i => do
      let act ← p.sigHandlers.1[i]?
      deliver { s with procs := s.procs.update (unpend i) } fr i p act

/-- The mask that the signal frame under the stack pointer of the frame `fr` keeps. -/
def savedMask (s : UserSys) (fr : Nat) : BitVec 64 := BitVec.ofNat 64 (s.mem.word (s.mem.word (fr + 0x60) + 112))

/-- `sys_rt_sigreturn`. -/
def rtSigreturn (s : UserSys) (fr : Nat) : Nat × UserSys :=
  let r := Regs.ofSigframe s.mem (s.mem.word (fr + 0x60))
  let m := r.restore s.mem fr
  (0, { s with procs := s.procs.update fun p => { p with sigMask := s.savedMask fr } }.setMem m)

/-- The words of a result go through a pointer that is not null. -/
def storeOut (s : UserSys) (a : Nat) (vs : List Nat) : UserSys := if a ≠ 0 then s.setMem (s.mem.setWords a vs) else s

/-- `struct sigaction`; the restorer is not kept. -/
def actionAt (m : ByteMem) (a : Nat) : SigAction where
  handler := m.word a
  flags := BitVec.ofNat 64 (m.word (a + 8))
  mask := BitVec.ofNat 64 (m.word (a + 24))

/-- `sys_rt_sigaction`. -/
def rtSigaction (s : UserSys) (signum new old : Nat) : Nat × UserSys :=
  if signum = 0 ∨ nsig < signum then (errno 22, s)
  else
    let act := (s.procs.cur.bind fun p => p.sigHandlers.1[signum - 1]?).getD .default
    let s := s.storeOut old [act.handler, act.flags.toNat, 0, act.mask.toNat]
    if new = 0 then (0, s)
    else if signum = sigkill ∨ signum = sigstop then (errno 22, s)
    else
      let act := actionAt s.mem new
      (0, { s with procs := s.procs.update fun p => { p with sigHandlers := p.sigHandlers.set (signum - 1) act } })

/-- The bits of `SIGKILL` and `SIGSTOP`. -/
def cantBlock : BitVec 64 := 1#64 <<< (sigkill - 1) ||| 1#64 <<< (sigstop - 1)

/-- What `sys_rt_sigprocmask` makes of a mask: `SIG_BLOCK`, `SIG_UNBLOCK`, `SIG_SETMASK`. -/
def maskBy (how : Nat) (mask set : BitVec 64) : Option (BitVec 64) :=
  match how with
  | 0 => some (mask ||| (set &&& ~~~cantBlock))
  | 1 => some (mask &&& ~~~set)
  | 2 => some (set &&& ~~~cantBlock)
  | _ => none

/-- `sys_rt_sigprocmask`. -/
def rtSigprocmask (s : UserSys) (how set old : Nat) : Nat × UserSys :=
  let oldMask := (s.procs.cur.map (·.sigMask)).getD 0#64
  let s := s.storeOut old [oldMask.toNat]
  if set = 0 then (0, s)
  else
    match maskBy how oldMask (BitVec.ofNat 64 (s.mem.word set)) with
    | none => (errno 22, s)
    | some newMask => (0, { s with procs := s.procs.update fun p => { p with sigMask := newMask } })

/-- `sys_kill`. -/
def sysKill (s : UserSys) (_pid sig : Nat) : Nat × UserSys :=
  if sig = 0 ∨ 64 ≤ sig then (errno 22, s)
  else (0, { s with sigPending := s.sigPending ||| 1#64 <<< (sig - 1) })

/-- `deliver_sigint`. -/
def deliverSigint (s : UserSys) : UserSys := { s with sigPending := s.sigPending ||| 1#64 <<< 1 }

/-- `sys_read` on stdin, once a key is there. -/
def readStdin (s : UserSys) (buf count : Nat) (key : UInt8) : Nat × UserSys :=
  if count = 0 then (0, s)
  else
    let s := if key = 3 then s.deliverSigint else s
    (1, s.setMem (s.mem.patch buf 1 fun _ => key))

@[simp] theorem procs_storeOut {s : UserSys} {a : Nat} {vs : List Nat} : (s.storeOut a vs).procs = s.procs := by
  unfold storeOut
  split <;> rfl

@[simp] theorem sigMask_enterHandler {act : SigAction} {i : Nat} {p : UserProc} :
    (enterHandler act i p).sigMask = handlerMask p.sigMask act i := rfl

@[simp] theorem sigMask_unpend {i : Nat} {p : UserProc} : (unpend i p).sigMask = p.sigMask := rfl

theorem procs_readStdin {s : UserSys} {buf count : Nat} {key : UInt8} :
    (s.readStdin buf count key).2.procs = s.procs := by
  unfold readStdin
  split
  · rfl
  · dsimp only
    split <;> rfl

theorem procs_sysKill {s : UserSys} {pid sig : Nat} : (s.sysKill pid sig).2.procs = s.procs := by
  unfold sysKill
  split <;> rfl

/-! ## The signal frame -/

section

variable {m : ByteMem} {sf fr signum handler rsp x a : Nat} {r : Regs} {mask : BitVec 64}

theorem writeSigframe_outside (h : x < sf - 8 ∨ sf + 120 ≤ x) : writeSigframe m sf r mask x = m x := by
  have hwords : (r.words ++ [mask.toNat]).length = 13 := rfl
  have hcode : trampoline.length = 16 := rfl
  rw [writeSigframe, ByteMem.setWord_outside (by omega), ByteMem.setWords_outside (by omega),
    ByteMem.write_outside (by omega)]

theorem redirect_outside (h : x < fr + 0x20 ∨ fr + 0x68 ≤ x) : redirect m fr signum handler rsp x = m x := by
  rw [redirect, ByteMem.setWord_outside (by omega), ByteMem.setWord_outside (by omega),
    ByteMem.setWords_outside (by simp only [List.length_cons, List.length_nil]; omega)]

/-- The code at the start of the signal frame. -/
theorem code_writeSigframe (h : 8 ≤ sf) : (writeSigframe m sf r mask).read sf 16 = trampoline := by
  have hcode : (m.write sf trampoline).read sf 16 = trampoline := ByteMem.read_write_take (Nat.le_refl 16)
  refine (ByteMem.read_congr fun x hx hx' => ?_).trans hcode
  rw [writeSigframe, ByteMem.setWord_outside (by omega), ByteMem.setWords_outside (by omega)]

/-- The words behind it. -/
theorem word_writeSigframe {i v : Nat} (h : 8 ≤ sf) (hv : (r.words ++ [mask.toNat])[i]? = some v) :
    (writeSigframe m sf r mask).word (sf + 16 + 8 * i) = v % 2 ^ 64 := by
  rw [writeSigframe, ByteMem.word_setWord_of_disjoint (by omega), ByteMem.word_setWords hv]

/-- What is saved is read back. -/
theorem ofSigframe_writeSigframe (h : 8 ≤ sf) (hr : ∀ v ∈ r.words, v < 2 ^ 64) :
    Regs.ofSigframe (writeSigframe m sf r mask) sf = r := by
  have hword : ∀ {i v}, r.words[i]? = some v → (writeSigframe m sf r mask).word (sf + 16 + 8 * i) = v := by
    intro i v hv
    have hi := (List.getElem?_eq_some_iff.mp hv).1
    rw [word_writeSigframe h ((List.getElem?_append_left hi).trans hv), Nat.mod_eq_of_lt (hr v (List.mem_of_getElem? hv))]
  simp only [Regs.ofSigframe]
  congr 1
  · exact hword (i := 0) rfl
  · exact hword (i := 1) rfl
  · exact hword (i := 2) rfl
  · exact hword (i := 3) rfl
  · exact hword (i := 4) rfl
  · exact hword (i := 5) rfl
  · exact hword (i := 6) rfl
  · exact hword (i := 7) rfl
  · exact hword (i := 8) rfl
  · exact hword (i := 9) rfl
  · exact hword (i := 10) rfl
  · exact hword (i := 11) rfl

theorem mask_writeSigframe (h : 8 ≤ sf) : (writeSigframe m sf r mask).word (sf + 112) = mask.toNat := by
  have hword : (writeSigframe m sf r mask).word (sf + 16 + 8 * 12) = mask.toNat % 2 ^ 64 := word_writeSigframe h rfl
  rwa [Nat.mod_eq_of_lt mask.isLt] at hword

theorem ret_writeSigframe (h : sf < 2 ^ 64) : (writeSigframe m sf r mask).word (sf - 8) = sf := by
  rw [writeSigframe, ByteMem.word_setWord_self, Nat.mod_eq_of_lt h]

/-- The frame after the redirection. -/
theorem ofFrame_redirect (hrsp : rsp < 2 ^ 64) : Regs.ofFrame (redirect m fr signum handler rsp) fr =
    { Regs.ofFrame m fr with rip := handler % 2 ^ 64, rsp, rdi := signum % 2 ^ 64, rsi := 0, rdx := 0 } := by
  have hold : ∀ a, (a + 8 ≤ fr + 0x20 ∨ fr + 0x38 ≤ a) → (a + 8 ≤ fr + 0x48 ∨ fr + 0x50 ≤ a) →
      (a + 8 ≤ fr + 0x60 ∨ fr + 0x68 ≤ a) → (redirect m fr signum handler rsp).word a = m.word a := by
    intro a h₁ h₂ h₃
    rw [redirect, ByteMem.word_setWord_of_disjoint (by omega), ByteMem.word_setWord_of_disjoint (by omega),
      ByteMem.word_setWords_of_disjoint (by simp only [List.length_cons, List.length_nil]; omega)]
  have hargs : ∀ {i v}, [signum, 0, 0][i]? = some v → (redirect m fr signum handler rsp).word (fr + 0x20 + 8 * i) =
      v % 2 ^ 64 := by
    intro i v hv
    have hi : i < 3 := (List.getElem?_eq_some_iff.mp hv).1
    rw [redirect, ByteMem.word_setWord_of_disjoint (by omega), ByteMem.word_setWord_of_disjoint (by omega),
      ByteMem.word_setWords hv]
  simp only [Regs.ofFrame]
  congr 1
  · rw [redirect, ByteMem.word_setWord_of_disjoint (by omega), ByteMem.word_setWord_self]
  · exact hold _ (by omega) (by omega) (by omega)
  · rw [redirect, ByteMem.word_setWord_self, Nat.mod_eq_of_lt hrsp]
  · exact hold _ (by omega) (by omega) (by omega)
  · exact hold _ (by omega) (by omega) (by omega)
  · exact hargs (i := 2) rfl
  · exact hargs (i := 1) rfl
  · exact hargs (i := 0) rfl
  · exact hold _ (by omega) (by omega) (by omega)
  · exact hold _ (by omega) (by omega) (by omega)
  · exact hold _ (by omega) (by omega) (by omega)
  · exact hold _ (by omega) (by omega) (by omega)

theorem ofSigframe_congr {m' : ByteMem} (h : ∀ x, sf ≤ x → x < sf + 120 → m' x = m x) :
    Regs.ofSigframe m' sf = Regs.ofSigframe m sf := by
  have hword : ∀ a, sf ≤ a → a + 8 ≤ sf + 120 → m'.word a = m.word a := fun a h₁ h₂ =>
    ByteMem.word_congr fun x _ _ => h x (by omega) (by omega)
  simp only [Regs.ofSigframe]
  congr 1 <;> exact hword _ (by omega) (by omega)

/-- A result goes over the register `rax` of the frame. -/
theorem ofFrame_setRax {v : Nat} :
    Regs.ofFrame (m.setWord (fr + 0x40) v) fr = { Regs.ofFrame m fr with rax := v % 2 ^ 64 } := by
  have hold : ∀ a, (a + 8 ≤ fr + 0x40 ∨ fr + 0x48 ≤ a) → (m.setWord (fr + 0x40) v).word a = m.word a := fun a h =>
    ByteMem.word_setWord_of_disjoint h
  simp only [Regs.ofFrame, ByteMem.word_setWord_self]
  congr 1 <;> exact hold _ (by omega)

/-- The frame after the restoration. -/
theorem ofFrame_restore (hr : ∀ v ∈ r.words, v < 2 ^ 64) : Regs.ofFrame (r.restore m fr) fr = r := by
  have hlow : ∀ {i v}, [r.r11, r.r10, r.r9, r.r8, r.rdi, r.rsi, r.rdx, r.rcx, r.rax, r.rip][i]? = some v → v < 2 ^ 64 →
      (r.restore m fr).word (fr + 8 * i) = v := by
    intro i v hv hlt
    have hi := (List.getElem?_eq_some_iff.mp hv).1
    simp only [List.length_cons, List.length_nil] at hi
    rw [Regs.restore, ByteMem.word_setWords_of_disjoint (by omega), ByteMem.word_setWords hv, Nat.mod_eq_of_lt hlt]
  have hhigh : ∀ {i v}, [r.rflags, r.rsp][i]? = some v → v < 2 ^ 64 → (r.restore m fr).word (fr + 0x58 + 8 * i) = v := by
    intro i v hv hlt
    rw [Regs.restore, ByteMem.word_setWords hv, Nat.mod_eq_of_lt hlt]
  simp only [Regs.words, List.mem_cons, List.not_mem_nil, or_false, forall_eq_or_imp, forall_eq] at hr
  obtain ⟨hrip, hrflags, hrsp, hrax, hrcx, hrdx, hrsi, hrdi, hr8, hr9, hr10, hr11⟩ := hr
  simp only [Regs.ofFrame]
  congr 1
  · exact hlow (i := 9) rfl hrip
  · exact hhigh (i := 0) rfl hrflags
  · exact hhigh (i := 1) rfl hrsp
  · exact hlow (i := 8) rfl hrax
  · exact hlow (i := 7) rfl hrcx
  · exact hlow (i := 6) rfl hrdx
  · exact hlow (i := 5) rfl hrsi
  · exact hlow (i := 4) rfl hrdi
  · exact hlow (i := 3) rfl hr8
  · exact hlow (i := 2) rfl hr9
  · exact hlow (i := 1) rfl hr10
  · exact hlow (i := 0) rfl hr11

theorem ofSigframe_words_lt : ∀ v ∈ (Regs.ofSigframe m sf).words, v < 2 ^ 64 := by
  simp only [Regs.words, Regs.ofSigframe, List.mem_cons, List.not_mem_nil, or_false, forall_eq_or_imp, forall_eq,
    ByteMem.word_lt, and_self]

theorem ofFrame_words_lt : ∀ v ∈ (Regs.ofFrame m fr).words, v < 2 ^ 64 := by
  simp only [Regs.words, Regs.ofFrame, List.mem_cons, List.not_mem_nil, or_false, forall_eq_or_imp, forall_eq,
    ByteMem.word_lt, and_self]

end

/-! ## Runs -/

/-- `register`, for the program that `enter_elf` starts. -/
def register (s : UserSys) (pid parentPid userCr3 kstack : Nat) : UserSys :=
  let (top, procs) := s.procs.register pid parentPid userCr3 kstack
  { s with procs, cr3 := userCr3, kernRsp := top.getD s.kernRsp }

/-- Nothing has been started. -/
def boot (kernelMem : ByteMem) (spaces : Nat → ByteMem) (kernelCr3 kernRsp nextPid : Nat) : UserSys where
  procs := { slots := .fill Uprocs.maxProcs none, current := 0 }
  nextPid
  vmas := .boot
  cr3 := kernelCr3
  kernelCr3
  kernRsp
  fsBase := 0
  kernelMem
  spaces
  globalPending := 0#64
  sigPending := 0#64

end UserSys

/-- What happens to processes and their signals, in any order and with any arguments. -/
inductive UserOp
  | register (pid parentPid userCr3 kstack : Nat)
  /-- User code runs and leaves this in its memory. -/
  | user (m : ByteMem)
  /-- A frame is pushed. -/
  | enter (fr : Nat) (words : List Nat)
  | sigaction (signum new old : Nat)
  | sigprocmask (how set old : Nat)
  | deliver (fr : Nat)
  | sigreturn (fr : Nat)
  | kill (pid sig : Nat)
  | readStdin (buf count : Nat) (key : UInt8)
  | raise (signum : Nat)
  | fork (fr newCr3 kstack : Nat)
  | clone (flags : BitVec 64) (childStack parentTid childTid newtls fr newCr3 kstack : Nat)
  | wait4 (childPid statusPtr options fr : Nat)
  | exit (code : Int)
  | yield (fr : Nat)
  | futex (uaddr : Nat) (op : BitVec 64) (val fr : Nat)
  | setTid (tidptr : Nat)

namespace UserSys

def step (s : UserSys) : UserOp → Option (List UserOp × UserSys)
  | .register pid parentPid userCr3 kstack => some ([], s.register pid parentPid userCr3 kstack)
  | .user m => some ([], s.setMem fun a => if a < userEnd then m a else s.mem a)
  | .enter fr words => some ([], s.setMem (s.mem.setWords fr words))
  | .sigaction signum new old => some ([], (s.rtSigaction signum new old).2)
  | .sigprocmask how set old => some ([], (s.rtSigprocmask how set old).2)
  | .deliver fr => (s.deliverPendingSignals fr).map fun r => ([], r.2)
  | .sigreturn fr => some ([], (s.rtSigreturn fr).2)
  | .kill pid sig => some ([], (s.sysKill pid sig).2)
  | .readStdin buf count key => some ([], (s.readStdin buf count key).2)
  | .raise signum => some ([], s.raiseSignal signum)
  | .fork fr newCr3 kstack => some ([], (s.forkCurrent fr newCr3 kstack).2)
  | .clone flags childStack parentTid childTid newtls fr newCr3 kstack =>
    some ([], (s.cloneThread flags childStack parentTid childTid newtls fr newCr3 kstack).2)
  | .wait4 childPid statusPtr options fr => some ([], (s.wait4 childPid statusPtr options fr).2)
  | .exit code => some ([], (s.sysExit code).2)
  | .yield fr => some ([], (s.schedYield fr).2)
  | .futex uaddr op val fr => some ([], (s.futexDispatch uaddr op val fr).2)
  | .setTid tidptr => some ([], { s with procs := (s.procs.sysSetTidAddress tidptr).2 })

end UserSys

end ChodOs
