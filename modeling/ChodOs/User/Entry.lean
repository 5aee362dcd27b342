/-
Into the kernel and back (`interrupts/handlers.rs`): the stubs of `int 0x80`
and of the `syscall` instruction, word by word on the kernel stack, and the
user code that a signal makes run.

A signal comes back to the interrupted code through five pieces; the last
but one, the dispatcher, stores a result over the register it restored.
-/
import ChodOs.User.Dispatch

namespace ChodOs

open UserSys

/-! ## The code -/

/-- The registers that a call may change. -/
inductive Reg
  | rax | rcx | rdx | rsi | rdi | r8 | r9 | r10 | r11
  deriving DecidableEq

/-- A processor that runs a user process, and the kernel's memory. -/
structure Machine where
  reg : Reg → Nat
  rip : Nat
  rflags : Nat
  rsp : Nat
  cs : Nat
  ss : Nat
  sys : UserSys
  /-- `syscall_user_rsp`. -/
  syscallUserRsp : Nat

/-- What the stubs are made of. -/
inductive Instr
  | push (r : Reg)
  | pushImm (v : Nat)
  | pop (r : Reg)
  /-- `mov rdi, rsp` -/
  | movRdiRsp
  /-- `call syscall_dispatch` -/
  | callDispatch
  /-- `mov [rsp + 0x40], rax` -/
  | storeRax
  /-- `mov [rip + syscall_user_rsp], rsp` -/
  | saveUserRsp
  /-- `mov rsp, [rip + syscall_kern_rsp]` -/
  | loadKernRsp
  /-- `mov r, [rip + syscall_user_rsp]` -/
  | loadUserRsp (r : Reg)
  | iretq

/-- A dispatcher, by the frame's address: the result. `none`: it does not return. -/
abbrev Dispatcher := Nat → UserSys → Option (Nat × UserSys)

namespace Machine

def pushWord (m : Machine) (v : Nat) : Machine := { m with rsp := m.rsp - 8, sys := m.sys.store (m.rsp - 8) v }

/-- One instruction; a call leaves anything in the registers but its result. -/
def exec (disp : Dispatcher) (clobber : Reg → Nat) (m : Machine) : Instr → Option Machine
  | .push r => some (m.pushWord (m.reg r))
  | .pushImm v => some (m.pushWord v)
  | .pop r => some { m with reg := Function.update m.reg r (m.sys.mem.word m.rsp), rsp := m.rsp + 8 }
  | .movRdiRsp => some { m with reg := Function.update m.reg .rdi m.rsp }
  | .callDispatch => (disp (m.reg .rdi) m.sys).map fun (v, sys) => { m with reg := Function.update clobber .rax v, sys }
  | .storeRax => some { m with sys := m.sys.store (m.rsp + 0x40) (m.reg .rax) }
  | .saveUserRsp => some { m with syscallUserRsp := m.rsp }
  | .loadKernRsp => some { m with rsp := m.sys.kernRsp }
  | .loadUserRsp r => some { m with reg := Function.update m.reg r m.syscallUserRsp }
  | .iretq =>
    let w := m.sys.mem.word
    some { m with
      rip := w m.rsp
      cs := w (m.rsp + 8)
      rflags := w (m.rsp + 16)
      rsp := w (m.rsp + 24)
      ss := w (m.rsp + 32) }

def run (disp : Dispatcher) (clobber : Reg → Nat) (m : Machine) (is : List Instr) : Option Machine :=
  is.foldlM (exec disp clobber) m

/-- The registers that both stubs push, first to last. -/
def saved : List Reg := [.rax, .rcx, .rdx, .rsi, .rdi, .r8, .r9, .r10, .r11]

def pushes : List Instr := saved.map .push
def pops : List Instr := saved.reverse.map .pop

/-- The end of `isr128`, which is also where a process switched to goes on: `up_iretq_from_frame`. -/
def upIretqFromFrame : List Instr := pops ++ [.iretq]

/-- `isr128` -/
def isr128 : List Instr := pushes ++ [.movRdiRsp, .callDispatch, .storeRax] ++ upIretqFromFrame

/-- `syscall_entry` -/
def syscallEntry : List Instr :=
  [.saveUserRsp, .loadKernRsp] ++ pushes ++ [.movRdiRsp, .callDispatch, .storeRax] ++ pops ++
    [.loadUserRsp .r10, .pushImm 0x33, .push .r10, .push .r11, .pushImm 0x2B, .push .rcx, .iretq]

/-! ## The processor -/

/-- `int 0x80`: the stack of `TSS.RSP0`, and five words on it. -/
def int80 (m : Machine) : Machine :=
  let m' := { m with rsp := m.sys.kernRsp }
  { ((((m'.pushWord m.ss).pushWord m.rsp).pushWord m.rflags).pushWord m.cs).pushWord m.rip with cs := 8 }

/-- `syscall`: the return address and the flags in registers, the stack as it is. -/
def syscallInstr (m : Machine) : Machine :=
  { m with
    reg := Function.update (Function.update m.reg .rcx m.rip) .r11 m.rflags
    cs := 8
    rflags := if m.rflags.testBit 9 then m.rflags - 0x200 else m.rflags }

/-- The user instructions that a signal's way back is made of. -/
inductive UserInstr
  | ret
  | movRax (imm : Nat)
  | int80

/-- The instruction at an address, with its length. -/
def fetch (m : ByteMem) (a : Nat) : Option (UserInstr × Nat) :=
  if m a = 0xC3 then some (.ret, 1)
  else if m.read a 3 = [0x48, 0xC7, 0xC0] then
    -- the immediate is sign-extended
    some (.movRax ((BitVec.ofNat 32 (m.le (a + 3) 4)).signExtend 64).toNat, 7)
  else if m.read a 2 = [0xCD, 0x80] then some (.int80, 2)
  else none

/-- An instruction, with the program counter behind it. -/
def userExec (disp : Dispatcher) (clobber : Reg → Nat) (m : Machine) : UserInstr → Option Machine
  | .ret => some { m with rip := m.sys.mem.word m.rsp, rsp := m.rsp + 8 }
  | .movRax imm => some { m with reg := Function.update m.reg .rax imm }
  | .int80 => run disp clobber m.int80 isr128

/-- One instruction in user mode. -/
def userStep (disp : Dispatcher) (clobber : Reg → Nat) (m : Machine) : Option Machine :=
  (fetch m.sys.mem m.rip).bind fun (i, n) => { m with rip := m.rip + n }.userExec disp clobber i

/-- What the frames are about. -/
def regs (m : Machine) : Regs where
  rip := m.rip
  rflags := m.rflags
  rsp := m.rsp
  rax := m.reg .rax
  rcx := m.reg .rcx
  rdx := m.reg .rdx
  rsi := m.reg .rsi
  rdi := m.reg .rdi
  r8 := m.reg .r8
  r9 := m.reg .r9
  r10 := m.reg .r10
  r11 := m.reg .r11

end Machine

/-- `syscall_dispatch` as the stubs see it: a call that switches away or stops does not return. -/
def dispatcher (env : CallEnv) : Dispatcher := fun fr s =>
  match s.syscallDispatch env fr with
  | some (_, .ret v, s) => some (v, s)
  | _ => none

namespace Machine

/-- The user's registers in the order of the frame. -/
def context (m : Machine) : List Nat :=
  (saved.map m.reg).reverse ++ [m.rip, m.cs, m.rflags, m.rsp, m.ss]

/-- The registers that the pops leave. -/
def popped (mem : ByteMem) (fr : Nat) : Reg → Nat
  | .r11 => mem.word fr
  | .r10 => mem.word (fr + 0x08)
  | .r9 => mem.word (fr + 0x10)
  | .r8 => mem.word (fr + 0x18)
  | .rdi => mem.word (fr + 0x20)
  | .rsi => mem.word (fr + 0x28)
  | .rdx => mem.word (fr + 0x30)
  | .rcx => mem.word (fr + 0x38)
  | .rax => mem.word (fr + 0x40)

/-- In user mode again, from the frame at `fr`. -/
def resumed (m : Machine) (sys : UserSys) (fr : Nat) : Machine :=
  { m with
    reg := popped sys.mem fr
    rip := sys.mem.word (fr + 0x48)
    cs := sys.mem.word (fr + 0x50)
    rflags := sys.mem.word (fr + 0x58)
    rsp := sys.mem.word (fr + 0x60)
    ss := sys.mem.word (fr + 0x68)
    sys }

variable {m m' : Machine} {disp : Dispatcher} {clobber : Reg → Nat} {is js : List Instr} {sys : UserSys} {fr v : Nat}

@[simp] theorem regs_resumed : (m.resumed sys fr).regs = Regs.ofFrame sys.mem fr := rfl

/-! ## The stubs -/

theorem run_append : run disp clobber m (is ++ js) = (run disp clobber m is).bind fun m => run disp clobber m js :=
  List.foldlM_append ..

theorem run_storeRax : run disp clobber m (.storeRax :: is) =
    run disp clobber { m with sys := m.sys.store (m.rsp + 0x40) (m.reg .rax) } is := rfl

/-- The dispatcher gets the frame's address, and leaves its result in `rax`. -/
theorem run_callDispatch : run disp clobber m (.movRdiRsp :: .callDispatch :: is) =
    (disp m.rsp m.sys).bind fun (v, sys) =>
      run disp clobber { m with reg := Function.update clobber .rax v, sys } is := by
  simp only [run, List.foldlM_cons, exec, Option.bind_eq_bind, Option.bind_some, Function.update_self]
  cases disp m.rsp m.sys <;> rfl

/-- Words pushed one by one lie in memory the other way round. -/
theorem foldl_pushWord {vs : List Nat} (h : 8 * vs.length ≤ m.rsp) : vs.foldl pushWord m =
    { m with
      rsp := m.rsp - 8 * vs.length
      sys := m.sys.setMem (m.sys.mem.setWords (m.rsp - 8 * vs.length) vs.reverse) } := by
  induction vs generalizing m with
  | nil => simp [ByteMem.setWords]
  | cons v vs ih =>
    rw [List.length_cons] at h
    have hrsp : m.rsp - 8 - 8 * vs.length = m.rsp - 8 * (vs.length + 1) := by omega
    have htop : m.rsp - 8 * (vs.length + 1) + 8 * vs.reverse.length = m.rsp - 8 := by
      rw [List.length_reverse]
      omega
    have hwords : (m.sys.mem.setWord (m.rsp - 8) v).setWords (m.rsp - 8 * (vs.length + 1)) vs.reverse =
        m.sys.mem.setWords (m.rsp - 8 * (vs.length + 1)) (v :: vs).reverse := by
      rw [ByteMem.setWords_setWord (.inr (by omega)), List.reverse_cons, ByteMem.setWords_append, htop]
      rfl
    have hpush : (m.pushWord v).rsp = m.rsp - 8 := rfl
    rw [List.foldl_cons, ih (by rw [hpush]; omega), List.length_cons, ← hwords, ← hrsp]
    simp only [pushWord, store, mem_setMem, setMem_setMem]

theorem run_push {rs : List Reg} : run disp clobber m (rs.map .push) = some ((rs.map m.reg).foldl pushWord m) := by
  induction rs generalizing m with
  | nil => rfl
  | cons r rs ih => exact ih (m := m.pushWord (m.reg r))

/-- The kernel stack after `int 0x80` and the pushes of its stub. -/
theorem run_int80 (h : 112 ≤ m.sys.kernRsp) : run disp clobber m.int80 pushes =
    some { m with
      cs := 8
      rsp := m.sys.kernRsp - 112
      sys := m.sys.setMem (m.sys.mem.setWords (m.sys.kernRsp - 112) m.context) } := by
  have hall : run disp clobber m.int80 pushes =
      some { (([m.ss, m.rsp, m.rflags, m.cs, m.rip] ++ saved.map m.reg).foldl pushWord { m with rsp := m.sys.kernRsp })
        with cs := 8 } := run_push
  rw [hall, foldl_pushWord]
  · rfl
  · exact h

/-- And after `syscall`: the frame has no words above the registers. -/
theorem run_syscall (h : 72 ≤ m.sys.kernRsp) :
    run disp clobber m.syscallInstr ([.saveUserRsp, .loadKernRsp] ++ pushes) =
      some { m.syscallInstr with
        syscallUserRsp := m.rsp
        rsp := m.sys.kernRsp - 72
        sys := m.sys.setMem (m.sys.mem.setWords (m.sys.kernRsp - 72) (saved.map m.syscallInstr.reg).reverse) } := by
  have hall : run disp clobber m.syscallInstr ([.saveUserRsp, .loadKernRsp] ++ pushes) =
      some ((saved.map m.syscallInstr.reg).foldl pushWord
        { m.syscallInstr with syscallUserRsp := m.rsp, rsp := m.sys.kernRsp }) := run_push
  rw [hall, foldl_pushWord]
  · rfl
  · exact h

theorem run_pops : run disp clobber m pops = some { m with reg := popped m.sys.mem m.rsp, rsp := m.rsp + 0x48 } := by
  simp only [run, pops, saved, List.reverse_cons, List.reverse_nil, List.nil_append, List.cons_append, List.map_cons,
    List.map_nil, List.foldlM_cons, List.foldlM_nil, exec, Option.bind_eq_bind, Option.bind_some, Option.pure_def,
    Nat.add_assoc, Nat.reduceAdd, Option.some.injEq, Machine.mk.injEq, and_true]
  funext r
  cases r <;> rfl

theorem run_upIretqFromFrame : run disp clobber m upIretqFromFrame = some (m.resumed m.sys m.rsp) := by
  rw [upIretqFromFrame, run_append, run_pops, Option.bind_some]
  rfl

/-- The end of a call with result `v` and frame `fr`, from the dispatcher to user mode. -/
def leaving (disp : Dispatcher) (clobber : Reg → Nat) (m : Machine) (fr v : Nat) : Option Machine :=
  match m.sys.leaveCall fr v with
  | some (_, .ret v, sys) =>
    run disp clobber { m with reg := Function.update clobber .rax v, rsp := fr, sys } (.storeRax :: upIretqFromFrame)
  | _ => none

/-- Unless the delivery ends the process, user mode goes on from the frame. -/
theorem leaving_eq {d : Delivered} (h : (m.sys.store (fr + 0x40) v).deliverPendingSignals fr = some (d, sys))
    (hd : ∀ n o, d ≠ .terminated n o) : m.leaving disp clobber fr v = some (m.resumed (sys.store (fr + 0x40) v) fr) := by
  have hleave : m.sys.leaveCall fr v = some (d, .ret v, sys) := by
    rw [leaveCall, h, Option.map_some]
    cases d with
    | terminated n o => exact absurd rfl (hd n o)
    | _ => rfl
  rw [leaving, hleave]
  dsimp only
  rw [run_storeRax, run_upIretqFromFrame]
  rfl

theorem leaving_some (h : m.leaving disp clobber fr v = some m') : ∃ d sys,
    (m.sys.store (fr + 0x40) v).deliverPendingSignals fr = some (d, sys) ∧ (∀ n o, d ≠ .terminated n o) ∧
      m' = m.resumed (sys.store (fr + 0x40) v) fr := by
  cases hd : (m.sys.store (fr + 0x40) v).deliverPendingSignals fr with
  | none =>
    rw [leaving, leaveCall, hd] at h
    cases h
  | some r =>
    obtain ⟨d, sys⟩ := r
    have hterm : ∀ n o, d ≠ .terminated n o := by
      intro n o h
      obtain rfl := h
      rw [leaving, leaveCall, hd, Option.map_some] at h
      cases o with
      | ret v => exact terminated_ne_ret hd rfl
      | _ => cases h
    rw [leaving_eq hd hterm] at h
    exact ⟨d, sys, rfl, hterm, (Option.some.inj h).symm⟩

/-- The whole of `isr128`, around the dispatcher. -/
theorem run_isr128 (hk : 112 ≤ m.sys.kernRsp) : run disp clobber m.int80 isr128 =
    (disp (m.sys.kernRsp - 112) (m.sys.setMem (m.sys.mem.setWords (m.sys.kernRsp - 112) m.context))).bind fun (v, sys) =>
      run disp clobber { m with cs := 8, rsp := m.sys.kernRsp - 112, reg := Function.update clobber .rax v, sys }
        (.storeRax :: upIretqFromFrame) := by
  have hparts : isr128 = pushes ++ .movRdiRsp :: .callDispatch :: .storeRax :: upIretqFromFrame := by
    rw [isr128, List.append_assoc]
    rfl
  rw [hparts, run_append, run_int80 hk, Option.bind_some, run_callDispatch]

theorem dispatcher_ret {env : CallEnv} {s : UserSys} (h : s.dispatch env fr = some (.ret v, sys)) :
    dispatcher env fr s = match sys.leaveCall fr v with
      | some (_, .ret v, sys) => some (v, sys)
      | _ => none := by
  rw [dispatcher, syscallDispatch, h]
  rfl

/-- A call through `int 0x80` that returns to its caller. -/
theorem run_isr128_dispatch {env : CallEnv} (hk : 112 ≤ m.sys.kernRsp)
    (h : (m.sys.setMem (m.sys.mem.setWords (m.sys.kernRsp - 112) m.context)).dispatch env (m.sys.kernRsp - 112) =
      some (.ret v, sys)) :
    run (dispatcher env) clobber m.int80 isr128 =
      leaving (dispatcher env) clobber { m with cs := 8, sys } (m.sys.kernRsp - 112) v := by
  rw [run_isr128 hk, dispatcher_ret h, leaving]
  generalize sys.leaveCall (m.sys.kernRsp - 112) v = r
  rcases r with _ | ⟨d, o, s⟩
  · rfl
  · cases o with
    | ret w => rw [Option.bind_some]
    | _ => rfl

/-! ## The way back from a handler -/

/-- No signal is next to be delivered, or one that its action ignores. -/
def Calm (p : UserProc) : Prop := ∀ j ∈ nextSignal p, ∃ act ∈ p.sigHandlers.1[j]?,
  act.handler = 1 ∨ act.handler = 0 ∧ (j + 1 = sigchld ∨ j + 1 = sigcont ∨ j + 1 = sigwinch)

theorem deliver_calm {s : UserSys} {p : UserProc} (hc : s.procs.cur = some p) (h : Calm p) (fr : Nat) :
    ∃ d s', s.deliverPendingSignals fr = some (d, s') ∧ (∀ n o, d ≠ .terminated n o) ∧ s'.mem = s.mem := by
  simp only [deliverPendingSignals, hc]
  cases hn : nextSignal p with
  | none => exact ⟨_, _, rfl, (fun _ _ he => by cases he), rfl⟩
  | some j =>
    obtain ⟨act, hact, hh⟩ := h j hn
    have hact : p.sigHandlers.1[j]? = some act := hact
    simp only [hact, Option.bind_eq_bind, Option.bind_some, deliver]
    rcases hh with hh | ⟨hh, hj⟩
    · rw [if_neg (by omega), if_pos hh]
      exact ⟨_, _, rfl, (fun _ _ he => by cases he), rfl⟩
    · rw [if_pos hh, if_pos hj]
      exact ⟨_, _, rfl, (fun _ _ he => by cases he), rfl⟩

theorem calm_of_deliver {s s' : UserSys} {p : UserProc} {d : Delivered} (hc : s.procs.cur = some p)
    (h : s.deliverPendingSignals fr = some (d, s')) (hterm : ∀ n o, d ≠ .terminated n o)
    (hhandler : ∀ n a, d ≠ .handler n a) : Calm p := by
  intro k hk
  rcases deliver_cases h with ⟨hn, -, -⟩ | ⟨p', j, act, hc', hn, hact, hm⟩
  · rw [hn p hc] at hk
    cases hk
  obtain rfl : p' = p := Option.some.inj (hc'.symm.trans hc)
  obtain rfl : j = k := Option.some.inj (hn.symm.trans hk)
  simp only [deliver] at hm
  split at hm
  · next h0 =>
    split at hm
    · next hj => exact ⟨act, hact, .inr ⟨h0, hj⟩⟩
    · cases hm
      exact absurd rfl (hterm _ _)
  · next h0 =>
    split at hm
    · next h1 => exact ⟨act, hact, .inl h1⟩
    · obtain ⟨s₁, -, he⟩ := Option.map_eq_some_iff.mp hm
      cases he
      exact absurd rfl (hhandler _ _)

theorem userStep_eq {i : UserInstr} {n : Nat} (h : fetch m.sys.mem m.rip = some (i, n)) :
    m.userStep disp clobber = userExec disp clobber { m with rip := m.rip + n } i := by
  rw [userStep, h, Option.bind_some]

theorem userExec_int80 : m.userExec disp clobber .int80 = run disp clobber m.int80 isr128 := rfl

theorem userStep_ret (h : m.sys.mem m.rip = 0xC3) : m.userStep disp clobber =
    some { m with rip := m.sys.mem.word m.rsp, rsp := m.rsp + 8 } := by
  have hfetch : fetch m.sys.mem m.rip = some (.ret, 1) := if_pos h
  rw [userStep_eq hfetch]
  rfl

theorem fetch_trampoline {mem : ByteMem} {a : Nat} (h : mem.read a 16 = trampoline) :
    fetch mem a = some (.movRax 15, 7) ∧ fetch mem (a + 7) = some (.int80, 2) := by
  have hbyte : ∀ i < 16, some (mem (a + i)) = trampoline[i]? := by
    intro i hi
    rw [← h, ByteMem.read, List.getElem?_map, List.getElem?_range hi]
    rfl
  have h0 : mem a = 0x48 := Option.some.inj (hbyte 0 (by omega))
  have h1 : mem (a + 1) = 0xC7 := Option.some.inj (hbyte 1 (by omega))
  have h2 : mem (a + 2) = 0xC0 := Option.some.inj (hbyte 2 (by omega))
  have h3 : mem (a + 3) = 0x0F := Option.some.inj (hbyte 3 (by omega))
  have h4 : mem (a + 4) = 0 := Option.some.inj (hbyte 4 (by omega))
  have h5 : mem (a + 5) = 0 := Option.some.inj (hbyte 5 (by omega))
  have h6 : mem (a + 6) = 0 := Option.some.inj (hbyte 6 (by omega))
  have h7 : mem (a + 7) = 0xCD := Option.some.inj (hbyte 7 (by omega))
  have h8 : mem (a + 8) = 0x80 := Option.some.inj (hbyte 8 (by omega))
  have himm : mem.le (a + 3) 4 = 15 := by
    simp only [ByteMem.le, Nat.add_assoc, Nat.reduceAdd, h3, h4, h5, h6]
    rfl
  have hmov : mem.read a 3 = [0x48, 0xC7, 0xC0] := by
    simp only [ByteMem.read, List.range_succ, List.range_zero, List.nil_append, List.cons_append, List.map_cons,
      List.map_nil, Nat.add_zero, h0, h1, h2]
  have hint : mem.read (a + 7) 2 = [0xCD, 0x80] := by
    simp only [ByteMem.read, List.range_succ, List.range_zero, List.nil_append, List.cons_append, List.map_cons,
      List.map_nil, Nat.add_zero, Nat.add_assoc, Nat.reduceAdd, h7, h8]
  have hother : mem.read (a + 7) 3 ≠ [0x48, 0xC7, 0xC0] := by
    intro he
    have h7' : mem (a + 7) = 0x48 := Option.some.inj (congrArg List.head? he)
    exact absurd (h7.symm.trans h7') (by decide)
  constructor
  · rw [fetch, h0, if_neg (by decide), if_pos hmov, himm]
    rfl
  · rw [fetch, h7, if_neg (by decide), if_neg hother, if_pos hint]

/-- The code in the signal frame calls `rt_sigreturn`. -/
theorem userStep_trampoline (h : m.sys.mem.read m.rip 16 = trampoline) :
    ∃ m₁, m.userStep disp clobber = some m₁ ∧ m₁.userStep disp clobber =
      run disp clobber (int80 { m with rip := m.rip + 9, reg := Function.update m.reg .rax 15 }) isr128 := by
  obtain ⟨hmov, hint⟩ := fetch_trampoline h
  refine ⟨{ m with rip := m.rip + 7, reg := Function.update m.reg .rax 15 }, userStep_eq hmov, ?_⟩
  rw [userStep_eq hint, userExec_int80]

/-- A call with result `v` ends, the handler that it finds pending returns, and `rt_sigreturn` is called. -/
def roundTrip (env : CallEnv) (clobber : Reg → Nat) (m : Machine) (fr v : Nat) : Option Machine := do
  let m ← m.leaving (dispatcher env) clobber fr v
  let m ← m.userStep (dispatcher env) clobber
  let m ← m.userStep (dispatcher env) clobber
  m.userStep (dispatcher env) clobber

/-- Signal `i + 1` is the next one of the current process, its handler is a
single `ret`, and the user stack has room for the signal frame. -/
structure Handles (m : Machine) (fr v : Nat) (p : UserProc) (i : Nat) (act : SigAction) : Prop where
  cur : m.sys.procs.cur = some p
  next : nextSignal p = some i
  action : p.sigHandlers.1[i]? = some act
  handler : 2 ≤ act.handler ∧ act.handler < userEnd
  code : m.sys.mem act.handler = 0xC3
  room : 8 ≤ sigframeAt (m.sys.mem.word (fr + 0x60)) ∧ m.sys.mem.word (fr + 0x60) ≤ userEnd
  apart : act.handler < sigframeAt (m.sys.mem.word (fr + 0x60)) - 8 ∨ sigframeAt (m.sys.mem.word (fr + 0x60)) + 120 ≤ act.handler
  kernel : userEnd ≤ fr ∧ userEnd + 112 ≤ m.sys.kernRsp

variable {p : UserProc} {i : Nat} {act : SigAction} {env : CallEnv}

theorem Handles.entered (h : Handles m fr v p i act) (disp : Dispatcher) (clobber : Reg → Nat) : ∃ s₁,
    m.leaving disp clobber fr v = some (m.resumed (s₁.store (fr + 0x40) v) fr) ∧
      Entered (m.sys.store (fr + 0x40) v) fr (sigframeAt (m.sys.mem.word (fr + 0x60))) p i act s₁ := by
  have hrsp : (m.sys.store (fr + 0x40) v).mem.word (fr + 0x60) = m.sys.mem.word (fr + 0x60) := by
    rw [mem_store, ByteMem.word_setWord_of_disjoint (by omega)]
  obtain ⟨s₁, hdel⟩ := (delivers_iff (s := m.sys.store (fr + 0x40) v) h.cur).mpr
    ⟨i, act, h.next, h.action, rfl, rfl, h.handler.1, hrsp ▸ h.room.1⟩
  obtain ⟨p', i', act', hc, hn, ha, -, -, hent⟩ := handler_entered hdel
  obtain rfl : p' = p := Option.some.inj (hc.symm.trans h.cur)
  obtain rfl : i' = i := Option.some.inj (hn.symm.trans h.next)
  obtain rfl : act' = act := Option.some.inj (ha.symm.trans h.action)
  exact ⟨s₁, leaving_eq hdel nofun, hrsp ▸ hent⟩

/-- A handler that only returns comes to the call of `rt_sigreturn`. -/
theorem userStep_handler {sf : Nat} (hcode : m.sys.mem m.rip = 0xC3) (hret : m.sys.mem.word m.rsp = sf)
    (htramp : m.sys.mem.read sf 16 = trampoline) :
    (do
      let m ← m.userStep disp clobber
      let m ← m.userStep disp clobber
      m.userStep disp clobber) =
      run disp clobber
        (int80 { m with rip := sf + 9, rsp := m.rsp + 8, reg := Function.update m.reg .rax 15 }) isr128 := by
  obtain ⟨m₁, hmov, hint⟩ := @userStep_trampoline { m with rip := sf, rsp := m.rsp + 8 } disp clobber htramp
  simp only [userStep_ret hcode, hret, Option.bind_eq_bind, Option.bind_some, hmov, hint]

/-- `rt_sigreturn` through `int 0x80`: the frame gets what the signal frame has. -/
theorem run_sigreturn {sf : Nat} (hk : userEnd + 112 ≤ m.sys.kernRsp) (hnr : m.reg .rax = 15) (hrsp : m.rsp = sf)
    (hsf : sf + 120 ≤ userEnd) : ∃ s₃, run (dispatcher env) clobber m.int80 isr128 =
      leaving (dispatcher env) clobber { m with cs := 8, sys := s₃ } (m.sys.kernRsp - 112) 0 ∧
      Regs.ofFrame s₃.mem (m.sys.kernRsp - 112) = Regs.ofSigframe m.sys.mem sf ∧
      s₃.procs = m.sys.procs.update fun p => { p with sigMask := BitVec.ofNat 64 (m.sys.mem.word (sf + 112)) } := by
  generalize hfr' : m.sys.kernRsp - 112 = fr'
  let s₂ := m.sys.setMem (m.sys.mem.setWords fr' m.context)
  have hmem : s₂.mem = m.sys.mem.setWords fr' m.context := mem_setMem
  have hlow : ∀ x < userEnd, s₂.mem x = m.sys.mem x := by
    intro x hx
    rw [hmem, ByteMem.setWords_outside (by omega)]
  have hword : ∀ {j w}, m.context[j]? = some w → s₂.mem.word (fr' + 8 * j) = w % 2 ^ 64 := fun hw => by
    rw [hmem, ByteMem.word_setWords hw]
  have hrax : s₂.mem.word (fr' + 0x40) = 15 := (hword (j := 8) rfl).trans (congrArg (· % 2 ^ 64) hnr)
  have hsf' : s₂.mem.word (fr' + 0x60) = sf := by
    refine (hword (j := 12) rfl).trans ?_
    rw [hrsp, Nat.mod_eq_of_lt]
    exact Nat.lt_of_le_of_lt (by omega) (show userEnd < 2 ^ 64 by decide)
  have hmask : s₂.savedMask fr' = BitVec.ofNat 64 (m.sys.mem.word (sf + 112)) := by
    rw [savedMask, hsf', ByteMem.word_congr fun x _ _ => hlow x (by omega)]
  have hcall : s₂.dispatch env fr' = some (.ret 0, (s₂.rtSigreturn fr').2) := by
    simp only [dispatch, hrax, returning]
    rfl
  refine ⟨(s₂.rtSigreturn fr').2, hfr' ▸ run_isr128_dispatch (by omega) (hfr' ▸ hcall), ?_, ?_⟩
  · have hback : (s₂.rtSigreturn fr').2.mem = (Regs.ofSigframe s₂.mem sf).restore s₂.mem fr' := by
      rw [rtSigreturn, hsf']
      exact mem_setMem
    rw [hback, ofFrame_restore ofSigframe_words_lt, ofSigframe_congr fun x _ _ => hlow x (by omega)]
  · rw [← hmask]
    rfl

/-- From the entry of the handler to the end of `rt_sigreturn`: the frame has the old registers again. -/
theorem Handles.back (h : Handles m fr v p i act) (env : CallEnv) (clobber : Reg → Nat) : ∃ m₃ : Machine,
    m.roundTrip env clobber fr v = m₃.leaving (dispatcher env) clobber (m.sys.kernRsp - 112) 0 ∧
      Regs.ofFrame m₃.sys.mem (m.sys.kernRsp - 112) = Regs.ofFrame (m.sys.store (fr + 0x40) v).mem fr ∧
      m₃.sys.procs.cur = some (enterHandler act i (unpend i p)) := by
  obtain ⟨s₁, hleave, hent⟩ := h.entered (dispatcher env) clobber
  have hroom := h.room
  have hapart := h.apart
  have hhandler := h.handler
  have hkernel := h.kernel
  generalize sigframeAt (m.sys.mem.word (fr + 0x60)) = sf at *
  have hbelow := hent.below
  rw [mem_store, ByteMem.word_setWord_of_disjoint (by omega)] at hbelow
  have hlt : userEnd < 2 ^ 64 := by decide
  -- user memory in the handler: as before, but for the signal frame
  let m₁ := m.resumed (s₁.store (fr + 0x40) v) fr
  have hlow : ∀ x < userEnd, m₁.sys.mem x = writeSigframe (m.sys.store (fr + 0x40) v).mem sf
      (Regs.ofFrame (m.sys.store (fr + 0x40) v).mem fr) (handlerMask p.sigMask act i) x := by
    intro x hx
    rw [show m₁.sys.mem = s₁.mem.setWord (fr + 0x40) v from mem_store, ByteMem.setWord_outside (by omega), hent.mem,
      redirect_outside (by omega)]
  have hframe : Regs.ofFrame m₁.sys.mem fr = { Regs.ofFrame s₁.mem fr with rax := v % 2 ^ 64 } := by
    rw [show m₁.sys.mem = s₁.mem.setWord (fr + 0x40) v from mem_store, ofFrame_setRax]
  rw [hent.mem, ofFrame_redirect (by omega)] at hframe
  have hrip : m₁.rip = act.handler := (congrArg Regs.rip hframe).trans (Nat.mod_eq_of_lt (by omega))
  have hrsp : m₁.rsp = sf - 8 := congrArg Regs.rsp hframe
  have hcode : m₁.sys.mem m₁.rip = 0xC3 := by
    rw [hrip, hlow _ hhandler.2, writeSigframe_outside (by omega), mem_store, ByteMem.setWord_outside (by omega), h.code]
  have hret : m₁.sys.mem.word m₁.rsp = sf := by
    rw [hrsp, ByteMem.word_congr fun x _ _ => hlow x (by omega), ret_writeSigframe (by omega)]
  have htramp : m₁.sys.mem.read sf 16 = trampoline := by
    rw [ByteMem.read_congr fun x _ _ => hlow x (by omega), code_writeSigframe hroom.1]
  have hsaved : Regs.ofSigframe m₁.sys.mem sf = Regs.ofFrame (m.sys.store (fr + 0x40) v).mem fr := by
    rw [ofSigframe_congr fun x _ _ => hlow x (by omega), ofSigframe_writeSigframe hroom.1 ofFrame_words_lt]
  have hmask : m₁.sys.mem.word (sf + 112) = (handlerMask p.sigMask act i).toNat := by
    rw [ByteMem.word_congr fun x _ _ => hlow x (by omega), mask_writeSigframe hroom.1]
  -- `rt_sigreturn`
  have hk : m₁.sys.kernRsp = m.sys.kernRsp := hent.kernRsp
  let m₂ : Machine := { m₁ with rip := sf + 9, rsp := m₁.rsp + 8, reg := Function.update m₁.reg .rax 15 }
  obtain ⟨s₃, hrun, hback, hprocs⟩ := @run_sigreturn m₂ clobber env sf (hk ▸ hkernel.2) rfl
    (show m₁.rsp + 8 = sf by omega) (by omega)
  have hk₂ : m₂.sys.kernRsp = m.sys.kernRsp := hk
  rw [hk₂] at hrun hback
  refine ⟨{ m₂ with cs := 8, sys := s₃ }, ?_, hback.trans hsaved, ?_⟩
  · rw [roundTrip, hleave, ← hrun]
    exact userStep_handler hcode hret htramp
  · have hcur : m₂.sys.procs.cur = some (enterHandler act i (unpend i p)) := by
      rw [show m₂.sys.procs = s₁.procs from procs_store, hent.procs, Uprocs.cur_update, Uprocs.cur_update, procs_store,
        h.cur]
      rfl
    have hmask₂ : BitVec.ofNat 64 (m₂.sys.mem.word (sf + 112)) = (enterHandler act i (unpend i p)).sigMask := by
      rw [show m₂.sys.mem.word (sf + 112) = _ from hmask, BitVec.ofNat_toNat, BitVec.setWidth_eq]
      rfl
    rw [show ({ m₂ with cs := 8, sys := s₃ } : Machine).sys.procs = s₃.procs from rfl, hprocs, Uprocs.cur_update, hcur,
      hmask₂]
    rfl

end Machine

open Machine

/-- A signal's way to a handler that only returns and back resumes the
interrupted code with all its registers if and only if the result of the
interrupted call, in `rax`, is 0 and no further signal waits on the way. -/
theorem signal_transparent_iff {m : Machine} {env : CallEnv} {clobber : Reg → Nat} {fr v i : Nat} {p : UserProc}
    {act : SigAction} (h : Handles m fr v p i act) :
    (∃ m', m.roundTrip env clobber fr v = some m' ∧ m'.regs = Regs.ofFrame (m.sys.store (fr + 0x40) v).mem fr) ↔
      (Regs.ofFrame (m.sys.store (fr + 0x40) v).mem fr).rax = 0 ∧ Calm (enterHandler act i (unpend i p)) := by
  obtain ⟨m₃, hround, hregs, hcur⟩ := h.back env clobber
  have hk := h.kernel.2
  rw [hround, ← hregs]
  generalize hfr' : m.sys.kernRsp - 112 = fr'
  have hcur₄ : (m₃.sys.store (fr' + 0x40) 0).procs.cur = some (enterHandler act i (unpend i p)) := hcur
  constructor
  · intro h
    obtain ⟨m', hleave, hm'⟩ := h
    obtain ⟨d, sys, hdel, hterm, rfl⟩ := leaving_some hleave
    rw [regs_resumed, mem_store, ofFrame_setRax] at hm'
    have hhandler : ∀ n a, d ≠ .handler n a := by
      intro n a h
      obtain rfl := h
      obtain ⟨p', j, act', -, -, -, -, -, hent⟩ := handler_entered hdel
      -- the stack pointer is under the second signal frame
      have hrsp : sys.mem.word (fr' + 0x60) = m₃.sys.mem.word (fr' + 0x60) := congrArg Regs.rsp hm'
      have hsame : (m₃.sys.store (fr' + 0x40) 0).mem.word (fr' + 0x60) = m₃.sys.mem.word (fr' + 0x60) := by
        rw [mem_store, ByteMem.word_setWord_of_disjoint (by omega)]
      have hbelow := hent.below
      rw [hsame] at hbelow
      have hlt := m₃.sys.mem.word_lt (fr' + 0x60)
      rw [hent.mem, redirect, ByteMem.word_setWord_self, hsame, Nat.mod_eq_of_lt (by omega)] at hrsp
      omega
    have hrax : 0 % 2 ^ 64 = (Regs.ofFrame m₃.sys.mem fr').rax := congrArg Regs.rax hm'
    exact ⟨hrax.symm, calm_of_deliver hcur₄ hdel hterm hhandler⟩
  · intro h
    obtain ⟨hrax, hcalm⟩ := h
    obtain ⟨d, sys, hdel, hterm, hmem⟩ := deliver_calm hcur₄ hcalm fr'
    refine ⟨_, leaving_eq hdel hterm, ?_⟩
    rw [regs_resumed, mem_store, ofFrame_setRax, hmem, mem_store, ofFrame_setRax]
    generalize Regs.ofFrame m₃.sys.mem fr' = r at *
    cases r
    cases hrax
    rfl

/-- A process in call 39, with signal 2 pending and its handler, a `ret`, at `0x4000`. -/
def interrupted : Machine where
  reg _ := 0
  rip := 0
  rflags := 0
  rsp := 0
  cs := 0
  ss := 0
  sys :=
    { signalled { handler := 0x4000, flags := 0#64, mask := 0#64 } 39 0 with
      kernRsp := userEnd + 0x1000
      spaces := fun _ a => if a = 0x4000 then 0xC3 else 0 }
  syscallUserRsp := 0

theorem interrupted_handles (v : Nat) : ∃ p, interrupted.sys.procs.cur = some p ∧
    Handles interrupted userEnd v p 1 { handler := 0x4000, flags := 0#64, mask := 0#64 } ∧
    Calm (enterHandler { handler := 0x4000, flags := 0#64, mask := 0#64 } 1 (unpend 1 p)) := by
  have hrsp : interrupted.sys.mem.word (userEnd + 0x60) = 0x8000 := by decide +kernel
  refine ⟨_, rfl, ⟨rfl, by decide +kernel, rfl, by decide, by decide +kernel, ?_, ?_, by decide⟩, fun j hj => ?_⟩
  · rw [hrsp]
    decide
  · rw [hrsp]
    decide
  · rw [show nextSignal _ = none by decide +kernel] at hj
    cases hj

/-- With the result 0 everything comes back. -/
theorem signal_transparent_zero : ∃ m', interrupted.roundTrip noCalls (fun _ => 0) userEnd 0 = some m' ∧
    m'.regs = Regs.ofFrame (interrupted.sys.store (userEnd + 0x40) 0).mem userEnd := by
  obtain ⟨p, -, hh, hcalm⟩ := interrupted_handles 0
  exact (signal_transparent_iff hh).mpr ⟨by decide +kernel, hcalm⟩

/-- With any other it does not: `rt_sigreturn` ends with its own result in `rax`. -/
theorem result_lost : ∃ p act m', Handles interrupted userEnd 42 p 1 act ∧
    interrupted.roundTrip noCalls (fun _ => 0) userEnd 42 = some m' ∧
    (Regs.ofFrame (interrupted.sys.store (userEnd + 0x40) 42).mem userEnd).rax = 42 ∧ m'.regs.rax = 0 := by
  obtain ⟨p, -, hh, -⟩ := interrupted_handles 42
  obtain ⟨m', hm', hrax⟩ := (Option.any_eq_true (fun m => m.reg .rax == 0)
    (interrupted.roundTrip noCalls (fun _ => 0) userEnd 42)).mp (by decide +kernel)
  exact ⟨p, _, m', hh, hm', by decide +kernel, beq_iff_eq.mp hrax⟩

/-! ## Two entries -/

namespace Machine

/-- Up to the call of the dispatcher. -/
def enterInt80 (disp : Dispatcher) (clobber : Reg → Nat) (m : Machine) : Option Machine := run disp clobber m.int80 pushes

def enterSyscall (disp : Dispatcher) (clobber : Reg → Nat) (m : Machine) : Option Machine :=
  run disp clobber m.syscallInstr ([.saveUserRsp, .loadKernRsp] ++ pushes)

/-- The words of a frame that calls use: the arguments, the number, and the
place the user is at. `rcx` and `r11` are not among them: `syscall` itself overwrites these. -/
def frameWords (m : Machine) : List Nat :=
  [1, 2, 3, 4, 5, 6, 8, 9, 10, 11, 12, 13].map fun i => m.sys.mem.word (m.rsp + 8 * i)

/-- A call with result `v` that sends its caller elsewhere, as `install_sigframe` does. -/
def redirecting (signum handler rsp v : Nat) : Dispatcher := fun fr s =>
  some (v, s.setMem (redirect s.mem fr signum handler rsp))

/-- Both entries give the dispatcher the same frame, and both resume where it says. -/
structure EntriesAgree (m : Machine) : Prop where
  frames : ∀ disp clobber, (m.enterInt80 disp clobber).map frameWords = (m.enterSyscall disp clobber).map frameWords
  resumes : ∀ clobber signum handler rsp v m', handler < 2 ^ 64 → rsp < 2 ^ 64 →
    (run (redirecting signum handler rsp v) clobber m.int80 isr128 = some m' ∨
      run (redirecting signum handler rsp v) clobber m.syscallInstr syscallEntry = some m') →
    m'.rip = handler ∧ m'.rsp = rsp

variable {m m' : Machine} {disp : Dispatcher} {clobber : Reg → Nat} {s' : UserSys} {v signum handler rsp : Nat}

/-- `int 0x80` resumes where the frame says. -/
theorem run_isr128_redirecting (hk : 112 ≤ m.sys.kernRsp) (hhandler : handler < 2 ^ 64) (hrsp : rsp < 2 ^ 64) :
    ∃ m', run (redirecting signum handler rsp v) clobber m.int80 isr128 = some m' ∧ m'.rip = handler ∧ m'.rsp = rsp := by
  rw [run_isr128 hk, redirecting, Option.bind_some]
  generalize m.sys.kernRsp - 112 = fr
  refine ⟨_, run_storeRax.trans run_upIretqFromFrame, ?_⟩
  have hregs : ∀ s : UserSys, Regs.ofFrame ((s.setMem (redirect s.mem fr signum handler rsp)).store (fr + 0x40) v).mem fr =
      { Regs.ofFrame s.mem fr with
        rip := handler, rsp, rax := v % 2 ^ 64, rdi := signum % 2 ^ 64, rsi := 0, rdx := 0 } := by
    intro s
    rw [mem_store, ofFrame_setRax, mem_setMem, ofFrame_redirect hrsp, Nat.mod_eq_of_lt hhandler]
  exact ⟨congrArg Regs.rip (hregs _), congrArg Regs.rsp (hregs _)⟩

/-- The end of `syscall_entry`: a frame of its own, from `rcx`, `r11` and the saved stack pointer. -/
theorem run_ownFrame (hrsp : 40 ≤ m.rsp) : ∃ m',
    run disp clobber m [.loadUserRsp .r10, .pushImm 0x33, .push .r10, .push .r11, .pushImm 0x2B, .push .rcx, .iretq] =
      some m' ∧ m'.rip = m.reg .rcx % 2 ^ 64 ∧ m'.rsp = m.syscallUserRsp % 2 ^ 64 := by
  have hpush : run disp clobber m [.loadUserRsp .r10, .pushImm 0x33, .push .r10, .push .r11, .pushImm 0x2B, .push .rcx,
      .iretq] = exec disp clobber ([0x33, m.syscallUserRsp, m.reg .r11, 0x2B, m.reg .rcx].foldl pushWord
        { m with reg := Function.update m.reg .r10 m.syscallUserRsp }) .iretq := by
    simp only [run, List.foldlM_cons, List.foldlM_nil, exec, Option.bind_eq_bind, Option.bind_some, List.foldl_cons,
      List.foldl_nil]
    rfl
  have hword : ∀ {i w}, [m.reg .rcx, 0x2B, m.reg .r11, m.syscallUserRsp, 0x33][i]? = some w →
      (m.sys.mem.setWords (m.rsp - 40) [m.reg .rcx, 0x2B, m.reg .r11, m.syscallUserRsp, 0x33]).word (m.rsp - 40 + 8 * i) =
        w % 2 ^ 64 := ByteMem.word_setWords
  rw [hpush, foldl_pushWord]
  · refine ⟨_, rfl, ?_, ?_⟩ <;> dsimp only <;> rw [mem_setMem]
    · exact hword (i := 0) rfl
    · exact hword (i := 3) rfl
  · exact hrsp

/-- `syscall` resumes at the popped `rcx`, with the stack pointer that it came with. -/
theorem run_syscallEntry (hk : 72 ≤ m.sys.kernRsp)
    (h : disp (m.sys.kernRsp - 72) (m.sys.setMem (m.sys.mem.setWords (m.sys.kernRsp - 72)
      (saved.map m.syscallInstr.reg).reverse)) = some (v, s')) :
    ∃ m', run disp clobber m.syscallInstr syscallEntry = some m' ∧
      m'.rip = s'.mem.word (m.sys.kernRsp - 72 + 0x38) ∧ m'.rsp = m.rsp % 2 ^ 64 := by
  have hcall : run disp clobber m.syscallInstr
      ([.saveUserRsp, .loadKernRsp] ++ pushes ++ [.movRdiRsp, .callDispatch, .storeRax]) =
      some { m.syscallInstr with
        reg := Function.update clobber .rax v
        rsp := m.sys.kernRsp - 72
        sys := s'.store (m.sys.kernRsp - 72 + 0x40) v
        syscallUserRsp := m.rsp } := by
    rw [run_append, run_syscall hk, Option.bind_some]
    simp only [run, List.foldlM_cons, List.foldlM_nil, exec, Option.bind_eq_bind, Option.bind_some, Function.update_self,
      h, Option.map_some]
    rfl
  rw [syscallEntry, run_append, run_append, hcall, Option.bind_some, run_pops, Option.bind_some]
  obtain ⟨m', hrun, hrip, hrsp⟩ := @run_ownFrame _ disp clobber
    (show 40 ≤ ({ m.syscallInstr with
      reg := popped (s'.store (m.sys.kernRsp - 72 + 0x40) v).mem (m.sys.kernRsp - 72)
      rsp := m.sys.kernRsp - 72 + 0x48
      sys := s'.store (m.sys.kernRsp - 72 + 0x40) v
      syscallUserRsp := m.rsp } : Machine).rsp by dsimp only; omega)
  refine ⟨m', hrun, hrip.trans ?_, hrsp⟩
  have hrcx : (s'.store (m.sys.kernRsp - 72 + 0x40) v).mem.word (m.sys.kernRsp - 72 + 0x38) =
      s'.mem.word (m.sys.kernRsp - 72 + 0x38) := by
    rw [mem_store, ByteMem.word_setWord_of_disjoint (by omega)]
  exact (Nat.mod_eq_of_lt (ByteMem.word_lt ..)).trans hrcx

theorem frameWords_int80 (hk : 112 ≤ m.sys.kernRsp) : (m.enterInt80 disp clobber).map frameWords =
    some ([.r10, .r9, .r8, .rdi, .rsi, .rdx, .rax].map (fun r => m.reg r % 2 ^ 64) ++
      [m.rip, m.cs, m.rflags, m.rsp, m.ss].map (· % 2 ^ 64)) := by
  rw [enterInt80, run_int80 hk, Option.map_some, frameWords]
  dsimp only
  rw [mem_setMem]
  have hwords : ∀ i ∈ [1, 2, 3, 4, 5, 6, 8, 9, 10, 11, 12, 13],
      (m.sys.mem.setWords (m.sys.kernRsp - 112) m.context).word (m.sys.kernRsp - 112 + 8 * i) =
        m.context[i]?.getD 0 % 2 ^ 64 := by
    intro i hi
    simp only [List.mem_cons, List.not_mem_nil, or_false] at hi
    have hlt : i < m.context.length := show i < 14 by omega
    rw [ByteMem.word_setWords (List.getElem?_eq_getElem hlt), List.getElem?_eq_getElem hlt, Option.getD_some]
  rw [List.map_congr_left hwords]
  rfl

/-- The words above the registers are not pushed by anybody. -/
theorem frameWords_syscall (hk : 112 ≤ m.sys.kernRsp) : (m.enterSyscall disp clobber).map frameWords =
    some ([.r10, .r9, .r8, .rdi, .rsi, .rdx, .rax].map (fun r => m.reg r % 2 ^ 64) ++
      (List.range 5).map fun i => m.sys.mem.word (m.sys.kernRsp + 8 * i)) := by
  have hlen : (saved.map m.syscallInstr.reg).reverse.length = 9 := rfl
  have hlow : ∀ i ∈ [1, 2, 3, 4, 5, 6, 8],
      (m.sys.mem.setWords (m.sys.kernRsp - 72) (saved.map m.syscallInstr.reg).reverse).word (m.sys.kernRsp - 72 + 8 * i) =
        (saved.map m.syscallInstr.reg).reverse[i]?.getD 0 % 2 ^ 64 := by
    intro i hi
    simp only [List.mem_cons, List.not_mem_nil, or_false] at hi
    have hlt : i < (saved.map m.syscallInstr.reg).reverse.length := by omega
    rw [ByteMem.word_setWords (List.getElem?_eq_getElem hlt), List.getElem?_eq_getElem hlt, Option.getD_some]
  have hhigh : ∀ i ∈ List.range 5,
      (m.sys.mem.setWords (m.sys.kernRsp - 72) (saved.map m.syscallInstr.reg).reverse).word
        (m.sys.kernRsp - 72 + 8 * (i + 9)) = m.sys.mem.word (m.sys.kernRsp + 8 * i) := by
    intro i _
    rw [ByteMem.word_setWords_of_disjoint (by omega)]
    congr 1
    omega
  rw [enterSyscall, run_syscall (by omega), Option.map_some, frameWords]
  dsimp only
  rw [mem_setMem, show [1, 2, 3, 4, 5, 6, 8, 9, 10, 11, 12, 13] = [1, 2, 3, 4, 5, 6, 8] ++ (List.range 5).map (· + 9) from rfl,
    List.map_append, List.map_map, List.map_congr_left hlow, ← List.map_congr_left hhigh]
  rfl

/-- The frames agree when the words above the kernel stack happen to be the user's. -/
theorem frames_agree_iff (hk : 112 ≤ m.sys.kernRsp) :
    (m.enterInt80 disp clobber).map frameWords = (m.enterSyscall disp clobber).map frameWords ↔
      [m.rip, m.cs, m.rflags, m.rsp, m.ss].map (· % 2 ^ 64) =
        (List.range 5).map fun i => m.sys.mem.word (m.sys.kernRsp + 8 * i) := by
  rw [frameWords_int80 hk, frameWords_syscall hk, Option.some.injEq, List.append_cancel_left_eq]

end Machine

/-- The two entries never agree: `syscall_entry` resumes at the popped `rcx`
and with the stack pointer that it saved, whatever the frame says. -/
theorem entries_never_agree {m : Machine} (hk : 112 ≤ m.sys.kernRsp) : ¬EntriesAgree m := by
  intro h
  obtain ⟨-, hresumes⟩ := h
  -- a stack pointer other than the user's
  let rsp := if m.rsp % 2 ^ 64 = 0 then 1 else 0
  obtain ⟨m', hrun, -, hrsp⟩ := @run_syscallEntry m (redirecting 0 0 rsp 0) (fun _ => 0) _ 0 (by omega) rfl
  have hback := (hresumes _ 0 0 rsp 0 m' (by decide) (by simp only [rsp]; split <;> decide) (.inr hrun)).2
  rw [hrsp] at hback
  simp only [rsp] at hback
  split at hback <;> omega

theorem entries_never_agree_interrupted : 112 ≤ interrupted.sys.kernRsp ∧ ¬EntriesAgree interrupted :=
  ⟨by decide, entries_never_agree (by decide)⟩

/-- A program at `0x400000` calls through both: only `int 0x80` shows that it is there. -/
theorem frames_differ : ¬EntriesAgree { interrupted with rip := 0x400000 } := by
  intro h
  have hframes := h.frames (fun _ _ => none) fun _ => 0
  rw [frames_agree_iff (by decide)] at hframes
  exact absurd (congrArg List.head? hframes) (by decide +kernel)

end ChodOs
