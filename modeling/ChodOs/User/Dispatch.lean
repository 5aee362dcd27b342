/-
The system call dispatcher (`syscall::dispatch` and `syscall_dispatch`): the
call's number and arguments come out of the frame, its result goes back into
it, and a pending signal is delivered on the way out.

`kill` and Ctrl+C set a bit that the delivery never looks at.
-/
import ChodOs.User.Masks

namespace ChodOs

open StepSys UserSys

/-- What a system call gets from elsewhere: the key on stdin, a new address
space and kernel stack, and the result and stores of the calls that are not
about processes, by number and arguments. -/
structure CallEnv where
  key : UInt8
  newCr3 : Nat
  kstack : Nat
  rest : Nat → List Nat → ByteMem → Nat × ByteMem

namespace UserSys

/-- A call that returns to its caller. -/
def returning (r : Nat × UserSys) : Option (Outcome × UserSys) := some (.ret r.1, r.2)

/-- `code as i32`. -/
def exitCode (code : Nat) : Int := (BitVec.ofNat 32 code).toInt

/-- `syscall::dispatch`, for the calls about processes and signals. `none`: overflow. -/
def dispatch (s : UserSys) (env : CallEnv) (fr : Nat) : Option (Outcome × UserSys) :=
  let a1 := s.mem.word (fr + 0x20)
  let a2 := s.mem.word (fr + 0x28)
  let a3 := s.mem.word (fr + 0x30)
  let a4 := s.mem.word (fr + 0x08)
  let a5 := s.mem.word (fr + 0x18)
  let a6 := s.mem.word (fr + 0x10)
  let other (nr : Nat) : Option (Outcome × UserSys) :=
    let (v, m) := env.rest nr [a1, a2, a3, a4, a5, a6] s.mem
    some (.ret v, s.setMem m)
  match s.mem.word (fr + 0x40) with
  | 0 => if a1 = 0 then returning (s.readStdin a2 a3 env.key) else other 0
  | 12 => (s.procs.sysBrk s.vmas a1).map fun (v, procs, vmas) => (.ret v, { s with procs, vmas })
  | 13 => returning (s.rtSigaction a1 a2 a3)
  | 14 => returning (s.rtSigprocmask a1 a2 a3)
  | 15 => returning (s.rtSigreturn fr)
  | 24 => some (s.schedYield fr)
  | 56 => returning (s.cloneThread (BitVec.ofNat 64 a1) a2 a3 a4 a5 fr env.newCr3 env.kstack)
  | 57 => returning (s.forkCurrent fr env.newCr3 env.kstack)
  | 60 => some (s.sysExit (exitCode a1))
  | 61 => some (s.wait4 a1 a2 a3 fr)
  | 62 => returning (s.sysKill a1 a2)
  | 186 => returning (s.procs.currentPid, s)
  | 202 => some (s.futexDispatch a1 (BitVec.ofNat 64 a2) a3 fr)
  | 218 => returning ((s.procs.sysSetTidAddress a1).1, { s with procs := (s.procs.sysSetTidAddress a1).2 })
  | 231 => some (s.sysExit (exitCode a1))
  | nr => other nr

/-- The way out of a call: its result is stored before signals are looked at. -/
def leaveCall (s : UserSys) (fr v : Nat) : Option (Delivered × Outcome × UserSys) :=
  ((s.store (fr + 0x40) v).deliverPendingSignals fr).map fun
    | (.terminated signum o, s) => (.terminated signum o, o, s)
    | (d, s) => (d, .ret v, s)

/-- `syscall_dispatch`. -/
def syscallDispatch (s : UserSys) (env : CallEnv) (fr : Nat) : Option (Delivered × Outcome × UserSys) := do
  let (o, s) ← s.dispatch env fr
  match o with
  | .ret v => s.leaveCall fr v
  | o => some (.idle, o, s)

/-! ## Raised signals -/

/-- A call that sends signal `sig` to the process that makes it. -/
inductive Sends (m : ByteMem) (fr sig : Nat) (env : CallEnv) : Prop
  | kill : m.word (fr + 0x40) = 62 → m.word (fr + 0x28) = sig → Sends m fr sig env
  /-- Ctrl+C, read into a user buffer. -/
  | ctrlC : m.word (fr + 0x40) = 0 → m.word (fr + 0x20) = 0 → m.word (fr + 0x30) ≠ 0 → env.key = 3 → sig = 2 →
      m.word (fr + 0x28) < userEnd → Sends m fr sig env

variable {s s' : UserSys} {env : CallEnv} {fr sig i : Nat} {p : UserProc} {act : SigAction} {d : Delivered}

/-- Sending a signal changes the other store only: processes and the frame's
stack pointer are as before. -/
theorem dispatch_sends (h : Sends s.mem fr sig env) (hfr : userEnd ≤ fr) :
    ∃ v s', s.dispatch env fr = some (.ret v, s') ∧ s'.procs = s.procs ∧
      s'.mem.word (fr + 0x60) = s.mem.word (fr + 0x60) := by
  cases h with
  | kill hnr hs =>
    refine ⟨(s.sysKill (s.mem.word (fr + 0x20)) sig).1, (s.sysKill (s.mem.word (fr + 0x20)) sig).2, ?_, procs_sysKill, ?_⟩
    · simp only [dispatch, hnr, hs, returning]
    · unfold sysKill
      split <;> rfl
  | ctrlC hnr hfd hcount hkey hsig hbuf =>
    refine ⟨_, _, by simp only [dispatch, hnr, hfd, if_pos, returning]; rfl, procs_readStdin, ?_⟩
    rw [readStdin, if_neg hcount]
    dsimp only
    rw [mem_setMem]
    refine ByteMem.word_congr fun x hx _ => ?_
    rw [ByteMem.patch_outside (by omega)]
    split <;> rfl

/-- The next signal is the lowest deliverable one. -/
theorem nextSignal_eq (hi : i < 64) (hpend : p.pendingSigs.getLsbD i = true) (hmask : p.sigMask.getLsbD i = false)
    (hlow : ∀ j < i, p.pendingSigs.getLsbD j = true → p.sigMask.getLsbD j = true) : nextSignal p = some i := by
  have hbit : ∀ j < 64, (p.pendingSigs &&& ~~~p.sigMask).getLsbD j = (p.pendingSigs.getLsbD j && !p.sigMask.getLsbD j) := by
    intro j hj
    simp [hj]
  have hne : p.pendingSigs &&& ~~~p.sigMask ≠ 0#64 := by
    intro h0
    have := hbit i hi
    rw [h0, hpend, hmask] at this
    simp at this
  obtain ⟨hlt, hup⟩ := FrameAlloc.trailingZeros_spec hne
  have hle : ¬FrameAlloc.trailingZeros (p.pendingSigs &&& ~~~p.sigMask) < i := by
    intro hlt'
    rw [hbit _ hlt, Bool.and_eq_true, Bool.not_eq_true'] at hup
    exact absurd (hlow _ hlt' hup.1) (by simp [hup.2])
  have hge : ¬i < FrameAlloc.trailingZeros (p.pendingSigs &&& ~~~p.sigMask) := by
    intro hlt'
    have hdown := FrameAlloc.trailingZeros_least hlt'
    rw [hbit i hi, hpend, hmask] at hdown
    cases hdown
  rw [nextSignal, if_neg hne]
  exact congrArg some (by omega)

end UserSys

/-- A signal that the process has a handler for, that is not masked and that
no lower signal precedes is delivered when the call that sends it ends, if
and only if it was pending in the process before, by another way than the
call, and the stack has room. -/
theorem sent_signal_delivered_iff {s : UserSys} {env : CallEnv} {fr sig : Nat} {p : UserProc} {act : SigAction}
    (hcur : s.procs.cur = some p) (hsend : Sends s.mem fr sig env) (hsig : 1 ≤ sig ∧ sig ≤ 31)
    (hact : p.sigHandlers.1[sig - 1]? = some act) (hhandler : 2 ≤ act.handler)
    (hmask : p.sigMask.getLsbD (sig - 1) = false)
    (hlow : ∀ j < sig - 1, p.pendingSigs.getLsbD j = true → p.sigMask.getLsbD j = true) (hfr : userEnd ≤ fr) :
    (∃ o s', s.syscallDispatch env fr = some (.handler sig act.handler, o, s')) ↔
      p.pendingSigs.getLsbD (sig - 1) = true ∧ 8 ≤ sigframeAt (s.mem.word (fr + 0x60)) := by
  obtain ⟨v, s₁, hd, hprocs, hrsp⟩ := dispatch_sends hsend hfr
  have hcur₂ : (s₁.store (fr + 0x40) v).procs.cur = some p := by rw [procs_store, hprocs, hcur]
  have hrsp₂ : (s₁.store (fr + 0x40) v).mem.word (fr + 0x60) = s.mem.word (fr + 0x60) := by
    rw [mem_store, ByteMem.word_setWord_of_disjoint (by omega), hrsp]
  have hleave : (∃ o s', s.syscallDispatch env fr = some (.handler sig act.handler, o, s')) ↔
      ∃ s', (s₁.store (fr + 0x40) v).deliverPendingSignals fr = some (.handler sig act.handler, s') := by
    simp only [syscallDispatch, hd, Option.bind_eq_bind, Option.bind_some, leaveCall, Option.map_eq_some_iff]
    constructor
    · intro ⟨o, s', ⟨d, s₂⟩, hdel, he⟩
      cases d <;> cases he
      exact ⟨_, hdel⟩
    · intro ⟨s', hdel⟩
      exact ⟨_, _, _, hdel, rfl⟩
  rw [hleave, delivers_iff hcur₂, hrsp₂]
  constructor
  · intro h
    obtain ⟨i, act', hn, -, rfl, -, -, hroom⟩ := h
    exact ⟨(nextSignal_spec hn).2.1, hroom⟩
  · intro ⟨hpend, hroom⟩
    exact ⟨sig - 1, act, nextSignal_eq (by omega) hpend hmask hlow, hact, by omega, rfl, hhandler, hroom⟩

/-- No other calls. -/
def noCalls : CallEnv where
  key := 0
  newCr3 := 0
  kstack := 0
  rest _ _ m := (errno 38, m)

/-- `kill` with a signal that is pending already. -/
theorem sent_signal_delivered_pending : ∃ (s : UserSys) (p : UserProc) (o : Outcome) (s' : UserSys), s.procs.cur = some p ∧ p.pendingSigs.getLsbD 1 = true ∧
    Sends s.mem userEnd 2 noCalls ∧ s.syscallDispatch noCalls userEnd = some (.handler 2 0x4000, o, s') := by
  have hframe : 8 ≤ sigframeAt ((signalled { handler := 0x4000, flags := 0#64, mask := 0#64 } 62 2).mem.word (userEnd + 0x60)) := by
    decide +kernel
  have hsend : Sends (signalled { handler := 0x4000, flags := 0#64, mask := 0#64 } 62 2).mem userEnd 2 noCalls :=
    .kill (by decide +kernel) (by decide +kernel)
  obtain ⟨o, s', hrun⟩ := (sent_signal_delivered_iff rfl hsend (by decide) rfl (by decide) (by decide)
    (by decide) (by decide)).mpr ⟨by decide, hframe⟩
  exact ⟨_, _, o, s', rfl, by decide, hsend, hrun⟩

/-- A process installs a handler for `SIGINT` and sends it to itself: nothing is delivered. -/
theorem sent_signal_lost : ∃ h s p, ∃ act : SigAction, Runs step free (.boot (fun _ => 0) (fun _ _ => 0) 0 0 2) h s ∧
    s.procs.cur = some p ∧ p.sigHandlers.1[1]? = some act ∧ 2 ≤ act.handler ∧ p.sigMask = 0#64 ∧ p.pendingSigs = 0#64 ∧
    Sends s.mem userEnd 2 noCalls ∧ (s.syscallDispatch noCalls userEnd).map (·.1) = some .idle := by
  obtain ⟨h, s, hr, hP⟩ := Runs.of_exec step free (.boot (fun _ => 0) (fun _ _ => 0) 0 0 2)
    [.register 2 0 5 userEnd, .user (ByteMem.setWords (fun _ => 0) 0x1000 [0x4000, 0, 0, 0]), .sigaction 2 0x1000 0,
      .enter userEnd [0, 0, 0, 0, 2, 2, 0, 0, 62, 0x400000, 0x2B, 0x202, 0x8000, 0x33]]
    (fun _ s => (s.procs.cur.any fun (p : UserProc) => (p.sigHandlers.1[1]?.any fun (act : SigAction) => decide (2 ≤ act.handler)) &&
        p.sigMask == 0#64 && p.pendingSigs == 0#64) &&
      s.mem.word (userEnd + 0x40) == 62 && s.mem.word (userEnd + 0x28) == 2 &&
      (s.syscallDispatch noCalls userEnd).map (·.1) == some .idle) (by decide +kernel)
  simp only [Bool.and_eq_true, Option.any_eq_true, beq_iff_eq, decide_eq_true_eq] at hP
  obtain ⟨⟨⟨⟨p, hp, ⟨⟨act, hact, hh⟩, hmask⟩, hpend⟩, hnr⟩, hsig⟩, hidle⟩ := hP
  exact ⟨h, s, p, act, hr, hp, hact, hh, hmask, hpend, .kill hnr hsig, hidle⟩

end ChodOs
