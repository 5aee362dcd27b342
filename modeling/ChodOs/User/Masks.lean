/-
Signal masks. Delivery adds the handler's mask unfiltered and the return
from a handler takes whatever word the signal frame holds, so a run keeps
`SIGKILL` and `SIGSTOP` unblocked exactly while neither brings them in. The
word that a frame keeps is the mask of the handler, not the one before it.
-/
import ChodOs.User.Signal

namespace ChodOs

open StepSys UserSys

/-! ## One step -/

/-- `SIGKILL` or `SIGSTOP` is in the set. -/
def blocksKillStop (w : BitVec 64) : Bool := w.getLsbD (sigkill - 1) || w.getLsbD (sigstop - 1)

/-- The mask leaves them out and their actions are the default ones. -/
structure Unblocked (p : UserProc) : Prop where
  mask : blocksKillStop p.sigMask = false
  kill : p.sigHandlers.1[sigkill - 1]? = some .default
  stop : p.sigHandlers.1[sigstop - 1]? = some .default

variable {s s' : UserSys} {fr i : Nat} {p : UserProc} {act : SigAction} {d : Delivered}

theorem ofSignals_unblocked : OfSignals Unblocked := fun hm hh h =>
  ⟨by rw [hm]; exact h.mask, by rw [hh]; exact h.kill, by rw [hh]; exact h.stop⟩

theorem blocks_or (v w : BitVec 64) : blocksKillStop (v ||| w) = (blocksKillStop v || blocksKillStop w) := by
  simp only [blocksKillStop, BitVec.getLsbD_or]
  cases v.getLsbD (sigkill - 1) <;> cases w.getLsbD (sigkill - 1) <;> simp

theorem blocks_bit (hk : i ≠ sigkill - 1) (hs : i ≠ sigstop - 1) : blocksKillStop (1#64 <<< i) = false := by
  simp only [blocksKillStop, sigkill, sigstop, Bool.or_eq_false_iff] at *
  constructor <;> rw [FrameAlloc.getLsbD_one_shiftLeft (by decide)] <;> simp <;> omega

theorem nextSignal_spec (h : nextSignal p = some i) :
    i < 64 ∧ p.pendingSigs.getLsbD i = true ∧ p.sigMask.getLsbD i = false := by
  simp only [nextSignal] at h
  split at h
  · cases h
  · next hne =>
    obtain rfl := Option.some.inj h
    obtain ⟨hlt, hbit⟩ := FrameAlloc.trailingZeros_spec hne
    rw [BitVec.getLsbD_and, BitVec.getLsbD_not, Bool.and_eq_true, Bool.and_eq_true] at hbit
    exact ⟨hlt, hbit.1, by simpa using hbit.2.2⟩

/-- The mask of a handler brings them in if its action's mask does. -/
theorem blocks_handlerMask (hp : Unblocked p) (hi : i ≠ sigkill - 1 ∧ i ≠ sigstop - 1) :
    blocksKillStop (handlerMask p.sigMask act i) = blocksKillStop act.mask := by
  unfold handlerMask
  rw [blocks_or]
  split
  · rw [hp.mask, Bool.false_or]
  · rw [blocks_or, hp.mask, blocks_bit hi.1 hi.2, Bool.false_or, Bool.false_or]

/-- A signal with a handler is not one of the two. -/
theorem Unblocked.ne_of_handler (hp : Unblocked p) (hact : p.sigHandlers.1[i]? = some act) (hh : act.handler ≠ 0) :
    i ≠ sigkill - 1 ∧ i ≠ sigstop - 1 := by
  constructor
  · intro h
    obtain rfl := h
    exact hh (Option.some.inj (hact.symm.trans hp.kill) ▸ rfl)
  · intro h
    obtain rfl := h
    exact hh (Option.some.inj (hact.symm.trans hp.stop) ▸ rfl)

/-- Another action for a signal that is not one of the two. -/
theorem Unblocked.setAction (hp : Unblocked p) (hi : i ≠ sigkill - 1 ∧ i ≠ sigstop - 1) :
    (p.sigHandlers.set i act).1[sigkill - 1]? = some .default ∧
      (p.sigHandlers.set i act).1[sigstop - 1]? = some .default :=
  ⟨(List.getElem?_set_ne hi.1).trans hp.kill, (List.getElem?_set_ne hi.2).trans hp.stop⟩

theorem Unblocked.unpend (hp : Unblocked p) : Unblocked (unpend i p) := ofSignals_unblocked (p := p) rfl rfl hp

theorem Unblocked.enterHandler (hp : Unblocked p) (hact : p.sigHandlers.1[i]? = some act) (hh : act.handler ≠ 0)
    (hmask : blocksKillStop act.mask = false) : Unblocked (enterHandler act i p) := by
  have hi := hp.ne_of_handler hact hh
  refine ⟨(blocks_handlerMask hp hi).trans hmask, ?_, ?_⟩ <;> dsimp only [UserSys.enterHandler] <;> split
  · exact (hp.setAction hi).1
  · exact hp.kill
  · exact (hp.setAction hi).2
  · exact hp.stop

/-! ## Delivery -/

namespace UserSys

theorem procs_installSigframe {signum handler : Nat} {mask : BitVec 64}
    (h : s.installSigframe fr signum handler mask = some s') : s'.procs = s.procs := by
  simp only [installSigframe] at h
  split at h
  · cases h
  · cases h
    rfl

/-- What a delivery does: nothing, or the next signal meets its action. -/
theorem deliver_cases (h : s.deliverPendingSignals fr = some (d, s')) :
    ((∀ p, s.procs.cur = some p → nextSignal p = none) ∧ d = .idle ∧ s' = s) ∨
      ∃ p i act, s.procs.cur = some p ∧ nextSignal p = some i ∧ p.sigHandlers.1[i]? = some act ∧
        deliver { s with procs := s.procs.update (unpend i) } fr i p act = some (d, s') := by
  unfold deliverPendingSignals at h
  split at h
  · next hc =>
    cases h
    exact .inl ⟨fun p hp => absurd (hc.symm.trans hp) nofun, rfl, rfl⟩
  · next p hc =>
    split at h
    · next hn =>
      cases h
      exact .inl ⟨fun q hq => Option.some.inj (hc.symm.trans hq) ▸ hn, rfl, rfl⟩
    · next i hn =>
      obtain ⟨act, hact, h⟩ := Option.bind_eq_some_iff.mp h
      exact .inr ⟨p, i, act, hc, hn, hact, h⟩

/-- And what meeting it does: a signal without a handler leaves the masks
alone, one with a handler has it entered. -/
theorem met_cases (h : deliver s fr i p act = some (d, s')) :
    (act.handler < 2 ∧ ∀ {P}, OfSignals P → s.procs.All P → s'.procs.All P) ∨
      (2 ≤ act.handler ∧ d = .handler (i + 1) act.handler ∧ s'.procs = s.procs.update (enterHandler act i)) := by
  unfold deliver at h
  dsimp only at h
  split at h
  · next h0 =>
    refine .inl ⟨by omega, fun hP hall => ?_⟩
    split at h
    · cases h
      exact hall
    · cases h
      exact all_sysExit hP hall
  · next h0 =>
    split at h
    · next h1 =>
      cases h
      exact .inl ⟨by omega, fun _ hall => hall⟩
    · next h1 =>
      obtain ⟨s₁, hs, he⟩ := Option.map_eq_some_iff.mp h
      cases he
      exact .inr ⟨by omega, rfl, procs_installSigframe hs⟩

/-- The handler of signal `i + 1` is entered: the process, and the two parts of memory that are written. -/
structure Entered (s : UserSys) (fr sf : Nat) (p : UserProc) (i : Nat) (act : SigAction) (s' : UserSys) : Prop where
  room : 8 ≤ sf
  below : sf + 248 ≤ s.mem.word (fr + 0x60)
  handler : 2 ≤ act.handler
  procs : s'.procs = (s.procs.update (unpend i)).update (enterHandler act i)
  mem : s'.mem = redirect (writeSigframe s.mem sf (Regs.ofFrame s.mem fr) (handlerMask p.sigMask act i)) fr (i + 1)
    act.handler (sf - 8)
  kernRsp : s'.kernRsp = s.kernRsp

theorem handler_entered {signum addr : Nat} (h : s.deliverPendingSignals fr = some (.handler signum addr, s')) :
    ∃ p i act, s.procs.cur = some p ∧ nextSignal p = some i ∧ p.sigHandlers.1[i]? = some act ∧ signum = i + 1 ∧
      addr = act.handler ∧ Entered s fr (sigframeAt (s.mem.word (fr + 0x60))) p i act s' := by
  rcases deliver_cases h with ⟨-, hidle, -⟩ | ⟨p, i, act, hc, hn, hact, hm⟩
  · cases hidle
  simp only [deliver] at hm
  split at hm
  · split at hm <;> cases hm
  next h0 =>
  split at hm
  · cases hm
  next h1 =>
  obtain ⟨s₁, hs, he⟩ := Option.map_eq_some_iff.mp hm
  cases he
  simp only [installSigframe] at hs
  split at hs
  · cases hs
  next hroom =>
  cases hs
  have hroom : ¬sigframeAt (s.mem.word (fr + 0x60)) < 8 := hroom
  refine ⟨p, i, act, hc, hn, hact, rfl, rfl, by omega, ?_, by omega, rfl, mem_setMem, rfl⟩
  simp only [sigframeAt] at hroom ⊢
  omega

/-- A process that a signal ends does not return. -/
theorem terminated_ne_ret {signum v : Nat} {o : Outcome}
    (h : s.deliverPendingSignals fr = some (.terminated signum o, s')) : o ≠ .ret v := by
  rcases deliver_cases h with ⟨-, hidle, -⟩ | ⟨p, i, act, -, -, -, hm⟩
  · cases hidle
  simp only [deliver] at hm
  split at hm
  · split at hm <;> cases hm
    exact sysExit_ne_ret
  · split at hm
    · cases hm
    · obtain ⟨s₁, -, he⟩ := Option.map_eq_some_iff.mp hm
      cases he

/-- A handler is entered exactly for the next signal, if there is room on the stack. -/
theorem delivers_iff {signum addr : Nat} (hc : s.procs.cur = some p) :
    (∃ s', s.deliverPendingSignals fr = some (.handler signum addr, s')) ↔
      ∃ i act, nextSignal p = some i ∧ p.sigHandlers.1[i]? = some act ∧ signum = i + 1 ∧ addr = act.handler ∧
        2 ≤ act.handler ∧ 8 ≤ sigframeAt (s.mem.word (fr + 0x60)) := by
  constructor
  · intro ⟨s', h⟩
    obtain ⟨q, i, act, hq, hn, hact, hsig, haddr, hent⟩ := handler_entered h
    obtain rfl : q = p := Option.some.inj (hq.symm.trans hc)
    exact ⟨i, act, hn, hact, hsig, haddr, hent.handler, hent.room⟩
  · intro h
    obtain ⟨i, act, hn, hact, rfl, rfl, hh, hroom⟩ := h
    have hroom : ¬sigframeAt (Regs.ofFrame s.mem fr).rsp < 8 := by
      simp only [Regs.ofFrame]
      omega
    simp only [deliverPendingSignals, hc, hn, hact, Option.bind_eq_bind, Option.bind_some, deliver]
    rw [if_neg (by omega), if_neg (by omega), installSigframe]
    exact ⟨_, congrArg (Option.map _) (if_neg hroom)⟩

/-! ## Runs -/

/-- A handler is not entered with `SIGKILL` or `SIGSTOP` in its action's
mask, and no frame is returned from that has one of them in its mask word. -/
def Filtered (_ : List UserOp) (s : UserSys) : UserOp → Prop
  | .deliver _ => ∀ p ∈ s.procs.cur, ∀ i ∈ nextSignal p, ∀ act ∈ p.sigHandlers.1[i]?,
    2 ≤ act.handler → blocksKillStop act.mask = false
  | .sigreturn fr => ∀ _p ∈ s.procs.cur, blocksKillStop (s.savedMask fr) = false
  | _ => True

instance (h : List UserOp) (s : UserSys) (op : UserOp) : Decidable (Filtered h s op) := by
  induction op using UserOp.casesOn <;> unfold Filtered <;> infer_instance

theorem all_rtSigaction {signum new old : Nat} (hall : s.procs.All Unblocked) :
    (s.rtSigaction signum new old).2.procs.All Unblocked := by
  unfold rtSigaction
  split
  · exact hall
  · next hsig =>
    dsimp only
    split
    · rwa [procs_storeOut]
    · split
      · rwa [procs_storeOut]
      · next hks =>
        rw [procs_storeOut]
        refine hall.update fun p _ hp => ?_
        have hi : signum - 1 ≠ sigkill - 1 ∧ signum - 1 ≠ sigstop - 1 := by
          simp only [sigkill, sigstop] at *
          omega
        exact ⟨hp.mask, (hp.setAction hi).1, (hp.setAction hi).2⟩

theorem blocks_maskBy {how : Nat} {mask set m : BitVec 64} (hm : blocksKillStop mask = false)
    (h : maskBy how mask set = some m) : blocksKillStop m = false := by
  have hdiff : ∀ w : BitVec 64, blocksKillStop (w &&& ~~~cantBlock) = false := by
    intro w
    simp [blocksKillStop, cantBlock, sigkill, sigstop]
  unfold maskBy at h
  split at h <;> cases h
  · rw [blocks_or, hm, hdiff, Bool.or_self]
  · simp only [blocksKillStop, Bool.or_eq_false_iff] at hm ⊢
    simp [hm]
  · exact hdiff _

/-- `rt_sigprocmask` brings neither of them in. -/
theorem all_rtSigprocmask {how set old : Nat} (hall : s.procs.All Unblocked) :
    (s.rtSigprocmask how set old).2.procs.All Unblocked := by
  have hold : blocksKillStop ((s.procs.cur.map (·.sigMask)).getD 0#64) = false := by
    cases hc : s.procs.cur with
    | none => rfl
    | some p => exact (hall.cur hc).mask
  unfold rtSigprocmask
  dsimp only
  split
  · rwa [procs_storeOut]
  · split
    · rwa [procs_storeOut]
    · next m hm =>
      rw [procs_storeOut]
      exact hall.update fun p _ hp => ⟨blocks_maskBy hold hm, hp.kill, hp.stop⟩

theorem cur_rtSigreturn (hc : s.procs.cur = some p) :
    (s.rtSigreturn fr).2.procs.cur = some { p with sigMask := s.savedMask fr } := by
  have hprocs : (s.rtSigreturn fr).2.procs = s.procs.update fun p => { p with sigMask := s.savedMask fr } := rfl
  rw [hprocs, Uprocs.cur_update, hc, Option.map_some]

theorem procs_raiseSignal {P : UserProc → Prop} (hP : OfSignals P) {signum : Nat} (hall : s.procs.All P) :
    (s.raiseSignal signum).procs.All P := by
  unfold raiseSignal
  split
  · exact hall
  · split
    · exact hall.update fun _ _ => hP rfl rfl
    · exact hall

/-- A filtered step keeps both signals unblocked and with their default actions. -/
theorem all_step {h es : List UserOp} {op : UserOp} (hall : s.procs.All Unblocked) (hok : Filtered h s op)
    (hs : s.step op = some (es, s')) : s'.procs.All Unblocked := by
  cases op with
  | deliver fr =>
    obtain ⟨⟨d, s₁⟩, hd, he⟩ := Option.map_eq_some_iff.mp hs
    cases he
    rcases deliver_cases hd with ⟨-, -, rfl⟩ | ⟨p, i, act, hc, hn, hact, hm⟩
    · exact hall
    have hall' : (s.procs.update (unpend i)).All Unblocked := hall.update fun _ _ hp => hp.unpend
    rcases met_cases hm with ⟨-, hkeep⟩ | ⟨hh, -, hprocs⟩
    · exact hkeep ofSignals_unblocked hall'
    · rw [hprocs]
      refine hall'.update fun q hq hp => hp.enterHandler (i := i) ?_ (by omega) (hok p hc i hn act hact hh)
      have hcur : (s.procs.update (unpend i)).cur = some q := hq
      rw [Uprocs.cur_update, hc] at hcur
      obtain rfl := Option.some.inj hcur
      exact hact
  | sigreturn fr =>
    cases hs
    exact hall.update fun p hp hu => ⟨hok p hp, hu.kill, hu.stop⟩
  | register pid parentPid userCr3 kstack =>
    cases hs
    exact hall.register (fun _ => ofSignals_unblocked rfl rfl) ⟨by simp [blocksKillStop, UserProc.new], rfl, rfl⟩
  | user | enter =>
    cases hs
    exact hall
  | kill pid sig =>
    cases hs
    rwa [procs_sysKill]
  | readStdin buf count key =>
    cases hs
    rwa [procs_readStdin]
  | sigaction signum new old =>
    cases hs
    exact all_rtSigaction hall
  | sigprocmask how set old =>
    cases hs
    exact all_rtSigprocmask hall
  | raise signum =>
    cases hs
    exact procs_raiseSignal ofSignals_unblocked hall
  | fork fr newCr3 kstack =>
    cases hs
    exact all_forkCurrent ofSignals_unblocked hall
  | clone flags childStack parentTid childTid newtls fr newCr3 kstack =>
    cases hs
    exact all_cloneThread ofSignals_unblocked hall
  | wait4 childPid statusPtr options fr =>
    cases hs
    exact all_wait4 ofSignals_unblocked hall
  | exit code =>
    cases hs
    exact all_sysExit ofSignals_unblocked hall
  | yield fr =>
    cases hs
    exact all_schedYield ofSignals_unblocked hall
  | futex uaddr op val fr =>
    cases hs
    exact all_futexDispatch ofSignals_unblocked hall
  | setTid tidptr =>
    cases hs
    exact hall.update fun _ _ => ofSignals_unblocked rfl rfl

/-- A step that leaves both signals unblocked was filtered. -/
theorem filtered_of_step {h es : List UserOp} {op : UserOp} (hall : s.procs.All Unblocked)
    (hs : s.step op = some (es, s')) (hafter : s'.procs.All fun p => blocksKillStop p.sigMask = false) :
    Filtered h s op := by
  cases op with
  | deliver fr =>
    intro p hc i hn act hact hh
    obtain ⟨⟨d, s₁⟩, hd, he⟩ := Option.map_eq_some_iff.mp hs
    cases he
    rcases deliver_cases hd with ⟨hidle, -, -⟩ | ⟨p', i', act', hc', hn', hact', hm⟩
    · exact absurd ((hidle p hc).symm.trans hn) nofun
    obtain rfl : p' = p := Option.some.inj (hc'.symm.trans hc)
    obtain rfl : i' = i := Option.some.inj (hn'.symm.trans hn)
    obtain rfl : act' = act := Option.some.inj (hact'.symm.trans hact)
    rcases met_cases hm with ⟨hlt, -⟩ | ⟨-, -, hprocs⟩
    · omega
    have hp := hall.cur hc
    have hcur : s₁.procs.cur = some (enterHandler act' i' (unpend i' p')) := by
      rw [hprocs, Uprocs.cur_update, Uprocs.cur_update, hc', Option.map_some, Option.map_some]
    have hmask := hafter.cur hcur
    rwa [sigMask_enterHandler, sigMask_unpend, blocks_handlerMask hp (hp.ne_of_handler hact (by omega))] at hmask
  | sigreturn fr =>
    intro p hc
    cases hs
    have hmask := hafter.cur (cur_rtSigreturn hc)
    exact hmask
  | _ => trivial

end UserSys

/-- In a run whose deliveries and returns are filtered no process blocks
`SIGKILL` or `SIGSTOP`, and the next step keeps it so if and only if it is filtered. -/
theorem kill_stop_never_blocked_iff_filtered {kernelMem : ByteMem} {spaces : Nat → ByteMem} {kernelCr3 kernRsp nextPid : Nat}
    {h : List UserOp} {s : UserSys} (hr : Runs step Filtered (.boot kernelMem spaces kernelCr3 kernRsp nextPid) h s) :
    (∀ i p, s.procs.at? i = some p → blocksKillStop p.sigMask = false) ∧
      ∀ op es s', s.step op = some (es, s') →
        ((∀ i p, s'.procs.at? i = some p → blocksKillStop p.sigMask = false) ↔ Filtered h s op) := by
  have hinv : s.procs.All Unblocked := by
    refine hr.invariant_state (fun s => s.procs.All Unblocked) (fun p hp => ?_) fun hI hok hs => all_step hI hok hs
    cases List.eq_of_mem_replicate hp
  refine ⟨fun i p hp => (hinv p (Uprocs.mem_of_at? hp)).mask, fun op es s' hs => ⟨fun hafter => ?_, fun hok i p hp => ?_⟩⟩
  · refine filtered_of_step hinv hs fun p hp => ?_
    obtain ⟨i, hi⟩ := List.mem_iff_getElem?.mp hp
    exact hafter i p (by rw [Uprocs.at?, hi]; rfl)
  · exact (all_step hinv hok hs p (Uprocs.mem_of_at? hp)).mask

/-- A process starts and gets `SIGTERM`, which ends it. -/
theorem kill_stop_unblocked_run : ∃ h s, Runs step Filtered (.boot (fun _ => 0) (fun _ _ => 0) 0 0 2) h s ∧
    (s.procs.at? 0).isSome = true ∧ ∀ i p, s.procs.at? i = some p → blocksKillStop p.sigMask = false := by
  obtain ⟨h, s, hr, hP⟩ := Runs.of_exec step Filtered (.boot (fun _ => 0) (fun _ _ => 0) 0 0 2)
    [.register 2 0 5 userEnd, .raise 15, .deliver userEnd] (fun _ s => (s.procs.at? 0).isSome) (by decide)
  exact ⟨h, s, hr, hP, (kill_stop_never_blocked_iff_filtered hr).1⟩

/-- A handler for signal 10 with `SIGKILL` in its action's mask is installed and entered. -/
theorem sigkill_blocked : ∃ h s p, Runs step free (.boot (fun _ => 0) (fun _ _ => 0) 0 0 2) h s ∧
    s.procs.at? 0 = some p ∧ p.sigMask.getLsbD (sigkill - 1) = true := by
  obtain ⟨h, s, hr, hP⟩ := Runs.of_exec step free (.boot (fun _ => 0) (fun _ _ => 0) 0 0 2)
    [.register 2 0 5 userEnd, .user (ByteMem.setWords (fun _ => 0) 0x1000 [0x4000, 0, 0, 0x100]),
      .sigaction 10 0x1000 0, .raise 10, .enter userEnd [0, 0, 0, 0, 0, 0, 0, 0, 0, 0, 0, 0, 0x8000], .deliver userEnd]
    (fun _ s => (s.procs.at? 0).any fun p => p.sigMask.getLsbD (sigkill - 1)) (by decide +kernel)
  obtain ⟨p, hp, hbit⟩ := (Option.any_eq_true _ _).mp hP
  exact ⟨h, s, p, hr, hp, hbit⟩

/-! ## Nesting -/

/-- A handler is entered from the frame `fr`, on a user stack that lies under
all signal frames still in use; the new one is at `sf`. -/
structure Pushes (live : List Nat) (s : UserSys) (fr sf : Nat) (s' : UserSys) : Prop where
  delivered : ∃ signum addr, s.deliverPendingSignals fr = some (.handler signum addr, s')
  place : sf = sigframeAt (s.mem.word (fr + 0x60))
  kernel : userEnd ≤ fr
  user : s.mem.word (fr + 0x60) ≤ userEnd
  under : ∀ l ∈ live, s.mem.word (fr + 0x60) ≤ l

/-- The handler whose signal frame is at `sf` returns, from the frame `fr`. -/
structure Pops (s : UserSys) (fr sf : Nat) (s' : UserSys) : Prop where
  returned : (s.rtSigreturn fr).2 = s'
  rsp : s.mem.word (fr + 0x60) = sf
  kernel : userEnd ≤ fr

/-- Between two moments of the same process: anything that leaves the mask
words of the signal frames in use alone. -/
structure Ordinary (live : List Nat) (s s' : UserSys) : Prop where
  same : s'.procs.cur.map (·.pid) = s.procs.cur.map (·.pid)
  words : ∀ l ∈ live, s'.mem.word (l + 112) = s.mem.word (l + 112)

/-- What a process does while the signal frames `live` are in use: handlers
entered and returned from, nested to any depth, and other things between. -/
inductive Nested : List Nat → UserSys → UserSys → Prop
  | nil {live s} : Nested live s s
  | ordinary {live s s₁ s₂} : Nested live s s₁ → Ordinary live s₁ s₂ → Nested live s s₂
  | signal {live s s₁ s₂ s₃ s₄ fr fr' sf} : Nested live s s₁ → Pushes live s₁ fr sf s₂ →
      Nested (sf :: live) s₂ s₃ → Pops s₃ fr' sf s₄ → Nested live s s₄

section

variable {live : List Nat} {s s' s₁ s₂ s₃ : UserSys} {fr fr' sf i : Nat} {p : UserProc} {act : SigAction}

/-- What entering a handler leaves. -/
theorem Pushes.spec (h : Pushes live s fr sf s') : ∃ p i act, s.procs.cur = some p ∧ nextSignal p = some i ∧
    p.sigHandlers.1[i]? = some act ∧ Entered s fr sf p i act s' := by
  obtain ⟨signum, addr, hd⟩ := h.delivered
  obtain ⟨p, i, act, hc, hn, hact, -, -, hent⟩ := handler_entered hd
  exact ⟨p, i, act, hc, hn, hact, h.place ▸ hent⟩

theorem Pops.mem_outside (h : Pops s fr sf s') {x : Nat} (hx : x < fr) : s'.mem x = s.mem x := by
  rw [← h.returned, rtSigreturn, mem_setMem, Regs.restore, ByteMem.setWords_outside (by omega),
    ByteMem.setWords_outside (by omega)]

/-- The mask words of the signal frames in use stay, and so does the process. -/
theorem Nested.frame (h : Nested live s s') (hlive : ∀ l ∈ live, l + 120 ≤ userEnd) :
    (∀ l ∈ live, s'.mem.word (l + 112) = s.mem.word (l + 112)) ∧
      s'.procs.cur.map (·.pid) = s.procs.cur.map (·.pid) := by
  induction h with
  | nil => exact ⟨fun _ _ => rfl, rfl⟩
  | ordinary _ hq ih =>
    obtain ⟨hwords, hpid⟩ := ih hlive
    exact ⟨fun l hl => (hq.words l hl).trans (hwords l hl), hq.same.trans hpid⟩
  | @signal live s s₁ s₂ s₃ s₄ fr fr' sf _ hpush _ hpop ih ihBody =>
    obtain ⟨hwords, hpid⟩ := ih hlive
    obtain ⟨p, i, act, hc, -, -, hroom, hbelow, -, hprocs, hmem, -⟩ := hpush.spec
    have hfr := hpush.kernel
    have hfr' := hpop.kernel
    have hrsp := hpush.user
    have hlive' : ∀ l ∈ sf :: live, l + 120 ≤ userEnd := by
      intro l hl
      rcases List.mem_cons.mp hl with rfl | hl
      · omega
      · exact hlive l hl
    obtain ⟨hwords', hpid'⟩ := ihBody hlive'
    refine ⟨fun l hl => ?_, ?_⟩
    · have hunder := hpush.under l hl
      have hend := hlive l hl
      have hpopped : s₄.mem.word (l + 112) = s₃.mem.word (l + 112) :=
        ByteMem.word_congr fun x _ _ => hpop.mem_outside (by omega)
      have hpushed : s₂.mem.word (l + 112) = s₁.mem.word (l + 112) := by
        rw [hmem]
        refine ByteMem.word_congr fun x _ _ => ?_
        rw [redirect_outside (by omega), writeSigframe_outside (by omega)]
      rw [hpopped, hwords' l (List.mem_cons_of_mem _ hl), hpushed, hwords l hl]
    · have hpopped : s₄.procs.cur.map (·.pid) = s₃.procs.cur.map (·.pid) := by
        have hp₄ : s₄.procs = s₃.procs.update fun p => { p with sigMask := s₃.savedMask fr' } := by
          rw [← hpop.returned]
          rfl
        rw [hp₄, Uprocs.cur_update, Option.map_map]
        rfl
      have hpushed : s₂.procs.cur.map (·.pid) = s₁.procs.cur.map (·.pid) := by
        rw [hprocs, Uprocs.cur_update, Uprocs.cur_update, Option.map_map, Option.map_map]
        rfl
      rw [hpopped, hpid', hpushed, hpid]

/-- A handler's mask is the one before it if it leaves its own signal and adds nothing new. -/
theorem handlerMask_eq_iff {mask : BitVec 64} (hi : i < 64) (hunmasked : mask.getLsbD i = false) :
    handlerMask mask act i = mask ↔ act.flags.getLsbD saNodefer = true ∧ act.mask &&& ~~~mask = 0#64 := by
  have hsub : mask ||| act.mask = mask ↔ act.mask &&& ~~~mask = 0#64 := by
    constructor
    · intro h
      refine BitVec.eq_of_getLsbD_eq fun j hj => ?_
      have hbit := congrArg (fun w : BitVec 64 => w.getLsbD j) h
      simp only [BitVec.getLsbD_or] at hbit
      simp only [BitVec.getLsbD_and, BitVec.getLsbD_not, BitVec.getLsbD_zero, hj, decide_true, Bool.true_and]
      cases hm : mask.getLsbD j <;> simp_all
    · intro h
      refine BitVec.eq_of_getLsbD_eq fun j hj => ?_
      have hbit := congrArg (fun w : BitVec 64 => w.getLsbD j) h
      simp only [BitVec.getLsbD_and, BitVec.getLsbD_not, BitVec.getLsbD_zero, hj, decide_true, Bool.true_and] at hbit
      simp only [BitVec.getLsbD_or]
      cases hm : mask.getLsbD j <;> simp_all
  unfold handlerMask
  by_cases hnd : act.flags.getLsbD saNodefer = true
  · rw [if_pos hnd, hsub]
    exact (and_iff_right hnd).symm
  · rw [if_neg hnd]
    refine ⟨fun h => ?_, fun h => absurd h.1 hnd⟩
    have hbit := congrArg (fun w : BitVec 64 => w.getLsbD i) h
    simp only [BitVec.getLsbD_or, hunmasked, FrameAlloc.getLsbD_one_shiftLeft hi] at hbit
    simp at hbit

end

/-- After the outermost return the mask is the one before the outermost
delivery if and only if that handler's action has `SA_NODEFER` and a mask
that was masked already; what is nested in between does not matter. -/
theorem masks_nest_iff {s s₁ s₂ s₃ : UserSys} {p : UserProc} {act : SigAction} {i fr fr' sf : Nat}
    (hcur : s.procs.cur = some p) (hnext : nextSignal p = some i) (hact : p.sigHandlers.1[i]? = some act)
    (hpush : Pushes [] s fr sf s₁) (hbody : Nested [sf] s₁ s₂) (hpop : Pops s₂ fr' sf s₃) :
    s₃.procs.cur.map (fun q => (q.pid, q.sigMask)) = some (p.pid, p.sigMask) ↔
      act.flags.getLsbD saNodefer = true ∧ act.mask &&& ~~~p.sigMask = 0#64 := by
  obtain ⟨p', i', act', hc, hn, ha, hroom, hbelow, -, hprocs, hmem, -⟩ := hpush.spec
  obtain rfl : p' = p := Option.some.inj (hc.symm.trans hcur)
  obtain rfl : i' = i := Option.some.inj (hn.symm.trans hnext)
  obtain rfl : act' = act := Option.some.inj (ha.symm.trans hact)
  have hrsp := hpush.user
  have hfr := hpush.kernel
  obtain ⟨hwords, hpid⟩ := hbody.frame fun l hl => by
    obtain rfl := List.mem_singleton.mp hl
    omega
  obtain ⟨hlt, -, hunmasked⟩ := nextSignal_spec hnext
  rw [← handlerMask_eq_iff hlt hunmasked]
  -- the word in the outermost frame is still the handler's mask
  have hsaved : s₂.savedMask fr' = handlerMask p'.sigMask act' i' := by
    have hword : s₁.mem.word (sf + 112) = (handlerMask p'.sigMask act' i').toNat := by
      rw [hmem]
      refine (ByteMem.word_congr fun x _ _ => redirect_outside (by omega)).trans (mask_writeSigframe hroom)
    rw [savedMask, hpop.rsp, hwords sf (List.mem_singleton.mpr rfl), hword, BitVec.ofNat_toNat, BitVec.setWidth_eq]
  have hpid₁ : s₂.procs.cur.map (·.pid) = some p'.pid := by
    rw [hpid, hprocs, Uprocs.cur_update, Uprocs.cur_update, hcur]
    rfl
  obtain ⟨q, hq, hqpid⟩ := Option.map_eq_some_iff.mp hpid₁
  rw [← hpop.returned, cur_rtSigreturn hq, hsaved, Option.map_some, Option.some.injEq, Prod.mk.injEq]
  exact and_iff_right hqpid

/-- One process, with signal 2 pending and the same action for every signal,
in call `nr` with second argument `arg`; the frame is at the bottom of the kernel half. -/
def signalled (act : SigAction) (nr arg : Nat) : UserSys :=
  { UserSys.boot (ByteMem.setWords (fun _ => 0) userEnd [0, 0, 0, 0, 0, arg, 0, 0, nr, 0x400000, 0x2B, 0x202, 0x8000, 0x33])
      (fun _ _ => 0) 0 0 2 with
    procs :=
      { slots := (Table.fill Uprocs.maxProcs none).set 0
          (some { UserProc.new 1 0 0 userEnd with sigHandlers := .fill nsig act, pendingSigs := 2#64 })
        current := 0 } }

/-- The handler has run and popped its return address. -/
def handlerDone (s : UserSys) (fr : Nat) : UserSys := s.setMem (s.mem.setWord (fr + 0x60) (s.mem.word (fr + 0x60) + 8))

/-- Signal 2 is delivered, its handler only returns, and `rt_sigreturn` is called. -/
theorem signalled_round (act : SigAction) (mask : BitVec 64)
    (h : ((signalled act 39 0).deliverPendingSignals userEnd).any (fun r => r.1 == .handler 2 act.handler &&
      r.2.mem.word (userEnd + 0x60) + 8 == 0x7F00 &&
      ((handlerDone r.2 userEnd).rtSigreturn userEnd).2.procs.cur.map (·.sigMask) == some mask) = true) :
    ∃ s₁ s₂ s₃, Pushes [] (signalled act 39 0) userEnd 0x7F00 s₁ ∧ Nested [0x7F00] s₁ s₂ ∧ Pops s₂ userEnd 0x7F00 s₃ ∧
      s₃.procs.cur.map (·.sigMask) = some mask := by
  obtain ⟨⟨d, s₁⟩, hd, hP⟩ := (Option.any_eq_true _ _).mp h
  simp only [Bool.and_eq_true, beq_iff_eq] at hP
  obtain ⟨⟨rfl, hrsp⟩, hmask⟩ := hP
  have hword : (signalled act 39 0).mem.word (userEnd + 0x60) = 0x8000 := by
    rw [show (signalled act 39 0).mem = (signalled .default 39 0).mem from rfl]
    decide +kernel
  refine ⟨s₁, handlerDone s₁ userEnd, _, ⟨⟨_, _, hd⟩, by rw [hword]; decide, by decide, by rw [hword]; decide, nofun⟩,
    .ordinary .nil ⟨rfl, fun l hl => ?_⟩, ⟨rfl, ?_, by decide⟩, hmask⟩
  · obtain rfl := List.mem_singleton.mp hl
    rw [handlerDone, mem_setMem, ByteMem.word_setWord_of_disjoint (.inl (by decide))]
  · rw [handlerDone, mem_setMem, ByteMem.word_setWord_self, hrsp, Nat.mod_eq_of_lt (by decide)]

/-- With `SA_NODEFER` and no further signals in its mask. -/
theorem masks_nest_nodefer : ∃ s s₁ s₂ s₃ p, s.procs.cur = some p ∧ Pushes [] s userEnd 0x7F00 s₁ ∧
    Nested [0x7F00] s₁ s₂ ∧ Pops s₂ userEnd 0x7F00 s₃ ∧
    s₃.procs.cur.map (fun q => (q.pid, q.sigMask)) = some (p.pid, p.sigMask) := by
  obtain ⟨s₁, s₂, s₃, hpush, hbody, hpop, -⟩ :=
    signalled_round { handler := 0x4000, flags := 0x40000000#64, mask := 0#64 } 0#64 (by decide +kernel)
  exact ⟨_, s₁, s₂, s₃, _, rfl, hpush, hbody, hpop,
    (masks_nest_iff (i := 1) rfl (by decide) rfl hpush hbody hpop).mpr (by decide)⟩

/-- Without it the signal stays masked after its handler has returned. -/
theorem masks_do_not_nest : ∃ s s₁ s₂ s₃, Pushes [] s userEnd 0x7F00 s₁ ∧ Nested [0x7F00] s₁ s₂ ∧
    Pops s₂ userEnd 0x7F00 s₃ ∧ s.procs.cur.map (·.sigMask) = some 0#64 ∧ s₃.procs.cur.map (·.sigMask) = some 2#64 := by
  obtain ⟨s₁, s₂, s₃, hpush, hbody, hpop, hmask⟩ :=
    signalled_round { handler := 0x4000, flags := 0#64, mask := 0#64 } 2#64 (by decide +kernel)
  exact ⟨_, s₁, s₂, s₃, hpush, hbody, hpop, rfl, hmask⟩

end ChodOs
