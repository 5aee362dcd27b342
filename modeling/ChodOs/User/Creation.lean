/-
Whether `fork_current` and `clone_thread` are all or nothing. A free slot is
looked for last, when the pid is taken and the tid words are stored, and a
table without one is no error: both return the pid of a process that does
not exist.
-/
import ChodOs.User.Sessions

namespace ChodOs

open StepSys UserSys

/-- The words of the frame at `dst` are those that were at `src`, but for
`rax`, which is 0, and for `rsp`, if a stack is given. -/
def FrameCopied (m m' : ByteMem) (src dst childStack : Nat) : Prop :=
  ∀ k < 14, m'.word (dst + 8 * k) =
    if k = 8 then 0 else if k = 12 ∧ childStack ≠ 0 then childStack % 2 ^ 64 else m.word (src + 8 * k)

/-- One slot more is taken, by a ready process with this pid, with the caller for its parent and a copy of its frame. -/
def Spawned (s : UserSys) (fr childStack pid : Nat) (s' : UserSys) : Prop :=
  ∃ i p q, s.procs.cur = some p ∧ s.procs.at? i = none ∧
    (∀ j, s'.procs.at? j = if i = j then some q else s.procs.at? j) ∧ s'.procs.current = s.procs.current ∧
    q.pid = pid ∧ q.state = .ready ∧ q.parentPid = p.pid ∧ FrameCopied s.mem s'.mem fr q.savedFrameRsp childStack

/-- An error, which leaves the table and the user's memory. -/
def Refused (s : UserSys) (r : Nat) (s' : UserSys) : Prop :=
  r = errno 1 ∧ s'.procs = s.procs ∧ ∀ a < userEnd, s'.mem a = s.mem a

/-- A result with the state it comes with. -/
def AllOrNothing (s : UserSys) (fr childStack : Nat) (r : Nat × UserSys) : Prop :=
  Spawned s fr childStack r.1 r.2 ∨ Refused s r.1 r.2

variable {s s' : UserSys} {p q : UserProc} {fr kstack a v x : Nat}

/-! ## The new frame -/

/-- The kernel's half shows the same in every space. -/
theorem mem_cloneSpace_kernel {src cr3 : Nat} (hx : userEnd ≤ x) : (s.cloneSpace src cr3).mem x = s.mem x := by
  rw [mem, mem, if_neg (by omega), if_neg (by omega)]
  rfl

/-- A store for the user does not reach far into the kernel's half. -/
theorem mem_storeUser32_kernel (hx : userEnd + 3 ≤ x) : (s.storeUser32 a v).mem x = s.mem x := by
  unfold storeUser32
  split
  · next ha =>
    rw [store32, mem_setMem, ByteMem.patch_outside (by omega)]
  · rfl

/-- Memory that shows the same from the frames on has the same frames. -/
theorem FrameCopied.congr {m₁ m₁' m m' : ByteMem} {src dst childStack : Nat} (h : FrameCopied m₁ m₁' src dst childStack)
    (hsrc : ∀ x, src ≤ x → m x = m₁ x) (hdst : ∀ x, dst ≤ x → m' x = m₁' x) : FrameCopied m m' src dst childStack := by
  intro k hk
  have hcopy : m'.word (dst + 8 * k) = m₁'.word (dst + 8 * k) := ByteMem.word_congr fun x hx _ => hdst x (by omega)
  have horig : m.word (src + 8 * k) = m₁.word (src + 8 * k) := ByteMem.word_congr fun x hx _ => hsrc x (by omega)
  rw [hcopy, horig, h k hk]

/-- A copy of the frame with 0 for the result. -/
theorem frame_childFrame (s : UserSys) (fr kstack : Nat) :
    FrameCopied s.mem (s.childFrame fr kstack).mem fr (kstack + kstackSize - isrFrameSize) 0 := by
  intro k hk
  have hmem : (s.childFrame fr kstack).mem = (s.mem.patch (kstack + kstackSize - isrFrameSize) isrFrameSize
      fun i => s.mem (fr + i)).setWord (kstack + kstackSize - isrFrameSize + 0x40) 0 := by
    rw [childFrame, mem_store, copyFrame, mem_setMem]
  rw [hmem]
  split
  · next h8 =>
    subst h8
    rw [ByteMem.word_setWord_self]
    rfl
  · next h8 =>
    rw [if_neg (fun h => h.2 rfl), ByteMem.word_setWord_of_disjoint (by omega)]
    refine ByteMem.word_of_bytes_eq fun i hi => ?_
    rw [Nat.add_assoc, ByteMem.patch_inside (by rw [isrFrameSize]; omega), Nat.add_assoc]

/-- The stack that `clone` is given goes into the frame. -/
theorem frame_childStack (s : UserSys) (fr kstack childStack : Nat) :
    FrameCopied s.mem
      (if childStack ≠ 0 then
        (s.childFrame fr kstack).store (kstack + kstackSize - isrFrameSize + 0x60) childStack
      else s.childFrame fr kstack).mem fr (kstack + kstackSize - isrFrameSize) childStack := by
  have hframe := frame_childFrame s fr kstack
  split
  · next hstack =>
    intro k hk
    rw [mem_store]
    by_cases h12 : k = 12
    · subst h12
      rw [ByteMem.word_setWord_self, if_neg (by decide), if_pos ⟨rfl, hstack⟩]
    · rw [ByteMem.word_setWord_of_disjoint (by omega), hframe k hk]
      simp only [h12, false_and, if_false]
  · next hstack =>
    obtain rfl := not_not.mp hstack
    exact hframe

theorem frame_forkCurrent (hc : s.procs.cur = some p) (hfr : userEnd ≤ fr) (newCr3 kstack : Nat) :
    FrameCopied s.mem (s.forkCurrent fr newCr3 kstack).2.mem fr (kstack + kstackSize - isrFrameSize) 0 := by
  simp only [forkCurrent, hc]
  exact (frame_childFrame (s.allocPid.2.cloneSpace p.userCr3 newCr3) fr kstack).congr
    (fun x hx => (mem_cloneSpace_kernel (by omega)).symm) fun x _ => rfl

theorem frame_cloneThread (hc : s.procs.cur = some p) (hk : userEnd ≤ kstack) (flags : BitVec 64)
    (childStack parentTid childTid newtls fr newCr3 : Nat) :
    FrameCopied s.mem (s.cloneThread flags childStack parentTid childTid newtls fr newCr3 kstack).2.mem fr
      (kstack + kstackSize - isrFrameSize) childStack := by
  simp only [cloneThread, hc]
  refine (frame_childStack s.allocPid.2 fr kstack childStack).congr (fun x _ => rfl) fun x hx => ?_
  have hx' : userEnd + 3 ≤ x := by
    rw [kstackSize, isrFrameSize] at hx
    omega
  have htid : ∀ (s : UserSys) (set : Bool) (a v : Nat), (if set then s.storeUser32 a v else s).mem x = s.mem x := by
    intro s set a v
    split
    · exact mem_storeUser32_kernel hx'
    · rfl
  refine (?_ : UserSys.mem _ x = _).trans ((htid _ (flags.getLsbD cloneChildSettid) childTid s.nextPid).trans
    (htid _ (flags.getLsbD cloneParentSettid) parentTid s.nextPid))
  -- the space is the last thing to be copied
  have hkernel : ∀ s : UserSys, s.mem x = s.kernelMem x := fun s => if_neg (by omega)
  rw [hkernel, hkernel]
  split <;> rfl

/-! ## All or nothing -/

/-- With a free slot the new process is there, and without one a pid is all there is. -/
theorem allOrNothing_insert {childStack pid : Nat} (hc : s.procs.cur = some p) (hprocs : s'.procs = s.procs.insert q)
    (hpid : q.pid = pid) (hlt : pid < errno 1) (hready : q.state = .ready) (hparent : q.parentPid = p.pid)
    (hframe : FrameCopied s.mem s'.mem fr q.savedFrameRsp childStack) :
    AllOrNothing s fr childStack (pid, s') ↔ ∃ i < Uprocs.maxProcs, s.procs.at? i = none := by
  rcases Uprocs.insert_cases s.procs q with ⟨hfull, hsame⟩ | ⟨i, hi, hnone, hat⟩
  · constructor
    · intro h
      rcases h with ⟨i, p', q', -, hnone, hat, -⟩ | ⟨hr, -, -⟩
      · have hi : i < Uprocs.maxProcs := Uprocs.at?_lt ((hat i).trans (if_pos rfl))
        exact absurd hnone (hfull i hi)
      · exact absurd hr (Nat.ne_of_lt hlt)
    · intro h
      obtain ⟨i, hi, hnone⟩ := h
      exact absurd hnone (hfull i hi)
  · refine iff_of_true (.inl ⟨i, p, q, hc, hnone, fun j => ?_, ?_, hpid, hready, hparent, hframe⟩) ⟨i, hi, hnone⟩
    · rw [hprocs, hat]
    · rw [hprocs, Uprocs.current_insert]

/-- A current process, or a free slot for a new one. -/
def CanCreate (u : Uprocs) : Prop := u.cur = none ∨ ∃ i < Uprocs.maxProcs, u.at? i = none

theorem canCreate_iff (hc : s.procs.cur = some p) :
    CanCreate s.procs ↔ ∃ i < Uprocs.maxProcs, s.procs.at? i = none := by
  rw [CanCreate, hc, or_iff_right (Option.some_ne_none p)]

theorem allOrNothing_refused (hc : s.procs.cur = none) (childStack : Nat) :
    AllOrNothing s fr childStack (errno 1, s) ↔ CanCreate s.procs :=
  iff_of_true (.inr ⟨rfl, rfl, fun _ _ => rfl⟩) (.inl hc)

theorem forkCurrent_allOrNothing (hfr : userEnd ≤ fr) (hpid : s.nextPid < errno 1) (newCr3 kstack : Nat) :
    AllOrNothing s fr 0 (s.forkCurrent fr newCr3 kstack) ↔ CanCreate s.procs := by
  cases hc : s.procs.cur with
  | none =>
    simp only [forkCurrent, hc]
    exact allOrNothing_refused hc 0
  | some p =>
    have hframe := frame_forkCurrent hc hfr newCr3 kstack
    have heff := call_effect hc (.fork fr newCr3 kstack)
    simp only [call] at heff
    generalize s.forkCurrent fr newCr3 kstack = r at heff hframe
    obtain ⟨pid, s'⟩ := r
    rw [canCreate_iff hc]
    cases heff with
    | quiet hquiet => cases hquiet
    | fork _ _ hprocs => exact allOrNothing_insert hc hprocs rfl hpid rfl rfl hframe

theorem cloneThread_allOrNothing (hk : userEnd ≤ kstack) (hpid : s.nextPid < errno 1) (flags : BitVec 64)
    (childStack parentTid childTid newtls fr newCr3 : Nat) :
    AllOrNothing s fr childStack (s.cloneThread flags childStack parentTid childTid newtls fr newCr3 kstack) ↔
      CanCreate s.procs := by
  cases hc : s.procs.cur with
  | none =>
    simp only [cloneThread, hc]
    exact allOrNothing_refused hc childStack
  | some p =>
    have hframe := frame_cloneThread hc hk flags childStack parentTid childTid newtls fr newCr3
    have heff := call_effect hc (.clone flags childStack parentTid childTid newtls fr newCr3 kstack)
    simp only [call] at heff
    generalize s.cloneThread flags childStack parentTid childTid newtls fr newCr3 kstack = r at heff hframe
    obtain ⟨pid, s'⟩ := r
    rw [canCreate_iff hc]
    cases heff with
    | quiet hquiet => cases hquiet
    | clone _ _ hprocs => exact allOrNothing_insert hc hprocs rfl hpid rfl rfl hframe

/-- `fork_current` and `clone_thread` are all or nothing exactly when there is
no current process, which is an error, or a free slot. The frame and the new
stack are in the kernel's half, and the pids have not run out. -/
theorem creation_all_or_nothing_iff (hfr : userEnd ≤ fr) (hk : userEnd ≤ kstack) (hpid : s.nextPid < errno 1)
    (flags : BitVec 64) (childStack parentTid childTid newtls newCr3 : Nat) :
    (AllOrNothing s fr 0 (s.forkCurrent fr newCr3 kstack) ↔
        s.procs.cur = none ∨ ∃ i < Uprocs.maxProcs, s.procs.at? i = none) ∧
      (AllOrNothing s fr childStack
          (s.cloneThread flags childStack parentTid childTid newtls fr newCr3 kstack) ↔
        s.procs.cur = none ∨ ∃ i < Uprocs.maxProcs, s.procs.at? i = none) :=
  ⟨forkCurrent_allOrNothing hfr hpid newCr3 kstack,
    cloneThread_allOrNothing hk hpid flags childStack parentTid childTid newtls fr newCr3⟩

/-- A program alone in the table forks. -/
theorem creation_all_or_nothing_first : ∃ s : UserSys, s.procs.cur.isSome ∧
    AllOrNothing s userEnd 0 (s.forkCurrent userEnd 6 (userEnd + 0x20000)) := by
  obtain ⟨-, s, -, hP⟩ := Runs.of_exec Session.step free (.boot (fun _ => 0) (fun _ _ => 0) 0 0 1) [.start 5 userEnd]
    (fun _ s => s.sys.procs.cur.isSome && decide (s.sys.nextPid < errno 1) && (s.sys.procs.at? 1).isNone)
    (by decide)
  simp only [Bool.and_eq_true, decide_eq_true_eq, Option.isNone_iff_eq_none] at hP
  obtain ⟨⟨hc, hpid⟩, hnone⟩ := hP
  have hfresh : userEnd ≤ userEnd + 0x20000 := by omega
  exact ⟨s.sys, hc, (creation_all_or_nothing_iff (Nat.le_refl userEnd) hfresh hpid 0#64 0 0 0 0 6).1.mpr
    (.inr ⟨1, by decide, hnone⟩)⟩

/-- A program that has forked 15 times fills the table; the next fork and the
next clone return the pid of a process that is not there. -/
theorem creation_without_slot : ∃ (h : List SessionOp) (s : Session),
    Runs Session.step free (.boot (fun _ => 0) (fun _ _ => 0) 0 0 1) h s ∧
    ¬AllOrNothing s.sys userEnd 0 (s.sys.forkCurrent userEnd 6 (userEnd + 0x20000)) ∧
    ¬AllOrNothing s.sys userEnd 0 (s.sys.cloneThread 0x110100#64 0 0x1000 0 0 userEnd 6 (userEnd + 0x20000)) := by
  obtain ⟨h, s, hr, hP⟩ := Runs.of_exec Session.step free (.boot (fun _ => 0) (fun _ _ => 0) 0 0 1)
    (.start 5 userEnd :: List.replicate 15 (.call (.fork userEnd 6 (userEnd + 0x20000))))
    (fun _ s => s.sys.procs.cur.isSome && decide (s.sys.nextPid < errno 1) &&
      (List.range Uprocs.maxProcs).all fun i => (s.sys.procs.at? i).isSome)
    (by decide)
  simp only [Bool.and_eq_true, decide_eq_true_eq, List.all_eq_true, List.mem_range] at hP
  obtain ⟨⟨hc, hpid⟩, hfull⟩ := hP
  have hno : ¬CanCreate s.sys.procs := by
    intro h
    rcases h with hnone | ⟨i, hi, hnone⟩
    · rw [hnone] at hc
      cases hc
    · have hsome := hfull i hi
      rw [hnone] at hsome
      cases hsome
  exact ⟨h, s, hr, fun h => hno ((forkCurrent_allOrNothing (Nat.le_refl userEnd) hpid 6 _).mp h),
    fun h => hno ((cloneThread_allOrNothing (by omega) hpid 0x110100#64 0 0x1000 0 0 userEnd 6).mp h)⟩

end ChodOs
