/-
Tasks and the timer interrupt on one core. A task goes through its IPC call
one step at a time, taking and giving back locks; the interrupt may come
between any two steps and runs `preempt` and `on_switch` to the end. A lock
that somebody owns is never given back while the handler waits for it.
-/
import ChodOs.Machine
import ChodOs.Policy.Locks

namespace ChodOs

open LockProg Prog StepSys

/-- The calls that take locks. -/
inductive LockedCall
  | send (dst : Pid) (data : List UInt8)
  | recv
  | ensure (src dst : Pid)
  | drop (src dst : Pid)

def LockedCall.code : LockedCall → Code Unit
  | .send dst data => do let _ ← Code.send dst data
  | .recv => do let _ ← Code.recv
  | .ensure src dst => do let _ ← Code.ensureChannel src dst
  | .drop src dst => Code.dropChannel src dst

/-- The call as the machine makes it, at once. -/
def LockedCall.op : LockedCall → Op
  | .send dst data => .send dst data
  | .recv => .recv
  | .ensure src dst => .ensure src dst
  | .drop src dst => .drop src dst

/-- The other calls of a task take none of the locks. -/
def Op.lockFree : Op → Bool
  | .preempt _ _ _ | .send _ _ | .recv | .ensure _ _ | .drop _ _ => false
  | _ => true

/-- The kernel, what is left of each task's call, the owner of each lock, and
whether a handler waits for ever. -/
structure Core where
  k : Kernel
  tasks : Pid → Code Unit
  owner : Lock → Option Pid
  hung : Bool

inductive CoreEvent
  /-- The handler that interrupted `task` waits for a lock of `owner`. -/
  | spins (task : Pid) (l : Lock) (owner : Pid)
  deriving DecidableEq

inductive CoreOp
  /-- The running task begins a call. -/
  | start (c : LockedCall)
  /-- The running task takes the next step of its call. -/
  | go
  /-- The timer interrupt, or a yield of a task that is in no call. -/
  | switch (rsp : Nat) (voluntary : Bool) (c : Clock)
  /-- The running task makes one of the other calls. -/
  | call (a : Op)

namespace Core

/-- The running task. -/
def me (s : Core) : Pid := s.k.sched.currentPid

/-- The running task is in no call. -/
def idle (s : Core) : Bool :=
  match s.tasks s.me with
  | .ret _ => true
  | _ => false

def boot (mem : ChannelMem) : Core where
  k := .init mem
  tasks := fun _ => .ret ()
  owner := fun _ => none
  hung := false

/-- What is left of the running task's call. -/
def setCode (s : Core) (p : Code Unit) : Core := { s with tasks := Function.update s.tasks s.me p }

/-- The next step of the running task. `none`: it waits, or is in no call. -/
def go (s : Core) : Option Core :=
  match s.tasks s.me with
  | .ret _ => none
  | .lock l p =>
    if s.owner l = none then some { s.setCode p with owner := Function.update s.owner l (some s.me) } else none
  | .unlock l p => some { s.setCode p with owner := Function.update s.owner l none }
  | .act f p => (f s.k).map fun k => { s.setCode (p s.k) with k }

/-- `preempt`, then `on_switch`, which waits for ever at the first lock that has an owner. -/
def switch (s : Core) (rsp : Nat) (voluntary : Bool) (c : Clock) : Option (List CoreEvent × Core) :=
  let sched := (s.k.sched.doPreempt rsp voluntary c).2
  let code := Code.onSwitch s.me sched.currentPid c.tick
  let k := { s.k with sched }
  match (code.locks k).find? fun l => (s.owner l).isSome with
  | some l => some ((s.owner l).toList.map (.spins s.me l), { s with hung := true })
  | none => (code.run k).map fun r => ([], { s with k := r.2 })

/-- What can happen next. -/
def step (s : Core) (op : CoreOp) : Option (List CoreEvent × Core) :=
  if s.hung then none
  else
    match op with
    | .start c => if s.idle then some ([], s.setCode c.code) else none
    | .go => s.go.map ([], ·)
    | .switch rsp voluntary c => if voluntary && !s.idle then none else s.switch rsp voluntary c
    | .call a => if s.idle && a.lockFree then (s.k.step a).map fun r => ([], { s with k := r.2 }) else none

/-! ## The calls at once -/

/-- A call that is not interrupted does what the call of the machine does. -/
theorem run_code (c : LockedCall) (k : Kernel) : c.code.run k = (k.step c.op).map fun r => ((), r.2) := by
  cases c with
  | send dst data =>
    simp only [LockedCall.code, LockedCall.op, run_bind, Code.run_send, Kernel.step, Option.map_map]
    cases k.send dst data <;> rfl
  | recv =>
    simp only [LockedCall.code, LockedCall.op, run_bind, Code.run_recv, Kernel.step, Option.map_map]
    cases k.recv <;> rfl
  | ensure src dst =>
    simp only [LockedCall.code, LockedCall.op, run_bind, Code.run_ensureChannel, Kernel.step, Option.map_map]
    cases k.ipc.ensureChannel src dst <;> rfl
  | drop src dst => exact Code.run_dropChannel k src dst

/-- A step of a call leaves the end of the call where it was. -/
theorem go_run {s s' : Core} (h : s.go = some s') : (s'.tasks s.me).run s'.k = (s.tasks s.me).run s.k := by
  simp only [go] at h
  split at h
  · cases h
  · next l p hcode =>
    split at h
    · cases h; simp [setCode, hcode, run]
    · cases h
  · next l p hcode => cases h; simp [setCode, hcode, run]
  · next f p hcode =>
    obtain ⟨k, hk, rfl⟩ := Option.map_eq_some_iff.mp h
    simp [setCode, hcode, run, hk]

/-- A handler that finds all locks free is the preemption of the machine. -/
theorem switch_of_free {s : Core} (h : ∀ l, s.owner l = none) (rsp : Nat) (voluntary : Bool) (c : Clock) :
    s.switch rsp voluntary c = (s.k.preempt rsp voluntary c).map fun r => ([], { s with k := r.2 }) := by
  have hfree : ∀ ls : List Lock, (ls.find? fun l => (s.owner l).isSome) = none := by
    intro ls
    rw [List.find?_eq_none]
    intro l _
    rw [h l]
    decide
  simp only [switch, hfree, Code.run_onSwitch, Kernel.preempt, me, Option.map_map]
  rfl

/-! ## No task takes the affinity map's lock -/

theorem avoids_getChannel (src dst : Pid) : (Code.getChannel src dst).Avoids .affinity :=
  .locked (by decide) (.peek _)

theorem avoids_ensureChannel (src dst : Pid) : (Code.ensureChannel src dst).Avoids .affinity := by
  refine (avoids_getChannel src dst).bind fun o => ?_
  cases o with
  | some id => exact .pure id
  | none =>
    have hfast : ∀ f : Kernel → Kernel, (locked .fast (update f) : Code Unit).Avoids .affinity :=
      fun f => .locked (by decide) (.update f)
    have hshared : ∀ f : Kernel → Kernel, (locked .shared (update f) : Code Unit).Avoids .affinity :=
      fun f => .locked (by decide) (.update f)
    have halloc : (Code.allocSharedFrame src 512).Avoids .affinity :=
      (Avoids.attempt _).bind fun _ => (Avoids.attempt _).bind fun _ => (hshared _).bind fun _ => .pure _
    refine halloc.bind fun id => (Avoids.update _).bind fun _ => ?_
    exact (hfast _).bind fun _ => (hshared _).bind fun _ => .pure _

theorem avoids_dropChannel (src dst : Pid) : (Code.dropChannel src dst).Avoids .affinity := by
  refine .locked (by decide) ((Avoids.peek _).bind fun o => ?_)
  cases o with
  | none => exact .pure ()
  | some id => exact (Avoids.update _).bind fun _ => .locked (by decide) (.update _)

theorem avoids_send (dst : Pid) (data : List UInt8) : (Code.send dst data).Avoids .affinity := by
  refine (Avoids.peek _).bind fun sender => (avoids_getChannel sender dst).bind fun o => ?_
  cases o with
  | none => exact .attempt _
  | some id =>
    refine (Avoids.locked (by decide) (.peek _)).bind fun va => ?_
    cases va with
    | none => exact .pure false
    | some va =>
      refine (Avoids.await _).bind fun _ => ?_
      exact (Avoids.update _).bind fun _ => (Avoids.update _).bind fun _ => .pure true

theorem avoids_pollSwitchless (id : CapId) (n : Nat) : (Code.pollSwitchless id n).Avoids .affinity := by
  refine (Avoids.peek _).bind fun len => ?_
  split
  · exact .pure none
  · refine (Avoids.locked (by decide) (.attempt _)).bind fun o => ?_
    cases o with
    | none => exact .pure none
    | some bs => exact (Avoids.update _).bind fun _ => .pure _

theorem avoids_pollChannels (l : List (CapId × Pid)) : (Code.pollChannels l).Avoids .affinity := by
  induction l with
  | nil => exact .pure none
  | cons ch l ih =>
    refine (avoids_pollSwitchless ch.1 64).bind fun o => ?_
    cases o with
    | none => exact ih
    | some bs => exact .pure _

theorem avoids_recv : Code.recv.Avoids .affinity := by
  refine (Avoids.peek _).bind fun me => (Avoids.locked (by decide) (.peek _)).bind fun chans => ?_
  refine (avoids_pollChannels chans).bind fun o => ?_
  cases o with
  | some msg => exact .pure _
  | none =>
    refine (Avoids.attempt _).bind fun o => ?_
    cases o with
    | none => exact .pure none
    | some msg =>
      simp only
      split
      · exact .pure _
      · exact .locked (by decide) (.attempt _)

theorem avoids_code (c : LockedCall) : c.code.Avoids .affinity := by
  cases c with
  | send dst data => exact (avoids_send dst data).bind fun _ => .pure ()
  | recv => exact avoids_recv.bind fun _ => .pure ()
  | ensure src dst => exact (avoids_ensureChannel src dst).bind fun _ => .pure ()
  | drop src dst => exact avoids_dropChannel src dst

/-- Nobody owns the affinity map's lock between two steps, nor is going to. -/
structure Unpinned (s : Core) : Prop where
  free : s.owner .affinity = none
  tasks : ∀ q, (s.tasks q).Avoids .affinity

theorem Unpinned.setCode {s : Core} (h : s.Unpinned) {p : Code Unit} (hp : p.Avoids .affinity) (q : Pid) :
    ((s.setCode p).tasks q).Avoids .affinity := by
  simp only [Core.setCode, Function.update_apply]
  split
  · exact hp
  · exact h.tasks q

theorem Unpinned.go {s s' : Core} (h : s.Unpinned) (hs : s.go = some s') : s'.Unpinned := by
  have hme := h.tasks s.me
  simp only [Core.go] at hs
  split at hs
  · cases hs
  · next l p hcode =>
    rw [hcode] at hme
    split at hs
    · cases hs
      refine ⟨?_, h.setCode hme.2⟩
      show Function.update s.owner l (some s.me) .affinity = none
      rw [Function.update_of_ne hme.1.symm]
      exact h.free
    · cases hs
  · next l p hcode =>
    rw [hcode] at hme
    cases hs
    refine ⟨?_, h.setCode hme⟩
    show Function.update s.owner l none .affinity = none
    rw [Function.update_apply]
    split
    · rfl
    · exact h.free
  · next f p hcode =>
    rw [hcode] at hme
    obtain ⟨k, -, rfl⟩ := Option.map_eq_some_iff.mp hs
    exact ⟨h.free, h.setCode (hme s.k)⟩

/-! ## Runs -/

/-- A report that is due finds no use for the locks of the task it interrupts. -/
def Clear (_ : List CoreEvent) (s : Core) : CoreOp → Prop
  | .switch _ _ c => s.k.reportDue c.tick = true →
      (s.owner .fast = some s.me → ¬ Code.Asks s.k c.tick .fast) ∧
      (s.owner .shared = some s.me → ¬ Code.Asks s.k c.tick .shared)
  | _ => True

instance (h : List CoreEvent) (s : Core) (op : CoreOp) : Decidable (Clear h s op) := by
  cases op <;> unfold Clear <;> infer_instance

/-- What the handler waits for: a lock with an owner that its report asks for. -/
theorem switch_spins {s s' : Core} {rsp : Nat} {voluntary : Bool} {c : Clock} {es : List CoreEvent}
    (hs : s.switch rsp voluntary c = some (es, s')) {task owner : Pid} {l : Lock} (hmem : .spins task l owner ∈ es) :
    task = s.me ∧ s.owner l = some owner ∧ s.k.reportDue c.tick = true ∧ Code.Asks s.k c.tick l := by
  simp only [switch] at hs
  split at hs
  · next l' hfind =>
    cases hs
    obtain ⟨o, ho, he⟩ := List.mem_map.mp hmem
    cases he
    obtain ⟨hdue, hasks⟩ := Code.mem_locks_onSwitch (List.mem_of_find?_eq_some hfind)
    exact ⟨rfl, by simpa using ho, by simpa [Kernel.reportDue] using hdue, hasks.congr rfl rfl rfl rfl⟩
  · obtain ⟨r, -, he⟩ := Option.map_eq_some_iff.mp hs
    cases he
    cases hmem

/-- Only the handler waits for ever. -/
theorem step_spins {s s' : Core} {op : CoreOp} {es : List CoreEvent} (hs : s.step op = some (es, s'))
    {task owner : Pid} {l : Lock} (hmem : .spins task l owner ∈ es) :
    ∃ rsp voluntary c, op = .switch rsp voluntary c ∧ task = s.me ∧ s.owner l = some owner ∧
      s.k.reportDue c.tick = true ∧ Code.Asks s.k c.tick l := by
  simp only [step] at hs
  split at hs
  · cases hs
  cases op with
  | switch rsp voluntary c =>
    simp only at hs
    split at hs
    · cases hs
    · exact ⟨rsp, voluntary, c, rfl, switch_spins hs hmem⟩
  | start c =>
    simp only at hs
    split at hs <;> cases hs
    cases hmem
  | go =>
    obtain ⟨s₁, -, he⟩ := Option.map_eq_some_iff.mp hs
    cases he
    cases hmem
  | call a =>
    simp only at hs
    split at hs
    · obtain ⟨r, -, he⟩ := Option.map_eq_some_iff.mp hs
      cases he
      cases hmem
    · cases hs

theorem Unpinned.switch {s s' : Core} {rsp : Nat} {voluntary : Bool} {c : Clock} {es : List CoreEvent}
    (h : s.Unpinned) (hs : s.switch rsp voluntary c = some (es, s')) : s'.Unpinned := by
  simp only [Core.switch] at hs
  split at hs
  · cases hs; exact ⟨h.free, h.tasks⟩
  · obtain ⟨r, -, he⟩ := Option.map_eq_some_iff.mp hs
    cases he
    exact ⟨h.free, h.tasks⟩

theorem Unpinned.step {s s' : Core} {op : CoreOp} {es : List CoreEvent} (h : s.Unpinned)
    (hs : s.step op = some (es, s')) : s'.Unpinned := by
  simp only [Core.step] at hs
  split at hs
  · cases hs
  cases op with
  | start c =>
    simp only at hs
    split at hs
    · cases hs; exact ⟨h.free, h.setCode (avoids_code c)⟩
    · cases hs
  | go =>
    obtain ⟨s₁, hgo, he⟩ := Option.map_eq_some_iff.mp hs
    cases he
    exact h.go hgo
  | switch rsp voluntary c =>
    simp only at hs
    split at hs
    · cases hs
    · exact h.switch hs
  | call a =>
    simp only at hs
    split at hs
    · obtain ⟨r, -, he⟩ := Option.map_eq_some_iff.mp hs
      cases he
      exact ⟨h.free, h.tasks⟩
    · cases hs

theorem unpinned_of_runs {mem : ChannelMem} {ok : List CoreEvent → Core → CoreOp → Prop} {h : List CoreEvent}
    {s : Core} (hr : Runs Core.step ok (.boot mem) h s) : s.Unpinned :=
  hr.invariant_state Unpinned ⟨rfl, fun _ => trivial⟩ fun hu _ hs => hu.step hs

/-- **The timer path never waits for the task it interrupted**, where reports
that are due find no use for that task's locks. -/
theorem timer_takes_no_lock_of_its_task {mem : ChannelMem} {h : List CoreEvent} {s : Core}
    (hr : Runs Core.step Clear (.boot mem) h s) (task : Pid) (l : Lock) : .spins task l task ∉ h := by
  induction hr with
  | start => exact nofun
  | next hr hok hs ih =>
    rw [List.mem_append, not_or]
    refine ⟨ih, fun hmem => ?_⟩
    obtain ⟨rsp, voluntary, c, rfl, rfl, howner, hdue, hasks⟩ := step_spins hs hmem
    have hclear := hok hdue
    cases l with
    | fast => exact hclear.1 howner hasks
    | shared => exact hclear.2 howner hasks
    | affinity => rw [(unpinned_of_runs hr).free] at howner; cases howner

/-- The timer interrupt. -/
def timerAt (tick : Nat) : CoreOp := .switch 0 false ⟨tick, 0, 0, 0⟩

/-- Two processes, the first of which runs. -/
def startOps : List CoreOp := [.call (.spawn 0), .call (.spawn 0), .switch 0 true ⟨0, 0, 0, 0⟩]

/-- The first process is about to look for its channel to the second. -/
def lookingOps : List CoreOp := [.start (.send 2 [7]), .go, .go]

/-- A report between two steps of a task that owns `FAST_CHANNELS`. -/
theorem timer_takes_no_lock_in_get_channel : ∃ h s, Runs Core.step Clear (.boot (.ofFrames 16)) h s ∧
    s.owner .fast = some 1 ∧ s.k.engine.lastReportTick = 36 ∧ ∀ task l, .spins task l task ∉ h := by
  obtain ⟨h, s, hr, hP⟩ := Runs.of_exec Core.step Clear (.boot (.ofFrames 16))
    (startOps ++ lookingOps ++ [timerAt 36])
    (fun _ s => decide (s.owner .fast = some 1) && decide (s.k.engine.lastReportTick = 36)) (by decide +kernel)
  simp only [Bool.and_eq_true, decide_eq_true_eq] at hP
  exact ⟨h, s, hr, hP.1, hP.2, timer_takes_no_lock_of_its_task hr⟩

/-- A `send` over the queue, from its start to its end. -/
def sendOps : List CoreOp := lookingOps ++ List.replicate 3 .go

/-- Five messages in the window, and the timer comes while the sixth looks
for its channel: the report looks for the channel of the same pair. -/
theorem timer_waits_for_its_task : ¬ ∀ (mem : ChannelMem) (h : List CoreEvent) (s : Core),
    Runs Core.step free (.boot mem) h s → ∀ task l, .spins task l task ∉ h := by
  intro hall
  obtain ⟨h, s, hr, hP⟩ := Runs.of_exec Core.step free (.boot (.ofFrames 16))
    (startOps ++ (List.replicate 5 sendOps).flatten ++ lookingOps ++ [timerAt 36])
    (fun h _ => decide (.spins 1 .fast 1 ∈ h)) (by decide +kernel)
  exact hall _ h s hr 1 .fast (of_decide_eq_true hP)

/-- A report that is due finds no use for the locks of any task, running or switched away from. -/
def AllClear (_ : List CoreEvent) (s : Core) : CoreOp → Prop
  | .switch _ _ c => s.k.reportDue c.tick = true → ∀ l ∈ [Lock.fast, .shared],
      s.owner l ≠ none → ¬ Code.Asks s.k c.tick l
  | _ => True

/-- **The timer path never waits at all** where reports that are due find no
use for the locks that are owned: a task that was switched away from keeps its
locks, and the handler would wait for them no less. -/
theorem timer_never_waits {mem : ChannelMem} {h : List CoreEvent} {s : Core}
    (hr : Runs Core.step AllClear (.boot mem) h s) (task owner : Pid) (l : Lock) : .spins task l owner ∉ h := by
  induction hr with
  | start => exact nofun
  | @next h₀ s₀ op es s' hr hok hs ih =>
    rw [List.mem_append, not_or]
    refine ⟨ih, fun hmem => ?_⟩
    obtain ⟨rsp, voluntary, c, rfl, rfl, howner, hdue, hasks⟩ := step_spins hs hmem
    have hheld : s₀.owner l ≠ none := by rw [howner]; exact nofun
    cases l with
    | fast => exact hok hdue .fast (by decide) hheld hasks
    | shared => exact hok hdue .shared (by decide) hheld hasks
    | affinity => exact hheld (unpinned_of_runs hr).free

end Core

end ChodOs
