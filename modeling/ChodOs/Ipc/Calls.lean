/-
`ipc::send` and `ipc::recv` (`process/ipc.rs`): each as one call that runs
to its end, and as the steps between which another task may run.

In the second reading a task that is switched out keeps its place in the
call (`Call`). Channels are created and dropped from the timer interrupt,
so those are single steps, and so is what happens under a lock. `send`
returns with its last step and `recv` with its last, and that is when the
event is reported.
-/
import ChodOs.Kernel
import ChodOs.Lib.Run

namespace ChodOs

open StepSys

/-- What a finished IPC call reports: the bytes given to `send` with its
result, or the message `recv` returned. -/
inductive IpcEvent
  | sent (src dst : Pid) (data : List UInt8) (ok : Bool)
  | received (dst : Pid) (msg : Message)
  deriving DecidableEq

/-! ## Calls that run to their end -/

namespace Kernel

/-- `ipc::send` by the current process. `none`: it waits for a doorbell. -/
def send (k : Kernel) (dst : Pid) (data : List UInt8) : Option (Bool × Kernel) :=
  match k.ipc.getChannel k.sched.currentPid dst with
  | some id => (k.ipc.sendSwitchless id data).map fun (ok, ipc) => (ok, { k with ipc })
  | none => some (k.sendMessage dst (.inline k.sched.currentPid data))

/-- The loop of `ipc::recv` over the incoming channels. `none`: page fault. -/
def pollChannels : IpcState → List (CapId × Pid) → Option (Option Message × IpcState)
  | s, [] => some (none, s)
  | s, (id, src) :: rest =>
    match s.pollSwitchless id 64 with
    | none => none
    | some (none, s) => pollChannels s rest
    | some (some bs, s) => some (some (.inline src bs), s)

/-- The queue of `ipc::recv`. `none`: page fault. -/
def recvQueue (k : Kernel) : Option (Option Message × Kernel) :=
  let (msg, sched) := k.sched.recvMessage
  let k := { k with sched }
  match msg with
  | none => some (none, k)
  | some msg => (k.fillMessage msg).map fun msg => (some msg, k)

/-- `ipc::recv` by the current process: the doorbells of at most eight
channels, then the queue. `none`: page fault. -/
def recv (k : Kernel) : Option (Option Message × Kernel) :=
  match pollChannels k.ipc (k.ipc.findIncomingChannels k.sched.currentPid 8) with
  | none => none
  | some (some msg, ipc) => some (some msg, { k with ipc })
  | some (none, ipc) => { k with ipc }.recvQueue

end Kernel

/-! ## Calls that can be switched out -/

/-- Where a task is in its call. -/
inductive Call
  /-- `get_channel` found `id`; `send_switchless` has not taken the lock yet. -/
  | sendLookup (dst : Pid) (id : CapId) (data : List UInt8)
  /-- Waiting for the doorbell, the write address in hand. -/
  | sendSpin (dst : Pid) (id : CapId) (va : Nat) (data : List UInt8)
  /-- The doorbell was seen empty. -/
  | sendCopy (dst : Pid) (id : CapId) (va : Nat) (data : List UInt8)
  /-- The data is copied. -/
  | sendRing (dst : Pid) (id : CapId) (data : List UInt8)
  /-- `get_channel` found nothing. -/
  | sendQueue (dst : Pid) (data : List UInt8)
  /-- The channels that are still to be polled. -/
  | recvPoll (rest : List (CapId × Pid))
  /-- The doorbell was read as `len`. -/
  | recvCopy (id : CapId) (src : Pid) (len : Nat) (rest : List (CapId × Pid))
  /-- The bytes are copied; the doorbell is still set. -/
  | recvClear (id : CapId) (src : Pid) (bytes : List UInt8)

/-- The kernel with the calls its tasks are in. -/
structure Sys where
  k : Kernel
  calls : Std.ExtTreeMap Pid Call

/-- What can happen next. -/
inductive Act
  | switchTo (i : Nat)
  | send (dst : Pid) (data : List UInt8)
  | recv
  | go
  | ensure (src dst : Pid)
  | drop (src dst : Pid)

namespace Sys

/-- The running task. -/
def me (s : Sys) : Pid := s.k.sched.currentPid

/-- The running task's place becomes `c`. -/
def setCall (s : Sys) (c : Option Call) : Sys :=
  { s with calls := c.elim (s.calls.erase s.me) fun c => s.calls.insert s.me c }

@[simp] theorem getElem?_setCall (s : Sys) (c : Option Call) (q : Pid) :
    (s.setCall c).calls[q]? = if q = s.me then c else s.calls[q]? := by
  cases c <;> simp [setCall, Std.ExtTreeMap.getElem?_erase, Std.ExtTreeMap.getElem?_insert, @eq_comm Pid s.me]

/-- The running task's next step in its call. `none`: page fault. -/
def go (s : Sys) : Call → Option (List IpcEvent × Sys)
  | .sendLookup dst id data =>
    match s.k.ipc.switchlessVa id with
    | none => some ([.sent s.me dst data false], s.setCall none)
    | some va => some ([], s.setCall (some (.sendSpin dst id va data)))
  | .sendSpin dst id va data =>
    if s.k.ipc.doorbells (swSlot id) = 0 then some ([], s.setCall (some (.sendCopy dst id va data)))
    else some ([], s)
  | .sendCopy dst id va data =>
    let ipc := s.k.ipc.switchlessWrite va data
    some ([], { s.setCall (some (.sendRing dst id data)) with k := { s.k with ipc } })
  | .sendRing dst id data =>
    let ipc := s.k.ipc.switchlessRing id data
    some ([.sent s.me dst data true], { s.setCall none with k := { s.k with ipc } })
  | .sendQueue dst data =>
    let (ok, k) := s.k.sendMessage dst (.inline s.me data)
    some ([.sent s.me dst data ok], { s.setCall none with k })
  | .recvPoll [] =>
    s.k.recvQueue.map fun (msg, k) => (msg.toList.map (.received s.me), { s.setCall none with k })
  | .recvPoll ((id, src) :: rest) =>
    let len := s.k.ipc.doorbells (swSlot id)
    if len = 0 then some ([], s.setCall (some (.recvPoll rest)))
    else some ([], s.setCall (some (.recvCopy id src len rest)))
  | .recvCopy id src len rest =>
    match s.k.ipc.switchlessCopy id len 64 with
    | none => none
    | some none => some ([], s.setCall (some (.recvPoll rest)))
    | some (some bs) => some ([], s.setCall (some (.recvClear id src bs)))
  | .recvClear id src bs =>
    let ipc := s.k.ipc.resetDoorbell id
    some ([.received s.me (.inline src bs)], { s.setCall none with k := { s.k with ipc } })

/-- One step. `none`: not possible here. -/
def step (s : Sys) : Act → Option (List IpcEvent × Sys)
  | .switchTo i =>
    if h : i < s.k.sched.processes.length then
      some ([], { s with k := { s.k with sched := s.k.sched.switchTo i h } })
    else none
  | .send dst data =>
    if (s.calls[s.me]?).isNone then
      match s.k.ipc.getChannel s.me dst with
      | some id => some ([], s.setCall (some (.sendLookup dst id data)))
      | none => some ([], s.setCall (some (.sendQueue dst data)))
    else none
  | .recv =>
    if (s.calls[s.me]?).isNone then
      some ([], s.setCall (some (.recvPoll (s.k.ipc.findIncomingChannels s.me 8))))
    else none
  | .go => (s.calls[s.me]?).bind s.go
  | .ensure src dst => (s.k.ipc.ensureChannel src dst).map fun (_, ipc) => ([], { s with k := { s.k with ipc } })
  | .drop src dst => some ([], { s with k := { s.k with ipc := s.k.ipc.dropChannel src dst } })

/-- Tasks at work, nobody in a call, nothing sent and no channel yet. -/
structure Boot (s : Sys) : Prop where
  pids : (s.k.sched.processes.map (·.pid)).Nodup
  queues : ∀ p ∈ s.k.sched.processes, p.messageQueue = []
  idle : s.calls = ∅
  fast : s.k.ipc.fast = ∅
  buffers : s.k.ipc.buffers = ∅

end Sys

/-! ## The two readings agree -/

namespace Sys

theorem setCall_setCall (s : Sys) (c c' : Option Call) : (s.setCall c).setCall c' = s.setCall c' := by
  have hcalls : ((s.setCall c).setCall c').calls = (s.setCall c').calls := by
    refine Std.ExtTreeMap.ext_getElem? fun q => ?_
    have hme : (s.setCall c).me = s.me := rfl
    simp only [getElem?_setCall, hme]
    split <;> rfl
  exact congrArg (Sys.mk s.k) hcalls

theorem setCall_none {s : Sys} (h : s.calls[s.me]? = none) : s.setCall none = s := by
  have hcalls : (s.setCall none).calls = s.calls := by
    refine Std.ExtTreeMap.ext_getElem? fun q => ?_
    rw [getElem?_setCall]
    split
    · next he => rw [he, h]
    · rfl
  exact congrArg (Sys.mk s.k) hcalls

/-- A step does not depend on the place it replaces, unless it waits there. -/
theorem go_setCall (s : Sys) (c : Option Call) (d : Call)
    (hd : ∀ dst id va data, d = .sendSpin dst id va data → s.k.ipc.doorbells (swSlot id) = 0) :
    (s.setCall c).go d = s.go d := by
  have hme : (s.setCall c).me = s.me := rfl
  have hk : (s.setCall c).k = s.k := rfl
  cases d with
  | sendSpin dst id va data =>
    have h0 := hd dst id va data rfl
    simp [go, hk, h0, setCall_setCall]
  | recvPoll rest => cases rest <;> simp [go, hk, hme, setCall_setCall]
  | _ => simp [go, hk, hme, setCall_setCall]

/-- Only the running task acts: a first act, then its own steps. -/
def Solo (first : Act) : List IpcEvent → Sys → Act → Prop := fun _ _ a => a = first ∨ a = .go

section solo
variable {first : Act} {s₀ s s' : Sys} {h es : List IpcEvent} {c : Call}

theorem solo_go (hr : Runs step (Solo first) s₀ h (s.setCall (some c))) (hg : s.go c = some (es, s'))
    (hd : ∀ dst id va data, c = .sendSpin dst id va data → s.k.ipc.doorbells (swSlot id) = 0) :
    Runs step (Solo first) s₀ (h ++ es) s' := by
  have hme : (s.setCall (some c)).me = s.me := rfl
  refine hr.next (.inr rfl) ?_
  simp only [step, getElem?_setCall, hme, if_pos, Option.bind_some]
  rw [go_setCall s (some c) c hd, hg]

/-- The polls of an uninterrupted `recv`. -/
theorem runs_poll {rest : List (CapId × Pid)} {msg : Option Message} {k' : Kernel} (hidle : s.calls[s.me]? = none)
    (hr : Runs step (Solo .recv) s₀ h (s.setCall (some (.recvPoll rest))))
    (hs : (match Kernel.pollChannels s.k.ipc rest with
      | none => none
      | some (some msg, ipc) => some (some msg, { s.k with ipc })
      | some (none, ipc) => { s.k with ipc }.recvQueue) = some (msg, k')) :
    Runs step (Solo .recv) s₀ (h ++ msg.toList.map (.received s.me)) { s with k := k' } := by
  induction rest generalizing h with
  | nil =>
    simp only [Kernel.pollChannels] at hs
    have r := solo_go hr (by simp only [go, hs, Option.map_some]; rfl) nofun
    rwa [setCall_none hidle] at r
  | cons ch rest ih =>
    obtain ⟨id, src⟩ := ch
    simp only [Kernel.pollChannels, IpcState.pollSwitchless] at hs
    by_cases h0 : s.k.ipc.doorbells (swSlot id) = 0
    · simp only [h0, if_pos] at hs
      have r := solo_go hr (by simp only [go, h0, if_pos]; rfl) nofun
      rw [List.append_nil] at r
      exact ih r hs
    · simp only [h0, if_false] at hs
      have r := solo_go hr (by simp only [go, h0, if_false]; rfl) nofun
      rw [List.append_nil] at r
      cases hcopy : s.k.ipc.switchlessCopy id (s.k.ipc.doorbells (swSlot id)) 64 with
      | none => simp only [hcopy] at hs; cases hs
      | some o =>
        cases o with
        | none =>
          simp only [hcopy] at hs
          have r' := solo_go r (by simp only [go, hcopy]; rfl) nofun
          rw [List.append_nil] at r'
          exact ih r' hs
        | some bs =>
          simp only [hcopy, Option.some.injEq, Prod.mk.injEq] at hs
          obtain ⟨rfl, rfl⟩ := hs
          have r' := solo_go r (by simp only [go, hcopy]; rfl) nofun
          have r'' := solo_go r' rfl nofun
          rw [List.append_nil, setCall_none hidle] at r''
          exact r''

/-- An uninterrupted `recv` does what the call does. -/
theorem runs_recv {msg : Option Message} {k' : Kernel} (hidle : s.calls[s.me]? = none)
    (hs : s.k.recv = some (msg, k')) :
    Runs step (Solo .recv) s (msg.toList.map (.received s.me)) { s with k := k' } := by
  have hidle' : (s.calls[s.me]?).isNone = true := by rw [hidle]; rfl
  have r₁ : Runs step (Solo .recv) s [] (s.setCall (some (.recvPoll (s.k.ipc.findIncomingChannels s.me 8)))) :=
    Runs.start.next (.inl rfl) (by simp only [step, hidle', if_pos])
  exact runs_poll hidle r₁ hs

end solo

end Sys

end ChodOs
