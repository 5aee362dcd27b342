/-
The IPC calls with the spin locks they take: `FAST_CHANNELS` around the
registry, `SHARED_BUFFERS` around the buffers. A guard that is a temporary of
an `if let` lives to the end of its block, so `drop_channel` still holds the
first lock when it takes the second. Run without interruption each program
does what the call of the model does.
-/
import ChodOs.Ipc.Calls
import ChodOs.Lib.LockProg

namespace ChodOs

open LockProg Prog

/-- The spin locks. -/
inductive Lock
  | fast | shared | affinity
  deriving DecidableEq, Repr

/-- A piece of kernel code. -/
abbrev Code := Prog Lock Kernel

/-- Change the IPC state. -/
def Kernel.onIpc (k : Kernel) (f : IpcState → IpcState) : Kernel := { k with ipc := f k.ipc }

namespace Code

/-! ## The registry -/

/-- `get_channel`. -/
def getChannel (src dst : Pid) : Code (Option CapId) := locked .fast (peek fun k => k.ipc.getChannel src dst)

/-- `channel_count`. -/
def channelCount : Code Nat := locked .fast (peek fun k => k.ipc.channelCount)

/-- `find_incoming_channels`. -/
def findIncomingChannels (dst : Pid) (max : Nat) : Code (List (CapId × Pid)) :=
  locked .fast (peek fun k => k.ipc.findIncomingChannels dst max)

/-- `alloc_shared_frame`: the frame and the id come before the lock. -/
def allocSharedFrame (owner : Pid) (capacity : Nat) : Code CapId := do
  let (writeVa, readVa, phys) ← attempt fun k => k.ipc.mem.allocChannelFrame.map fun (va, mem) =>
    (va, k.onIpc ({ · with mem }))
  let id ← attempt fun k => some (k.ipc.nextCapId, k.onIpc fun s => { s with nextCapId := s.nextCapId + 1 })
  let buf := { id, data := [], owner, frameBacked := true, writeVa, readVa, phys, frameLen := min capacity 4096 }
  locked .shared (update fun k => k.onIpc fun s => { s with buffers := s.buffers.insert id buf })
  pure id

/-- `verify_channel_isolation`, whose verdict is only logged. -/
def verifyChannelIsolation (id : CapId) : Code Unit :=
  locked .shared (update fun k => k.onIpc fun s => (s.verifyChannelIsolation id).2)

/-- `ensure_channel_cap`. -/
def ensureChannelCap (src dst : Pid) (capacity : Nat) : Code CapId := do
  match ← getChannel src dst with
  | some id => pure id
  | none =>
    let id ← allocSharedFrame src capacity
    update fun k => k.onIpc (·.resetDoorbell id)
    locked .fast (update fun k => k.onIpc fun s => { s with fast := s.fast.insert (src, dst) id })
    verifyChannelIsolation id
    pure id

/-- `ensure_channel`. -/
def ensureChannel (src dst : Pid) : Code CapId := ensureChannelCap src dst 512

/-- `drop_shared`: the frame is freed under the lock. -/
def dropShared (id : CapId) : Code Unit := locked .shared (update fun k => k.onIpc fun s => (s.dropShared id).2)

/-- `drop_channel`. -/
def dropChannel (src dst : Pid) : Code Unit := locked .fast do
  match ← peek fun k => k.ipc.getChannel src dst with
  | none => pure ()
  | some id =>
    update fun k => k.onIpc fun s => { s with fast := s.fast.erase (src, dst) }
    dropShared id

/-! ## Messages -/

/-- `send_switchless`: the lock is given back before the wait. -/
def sendSwitchless (id : CapId) (data : List UInt8) : Code Bool := do
  match ← locked .shared (peek fun k => k.ipc.switchlessVa id) with
  | none => pure false
  | some va =>
    await fun k => k.ipc.doorbells (swSlot id) == 0
    update fun k => k.onIpc (·.switchlessWrite va data)
    update fun k => k.onIpc (·.switchlessRing id data)
    pure true

/-- `poll_switchless`: the doorbell is read before the lock and cleared after it. -/
def pollSwitchless (id : CapId) (n : Nat) : Code (Option (List UInt8)) := do
  let len ← peek fun k => k.ipc.doorbells (swSlot id)
  if len = 0 then pure none
  else
    match ← locked .shared (attempt fun k => (k.ipc.switchlessCopy id len n).map (·, k)) with
    | none => pure none
    | some bs =>
      update fun k => k.onIpc (·.resetDoorbell id)
      pure (some bs)

/-- `ipc::send`. -/
def send (dst : Pid) (data : List UInt8) : Code Bool := do
  let sender ← peek fun k => k.sched.currentPid
  match ← getChannel sender dst with
  | some id => sendSwitchless id data
  | none => attempt fun k => some (k.sendMessage dst (.inline sender data))

/-- The loop of `ipc::recv`. -/
def pollChannels : List (CapId × Pid) → Code (Option Message)
  | [] => pure none
  | (id, src) :: rest => do
    match ← pollSwitchless id 64 with
    | none => pollChannels rest
    | some bs => pure (some (.inline src bs))

/-- The queue of `ipc::recv`. -/
def recvQueue : Code (Option Message) := do
  match ← attempt fun k => some (k.sched.recvMessage.1, { k with sched := k.sched.recvMessage.2 }) with
  | none => pure none
  | some msg =>
    if msg.fastCap = 0 then pure (some msg)
    else locked .shared (attempt fun k => (k.fillMessage msg).map fun msg => (some msg, k))

/-- `ipc::recv`. -/
def recv : Code (Option Message) := do
  let me ← peek fun k => k.sched.currentPid
  match ← pollChannels (← findIncomingChannels me 8) with
  | some msg => pure (some msg)
  | none => recvQueue

/-! ## Without interruption -/

section run
variable (k : Kernel)

@[simp] theorem run_getChannel (src dst : Pid) :
    (getChannel src dst).run k = some (k.ipc.getChannel src dst, k) := by simp [getChannel]

@[simp] theorem run_channelCount : channelCount.run k = some (k.ipc.channelCount, k) := by simp [channelCount]

theorem run_allocSharedFrame (owner : Pid) (capacity : Nat) : (allocSharedFrame owner capacity).run k =
    (k.ipc.allocSharedFrame owner capacity).map fun (id, ipc) => (id, { k with ipc }) := by
  simp only [allocSharedFrame, run_bind, run_attempt, run_locked, run_update, run_pure, IpcState.allocSharedFrame]
  cases k.ipc.mem.allocChannelFrame with
  | none => rfl
  | some r => rfl

@[simp] theorem run_ensureChannel (src dst : Pid) : (ensureChannel src dst).run k =
    (k.ipc.ensureChannel src dst).map fun (id, ipc) => (id, { k with ipc }) := by
  simp only [ensureChannel, ensureChannelCap, run_bind, run_getChannel, Option.bind_some, IpcState.ensureChannel,
    IpcState.ensureChannelCap]
  cases k.ipc.getChannel src dst with
  | some id => rfl
  | none =>
    simp only [run_bind, run_allocSharedFrame]
    cases k.ipc.allocSharedFrame src 512 with
    | none => rfl
    | some r => rfl

@[simp] theorem run_dropChannel (src dst : Pid) :
    (dropChannel src dst).run k = some ((), k.onIpc (·.dropChannel src dst)) := by
  simp only [dropChannel, run_locked, run_bind, run_peek, Option.bind_some, Kernel.onIpc, IpcState.dropChannel]
  cases k.ipc.getChannel src dst <;> rfl

theorem run_sendSwitchless (id : CapId) (data : List UInt8) : (sendSwitchless id data).run k =
    (k.ipc.sendSwitchless id data).map fun (ok, ipc) => (ok, { k with ipc }) := by
  simp only [sendSwitchless, run_bind, run_locked, run_peek, Option.bind_some, IpcState.sendSwitchless]
  cases k.ipc.switchlessVa id with
  | none => rfl
  | some va =>
    by_cases h : k.ipc.doorbells (swSlot id) = 0
    · simp [h, Kernel.onIpc]
    · simp [h]

/-- `ipc::send` without interruption. -/
theorem run_send (dst : Pid) (data : List UInt8) : (send dst data).run k = k.send dst data := by
  simp only [send, run_bind, run_peek, run_getChannel, Option.bind_some, Kernel.send]
  cases k.ipc.getChannel k.sched.currentPid dst with
  | some id => exact run_sendSwitchless k id data
  | none => rfl

theorem run_pollSwitchless (id : CapId) (n : Nat) : (pollSwitchless id n).run k =
    (k.ipc.pollSwitchless id n).map fun (bs, ipc) => (bs, { k with ipc }) := by
  simp only [pollSwitchless, run_bind, run_peek, Option.bind_some, IpcState.pollSwitchless]
  by_cases h : k.ipc.doorbells (swSlot id) = 0
  · simp [h]
  · simp only [h, if_false, run_bind, run_locked, run_attempt]
    cases k.ipc.switchlessCopy id (k.ipc.doorbells (swSlot id)) n with
    | none => rfl
    | some o => cases o <;> rfl

theorem run_pollChannels (l : List (CapId × Pid)) : (pollChannels l).run k =
    (Kernel.pollChannels k.ipc l).map fun (msg, ipc) => (msg, { k with ipc }) := by
  induction l generalizing k with
  | nil => rfl
  | cons ch l ih =>
    obtain ⟨id, src⟩ := ch
    simp only [pollChannels, run_bind, run_pollSwitchless, Kernel.pollChannels]
    cases k.ipc.pollSwitchless id 64 with
    | none => rfl
    | some r =>
      obtain ⟨bs, ipc⟩ := r
      cases bs with
      | none => exact ih { k with ipc }
      | some bs => rfl

theorem run_recvQueue : recvQueue.run k = k.recvQueue := by
  simp only [recvQueue, run_bind, run_attempt, Option.bind_some, Kernel.recvQueue]
  cases k.sched.recvMessage.1 with
  | none => rfl
  | some msg =>
    by_cases h : msg.fastCap = 0
    · simp [h, Kernel.fillMessage]
    · simp only [h, if_false, run_locked, run_attempt]

/-- `ipc::recv` without interruption. -/
theorem run_recv : recv.run k = k.recv := by
  simp only [recv, findIncomingChannels, run_bind, run_peek, run_locked, Option.bind_some, run_pollChannels,
    Kernel.recv]
  cases Kernel.pollChannels k.ipc (k.ipc.findIncomingChannels k.sched.currentPid 8) with
  | none => rfl
  | some r =>
    obtain ⟨msg, ipc⟩ := r
    cases msg with
    | none => exact run_recvQueue { k with ipc }
    | some msg => rfl

end run

end Code

end ChodOs
