/-
The process control block (`process/mod.rs`): states, priorities, messages
and the per-process peer counters that feed the policy engine.

Counters are `Nat`: the kernel is built with overflow checks, so an
addition that would wrap stops the machine. Where the source saturates, the
model does.
-/
import ChodOs.Lib.Slots

namespace ChodOs

abbrev Pid := Nat

/-- `u64::MAX`, where the source's saturating operations stop. -/
def u64Max : Nat := 2 ^ 64 - 1

/-- `u64::saturating_add`. -/
def satAdd (a b : Nat) : Nat := min (a + b) u64Max

inductive ProcessState
  | ready | running | blocked | dead
  deriving DecidableEq, Repr

inductive Priority
  | idle | low | normal | high
  deriving DecidableEq, Repr

/-- A message's fixed payload area. -/
abbrev Payload := { l : List UInt8 // l.length = 64 }

/-- The first 64 bytes, padded with zeros. -/
def pad64 (bs : List UInt8) : Payload := ⟨(bs ++ List.replicate 64 0).take 64, by simp⟩

/-- `Message`: `fastCap` is 0 for a message that carries its own data. -/
structure Message where
  sender : Pid
  len : Nat
  data : Payload
  fastCap : Nat
  deriving DecidableEq

namespace Message

/-- The message `ipc::send` builds on the queue path. -/
def inline (sender : Pid) (bs : List UInt8) : Message :=
  { sender, len := min bs.length 64, data := pad64 bs, fastCap := 0 }

/-- The bytes a receiver gets. -/
def payload (m : Message) : List UInt8 := m.data.1.take m.len

@[simp] theorem inline_sender {p : Pid} {bs : List UInt8} : (inline p bs).sender = p := rfl

/-- What is delivered is the first 64 bytes. -/
@[simp] theorem inline_payload {p : Pid} {bs : List UInt8} : (inline p bs).payload = bs.take 64 := by
  simp only [payload, inline, pad64, List.take_take]
  rw [show min (min bs.length 64) 64 = min 64 bs.length by omega, List.take_append_of_le_length (by omega),
    ← List.take_take, List.take_length]

/-- Only the first 64 bytes matter. -/
theorem inline_take {p : Pid} {bs : List UInt8} {n : Nat} (h : 64 ≤ n) : inline p (bs.take n) = inline p bs := by
  have hd : pad64 (bs.take n) = pad64 bs := by
    simp only [pad64, Subtype.mk.injEq]
    by_cases hb : bs.length ≤ n
    · rw [List.take_of_length_le hb]
    · rw [List.take_append_of_le_length (by simp; omega), List.take_append_of_le_length (by omega),
        List.take_take, Nat.min_eq_left h]
  simp only [inline, hd, List.length_take, mk.injEq, true_and, and_true]
  omega

end Message

/-- `Process`, without its name, kernel stack and handle table. The two
arrays `ipc_peer_pids` and `ipc_peer_counts` are one table of pairs; a
count of 0 marks an unused slot. -/
structure Process where
  pid : Pid
  state : ProcessState
  priority : Priority
  preemptRsp : Nat
  messageQueue : List Message
  forcedPreempts : Nat
  voluntaryYields : Nat
  boostTicks : Nat
  readySinceTick : Nat
  pendingSleepTicks : Nat
  wakeAtTick : Nat
  vruntime : Nat
  runStartTs : Nat
  reaped : Bool
  preferredCpu : Nat
  ipcPeers : Table (Pid × Nat) 8

/-- `u8::MAX`: no preferred CPU. -/
def cpuUnset : Nat := 255

namespace Process

/-- `Process::new`, its stack frame at `rsp`. -/
def new (pid : Pid) (rsp : Nat) : Process where
  pid
  state := .ready
  priority := .normal
  preemptRsp := rsp
  messageQueue := []
  forcedPreempts := 0
  voluntaryYields := 0
  boostTicks := 0
  readySinceTick := 0
  pendingSleepTicks := 0
  wakeAtTick := 0
  vruntime := 0
  runStartTs := 0
  reaped := false
  preferredCpu := cpuUnset
  ipcPeers := .fill 8 (0, 0)

/-- `Process::new_kernel_main`. -/
def newKernelMain : Process := { new 0 0 with state := .running, preferredCpu := 0 }

/-- `Process::reap`: drop the queue of a dead process (its stack stays). -/
def reap (p : Process) : Process := { p with messageQueue := [], reaped := true }

/-- `message_queue.push_back`. -/
def push (msg : Message) (p : Process) : Process := { p with messageQueue := p.messageQueue ++ [msg] }

/-- `message_queue.pop_front`, without the message. -/
def pop (p : Process) : Process := { p with messageQueue := p.messageQueue.tail }

@[simp] theorem push_pid (msg : Message) (p : Process) : (p.push msg).pid = p.pid := rfl
@[simp] theorem pop_pid (p : Process) : p.pop.pid = p.pid := rfl

/-- A used peer slot for `dst`. -/
def isPeer (dst : Pid) (s : Pid × Nat) : Bool := 0 < s.2 && s.1 == dst

/-- The number of sends to `dst` the peer table knows of: 0 when `dst` has no slot. -/
def peerCount (p : Process) (dst : Pid) : Nat := (p.ipcPeers.1.find? (isPeer dst)).elim 0 (·.2)

/-- `Process::record_ipc_send`: the updated count of sends to `dst`. -/
def recordIpcSend (p : Process) (dst : Pid) : Nat × Process :=
  let count := (p.ipcPeers.1.find? (isPeer dst)).elim 1 fun s => satAdd s.2 1
  let peers := p.ipcPeers.upsert (isPeer dst) (·.2 == 0) (fun x b => x.2 < b.2)
    (fun s => (s.1, satAdd s.2 1)) (dst, 1)
  (count, { p with ipcPeers := peers })

@[simp] theorem recordIpcSend_pid (p : Process) (dst : Pid) : (p.recordIpcSend dst).2.pid = p.pid := rfl
@[simp] theorem recordIpcSend_messageQueue (p : Process) (dst : Pid) :
    (p.recordIpcSend dst).2.messageQueue = p.messageQueue := rfl

/-- The count is one more than the peer table knew, until it saturates. -/
theorem recordIpcSend_count (p : Process) (dst : Pid) :
    (p.recordIpcSend dst).1 = satAdd (p.peerCount dst) 1 := by
  simp only [recordIpcSend, peerCount]
  cases p.ipcPeers.1.find? (isPeer dst) with
  | none => rfl
  | some s => rfl

end Process

end ChodOs
