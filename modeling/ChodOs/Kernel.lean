/-
The kernel's globals side by side: the scheduler, the policy engine, the
IPC state, the affinity map, `TIME_SLICE` and `POLICY_ENABLED`; and the
scheduler operations that notify the engine.
-/
import ChodOs.Ipc.Fast
import ChodOs.Policy.Engine
import ChodOs.Scheduler
import ChodOs.Smp

namespace ChodOs

structure Kernel where
  sched : Scheduler
  engine : PolicyEngine
  ipc : IpcState
  affinity : Affinity
  timeSlice : Nat
  policyEnabled : Bool

namespace Kernel

/-- After `scheduler::init`: `kernel_main` alone. -/
def init (mem : ChannelMem) : Kernel where
  sched := .init
  engine := PolicyEngine.newConst.register 0
  ipc := .init mem
  affinity := ∅
  timeSlice := 3
  policyEnabled := true

/-- `Scheduler::spawn`. -/
def spawn (k : Kernel) (p : Process) : Kernel :=
  { k with engine := k.engine.register p.pid, sched := k.sched.spawn p }

/-- `Scheduler::kill`. -/
def kill (k : Kernel) (pid : Pid) : Kernel :=
  { k with sched := k.sched.kill pid, engine := k.engine.unregister pid }

/-- `Scheduler::send_message` by the current process: the engine hears of
the message before anyone looks for the receiver. -/
def sendMessage (k : Kernel) (dst : Pid) (msg : Message) : Bool × Kernel :=
  let src := k.sched.currentPid
  let (count, sched) := k.sched.recordSend dst
  let engine := k.engine.observeIpc src dst count msg.len
  let (ok, sched) := sched.deliver dst msg
  (ok, { k with sched, engine })

/-- A message popped off a queue, as `ipc::recv` returns it: one that names
a capability is refilled from its buffer. `none`: page fault. -/
def fillMessage (k : Kernel) (msg : Message) : Option Message :=
  if msg.fastCap ≠ 0 then
    (k.ipc.readShared msg.fastCap fun data =>
      { Message.inline msg.sender data with fastCap := msg.fastCap }).map (·.getD msg)
  else some msg

end Kernel

end ChodOs
