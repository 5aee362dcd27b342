/-
The process table and what IPC and the policy engine do to it
(`process/scheduler.rs`). Lookups by pid take the first process that has it.
-/
import ChodOs.Process
import Mathlib.Data.List.Nodup

namespace ChodOs

inductive SchedMode
  | weightedPriority | cfs
  deriving DecidableEq, Repr

/-- `Scheduler` after `init`, with `SCHED_MODE`: there is a current process. -/
structure Scheduler where
  processes : List Process
  current : Nat
  nextPid : Pid
  remainingQuanta : Nat
  mode : SchedMode
  current_lt : current < processes.length

namespace Scheduler

/-- `init`: the table holds `kernel_main`. -/
def init : Scheduler where
  processes := [.newKernelMain]
  current := 0
  nextPid := 1
  remainingQuanta := 1
  mode := .weightedPriority
  current_lt := by decide

/-- The process that runs. -/
def cur (s : Scheduler) : Process := s.processes.get ⟨s.current, s.current_lt⟩

/-- `current_pid`. -/
def currentPid (s : Scheduler) : Pid := s.cur.pid

/-- `alloc_pid`. -/
def allocPid (s : Scheduler) : Pid × Scheduler := (s.nextPid, { s with nextPid := s.nextPid + 1 })

/-- Rewrite the current process. -/
def updateCurrent (s : Scheduler) (f : Process → Process) : Scheduler :=
  { s with processes := s.processes.modify s.current f, current_lt := by simpa using s.current_lt }

/-- Rewrite the first process with a pid. -/
def updatePid (s : Scheduler) (pid : Pid) (f : Process → Process) : Scheduler :=
  { s with processes := Slots.updateFirst (·.pid == pid) f s.processes, current_lt := by simpa using s.current_lt }

/-- The first process with a pid. -/
def find (s : Scheduler) (pid : Pid) : Option Process := s.processes.find? (·.pid == pid)

/-- A process with this pid is in the table. -/
def has (s : Scheduler) (pid : Pid) : Bool := s.processes.any (·.pid == pid)

/-- Another process is switched in. -/
def switchTo (s : Scheduler) (i : Nat) (h : i < s.processes.length) : Scheduler :=
  { s with current := i, current_lt := h }

/-- `Scheduler::spawn`, without its `register_pid`: under CFS a new process
starts at the least `vruntime` of the ready ones. -/
def spawn (s : Scheduler) (p : Process) : Scheduler :=
  let ready := (s.processes.filter (·.state = .ready)).map (·.vruntime)
  let p := if s.mode = .cfs then { p with vruntime := ready.min?.getD p.vruntime } else p
  { s with processes := s.processes ++ [p], current_lt := by have := s.current_lt; simp; omega }

theorem spawn_processes (s : Scheduler) (p : Process) :
    ∃ v, (s.spawn p).processes = s.processes ++ [{ p with vruntime := v }] := by
  simp only [spawn]
  split
  · exact ⟨_, rfl⟩
  · exact ⟨p.vruntime, rfl⟩

/-- `Scheduler::kill`, without its `unregister_pid`. -/
def kill (s : Scheduler) (pid : Pid) : Scheduler := s.updatePid pid fun p => { p with state := .dead }

/-- `reap_dead`: every dead process but the current one loses its queue, once. -/
def reapDead (s : Scheduler) : Scheduler :=
  { s with
    processes := s.processes.mapIdx fun i p => if i ≠ s.current ∧ p.state = .dead ∧ !p.reaped then p.reap else p
    current_lt := by simpa using s.current_lt }

/-- `set_priority`. -/
def setPriority (s : Scheduler) (pid : Pid) (pri : Priority) : Scheduler :=
  s.updatePid pid fun p => { p with priority := pri }

/-- `get_priority`: `Normal` for an unknown pid. -/
def getPriority (s : Scheduler) (pid : Pid) : Priority := (s.find pid).elim .normal (·.priority)

/-- `set_preferred_cpu`. -/
def setPreferredCpu (s : Scheduler) (pid : Pid) (cpu : Nat) : Scheduler :=
  s.updatePid pid fun p => { p with preferredCpu := cpu }

/-- `get_stats`: the voluntary yields and the forced preemptions. -/
def getStats (s : Scheduler) (pid : Pid) : Option (Nat × Nat) :=
  (s.find pid).map fun p => (p.voluntaryYields, p.forcedPreempts)

/-- `recv_message`: the front of the current process's queue. -/
def recvMessage (s : Scheduler) : Option Message × Scheduler :=
  (s.cur.messageQueue.head?, s.updateCurrent Process.pop)

/-- `record_ipc_send` of the current process. -/
def recordSend (s : Scheduler) (dst : Pid) : Nat × Scheduler :=
  ((s.cur.recordIpcSend dst).1, s.updateCurrent fun p => (p.recordIpcSend dst).2)

/-- The delivery of `send_message`: `false` when nobody has the pid. -/
def deliver (s : Scheduler) (dst : Pid) (msg : Message) : Bool × Scheduler :=
  (s.has dst, s.updatePid dst (Process.push msg))

/-! ## Lookups after an update -/

/-- Every process has a pid of its own, as `alloc_pid` hands them out. -/
def PidsDistinct (s : Scheduler) : Prop := (s.processes.map (·.pid)).Nodup

theorem find_eq_none {s : Scheduler} {pid : Pid} : s.find pid = none ↔ s.has pid = false := by
  simp [find, has]

theorem find_pid {s : Scheduler} {pid : Pid} {p : Process} (h : s.find pid = some p) : p.pid = pid := by
  simpa using List.find?_some h

/-- A lookup sees no more of the processes than a projection that has the pid. -/
theorem find_congr {β : Type} {f : Process → β} (pid : β → Pid) (hpid : ∀ p, pid (f p) = p.pid) {s s' : Scheduler}
    (h : s'.processes.map f = s.processes.map f) (q : Pid) : (s'.find q).map f = (s.find q).map f := by
  have key : ∀ t : Scheduler, (t.find q).map f = (t.processes.map f).find? fun b => pid b == q := by
    intro t
    simp only [find, List.find?_map, Function.comp_def, hpid]
  rw [key, key, h]

/-- An update by pid that keeps the pid changes that lookup only. -/
theorem find_updatePid {s : Scheduler} {pid : Pid} {f : Process → Process} (hf : ∀ p, (f p).pid = p.pid) (q : Pid) :
    (s.updatePid pid f).find q = if q = pid then (s.find q).map f else s.find q := by
  simp only [find, updatePid]
  split
  · next he =>
    subst he
    exact Slots.find?_updateFirst_self (fun p hp => by simpa [hf p] using hp) _
  · next hne =>
    refine Slots.find?_updateFirst_other (fun p hp => ?_) _
    have hp : p.pid = pid := by simpa using hp
    simp [hf, hp, Ne.symm hne]

theorem find_setPreferredCpu (s : Scheduler) (pid : Pid) (cpu : Nat) (q : Pid) : (s.setPreferredCpu pid cpu).find q =
    if q = pid then (s.find q).map fun p => { p with preferredCpu := cpu } else s.find q :=
  find_updatePid (f := fun p => { p with preferredCpu := cpu }) (fun _ => rfl) q

theorem find_setPriority (s : Scheduler) (pid : Pid) (pri : Priority) (q : Pid) : (s.setPriority pid pri).find q =
    if q = pid then (s.find q).map fun p => { p with priority := pri } else s.find q :=
  find_updatePid (f := fun p => { p with priority := pri }) (fun _ => rfl) q

/-- A projection that an update keeps sees the same processes. -/
theorem map_updatePid {β : Type} {s : Scheduler} (pid : Pid) {f : Process → Process} {g : Process → β}
    (hf : ∀ p, g (f p) = g p) : (s.updatePid pid f).processes.map g = s.processes.map g :=
  Slots.map_updateFirst (fun p _ => hf p) _

theorem map_updateCurrent {β : Type} {s : Scheduler} {f : Process → Process} {g : Process → β}
    (hf : ∀ p, g (f p) = g p) : (s.updateCurrent f).processes.map g = s.processes.map g :=
  Slots.map_modify hf _ _

theorem pids_updatePid {s : Scheduler} {pid : Pid} {f : Process → Process} (hf : ∀ p, (f p).pid = p.pid) :
    (s.updatePid pid f).processes.map (·.pid) = s.processes.map (·.pid) :=
  map_updatePid pid hf

theorem PidsDistinct.updatePid {s : Scheduler} (h : s.PidsDistinct) {pid : Pid} {f : Process → Process}
    (hf : ∀ p, (f p).pid = p.pid) : (s.updatePid pid f).PidsDistinct := by
  simpa only [PidsDistinct, pids_updatePid hf] using h

theorem has_congr {s s' : Scheduler} (h : s'.processes.map (·.pid) = s.processes.map (·.pid)) (q : Pid) :
    s'.has q = s.has q := by
  have key : ∀ t : Scheduler, t.has q = (t.processes.map (·.pid)).any (· == q) := fun t => by
    simp [has, Function.comp_def]
  rw [key, key, h]

theorem has_updatePid {s : Scheduler} {pid : Pid} {f : Process → Process} (hf : ∀ p, (f p).pid = p.pid) (q : Pid) :
    (s.updatePid pid f).has q = s.has q := has_congr (pids_updatePid hf) q

theorem currentPid_eq (s : Scheduler) : some s.currentPid = (s.processes.map (·.pid))[s.current]? := by
  have := s.current_lt
  simp [currentPid, cur, this]

theorem currentPid_updatePid {s : Scheduler} {pid : Pid} {f : Process → Process} (hf : ∀ p, (f p).pid = p.pid) :
    (s.updatePid pid f).currentPid = s.currentPid := by
  refine Option.some.inj ?_
  rw [currentPid_eq, currentPid_eq, pids_updatePid hf]; rfl

/-- The current process is the one its pid finds. -/
theorem updateCurrent_eq {s : Scheduler} (h : s.PidsDistinct) (f : Process → Process) :
    s.updateCurrent f = s.updatePid s.currentPid f := by
  simp only [updateCurrent, updatePid, mk.injEq, and_true]
  exact Slots.modify_eq_updateFirst h s.current s.current_lt

theorem find_currentPid {s : Scheduler} (h : s.PidsDistinct) : s.find s.currentPid = some s.cur := by
  have hmem : s.cur ∈ s.processes := List.get_mem _ _
  cases hf : s.find s.currentPid with
  | none => simp [find] at hf; exact absurd rfl (hf _ hmem)
  | some p =>
    have hp : p ∈ s.processes := List.mem_of_find?_eq_some hf
    rw [List.inj_on_of_nodup_map h hp hmem (find_pid hf)]

end Scheduler

end ChodOs
