/-
The kernel as one machine: every call that reaches the process table, the
policy engine or the channels, each running to its end, in any order and
with any arguments. What the theorems need of a call is said once, by
`Kernel.Effect`, and what every reachable state has by `Kernel.Wf`.
-/
import ChodOs.Ipc.Queue
import ChodOs.Policy.Tables
import ChodOs.Preempt

namespace ChodOs

open StepSys

/-! ## Calls -/

/-- What a call reports. -/
inductive KernelEvent
  | ipc (e : IpcEvent)
  /-- `send_message` told the engine of a message. -/
  | queued (src dst : Pid)
  | policy (e : PolicyEvent)
  /-- A report ended. -/
  | report
  deriving DecidableEq

/-- The calls. `observe`, `ensure`, `drop` and `mmap` of any process are
what the boot-time demonstrations call directly. -/
inductive Op
  | preempt (rsp : Nat) (voluntary : Bool) (c : Clock)
  | exit (rsp : Nat) (c : Clock)
  | sleep (ticks : Nat)
  | setMode (mode : SchedMode)
  | keyboardBoost
  | boostPid (pid : Pid) (ticks : Nat)
  | spawn (rsp : Nat)
  | kill (pid : Pid)
  | reapDead
  | send (dst : Pid) (data : List UInt8)
  | recv
  | mmap (pid : Pid)
  | pageFault (pid : Pid)
  | observe (src dst : Pid) (count bytes : Nat)
  | ensure (src dst : Pid)
  | drop (src dst : Pid)
  | setEnabled (enabled : Bool)

/-- The current process yields at a tick. -/
def yieldAt (tick : Nat) : Op := .preempt 0 true { tick, tscOut := 0, tscIn := 0, cpu := 0 }

namespace Kernel

/-- `scheduler::preempt` and `voluntary_preempt`: switch, then tell the engine. -/
def preempt (k : Kernel) (rsp : Nat) (voluntary : Bool) (c : Clock) : Option (List PolicyEvent × Kernel) :=
  let sched := (k.sched.doPreempt rsp voluntary c).2
  { k with sched }.onSwitch k.sched.currentPid sched.currentPid c.tick

/-- `exit_current_rsp`. -/
def exitCurrent (k : Kernel) (rsp : Nat) (c : Clock) : Kernel :=
  { k with sched := (k.sched.exitCurrent rsp c).2, engine := k.engine.unregister k.sched.currentPid }

/-- A new process with a new pid. -/
def spawnNew (k : Kernel) (rsp : Nat) : Kernel :=
  let (pid, sched) := k.sched.allocPid
  { k with sched }.spawn (.new pid rsp)

/-- The switch at this tick ends with a report. -/
def reportDue (k : Kernel) (tick : Nat) : Bool := decide (k.engine.lastReportTick + k.engine.reportInterval ≤ tick)

/-- One call. `none`: it waits, faults or finds no memory. -/
def step (k : Kernel) : Op → Option (List KernelEvent × Kernel)
  | .preempt rsp voluntary c => (k.preempt rsp voluntary c).map fun (log, k') =>
      (log.map .policy ++ if k.reportDue c.tick then [.report] else [], k')
  | .exit rsp c => some ([], k.exitCurrent rsp c)
  | .sleep ticks => some ([], { k with sched := k.sched.requestSleep ticks })
  | .setMode mode => some ([], { k with sched := k.sched.setMode mode })
  | .keyboardBoost => some ([], if k.policyEnabled then { k with sched := k.sched.keyboardBoost } else k)
  | .boostPid pid ticks => some ([], if k.policyEnabled then { k with sched := k.sched.boostPid pid ticks } else k)
  | .spawn rsp => some ([], k.spawnNew rsp)
  | .kill pid => some ([], k.kill pid)
  | .reapDead => some ([], { k with sched := k.sched.reapDead })
  | .send dst data => (k.send dst data).map fun (ok, k') =>
      ((if (k.ipc.getChannel k.sched.currentPid dst).isNone then [.queued k.sched.currentPid dst] else []) ++
        [.ipc (.sent k.sched.currentPid dst data ok)], k')
  | .recv => k.recv.map fun (msg, k') => (msg.toList.map fun m => .ipc (.received k.sched.currentPid m), k')
  | .mmap pid => some ([], { k with engine := k.engine.observeMmap pid })
  | .pageFault pid => some ([], { k with engine := k.engine.observePageFault pid })
  | .observe src dst count bytes => some ([], { k with engine := k.engine.observeIpc src dst count bytes })
  | .ensure src dst => (k.ipc.ensureChannel src dst).map fun (_, ipc) => ([], { k with ipc })
  | .drop src dst => some ([], { k with ipc := k.ipc.dropChannel src dst })
  | .setEnabled enabled => some ([], { k with policyEnabled := enabled })

end Kernel

/-! ## What every report and every switch keeps -/

/-- Processes with pids of their own below `next_pid`, messages that carry
their data, channels with their frames. -/
structure Sound (sc : Scheduler) (s : IpcState) : Prop where
  pids : sc.PidsDistinct
  fresh : ∀ q ∈ sc.processes.map (·.pid), q < sc.nextPid
  inline : QueuesInline sc
  backed : Backed s

theorem Sound.updatePid {sc : Scheduler} {s : IpcState} (h : Sound sc s) {pid : Pid} {f : Process → Process}
    (hf : ∀ p, (f p).pid = p.pid)
    (hm : ∀ pr, sc.find pid = some pr → ∀ m ∈ (f pr).messageQueue, m ∈ pr.messageQueue ∨ m.fastCap = 0) :
    Sound (sc.updatePid pid f) s where
  pids := h.pids.updatePid hf
  fresh := by rw [Scheduler.pids_updatePid hf]; exact h.fresh
  inline := h.inline.updatePid hf hm
  backed := h.backed

theorem Sound.ipc {sc : Scheduler} {s s' : IpcState} (h : Sound sc s) (hb : Backed s') : Sound sc s' :=
  { h with backed := hb }

theorem Sound.sameTasks {sc sc' : Scheduler} {s : IpcState} (h : Sound sc s) (ht : sc.SameTasks sc') : Sound sc' s where
  pids := by simpa only [Scheduler.PidsDistinct, ht.pids] using h.pids
  fresh := by rw [ht.pids, ht.nextPid]; exact h.fresh
  inline := by
    intro q pr hq m hm
    have hcore := ht.find q
    rw [hq, Option.map_some, eq_comm, Option.map_eq_some_iff] at hcore
    obtain ⟨pr', hq', he⟩ := hcore
    have hmq : pr'.messageQueue = pr.messageQueue := congrArg (·.2.1) he
    exact h.inline q pr' hq' m (by rw [hmq]; exact hm)
  backed := h.backed

theorem Sound.stable : PolicyStable Sound where
  pri _ _ h := h.updatePid (fun _ => rfl) fun _ _ _ hm => .inl hm
  cpu _ _ h := h.updatePid (fun _ => rfl) fun _ _ _ hm => .inl hm
  ensure h he := h.ipc (h.backed.ensureChannelCap he)
  drop src dst h := h.ipc (h.backed.dropChannel src dst)

/-- A new process has the next pid, an empty queue and no peers. -/
theorem spawnNew_processes (k : Kernel) (rsp : Nat) :
    ∃ p, (k.spawnNew rsp).sched.processes = k.sched.processes ++ [p] ∧ p.pid = k.sched.nextPid ∧
      p.messageQueue = [] ∧ p.ipcPeers = .fill 8 (0, 0) := by
  obtain ⟨v, hv⟩ := Scheduler.spawn_processes k.sched.allocPid.2 (.new k.sched.nextPid rsp)
  exact ⟨_, hv, rfl, rfl, rfl⟩

theorem spawnNew_ipcTable (k : Kernel) (rsp : Nat) : (k.spawnNew rsp).engine.ipcTable = k.engine.ipcTable :=
  PolicyEngine.register_ipcTable _ _

theorem Sound.spawnNew {k : Kernel} (h : Sound k.sched k.ipc) (rsp : Nat) :
    Sound (k.spawnNew rsp).sched (k.spawnNew rsp).ipc := by
  obtain ⟨p, hp, hpid, hq, -⟩ := spawnNew_processes k rsp
  refine ⟨?_, ?_, ?_, h.backed⟩
  · rw [Scheduler.PidsDistinct, hp, List.map_append, List.nodup_append]
    refine ⟨h.pids, by simp, fun a ha b hb => ?_⟩
    rw [List.map_singleton, List.mem_singleton, hpid] at hb
    rw [hb]
    exact Nat.ne_of_lt (h.fresh a ha)
  · intro q hq
    rw [hp, List.map_append, List.mem_append] at hq
    have hnext : (k.spawnNew rsp).sched.nextPid = k.sched.nextPid + 1 := rfl
    rw [hnext]
    rcases hq with hq | hq
    · exact Nat.lt_succ_of_lt (h.fresh q hq)
    · rw [List.map_singleton, List.mem_singleton, hpid] at hq
      rw [hq]; exact Nat.lt_succ_self _
  · intro q pr hfind m hm
    rw [Scheduler.find, hp, List.find?_append] at hfind
    cases hold : k.sched.processes.find? (·.pid == q) with
    | some pr' =>
      rw [hold, Option.some_or, Option.some.injEq] at hfind
      subst hfind
      exact h.inline q pr' hold m hm
    | none =>
      rw [hold, Option.none_or] at hfind
      have := List.mem_of_find?_eq_some hfind
      rw [List.mem_singleton] at this
      rw [this, hq] at hm
      cases hm

theorem reapDead_forall₂ (s : Scheduler) :
    List.Forall₂ (fun p p' : Process => p' = p ∨ p' = p.reap) s.processes s.reapDead.processes := by
  refine List.forall₂_iff_get.mpr ⟨by simp [Scheduler.reapDead], fun i hi hi' => ?_⟩
  simp only [Scheduler.reapDead, List.get_eq_getElem, List.getElem_mapIdx]
  split
  · exact .inr rfl
  · exact .inl rfl

theorem map_reapDead {β : Type} (s : Scheduler) {g : Process → β} (hg : ∀ p : Process, g p.reap = g p) :
    s.reapDead.processes.map g = s.processes.map g := by
  have h := reapDead_forall₂ s
  generalize s.processes = l, s.reapDead.processes = l' at h
  induction h with
  | nil => rfl
  | cons hr _ ih =>
    rcases hr with rfl | rfl
    · simp only [List.map_cons, ih]
    · simp only [List.map_cons, ih, hg]

theorem Sound.reapDead {sc : Scheduler} {s : IpcState} (h : Sound sc s) : Sound sc.reapDead s where
  pids := by
    rw [Scheduler.PidsDistinct, map_reapDead sc fun _ => rfl]; exact h.pids
  fresh := by
    rw [map_reapDead sc fun _ => rfl]; exact h.fresh
  inline := by
    intro q pr hq m hm
    obtain ⟨pr', hq', hr⟩ := Slots.find?_forall₂ (reapDead_forall₂ sc)
      (fun a b hr => by rcases hr with rfl | rfl <;> rfl) hq
    rcases hr with rfl | rfl
    · exact h.inline q _ hq' m hm
    · cases hm
  backed := h.backed

/-! ## What a call does -/

/-- A process and its peer counters. -/
def Process.sender (p : Process) : Pid × Table (Pid × Nat) 8 := (p.pid, p.ipcPeers)

/-- The same processes with the same peer counters, and no statistics slot taken. -/
structure Tasks (k k' : Kernel) : Prop where
  senders : k'.sched.processes.map Process.sender = k.sched.processes.map Process.sender
  nextPid : k'.sched.nextPid = k.sched.nextPid
  stats : List.Forall₂ CpuStats.Kept k.engine.stats.1 k'.engine.stats.1

theorem Tasks.of_engine {k k' : Kernel} (hs : k'.sched = k.sched) (he : k'.engine.stats = k.engine.stats) :
    Tasks k k' := by
  refine ⟨by rw [hs], by rw [hs], ?_⟩
  rw [he]; exact List.forall₂_same.mpr fun s _ => .refl s

theorem Tasks.trans {k₁ k₂ k₃ : Kernel} (h : Tasks k₁ k₂) (h' : Tasks k₂ k₃) : Tasks k₁ k₃ :=
  ⟨h'.senders.trans h.senders, h'.nextPid.trans h.nextPid,
    Slots.forall₂_trans (fun h h' => h.trans h') h.stats h'.stats⟩

theorem Scheduler.SameTasks.senders {s s' : Scheduler} (h : s.SameTasks s') :
    s'.processes.map Process.sender = s.processes.map Process.sender := by
  have key : ∀ l : List Process, l.map Process.sender = (l.map Process.core).map fun c => (c.1, c.2.2.1) := fun l => by
    rw [List.map_map]; rfl
  rw [key, key, h.core]

/-- An update by pid that keeps the pid and the counters. -/
theorem Tasks.pids {k k' : Kernel} (h : Tasks k k') :
    k'.sched.processes.map (·.pid) = k.sched.processes.map (·.pid) := by
  simpa [Function.comp_def, Process.sender] using congrArg (List.map Prod.fst) h.senders

/-- A lookup finds the same counters. -/
theorem Tasks.find {k k' : Kernel} (h : Tasks k k') (q : Pid) :
    (k'.sched.find q).map (·.ipcPeers) = (k.sched.find q).map (·.ipcPeers) := by
  have hsender := Scheduler.find_congr Prod.fst (fun _ => rfl) h.senders q
  simpa [Function.comp_def, Process.sender] using congrArg (Option.map Prod.snd) hsender

/-- A report and what comes before it keep the tasks. -/
theorem Tasks.report {k k' : Kernel} {tick : Nat} {log : List PolicyEvent}
    (h : k.adaptAndReport tick = some (log, k')) : Tasks k k' := by
  have hstable : PolicyStable fun sc _ => sc.processes.map Process.sender = k.sched.processes.map Process.sender ∧
      sc.nextPid = k.sched.nextPid :=
    { pri := fun pid p h => ⟨(Scheduler.map_updatePid pid fun _ => by rfl).trans h.1, h.2⟩
      cpu := fun pid cpu h => ⟨(Scheduler.map_updatePid pid fun _ => by rfl).trans h.1, h.2⟩
      ensure := fun h _ => h
      drop := fun _ _ h => h }
  obtain ⟨hs, hn⟩ := hstable.report ⟨rfl, rfl⟩ h
  exact ⟨hs, hn, (adaptAndReport_spec h).stats⟩

/-- `on_switch` before its report. -/
theorem Tasks.countSwitch (k : Kernel) (src dst : Pid) (tick : Nat) :
    Tasks k { k with engine := k.engine.countSwitch src dst tick } := by
  refine ⟨rfl, rfl, ?_⟩
  refine Slots.forall₂_trans (fun h h' => h.trans h') (Slots.updateFirst_forall₂ CpuStats.Kept.refl ?_ _)
    (Slots.updateFirst_forall₂ CpuStats.Kept.refl ?_ _)
  · exact fun a _ ha => ⟨ha, rfl⟩
  · exact fun a _ ha => ⟨ha, rfl⟩

/-- What a call does, as far as pairs and channels can tell. -/
inductive Kernel.Effect (k : Kernel) : Op → List KernelEvent → Kernel → Prop
  /-- Nothing: no pair, no channel and no process comes or goes. -/
  | calm {a es k'} : Tasks k k' → k'.engine.ipcTable = k.engine.ipcTable → k'.ipc.fast = k.ipc.fast →
      (∀ e ∈ es, ∃ x, e = .ipc x) → Kernel.Effect k a es k'
  | spawn (rsp : Nat) : Kernel.Effect k (.spawn rsp) [] (k.spawnNew rsp)
  | queue (dst : Pid) (data : List UInt8) (ok : Bool) : k.ipc.getChannel k.sched.currentPid dst = none →
      Kernel.Effect k (.send dst data) [.queued k.sched.currentPid dst, .ipc (.sent k.sched.currentPid dst data ok)]
        (k.sendMessage dst (.inline k.sched.currentPid data)).2
  | observe (src dst : Pid) (count bytes : Nat) :
      Kernel.Effect k (.observe src dst count bytes) [] { k with engine := k.engine.observeIpc src dst count bytes }
  | ensure {src dst : Pid} {id : CapId} {ipc : IpcState} : k.ipc.ensureChannel src dst = some (id, ipc) →
      Kernel.Effect k (.ensure src dst) [] { k with ipc }
  | drop (src dst : Pid) : Kernel.Effect k (.drop src dst) [] { k with ipc := k.ipc.dropChannel src dst }
  | report {rsp : Nat} {voluntary : Bool} {c : Clock} {k' : Kernel} {log : List PolicyEvent} :
      k.reportDue c.tick = true → Tasks k k' → Reported k k' log →
      Kernel.Effect k (.preempt rsp voluntary c) (log.map .policy ++ [.report]) k'

/-- A fast send and the polls of a receive touch doorbells and frames only. -/
theorem sendSwitchless_frame {s s' : IpcState} {id : CapId} {data : List UInt8} {ok : Bool}
    (h : s.sendSwitchless id data = some (ok, s')) : s'.fast = s.fast ∧ (Backed s → Backed s') := by
  simp only [IpcState.sendSwitchless] at h
  split at h
  · cases h; exact ⟨rfl, fun hb => hb⟩
  · split at h
    · cases h; exact ⟨rfl, fun hb => (hb.switchlessWrite _ _).switchlessRing _ _⟩
    · cases h

theorem pollChannels_frame {s s' : IpcState} {l : List (CapId × Pid)} {msg : Option Message}
    (h : Kernel.pollChannels s l = some (msg, s')) : s'.fast = s.fast ∧ (Backed s → Backed s') := by
  induction l with
  | nil => cases h; exact ⟨rfl, fun hb => hb⟩
  | cons ch l ih =>
    obtain ⟨id, src⟩ := ch
    simp only [Kernel.pollChannels, IpcState.pollSwitchless] at h
    by_cases h0 : s.doorbells (swSlot id) = 0
    · simp only [h0, if_pos] at h; exact ih h
    · simp only [h0, if_false] at h
      cases hc : s.switchlessCopy id (s.doorbells (swSlot id)) 64 with
      | none => simp only [hc] at h; cases h
      | some o =>
        cases o with
        | none => simp only [hc] at h; exact ih h
        | some bs => simp only [hc] at h; cases h; exact ⟨rfl, fun hb => hb.resetDoorbell id⟩

/-- A receive pops the current queue at most. -/
theorem recv_cases {k k' : Kernel} {msg : Option Message} (h : k.recv = some (msg, k')) :
    ∃ ipc, ipc.fast = k.ipc.fast ∧ (Backed k.ipc → Backed ipc) ∧
      (k' = { k with ipc } ∨ k' = { k with ipc, sched := k.sched.updateCurrent Process.pop }) := by
  simp only [Kernel.recv] at h
  split at h
  · cases h
  · next m ipc hp =>
    cases h
    exact ⟨ipc, (pollChannels_frame hp).1, (pollChannels_frame hp).2, .inl rfl⟩
  · next ipc hp =>
    refine ⟨ipc, (pollChannels_frame hp).1, (pollChannels_frame hp).2, .inr ?_⟩
    simp only [Kernel.recvQueue, Scheduler.recvMessage] at h
    split at h
    · cases h; rfl
    · simp only [Option.map_eq_some_iff, Prod.mk.injEq] at h
      obtain ⟨-, -, -, rfl⟩ := h
      rfl

/-- A switch reports, or not. -/
theorem preempt_cases {k k' : Kernel} {rsp : Nat} {voluntary : Bool} {c : Clock} {log : List PolicyEvent}
    (h : k.preempt rsp voluntary c = some (log, k')) :
    ∃ k₀, Tasks k k₀ ∧ k₀.engine.ipcTable = k.engine.ipcTable ∧ k₀.engine.memTable = k.engine.memTable ∧
      k₀.policyEnabled = k.policyEnabled ∧ k₀.ipc = k.ipc ∧ k.sched.SameTasks k₀.sched ∧
      (k.reportDue c.tick = false ∧ log = [] ∧ k' = k₀ ∨
        k.reportDue c.tick = true ∧ k₀.adaptAndReport c.tick = some (log, k')) := by
  have hsame := Scheduler.sameTasks_doPreempt k.sched rsp voluntary c
  simp only [Kernel.preempt, Kernel.onSwitch] at h
  generalize (k.sched.doPreempt rsp voluntary c).2 = sched at h hsame
  have h₁ : Tasks k { k with sched } := ⟨hsame.senders, hsame.nextPid, List.forall₂_same.mpr fun s _ => .refl s⟩
  have h₂ := h₁.trans (Tasks.countSwitch { k with sched } k.sched.currentPid sched.currentPid c.tick)
  split at h
  · next hdue =>
    refine ⟨_, ?_, ?_, ?_, ?_, ?_, ?_, .inr ⟨?_, h⟩⟩
    · exact ⟨h₂.senders, h₂.nextPid, h₂.stats⟩
    · rfl
    · rfl
    · rfl
    · rfl
    · exact hsame
    · simpa [Kernel.reportDue, PolicyEngine.countSwitch] using hdue
  · next hdue =>
    cases h
    refine ⟨_, h₂, rfl, rfl, rfl, rfl, hsame, .inl ⟨?_, rfl, rfl⟩⟩
    simpa [Kernel.reportDue, PolicyEngine.countSwitch] using hdue

theorem Tasks.unregister {k k' : Kernel} (pid : Pid)
    (hs : k'.sched.processes.map Process.sender = k.sched.processes.map Process.sender)
    (hn : k'.sched.nextPid = k.sched.nextPid) (he : k'.engine = k.engine.unregister pid) : Tasks k k' := by
  refine ⟨hs, hn, ?_⟩
  rw [he]
  refine Slots.updateFirst_forall₂ CpuStats.Kept.refl (fun s _ => ?_) _
  exact nofun

theorem step_effect {k k' : Kernel} {a : Op} {es : List KernelEvent} (h : k.step a = some (es, k')) :
    k.Effect a es k' := by
  have hsame : ∀ sched, k.sched.SameTasks sched → Tasks k { k with sched } := fun sched hs =>
    ⟨hs.senders, hs.nextPid, List.forall₂_same.mpr fun s _ => .refl s⟩
  cases a with
  | preempt rsp voluntary c =>
    simp only [Kernel.step, Option.map_eq_some_iff, Prod.mk.injEq] at h
    obtain ⟨⟨log, k₁⟩, hp, rfl, rfl⟩ := h
    obtain ⟨k₀, ht, htab, hmem, hen, hipc, -, ⟨hdue, rfl, rfl⟩ | ⟨hdue, hrep⟩⟩ := preempt_cases hp
    · simp only [hdue]
      exact .calm ht htab (by rw [hipc]) nofun
    · simp only [hdue, if_pos]
      exact .report hdue (ht.trans (.report hrep)) ((adaptAndReport_spec hrep).of_same ht.stats htab hmem hen hipc)
  | exit rsp c =>
    cases h
    have hs := Scheduler.sameTasks_exitCurrent k.sched rsp c
    exact .calm (.unregister _ hs.senders hs.nextPid rfl) rfl rfl nofun
  | sleep ticks => cases h; exact .calm (hsame _ (Scheduler.sameTasks_requestSleep _ _)) rfl rfl nofun
  | setMode mode => cases h; exact .calm (hsame _ (Scheduler.sameTasks_setMode _ _)) rfl rfl nofun
  | keyboardBoost =>
    cases h
    split
    · exact .calm (hsame _ (Scheduler.sameTasks_keyboardBoost _)) rfl rfl nofun
    · exact .calm (.of_engine rfl rfl) rfl rfl nofun
  | boostPid pid ticks =>
    cases h
    split
    · exact .calm (hsame _ (Scheduler.sameTasks_boostPid _ _ _)) rfl rfl nofun
    · exact .calm (.of_engine rfl rfl) rfl rfl nofun
  | spawn rsp => cases h; exact .spawn rsp
  | kill pid =>
    cases h
    exact .calm (.unregister pid (Scheduler.map_updatePid pid fun _ => by rfl) rfl rfl) rfl rfl nofun
  | reapDead =>
    cases h
    exact .calm ⟨map_reapDead k.sched fun _ => rfl, rfl, List.forall₂_same.mpr fun s _ => .refl s⟩ rfl rfl nofun
  | send dst data =>
    simp only [Kernel.step, Option.map_eq_some_iff, Prod.mk.injEq] at h
    obtain ⟨⟨ok, k₁⟩, hs, rfl, rfl⟩ := h
    simp only [Kernel.send] at hs
    split at hs
    · next id hid =>
      simp only [Option.map_eq_some_iff, Prod.mk.injEq] at hs
      obtain ⟨⟨ok', ipc⟩, hsw, rfl, rfl⟩ := hs
      refine .calm (.of_engine rfl rfl) rfl (sendSwitchless_frame hsw).1 fun e he => ?_
      simp only [hid, Option.isNone_some, Bool.false_eq_true, if_false, List.nil_append, List.mem_singleton] at he
      exact ⟨_, he⟩
    · next hid =>
      simp only [Option.some.injEq] at hs
      obtain rfl : k₁ = (k.sendMessage dst (.inline k.sched.currentPid data)).2 := by rw [hs]
      simp only [hid, Option.isNone_none, if_pos]
      exact .queue dst data ok hid
  | recv =>
    simp only [Kernel.step, Option.map_eq_some_iff, Prod.mk.injEq] at h
    obtain ⟨⟨msg, k₁⟩, hr, rfl, rfl⟩ := h
    obtain ⟨ipc, hf, -, hk⟩ := recv_cases hr
    have hes : ∀ e ∈ msg.toList.map fun m => KernelEvent.ipc (.received k.sched.currentPid m), ∃ x, e = .ipc x := by
      intro e he
      obtain ⟨m, -, rfl⟩ := List.mem_map.mp he
      exact ⟨_, rfl⟩
    rcases hk with rfl | rfl
    · exact .calm (.of_engine rfl rfl) rfl hf hes
    · refine .calm ⟨Scheduler.map_updateCurrent fun _ => by rfl, rfl, ?_⟩ rfl hf hes
      exact List.forall₂_same.mpr fun s _ => .refl s
  | mmap pid => cases h; exact .calm (.of_engine rfl rfl) rfl rfl nofun
  | pageFault pid => cases h; exact .calm (.of_engine rfl rfl) rfl rfl nofun
  | observe src dst count bytes => cases h; exact .observe src dst count bytes
  | ensure src dst =>
    simp only [Kernel.step, Option.map_eq_some_iff, Prod.mk.injEq] at h
    obtain ⟨⟨id, ipc⟩, he, rfl, rfl⟩ := h
    exact .ensure he
  | drop src dst => cases h; exact .drop src dst
  | setEnabled enabled => cases h; exact .calm (.of_engine rfl rfl) rfl rfl nofun

/-! ## Every reachable state -/

/-- What every reachable state has. -/
structure Kernel.Wf (k : Kernel) : Prop extends Sound k.sched k.ipc where
  pairs : Slots.Keyed IpcEntry.key k.engine.ipcTable.1
  slots : Slots.Keyed CpuStats.key k.engine.stats.1
  peers : ∀ s ∈ k.sched.processes.map Process.sender, Process.PeersKeyed s.2

theorem Sound.sendMessage {k : Kernel} (h : Sound k.sched k.ipc) (dst : Pid) (data : List UInt8) :
    Sound (k.sendMessage dst (.inline k.sched.currentPid data)).2.sched k.ipc := by
  rw [sendMessage_sched h.pids]
  refine (h.updatePid (fun p => p.recordIpcSend_pid dst) fun _ _ _ hm => .inl hm).updatePid (Process.push_pid _) ?_
  intro pr _ m hm
  rcases List.mem_append.mp hm with hm | hm
  · exact .inl hm
  · rw [List.mem_singleton.mp hm]; exact .inr rfl

theorem Sound.step {k k' : Kernel} {a : Op} {es : List KernelEvent} (h : Sound k.sched k.ipc)
    (hs : k.step a = some (es, k')) : Sound k'.sched k'.ipc := by
  cases a with
  | preempt rsp voluntary c =>
    simp only [Kernel.step, Option.map_eq_some_iff, Prod.mk.injEq] at hs
    obtain ⟨⟨log, k₁⟩, hp, -, rfl⟩ := hs
    obtain ⟨k₀, -, -, -, -, hipc, hsame, ⟨-, -, rfl⟩ | ⟨-, hrep⟩⟩ := preempt_cases hp
    · rw [hipc]; exact h.sameTasks hsame
    · exact Sound.stable.report (by rw [hipc]; exact h.sameTasks hsame) hrep
  | exit rsp c => cases hs; exact h.sameTasks (Scheduler.sameTasks_exitCurrent _ _ _)
  | sleep ticks => cases hs; exact h.sameTasks (Scheduler.sameTasks_requestSleep _ _)
  | setMode mode => cases hs; exact h.sameTasks (Scheduler.sameTasks_setMode _ _)
  | keyboardBoost =>
    cases hs
    split
    · exact h.sameTasks (Scheduler.sameTasks_keyboardBoost _)
    · exact h
  | boostPid pid ticks =>
    cases hs
    split
    · exact h.sameTasks (Scheduler.sameTasks_boostPid _ _ _)
    · exact h
  | spawn rsp => cases hs; exact h.spawnNew rsp
  | kill pid => cases hs; exact h.updatePid (fun _ => rfl) fun _ _ _ hm => .inl hm
  | reapDead => cases hs; exact h.reapDead
  | send dst data =>
    simp only [Kernel.step, Option.map_eq_some_iff, Prod.mk.injEq] at hs
    obtain ⟨⟨ok, k₁⟩, hs, -, rfl⟩ := hs
    simp only [Kernel.send] at hs
    split at hs
    · simp only [Option.map_eq_some_iff, Prod.mk.injEq] at hs
      obtain ⟨⟨ok', ipc⟩, hsw, -, rfl⟩ := hs
      exact h.ipc ((sendSwitchless_frame hsw).2 h.backed)
    · simp only [Option.some.injEq] at hs
      obtain rfl : k₁ = (k.sendMessage dst (.inline k.sched.currentPid data)).2 := by rw [hs]
      exact h.sendMessage dst data
  | recv =>
    simp only [Kernel.step, Option.map_eq_some_iff, Prod.mk.injEq] at hs
    obtain ⟨⟨msg, k₁⟩, hr, -, rfl⟩ := hs
    obtain ⟨ipc, -, hb, rfl | rfl⟩ := recv_cases hr
    · exact h.ipc (hb h.backed)
    · have hpop : Sound (k.sched.updateCurrent Process.pop) k.ipc := by
        rw [Scheduler.updateCurrent_eq h.pids]
        exact h.updatePid Process.pop_pid fun _ _ _ hm => .inl (List.mem_of_mem_tail hm)
      exact hpop.ipc (hb h.backed)
  | mmap pid | pageFault pid | observe src dst count bytes | setEnabled enabled => cases hs; exact h
  | ensure src dst =>
    simp only [Kernel.step, Option.map_eq_some_iff, Prod.mk.injEq] at hs
    obtain ⟨⟨id, ipc⟩, he, -, rfl⟩ := hs
    exact h.ipc (h.backed.ensureChannelCap he)
  | drop src dst => cases hs; exact h.ipc (h.backed.dropChannel src dst)

/-- The slots after no slot was taken. -/
theorem keyed_stats {l l' : List CpuStats} (h : Slots.Keyed CpuStats.key l) (hk : List.Forall₂ CpuStats.Kept l l') :
    Slots.Keyed CpuStats.key l' := by
  refine h.forall₂ (hk.imp fun s s' hs pid hp => ?_)
  obtain ⟨ha, hpid⟩ := CpuStats.key_eq_some.mp hp
  obtain ⟨ha', hpid'⟩ := hs ha
  exact CpuStats.key_eq_some.mpr ⟨ha', hpid' ▸ hpid⟩

/-- The senders after `send_message`. -/
theorem sendMessage_senders {k : Kernel} (hd : k.sched.PidsDistinct) (dst : Pid) (msg : Message) :
    (k.sendMessage dst msg).2.sched.processes.map Process.sender =
      (k.sched.updatePid k.sched.currentPid fun p => (p.recordIpcSend dst).2).processes.map Process.sender := by
  rw [sendMessage_sched hd, Scheduler.map_updatePid dst fun _ => by rfl]

theorem Kernel.Wf.step {k k' : Kernel} {a : Op} {es : List KernelEvent} (h : k.Wf) (hs : k.step a = some (es, k')) :
    k'.Wf := by
  have hsound := h.toSound.step hs
  cases step_effect hs with
  | calm ht htab hf hes =>
    exact ⟨hsound, by rw [htab]; exact h.pairs, keyed_stats h.slots ht.stats, by rw [ht.senders]; exact h.peers⟩
  | spawn rsp =>
    refine ⟨hsound, by rw [spawnNew_ipcTable]; exact h.pairs, PolicyEngine.keyed_register h.slots _, fun s hs => ?_⟩
    obtain ⟨p, hp, -, -, hpeers⟩ := spawnNew_processes k rsp
    rw [hp, List.map_append, List.mem_append] at hs
    rcases hs with hs | hs
    · exact h.peers s hs
    · rw [List.map_singleton, List.mem_singleton] at hs
      subst hs
      intro i j a b q hi hj hka hkb
      simp only [Process.sender, hpeers] at hi
      have := List.eq_of_mem_replicate (List.mem_of_getElem? hi)
      rw [this] at hka
      cases hka
  | queue dst data ok hch =>
    refine ⟨hsound, PolicyEngine.keyed_observeIpc h.pairs _ _ _ _, h.slots, ?_⟩
    rw [sendMessage_senders h.pids]
    intro s hs
    obtain ⟨p, hp, rfl⟩ := List.mem_map.mp hs
    rcases Slots.mem_updateFirst hp with hp | ⟨p', hp', -, rfl⟩
    · exact h.peers _ (List.mem_map_of_mem hp)
    · exact Process.PeersKeyed.recordIpcSend (h.peers _ (List.mem_map_of_mem hp')) dst
  | observe src dst count bytes => exact ⟨hsound, PolicyEngine.keyed_observeIpc h.pairs _ _ _ _, h.slots, h.peers⟩
  | ensure he => exact ⟨hsound, h.pairs, h.slots, h.peers⟩
  | drop src dst => exact ⟨hsound, h.pairs, h.slots, h.peers⟩
  | report hdue ht hrep =>
    exact ⟨hsound, hrep.keyed h.pairs, keyed_stats h.slots ht.stats, by rw [ht.senders]; exact h.peers⟩

theorem Kernel.Wf.init (mem : ChannelMem) : (Kernel.init mem).Wf where
  pids := by simp [Kernel.init, Scheduler.init, Scheduler.PidsDistinct]
  fresh := by simp [Kernel.init, Scheduler.init, Process.newKernelMain, Process.new]
  inline := by
    intro q pr hq m hm
    have := List.mem_of_find?_eq_some hq
    rw [show (Kernel.init mem).sched.processes = [Process.newKernelMain] from rfl, List.mem_singleton] at this
    subst this
    cases hm
  backed := Backed.init rfl rfl
  pairs := by
    intro i j a b p hi hj hka
    rw [List.eq_of_mem_replicate (List.mem_of_getElem? hi)] at hka
    cases hka
  slots := by
    refine PolicyEngine.keyed_register (fun i j a b p hi hj hka => ?_) 0
    rw [List.eq_of_mem_replicate (List.mem_of_getElem? hi)] at hka
    cases hka
  peers := by
    intro s hs
    rw [show (Kernel.init mem).sched.processes = [Process.newKernelMain] from rfl, List.map_singleton,
      List.mem_singleton] at hs
    subst hs
    intro i j a b p hi hj hka
    rw [List.eq_of_mem_replicate (List.mem_of_getElem? hi)] at hka
    cases hka

/-- Every state a run reaches is well formed. -/
theorem Kernel.Wf.of_runs {ok : List KernelEvent → Kernel → Op → Prop} {k₀ k : Kernel} {h : List KernelEvent}
    (hr : Runs Kernel.step ok k₀ h k) (h₀ : k₀.Wf) : k.Wf :=
  hr.invariant_state Kernel.Wf h₀ fun hw _ hs => hw.step hs

end ChodOs
