/-
What a sender and a receiver can tell of the path a message takes: whether
`send` says the truth about the receiver, whether an exchange comes out the
same with the fast channel and without it, whether `send` returns, and
whether `recv` finds what is there.
-/
import ChodOs.Machine

namespace ChodOs

open StepSys

/-! ## One exchange -/

/-- A channel that is polled: the first set doorbell wins. -/
theorem pollChannels_eq {s : IpcState} (hb : Backed s) {dst : Pid} {l : List (CapId × Pid)}
    (hl : ∀ c ∈ l, s.fast[(c.2, dst)]? = some c.1) :
    Kernel.pollChannels s l = some
      (match l.find? (fun c => s.doorbells (swSlot c.1) != 0) with
      | some c => (some (.inline c.2 (chanBytes s c.1 (min (s.doorbells (swSlot c.1)) 64))), s.resetDoorbell c.1)
      | none => (none, s)) := by
  induction l with
  | nil => rfl
  | cons c l ih =>
    obtain ⟨id, src⟩ := c
    simp only [Kernel.pollChannels, IpcState.pollSwitchless, List.find?_cons]
    by_cases h0 : s.doorbells (swSlot id) = 0
    · simp only [h0, if_pos, bne_self_eq_false]
      exact ih fun c hc => hl c (List.mem_cons_of_mem _ hc)
    · have hlive := hl (id, src) List.mem_cons_self
      have hne : (s.doorbells (swSlot id) != 0) = true := by simpa using h0
      simp only [h0, if_false, switchlessCopy_live hb hlive, hne]

/-- What `recv` returns: the first set doorbell among the eight, else the queue. -/
theorem recv_msg {k : Kernel} (h : Sound k.sched k.ipc) :
    k.recv.map (·.1) = some
      (match (k.ipc.findIncomingChannels k.sched.currentPid 8).find? (fun c => k.ipc.doorbells (swSlot c.1) != 0) with
      | some c => some (.inline c.2 (chanBytes k.ipc c.1 (min (k.ipc.doorbells (swSlot c.1)) 64)))
      | none => k.sched.cur.messageQueue.head?) := by
  rw [Kernel.recv, pollChannels_eq h.backed fun c hc => IpcState.mem_findIncomingChannels hc]
  cases (k.ipc.findIncomingChannels k.sched.currentPid 8).find? (fun c => k.ipc.doorbells (swSlot c.1) != 0) with
  | some c => rfl
  | none =>
    obtain ⟨k', hk', -⟩ := recvQueue_popped h.pids h.inline
    simp only [hk', Option.map_some]

namespace Kernel

/-- The process with a pid runs. -/
def runAs (k : Kernel) (pid : Pid) : Option Kernel :=
  let i := k.sched.processes.findIdx (·.pid == pid)
  if h : i < k.sched.processes.length then some { k with sched := k.sched.switchTo i h } else none

/-- The current process sends, then the receiver receives: the result of
`send` and what `recv` returned. -/
def exchange (k : Kernel) (dst : Pid) (data : List UInt8) : Option (Bool × Option Message) := do
  let (ok, k) ← k.send dst data
  let k ← k.runAs dst
  let (msg, _) ← k.recv
  some (ok, msg)

/-- The kernel without the fast channel of a pair. -/
def withoutChannel (k : Kernel) (src dst : Pid) : Kernel := { k with ipc := k.ipc.dropChannel src dst }

end Kernel

/-- An existing receiver with nothing to receive. -/
structure Quiet (k : Kernel) (dst : Pid) : Prop where
  has : k.sched.has dst = true
  queue : ∀ pr, k.sched.find dst = some pr → pr.messageQueue = []
  bells : ∀ (src : Pid) (id : CapId), k.ipc.fast[(src, dst)]? = some id → k.ipc.doorbells (swSlot id) = 0

theorem Quiet.found {k : Kernel} {dst : Pid} (h : Quiet k dst) :
    ∃ pr, k.sched.find dst = some pr ∧ pr.messageQueue = [] := by
  cases hf : k.sched.find dst with
  | none => rw [Scheduler.find_eq_none, h.has] at hf; cases hf
  | some pr => exact ⟨pr, rfl, h.queue pr hf⟩

/-- The doorbells `recv` polls after a send on a channel of a quiet receiver. -/
theorem Quiet.bells_sent {k : Kernel} {dst : Pid} (h : Quiet k dst) (id : CapId) (va : Nat) (data : List UInt8)
    {c : CapId × Pid} (hc : c ∈ k.ipc.findIncomingChannels dst 8) :
    ((k.ipc.switchlessWrite va data).switchlessRing id data).doorbells (swSlot c.1) =
      if swSlot c.1 = swSlot id then min data.length 4096 else 0 := by
  simp only [IpcState.switchlessRing, IpcState.switchlessWrite, Function.update_apply]
  split
  · rfl
  · exact h.bells c.2 c.1 (IpcState.mem_findIncomingChannels hc)

/-- The channel `recv` then takes a message from: none for an empty message,
else the first with this doorbell. -/
theorem Quiet.find_sent {k : Kernel} {dst : Pid} (h : Quiet k dst) (id : CapId) (va : Nat) (data : List UInt8) :
    (k.ipc.findIncomingChannels dst 8).find?
        (fun c => ((k.ipc.switchlessWrite va data).switchlessRing id data).doorbells (swSlot c.1) != 0) =
      if data = [] then none else (k.ipc.findIncomingChannels dst 8).find? fun c => swSlot c.1 == swSlot id := by
  split
  · next hd =>
    rw [List.find?_eq_none]
    intro c hc
    rw [h.bells_sent id va data hc, hd]
    simp
  · next hd =>
    have hlen : min data.length 4096 ≠ 0 := by
      have := List.length_pos_iff.mpr hd
      omega
    refine Slots.find?_congr fun c hc => ?_
    rw [h.bells_sent id va data hc]
    by_cases he : swSlot c.1 = swSlot id
    · simp [he, hlen]
    · simp [he]

theorem runAs_spec {k : Kernel} {pid : Pid} (h : k.sched.has pid = true) :
    ∃ k', k.runAs pid = some k' ∧ k'.ipc = k.ipc ∧ k'.sched.processes = k.sched.processes ∧
      k'.sched.nextPid = k.sched.nextPid ∧ k'.sched.currentPid = pid := by
  have hlt : k.sched.processes.findIdx (·.pid == pid) < k.sched.processes.length :=
    List.findIdx_lt_length.mpr (by simpa [Scheduler.has] using h)
  refine ⟨{ k with sched := k.sched.switchTo _ hlt }, dif_pos hlt, rfl, rfl, rfl, ?_⟩
  have := List.findIdx_getElem (p := fun p : Process => p.pid == pid) (w := hlt)
  simpa [Scheduler.currentPid, Scheduler.cur, Scheduler.switchTo] using this

/-- What the receiver gets once it runs. -/
theorem exchange_eq {k k' : Kernel} {dst : Pid} {data : List UInt8} {ok : Bool} {pr : Process}
    (hs : k.send dst data = some (ok, k')) (h : Sound k'.sched k'.ipc) (hf : k'.sched.find dst = some pr) :
    k.exchange dst data = some (ok,
      match (k'.ipc.findIncomingChannels dst 8).find? (fun c => k'.ipc.doorbells (swSlot c.1) != 0) with
      | some c => some (.inline c.2 (chanBytes k'.ipc c.1 (min (k'.ipc.doorbells (swSlot c.1)) 64)))
      | none => pr.messageQueue.head?) := by
  have hhas : k'.sched.has dst = true := by
    rw [← Bool.not_eq_false, ← Scheduler.find_eq_none, hf]; simp
  obtain ⟨k₂, hrun, hipc, hprocs, hnext, hcur⟩ := runAs_spec hhas
  have hsound : Sound k₂.sched k₂.ipc := by
    refine hipc ▸ h.sameTasks ⟨by rw [hprocs], hnext⟩
  have hfind : k₂.sched.find dst = some pr := by
    simpa only [Scheduler.find, hprocs] using hf
  have hq : k₂.sched.cur = pr := by
    have := Scheduler.find_currentPid hsound.pids
    rw [hcur, hfind] at this
    exact (Option.some.inj this).symm
  have hmsg := recv_msg hsound
  rw [hcur, hq, hipc] at hmsg
  obtain ⟨⟨msg, k₃⟩, hrecv, he⟩ := Option.map_eq_some_iff.mp hmsg
  simp only at he
  simp only [Kernel.exchange, hs, Option.bind_eq_bind, Option.bind_some, hrun, hrecv, he]

/-! ## With the channel and without it -/

section exchange
variable {k : Kernel} (hw : k.Wf) {dst : Pid} (hq : Quiet k dst)
include hw hq

/-- Over the queue the receiver gets the message whatever the data. -/
theorem exchange_queue (hn : k.ipc.fast[(k.sched.currentPid, dst)]? = none) (data : List UInt8) :
    k.exchange dst data = some (true, some (.inline k.sched.currentPid data)) := by
  have hch : k.ipc.getChannel k.sched.currentPid dst = none := hn
  obtain ⟨pr, hpr, hempty⟩ := hq.found
  have hok := sendMessage_ok k dst (.inline k.sched.currentPid data) hw.pids
  rw [hq.has] at hok
  have hs : k.send dst data = some (true, (k.sendMessage dst (.inline k.sched.currentPid data)).2) := by
    simp only [Kernel.send, hch, ← hok]
  obtain ⟨pr₁, hpr₁, hmq⟩ := find_updatePid_queue k.sched.currentPid (fun p => p.recordIpcSend_pid dst)
    (fun p => p.recordIpcSend_messageQueue dst) hpr
  have hpr' : (k.sendMessage dst (.inline k.sched.currentPid data)).2.sched.find dst =
      some (pr₁.push (.inline k.sched.currentPid data)) := by
    rw [sendMessage_sched hw.pids, Scheduler.find_updatePid (Process.push_pid _), if_pos rfl, hpr₁, Option.map_some]
  have hnone : (k.ipc.findIncomingChannels dst 8).find? (fun c => k.ipc.doorbells (swSlot c.1) != 0) = none := by
    rw [List.find?_eq_none]
    intro c hc
    simp [hq.bells c.2 c.1 (IpcState.mem_findIncomingChannels hc)]
  have hipc : (k.sendMessage dst (.inline k.sched.currentPid data)).2.ipc = k.ipc := rfl
  rw [exchange_eq hs (hw.toSound.sendMessage dst data) hpr', hipc, hnone]
  simp [Process.push, hmq, hempty]

/-- Over the channel the receiver gets what the first channel with this
doorbell among the eight it polls holds; an empty message rings no doorbell. -/
theorem exchange_fast {id : CapId} (hf : k.ipc.fast[(k.sched.currentPid, dst)]? = some id) (data : List UInt8) :
    ∃ other : CapId → List UInt8, k.exchange dst data = some (true,
      if data = [] then none
      else ((k.ipc.findIncomingChannels dst 8).find? fun c => swSlot c.1 == swSlot id).map fun c =>
        .inline c.2 (if c.1 = id then data else other c.1)) := by
  have hch : k.ipc.getChannel k.sched.currentPid dst = some id := hf
  obtain ⟨pr, hpr, hempty⟩ := hq.found
  obtain ⟨b, hb, hfb⟩ := hw.backed.buf hf
  have hva : k.ipc.switchlessVa id = some b.writeVa := by simp [IpcState.switchlessVa, hb, hfb]
  have h0 := hq.bells _ id hf
  -- The state after the send: the frame written, the doorbell rung.
  have hs : k.send dst data =
      some (true, { k with ipc := (k.ipc.switchlessWrite b.writeVa data).switchlessRing id data }) := by
    simp only [Kernel.send, hch, IpcState.sendSwitchless, hva, h0, if_pos, Option.map_some]
  have hsound : Sound k.sched ((k.ipc.switchlessWrite b.writeVa data).switchlessRing id data) :=
    hw.toSound.ipc ((hw.backed.switchlessWrite _ _).switchlessRing _ _)
  have hin : ((k.ipc.switchlessWrite b.writeVa data).switchlessRing id data).findIncomingChannels dst 8 =
      k.ipc.findIncomingChannels dst 8 := rfl
  have hbytes : chanBytes ((k.ipc.switchlessWrite b.writeVa data).switchlessRing id data) id
      (min (min data.length 4096) 64) = data.take 64 := by
    refine (chanBytes_switchlessWrite hw.backed hf hb data (Nat.min_le_left _ _)).trans ?_
    rw [List.take_eq_take_iff]; omega
  refine ⟨fun i => chanBytes ((k.ipc.switchlessWrite b.writeVa data).switchlessRing id data) i
    (min (min data.length 4096) 64), ?_⟩
  rw [exchange_eq hs hsound hpr]
  simp only [hin, hq.find_sent, hempty, List.head?_nil, Option.some.injEq, Prod.mk.injEq, true_and]
  by_cases hd : data = []
  · simp only [hd, if_pos]
  simp only [hd, if_false]
  cases hfind : (k.ipc.findIncomingChannels dst 8).find? fun c => swSlot c.1 == swSlot id with
  | none => rfl
  | some c =>
    have hslot : swSlot c.1 = swSlot id := by simpa using List.find?_some hfind
    have hbc := hq.bells_sent id b.writeVa data (List.mem_of_find?_eq_some hfind)
    rw [if_pos hslot] at hbc
    simp only [Option.map_some, hbc, Option.some.injEq]
    split
    · next hid => rw [hid, hbytes, Message.inline_take (Nat.le_refl 64)]
    · rfl

end exchange

theorem Quiet.withoutChannel {k : Kernel} {dst : Pid} (h : Quiet k dst) (src : Pid) :
    Quiet (k.withoutChannel src dst) dst where
  has := h.has
  queue := h.queue
  bells p id hp := by
    rw [← h.bells p id (fast_of_dropChannel hp).2]
    exact congrFun (dropChannel_frame _ _ _).1 _

/-- An exchange comes out the same with the pair's channel as without it
exactly when there is data and `recv` polls this channel before any other
with its doorbell. -/
theorem exchange_withoutChannel_iff {mem : ChannelMem} {h : List KernelEvent} {k : Kernel}
    (hr : Runs Kernel.step free (.init mem) h k) {dst : Pid} (hq : Quiet k dst) {id : CapId}
    (hf : k.ipc.getChannel k.sched.currentPid dst = some id) (data : List UInt8) :
    k.exchange dst data = (k.withoutChannel k.sched.currentPid dst).exchange dst data ↔
      data ≠ [] ∧ (k.ipc.findIncomingChannels dst 8).find? (fun c => swSlot c.1 == swSlot id) =
        some (id, k.sched.currentPid) := by
  have hw := Kernel.Wf.of_runs hr (.init mem)
  have hw' : (k.withoutChannel k.sched.currentPid dst).Wf := hw.step (a := .drop k.sched.currentPid dst) rfl
  have hslow := exchange_queue hw' (hq.withoutChannel k.sched.currentPid)
    (by simp only [Kernel.withoutChannel, dropChannel_fast, if_pos]) data
  have hme : (k.withoutChannel k.sched.currentPid dst).sched.currentPid = k.sched.currentPid := rfl
  obtain ⟨other, hfast⟩ := exchange_fast hw hq hf data
  rw [hfast, hslow, hme]
  simp only [Option.some.injEq, Prod.mk.injEq, true_and]
  by_cases hd : data = []
  · simp [hd]
  rw [if_neg hd, Option.map_eq_some_iff]
  constructor
  · intro ⟨c, hc, hmsg⟩
    refine ⟨hd, ?_⟩
    have hlive := IpcState.mem_findIncomingChannels (List.mem_of_find?_eq_some hc)
    have hsend : c.2 = k.sched.currentPid := congrArg Message.sender hmsg
    have hid : c.1 = id := by
      rw [hsend] at hlive
      exact Option.some.inj (hlive.symm.trans hf)
    rw [hc, ← hid, ← hsend]
  · intro h
    obtain ⟨-, hc⟩ := h
    exact ⟨_, hc, by rw [if_pos rfl]⟩

/-- Two tasks with a channel between them and nothing in it. -/
def pairedOps : List Op := [.spawn 1, .ensure 0 1]

theorem pairedOps_runs : ∃ h k, Runs Kernel.step free (.init (.ofFrames 16)) h k ∧ Quiet k 1 ∧
    k.ipc.getChannel k.sched.currentPid 1 = some 1 ∧
    k.exchange 1 [] ≠ (k.withoutChannel k.sched.currentPid 1).exchange 1 [] := by
  obtain ⟨h, k, hr, hP⟩ := Runs.of_exec Kernel.step free (.init (.ofFrames 16)) pairedOps
    (fun _ k => k.sched.has 1 && (k.sched.processes.all (·.messageQueue.isEmpty)) &&
      decide (k.ipc.getChannel k.sched.currentPid 1 = some 1) &&
      decide (FinMap.All k.ipc.fast fun _ id => k.ipc.doorbells (swSlot id) = 0) &&
      decide (k.exchange 1 [] ≠ (k.withoutChannel k.sched.currentPid 1).exchange 1 [])) (by decide)
  simp only [Bool.and_eq_true, decide_eq_true_eq, List.all_eq_true, List.isEmpty_iff] at hP
  obtain ⟨⟨⟨⟨hhas, hqueue⟩, hch⟩, hbells⟩, hne⟩ := hP
  have hq : Quiet k 1 := ⟨hhas, fun pr hpr => hqueue pr (List.mem_of_find?_eq_some hpr), fun src id hp => hbells _ _ hp⟩
  exact ⟨h, k, hr, hq, hch, hne⟩

theorem exchange_withoutChannel_iff_paired : ∃ h k, Runs Kernel.step free (.init (.ofFrames 16)) h k ∧ Quiet k 1 ∧
    k.ipc.getChannel k.sched.currentPid 1 = some 1 ∧
    (k.exchange 1 [7] = (k.withoutChannel k.sched.currentPid 1).exchange 1 [7] ↔
      [7] ≠ ([] : List UInt8) ∧ (k.ipc.findIncomingChannels 1 8).find? (fun c => swSlot c.1 == swSlot 1) =
        some (1, k.sched.currentPid)) := by
  obtain ⟨h, k, hr, hq, hch, -⟩ := pairedOps_runs
  exact ⟨h, k, hr, hq, hch, exchange_withoutChannel_iff hr hq hch [7]⟩

/-- Not every exchange comes out the same: an empty message is lost on the channel. -/
theorem exchange_empty_differs : ¬ ∀ (mem : ChannelMem) (h : List KernelEvent) (k : Kernel),
    Runs Kernel.step free (.init mem) h k → ∀ (dst : Pid), Quiet k dst → ∀ (id : CapId) (data : List UInt8),
      k.ipc.getChannel k.sched.currentPid dst = some id →
      k.exchange dst data = (k.withoutChannel k.sched.currentPid dst).exchange dst data := by
  intro hall
  obtain ⟨h, k, hr, hq, hch, hne⟩ := pairedOps_runs
  exact hne (hall _ h k hr 1 hq 1 [] hch)

/-! ## What `send` says of the receiver -/

/-- In every reachable state `send` tells whether the receiver exists,
exactly when the pair has no channel or the receiver does exist. -/
theorem send_truthful_iff {mem : ChannelMem} {h : List KernelEvent} {k k' : Kernel}
    (hr : Runs Kernel.step free (.init mem) h k) {dst : Pid} {data : List UInt8} {ok : Bool}
    (hs : k.send dst data = some (ok, k')) :
    (ok = true ↔ k.sched.has dst = true) ↔
      (k.ipc.getChannel k.sched.currentPid dst = none ∨ k.sched.has dst = true) := by
  have hw := Kernel.Wf.of_runs hr (.init mem)
  simp only [Kernel.send] at hs
  split at hs
  · next id hid =>
    -- The channel has a buffer, so the send returns true, whoever is there.
    obtain ⟨va, hva⟩ := (switchlessVa_live hw.backed).mpr ⟨_, hid⟩
    simp only [IpcState.sendSwitchless, hva, Option.map_eq_some_iff, Prod.mk.injEq] at hs
    obtain ⟨⟨ok', ipc⟩, hsw, rfl, -⟩ := hs
    split at hsw
    · cases hsw; simp [hid]
    · cases hsw
  · next hid =>
    simp only [Option.some.injEq] at hs
    have hok := sendMessage_ok k dst (.inline k.sched.currentPid data) hw.pids
    rw [hs] at hok
    simp only at hok
    simp [hid, hok]

/-- A first send from boot. -/
theorem send_truthful_iff_boot : ∃ k', (Kernel.init (.ofFrames 16)).send 0 [7] = some (true, k') ∧
    ((true = true ↔ (Kernel.init (.ofFrames 16)).sched.has 0 = true) ↔
      ((Kernel.init (.ofFrames 16)).ipc.getChannel (Kernel.init (.ofFrames 16)).sched.currentPid 0 = none ∨
        (Kernel.init (.ofFrames 16)).sched.has 0 = true)) := by
  obtain ⟨⟨ok, k'⟩, hs, rfl⟩ : ∃ r, (Kernel.init (.ofFrames 16)).send 0 [7] = some r ∧ r.1 = true :=
    ⟨_, rfl, by decide⟩
  exact ⟨k', hs, send_truthful_iff .start hs⟩

/-- `kernel_main` sends five messages a window to a pid nobody has; the
reports make the pair hot and create its channel. -/
def promoteAbsentOps : List Op :=
  [36, 72, 108, 144, 180, 216].flatMap fun tick => List.replicate 5 (.send 9 [7]) ++ [yieldAt tick]

/-- `send` does not always tell the truth: once the pair has a channel it
returns true for a receiver that does not exist. -/
theorem send_true_of_absent : ¬ ∀ (mem : ChannelMem) (h : List KernelEvent) (k : Kernel),
    Runs Kernel.step free (.init mem) h k → ∀ (dst : Pid) (data : List UInt8) (ok : Bool) (k' : Kernel),
      k.send dst data = some (ok, k') → (ok = true ↔ k.sched.has dst = true) := by
  intro hall
  obtain ⟨h, k, hr, hP⟩ := Runs.of_exec Kernel.step free (.init (.ofFrames 16)) promoteAbsentOps
    (fun _ k => !k.sched.has 9 && decide ((k.send 9 [7]).map (·.1) = some true)) (by decide +kernel)
  simp only [Bool.and_eq_true, decide_eq_true_eq, Bool.not_eq_true'] at hP
  obtain ⟨habs, hsend⟩ := hP
  obtain ⟨⟨ok, k'⟩, hs, rfl⟩ := Option.map_eq_some_iff.mp hsend
  have := (hall _ h k hr 9 [7] _ k' hs).mp rfl
  rw [habs] at this
  cases this

/-! ## Whether `send` returns -/

namespace Sys

end Sys

/-- Something waits for the current process: a message in its queue, or a
doorbell set on a channel that leads to it. -/
def Kernel.Waiting (k : Kernel) : Prop :=
  k.sched.cur.messageQueue ≠ [] ∨ ∃ (src : Pid) (id : CapId),
    k.ipc.fast[(src, k.sched.currentPid)]? = some id ∧ k.ipc.doorbellPending id = true

/-- `recv` polls this channel: it is among the first eight, in key order. -/
def Kernel.Polled (k : Kernel) (src : Pid) (id : CapId) : Prop :=
  (id, src) ∈ k.ipc.findIncomingChannels k.sched.currentPid 8

/-- `recv` returns nothing exactly when the queue is empty and no channel it
polls has its doorbell set. -/
theorem recv_none_iff {k : Kernel} (h : Sound k.sched k.ipc) :
    k.recv.map (·.1) = some none ↔ k.sched.cur.messageQueue = [] ∧
      ∀ (src : Pid) (id : CapId), k.Polled src id → k.ipc.doorbellPending id = false := by
  rw [recv_msg h, Option.some_inj]
  cases hf : (k.ipc.findIncomingChannels k.sched.currentPid 8).find? (fun c => k.ipc.doorbells (swSlot c.1) != 0) with
  | some c =>
    have hmem := List.mem_of_find?_eq_some hf
    have hbell := List.find?_some hf
    simp only [reduceCtorEq, false_iff, not_and]
    intro _ hall
    rw [← IpcState.doorbellPending, hall c.2 c.1 hmem] at hbell
    cases hbell
  | none =>
    rw [List.find?_eq_none] at hf
    simp only [List.head?_eq_none_iff, iff_self_and]
    intro _ src id hp
    simpa [IpcState.doorbellPending] using hf (id, src) hp

/-- In every reachable state `recv` returns nothing exactly when nothing
waits, exactly when a channel it does not poll has its doorbell set only
while the queue holds a message or a polled channel has its doorbell set. -/
theorem recv_complete_iff {mem : ChannelMem} {h : List KernelEvent} {k : Kernel}
    (hr : Runs Kernel.step free (.init mem) h k) :
    (k.recv.map (·.1) = some none ↔ ¬ k.Waiting) ↔
      ∀ (src : Pid) (id : CapId), k.ipc.fast[(src, k.sched.currentPid)]? = some id → ¬ k.Polled src id →
        k.ipc.doorbellPending id = true →
          k.sched.cur.messageQueue ≠ [] ∨ ∃ (src' : Pid) (id' : CapId), k.Polled src' id' ∧
            k.ipc.doorbellPending id' = true := by
  have hsound := (Kernel.Wf.of_runs hr (.init mem)).toSound
  rw [recv_none_iff hsound]
  constructor
  · intro hiff src id hch _ hbell
    by_contra hno
    rw [not_or, not_not] at hno
    obtain ⟨hqueue, hpolled⟩ := hno
    refine hiff.mp ⟨hqueue, fun src' id' hp => ?_⟩ (.inr ⟨src, id, hch, hbell⟩)
    rw [← Bool.not_eq_true]
    exact fun hb => hpolled ⟨src', id', hp, hb⟩
  · intro hall
    constructor
    · intro h₁ h₂
      obtain ⟨hqueue, hpolled⟩ := h₁
      rcases h₂ with hwait | ⟨src, id, hch, hbell⟩
      · exact hwait hqueue
      -- A set doorbell is on a channel `recv` does not poll, or found by it.
      by_cases hp : k.Polled src id
      · rw [hpolled src id hp] at hbell
        cases hbell
      rcases hall src id hch hp hbell with hq | ⟨src', id', hp', hb'⟩
      · exact hq hqueue
      · rw [hpolled src' id' hp'] at hb'
        cases hb'
    · intro hnone
      rw [Kernel.Waiting, not_or, not_not] at hnone
      refine ⟨hnone.1, fun src id hp => ?_⟩
      rw [← Bool.not_eq_true]
      exact fun hb => hnone.2 ⟨src, id, IpcState.mem_findIncomingChannels hp, hb⟩

/-- Nine tasks with a channel to `kernel_main` each; the ninth sends on its own. -/
def ninthOps : List Op :=
  List.replicate 9 (.spawn 1) ++ (List.range 9).map (fun i => .ensure (i + 1) 0) ++
    List.replicate 9 (yieldAt 0) ++ [.send 0 [7], yieldAt 0]

theorem ninthOps_runs : ∃ h k, Runs Kernel.step free (.init (.ofFrames 16)) h k ∧
    k.recv.map (·.1) = some none ∧ k.Waiting := by
  obtain ⟨h, k, hr, hP⟩ := Runs.of_exec Kernel.step free (.init (.ofFrames 16)) ninthOps
    (fun _ k => decide (k.recv.map (·.1) = some none) && decide (k.sched.currentPid = 0) &&
      decide (k.ipc.fast[(9, 0)]? = some 9) && k.ipc.doorbellPending 9) (by decide)
  simp only [Bool.and_eq_true, decide_eq_true_eq] at hP
  obtain ⟨⟨⟨hrecv, hcur⟩, hch⟩, hbell⟩ := hP
  exact ⟨h, k, hr, hrecv, .inr ⟨9, 9, by rw [hcur]; exact hch, hbell⟩⟩

theorem recv_complete_iff_ninth : ∃ h k, Runs Kernel.step free (.init (.ofFrames 16)) h k ∧
    ((k.recv.map (·.1) = some none ↔ ¬ k.Waiting) ↔
      ∀ (src : Pid) (id : CapId), k.ipc.fast[(src, k.sched.currentPid)]? = some id → ¬ k.Polled src id →
        k.ipc.doorbellPending id = true →
          k.sched.cur.messageQueue ≠ [] ∨ ∃ (src' : Pid) (id' : CapId), k.Polled src' id' ∧
            k.ipc.doorbellPending id' = true) := by
  obtain ⟨h, k, hr, -, -⟩ := ninthOps_runs
  exact ⟨h, k, hr, recv_complete_iff hr⟩

/-- `recv` does not always find what is there: the ninth channel is not polled. -/
theorem recv_none_of_ninth : ¬ ∀ (mem : ChannelMem) (h : List KernelEvent) (k : Kernel),
    Runs Kernel.step free (.init mem) h k → (k.recv.map (·.1) = some none ↔ ¬ k.Waiting) := by
  intro hall
  obtain ⟨h, k, hr, hrecv, hwait⟩ := ninthOps_runs
  exact (hall _ h k hr).mp hrecv hwait

end ChodOs
