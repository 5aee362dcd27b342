/-
What the `delta` of a report counts. A send on the queue path raises the
sender's peer counter, and `observe_ipc` copies it into the pair's entry;
both tables are small, and a slot that is given up and taken again starts
from a count of its own. While the two stay in step the delta is the number
of messages of the window.
-/
import ChodOs.Machine

namespace ChodOs

open StepSys

/-! ## The messages of a window -/

/-- The pair's queue-path sends since the last report. -/
def windowSends (p : Pid × Pid) (h : List KernelEvent) : Nat :=
  h.foldl (fun n e =>
    match e with
    | .queued src dst => if (src, dst) = p then n + 1 else n
    | .report => 0
    | _ => n) 0

/-- Every evaluation is of the messages since the report before it. -/
def DeltasExact (h : List KernelEvent) : Prop :=
  ∀ (h₁ h₂ : List KernelEvent) (src dst : Pid) (n : Nat), h = h₁ ++ .policy (.evaluated src dst n) :: h₂ →
    n = windowSends (src, dst) h₁

theorem windowSends_of_other {p : Pid × Pid} {h es : List KernelEvent}
    (hes : ∀ e ∈ es, (∃ x, e = .ipc x) ∨ ∃ x, e = .policy x) : windowSends p (h ++ es) = windowSends p h := by
  simp only [windowSends, List.foldl_append]
  generalize h.foldl _ 0 = n
  induction es with
  | nil => rfl
  | cons e es ih =>
    have hrest := ih fun e he => hes e (List.mem_cons_of_mem _ he)
    rw [List.foldl_cons]
    rcases hes e List.mem_cons_self with ⟨x, rfl⟩ | ⟨x, rfl⟩ <;> exact hrest

theorem windowSends_report (p : Pid × Pid) (h es : List KernelEvent) : windowSends p (h ++ (es ++ [.report])) = 0 := by
  simp [windowSends, List.foldl_append]

theorem windowSends_queued (p : Pid × Pid) (h : List KernelEvent) (src dst : Pid) (e : IpcEvent) :
    windowSends p (h ++ [.queued src dst, .ipc e]) =
      if (src, dst) = p then windowSends p h + 1 else windowSends p h := by
  simp [windowSends, List.foldl_append]

/-- A step's events: what was exact stays so, and the new evaluations have to be. -/
theorem DeltasExact.append {h es : List KernelEvent} (hd : DeltasExact h)
    (hes : ∀ (es₁ es₂ : List KernelEvent) (src dst : Pid) (n : Nat), es = es₁ ++ .policy (.evaluated src dst n) :: es₂ →
      n = windowSends (src, dst) (h ++ es₁)) : DeltasExact (h ++ es) := by
  intro h₁ h₂ src dst n he
  rcases List.append_eq_append_iff.mp he with ⟨m, rfl, hm⟩ | ⟨m, rfl, hm⟩
  · exact hes m h₂ src dst n hm
  · cases m with
    | nil => exact (by simpa using hes [] h₂ src dst n (by simpa using hm.symm))
    | cons e m =>
      obtain ⟨rfl, rfl⟩ := List.cons.inj hm
      exact hd h₁ m src dst n rfl

/-! ## The two tables in step -/

/-- A queue-path send finds the sender's counter where the pair's entry is
or, without an entry, where the window is. -/
def InStep (h : List KernelEvent) (k : Kernel) (dst : Pid) : Prop :=
  k.sched.cur.peerCount dst < u64Max ∧
    if (k.engine.entry (k.sched.currentPid, dst)).isSome then 0 < k.sched.cur.peerCount dst
    else k.sched.cur.peerCount dst = windowSends (k.sched.currentPid, dst) h

instance (h : List KernelEvent) (k : Kernel) (dst : Pid) : Decidable (InStep h k dst) := by
  unfold InStep; infer_instance

/-- Messages are observed by `send_message` only, and always in step. -/
def CountsInStep (h : List KernelEvent) (k : Kernel) : Op → Prop
  | .observe _ _ _ _ => False
  | .send dst _ => k.ipc.getChannel k.sched.currentPid dst = none → InStep h k dst
  | _ => True

instance : ∀ h k a, Decidable (CountsInStep h k a) := fun _ _ a => by
  induction a using Op.casesOn <;> unfold CountsInStep <;> infer_instance

/-- Messages are observed by `send_message` only. -/
def OnlySends (_ : List KernelEvent) (_ : Kernel) : Op → Prop
  | .observe _ _ _ _ => False
  | _ => True

instance : ∀ h k a, Decidable (OnlySends h k a) := fun _ _ a => by
  induction a using Op.casesOn <;> unfold OnlySends <;> infer_instance

/-- Each entry has counted the window, and the sender's counter, while it
has its slot, is the entry's. -/
structure Counted (h : List KernelEvent) (k : Kernel) : Prop where
  window : ∀ {p : Pid × Pid} {x : IpcEntry}, k.engine.entry p = some x → x.count = x.lastCount + windowSends p h
  link : ∀ {p : Pid × Pid} {x : IpcEntry} {pr : Process}, k.engine.entry p = some x → k.sched.find p.1 = some pr →
    pr.peerCount p.2 = 0 ∨ pr.peerCount p.2 = x.count

theorem peerCount_congr {p p' : Process} (h : p'.ipcPeers = p.ipcPeers) (dst : Pid) :
    p'.peerCount dst = p.peerCount dst := by
  simp only [Process.peerCount, h]

/-- The sender a lookup finds has the counters it had. -/
theorem Tasks.find_some {k k' : Kernel} (h : Tasks k k') {q : Pid} {pr' : Process} (hf : k'.sched.find q = some pr') :
    ∃ pr, k.sched.find q = some pr ∧ pr'.ipcPeers = pr.ipcPeers := by
  have := h.find q
  rw [hf, Option.map_some, eq_comm, Option.map_eq_some_iff] at this
  obtain ⟨pr, hpr, he⟩ := this
  exact ⟨pr, hpr, he.symm⟩

/-- Lookups after a spawn: an old process, or one without peers. -/
theorem find_spawnNew {k : Kernel} {rsp : Nat} {q : Pid} {pr : Process} (hf : (k.spawnNew rsp).sched.find q = some pr) :
    k.sched.find q = some pr ∨ ∀ dst, pr.peerCount dst = 0 := by
  obtain ⟨p, hp, -, -, hpeers⟩ := spawnNew_processes k rsp
  rw [Scheduler.find, hp, List.find?_append] at hf
  cases hold : k.sched.processes.find? (·.pid == q) with
  | some pr' => rw [hold, Option.some_or] at hf; exact .inl (hold.trans hf)
  | none =>
    rw [hold, Option.none_or] at hf
    have hmem := List.mem_of_find?_eq_some hf
    rw [List.mem_singleton] at hmem
    refine .inr fun dst => ?_
    rw [hmem, Process.peerCount_eq, hpeers]
    have : Slots.lookup Process.peerKey dst (Table.fill 8 ((0 : Pid), 0)).1 = none := by
      refine Slots.lookup_eq_none.mpr fun a ha => ?_
      rw [List.eq_of_mem_replicate ha]
      intro hk
      cases hk
    rw [this]; rfl

/-- Lookups after `send_message`: the sender has counted, the others have not. -/
theorem find_sendMessage {k : Kernel} (hw : k.Wf) (dst : Pid) (msg : Message) {q : Pid} {pr' : Process}
    (hf : (k.sendMessage dst msg).2.sched.find q = some pr') :
    (q = k.sched.currentPid ∧ pr'.ipcPeers = (k.sched.cur.recordIpcSend dst).2.ipcPeers) ∨
      (q ≠ k.sched.currentPid ∧ ∃ pr, k.sched.find q = some pr ∧ pr'.ipcPeers = pr.ipcPeers) := by
  rw [sendMessage_sched hw.pids, Scheduler.find_updatePid (Process.push_pid msg),
    Scheduler.find_updatePid (fun p => p.recordIpcSend_pid dst)] at hf
  have hpush : ∀ {o : Option Process}, (if q = dst then o.map (Process.push msg) else o) = some pr' →
      ∃ pr, o = some pr ∧ pr'.ipcPeers = pr.ipcPeers := by
    intro o ho
    split at ho
    · obtain ⟨pr, hpr, rfl⟩ := Option.map_eq_some_iff.mp ho; exact ⟨pr, hpr, rfl⟩
    · exact ⟨pr', ho, rfl⟩
  obtain ⟨pr, hpr, hpeers⟩ := hpush hf
  split at hpr
  · next he =>
    rw [he, Scheduler.find_currentPid hw.pids, Option.map_some, Option.some.injEq] at hpr
    exact .inl ⟨he, by rw [hpeers, ← hpr]⟩
  · next hne => exact .inr ⟨hne, pr, hpr, hpeers⟩

section queue
variable {h : List KernelEvent} {k : Kernel}

/-- The sender's counter after one more message; it is below the maximum. -/
theorem InStep.count {dst : Pid} (hin : InStep h k dst) :
    satAdd (k.sched.cur.peerCount dst) 1 = k.sched.cur.peerCount dst + 1 := by
  have := hin.1
  simp only [satAdd]; omega

/-- The entry of the pair that sends: the counter continues it, or starts it where the window is. -/
theorem Counted.entry_sent (hc : Counted h k) (hw : k.Wf) {dst : Pid} (hin : InStep h k dst) {data : List UInt8}
    {x : IpcEntry} (hx : (k.sendMessage dst (.inline k.sched.currentPid data)).2.engine.entry
      (k.sched.currentPid, dst) = some x) : x.count = k.sched.cur.peerCount dst + 1 ∧
        x.count = x.lastCount + (windowSends (k.sched.currentPid, dst) h + 1) := by
  have hx : (k.engine.observeIpc k.sched.currentPid dst (k.sched.recordSend dst).1
    (Message.inline k.sched.currentPid data).len).entry (k.sched.currentPid, dst) = some x := hx
  rw [PolicyEngine.entry_observeIpc hw.pairs, if_pos rfl, Scheduler.recordSend, Process.recordIpcSend_count, hin.count,
    Option.some.injEq] at hx
  have hin2 := hin.2
  cases hold : k.engine.entry (k.sched.currentPid, dst) with
  | none =>
    rw [hold] at hx hin2
    subst hx
    simp only [Option.isSome_none, Bool.false_eq_true, if_false] at hin2
    simp [IpcEntry.fresh, IpcEntry.empty, hin2]
  | some y =>
    rw [hold] at hx hin2
    subst hx
    simp only [Option.isSome_some, if_pos] at hin2
    have hlink : k.sched.cur.peerCount dst = y.count :=
      (hc.link hold (Scheduler.find_currentPid hw.pids)).resolve_left (Nat.ne_of_gt hin2)
    refine ⟨rfl, ?_⟩
    simp only [Option.map_some, Option.getD_some, IpcEntry.observed]
    rw [hlink, hc.window hold, Nat.add_assoc]

/-- Every other pair has the entry it had, or none. -/
theorem entry_of_sendMessage (hw : k.Wf) {dst : Pid} {msg : Message} {p : Pid × Pid} {x : IpcEntry}
    (hne : p ≠ (k.sched.currentPid, dst)) (hx : (k.sendMessage dst msg).2.engine.entry p = some x) :
    k.engine.entry p = some x := by
  have hx : (k.engine.observeIpc k.sched.currentPid dst (k.sched.recordSend dst).1 msg.len).entry p = some x := hx
  rw [PolicyEngine.entry_observeIpc hw.pairs, if_neg hne] at hx
  split at hx
  · cases hx
  · exact hx

/-- A send in step keeps the tables in step. -/
theorem Counted.queue (hc : Counted h k) (hw : k.Wf) {dst : Pid} (hin : InStep h k dst) (data : List UInt8)
    (e : IpcEvent) :
    Counted (h ++ [.queued k.sched.currentPid dst, .ipc e])
      (k.sendMessage dst (.inline k.sched.currentPid data)).2 := by
  have hme := Scheduler.find_currentPid hw.pids
  have hkeyed : Process.PeersKeyed k.sched.cur.ipcPeers :=
    hw.peers _ (List.mem_map_of_mem (List.mem_of_find?_eq_some hme))
  constructor
  · intro p x hx
    rw [windowSends_queued]
    by_cases hp : p = (k.sched.currentPid, dst)
    · subst hp; rw [if_pos rfl]; exact (hc.entry_sent hw hin hx).2
    · rw [if_neg fun he => hp he.symm]; exact hc.window (entry_of_sendMessage hw hp hx)
  · intro p x pr' hx hf
    rcases find_sendMessage hw dst _ hf with ⟨hq, hpeers⟩ | ⟨hq, pr, hpr, hpeers⟩
    · rw [peerCount_congr hpeers]
      have hrec := Process.peerCount_recordIpcSend hkeyed dst p.2
      by_cases hp : p = (k.sched.currentPid, dst)
      · subst hp
        rw [if_pos rfl] at hrec
        exact .inr (by rw [hrec, hin.count, (hc.entry_sent hw hin hx).1])
      · have hne : p.2 ≠ dst := fun he => hp (Prod.ext hq he)
        rw [if_neg hne] at hrec
        rcases hrec with hrec | hrec
        · exact .inl hrec
        · rw [hrec]; exact hc.link (entry_of_sendMessage hw hp hx) (by rw [hq]; exact hme)
    · rw [peerCount_congr hpeers]
      exact hc.link (entry_of_sendMessage hw (fun he => hq (by rw [he])) hx) hpr

end queue

theorem Counted.step {h : List KernelEvent} {k k' : Kernel} {a : Op} {es : List KernelEvent} (hc : Counted h k)
    (hw : k.Wf) (hok : CountsInStep h k a) (hs : k.step a = some (es, k')) : Counted (h ++ es) k' := by
  cases step_effect hs with
  | calm ht htab _ hes =>
    have hwin : ∀ p, windowSends p (h ++ es) = windowSends p h := fun p =>
      windowSends_of_other fun e he => .inl (hes e he)
    constructor
    · intro p x hx
      rw [PolicyEngine.entry_congr htab] at hx
      rw [hwin]; exact hc.window hx
    · intro p x pr' hx hf
      rw [PolicyEngine.entry_congr htab] at hx
      obtain ⟨pr, hpr, hpeers⟩ := ht.find_some hf
      rw [peerCount_congr hpeers]; exact hc.link hx hpr
  | spawn rsp =>
    rw [List.append_nil]
    constructor
    · intro p x hx
      rw [PolicyEngine.entry_congr (spawnNew_ipcTable k rsp)] at hx
      exact hc.window hx
    · intro p x pr hx hf
      rw [PolicyEngine.entry_congr (spawnNew_ipcTable k rsp)] at hx
      rcases find_spawnNew hf with hf | h0
      · exact hc.link hx hf
      · exact .inl (h0 _)
  | queue dst data ok hch => exact hc.queue hw (hok hch) data _
  | observe => exact hok.elim
  | ensure he => rw [List.append_nil]; exact ⟨hc.window, hc.link⟩
  | drop src dst => rw [List.append_nil]; exact ⟨hc.window, hc.link⟩
  | report _ ht hrep =>
    constructor
    · intro p x' hx'
      obtain ⟨x, hx, hcl, -⟩ := hrep.entry_some hw.pairs hx'
      rw [windowSends_report, hcl.count, hcl.last (PolicyEngine.entry_some hx).2.1, Nat.add_zero]
    · intro p x' pr' hx' hf
      obtain ⟨x, hx, hcl, -⟩ := hrep.entry_some hw.pairs hx'
      obtain ⟨pr, hpr, hpeers⟩ := ht.find_some hf
      rw [peerCount_congr hpeers, hcl.count]; exact hc.link hx hpr

/-- What a report evaluates is what the window counted. -/
theorem Counted.deltas {h : List KernelEvent} {k k' : Kernel} {a : Op} {es : List KernelEvent} (hc : Counted h k)
    (hw : k.Wf) (hs : k.step a = some (es, k')) {es₁ es₂ : List KernelEvent} {src dst : Pid} {n : Nat}
    (he : es = es₁ ++ .policy (.evaluated src dst n) :: es₂) : n = windowSends (src, dst) (h ++ es₁) := by
  have hmem : .policy (.evaluated src dst n) ∈ es := by rw [he]; simp
  cases step_effect hs with
  | calm _ _ _ hes => obtain ⟨x, hx⟩ := hes _ hmem; cases hx
  | spawn | queue | observe | ensure | drop => simp at hmem
  | report _ _ hrep =>
    simp only [List.mem_append, List.mem_map, KernelEvent.policy.injEq, exists_eq_right, List.mem_singleton,
      reduceCtorEq, or_false] at hmem
    obtain ⟨x, hx, rfl⟩ := (hrep.evaluated_iff hw.pairs).mp hmem
    have hother : ∀ e ∈ es₁, (∃ x, e = .ipc x) ∨ ∃ x, e = .policy x := by
      intro e hmem₁
      -- The marker of the report comes last.
      have hpre : es₁ <+: _ := ⟨_, he.symm⟩
      rw [List.prefix_concat_iff] at hpre
      rcases hpre with heq | hpre
      · rw [heq] at he
        have := congrArg List.length he
        simp at this
      · obtain ⟨ev, -, rfl⟩ := List.mem_map.mp (hpre.subset hmem₁)
        exact .inr ⟨ev, rfl⟩
    rw [windowSends_of_other hother, IpcEntry.delta, hc.window hx]
    omega

theorem counted_init (mem : ChannelMem) : Counted [] (.init mem) := by
  have hnone : ∀ p, (Kernel.init mem).engine.entry p = none := fun p => by
    refine Slots.lookup_eq_none.mpr fun e he => ?_
    have : (Kernel.init mem).engine.ipcTable = .fill _ .empty := PolicyEngine.register_ipcTable _ _
    rw [this] at he
    rw [List.eq_of_mem_replicate he]; exact nofun
  constructor
  · intro p x hx; rw [hnone] at hx; cases hx
  · intro p x pr hx; rw [hnone] at hx; cases hx

/-- **The delta is the message count** in every run whose queue-path sends
all find the two tables in step. -/
theorem deltasExact_of_inStep {mem : ChannelMem} {h : List KernelEvent} {k : Kernel}
    (hr : Runs Kernel.step CountsInStep (.init mem) h k) : DeltasExact h := by
  have hinv : k.Wf ∧ Counted h k ∧ DeltasExact h := by
    refine hr.invariant (fun h k => k.Wf ∧ Counted h k ∧ DeltasExact h) ⟨.init mem, counted_init mem, ?_⟩ ?_
    · intro h₁ h₂ src dst n he; simp at he
    · intro h k a es k' ⟨hw, hc, hd⟩ hok hs
      exact ⟨hw.step hs, hc.step hw hok hs, hd.append fun es₁ es₂ src dst n he => hc.deltas hw hs he⟩
  exact hinv.2.2

/-- `kernel_main` sends task 1 messages, and both yield until the report has run. -/
def sendWindow (n tick : Nat) : List Op := List.replicate n (.send 1 [7]) ++ List.replicate 2 (yieldAt tick)

theorem deltasExact_of_inStep_five : ∃ h k, Runs Kernel.step CountsInStep (.init (.ofFrames 16)) h k ∧
    .policy (.evaluated 0 1 5) ∈ h ∧ .policy (.evaluated 0 1 6) ∈ h ∧ DeltasExact h := by
  obtain ⟨h, k, hr, hP⟩ := Runs.of_exec Kernel.step CountsInStep (.init (.ofFrames 16))
    (.spawn 0 :: sendWindow 5 36 ++ sendWindow 6 72)
    (fun h _ => decide (.policy (.evaluated 0 1 5) ∈ h) && decide (.policy (.evaluated 0 1 6) ∈ h)) (by decide)
  simp only [Bool.and_eq_true, decide_eq_true_eq] at hP
  exact ⟨h, k, hr, hP.1, hP.2, deltasExact_of_inStep hr⟩

/-- Not every delta is exact: three messages, a window without any (the
entry decays), then one message. The new entry starts at the sender's
counter with nothing taken off, so the report counts four. -/
theorem not_deltasExact_of_reentry : ¬ ∀ (mem : ChannelMem) (h : List KernelEvent) (k : Kernel),
    Runs Kernel.step OnlySends (.init mem) h k → DeltasExact h := by
  intro hall
  obtain ⟨h, k, hr, hP⟩ := Runs.of_exec Kernel.step OnlySends (.init (.ofFrames 16))
    (.spawn 0 :: sendWindow 3 36 ++ sendWindow 0 72 ++ sendWindow 1 108)
    (fun h _ => (List.range h.length).any fun i =>
      decide (h[i]? = some (.policy (.evaluated 0 1 4))) && decide (windowSends (0, 1) (h.take i) = 1))
    (by decide)
  simp only [List.any_eq_true, Bool.and_eq_true, decide_eq_true_eq] at hP
  obtain ⟨i, -, hi, hn⟩ := hP
  have hsplit : h = h.take i ++ .policy (.evaluated 0 1 4) :: h.drop (i + 1) := by
    obtain ⟨hlt, he⟩ := List.getElem?_eq_some_iff.mp hi
    rw [← he, List.getElem_cons_drop, List.take_append_drop]
  have := hall _ h k hr _ _ 0 1 4 hsplit
  rw [hn] at this
  cases this

end ChodOs
