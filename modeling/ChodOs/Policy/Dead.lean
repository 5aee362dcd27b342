/-
What a report still does for a process that was killed. `unregister` gives
up its statistics slot for good, but the pair table and the memory table
keep it: a hot pair or a burst of `mmap` calls from before acts later.
-/
import ChodOs.Machine

namespace ChodOs

open StepSys

/-- The event creates a channel of the process, pins it or sets its priority. -/
def PolicyEvent.handles (pid : Pid) : PolicyEvent → Prop
  | .created src dst => src = pid ∨ dst = pid
  | .pinned src dst _ => src = pid ∨ dst = pid
  | .prioritySet q _ => q = pid
  | _ => False

instance (pid : Pid) : DecidablePred (PolicyEvent.handles pid) := fun e => by
  cases e <;> simp only [PolicyEvent.handles] <;> infer_instance

/-- The process makes no call that the engine hears of. -/
def Silent (pid : Pid) (_ : List KernelEvent) (k : Kernel) : Op → Prop
  | .send _ _ => k.sched.currentPid ≠ pid
  | .observe src _ _ _ => src ≠ pid
  | .mmap q => q ≠ pid
  | .pageFault q => q ≠ pid
  | _ => True

instance (pid : Pid) : ∀ h k a, Decidable (Silent pid h k a) := fun _ _ a => by
  induction a using Op.casesOn <;> unfold Silent <;> infer_instance

/-- Neither the hot pairs of a report nor its memory block concern the process. -/
def Forgotten (pid : Pid) (k : Kernel) : Prop :=
  (∀ e ∈ topPairs k.engine.ipcTable.1, e.isHot = true → e.src ≠ pid ∧ e.dst ≠ pid) ∧
    ∀ m ∈ k.engine.memTable.1, m.active = true → m.pid = pid → m.mmapDelta < memHotThreshold

instance (pid : Pid) (k : Kernel) : Decidable (Forgotten pid k) := by unfold Forgotten; infer_instance

/-- Every report with the engine on finds the process forgotten. -/
def ReportsForgotten (pid : Pid) (h : List KernelEvent) (k : Kernel) (a : Op) : Prop :=
  Silent pid h k a ∧
    match a with
    | .preempt _ _ c => k.reportDue c.tick = true → k.policyEnabled = true → Forgotten pid k
    | _ => True

instance (pid : Pid) : ∀ h k a, Decidable (ReportsForgotten pid h k a) := fun _ _ a => by
  induction a using Op.casesOn <;> unfold ReportsForgotten <;> infer_instance

/-! ## The slot stays given up -/

/-- The pid was handed out and has no statistics slot. -/
structure Unregistered (pid : Pid) (k : Kernel) : Prop where
  old : pid < k.sched.nextPid
  slot : ∀ s ∈ k.engine.stats.1, s.key ≠ some pid

/-- Slots that are only kept or given up. -/
theorem Unregistered.tasks {pid : Pid} {k k' : Kernel} (h : Unregistered pid k) (ht : Tasks k k') :
    Unregistered pid k' := by
  refine ⟨by rw [ht.nextPid]; exact h.old, fun s' hs' hkey => ?_⟩
  obtain ⟨hact, hpid⟩ := CpuStats.key_eq_some.mp hkey
  obtain ⟨s, hs, hk⟩ := Slots.forall₂_mem_right ht.stats hs'
  obtain ⟨hact', hpid'⟩ := hk hact
  exact h.slot s hs (CpuStats.key_eq_some.mpr ⟨hact', by rw [← hpid', hpid]⟩)

/-- A new process has another pid. -/
theorem Unregistered.spawnNew {pid : Pid} {k : Kernel} (h : Unregistered pid k) (rsp : Nat) :
    Unregistered pid (k.spawnNew rsp) := by
  have hnext : (k.spawnNew rsp).sched.nextPid = k.sched.nextPid + 1 := rfl
  refine ⟨by rw [hnext]; exact Nat.lt_succ_of_lt h.old, fun s hs hkey => ?_⟩
  have hs : s ∈ (k.engine.register k.sched.nextPid).stats.1 := hs
  simp only [PolicyEngine.register] at hs
  split at hs
  · exact h.slot s hs hkey
  · rcases Slots.mem_updateFirst hs with hs | ⟨-, -, -, rfl⟩
    · exact h.slot s hs hkey
    · have hpid := (CpuStats.key_eq_some.mp hkey).2
      exact absurd hpid.symm (Nat.ne_of_lt h.old)

theorem Unregistered.step {pid : Pid} {k k' : Kernel} {a : Op} {es : List KernelEvent} (h : Unregistered pid k)
    (hs : k.step a = some (es, k')) : Unregistered pid k' := by
  cases step_effect hs with
  | calm ht => exact h.tasks ht
  | spawn rsp => exact h.spawnNew rsp
  | queue | observe | ensure | drop => exact ⟨h.old, h.slot⟩
  | report _ ht => exact h.tasks ht

/-- `kill` gives up the one slot the process has. -/
theorem unregistered_kill {k : Kernel} (hw : k.Wf) {pid : Pid} (hhas : k.sched.has pid = true) :
    Unregistered pid (k.kill pid) := by
  obtain ⟨p, hp, hpid⟩ : ∃ p ∈ k.sched.processes, p.pid = pid := by simpa [Scheduler.has] using hhas
  refine ⟨hpid ▸ hw.fresh _ (List.mem_map_of_mem hp), fun s hs hkey => ?_⟩
  have hs : s ∈ Slots.updateFirst (PolicyEngine.isSlot pid) (fun s => { s with active := false }) k.engine.stats.1 := hs
  have hslot : ∀ {s : CpuStats}, PolicyEngine.isSlot pid s = true ↔ s.key = some pid := by
    intro s; simp [PolicyEngine.isSlot, CpuStats.key_eq_some]
  rcases Slots.updateFirst_eq_set (PolicyEngine.isSlot pid) (fun s => { s with active := false }) k.engine.stats.1 with
    ⟨hno, heq⟩ | ⟨i, a, hi, ha, heq⟩
  · rw [heq] at hs
    have := hno s hs
    rw [hslot.mpr hkey] at this
    cases this
  · rw [heq] at hs
    have hnone := hw.slots.lookup_set hi (x := { a with active := false }) (fun _ hk => by cases hk) pid
    rw [if_neg (by simp [CpuStats.key]), if_pos (hslot.mp ha)] at hnone
    exact Slots.lookup_eq_none.mp hnone s hs hkey

/-! ## What the reports do afterwards -/

/-- A report that has forgotten the process does not touch it. -/
theorem Unregistered.report {pid : Pid} {k k' : Kernel} {log : List PolicyEvent} (h : Unregistered pid k)
    (hrep : Reported k k' log) (hf : k.policyEnabled = true → Forgotten pid k) {ev : PolicyEvent} (hev : ev ∈ log) :
    ¬ ev.handles pid := by
  intro hh
  obtain ⟨pre, hlog, hpre⟩ := hrep.log
  rw [hlog, List.mem_append, List.mem_flatMap] at hev
  rcases hev with hev | ⟨e, -, hev⟩
  · obtain ⟨hon, htouch⟩ := hpre ev hev
    obtain ⟨hpairs, hmem⟩ := hf hon
    cases htouch with
    | @stats s pri hs hact => exact h.slot s hs (CpuStats.key_eq_some.mpr ⟨hact, hh⟩)
    | @hot e ev he hot hpr =>
      have hne := hpairs e he hot
      cases ev with
      | created src dst => obtain ⟨rfl, rfl⟩ := hpr; exact hh.elim hne.1 hne.2
      | pinned src dst cpu => obtain ⟨rfl, rfl⟩ := hpr; exact hh.elim hne.1 hne.2
      | prioritySet q pri =>
        have hq : q = pid := hh
        exact hpr.elim (fun he => hne.1 (he ▸ hq)) fun he => hne.2 (he ▸ hq)
      | _ => exact hpr
    | @mem m hm hact hhot => exact Nat.not_lt.mpr hhot (hmem m hm hact hh)
  · obtain ⟨-, rfl | ⟨rfl, -⟩ | ⟨rfl, -⟩⟩ := IpcEntry.mem_events.mp hev <;> exact hh

theorem Unregistered.events {pid : Pid} {h : List KernelEvent} {k k' : Kernel} {a : Op} {es : List KernelEvent}
    (hu : Unregistered pid k) (hok : ReportsForgotten pid h k a) (hs : k.step a = some (es, k')) {ev : PolicyEvent}
    (hev : .policy ev ∈ es) : ¬ ev.handles pid := by
  cases step_effect hs with
  | calm _ _ _ hes => obtain ⟨x, hx⟩ := hes _ hev; cases hx
  | spawn | queue | observe | ensure | drop => simp at hev
  | report hdue _ hrep =>
    simp only [List.mem_append, List.mem_map, KernelEvent.policy.injEq, exists_eq_right, List.mem_singleton,
      reduceCtorEq, or_false] at hev
    exact hu.report hrep (hok.2 hdue) hev

/-- **A dead process is left alone** in every run after its `kill` in which
it is silent and whose reports, with the engine on, find it in no hot pair
and with no burst of `mmap` calls. -/
theorem killed_left_alone {mem : ChannelMem} {h₀ h : List KernelEvent} {k k' : Kernel}
    (hr : Runs Kernel.step free (.init mem) h₀ k) {pid : Pid} (hhas : k.sched.has pid = true)
    (hrun : Runs Kernel.step (ReportsForgotten pid) (k.kill pid) h k') {ev : PolicyEvent} (hev : .policy ev ∈ h) :
    ¬ ev.handles pid := by
  have hw := Kernel.Wf.of_runs hr (.init mem)
  have hinv : Unregistered pid k' ∧ ∀ ev, .policy ev ∈ h → ¬ ev.handles pid := by
    refine hrun.invariant (fun h k => Unregistered pid k ∧ ∀ ev, .policy ev ∈ h → ¬ ev.handles pid)
      ⟨unregistered_kill hw hhas, nofun⟩ fun {h k a es k'} hi hok hs => ⟨hi.1.step hs, fun ev hev => ?_⟩
    rcases List.mem_append.mp hev with hev | hev
    · exact hi.2 ev hev
    · exact hi.1.events hok hs hev
  exact hinv.2 ev hev

/-- Task 1 sends task 2 five messages in each of five windows. -/
def courtOps : List Op :=
  [.spawn 0, .spawn 0, yieldAt 0] ++ [40, 80, 120, 160, 200].flatMap fun tick =>
    List.replicate 5 (.send 2 [7]) ++ List.replicate 3 (yieldAt tick)

/-- A process that is killed before it did anything, and a report. -/
theorem killed_left_alone_spawned : ∃ (k k' : Kernel) (h₀ h : List KernelEvent) (ev : PolicyEvent),
    Runs Kernel.step free (.init (.ofFrames 16)) h₀ k ∧ k.sched.has 1 = true ∧
    Runs Kernel.step (ReportsForgotten 1) (k.kill 1) h k' ∧ .policy ev ∈ h ∧ ¬ ev.handles 1 := by
  obtain ⟨h₀, k, hr, hP⟩ := Runs.of_exec Kernel.step free (.init (.ofFrames 16)) [.spawn 0]
    (fun _ k => k.sched.has 1 && (exec Kernel.step (ReportsForgotten 1) [] (k.kill 1) [yieldAt 36]).any
      fun r : List KernelEvent × Kernel => decide (.policy (.prioritySet 0 .high) ∈ r.1)) (by decide)
  simp only [Option.any_eq_true, Bool.and_eq_true, decide_eq_true_eq] at hP
  obtain ⟨hhas, ⟨h, k'⟩, hrun, hev⟩ := hP
  have hrun := Runs.start.exec hrun
  exact ⟨k, k', h₀, h, _, hr, hhas, hrun, hev, killed_left_alone hr hhas hrun hev⟩

/-- A dead process is not always left alone: killed when its pair is hot, it
gets a channel and a core at the next report. -/
theorem killed_gets_channel : ¬ ∀ (mem : ChannelMem) (h₀ h : List KernelEvent) (k k' : Kernel) (pid : Pid),
    Runs Kernel.step free (.init mem) h₀ k → k.sched.has pid = true → Runs Kernel.step (Silent pid) (k.kill pid) h k' →
      ∀ ev, .policy ev ∈ h → ¬ ev.handles pid := by
  intro hall
  obtain ⟨h₀, k, hr, hP⟩ := Runs.of_exec Kernel.step free (.init (.ofFrames 16)) courtOps
    (fun _ k => k.sched.has 2 && (exec Kernel.step (Silent 2) [] (k.kill 2) [yieldAt 240]).any
      fun r : List KernelEvent × Kernel => decide (.policy (.created 1 2) ∈ r.1)) (by decide +kernel)
  simp only [Option.any_eq_true, Bool.and_eq_true, decide_eq_true_eq] at hP
  obtain ⟨hhas, ⟨h, k'⟩, hrun, hev⟩ := hP
  exact hall _ h₀ h k k' 2 hr hhas (Runs.start.exec hrun) _ hev (.inr rfl)

end ChodOs
