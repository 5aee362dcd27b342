/-
The engine's pair table and the channel registry: which channels the decay
loop can still reclaim. Nothing but the reports ties the two together, and
`observe_ipc` may give a pair's entry away while its channel lives on.
-/
import ChodOs.Machine

namespace ChodOs

open StepSys

/-! ## No orphans -/

/-- Every registered pair has an active entry, so the decay loop sees it. -/
def Tracked (k : Kernel) : Prop :=
  ∀ (p : Pid × Pid) (id : CapId), k.ipc.fast[p]? = some id → ∃ e ∈ k.engine.ipcTable.1, e.active = true ∧ e.pair = p

/-- Observing a pair takes no entry from a pair with a channel. -/
def NoOrphan (k : Kernel) (p : Pid × Pid) : Prop := ∀ q ∈ k.engine.displaced p, k.ipc.fast[q]? = none

instance (k : Kernel) (p : Pid × Pid) : Decidable (NoOrphan k p) := by unfold NoOrphan; infer_instance

/-- Only reports create channels. -/
def OnlyReports (_ : List KernelEvent) (_ : Kernel) : Op → Prop
  | .ensure _ _ => False
  | _ => True

instance : ∀ h k a, Decidable (OnlyReports h k a) := fun _ _ a => by
  cases a <;> simp only [OnlyReports] <;> infer_instance

/-- Only reports create channels, and no `observe_ipc` orphans one. -/
def KeepsTracked (_ : List KernelEvent) (k : Kernel) : Op → Prop
  | .ensure _ _ => False
  | .observe src dst _ _ => NoOrphan k (src, dst)
  | .send dst _ => k.ipc.getChannel k.sched.currentPid dst = none → NoOrphan k (k.sched.currentPid, dst)
  | _ => True

instance : ∀ h k a, Decidable (KeepsTracked h k a) := fun _ _ a => by
  cases a <;> simp only [KeepsTracked] <;> infer_instance

/-- The same, with the table as a map. -/
theorem tracked_iff {k : Kernel} (hw : k.Wf) :
    Tracked k ↔ ∀ (p : Pid × Pid) (id : CapId), k.ipc.fast[p]? = some id → ∃ e, k.engine.entry p = some e := by
  constructor
  · intro h p id hp
    obtain ⟨e, he, ha, rfl⟩ := h p id hp
    exact ⟨e, PolicyEngine.entry_of_mem hw.pairs he ha⟩
  · intro h p id hp
    obtain ⟨e, he⟩ := h p id hp
    exact ⟨e, PolicyEngine.entry_some he⟩

/-- The engine observes a pair. -/
theorem tracked_observe {k : Kernel} (hw : k.Wf) {src dst : Pid} (count bytes : Nat)
    (ht : ∀ (p : Pid × Pid) (id : CapId), k.ipc.fast[p]? = some id → ∃ e, k.engine.entry p = some e)
    (hno : NoOrphan k (src, dst)) {p : Pid × Pid} {id : CapId} (hp : k.ipc.fast[p]? = some id) :
    ∃ e, (k.engine.observeIpc src dst count bytes).entry p = some e := by
  rw [PolicyEngine.entry_observeIpc hw.pairs]
  split
  · exact ⟨_, rfl⟩
  · split
    · next hd => rw [hno p hd] at hp; cases hp
    · exact ht p id hp

theorem tracked_step {h : List KernelEvent} {k k' : Kernel} {a : Op} {es : List KernelEvent} (hw : k.Wf)
    (ht : Tracked k) (hok : KeepsTracked h k a) (hs : k.step a = some (es, k')) : Tracked k' := by
  rw [tracked_iff hw] at ht
  rw [tracked_iff (hw.step hs)]
  intro p id hp
  cases step_effect hs with
  | calm _ htab hf _ =>
    rw [hf] at hp
    rw [PolicyEngine.entry_congr htab]
    exact ht p id hp
  | spawn rsp =>
    rw [PolicyEngine.entry_congr (spawnNew_ipcTable k rsp)]
    exact ht p id hp
  | queue dst data ok hch => exact tracked_observe hw _ _ ht (hok hch) hp
  | observe src dst count bytes => exact tracked_observe hw _ _ ht hok hp
  | ensure _ => exact hok.elim
  | drop src dst =>
    rw [dropChannel_fast] at hp
    split at hp
    · cases hp
    · exact ht p id hp
  | report _ _ hrep =>
    obtain ⟨hkept, hold⟩ := hrep.fast hp
    obtain ⟨e, he⟩ : ∃ e, k.engine.entry p = some e := by
      rcases hold with hold | ⟨e, he, rfl⟩
      · exact ht p id hold
      · obtain ⟨hmem, ha⟩ := mem_topPairs he
        exact ⟨e, PolicyEngine.entry_of_mem hw.pairs hmem ha⟩
    obtain ⟨hmem, -, hpair⟩ := PolicyEngine.entry_some he
    obtain ⟨e', he', -⟩ := hrep.entry_kept hw.pairs he (hkept e hmem hpair)
    exact ⟨e', he'⟩

/-- **No orphans** in every run whose `observe_ipc` calls all leave the
entries of pairs with channels alone. -/
theorem tracked_of_keepsTracked {mem : ChannelMem} {h : List KernelEvent} {k : Kernel}
    (hr : Runs Kernel.step KeepsTracked (.init mem) h k) : Tracked k := by
  have hboth : k.Wf ∧ Tracked k := by
    refine hr.invariant_state (fun k => k.Wf ∧ Tracked k) ⟨.init mem, fun p id hp => ?_⟩ fun hi hok hs =>
      ⟨hi.1.step hs, tracked_step hi.1 hi.2 hok hs⟩
    simp [Kernel.init, IpcState.init] at hp
  exact hboth.2

/-- The pair (1, 2) with a hundred messages in two windows: the third report gives it a channel. -/
def heatOps : List Op := [.observe 1 2 50 0, yieldAt 36, .observe 1 2 100 0, yieldAt 72, yieldAt 108]

/-- Sixteen other pairs with more messages. -/
def crowdOps : List Op := (List.range 16).map fun i => .observe 3 (10 + i) 200 0

theorem tracked_of_keepsTracked_hot : ∃ h k, Runs Kernel.step KeepsTracked (.init (.ofFrames 16)) h k ∧
    (k.ipc.getChannel 1 2).isSome = true ∧ Tracked k := by
  obtain ⟨h, k, hr, hP⟩ := Runs.of_exec Kernel.step KeepsTracked (.init (.ofFrames 16)) heatOps
    (fun _ k => (k.ipc.getChannel 1 2).isSome) (by decide)
  exact ⟨h, k, hr, hP, tracked_of_keepsTracked hr⟩

/-- Not every reachable state is free of orphans: a seventeenth pair takes
the entry with the smallest count, and that pair's channel stays. -/
theorem not_tracked_of_crowd : ¬ ∀ (mem : ChannelMem) (h : List KernelEvent) (k : Kernel),
    Runs Kernel.step OnlyReports (.init mem) h k → Tracked k := by
  intro hall
  obtain ⟨h, k, hr, hP⟩ := Runs.of_exec Kernel.step OnlyReports (.init (.ofFrames 16)) (heatOps ++ crowdOps)
    (fun _ k => decide (k.ipc.fast[((1 : Pid), (2 : Pid))]? = some 1) &&
      k.engine.ipcTable.1.all fun e => !decide (e.active = true ∧ e.pair = (1, 2))) (by decide)
  simp only [Bool.and_eq_true, decide_eq_true_eq, List.all_eq_true, Bool.not_eq_true', decide_eq_false_iff_not] at hP
  obtain ⟨hf, hno⟩ := hP
  obtain ⟨e, he, hact⟩ := hall _ h k hr (1, 2) 1 hf
  exact hno e he hact

end ChodOs
