/-
A report with the engine off. Every block that tunes, promotes or boosts
asks `is_enabled`; the decay loop does not, so it still drops channels,
unpins processes and clears their preferred cores.
-/
import ChodOs.Policy.Decay

namespace ChodOs

open StepSys

/-- The channels, the pins, the priorities and the preferred cores are as
they were, and the two periods are the static ones. -/
structure Untouched (k k' : Kernel) : Prop where
  fast : k'.ipc.fast = k.ipc.fast
  affinity : k'.affinity = k.affinity
  priority : k'.sched.processes.map (·.priority) = k.sched.processes.map (·.priority)
  preferredCpu : k'.sched.processes.map (·.preferredCpu) = k.sched.processes.map (·.preferredCpu)
  timeSlice : k'.timeSlice = 3
  reportInterval : k'.engine.reportInterval = 36

/-- The pairs the decay loop reclaims have no channel and no pinned
process, and those that decay have no process with a preferred core. -/
def NothingToReclaim (k : Kernel) : Prop :=
  ∀ e ∈ k.engine.ipcTable.1, e.active = true →
    (e.anomalous = true ∨ e.decays = true →
      k.ipc.fast[e.pair]? = none ∧ k.affinity[e.src]? = none ∧ k.affinity[e.dst]? = none) ∧
    (e.decays = true → ∀ pid, pid = e.src ∨ pid = e.dst → ∀ pr, k.sched.find pid = some pr → pr.preferredCpu = cpuUnset)

/-- With the engine off a report is its decay loop, at the static periods. -/
theorem report_off {k : Kernel} (hoff : k.policyEnabled = false) (tick : Nat) :
    ∃ log k', k.adaptAndReport tick = some (log, k') ∧ k'.ipc = k.engine.ipcTable.1.foldl reclaimIpc k.ipc ∧
      k'.affinity = k.engine.ipcTable.1.foldl reclaimAffinity k.affinity ∧
      k'.sched = k.engine.ipcTable.1.foldl reclaimSched k.sched ∧ k'.timeSlice = 3 ∧ k'.engine.reportInterval = 36 := by
  have ht := tune_spec k tick
  obtain ⟨hsched, hslice, hint⟩ := ht.off hoff
  have hoff₁ : (k.tune tick).2.1.policyEnabled = false := ht.policyEnabled.trans hoff
  have hp := pressure_spec (k.tune tick).2.1 (k.tune tick).2.2
  have hd := decay_frame tick ((k.tune tick).2.1.pressure (k.tune tick).2.2).2
  have hrep : k.adaptAndReport tick = some
      ((k.tune tick).1 ++ [] ++ ((k.tune tick).2.1.pressure (k.tune tick).2.2).1 ++
        (((k.tune tick).2.1.pressure (k.tune tick).2.2).2.decay tick).1,
        (((k.tune tick).2.1.pressure (k.tune tick).2.2).2.decay tick).2) := by
    simp only [Kernel.adaptAndReport, promoteAll_off hoff₁, Option.bind_eq_bind, Option.bind_some]
  refine ⟨_, _, hrep, ?_, ?_, ?_, ?_, ?_⟩
  · rw [decay_ipc, hp.ipcTable, ht.ipcTable, hp.ipc, ht.ipc]
  · rw [decay_affinity, hp.ipcTable, ht.ipcTable, hp.affinity, ht.affinity]
  · rw [decay_sched, hp.ipcTable, ht.ipcTable, hp.off hoff₁, hsched]
  · rw [hd.1, hp.timeSlice, hslice]
  · rw [hd.2.2.2.2, hp.reportInterval, hint]

/-! ## Channels and pins -/

theorem fast_reclaimed_iff (s : IpcState) (t : List IpcEntry) :
    (t.foldl reclaimIpc s).fast = s.fast ↔ ∀ e ∈ t, e.reclaimed = true → s.fast[e.pair]? = none := by
  constructor
  · intro h e he hr
    rw [← h, foldl_reclaimIpc_fast, if_pos]
    exact List.any_eq_true.mpr ⟨e, he, by simp [hr]⟩
  · intro h
    refine Std.ExtTreeMap.ext_getElem? fun p => ?_
    rw [foldl_reclaimIpc_fast]
    split
    · next hany =>
      obtain ⟨e, he, hr⟩ := List.any_eq_true.mp hany
      simp only [Bool.and_eq_true, beq_iff_eq] at hr
      rw [← hr.2, h e he hr.1]
    · rfl

theorem foldl_reclaimAffinity_get (a : Affinity) (t : List IpcEntry) (q : Pid) :
    (t.foldl reclaimAffinity a)[q]? =
      if t.any (fun e => e.reclaimed && (e.src == q || e.dst == q)) then none else a[q]? := by
  induction t generalizing a with
  | nil => simp
  | cons e t ih =>
    rw [List.foldl_cons, ih, List.any_cons]
    cases hr : e.reclaimed with
    | false => simp [reclaimAffinity, hr]
    | true =>
      simp only [reclaimAffinity, hr, if_pos, Affinity.unpin, Std.ExtTreeMap.getElem?_erase, Bool.true_and]
      by_cases hs : e.src = q <;> by_cases hd : e.dst = q <;> simp [hs, hd]

theorem affinity_reclaimed_iff (a : Affinity) (t : List IpcEntry) :
    t.foldl reclaimAffinity a = a ↔ ∀ e ∈ t, e.reclaimed = true → a[e.src]? = none ∧ a[e.dst]? = none := by
  constructor
  · intro h e he hr
    have key : ∀ q, e.src = q ∨ e.dst = q → a[q]? = none := by
      intro q hq
      rw [← h, foldl_reclaimAffinity_get, if_pos]
      refine List.any_eq_true.mpr ⟨e, he, ?_⟩
      rcases hq with rfl | rfl <;> simp [hr]
    exact ⟨key _ (.inl rfl), key _ (.inr rfl)⟩
  · intro h
    refine Std.ExtTreeMap.ext_getElem? fun q => ?_
    rw [foldl_reclaimAffinity_get]
    split
    · next hany =>
      obtain ⟨e, he, hr⟩ := List.any_eq_true.mp hany
      simp only [Bool.and_eq_true, Bool.or_eq_true, beq_iff_eq] at hr
      obtain ⟨hr, rfl | rfl⟩ := hr
      · exact (h e he hr).1.symm
      · exact (h e he hr).2.symm
    · rfl

/-! ## Preferred cores -/

/-- Forget the preferred core of a process. -/
def Scheduler.unsetCpu (s : Scheduler) (pid : Pid) : Scheduler := s.setPreferredCpu pid cpuUnset

theorem Scheduler.find_unsetCpu (s : Scheduler) (pid q : Pid) : (s.unsetCpu pid).find q =
    if q = pid then (s.find q).map fun p => { p with preferredCpu := cpuUnset } else s.find q :=
  s.find_setPreferredCpu pid cpuUnset q

/-- Clearing a core that is clear does nothing. -/
theorem Scheduler.unsetCpu_eq_self {s : Scheduler} {pid : Pid}
    (h : ∀ pr, s.find pid = some pr → pr.preferredCpu = cpuUnset) : s.unsetCpu pid = s := by
  have hprocs : Slots.updateFirst (·.pid == pid) (fun p => { p with preferredCpu := cpuUnset }) s.processes =
      s.processes := Slots.updateFirst_of_find fun pr hpr => by rw [← h pr hpr]
  simp only [Scheduler.unsetCpu, Scheduler.setPreferredCpu, Scheduler.updatePid, hprocs]

/-- The processes whose preferred core the decay loop clears. -/
def unsetPids (t : List IpcEntry) : List Pid := t.flatMap fun e => if e.active && e.decays then [e.src, e.dst] else []

theorem mem_unsetPids {t : List IpcEntry} {pid : Pid} : pid ∈ unsetPids t ↔
    ∃ e ∈ t, e.active = true ∧ e.decays = true ∧ (e.src = pid ∨ e.dst = pid) := by
  simp only [unsetPids, List.mem_flatMap]
  refine exists_congr fun e => and_congr_right fun _ => ?_
  cases e.active <;> cases e.decays <;> simp [eq_comm]

theorem foldl_reclaimSched (s : Scheduler) (t : List IpcEntry) :
    t.foldl reclaimSched s = (unsetPids t).foldl Scheduler.unsetCpu s := by
  induction t generalizing s with
  | nil => rfl
  | cons e t ih =>
    rw [List.foldl_cons, ih]
    simp only [unsetPids, List.flatMap_cons, List.foldl_append, reclaimSched]
    split <;> rfl

/-- Another column of the process table. -/
theorem map_foldl_unset {β : Type} {g : Process → β} (hg : ∀ p : Process, g { p with preferredCpu := cpuUnset } = g p)
    (s : Scheduler) (pids : List Pid) : (pids.foldl Scheduler.unsetCpu s).processes.map g = s.processes.map g := by
  induction pids generalizing s with
  | nil => rfl
  | cons pid pids ih => rw [List.foldl_cons, ih]; exact Scheduler.map_updatePid pid hg

/-- Once cleared, a preferred core stays cleared. -/
theorem find_foldl_unset (s : Scheduler) (pids : List Pid) (q : Pid) : (pids.foldl Scheduler.unsetCpu s).find q =
    if q ∈ pids then (s.find q).map fun p => { p with preferredCpu := cpuUnset } else s.find q := by
  induction pids generalizing s with
  | nil => simp
  | cons pid pids ih =>
    rw [List.foldl_cons, ih, Scheduler.find_unsetCpu]
    by_cases he : q = pid
    · subst he
      cases s.find q <;> simp
    · simp [he]

theorem foldl_unset_eq_self {s : Scheduler} {pids : List Pid}
    (h : ∀ pid ∈ pids, ∀ pr, s.find pid = some pr → pr.preferredCpu = cpuUnset) :
    pids.foldl Scheduler.unsetCpu s = s := by
  induction pids with
  | nil => rfl
  | cons pid pids ih =>
    rw [List.foldl_cons, Scheduler.unsetCpu_eq_self (h pid List.mem_cons_self)]
    exact ih fun q hq => h q (List.mem_cons_of_mem _ hq)

/-- A lookup sees no more than the pids and the column. -/
theorem find_preferredCpu_congr {s s' : Scheduler} (hp : s'.processes.map (·.pid) = s.processes.map (·.pid))
    (hc : s'.processes.map (·.preferredCpu) = s.processes.map (·.preferredCpu)) (q : Pid) :
    (s'.find q).map (·.preferredCpu) = (s.find q).map (·.preferredCpu) := by
  have key : ∀ l : List Process, l.map (fun p => (p.pid, p.preferredCpu)) =
      (l.map (·.pid)).zip (l.map (·.preferredCpu)) := fun l => (List.zip_map' ..).symm
  have hboth : s'.processes.map (fun p => (p.pid, p.preferredCpu)) =
      s.processes.map fun p => (p.pid, p.preferredCpu) := by rw [key, key, hp, hc]
  have hfind := Scheduler.find_congr Prod.fst (fun _ => rfl) hboth q
  simpa [Function.comp_def] using congrArg (Option.map Prod.snd) hfind

theorem preferredCpu_reclaimed_iff (s : Scheduler) (t : List IpcEntry) :
    (t.foldl reclaimSched s).processes.map (·.preferredCpu) = s.processes.map (·.preferredCpu) ↔
      ∀ pid ∈ unsetPids t, ∀ pr, s.find pid = some pr → pr.preferredCpu = cpuUnset := by
  rw [foldl_reclaimSched]
  constructor
  · intro h pid hpid pr hpr
    have := find_preferredCpu_congr (map_foldl_unset (fun _ => rfl) s (unsetPids t)) h pid
    rw [find_foldl_unset, if_pos hpid, hpr] at this
    simpa using this.symm
  · intro h
    rw [foldl_unset_eq_self h]

/-! ## After the decay loop -/

theorem decay_affinity_get (k : Kernel) (tick : Nat) (q : Pid) : (k.decay tick).2.affinity[q]? =
    if k.engine.ipcTable.1.any (fun e => e.reclaimed && (e.src == q || e.dst == q)) then none else k.affinity[q]? := by
  rw [decay_affinity, foldl_reclaimAffinity_get]

theorem decay_find (k : Kernel) (tick : Nat) (q : Pid) : (k.decay tick).2.sched.find q =
    if q ∈ unsetPids k.engine.ipcTable.1 then
      (k.sched.find q).map fun p => { p with preferredCpu := cpuUnset }
    else k.sched.find q := by
  rw [decay_sched, foldl_reclaimSched, find_foldl_unset]

/-! ## A report with the engine off -/

/-- **Off leaves everything alone**, exactly when there is nothing to reclaim. -/
theorem untouched_off_iff {k : Kernel} (hoff : k.policyEnabled = false) (tick : Nat) :
    ∃ log k', k.adaptAndReport tick = some (log, k') ∧ (Untouched k k' ↔ NothingToReclaim k) := by
  obtain ⟨log, k', hrep, hipc, haff, hsched, hslice, hint⟩ := report_off hoff tick
  refine ⟨log, k', hrep, ?_⟩
  have hrec : ∀ e : IpcEntry, e.reclaimed = true ↔ e.active = true ∧ (e.anomalous = true ∨ e.decays = true) := by
    intro e; simp [IpcEntry.reclaimed]
  have hall : Untouched k k' ↔ k'.ipc.fast = k.ipc.fast ∧ k'.affinity = k.affinity ∧
      k'.sched.processes.map (·.preferredCpu) = k.sched.processes.map (·.preferredCpu) :=
    ⟨fun h => ⟨h.fast, h.affinity, h.preferredCpu⟩, fun h =>
      ⟨h.1, h.2.1, by rw [hsched, foldl_reclaimSched, map_foldl_unset fun _ => rfl], h.2.2, hslice, hint⟩⟩
  rw [hall, hipc, haff, hsched, fast_reclaimed_iff, affinity_reclaimed_iff, preferredCpu_reclaimed_iff]
  constructor
  · intro h e he hact
    obtain ⟨hf, ha, hc⟩ := h
    refine ⟨fun hr => ?_, fun hd pid hpid => hc pid (mem_unsetPids.mpr ⟨e, he, hact, hd, hpid.imp Eq.symm Eq.symm⟩)⟩
    have hr := (hrec e).mpr ⟨hact, hr⟩
    exact ⟨hf e he hr, (ha e he hr).1, (ha e he hr).2⟩
  · intro h
    refine ⟨fun e he hr => ?_, fun e he hr => ?_, fun pid hpid => ?_⟩
    · obtain ⟨hact, hr⟩ := (hrec e).mp hr; exact ((h e he hact).1 hr).1
    · obtain ⟨hact, hr⟩ := (hrec e).mp hr; exact ((h e he hact).1 hr).2
    · obtain ⟨e, he, hact, hd, hpid⟩ := mem_unsetPids.mp hpid
      exact (h e he hact).2 hd pid (hpid.imp Eq.symm Eq.symm)

/-- A fresh engine has nothing to reclaim. -/
theorem untouched_off_iff_boot :
    ∃ k : Kernel, k.policyEnabled = false ∧ NothingToReclaim k ∧
      ∃ log k', k.adaptAndReport 36 = some (log, k') ∧ (Untouched k k' ↔ NothingToReclaim k) := by
  refine ⟨{ Kernel.init (.ofFrames 16) with policyEnabled := false }, rfl, ?_, untouched_off_iff rfl 36⟩
  have hidle : ∀ e ∈ (Kernel.init (.ofFrames 16)).engine.ipcTable.1, e.active = false := by decide
  intro e he hact
  rw [hidle e he] at hact
  cases hact

/-- The engine is switched off after it made a channel, and the pair is
silent for a window. -/
def switchOffOps : List Op := warmOps ++ [yieldAt 240, .setEnabled false, yieldAt 280]

/-- Off does reclaim: the second silent window drops the pair's channel. -/
theorem not_untouched_of_cold : ¬ ∀ (mem : ChannelMem) (h : List KernelEvent) (k k' : Kernel) (tick : Nat)
    (log : List PolicyEvent), Runs Kernel.step free (.init mem) h k → k.policyEnabled = false →
      k.adaptAndReport tick = some (log, k') → Untouched k k' := by
  intro hall
  obtain ⟨h, k, hr, hP⟩ := Runs.of_exec Kernel.step free (.init (.ofFrames 16)) switchOffOps
    (fun _ k => !k.policyEnabled && (k.ipc.getChannel 1 2).isSome && (k.adaptAndReport 320).any
      fun r : List PolicyEvent × Kernel => (r.2.ipc.getChannel 1 2).isNone)
    (by decide +kernel)
  simp only [Option.any_eq_true, Bool.and_eq_true, Bool.not_eq_true'] at hP
  obtain ⟨⟨hoff, hbefore⟩, ⟨log, k'⟩, hrep, hafter⟩ := hP
  have hkept : k'.ipc.getChannel 1 2 = k.ipc.getChannel 1 2 := by
    rw [IpcState.getChannel, IpcState.getChannel, (hall _ h k k' 320 log hr hoff hrep).fast]
  rw [hkept] at hafter
  simp [Option.isNone_iff_eq_none.mp hafter] at hbefore

end ChodOs
