/-
The core of a process is written down twice: its pin in the affinity map and
its preferred core in the process table. A hot pair sets both and a cold one
clears both, but an anomaly clears the pin only.
-/
import ChodOs.Policy.Seats

namespace ChodOs

open StepSys

/-- `get_affinity` and the preferred core say the same of every process but `kernel_main`. -/
def Kernel.ViewsAgree (k : Kernel) : Prop :=
  ∀ pid pr, pid ≠ 0 → k.sched.find pid = some pr →
    (∀ c, c ≠ cpuUnset → (k.affinity[pid]? = some c ↔ pr.preferredCpu = c)) ∧
      (k.affinity[pid]? = none ↔ pr.preferredCpu = cpuUnset)

/-- The preferred core is the pin, or unset; no pin is the unset core. -/
structure Agreed (s : Scheduler) (a : Affinity) : Prop where
  cores : ∀ {pid : Pid} {c : Nat}, a[pid]? = some c → c ≠ cpuUnset
  views : ∀ {pid : Pid} {pr : Process}, pid ≠ 0 → s.find pid = some pr → pr.preferredCpu = (a[pid]?).getD cpuUnset

theorem Agreed.viewsAgree {k : Kernel} (h : Agreed k.sched k.affinity) : k.ViewsAgree := by
  intro pid pr h0 hpr
  rw [h.views h0 hpr]
  cases ha : k.affinity[pid]? with
  | none => simp [eq_comm]
  | some c => simp [h.cores ha]

theorem Agreed.updatePid {s : Scheduler} {a : Affinity} (h : Agreed s a) (pid : Pid) {f : Process → Process}
    (hpid : ∀ p, (f p).pid = p.pid) (hcpu : ∀ p, (f p).preferredCpu = p.preferredCpu) :
    Agreed (s.updatePid pid f) a := by
  refine ⟨h.cores, fun {q pr} h0 hq => ?_⟩
  rw [Scheduler.find_updatePid hpid] at hq
  split at hq
  · obtain ⟨pr₀, hq₀, rfl⟩ := Option.map_eq_some_iff.mp hq
    rw [hcpu]
    exact h.views h0 hq₀
  · exact h.views h0 hq

theorem Agreed.setPriority {s : Scheduler} {a : Affinity} (h : Agreed s a) (pid : Pid) (pri : Priority) :
    Agreed (s.setPriority pid pri) a := h.updatePid pid (fun _ => rfl) fun _ => rfl

/-! ## Hot pairs -/

theorem pinPair_get (a : Affinity) (src dst q : Pid) :
    (a.pinPair src dst)[q]? = if q = src ∨ q = dst then some (a.pairCpu src dst) else a[q]? := by
  simp only [Affinity.pinPair]
  split
  · next h =>
    split
    · next hq =>
      rcases hq with rfl | rfl
      · exact h.1
      · exact h.2
    · rfl
  · simp only [Std.ExtTreeMap.getElem?_insert, Std.LawfulEqCmp.compare_eq_iff_eq]
    by_cases hd : dst = q <;> by_cases hs : src = q <;> simp [hd, hs, eq_comm]

/-- The pair goes to a core of one side, or to core 0. -/
theorem Agreed.pairCpu_ne {s : Scheduler} {a : Affinity} (h : Agreed s a) (src dst : Pid) :
    a.pairCpu src dst ≠ cpuUnset := by
  simp only [Affinity.pairCpu]
  cases hs : a[src]? with
  | some c => exact h.cores hs
  | none =>
    cases hd : a[dst]? with
    | some c => exact h.cores hd
    | none => decide

/-- Both stores get the core. -/
theorem agreed_promotePin {k : Kernel} (h : Agreed k.sched k.affinity) (e : IpcEntry) :
    Agreed (promotePin k e).2.sched (promotePin k e).2.affinity := by
  have hget := pinPair_get k.affinity e.src e.dst
  have htarget : ((k.affinity.pinPair e.src e.dst)[e.src]?).getD 0 = k.affinity.pairCpu e.src e.dst := by
    rw [hget, if_pos (.inl rfl), Option.getD_some]
  refine ⟨fun {q c} hq => ?_, fun {q pr} h0 hq => ?_⟩
  · replace hq := (hget q).symm.trans hq
    split at hq
    · cases hq; exact h.pairCpu_ne e.src e.dst
    · exact h.cores hq
  · simp only [promotePin, htarget, Scheduler.find_setPreferredCpu] at hq
    simp only [promotePin, hget]
    by_cases hd : q = e.dst
    · simp only [hd, if_pos, Option.map_eq_some_iff] at hq
      obtain ⟨pr₁, -, rfl⟩ := hq
      simp [hd]
    · by_cases hs : q = e.src
      · rw [if_neg hd, if_pos hs, Option.map_eq_some_iff] at hq
        obtain ⟨pr₁, -, rfl⟩ := hq
        simp [hs]
      · rw [if_neg hd, if_neg hs] at hq
        rw [if_neg (by simp [hs, hd])]
        exact h.views h0 hq

/-- A process that is unpinned and in no hot pair stays unpinned. -/
theorem promote_agreed {tick : Nat} {k k' : Kernel} {e : IpcEntry} {log : List PolicyEvent}
    (h : promote tick k e = some (log, k')) (ha : Agreed k.sched k.affinity) :
    Agreed k'.sched k'.affinity ∧ ∀ pid, k.affinity[pid]? = none →
      (e.isHot = true → k.policyEnabled = true → e.src ≠ pid ∧ e.dst ≠ pid) → k'.affinity[pid]? = none := by
  simp only [promote] at h
  split at h
  · next hot =>
    simp only [Bool.and_eq_true] at hot
    simp only [Option.bind_eq_bind, Option.bind_eq_some_iff, Option.some.injEq, Prod.mk.injEq] at h
    obtain ⟨⟨log₁, k₁⟩, hc, -, rfl⟩ := h
    have hsame : k₁.sched = k.sched ∧ k₁.affinity = k.affinity := by
      rcases promoteChannel_cases hc with ⟨-, rfl⟩ | ⟨-, -, id, ipc, n, -, rfl⟩ <;> exact ⟨rfl, rfl⟩
    rw [← hsame.1, ← hsame.2] at ha
    have hpush : (promotePush (promotePin k₁ e).2 e).2.affinity = k₁.affinity.pinPair e.src e.dst := by
      simp only [promotePush]
      split <;> rfl
    refine ⟨?_, fun pid hnone hcold => ?_⟩
    · have hpin := agreed_promotePin ha e
      simp only [promotePush]
      split
      · exact (hpin.setPriority _ _).setPriority _ _
      · exact hpin
    · obtain ⟨hs, hd⟩ := hcold hot.1 hot.2
      rw [hpush, pinPair_get, if_neg (by simp [Ne.symm hs, Ne.symm hd]), hsame.2]
      exact hnone
  · cases h; exact ⟨ha, fun _ hnone _ => hnone⟩

theorem promoteAll_agreed {tick : Nat} {k k' : Kernel} {es : List IpcEntry} {log : List PolicyEvent}
    (h : promoteAll tick k es = some (log, k')) (ha : Agreed k.sched k.affinity) :
    Agreed k'.sched k'.affinity ∧ ∀ pid, k.affinity[pid]? = none →
      (k.policyEnabled = true → ∀ e ∈ es, e.isHot = true → e.src ≠ pid ∧ e.dst ≠ pid) → k'.affinity[pid]? = none := by
  induction es generalizing k log with
  | nil => cases h; exact ⟨ha, fun _ hnone _ => hnone⟩
  | cons e es ih =>
    simp only [promoteAll, Option.bind_eq_bind, Option.bind_eq_some_iff, Option.some.injEq, Prod.mk.injEq] at h
    obtain ⟨⟨log₁, k₁⟩, h₁, ⟨log₂, k₂⟩, h₂, -, rfl⟩ := h
    obtain ⟨ha₁, hnone₁⟩ := promote_agreed h₁ ha
    obtain ⟨ha₂, hnone₂⟩ := ih h₂ ha₁
    refine ⟨ha₂, fun pid hnone hcold => hnone₂ pid (hnone₁ pid hnone fun hot hon => ?_) fun hon e' he' => ?_⟩
    · exact hcold hon e List.mem_cons_self hot
    · rw [(promote_spec h₁).frame.policyEnabled] at hon
      exact hcold hon e' (List.mem_cons_of_mem _ he')

/-! ## Reports -/

/-- A report would take the process's pin and leave its preferred core: an
anomaly reclaims a pair of its, none of its pairs decays, and it is pinned or
about to be. -/
def Kernel.Strands (k : Kernel) (pid : Pid) : Prop :=
  (∃ e ∈ k.engine.ipcTable.1, e.active = true ∧ e.anomalous = true ∧ (e.src = pid ∨ e.dst = pid)) ∧
    (∀ e ∈ k.engine.ipcTable.1, e.active = true → e.decays = true → e.src ≠ pid ∧ e.dst ≠ pid) ∧
    (k.affinity[pid]? ≠ none ∨
      k.policyEnabled = true ∧ ∃ e ∈ topPairs k.engine.ipcTable.1, e.isHot = true ∧ (e.src = pid ∨ e.dst = pid))

instance (k : Kernel) (pid : Pid) : Decidable (k.Strands pid) := inferInstanceAs (Decidable (_ ∧ _))

/-- A process that no report strands has no pin, and gets none, when only
anomalies reclaim its pairs. -/
theorem unpinned_of_not_strands {k : Kernel} {pid : Pid} (h : ¬ k.Strands pid)
    (hno : pid ∉ unsetPids k.engine.ipcTable.1) {e : IpcEntry} (he : e ∈ k.engine.ipcTable.1)
    (hr : e.reclaimed = true) (hside : e.src = pid ∨ e.dst = pid) :
    k.affinity[pid]? = none ∧ (k.policyEnabled = true → ∀ e' ∈ topPairs k.engine.ipcTable.1, e'.isHot = true →
      e'.src ≠ pid ∧ e'.dst ≠ pid) := by
  have hnodecay : ∀ e ∈ k.engine.ipcTable.1, e.active = true → e.decays = true → e.src ≠ pid ∧ e.dst ≠ pid := by
    intro e he hact hd
    exact not_or.mp fun hside => hno (mem_unsetPids.mpr ⟨e, he, hact, hd, hside⟩)
  simp only [IpcEntry.reclaimed, Bool.and_eq_true, Bool.or_eq_true] at hr
  obtain ⟨hact, hr⟩ := hr
  have han : e.anomalous = true := by
    rcases hr with han | hd
    · exact han
    · obtain ⟨hs, hd⟩ := hnodecay e he hact hd
      exact absurd hside (by simp [hs, hd])
  have hfree := fun hpin => h ⟨⟨e, he, hact, han, hside⟩, hnodecay, hpin⟩
  obtain ⟨hunpinned, hcold⟩ := not_or.mp hfree
  refine ⟨not_not.mp hunpinned, fun hon e' he' hot => ?_⟩
  exact not_or.mp fun hside' => hcold ⟨hon, e', he', hot, hside'⟩

/-- A decay loop whose reclaimed pins were set aside by a decay, or were not there. -/
theorem agreed_decay {k : Kernel} (ha : Agreed k.sched k.affinity) (tick : Nat)
    (hfree : ∀ q pr, q ≠ 0 → k.sched.find q = some pr → q ∉ unsetPids k.engine.ipcTable.1 →
      ∀ e ∈ k.engine.ipcTable.1, e.reclaimed = true → e.src = q ∨ e.dst = q → k.affinity[q]? = none) :
    Agreed (k.decay tick).2.sched (k.decay tick).2.affinity := by
  refine ⟨fun {q c} hq => ?_, fun {q pr} h0 hq => ?_⟩
  · rw [decay_affinity_get] at hq
    split at hq
    · cases hq
    · exact ha.cores hq
  rw [decay_find] at hq
  rw [decay_affinity_get]
  split at hq
  · next hunset =>
    -- A pair that decays clears both.
    obtain ⟨e, he, hact, hd, hside⟩ := mem_unsetPids.mp hunset
    obtain ⟨pr₀, -, rfl⟩ := Option.map_eq_some_iff.mp hq
    rw [if_pos]
    · rfl
    · refine List.any_eq_true.mpr ⟨e, he, ?_⟩
      simp [IpcEntry.reclaimed, hact, hd, hside]
  · next hunset =>
    have hview := ha.views h0 hq
    split
    · next hany =>
      obtain ⟨e, he, hr⟩ := List.any_eq_true.mp hany
      simp only [Bool.and_eq_true, Bool.or_eq_true, beq_iff_eq] at hr
      rw [hview, hfree q pr h0 hq hunset e he hr.1 hr.2]
    · exact hview

theorem agreed_report {k k' : Kernel} {tick : Nat} {log : List PolicyEvent} (ha : Agreed k.sched k.affinity)
    (hok : ∀ p ∈ k.sched.processes, p.pid ≠ 0 → ¬ k.Strands p.pid) (h : k.adaptAndReport tick = some (log, k')) :
    Agreed k'.sched k'.affinity := by
  have hpids := (Tasks.report h).pids
  obtain ⟨log₂, k₂, hp, rfl, -⟩ := adaptAndReport_eq h
  have ht := tune_spec k tick
  have hpr := pressure_spec k₂ (k.tune tick).2.2
  have ha₁ : Agreed (k.tune tick).2.1.sched (k.tune tick).2.1.affinity := by
    rw [ht.affinity]
    exact @tune_sched (Agreed · k.affinity) (fun pid pri h => h.setPriority pid pri) k tick ha
  obtain ⟨ha₂, hnone⟩ := promoteAll_agreed hp ha₁
  have ha₃ : Agreed (k₂.pressure (k.tune tick).2.2).2.sched (k₂.pressure (k.tune tick).2.2).2.affinity := by
    rw [hpr.affinity]
    exact @pressure_sched (Agreed · k₂.affinity) (fun pid pri h => h.setPriority pid pri) k₂ _ ha₂
  have htable : (k₂.pressure (k.tune tick).2.2).2.engine.ipcTable = k.engine.ipcTable :=
    hpr.ipcTable.trans ((promoteAll_spec hp).1.ipcTable.trans ht.ipcTable)
  refine agreed_decay ha₃ tick fun q pr h0 hq hunset e he hr hside => ?_
  rw [htable] at hunset he
  have hmem : q ∈ k.sched.processes.map (·.pid) := by
    have hq' := decay_find (k₂.pressure (k.tune tick).2.2).2 tick q
    rw [htable, if_neg hunset, hq] at hq'
    rw [← hpids]
    exact List.mem_map.mpr ⟨pr, List.mem_of_find?_eq_some hq', Scheduler.find_pid hq'⟩
  obtain ⟨p, hpmem, rfl⟩ := List.mem_map.mp hmem
  obtain ⟨hunpinned, hcold⟩ := unpinned_of_not_strands (hok p hpmem h0) hunset he hr hside
  rw [hpr.affinity]
  refine hnone p.pid ?_ fun hon => ?_
  · rw [ht.affinity]; exact hunpinned
  · rw [ht.policyEnabled] at hon
    exact hcold hon

/-! ## Runs -/

/-- No report strands a process, and no pid is pinned before its process exists. -/
def NoneStranded (_ : List KernelEvent) (k : Kernel) : Op → Prop
  | .preempt _ _ c => k.reportDue c.tick = true → ∀ p ∈ k.sched.processes, p.pid ≠ 0 → ¬ k.Strands p.pid
  | .spawn _ => k.affinity[k.sched.nextPid]? = none
  | _ => True

instance (h : List KernelEvent) (k : Kernel) (a : Op) : Decidable (NoneStranded h k a) := by
  induction a using Op.casesOn <;> unfold NoneStranded <;> infer_instance

theorem Agreed.of_seats {s s' : Scheduler} {a : Affinity} (h : Agreed s a)
    (hs : s'.processes.map Process.seat = s.processes.map Process.seat) : Agreed s' a := by
  refine ⟨h.cores, fun {q pr'} h0 hq' => ?_⟩
  have hseat := Scheduler.find_congr Prod.fst (fun _ => rfl) hs q
  rw [hq', Option.map_some, eq_comm, Option.map_eq_some_iff] at hseat
  obtain ⟨pr, hq, he⟩ := hseat
  have hcpu : pr.preferredCpu = pr'.preferredCpu := congrArg (·.2.2) he
  rw [← hcpu]
  exact h.views h0 hq

theorem agreed_spawnNew {k : Kernel} (h : Agreed k.sched k.affinity) (hnew : k.affinity[k.sched.nextPid]? = none)
    (rsp : Nat) : Agreed (k.spawnNew rsp).sched (k.spawnNew rsp).affinity := by
  obtain ⟨v, hv⟩ := Scheduler.spawn_processes k.sched.allocPid.2 (.new k.sched.nextPid rsp)
  have haff : (k.spawnNew rsp).affinity = k.affinity := rfl
  refine ⟨h.cores, fun {q pr} h0 hq => ?_⟩
  have hq : (k.sched.processes ++ [{ Process.new k.sched.nextPid rsp with vruntime := v }]).find?
      (·.pid == q) = some pr := hv ▸ hq
  rw [haff]
  rw [List.find?_append, Option.or_eq_some_iff] at hq
  rcases hq with hold | ⟨-, hfresh⟩
  · exact h.views h0 hold
  · obtain rfl := List.mem_singleton.mp (List.mem_of_find?_eq_some hfresh)
    have hpid : k.sched.nextPid = q := by simpa [Process.new] using List.find?_some hfresh
    rw [← hpid, hnew]
    rfl

/-- **The two stores agree** in every state reached without stranding a process. -/
theorem affinity_views_agree {mem : ChannelMem} {h : List KernelEvent} {k : Kernel}
    (hr : Runs Kernel.step NoneStranded (.init mem) h k) : k.ViewsAgree := by
  have hinit : Agreed (Kernel.init mem).sched (Kernel.init mem).affinity := by
    refine ⟨fun {pid c} hc => ?_, fun {q pr} h0 hq => ?_⟩
    · simp [Kernel.init] at hc
    · have hmain := List.mem_singleton.mp (List.mem_of_find?_eq_some hq)
      rw [← Scheduler.find_pid hq, hmain] at h0
      exact absurd rfl h0
  have hagreed : Agreed k.sched k.affinity := by
    refine hr.invariant_state (fun k => Agreed k.sched k.affinity) hinit fun {_ k a es k'} ha hok hs => ?_
    cases step_goes hs with
    | still hseated _ _ => rw [hseated.affinity]; exact ha.of_seats hseated.seats
    | spawn rsp => exact agreed_spawnNew ha hok rsp
    | @report rsp voluntary c log k' hdue hrep =>
      have hseated := seated_switched k rsp voluntary c
      have ha₀ : Agreed (k.switched rsp voluntary c).sched (k.switched rsp voluntary c).affinity :=
        ha.of_seats hseated.seats
      refine agreed_report ha₀ (fun p hp h0 => ?_) hrep
      have hpid : p.pid ∈ k.sched.processes.map (·.pid) := by
        rw [← (Scheduler.sameTasks_doPreempt k.sched rsp voluntary c).pids]
        exact List.mem_map_of_mem hp
      obtain ⟨p₀, hp₀, he⟩ := List.mem_map.mp hpid
      rw [← he] at h0 ⊢
      exact hok hdue p₀ hp₀ h0
  exact hagreed.viewsAgree

/-- A hot pair is pinned, and the two stores say so. -/
theorem affinity_views_agree_warm : ∃ h k, Runs Kernel.step NoneStranded (.init (.ofFrames 16)) h k ∧
    k.affinity[(1 : Pid)]? = some 0 ∧ k.ViewsAgree := by
  obtain ⟨h, k, hr, hP⟩ := Runs.of_exec Kernel.step NoneStranded (.init (.ofFrames 16)) (warmOps ++ [yieldAt 240])
    (fun _ k => decide (k.affinity[(1 : Pid)]? = some 0)) (by decide +kernel)
  exact ⟨h, k, hr, of_decide_eq_true hP, affinity_views_agree hr⟩

/-- The window in which the pair becomes hot ends with two long messages. -/
def burstOps : List Op := warmOps ++ List.replicate 2 (.send 2 (List.replicate 64 7)) ++ [yieldAt 240]

/-- The report pins the pair and reclaims it as an anomaly: the preferred core stays behind. -/
theorem views_differ_after_anomaly : ¬ ∀ (mem : ChannelMem) (h : List KernelEvent) (k : Kernel),
    Runs Kernel.step EngineOn (.init mem) h k → k.ViewsAgree := by
  intro hall
  obtain ⟨h, k, hr, hP⟩ := Runs.of_exec Kernel.step EngineOn (.init (.ofFrames 16)) burstOps
    (fun _ k => decide (k.affinity[(1 : Pid)]? = none) &&
      (k.sched.find 1).any fun p : Process => decide (p.preferredCpu = 0))
    (by decide +kernel)
  simp only [Bool.and_eq_true, Option.any_eq_true, decide_eq_true_eq] at hP
  obtain ⟨hnone, pr, hpr, hcpu⟩ := hP
  have hunset := (hall _ h k hr 1 pr (by decide) hpr).2.mp hnone
  rw [hcpu] at hunset
  cases hunset

end ChodOs
