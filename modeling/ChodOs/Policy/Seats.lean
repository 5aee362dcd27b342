/-
Where a process stands: its priority and preferred core in the process
table, its pin in the affinity map. Only a report and a new process change
them; the state in which a report starts is `Kernel.switched`.
-/
import ChodOs.Policy.Off

namespace ChodOs

open StepSys

/-- What the policy engine sets of a process. -/
def Process.seat (p : Process) : Pid × Priority × Nat := (p.pid, p.priority, p.preferredCpu)

theorem Scheduler.SameTasks.seats {s s' : Scheduler} (h : s.SameTasks s') :
    s'.processes.map Process.seat = s.processes.map Process.seat := by
  have key : ∀ l : List Process, l.map Process.seat = (l.map Process.core).map fun c => (c.1, c.2.2.2) := fun l => by
    rw [List.map_map]; rfl
  rw [key, key, h.core]

/-- A statistics slot was given up, or kept with its cooldown. -/
def CpuStats.Cools (s s' : CpuStats) : Prop :=
  s'.active = true → s.active = true ∧ s'.pid = s.pid ∧ s'.priCooldown = s.priCooldown

theorem CpuStats.Cools.refl (s : CpuStats) : s.Cools s := fun h => ⟨h, rfl, rfl⟩

theorem CpuStats.Cools.trans {s₁ s₂ s₃ : CpuStats} (h : s₁.Cools s₂) (h' : s₂.Cools s₃) : s₁.Cools s₃ := by
  intro h₃
  obtain ⟨h₂, hp', hc'⟩ := h' h₃
  obtain ⟨h₁, hp, hc⟩ := h h₂
  exact ⟨h₁, hp'.trans hp, hc'.trans hc⟩

/-- The same processes where they were, and no statistics slot taken. -/
structure Seated (k k' : Kernel) : Prop where
  seats : k'.sched.processes.map Process.seat = k.sched.processes.map Process.seat
  affinity : k'.affinity = k.affinity
  stats : List.Forall₂ CpuStats.Cools k.engine.stats.1 k'.engine.stats.1

theorem Seated.of_stats {k k' : Kernel} (hs : k'.sched.processes.map Process.seat = k.sched.processes.map Process.seat)
    (ha : k'.affinity = k.affinity) (he : k'.engine.stats = k.engine.stats) : Seated k k' := by
  refine ⟨hs, ha, ?_⟩
  rw [he]
  exact List.forall₂_same.mpr fun s _ => .refl s

theorem Seated.find {k k' : Kernel} (h : Seated k k') (q : Pid) :
    (k'.sched.find q).map Process.seat = (k.sched.find q).map Process.seat :=
  Scheduler.find_congr Prod.fst (fun _ => rfl) h.seats q

theorem Seated.has {k k' : Kernel} (h : Seated k k') (q : Pid) : k'.sched.has q = k.sched.has q := by
  refine Scheduler.has_congr ?_ q
  simpa [Function.comp_def, Process.seat] using congrArg (List.map Prod.fst) h.seats

theorem cools_countSwitch (e : PolicyEngine) (src dst : Pid) (tick : Nat) :
    List.Forall₂ CpuStats.Cools e.stats.1 (e.countSwitch src dst tick).stats.1 := by
  refine Slots.forall₂_trans (fun h h' => h.trans h') (Slots.updateFirst_forall₂ CpuStats.Cools.refl ?_ _)
    (Slots.updateFirst_forall₂ CpuStats.Cools.refl ?_ _)
  · exact fun a _ ha => ⟨ha, rfl, rfl⟩
  · exact fun a _ ha => ⟨ha, rfl, rfl⟩

theorem cools_unregister (e : PolicyEngine) (pid : Pid) :
    List.Forall₂ CpuStats.Cools e.stats.1 (e.unregister pid).stats.1 := by
  refine Slots.updateFirst_forall₂ CpuStats.Cools.refl (fun _ _ => ?_) _
  exact nofun

theorem seated_send {k k' : Kernel} {dst : Pid} {data : List UInt8} {ok : Bool} (h : k.send dst data = some (ok, k')) :
    Seated k k' ∧ k'.sched.nextPid = k.sched.nextPid := by
  simp only [Kernel.send] at h
  split at h
  · simp only [Option.map_eq_some_iff, Prod.mk.injEq] at h
    obtain ⟨⟨ok', ipc⟩, -, -, rfl⟩ := h
    exact ⟨.of_stats rfl rfl rfl, rfl⟩
  · simp only [Option.some.injEq] at h
    obtain rfl : k' = (k.sendMessage dst (.inline k.sched.currentPid data)).2 := by rw [h]
    refine ⟨.of_stats ?_ rfl rfl, rfl⟩
    have hrec : (k.sched.recordSend dst).2.processes.map Process.seat = k.sched.processes.map Process.seat :=
      Scheduler.map_updateCurrent fun _ => rfl
    have hpush : ∀ p : Process, (p.push (.inline k.sched.currentPid data)).seat = p.seat := fun _ => rfl
    exact (Scheduler.map_updatePid dst hpush).trans hrec

/-! ## A report that starts -/

/-- The kernel in which the report of a switch starts. -/
def Kernel.switched (k : Kernel) (rsp : Nat) (voluntary : Bool) (c : Clock) : Kernel :=
  let sched := (k.sched.doPreempt rsp voluntary c).2
  { k with
    sched
    engine := { k.engine.countSwitch k.sched.currentPid sched.currentPid c.tick with lastReportTick := c.tick } }

theorem seated_switched (k : Kernel) (rsp : Nat) (voluntary : Bool) (c : Clock) :
    Seated k (k.switched rsp voluntary c) :=
  ⟨(Scheduler.sameTasks_doPreempt k.sched rsp voluntary c).seats, rfl, cools_countSwitch ..⟩

/-- Every report of a run starts in a state with a property. -/
def AtReports {ε : Type} (P : Kernel → Prop) (_ : List ε) (k : Kernel) : Op → Prop
  | .preempt rsp voluntary c => k.reportDue c.tick = true → P (k.switched rsp voluntary c)
  | _ => True

/-- A call leaves every process where it was, or is a new process or a report. -/
inductive Kernel.Goes (k : Kernel) : Op → List KernelEvent → Kernel → Prop
  | still {a : Op} {es : List KernelEvent} {k' : Kernel} : Seated k k' → k'.sched.nextPid = k.sched.nextPid →
      .report ∉ es → Kernel.Goes k a es k'
  | spawn (rsp : Nat) : Kernel.Goes k (.spawn rsp) [] (k.spawnNew rsp)
  | report {rsp : Nat} {voluntary : Bool} {c : Clock} {log : List PolicyEvent} {k' : Kernel} :
      k.reportDue c.tick = true → (k.switched rsp voluntary c).adaptAndReport c.tick = some (log, k') →
      Kernel.Goes k (.preempt rsp voluntary c) (log.map .policy ++ [.report]) k'

theorem step_goes {k k' : Kernel} {a : Op} {es : List KernelEvent} (h : k.step a = some (es, k')) :
    k.Goes a es k' := by
  have hsame : ∀ {sched}, k.sched.SameTasks sched → Seated k { k with sched } := fun hs => .of_stats hs.seats rfl rfl
  cases a with
  | preempt rsp voluntary c =>
    simp only [Kernel.step, Option.map_eq_some_iff, Prod.mk.injEq] at h
    obtain ⟨⟨log, k₁⟩, hp, rfl, rfl⟩ := h
    have hs := Scheduler.sameTasks_doPreempt k.sched rsp voluntary c
    simp only [Kernel.preempt, Kernel.onSwitch] at hp
    split at hp
    · next hdue =>
      have hdue : k.reportDue c.tick = true := by simpa [Kernel.reportDue, PolicyEngine.countSwitch] using hdue
      simp only [hdue, if_pos]
      exact .report hdue hp
    · next hdue =>
      cases hp
      have hdue : k.reportDue c.tick = false := by simpa [Kernel.reportDue, PolicyEngine.countSwitch] using hdue
      simp only [hdue]
      exact .still ⟨hs.seats, rfl, cools_countSwitch ..⟩ hs.nextPid List.not_mem_nil
  | exit rsp c =>
    cases h
    have hs := Scheduler.sameTasks_exitCurrent k.sched rsp c
    exact .still ⟨hs.seats, rfl, cools_unregister ..⟩ hs.nextPid List.not_mem_nil
  | sleep ticks => cases h; exact .still (hsame (Scheduler.sameTasks_requestSleep _ _)) rfl List.not_mem_nil
  | setMode mode =>
    cases h
    have hs := Scheduler.sameTasks_setMode k.sched mode
    exact .still (hsame hs) hs.nextPid List.not_mem_nil
  | keyboardBoost =>
    cases h
    have hs := Scheduler.sameTasks_keyboardBoost k.sched
    split
    · exact .still (hsame hs) hs.nextPid List.not_mem_nil
    · exact .still (.of_stats rfl rfl rfl) rfl List.not_mem_nil
  | boostPid pid ticks =>
    cases h
    split
    · exact .still (hsame (Scheduler.sameTasks_boostPid _ _ _)) rfl List.not_mem_nil
    · exact .still (.of_stats rfl rfl rfl) rfl List.not_mem_nil
  | spawn rsp => cases h; exact .spawn rsp
  | kill pid =>
    cases h
    exact .still ⟨Scheduler.map_updatePid pid fun _ => rfl, rfl, cools_unregister ..⟩ rfl List.not_mem_nil
  | reapDead =>
    cases h
    exact .still (.of_stats (map_reapDead k.sched fun _ => rfl) rfl rfl) rfl List.not_mem_nil
  | send dst data =>
    simp only [Kernel.step, Option.map_eq_some_iff, Prod.mk.injEq] at h
    obtain ⟨⟨ok, k₁⟩, hs, rfl, rfl⟩ := h
    obtain ⟨hseats, hnext⟩ := seated_send hs
    refine .still hseats hnext fun hmem => ?_
    split at hmem <;> simp at hmem
  | recv =>
    simp only [Kernel.step, Option.map_eq_some_iff, Prod.mk.injEq] at h
    obtain ⟨⟨msg, k₁⟩, hr, rfl, rfl⟩ := h
    have hno : KernelEvent.report ∉ msg.toList.map fun m => KernelEvent.ipc (.received k.sched.currentPid m) := by simp
    obtain ⟨ipc, -, -, rfl | rfl⟩ := recv_cases hr
    · exact .still (.of_stats rfl rfl rfl) rfl hno
    · exact .still (.of_stats (Scheduler.map_updateCurrent fun _ => rfl) rfl rfl) rfl hno
  | ensure src dst =>
    simp only [Kernel.step, Option.map_eq_some_iff, Prod.mk.injEq] at h
    obtain ⟨⟨id, ipc⟩, -, rfl, rfl⟩ := h
    exact .still (.of_stats rfl rfl rfl) rfl List.not_mem_nil
  | mmap pid | pageFault pid | observe src dst count bytes | drop src dst | setEnabled enabled =>
    cases h
    exact .still (.of_stats rfl rfl rfl) rfl List.not_mem_nil

end ChodOs
