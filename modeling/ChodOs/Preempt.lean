/-
Context switches (`process/scheduler.rs`): who runs next, in both
scheduling modes, and what a switch leaves alone.
-/
import ChodOs.Scheduler

namespace ChodOs

/-! ## Priorities -/

namespace Priority

/-- The order of the enumeration. -/
def rank : Priority → Nat
  | .idle => 0
  | .low => 1
  | .normal => 2
  | .high => 3

/-- `from_u8`. -/
def ofRank : Nat → Priority
  | 0 => .idle
  | 1 => .low
  | 3 => .high
  | _ => .normal

/-- `priority_weight`. -/
def weight : Priority → Nat
  | .high => 4
  | .normal => 2
  | .low => 1
  | .idle => 0

/-- `starvation_threshold`. -/
def starvationThreshold : Priority → Option Nat
  | .low => some 72
  | .normal => some 36
  | .high | .idle => none

/-- `cfs_weight`. -/
def cfsWeight : Priority → Nat
  | .high => 88761
  | .normal => 1024
  | .low => 335
  | .idle => 15

end Priority

def fairnessFloorTicks : Nat := 200
def nice0Weight : Nat := 1024

/-- `u64::saturating_mul`. -/
def satMul (a b : Nat) : Nat := min (a * b) u64Max

/-- What the machine shows to a switch: `TICK`, the time stamp counter as
the old process is charged and as the new one starts, and the core. -/
structure Clock where
  tick : Nat
  tscOut : Nat
  tscIn : Nat
  cpu : Nat

namespace Process

/-- `effective_priority`: a boost, then the fairness floor, then aging. -/
def effectivePriority (p : Process) (now : Nat) : Priority :=
  if 0 < p.boostTicks then .high
  else
    let wait := now - p.readySinceTick
    if p.priority ≠ .idle ∧ fairnessFloorTicks ≤ wait then .high
    else
      match p.priority.starvationThreshold with
      | some threshold => if threshold ≤ wait then .ofRank (p.priority.rank + 1) else p.priority
      | none => p.priority

/-- No core is preferred, or this one. -/
def sameCpu (p : Process) (cpu : Nat) : Bool := p.preferredCpu == cpuUnset || p.preferredCpu == cpu

/-- The CFS charge for the time a process ran. -/
def charge (c : Clock) (p : Process) : Process :=
  let elapsed := c.tscOut - p.runStartTs
  let w := max (p.effectivePriority c.tick).cfsWeight 1
  { p with vruntime := satAdd p.vruntime (satMul elapsed nice0Weight / w) }

/-- The first half of `do_preempt`: the process that is switched out. -/
def leave (mode : SchedMode) (rsp : Nat) (voluntary : Bool) (c : Clock) (p : Process) : Process :=
  let p := if voluntary then { p with voluntaryYields := p.voluntaryYields + 1 }
    else { p with forcedPreempts := p.forcedPreempts + 1 }
  let p := { p with boostTicks := p.boostTicks - 1, preemptRsp := rsp }
  let p := if mode = .cfs then charge c p else p
  if 0 < p.pendingSleepTicks then
    { p with pendingSleepTicks := 0, state := .blocked, wakeAtTick := c.tick + p.pendingSleepTicks }
  else { p with state := .ready, readySinceTick := c.tick }

/-- A sleeper whose time has come. -/
def wake (now : Nat) (p : Process) : Process :=
  if p.state = .blocked ∧ p.wakeAtTick ≠ 0 ∧ p.wakeAtTick ≤ now then
    { p with state := .ready, wakeAtTick := 0, readySinceTick := now }
  else p

end Process

namespace Scheduler

/-! ## The next process -/

/-- The ready processes with their indices, in the order of the scan: from
the one after the current process round to the current process. -/
def candidates (s : Scheduler) : List (Nat × Process) :=
  let n := s.processes.length
  ((List.range n).map fun i => (s.current + (i + 1)) % n).filterMap fun i =>
    (s.processes[i]?).bind fun p => if p.state = .ready then some (i, p) else none

/-- The weighted choice: the highest effective priority, then the core. -/
def pickWeighted (s : Scheduler) (now cpu : Nat) : Option Nat :=
  let beats := fun x b : Nat × Process =>
    let pri := (x.2.effectivePriority now).rank
    let bestPri := (b.2.effectivePriority now).rank
    decide (bestPri < pri) || (pri == bestPri && x.2.sameCpu cpu && !b.2.sameCpu cpu)
  (s.candidates[Slots.bestIdx beats s.candidates]?).map (·.1)

/-- The CFS choice: a boosted process, else the least `vruntime`, then the core. -/
def pickCfs (s : Scheduler) (cpu : Nat) : Option Nat :=
  let beats := fun x b : Nat × Process =>
    decide (x.2.vruntime < b.2.vruntime) ||
      (x.2.vruntime == b.2.vruntime && x.2.sameCpu cpu && !b.2.sameCpu cpu)
  ((s.candidates.find? (0 < ·.2.boostTicks)).or s.candidates[Slots.bestIdx beats s.candidates]?).map (·.1)

/-- The current process goes on. -/
def stay (s : Scheduler) : Scheduler := s.updateCurrent fun p => { p with state := .running }

/-- Process `i` starts, and its stack pointer. -/
def enter (s : Scheduler) (i tsc : Nat) : Nat × Scheduler :=
  if h : i < s.processes.length then
    ((s.processes.get ⟨i, h⟩).preemptRsp,
      { s with
        processes := s.processes.modify i fun p => { p with state := .running, runStartTs := tsc }
        current := i
        current_lt := by simpa using h })
  else (0, s)

/-- The sleepers whose time has come are ready. -/
def wakeAll (s : Scheduler) (now : Nat) : Scheduler :=
  { s with processes := s.processes.map (Process.wake now), current_lt := by simpa using s.current_lt }

/-- `switch_to_next_cfs`. -/
def switchToNextCfs (s : Scheduler) (rsp : Nat) (c : Clock) : Nat × Scheduler :=
  match s.pickCfs c.cpu with
  | some i => s.enter i c.tscIn
  | none => (rsp, s.stay)

/-- The weighted end of `switch_to_next`: the new process gets its quanta. -/
def switchToNextWeighted (s : Scheduler) (rsp : Nat) (c : Clock) : Nat × Scheduler :=
  match s.pickWeighted c.tick c.cpu with
  | some i =>
    let epri := ((s.processes[i]?).map (·.effectivePriority c.tick)).getD .idle
    { s with remainingQuanta := max epri.weight 1 }.enter i c.tscIn
  | none => (rsp, { s with remainingQuanta := 1 }.stay)

/-- `switch_to_next`: the stack pointer to go on with. -/
def switchToNext (s : Scheduler) (rsp : Nat) (force : Bool) (c : Clock) : Nat × Scheduler :=
  let s := s.wakeAll c.tick
  if s.processes.length ≤ 1 then (rsp, s.stay)
  else if s.mode ≠ .cfs ∧ !force ∧ 1 < s.remainingQuanta then
    (rsp, { s with remainingQuanta := s.remainingQuanta - 1 }.stay)
  else if s.mode = .cfs then s.switchToNextCfs rsp c
  else s.switchToNextWeighted rsp c

/-- `do_preempt`; the processes it switches between are the current ones
before and after. -/
def doPreempt (s : Scheduler) (rsp : Nat) (voluntary : Bool) (c : Clock) : Nat × Scheduler :=
  (s.updateCurrent (Process.leave s.mode rsp voluntary c)).switchToNext rsp voluntary c

/-- `exit_current`, without its `unregister_pid`. -/
def exitCurrent (s : Scheduler) (rsp : Nat) (c : Clock) : Nat × Scheduler :=
  let s := s.updateCurrent fun p => { p with state := .dead, preemptRsp := rsp }
  { s with remainingQuanta := 0 }.switchToNext rsp true c

/-- `request_sleep` of the current process. -/
def requestSleep (s : Scheduler) (ticks : Nat) : Scheduler :=
  s.updateCurrent fun p => { p with pendingSleepTicks := max ticks 1 }

/-- `keyboard_boost` of the current process. -/
def keyboardBoost (s : Scheduler) : Scheduler :=
  if s.cur.priority = .idle then s
  else s.updateCurrent fun p => { p with boostTicks := max p.boostTicks 8 }

/-- `boost_pid`. -/
def boostPid (s : Scheduler) (pid : Pid) (ticks : Nat) : Scheduler :=
  s.updatePid pid fun p => if p.priority = .idle then p else { p with boostTicks := max p.boostTicks ticks }

/-- `set_mode`: entering CFS starts everyone at the same `vruntime`. -/
def setMode (s : Scheduler) (mode : SchedMode) : Scheduler :=
  if mode = .cfs then
    { s with
      mode
      processes := s.processes.map fun p => { p with vruntime := 0 }
      current_lt := by simpa using s.current_lt }
  else { s with mode }

end Scheduler

/-! ## What a switch leaves alone -/

/-- The part of a process that IPC and the policy engine own. -/
def Process.core (p : Process) : Pid × List Message × Table (Pid × Nat) 8 × Priority × Nat :=
  (p.pid, p.messageQueue, p.ipcPeers, p.priority, p.preferredCpu)

@[simp] theorem Process.core_leave (mode : SchedMode) (rsp : Nat) (voluntary : Bool) (c : Clock) (p : Process) :
    (p.leave mode rsp voluntary c).core = p.core := by
  have hcharge : ∀ p : Process, (Process.charge c p).core = p.core := fun _ => rfl
  have hcfs : ∀ p : Process, (if mode = .cfs then Process.charge c p else p).core = p.core := by
    intro p; split
    · exact hcharge p
    · rfl
  have hsleep : ∀ p : Process, (if 0 < p.pendingSleepTicks then
      { p with pendingSleepTicks := 0, state := .blocked, wakeAtTick := c.tick + p.pendingSleepTicks }
      else { p with state := .ready, readySinceTick := c.tick }).core = p.core := by
    intro p; split <;> rfl
  simp only [Process.leave, hsleep, hcfs]
  cases voluntary <;> rfl

/-- A projection that sees nothing of what a switch writes to a process, its counters apart. -/
def Process.Apart {β : Type} (g : Process → β) : Prop :=
  ∀ (p : Process) state preemptRsp boostTicks readySinceTick pendingSleepTicks wakeAtTick vruntime runStartTs,
    g { p with
      state, preemptRsp, boostTicks, readySinceTick, pendingSleepTicks, wakeAtTick, vruntime, runStartTs } = g p

theorem Process.apart_core : Apart Process.core := fun _ _ _ _ _ _ _ _ _ => rfl

theorem Process.Apart.wake {β : Type} {g : Process → β} (hg : Apart g) (now : Nat) (p : Process) :
    g (p.wake now) = g p := by
  simp only [Process.wake]
  split
  · exact hg p _ _ _ _ _ _ _ _
  · rfl

namespace Scheduler

/-- The same processes in the same places, as far as a projection tells. -/
structure Alike {β : Type} (g : Process → β) (s s' : Scheduler) : Prop where
  map : s'.processes.map g = s.processes.map g
  nextPid : s'.nextPid = s.nextPid

section alike
variable {β : Type} {g : Process → β}

theorem Alike.refl (s : Scheduler) : Alike g s s := ⟨rfl, rfl⟩

theorem Alike.trans {s₁ s₂ s₃ : Scheduler} (h : Alike g s₁ s₂) (h' : Alike g s₂ s₃) : Alike g s₁ s₃ :=
  ⟨h'.map.trans h.map, h'.nextPid.trans h.nextPid⟩

theorem alike_updateCurrent (s : Scheduler) {f : Process → Process} (hf : ∀ p, g (f p) = g p) :
    Alike g s (s.updateCurrent f) := ⟨map_updateCurrent hf, rfl⟩

theorem alike_quanta (s : Scheduler) (n : Nat) : Alike g s { s with remainingQuanta := n } := ⟨rfl, rfl⟩

variable (hg : Process.Apart g)
include hg

theorem alike_enter (s : Scheduler) (i tsc : Nat) : Alike g s (s.enter i tsc).2 := by
  simp only [enter]
  split
  · refine ⟨?_, rfl⟩
    exact Slots.map_modify (f := fun p : Process => { p with state := .running, runStartTs := tsc })
      (fun p => hg p _ _ _ _ _ _ _ _) i _
  · exact .refl s

theorem alike_stay (s : Scheduler) : Alike g s s.stay := alike_updateCurrent s fun p => hg p _ _ _ _ _ _ _ _

theorem alike_switchToNext (s : Scheduler) (rsp : Nat) (force : Bool) (c : Clock) :
    Alike g s (s.switchToNext rsp force c).2 := by
  have hwake : Alike g s (s.wakeAll c.tick) := ⟨by simp [wakeAll, Function.comp_def, hg.wake], rfl⟩
  refine hwake.trans ?_
  simp only [switchToNext]
  generalize s.wakeAll c.tick = t
  split
  · exact alike_stay hg t
  split
  · exact (alike_quanta t _).trans (alike_stay hg _)
  split
  · simp only [switchToNextCfs]
    split
    · exact alike_enter hg t _ _
    · exact alike_stay hg t
  · simp only [switchToNextWeighted]
    split
    · exact (alike_quanta t _).trans (alike_enter hg _ _ _)
    · exact (alike_quanta t _).trans (alike_stay hg _)

theorem alike_exitCurrent (s : Scheduler) (rsp : Nat) (c : Clock) : Alike g s (s.exitCurrent rsp c).2 := by
  have hdead : Alike g s (s.updateCurrent fun p => { p with state := .dead, preemptRsp := rsp }) :=
    alike_updateCurrent s fun p => hg p _ _ _ _ _ _ _ _
  exact hdead.trans ((alike_quanta _ 0).trans (alike_switchToNext hg _ rsp true c))

theorem alike_requestSleep (s : Scheduler) (ticks : Nat) : Alike g s (s.requestSleep ticks) :=
  alike_updateCurrent s fun p => hg p _ _ _ _ _ _ _ _

theorem alike_keyboardBoost (s : Scheduler) : Alike g s s.keyboardBoost := by
  simp only [keyboardBoost]
  split
  · exact .refl s
  · exact alike_updateCurrent s fun p => hg p _ _ _ _ _ _ _ _

theorem alike_boostPid (s : Scheduler) (pid : Pid) (ticks : Nat) : Alike g s (s.boostPid pid ticks) := by
  refine ⟨Slots.map_updateFirst (fun p _ => ?_) _, rfl⟩
  split
  · rfl
  · exact hg p _ _ _ _ _ _ _ _

theorem alike_setMode (s : Scheduler) (mode : SchedMode) : Alike g s (s.setMode mode) := by
  simp only [setMode]
  split
  · refine ⟨?_, rfl⟩
    rw [List.map_map]
    exact List.map_congr_left fun p _ => hg p _ _ _ _ _ _ _ _
  · exact ⟨rfl, rfl⟩

end alike

/-- The same processes in the same places, as far as `Process.core` tells. -/
structure SameTasks (s s' : Scheduler) : Prop where
  core : s'.processes.map Process.core = s.processes.map Process.core
  nextPid : s'.nextPid = s.nextPid

theorem SameTasks.refl (s : Scheduler) : SameTasks s s := ⟨rfl, rfl⟩

theorem SameTasks.trans {s₁ s₂ s₃ : Scheduler} (h : SameTasks s₁ s₂) (h' : SameTasks s₂ s₃) : SameTasks s₁ s₃ :=
  ⟨h'.core.trans h.core, h'.nextPid.trans h.nextPid⟩

theorem Alike.sameTasks {s s' : Scheduler} (h : Alike Process.core s s') : SameTasks s s' := ⟨h.map, h.nextPid⟩

theorem sameTasks_doPreempt (s : Scheduler) (rsp : Nat) (voluntary : Bool) (c : Clock) :
    SameTasks s (s.doPreempt rsp voluntary c).2 :=
  ((alike_updateCurrent s (Process.core_leave _ _ _ _)).trans
    (alike_switchToNext Process.apart_core _ _ _ _)).sameTasks

theorem sameTasks_exitCurrent (s : Scheduler) (rsp : Nat) (c : Clock) : SameTasks s (s.exitCurrent rsp c).2 :=
  (alike_exitCurrent Process.apart_core s rsp c).sameTasks

theorem sameTasks_requestSleep (s : Scheduler) (ticks : Nat) : SameTasks s (s.requestSleep ticks) :=
  (alike_requestSleep Process.apart_core s ticks).sameTasks

theorem sameTasks_keyboardBoost (s : Scheduler) : SameTasks s s.keyboardBoost :=
  (alike_keyboardBoost Process.apart_core s).sameTasks

theorem sameTasks_boostPid (s : Scheduler) (pid : Pid) (ticks : Nat) : SameTasks s (s.boostPid pid ticks) :=
  (alike_boostPid Process.apart_core s pid ticks).sameTasks

theorem sameTasks_setMode (s : Scheduler) (mode : SchedMode) : SameTasks s (s.setMode mode) :=
  (alike_setMode Process.apart_core s mode).sameTasks

/-! ## Lookups afterwards -/

theorem SameTasks.pids {s s' : Scheduler} (h : SameTasks s s') :
    s'.processes.map (·.pid) = s.processes.map (·.pid) := by
  have key : ∀ l : List Process, l.map (·.pid) = (l.map Process.core).map Prod.fst := fun l => by
    rw [List.map_map]; rfl
  rw [key, key, h.core]

theorem SameTasks.find {s s' : Scheduler} (h : SameTasks s s') (q : Pid) :
    (s'.find q).map Process.core = (s.find q).map Process.core :=
  find_congr Prod.fst (fun _ => rfl) h.core q

end Scheduler

end ChodOs
