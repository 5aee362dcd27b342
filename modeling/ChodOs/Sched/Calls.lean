/-
The scheduler's own calls as a step function, and what a switch can do: the
current process goes on, or a ready one is entered. A process is known by
its place in the table, which it keeps for ever.
-/
import ChodOs.Lib.Run
import ChodOs.Preempt

namespace ChodOs

open StepSys

/-- What a call of the scheduler reports, by place in the table. -/
inductive SchedEvent
  /-- `Dead` was stored into the process's state. -/
  | died (i : Nat)
  /-- A scheduling decision at this tick ended with the process running. -/
  | chosen (i now : Nat)
  deriving DecidableEq

inductive SchedOp
  | spawn (p : Process)
  | kill (pid : Pid)
  | preempt (rsp : Nat) (voluntary : Bool) (c : Clock)
  | exit (rsp : Nat) (c : Clock)
  | sleep (ticks : Nat)
  | keyboardBoost
  | boostPid (pid : Pid) (ticks : Nat)
  | setPriority (pid : Pid) (pri : Priority)
  | setPreferredCpu (pid : Pid) (cpu : Nat)
  | setMode (mode : SchedMode)

/-- The outgoing process sleeps if it asked to, else it is ready. -/
theorem Process.leave_cases (mode : SchedMode) (rsp : Nat) (voluntary : Bool) (c : Clock) (p : Process) :
    (p.leave mode rsp voluntary c).preemptRsp = rsp ∧ (p.leave mode rsp voluntary c).pendingSleepTicks = 0 ∧
      (0 < p.pendingSleepTicks ∧ (p.leave mode rsp voluntary c).state = .blocked ∧
          (p.leave mode rsp voluntary c).wakeAtTick = c.tick + p.pendingSleepTicks ∨
        p.pendingSleepTicks = 0 ∧ (p.leave mode rsp voluntary c).state = .ready) := by
  -- The bookkeeping before the sleep request is looked at.
  have key : ∀ q : Process, q.pendingSleepTicks = p.pendingSleepTicks → q.preemptRsp = rsp →
      ∀ l, l = (if 0 < q.pendingSleepTicks then
        { q with pendingSleepTicks := 0, state := .blocked, wakeAtTick := c.tick + q.pendingSleepTicks }
        else { q with state := .ready, readySinceTick := c.tick }) →
      l.preemptRsp = rsp ∧ l.pendingSleepTicks = 0 ∧
        (0 < p.pendingSleepTicks ∧ l.state = .blocked ∧ l.wakeAtTick = c.tick + p.pendingSleepTicks ∨
          p.pendingSleepTicks = 0 ∧ l.state = .ready) := by
    intro q hq hrsp l hl
    split at hl
    · next h => subst hl; exact ⟨hrsp, rfl, .inl ⟨hq ▸ h, rfl, by rw [← hq]⟩⟩
    · next h =>
      have hzero : q.pendingSleepTicks = 0 := by omega
      subst hl
      exact ⟨hrsp, hzero, .inr ⟨hq ▸ hzero, rfl⟩⟩
  refine key _ ?_ ?_ _ rfl <;> cases voluntary <;> cases mode <;> rfl

@[simp] theorem Process.wake_preemptRsp (p : Process) (now : Nat) : (p.wake now).preemptRsp = p.preemptRsp := by
  unfold Process.wake
  split <;> rfl

theorem Process.wake_state (p : Process) (now : Nat) :
    (p.wake now).state = p.state ∨ (p.state = .blocked ∧ p.wakeAtTick ≤ now ∧ (p.wake now).state = .ready) := by
  unfold Process.wake
  split
  · next h => exact .inr ⟨h.1, h.2.2, rfl⟩
  · exact .inl rfl

namespace Scheduler

/-- The state of the process at a place. -/
def stateAt (s : Scheduler) (i : Nat) : Option ProcessState := (s.processes[i]?).map (·.state)

/-- The place of the first process with a pid. -/
def place (s : Scheduler) (pid : Pid) : Option Nat := s.processes.findIdx? (·.pid == pid)

/-- One call. -/
def step (s : Scheduler) : SchedOp → Option (List SchedEvent × Scheduler)
  | .spawn p => some ([], s.spawn p)
  | .kill pid => some ((s.place pid).toList.map .died, s.kill pid)
  | .preempt rsp voluntary c =>
    let s' := (s.doPreempt rsp voluntary c).2
    some ([.chosen s'.current c.tick], s')
  | .exit rsp c =>
    let s' := (s.exitCurrent rsp c).2
    some ([.died s.current, .chosen s'.current c.tick], s')
  | .sleep ticks => some ([], s.requestSleep ticks)
  | .keyboardBoost => some ([], s.keyboardBoost)
  | .boostPid pid ticks => some ([], s.boostPid pid ticks)
  | .setPriority pid pri => some ([], s.setPriority pid pri)
  | .setPreferredCpu pid cpu => some ([], s.setPreferredCpu pid cpu)
  | .setMode mode => some ([], s.setMode mode)

/-! ## Who may be chosen -/

theorem mem_candidates {s : Scheduler} {i : Nat} {p : Process} :
    (i, p) ∈ s.candidates ↔ s.processes[i]? = some p ∧ p.state = .ready := by
  have hcur := s.current_lt
  simp only [candidates, List.mem_filterMap, List.mem_map, List.mem_range]
  constructor
  · intro h
    obtain ⟨j, ⟨k, -, -⟩, hj⟩ := h
    rw [Option.bind_eq_some_iff] at hj
    obtain ⟨q, hq, hite⟩ := hj
    split at hite
    · next hready => cases hite; exact ⟨hq, hready⟩
    · cases hite
  · intro ⟨hp, hready⟩
    have hi : i < s.processes.length := (List.getElem?_eq_some_iff.mp hp).1
    -- The scan starts after the current process and goes round once.
    have hround : ∃ k < s.processes.length, (s.current + (k + 1)) % s.processes.length = i := by
      by_cases hle : i ≤ s.current
      · refine ⟨i + s.processes.length - s.current - 1, by omega, ?_⟩
        rw [show s.current + (i + s.processes.length - s.current - 1 + 1) = i + s.processes.length by omega,
          Nat.add_mod_right, Nat.mod_eq_of_lt hi]
      · refine ⟨i - s.current - 1, by omega, ?_⟩
        rw [show s.current + (i - s.current - 1 + 1) = i by omega, Nat.mod_eq_of_lt hi]
    exact ⟨i, hround, by simp [hp, hready]⟩

/-- The place of the best of the candidates is one of theirs. -/
theorem best_cases (beats : Nat × Process → Nat × Process → Bool) (l : List (Nat × Process)) :
    ((l[Slots.bestIdx beats l]?).map (·.1) = none ∧ l = []) ∨
      ∃ x ∈ l, (l[Slots.bestIdx beats l]?).map (·.1) = some x.1 := by
  by_cases h : l = []
  · exact .inl ⟨by simp [h], h⟩
  · have hlt := @Slots.bestIdx_lt _ beats _ h
    refine .inr ⟨_, List.getElem_mem hlt, ?_⟩
    rw [List.getElem?_eq_getElem hlt, Option.map_some]

theorem pickWeighted_cases (s : Scheduler) (now cpu : Nat) :
    (s.pickWeighted now cpu = none ∧ s.candidates = []) ∨
      ∃ x ∈ s.candidates, s.pickWeighted now cpu = some x.1 :=
  best_cases _ _

theorem pickCfs_cases (s : Scheduler) (cpu : Nat) :
    (s.pickCfs cpu = none ∧ s.candidates = []) ∨ ∃ x ∈ s.candidates, s.pickCfs cpu = some x.1 := by
  unfold pickCfs
  cases hboost : s.candidates.find? (0 < ·.2.boostTicks) with
  | some x => exact .inr ⟨x, List.mem_of_find?_eq_some hboost, rfl⟩
  | none => exact best_cases _ _

/-! ## What a switch does -/

/-- Why the current process goes on: nobody is ready, it is alone, or it has
quanta left and does not yield. -/
def Keeps (s : Scheduler) (force : Bool) (now : Nat) : Prop :=
  (∀ i, (s.wakeAll now).stateAt i ≠ some .ready) ∨ s.processes.length ≤ 1 ∨
    (s.mode ≠ .cfs ∧ force = false ∧ 1 < s.remainingQuanta)

/-- Somebody else is ready, or its sleep is over. -/
def OtherReady (s : Scheduler) (i now : Nat) : Prop :=
  ∃ j < s.processes.length, j ≠ i ∧ (s.wakeAll now).stateAt j = some .ready

instance (s : Scheduler) (i now : Nat) : Decidable (s.OtherReady i now) :=
  inferInstanceAs (Decidable (∃ j < s.processes.length, j ≠ i ∧ (s.wakeAll now).stateAt j = some .ready))

/-- With somebody else ready, the current process can only go on with quanta left. -/
theorem Keeps.quanta {s : Scheduler} {force : Bool} {now : Nat} (hk : s.Keeps force now)
    (h : s.OtherReady s.current now) : s.mode ≠ .cfs ∧ force = false ∧ 1 < s.remainingQuanta := by
  obtain ⟨j, hj, hne, hready⟩ := h
  rcases hk with hnone | hone | hquanta
  · exact absurd hready (hnone j)
  · have hlt := s.current_lt
    omega
  · exact hquanta

/-- The two ends of `switch_to_next`, over the table its wake-up scan leaves. -/
inductive Switched (s : Scheduler) (rsp : Nat) (force : Bool) (c : Clock) : Nat × Scheduler → Prop
  | stay (quanta : Nat) : s.Keeps force c.tick →
      Switched s rsp force c (rsp, { s.wakeAll c.tick with remainingQuanta := quanta }.stay)
  | enter (quanta : Nat) {i : Nat} {p : Process} : (s.wakeAll c.tick).processes[i]? = some p → p.state = .ready →
      Switched s rsp force c ({ s.wakeAll c.tick with remainingQuanta := quanta }.enter i c.tscIn)

theorem switched_switchToNext (s : Scheduler) (rsp : Nat) (force : Bool) (c : Clock) :
    Switched s rsp force c (s.switchToNext rsp force c) := by
  have hlen : (s.wakeAll c.tick).processes.length = s.processes.length := by simp [wakeAll]
  have hnil : (s.wakeAll c.tick).candidates = [] → s.Keeps force c.tick := by
    intro hc
    refine .inl fun i hi => ?_
    obtain ⟨p, hp, hready⟩ := Option.map_eq_some_iff.mp hi
    have hmem := mem_candidates.mpr ⟨hp, hready⟩
    rw [hc] at hmem
    cases hmem
  simp only [switchToNext]
  split
  · next hone => exact .stay s.remainingQuanta (.inr (.inl (hlen ▸ hone)))
  split
  · next hquanta => exact .stay _ (.inr (.inr ⟨hquanta.1, by simpa using hquanta.2.1, hquanta.2.2⟩))
  split
  · simp only [switchToNextCfs]
    rcases pickCfs_cases (s.wakeAll c.tick) c.cpu with ⟨hpick, hc⟩ | ⟨⟨i, p⟩, hx, hpick⟩
    · rw [hpick]; exact .stay s.remainingQuanta (hnil hc)
    · rw [hpick]
      obtain ⟨hp, hready⟩ := mem_candidates.mp hx
      exact .enter s.remainingQuanta hp hready
  · simp only [switchToNextWeighted]
    rcases pickWeighted_cases (s.wakeAll c.tick) c.tick c.cpu with ⟨hpick, hc⟩ | ⟨⟨i, p⟩, hx, hpick⟩
    · rw [hpick]; exact .stay _ (hnil hc)
    · rw [hpick]
      obtain ⟨hp, hready⟩ := mem_candidates.mp hx
      exact .enter _ hp hready

namespace Switched

variable {s : Scheduler} {rsp : Nat} {force : Bool} {c : Clock} {r : Nat × Scheduler}

theorem enter_eq {s : Scheduler} {i tsc : Nat} {p : Process} (hp : s.processes[i]? = some p) :
    s.enter i tsc = (p.preemptRsp,
      { s with
        processes := s.processes.modify i fun p => { p with state := .running, runStartTs := tsc }
        current := i
        current_lt := by simpa using (List.getElem?_eq_some_iff.mp hp).1 }) := by
  obtain ⟨hi, rfl⟩ := List.getElem?_eq_some_iff.mp hp
  unfold Scheduler.enter
  rw [dif_pos hi]
  rfl

/-- The process that ends up current runs. -/
theorem cur_state (h : Switched s rsp force c r) : r.2.stateAt r.2.current = some .running := by
  cases h with
  | stay quanta _ =>
    have hlt := (s.wakeAll c.tick).current_lt
    simp [stateAt, Scheduler.stay, updateCurrent, hlt]
  | enter quanta hp _ =>
    rw [enter_eq (s := { s.wakeAll c.tick with remainingQuanta := quanta }) hp]
    simp [stateAt, hp]

/-- Every other process is as the wake-up scan left it. -/
theorem get_other (h : Switched s rsp force c r) {j : Nat} (hj : j ≠ r.2.current) :
    r.2.processes[j]? = (s.processes[j]?).map (Process.wake c.tick) := by
  cases h with
  | stay quanta _ =>
    have hne : s.current ≠ j := fun he => hj he.symm
    simp [Scheduler.stay, updateCurrent, wakeAll, hne]
  | enter quanta hp _ =>
    rw [enter_eq (s := { s.wakeAll c.tick with remainingQuanta := quanta }) hp] at hj ⊢
    simp [wakeAll, Ne.symm hj]

/-- A process other than the current one is switched in from `Ready`. -/
theorem ready (h : Switched s rsp force c r) (hne : r.2.current ≠ s.current) :
    (s.wakeAll c.tick).stateAt r.2.current = some .ready := by
  cases h with
  | stay => exact absurd rfl hne
  | enter quanta hp hready =>
    rw [enter_eq (s := { s.wakeAll c.tick with remainingQuanta := quanta }) hp]
    simp [stateAt, hp, hready]

/-- The current process goes on for one of three reasons, or as a ready one. -/
theorem keeps (h : Switched s rsp force c r) (hcur : r.2.current = s.current) :
    s.Keeps force c.tick ∨ (s.wakeAll c.tick).stateAt s.current = some .ready := by
  cases h with
  | stay _ hk => exact .inl hk
  | enter quanta hp hready =>
    rw [enter_eq (s := { s.wakeAll c.tick with remainingQuanta := quanta }) hp] at hcur
    exact .inr (by rw [← hcur]; simp [stateAt, hp, hready])

/-- The stack pointer is the passed one, or what the entered process saved. -/
theorem rsp_cases (h : Switched s rsp force c r) : (r.2.current = s.current ∧ r.1 = rsp) ∨
    ∃ p, s.processes[r.2.current]? = some p ∧ r.1 = p.preemptRsp ∧ r.2.cur.preemptRsp = p.preemptRsp := by
  cases h with
  | stay => exact .inl ⟨rfl, rfl⟩
  | enter quanta hp _ =>
    rw [enter_eq (s := { s.wakeAll c.tick with remainingQuanta := quanta }) hp]
    simp only [wakeAll, List.getElem?_map, Option.map_eq_some_iff] at hp
    obtain ⟨q, hq, rfl⟩ := hp
    obtain ⟨hi, rfl⟩ := List.getElem?_eq_some_iff.mp hq
    exact .inr ⟨_, hq, Process.wake_preemptRsp _ _, by simp [cur, wakeAll]⟩

end Switched

/-! ## What a call does to a place -/

/-- The fields a switch goes by. -/
def napAt (s : Scheduler) (i : Nat) : Option (ProcessState × Nat × Nat) :=
  (s.processes[i]?).map fun p => (p.state, p.pendingSleepTicks, p.wakeAtTick)

theorem stateAt_eq (s : Scheduler) (i : Nat) : s.stateAt i = (s.napAt i).map (·.1) := by
  simp [stateAt, napAt, Function.comp_def]

theorem stateAt_congr {s s' : Scheduler} {i j : Nat} (h : s'.napAt i = s.napAt j) : s'.stateAt i = s.stateAt j := by
  rw [stateAt_eq, stateAt_eq, h]

theorem stateAt_wakeAll {s : Scheduler} {i now : Nat} :
    (s.wakeAll now).stateAt i = (s.processes[i]?).map fun p => (p.wake now).state := by
  simp [stateAt, wakeAll, Function.comp_def]

theorem get_updateCurrent_other (s : Scheduler) (f : Process → Process) {i : Nat} (h : i ≠ s.current) :
    (s.updateCurrent f).processes[i]? = s.processes[i]? := by
  simp [updateCurrent, Ne.symm h]

theorem get_updateCurrent (s : Scheduler) (f : Process → Process) :
    (s.updateCurrent f).processes[s.current]? = some (f s.cur) := by
  have := s.current_lt
  simp [updateCurrent, cur, this]

/-- What an update of the current process keeps of it, it keeps of every process. -/
theorem map_get_updateCurrent {β : Type} (s : Scheduler) {f : Process → Process} {g : Process → β}
    (hf : ∀ p, g (f p) = g p) (i : Nat) : ((s.updateCurrent f).processes[i]?).map g = (s.processes[i]?).map g := by
  by_cases hi : i = s.current
  · subst hi
    rw [get_updateCurrent, List.getElem?_eq_getElem s.current_lt, Option.map_some, Option.map_some, hf]
    rfl
  · rw [get_updateCurrent_other s f hi]

/-- The others are as ready as before when the current process is rewritten. -/
theorem OtherReady.updateCurrent {s : Scheduler} {now : Nat} (h : s.OtherReady s.current now)
    (f : Process → Process) : (s.updateCurrent f).OtherReady s.current now := by
  obtain ⟨j, hj, hne, hready⟩ := h
  refine ⟨j, by simpa [Scheduler.updateCurrent] using hj, hne, ?_⟩
  rw [stateAt_wakeAll] at hready ⊢
  rw [get_updateCurrent_other s f hne, hready]

theorem napAt_updatePid (s : Scheduler) (pid : Pid) {f : Process → Process}
    (hf : ∀ p, (f p).state = p.state ∧ (f p).pendingSleepTicks = p.pendingSleepTicks ∧ (f p).wakeAtTick = p.wakeAtTick)
    (i : Nat) : (s.updatePid pid f).napAt i = s.napAt i := by
  simp only [napAt, updatePid, ← List.getElem?_map]
  rw [Slots.map_updateFirst fun p _ => ?_]
  rw [(hf p).1, (hf p).2.1, (hf p).2.2]

theorem napAt_spawn (s : Scheduler) (p : Process) (i : Nat) :
    (s.spawn p).napAt i = if i = s.processes.length then some (p.state, p.pendingSleepTicks, p.wakeAtTick)
      else s.napAt i := by
  obtain ⟨v, hv⟩ := spawn_processes s p
  simp only [napAt, hv, List.getElem?_append]
  split
  · next hlt => rw [if_neg (Nat.ne_of_lt hlt)]
  · next hge =>
    split
    · next he => simp [he]
    · rw [List.getElem?_eq_none (by omega : s.processes.length ≤ i), List.getElem?_eq_none (by simp; omega)]

theorem get_kill (s : Scheduler) (pid : Pid) (i : Nat) :
    (s.kill pid).processes[i]? =
      (s.processes[i]?).map fun p => if s.place pid = some i then { p with state := .dead } else p := by
  simp only [kill, updatePid, Slots.updateFirst_eq_modify]
  rw [show s.processes.findIdx? (·.pid == pid) = s.place pid from rfl]
  cases hp : s.place pid with
  | none => simp
  | some j => simp [List.getElem?_modify]

theorem stateAt_requestSleep (s : Scheduler) (ticks i : Nat) : (s.requestSleep ticks).stateAt i = s.stateAt i := by
  unfold stateAt requestSleep
  exact map_get_updateCurrent s (f := fun p => { p with pendingSleepTicks := max ticks 1 }) (fun _ => rfl) i

/-- What a call does, by place. -/
inductive Effect (s : Scheduler) : SchedOp → List SchedEvent → Scheduler → Prop
  /-- Nothing that a switch goes by. -/
  | calm {op : SchedOp} {s' : Scheduler} : s'.current = s.current → (∀ i, s'.napAt i = s.napAt i) → Effect s op [] s'
  | spawn (p : Process) : Effect s (.spawn p) [] (s.spawn p)
  | kill (pid : Pid) : Effect s (.kill pid) ((s.place pid).toList.map .died) (s.kill pid)
  | sleep (ticks : Nat) : Effect s (.sleep ticks) [] (s.requestSleep ticks)
  | preempt {rsp : Nat} {voluntary : Bool} {c : Clock} {r : Nat × Scheduler} :
      Switched (s.updateCurrent (Process.leave s.mode rsp voluntary c)) rsp voluntary c r →
      Effect s (.preempt rsp voluntary c) [.chosen r.2.current c.tick] r.2
  | exit {rsp : Nat} {c : Clock} {r : Nat × Scheduler} :
      Switched { s.updateCurrent fun p => { p with state := .dead, preemptRsp := rsp } with remainingQuanta := 0 }
        rsp true c r →
      Effect s (.exit rsp c) [.died s.current, .chosen r.2.current c.tick] r.2

theorem step_effect {s s' : Scheduler} {op : SchedOp} {es : List SchedEvent} (h : s.step op = some (es, s')) :
    s.Effect op es s' := by
  cases op with
  | spawn p => cases h; exact .spawn p
  | kill pid => cases h; exact .kill pid
  | preempt rsp voluntary c => cases h; exact .preempt (switched_switchToNext _ _ _ _)
  | exit rsp c => cases h; exact .exit (switched_switchToNext _ _ _ _)
  | sleep ticks => cases h; exact .sleep ticks
  | keyboardBoost =>
    cases h
    simp only [keyboardBoost]
    split
    · exact .calm rfl fun _ => rfl
    · exact .calm rfl (map_get_updateCurrent s fun _ => rfl)
  | boostPid pid ticks =>
    cases h
    refine .calm rfl (napAt_updatePid s pid fun p => ?_)
    split <;> exact ⟨rfl, rfl, rfl⟩
  | setPriority pid pri => cases h; exact .calm rfl (napAt_updatePid s pid fun _ => ⟨rfl, rfl, rfl⟩)
  | setPreferredCpu pid cpu => cases h; exact .calm rfl (napAt_updatePid s pid fun _ => ⟨rfl, rfl, rfl⟩)
  | setMode mode =>
    cases h
    simp only [setMode]
    split
    · exact .calm rfl fun i => by simp [napAt, Function.comp_def]
    · exact .calm rfl fun _ => rfl

end Scheduler

end ChodOs
