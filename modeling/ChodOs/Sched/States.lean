/-
The states of the process table over whole runs: exactly one process is
`Running`, and a process that was killed or has exited stays `Dead` as long
as nobody switches away from a dead process and nobody exits alone.
-/
import ChodOs.Sched.Calls

namespace ChodOs

open StepSys

namespace Scheduler

/-! ## One process runs -/

/-- Processes are spawned `Ready`, and the current one is not killed. -/
def Tame (_ : List SchedEvent) (s : Scheduler) : SchedOp → Prop
  | .spawn p => p.state = .ready
  | .kill pid => pid ≠ s.currentPid
  | _ => True

instance (h : List SchedEvent) (s : Scheduler) (op : SchedOp) : Decidable (Tame h s op) := by
  induction op using SchedOp.casesOn <;> unfold Tame <;> infer_instance

/-- The running processes are the current one. -/
def OneRuns (s : Scheduler) : Prop := ∀ i, s.stateAt i = some .running ↔ i = s.current

/-- After a switch only the process it chose runs, if the others did not run before. -/
theorem Switched.oneRuns {s : Scheduler} {rsp : Nat} {force : Bool} {c : Clock} {r : Nat × Scheduler}
    (h : Switched s rsp force c r) (hs : ∀ i, s.stateAt i ≠ some .running) : r.2.OneRuns := by
  intro i
  constructor
  · intro hi
    by_contra hne
    rw [stateAt, h.get_other hne, Option.map_map, Option.map_eq_some_iff] at hi
    obtain ⟨p, hp, hrun⟩ := hi
    refine hs i ?_
    rw [stateAt, hp, Option.map_some]
    rcases p.wake_state c.tick with hw | ⟨-, -, hw⟩
    · rw [← hw]; exact congrArg some hrun
    · exact absurd (hw.symm.trans hrun) (by decide)
  · intro h
    obtain rfl := h
    exact h.cur_state

/-- Before a switch the outgoing process is told that it no longer runs. -/
theorem OneRuns.updateCurrent {s : Scheduler} (h : s.OneRuns) {f : Process → Process}
    (hf : ∀ p, (f p).state ≠ .running) (i : Nat) : (s.updateCurrent f).stateAt i ≠ some .running := by
  by_cases hi : i = s.current
  · subst hi
    simp [stateAt, get_updateCurrent, hf]
  · rw [stateAt, get_updateCurrent_other s f hi]
    exact fun hrun => hi ((h i).mp hrun)

theorem OneRuns.effect {s s' : Scheduler} (h : s.OneRuns) {hist : List SchedEvent} {op : SchedOp}
    {es : List SchedEvent} (hok : Tame hist s op) (he : s.Effect op es s') : s'.OneRuns := by
  cases he with
  | calm hcur hnap => exact fun i => by rw [stateAt_congr (hnap i), hcur]; exact h i
  | spawn p =>
    intro i
    have hcur : (s.spawn p).current = s.current := rfl
    have hlt := s.current_lt
    rw [stateAt_eq, napAt_spawn, hcur]
    split
    · next hi =>
      have hp : p.state = .ready := hok
      simp only [Option.map_some, hp]
      constructor
      · intro hc; cases hc
      · intro hc; omega
    · rw [← stateAt_eq]; exact h i
  | kill pid =>
    intro i
    have hcur : (s.kill pid).current = s.current := rfl
    rw [stateAt, get_kill, Option.map_map, hcur]
    by_cases hp : s.place pid = some i
    · have hne : i ≠ s.current := by
        intro h
        obtain rfl := h
        rw [place, List.findIdx?_eq_some_iff_getElem] at hp
        obtain ⟨_, hpid, _⟩ := hp
        exact hok (by simpa [currentPid, cur] using (beq_iff_eq.mp hpid).symm)
      simp [Function.comp_def, hp, hne]
    · simpa only [Function.comp_def, hp, if_false, stateAt] using h i
  | sleep ticks =>
    intro i
    rw [stateAt_requestSleep, h i]
    rfl
  | preempt hsw =>
    refine hsw.oneRuns (h.updateCurrent fun p => ?_)
    obtain ⟨-, -, ⟨-, hp, -⟩ | ⟨-, hp⟩⟩ := Process.leave_cases s.mode _ _ _ p <;> rw [hp] <;> decide
  | exit hsw => exact hsw.oneRuns (h.updateCurrent fun p hc => by cases hc)

theorem OneRuns.init : Scheduler.init.OneRuns := by
  intro i
  cases i with
  | zero => simp [Scheduler.init, stateAt, Process.newKernelMain]
  | succ i => simp [Scheduler.init, stateAt]

/-- The stack pointer `do_preempt` returns. -/
theorem doPreempt_rsp (s : Scheduler) (rsp : Nat) (voluntary : Bool) (c : Clock) :
    (s.doPreempt rsp voluntary c).1 = if (s.doPreempt rsp voluntary c).2.current = s.current then rsp
      else (s.doPreempt rsp voluntary c).2.cur.preemptRsp := by
  have hsw : Switched (s.updateCurrent (Process.leave s.mode rsp voluntary c)) rsp voluntary c
    (s.doPreempt rsp voluntary c) := switched_switchToNext _ _ _ _
  rcases hsw.rsp_cases with ⟨hcur, hrsp⟩ | ⟨p, hp, hrsp, hsaved⟩
  · rw [if_pos (show _ = s.current from hcur), hrsp]
  · split
    · next hcur =>
      -- The process that just left is entered again, with what it saved.
      rw [hcur, get_updateCurrent, Option.some.injEq] at hp
      rw [hrsp, ← hp]
      exact (Process.leave_cases _ _ _ _ _).1
    · rw [hrsp, hsaved]

/-- Exactly the current process is `Running`, and a switch goes on with its
saved stack pointer, or with the passed one when nobody else is switched in. -/
theorem one_process_runs {h : List SchedEvent} {s : Scheduler} (hr : Runs Scheduler.step Tame .init h s) :
    s.current < s.processes.length ∧ s.cur.state = .running ∧
      (∀ i, s.stateAt i = some .running → i = s.current) ∧
      ∀ rsp voluntary c, (s.doPreempt rsp voluntary c).1 =
        if (s.doPreempt rsp voluntary c).2.current = s.current then rsp
        else (s.doPreempt rsp voluntary c).2.cur.preemptRsp := by
  have hone : s.OneRuns := hr.invariant_state OneRuns OneRuns.init fun hi hok hs => hi.effect hok (step_effect hs)
  refine ⟨s.current_lt, ?_, fun i => (hone i).mp, s.doPreempt_rsp⟩
  have hcur := (hone s.current).mpr rfl
  rw [stateAt, List.getElem?_eq_getElem s.current_lt, Option.map_some, Option.some.injEq] at hcur
  exact hcur

/-- Two processes, the first asleep. -/
def napOps : List SchedOp :=
  [.spawn (.new 1 64), .sleep 5, .preempt 32 true { tick := 2, tscOut := 0, tscIn := 0, cpu := 0 }]

theorem one_process_runs_after_nap : ∃ h s, Runs Scheduler.step Tame .init h s ∧ s.current = 1 ∧
    s.stateAt 0 = some .blocked ∧ s.cur.state = .running := by
  obtain ⟨h, s, hr, hs⟩ := Runs.of_exec Scheduler.step Tame .init napOps
    (fun _ s => s.current == 1 && decide (s.stateAt 0 = some .blocked)) (by decide)
  simp only [Bool.and_eq_true, beq_iff_eq, decide_eq_true_eq] at hs
  exact ⟨h, s, hr, hs.1, hs.2, (one_process_runs hr).2.1⟩

/-! ## Dead processes -/

/-- No switch takes the processor from a dead process, and who exits leaves
a ready process behind. -/
def NoRevival (_ : List SchedEvent) (s : Scheduler) : SchedOp → Prop
  | .preempt _ _ _ => s.cur.state ≠ .dead
  | .exit _ c => s.OtherReady s.current c.tick
  | _ => True

instance (h : List SchedEvent) (s : Scheduler) (op : SchedOp) : Decidable (NoRevival h s op) := by
  induction op using SchedOp.casesOn <;> unfold NoRevival <;> infer_instance

theorem Process.wake_dead {p : Process} (h : p.state = .dead) (now : Nat) : (p.wake now).state = .dead := by
  rcases p.wake_state now with hw | ⟨hb, -, -⟩
  · rw [hw, h]
  · rw [h] at hb; cases hb

/-- A switch leaves a dead process dead, unless it is the current one and goes on. -/
theorem Switched.dead {s : Scheduler} {rsp : Nat} {force : Bool} {c : Clock} {r : Nat × Scheduler}
    (h : Switched s rsp force c r) {i : Nat} (hi : s.stateAt i = some .dead)
    (hkeep : i = s.current → ¬s.Keeps force c.tick) : r.2.stateAt i = some .dead := by
  obtain ⟨p, hp, hdead⟩ := Option.map_eq_some_iff.mp hi
  have hwake : (s.wakeAll c.tick).stateAt i = some .dead := by
    rw [stateAt_wakeAll, hp, Option.map_some, Process.wake_dead hdead]
  have hne : i ≠ r.2.current := by
    intro h
    obtain rfl := h
    by_cases hcur : r.2.current = s.current
    · rcases h.keeps hcur with hk | hready
      · exact hkeep hcur hk
      · rw [← hcur, hwake] at hready; cases hready
    · rw [h.ready hcur] at hwake; cases hwake
  rw [stateAt, h.get_other hne, hp, Option.map_some, Option.map_some, Process.wake_dead hdead]

theorem dead_effect {s s' : Scheduler} {hist : List SchedEvent} {op : SchedOp} {es : List SchedEvent}
    (hok : NoRevival hist s op) (he : s.Effect op es s') {i : Nat} (hi : s.stateAt i = some .dead ∨ .died i ∈ es) :
    s'.stateAt i = some .dead := by
  cases he with
  | calm _ hnap => rw [stateAt_congr (hnap i)]; simpa using hi
  | spawn p =>
    have hi : s.stateAt i = some .dead := by simpa using hi
    obtain ⟨q, hq, -⟩ := Option.map_eq_some_iff.mp hi
    have hlt := (List.getElem?_eq_some_iff.mp hq).1
    rw [stateAt_eq, napAt_spawn, if_neg (Nat.ne_of_lt hlt), ← stateAt_eq, hi]
  | kill pid =>
    rw [stateAt, get_kill, Option.map_map]
    rcases hi with hi | hi
    · obtain ⟨q, hq, hdead⟩ := Option.map_eq_some_iff.mp hi
      rw [hq, Option.map_some, Function.comp_apply, Option.some.injEq]
      split
      · rfl
      · exact hdead
    · simp only [List.mem_map, Option.mem_toList, SchedEvent.died.injEq, exists_eq_right] at hi
      have hlt : i < s.processes.length := (List.findIdx?_eq_some_iff_getElem.mp hi).1
      simp [hi, hlt]
  | sleep ticks =>
    rw [stateAt_requestSleep]
    simpa using hi
  | preempt hsw =>
    have hi : s.stateAt i = some .dead := by simpa using hi
    have hne : i ≠ s.current := by
      intro h
      obtain rfl := h
      rw [stateAt, List.getElem?_eq_getElem s.current_lt, Option.map_some, Option.some.injEq] at hi
      exact hok hi
    refine hsw.dead ?_ fun he => absurd he hne
    rw [stateAt, get_updateCurrent_other s _ hne, ← stateAt, hi]
  | @exit rsp c r hsw =>
    have hready : s.OtherReady s.current c.tick := hok
    refine hsw.dead ?_ fun _ hk => absurd
      (hk.quanta (hready.updateCurrent fun p => { p with state := .dead, preemptRsp := rsp })).2.1 (by decide)
    by_cases hc : i = s.current
    · subst hc
      exact congrArg (Option.map _) (get_updateCurrent s _)
    · have hi : s.stateAt i = some .dead := by simpa [hc] using hi
      rw [← hi]
      exact congrArg (Option.map _) (get_updateCurrent_other s _ hc)

/-- A process that is dead, or that dies in the run, is dead at its end. -/
theorem dead_is_final {s s' : Scheduler} {h : List SchedEvent} (hr : Runs Scheduler.step NoRevival s h s') {i : Nat}
    (hi : s.stateAt i = some .dead ∨ .died i ∈ h) : s'.stateAt i = some .dead := by
  refine hr.invariant (fun h s' => (s.stateAt i = some .dead ∨ .died i ∈ h) → s'.stateAt i = some .dead)
    (fun h₀ => by simpa using h₀) (fun ih hok hs hi => ?_) hi
  refine dead_effect hok (step_effect hs) ?_
  rcases hi with hi | hi
  · exact .inl (ih (.inl hi))
  · rcases List.mem_append.mp hi with hi | hi
    · exact .inl (ih (.inr hi))
    · exact .inr hi

/-- A tick of the timer. -/
def timerAt (tick : Nat) : SchedOp := .preempt 0 false { tick, tscOut := 0, tscIn := 0, cpu := 0 }

/-- The second of three processes dies, the first one exits. -/
def dieOps : List SchedOp :=
  [.spawn (.new 1 0), .spawn (.new 2 0), .kill 1, .exit 0 { tick := 4, tscOut := 0, tscIn := 0, cpu := 0 }, timerAt 8]

theorem dead_is_final_of_two : ∃ h s, Runs Scheduler.step NoRevival .init h s ∧ s.stateAt 0 = some .dead ∧
    s.stateAt 1 = some .dead := by
  obtain ⟨h, s, hr, hs⟩ := Runs.of_exec Scheduler.step NoRevival .init dieOps
    (fun h _ => decide (.died 0 ∈ h) && decide (.died 1 ∈ h)) (by decide)
  simp only [Bool.and_eq_true, decide_eq_true_eq] at hs
  exact ⟨h, s, hr, dead_is_final hr (.inr hs.1), dead_is_final hr (.inr hs.2)⟩

/-- The current process is killed, and the next tick puts it back among the ready ones. -/
theorem killed_process_is_ready_again : ∃ h s h' s', Runs Scheduler.step free .init h s ∧
    s.stateAt 0 = some .dead ∧ Runs Scheduler.step free s h' s' ∧ s'.stateAt 0 = some .ready := by
  have hrun : (exec Scheduler.step free [] .init [.spawn (.new 1 0), .kill 0]).any
      (fun r : List SchedEvent × Scheduler => decide (r.2.stateAt 0 = some .dead) &&
        (exec Scheduler.step free [] r.2 [timerAt 3]).any
          fun r' : List SchedEvent × Scheduler => decide (r'.2.stateAt 0 = some .ready)) = true := by decide
  simp only [Option.any_eq_true, Bool.and_eq_true, decide_eq_true_eq] at hrun
  obtain ⟨⟨h, s⟩, hkill, hdead, ⟨h', s'⟩, htick, hready⟩ := hrun
  exact ⟨h, s, h', s', Runs.start.exec hkill, hdead, Runs.start.exec htick, hready⟩

end Scheduler

end ChodOs
