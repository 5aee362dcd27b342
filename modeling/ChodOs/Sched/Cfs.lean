/-
CFS accounting (`do_preempt`, `run_start_ts`): what a process is charged
against the time it was current.

A charge goes from the process's `run_start_ts` to now, and only a selector
that enters a process writes that field. A process that is kept (it is
alone, or it goes to sleep and nobody else is ready) is charged from the
same start again, and the process that is current when CFS is switched on
is charged for the time before.
-/
import ChodOs.Sched.Calls

namespace ChodOs

open StepSys

/-- What the time stamp counter tells of the places in the table. -/
inductive CfsEvent
  /-- `elapsed` cycles were charged to the process. -/
  | charged (i elapsed : Nat)
  /-- The process was current for so many cycles. -/
  | ran (i cycles : Nat)
  deriving DecidableEq

def CfsEvent.chargedTo (i : Nat) : CfsEvent → Nat
  | .charged j n => if j = i then n else 0
  | .ran .. => 0

def CfsEvent.ranBy (i : Nat) : CfsEvent → Nat
  | .ran j n => if j = i then n else 0
  | .charged .. => 0

/-- All that was charged to a place. -/
def charged (i : Nat) (h : List CfsEvent) : Nat := (h.map (CfsEvent.chargedTo i)).sum

/-- All the time a place was current. -/
def ran (i : Nat) (h : List CfsEvent) : Nat := (h.map (CfsEvent.ranBy i)).sum

theorem charged_append (i : Nat) (h es : List CfsEvent) : charged i (h ++ es) = charged i h + charged i es := by
  simp only [charged, List.map_append, List.sum_append]

theorem ran_append (i : Nat) (h es : List CfsEvent) : ran i (h ++ es) = ran i h + ran i es := by
  simp only [ran, List.map_append, List.sum_append]

/-- `elapsed` in `do_preempt`. -/
def Process.elapsed (c : Clock) (p : Process) : Nat := c.tscOut - p.runStartTs

/-- The scheduler with the time stamp counter. -/
structure Metered where
  sched : Scheduler
  /-- The counter when the last switch ended. -/
  tsc : Nat
  /-- The counter at the last charge, or when CFS was switched on. -/
  since : Nat

namespace Metered

/-- `set_mode(Cfs)`. -/
def enterCfs (s : Scheduler) (tsc : Nat) : Metered := { sched := s.setMode .cfs, tsc, since := tsc }

/-- One call. The counter does not go back. -/
def step (m : Metered) : SchedOp → Option (List CfsEvent × Metered)
  | .preempt rsp voluntary c =>
    if m.tsc ≤ c.tscOut ∧ c.tscOut ≤ c.tscIn then
      some ((if m.sched.mode = .cfs then [.charged m.sched.current (m.sched.cur.elapsed c)] else []) ++
          [.ran m.sched.current (c.tscIn - m.tsc)],
        { sched := (m.sched.doPreempt rsp voluntary c).2, tsc := c.tscIn, since := c.tscOut })
    else none
  | .exit rsp c =>
    if m.tsc ≤ c.tscIn then
      some ([.ran m.sched.current (c.tscIn - m.tsc)], { m with sched := (m.sched.exitCurrent rsp c).2, tsc := c.tscIn })
    else none
  | op => (m.sched.step op).map fun (_, sched) => ([], { m with sched })

/-- The mode stays. -/
def StaysCfs (_ : List CfsEvent) (_ : Metered) : SchedOp → Prop
  | .setMode _ => False
  | _ => True

/-- The process at place `i` is charged from a start that is no older than the
last charge and the switch to CFS. -/
def Fresh (i : Nat) (_ : List CfsEvent) (m : Metered) : SchedOp → Prop
  | .preempt _ _ _ => m.sched.current = i → m.since ≤ m.sched.cur.runStartTs
  | .setMode _ => False
  | _ => True

instance (h : List CfsEvent) (m : Metered) (op : SchedOp) : Decidable (StaysCfs h m op) := by
  cases op <;> unfold StaysCfs <;> infer_instance

instance (i : Nat) (h : List CfsEvent) (m : Metered) (op : SchedOp) : Decidable (Fresh i h m op) := by
  cases op <;> unfold Fresh <;> infer_instance

end Metered

/-! ## When a process was started -/

theorem Process.leave_runStartTs (mode : SchedMode) (rsp : Nat) (voluntary : Bool) (c : Clock) (p : Process) :
    (p.leave mode rsp voluntary c).runStartTs = p.runStartTs := by
  have key : ∀ q : Process, q.runStartTs = p.runStartTs → ∀ l, l = (if 0 < q.pendingSleepTicks then
      { q with pendingSleepTicks := 0, state := .blocked, wakeAtTick := c.tick + q.pendingSleepTicks }
      else { q with state := .ready, readySinceTick := c.tick }) → l.runStartTs = p.runStartTs := by
    intro q hq l hl
    split at hl <;> subst hl <;> exact hq
  refine key _ ?_ _ rfl
  cases voluntary <;> cases mode <;> rfl

namespace Scheduler

variable {s s' : Scheduler} {rsp : Nat} {c : Clock}

/-- The time the current process was started, and the mode. -/
def run (s : Scheduler) : Nat × Nat × SchedMode := (s.current, s.cur.runStartTs, s.mode)

theorem cur_eq (s : Scheduler) : s.processes[s.current]? = some s.cur := List.getElem?_eq_getElem s.current_lt

/-- Who is current is told by the table. -/
theorem run_congr (hcur : s'.current = s.current) (hmode : s'.mode = s.mode)
    (hget : (s'.processes[s.current]?).map (·.runStartTs) = (s.processes[s.current]?).map (·.runStartTs)) :
    s'.run = s.run := by
  have h' := s'.cur_eq
  rw [hcur] at h'
  rw [h', s.cur_eq] at hget
  have hstart : s'.cur.runStartTs = s.cur.runStartTs := Option.some.inj hget
  unfold run
  rw [hcur, hmode, hstart]

theorem run_updateCurrent {f : Process → Process} (hf : ∀ p, (f p).runStartTs = p.runStartTs) :
    (s.updateCurrent f).run = s.run :=
  run_congr rfl rfl (map_get_updateCurrent s hf _)

theorem run_updatePid {pid : Pid} {f : Process → Process} (hf : ∀ p, (f p).runStartTs = p.runStartTs) :
    (s.updatePid pid f).run = s.run := by
  refine run_congr rfl rfl ?_
  rw [← List.getElem?_map, ← List.getElem?_map, map_updatePid pid hf]

/-- A switch keeps the current process and its start, or starts one. -/
theorem Switched.start {force : Bool} {r : Nat × Scheduler} (h : Switched s rsp force c r) :
    s.Keeps force c.tick ∧ r.2.run = s.run ∨ r.2.cur.runStartTs = c.tscIn ∧ r.2.mode = s.mode := by
  have hwake : (s.wakeAll c.tick).run = s.run := by
    refine run_congr rfl rfl ?_
    rw [show (s.wakeAll c.tick).processes = s.processes.map (Process.wake c.tick) from rfl, List.getElem?_map,
      Option.map_map]
    congr 1
    funext p
    simp only [Function.comp_apply, Process.wake]
    split <;> rfl
  cases h with
  | stay quanta hk =>
    refine .inl ⟨hk, ?_⟩
    rw [← hwake]
    exact run_updateCurrent (s := { s.wakeAll c.tick with remainingQuanta := quanta }) fun _ => rfl
  | enter quanta hp _ =>
    right
    rw [Switched.enter_eq (s := { s.wakeAll c.tick with remainingQuanta := quanta }) hp]
    exact ⟨by simp [cur], rfl⟩

theorem doPreempt_start (voluntary : Bool) : (s.doPreempt rsp voluntary c).2.run = s.run ∨
    (s.doPreempt rsp voluntary c).2.cur.runStartTs = c.tscIn ∧ (s.doPreempt rsp voluntary c).2.mode = s.mode := by
  have h := (switched_switchToNext (s.updateCurrent (Process.leave s.mode rsp voluntary c)) rsp voluntary c).start
  rw [run_updateCurrent (Process.leave_runStartTs _ _ _ _)] at h
  exact h.imp_left And.right

theorem exitCurrent_start : (s.exitCurrent rsp c).2.run = s.run ∨
    (s.exitCurrent rsp c).2.cur.runStartTs = c.tscIn ∧ (s.exitCurrent rsp c).2.mode = s.mode := by
  have h := (switched_switchToNext { s.updateCurrent fun p => { p with state := .dead, preemptRsp := rsp } with
    remainingQuanta := 0 } rsp true c).start
  have hrun : (s.updateCurrent fun p => { p with state := .dead, preemptRsp := rsp }).run = s.run :=
    run_updateCurrent fun _ => rfl
  exact h.imp_left fun hk => hk.2.trans hrun

/-- The other calls leave it alone. -/
theorem step_run {op : SchedOp} {es : List SchedEvent} (hs : s.step op = some (es, s'))
    (hop : match op with | .preempt .. | .exit .. | .setMode _ => False | _ => True) : s'.run = s.run := by
  cases op with
  | preempt | exit | setMode => cases hop
  | spawn p =>
    cases hs
    obtain ⟨v, hv⟩ := spawn_processes s p
    refine run_congr rfl rfl ?_
    rw [hv, List.getElem?_append_left s.current_lt]
  | kill pid => cases hs; exact run_updatePid fun _ => rfl
  | sleep ticks => cases hs; exact run_updateCurrent fun _ => rfl
  | keyboardBoost =>
    cases hs
    unfold keyboardBoost
    split
    · rfl
    · exact run_updateCurrent fun _ => rfl
  | boostPid pid ticks =>
    cases hs
    refine run_updatePid fun p => ?_
    split <;> rfl
  | setPriority pid pri => cases hs; exact run_updatePid fun _ => rfl
  | setPreferredCpu pid cpu => cases hs; exact run_updatePid fun _ => rfl

/-- With a second process in the table and somebody ready, the current one
itself counting, the switch starts whoever runs next. -/
theorem doPreempt_starts {voluntary : Bool} (hmode : s.mode = .cfs) (hlen : 1 < s.processes.length)
    (hready : s.cur.pendingSleepTicks = 0 ∨ s.OtherReady s.current c.tick) :
    (s.doPreempt rsp voluntary c).2.cur.runStartTs = c.tscIn := by
  have hsw := switched_switchToNext (s.updateCurrent (Process.leave s.mode rsp voluntary c)) rsp voluntary c
  have hsomebody : ∃ i, ((s.updateCurrent (Process.leave s.mode rsp voluntary c)).wakeAll c.tick).stateAt i =
      some .ready := by
    rcases hready with hzero | hother
    · obtain ⟨-, -, ⟨hpos, -⟩ | ⟨-, hst⟩⟩ := Process.leave_cases s.mode rsp voluntary c s.cur
      · omega
      · refine ⟨s.current, ?_⟩
        rw [stateAt_wakeAll, get_updateCurrent, Option.map_some]
        rcases Process.wake_state (s.cur.leave s.mode rsp voluntary c) c.tick with h | ⟨hb, -⟩
        · rw [h, hst]
        · rw [hst] at hb
          cases hb
    · obtain ⟨j, -, -, hj⟩ := hother.updateCurrent (Process.leave s.mode rsp voluntary c)
      exact ⟨j, hj⟩
  have hkeeps : ¬(s.updateCurrent (Process.leave s.mode rsp voluntary c)).Keeps voluntary c.tick := by
    intro h
    rcases h with hnone | hone | hquanta
    · obtain ⟨i, hi⟩ := hsomebody
      exact hnone i hi
    · have hone : ((s.processes.modify s.current (Process.leave s.mode rsp voluntary c))).length ≤ 1 := hone
      rw [List.length_modify] at hone
      omega
    · exact hquanta.1 hmode
  exact (hsw.start.resolve_left fun hk => hkeeps hk.1).1

end Scheduler

/-! ## Runs -/

namespace Metered

variable {i : Nat} {m m' : Metered} {h es : List CfsEvent} {op : SchedOp}

/-- A process is charged no more than it ran, and while it is current what is
left to charge it has run as well. -/
structure Inv (i : Nat) (h : List CfsEvent) (m : Metered) : Prop where
  mode : m.sched.mode = .cfs
  paid : charged i h ≤ ran i h
  due : m.sched.current = i → m.since ≤ m.sched.cur.runStartTs →
    charged i h + (m.tsc - m.sched.cur.runStartTs) ≤ ran i h

theorem Inv.start (s : Scheduler) (tsc : Nat) : Inv i [] (enterCfs s tsc) where
  mode := rfl
  paid := Nat.le_refl _
  due := fun _ hle => by
    change 0 + (tsc - (s.setMode .cfs).cur.runStartTs) ≤ 0
    have hle : tsc ≤ (s.setMode .cfs).cur.runStartTs := hle
    omega

/-- After a call the process that was current goes on or another is started. -/
theorem Inv.next (hi : Inv i h m) {s' : Scheduler} {tsc since : Nat}
    (hstart : s'.run = m.sched.run ∨ s'.cur.runStartTs = tsc ∧ s'.mode = m.sched.mode)
    (hpaid : charged i (h ++ es) ≤ ran i (h ++ es))
    (hdue : m.sched.current = i → since ≤ m.sched.cur.runStartTs →
      charged i (h ++ es) + (tsc - m.sched.cur.runStartTs) ≤ ran i (h ++ es)) :
    Inv i (h ++ es) { sched := s', tsc, since } := by
  rcases hstart with hrun | ⟨hstart, hmode⟩
  · simp only [Scheduler.run, Prod.mk.injEq] at hrun
    obtain ⟨hcur, hsame, hmode⟩ := hrun
    refine ⟨hmode.trans hi.mode, hpaid, fun hc hle => ?_⟩
    change charged i (h ++ es) + (tsc - s'.cur.runStartTs) ≤ ran i (h ++ es)
    rw [hsame]
    exact hdue (hcur ▸ hc) (hsame ▸ hle)
  · refine ⟨hmode.trans hi.mode, hpaid, fun _ _ => ?_⟩
    change charged i (h ++ es) + (tsc - s'.cur.runStartTs) ≤ ran i (h ++ es)
    omega

theorem Inv.step (hi : Inv i h m) (hok : Fresh i h m op) (hs : m.step op = some (es, m')) : Inv i (h ++ es) m' := by
  have hpaid := hi.paid
  -- A call that is no switch takes no time.
  have hcalm : ∀ {s'}, s'.run = m.sched.run → Inv i (h ++ []) { m with sched := s' } := by
    intro s' hrun
    refine hi.next (.inl hrun) ?_ ?_ <;> rw [List.append_nil]
    · exact hpaid
    · exact hi.due
  cases op with
  | preempt rsp voluntary c =>
    simp only [Metered.step, hi.mode, if_true] at hs
    split at hs
    · next htsc =>
      cases hs
      have hcharge : charged i ([.charged m.sched.current (m.sched.cur.elapsed c)] ++
          [.ran m.sched.current (c.tscIn - m.tsc)]) = if m.sched.current = i then c.tscOut - m.sched.cur.runStartTs else 0 := by
        simp [charged, CfsEvent.chargedTo, Process.elapsed]
      have hran : ran i ([.charged m.sched.current (m.sched.cur.elapsed c)] ++
          [.ran m.sched.current (c.tscIn - m.tsc)]) = if m.sched.current = i then c.tscIn - m.tsc else 0 := by
        simp [ran, CfsEvent.ranBy]
      refine hi.next (Scheduler.doPreempt_start voluntary) ?_ fun hcur hle => ?_
      · rw [charged_append, ran_append, hcharge, hran]
        by_cases hcur : m.sched.current = i
        · have hdue := hi.due hcur (hok hcur)
          rw [if_pos hcur, if_pos hcur]
          omega
        · rw [if_neg hcur, if_neg hcur]
          exact hpaid
      · -- Kept, and charged for nothing: its start is in the future.
        rw [charged_append, ran_append, hcharge, hran, if_pos hcur, if_pos hcur]
        omega
    · cases hs
  | exit rsp c =>
    simp only [Metered.step] at hs
    split at hs
    · next htsc =>
      cases hs
      have hran : ran i [.ran m.sched.current (c.tscIn - m.tsc)] = if m.sched.current = i then c.tscIn - m.tsc else 0 := by
        simp [ran, CfsEvent.ranBy]
      have hcharge : charged i [.ran m.sched.current (c.tscIn - m.tsc)] = 0 := rfl
      refine hi.next Scheduler.exitCurrent_start ?_ fun hcur hle => ?_
      · rw [charged_append, ran_append, hcharge]
        omega
      · have hdue := hi.due hcur hle
        rw [charged_append, ran_append, hcharge, hran, if_pos hcur]
        omega
    · cases hs
  | setMode => cases hok
  | spawn | kill | sleep | keyboardBoost | boostPid | setPriority | setPreferredCpu =>
    simp only [Metered.step, Option.map_eq_some_iff] at hs
    obtain ⟨⟨es', s'⟩, hstep, he⟩ := hs
    cases he
    exact hcalm (Scheduler.step_run hstep trivial)

/-- The next charge starts afresh after a switch that finds somebody ready. -/
theorem fresh_of_ready {rsp : Nat} {voluntary : Bool} {c : Clock}
    (hs : m.step (.preempt rsp voluntary c) = some (es, m')) (hmode : m.sched.mode = .cfs)
    (hlen : 1 < m.sched.processes.length)
    (hready : m.sched.cur.pendingSleepTicks = 0 ∨ m.sched.OtherReady m.sched.current c.tick) :
    m'.since ≤ m'.sched.cur.runStartTs := by
  simp only [Metered.step] at hs
  split at hs
  · next htsc =>
    cases hs
    change c.tscOut ≤ (m.sched.doPreempt rsp voluntary c).2.cur.runStartTs
    rw [Scheduler.doPreempt_starts hmode hlen hready]
    exact htsc.2
  · cases hs

end Metered

open Metered

/-- From the switch to CFS on, a process that is always charged from a fresh
start is charged no more than the time it was current. -/
theorem charged_le_ran {s : Scheduler} {tsc i : Nat} {m : Metered} {h : List CfsEvent}
    (hr : Runs Metered.step (Fresh i) (enterCfs s tsc) h m) : charged i h ≤ ran i h :=
  (hr.invariant (Inv i) (Inv.start s tsc) fun hi hok hs => hi.step hok hs).paid

/-- The clock of a switch at one reading of the counter. -/
def atTsc (tsc : Nat) : Clock := { tick := 0, tscOut := tsc, tscIn := tsc, cpu := 0 }

/-- Two processes take turns. -/
theorem charged_le_ran_turns : ∃ h m, Runs Metered.step (Fresh 1)
    (enterCfs (Scheduler.init.spawn (.new 1 0)) 0) h m ∧ charged 1 h = 30 ∧ charged 1 h ≤ ran 1 h := by
  obtain ⟨h, m, hr, hcharged⟩ := Runs.of_exec Metered.step (Fresh 1) (enterCfs (Scheduler.init.spawn (.new 1 0)) 0)
    [.preempt 0 false (atTsc 10), .keyboardBoost, .preempt 0 false (atTsc 20), .preempt 0 true (atTsc 40)]
    (fun h _ => charged 1 h == 30) (by decide)
  exact ⟨h, m, hr, eq_of_beq hcharged, charged_le_ran hr⟩

/-- Not for every process: one that is alone is charged from the same start at
every tick of the timer. -/
theorem charged_twice :
    ¬∀ (s : Scheduler) (tsc i : Nat) (h : List CfsEvent) (m : Metered),
      Runs Metered.step StaysCfs (enterCfs s tsc) h m → charged i h ≤ ran i h := by
  intro hall
  obtain ⟨h, m, hr, hP⟩ := Runs.of_exec Metered.step StaysCfs (enterCfs .init 0)
    [.preempt 0 false (atTsc 10), .preempt 0 false (atTsc 20)]
    (fun h _ => decide (charged 0 h = 30) && decide (ran 0 h = 20)) (by decide)
  simp only [Bool.and_eq_true, decide_eq_true_eq] at hP
  have hle := hall .init 0 0 h m hr
  omega

end ChodOs
