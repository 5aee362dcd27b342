/-
The shares of voluntary yields. The counters `get_stats` reads are never
reset: they tell all a process ever did, and a report takes them for what
the process did since the last one. It is right about a process that had
not been switched out before the window.
-/
import ChodOs.Policy.Ladders
import ChodOs.Policy.Seats

namespace ChodOs

open StepSys

/-! ## The counters -/

/-- A process makes way, of its own will or not; a report. -/
inductive YieldEvent
  | left (pid : Pid) (voluntary : Bool)
  | report
  deriving DecidableEq

/-- The voluntary yields and the forced preemptions of a process. -/
def made (pid : Pid) (h : List YieldEvent) : Nat × Nat := (h.count (.left pid true), h.count (.left pid false))

theorem made_append (pid : Pid) (h es : List YieldEvent) :
    made pid (h ++ es) = ((made pid h).1 + (made pid es).1, (made pid h).2 + (made pid es).2) := by
  simp only [made, List.count_append]

/-- A process as its counters see it. -/
def Process.yields (p : Process) : Pid × Nat × Nat := (p.pid, p.voluntaryYields, p.forcedPreempts)

theorem Process.apart_yields : Apart Process.yields := fun _ _ _ _ _ _ _ _ _ => rfl

theorem Process.yields_leave (mode : SchedMode) (rsp : Nat) (voluntary : Bool) (c : Clock) (p : Process) :
    (p.leave mode rsp voluntary c).yields = (p.pid, p.voluntaryYields + (made p.pid [.left p.pid voluntary]).1,
      p.forcedPreempts + (made p.pid [.left p.pid voluntary]).2) := by
  have hcharge : ∀ p : Process, (if mode = .cfs then Process.charge c p else p).yields = p.yields := by
    intro p
    split <;> rfl
  have hsleep : ∀ p : Process, (if 0 < p.pendingSleepTicks then
      { p with pendingSleepTicks := 0, state := .blocked, wakeAtTick := c.tick + p.pendingSleepTicks }
      else { p with state := .ready, readySinceTick := c.tick }).yields = p.yields := by
    intro p
    split <;> rfl
  simp only [Process.leave, hsleep, hcharge]
  cases voluntary <;> simp [yields, made]

namespace Scheduler

/-- What `get_stats` tells a report. -/
def yieldsOf (s : Scheduler) (pid : Pid) : Nat × Nat := (s.getStats pid).getD (0, 0)

theorem yieldsOf_congr {s s' : Scheduler} (h : s'.processes.map Process.yields = s.processes.map Process.yields) :
    s'.yieldsOf = s.yieldsOf := by
  have key : ∀ (t : Scheduler) (q : Pid), t.yieldsOf q = ((t.find q).map Process.yields).elim (0, 0) (·.2) := by
    intro t q
    rw [yieldsOf, getStats]
    cases t.find q <;> rfl
  funext q
  rw [key, key, find_congr Prod.fst (fun _ => rfl) h q]

theorem yieldsOf_doPreempt {s : Scheduler} (hd : s.PidsDistinct) (rsp : Nat) (voluntary : Bool) (c : Clock)
    (q : Pid) : (s.doPreempt rsp voluntary c).2.yieldsOf q =
      ((s.yieldsOf q).1 + (made q [.left s.currentPid voluntary]).1,
        (s.yieldsOf q).2 + (made q [.left s.currentPid voluntary]).2) := by
  have hnext := (alike_switchToNext Process.apart_yields
    (s.updateCurrent (Process.leave s.mode rsp voluntary c)) rsp voluntary c).map
  rw [doPreempt, yieldsOf_congr hnext, updateCurrent_eq hd]
  have hpid : ∀ p : Process, (p.leave s.mode rsp voluntary c).pid = p.pid := fun p =>
    congrArg (·.1) (Process.core_leave s.mode rsp voluntary c p)
  simp only [yieldsOf, getStats, find_updatePid hpid]
  split
  · next hq =>
    subst hq
    rw [find_currentPid hd]
    have hleave := Process.yields_leave s.mode rsp voluntary c s.cur
    exact congrArg (·.2) hleave
  · next hq =>
    have hne : s.currentPid ≠ q := Ne.symm hq
    simp [made, hne]

end Scheduler

namespace Kernel

/-- What a call says of the process that runs. -/
def yields (k : Kernel) : Op → List YieldEvent
  | .preempt _ voluntary c => .left k.sched.currentPid voluntary :: if k.reportDue c.tick then [.report] else []
  | _ => []

def yieldStep (k : Kernel) (op : Op) : Option (List YieldEvent × Kernel) :=
  (k.step op).map fun (_, k') => (k.yields op, k')

end Kernel

/-- No report changes the counters. -/
theorem yieldsOf_report {k k' : Kernel} {tick : Nat} {log : List PolicyEvent}
    (hr : k.adaptAndReport tick = some (log, k')) : k'.sched.yieldsOf = k.sched.yieldsOf := by
  have hstable : PolicyStable fun sc _ => sc.yieldsOf = k.sched.yieldsOf :=
    { pri := fun pid _ h => (Scheduler.yieldsOf_congr (Scheduler.map_updatePid pid fun _ => by rfl)).trans h
      cpu := fun pid _ h => (Scheduler.yieldsOf_congr (Scheduler.map_updatePid pid fun _ => by rfl)).trans h
      ensure := fun h _ => h
      drop := fun _ _ h => h }
  exact hstable.report rfl hr

theorem yieldsOf_spawnNew (k : Kernel) (rsp : Nat) :
    (k.spawnNew rsp).sched.yieldsOf = k.sched.yieldsOf := by
  obtain ⟨v, hv⟩ := Scheduler.spawn_processes k.sched.allocPid.2 (.new k.sched.nextPid rsp)
  have hproc : (k.spawnNew rsp).sched.processes =
      k.sched.processes ++ [{ Process.new k.sched.nextPid rsp with vruntime := v }] := hv
  funext q
  have hfind : (k.spawnNew rsp).sched.find q =
      (k.sched.find q).or (if k.sched.nextPid = q then some { Process.new k.sched.nextPid rsp with vruntime := v }
        else none) := by
    rw [Scheduler.find, hproc, List.find?_append, List.find?_singleton]
    simp only [Process.new, beq_iff_eq]
    rfl
  simp only [Scheduler.yieldsOf, Scheduler.getStats, hfind]
  cases k.sched.find q with
  | some p => rfl
  | none =>
    rw [Option.none_or]
    split <;> rfl

/-- A call counts what it says of the process that runs, and nothing else. -/
theorem yieldsOf_step {k k' : Kernel} {op : Op} {es : List KernelEvent} (hw : k.Wf) (hs : k.step op = some (es, k'))
    (q : Pid) : k'.sched.yieldsOf q =
      ((k.sched.yieldsOf q).1 + (made q (k.yields op)).1, (k.sched.yieldsOf q).2 + (made q (k.yields op)).2) := by
  have quiet : k'.sched.yieldsOf = k.sched.yieldsOf → k.yields op = [] → k'.sched.yieldsOf q =
      ((k.sched.yieldsOf q).1 + (made q (k.yields op)).1, (k.sched.yieldsOf q).2 + (made q (k.yields op)).2) := by
    intro hy hno
    rw [hy, hno]
    rfl
  have alike : ∀ {sched}, k.sched.Alike Process.yields sched → k'.sched = sched →
      k'.sched.yieldsOf = k.sched.yieldsOf := by
    intro sched ha he
    rw [he]
    exact Scheduler.yieldsOf_congr ha.map
  have happ := Process.apart_yields
  cases op with
  | preempt rsp voluntary c =>
    simp only [Kernel.step, Option.map_eq_some_iff, Prod.mk.injEq] at hs
    obtain ⟨⟨log, k₁⟩, hp, -, rfl⟩ := hs
    have hmade : made q (k.yields (.preempt rsp voluntary c)) = made q [.left k.sched.currentPid voluntary] := by
      simp only [Kernel.yields, made]
      split <;> simp [List.count_cons]
    have hcount := Scheduler.yieldsOf_doPreempt hw.pids rsp voluntary c q
    rw [hmade, ← hcount]
    rcases Kernel.onSwitch_cases hp with ⟨-, rfl⟩ | hr
    · rfl
    · exact congrFun (yieldsOf_report hr) q
  | exit rsp c => cases hs; exact quiet (alike (Scheduler.alike_exitCurrent happ k.sched rsp c) rfl) rfl
  | sleep ticks => cases hs; exact quiet (alike (Scheduler.alike_requestSleep happ k.sched ticks) rfl) rfl
  | setMode mode => cases hs; exact quiet (alike (Scheduler.alike_setMode happ k.sched mode) rfl) rfl
  | keyboardBoost =>
    cases hs
    refine quiet ?_ rfl
    split
    · exact Scheduler.yieldsOf_congr (Scheduler.alike_keyboardBoost happ k.sched).map
    · rfl
  | boostPid pid ticks =>
    cases hs
    refine quiet ?_ rfl
    split
    · exact Scheduler.yieldsOf_congr (Scheduler.alike_boostPid happ k.sched pid ticks).map
    · rfl
  | spawn rsp => cases hs; exact quiet (yieldsOf_spawnNew k rsp) rfl
  | kill pid => cases hs; exact quiet (Scheduler.yieldsOf_congr (Scheduler.map_updatePid pid fun _ => rfl)) rfl
  | reapDead => cases hs; exact quiet (Scheduler.yieldsOf_congr (map_reapDead k.sched fun _ => rfl)) rfl
  | send dst data =>
    simp only [Kernel.step, Option.map_eq_some_iff, Prod.mk.injEq] at hs
    obtain ⟨⟨ok, k₁⟩, hsend, -, rfl⟩ := hs
    refine quiet ?_ rfl
    simp only [Kernel.send] at hsend
    split at hsend
    · simp only [Option.map_eq_some_iff, Prod.mk.injEq] at hsend
      obtain ⟨r, -, -, rfl⟩ := hsend
      rfl
    · simp only [Option.some.injEq] at hsend
      obtain rfl : k₁ = (k.sendMessage dst (.inline k.sched.currentPid data)).2 := by rw [hsend]
      simp only [sendMessage_sched hw.pids]
      have hpush : ∀ p : Process, (p.push (.inline k.sched.currentPid data)).yields = p.yields := fun _ => rfl
      exact Scheduler.yieldsOf_congr ((Scheduler.map_updatePid dst hpush).trans
        (Scheduler.map_updatePid k.sched.currentPid fun _ => rfl))
  | recv =>
    simp only [Kernel.step, Option.map_eq_some_iff, Prod.mk.injEq] at hs
    obtain ⟨⟨msg, k₁⟩, hr, -, rfl⟩ := hs
    refine quiet ?_ rfl
    obtain ⟨ipc, -, -, rfl | rfl⟩ := recv_cases hr
    · rfl
    · exact Scheduler.yieldsOf_congr (Scheduler.map_updateCurrent fun _ => rfl)
  | ensure src dst =>
    simp only [Kernel.step, Option.map_eq_some_iff, Prod.mk.injEq] at hs
    obtain ⟨r, -, -, rfl⟩ := hs
    exact quiet rfl rfl
  | mmap | pageFault | observe | drop | setEnabled => cases hs; exact quiet rfl rfl

/-- The counters tell what the processes did since boot. -/
theorem yieldsOf_eq_made {mem : ChannelMem} {h : List YieldEvent} {k : Kernel}
    (hr : Runs Kernel.yieldStep free (.init mem) h k) : k.Wf ∧ ∀ q, k.sched.yieldsOf q = made q h := by
  refine hr.invariant (fun h k => k.Wf ∧ ∀ q, k.sched.yieldsOf q = made q h) ⟨.init mem, fun q => ?_⟩ ?_
  · simp only [Scheduler.yieldsOf, Scheduler.getStats, Scheduler.find, made, Kernel.init, Scheduler.init,
      List.find?_singleton, List.count_nil]
    split <;> rfl
  · intro h k op es k' hi _ hs
    obtain ⟨hw, hmade⟩ := hi
    simp only [Kernel.yieldStep, Option.map_eq_some_iff, Prod.mk.injEq] at hs
    obtain ⟨⟨ks, k₁⟩, hs, rfl, rfl⟩ := hs
    refine ⟨hw.step hs, fun q => ?_⟩
    rw [yieldsOf_step hw hs q, hmade q, made_append]

/-! ## A report -/

/-- `cur_vol_10`, from the two counters. -/
def curVol10 (vol forced volEma : Nat) : Nat := if vol + forced = 0 then volEma else vol * 1000 / (vol + forced)

/-- What a report does to the slot of a process that has yielded and been preempted so often. -/
structure CpuStats.Measures (n : Nat × Nat) (s s' : CpuStats) : Prop where
  volEma : s'.volEma = ema (alphaLevels.getD s.alphaLevel 0) (curVol10 n.1 n.2 s.volEma) s.volEma
  few : n.1 + n.2 < 5 →
    s'.alphaLevel = s.alphaLevel ∧ s'.volatilityEma = s.volatilityEma ∧ s'.prevVol10 = s.prevVol10
  enough : 5 ≤ n.1 + n.2 → s'.prevVol10 = curVol10 n.1 n.2 s.volEma

theorem tuneAlpha_measures (vol forced : Nat) {s s₁ s' : CpuStats} (hs : s₁ = { s with
      volEma := ema (alphaLevels.getD s.alphaLevel 0) (curVol10 vol forced s.volEma) s.volEma })
    (hs' : s'.volEma = (tuneAlpha (curVol10 vol forced s.volEma) (vol + forced) s₁).volEma ∧
      s'.alphaLevel = (tuneAlpha (curVol10 vol forced s.volEma) (vol + forced) s₁).alphaLevel ∧
      s'.volatilityEma = (tuneAlpha (curVol10 vol forced s.volEma) (vol + forced) s₁).volatilityEma ∧
      s'.prevVol10 = (tuneAlpha (curVol10 vol forced s.volEma) (vol + forced) s₁).prevVol10) :
    s.Measures (vol, forced) s' := by
  obtain ⟨hvol, halpha, hvolatility, hprev⟩ := hs'
  subst hs
  by_cases hmin : 5 ≤ vol + forced
  · simp only [tuneAlpha, if_pos hmin] at hvol hprev
    exact ⟨hvol, fun hfew => by simp only at hfew; omega, fun _ => hprev⟩
  · simp only [tuneAlpha, if_neg hmin] at hvol halpha hvolatility hprev
    exact ⟨hvol, fun _ => ⟨halpha, hvolatility, hprev⟩, fun hen => absurd hen hmin⟩

theorem scanProcess_measures (enabled : Bool) (window : Nat) (st : CpuScan) {s : CpuStats} (ha : s.active = true) :
    s.Measures (st.sched.yieldsOf s.pid) (scanProcess enabled window st s).2 := by
  have hpri : ∀ pri (t : CpuStats), (applyPriority pri st t).2.volEma = t.volEma ∧
      (applyPriority pri st t).2.alphaLevel = t.alphaLevel ∧
      (applyPriority pri st t).2.volatilityEma = t.volatilityEma ∧
      (applyPriority pri st t).2.prevVol10 = t.prevVol10 := by
    intro pri t
    simp only [applyPriority]
    split <;> exact ⟨rfl, rfl, rfl, rfl⟩
  simp only [scanProcess, if_pos ha]
  rw [show (st.sched.getStats s.pid).getD (0, 0) = st.sched.yieldsOf s.pid from rfl]
  generalize st.sched.yieldsOf s.pid = vf
  obtain ⟨vol, forced⟩ := vf
  refine tuneAlpha_measures vol forced rfl ?_
  cases enabled with
  | true => exact hpri _ _
  | false => exact ⟨rfl, rfl, rfl, rfl⟩

/-- A report measures every process by its counters. -/
theorem report_measures {k k' : Kernel} {tick : Nat} {log : List PolicyEvent}
    (hr : k.adaptAndReport tick = some (log, k')) : List.Forall₂ (fun s s' : CpuStats =>
      s.active = true → s.Measures (k.sched.yieldsOf s.pid) s') k.engine.stats.1 k'.engine.stats.1 := by
  obtain ⟨k₃, hbefore, rfl⟩ := Kernel.adaptAndReport_readied hr
  have hstats : (k₃.decay tick).2.engine.stats = (k.scanned tick).2 :=
    (decay_frame tick k₃).2.2.1.trans (Kernel.beforeDecay_readied hbefore).tables.2.2.2.1
  have hbase : (k.intervalTuned tick).stats = k.engine.stats := (tuneInterval_frame _ _).2.2.1
  rw [hstats, ← hbase]
  -- The loop sets priorities, so every turn reads the counters as they were.
  refine Slots.mapAccum_forall₂_of (fun st : CpuScan => st.sched.yieldsOf = k.sched.yieldsOf) (fun st s hst => ?_)
    (fun st s hst ha => ?_) rfl _
  · rcases (scanProcess_spec k.policyEnabled (max k.engine.reportInterval 1) st s).2.2 with
      ⟨hs, -⟩ | ⟨-, -, ⟨hs, -⟩ | ⟨pri, hs, -⟩⟩
    · rw [hs, hst]
    · rw [hs, hst]
    · rw [hs, ← hst]
      exact Scheduler.yieldsOf_congr (Scheduler.map_updatePid s.pid fun _ => rfl)
  · rw [← hst]
    exact scanProcess_measures _ _ st ha

/-- What happened up to the last report, and since. -/
structure LastWindow (h before window : List YieldEvent) : Prop where
  eq : h = before ++ window
  start : before = [] ∨ before.getLast? = some .report
  quiet : .report ∉ window

/-- A report measures a process by what it did since the last one exactly
where it had done nothing before. -/
theorem report_measures_the_window {mem : ChannelMem} {h : List YieldEvent} {k k' : Kernel} {rsp : Nat}
    {voluntary : Bool} {c : Clock} {es : List KernelEvent} (hr : Runs Kernel.yieldStep free (.init mem) h k)
    (hdue : k.reportDue c.tick = true) (hs : k.step (.preempt rsp voluntary c) = some (es, k'))
    {before window : List YieldEvent} (hw : LastWindow (h ++ [.left k.sched.currentPid voluntary]) before window)
    {i : Nat} {s s' : CpuStats} (hi : (k.switched rsp voluntary c).engine.stats.1[i]? = some s)
    (hi' : k'.engine.stats.1[i]? = some s') (ha : s.active = true) :
    ((k.switched rsp voluntary c).sched.yieldsOf s.pid = made s.pid window ↔ made s.pid before = (0, 0)) ∧
      (made s.pid before = (0, 0) → s.Measures (made s.pid window) s') := by
  obtain ⟨hwf, hmade⟩ := yieldsOf_eq_made hr
  have hall : (k.switched rsp voluntary c).sched.yieldsOf s.pid =
      ((made s.pid before).1 + (made s.pid window).1, (made s.pid before).2 + (made s.pid window).2) := by
    have hcount := Scheduler.yieldsOf_doPreempt hwf.pids rsp voluntary c s.pid
    rw [hmade, ← made_append, hw.eq, made_append] at hcount
    exact hcount
  have hiff : (k.switched rsp voluntary c).sched.yieldsOf s.pid = made s.pid window ↔
      made s.pid before = (0, 0) := by
    rw [hall, Prod.ext_iff, Prod.ext_iff]
    simp only
    omega
  refine ⟨hiff, fun hfirst => ?_⟩
  obtain ⟨log, hrep⟩ : ∃ log, (k.switched rsp voluntary c).adaptAndReport c.tick = some (log, k') := by
    cases step_goes hs with
    | still _ _ hno =>
      simp only [Kernel.step, Option.map_eq_some_iff, Prod.mk.injEq] at hs
      obtain ⟨r, -, rfl, -⟩ := hs
      simp [hdue] at hno
    | report _ hrep => exact ⟨_, hrep⟩
  have hlt := (List.getElem?_eq_some_iff.mp hi).1
  have hlt' := (List.getElem?_eq_some_iff.mp hi').1
  have hslot := (report_measures hrep).get hlt hlt'
  simp only [List.get_eq_getElem, (List.getElem?_eq_some_iff.mp hi).2, (List.getElem?_eq_some_iff.mp hi').2] at hslot
  have hm := hslot ha
  rw [hiff.mpr hfirst] at hm
  exact hm

/-- The clock of a switch at a tick. -/
def clockAt (tick : Nat) : Clock := { tick, tscOut := 0, tscIn := 0, cpu := 0 }

theorem report_measures_the_window_first : ∃ h k k' es, ∃ s s' : CpuStats, Runs Kernel.yieldStep free (.init (.ofFrames 16)) h k ∧
    k.step (.preempt 0 true (clockAt 40)) = some (es, k') ∧ k'.engine.stats.1[0]? = some s' ∧
      s.Measures (made s.pid (h ++ [.left k.sched.currentPid true])) s' := by
  obtain ⟨h, k, hr, hP⟩ := Runs.of_exec Kernel.yieldStep free (.init (.ofFrames 16)) [yieldAt 10, yieldAt 20]
    (fun h k => k.reportDue 40 && decide (.report ∉ h) &&
      ((k.step (.preempt 0 true (clockAt 40))).bind (·.2.engine.stats.1[0]?)).isSome &&
      ((k.switched 0 true (clockAt 40)).engine.stats.1[0]?).any (·.active)) (by decide)
  simp only [Bool.and_eq_true, decide_eq_true_eq, Option.any_eq_true, Option.isSome_iff_exists,
    Option.bind_eq_some_iff] at hP
  obtain ⟨⟨⟨hdue, hno⟩, s', ⟨es, k'⟩, hs, hi'⟩, s, hi, ha⟩ := hP
  have hw : LastWindow (h ++ [.left k.sched.currentPid true]) [] (h ++ [.left k.sched.currentPid true]) :=
    ⟨rfl, .inl rfl, by simp [hno]⟩
  exact ⟨h, k, k', es, s, s', hr, hs, hi', (report_measures_the_window hr hdue hs hw hi hi' ha).2 rfl⟩

/-- Eight yields up to the first report, and one preemption up to the second:
the second still counts the yields. -/
theorem report_measures_more : ¬ ∀ (mem : ChannelMem) (h : List YieldEvent) (k k' : Kernel) (rsp : Nat)
    (voluntary : Bool) (c : Clock) (es : List KernelEvent) (before window : List YieldEvent) (i : Nat)
    (s s' : CpuStats), Runs Kernel.yieldStep free (.init mem) h k → k.reportDue c.tick = true →
      k.step (.preempt rsp voluntary c) = some (es, k') →
      LastWindow (h ++ [.left k.sched.currentPid voluntary]) before window →
      (k.switched rsp voluntary c).engine.stats.1[i]? = some s → k'.engine.stats.1[i]? = some s' → s.active = true →
      s.Measures (made s.pid window) s' := by
  intro hall
  obtain ⟨h, k, hr, hP⟩ := Runs.of_exec Kernel.yieldStep free (.init (.ofFrames 16))
    (List.replicate 7 (yieldAt 10) ++ [yieldAt 40])
    (fun h k => k.reportDue 200 && decide (h.getLast? = some .report) && decide (k.sched.currentPid = 0) &&
      ((k.step (.preempt 0 false (clockAt 200))).bind (·.2.engine.stats.1[0]?)).any
        (fun s' : CpuStats => decide (s'.prevVol10 = 888)) &&
      ((k.switched 0 false (clockAt 200)).engine.stats.1[0]?).any (fun s : CpuStats =>
        s.active && decide (s.pid = 0) && decide (s.prevVol10 = 1000))) (by decide)
  simp only [Bool.and_eq_true, decide_eq_true_eq, Option.any_eq_true, Option.bind_eq_some_iff] at hP
  obtain ⟨⟨⟨⟨hdue, hlast⟩, hcur⟩, s', ⟨⟨es, k'⟩, hs, hi'⟩, hnew⟩, s, hi, ⟨ha, hpid⟩, hold⟩ := hP
  have hw : LastWindow (h ++ [.left k.sched.currentPid false]) h [.left k.sched.currentPid false] :=
    ⟨rfl, .inr hlast, by simp⟩
  have hm := hall _ h k k' 0 false (clockAt 200) es _ _ 0 s s' hr hdue hs hw hi hi' ha
  -- One event is no sample.
  have hfew := (hm.few (by rw [hpid, hcur]; decide)).2.2
  omega

end ChodOs
