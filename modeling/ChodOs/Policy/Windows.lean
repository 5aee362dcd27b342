/-
Reports and the time they speak of. The idle share is taken over the
interval ST-1 has just set, not over the one that was measured, and the
exploration rate falls when a report falls on a thousandth tick, not when a
thousand ticks have passed.
-/
import ChodOs.Policy.Ladders

namespace ChodOs

open StepSys

/-! ## The idle share -/

/-- What a slot adds to `busy_ticks_snapshot`. -/
def CpuStats.busy (s : CpuStats) : Nat := if s.active && s.pid != 0 then s.recentTicks else 0

/-- The ticks of the window, `kernel_main`'s left out. -/
def PolicyEngine.busyTicks (e : PolicyEngine) : Nat := (e.stats.1.map CpuStats.busy).sum

theorem scanProcess_busy (enabled : Bool) (window : Nat) (st : CpuScan) (s : CpuStats) :
    (scanProcess enabled window st s).1.busyTicks = st.busyTicks + s.busy := by
  simp only [scanProcess, CpuStats.busy]
  cases s.active with
  | false => rfl
  | true =>
    by_cases hpid : s.pid = 0
    · simp [hpid]
    · simp [hpid]

/-- ST-1 and the eviction list leave the slots alone. -/
theorem intervalTuned_stats (k : Kernel) (tick : Nat) : (k.intervalTuned tick).stats = k.engine.stats :=
  (tuneInterval_frame _ _).2.2.1

theorem scanned_busy (k : Kernel) (tick : Nat) : (k.scanned tick).1.busyTicks = k.engine.busyTicks := by
  have h := Slots.mapAccum_fold (t := fun busy s => busy + s.busy) CpuScan.busyTicks
    (scanProcess_busy k.policyEnabled (max k.engine.reportInterval 1))
    { sched := k.sched, maxPct := 0, cntHigh := 0, cntLow := 0, busyTicks := 0, log := [] } k.engine.stats.1
  rw [Kernel.scanned, intervalTuned_stats, PolicyEngine.busyTicks, List.sum_eq_foldl, List.foldl_map]
  exact h

/-- The rung ST-1 moves to. -/
def PolicyEngine.nextRung (enabled : Bool) (e : PolicyEngine) : Nat :=
  if enabled then
    if e.switchesThisWindow < 5 then e.reportIntervalLevel
    else
      let rate := e.switchesThisWindow * 10 / max e.reportInterval 1
      ladderStep (intervalTarget (ema 3 rate e.switchRateEma)) e.reportIntervalLevel
  else reportIntervalBaselineLevel

/-- The idle share of a window, as the power block computes it. -/
def idleShare (window busy : Nat) : Nat := (window - min busy window) * 100 / window

namespace Kernel

/-- `idle_pct_raw` of a report: the interval is the one ST-1 has set. -/
def idlePctRaw (k : Kernel) (tick : Nat) : Nat :=
  idleShare (max (k.intervalTuned tick).reportInterval 1) (k.scanned tick).1.busyTicks

/-- The idle share of the window that ends, over the interval it was measured with. -/
def windowIdlePct (k : Kernel) : Nat :=
  let window := max k.engine.reportInterval 1
  100 * (window - min k.engine.busyTicks window) / window

/-- A report starts: `adapt_and_report` is called, or a switch is due for one. -/
inductive StartsReport (k : Kernel) : Kernel → Nat → Prop
  | call (tick : Nat) : StartsReport k k tick
  | switch (src dst : Pid) {tick : Nat} : k.engine.lastReportTick + k.engine.reportInterval ≤ tick →
      StartsReport k { k with engine := { k.engine.countSwitch src dst tick with lastReportTick := tick } } tick

end Kernel

/-- What no call of the engine breaks holds when a report starts. -/
theorem EngineKeeps.of_starts {I : Kernel → Prop} (hI : EngineKeeps I) {k k₀ : Kernel} {tick : Nat} (h : I k)
    (hs : k.StartsReport k₀ tick) : I k₀ := by
  cases hs with
  | call => exact h
  | switch src dst => exact hI.lastReportTick tick (hI.countSwitch src dst tick h)

/-- The share goes into the average. -/
theorem idlePctEma_of_report {k k' : Kernel} {tick : Nat} {log : List PolicyEvent}
    (hr : k.adaptAndReport tick = some (log, k')) :
    k'.engine.idlePctEma = ema 3 (k.idlePctRaw tick * 10) k.engine.idlePctEma := by
  obtain ⟨k₃, hk₃, rfl⟩ := Kernel.adaptAndReport_readied hr
  obtain ⟨n, mem, -, hengine⟩ := (Kernel.beforeDecay_readied hk₃).engine
  obtain ⟨q, rng, evict, hdecay⟩ := decay_engine k₃ tick
  rw [hdecay, hengine]
  obtain ⟨epsilon, he⟩ := decayEpsilon_eq (k.profileTuned tick)
  obtain ⟨rate, level, interval, bias, profile, hp⟩ := k.profileTuned_eq tick
  have hidle : (decayEpsilon (k.profileTuned tick)).idlePctEma = k.engine.idlePctEma := by rw [he, hp]
  have hwindow : (decayEpsilon (k.profileTuned tick)).reportInterval = (k.intervalTuned tick).reportInterval := by
    rw [he, Kernel.profileTuned]
    obtain ⟨bias, level, hp⟩ := tuneProfile_eq k.policyEnabled (k.scanned tick).1.cntHigh (k.scanned tick).1.cntLow
      { k.intervalTuned tick with stats := (k.scanned tick).2 }
    rw [hp]
  rw [Kernel.idlePctRaw, ← hidle, ← hwindow]
  rfl

/-- ST-1 goes where the switch rate of the window asks. -/
theorem tuneInterval_interval {e : PolicyEngine} (h : e.IntervalOk) (enabled : Bool) :
    (tuneInterval enabled e).reportInterval = reportIntervalLevels.getD (e.nextRung enabled) 0 := by
  simp only [tuneInterval, PolicyEngine.nextRung]
  cases enabled with
  | false => rfl
  | true =>
    simp only [if_pos]
    split
    · exact h.2
    · rfl

theorem nextRung_le {e : PolicyEngine} (h : e.IntervalOk) (enabled : Bool) : e.nextRung enabled ≤ 3 := by
  simp only [PolicyEngine.nextRung]
  split
  · split
    · exact h.1
    · refine ladderStep_le ?_ h.1
      unfold intervalTarget
      split
      · decide
      · split <;> decide
  · decide

/-- On two rungs the same ticks make the same share only where none or all of both windows is busy. -/
theorem idleShare_eq_iff {r r' : Nat} (hr : r ≤ 3) (hr' : r' ≤ 3) (busy : Nat) :
    idleShare (max (reportIntervalLevels.getD r' 0) 1) busy = idleShare (max (reportIntervalLevels.getD r 0) 1) busy ↔
      r' = r ∨ busy = 0 ∨ reportIntervalLevels.getD r 0 ≤ busy ∧ reportIntervalLevels.getD r' 0 ≤ busy := by
  have hsmall : ∀ r ≤ 3, ∀ r' ≤ 3, ∀ busy < 72, idleShare (max (reportIntervalLevels.getD r' 0) 1) busy =
      idleShare (max (reportIntervalLevels.getD r 0) 1) busy ↔ r' = r ∨ busy = 0 ∨
        reportIntervalLevels.getD r 0 ≤ busy ∧ reportIntervalLevels.getD r' 0 ≤ busy := by decide
  have hlevel : ∀ r ≤ 3, max (reportIntervalLevels.getD r 0) 1 ≤ 72 := by decide
  by_cases hbusy : busy < 72
  · exact hsmall r hr r' hr' busy hbusy
  · -- No window is longer than 72 ticks.
    have hall : ∀ r ≤ 3, idleShare (max (reportIntervalLevels.getD r 0) 1) busy = 0 ∧
        reportIntervalLevels.getD r 0 ≤ busy := by
      intro r hr
      have := hlevel r hr
      refine ⟨?_, by omega⟩
      rw [idleShare, Nat.min_eq_right (by omega), Nat.sub_self, Nat.zero_mul, Nat.zero_div]
    rw [(hall r hr).1, (hall r' hr').1]
    exact ⟨fun _ => .inr (.inr ⟨(hall r hr).2, (hall r' hr').2⟩), fun _ => rfl⟩

/-- The idle share of a report is that of the window just measured exactly
when ST-1 stays on its rung, or none or all of both windows is busy. -/
theorem idle_pct_is_of_the_window_iff {mem : ChannelMem} {h : List PolicyEvent} {k k₀ : Kernel} {tick : Nat}
    (hr : Runs Kernel.engineStep free (.powerOn mem) h k) (hs : k.StartsReport k₀ tick) :
    (∀ log k', k₀.adaptAndReport tick = some (log, k') →
        k'.engine.idlePctEma = ema 3 (k₀.idlePctRaw tick * 10) k₀.engine.idlePctEma) ∧
      (k₀.idlePctRaw tick = k₀.windowIdlePct ↔
        k₀.engine.nextRung k₀.policyEnabled = k₀.engine.reportIntervalLevel ∨ k₀.engine.busyTicks = 0 ∨
          k₀.engine.reportInterval ≤ k₀.engine.busyTicks ∧
            reportIntervalLevels.getD (k₀.engine.nextRung k₀.policyEnabled) 0 ≤ k₀.engine.busyTicks) := by
  have hb : k₀.Bounded := Kernel.Bounded.keeps.of_starts (Kernel.Bounded.keeps.of_runs (.powerOn mem) hr) hs
  refine ⟨fun log k' hrep => idlePctEma_of_report hrep, ?_⟩
  have hidle := idleShare_eq_iff hb.interval.1 (nextRung_le hb.interval k₀.policyEnabled) k₀.engine.busyTicks
  have hinterval : (k₀.intervalTuned tick).reportInterval =
      reportIntervalLevels.getD (k₀.engine.nextRung k₀.policyEnabled) 0 :=
    tuneInterval_interval (e := .expireEvictions { k₀.engine with channelsThisWindow := 0 } tick) hb.interval
      k₀.policyEnabled
  rw [Kernel.idlePctRaw, hinterval, scanned_busy, Kernel.windowIdlePct, hb.interval.2, Nat.mul_comm 100]
  exact hidle

theorem idle_pct_is_of_the_window_iff_powerOn :
    (∀ log k', (Kernel.powerOn (.ofFrames 16)).adaptAndReport 36 = some (log, k') →
        k'.engine.idlePctEma = ema 3 ((Kernel.powerOn (.ofFrames 16)).idlePctRaw 36 * 10) 500) ∧
      (Kernel.powerOn (.ofFrames 16)).idlePctRaw 36 = 100 := by
  obtain ⟨h₁, h₂⟩ := @idle_pct_is_of_the_window_iff (.ofFrames 16) _ _ _ _ .start (.call 36)
  exact ⟨h₁, (h₂.mpr (.inl (by decide))).trans (by decide)⟩

/-- Six switches in a window of 36 ticks, half of them of one process: ST-1 doubles the interval. -/
def halfIdle : List EngineOp :=
  [.register 1, .onSwitch 0 1 0, .onSwitch 1 0 18, .onSwitch 0 2 19, .onSwitch 2 0 20, .onSwitch 0 2 21]

/-- 18 of 36 ticks were busy: half the window, but a quarter of the next one. -/
theorem idle_pct_of_another_window : ¬ ∀ (mem : ChannelMem) (h : List PolicyEvent) (k k₀ : Kernel) (tick : Nat),
    Runs Kernel.engineStep free (.powerOn mem) h k → k.StartsReport k₀ tick →
      k₀.idlePctRaw tick = k₀.windowIdlePct := by
  intro hall
  obtain ⟨h, k, hr, hP⟩ := Runs.of_exec Kernel.engineStep free (.powerOn (.ofFrames 16)) halfIdle
    (fun _ k =>
      let k₀ : Kernel := { k with engine := { k.engine.countSwitch 2 0 36 with lastReportTick := 36 } }
      decide (k.engine.lastReportTick + k.engine.reportInterval ≤ 36) && decide (k₀.idlePctRaw 36 = 75) &&
        decide (k₀.windowIdlePct = 50)) (by decide)
  simp only [Bool.and_eq_true, decide_eq_true_eq] at hP
  obtain ⟨⟨hdue, hraw⟩, hwindow⟩ := hP
  have heq := hall _ h k _ 36 hr (.switch 2 0 hdue)
  rw [hraw, hwindow] at heq
  cases heq

/-! ## The exploration rate -/

/-- A report of a run: the tick of the one before, its own, and the exploration rate it leaves. -/
structure ReportMark where
  last : Nat
  tick : Nat
  epsilon : Nat
  deriving DecidableEq

namespace ReportMark

/-- One percent less for each thousand ticks since boot. -/
def OnTime (r : ReportMark) : Prop := r.epsilon = max 5 (20 - r.tick / 1000)

/-- No thousandth tick was passed since the last report, or the report falls
on it, or the rate was already at its least. -/
def Lucky (r : ReportMark) : Prop := r.tick / 1000 = r.last / 1000 ∨ r.tick % 1000 = 0 ∨ 15 ≤ r.last / 1000

instance (r : ReportMark) : Decidable r.OnTime := inferInstanceAs (Decidable (_ = _))

end ReportMark

namespace Kernel

/-- The report a call ends with. -/
def marks (k k' : Kernel) : EngineOp → List ReportMark
  | .onSwitch _ _ tick =>
    if k.engine.lastReportTick + k.engine.reportInterval ≤ tick then
      [{ last := k.engine.lastReportTick, tick, epsilon := k'.engine.rlEpsilon }]
    else []
  | _ => []

def rateStep (k : Kernel) (op : EngineOp) : Option (List ReportMark × Kernel) :=
  (k.engineStep op).map fun (_, k') => (k.marks k' op, k')

/-- Reports come from switches only, the clock does not go back, and no report is later than 72 ticks after the last. -/
def Timely (_ : List ReportMark) (k : Kernel) : EngineOp → Prop
  | .report _ => False
  | .onSwitch _ _ tick => k.engine.totalTicks ≤ tick ∧
      (k.engine.lastReportTick + k.engine.reportInterval ≤ tick → tick ≤ k.engine.lastReportTick + 72)
  | _ => True

instance (h : List ReportMark) (k : Kernel) : ∀ op, Decidable (Timely h k op)
  | .report _ => inferInstanceAs (Decidable False)
  | .onSwitch _ _ _ => inferInstanceAs (Decidable (_ ∧ (_ → _)))
  | .register _ | .unregister _ | .observeIpc .. | .observeMmap _ | .observePageFault _ | .setEnabled _ | .world ..
  | .seed _ => inferInstanceAs (Decidable True)

end Kernel

/-- What a report does to the rate and to the readings of the clock. -/
theorem epsilon_of_report {k k' : Kernel} {tick : Nat} {log : List PolicyEvent}
    (hr : k.adaptAndReport tick = some (log, k')) :
    k'.engine.lastReportTick = k.engine.lastReportTick ∧ k'.engine.rlEpsilon =
      if 0 < k.engine.totalTicks ∧ k.engine.totalTicks % 1000 = 0 ∧ 5 < k.engine.rlEpsilon then
        k.engine.rlEpsilon - 1
      else k.engine.rlEpsilon := by
  obtain ⟨k₃, hk₃, rfl⟩ := Kernel.adaptAndReport_readied hr
  obtain ⟨n, mem, -, hengine⟩ := (Kernel.beforeDecay_readied hk₃).engine
  obtain ⟨q, rng, evict, hdecay⟩ := decay_engine k₃ tick
  obtain ⟨rate, level, interval, bias, profile, hp⟩ := k.profileTuned_eq tick
  rw [hdecay, hengine, hp]
  simp only [tunePower, decayEpsilon]
  split <;> exact ⟨rfl, rfl⟩

/-- Under way: the reports so far are on time exactly when they were lucky, and then the rate is too. -/
structure RateKept (h : List ReportMark) (k : Kernel) : Prop where
  bounded : k.Bounded
  iff : (∀ r ∈ h, r.OnTime) ↔ ∀ r ∈ h, r.Lucky
  rate : (∀ r ∈ h, r.OnTime) → k.engine.rlEpsilon = max 5 (20 - k.engine.lastReportTick / 1000)

/-- A report within 72 ticks of the last one passes one thousandth tick at most. -/
theorem onTime_iff_lucky {r : ReportMark} {old : Nat} (hlt : r.last < r.tick) (hle : r.tick ≤ r.last + 72)
    (hold : old = max 5 (20 - r.last / 1000))
    (hnew : r.epsilon = if 0 < r.tick ∧ r.tick % 1000 = 0 ∧ 5 < old then old - 1 else old) :
    r.OnTime ↔ r.Lucky := by
  unfold ReportMark.OnTime ReportMark.Lucky
  split at hnew <;> omega

theorem RateKept.step {h es : List ReportMark} {k k' : Kernel} {op : EngineOp} (hi : RateKept h k)
    (hok : Kernel.Timely h k op) (hs : k.rateStep op = some (es, k')) : RateKept (h ++ es) k' := by
  simp only [Kernel.rateStep, Option.map_eq_some_iff, Prod.mk.injEq] at hs
  obtain ⟨⟨log, k₁⟩, hs, rfl, rfl⟩ := hs
  have hb := Kernel.Bounded.keeps.step hi.bounded hs
  have quiet : k.marks k₁ op = [] → k₁.engine.rlEpsilon = k.engine.rlEpsilon →
      k₁.engine.lastReportTick = k.engine.lastReportTick → RateKept (h ++ k.marks k₁ op) k₁ := by
    intro hm he hl
    rw [hm, List.append_nil]
    exact ⟨hb, hi.iff, by rw [he, hl]; exact hi.rate⟩
  cases op with
  | report => cases hok
  | register pid =>
    cases hs
    obtain ⟨stats, he, -⟩ := PolicyEngine.register_cases k.engine pid
    exact quiet rfl (by rw [he]) (by rw [he])
  | unregister | observeIpc | observeMmap | observePageFault | setEnabled | world | seed =>
    cases hs; exact quiet rfl rfl rfl
  | onSwitch src dst tick =>
    obtain ⟨hclock, hspace⟩ := hok
    have hs : k.onSwitch src dst tick = some (log, k₁) := hs
    rw [Kernel.onSwitch_eq] at hs
    by_cases hdue : k.engine.lastReportTick + k.engine.reportInterval ≤ tick
    · rw [if_pos hdue] at hs
      obtain ⟨hlast, hepsilon⟩ := epsilon_of_report hs
      have hlast : k₁.engine.lastReportTick = tick := hlast
      have hepsilon : k₁.engine.rlEpsilon = if 0 < tick ∧ tick % 1000 = 0 ∧ 5 < k.engine.rlEpsilon then
        k.engine.rlEpsilon - 1 else k.engine.rlEpsilon := hepsilon
      have hinterval : 8 ≤ k.engine.reportInterval := by
        have hlevel : ∀ l ≤ 3, 8 ≤ reportIntervalLevels.getD l 0 := by decide
        rw [hi.bounded.interval.2]
        exact hlevel _ hi.bounded.interval.1
      simp only [Kernel.marks, if_pos hdue]
      generalize hr : ({ last := k.engine.lastReportTick, tick, epsilon := k₁.engine.rlEpsilon } : ReportMark) = r
      have hone : (∀ r ∈ h, r.OnTime) → (r.OnTime ↔ r.Lucky) := by
        intro hall
        subst hr
        exact onTime_iff_lucky (by simp only; omega) (hspace hdue) (hi.rate hall) hepsilon
      have hall : ∀ P : ReportMark → Prop, (∀ x ∈ h ++ [r], P x) ↔ (∀ x ∈ h, P x) ∧ P r := by
        intro P
        rw [List.forall_mem_append, List.forall_mem_singleton]
      refine ⟨hb, ?_, fun htime => ?_⟩
      · rw [hall, hall]
        constructor
        · intro ⟨hold, hnew⟩
          exact ⟨hi.iff.mp hold, (hone hold).mp hnew⟩
        · intro ⟨hold, hnew⟩
          have hold := hi.iff.mpr hold
          exact ⟨hold, (hone hold).mpr hnew⟩
      · have hnew := ((hall _).mp htime).2
        subst hr
        rw [hlast]
        exact hnew
    · rw [if_neg hdue] at hs
      cases hs
      exact quiet (if_neg hdue) rfl rfl

theorem RateKept.powerOn (mem : ChannelMem) : RateKept [] (.powerOn mem) :=
  ⟨.powerOn mem, by simp, fun _ => by
    show PolicyEngine.newConst.rlEpsilon = max 5 (20 - PolicyEngine.newConst.lastReportTick / 1000)
    decide⟩

/-- The rate falls with the time exactly as long as no report comes after a thousandth tick it does not fall on. -/
theorem epsilon_on_time_iff {mem : ChannelMem} {h : List ReportMark} {k : Kernel}
    (hr : Runs Kernel.rateStep Kernel.Timely (.powerOn mem) h k) :
    (∀ r ∈ h, r.epsilon = max 5 (20 - r.tick / 1000)) ↔
      ∀ r ∈ h, r.tick / 1000 = r.last / 1000 ∨ r.tick % 1000 = 0 ∨ 15 ≤ r.last / 1000 :=
  (hr.invariant RateKept (.powerOn mem) fun hi hok hs => hi.step hok hs).iff

/-- A switch every 72 ticks, each with a report. -/
def every72 (n : Nat) : List EngineOp := (List.range n).map fun i => .onSwitch 0 1 (72 * (i + 1))

theorem epsilon_on_time_iff_two : ∃ h k, Runs Kernel.rateStep Kernel.Timely (.powerOn (.ofFrames 16)) h k ∧
    h.length = 2 ∧ ∀ r ∈ h, r.epsilon = max 5 (20 - r.tick / 1000) := by
  obtain ⟨h, k, hr, hP⟩ := Runs.of_exec Kernel.rateStep Kernel.Timely (.powerOn (.ofFrames 16)) (every72 2)
    (fun h _ => decide (h = [⟨0, 72, 20⟩, ⟨72, 144, 20⟩])) (by decide)
  obtain rfl : h = [⟨0, 72, 20⟩, ⟨72, 144, 20⟩] := of_decide_eq_true hP
  exact ⟨_, k, hr, rfl, (epsilon_on_time_iff hr).mpr (by decide)⟩

/-- The report at tick 1008 comes after the thousandth tick, and the rate is still 20. -/
theorem epsilon_not_on_time : ¬ ∀ (mem : ChannelMem) (h : List ReportMark) (k : Kernel),
    Runs Kernel.rateStep Kernel.Timely (.powerOn mem) h k → ∀ r ∈ h, r.epsilon = max 5 (20 - r.tick / 1000) := by
  intro hall
  obtain ⟨h, k, hr, hP⟩ := Runs.of_exec Kernel.rateStep Kernel.Timely (.powerOn (.ofFrames 16)) (every72 14)
    (fun h _ => decide (⟨936, 1008, 20⟩ ∈ h)) (by decide)
  have hrate := hall _ h k hr _ (of_decide_eq_true hP)
  simp at hrate

end ChodOs
