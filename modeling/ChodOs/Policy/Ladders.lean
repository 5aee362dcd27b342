/-
The self-tuning blocks ST-1 to ST-4, the idle average and ML 1's
parameters: each stays inside its ladder or range, whatever the engine
observes, and a report moves each ladder by one rung at most.
-/
import ChodOs.Policy.Runs

namespace ChodOs

open StepSys

/-! ## Slots and pairs -/

/-- A statistics slot inside its ranges. -/
structure CpuStats.Bounded (s : CpuStats) : Prop where
  alphaLevel : s.alphaLevel ≤ 4
  volEma : s.volEma ≤ 1000
  prevVol10 : s.prevVol10 ≤ 1000
  volatilityEma : s.volatilityEma ≤ 10000
  priCooldown : s.priCooldown ≤ 3

theorem CpuStats.Bounded.empty : CpuStats.empty.Bounded := by
  constructor <;> decide

/-- ML 1's parameters of a pair. -/
def IpcEntry.Bounded (e : IpcEntry) : Prop :=
  1 ≤ e.bayesAlpha ∧ e.bayesAlpha ≤ 500 ∧ 4 ≤ e.bayesBeta ∧ e.bayesBeta ≤ 500

theorem IpcEntry.Bounded.empty : IpcEntry.empty.Bounded := by
  unfold IpcEntry.Bounded
  decide

theorem IpcEntry.Bounded.closeWindow {e : IpcEntry} (h : e.Bounded) : e.closeWindow.Bounded := by
  obtain ⟨h₁, h₂, h₃, h₄⟩ := h
  simp only [IpcEntry.Bounded, IpcEntry.closeWindow, IpcEntry.bayesStep, bayesPriorAlpha, bayesPriorBeta]
  split <;> simp only <;> omega

/-- A share of voluntary yields, in thousandths. -/
theorem share_le (vol forced old : Nat) (hold : old ≤ 1000) :
    (if vol + forced = 0 then old else vol * 1000 / (vol + forced)) ≤ 1000 := by
  split
  · exact hold
  · next hpos =>
    refine Nat.div_le_of_le_mul ?_
    exact Nat.mul_le_mul_right 1000 (Nat.le_add_right vol forced)

theorem CpuStats.Bounded.tuneAlpha {s : CpuStats} (h : s.Bounded) {cur : Nat} (hcur : cur ≤ 1000) (total : Nat) :
    (tuneAlpha cur total s).Bounded ∧ Near s.alphaLevel (tuneAlpha cur total s).alphaLevel := by
  unfold ChodOs.tuneAlpha
  split
  · simp only
    have hdelta : (max cur s.prevVol10 - min cur s.prevVol10) * 10 ≤ 10000 := by
      have := h.prevVol10
      omega
    refine ⟨⟨ladderStep_le ?_ h.alphaLevel, h.volEma, hcur, ema_le (by decide) hdelta h.volatilityEma, h.priCooldown⟩,
      ladderStep_near _ _⟩
    split
    · decide
    · split <;> decide
  · exact ⟨h, .refl _⟩

theorem CpuStats.Bounded.applyPriority {s : CpuStats} (h : s.Bounded) (pri : Priority) (st : CpuScan) :
    (applyPriority pri st s).2.Bounded ∧ (applyPriority pri st s).2.alphaLevel = s.alphaLevel := by
  have hcool : priorityCooldownWindows - 1 ≤ 3 := by decide
  simp only [ChodOs.applyPriority]
  split
  · exact ⟨⟨h.alphaLevel, h.volEma, h.prevVol10, h.volatilityEma, hcool⟩, rfl⟩
  · exact ⟨⟨h.alphaLevel, h.volEma, h.prevVol10, h.volatilityEma, Nat.le_trans (Nat.sub_le _ _) h.priCooldown⟩, rfl⟩

theorem alphaNum_le {level : Nat} (h : level ≤ 4) : alphaLevels.getD level 0 ≤ 10 := by
  have : ∀ l ≤ 4, alphaLevels.getD l 0 ≤ 10 := by decide
  exact this level h

/-- A turn of the loop over the processes keeps the ranges and moves ST-2's ladder by one rung. -/
theorem scanProcess_bounded (enabled : Bool) (window : Nat) (st : CpuScan) {s : CpuStats} (h : s.Bounded) :
    (scanProcess enabled window st s).2.Bounded ∧ Near s.alphaLevel (scanProcess enabled window st s).2.alphaLevel := by
  simp only [scanProcess]
  split
  · generalize (st.sched.getStats s.pid).getD (0, 0) = vf
    obtain ⟨vol, forced⟩ := vf
    simp only
    have hcur := share_le vol forced s.volEma h.volEma
    generalize (if vol + forced = 0 then s.volEma else vol * 1000 / (vol + forced)) = cur at hcur ⊢
    have hvol := ema_le (alphaNum_le h.alphaLevel) hcur h.volEma
    generalize ema (alphaLevels.getD s.alphaLevel 0) cur s.volEma = volEma at hvol ⊢
    have hs : ({ s with volEma } : CpuStats).Bounded :=
      ⟨h.alphaLevel, hvol, h.prevVol10, h.volatilityEma, h.priCooldown⟩
    obtain ⟨hb, hnear⟩ := hs.tuneAlpha hcur (vol + forced)
    generalize tuneAlpha cur (vol + forced) { s with volEma } = t at hb hnear ⊢
    obtain ⟨hb', hlevel⟩ := hb.applyPriority (volPriority volEma) st
    cases enabled with
    | true =>
      exact ⟨⟨hb'.alphaLevel, hb'.volEma, hb'.prevVol10, hb'.volatilityEma, hb'.priCooldown⟩, hlevel ▸ hnear⟩
    | false => exact ⟨⟨hb.alphaLevel, hb.volEma, hb.prevVol10, hb.volatilityEma, hb.priCooldown⟩, hnear⟩
  · exact ⟨h, .refl _⟩

/-- A turn counts its process once. -/
theorem scanProcess_counts (enabled : Bool) (window : Nat) (st : CpuScan) (s : CpuStats) :
    (scanProcess enabled window st s).1.cntHigh + (scanProcess enabled window st s).1.cntLow ≤
      st.cntHigh + st.cntLow + 1 := by
  have hpri : ∀ pri s, (applyPriority pri st s).1.cntHigh = st.cntHigh ∧
      (applyPriority pri st s).1.cntLow = st.cntLow := by
    intro pri s
    simp only [applyPriority]
    split <;> exact ⟨rfl, rfl⟩
  simp only [scanProcess]
  split
  · generalize volPriority _ = pri
    cases enabled with
    | true =>
      simp only [if_pos, (hpri pri _).1, (hpri pri _).2]
      cases pri <;> simp <;> omega
    | false => cases pri <;> simp <;> omega
  · simp

/-! ## The blocks -/

/-- ST-1's rung and the interval it stands for. -/
def PolicyEngine.IntervalOk (e : PolicyEngine) : Prop :=
  e.reportIntervalLevel ≤ 3 ∧ e.reportInterval = reportIntervalLevels.getD e.reportIntervalLevel 0

theorem tuneInterval_cases (enabled : Bool) (e : PolicyEngine) (h : e.IntervalOk) :
    ∃ rate level, tuneInterval enabled e = { e with
        switchesThisWindow := 0
        switchRateEma := rate
        reportIntervalLevel := level
        reportInterval := reportIntervalLevels.getD level 0 } ∧
      level ≤ 3 ∧ (enabled = true → Near e.reportIntervalLevel level) := by
  obtain ⟨hlevel, hinterval⟩ := h
  cases enabled with
  | false => exact ⟨e.switchRateEma, reportIntervalBaselineLevel, rfl, by decide, nofun⟩
  | true =>
    simp only [tuneInterval, if_pos]
    split
    · exact ⟨e.switchRateEma, e.reportIntervalLevel, by rw [← hinterval], hlevel, fun _ => .refl _⟩
    · refine ⟨_, _, rfl, ladderStep_le ?_ hlevel, fun _ => ladderStep_near _ _⟩
      unfold intervalTarget
      split
      · decide
      · split <;> decide

/-- ST-4's average: the processes of 32 slots weigh 320 at most. -/
theorem bias_le {hi lo : Nat} {old : Int} (hcnt : hi + lo ≤ 32) (hold : -320 ≤ old ∧ old ≤ 320) :
    -320 ≤ (3 * ((hi : Int) - lo) * 10 + 7 * old).tdiv 10 ∧ (3 * ((hi : Int) - lo) * 10 + 7 * old).tdiv 10 ≤ 320 := by
  rw [tdiv_ten]
  split <;> omega

theorem tuneProfile_cases (enabled : Bool) (hi lo : Nat) (e : PolicyEngine) (hcnt : hi + lo ≤ 32)
    (hlevel : e.workloadProfileLevel ≤ 2) (hbias : -320 ≤ e.workloadBiasEma ∧ e.workloadBiasEma ≤ 320) :
    ∃ bias level, tuneProfile enabled hi lo e = { e with workloadBiasEma := bias, workloadProfileLevel := level } ∧
      level ≤ 2 ∧ (-320 ≤ bias ∧ bias ≤ 320) ∧ (enabled = false → level = 2) ∧
      (enabled = true → Near e.workloadProfileLevel level) := by
  cases enabled with
  | false => exact ⟨e.workloadBiasEma, workloadProfileBaselineLevel, rfl, by decide, hbias, fun _ => rfl, Bool.noConfusion⟩
  | true =>
    simp only [tuneProfile, if_pos]
    split
    · refine ⟨_, _, rfl, ladderStep_le ?_ hlevel, bias_le hcnt hbias, Bool.noConfusion, fun _ => ladderStep_near _ _⟩
      split
      · decide
      · split <;> decide
    · exact ⟨e.workloadBiasEma, e.workloadProfileLevel, rfl, hlevel, hbias, Bool.noConfusion, fun _ => .refl _⟩

/-- A time slice inside the range of its profile. -/
def SliceOk (level slice : Nat) : Prop :=
  (timeSliceRangeLevels.getD level (0, 0)).1 ≤ slice ∧ slice ≤ (timeSliceRangeLevels.getD level (0, 0)).2

theorem pickSlice_ok (enabled : Bool) {level : Nat} (hlevel : level ≤ 2) (hoff : enabled = false → level = 2)
    (maxPct : Nat) : SliceOk level (pickSlice enabled level maxPct) := by
  cases enabled with
  | false =>
    have hbase : SliceOk 2 baselineTimeSlice := by unfold SliceOk; decide
    rw [hoff rfl]
    exact hbase
  | true =>
    have hrange : ∀ l ≤ 2, (timeSliceRangeLevels.getD l (0, 0)).1 ≤ (timeSliceRangeLevels.getD l (0, 0)).2 := by decide
    have := hrange level hlevel
    unfold SliceOk pickSlice
    simp only [if_pos]
    omega

theorem decayEpsilon_cases (e : PolicyEngine) (h : 5 ≤ e.rlEpsilon ∧ e.rlEpsilon ≤ 20) :
    ∃ epsilon, decayEpsilon e = { e with rlEpsilon := epsilon } ∧ 5 ≤ epsilon ∧ epsilon ≤ 20 := by
  unfold decayEpsilon
  split
  · exact ⟨_, rfl, by omega, by omega⟩
  · exact ⟨_, rfl, h⟩

theorem tunePower_le (busyTicks : Nat) (e : PolicyEngine) (h : e.idlePctEma ≤ 1000) :
    (tunePower busyTicks e).idlePctEma ≤ 1000 := by
  refine ema_le (by decide) ?_ h
  have hraw : (max e.reportInterval 1 - min busyTicks (max e.reportInterval 1)) * 100 /
      max e.reportInterval 1 ≤ 100 := by
    refine Nat.div_le_of_le_mul (Nat.mul_le_mul_right 100 (Nat.sub_le _ _))
  omega

/-! ## The whole engine -/

/-- Every self-tuned value is inside its ladder or range. -/
structure Kernel.Bounded (k : Kernel) : Prop where
  slots : ∀ s ∈ k.engine.stats.1, s.Bounded
  interval : k.engine.IntervalOk
  profile : k.engine.workloadProfileLevel ≤ 2
  bias : -320 ≤ k.engine.workloadBiasEma ∧ k.engine.workloadBiasEma ≤ 320
  slice : SliceOk k.engine.workloadProfileLevel k.timeSlice
  idle : k.engine.idlePctEma ≤ 1000
  pairs : ∀ e ∈ k.engine.ipcTable.1, e.Bounded
  epsilon : 5 ≤ k.engine.rlEpsilon ∧ k.engine.rlEpsilon ≤ 20

/-- What the ladders do in a report. -/
structure Kernel.Moves (k k' : Kernel) : Prop where
  alpha : List.Forall₂ Near (k.engine.stats.1.map (·.alphaLevel)) (k'.engine.stats.1.map (·.alphaLevel))
  interval : k.policyEnabled = true → Near k.engine.reportIntervalLevel k'.engine.reportIntervalLevel
  profile : k.policyEnabled = true → Near k.engine.workloadProfileLevel k'.engine.workloadProfileLevel

theorem scanned_counts (k : Kernel) (tick : Nat) :
    (k.scanned tick).1.cntHigh + (k.scanned tick).1.cntLow ≤ 32 := by
  have h := Slots.mapAccum_le (fun st : CpuScan => st.cntHigh + st.cntLow)
    (scanProcess_counts k.policyEnabled (max k.engine.reportInterval 1))
    { sched := k.sched, maxPct := 0, cntHigh := 0, cntLow := 0, busyTicks := 0, log := [] }
    (k.intervalTuned tick).stats.1
  rw [(k.intervalTuned tick).stats.2] at h
  exact h

theorem decay_bounded (k : Kernel) (tick : Nat) : List.Forall₂ (fun e e' : IpcEntry => e.Bounded → e'.Bounded)
    k.engine.ipcTable.1 (k.decay tick).2.engine.ipcTable.1 := by
  refine Slots.mapAccum_forall₂ (fun st e h => ?_) _ _
  rcases decayEntry_entry tick st e with he | ⟨active, cold, state, action, -, he⟩
  · rw [he]; exact h
  · rw [he]; exact h.closeWindow

theorem Kernel.Bounded.report {k k' : Kernel} {tick : Nat} {log : List PolicyEvent} (h : k.Bounded)
    (hr : k.adaptAndReport tick = some (log, k')) : k'.Bounded ∧ k.Moves k' := by
  obtain ⟨k₃, hk₃, rfl⟩ := Kernel.adaptAndReport_readied hr
  obtain ⟨hen, hslice, n, mem, -, hengine⟩ := Kernel.beforeDecay_readied hk₃
  obtain ⟨rate, level, hinterval, hlevel, hnear⟩ := tuneInterval_cases k.policyEnabled
    ({ k.engine with channelsThisWindow := 0 }.expireEvictions tick) h.interval
  rw [← Kernel.intervalTuned] at hinterval
  have hstats : (k.intervalTuned tick).stats = k.engine.stats := by rw [hinterval]; rfl
  obtain ⟨bias, profile, hprofile, hpl, hbias, hoff, hpnear⟩ := tuneProfile_cases k.policyEnabled
    (k.scanned tick).1.cntHigh (k.scanned tick).1.cntLow { k.intervalTuned tick with stats := (k.scanned tick).2 }
    (scanned_counts k tick) (by rw [hinterval]; exact h.profile) (by rw [hinterval]; exact h.bias)
  rw [← Kernel.profileTuned, hinterval] at hprofile
  obtain ⟨epsilon, heps, hepsilon⟩ := decayEpsilon_cases (k.profileTuned tick) (by rw [hprofile]; exact h.epsilon)
  have hscan : List.Forall₂ (fun s s' : CpuStats => s.Bounded → s'.Bounded ∧ Near s.alphaLevel s'.alphaLevel)
      k.engine.stats.1 (k.scanned tick).2.1 := by
    rw [← hstats]
    exact Slots.mapAccum_forall₂ (fun st s hs => scanProcess_bounded _ _ st hs) _ _
  rw [heps, hprofile] at hengine
  obtain ⟨q, rng, evict, hdecay⟩ := decay_engine k₃ tick
  have hpairs : ∀ e ∈ (k₃.decay tick).2.engine.ipcTable.1, e.Bounded := by
    intro e' he'
    obtain ⟨e, he, hb⟩ := Slots.forall₂_mem_right (decay_bounded k₃ tick) he'
    refine hb (h.pairs e ?_)
    rw [hengine] at he
    exact he
  have hidle : k₃.engine.idlePctEma ≤ 1000 := by rw [hengine]; exact tunePower_le _ _ h.idle
  have hts : (k₃.decay tick).2.timeSlice = k₃.timeSlice := (decay_frame tick k₃).1
  rw [hprofile] at hslice
  constructor
  · refine ⟨?_, ?_, ?_, ?_, ?_, ?_, hpairs, ?_⟩
    · intro s' hs'
      rw [hdecay, hengine] at hs'
      obtain ⟨s, hs, hb⟩ := Slots.forall₂_mem_right hscan hs'
      exact (hb (h.slots s hs)).1
    · rw [hdecay, hengine]; exact ⟨hlevel, rfl⟩
    · rw [hdecay, hengine]; exact hpl
    · rw [hdecay, hengine]; exact hbias
    · rw [hts, hslice, hdecay, hengine]; exact pickSlice_ok k.policyEnabled hpl hoff _
    · rw [hdecay]; exact hidle
    · rw [hdecay, hengine]; exact hepsilon
  · refine ⟨?_, fun hon => ?_, fun hon => ?_⟩
    · rw [hdecay, hengine, List.forall₂_map_left_iff, List.forall₂_map_right_iff]
      exact ((List.forall₂_and_left _ _).mpr ⟨h.slots, hscan⟩).imp fun s s' hs => (hs.2 hs.1).2
    · rw [hdecay, hengine]; exact hnear hon
    · rw [hdecay, hengine]
      have := hpnear hon
      rw [hinterval] at this
      exact this

theorem Kernel.Bounded.keeps : EngineKeeps Kernel.Bounded where
  register pid h := by
    obtain ⟨stats, he, hs⟩ := PolicyEngine.register_cases _ pid
    rw [he]
    refine { h with slots := ?_ }
    rcases hs with rfl | rfl
    · exact h.slots
    · exact Table.forall_updateFirst h.slots fun _ _ =>
        { CpuStats.Bounded.empty with }
  unregister pid h := { h with slots := Table.forall_updateFirst h.slots fun _ hb => ⟨hb.1, hb.2, hb.3, hb.4, hb.5⟩ }
  countSwitch src dst tick h := by
    refine { h with slots := Table.forall_updateFirst (Table.forall_updateFirst h.slots fun _ hb => ?_) fun _ hb => ?_ }
    · exact ⟨hb.1, hb.2, hb.3, hb.4, hb.5⟩
    · exact ⟨hb.1, hb.2, hb.3, hb.4, hb.5⟩
  lastReportTick tick h := { h with }
  report h hr := (h.report hr).1
  observeIpc src dst count bytes h :=
    { h with pairs := Table.forall_upsert h.pairs (fun _ hb => hb) IpcEntry.Bounded.empty }
  observeMmap pid h := { h with }
  observePageFault pid h := { h with }
  setEnabled enabled h := { h with }
  world sched ipc affinity h := { h with }
  seed rng h := { h with }

theorem Kernel.Bounded.powerOn (mem : ChannelMem) : (Kernel.powerOn mem).Bounded where
  slots s hs := by
    rw [List.eq_of_mem_replicate hs]
    exact .empty
  interval := by
    show PolicyEngine.newConst.IntervalOk
    unfold PolicyEngine.IntervalOk
    decide
  profile := by show PolicyEngine.newConst.workloadProfileLevel ≤ 2; decide
  bias := ⟨by show -320 ≤ PolicyEngine.newConst.workloadBiasEma; decide,
    by show PolicyEngine.newConst.workloadBiasEma ≤ 320; decide⟩
  slice := by
    show SliceOk PolicyEngine.newConst.workloadProfileLevel 3
    unfold SliceOk
    decide
  idle := by show PolicyEngine.newConst.idlePctEma ≤ 1000; decide
  pairs e he := by
    rw [List.eq_of_mem_replicate he]
    exact .empty
  epsilon := ⟨by show 5 ≤ PolicyEngine.newConst.rlEpsilon; decide, by show PolicyEngine.newConst.rlEpsilon ≤ 20; decide⟩

/-- A switch moves the ladders no further than the report it may end with. -/
theorem Kernel.Bounded.onSwitch {k k' : Kernel} {src dst : Pid} {tick : Nat} {log : List PolicyEvent} (h : k.Bounded)
    (hs : k.onSwitch src dst tick = some (log, k')) : k.Moves k' := by
  have hcount : (k.engine.countSwitch src dst tick).stats.1.map (·.alphaLevel) =
      k.engine.stats.1.map (·.alphaLevel) := by
    simp only [PolicyEngine.countSwitch, Table.updateFirst]
    refine (Slots.map_updateFirst ?_ _).trans (Slots.map_updateFirst ?_ _)
    · exact fun _ _ => rfl
    · exact fun _ _ => rfl
  rcases Kernel.onSwitch_cases hs with ⟨-, rfl⟩ | hr
  · refine ⟨?_, fun _ => .refl _, fun _ => .refl _⟩
    rw [hcount]
    exact List.forall₂_same.mpr fun a _ => .refl a
  · obtain ⟨-, hm⟩ := (Kernel.Bounded.keeps.lastReportTick tick
      (Kernel.Bounded.keeps.countSwitch src dst tick h)).report hr
    exact ⟨hcount ▸ hm.alpha, hm.interval, hm.profile⟩

/-- In every reachable state of the engine the self-tuned values are inside
their ladders and ranges, and the next report moves a ladder by one rung at
most. -/
theorem self_tuning_stays_in_range {mem : ChannelMem} {h : List PolicyEvent} {k : Kernel}
    (hr : Runs Kernel.engineStep free (.powerOn mem) h k) :
    (∀ s ∈ k.engine.stats.1, s.alphaLevel ≤ 4 ∧ s.volEma ≤ 1000 ∧ s.volatilityEma ≤ 10000 ∧ s.priCooldown ≤ 3) ∧
    k.engine.reportIntervalLevel ≤ 3 ∧
    k.engine.reportInterval = reportIntervalLevels.getD k.engine.reportIntervalLevel 0 ∧
    k.engine.workloadProfileLevel ≤ 2 ∧ k.engine.workloadBiasEma.natAbs ≤ 320 ∧
    (timeSliceRangeLevels.getD k.engine.workloadProfileLevel (0, 0)).1 ≤ k.timeSlice ∧
    k.timeSlice ≤ (timeSliceRangeLevels.getD k.engine.workloadProfileLevel (0, 0)).2 ∧ 1 ≤ k.timeSlice ∧
    k.engine.idlePctEma ≤ 1000 ∧
    (∀ e ∈ k.engine.ipcTable.1, e.active = true →
      1 ≤ e.bayesAlpha ∧ e.bayesAlpha ≤ 500 ∧ 4 ≤ e.bayesBeta ∧ e.bayesBeta ≤ 500) ∧
    5 ≤ k.engine.rlEpsilon ∧ k.engine.rlEpsilon ≤ 20 ∧
    ∀ src dst tick log k', k.policyEnabled = true →
      (k.onSwitch src dst tick = some (log, k') ∨ k.adaptAndReport tick = some (log, k')) →
      Near k.engine.reportIntervalLevel k'.engine.reportIntervalLevel ∧
      Near k.engine.workloadProfileLevel k'.engine.workloadProfileLevel ∧
      List.Forall₂ Near (k.engine.stats.1.map (·.alphaLevel)) (k'.engine.stats.1.map (·.alphaLevel)) := by
  have hb : k.Bounded := Kernel.Bounded.keeps.of_runs (.powerOn mem) hr
  have hone : ∀ l ≤ 2, 1 ≤ (timeSliceRangeLevels.getD l (0, 0)).1 := by decide
  refine ⟨fun s hs => ?_, hb.interval.1, hb.interval.2, hb.profile, by have := hb.bias; omega, hb.slice.1, hb.slice.2,
    (hone _ hb.profile).trans hb.slice.1, hb.idle, fun e he _ => hb.pairs e he, hb.epsilon.1, hb.epsilon.2,
    fun src dst tick log k' hon hs => ?_⟩
  · have hs := hb.slots s hs
    exact ⟨hs.alphaLevel, hs.volEma, hs.volatilityEma, hs.priCooldown⟩
  · have hm : k.Moves k' := by
      rcases hs with hs | hs
      · exact hb.onSwitch hs
      · exact (hb.report hs).2
    exact ⟨hm.interval hon, hm.profile hon, hm.alpha⟩

theorem self_tuning_stays_in_range_firstWindow : ∃ h k,
    Runs Kernel.engineStep free (.powerOn (.ofFrames 16)) h k ∧ .evaluated 1 0 30 ∈ h ∧ 1 ≤ k.timeSlice ∧
      k.engine.reportIntervalLevel ≤ 3 := by
  obtain ⟨h, k, hr, hev, -⟩ := runs_firstWindow
  obtain ⟨-, hlevel, -, -, -, -, -, hslice, -⟩ := self_tuning_stays_in_range hr
  exact ⟨h, k, hr, hev, hslice, hlevel⟩

end ChodOs
