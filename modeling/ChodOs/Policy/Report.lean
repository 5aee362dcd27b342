/-
`adapt_and_report`, block by block: what the engine does at the end of a
report window. Each block is a function of the part of the kernel it reads
and writes; the serial log and the tracer are replaced by the events below.
-/
import ChodOs.Kernel

namespace ChodOs

/-- What a report did, in the order it did it. -/
inductive PolicyEvent
  /-- `scheduler::set_priority` was called. -/
  | prioritySet (pid : Pid) (pri : Priority)
  /-- A fast channel was created. -/
  | created (src dst : Pid)
  /-- `pin_pair` and the two `set_preferred_cpu` were called. -/
  | pinned (src dst : Pid) (cpu : Nat)
  /-- The decay loop looked at an active entry. -/
  | evaluated (src dst : Pid) (delta : Nat)
  /-- The pair was reclaimed as an anomaly. -/
  | anomaly (src dst : Pid)
  /-- The pair was reclaimed after cold windows. -/
  | decayed (src dst : Pid)
  deriving DecidableEq, Repr

def baselineTimeSlice : Nat := 3
def reportIntervalLevels : List Nat := [8, 18, 36, 72]
def reportIntervalBaselineLevel : Nat := 2
def reportIntervalBaseline : Nat := 36
def alphaLevels : List Nat := [1, 2, 3, 4, 5]
def alphaBaselineLevel : Nat := 2
def workloadProfileBaselineLevel : Nat := 2
def timeSliceRangeLevels : List (Nat × Nat) := [(2, 3), (1, 3), (1, 4)]
def priorityCooldownWindows : Nat := 3
def maxChannelsPerWindow : Nat := 2
def decayThreshold : Nat := 5
def decayColdWindows : Nat := 2
def memHotThreshold : Nat := 10
def bayesHotScore : Nat := 650

/-! ## ST-1: the report interval -/

/-- The rung the switch rate asks for. -/
def intervalTarget (rate : Nat) : Nat :=
  if 15 ≤ rate then 0 else if rate ≤ 3 then reportIntervalLevels.length - 1 else reportIntervalBaselineLevel

/-- ST-1 for the window that ends: too few switches leave the interval alone. -/
def tuneInterval (enabled : Bool) (e : PolicyEngine) : PolicyEngine :=
  let switches := e.switchesThisWindow
  let window := max e.reportInterval 1
  let e := { e with switchesThisWindow := 0 }
  if enabled then
    if switches < 5 then e
    else
      let switchRateEma := ema 3 (switches * 10 / window) e.switchRateEma
      let level := ladderStep (intervalTarget switchRateEma) e.reportIntervalLevel
      { e with switchRateEma, reportIntervalLevel := level, reportInterval := reportIntervalLevels.getD level 0 }
  else { e with reportInterval := reportIntervalBaseline, reportIntervalLevel := reportIntervalBaselineLevel }

/-! ## Processes -/

/-- The running values of the loop over the processes. -/
structure CpuScan where
  sched : Scheduler
  maxPct : Nat
  cntHigh : Nat
  cntLow : Nat
  busyTicks : Nat
  log : List PolicyEvent

/-- ST-2: the weight of the next average, from how much the process's share changed. -/
def tuneAlpha (curVol10 totalSched : Nat) (s : CpuStats) : CpuStats :=
  if 5 ≤ totalSched then
    let delta := max curVol10 s.prevVol10 - min curVol10 s.prevVol10
    let volatilityEma := ema 3 (delta * 10) s.volatilityEma
    let target := if 3000 ≤ volatilityEma then alphaLevels.length - 1 else if volatilityEma ≤ 500 then 0
      else alphaBaselineLevel
    { s with prevVol10 := curVol10, volatilityEma, alphaLevel := ladderStep target s.alphaLevel }
  else s

/-- The priority a share of voluntary yields asks for. -/
def volPriority (volEma : Nat) : Priority :=
  if 600 ≤ volEma then .high else if volEma ≤ 200 then .low else .normal

/-- Apply a priority, unless the slot is cooling down. -/
def applyPriority (pri : Priority) (st : CpuScan) (s : CpuStats) : CpuScan × CpuStats :=
  let (st, s) :=
    if st.sched.getPriority s.pid ≠ pri ∧ s.priCooldown = 0 then
      ({ st with sched := st.sched.setPriority s.pid pri, log := st.log ++ [.prioritySet s.pid pri] },
        { s with priCooldown := priorityCooldownWindows })
    else (st, s)
  (st, { s with priCooldown := s.priCooldown - 1 })

/-- One turn of the loop over the statistics slots. -/
def scanProcess (enabled : Bool) (window : Nat) (st : CpuScan) (s : CpuStats) : CpuScan × CpuStats :=
  if s.active then
    let recentPct := s.recentTicks * 100 / window
    let busyTicks := if s.pid ≠ 0 then st.busyTicks + s.recentTicks else st.busyTicks
    let (vol, forced) := (st.sched.getStats s.pid).getD (0, 0)
    let curVol10 := if vol + forced = 0 then s.volEma else vol * 1000 / (vol + forced)
    let volEma := ema (alphaLevels.getD s.alphaLevel 0) curVol10 s.volEma
    let s := tuneAlpha curVol10 (vol + forced) { s with volEma }
    let pri := volPriority volEma
    let (st, s) := if enabled then applyPriority pri st s else (st, s)
    let st := { st with
      busyTicks
      cntHigh := if pri = .high then st.cntHigh + 1 else st.cntHigh
      cntLow := if pri = .low then st.cntLow + 1 else st.cntLow
      maxPct := max st.maxPct recentPct }
    (st, { s with recentTicks := 0 })
  else (st, s)

/-- The loop over the statistics slots. -/
def scanProcesses (enabled : Bool) (window : Nat) (sched : Scheduler) (stats : Table CpuStats maxProcs) :
    CpuScan × Table CpuStats maxProcs :=
  stats.mapAccum (scanProcess enabled window)
    { sched, maxPct := 0, cntHigh := 0, cntLow := 0, busyTicks := 0, log := [] }

/-! ## ST-4 and ST-3: workload profile and time slice -/

/-- ST-4: interactive against CPU-bound processes. -/
def tuneProfile (enabled : Bool) (cntHigh cntLow : Nat) (e : PolicyEngine) : PolicyEngine :=
  if enabled then
    if 2 ≤ cntHigh + cntLow then
      let bias : Int := cntHigh - cntLow
      let workloadBiasEma := (3 * bias * 10 + 7 * e.workloadBiasEma).tdiv 10
      let target := if 20 ≤ workloadBiasEma then 2 else if workloadBiasEma ≤ -20 then 0
        else workloadProfileBaselineLevel
      { e with workloadBiasEma, workloadProfileLevel := ladderStep target e.workloadProfileLevel }
    else e
  else { e with workloadProfileLevel := workloadProfileBaselineLevel }

/-- ST-3: the new `TIME_SLICE`, inside the profile's range. -/
def pickSlice (enabled : Bool) (level maxPct : Nat) : Nat :=
  if enabled then
    let (sliceMin, sliceMax) := timeSliceRangeLevels.getD level (0, 0)
    let raw := if 70 ≤ maxPct then 1 else if 40 ≤ maxPct then 2 else 3
    min (max raw sliceMin) sliceMax
  else baselineTimeSlice

/-! ## Hot pairs -/

namespace IpcEntry

/-- ML 2's score. -/
def ml2 (e : IpcEntry) : Int :=
  ml2Gbdt e.bayesAlpha e.bayesBeta (e.rateEma / 10) e.coldWindows (if e.rateEma < e.deltaPrev * 10 then 1 else 0)

/-- ML 1's score, in thousandths. -/
def bayes (e : IpcEntry) : Nat := e.bayesAlpha * 1000 / (e.bayesAlpha + e.bayesBeta + 1)

/-- ML 2's threshold as the last action adjusts it. -/
def effectiveThreshold (e : IpcEntry) : Int :=
  match e.rlAction with
  | .encourage => ml2HotThreshold - rlThresholdDelta
  | .discourage => ml2HotThreshold + rlThresholdDelta
  | .noop | .pinPush => ml2HotThreshold

/-- The ensemble's verdict: both scores are hot, or the action forces the second. -/
def isHot (e : IpcEntry) : Bool :=
  decide (bayesHotScore ≤ e.bayes) && (decide (e.effectiveThreshold ≤ e.ml2) || e.rlAction == .pinPush)

end IpcEntry

/-- The pairs a report looks at: the three best of the active ones with messages. -/
def topPairs (t : List IpcEntry) : List IpcEntry :=
  Slots.topBy (fun x b => b.ml2 < x.ml2) 3 (t.filter fun e => e.active && 0 < e.count)

/-- The exploration rate falls by one at every thousandth tick. -/
def decayEpsilon (e : PolicyEngine) : PolicyEngine :=
  if 0 < e.totalTicks ∧ e.totalTicks % 1000 = 0 ∧ 5 < e.rlEpsilon then { e with rlEpsilon := e.rlEpsilon - 1 }
  else e

/-- The channel of a hot pair: kept, refused by a limit, or created. `none`: out of memory. -/
def promoteChannel (tick : Nat) (k : Kernel) (e : IpcEntry) : Option (List PolicyEvent × Kernel) :=
  if (k.ipc.getChannel e.src e.dst).isSome then
    (k.ipc.ensureChannel e.src e.dst).map fun (_, ipc) => ([], { k with ipc })
  else if maxChannelsPerWindow ≤ k.engine.channelsThisWindow then some ([], k)
  else if k.engine.inEvictCooldown e.src e.dst tick then some ([], k)
  else do
    let (_, ipc) ← k.ipc.ensureChannel e.src e.dst
    if k.ipc.channelCount < ipc.channelCount then
      let engine := { k.engine with channelsThisWindow := k.engine.channelsThisWindow + 1 }
      some ([.created e.src e.dst], { k with ipc, engine })
    else some ([], { k with ipc })

/-- The pair goes to one core, whether or not it has a channel. -/
def promotePin (k : Kernel) (e : IpcEntry) : List PolicyEvent × Kernel :=
  let affinity := k.affinity.pinPair e.src e.dst
  let targetCpu := (affinity[e.src]?).getD 0
  let sched := (k.sched.setPreferredCpu e.src targetCpu).setPreferredCpu e.dst targetCpu
  ([.pinned e.src e.dst targetCpu], { k with affinity, sched })

/-- `PIN_PUSH`: both sides get high priority at once. -/
def promotePush (k : Kernel) (e : IpcEntry) : List PolicyEvent × Kernel :=
  if e.rlAction = .pinPush then
    ([.prioritySet e.src .high, .prioritySet e.dst .high],
      { k with sched := (k.sched.setPriority e.src .high).setPriority e.dst .high })
  else ([], k)

/-- One of the top pairs. -/
def promote (tick : Nat) (k : Kernel) (e : IpcEntry) : Option (List PolicyEvent × Kernel) :=
  if e.isHot && k.policyEnabled then do
    let (log₁, k) ← promoteChannel tick k e
    let (log₂, k) := promotePin k e
    let (log₃, k) := promotePush k e
    some (log₁ ++ log₂ ++ log₃, k)
  else some ([], k)

/-- The loop over the top pairs. -/
def promoteAll (tick : Nat) : Kernel → List IpcEntry → Option (List PolicyEvent × Kernel)
  | k, [] => some ([], k)
  | k, e :: es => do
    let (log, k) ← promote tick k e
    let (logs, k) ← promoteAll tick k es
    some (log ++ logs, k)

/-! ## Memory pressure and power -/

namespace MemEntry

def mmapDelta (m : MemEntry) : Nat := m.mmapCalls - m.lastMmap
def faultDelta (m : MemEntry) : Nat := m.pageFaults - m.lastFaults

end MemEntry

/-- One turn of the loop over the memory table. -/
def scanMem (enabled : Bool) (st : Scheduler × List PolicyEvent) (m : MemEntry) :
    (Scheduler × List PolicyEvent) × MemEntry :=
  if m.active then
    let m' := { m with lastMmap := m.mmapCalls, lastFaults := m.pageFaults }
    if m.mmapDelta = 0 ∧ m.faultDelta = 0 then (st, m')
    else if memHotThreshold ≤ m.mmapDelta ∧ enabled then
      ((st.1.setPriority m.pid .high, st.2 ++ [.prioritySet m.pid .high]), m')
    else (st, m')
  else (st, m)

/-- The idle average of the power block, over the interval ST-1 has just set. -/
def tunePower (busyTicks : Nat) (e : PolicyEngine) : PolicyEngine :=
  let window := max e.reportInterval 1
  let idlePctRaw := (window - min busyTicks window) * 100 / window
  { e with idlePctEma := ema 3 (idlePctRaw * 10) e.idlePctEma }

/-! ## Anomalies and decay -/

namespace IpcEntry

/-- The messages of the window that ends, as the two counters tell. -/
def delta (e : IpcEntry) : Nat := e.count - e.lastCount

def rateSpike (e : IpcEntry) : Bool :=
  decide (10 ≤ e.rateEma) && decide (200 ≤ e.delta) && decide (e.rateEma * 20 < e.delta * 10)

def payloadSpike (e : IpcEntry) : Bool :=
  decide (10 ≤ e.payloadEma) && decide (e.payloadEma * 20 < e.payloadBytesWindow * 10)

/-- The pair is reclaimed at once. -/
def anomalous (e : IpcEntry) : Bool := e.rateSpike || e.payloadSpike

/-- The cold count after a window below the threshold. -/
def nextCold (e : IpcEntry) : Nat := min (e.coldWindows + 1) 255

/-- The pair is reclaimed as cold. -/
def decays (e : IpcEntry) : Bool :=
  !e.anomalous && decide (e.delta < decayThreshold) && decide (decayColdWindows ≤ e.nextCold)

/-- The Beta-Binomial update of ML 1. -/
def bayesStep (delta alpha beta : Nat) : Nat × Nat :=
  if 0 < delta then
    let gain := min (max ((delta / 10) % 2 ^ 32) 2) 5
    (min (alpha + gain) 500, max (beta - 1) bayesPriorBeta)
  else (max (alpha - 3) bayesPriorAlpha, min (beta + 1) 500)

/-- The entry with its window closed: counters taken over, averages and scores updated. -/
def closeWindow (e : IpcEntry) : IpcEntry :=
  let (bayesAlpha, bayesBeta) := bayesStep e.delta e.bayesAlpha e.bayesBeta
  { e with
    lastCount := e.count
    payloadBytesWindow := 0
    rateEma := ema 3 (e.delta * 10) e.rateEma
    payloadEma := ema 3 (e.payloadBytesWindow * 10) e.payloadEma
    bayesAlpha
    bayesBeta
    deltaPrev := e.delta }

/-- The state of ML 3 the closed window leads to. -/
def nextState (e : IpcEntry) : Nat :=
  let c := e.closeWindow
  rlStateIdx c.bayesAlpha (c.rateEma / 10) c.coldWindows

/-- The reward of an entry's last action when its pair is reclaimed. -/
def reclaimReward (e : IpcEntry) (pushed other : Int) : Int :=
  match e.rlAction with
  | .encourage | .pinPush => pushed
  | .noop | .discourage => other

end IpcEntry

/-- Learn from a window that closed. -/
def learn (en : PolicyEngine) (e : IpcEntry) (reward : Int) : PolicyEngine :=
  { en with rlQ := rlUpdateQ en.rlQ e.rlPrevState e.rlAction reward e.nextState }

/-- Choose the action of the next window. -/
def chooseAction (en : PolicyEngine) (e e' : IpcEntry) : PolicyEngine × IpcEntry :=
  let (rlAction, rlRng) := rlSelectAction (en.rlQ e.nextState) en.rlEpsilon en.rlRng
  ({ en with rlRng }, { e' with rlPrevState := e.nextState, rlAction })

/-- The reclaim of an anomalous pair. -/
def reclaimAnomaly (tick : Nat) (k : Kernel) (e : IpcEntry) : Kernel :=
  let engine := (learn k.engine e (e.reclaimReward (-20) (-5))).recordEviction e.src e.dst tick
  let affinity := (k.affinity.unpin e.src).unpin e.dst
  { k with engine, affinity, ipc := k.ipc.dropChannel e.src e.dst }

/-- The reclaim of a cold pair, which also forgets the preferred cores. -/
def reclaimDecay (tick : Nat) (k : Kernel) (e : IpcEntry) : Kernel :=
  let engine := (learn k.engine e (e.reclaimReward (-8) (-2))).recordEviction e.src e.dst tick
  let affinity := (k.affinity.unpin e.src).unpin e.dst
  let sched := (k.sched.setPreferredCpu e.src cpuUnset).setPreferredCpu e.dst cpuUnset
  { k with engine, affinity, sched, ipc := k.ipc.dropChannel e.src e.dst }

/-- One turn of the decay loop. -/
def decayEntry (tick : Nat) (st : Kernel × List PolicyEvent) (e : IpcEntry) : (Kernel × List PolicyEvent) × IpcEntry :=
  let (k, log) := st
  if e.active then
    let log := log ++ [.evaluated e.src e.dst e.delta]
    let c := e.closeWindow
    if e.anomalous then
      ((reclaimAnomaly tick k e, log ++ [.anomaly e.src e.dst]), { c with active := false, coldWindows := 0 })
    else if e.delta < decayThreshold then
      if decayColdWindows ≤ e.nextCold then
        ((reclaimDecay tick k e, log ++ [.decayed e.src e.dst]), { c with active := false, coldWindows := 0 })
      else
        let engine := learn k.engine e (if e.rlAction = .encourage then -4 else -1)
        let (engine, c) := chooseAction engine e { c with coldWindows := e.nextCold }
        (({ k with engine }, log), c)
    else
      let channelExists := (k.ipc.getChannel e.src e.dst).isSome
      let engine := learn k.engine e (rlComputeReward e.rlAction e.delta e.deltaPrev channelExists)
      let (engine, c) := chooseAction engine e { c with coldWindows := 0 }
      (({ k with engine }, log), c)
  else (st, e)

/-! ## The report -/

namespace Kernel

/-- The blocks up to the hot pairs: the window's counters, ST-1, the
processes, ST-4, ST-3 and the exploration rate. -/
def tune (k : Kernel) (tick : Nat) : List PolicyEvent × Kernel × Nat :=
  let window := max k.engine.reportInterval 1
  let engine := tuneInterval k.policyEnabled ({ k.engine with channelsThisWindow := 0 }.expireEvictions tick)
  let (scan, stats) := scanProcesses k.policyEnabled window k.sched engine.stats
  let engine := tuneProfile k.policyEnabled scan.cntHigh scan.cntLow { engine with stats }
  let timeSlice := pickSlice k.policyEnabled engine.workloadProfileLevel scan.maxPct
  (scan.log, { k with engine := decayEpsilon engine, sched := scan.sched, timeSlice }, scan.busyTicks)

/-- The memory and power blocks. -/
def pressure (k : Kernel) (busyTicks : Nat) : List PolicyEvent × Kernel :=
  let ((sched, log), memTable) := k.engine.memTable.mapAccum (scanMem k.policyEnabled) (k.sched, [])
  (log, { k with sched, engine := tunePower busyTicks { k.engine with memTable } })

/-- The decay loop. -/
def decay (k : Kernel) (tick : Nat) : List PolicyEvent × Kernel :=
  let ((k, log), ipcTable) := k.engine.ipcTable.mapAccum (decayEntry tick) (k, [])
  (log, { k with engine := { k.engine with ipcTable } })

/-- `adapt_and_report`. `none`: out of memory while creating a channel. -/
def adaptAndReport (k : Kernel) (tick : Nat) : Option (List PolicyEvent × Kernel) := do
  let (log₁, k, busyTicks) := k.tune tick
  let (log₂, k) ← promoteAll tick k (topPairs k.engine.ipcTable.1)
  let (log₃, k) := k.pressure busyTicks
  let (log₄, k) := k.decay tick
  some (log₁ ++ log₂ ++ log₃ ++ log₄, k)

/-- `on_switch`. -/
def onSwitch (k : Kernel) (src dst : Pid) (tick : Nat) : Option (List PolicyEvent × Kernel) :=
  let k := { k with engine := k.engine.countSwitch src dst tick }
  if k.engine.lastReportTick + k.engine.reportInterval ≤ tick then
    { k with engine := { k.engine with lastReportTick := tick } }.adaptAndReport tick
  else some ([], k)

end Kernel

end ChodOs
