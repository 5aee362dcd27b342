/-
The policy engine's own calls, in any order and with any arguments, in a
world that changes under it: between two calls the process table, the
channels, the affinity map and the random seed may become anything. The
report is cut in two, at the decay loop.
-/
import ChodOs.Lib.Run
import ChodOs.Policy.Tables

namespace ChodOs

open StepSys

inductive EngineOp
  | register (pid : Pid)
  | unregister (pid : Pid)
  | onSwitch (src dst : Pid) (tick : Nat)
  | report (tick : Nat)
  | observeIpc (src dst : Pid) (count payloadBytes : Nat)
  | observeMmap (pid : Pid)
  | observePageFault (pid : Pid)
  | setEnabled (enabled : Bool)
  | world (sched : Scheduler) (ipc : IpcState) (affinity : Affinity)
  | seed (rng : UInt64)

/-- `register` takes a vacant slot, or does nothing. -/
theorem PolicyEngine.register_cases (e : PolicyEngine) (pid : Pid) : ∃ stats, e.register pid = { e with stats } ∧
    (stats = e.stats ∨ stats = e.stats.updateFirst (fun s => !s.active) fun _ =>
      { CpuStats.empty with pid, active := true, runStartTick := e.totalTicks }) := by
  simp only [PolicyEngine.register]
  split
  · exact ⟨_, rfl, .inl rfl⟩
  · exact ⟨_, rfl, .inr rfl⟩

namespace Kernel

/-- One call of the engine. `none`: out of memory while creating a channel. -/
def engineStep (k : Kernel) : EngineOp → Option (List PolicyEvent × Kernel)
  | .register pid => some ([], { k with engine := k.engine.register pid })
  | .unregister pid => some ([], { k with engine := k.engine.unregister pid })
  | .onSwitch src dst tick => k.onSwitch src dst tick
  | .report tick => k.adaptAndReport tick
  | .observeIpc src dst count bytes => some ([], { k with engine := k.engine.observeIpc src dst count bytes })
  | .observeMmap pid => some ([], { k with engine := k.engine.observeMmap pid })
  | .observePageFault pid => some ([], { k with engine := k.engine.observePageFault pid })
  | .setEnabled enabled => some ([], { k with policyEnabled := enabled })
  | .world sched ipc affinity => some ([], { k with sched, ipc, affinity })
  | .seed rng => some ([], { k with engine := { k.engine with rlRng := rng } })

/-- Before `scheduler::init`: nobody is registered. -/
def powerOn (mem : ChannelMem) : Kernel := { Kernel.init mem with engine := .newConst }

theorem onSwitch_eq (k : Kernel) (src dst : Pid) (tick : Nat) : k.onSwitch src dst tick =
    if k.engine.lastReportTick + k.engine.reportInterval ≤ tick then
      { k with engine := { k.engine.countSwitch src dst tick with lastReportTick := tick } }.adaptAndReport tick
    else some ([], { k with engine := k.engine.countSwitch src dst tick }) := rfl

/-- A switch counts, and ends with a report when one is due. -/
theorem onSwitch_cases {k k' : Kernel} {src dst : Pid} {tick : Nat} {log : List PolicyEvent}
    (h : k.onSwitch src dst tick = some (log, k')) :
    (log = [] ∧ k' = { k with engine := k.engine.countSwitch src dst tick }) ∨
      { k with engine := { k.engine.countSwitch src dst tick with lastReportTick := tick } }.adaptAndReport tick =
        some (log, k') := by
  rw [onSwitch_eq] at h
  split at h
  · exact .inr h
  · cases h; exact .inl ⟨rfl, rfl⟩

end Kernel

/-- A property of the kernel that no call of the engine breaks. -/
structure EngineKeeps (I : Kernel → Prop) : Prop where
  register : ∀ {k} (pid : Pid), I k → I { k with engine := k.engine.register pid }
  unregister : ∀ {k} (pid : Pid), I k → I { k with engine := k.engine.unregister pid }
  countSwitch : ∀ {k} (src dst : Pid) (tick : Nat), I k → I { k with engine := k.engine.countSwitch src dst tick }
  lastReportTick : ∀ {k} (tick : Nat), I k → I { k with engine := { k.engine with lastReportTick := tick } }
  report : ∀ {k k' : Kernel} {tick : Nat} {log : List PolicyEvent}, I k → k.adaptAndReport tick = some (log, k') → I k'
  observeIpc : ∀ {k} (src dst : Pid) (count bytes : Nat), I k →
    I { k with engine := k.engine.observeIpc src dst count bytes }
  observeMmap : ∀ {k} (pid : Pid), I k → I { k with engine := k.engine.observeMmap pid }
  observePageFault : ∀ {k} (pid : Pid), I k → I { k with engine := k.engine.observePageFault pid }
  setEnabled : ∀ {k} (enabled : Bool), I k → I { k with policyEnabled := enabled }
  world : ∀ {k} (sched : Scheduler) (ipc : IpcState) (affinity : Affinity), I k → I { k with sched, ipc, affinity }
  seed : ∀ {k} (rng : UInt64), I k → I { k with engine := { k.engine with rlRng := rng } }

theorem EngineKeeps.step {I : Kernel → Prop} (hI : EngineKeeps I) {k k' : Kernel} {op : EngineOp}
    {log : List PolicyEvent} (hi : I k) (hs : k.engineStep op = some (log, k')) : I k' := by
  cases op with
  | register pid => cases hs; exact hI.register pid hi
  | unregister pid => cases hs; exact hI.unregister pid hi
  | onSwitch src dst tick =>
    rcases Kernel.onSwitch_cases hs with ⟨-, rfl⟩ | hr
    · exact hI.countSwitch src dst tick hi
    · exact hI.report (hI.lastReportTick tick (hI.countSwitch src dst tick hi)) hr
  | report tick => exact hI.report hi hs
  | observeIpc src dst count bytes => cases hs; exact hI.observeIpc src dst count bytes hi
  | observeMmap pid => cases hs; exact hI.observeMmap pid hi
  | observePageFault pid => cases hs; exact hI.observePageFault pid hi
  | setEnabled enabled => cases hs; exact hI.setEnabled enabled hi
  | world sched ipc affinity => cases hs; exact hI.world sched ipc affinity hi
  | seed rng => cases hs; exact hI.seed rng hi

theorem EngineKeeps.of_runs {I : Kernel → Prop} (hI : EngineKeeps I) {k₀ k : Kernel} {h : List PolicyEvent} (h₀ : I k₀)
    (hr : Runs Kernel.engineStep free k₀ h k) : I k :=
  hr.invariant_state I h₀ fun hi _ hs => hI.step hi hs

/-! ## A report up to its decay loop -/

/-- A top pair changes no more of the engine than its channel counter. -/
theorem promote_engine {tick : Nat} {k k' : Kernel} {e : IpcEntry} {log : List PolicyEvent}
    (h : promote tick k e = some (log, k')) :
    k'.timeSlice = k.timeSlice ∧ ∃ n, k'.engine = { k.engine with channelsThisWindow := n } := by
  simp only [promote] at h
  split at h
  · simp only [Option.bind_eq_bind, Option.bind_eq_some_iff, Option.some.injEq, Prod.mk.injEq] at h
    obtain ⟨⟨log₀, k₀⟩, hc, -, rfl⟩ := h
    have hpush : (promotePush (promotePin k₀ e).2 e).2.timeSlice = k₀.timeSlice := by
      simp only [promotePush]
      split <;> rfl
    rw [hpush, (promotePush_frame k₀ e).1]
    rcases promoteChannel_cases hc with ⟨-, rfl⟩ | ⟨-, -, id, ipc, n, -, rfl⟩
    · exact ⟨rfl, _, rfl⟩
    · exact ⟨rfl, _, rfl⟩
  · cases h; exact ⟨rfl, _, rfl⟩

/-- Nor does the loop over the top pairs. -/
theorem promoteAll_engine {tick : Nat} {k k' : Kernel} {es : List IpcEntry} {log : List PolicyEvent}
    (h : promoteAll tick k es = some (log, k')) :
    k'.timeSlice = k.timeSlice ∧ ∃ n, k'.engine = { k.engine with channelsThisWindow := n } := by
  induction es generalizing k log with
  | nil => cases h; exact ⟨rfl, _, rfl⟩
  | cons e es ih =>
    simp only [promoteAll, Option.bind_eq_bind, Option.bind_eq_some_iff, Option.some.injEq, Prod.mk.injEq] at h
    obtain ⟨⟨log₁, k₁⟩, h₁, ⟨log₂, k₂⟩, h₂, -, rfl⟩ := h
    obtain ⟨hslice, n, hn⟩ := ih h₂
    obtain ⟨hslice₁, n₁, hn₁⟩ := promote_engine h₁
    exact ⟨hslice.trans hslice₁, n, by rw [hn, hn₁]⟩

/-- The memory block closes windows. -/
def MemEntry.Same (m m' : MemEntry) : Prop := m'.pid = m.pid ∧ m'.active = m.active

theorem scanMem_same (enabled : Bool) (st : Scheduler × List PolicyEvent) (m : MemEntry) :
    m.Same (scanMem enabled st m).2 := by
  simp only [scanMem]
  split
  · split
    · exact ⟨rfl, rfl⟩
    · split <;> exact ⟨rfl, rfl⟩
  · exact ⟨rfl, rfl⟩

theorem decayEpsilon_eq (e : PolicyEngine) : ∃ epsilon, decayEpsilon e = { e with rlEpsilon := epsilon } := by
  unfold decayEpsilon
  split <;> exact ⟨_, rfl⟩

theorem tuneProfile_eq (enabled : Bool) (hi lo : Nat) (e : PolicyEngine) : ∃ bias level,
    tuneProfile enabled hi lo e = { e with workloadBiasEma := bias, workloadProfileLevel := level } := by
  unfold tuneProfile
  split
  · split <;> exact ⟨_, _, rfl⟩
  · exact ⟨_, _, rfl⟩

namespace Kernel

/-- The engine after ST-1. -/
def intervalTuned (k : Kernel) (tick : Nat) : PolicyEngine :=
  tuneInterval k.policyEnabled ({ k.engine with channelsThisWindow := 0 }.expireEvictions tick)

/-- The loop over the processes in a report. -/
def scanned (k : Kernel) (tick : Nat) : CpuScan × Table CpuStats maxProcs :=
  scanProcesses k.policyEnabled (max k.engine.reportInterval 1) k.sched (k.intervalTuned tick).stats

/-- The engine after ST-4. -/
def profileTuned (k : Kernel) (tick : Nat) : PolicyEngine :=
  tuneProfile k.policyEnabled (k.scanned tick).1.cntHigh (k.scanned tick).1.cntLow
    { k.intervalTuned tick with stats := (k.scanned tick).2 }

/-- The kernel as the decay loop of a report finds it. -/
structure Readied (k : Kernel) (tick : Nat) (k₃ : Kernel) : Prop where
  policyEnabled : k₃.policyEnabled = k.policyEnabled
  timeSlice : k₃.timeSlice =
    pickSlice k.policyEnabled (k.profileTuned tick).workloadProfileLevel (k.scanned tick).1.maxPct
  engine : ∃ n memTable, List.Forall₂ MemEntry.Same k.engine.memTable.1 memTable.1 ∧
    k₃.engine = tunePower (k.scanned tick).1.busyTicks
      { decayEpsilon (k.profileTuned tick) with channelsThisWindow := n, memTable }

/-- A report up to its decay loop. -/
def beforeDecay (k : Kernel) (tick : Nat) : Option Kernel :=
  (promoteAll tick (k.tune tick).2.1 (topPairs k.engine.ipcTable.1)).map fun r => (r.2.pressure (k.tune tick).2.2).2

theorem beforeDecay_readied {k k₃ : Kernel} {tick : Nat} (h : k.beforeDecay tick = some k₃) : k.Readied tick k₃ := by
  obtain ⟨⟨log₂, k₂⟩, hp, rfl⟩ := Option.map_eq_some_iff.mp h
  obtain ⟨hslice, n, hn⟩ := promoteAll_engine hp
  have hframe := (promoteAll_spec hp).1
  have hmem : k₂.engine.memTable = k.engine.memTable := hframe.memTable.trans (tune_spec k tick).memTable
  have hengine : (k₂.pressure (k.scanned tick).1.busyTicks).2.engine = tunePower (k.scanned tick).1.busyTicks
      { k₂.engine with memTable := (k₂.pressure (k.scanned tick).1.busyTicks).2.engine.memTable } := rfl
  refine ⟨hframe.policyEnabled, hslice, n, (k₂.pressure (k.scanned tick).1.busyTicks).2.engine.memTable, ?_, ?_⟩
  · rw [← hmem]
    exact Slots.mapAccum_forall₂ (scanMem_same k₂.policyEnabled) _ _
  · refine hengine.trans ?_
    rw [hn]
    rfl

/-- What the tuning blocks change: the window's counters, the ladders, the slots and the expired evictions. -/
theorem profileTuned_eq (k : Kernel) (tick : Nat) : ∃ rate level interval bias profile, k.profileTuned tick =
    { k.engine with
      stats := (k.scanned tick).2
      reportInterval := interval
      channelsThisWindow := 0
      evictTable := (k.engine.expireEvictions tick).evictTable
      switchesThisWindow := 0
      switchRateEma := rate
      reportIntervalLevel := level
      workloadBiasEma := bias
      workloadProfileLevel := profile } := by
  have hinterval : ∀ on (e : PolicyEngine), ∃ rate level interval, tuneInterval on e =
      { e with
        reportInterval := interval
        switchesThisWindow := 0
        switchRateEma := rate
        reportIntervalLevel := level } := by
    intro on e
    simp only [tuneInterval]
    split
    · split <;> exact ⟨_, _, _, rfl⟩
    · exact ⟨_, _, _, rfl⟩
  obtain ⟨bias, profile, hp⟩ := tuneProfile_eq k.policyEnabled (k.scanned tick).1.cntHigh (k.scanned tick).1.cntLow
    { k.intervalTuned tick with stats := (k.scanned tick).2 }
  obtain ⟨rate, level, interval, hi⟩ :=
    hinterval k.policyEnabled (.expireEvictions { k.engine with channelsThisWindow := 0 } tick)
  refine ⟨rate, level, interval, bias, profile, ?_⟩
  rw [profileTuned, hp, intervalTuned, hi]
  rfl

/-- What the tuning blocks leave alone. -/
theorem profileTuned_frame (k : Kernel) (tick : Nat) :
    (decayEpsilon (k.profileTuned tick)).ipcTable = k.engine.ipcTable ∧
      (decayEpsilon (k.profileTuned tick)).rlQ = k.engine.rlQ ∧
      (decayEpsilon (k.profileTuned tick)).evictTable = (k.engine.expireEvictions tick).evictTable ∧
      (decayEpsilon (k.profileTuned tick)).stats = (k.scanned tick).2 := by
  obtain ⟨epsilon, he⟩ := decayEpsilon_eq (k.profileTuned tick)
  obtain ⟨rate, level, interval, bias, profile, hp⟩ := k.profileTuned_eq tick
  rw [he, hp]
  exact ⟨rfl, rfl, rfl, rfl⟩

/-- The tables as the decay loop finds them. -/
theorem Readied.tables {k k₃ : Kernel} {tick : Nat} (h : k.Readied tick k₃) :
    k₃.engine.ipcTable = k.engine.ipcTable ∧ k₃.engine.rlQ = k.engine.rlQ ∧
      k₃.engine.evictTable = (k.engine.expireEvictions tick).evictTable ∧
      k₃.engine.stats = (k.scanned tick).2 ∧
      List.Forall₂ MemEntry.Same k.engine.memTable.1 k₃.engine.memTable.1 := by
  obtain ⟨n, mem, hmem, he⟩ := h.engine
  obtain ⟨h₁, h₂, h₃, h₄⟩ := k.profileTuned_frame tick
  rw [he]
  exact ⟨h₁, h₂, h₃, h₄, hmem⟩

theorem adaptAndReport_readied {k k' : Kernel} {tick : Nat} {log : List PolicyEvent}
    (h : k.adaptAndReport tick = some (log, k')) : ∃ k₃, k.beforeDecay tick = some k₃ ∧ k' = (k₃.decay tick).2 := by
  obtain ⟨log₂, k₂, hp, rfl, -⟩ := adaptAndReport_eq h
  exact ⟨_, by rw [beforeDecay, hp, Option.map_some], rfl⟩

end Kernel

/-! ## The decay loop -/

/-- The entry a turn leaves of an active one: its window is closed. -/
theorem decayEntry_closes (tick : Nat) (st : Kernel × List PolicyEvent) {e : IpcEntry} (ha : e.active = true) :
    ∃ active cold state action, (state = e.rlPrevState ∨ state = e.nextState) ∧ (decayEntry tick st e).2 =
      { e.closeWindow with active, coldWindows := cold, rlPrevState := state, rlAction := action } := by
  simp only [decayEntry, ha, if_pos]
  split
  · exact ⟨_, _, _, _, .inl rfl, rfl⟩
  · split
    · split
      · exact ⟨_, _, _, _, .inl rfl, rfl⟩
      · exact ⟨_, _, _, _, .inr rfl, rfl⟩
    · exact ⟨_, _, _, _, .inr rfl, rfl⟩

theorem decayEntry_idle (tick : Nat) (st : Kernel × List PolicyEvent) {e : IpcEntry} (ha : e.active = false) :
    decayEntry tick st e = (st, e) := by
  simp only [decayEntry, ha, Bool.false_eq_true, if_false]

/-- The entry a turn leaves: as it was, or with its window closed. -/
theorem decayEntry_entry (tick : Nat) (st : Kernel × List PolicyEvent) (e : IpcEntry) :
    (decayEntry tick st e).2 = e ∨ ∃ active cold state action, (state = e.rlPrevState ∨ state = e.nextState) ∧
      (decayEntry tick st e).2 =
        { e.closeWindow with active, coldWindows := cold, rlPrevState := state, rlAction := action } := by
  cases ha : e.active with
  | true => exact .inr (decayEntry_closes tick st ha)
  | false => exact .inl (by rw [decayEntry_idle tick st ha])

theorem learn_recordEviction (en : PolicyEngine) (e : IpcEntry) (reward : Int) (tick : Nat) :
    ∃ q evict, (learn en e reward).recordEviction e.src e.dst tick = { en with rlQ := q, evictTable := evict } := by
  obtain ⟨t, ht⟩ := recordEviction_eq (learn en e reward) e.src e.dst tick
  exact ⟨_, t, ht⟩

/-- The loop changes no more of the engine than what it learns, the seed,
the pairs in cooldown and the entries. -/
theorem decay_engine (k : Kernel) (tick : Nat) : ∃ q rng evict, (k.decay tick).2.engine =
    { k.engine with rlQ := q, rlRng := rng, evictTable := evict, ipcTable := (k.decay tick).2.engine.ipcTable } := by
  have key : ∃ q rng evict, (k.engine.ipcTable.mapAccum (decayEntry tick) (k, [])).1.1.engine =
      { k.engine with rlQ := q, rlRng := rng, evictTable := evict } := by
    refine Slots.mapAccum_invariant (fun st : Kernel × List PolicyEvent => ∃ q rng evict, st.1.engine =
      { k.engine with rlQ := q, rlRng := rng, evictTable := evict }) (fun st e _ hst => ?_) ⟨_, _, _, rfl⟩
    obtain ⟨q, rng, evict, hst⟩ := hst
    have ht := decayEntry_turn tick st e
    generalize decayEntry tick st e = r at ht ⊢
    cases ht with
    | idle => exact ⟨q, rng, evict, hst⟩
    | anomaly | decay =>
      obtain ⟨q', t, ht⟩ := learn_recordEviction st.1.engine e _ tick
      refine ⟨q', rng, t, ht.trans ?_⟩
      rw [hst]
    | @kept rlQ rlRng => exact ⟨rlQ, rlRng, evict, by simp only [hst]⟩
  obtain ⟨q, rng, evict, h⟩ := key
  refine ⟨q, rng, evict, ?_⟩
  simp only [Kernel.decay, h]

/-! ## A first window -/

/-- Two processes, a message, an `mmap` and a switch that ends with a report. -/
def firstWindow : List EngineOp :=
  [.register 0, .register 1, .observeIpc 1 0 30 64, .observeMmap 1, .onSwitch 0 1 36]

theorem runs_firstWindow : ∃ h k, Runs Kernel.engineStep free (.powerOn (.ofFrames 16)) h k ∧
    .evaluated 1 0 30 ∈ h ∧ k.policyEnabled = true := by
  obtain ⟨h, k, hr, hP⟩ := Runs.of_exec Kernel.engineStep free (.powerOn (.ofFrames 16)) firstWindow
    (fun h k => decide (.evaluated 1 0 30 ∈ h) && k.policyEnabled) (by decide)
  simp only [Bool.and_eq_true, decide_eq_true_eq] at hP
  exact ⟨h, k, hr, hP.1, hP.2⟩

end ChodOs
