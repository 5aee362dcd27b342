/-
The policy engine's tables and the events that feed them (`policy/mod.rs`,
up to `adapt_and_report`). A slot that is not `active` is vacant; a full
table gives up the slot that counts least.
-/
import ChodOs.Policy.Learn

namespace ChodOs

/-! ## The tables -/

/-- `CpuStats`. -/
structure CpuStats where
  pid : Pid
  active : Bool
  ticksRun : Nat
  recentTicks : Nat
  runStartTick : Nat
  switchInCount : Nat
  priCooldown : Nat
  volEma : Nat
  /-- Index into `ALPHA_LEVELS`. -/
  alphaLevel : Nat
  prevVol10 : Nat
  volatilityEma : Nat

def CpuStats.empty : CpuStats where
  pid := 0
  active := false
  ticksRun := 0
  recentTicks := 0
  runStartTick := 0
  switchInCount := 0
  priCooldown := 0
  volEma := 500
  alphaLevel := 2
  prevVol10 := 500
  volatilityEma := 0

def bayesPriorAlpha : Nat := 1
def bayesPriorBeta : Nat := 4

/-- `IpcEntry`; `src` and `dst` are the source's `from` and `to`. -/
structure IpcEntry where
  src : Pid
  dst : Pid
  count : Nat
  active : Bool
  lastCount : Nat
  coldWindows : Nat
  rateEma : Nat
  payloadBytesWindow : Nat
  payloadEma : Nat
  bayesAlpha : Nat
  bayesBeta : Nat
  deltaPrev : Nat
  rlPrevState : Nat
  rlAction : RlAction

namespace IpcEntry

def empty : IpcEntry where
  src := 0
  dst := 0
  count := 0
  active := false
  lastCount := 0
  coldWindows := 0
  rateEma := 0
  payloadBytesWindow := 0
  payloadEma := 0
  bayesAlpha := bayesPriorAlpha
  bayesBeta := bayesPriorBeta
  deltaPrev := 0
  rlPrevState := 0
  rlAction := .noop

/-- The entry `observe_ipc` registers for a new pair. -/
def fresh (src dst : Pid) (count payloadBytes : Nat) : IpcEntry :=
  { empty with src, dst, count, active := true, payloadBytesWindow := payloadBytes }

/-- The pair an entry is about. -/
def pair (e : IpcEntry) : Pid × Pid := (e.src, e.dst)

/-- An active entry of a pair. -/
def isFor (p : Pid × Pid) (e : IpcEntry) : Bool := e.active && e.src == p.1 && e.dst == p.2

end IpcEntry

/-- `MemEntry`. -/
structure MemEntry where
  pid : Pid
  mmapCalls : Nat
  pageFaults : Nat
  lastMmap : Nat
  lastFaults : Nat
  active : Bool

def MemEntry.empty : MemEntry where
  pid := 0
  mmapCalls := 0
  pageFaults := 0
  lastMmap := 0
  lastFaults := 0
  active := false

def maxProcs : Nat := 32
def maxIpcPairs : Nat := 16
def maxMemEntries : Nat := 16
def maxEvictPairs : Nat := 8
def channelRecreateCooldownTicks : Nat := 72

/-- `evict_table` up to `evict_len`: a pair and the tick before which it
gets no new channel. -/
abbrev EvictTable := { l : List (Pid × Pid × Nat) // l.length ≤ maxEvictPairs }

/-- `PolicyEngine`, without the APERF/MPERF readings of its power block. -/
structure PolicyEngine where
  stats : Table CpuStats maxProcs
  totalTicks : Nat
  lastReportTick : Nat
  reportInterval : Nat
  ipcTable : Table IpcEntry maxIpcPairs
  memTable : Table MemEntry maxMemEntries
  idlePctEma : Nat
  channelsThisWindow : Nat
  evictTable : EvictTable
  rlQ : QTable
  rlEpsilon : Nat
  rlRng : UInt64
  switchesThisWindow : Nat
  switchRateEma : Nat
  /-- Index into `REPORT_INTERVAL_LEVELS`. -/
  reportIntervalLevel : Nat
  workloadBiasEma : Int
  workloadProfileLevel : Nat

namespace PolicyEngine

/-- `new_const`. -/
def newConst : PolicyEngine where
  stats := .fill _ .empty
  totalTicks := 0
  lastReportTick := 0
  reportInterval := 36
  ipcTable := .fill _ .empty
  memTable := .fill _ .empty
  idlePctEma := 500
  channelsThisWindow := 0
  evictTable := ⟨[], by simp⟩
  rlQ := fun _ a => if a = .noop then 10 else 0
  rlEpsilon := 20
  rlRng := 0x123456789abcdef0
  switchesThisWindow := 0
  switchRateEma := 0
  reportIntervalLevel := 2
  workloadBiasEma := 0
  workloadProfileLevel := 2

/-! ## Reclaimed pairs -/

/-- `in_evict_cooldown`. -/
def inEvictCooldown (e : PolicyEngine) (src dst : Pid) (tick : Nat) : Bool :=
  e.evictTable.1.any fun (ef, et, minTick) => ef == src && et == dst && tick < minTick

/-- `record_eviction`. -/
def recordEviction (e : PolicyEngine) (src dst : Pid) (tick : Nat) : PolicyEngine :=
  let minTick := tick + channelRecreateCooldownTicks
  let isPair := fun v : Pid × Pid × Nat => v.1 == src && v.2.1 == dst
  let t := e.evictTable.1
  if t.any isPair then
    { e with evictTable := ⟨Slots.updateFirst isPair (fun _ => (src, dst, minTick)) t, by
        simp only [Slots.length_updateFirst]; exact e.evictTable.2⟩ }
  else if h : t.length < maxEvictPairs then
    { e with evictTable := ⟨t ++ [(src, dst, minTick)], by rw [List.length_append]; exact h⟩ }
  else
    let minI := Slots.bestIdx (fun x b => x.2.2 < b.2.2) t
    { e with evictTable := ⟨t.set minI (src, dst, minTick), by simpa using e.evictTable.2⟩ }

/-- `expire_evictions`. -/
def expireEvictions (e : PolicyEngine) (tick : Nat) : PolicyEngine :=
  let t := e.evictTable.1
  { e with evictTable := ⟨Slots.dropWhere (fun v => v.2.2 ≤ tick) t.length 0 t,
      Nat.le_trans (Slots.length_dropWhere_le _ _ _ _) e.evictTable.2⟩ }

/-! ## Processes -/

/-- The test of `find_slot`. -/
def isSlot (pid : Pid) (s : CpuStats) : Bool := s.active && s.pid == pid

/-- `register`. -/
def register (e : PolicyEngine) (pid : Pid) : PolicyEngine :=
  if e.stats.1.any (isSlot pid) then e
  else
    let slot := { CpuStats.empty with pid, active := true, runStartTick := e.totalTicks }
    { e with stats := e.stats.updateFirst (fun s => !s.active) fun _ => slot }

/-- `unregister`: only the statistics slot is given up. -/
def unregister (e : PolicyEngine) (pid : Pid) : PolicyEngine :=
  { e with stats := e.stats.updateFirst (isSlot pid) fun s => { s with active := false } }

/-- `on_switch` before its report: the run time of `src` ends, that of `dst` starts. -/
def countSwitch (e : PolicyEngine) (src dst : Pid) (tick : Nat) : PolicyEngine :=
  let ran := fun s : CpuStats =>
    { s with ticksRun := s.ticksRun + (tick - s.runStartTick), recentTicks := s.recentTicks + (tick - s.runStartTick) }
  let starts := fun s : CpuStats => { s with runStartTick := tick, switchInCount := s.switchInCount + 1 }
  { e with
    totalTicks := tick
    switchesThisWindow := e.switchesThisWindow + 1
    stats := (e.stats.updateFirst (isSlot src) ran).updateFirst (isSlot dst) starts }

/-! ## Messages and memory -/

/-- `observe_ipc`: the pair's entry takes the new count; a pair without one
takes a vacant slot, else the slot of least count. -/
def observeIpc (e : PolicyEngine) (src dst : Pid) (count payloadBytes : Nat) : PolicyEngine :=
  let upd := fun x : IpcEntry => { x with count, payloadBytesWindow := satAdd x.payloadBytesWindow payloadBytes }
  let ipcTable := e.ipcTable.upsert (IpcEntry.isFor (src, dst)) (fun x => !x.active) (fun x b => x.count < b.count)
    upd (.fresh src dst count payloadBytes)
  { e with ipcTable }

/-- The test of `observe_mmap` and `observe_page_fault`. -/
def isMem (pid : Pid) (m : MemEntry) : Bool := m.active && m.pid == pid

/-- `observe_mmap`. -/
def observeMmap (e : PolicyEngine) (pid : Pid) : PolicyEngine :=
  let memTable := e.memTable.upsert (isMem pid) (fun m => !m.active) (fun m b => m.mmapCalls < b.mmapCalls)
    (fun m => { m with mmapCalls := m.mmapCalls + 1 }) { MemEntry.empty with pid, mmapCalls := 1, active := true }
  { e with memTable }

/-- `observe_page_fault`: unlike `observe_mmap` it drops the event when the table is full. -/
def observePageFault (e : PolicyEngine) (pid : Pid) : PolicyEngine :=
  let memTable :=
    if e.memTable.1.any (isMem pid) then
      e.memTable.updateFirst (isMem pid) fun m => { m with pageFaults := m.pageFaults + 1 }
    else
      e.memTable.updateFirst (fun m => !m.active) fun _ => { MemEntry.empty with pid, pageFaults := 1, active := true }
  { e with memTable }

end PolicyEngine

end ChodOs
