/-
Facts about a report, block by block: what each block leaves alone and what
it can do. `adaptAndReport` itself is never unfolded after this file.
-/
import ChodOs.Policy.Report
import ChodOs.Ipc.Channel

namespace ChodOs

/-! ## The decay loop -/

namespace IpcEntry

/-- The decay loop reclaims the pair. -/
def reclaimed (e : IpcEntry) : Bool := e.active && (e.anomalous || e.decays)

/-- What the decay loop reports of an entry. -/
def events (e : IpcEntry) : List PolicyEvent :=
  if e.active then
    .evaluated e.src e.dst e.delta ::
      if e.anomalous then [.anomaly e.src e.dst] else if e.decays then [.decayed e.src e.dst] else []
  else []

/-- No entry is reclaimed for both reasons. -/
theorem decays_of_anomalous {e : IpcEntry} (h : e.anomalous = true) : e.decays = false := by
  simp [decays, h]

/-- The decay loop's reports: an evaluation, and then a reclaim or nothing. -/
theorem mem_events {e : IpcEntry} {ev : PolicyEvent} : ev ∈ e.events ↔ e.active = true ∧
    (ev = .evaluated e.src e.dst e.delta ∨ ev = .anomaly e.src e.dst ∧ e.anomalous = true ∨
      ev = .decayed e.src e.dst ∧ e.decays = true) := by
  simp only [events]
  cases ha : e.active with
  | false => simp
  | true =>
    cases han : e.anomalous with
    | true => simp [decays_of_anomalous han]
    | false => cases e.decays <;> simp

theorem created_notMem_events (e : IpcEntry) (src dst : Pid) : .created src dst ∉ e.events := by
  simp [mem_events]

/-- The entry the decay loop leaves. -/
structure Closed (e e' : IpcEntry) : Prop where
  idle : e.active = false → e' = e
  src : e'.src = e.src
  dst : e'.dst = e.dst
  count : e'.count = e.count
  active : e'.active = (e.active && !e.reclaimed)
  last : e.active = true → e'.lastCount = e.count
  payload : e.active = true → e'.payloadBytesWindow = 0
  cold : e'.active = true → e'.coldWindows = if e.delta < decayThreshold then e.nextCold else 0

end IpcEntry

/-- The four outcomes of a turn of the decay loop. -/
inductive DecayTurn (tick : Nat) (k : Kernel) (log : List PolicyEvent) (e : IpcEntry) :
    (Kernel × List PolicyEvent) × IpcEntry → Prop
  | idle : e.active = false → DecayTurn tick k log e ((k, log), e)
  | anomaly : e.active = true → e.anomalous = true → DecayTurn tick k log e
      ((reclaimAnomaly tick k e, log ++ e.events), { e.closeWindow with active := false, coldWindows := 0 })
  | decay : e.active = true → e.decays = true → DecayTurn tick k log e
      ((reclaimDecay tick k e, log ++ e.events), { e.closeWindow with active := false, coldWindows := 0 })
  | kept {rlQ rlRng e'} : e.active = true → e.anomalous = false → e.decays = false → IpcEntry.Closed e e' →
      DecayTurn tick k log e (({ k with engine := { k.engine with rlQ, rlRng } }, log ++ e.events), e')

theorem decayEntry_turn (tick : Nat) (st : Kernel × List PolicyEvent) (e : IpcEntry) :
    DecayTurn tick st.1 st.2 e (decayEntry tick st e) := by
  obtain ⟨k, log⟩ := st
  simp only [decayEntry]
  cases ha : e.active with
  | false => exact .idle ha
  | true =>
  simp only [if_pos, List.append_assoc, List.singleton_append]
  cases han : e.anomalous with
  | true =>
    have hev : e.events = [.evaluated e.src e.dst e.delta, .anomaly e.src e.dst] := by simp [IpcEntry.events, ha, han]
    rw [← hev]
    exact .anomaly ha han
  | false =>
  simp only [Bool.false_eq_true, if_false]
  split
  · next hlt =>
    split
    · next hcold =>
      have hd : e.decays = true := by simp [IpcEntry.decays, han, hlt, hcold]
      have hev : e.events = [.evaluated e.src e.dst e.delta, .decayed e.src e.dst] := by
        simp [IpcEntry.events, ha, han, hd]
      rw [← hev]
      exact .decay ha hd
    · next hcold =>
      have hd : e.decays = false := by simp only [IpcEntry.decays, han, hlt, hcold]; rfl
      have hev : e.events = [.evaluated e.src e.dst e.delta] := by simp [IpcEntry.events, ha, han, hd]
      rw [← hev]
      refine .kept ha han hd ⟨?_, rfl, rfl, rfl, ?_, fun _ => rfl, fun _ => rfl, fun _ => ?_⟩
      · simp [ha]
      · simp [IpcEntry.reclaimed, ha, han, hd, chooseAction, IpcEntry.closeWindow]
      · rw [if_pos hlt]; rfl
  · next hge =>
    have hd : e.decays = false := by simp only [IpcEntry.decays, han, hge]; rfl
    have hev : e.events = [.evaluated e.src e.dst e.delta] := by simp [IpcEntry.events, ha, han, hd]
    rw [← hev]
    refine .kept ha han hd ⟨?_, rfl, rfl, rfl, ?_, fun _ => rfl, fun _ => rfl, fun _ => ?_⟩
    · simp [ha]
    · simp [IpcEntry.reclaimed, ha, han, hd, chooseAction, IpcEntry.closeWindow]
    · rw [if_neg hge]; rfl

theorem decayEntry_closed (tick : Nat) (st : Kernel × List PolicyEvent) (e : IpcEntry) :
    e.Closed (decayEntry tick st e).2 := by
  have ht := decayEntry_turn tick st e
  generalize decayEntry tick st e = r at ht ⊢
  cases ht with
  | idle ha => exact ⟨fun _ => rfl, rfl, rfl, rfl, by simp [ha], by simp [ha], by simp [ha], by simp [ha]⟩
  | anomaly ha h | decay ha h =>
    exact ⟨by simp [ha], rfl, rfl, rfl, by simp [IpcEntry.reclaimed, ha, h], fun _ => rfl, fun _ => rfl, nofun⟩
  | kept _ _ _ hc => exact hc

/-- What the decay loop does with a pair's channel, core and preferred cores. -/
def reclaimIpc (s : IpcState) (e : IpcEntry) : IpcState := if e.reclaimed then s.dropChannel e.src e.dst else s

def reclaimAffinity (a : Affinity) (e : IpcEntry) : Affinity :=
  if e.reclaimed then (a.unpin e.src).unpin e.dst else a

def reclaimSched (s : Scheduler) (e : IpcEntry) : Scheduler :=
  if e.active && e.decays then (s.setPreferredCpu e.src cpuUnset).setPreferredCpu e.dst cpuUnset else s

section decay
variable (tick : Nat) (k : Kernel)

theorem decay_log : (k.decay tick).1 = k.engine.ipcTable.1.flatMap IpcEntry.events := by
  have h := Slots.mapAccum_fold (f := decayEntry tick) (·.2) (t := fun log e => log ++ e.events) (fun st e => ?_)
    (k, []) k.engine.ipcTable.1
  · rw [List.flatMap_eq_foldl]; exact h
  · have ht := decayEntry_turn tick st e
    generalize decayEntry tick st e = r at ht ⊢
    cases ht with
    | idle ha => simp [IpcEntry.events, ha]
    | anomaly | decay | kept => rfl

theorem decay_table : List.Forall₂ IpcEntry.Closed k.engine.ipcTable.1 (k.decay tick).2.engine.ipcTable.1 :=
  Slots.mapAccum_forall₂ (decayEntry_closed tick) _ _

theorem decay_ipc : (k.decay tick).2.ipc = k.engine.ipcTable.1.foldl reclaimIpc k.ipc := by
  refine Slots.mapAccum_fold (f := decayEntry tick) (·.1.ipc) (fun st e => ?_) (k, []) _
  have ht := decayEntry_turn tick st e
  generalize decayEntry tick st e = r at ht ⊢
  cases ht with
  | idle ha => simp [reclaimIpc, IpcEntry.reclaimed, ha]
  | anomaly ha h | decay ha h => simp [reclaimIpc, IpcEntry.reclaimed, ha, h, reclaimAnomaly, reclaimDecay]
  | kept ha h h' => simp [reclaimIpc, IpcEntry.reclaimed, h, h']

theorem decay_affinity : (k.decay tick).2.affinity = k.engine.ipcTable.1.foldl reclaimAffinity k.affinity := by
  refine Slots.mapAccum_fold (f := decayEntry tick) (·.1.affinity) (fun st e => ?_) (k, []) _
  have ht := decayEntry_turn tick st e
  generalize decayEntry tick st e = r at ht ⊢
  cases ht with
  | idle ha => simp [reclaimAffinity, IpcEntry.reclaimed, ha]
  | anomaly ha h | decay ha h => simp [reclaimAffinity, IpcEntry.reclaimed, ha, h, reclaimAnomaly, reclaimDecay]
  | kept ha h h' => simp [reclaimAffinity, IpcEntry.reclaimed, h, h']

theorem decay_sched : (k.decay tick).2.sched = k.engine.ipcTable.1.foldl reclaimSched k.sched := by
  refine Slots.mapAccum_fold (f := decayEntry tick) (·.1.sched) (fun st e => ?_) (k, []) _
  have ht := decayEntry_turn tick st e
  generalize decayEntry tick st e = r at ht ⊢
  cases ht with
  | idle ha => simp [reclaimSched, ha]
  | anomaly ha h => simp [reclaimSched, IpcEntry.decays_of_anomalous h, reclaimAnomaly]
  | decay ha h => simp [reclaimSched, ha, h, reclaimDecay]
  | kept ha h h' => simp [reclaimSched, h']

theorem recordEviction_eq (e : PolicyEngine) (src dst : Pid) (tick : Nat) :
    ∃ evictTable, e.recordEviction src dst tick = { e with evictTable } := by
  simp only [PolicyEngine.recordEviction]
  split
  · exact ⟨_, rfl⟩
  · split
    · exact ⟨_, rfl⟩
    · exact ⟨_, rfl⟩

/-- The loop leaves the rest of the kernel alone. -/
theorem decay_frame : (k.decay tick).2.timeSlice = k.timeSlice ∧ (k.decay tick).2.policyEnabled = k.policyEnabled ∧
    (k.decay tick).2.engine.stats = k.engine.stats ∧ (k.decay tick).2.engine.memTable = k.engine.memTable ∧
    (k.decay tick).2.engine.reportInterval = k.engine.reportInterval := by
  have key := Slots.mapAccum_frame (f := decayEntry tick) (l := k.engine.ipcTable.1)
    (fun st : Kernel × List PolicyEvent => (st.1.timeSlice, st.1.policyEnabled, st.1.engine.stats, st.1.engine.memTable,
      st.1.engine.reportInterval)) (fun st e _ => ?_) (k, [])
  · simpa [Kernel.decay, Table.mapAccum] using key
  · have ht := decayEntry_turn tick st e
    generalize decayEntry tick st e = r at ht ⊢
    cases ht with
    | idle => rfl
    | anomaly =>
      obtain ⟨t, ht⟩ := recordEviction_eq (learn st.1.engine e (e.reclaimReward (-20) (-5))) e.src e.dst tick
      simp only [reclaimAnomaly, ht]; rfl
    | decay =>
      obtain ⟨t, ht⟩ := recordEviction_eq (learn st.1.engine e (e.reclaimReward (-8) (-2))) e.src e.dst tick
      simp only [reclaimDecay, ht]; rfl
    | kept => rfl

end decay

/-! ## Hot pairs -/

/-- A registered pair keeps its channel; a new channel is the pair's. -/
theorem ensureChannel_fast {s s' : IpcState} {src dst : Pid} {id : CapId}
    (h : s.ensureChannel src dst = some (id, s')) (p : Pid × Pid) :
    s'.fast[p]? = if p = (src, dst) ∧ s.fast[(src, dst)]? = none then some s.nextCapId else s.fast[p]? := by
  rcases ensureChannelCap_cases h with ⟨hf, rfl⟩ | ⟨hn, -, b, hc⟩
  · simp [hf]
  · rw [hc.fast, IpcState.getElem?_fast_insert]
    simp only [hn, and_true, @eq_comm _ (src, dst)]

/-- What a hot pair's channel block does: nothing, or create the channel. -/
theorem promoteChannel_cases {tick : Nat} {k k' : Kernel} {e : IpcEntry} {log : List PolicyEvent}
    (h : promoteChannel tick k e = some (log, k')) :
    (log = [] ∧ k' = k) ∨
      (log = [.created e.src e.dst] ∧ k.ipc.fast[(e.src, e.dst)]? = none ∧ ∃ id ipc n,
        k.ipc.ensureChannel e.src e.dst = some (id, ipc) ∧
        k' = { k with ipc, engine := { k.engine with channelsThisWindow := n } }) := by
  simp only [promoteChannel] at h
  split at h
  · next hsome =>
    obtain ⟨id, hid⟩ := Option.isSome_iff_exists.mp hsome
    have hens : k.ipc.ensureChannel e.src e.dst = some (id, k.ipc) := by
      simp [IpcState.ensureChannel, IpcState.ensureChannelCap, hid]
    simp only [hens, Option.map_some, Option.some.injEq, Prod.mk.injEq] at h
    exact .inl ⟨h.1.symm, h.2.symm⟩
  next hnone =>
  have hn : k.ipc.fast[(e.src, e.dst)]? = none := by simpa [IpcState.getChannel] using hnone
  split at h
  · cases h; exact .inl ⟨rfl, rfl⟩
  split at h
  · cases h; exact .inl ⟨rfl, rfl⟩
  simp only [Option.bind_eq_bind, Option.bind_eq_some_iff] at h
  obtain ⟨⟨id, ipc⟩, hens, h⟩ := h
  have hsize : k.ipc.channelCount < ipc.channelCount := by
    rcases ensureChannelCap_cases hens with ⟨hf, -⟩ | ⟨-, -, b, hc⟩
    · rw [hn] at hf; cases hf
    · have hmem : ¬ (e.src, e.dst) ∈ k.ipc.fast := by
        rw [Std.ExtTreeMap.mem_iff_isSome_getElem?, hn]; simp
      simp [IpcState.channelCount, hc.fast, Std.ExtTreeMap.size_insert, hmem]
  simp only [hsize, if_pos, Option.some.injEq, Prod.mk.injEq] at h
  exact .inr ⟨h.1.symm, hn, id, ipc, _, hens, h.2.symm⟩

/-- An event of the hot pair block that names the entry's processes. -/
def IpcEntry.promotes (e : IpcEntry) : PolicyEvent → Prop
  | .created src dst => src = e.src ∧ dst = e.dst
  | .pinned src dst _ => src = e.src ∧ dst = e.dst
  | .prioritySet pid _ => pid = e.src ∨ pid = e.dst
  | _ => False

/-- What the block leaves alone. -/
structure PromoteFrame (k k' : Kernel) : Prop where
  ipcTable : k'.engine.ipcTable = k.engine.ipcTable
  memTable : k'.engine.memTable = k.engine.memTable
  stats : k'.engine.stats = k.engine.stats
  policyEnabled : k'.policyEnabled = k.policyEnabled
  live : ∀ {p : Pid × Pid} {id : CapId}, k.ipc.fast[p]? = some id → k'.ipc.fast[p]? = some id

theorem PromoteFrame.refl (k : Kernel) : PromoteFrame k k := ⟨rfl, rfl, rfl, rfl, id⟩

theorem PromoteFrame.trans {k₁ k₂ k₃ : Kernel} (h : PromoteFrame k₁ k₂) (h' : PromoteFrame k₂ k₃) :
    PromoteFrame k₁ k₃ :=
  ⟨h'.ipcTable.trans h.ipcTable, h'.memTable.trans h.memTable, h'.stats.trans h.stats,
    h'.policyEnabled.trans h.policyEnabled, fun hp => h'.live (h.live hp)⟩

/-- What one of the top pairs gets. -/
structure Promoted (k k' : Kernel) (e : IpcEntry) (log : List PolicyEvent) : Prop where
  frame : PromoteFrame k k'
  fast : ∀ {p : Pid × Pid} {id : CapId}, k'.ipc.fast[p]? = some id → k.ipc.fast[p]? = some id ∨ p = e.pair
  made : ∀ {src dst : Pid}, .created src dst ∈ log → ∃ id, k'.ipc.fast[(src, dst)]? = some id
  log : ∀ ev ∈ log, e.isHot = true ∧ k.policyEnabled = true ∧ e.promotes ev

/-- The channel block: the pair may get a channel, and no other pair does. -/
theorem promoteChannel_spec {tick : Nat} {k k' : Kernel} {e : IpcEntry} {log : List PolicyEvent}
    (h : promoteChannel tick k e = some (log, k')) :
    PromoteFrame k k' ∧
      (∀ {p : Pid × Pid} {id : CapId}, k'.ipc.fast[p]? = some id → k.ipc.fast[p]? = some id ∨ p = e.pair) ∧
      (∀ {src dst : Pid}, .created src dst ∈ log → ∃ id, k'.ipc.fast[(src, dst)]? = some id) ∧
      ∀ ev ∈ log, e.promotes ev := by
  rcases promoteChannel_cases h with ⟨rfl, rfl⟩ | ⟨rfl, hn, id, ipc, n, hens, rfl⟩
  · exact ⟨.refl _, .inl, nofun, nofun⟩
  refine ⟨⟨rfl, rfl, rfl, rfl, fun {p} {i} h => ?_⟩, fun {p} {i} h => ?_, fun {src} {dst} hev => ?_, fun ev hev => ?_⟩
  · refine (ensureChannel_fast hens p).trans ?_
    rw [if_neg, h]
    rintro ⟨rfl, -⟩; rw [hn] at h; cases h
  · replace h := (ensureChannel_fast hens p).symm.trans h
    split at h
    · next hp => exact .inr hp.1
    · exact .inl h
  · cases List.mem_singleton.mp hev
    exact ⟨_, (ensureChannel_fast hens _).trans (if_pos ⟨rfl, hn⟩)⟩
  · cases List.mem_singleton.mp hev
    exact ⟨rfl, rfl⟩

/-- Pinning and pushing touch the scheduler and the affinity map only. -/
theorem promotePush_frame (k : Kernel) (e : IpcEntry) :
    (promotePush (promotePin k e).2 e).2.engine = k.engine ∧ (promotePush (promotePin k e).2 e).2.ipc = k.ipc ∧
      (promotePush (promotePin k e).2 e).2.policyEnabled = k.policyEnabled := by
  simp only [promotePush]
  split <;> exact ⟨rfl, rfl, rfl⟩

theorem promotePush_log {k : Kernel} {e : IpcEntry} {ev : PolicyEvent}
    (h : ev ∈ (promotePin k e).1 ∨ ev ∈ (promotePush (promotePin k e).2 e).1) :
    e.promotes ev ∧ ∀ src dst, ev ≠ .created src dst := by
  rcases h with h | h
  · cases List.mem_singleton.mp h
    exact ⟨⟨rfl, rfl⟩, nofun⟩
  · simp only [promotePush] at h
    split at h
    · simp only [List.mem_cons, List.not_mem_nil, or_false] at h
      rcases h with rfl | rfl
      · exact ⟨.inl rfl, nofun⟩
      · exact ⟨.inr rfl, nofun⟩
    · cases h

theorem promote_spec {tick : Nat} {k k' : Kernel} {e : IpcEntry} {log : List PolicyEvent}
    (h : promote tick k e = some (log, k')) : Promoted k k' e log := by
  simp only [promote] at h
  split at h
  · next hot =>
    simp only [Bool.and_eq_true] at hot
    simp only [Option.bind_eq_bind, Option.bind_eq_some_iff] at h
    obtain ⟨⟨log₁, k₁⟩, hc, h⟩ := h
    simp only [Option.some.injEq, Prod.mk.injEq] at h
    obtain ⟨rfl, rfl⟩ := h
    obtain ⟨hf, hfast, hmade, hlog⟩ := promoteChannel_spec hc
    obtain ⟨he, hi, hp⟩ := promotePush_frame k₁ e
    have hf' : PromoteFrame k₁ (promotePush (promotePin k₁ e).2 e).2 :=
      ⟨by rw [he], by rw [he], by rw [he], hp, fun h => by rw [hi]; exact h⟩
    refine ⟨hf.trans hf', fun h => hfast (by rw [hi] at h; exact h), fun {src} {dst} hev => ?_,
      fun ev hev => ⟨hot.1, hot.2, ?_⟩⟩
    · rw [List.append_assoc, List.mem_append, List.mem_append] at hev
      rcases hev with hev | hev
      · rw [hi]; exact hmade hev
      · exact absurd rfl ((promotePush_log hev).2 src dst)
    · rw [List.append_assoc, List.mem_append, List.mem_append] at hev
      rcases hev with hev | hev
      · exact hlog ev hev
      · exact (promotePush_log hev).1
  · cases h
    exact ⟨.refl k, .inl, nofun, nofun⟩

/-- The loop over the top pairs. -/
theorem promoteAll_spec {tick : Nat} {k k' : Kernel} {es : List IpcEntry} {log : List PolicyEvent}
    (h : promoteAll tick k es = some (log, k')) :
    PromoteFrame k k' ∧
      (∀ {p : Pid × Pid} {id : CapId}, k'.ipc.fast[p]? = some id → k.ipc.fast[p]? = some id ∨ ∃ e ∈ es, p = e.pair) ∧
      (∀ {src dst : Pid}, .created src dst ∈ log → ∃ id, k'.ipc.fast[(src, dst)]? = some id) ∧
      ∀ ev ∈ log, ∃ e ∈ es, e.isHot = true ∧ k.policyEnabled = true ∧ e.promotes ev := by
  induction es generalizing k log with
  | nil => cases h; exact ⟨.refl _, .inl, nofun, nofun⟩
  | cons e es ih =>
    simp only [promoteAll, Option.bind_eq_bind, Option.bind_eq_some_iff, Option.some.injEq, Prod.mk.injEq] at h
    obtain ⟨⟨log₁, k₁⟩, h₁, ⟨log₂, k₂⟩, h₂, rfl, rfl⟩ := h
    obtain ⟨hf, hfast, hmade, hlog⟩ := promote_spec h₁
    obtain ⟨hf', hfast', hmade', hlog'⟩ := ih h₂
    refine ⟨hf.trans hf', fun hp => ?_, fun hev => ?_, fun ev hev => ?_⟩
    · rcases hfast' hp with hp | ⟨e', he', rfl⟩
      · rcases hfast hp with hp | rfl
        · exact .inl hp
        · exact .inr ⟨e, List.mem_cons_self, rfl⟩
      · exact .inr ⟨e', List.mem_cons_of_mem _ he', rfl⟩
    · rcases List.mem_append.mp hev with hev | hev
      · obtain ⟨id, hid⟩ := hmade hev; exact ⟨id, hf'.live hid⟩
      · exact hmade' hev
    · rcases List.mem_append.mp hev with hev | hev
      · exact ⟨e, List.mem_cons_self, hlog ev hev⟩
      · obtain ⟨e', he', hot, hen, hpr⟩ := hlog' ev hev
        exact ⟨e', List.mem_cons_of_mem _ he', hot, hf.policyEnabled ▸ hen, hpr⟩

/-- With the engine off the loop does nothing. -/
theorem promoteAll_off {tick : Nat} {k : Kernel} (hoff : k.policyEnabled = false) (es : List IpcEntry) :
    promoteAll tick k es = some ([], k) := by
  induction es with
  | nil => rfl
  | cons e es ih => simp [promoteAll, promote, hoff, ih]

theorem mem_topPairs {t : List IpcEntry} {e : IpcEntry} (h : e ∈ topPairs t) : e ∈ t ∧ e.active = true := by
  have := List.mem_filter.mp (Slots.mem_of_mem_topBy h)
  simp only [Bool.and_eq_true] at this
  exact ⟨this.1, this.2.1⟩

/-! ## Processes and memory -/

theorem tuneAlpha_slot (curVol10 totalSched : Nat) (s : CpuStats) :
    (tuneAlpha curVol10 totalSched s).pid = s.pid ∧ (tuneAlpha curVol10 totalSched s).active = s.active := by
  simp only [tuneAlpha]
  split <;> exact ⟨rfl, rfl⟩

/-- A turn's effect on the scheduler and the log: nothing, or a priority for `pid`. -/
def SetsPriority (st st' : CpuScan) (pid : Pid) : Prop :=
  (st'.sched = st.sched ∧ st'.log = st.log) ∨
    ∃ pri, st'.sched = st.sched.setPriority pid pri ∧ st'.log = st.log ++ [.prioritySet pid pri]

theorem applyPriority_spec (pri : Priority) (st : CpuScan) (s : CpuStats) :
    (applyPriority pri st s).2.pid = s.pid ∧ (applyPriority pri st s).2.active = s.active ∧
      SetsPriority st (applyPriority pri st s).1 s.pid := by
  simp only [applyPriority]
  split
  · exact ⟨rfl, rfl, .inr ⟨pri, rfl, rfl⟩⟩
  · exact ⟨rfl, rfl, .inl ⟨rfl, rfl⟩⟩

/-- A turn over the statistics slots: who the slot is for stays, and a
priority is set only for an active one, with the engine on. -/
theorem scanProcess_spec (enabled : Bool) (window : Nat) (st : CpuScan) (s : CpuStats) :
    (scanProcess enabled window st s).2.pid = s.pid ∧ (scanProcess enabled window st s).2.active = s.active ∧
      ((scanProcess enabled window st s).1.sched = st.sched ∧ (scanProcess enabled window st s).1.log = st.log ∨
        s.active = true ∧ enabled = true ∧ SetsPriority st (scanProcess enabled window st s).1 s.pid) := by
  simp only [scanProcess]
  split
  · next ha =>
    generalize (st.sched.getStats s.pid).getD (0, 0) = vf
    obtain ⟨vol, forced⟩ := vf
    simp only
    generalize (if vol + forced = 0 then s.volEma else vol * 1000 / (vol + forced)) = cur
    generalize ema (alphaLevels.getD s.alphaLevel 0) cur s.volEma = volEma
    obtain ⟨hp, hact⟩ := tuneAlpha_slot cur (vol + forced) { s with volEma }
    generalize tuneAlpha cur (vol + forced) { s with volEma } = t at hp hact ⊢
    obtain ⟨hp', hact', hset⟩ := applyPriority_spec (volPriority volEma) st t
    rw [hp] at hp' hset
    cases enabled with
    | true => exact ⟨hp', hact'.trans hact, .inr ⟨ha, rfl, hset⟩⟩
    | false => exact ⟨hp, hact, .inl ⟨rfl, rfl⟩⟩
  · exact ⟨rfl, rfl, .inl ⟨rfl, rfl⟩⟩

/-- A turn over the memory table. -/
theorem scanMem_cases (enabled : Bool) (st : Scheduler × List PolicyEvent) (m : MemEntry) :
    (scanMem enabled st m).1 = st ∨
      m.active = true ∧ memHotThreshold ≤ m.mmapDelta ∧ enabled = true ∧
        (scanMem enabled st m).1 = (st.1.setPriority m.pid .high, st.2 ++ [.prioritySet m.pid .high]) := by
  simp only [scanMem]
  split
  · next ha =>
    split
    · exact .inl rfl
    · split
      · next h => exact .inr ⟨ha, h.1, h.2, rfl⟩
      · exact .inl rfl
  · exact .inl rfl

/-- A statistics slot is still the same process's, in use or not. -/
def CpuStats.SameSlot (s s' : CpuStats) : Prop := s'.pid = s.pid ∧ s'.active = s.active

/-- A statistics slot was kept or given up. -/
def CpuStats.Kept (s s' : CpuStats) : Prop := s'.active = true → s.active = true ∧ s'.pid = s.pid

theorem CpuStats.Kept.refl (s : CpuStats) : s.Kept s := fun h => ⟨h, rfl⟩

theorem CpuStats.Kept.trans {s₁ s₂ s₃ : CpuStats} (h : s₁.Kept s₂) (h' : s₂.Kept s₃) : s₁.Kept s₃ := fun h₃ =>
  have ⟨h₂, hp⟩ := h' h₃
  have ⟨h₁, hp'⟩ := h h₂
  ⟨h₁, hp.trans hp'⟩

theorem CpuStats.SameSlot.kept {s s' : CpuStats} (h : s.SameSlot s') : s.Kept s' := fun ha => ⟨h.2 ▸ ha, h.1⟩

theorem tuneInterval_frame (enabled : Bool) (e : PolicyEngine) :
    (tuneInterval enabled e).ipcTable = e.ipcTable ∧ (tuneInterval enabled e).memTable = e.memTable ∧
      (tuneInterval enabled e).stats = e.stats ∧ (enabled = false → (tuneInterval enabled e).reportInterval = 36) := by
  cases enabled with
  | false => exact ⟨rfl, rfl, rfl, fun _ => rfl⟩
  | true =>
    simp only [tuneInterval, if_pos]
    split <;> exact ⟨rfl, rfl, rfl, nofun⟩

theorem tuneProfile_frame (enabled : Bool) (hi lo : Nat) (e : PolicyEngine) :
    (tuneProfile enabled hi lo e).ipcTable = e.ipcTable ∧ (tuneProfile enabled hi lo e).memTable = e.memTable ∧
      (tuneProfile enabled hi lo e).stats = e.stats ∧
      (tuneProfile enabled hi lo e).reportInterval = e.reportInterval := by
  cases enabled with
  | false => exact ⟨rfl, rfl, rfl, rfl⟩
  | true =>
    simp only [tuneProfile, if_pos]
    split <;> exact ⟨rfl, rfl, rfl, rfl⟩

theorem decayEpsilon_frame (e : PolicyEngine) :
    (decayEpsilon e).ipcTable = e.ipcTable ∧ (decayEpsilon e).memTable = e.memTable ∧
      (decayEpsilon e).stats = e.stats ∧ (decayEpsilon e).reportInterval = e.reportInterval := by
  simp only [decayEpsilon]
  split <;> exact ⟨rfl, rfl, rfl, rfl⟩

/-- What the blocks before the hot pairs do. -/
structure Tuned (k k' : Kernel) (log : List PolicyEvent) : Prop where
  ipc : k'.ipc = k.ipc
  affinity : k'.affinity = k.affinity
  policyEnabled : k'.policyEnabled = k.policyEnabled
  ipcTable : k'.engine.ipcTable = k.engine.ipcTable
  memTable : k'.engine.memTable = k.engine.memTable
  stats : List.Forall₂ CpuStats.SameSlot k.engine.stats.1 k'.engine.stats.1
  log : ∀ ev ∈ log, k.policyEnabled = true ∧
    ∃ s ∈ k.engine.stats.1, s.active = true ∧ ∃ pri, ev = .prioritySet s.pid pri
  off : k.policyEnabled = false → k'.sched = k.sched ∧ k'.timeSlice = 3 ∧ k'.engine.reportInterval = 36

/-- The loop over the processes. -/
theorem scanProcesses_spec (enabled : Bool) (window : Nat) (sched : Scheduler) (stats : Table CpuStats maxProcs) :
    List.Forall₂ CpuStats.SameSlot stats.1 (scanProcesses enabled window sched stats).2.1 ∧
      (∀ ev ∈ (scanProcesses enabled window sched stats).1.log,
        enabled = true ∧ ∃ s ∈ stats.1, s.active = true ∧ ∃ pri, ev = .prioritySet s.pid pri) ∧
      (enabled = false → (scanProcesses enabled window sched stats).1.sched = sched) := by
  refine ⟨Slots.mapAccum_forall₂ (fun st s => ?_) _ _, ?_, fun hoff => ?_⟩
  · exact ⟨(scanProcess_spec enabled window st s).1, (scanProcess_spec enabled window st s).2.1⟩
  · refine Slots.mapAccum_invariant (fun st : CpuScan => ∀ ev ∈ st.log,
      enabled = true ∧ ∃ s ∈ stats.1, s.active = true ∧ ∃ pri, ev = .prioritySet s.pid pri) (fun st s hs h ev hev => ?_)
      nofun
    rcases (scanProcess_spec enabled window st s).2.2 with ⟨-, hl⟩ | ⟨ha, hen, ⟨-, hl⟩ | ⟨pri, -, hl⟩⟩
    · exact h ev (hl ▸ hev)
    · exact h ev (hl ▸ hev)
    · rw [hl, List.mem_append, List.mem_singleton] at hev
      rcases hev with hev | rfl
      · exact h ev hev
      · exact ⟨hen, s, hs, ha, pri, rfl⟩
  · refine Slots.mapAccum_frame CpuScan.sched (fun st s _ => ?_) _
    rcases (scanProcess_spec enabled window st s).2.2 with ⟨hs, -⟩ | ⟨-, hen, -⟩
    · exact hs
    · rw [hoff] at hen; cases hen

theorem tune_spec (k : Kernel) (tick : Nat) : Tuned k (k.tune tick).2.1 (k.tune tick).1 := by
  simp only [Kernel.tune]
  obtain ⟨hi₁, hm₁, hs₁, hr₁⟩ := tuneInterval_frame k.policyEnabled
    ({ k.engine with channelsThisWindow := 0 }.expireEvictions tick)
  generalize tuneInterval k.policyEnabled ({ k.engine with channelsThisWindow := 0 }.expireEvictions tick) = E
    at hi₁ hm₁ hs₁ hr₁ ⊢
  obtain ⟨hslots, hlog, hoff⟩ := scanProcesses_spec k.policyEnabled (max k.engine.reportInterval 1) k.sched E.stats
  generalize scanProcesses k.policyEnabled (max k.engine.reportInterval 1) k.sched E.stats = R at hslots hlog hoff ⊢
  obtain ⟨scan, stats⟩ := R
  obtain ⟨hi₂, hm₂, hs₂, hr₂⟩ := tuneProfile_frame k.policyEnabled scan.cntHigh scan.cntLow { E with stats }
  simp only
  generalize tuneProfile k.policyEnabled scan.cntHigh scan.cntLow { E with stats } = P at hi₂ hm₂ hs₂ hr₂ ⊢
  obtain ⟨hi₃, hm₃, hs₃, hr₃⟩ := decayEpsilon_frame P
  rw [hs₁] at hslots hlog
  refine ⟨rfl, rfl, rfl, hi₃.trans (hi₂.trans hi₁), hm₃.trans (hm₂.trans hm₁), ?_, hlog, fun h => ?_⟩
  · rw [show (decayEpsilon P).stats = stats from hs₃.trans hs₂]; exact hslots
  · exact ⟨hoff h, by simp [pickSlice, h, baselineTimeSlice], hr₃.trans (hr₂.trans (hr₁ h))⟩

/-- What the memory and power blocks do. -/
structure Pressed (k k' : Kernel) (log : List PolicyEvent) : Prop where
  ipc : k'.ipc = k.ipc
  affinity : k'.affinity = k.affinity
  policyEnabled : k'.policyEnabled = k.policyEnabled
  timeSlice : k'.timeSlice = k.timeSlice
  reportInterval : k'.engine.reportInterval = k.engine.reportInterval
  ipcTable : k'.engine.ipcTable = k.engine.ipcTable
  stats : k'.engine.stats = k.engine.stats
  log : ∀ ev ∈ log, k.policyEnabled = true ∧
    ∃ m ∈ k.engine.memTable.1, m.active = true ∧ memHotThreshold ≤ m.mmapDelta ∧ ev = .prioritySet m.pid .high
  off : k.policyEnabled = false → k'.sched = k.sched

theorem pressure_spec (k : Kernel) (busyTicks : Nat) :
    Pressed k (k.pressure busyTicks).2 (k.pressure busyTicks).1 := by
  refine ⟨rfl, rfl, rfl, rfl, rfl, rfl, rfl, ?_, fun hoff => ?_⟩
  · refine Slots.mapAccum_invariant (fun st : Scheduler × List PolicyEvent => ∀ ev ∈ st.2, k.policyEnabled = true ∧
      ∃ m ∈ k.engine.memTable.1, m.active = true ∧ memHotThreshold ≤ m.mmapDelta ∧ ev = .prioritySet m.pid .high)
      (fun st m hm h ev hev => ?_) nofun
    rcases scanMem_cases k.policyEnabled st m with heq | ⟨ha, hhot, hen, heq⟩
    · rw [heq] at hev; exact h ev hev
    · rw [heq, List.mem_append, List.mem_singleton] at hev
      rcases hev with hev | rfl
      · exact h ev hev
      · exact ⟨hen, m, hm, ha, hhot, rfl⟩
  · refine Slots.mapAccum_frame Prod.fst (fun st m _ => ?_) (k.sched, [])
    rcases scanMem_cases k.policyEnabled st m with heq | ⟨-, -, hen, -⟩
    · rw [heq]
    · rw [hoff] at hen; cases hen

/-! ## The whole report -/

/-- The blocks of a report, one after the other. -/
theorem adaptAndReport_eq {k k' : Kernel} {tick : Nat} {log : List PolicyEvent}
    (h : k.adaptAndReport tick = some (log, k')) :
    ∃ log₂ k₂, promoteAll tick (k.tune tick).2.1 (topPairs k.engine.ipcTable.1) = some (log₂, k₂) ∧
      k' = ((k₂.pressure (k.tune tick).2.2).2.decay tick).2 ∧
      log = (k.tune tick).1 ++ log₂ ++ (k₂.pressure (k.tune tick).2.2).1 ++
        ((k₂.pressure (k.tune tick).2.2).2.decay tick).1 := by
  simp only [Kernel.adaptAndReport, Option.bind_eq_bind, Option.bind_eq_some_iff, Option.some.injEq,
    Prod.mk.injEq] at h
  obtain ⟨⟨log₂, k₂⟩, hp, hlog, hk⟩ := h
  rw [(tune_spec k tick).ipcTable] at hp
  exact ⟨log₂, k₂, hp, hk.symm, hlog.symm⟩

/-- What makes a report touch a process before the decay loop: a statistics
slot, a hot pair among the top three, or many `mmap` calls. -/
inductive Touches (k : Kernel) : PolicyEvent → Prop
  | stats {s : CpuStats} {pri : Priority} : s ∈ k.engine.stats.1 → s.active = true → Touches k (.prioritySet s.pid pri)
  | hot {e : IpcEntry} {ev : PolicyEvent} : e ∈ topPairs k.engine.ipcTable.1 → e.isHot = true → e.promotes ev →
      Touches k ev
  | mem {m : MemEntry} : m ∈ k.engine.memTable.1 → m.active = true → memHotThreshold ≤ m.mmapDelta →
      Touches k (.prioritySet m.pid .high)

/-- What a report does to the channels, the tables and the log. -/
structure Reported (k k' : Kernel) (log : List PolicyEvent) : Prop where
  policyEnabled : k'.policyEnabled = k.policyEnabled
  ipcTable : List.Forall₂ IpcEntry.Closed k.engine.ipcTable.1 k'.engine.ipcTable.1
  stats : List.Forall₂ CpuStats.Kept k.engine.stats.1 k'.engine.stats.1
  fast : ∀ {p : Pid × Pid} {id : CapId}, k'.ipc.fast[p]? = some id →
    (∀ e ∈ k.engine.ipcTable.1, e.pair = p → e.reclaimed = false) ∧
      (k.ipc.fast[p]? = some id ∨ ∃ e ∈ topPairs k.engine.ipcTable.1, p = e.pair)
  kept : ∀ {p : Pid × Pid} {id : CapId}, k.ipc.fast[p]? = some id →
    (∀ e ∈ k.engine.ipcTable.1, e.pair = p → e.reclaimed = false) → k'.ipc.fast[p]? = some id
  made : ∀ {src dst : Pid}, .created src dst ∈ log →
    (∀ e ∈ k.engine.ipcTable.1, e.pair = (src, dst) → e.reclaimed = false) → ∃ id, k'.ipc.fast[(src, dst)]? = some id
  log : ∃ pre, log = pre ++ k.engine.ipcTable.1.flatMap IpcEntry.events ∧
    ∀ ev ∈ pre, k.policyEnabled = true ∧ Touches k ev

/-- The registry after the decay loop. -/
theorem foldl_reclaimIpc_fast (s : IpcState) (t : List IpcEntry) (p : Pid × Pid) :
    (t.foldl reclaimIpc s).fast[p]? = if t.any (fun e => e.reclaimed && e.pair == p) then none else s.fast[p]? := by
  induction t generalizing s with
  | nil => simp
  | cons e t ih =>
    rw [List.foldl_cons, ih, List.any_cons]
    cases hr : e.reclaimed with
    | false => simp [reclaimIpc, hr]
    | true =>
      have hd : (reclaimIpc s e).fast[p]? = if p = e.pair then none else s.fast[p]? := by
        simp only [reclaimIpc, hr, if_pos]; exact dropChannel_fast s e.src e.dst p
      rw [hd]
      by_cases hp : p = e.pair
      · simp [hp]
      · have hp' : ¬ e.pair = p := fun he => hp he.symm
        simp [hp, hp']

theorem any_reclaimed_eq_false {t : List IpcEntry} {p : Pid × Pid} :
    t.any (fun e => e.reclaimed && e.pair == p) = false ↔ ∀ e ∈ t, e.pair = p → e.reclaimed = false := by
  simp only [List.any_eq_false, Bool.and_eq_true, beq_iff_eq, not_and]
  constructor
  · intro h e he hp
    cases hr : e.reclaimed with
    | false => rfl
    | true => exact absurd hp (h e he hr)
  · intro h e he hr hp
    rw [h e he hp] at hr
    cases hr

theorem adaptAndReport_spec {k k' : Kernel} {tick : Nat} {log : List PolicyEvent}
    (h : k.adaptAndReport tick = some (log, k')) : Reported k k' log := by
  obtain ⟨log₂, k₂, hp, rfl, rfl⟩ := adaptAndReport_eq h
  have ht := tune_spec k tick
  obtain ⟨hf, hnew, hmade, hlog₂⟩ := promoteAll_spec hp
  have hpr := pressure_spec k₂ (k.tune tick).2.2
  generalize (k₂.pressure (k.tune tick).2.2) = R at hpr ⊢
  obtain ⟨log₃, k₃⟩ := R
  have hd := decay_frame tick k₃
  have htable : k₃.engine.ipcTable = k.engine.ipcTable := hpr.ipcTable.trans (hf.ipcTable.trans ht.ipcTable)
  have hfast : ∀ p, (k₃.decay tick).2.ipc.fast[p]? =
      if k.engine.ipcTable.1.any (fun e => e.reclaimed && e.pair == p) then none else k₂.ipc.fast[p]? := by
    intro p
    rw [decay_ipc, foldl_reclaimIpc_fast, htable, show k₃.ipc = k₂.ipc from hpr.ipc]
  constructor
  · rw [hd.2.1, show k₃.policyEnabled = k₂.policyEnabled from hpr.policyEnabled, hf.policyEnabled, ht.policyEnabled]
  · rw [← htable]; exact decay_table tick k₃
  · rw [hd.2.2.1, show k₃.engine.stats = k₂.engine.stats from hpr.stats, hf.stats]
    exact ht.stats.imp fun _ _ h => h.kept
  · intro p id hid
    rw [hfast] at hid
    split at hid
    · cases hid
    · next hno =>
      refine ⟨any_reclaimed_eq_false.mp (by simpa using hno), ?_⟩
      rcases hnew hid with h | h
      · exact .inl (by rw [ht.ipc] at h; exact h)
      · exact .inr h
  · intro p id hid hno
    rw [hfast, any_reclaimed_eq_false.mpr hno]
    exact hf.live (by rw [ht.ipc]; exact hid)
  · intro src dst hev hno
    rw [hfast, any_reclaimed_eq_false.mpr hno]
    -- Only the hot pair block creates channels.
    simp only [List.mem_append] at hev
    rcases hev with ((hev | hev) | hev) | hev
    · obtain ⟨-, s, -, -, pri, he⟩ := ht.log _ hev; cases he
    · exact hmade hev
    · obtain ⟨-, m, -, -, -, he⟩ := hpr.log _ hev; cases he
    · rw [decay_log] at hev
      obtain ⟨e, -, he⟩ := List.mem_flatMap.mp hev
      exact absurd he (IpcEntry.created_notMem_events e src dst)
  · refine ⟨(k.tune tick).1 ++ log₂ ++ log₃, by rw [decay_log, htable], fun ev hev => ?_⟩
    rw [List.mem_append, List.mem_append] at hev
    rcases hev with (hev | hev) | hev
    · obtain ⟨hen, s, hs, ha, pri, rfl⟩ := ht.log ev hev
      exact ⟨hen, .stats hs ha⟩
    · obtain ⟨e, he, hot, hen, hpr⟩ := hlog₂ ev hev
      exact ⟨ht.policyEnabled ▸ hen, .hot he hot hpr⟩
    · obtain ⟨hen, m, hm, ha, hhot, rfl⟩ := hpr.log ev hev
      refine ⟨?_, .mem ?_ ha hhot⟩
      · rw [hf.policyEnabled, ht.policyEnabled] at hen; exact hen
      · rw [hf.memTable, ht.memTable] at hm; exact hm

/-- A report as seen from a state that differs in who runs and in the statistics. -/
theorem Reported.of_same {k k₀ k' : Kernel} {log : List PolicyEvent} (h : Reported k₀ k' log)
    (hs : List.Forall₂ CpuStats.Kept k.engine.stats.1 k₀.engine.stats.1)
    (ht : k₀.engine.ipcTable = k.engine.ipcTable) (hm : k₀.engine.memTable = k.engine.memTable)
    (hen : k₀.policyEnabled = k.policyEnabled) (hi : k₀.ipc = k.ipc) : Reported k k' log := by
  constructor
  · exact h.policyEnabled.trans hen
  · rw [← ht]; exact h.ipcTable
  · exact Slots.forall₂_trans (fun h h' => h.trans h') hs h.stats
  · rw [← ht, ← hi]; exact h.fast
  · rw [← ht, ← hi]; exact h.kept
  · rw [← ht]; exact h.made
  · obtain ⟨pre, hlog, hpre⟩ := h.log
    refine ⟨pre, by rw [← ht]; exact hlog, fun ev hev => ?_⟩
    obtain ⟨hon, htouch⟩ := hpre ev hev
    refine ⟨hen ▸ hon, ?_⟩
    cases htouch with
    | @stats s pri hmem hact =>
      obtain ⟨s₀, hs₀, hk⟩ := Slots.forall₂_mem_right hs hmem
      obtain ⟨hact₀, hpid⟩ := hk hact
      rw [hpid]
      exact .stats hs₀ hact₀
    | hot he hot hpr => exact .hot (by rw [← ht]; exact he) hot hpr
    | mem hmm ha hd => exact .mem (by rw [← hm]; exact hmm) ha hd

/-! ## What setting priorities cannot break -/

section priority
variable {I : Scheduler → Prop} (hI : ∀ {sc} (pid : Pid) (pri : Priority), I sc → I (sc.setPriority pid pri))
variable {k : Kernel}
include hI

/-- The blocks before the hot pairs only set priorities. -/
theorem tune_sched (tick : Nat) (h : I k.sched) : I (k.tune tick).2.1.sched := by
  refine Slots.mapAccum_invariant (fun st : CpuScan => I st.sched) (fun st s _ hst => ?_) h
  rcases (scanProcess_spec k.policyEnabled (max k.engine.reportInterval 1) st s).2.2 with
    ⟨hs, -⟩ | ⟨-, -, ⟨hs, -⟩ | ⟨pri, hs, -⟩⟩
  · rw [hs]; exact hst
  · rw [hs]; exact hst
  · rw [hs]; exact hI _ _ hst

/-- So does the memory block. -/
theorem pressure_sched (busyTicks : Nat) (h : I k.sched) : I (k.pressure busyTicks).2.sched := by
  refine Slots.mapAccum_invariant (fun st : Scheduler × List PolicyEvent => I st.1) (fun st m _ hst => ?_) h
  rcases scanMem_cases k.policyEnabled st m with heq | ⟨-, -, -, heq⟩
  · rw [heq]; exact hst
  · rw [heq]; exact hI _ _ hst

end priority

/-! ## What no report can break -/

/-- A property of the process table and the IPC state that the policy
engine's tools keep: priorities, preferred cores, creating and dropping
channels. -/
structure PolicyStable (I : Scheduler → IpcState → Prop) : Prop where
  pri : ∀ {sc s} (pid : Pid) (p : Priority), I sc s → I (sc.setPriority pid p) s
  cpu : ∀ {sc s} (pid : Pid) (cpu : Nat), I sc s → I (sc.setPreferredCpu pid cpu) s
  ensure : ∀ {sc s s'} {src dst : Pid} {id : CapId}, I sc s → s.ensureChannel src dst = some (id, s') → I sc s'
  drop : ∀ {sc s} (src dst : Pid), I sc s → I sc (s.dropChannel src dst)

section stable
variable {I : Scheduler → IpcState → Prop} (hI : PolicyStable I) {k k' : Kernel} {tick : Nat} {log : List PolicyEvent}
include hI

theorem PolicyStable.promote {e : IpcEntry} (h : I k.sched k.ipc) (hp : promote tick k e = some (log, k')) :
    I k'.sched k'.ipc := by
  simp only [ChodOs.promote] at hp
  split at hp
  · simp only [Option.bind_eq_bind, Option.bind_eq_some_iff] at hp
    obtain ⟨⟨log₁, k₁⟩, hc, hp⟩ := hp
    simp only [Option.some.injEq, Prod.mk.injEq] at hp
    obtain ⟨-, rfl⟩ := hp
    have h₁ : I k₁.sched k₁.ipc := by
      rcases promoteChannel_cases hc with ⟨-, rfl⟩ | ⟨-, -, id, ipc, n, hens, rfl⟩
      · exact h
      · exact hI.ensure h hens
    have h₂ : I (promotePin k₁ e).2.sched (promotePin k₁ e).2.ipc := hI.cpu _ _ (hI.cpu _ _ h₁)
    simp only [promotePush]
    split
    · exact hI.pri _ _ (hI.pri _ _ h₂)
    · exact h₂
  · cases hp; exact h

theorem PolicyStable.promoteAll {es : List IpcEntry} (h : I k.sched k.ipc)
    (hp : promoteAll tick k es = some (log, k')) : I k'.sched k'.ipc := by
  induction es generalizing k log with
  | nil => cases hp; exact h
  | cons e es ih =>
    simp only [ChodOs.promoteAll, Option.bind_eq_bind, Option.bind_eq_some_iff, Option.some.injEq, Prod.mk.injEq] at hp
    obtain ⟨⟨log₁, k₁⟩, h₁, ⟨log₂, k₂⟩, h₂, -, rfl⟩ := hp
    exact ih (hI.promote h h₁) h₂

/-- Every report keeps it. -/
theorem PolicyStable.report (h : I k.sched k.ipc) (hr : k.adaptAndReport tick = some (log, k')) :
    I k'.sched k'.ipc := by
  obtain ⟨log₂, k₂, hp, rfl, -⟩ := adaptAndReport_eq hr
  have h₁ : I (k.tune tick).2.1.sched (k.tune tick).2.1.ipc := by
    rw [(tune_spec k tick).ipc]
    exact @tune_sched (I · k.ipc) (fun pid pri => hI.pri pid pri) k tick h
  have h₂ := hI.promoteAll h₁ hp
  have h₃ : I (k₂.pressure (k.tune tick).2.2).2.sched (k₂.pressure (k.tune tick).2.2).2.ipc :=
    @pressure_sched (I · k₂.ipc) (fun pid pri => hI.pri pid pri) k₂ _ h₂
  refine Slots.mapAccum_invariant (fun st : Kernel × List PolicyEvent => I st.1.sched st.1.ipc)
    (fun st e _ hst => ?_) h₃
  have ht := decayEntry_turn tick st e
  generalize decayEntry tick st e = r at ht ⊢
  cases ht with
  | idle | kept => exact hst
  | anomaly => exact hI.drop _ _ hst
  | decay => exact hI.drop _ _ (hI.cpu _ _ (hI.cpu _ _ hst))

end stable

end ChodOs
