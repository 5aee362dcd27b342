/-
`on_switch` with the locks its report takes, and what a report must find to
ask for each of them. The affinity map's lock is taken by every report.
-/
import ChodOs.Ipc.Locks
import ChodOs.Policy.Runs

namespace ChodOs

open LockProg Prog

namespace Code

/-! ## The affinity map -/

/-- `get_affinity`. -/
def getAffinity (pid : Pid) : Code (Option Nat) := locked .affinity (peek fun k => k.affinity[pid]?)

/-- `pin_to_cpu`. -/
def pinToCpu (pid : Pid) (cpu : Nat) : Code Unit :=
  locked .affinity (update fun k => { k with affinity := k.affinity.insert pid cpu })

/-- `pin_pair`. -/
def pinPair (src dst : Pid) : Code Unit := do
  let srcCpu ← getAffinity src
  let dstCpu ← getAffinity dst
  let target := srcCpu.getD (dstCpu.getD Affinity.leastLoadedCpu)
  if srcCpu = some target ∧ dstCpu = some target then pure ()
  else
    pinToCpu src target
    pinToCpu dst target

/-- `unpin`. -/
def unpin (pid : Pid) : Code Unit := locked .affinity (update fun k => { k with affinity := k.affinity.unpin pid })

/-- `affinity_count`. -/
def affinityCount : Code Nat := locked .affinity (peek fun k => k.affinity.size)

/-! ## The report -/

/-- The channel of a hot pair. -/
def promoteChannel (tick : Nat) (e : IpcEntry) : Code Unit := do
  let alreadyExists := (← getChannel e.src e.dst).isSome
  let engine ← peek Kernel.engine
  if alreadyExists then
    let _ ← ensureChannel e.src e.dst
  else if maxChannelsPerWindow ≤ engine.channelsThisWindow then pure ()
  else if engine.inEvictCooldown e.src e.dst tick then pure ()
  else
    let before ← channelCount
    let _ ← ensureChannel e.src e.dst
    let after ← channelCount
    if before < after then
      update fun k =>
        { k with engine := { k.engine with channelsThisWindow := k.engine.channelsThisWindow + 1 } }

/-- The pair goes to one core. -/
def promotePin (e : IpcEntry) : Code Unit := do
  pinPair e.src e.dst
  let targetCpu := (← getAffinity e.src).getD 0
  update fun k => { k with sched := (k.sched.setPreferredCpu e.src targetCpu).setPreferredCpu e.dst targetCpu }

/-- One of the top pairs. -/
def promote (tick : Nat) (e : IpcEntry) : Code Unit := do
  if e.isHot && (← peek Kernel.policyEnabled) then
    promoteChannel tick e
    promotePin e
    update fun k => (ChodOs.promotePush k e).2

/-- The loop over the top pairs. -/
def promoteAll (tick : Nat) : List IpcEntry → Code Unit
  | [] => pure ()
  | e :: es => do
    promote tick e
    promoteAll tick es

/-- The end of a reclaim, with the rest of its bookkeeping. -/
def reclaim (e : IpcEntry) (f : Kernel → Kernel) : Code IpcEntry := do
  dropChannel e.src e.dst
  unpin e.src
  unpin e.dst
  update f
  pure { e.closeWindow with active := false, coldWindows := 0 }

/-- One turn of the decay loop. -/
def decayEntry (tick : Nat) (e : IpcEntry) : Code IpcEntry := do
  if !e.active then pure e
  else if e.anomalous then
    let _ ← getChannel e.src e.dst
    update fun k => { k with engine := learn k.engine e (e.reclaimReward (-20) (-5)) }
    reclaim e fun k => { k with engine := k.engine.recordEviction e.src e.dst tick }
  else if e.decays then
    update fun k => { k with engine := learn k.engine e (e.reclaimReward (-8) (-2)) }
    reclaim e fun k => { k with
      sched := (k.sched.setPreferredCpu e.src cpuUnset).setPreferredCpu e.dst cpuUnset
      engine := k.engine.recordEviction e.src e.dst tick }
  else if e.delta < decayThreshold then
    let engine ← peek fun k => learn k.engine e (if e.rlAction = .encourage then -4 else -1)
    let (engine, c) := chooseAction engine e { e.closeWindow with coldWindows := e.nextCold }
    update fun k => { k with engine }
    pure c
  else
    let channelExists := (← getChannel e.src e.dst).isSome
    let engine ← peek fun k => learn k.engine e (rlComputeReward e.rlAction e.delta e.deltaPrev channelExists)
    let (engine, c) := chooseAction engine e { e.closeWindow with coldWindows := 0 }
    update fun k => { k with engine }
    pure c

/-- The decay loop. -/
def decayAll (tick : Nat) : List IpcEntry → Code (List IpcEntry)
  | [] => pure []
  | e :: es => do
    let e' ← decayEntry tick e
    let es' ← decayAll tick es
    pure (e' :: es')

/-- `adapt_and_report`. -/
def adaptAndReport (tick : Nat) : Code Unit := do
  let busyTicks ← attempt fun k => some ((k.tune tick).2.2, (k.tune tick).2.1)
  promoteAll tick (topPairs (← peek fun k => k.engine.ipcTable.1))
  update fun k => (k.pressure busyTicks).2
  let entries ← decayAll tick (← peek fun k => k.engine.ipcTable.1)
  update fun k => { k with engine := { k.engine with ipcTable := k.engine.ipcTable.refill entries } }
  let _ ← affinityCount

/-- `on_switch`. -/
def onSwitch (src dst : Pid) (tick : Nat) : Code Unit := do
  update fun k => { k with engine := k.engine.countSwitch src dst tick }
  if ← peek fun k => decide (k.engine.lastReportTick + k.engine.reportInterval ≤ tick) then
    update fun k => { k with engine := { k.engine with lastReportTick := tick } }
    adaptAndReport tick

/-! ## Without interruption -/

section run
variable (k : Kernel)

@[simp] theorem run_getAffinity (pid : Pid) : (getAffinity pid).run k = some (k.affinity[pid]?, k) := by
  simp [getAffinity]

theorem run_pinPair (src dst : Pid) :
    (pinPair src dst).run k = some ((), { k with affinity := k.affinity.pinPair src dst }) := by
  have htarget : (k.affinity[src]?).getD ((k.affinity[dst]?).getD Affinity.leastLoadedCpu) =
      k.affinity.pairCpu src dst := rfl
  simp only [pinPair, run_bind, run_getAffinity, Option.bind_some, Affinity.pinPair, htarget]
  by_cases h : k.affinity[src]? = some (k.affinity.pairCpu src dst) ∧
      k.affinity[dst]? = some (k.affinity.pairCpu src dst)
  · rw [if_pos h, if_pos h]; rfl
  · rw [if_neg h, if_neg h]; rfl

@[simp] theorem run_unpin (pid : Pid) : (unpin pid).run k = some ((), { k with affinity := k.affinity.unpin pid }) := by
  simp [unpin]

theorem run_promoteChannel (tick : Nat) (e : IpcEntry) : (promoteChannel tick e).run k =
    (ChodOs.promoteChannel tick k e).map fun r => ((), r.2) := by
  simp only [promoteChannel, run_bind, run_getChannel, run_peek, Option.bind_some, ChodOs.promoteChannel]
  split
  · simp only [run_bind, run_ensureChannel, Option.map_map]
    cases k.ipc.ensureChannel e.src e.dst <;> rfl
  split
  · rfl
  split
  · rfl
  simp only [run_bind, run_channelCount, run_ensureChannel, Option.bind_some]
  cases k.ipc.ensureChannel e.src e.dst with
  | none => rfl
  | some r =>
    simp only [Option.map_some, Option.bind_some, Option.bind_eq_bind]
    split <;> rfl

theorem run_promotePin (e : IpcEntry) : (promotePin e).run k = some ((), (ChodOs.promotePin k e).2) := by
  simp only [promotePin, run_bind, run_pinPair, run_getAffinity, Option.bind_some]
  rfl

theorem run_promote (tick : Nat) (e : IpcEntry) : (promote tick e).run k =
    (ChodOs.promote tick k e).map fun r => ((), r.2) := by
  simp only [promote, run_bind, run_peek, Option.bind_some, ChodOs.promote]
  split
  · simp only [run_bind, run_promoteChannel]
    cases ChodOs.promoteChannel tick k e with
    | none => rfl
    | some r => simp only [Option.map_some, Option.bind_some, run_promotePin]; rfl
  · rfl

theorem run_promoteAll (tick : Nat) (es : List IpcEntry) : (promoteAll tick es).run k =
    (ChodOs.promoteAll tick k es).map fun r => ((), r.2) := by
  induction es generalizing k with
  | nil => rfl
  | cons e es ih =>
    simp only [promoteAll, run_bind, run_promote, ChodOs.promoteAll]
    cases ChodOs.promote tick k e with
    | none => rfl
    | some r =>
      simp only [Option.map_some, Option.bind_some, ih, Option.bind_eq_bind]
      cases ChodOs.promoteAll tick r.2 es <;> rfl

theorem run_decayEntry (tick : Nat) (log : List PolicyEvent) (e : IpcEntry) : (decayEntry tick e).run k =
    some ((ChodOs.decayEntry tick (k, log) e).2, (ChodOs.decayEntry tick (k, log) e).1.1) := by
  simp only [decayEntry, ChodOs.decayEntry]
  cases ha : e.active with
  | false => rfl
  | true =>
  cases han : e.anomalous with
  | true =>
    simp only [Bool.not_true, Bool.false_eq_true, if_false, if_true, reclaim, run_bind, run_getChannel, run_update,
      run_dropChannel, run_unpin, Option.bind_some, run_pure]
    rfl
  | false =>
  by_cases hlt : e.delta < decayThreshold
  · by_cases hcold : decayColdWindows ≤ e.nextCold
    · have hd : e.decays = true := by simp [IpcEntry.decays, han, hlt, hcold]
      simp only [hd, hlt, hcold, Bool.not_true, Bool.false_eq_true, if_false, if_true, reclaim, run_bind, run_update,
        run_dropChannel, run_unpin, Option.bind_some, run_pure]
      rfl
    · have hd : e.decays = false := by simp only [IpcEntry.decays, han, hlt, hcold]; rfl
      simp only [hd, hlt, hcold, Bool.not_true, Bool.false_eq_true, if_false, if_true, run_bind, run_peek, run_update,
        Option.bind_some, run_pure]
  · have hd : e.decays = false := by simp only [IpcEntry.decays, han, hlt]; rfl
    simp only [hd, hlt, Bool.not_true, Bool.false_eq_true, if_false, if_true, run_bind, run_getChannel, run_peek,
      run_update, Option.bind_some, run_pure]

theorem run_decayAll (tick : Nat) (log : List PolicyEvent) (es : List IpcEntry) : (decayAll tick es).run k =
    some ((Slots.mapAccum (ChodOs.decayEntry tick) (k, log) es).2,
      (Slots.mapAccum (ChodOs.decayEntry tick) (k, log) es).1.1) := by
  induction es generalizing k log with
  | nil => rfl
  | cons e es ih =>
    simp only [decayAll, run_bind, run_decayEntry k tick log e, Option.bind_some, Slots.mapAccum]
    have hrest := ih (ChodOs.decayEntry tick (k, log) e).1.1 (ChodOs.decayEntry tick (k, log) e).1.2
    rw [hrest, Option.bind_some, run_pure]

theorem run_adaptAndReport (tick : Nat) : (adaptAndReport tick).run k =
    (k.adaptAndReport tick).map fun r => ((), r.2) := by
  simp only [adaptAndReport, run_bind, run_attempt, run_peek, Option.bind_some, run_promoteAll, Kernel.adaptAndReport]
  cases ChodOs.promoteAll tick (k.tune tick).2.1 (topPairs (k.tune tick).2.1.engine.ipcTable.1) with
  | none => rfl
  | some r =>
    simp only [Option.map_some, Option.bind_some, run_update, Option.bind_eq_bind, affinityCount, run_locked, run_peek]
    have hloop := run_decayAll (r.2.pressure (k.tune tick).2.2).2 tick []
      (r.2.pressure (k.tune tick).2.2).2.engine.ipcTable.1
    rw [hloop]
    simp only [Option.bind_some, run_pure, Kernel.decay, Table.mapAccum]
    rw [Table.refill_eq]

/-- `on_switch` without interruption. -/
theorem run_onSwitch (src dst : Pid) (tick : Nat) : (onSwitch src dst tick).run k =
    (k.onSwitch src dst tick).map fun r => ((), r.2) := by
  simp only [onSwitch, run_bind, run_update, run_peek, Option.bind_some, Kernel.onSwitch, decide_eq_true_eq]
  split
  · simp only [run_bind, run_update, Option.bind_some, run_adaptAndReport]
  · rfl

end run

/-! ## The locks a report asks for -/

/-- The pair is hot, has no channel and may get one. -/
structure MayCreate (k : Kernel) (tick : Nat) (e : IpcEntry) : Prop where
  hot : e.isHot = true
  on : k.policyEnabled = true
  absent : k.ipc.getChannel e.src e.dst = none
  cool : k.engine.inEvictCooldown e.src e.dst tick = false

instance (k : Kernel) (tick : Nat) (e : IpcEntry) : Decidable (MayCreate k tick e) :=
  decidable_of_iff (e.isHot = true ∧ k.policyEnabled = true ∧ k.ipc.getChannel e.src e.dst = none ∧
      k.engine.inEvictCooldown e.src e.dst tick = false)
    ⟨fun ⟨hot, on, absent, cool⟩ => ⟨hot, on, absent, cool⟩, fun h => ⟨h.hot, h.on, h.absent, h.cool⟩⟩

theorem shared_mem_ensureChannel {src dst : Pid} {k : Kernel} (h : .shared ∈ (ensureChannel src dst).locks k) :
    k.ipc.getChannel src dst = none := by
  cases hc : k.ipc.getChannel src dst with
  | none => rfl
  | some id => simp [ensureChannel, ensureChannelCap, getChannel, hc] at h

theorem shared_mem_dropChannel {src dst : Pid} {k : Kernel} (h : .shared ∈ (dropChannel src dst).locks k) :
    (k.ipc.getChannel src dst).isSome = true := by
  cases hc : k.ipc.getChannel src dst with
  | none => simp [dropChannel, hc] at h
  | some id => rfl

theorem mem_locks_pinPair {l : Lock} {src dst : Pid} {k : Kernel} (h : l ∈ (pinPair src dst).locks k) :
    l = .affinity := by
  simp only [pinPair, locks_bind, run_getAffinity, Option.elim_some] at h
  split at h
  · simpa [getAffinity] using h
  · simpa [getAffinity, pinToCpu] using h

theorem mem_locks_promotePin {l : Lock} {e : IpcEntry} {k : Kernel} (h : l ∈ (promotePin e).locks k) :
    l = .affinity := by
  simp only [promotePin, locks_bind, run_pinPair, run_getAffinity, Option.elim_some, locks_update, List.mem_append] at h
  rcases h with h | h
  · exact mem_locks_pinPair h
  · simpa [getAffinity] using h

/-- The channel block takes the buffers' lock only to create a channel. -/
theorem shared_mem_promoteChannel {tick : Nat} {e : IpcEntry} {k : Kernel}
    (h : .shared ∈ (promoteChannel tick e).locks k) :
    k.ipc.getChannel e.src e.dst = none ∧ k.engine.inEvictCooldown e.src e.dst tick = false := by
  simp only [promoteChannel, locks_bind, run_getChannel, run_peek, locks_peek, Option.elim_some, List.nil_append,
    List.mem_append] at h
  rcases h with h | h
  · simp [getChannel] at h
  split at h
  · next hsome =>
    simp only [locks_bind, List.mem_append] at h
    rcases h with h | h
    · rw [shared_mem_ensureChannel h] at hsome; cases hsome
    · cases hr : (ensureChannel e.src e.dst).run k <;> simp [hr] at h
  next hnone =>
  split at h
  · simp at h
  split at h
  · simp at h
  · next hcool => exact ⟨by simpa using hnone, by simpa using hcool⟩

theorem mem_locks_promote {l : Lock} {tick : Nat} {e : IpcEntry} {k : Kernel} (h : l ∈ (promote tick e).locks k)
    (hne : l ≠ .affinity) : e.isHot = true ∧ k.policyEnabled = true ∧ (l = .shared → MayCreate k tick e) := by
  simp only [promote, locks_bind, run_peek, locks_peek, Option.elim_some, List.nil_append] at h
  split at h
  · next hot =>
    simp only [Bool.and_eq_true] at hot
    refine ⟨hot.1, hot.2, ?_⟩
    intro h
    obtain rfl := h
    simp only [locks_bind, List.mem_append] at h
    rcases h with h | h
    · exact ⟨hot.1, hot.2, (shared_mem_promoteChannel h).1, (shared_mem_promoteChannel h).2⟩
    · cases hr : (promoteChannel tick e).run k with
      | none => simp [hr] at h
      | some r =>
        simp only [hr, Option.elim_some, run_promotePin, locks_update, List.append_nil] at h
        cases mem_locks_promotePin h
  · simp at h

/-- Only a pair that may have a new channel gets one. -/
theorem promote_fast {tick : Nat} {k k' : Kernel} {e : IpcEntry} {log : List PolicyEvent}
    (h : ChodOs.promote tick k e = some (log, k')) {p : Pid × Pid} {id : CapId} (hp : k'.ipc.fast[p]? = some id) :
    k.ipc.fast[p]? = some id ∨ p = e.pair ∧ MayCreate k tick e := by
  simp only [ChodOs.promote] at h
  split at h
  · next hot =>
    simp only [Bool.and_eq_true] at hot
    simp only [Option.bind_eq_bind, Option.bind_eq_some_iff, Option.some.injEq, Prod.mk.injEq] at h
    obtain ⟨⟨log₁, k₁⟩, hc, -, rfl⟩ := h
    rw [(promotePush_frame k₁ e).2.1] at hp
    rcases (promoteChannel_spec hc).2.1 hp with hold | hpair
    · exact .inl hold
    · by_cases hold : k.ipc.fast[p]? = some id
      · exact .inl hold
      refine .inr ⟨hpair, ?_⟩
      simp only [ChodOs.promoteChannel] at hc
      split at hc
      · obtain ⟨⟨id', ipc⟩, hens, he⟩ := Option.map_eq_some_iff.mp hc
        cases he
        have hfast := ensureChannel_fast hens p
        next hsome =>
        rw [if_neg, hp] at hfast
        · exact absurd hfast.symm hold
        · intro h
          obtain ⟨-, hn⟩ := h
          rw [IpcState.getChannel, hn] at hsome
          cases hsome
      next hnone =>
      split at hc
      · cases hc; exact absurd hp hold
      split at hc
      · cases hc; exact absurd hp hold
      · next hcool => exact ⟨hot.1, hot.2, by simpa using hnone, by simpa using hcool⟩
  · cases h; exact .inl hp

/-- What may get a channel after a top pair might have got one before it. -/
theorem MayCreate.before {tick : Nat} {k k' : Kernel} {e e' : IpcEntry} {log : List PolicyEvent}
    (h : ChodOs.promote tick k e = some (log, k')) (hc : MayCreate k' tick e') : MayCreate k tick e' := by
  obtain ⟨-, n, hn⟩ := promote_engine h
  have hf := (promote_spec h).frame
  refine ⟨hc.hot, hf.policyEnabled ▸ hc.on, ?_, ?_⟩
  · cases hid : k.ipc.getChannel e'.src e'.dst with
    | none => rfl
    | some id =>
      have habsent := hc.absent
      rw [IpcState.getChannel, hf.live hid] at habsent
      cases habsent
  · have hcool := hc.cool
    rw [hn] at hcool
    exact hcool

theorem mem_locks_promoteAll {l : Lock} {tick : Nat} {es : List IpcEntry} {k : Kernel}
    (h : l ∈ (promoteAll tick es).locks k) (hne : l ≠ .affinity) :
    k.policyEnabled = true ∧ ∃ e ∈ es, e.isHot = true ∧ (l = .shared → MayCreate k tick e) := by
  induction es generalizing k with
  | nil => simp [promoteAll] at h
  | cons e es ih =>
    simp only [promoteAll, locks_bind, run_promote, List.mem_append] at h
    rcases h with h | h
    · obtain ⟨hot, hon, hshared⟩ := mem_locks_promote h hne
      exact ⟨hon, e, List.mem_cons_self, hot, hshared⟩
    · cases hp : ChodOs.promote tick k e with
      | none => simp [hp] at h
      | some r =>
        rw [hp, Option.map_some, Option.elim_some] at h
        obtain ⟨hon, e', he', hot, hshared⟩ := ih h
        refine ⟨(promote_spec hp).frame.policyEnabled ▸ hon, e', List.mem_cons_of_mem _ he', hot, fun hl => ?_⟩
        exact (hshared hl).before hp

theorem promoteAll_fast {tick : Nat} {k k' : Kernel} {es : List IpcEntry} {log : List PolicyEvent}
    (h : ChodOs.promoteAll tick k es = some (log, k')) {p : Pid × Pid} {id : CapId} (hp : k'.ipc.fast[p]? = some id) :
    k.ipc.fast[p]? = some id ∨ ∃ e ∈ es, MayCreate k tick e := by
  induction es generalizing k log with
  | nil => cases h; exact .inl hp
  | cons e es ih =>
    simp only [ChodOs.promoteAll, Option.bind_eq_bind, Option.bind_eq_some_iff, Option.some.injEq, Prod.mk.injEq] at h
    obtain ⟨⟨log₁, k₁⟩, h₁, ⟨log₂, k₂⟩, h₂, -, rfl⟩ := h
    rcases ih h₂ with hp₁ | ⟨e', he', hc⟩
    · rcases promote_fast h₁ hp₁ with hp₀ | ⟨-, hc⟩
      · exact .inl hp₀
      · exact .inr ⟨e, List.mem_cons_self, hc⟩
    · exact .inr ⟨e', List.mem_cons_of_mem _ he', hc.before h₁⟩

/-! ## The decay loop -/

/-- The decay loop asks for the pair's channel. -/
def Looks (e : IpcEntry) : Prop :=
  e.active = true ∧ (e.anomalous = true ∨ e.decays = true ∨ decayThreshold ≤ e.delta)

instance (e : IpcEntry) : Decidable (Looks e) := inferInstanceAs (Decidable (_ ∧ _))

/-- A reclaim takes the buffers' lock only for a channel that is there. -/
theorem shared_mem_reclaim {e : IpcEntry} {f : Kernel → Kernel} {k : Kernel} (h : .shared ∈ (reclaim e f).locks k) :
    (k.ipc.getChannel e.src e.dst).isSome = true := by
  have hunpin : ∀ pid k, (unpin pid).locks k = [.affinity] := fun pid k => by simp [unpin]
  simp only [reclaim, locks_bind, run_dropChannel, run_unpin, run_update, locks_update, locks_pure, Option.elim_some,
    hunpin, List.mem_append] at h
  rcases h with h | h
  · exact shared_mem_dropChannel h
  · simp at h

theorem mem_locks_decayEntry {l : Lock} {tick : Nat} {e : IpcEntry} {k : Kernel}
    (h : l ∈ (decayEntry tick e).locks k) (hne : l ≠ .affinity) : Looks e ∧ (l = .shared →
      (e.anomalous = true ∨ e.decays = true) ∧ (k.ipc.getChannel e.src e.dst).isSome = true) := by
  simp only [decayEntry] at h
  split at h
  · simp at h
  next hact =>
  have hact : e.active = true := by simpa using hact
  split at h
  · next han =>
    refine ⟨⟨hact, .inl han⟩, fun hl => ⟨.inl han, ?_⟩⟩
    rw [locks_bind, List.mem_append] at h
    rcases h with h | h
    · rw [hl] at h; simp [getChannel] at h
    · rw [run_getChannel, Option.elim_some, locks_bind, locks_update, run_update, Option.elim_some,
        List.nil_append, hl] at h
      have hsome := shared_mem_reclaim h
      exact hsome
  split at h
  · next hd =>
    refine ⟨⟨hact, .inr (.inl hd)⟩, fun hl => ⟨.inr hd, ?_⟩⟩
    rw [locks_bind, locks_update, run_update, Option.elim_some, List.nil_append, hl] at h
    have hsome := shared_mem_reclaim h
    exact hsome
  split at h
  · simp at h
  · next hlt =>
    refine ⟨⟨hact, .inr (.inr (Nat.not_lt.mp hlt))⟩, ?_⟩
    intro h
    obtain rfl := h
    simp [getChannel] at h

/-- The decay loop creates no channel. -/
theorem decayEntry_fast {tick : Nat} {k : Kernel} {log : List PolicyEvent} {e : IpcEntry} {p : Pid × Pid} {id : CapId}
    (h : (ChodOs.decayEntry tick (k, log) e).1.1.ipc.fast[p]? = some id) : k.ipc.fast[p]? = some id := by
  have hdrop : ∀ {p' : Pid × Pid}, (k.ipc.dropChannel e.src e.dst).fast[p']? = some id → k.ipc.fast[p']? = some id := by
    intro p' hp'
    rw [dropChannel_fast] at hp'
    split at hp'
    · cases hp'
    · exact hp'
  have ht := decayEntry_turn tick (k, log) e
  generalize ChodOs.decayEntry tick (k, log) e = r at ht h
  cases ht with
  | idle | kept => exact h
  | anomaly | decay => exact hdrop h

theorem mem_locks_decayAll {l : Lock} {tick : Nat} {es : List IpcEntry} {k : Kernel}
    (h : l ∈ (decayAll tick es).locks k) (hne : l ≠ .affinity) : ∃ e ∈ es, Looks e ∧ (l = .shared →
      (e.anomalous = true ∨ e.decays = true) ∧ (k.ipc.getChannel e.src e.dst).isSome = true) := by
  induction es generalizing k with
  | nil => simp [decayAll] at h
  | cons e es ih =>
    simp only [decayAll, locks_bind, run_decayEntry k tick [] e, Option.elim_some, List.mem_append] at h
    rcases h with h | h | h
    · obtain ⟨hlooks, hshared⟩ := mem_locks_decayEntry h hne
      exact ⟨e, List.mem_cons_self, hlooks, hshared⟩
    · obtain ⟨e', he', hlooks, hshared⟩ := ih h
      refine ⟨e', List.mem_cons_of_mem _ he', hlooks, fun hl => ⟨(hshared hl).1, ?_⟩⟩
      obtain ⟨id, hid⟩ := Option.isSome_iff_exists.mp (hshared hl).2
      exact Option.isSome_iff_exists.mpr ⟨id, decayEntry_fast hid⟩
    · cases hr : (decayAll tick es).run (ChodOs.decayEntry tick (k, []) e).1.1 <;> simp [hr] at h

/-! ## Whole reports -/

/-- What a report finds when it asks for a lock. -/
def Asks (k : Kernel) (tick : Nat) : Lock → Prop
  | .fast => (k.policyEnabled = true ∧ ∃ e ∈ topPairs k.engine.ipcTable.1, e.isHot = true) ∨
      ∃ e ∈ k.engine.ipcTable.1, Looks e
  | .shared => (∃ e ∈ topPairs k.engine.ipcTable.1, MayCreate k tick e) ∨
      ∃ e ∈ k.engine.ipcTable.1, e.active = true ∧ (e.anomalous = true ∨ e.decays = true) ∧
        (k.ipc.getChannel e.src e.dst).isSome = true
  | .affinity => True

instance (k : Kernel) (tick : Nat) (l : Lock) : Decidable (Asks k tick l) := by
  cases l <;> unfold Asks <;> infer_instance

/-- The pairs in cooldown before and after the expired ones are dropped. -/
theorem inEvictCooldown_expire (e : PolicyEngine) (src dst : Pid) (tick : Nat) :
    (e.expireEvictions tick).inEvictCooldown src dst tick = e.inEvictCooldown src dst tick := by
  rw [Bool.eq_iff_iff, PolicyEngine.inEvictCooldown, PolicyEngine.inEvictCooldown, List.any_eq_true, List.any_eq_true]
  constructor
  · intro ⟨v, hv, hp⟩
    exact ⟨v, Slots.mem_of_mem_dropWhere hv, hp⟩
  · intro ⟨v, hv, hp⟩
    simp only [Bool.and_eq_true, decide_eq_true_eq] at hp
    refine ⟨v, Slots.mem_dropWhere _ _ hv (by simpa using hp.2), ?_⟩
    simp only [Bool.and_eq_true, decide_eq_true_eq]
    exact hp

/-- Tuning neither creates channels nor ends cooldowns. -/
theorem MayCreate.of_tune {k : Kernel} {tick : Nat} {e : IpcEntry} (h : MayCreate (k.tune tick).2.1 tick e) :
    MayCreate k tick e := by
  have ht := tune_spec k tick
  refine ⟨h.hot, ht.policyEnabled ▸ h.on, by rw [← ht.ipc]; exact h.absent, ?_⟩
  have hcool := h.cool
  have htable : (k.tune tick).2.1.engine.evictTable = (k.engine.expireEvictions tick).evictTable :=
    (k.profileTuned_frame tick).2.2.1
  rw [PolicyEngine.inEvictCooldown, htable] at hcool
  rw [← inEvictCooldown_expire]
  exact hcool

theorem mem_locks_adaptAndReport {l : Lock} {tick : Nat} {k : Kernel} (h : l ∈ (adaptAndReport tick).locks k) :
    Asks k tick l := by
  by_cases hne : l = .affinity
  · subst hne; trivial
  have ht := tune_spec k tick
  simp only [adaptAndReport, locks_bind, locks_attempt, run_attempt, locks_peek, run_peek, Option.elim_some,
    List.nil_append, List.mem_append, run_promoteAll] at h
  rcases h with h | h
  · rw [ht.ipcTable] at h
    obtain ⟨hon, e, he, hot, hshared⟩ := mem_locks_promoteAll h hne
    rw [ht.policyEnabled] at hon
    cases l with
    | fast => exact .inl ⟨hon, e, he, hot⟩
    | shared => exact .inl ⟨e, he, (hshared rfl).of_tune⟩
    | affinity => exact absurd rfl hne
  rw [ht.ipcTable] at h
  cases hp : ChodOs.promoteAll tick (k.tune tick).2.1 (topPairs k.engine.ipcTable.1) with
  | none => simp [hp] at h
  | some r =>
    obtain ⟨log, k₂⟩ := r
    have hpr := pressure_spec k₂ (k.tune tick).2.2
    have htable : (k₂.pressure (k.tune tick).2.2).2.engine.ipcTable = k.engine.ipcTable :=
      hpr.ipcTable.trans ((promoteAll_spec hp).1.ipcTable.trans ht.ipcTable)
    simp only [hp, Option.map_some, Option.elim_some, locks_update, run_update, List.nil_append, htable] at h
    rw [run_decayAll _ tick [], Option.elim_some] at h
    simp only [Option.elim_some, affinityCount, locks_locked, locks_peek, run_locked, run_peek, locks_pure,
      List.append_nil, List.mem_append, List.mem_singleton] at h
    rcases h with h | h
    · obtain ⟨e, he, hlooks, hshared⟩ := mem_locks_decayAll h hne
      cases l with
      | fast => exact .inr ⟨e, he, hlooks⟩
      | shared =>
        obtain ⟨hreclaim, hsome⟩ := hshared rfl
        obtain ⟨id, hid⟩ := Option.isSome_iff_exists.mp hsome
        rw [IpcState.getChannel, hpr.ipc] at hid
        -- The channel was there before the report, or the report has just created one.
        rcases promoteAll_fast hp hid with hold | ⟨e', he', hc⟩
        · rw [ht.ipc] at hold
          exact .inr ⟨e, he, hlooks.1, hreclaim, Option.isSome_iff_exists.mpr ⟨id, hold⟩⟩
        · exact .inl ⟨e', he', hc.of_tune⟩
      | affinity => exact absurd rfl hne
    · exact absurd h hne

/-- `on_switch` asks for a lock only in a report. -/
theorem mem_locks_onSwitch {l : Lock} {src dst : Pid} {tick : Nat} {k : Kernel}
    (h : l ∈ (onSwitch src dst tick).locks k) :
    k.engine.lastReportTick + k.engine.reportInterval ≤ tick ∧
      Asks { k with engine := { k.engine.countSwitch src dst tick with lastReportTick := tick } } tick l := by
  simp only [onSwitch, locks_bind, locks_update, run_update, locks_peek, run_peek, Option.elim_some, List.nil_append,
    decide_eq_true_eq] at h
  split at h
  · next hdue =>
    simp only [locks_bind, locks_update, run_update, Option.elim_some, List.nil_append] at h
    exact ⟨hdue, mem_locks_adaptAndReport h⟩
  · simp at h

/-- What a report asks for it reads off the pairs, their channels and their cooldowns. -/
theorem Asks.congr {k k' : Kernel} {tick : Nat} {l : Lock} (h : Asks k' tick l)
    (ht : k'.engine.ipcTable = k.engine.ipcTable) (he : k'.engine.evictTable = k.engine.evictTable)
    (hi : k'.ipc = k.ipc) (hp : k'.policyEnabled = k.policyEnabled) : Asks k tick l := by
  have hcreate : ∀ {e : IpcEntry}, MayCreate k' tick e → MayCreate k tick e := by
    intro e hc
    refine ⟨hc.hot, hp ▸ hc.on, hi ▸ hc.absent, ?_⟩
    have hcool := hc.cool
    rw [PolicyEngine.inEvictCooldown, he] at hcool
    exact hcool
  cases l with
  | fast => rw [Asks, ht, hp] at h; exact h
  | shared =>
    rw [Asks, ht, hi] at h
    rcases h with ⟨e, he, hc⟩ | h
    · exact .inl ⟨e, he, hcreate hc⟩
    · exact .inr h
  | affinity => trivial

end Code

end ChodOs
