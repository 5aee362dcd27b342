/-
The engine's four tables over whole runs: no two slots in use are about the
same process or pair.
-/
import ChodOs.Policy.Cooldown
import ChodOs.Policy.Runs

namespace ChodOs

open StepSys Slots

/-! ## Statistics -/

theorem keyed_unregister {e : PolicyEngine} (h : Keyed CpuStats.key e.stats.1) (pid : Pid) :
    Keyed CpuStats.key (e.unregister pid).stats.1 := by
  refine h.forall₂ (updateFirst_forall₂ (fun _ _ hk => hk) (fun a _ k hk => ?_) _)
  simp [CpuStats.key] at hk

theorem keyed_countSwitch {e : PolicyEngine} (h : Keyed CpuStats.key e.stats.1) (src dst : Pid) (tick : Nat) :
    Keyed CpuStats.key (e.countSwitch src dst tick).stats.1 := by
  let ran := fun s : CpuStats =>
    { s with ticksRun := s.ticksRun + (tick - s.runStartTick), recentTicks := s.recentTicks + (tick - s.runStartTick) }
  have hran : Keyed CpuStats.key (updateFirst (PolicyEngine.isSlot src) ran e.stats.1) :=
    h.forall₂ (updateFirst_forall₂ (fun _ _ hk => hk) (fun _ _ _ hk => hk) _)
  exact hran.forall₂ (updateFirst_forall₂ (fun _ _ hk => hk) (fun _ _ _ hk => hk) _)

/-! ## Memory -/

/-- The process of an active entry. -/
def MemEntry.key (m : MemEntry) : Option Pid := if m.active then some m.pid else none

theorem MemEntry.key_eq_some {m : MemEntry} {pid : Pid} : m.key = some pid ↔ m.active = true ∧ m.pid = pid := by
  simp [key]

theorem isMem_iff {pid : Pid} {m : MemEntry} : PolicyEngine.isMem pid m = true ↔ m.key = some pid := by
  simp [PolicyEngine.isMem, MemEntry.key_eq_some]

theorem upsertsMem (pid : Pid) : UpsertsKey MemEntry.key pid (PolicyEngine.isMem pid)
    (fun m => { m with mmapCalls := m.mmapCalls + 1 }) { MemEntry.empty with pid, mmapCalls := 1, active := true } where
  hit _ := isMem_iff
  upd _ h := h
  fresh := rfl

theorem keyed_observeMmap {e : PolicyEngine} (h : Keyed MemEntry.key e.memTable.1) (pid : Pid) :
    Keyed MemEntry.key (e.observeMmap pid).memTable.1 :=
  Keyed.upsert _ _ h (upsertsMem pid) (Table.ne_nil e.memTable)

theorem keyed_observePageFault {e : PolicyEngine} (h : Keyed MemEntry.key e.memTable.1) (pid : Pid) :
    Keyed MemEntry.key (e.observePageFault pid).memTable.1 := by
  simp only [PolicyEngine.observePageFault]
  split
  · exact h.forall₂ (updateFirst_forall₂ (fun _ _ hk => hk) (fun _ _ _ hk => hk) _)
  · next hno =>
    refine h.claim rfl fun m hm hk => hno ?_
    exact List.any_eq_true.mpr ⟨m, hm, isMem_iff.mpr hk⟩

/-! ## Reclaimed pairs -/

/-- Every place up to `evict_len` has a pair. -/
def evictKey (v : Pid × Pid × Nat) : Option (Pid × Pid) := some (evictPair v)

theorem keyed_recordEviction {e : PolicyEngine} (h : Keyed evictKey e.evictTable.1) (src dst : Pid) (tick : Nat) :
    Keyed evictKey (e.recordEviction src dst tick).evictTable.1 := by
  rcases e.recordEviction_cases src dst tick with ⟨i, a, hi, hp, he⟩ | ⟨hno, he | ⟨i, a, -, -, he⟩⟩
  · rw [he]
    refine h.set fun p hp' j b hj hkb => ?_
    cases hp'
    exact h j i b a (src, dst) hj hi hkb (congrArg some hp)
  · rw [he]
    refine h.append_singleton fun p hp b hb hkb => ?_
    cases hp
    exact hno b hb (Option.some.inj hkb)
  · rw [he]
    refine h.set fun p hp j b hj hkb => ?_
    cases hp
    exact absurd (Option.some.inj hkb) (hno b (List.mem_of_getElem? hj))

/-- The decay loop records the pairs it reclaims. -/
theorem keyed_decay {k : Kernel} (h : Keyed evictKey k.engine.evictTable.1) (tick : Nat) :
    Keyed evictKey (k.decay tick).2.engine.evictTable.1 := by
  refine mapAccum_invariant (fun st : Kernel × List PolicyEvent => Keyed evictKey st.1.engine.evictTable.1)
    (fun st e _ hst => ?_) h
  have ht := decayEntry_turn tick st e
  generalize decayEntry tick st e = r at ht ⊢
  cases ht with
  | idle => exact hst
  | anomaly | decay => exact @keyed_recordEviction (learn st.1.engine e _) hst e.src e.dst tick
  | kept => exact hst

/-! ## Runs -/

/-- No table has two slots for one key. -/
structure Kernel.KeyedTables (k : Kernel) : Prop where
  stats : Keyed CpuStats.key k.engine.stats.1
  ipc : Keyed IpcEntry.key k.engine.ipcTable.1
  mem : Keyed MemEntry.key k.engine.memTable.1
  evict : Keyed evictKey k.engine.evictTable.1

theorem keyedTables_report {k k' : Kernel} {tick : Nat} {log : List PolicyEvent} (h : k.KeyedTables)
    (hr : k.adaptAndReport tick = some (log, k')) : k'.KeyedTables := by
  have hrep := adaptAndReport_spec hr
  obtain ⟨k₃, hk₃, rfl⟩ := Kernel.adaptAndReport_readied hr
  obtain ⟨-, -, hevict, -, hmem⟩ := (Kernel.beforeDecay_readied hk₃).tables
  obtain ⟨q, rng, evict, hdecay⟩ := decay_engine k₃ tick
  constructor
  · refine h.stats.forall₂ (hrep.stats.imp fun s s' hkept pid hpid => ?_)
    obtain ⟨hact, rfl⟩ := CpuStats.key_eq_some.mp hpid
    obtain ⟨hact', hpid'⟩ := hkept hact
    exact CpuStats.key_eq_some.mpr ⟨hact', hpid'.symm⟩
  · exact hrep.keyed h.ipc
  · rw [hdecay]
    refine h.mem.forall₂ (hmem.imp fun m m' hsame pid hpid => ?_)
    rw [MemEntry.key_eq_some, hsame.1, hsame.2] at hpid
    exact MemEntry.key_eq_some.mpr hpid
  · refine keyed_decay ?_ tick
    rw [hevict]
    exact h.evict.dropWhere _ _ _

theorem engineKeeps_keyedTables : EngineKeeps Kernel.KeyedTables where
  register pid h := by
    obtain ⟨stats, he, -⟩ := PolicyEngine.register_cases _ pid
    refine ⟨PolicyEngine.keyed_register h.stats pid, ?_, ?_, ?_⟩ <;> rw [he]
    exacts [h.ipc, h.mem, h.evict]
  unregister pid h := ⟨keyed_unregister h.stats pid, h.ipc, h.mem, h.evict⟩
  countSwitch src dst tick h := ⟨keyed_countSwitch h.stats src dst tick, h.ipc, h.mem, h.evict⟩
  lastReportTick _ h := ⟨h.stats, h.ipc, h.mem, h.evict⟩
  report h hr := keyedTables_report h hr
  observeIpc src dst count bytes h :=
    ⟨h.stats, PolicyEngine.keyed_observeIpc h.ipc src dst count bytes, h.mem, h.evict⟩
  observeMmap pid h := ⟨h.stats, h.ipc, keyed_observeMmap h.mem pid, h.evict⟩
  observePageFault pid h := ⟨h.stats, h.ipc, keyed_observePageFault h.mem pid, h.evict⟩
  setEnabled _ h := ⟨h.stats, h.ipc, h.mem, h.evict⟩
  world _ _ _ h := ⟨h.stats, h.ipc, h.mem, h.evict⟩
  seed _ h := ⟨h.stats, h.ipc, h.mem, h.evict⟩

theorem keyed_fill {α κ : Type} {key : α → Option κ} {a : α} (h : key a = none) (n : Nat) :
    Keyed key (Table.fill n a).1 := by
  intro i j b c k hi _ hk _
  rw [List.eq_of_mem_replicate (List.mem_of_getElem? hi), h] at hk
  cases hk

theorem keyedTables_powerOn (mem : ChannelMem) : (Kernel.powerOn mem).KeyedTables :=
  ⟨keyed_fill rfl _, keyed_fill rfl _, keyed_fill rfl _, nofun⟩

/-- Whatever calls are made, no process and no pair has two active slots in a table. -/
theorem tables_are_keyed_uniquely {mem : ChannelMem} {h : List PolicyEvent} {k : Kernel}
    (hr : Runs Kernel.engineStep free (.powerOn mem) h k) :
    (∀ (i j : Nat) (a b : CpuStats), k.engine.stats.1[i]? = some a → k.engine.stats.1[j]? = some b →
      a.active = true → b.active = true → a.pid = b.pid → i = j) ∧
    (∀ (i j : Nat) (a b : IpcEntry), k.engine.ipcTable.1[i]? = some a → k.engine.ipcTable.1[j]? = some b →
      a.active = true → b.active = true → (a.src, a.dst) = (b.src, b.dst) → i = j) ∧
    (∀ (i j : Nat) (a b : MemEntry), k.engine.memTable.1[i]? = some a → k.engine.memTable.1[j]? = some b →
      a.active = true → b.active = true → a.pid = b.pid → i = j) ∧
    ∀ (i j : Nat) (a b : Pid × Pid × Nat), k.engine.evictTable.1[i]? = some a → k.engine.evictTable.1[j]? = some b →
      (a.1, a.2.1) = (b.1, b.2.1) → i = j := by
  have hk := engineKeeps_keyedTables.of_runs (keyedTables_powerOn mem) hr
  refine ⟨fun i j a b hi hj ha hb hp => ?_, fun i j a b hi hj ha hb hp => ?_, fun i j a b hi hj ha hb hp => ?_,
    fun i j a b hi hj hp => ?_⟩
  · exact hk.stats i j a b b.pid hi hj (CpuStats.key_eq_some.mpr ⟨ha, hp⟩) (CpuStats.key_eq_some.mpr ⟨hb, rfl⟩)
  · exact hk.ipc i j a b b.pair hi hj (IpcEntry.key_eq_some.mpr ⟨ha, hp⟩) (IpcEntry.key_eq_some.mpr ⟨hb, rfl⟩)
  · exact hk.mem i j a b b.pid hi hj (MemEntry.key_eq_some.mpr ⟨ha, hp⟩) (MemEntry.key_eq_some.mpr ⟨hb, rfl⟩)
  · exact hk.evict i j a b (evictPair b) hi hj (congrArg some hp) rfl

theorem tables_are_keyed_uniquely_firstWindow : ∃ h k, Runs Kernel.engineStep free (.powerOn (.ofFrames 16)) h k ∧
    .evaluated 1 0 30 ∈ h ∧ ∀ (i j : Nat) (a b : IpcEntry), k.engine.ipcTable.1[i]? = some a →
      k.engine.ipcTable.1[j]? = some b → a.active = true → b.active = true → (a.src, a.dst) = (b.src, b.dst) →
      i = j := by
  obtain ⟨h, k, hr, hev, -⟩ := runs_firstWindow
  exact ⟨h, k, hr, hev, (tables_are_keyed_uniquely hr).2.1⟩

end ChodOs
