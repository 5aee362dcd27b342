/-
ML 3 over whole runs: the Q-table stays in a band that the Bellman step maps
into itself, so the `i32` arithmetic of every update fits and every index is
in range, whatever the rewards and the draws of the generator are.
-/
import ChodOs.Policy.Runs

namespace ChodOs

open StepSys

/-! ## One update -/

/-- The band of the Q-values: the fixed points of the least and the greatest reward. -/
def QTable.Bounded (q : QTable) : Prop := ∀ s a, -20000 ≤ q s a ∧ q s a ≤ 12000

/-- The rewards of all four branches. -/
def RewardOk (reward : Int) : Prop := -20 ≤ reward ∧ reward ≤ 12

/-- The number of an action, as the entries hold it. -/
def RlAction.idx : RlAction → Nat
  | .noop => 0
  | .encourage => 1
  | .discourage => 2
  | .pinPush => 3

theorem RlAction.idx_lt (a : RlAction) : a.idx < 4 := by
  cases a <;> decide

theorem rlStateIdx_lt (fAlpha fRate fCold : Nat) : rlStateIdx fAlpha fRate fCold < 36 := by
  have hab : (if 25 ≤ fAlpha then 3 else if 10 ≤ fAlpha then 2 else if 3 ≤ fAlpha then 1 else 0) ≤ 3 := by
    split
    · decide
    · split
      · decide
      · split <;> decide
  have hrb : (if 21 ≤ fRate then 2 else if 6 ≤ fRate then 1 else 0) ≤ 2 := by
    split
    · decide
    · split <;> decide
  have hcb : (if 2 ≤ fCold then 2 else fCold) ≤ 2 := by
    split <;> omega
  simp only [rlStateIdx]
  omega

theorem rowMax_bounded {row : RlAction → Int} (h : ∀ a, -20000 ≤ row a ∧ row a ≤ 12000) :
    -20000 ≤ rowMax row ∧ rowMax row ≤ 12000 := by
  have h₀ := h .noop
  have h₁ := h .encourage
  have h₂ := h .discourage
  have h₃ := h .pinPush
  unfold rowMax
  omega

/-- The target of an update lies in the band. -/
theorem target_bounded {m reward : Int} (hm : -20000 ≤ m ∧ m ≤ 12000) (hr : RewardOk reward) :
    -20000 ≤ reward * 100 + (9 * m).tdiv 10 ∧ reward * 100 + (9 * m).tdiv 10 ≤ 12000 := by
  unfold RewardOk at hr
  rw [tdiv_ten]
  split <;> omega

/-- A tenth of the way from a value of the band to another, rounded towards the former, stays in it. -/
theorem step_bounded {v target : Int} (hv : -20000 ≤ v ∧ v ≤ 12000) (ht : -20000 ≤ target ∧ target ≤ 12000) :
    -20000 ≤ v + (target - v).tdiv 10 ∧ v + (target - v).tdiv 10 ≤ 12000 := by
  rw [tdiv_ten]
  split <;> omega

theorem QTable.Bounded.rlUpdateQ {q : QTable} (h : q.Bounded) (s : Nat) (a : RlAction) {reward : Int}
    (hr : RewardOk reward) (nextS : Nat) : (rlUpdateQ q s a reward nextS).Bounded := by
  intro s' a'
  simp only [ChodOs.rlUpdateQ, Function.update_apply]
  split
  · simp only [Function.update_apply]
    split
    · exact step_bounded (h s a) (target_bounded (rowMax_bounded (h nextS)) hr)
    · exact h s a'
  · exact h s' a'

def FitsI32 (x : Int) : Prop := -2 ^ 31 ≤ x ∧ x < 2 ^ 31

/-- `rl_update_q` indexes inside the table and none of its operations overflows. -/
structure UpdateFits (q : QTable) (s : Nat) (a : RlAction) (reward : Int) (nextS : Nat) : Prop where
  row : s < 36
  nextRow : nextS < 36
  column : a.idx < 4
  immediate : FitsI32 (reward * 100)
  discounted : FitsI32 (9 * rowMax (q nextS))
  target : FitsI32 (reward * 100 + (9 * rowMax (q nextS)).tdiv 10)
  error : FitsI32 (reward * 100 + (9 * rowMax (q nextS)).tdiv 10 - q s a)
  stored : FitsI32 (q s a + (reward * 100 + (9 * rowMax (q nextS)).tdiv 10 - q s a).tdiv 10)

theorem QTable.Bounded.fits {q : QTable} (h : q.Bounded) {s nextS : Nat} (hs : s < 36) (hn : nextS < 36) (a : RlAction)
    {reward : Int} (hr : RewardOk reward) : UpdateFits q s a reward nextS := by
  have hmax := rowMax_bounded (h nextS)
  have ht := target_bounded hmax hr
  have hv := h s a
  have hstep := step_bounded hv ht
  unfold RewardOk at hr
  constructor
  · exact hs
  · exact hn
  · exact a.idx_lt
  all_goals unfold FitsI32; omega

/-! ## Rewards -/

theorem reclaimReward_ok (e : IpcEntry) {pushed other : Int} (hp : RewardOk pushed) (ho : RewardOk other) :
    RewardOk (e.reclaimReward pushed other) := by
  unfold IpcEntry.reclaimReward
  split
  · exact hp
  · exact hp
  · exact ho
  · exact ho

theorem rlComputeReward_ok (action : RlAction) (delta prevDelta : Nat) (channelExists : Bool) :
    RewardOk (rlComputeReward action delta prevDelta channelExists) := by
  unfold RewardOk
  simp only [rlComputeReward]
  split
  · cases action <;> decide
  · cases action <;> simp only <;> split <;> first | decide | (split <;> decide)

/-- The reward of a turn of the decay loop. -/
def turnReward (k : Kernel) (e : IpcEntry) : Int :=
  if e.anomalous then e.reclaimReward (-20) (-5)
  else if e.delta < decayThreshold then
    if decayColdWindows ≤ e.nextCold then e.reclaimReward (-8) (-2) else if e.rlAction = .encourage then -4 else -1
  else rlComputeReward e.rlAction e.delta e.deltaPrev (k.ipc.getChannel e.src e.dst).isSome

theorem turnReward_ok (k : Kernel) (e : IpcEntry) : RewardOk (turnReward k e) := by
  have hsmall : ∀ r : Int, -20 ≤ r → r ≤ 12 → RewardOk r := fun _ h h' => ⟨h, h'⟩
  unfold turnReward
  split
  · exact reclaimReward_ok e (hsmall _ (by decide) (by decide)) (hsmall _ (by decide) (by decide))
  · split
    · split
      · exact reclaimReward_ok e (hsmall _ (by decide) (by decide)) (hsmall _ (by decide) (by decide))
      · split
        · exact hsmall _ (by decide) (by decide)
        · exact hsmall _ (by decide) (by decide)
    · exact rlComputeReward_ok _ _ _ _

/-- A turn over an active entry is one update, with this reward. -/
theorem decayEntry_q (tick : Nat) (st : Kernel × List PolicyEvent) (e : IpcEntry) :
    (decayEntry tick st e).1.1.engine.rlQ = if e.active then
      rlUpdateQ st.1.engine.rlQ e.rlPrevState e.rlAction (turnReward st.1 e) e.nextState else st.1.engine.rlQ := by
  obtain ⟨k, log⟩ := st
  have hrecord : ∀ en r, ((learn en e r).recordEviction e.src e.dst tick).rlQ = (learn en e r).rlQ := by
    intro en r
    obtain ⟨t, ht⟩ := recordEviction_eq (learn en e r) e.src e.dst tick
    rw [ht]
  simp only [decayEntry, turnReward]
  split
  · split
    · exact hrecord _ _
    · split
      · split
        · exact hrecord _ _
        · rfl
      · rfl
  · rfl

/-! ## Whole runs -/

theorem nextState_lt (e : IpcEntry) : e.nextState < 36 := rlStateIdx_lt _ _ _

/-- The kernel as the decay loop finds it after the entries `pre`. -/
def Kernel.midDecay (k : Kernel) (tick : Nat) (pre : List IpcEntry) : Kernel :=
  (Slots.mapAccum (decayEntry tick) (k, []) pre).1.1

theorem QTable.Bounded.midDecay {k : Kernel} (h : k.engine.rlQ.Bounded) (tick : Nat) (pre : List IpcEntry) :
    (k.midDecay tick pre).engine.rlQ.Bounded := by
  refine Slots.mapAccum_invariant (fun st : Kernel × List PolicyEvent => st.1.engine.rlQ.Bounded)
    (fun st e _ hst => ?_) h
  rw [decayEntry_q]
  split
  · exact hst.rlUpdateQ _ _ (turnReward_ok st.1 e) _
  · exact hst

/-- The Q-values are in their band and the entries remember a row of the table. -/
structure Kernel.Learned (k : Kernel) : Prop where
  q : k.engine.rlQ.Bounded
  rows : ∀ e ∈ k.engine.ipcTable.1, e.rlPrevState < 36

theorem Kernel.Learned.report {k k' : Kernel} {tick : Nat} {log : List PolicyEvent} (h : k.Learned)
    (hr : k.adaptAndReport tick = some (log, k')) : k'.Learned := by
  obtain ⟨k₃, hk₃, rfl⟩ := Kernel.adaptAndReport_readied hr
  obtain ⟨htable, hq, -⟩ := (Kernel.beforeDecay_readied hk₃).tables
  have hrows : List.Forall₂ (fun e e' : IpcEntry => e.rlPrevState < 36 → e'.rlPrevState < 36)
      k₃.engine.ipcTable.1 (k₃.decay tick).2.engine.ipcTable.1 := by
    refine Slots.mapAccum_forall₂ (fun st e hlt => ?_) _ _
    rcases decayEntry_entry tick st e with he | ⟨_, _, state, _, hstate, he⟩
    · rw [he]; exact hlt
    · rw [he]
      rcases hstate with rfl | rfl
      · exact hlt
      · exact nextState_lt e
  refine ⟨(hq ▸ h.q : k₃.engine.rlQ.Bounded).midDecay tick k₃.engine.ipcTable.1, fun e' he' => ?_⟩
  obtain ⟨e, he, hlt⟩ := Slots.forall₂_mem_right hrows he'
  exact hlt (h.rows e (htable ▸ he))

theorem Kernel.Learned.keeps : EngineKeeps Kernel.Learned where
  register pid h := by
    obtain ⟨stats, he, -⟩ := PolicyEngine.register_cases _ pid
    rw [he]
    exact ⟨h.q, h.rows⟩
  unregister pid h := ⟨h.q, h.rows⟩
  countSwitch src dst tick h := ⟨h.q, h.rows⟩
  lastReportTick tick h := ⟨h.q, h.rows⟩
  report h hr := h.report hr
  observeIpc src dst count bytes h :=
    ⟨h.q, Table.forall_upsert h.rows (fun _ hlt => hlt) (by show IpcEntry.empty.rlPrevState < 36; decide)⟩
  observeMmap pid h := ⟨h.q, h.rows⟩
  observePageFault pid h := ⟨h.q, h.rows⟩
  setEnabled enabled h := ⟨h.q, h.rows⟩
  world sched ipc affinity h := ⟨h.q, h.rows⟩
  seed rng h := ⟨h.q, h.rows⟩

theorem Kernel.Learned.powerOn (mem : ChannelMem) : (Kernel.powerOn mem).Learned where
  q s a := by
    show -20000 ≤ PolicyEngine.newConst.rlQ s a ∧ PolicyEngine.newConst.rlQ s a ≤ 12000
    simp only [PolicyEngine.newConst]
    split <;> decide
  rows e he := by
    rw [List.eq_of_mem_replicate he]
    decide

/-- In every reachable state of the engine the Q-values lie in [-20000, 12000]
and every row and column number is in range, and no update of the next
report overflows or leaves the table. -/
theorem q_table_is_bounded {mem : ChannelMem} {h : List PolicyEvent} {k : Kernel}
    (hr : Runs Kernel.engineStep free (.powerOn mem) h k) :
    (∀ s a, -20000 ≤ k.engine.rlQ s a ∧ k.engine.rlQ s a ≤ 12000) ∧
    (∀ e ∈ k.engine.ipcTable.1, e.rlPrevState < 36 ∧ e.rlAction.idx < 4) ∧
    (∀ fAlpha fRate fCold, rlStateIdx fAlpha fRate fCold < 36) ∧
    ∀ tick k₃, k.beforeDecay tick = some k₃ → ∀ pre e post, k₃.engine.ipcTable.1 = pre ++ e :: post →
      UpdateFits (k₃.midDecay tick pre).engine.rlQ e.rlPrevState e.rlAction
        (turnReward (k₃.midDecay tick pre) e) e.nextState := by
  have hl : k.Learned := Kernel.Learned.keeps.of_runs (.powerOn mem) hr
  refine ⟨hl.q, fun e he => ⟨hl.rows e he, e.rlAction.idx_lt⟩, rlStateIdx_lt, fun tick k₃ hk₃ pre e post hsplit => ?_⟩
  obtain ⟨htable, hq, -⟩ := (Kernel.beforeDecay_readied hk₃).tables
  have hmem : e ∈ k.engine.ipcTable.1 := by rw [← htable, hsplit]; simp
  have hb : (k₃.midDecay tick pre).engine.rlQ.Bounded := QTable.Bounded.midDecay (hq ▸ hl.q) tick pre
  exact hb.fits (hl.rows e hmem) (nextState_lt e) _ (turnReward_ok _ e)

theorem q_table_is_bounded_firstWindow : ∃ h k, Runs Kernel.engineStep free (.powerOn (.ofFrames 16)) h k ∧
    .evaluated 1 0 30 ∈ h ∧ ∀ s a, -20000 ≤ k.engine.rlQ s a ∧ k.engine.rlQ s a ≤ 12000 := by
  obtain ⟨h, k, hr, hev, -⟩ := runs_firstWindow
  exact ⟨h, k, hr, hev, (q_table_is_bounded hr).1⟩

end ChodOs
