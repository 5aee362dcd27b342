/-
Who runs next (`switch_to_next`, `switch_to_next_cfs`): one scan over the
ready processes, from the one after the current process round to itself,
finds the first of those that rank highest.
-/
import ChodOs.Sched.Cfs
import ChodOs.Sched.Floor
import Mathlib.Data.Prod.Lex

namespace ChodOs

open StepSys

/-- The weighted choice: the effective priority, then the core. -/
def Process.weightedKey (now cpu : Nat) (p : Process) : Nat ×ₗ Bool :=
  toLex ((p.effectivePriority now).rank, p.sameCpu cpu)

/-- The CFS choice: the less `vruntime` the better, then the core. -/
def Process.cfsKey (cpu : Nat) (p : Process) : (Nat ×ₗ Bool)ᵒᵈ := OrderDual.toDual (toLex (p.vruntime, !p.sameCpu cpu))

namespace Scheduler

/-- Process `i` is the first of the ready ones, in the order of the scan, whose key is greatest. -/
structure FirstBest {κ : Type} [LE κ] (s : Scheduler) (key : Process → κ) (i : Nat) (p : Process) : Prop where
  here : s.processes[i]? = some p
  ready : p.state = .ready
  best : ∀ {j : Nat} {q : Process}, s.processes[j]? = some q → q.state = .ready → key q ≤ key p
  first : ∀ {j : Nat} {q : Process}, s.processes[j]? = some q → q.state = .ready → key p ≤ key q → s.ahead i ≤ s.ahead j

/-- Process `i` is the first of the ready ones that are boosted. -/
structure FirstBoosted (s : Scheduler) (i : Nat) (p : Process) : Prop where
  here : s.processes[i]? = some p
  ready : p.state = .ready
  boosted : 0 < p.boostTicks
  first : ∀ {j : Nat} {q : Process}, s.processes[j]? = some q → q.state = .ready → 0 < q.boostTicks → s.ahead i ≤ s.ahead j

/-- Nobody is ready. -/
def NoneReady (s : Scheduler) : Prop := ∀ i, s.stateAt i ≠ some .ready

/-- From the table `t` the current process goes on. -/
structure Kept (t : Scheduler) (rsp : Nat) (r : Nat × Scheduler) : Prop where
  rsp : r.1 = rsp
  current : r.2.current = t.current
  running : r.2.stateAt t.current = some .running
  others : ∀ {j : Nat}, j ≠ t.current → r.2.processes[j]? = t.processes[j]?

/-- From the table `t` process `i` is started. -/
structure Entered (t : Scheduler) (i : Nat) (p : Process) (tsc : Nat) (r : Nat × Scheduler) : Prop where
  rsp : r.1 = p.preemptRsp
  current : r.2.current = i
  running : r.2.processes[i]? = some { p with state := .running, runStartTs := tsc }
  others : ∀ {j : Nat}, j ≠ i → r.2.processes[j]? = t.processes[j]?

/-- The candidate search of `switch_to_next` is reached. -/
structure Searches (s : Scheduler) (force : Bool) : Prop where
  mode : s.mode ≠ .cfs
  others : 1 < s.processes.length
  spent : force = false → s.remainingQuanta ≤ 1

variable {s : Scheduler} {i now cpu : Nat} {p : Process}

/-! ## The scan -/

theorem noneReady_iff : s.NoneReady ↔ s.candidates = [] := by
  constructor
  · intro hnone
    rw [List.eq_nil_iff_forall_not_mem]
    intro ⟨i, p⟩ hmem
    obtain ⟨hp, hready⟩ := mem_candidates.mp hmem
    exact hnone i (by rw [stateAt, hp, Option.map_some, hready])
  · intro hnil i hi
    obtain ⟨p, hp, hready⟩ := Option.map_eq_some_iff.mp hi
    have hmem := mem_candidates.mpr ⟨hp, hready⟩
    rw [hnil] at hmem
    cases hmem

/-- A candidate no later in the list is no later in the scan. -/
theorem ahead_le_of_index {k l : Nat} {x y : Nat × Process} (hx : s.candidates[k]? = some x)
    (hy : s.candidates[l]? = some y) (hle : k ≤ l) : s.ahead x.1 ≤ s.ahead y.1 := by
  obtain ⟨hk, rfl⟩ := List.getElem?_eq_some_iff.mp hx
  obtain ⟨hl, rfl⟩ := List.getElem?_eq_some_iff.mp hy
  rcases Nat.lt_or_eq_of_le hle with hlt | rfl
  · exact Nat.le_of_lt (List.pairwise_iff_getElem.mp s.candidates_pairwise k l hk hl hlt)
  · exact Nat.le_refl _

theorem firstBest_of_bestIdx {κ : Type} [LinearOrder κ] {key : Process → κ} {beats : Nat × Process → Nat × Process → Bool}
    (hbeats : ∀ x b, beats x b = true ↔ key b.2 < key x.2)
    (h : (s.candidates[Slots.bestIdx beats s.candidates]?).map (·.1) = some i) : ∃ p, s.FirstBest key i p := by
  obtain ⟨⟨_, p⟩, hget, rfl⟩ := Option.map_eq_some_iff.mp h
  have hne : s.candidates ≠ [] := by
    intro hnil
    rw [hnil] at hget
    cases hget
  obtain ⟨y, hy, hall, hbefore⟩ := @Slots.bestIdx_key _ κ _ beats (fun x => key x.2) hbeats _ hne
  obtain rfl : y = (_, p) := Option.some.inj (hy.symm.trans hget)
  obtain ⟨hp, hready⟩ := mem_candidates.mp (List.mem_of_getElem? hget)
  refine ⟨p, hp, hready, fun hq hqready => hall _ (mem_candidates.mpr ⟨hq, hqready⟩), fun {j q} hq hqready hle => ?_⟩
  obtain ⟨k, hk⟩ := List.mem_iff_getElem?.mp (mem_candidates.mpr ⟨hq, hqready⟩)
  -- An earlier one would rank lower.
  have hlater : Slots.bestIdx beats s.candidates ≤ k := Nat.le_of_not_lt fun hlt =>
    absurd hle (not_le.mpr (hbefore k (j, q) hk hlt))
  exact ahead_le_of_index hget hk hlater

theorem pickWeighted_firstBest (h : s.pickWeighted now cpu = some i) :
    ∃ p, s.FirstBest (Process.weightedKey now cpu) i p := by
  refine firstBest_of_bestIdx (fun x b => ?_) h
  rw [Process.weightedKey, Process.weightedKey, Prod.Lex.toLex_lt_toLex, Bool.lt_iff]
  simp only [Bool.or_eq_true, Bool.and_eq_true, decide_eq_true_eq, beq_iff_eq, Bool.not_eq_true']
  exact or_congr_right ⟨fun ⟨⟨h₁, h₂⟩, h₃⟩ => ⟨h₁.symm, h₃, h₂⟩, fun ⟨h₁, h₃, h₂⟩ => ⟨⟨h₁.symm, h₂⟩, h₃⟩⟩

theorem pickCfs_first (h : s.pickCfs cpu = some i) :
    (∃ p, s.FirstBoosted i p) ∨
      (∀ {j : Nat} {q : Process}, s.processes[j]? = some q → q.state = .ready → q.boostTicks = 0) ∧
        ∃ p, s.FirstBest (Process.cfsKey cpu) i p := by
  simp only [pickCfs] at h
  cases hboost : s.candidates.find? (0 < ·.2.boostTicks) with
  | some x =>
    rw [hboost, Option.some_or, Option.map_some, Option.some.injEq] at h
    subst h
    obtain ⟨i, p⟩ := x
    obtain ⟨hboosted, before, after, heq, hnot⟩ := List.find?_eq_some_iff_append.mp hboost
    obtain ⟨hp, hready⟩ := mem_candidates.mp (List.mem_of_find?_eq_some hboost)
    refine .inl ⟨p, hp, hready, of_decide_eq_true hboosted, fun {j q} hq hqready hqboost => ?_⟩
    have hmem := mem_candidates.mpr ⟨hq, hqready⟩
    have hpair := s.candidates_pairwise
    rw [heq] at hmem hpair
    rcases List.mem_append.mp hmem with hmem | hmem
    · have hfalse := hnot _ hmem
      rw [decide_eq_true hqboost] at hfalse
      cases hfalse
    · rcases List.mem_cons.mp hmem with he | hmem
      · cases he
        exact Nat.le_refl _
      · exact Nat.le_of_lt ((List.pairwise_cons.mp (List.pairwise_append.mp hpair).2.1).1 _ hmem)
  | none =>
    rw [hboost, Option.none_or] at h
    refine .inr ⟨fun hq hqready => ?_, firstBest_of_bestIdx (fun x b => ?_) h⟩
    · have hnot := List.find?_eq_none.mp hboost _ (mem_candidates.mpr ⟨hq, hqready⟩)
      simpa using hnot
    · rw [Process.cfsKey, Process.cfsKey, OrderDual.toDual_lt_toDual, Prod.Lex.toLex_lt_toLex, Bool.lt_iff]
      simp only [Bool.or_eq_true, Bool.and_eq_true, decide_eq_true_eq, beq_iff_eq, Bool.not_eq_true',
        Bool.not_eq_false']
      exact or_congr_right ⟨fun ⟨⟨h₁, h₂⟩, h₃⟩ => ⟨h₁, h₂, h₃⟩, fun ⟨h₁, h₂, h₃⟩ => ⟨⟨h₁, h₂⟩, h₃⟩⟩

/-! ## The switch -/

theorem kept_stay (t : Scheduler) (rsp quanta : Nat) : t.Kept rsp (rsp, { t with remainingQuanta := quanta }.stay) where
  rsp := rfl
  current := rfl
  running := by
    have hcur := t.current_lt
    simp [stateAt, stay, updateCurrent, hcur]
  others hne := by simp [stay, updateCurrent, Ne.symm hne]

theorem entered_enter {t : Scheduler} (hp : t.processes[i]? = some p) (quanta tsc : Nat) :
    t.Entered i p tsc ({ t with remainingQuanta := quanta }.enter i tsc) := by
  rw [Switched.enter_eq (s := { t with remainingQuanta := quanta }) hp]
  exact ⟨rfl, rfl, by simp [hp], fun hne => by simp [Ne.symm hne]⟩

theorem quanta_enter (s : Scheduler) (i tsc : Nat) : (s.enter i tsc).2.remainingQuanta = s.remainingQuanta := by
  unfold enter
  split <;> rfl

/-- What the weighted search makes of the table `t`. -/
inductive WeightedChoice (t : Scheduler) (rsp : Nat) (c : Clock) (r : Nat × Scheduler) : Prop
  | kept : t.NoneReady → t.Kept rsp r → r.2.remainingQuanta = 1 → WeightedChoice t rsp c r
  | chosen {i : Nat} {p : Process} : t.FirstBest (Process.weightedKey c.tick c.cpu) i p → t.Entered i p c.tscIn r →
      r.2.remainingQuanta = max 1 (p.effectivePriority c.tick).weight → WeightedChoice t rsp c r

/-- What the search of CFS makes of it. -/
inductive CfsChoice (t : Scheduler) (rsp : Nat) (c : Clock) (r : Nat × Scheduler) : Prop
  | kept : t.NoneReady → t.Kept rsp r → CfsChoice t rsp c r
  | boosted {i : Nat} {p : Process} : t.FirstBoosted i p → t.Entered i p c.tscIn r → CfsChoice t rsp c r
  | least {i : Nat} {p : Process} :
      (∀ {j : Nat} {q : Process}, t.processes[j]? = some q → q.state = .ready → q.boostTicks = 0) →
      t.FirstBest (Process.cfsKey c.cpu) i p → t.Entered i p c.tscIn r → CfsChoice t rsp c r

theorem switchToNextWeighted_choice (t : Scheduler) (rsp : Nat) (c : Clock) :
    t.WeightedChoice rsp c (t.switchToNextWeighted rsp c) := by
  unfold switchToNextWeighted
  cases hpick : t.pickWeighted c.tick c.cpu with
  | none =>
    rcases pickWeighted_cases t c.tick c.cpu with ⟨-, hnil⟩ | ⟨x, -, hx⟩
    · exact .kept (noneReady_iff.mpr hnil) (kept_stay t rsp 1) rfl
    · cases hpick.symm.trans hx
  | some i =>
    obtain ⟨p, hbest⟩ := pickWeighted_firstBest hpick
    refine .chosen hbest (entered_enter hbest.here _ c.tscIn) ?_
    dsimp only
    rw [quanta_enter, hbest.here, Nat.max_comm]
    rfl

theorem switchToNextCfs_choice (t : Scheduler) (rsp : Nat) (c : Clock) : t.CfsChoice rsp c (t.switchToNextCfs rsp c) := by
  unfold switchToNextCfs
  cases hpick : t.pickCfs c.cpu with
  | none =>
    rcases pickCfs_cases t c.cpu with ⟨-, hnil⟩ | ⟨x, -, hx⟩
    · exact .kept (noneReady_iff.mpr hnil) (kept_stay t rsp t.remainingQuanta)
    · cases hpick.symm.trans hx
  | some i =>
    rcases pickCfs_first hpick with ⟨p, hboosted⟩ | ⟨hnone, p, hbest⟩
    · exact .boosted hboosted (entered_enter hboosted.here t.remainingQuanta c.tscIn)
    · exact .least hnone hbest (entered_enter hbest.here t.remainingQuanta c.tscIn)

end Scheduler

open Scheduler

/-- The candidate search starts the first process, in the order of the scan,
of those with the greatest effective priority and then the right core, and
gives it its quanta; with nobody ready the current one goes on for one more. -/
theorem weighted_selection {s : Scheduler} {force : Bool} (h : s.Searches force) (rsp : Nat) (c : Clock) :
    (s.wakeAll c.tick).WeightedChoice rsp c (s.switchToNext rsp force c) := by
  have hlen : ¬(s.wakeAll c.tick).processes.length ≤ 1 := by
    have := h.others
    simp only [wakeAll, List.length_map]
    omega
  have hquanta : ¬((s.wakeAll c.tick).mode ≠ .cfs ∧ (!force) = true ∧ 1 < (s.wakeAll c.tick).remainingQuanta) := by
    intro h
    obtain ⟨-, hforce, hlt⟩ := h
    have := h.spent (by simpa using hforce)
    exact absurd hlt (by simpa [wakeAll] using this)
  have hmode : (s.wakeAll c.tick).mode ≠ .cfs := h.mode
  simp only [switchToNext]
  rw [if_neg hlen, if_neg hquanta, if_neg hmode]
  exact switchToNextWeighted_choice _ rsp c

/-- The second of two ready processes is of the higher priority. -/
theorem weighted_selection_two : ∃ r, r = (((Scheduler.init.spawn (.new 1 10)).spawn { Process.new 2 20 with
    priority := .high }).switchToNext 0 true (atTsc 5)) ∧ r.2.current = 2 ∧ r.2.remainingQuanta = 4 ∧
    (((Scheduler.init.spawn (.new 1 10)).spawn { Process.new 2 20 with priority := .high }).wakeAll 0).WeightedChoice 0
      (atTsc 5) r :=
  ⟨_, rfl, by decide, by decide, @weighted_selection _ true ⟨by decide, by decide, nofun⟩ 0 (atTsc 5)⟩

/-! ## CFS accounting -/

namespace Scheduler

variable {s s' : Scheduler} {rsp : Nat} {voluntary : Bool} {c : Clock}

def vruntimes (s : Scheduler) : List Nat := s.processes.map (·.vruntime)

/-- What is stored is a `u64`. -/
def VruntimesFit (s : Scheduler) : Prop := ∀ v ∈ s.vruntimes, v ≤ u64Max

instance (s : Scheduler) : Decidable s.VruntimesFit := inferInstanceAs (Decidable (∀ v ∈ s.vruntimes, v ≤ u64Max))

/-- CFS is not entered anew, and the process that is spawned is one that can be. -/
def KeepsEpoch (_ : List SchedEvent) (_ : Scheduler) : SchedOp → Prop
  | .setMode mode => mode ≠ .cfs
  | .spawn p => p.vruntime ≤ u64Max
  | _ => True

instance (h : List SchedEvent) (s : Scheduler) : ∀ op, Decidable (KeepsEpoch h s op)
  | .setMode mode => inferInstanceAs (Decidable (mode ≠ .cfs))
  | .spawn p => inferInstanceAs (Decidable (p.vruntime ≤ u64Max))
  | .kill _ | .preempt _ _ _ | .exit _ _ | .sleep _ | .keyboardBoost | .boostPid _ _ | .setPriority _ _
  | .setPreferredCpu _ _ => .isTrue trivial

/-- Every place has a `vruntime` that is no less. -/
def VruntimesGrow (s s' : Scheduler) : Prop :=
  ∀ {i v : Nat}, s.vruntimes[i]? = some v → ∃ v', s'.vruntimes[i]? = some v' ∧ v ≤ v'

theorem vruntimesGrow_of_eq (h : s'.vruntimes = s.vruntimes) : s.VruntimesGrow s' := fun hv =>
  ⟨_, by rw [h]; exact hv, Nat.le_refl _⟩

theorem VruntimesGrow.trans {s₁ s₂ s₃ : Scheduler} (h : s₁.VruntimesGrow s₂) (h' : s₂.VruntimesGrow s₃) :
    s₁.VruntimesGrow s₃ := by
  intro i v hv
  obtain ⟨v₂, hv₂, hle⟩ := h hv
  obtain ⟨v₃, hv₃, hle'⟩ := h' hv₂
  exact ⟨v₃, hv₃, hle.trans hle'⟩

theorem VruntimesFit.of_eq (hf : s.VruntimesFit) (h : s'.vruntimes = s.vruntimes) : s'.VruntimesFit := by
  unfold VruntimesFit
  rw [h]
  exact hf

/-- A switch charges nobody. -/
theorem Switched.vruntimes {force : Bool} {r : Nat × Scheduler} (h : Switched s rsp force c r) :
    r.2.vruntimes = s.vruntimes := by
  have hwake : (s.wakeAll c.tick).vruntimes = s.vruntimes := by
    simp only [Scheduler.vruntimes, wakeAll, List.map_map]
    congr 1
    funext p
    simp only [Function.comp_apply, Process.wake]
    split <;> rfl
  rw [← hwake]
  cases h with
  | stay quanta _ => exact map_updateCurrent fun _ => rfl
  | enter quanta hp _ =>
    rw [Switched.enter_eq (s := { s.wakeAll c.tick with remainingQuanta := quanta }) hp]
    exact Slots.map_modify (f := fun p : Process => { p with state := .running, runStartTs := c.tscIn })
      (fun _ => rfl) _ _

/-- The process that leaves is charged under CFS. -/
theorem leave_vruntime (mode : SchedMode) (p : Process) : (p.leave mode rsp voluntary c).vruntime =
    if mode = .cfs then ({ p with boostTicks := p.boostTicks - 1 }.charge c).vruntime else p.vruntime := by
  have key : ∀ q l : Process, l = (if 0 < q.pendingSleepTicks then
      { q with pendingSleepTicks := 0, state := .blocked, wakeAtTick := c.tick + q.pendingSleepTicks }
      else { q with state := .ready, readySinceTick := c.tick }) → l.vruntime = q.vruntime := by
    intro q l hl
    split at hl <;> subst hl <;> rfl
  refine (key _ _ rfl).trans ?_
  cases voluntary <;> cases mode <;> rfl

theorem doPreempt_vruntimes : (s.doPreempt rsp voluntary c).2.vruntimes =
    (s.updateCurrent (Process.leave s.mode rsp voluntary c)).vruntimes :=
  (switched_switchToNext (s.updateCurrent (Process.leave s.mode rsp voluntary c)) rsp voluntary c).vruntimes

/-- The others are not charged. -/
theorem doPreempt_vruntimes_other {j : Nat} (hj : j ≠ s.current) :
    (s.doPreempt rsp voluntary c).2.vruntimes[j]? = s.vruntimes[j]? := by
  rw [doPreempt_vruntimes, vruntimes, vruntimes, List.getElem?_map, List.getElem?_map, get_updateCurrent_other _ _ hj]

/-- The steps of a charge, each of them a `u64` operation that neither wraps nor divides by zero. -/
structure ChargeFits (c : Clock) (p : Process) : Prop where
  elapsed : c.tscOut - p.runStartTs ≤ u64Max
  product : satMul (c.tscOut - p.runStartTs) nice0Weight ≤ u64Max
  weight : 0 < max (p.effectivePriority c.tick).cfsWeight 1 ∧ max (p.effectivePriority c.tick).cfsWeight 1 ≤ u64Max
  delta : satMul (c.tscOut - p.runStartTs) nice0Weight / max (p.effectivePriority c.tick).cfsWeight 1 ≤ u64Max
  sum : (p.charge c).vruntime ≤ u64Max

theorem chargeFits {p : Process} (htsc : c.tscOut ≤ u64Max) : ChargeFits c p where
  elapsed := (Nat.sub_le _ _).trans htsc
  product := Nat.min_le_right _ _
  weight := by cases p.effectivePriority c.tick <;> decide
  delta := (Nat.div_le_self _ _).trans (Nat.min_le_right _ _)
  sum := Nat.min_le_right _ _

/-- A charge that starts from a `u64` adds to it. -/
theorem charge_le {p : Process} (h : p.vruntime ≤ u64Max) : p.vruntime ≤ (p.charge c).vruntime :=
  Nat.le_min.mpr ⟨Nat.le_add_right _ _, h⟩

theorem leave_vruntime_le {p : Process} (mode : SchedMode) (h : p.vruntime ≤ u64Max) :
    p.vruntime ≤ (p.leave mode rsp voluntary c).vruntime ∧ (p.leave mode rsp voluntary c).vruntime ≤ u64Max := by
  rw [leave_vruntime]
  split
  · exact ⟨charge_le (p := { p with boostTicks := p.boostTicks - 1 }) h, Nat.min_le_right _ _⟩
  · exact ⟨Nat.le_refl _, h⟩

theorem vruntimes_spawn (s : Scheduler) (p : Process) : ∃ v, (s.spawn p).vruntimes = s.vruntimes ++ [v] ∧
    (s.VruntimesFit → p.vruntime ≤ u64Max → v ≤ u64Max) := by
  simp only [spawn, vruntimes, List.map_append, List.map_singleton]
  refine ⟨_, rfl, fun hf hp => ?_⟩
  split
  · dsimp only
    cases hmin : ((s.processes.filter (·.state = .ready)).map (·.vruntime)).min? with
    | none => exact hp
    | some v =>
      obtain ⟨q, hq, rfl⟩ := List.mem_map.mp (List.min?_mem hmin)
      exact hf _ (List.mem_map_of_mem (List.mem_of_mem_filter hq))
  · exact hp

/-- A call takes nothing off any `vruntime`. -/
theorem step_vruntimes {h es : List SchedEvent} {op : SchedOp} (hf : s.VruntimesFit) (hok : KeepsEpoch h s op)
    (hs : s.step op = some (es, s')) : s'.VruntimesFit ∧ s.VruntimesGrow s' := by
  have hsame : ∀ {t : Scheduler}, t.vruntimes = s.vruntimes → t.VruntimesFit ∧ s.VruntimesGrow t :=
    fun he => ⟨hf.of_eq he, vruntimesGrow_of_eq he⟩
  cases op with
  | spawn p =>
    cases hs
    obtain ⟨v, hv, hfit⟩ := vruntimes_spawn s p
    refine ⟨fun w hw => ?_, fun {i w} hw => ⟨w, ?_, Nat.le_refl _⟩⟩
    · rw [hv, List.mem_append, List.mem_singleton] at hw
      rcases hw with hw | rfl
      · exact hf w hw
      · exact hfit hf hok
    · rw [hv, List.getElem?_append_left (List.getElem?_eq_some_iff.mp hw).1]
      exact hw
  | preempt rsp voluntary c =>
    cases hs
    have hleave := @leave_vruntime_le rsp voluntary c s.cur s.mode (hf _ (List.mem_map_of_mem (List.get_mem _ _)))
    have hother : ∀ {i}, i ≠ s.current → (s.doPreempt rsp voluntary c).2.vruntimes[i]? = s.vruntimes[i]? :=
      doPreempt_vruntimes_other
    have hcur : (s.doPreempt rsp voluntary c).2.vruntimes[s.current]? =
        some (s.cur.leave s.mode rsp voluntary c).vruntime := by
      rw [doPreempt_vruntimes, vruntimes, List.getElem?_map, get_updateCurrent, Option.map_some]
    refine ⟨fun v hv => ?_, fun {i v} hv => ?_⟩
    · obtain ⟨i, hi⟩ := List.mem_iff_getElem?.mp hv
      by_cases hic : i = s.current
      · rw [hic, hcur, Option.some.injEq] at hi
        exact hi ▸ hleave.2
      · rw [hother hic] at hi
        exact hf v (List.mem_of_getElem? hi)
    · by_cases hic : i = s.current
      · subst hic
        rw [vruntimes, List.getElem?_map, cur_eq, Option.map_some, Option.some.injEq] at hv
        exact ⟨_, hcur, hv ▸ hleave.1⟩
      · exact ⟨v, (hother hic).trans hv, Nat.le_refl _⟩
  | exit rsp c =>
    cases hs
    refine hsame ((switched_switchToNext { s.updateCurrent fun p => { p with state := .dead, preemptRsp := rsp } with
      remainingQuanta := 0 } rsp true c).vruntimes.trans ?_)
    exact map_updateCurrent (s := s) (f := fun p => { p with state := .dead, preemptRsp := rsp }) fun _ => rfl
  | kill pid => cases hs; exact hsame (map_updatePid pid fun _ => rfl)
  | sleep ticks => cases hs; exact hsame (map_updateCurrent fun _ => rfl)
  | keyboardBoost =>
    cases hs
    unfold keyboardBoost
    split
    · exact hsame rfl
    · exact hsame (map_updateCurrent fun _ => rfl)
  | boostPid pid ticks =>
    cases hs
    refine hsame (map_updatePid pid fun p => ?_)
    split <;> rfl
  | setPriority pid pri => cases hs; exact hsame (map_updatePid pid fun _ => rfl)
  | setPreferredCpu pid cpu => cases hs; exact hsame (map_updatePid pid fun _ => rfl)
  | setMode mode =>
    cases hs
    exact hsame (by rw [setMode, if_neg hok]; rfl)

/-- Until CFS is entered anew nothing is taken off any `vruntime`. -/
theorem vruntimesGrow_of_runs {h : List SchedEvent} (hf : s.VruntimesFit) (hr : Runs step KeepsEpoch s h s') :
    s.VruntimesGrow s' := by
  refine (hr.invariant (fun _ t => t.VruntimesFit ∧ s.VruntimesGrow t) ⟨hf, vruntimesGrow_of_eq rfl⟩ ?_).2
  intro h t op es t' hi hok hs
  obtain ⟨hfit, hgrow⟩ := step_vruntimes hi.1 hok hs
  exact ⟨hfit, VruntimesGrow.trans hi.2 hgrow⟩

end Scheduler

/-- The search of CFS starts the first boosted process, else the first of those
with the least `vruntime` and then the right core. A switch charges no process
but the one that leaves; until CFS is entered anew no `vruntime` gets less; and
the charge fits its words for any values of the counter. -/
theorem cfs_selection {s : Scheduler} (hf : s.VruntimesFit) :
    (∀ rsp c, s.CfsChoice rsp c (s.switchToNextCfs rsp c)) ∧
    (s.mode = .cfs → ∀ (rsp : Nat) (voluntary : Bool) (c : Clock) (j : Nat), j ≠ s.current →
      (s.doPreempt rsp voluntary c).2.vruntimes[j]? = s.vruntimes[j]?) ∧
    (∀ h s', Runs Scheduler.step KeepsEpoch s h s' → s.VruntimesGrow s') ∧
    ∀ c : Clock, c.tscOut ≤ u64Max → ChargeFits c { s.cur with boostTicks := s.cur.boostTicks - 1 } :=
  ⟨switchToNextCfs_choice s, fun _ _ _ _ _ => doPreempt_vruntimes_other, fun _ _ => vruntimesGrow_of_runs hf,
    fun _ => chargeFits⟩

/-- With two processes in the table. -/
theorem cfs_selection_two : ((Scheduler.init.setMode .cfs).spawn (.new 1 10)).vruntimes = [0, 0] ∧
    (∀ h s', Runs Scheduler.step KeepsEpoch ((Scheduler.init.setMode .cfs).spawn (.new 1 10)) h s' →
      ((Scheduler.init.setMode .cfs).spawn (.new 1 10)).VruntimesGrow s') :=
  ⟨by decide, (cfs_selection (s := (Scheduler.init.setMode .cfs).spawn (.new 1 10)) (by decide)).2.2.1⟩

end ChodOs
