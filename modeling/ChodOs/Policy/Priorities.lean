/-
How often a process's priority changes. The average of its yields changes it
at most once in three reports, by the cooldown in its statistics slot; the
push of a hot pair and the boost of a process that maps much memory do not
ask that cooldown.
-/
import ChodOs.Policy.Runs
import ChodOs.Policy.Seats

namespace ChodOs

open StepSys Slots

/-! ## Changes -/

/-- The priorities a report set for a process, in order. -/
def callsFor (pid : Pid) (log : List PolicyEvent) : List Priority :=
  log.filterMap fun
    | .prioritySet q pri => if q = pid then some pri else none
    | _ => none

/-- How many of the calls change the priority of a process that is in the table. -/
def changesFrom : Option Priority → List Priority → Nat
  | none, _ => 0
  | some _, [] => 0
  | some p, q :: qs => (if p = q then 0 else 1) + changesFrom (some q) qs

/-- A report: the process table before it and what it did. -/
structure Window where
  sched : Scheduler
  log : List PolicyEvent

/-- How often the report changed the process's priority. -/
def Window.changes (w : Window) (pid : Pid) : Nat :=
  changesFrom ((w.sched.find pid).map (·.priority)) (callsFor pid w.log)

theorem callsFor_append (pid : Pid) (l l' : List PolicyEvent) :
    callsFor pid (l ++ l') = callsFor pid l ++ callsFor pid l' := List.filterMap_append

theorem mem_callsFor {pid : Pid} {pri : Priority} {l : List PolicyEvent} :
    pri ∈ callsFor pid l ↔ .prioritySet pid pri ∈ l := by
  simp only [callsFor, List.mem_filterMap]
  constructor
  · intro ⟨ev, hev, h⟩
    split at h
    · split at h
      · next hq => cases h; exact hq ▸ hev
      · cases h
    · cases h
  · intro h
    exact ⟨_, h, by simp⟩

theorem callsFor_eq_nil {pid : Pid} {l : List PolicyEvent} (h : ∀ pri, .prioritySet pid pri ∉ l) :
    callsFor pid l = [] :=
  List.eq_nil_iff_forall_not_mem.mpr fun pri hpri => h pri (mem_callsFor.mp hpri)

theorem changesFrom_none (qs : List Priority) : changesFrom none qs = 0 := by simp [changesFrom]

/-- Calls that repeat the priority change nothing. -/
theorem changesFrom_const {p : Priority} {qs : List Priority} (h : ∀ q ∈ qs, q = p) : changesFrom (some p) qs = 0 := by
  induction qs with
  | nil => rfl
  | cons q qs ih =>
    obtain rfl := h q List.mem_cons_self
    simp only [changesFrom, if_pos, Nat.zero_add]
    exact ih fun q' hq' => h q' (List.mem_cons_of_mem _ hq')

/-- The calls lead from one table to the other. -/
def Sets (pid : Pid) (s s' : Scheduler) (calls : List Priority) : Prop :=
  (s'.find pid).map (·.priority) = (s.find pid).map fun p => calls.getLast?.getD p.priority

theorem Sets.refl (pid : Pid) (s : Scheduler) : Sets pid s s [] := rfl

theorem Sets.trans {pid : Pid} {s₁ s₂ s₃ : Scheduler} {ps qs : List Priority} (h : Sets pid s₁ s₂ ps)
    (h' : Sets pid s₂ s₃ qs) : Sets pid s₁ s₃ (ps ++ qs) := by
  have hmap : (s₂.find pid).map (fun p => qs.getLast?.getD p.priority) =
      ((s₂.find pid).map (·.priority)).map fun pri => qs.getLast?.getD pri := by
    rw [Option.map_map]
    rfl
  unfold Sets at h h' ⊢
  rw [h', hmap, h, Option.map_map]
  refine congrArg (Option.map · _) (funext fun p => ?_)
  simp only [Function.comp_def, List.getLast?_append]
  cases qs.getLast? <;> rfl

theorem sets_setPriority (pid q : Pid) (s : Scheduler) (pri : Priority) :
    Sets pid s (s.setPriority q pri) (callsFor pid [.prioritySet q pri]) := by
  unfold Sets
  rw [Scheduler.find_setPriority]
  by_cases he : q = pid
  · subst he
    rw [if_pos rfl, Option.map_map]
    simp [callsFor, Function.comp_def]
  · rw [if_neg (Ne.symm he)]
    simp [callsFor, he]

theorem sets_setPreferredCpu (pid q : Pid) (s : Scheduler) (cpu : Nat) : Sets pid s (s.setPreferredCpu q cpu) [] := by
  unfold Sets
  rw [Scheduler.find_setPreferredCpu]
  split
  · rw [Option.map_map]; rfl
  · rfl

/-! ## The average -/

/-- The average of voluntary yields the report computes for a slot. -/
def CpuStats.nextVolEma (s : CpuStats) (sched : Scheduler) : Nat :=
  let (vol, forced) := (sched.getStats s.pid).getD (0, 0)
  let curVol10 := if vol + forced = 0 then s.volEma else vol * 1000 / (vol + forced)
  ema (alphaLevels.getD s.alphaLevel 0) curVol10 s.volEma

theorem tuneAlpha_priCooldown (curVol10 totalSched : Nat) (s : CpuStats) :
    (tuneAlpha curVol10 totalSched s).priCooldown = s.priCooldown := by
  simp only [tuneAlpha]
  split <;> rfl

/-- What the loop over the processes does for one of them: a priority is set
and two more reports are left of the cooldown, or the cooldown runs on. -/
inductive EmaTurn (enabled : Bool) (cur pri : Priority) (cool cool' : Nat) : List Priority → Prop
  | set : enabled = true → cur ≠ pri → cool = 0 → cool' = 2 → EmaTurn enabled cur pri cool cool' [pri]
  | keep : (enabled = true → cool = 0 → cur = pri) → cool ≤ cool' + 1 → EmaTurn enabled cur pri cool cool' []

/-- A turn for the slot of the process. -/
theorem scanProcess_turn (enabled : Bool) (window : Nat) (st : CpuScan) {s : CpuStats} {pid : Pid}
    (hs : s.key = some pid) : ∃ calls,
      EmaTurn enabled (st.sched.getPriority pid) (volPriority (s.nextVolEma st.sched)) s.priCooldown
        (scanProcess enabled window st s).2.priCooldown calls ∧
      callsFor pid (scanProcess enabled window st s).1.log = callsFor pid st.log ++ calls := by
  obtain ⟨hact, rfl⟩ := CpuStats.key_eq_some.mp hs
  simp only [scanProcess, CpuStats.nextVolEma]
  rw [if_pos hact]
  generalize (st.sched.getStats s.pid).getD (0, 0) = vf
  obtain ⟨vol, forced⟩ := vf
  simp only
  generalize (if vol + forced = 0 then s.volEma else vol * 1000 / (vol + forced)) = cur
  generalize ema (alphaLevels.getD s.alphaLevel 0) cur s.volEma = volEma
  have hpid := (tuneAlpha_slot cur (vol + forced) { s with volEma }).1
  have hcool := tuneAlpha_priCooldown cur (vol + forced) { s with volEma }
  generalize tuneAlpha cur (vol + forced) { s with volEma } = t at hpid hcool ⊢
  have hpid : t.pid = s.pid := hpid
  have hcool : t.priCooldown = s.priCooldown := hcool
  cases enabled with
  | false => exact ⟨[], .keep (fun hon => by cases hon) (by simp [hcool]), by simp⟩
  | true =>
    simp only [if_pos, applyPriority, hpid, hcool]
    split
    · next h =>
      refine ⟨_, .set rfl h.1 h.2 rfl, ?_⟩
      rw [callsFor_append]
      simp [callsFor]
    · next h =>
      refine ⟨[], .keep (fun _ h0 => ?_) ?_, by simp⟩
      · exact Decidable.not_not.mp fun hne => h ⟨hne, h0⟩
      · simp only [hcool]; omega

/-- A turn for another slot. -/
theorem scanProcess_other (enabled : Bool) (window : Nat) (st : CpuScan) {s : CpuStats} {pid : Pid}
    (hs : s.key ≠ some pid) : callsFor pid (scanProcess enabled window st s).1.log = callsFor pid st.log ∧
      (scanProcess enabled window st s).1.sched.find pid = st.sched.find pid := by
  rcases (scanProcess_spec enabled window st s).2.2 with ⟨hsc, hl⟩ | ⟨ha, -, ⟨hsc, hl⟩ | ⟨pri, hsc, hl⟩⟩
  · rw [hsc, hl]; exact ⟨rfl, rfl⟩
  · rw [hsc, hl]; exact ⟨rfl, rfl⟩
  · have hne : pid ≠ s.pid := fun he => hs (CpuStats.key_eq_some.mpr ⟨ha, he.symm⟩)
    rw [hsc, hl, Scheduler.find_setPriority, if_neg hne, callsFor_append]
    exact ⟨by simp [callsFor, hne.symm], rfl⟩

theorem scan_others {enabled : Bool} {window : Nat} {l : List CpuStats} {pid : Pid} (h : ∀ s ∈ l, s.key ≠ some pid)
    (st : CpuScan) : callsFor pid (mapAccum (scanProcess enabled window) st l).1.log = callsFor pid st.log ∧
      (mapAccum (scanProcess enabled window) st l).1.sched.find pid = st.sched.find pid := by
  refine mapAccum_invariant (fun st' : CpuScan => callsFor pid st'.log = callsFor pid st.log ∧
    st'.sched.find pid = st.sched.find pid) (fun st' s hs hst => ?_) ⟨rfl, rfl⟩
  obtain ⟨hc, hf⟩ := scanProcess_other enabled window st' (h s hs)
  exact ⟨hc.trans hst.1, hf.trans hst.2⟩

theorem sameSlot_key {s s' : CpuStats} (h : s.SameSlot s') : s'.key = s.key := by
  rw [CpuStats.key, h.1, h.2, CpuStats.key]

theorem scan_keys {enabled : Bool} {window : Nat} {l : List CpuStats} {pid : Pid} (h : ∀ s ∈ l, s.key ≠ some pid)
    (st : CpuScan) : ∀ s ∈ (mapAccum (scanProcess enabled window) st l).2, s.key ≠ some pid := by
  intro s' hs'
  have hall : List.Forall₂ CpuStats.SameSlot l (mapAccum (scanProcess enabled window) st l).2 :=
    mapAccum_forall₂ (fun st s => ⟨(scanProcess_spec enabled window st s).1,
      (scanProcess_spec enabled window st s).2.1⟩) st l
  obtain ⟨s, hs, hsame⟩ := forall₂_mem_right hall hs'
  rw [sameSlot_key hsame]
  exact h s hs

/-- The loop for a process that has a slot. -/
theorem scan_slot {enabled : Bool} {window : Nat} {l : List CpuStats} (hk : Keyed CpuStats.key l) {s : CpuStats}
    {pid : Pid} (hmem : s ∈ l) (hs : s.key = some pid) (st : CpuScan) : ∃ calls s',
      (∀ t ∈ (mapAccum (scanProcess enabled window) st l).2, t.key = some pid → t = s') ∧
      EmaTurn enabled (st.sched.getPriority pid) (volPriority (s.nextVolEma st.sched)) s.priCooldown s'.priCooldown
        calls ∧
      callsFor pid (mapAccum (scanProcess enabled window) st l).1.log = callsFor pid st.log ++ calls := by
  obtain ⟨l₁, l₂, rfl⟩ := List.append_of_mem hmem
  have hpair := List.pairwise_append.mp (keyed_iff_pairwise.mp hk)
  have hbefore : ∀ t ∈ l₁, t.key ≠ some pid := fun t ht hkt => hpair.2.2 t ht s List.mem_cons_self pid hkt hs
  have hafter : ∀ t ∈ l₂, t.key ≠ some pid := fun t ht => (List.pairwise_cons.mp hpair.2.1).1 t ht pid hs
  obtain ⟨hc₁, hf₁⟩ := @scan_others enabled window l₁ pid hbefore st
  have hk₁ := @scan_keys enabled window l₁ pid hbefore st
  rw [mapAccum_append]
  generalize mapAccum (scanProcess enabled window) st l₁ = r at hc₁ hf₁ hk₁ ⊢
  obtain ⟨st₁, l₁'⟩ := r
  obtain ⟨calls, hturn, hc⟩ := scanProcess_turn enabled window st₁ hs
  obtain ⟨hact, hpid⟩ := CpuStats.key_eq_some.mp hs
  have hcur : st₁.sched.getPriority pid = st.sched.getPriority pid := by rw [Scheduler.getPriority, hf₁]; rfl
  have hvol : s.nextVolEma st₁.sched = s.nextVolEma st.sched := by
    simp only [CpuStats.nextVolEma, Scheduler.getStats, hpid, hf₁]
  rw [hcur, hvol] at hturn
  obtain ⟨hc₂, -⟩ := @scan_others enabled window l₂ pid hafter (scanProcess enabled window st₁ s).1
  have hk₂ := @scan_keys enabled window l₂ pid hafter (scanProcess enabled window st₁ s).1
  refine ⟨calls, _, fun t ht hkt => ?_, hturn, ?_⟩
  · simp only [mapAccum, List.mem_append, List.mem_cons] at ht
    rcases ht with ht | ht | ht
    · exact absurd hkt (hk₁ t ht)
    · exact ht
    · exact absurd hkt (hk₂ t ht)
  · simp only [mapAccum]
    rw [hc₂, hc, hc₁]

/-- The loop as a report runs it. -/
theorem scanned_turn {k : Kernel} (tick : Nat) (hk : Keyed CpuStats.key k.engine.stats.1) (pid : Pid) :
    (lookup CpuStats.key pid k.engine.stats.1 = none ∧ callsFor pid (k.tune tick).1 = [] ∧
        ∀ t ∈ (k.scanned tick).2.1, t.key ≠ some pid) ∨
      ∃ s s', lookup CpuStats.key pid k.engine.stats.1 = some s ∧
        (∀ t ∈ (k.scanned tick).2.1, t.key = some pid → t = s') ∧
        EmaTurn k.policyEnabled (k.sched.getPriority pid) (volPriority (s.nextVolEma k.sched)) s.priCooldown
          s'.priCooldown (callsFor pid (k.tune tick).1) := by
  have hstats : (k.intervalTuned tick).stats = k.engine.stats := (tuneInterval_frame _ _).2.2.1
  have hscan : k.scanned tick =
      scanProcesses k.policyEnabled (max k.engine.reportInterval 1) k.sched k.engine.stats := by
    rw [Kernel.scanned, hstats]
  have hlog : (k.tune tick).1 = (k.scanned tick).1.log := rfl
  rw [hlog, hscan]
  cases hl : lookup CpuStats.key pid k.engine.stats.1 with
  | none =>
    have hno := lookup_eq_none.mp hl
    refine .inl ⟨rfl, (scan_others hno _).1, scan_keys hno _⟩
  | some s =>
    obtain ⟨hmem, hs⟩ := lookup_some hl
    obtain ⟨calls, s', hs', hturn, hcalls⟩ := @scan_slot k.policyEnabled (max k.engine.reportInterval 1) _ hk s pid
      hmem hs { sched := k.sched, maxPct := 0, cntHigh := 0, cntLow := 0, busyTicks := 0, log := [] }
    exact .inr ⟨s, s', rfl, hs', hcalls ▸ hturn⟩

/-! ## Boosts -/

/-- The report gives the process high priority whatever its cooldown: a hot
pair of its is pushed, or it maps much memory. -/
def Kernel.Boosts (k : Kernel) (pid : Pid) : Prop :=
  (∃ e ∈ topPairs k.engine.ipcTable.1, e.isHot = true ∧ e.rlAction = .pinPush ∧ (e.src = pid ∨ e.dst = pid)) ∨
    ∃ m ∈ k.engine.memTable.1, m.active = true ∧ memHotThreshold ≤ m.mmapDelta ∧ m.pid = pid

/-- The priority the report's average leaves the process with. -/
def Kernel.emaPriority (k : Kernel) (pid : Pid) : Priority :=
  match lookup CpuStats.key pid k.engine.stats.1 with
  | some s => if s.priCooldown = 0 then volPriority (s.nextVolEma k.sched) else k.sched.getPriority pid
  | none => k.sched.getPriority pid

/-- A boost of the process, if there is one, finds it at high priority. -/
def IdleBoost (pid : Pid) (k : Kernel) : Prop :=
  k.policyEnabled = true → k.sched.has pid = true → k.Boosts pid → k.emaPriority pid = .high

/-- The decay loop sets no priority. -/
theorem decay_calls (k : Kernel) (tick : Nat) {pid : Pid} {pri : Priority} :
    .prioritySet pid pri ∉ (k.decay tick).1 := by
  rw [decay_log]
  intro hev
  obtain ⟨e, -, he⟩ := List.mem_flatMap.mp hev
  obtain ⟨-, he | ⟨he, -⟩ | ⟨he, -⟩⟩ := IpcEntry.mem_events.mp he <;> cases he

theorem promote_calls {tick : Nat} {k k' : Kernel} {e : IpcEntry} {log : List PolicyEvent}
    (h : promote tick k e = some (log, k')) {pid : Pid} {pri : Priority} (hev : .prioritySet pid pri ∈ log) :
    pri = .high ∧ k.policyEnabled = true ∧ e.isHot = true ∧ e.rlAction = .pinPush ∧ (e.src = pid ∨ e.dst = pid) := by
  simp only [promote] at h
  split at h
  · next hot =>
    simp only [Bool.and_eq_true] at hot
    simp only [Option.bind_eq_bind, Option.bind_eq_some_iff, Option.some.injEq, Prod.mk.injEq] at h
    obtain ⟨⟨log₁, k₁⟩, hc, rfl, -⟩ := h
    simp only [List.mem_append] at hev
    rcases hev with (hev | hev) | hev
    · rcases promoteChannel_cases hc with ⟨rfl, -⟩ | ⟨rfl, -⟩ <;> simp at hev
    · simp [promotePin] at hev
    · simp only [promotePush] at hev
      split at hev
      · next hpush =>
        simp only [List.mem_cons, PolicyEvent.prioritySet.injEq, List.not_mem_nil, or_false] at hev
        rcases hev with ⟨rfl, rfl⟩ | ⟨rfl, rfl⟩
        · exact ⟨rfl, hot.2, hot.1, hpush, .inl rfl⟩
        · exact ⟨rfl, hot.2, hot.1, hpush, .inr rfl⟩
      · cases hev
  · cases h; cases hev

theorem promoteAll_calls {tick : Nat} {k k' : Kernel} {es : List IpcEntry} {log : List PolicyEvent}
    (h : promoteAll tick k es = some (log, k')) {pid : Pid} {pri : Priority} (hev : .prioritySet pid pri ∈ log) :
    pri = .high ∧ k.policyEnabled = true ∧
      ∃ e ∈ es, e.isHot = true ∧ e.rlAction = .pinPush ∧ (e.src = pid ∨ e.dst = pid) := by
  induction es generalizing k log with
  | nil => cases h; cases hev
  | cons e es ih =>
    simp only [promoteAll, Option.bind_eq_bind, Option.bind_eq_some_iff, Option.some.injEq, Prod.mk.injEq] at h
    obtain ⟨⟨log₁, k₁⟩, h₁, ⟨log₂, k₂⟩, h₂, rfl, rfl⟩ := h
    rcases List.mem_append.mp hev with hev | hev
    · obtain ⟨hhigh, hon, hpush⟩ := promote_calls h₁ hev
      exact ⟨hhigh, hon, e, List.mem_cons_self, hpush⟩
    · obtain ⟨hhigh, hon, e', he', hpush⟩ := ih h₂ hev
      rw [(promote_spec h₁).frame.policyEnabled] at hon
      exact ⟨hhigh, hon, e', List.mem_cons_of_mem _ he', hpush⟩

/-- The calls of a report: those of the average, then the boosts. -/
theorem report_calls {k k' : Kernel} {tick : Nat} {log : List PolicyEvent} (h : k.adaptAndReport tick = some (log, k'))
    (pid : Pid) : ∃ boosts, callsFor pid log = callsFor pid (k.tune tick).1 ++ boosts ∧
      ∀ pri ∈ boosts, pri = .high ∧ k.policyEnabled = true ∧ k.Boosts pid := by
  obtain ⟨log₂, k₂, hp, -, rfl⟩ := adaptAndReport_eq h
  have ht := tune_spec k tick
  have hf := (promoteAll_spec hp).1
  refine ⟨callsFor pid (log₂ ++ (k₂.pressure (k.tune tick).2.2).1 ++
    ((k₂.pressure (k.tune tick).2.2).2.decay tick).1), by simp only [List.append_assoc, callsFor_append], ?_⟩
  intro pri hpri
  simp only [mem_callsFor, List.mem_append] at hpri
  rcases hpri with (hev | hev) | hev
  · obtain ⟨hhigh, hon, hpush⟩ := promoteAll_calls hp hev
    exact ⟨hhigh, ht.policyEnabled ▸ hon, .inl hpush⟩
  · obtain ⟨hon, m, hm, hact, hhot, he⟩ := (pressure_spec k₂ _).log _ hev
    cases he
    rw [hf.policyEnabled, ht.policyEnabled] at hon
    rw [hf.memTable, ht.memTable] at hm
    exact ⟨rfl, hon, .inr ⟨m, hm, hact, hhot, rfl⟩⟩
  · exact absurd hev (decay_calls _ tick)

theorem sets_promote {tick : Nat} {k k' : Kernel} {e : IpcEntry} {log : List PolicyEvent}
    (h : promote tick k e = some (log, k')) (pid : Pid) : Sets pid k.sched k'.sched (callsFor pid log) := by
  simp only [promote] at h
  split at h
  · simp only [Option.bind_eq_bind, Option.bind_eq_some_iff, Option.some.injEq, Prod.mk.injEq] at h
    obtain ⟨⟨log₁, k₁⟩, hc, rfl, rfl⟩ := h
    have hchannel : callsFor pid log₁ = [] ∧ k₁.sched = k.sched := by
      rcases promoteChannel_cases hc with ⟨rfl, rfl⟩ | ⟨rfl, -, id, ipc, n, -, rfl⟩ <;> exact ⟨rfl, rfl⟩
    have hpin : Sets pid k₁.sched (promotePin k₁ e).2.sched [] :=
      (sets_setPreferredCpu pid e.src _ _).trans (sets_setPreferredCpu pid e.dst _ _)
    rw [callsFor_append, callsFor_append, hchannel.1, ← hchannel.2]
    have hnil : callsFor pid (promotePin k₁ e).1 = [] := rfl
    rw [hnil]
    refine hpin.trans ?_
    simp only [promotePush]
    split
    · have hboth := (sets_setPriority pid e.src (promotePin k₁ e).2.sched .high).trans
        (sets_setPriority pid e.dst _ .high)
      rw [← callsFor_append] at hboth
      exact hboth
    · exact .refl pid _
  · cases h; exact .refl pid _

theorem sets_promoteAll {tick : Nat} {k k' : Kernel} {es : List IpcEntry} {log : List PolicyEvent}
    (h : promoteAll tick k es = some (log, k')) (pid : Pid) : Sets pid k.sched k'.sched (callsFor pid log) := by
  induction es generalizing k log with
  | nil => cases h; exact .refl pid _
  | cons e es ih =>
    simp only [promoteAll, Option.bind_eq_bind, Option.bind_eq_some_iff, Option.some.injEq, Prod.mk.injEq] at h
    obtain ⟨⟨log₁, k₁⟩, h₁, ⟨log₂, k₂⟩, h₂, rfl, rfl⟩ := h
    rw [callsFor_append]
    exact (sets_promote h₁ pid).trans (ih h₂)

/-- The calls in its log are all a report does to a priority. -/
theorem report_sets {k k' : Kernel} {tick : Nat} {log : List PolicyEvent} (h : k.adaptAndReport tick = some (log, k'))
    (pid : Pid) : Sets pid k.sched k'.sched (callsFor pid log) := by
  obtain ⟨log₂, k₂, hp, rfl, rfl⟩ := adaptAndReport_eq h
  have htune : Sets pid k.sched (k.tune tick).2.1.sched (callsFor pid (k.tune tick).1) := by
    refine mapAccum_invariant (fun st : CpuScan => Sets pid k.sched st.sched (callsFor pid st.log))
      (fun st s _ hst => ?_) (.refl pid _)
    rcases (scanProcess_spec k.policyEnabled (max k.engine.reportInterval 1) st s).2.2 with
      ⟨hs, hl⟩ | ⟨-, -, ⟨hs, hl⟩ | ⟨pri, hs, hl⟩⟩
    · rw [hs, hl]; exact hst
    · rw [hs, hl]; exact hst
    · rw [hs, hl, callsFor_append]; exact hst.trans (sets_setPriority pid _ _ pri)
  have hpressure : Sets pid k₂.sched (k₂.pressure (k.tune tick).2.2).2.sched
      (callsFor pid (k₂.pressure (k.tune tick).2.2).1) := by
    refine mapAccum_invariant (fun st : Scheduler × List PolicyEvent => Sets pid k₂.sched st.1 (callsFor pid st.2))
      (fun st m _ hst => ?_) (.refl pid _)
    rcases scanMem_cases k₂.policyEnabled st m with heq | ⟨-, -, -, heq⟩
    · rw [heq]; exact hst
    · rw [heq, callsFor_append]; exact hst.trans (sets_setPriority pid _ _ .high)
  have hdecay : ∀ k₃ : Kernel, Sets pid k₃.sched (k₃.decay tick).2.sched (callsFor pid (k₃.decay tick).1) := by
    intro k₃
    rw [callsFor_eq_nil fun pri => decay_calls k₃ tick]
    unfold Sets
    rw [decay_find]
    split
    · rw [Option.map_map]; rfl
    · rfl
  simp only [callsFor_append]
  exact ((htune.trans (sets_promoteAll hp pid)).trans hpressure).trans (hdecay _)

/-! ## One report -/

theorem EmaTurn.cool_le {enabled : Bool} {cur pri : Priority} {cool cool' : Nat} {calls : List Priority}
    (h : EmaTurn enabled cur pri cool cool' calls) : cool ≤ cool' + 1 := by
  cases h with
  | set _ _ h0 => omega
  | keep _ hle => exact hle

/-- Boosts that repeat what the average left change nothing more. -/
theorem EmaTurn.changes {enabled : Bool} {cur pri : Priority} {cool cool' : Nat} {calls boosts : List Priority}
    (h : EmaTurn enabled cur pri cool cool' calls)
    (hb : ∀ b ∈ boosts, enabled = true ∧ b = if cool = 0 then pri else cur) :
    changesFrom (some cur) (calls ++ boosts) ≤ 1 ∧
      (changesFrom (some cur) (calls ++ boosts) ≠ 0 → cool = 0 ∧ cool' = 2) := by
  cases h with
  | set hon hne h0 h2 =>
    have hzero : changesFrom (some pri) boosts = 0 := by
      refine changesFrom_const fun b hmem => ?_
      rw [(hb b hmem).2, if_pos h0]
    have hone : changesFrom (some cur) ([pri] ++ boosts) = 1 := by
      simp only [List.singleton_append, changesFrom, if_neg hne, hzero]
    rw [hone]
    exact ⟨Nat.le_refl _, fun _ => ⟨h0, h2⟩⟩
  | keep hsame hle =>
    have hzero : changesFrom (some cur) boosts = 0 := by
      refine changesFrom_const fun b hmem => ?_
      obtain ⟨hon, hb⟩ := hb b hmem
      rw [hb]
      split
      · next h0 => exact (hsame hon h0).symm
      · rfl
    rw [List.nil_append, hzero]
    exact ⟨Nat.zero_le _, nofun⟩

/-- A report changes the priority once at most, out of cooldown, and then the
cooldown stands at two reports. -/
theorem report_changes {k k' : Kernel} {tick : Nat} {log : List PolicyEvent} {pid : Pid}
    (hk : Keyed CpuStats.key k.engine.stats.1) (hidle : IdleBoost pid k) (h : k.adaptAndReport tick = some (log, k')) :
    let n := changesFrom ((k.sched.find pid).map (·.priority)) (callsFor pid log)
    n ≤ 1 ∧ (n ≠ 0 → ∃ s ∈ k.engine.stats.1, s.key = some pid ∧ s.priCooldown = 0) ∧
      ∀ t ∈ k'.engine.stats.1, t.key = some pid → ∃ s ∈ k.engine.stats.1, s.key = some pid ∧
        s.priCooldown ≤ t.priCooldown + 1 ∧ (n ≠ 0 → t.priCooldown = 2) := by
  have hstats : k'.engine.stats = (k.scanned tick).2 := by
    obtain ⟨k₃, hk₃, rfl⟩ := Kernel.adaptAndReport_readied h
    obtain ⟨q, rng, evict, he⟩ := decay_engine k₃ tick
    rw [he]
    exact (Kernel.beforeDecay_readied hk₃).tables.2.2.2.1
  obtain ⟨boosts, hcalls, hboosts⟩ := report_calls h pid
  rw [hcalls, hstats]
  cases hfind : k.sched.find pid with
  | none =>
    rw [Option.map_none, changesFrom_none]
    refine ⟨Nat.zero_le _, nofun, fun t ht hkt => ?_⟩
    rcases scanned_turn tick hk pid with ⟨-, -, hno⟩ | ⟨s, s', hl, hs', hturn⟩
    · exact absurd hkt (hno t ht)
    · obtain ⟨hmem, hs⟩ := lookup_some hl
      obtain rfl := hs' t ht hkt
      exact ⟨s, hmem, hs, hturn.cool_le, nofun⟩
  | some pr =>
    have hhas : k.sched.has pid = true := by
      rw [← Bool.not_eq_false, ← Scheduler.find_eq_none, hfind]
      exact nofun
    have hcur : k.sched.getPriority pid = pr.priority := by rw [Scheduler.getPriority, hfind]; rfl
    have hhigh : ∀ pri ∈ boosts, k.policyEnabled = true ∧ pri = k.emaPriority pid := by
      intro pri hpri
      obtain ⟨rfl, hon, hb⟩ := hboosts pri hpri
      exact ⟨hon, (hidle hon hhas hb).symm⟩
    rcases scanned_turn tick hk pid with ⟨hl, hnil, hno⟩ | ⟨s, s', hl, hs', hturn⟩
    · have hema : k.emaPriority pid = pr.priority := by rw [Kernel.emaPriority, hl]; exact hcur
      have hzero : changesFrom (some pr.priority) boosts = 0 :=
        changesFrom_const fun pri hpri => (hhigh pri hpri).2.trans hema
      rw [hnil, List.nil_append, Option.map_some, hzero]
      exact ⟨Nat.zero_le _, nofun, fun t ht hkt => absurd hkt (hno t ht)⟩
    · obtain ⟨hmem, hs⟩ := lookup_some hl
      have hema : k.emaPriority pid =
          if s.priCooldown = 0 then volPriority (s.nextVolEma k.sched) else pr.priority := by
        rw [Kernel.emaPriority, hl, hcur]
      rw [hcur] at hturn
      rw [hema] at hhigh
      obtain ⟨hone, hfree⟩ := hturn.changes hhigh
      refine ⟨hone, fun hne => ⟨s, hmem, hs, (hfree hne).1⟩, fun t ht hkt => ?_⟩
      obtain rfl := hs' t ht hkt
      exact ⟨s, hmem, hs, hturn.cool_le, fun hne => (hfree hne).2⟩

/-! ## Runs -/

def KernelEvent.policy? : KernelEvent → Option PolicyEvent
  | .policy e => some e
  | _ => none

/-- The report of a call, if it made one. -/
def windowOf (k : Kernel) (es : List KernelEvent) : List Window :=
  if .report ∈ es then [{ sched := k.sched, log := es.filterMap KernelEvent.policy? }] else []

/-- One call of the kernel, seen by its report. -/
def Kernel.windowStep (k : Kernel) (a : Op) : Option (List Window × Kernel) :=
  (k.step a).map fun (es, k') => (windowOf k es, k')

theorem windowOf_report (k : Kernel) (log : List PolicyEvent) :
    windowOf k (log.map .policy ++ [.report]) = [{ sched := k.sched, log }] := by
  have hlog : (log.map KernelEvent.policy).filterMap KernelEvent.policy? = log := by
    rw [List.filterMap_map]
    exact List.filterMap_some
  rw [windowOf, if_pos (by simp), List.filterMap_append, hlog]
  simp [KernelEvent.policy?]

/-- The changes so far are apart, and the cooldown knows the last of them. -/
structure Spaced (pid : Pid) (h : List Window) (k : Kernel) : Prop where
  once : ∀ w ∈ h, w.changes pid ≤ 1
  apart : ∀ (i j : Nat) (w w' : Window), i < j → j < i + 3 → h[i]? = some w → h[j]? = some w' →
    w.changes pid = 0 ∨ w'.changes pid = 0
  absent : k.sched.has pid = false → ∀ w ∈ h, w.changes pid = 0
  cooling : ∀ s ∈ k.engine.stats.1, s.key = some pid → ∀ (i : Nat) (w : Window), h[i]? = some w → w.changes pid ≠ 0 →
    3 + i ≤ s.priCooldown + h.length

theorem Spaced.still {pid : Pid} {h : List Window} {k k' : Kernel} (hi : Spaced pid h k) (hs : Seated k k') :
    Spaced pid h k' where
  once := hi.once
  apart := hi.apart
  absent hno := hi.absent (by rw [← hs.has]; exact hno)
  cooling t ht hkt := by
    obtain ⟨s, hmem, hc⟩ := forall₂_mem_right hs.stats ht
    obtain ⟨hact, hpid⟩ := CpuStats.key_eq_some.mp hkt
    obtain ⟨hact', hpid', hcool⟩ := hc hact
    rw [hcool]
    exact hi.cooling s hmem (CpuStats.key_eq_some.mpr ⟨hact', hpid' ▸ hpid⟩)

/-- A new process has never changed. -/
theorem Spaced.spawn {pid : Pid} {h : List Window} {k : Kernel} (hi : Spaced pid h k) (hw : k.Wf) (rsp : Nat) :
    Spaced pid h (k.spawnNew rsp) := by
  obtain ⟨p, hp, hpid, -, -⟩ := spawnNew_processes k rsp
  refine ⟨hi.once, hi.apart, fun hno => hi.absent ?_, fun s hs hks => ?_⟩
  · rw [Scheduler.has, hp, List.any_append, Bool.or_eq_false_iff] at hno
    exact hno.1
  · obtain ⟨stats, he, hcase⟩ := PolicyEngine.register_cases k.engine k.sched.nextPid
    have hstats : (k.spawnNew rsp).engine.stats = stats := congrArg PolicyEngine.stats he
    rw [hstats] at hs
    rcases hcase with rfl | rfl
    · exact hi.cooling s hs hks
    · rcases mem_updateFirst hs with hs | ⟨s₀, -, -, rfl⟩
      · exact hi.cooling s hs hks
      · -- The new slot is for a pid that no process had.
        obtain ⟨-, rfl⟩ := CpuStats.key_eq_some.mp hks
        intro i w hiw hne
        refine absurd (hi.absent ?_ w (List.mem_of_getElem? hiw)) hne
        rw [← Scheduler.find_eq_none, Scheduler.find, List.find?_eq_none]
        intro q hq
        have := hw.fresh q.pid (List.mem_map_of_mem hq)
        simpa using Nat.ne_of_lt this

theorem getElem?_snoc {α : Type} {l : List α} {w v : α} {i : Nat} (h : (l ++ [w])[i]? = some v) :
    (l[i]? = some v ∧ i < l.length) ∨ (v = w ∧ i = l.length) := by
  rw [List.getElem?_append] at h
  split at h
  · next hlt => exact .inl ⟨h, hlt⟩
  · next hge =>
    have hlt := (List.getElem?_eq_some_iff.mp h).1
    have hv := List.mem_of_getElem? h
    rw [List.length_singleton] at hlt
    exact .inr ⟨List.mem_singleton.mp hv, by omega⟩

theorem Spaced.report {pid : Pid} {h : List Window} {k k₀ k' : Kernel} {tick : Nat} {log : List PolicyEvent}
    (hi : Spaced pid h k) (hs : Seated k k₀) (hk : Keyed CpuStats.key k₀.engine.stats.1) (hidle : IdleBoost pid k₀)
    (hr : k₀.adaptAndReport tick = some (log, k')) : Spaced pid (h ++ [{ sched := k.sched, log }]) k' := by
  have hi₀ := hi.still hs
  have hpri : (k₀.sched.find pid).map (·.priority) = (k.sched.find pid).map (·.priority) := by
    have := congrArg (Option.map fun c : Pid × Priority × Nat => c.2.1) (hs.find pid)
    simpa [Function.comp_def, Process.seat] using this
  obtain ⟨honce, hfree, hcool⟩ := report_changes hk hidle hr
  rw [hpri] at honce hfree hcool
  -- The new window, and where it stands.
  let w : Window := { sched := k.sched, log }
  have hmem : ∀ v ∈ h ++ [w], v ∈ h ∨ v = w := by simp
  refine ⟨fun v hv => ?_, fun i j v v' hij hlt hv hv' => ?_, fun hno v hv => ?_, fun t ht hkt i v hv hne => ?_⟩
  · rcases hmem v hv with hv | rfl
    · exact hi.once v hv
    · exact honce
  · rcases getElem?_snoc hv' with ⟨hv', hj⟩ | ⟨rfl, rfl⟩
    · rcases getElem?_snoc hv with ⟨hv, -⟩ | ⟨-, hi'⟩
      · exact hi.apart i j v v' hij hlt hv hv'
      · omega
    · rcases getElem?_snoc hv with ⟨hv, -⟩ | ⟨-, hi'⟩
      · by_cases hz : w.changes pid = 0
        · exact .inr hz
        · -- The slot is out of cooldown, so the last two reports changed nothing.
          obtain ⟨s, hs, hks, h0⟩ := hfree hz
          refine .inl (Decidable.byContradiction fun hne => ?_)
          have := hi₀.cooling s hs hks i v hv hne
          omega
      · omega
  · have hno₀ : k.sched.has pid = false := by
      rw [← hs.has, ← Scheduler.has_congr (Tasks.report hr).pids]
      exact hno
    rcases hmem v hv with hv | rfl
    · exact hi.absent hno₀ v hv
    · rw [Window.changes, Scheduler.find_eq_none.mpr hno₀, Option.map_none, changesFrom_none]
  · obtain ⟨s, hs, hks, hle, htwo⟩ := hcool t ht hkt
    rw [List.length_append, List.length_singleton]
    rcases getElem?_snoc hv with ⟨hv, -⟩ | ⟨rfl, rfl⟩
    · have := hi₀.cooling s hs hks i v hv hne
      omega
    · have := htwo hne
      omega

/-- **Priorities do not thrash.** Where no boost finds a process below high
priority, each report changes its priority once at most, and of any three
reports in a row at most one does. -/
theorem priority_changes_are_spaced {mem : ChannelMem} {pid : Pid} {h : List Window} {k : Kernel}
    (hr : Runs Kernel.windowStep (AtReports (IdleBoost pid)) (.init mem) h k) :
    (∀ w ∈ h, w.changes pid ≤ 1) ∧
      ∀ (i j : Nat) (w w' : Window), i < j → j < i + 3 → h[i]? = some w → h[j]? = some w' →
        w.changes pid = 0 ∨ w'.changes pid = 0 := by
  have hinv : k.Wf ∧ Spaced pid h k := by
    refine hr.invariant (fun h k => k.Wf ∧ Spaced pid h k) ⟨.init mem, nofun, ?_, nofun, ?_⟩
      fun {h k a ws k'} hi hok hs => ?_
    · intro i j w w' _ _ hi; cases hi
    · intro s _ _ i w hi; cases hi
    · obtain ⟨hw, hi⟩ := hi
      obtain ⟨⟨es, k₁⟩, hstep, he⟩ := Option.map_eq_some_iff.mp hs
      cases he
      refine ⟨hw.step hstep, ?_⟩
      cases step_goes hstep with
      | still hseated _ hno => rw [windowOf, if_neg hno, List.append_nil]; exact hi.still hseated
      | spawn rsp => rw [windowOf, if_neg nofun, List.append_nil]; exact hi.spawn hw rsp
      | @report rsp voluntary c log k' hdue hrep =>
        rw [windowOf_report]
        refine hi.report (seated_switched k rsp voluntary c) ?_ (hok hdue) hrep
        exact keyed_stats hw.slots (Tasks.countSwitch k k.sched.currentPid _ c.tick).stats
  exact ⟨hinv.2.once, hinv.2.apart⟩

instance (pid : Pid) (k : Kernel) : Decidable (IdleBoost pid k) :=
  inferInstanceAs (Decidable (_ → _ → (_ ∨ _) → _))

instance {ε : Type} (P : Kernel → Prop) [DecidablePred P] (h : List ε) (k : Kernel) (a : Op) :
    Decidable (AtReports P h k a) := by
  induction a using Op.casesOn <;> unfold AtReports <;> infer_instance

/-- The timer takes the current process off at a tick. -/
def timerAt (tick : Nat) : Op := .preempt 0 false { tick, tscOut := 0, tscIn := 0, cpu := 0 }

/-- A process that never yields on its own falls to low priority at the third report. -/
def grindOps : List Op := [.spawn 0, yieldAt 1] ++ [36, 72, 108, 144].map timerAt

theorem priority_changes_are_spaced_grind : ∃ h k,
    Runs Kernel.windowStep (AtReports (IdleBoost 1)) (.init (.ofFrames 16)) h k ∧ h.map (·.changes 1) = [0, 0, 1, 0] ∧
      ∀ w ∈ h, w.changes 1 ≤ 1 := by
  obtain ⟨h, k, hr, hP⟩ := Runs.of_exec Kernel.windowStep (AtReports (IdleBoost 1)) (.init (.ofFrames 16)) grindOps
    (fun h _ => decide (h.map (·.changes 1) = [0, 0, 1, 0])) (by decide)
  exact ⟨h, k, hr, of_decide_eq_true hP, (priority_changes_are_spaced hr).1⟩

/-- Ten `mmap` calls of process 1 and a report. -/
def mapWindow (tick : Nat) : List Op := List.replicate 10 (.mmap 1) ++ [timerAt tick]

/-- Priorities do thrash: the first report raises the process, the second
lowers it and raises it again. -/
theorem priority_changes_twice : ¬ ∀ (mem : ChannelMem) (pid : Pid) (h : List Window) (k : Kernel),
    Runs Kernel.windowStep (fun _ k _ => k.policyEnabled = true) (.init mem) h k →
      (∀ w ∈ h, w.changes pid ≤ 1) ∧
        ∀ (i j : Nat) (w w' : Window), i < j → j < i + 3 → h[i]? = some w → h[j]? = some w' →
          w.changes pid = 0 ∨ w'.changes pid = 0 := by
  intro hall
  obtain ⟨h, k, hr, hP⟩ := Runs.of_exec Kernel.windowStep (fun _ k _ => k.policyEnabled = true) (.init (.ofFrames 16))
    ([.spawn 0] ++ mapWindow 36 ++ mapWindow 72) (fun h _ => h.any fun w => decide (w.changes 1 = 2))
    (by decide)
  obtain ⟨w, hw, htwo⟩ := List.any_eq_true.mp hP
  have hone := (hall _ 1 h k hr).1 w hw
  rw [of_decide_eq_true htwo] at hone
  omega

end ChodOs
