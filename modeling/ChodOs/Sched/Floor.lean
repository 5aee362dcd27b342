/-
The fairness floor (`FAIRNESS_FLOOR_TICKS`): how long a starving process
waits for the processor.

Past the floor a process ranks with the boosted ones. The scan goes round
from the current process, so whoever is chosen instead of the starving
process stands before it in the round, and the round left to it gets
shorter with every choice. Between two choices there are at most the quanta
of a high priority.
-/
import ChodOs.Sched.Sleep

namespace ChodOs

open StepSys

/-- It ranks highest, on this core. -/
def Process.Top (now cpu : Nat) (p : Process) : Prop := p.effectivePriority now = .high ∧ p.sameCpu cpu = true

theorem Process.effectivePriority_floor {p : Process} {now : Nat} (hidle : p.priority ≠ .idle)
    (hwait : fairnessFloorTicks ≤ now - p.readySinceTick) : p.effectivePriority now = .high := by
  unfold Process.effectivePriority
  split
  · rfl
  · exact if_pos ⟨hidle, hwait⟩

theorem Priority.weight_le (p : Priority) : p.weight ≤ 4 := by cases p <;> decide

theorem Priority.eq_high_of_rank {p : Priority} (h : 3 ≤ p.rank) : p = .high := by
  cases p with
  | high => rfl
  | idle | low | normal => exact absurd h (by decide)

theorem Priority.rank_le (p : Priority) : p.rank ≤ 3 := by cases p <;> decide

namespace Scheduler

/-- How far the scan goes to get to place `i`. -/
def ahead (s : Scheduler) (i : Nat) : Nat :=
  if s.current < i then i - s.current else i + s.processes.length - s.current

/-- The quanta of the current process are at most what a switch hands out. -/
def Charged (s : Scheduler) : Prop := s.remainingQuanta ≤ Priority.high.weight

variable {s : Scheduler} {now cpu i j : Nat} {p : Process}

theorem ahead_pos (s : Scheduler) (i : Nat) : 0 < s.ahead i := by
  have hcur := s.current_lt
  unfold ahead
  split <;> omega

theorem ahead_scan {k : Nat} (hk : k < s.processes.length) :
    s.ahead ((s.current + (k + 1)) % s.processes.length) = k + 1 := by
  have hcur := s.current_lt
  unfold ahead
  by_cases hlt : s.current + (k + 1) < s.processes.length
  · rw [Nat.mod_eq_of_lt hlt]
    split <;> omega
  · rw [Nat.mod_eq_sub_mod (by omega), Nat.mod_eq_of_lt (by omega)]
    split <;> omega

/-- The candidates stand in the order of the scan. -/
theorem candidates_pairwise (s : Scheduler) : s.candidates.Pairwise fun x y => s.ahead x.1 < s.ahead y.1 := by
  unfold candidates
  refine List.pairwise_filterMap.mpr (List.pairwise_map.mpr (List.pairwise_lt_range.imp_of_mem ?_))
  intro a b ha hb hab x hx y hy
  have hplace : ∀ {k} {x : Nat × Process}, k ∈ List.range s.processes.length →
      ((s.processes[(s.current + (k + 1)) % s.processes.length]?).bind fun p =>
        if p.state = .ready then some ((s.current + (k + 1)) % s.processes.length, p) else none) = some x →
      s.ahead x.1 = k + 1 := by
    intro k x hk hx
    obtain ⟨p, -, hp⟩ := Option.bind_eq_some_iff.mp hx
    split at hp
    · cases hp
      exact ahead_scan (List.mem_range.mp hk)
    · cases hp
  rw [hplace ha hx, hplace hb hy]
  omega

/-- With a process that ranks highest among them, the choice is one that does,
and stands no later in the scan. -/
theorem pickWeighted_top (hp : s.processes[i]? = some p) (hready : p.state = .ready) (htop : p.Top now cpu) :
    ∃ j q, s.pickWeighted now cpu = some j ∧ s.processes[j]? = some q ∧ q.Top now cpu ∧
      (j = i ∨ s.ahead j < s.ahead i) := by
  obtain ⟨k, hk⟩ := List.mem_iff_getElem?.mp (mem_candidates.mpr ⟨hp, hready⟩)
  have hkeep : ∀ x b : Nat × Process, b.2.Top now cpu →
      (decide ((b.2.effectivePriority now).rank < (x.2.effectivePriority now).rank) ||
        ((x.2.effectivePriority now).rank == (b.2.effectivePriority now).rank && x.2.sameCpu cpu &&
          !b.2.sameCpu cpu)) = false := by
    intro x b hb
    have hx := (x.2.effectivePriority now).rank_le
    rw [hb.1, hb.2, decide_eq_false (show ¬Priority.high.rank < (x.2.effectivePriority now).rank from Nat.not_lt.mpr hx)]
    simp only [Bool.not_true, Bool.and_false, Bool.or_false]
  have hbeat : ∀ x b : Nat × Process, x.2.Top now cpu → ¬b.2.Top now cpu →
      (decide ((b.2.effectivePriority now).rank < (x.2.effectivePriority now).rank) ||
        ((x.2.effectivePriority now).rank == (b.2.effectivePriority now).rank && x.2.sameCpu cpu &&
          !b.2.sameCpu cpu)) = true := by
    intro x b hx hb
    rw [hx.1, hx.2]
    by_cases hlt : (b.2.effectivePriority now).rank < Priority.high.rank
    · rw [decide_eq_true hlt, Bool.true_or]
    · have hhigh := Priority.eq_high_of_rank (Nat.not_lt.mp hlt)
      have hcpu : b.2.sameCpu cpu = false := by
        rw [← Bool.not_eq_true]
        exact fun hc => hb ⟨hhigh, hc⟩
      rw [hhigh, hcpu]
      rfl
  obtain ⟨hle, ⟨j, q⟩, hq, htopq⟩ := @Slots.bestIdx_top _ _ (fun x => x.2.Top now cpu) hkeep hbeat
    _ _ _ hk htop
  refine ⟨j, q, ?_, (mem_candidates.mp (List.mem_of_getElem? hq)).1, htopq, ?_⟩
  · simp only [pickWeighted]
    rw [hq]
    rfl
  · -- The choice stands at an index no greater than that of the process.
    obtain ⟨hk', hek⟩ := List.getElem?_eq_some_iff.mp hk
    obtain ⟨hj', hej⟩ := List.getElem?_eq_some_iff.mp hq
    rcases Nat.lt_or_eq_of_le hle with hlt | heq
    · have hpair := List.pairwise_iff_getElem.mp s.candidates_pairwise _ k hj' hk' hlt
      rw [hek, hej] at hpair
      exact .inr hpair
    · left
      have hsame := hq
      rw [heq, hk] at hsame
      cases hsame
      rfl

/-- Who stands between the current process and place `i` has less of the round left. -/
theorem ahead_enter {s' : Scheduler} (hlen : s'.processes.length = s.processes.length) (hi : i < s.processes.length)
    (hcur : s'.current = j) (hlt : s.ahead j < s.ahead i) : s'.ahead i < s.ahead i := by
  have h := s.current_lt
  have h' := s'.current_lt
  unfold ahead at *
  split at hlt <;> split at hlt <;> split <;> omega

/-! ## One call -/

/-- The process at place `i` waits for the processor, past the floor. -/
structure Starves (s : Scheduler) (i now : Nat) (p : Process) : Prop where
  mode : s.mode = .weightedPriority
  process : s.processes[i]? = some p
  ready : p.state = .ready
  notIdle : p.priority ≠ .idle
  wait : fairnessFloorTicks ≤ now - p.readySinceTick

/-- What is left of the round, at four calls a choice, and of the current quanta. -/
def callsLeft (s : Scheduler) (i : Nat) : Nat := 4 * (s.ahead i - 1) + max s.remainingQuanta 1

theorem callsLeft_pos : 0 < s.callsLeft i := by
  unfold callsLeft
  omega

/-- The wait is over in the first round. -/
theorem callsLeft_le (hi : i < s.processes.length) (hq : s.Charged) :
    s.callsLeft i ≤ 4 * s.processes.length := by
  have hcur := s.current_lt
  have hq : s.remainingQuanta ≤ 4 := hq
  unfold callsLeft ahead
  split <;> omega

/-- The choice is the starving process, or one before it in the scan. -/
theorem switchToNextWeighted_floor (rsp : Nat) {c : Clock} (h : s.Starves i c.tick p) (hcpu : p.sameCpu c.cpu = true) :
    let s' := (s.switchToNextWeighted rsp c).2
    s'.current = i ∨ s'.Starves i c.tick p ∧ s'.current ≠ i ∧ s'.remainingQuanta = 4 ∧
      s'.processes.length = s.processes.length ∧ s'.ahead i < s.ahead i := by
  have htop : p.Top c.tick c.cpu := ⟨Process.effectivePriority_floor h.notIdle h.wait, hcpu⟩
  obtain ⟨j, q, hpick, hq, hqtop, hj⟩ := pickWeighted_top h.process h.ready htop
  have hquanta : max (((s.processes[j]?).map (Process.effectivePriority · c.tick)).getD Priority.idle).weight 1 = 4 := by
    rw [hq, Option.map_some, Option.getD_some, hqtop.1]
    rfl
  simp only [switchToNextWeighted, hpick, hquanta]
  rw [Switched.enter_eq (s := { s with remainingQuanta := 4 }) hq]
  by_cases hji : j = i
  · exact .inl hji
  · have hlt := hj.resolve_left hji
    have hi := (List.getElem?_eq_some_iff.mp h.process).1
    refine .inr ⟨⟨h.mode, ?_, h.ready, h.notIdle, h.wait⟩, hji, rfl, List.length_modify .., ?_⟩
    · exact (List.getElem?_modify_ne _ _ hji).trans h.process
    · exact ahead_enter (List.length_modify ..) hi rfl hlt

/-- A switch lets the current process spend a quantum, or enters the first of
the highest in the scan. -/
theorem doPreempt_floor (rsp : Nat) (voluntary : Bool) {c : Clock} (h : s.Starves i c.tick p)
    (hcpu : p.sameCpu c.cpu = true) (hne : s.current ≠ i) (hq : s.Charged) :
    let s' := (s.doPreempt rsp voluntary c).2
    s'.current = i ∨ s'.Starves i c.tick p ∧ s'.current ≠ i ∧ s'.Charged ∧
      s'.processes.length = s.processes.length ∧ s'.callsLeft i < s.callsLeft i := by
  let t := (s.updateCurrent (Process.leave s.mode rsp voluntary c)).wakeAll c.tick
  have hget : t.processes[i]? = some p := by
    have hwake : p.wake c.tick = p := by
      unfold Process.wake
      refine if_neg fun hw => ?_
      rw [h.ready] at hw
      cases hw.1
    rw [show t.processes = ((s.updateCurrent (Process.leave s.mode rsp voluntary c)).processes).map (Process.wake c.tick)
      from rfl, List.getElem?_map, get_updateCurrent_other s _ hne.symm, h.process, Option.map_some, hwake]
  have hlen : t.processes.length = s.processes.length := by simp [t, wakeAll, updateCurrent]
  have ht : t.Starves i c.tick p := ⟨h.mode, hget, h.ready, h.notIdle, h.wait⟩
  have hahead : t.ahead i = s.ahead i := by
    unfold ahead
    rw [hlen]
    rfl
  have hi := (List.getElem?_eq_some_iff.mp h.process).1
  have hcur := s.current_lt
  have hmode : t.mode ≠ .cfs := by
    rw [ht.mode]
    decide
  simp only [doPreempt, switchToNext]
  change let s' := (if t.processes.length ≤ 1 then (rsp, t.stay)
    else if t.mode ≠ .cfs ∧ !voluntary ∧ 1 < t.remainingQuanta then
      (rsp, { t with remainingQuanta := t.remainingQuanta - 1 }.stay)
    else if t.mode = .cfs then t.switchToNextCfs rsp c else t.switchToNextWeighted rsp c).2
    s'.current = i ∨ s'.Starves i c.tick p ∧ s'.current ≠ i ∧ s'.Charged ∧
      s'.processes.length = s.processes.length ∧ s'.callsLeft i < s.callsLeft i
  rw [if_neg (by omega : ¬t.processes.length ≤ 1), if_neg hmode]
  split
  · next hquanta =>
    have h1 : 1 < s.remainingQuanta := hquanta.2.2
    have hq : s.remainingQuanta ≤ 4 := hq
    refine .inr ⟨⟨h.mode, ?_, h.ready, h.notIdle, h.wait⟩, hne, ?_, ?_, ?_⟩
    · exact (get_updateCurrent_other { t with remainingQuanta := t.remainingQuanta - 1 } _ hne.symm).trans hget
    · change s.remainingQuanta - 1 ≤ 4
      omega
    · exact (List.length_modify ..).trans hlen
    · have hstay : ({ t with remainingQuanta := t.remainingQuanta - 1 }.stay).ahead i = s.ahead i := by
        rw [← hahead]
        unfold ahead stay updateCurrent
        simp only [List.length_modify]
      unfold callsLeft
      rw [hstay]
      change _ + max (s.remainingQuanta - 1) 1 < _
      omega
  · rcases switchToNextWeighted_floor rsp ht hcpu with hcur | ⟨hs, hoff, hquanta, hlen', hlt⟩
    · exact .inl hcur
    · refine .inr ⟨hs, hoff, Nat.le_of_eq hquanta, hlen'.trans hlen, ?_⟩
      have hpos := (t.switchToNextWeighted rsp c).2.ahead_pos i
      unfold callsLeft
      rw [hquanta]
      omega

theorem getElem?_updatePid_other {pid : Pid} (f : Process → Process) (hne : s.place pid ≠ some i) :
    (s.updatePid pid f).processes[i]? = s.processes[i]? := by
  simp only [updatePid, Slots.updateFirst_eq_modify]
  rw [show s.processes.findIdx? (·.pid == pid) = s.place pid from rfl]
  cases hp : s.place pid with
  | none => rfl
  | some j => exact List.getElem?_modify_ne _ _ fun he => hne (by rw [hp, he])

end Scheduler

/-! ## Runs -/

/-- Switches on cores that the process at place `i` may run on, sleeps, and
boosts and priority changes of other processes. -/
def OthersOnly (i : Nat) (_ : List SchedEvent) (m : Timed) : TimedOp → Prop
  | .tick | .call (.sleep _) | .call .keyboardBoost => True
  | .call (.preempt _ _ c) => (m.sched.processes[i]?).any (·.sameCpu c.cpu) = true
  | .call (.boostPid pid _) | .call (.setPriority pid _) | .call (.setPreferredCpu pid _) => m.sched.place pid ≠ some i
  | .call (.spawn _) | .call (.kill _) | .call (.exit _ _) | .call (.setMode _) => False

instance (i : Nat) (h : List SchedEvent) (m : Timed) (op : TimedOp) : Decidable (OthersOnly i h m op) := by
  unfold OthersOnly
  split <;> infer_instance

/-- What has become of the process after the calls `h`: it has been chosen
among the first `bound`, or it still waits and is due within them. -/
def FloorInv (i bound : Nat) (p : Process) (h : List SchedEvent) (m : Timed) : Prop :=
  (∃ now, .chosen i now ∈ h.take bound) ∨
    m.sched.Starves i m.now p ∧ m.sched.current ≠ i ∧ m.sched.Charged ∧ h.length + m.sched.callsLeft i ≤ bound

/-- A call that is no switch and none of the process leaves it waiting. -/
theorem Scheduler.Starves.calm {s s' : Scheduler} {i now : Nat} {p : Process} (h : s.Starves i now p)
    (hget : s'.processes[i]? = s.processes[i]?) (hmode : s'.mode = s.mode) : s'.Starves i now p :=
  ⟨hmode.trans h.mode, hget.trans h.process, h.ready, h.notIdle, h.wait⟩

/-- What a process still waits for is the same after any other call. -/
theorem FloorInv.calm {i bound : Nat} {p : Process} {h : List SchedEvent} {m : Timed} {s' : Scheduler}
    (hi : FloorInv i bound p h m) (hget : s'.processes[i]? = m.sched.processes[i]?)
    (hlen : s'.processes.length = m.sched.processes.length) (hcur : s'.current = m.sched.current)
    (hmode : s'.mode = m.sched.mode) (hquanta : s'.remainingQuanta = m.sched.remainingQuanta) :
    FloorInv i bound p (h ++ []) { m with sched := s' } := by
  rw [List.append_nil]
  refine hi.imp_right fun ⟨hst, hne, hq, hleft⟩ => ⟨hst.calm hget hmode, hcur ▸ hne, ?_, ?_⟩
  · unfold Scheduler.Charged at *
    rw [hquanta]
    exact hq
  · have hsame : s'.callsLeft i = m.sched.callsLeft i := by
      unfold Scheduler.callsLeft Scheduler.ahead
      rw [hlen, hcur, hquanta]
    change h.length + s'.callsLeft i ≤ bound
    rw [hsame]
    exact hleft

theorem FloorInv.preempt {i bound : Nat} {p : Process} {h : List SchedEvent} {m : Timed} {rsp : Nat} {voluntary : Bool}
    {c : Clock} (hi : FloorInv i bound p h m) (htick : c.tick = m.now)
    (hcpu : (m.sched.processes[i]?).any (·.sameCpu c.cpu) = true) :
    FloorInv i bound p (h ++ [.chosen (m.sched.doPreempt rsp voluntary c).2.current c.tick])
      { m with sched := (m.sched.doPreempt rsp voluntary c).2 } := by
  rcases hi with ⟨now, hc⟩ | ⟨hst, hne, hq, hleft⟩
  · refine .inl ⟨now, ?_⟩
    rw [List.take_append]
    exact List.mem_append_left _ hc
  rw [hst.process] at hcpu
  rw [← htick] at hst
  have hpos := @Scheduler.callsLeft_pos m.sched i
  rcases Scheduler.doPreempt_floor rsp voluntary hst hcpu hne hq with hcur | hrest
  · refine .inl ⟨c.tick, ?_⟩
    rw [List.take_of_length_le (by rw [List.length_append, List.length_singleton]; omega), hcur]
    exact List.mem_append_right _ (List.mem_singleton_self _)
  · obtain ⟨hst', hne', hq', -, hlt⟩ := hrest
    refine .inr ⟨htick ▸ hst', hne', hq', ?_⟩
    rw [List.length_append, List.length_singleton]
    change h.length + 1 + (m.sched.doPreempt rsp voluntary c).2.callsLeft i ≤ bound
    omega

theorem FloorInv.step {i bound : Nat} {p : Process} {h es : List SchedEvent} {m m' : Timed} {op : TimedOp}
    (hi : FloorInv i bound p h m) (hok : OthersOnly i h m op) (hs : m.step op = some (es, m')) :
    FloorInv i bound p (h ++ es) m' := by
  -- What is done to the current process is not done to this one, or it has been chosen.
  have hcurrent : ∀ f : Process → Process, FloorInv i bound p (h ++ []) { m with sched := m.sched.updateCurrent f } := by
    intro f
    rcases hi with ⟨now, hc⟩ | hwait
    · exact .inl ⟨now, by rw [List.append_nil]; exact hc⟩
    · exact FloorInv.calm (.inr hwait) (Scheduler.get_updateCurrent_other _ f hwait.2.1.symm) (List.length_modify ..)
        rfl rfl rfl
  have hpid : ∀ {pid} (f : Process → Process), m.sched.place pid ≠ some i →
      FloorInv i bound p (h ++ []) { m with sched := m.sched.updatePid pid f } := fun f hne =>
    hi.calm (Scheduler.getElem?_updatePid_other f hne) (Slots.length_updateFirst ..) rfl rfl rfl
  cases op with
  | tick =>
    cases hs
    rw [List.append_nil]
    refine hi.imp_right fun ⟨hst, hrest⟩ => ⟨⟨hst.mode, hst.process, hst.ready, hst.notIdle, ?_⟩, hrest⟩
    have hwait := hst.wait
    change fairnessFloorTicks ≤ m.now + 1 - p.readySinceTick
    omega
  | call op =>
    cases op with
    | spawn | kill | exit | setMode => cases hok
    | preempt rsp voluntary c =>
      cases hs
      exact hi.preempt rfl hok
    | sleep ticks =>
      cases hs
      exact hcurrent _
    | keyboardBoost =>
      cases hs
      change FloorInv i bound p (h ++ []) { m with sched := m.sched.keyboardBoost }
      unfold Scheduler.keyboardBoost
      split
      · exact hi.calm rfl rfl rfl rfl rfl
      · exact hcurrent _
    | boostPid pid ticks =>
      cases hs
      exact hpid _ hok
    | setPriority pid pri =>
      cases hs
      exact hpid _ hok
    | setPreferredCpu pid cpu =>
      cases hs
      exact hpid _ hok

namespace Scheduler

variable {s s' : Scheduler}

theorem Charged.switchToNext (hq : s.Charged) (rsp : Nat) (force : Bool) (c : Clock) :
    (s.switchToNext rsp force c).2.Charged := by
  have henter : ∀ (t : Scheduler) (i tsc : Nat), (t.enter i tsc).2.remainingQuanta = t.remainingQuanta := by
    intro t i tsc
    unfold enter
    split <;> rfl
  unfold Charged at *
  simp only [Scheduler.switchToNext]
  split
  · exact hq
  split
  · exact Nat.le_trans (Nat.sub_le ..) hq
  split
  · unfold switchToNextCfs
    split
    · rw [henter]
      exact hq
    · exact hq
  · unfold switchToNextWeighted
    split
    · rw [henter]
      exact Nat.max_le.mpr ⟨Priority.weight_le _, by decide⟩
    · exact (by decide : 1 ≤ Priority.high.weight)

theorem Charged.step {op : SchedOp} {es : List SchedEvent} (hq : s.Charged) (hs : s.step op = some (es, s')) :
    s'.Charged := by
  cases op with
  | spawn | kill | sleep | boostPid | setPriority | setPreferredCpu =>
    cases hs
    exact hq
  | preempt rsp voluntary c =>
    cases hs
    exact Charged.switchToNext (s := s.updateCurrent _) hq rsp voluntary c
  | exit rsp c =>
    cases hs
    exact Charged.switchToNext (Nat.zero_le _) rsp true c
  | keyboardBoost =>
    cases hs
    unfold keyboardBoost
    split <;> exact hq
  | setMode mode =>
    cases hs
    unfold setMode
    split <;> exact hq

end Scheduler

/-- The quanta are never more than a switch hands out. -/
theorem charged_of_runs {m : Timed} {h : List SchedEvent} (hr : Runs Timed.step free booted h m) : m.sched.Charged := by
  refine hr.invariant_state (fun m => m.sched.Charged) (show 1 ≤ 4 by decide) fun {_ m op es m'} hq _ hs => ?_
  cases op with
  | tick => cases hs; exact hq
  | call op =>
    obtain ⟨⟨es', s'⟩, hstep, he⟩ := Option.map_eq_some_iff.mp hs
    cases he
    exact hq.step hstep

/-- **The fairness floor.** A ready process that is not idle and has waited
past the floor runs within four calls of `do_preempt` for every process of
the table. Every event of the run is one such call. -/
theorem starving_process_runs {m₀ m : Timed} {h : List SchedEvent} {i : Nat} {p : Process}
    (hst : m₀.sched.Starves i m₀.now p) (hq : m₀.sched.Charged) (hr : Runs Timed.step (OthersOnly i) m₀ h m)
    (hlen : 4 * m₀.sched.processes.length ≤ h.length) :
    m₀.sched.current = i ∨ ∃ now, .chosen i now ∈ h.take (4 * m₀.sched.processes.length) := by
  by_cases hcur : m₀.sched.current = i
  · exact .inl hcur
  have hi := (List.getElem?_eq_some_iff.mp hst.process).1
  have hinv : FloorInv i (4 * m₀.sched.processes.length) p h m :=
    hr.invariant _ (.inr ⟨hst, hcur, hq, by rw [List.length_nil, Nat.zero_add]; exact Scheduler.callsLeft_le hi hq⟩)
      fun hi hok hs => hi.step hok hs
  rcases hinv with hc | ⟨-, -, -, hleft⟩
  · exact .inr hc
  · have hpos := @Scheduler.callsLeft_pos m.sched i
    omega

/-- Three processes, none of which has run since tick 0. -/
def longWait : Timed := { sched := (Scheduler.init.spawn (.new 1 0)).spawn (.new 2 0), now := 200 }

/-- The last of three runs within twelve calls, beside a boosted one. -/
theorem starving_process_runs_third : ∃ h m, Runs Timed.step (OthersOnly 2) longWait h m ∧ h.length = 12 ∧
    ∃ now, .chosen 2 now ∈ h.take 12 := by
  obtain ⟨h, m, hr, hlen⟩ := Runs.of_exec Timed.step (OthersOnly 2) longWait
    (.call (.boostPid 1 100) :: .tick :: List.replicate 12 timer) (fun h _ => h.length == 12) (by decide)
  have hlen : h.length = 12 := eq_of_beq hlen
  have hst : longWait.sched.Starves 2 longWait.now (.new 2 0) := ⟨rfl, rfl, rfl, by decide, by decide⟩
  exact ⟨h, m, hr, hlen, (starving_process_runs hst (show 1 ≤ 4 by decide) hr (Nat.le_of_eq hlen.symm)).resolve_left
    (by decide)⟩

end ChodOs
