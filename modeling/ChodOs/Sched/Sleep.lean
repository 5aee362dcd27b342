/-
`sleep_ticks`: a sleep request and the voluntary yield after it, with the
timer in between. Whoever blocks the sleeper sets its alarm to at least the
tick it asked for; what can go wrong is a tick of the timer that takes the
request and then lets the sleeper go on because it has quanta left.
-/
import ChodOs.Sched.Calls

namespace ChodOs

open StepSys

/-! ## The machine with its clock -/

/-- The scheduler and `TICK`. -/
structure Timed where
  sched : Scheduler
  now : Nat

inductive TimedOp
  | tick
  | call (op : SchedOp)

/-- A call reads `TICK`. -/
def SchedOp.atTick (now : Nat) : SchedOp → SchedOp
  | .preempt rsp voluntary c => .preempt rsp voluntary { c with tick := now }
  | .exit rsp c => .exit rsp { c with tick := now }
  | op => op

def Timed.step (m : Timed) : TimedOp → Option (List SchedEvent × Timed)
  | .tick => some ([], { m with now := m.now + 1 })
  | .call op => (m.sched.step (op.atTick m.now)).map fun (es, sched) => (es, { m with sched })

/-! ## The run of a sleep -/

/-- A scheduling decision finds somebody other than the sleeper ready. -/
def Scheduler.Decides (i : Nat) (s : Scheduler) : SchedOp → Prop
  | .preempt rsp voluntary c => (s.updateCurrent (Process.leave s.mode rsp voluntary c)).OtherReady i c.tick
  | .exit rsp c => (s.updateCurrent fun p => { p with state := .dead, preemptRsp := rsp }).OtherReady i c.tick
  | _ => True

instance (i : Nat) (s : Scheduler) (op : SchedOp) : Decidable (s.Decides i op) := by
  induction op using SchedOp.casesOn <;> unfold Scheduler.Decides <;> infer_instance

/-- Inside `sleep_ticks` the sleeper itself neither yields nor exits nor asks again. -/
def SchedOp.Foreign : SchedOp → Prop
  | .preempt _ voluntary _ => voluntary = false
  | .exit _ _ | .sleep _ => False
  | _ => True

instance (op : SchedOp) : Decidable op.Foreign := by
  induction op using SchedOp.casesOn <;> unfold SchedOp.Foreign <;> infer_instance

/-- Any calls, as long as somebody else is ready at every decision. -/
def OthersReady (i : Nat) (_ : List SchedEvent) (m : Timed) : TimedOp → Prop
  | .tick => True
  | .call op => m.sched.Decides i (op.atTick m.now)

/-- The same between the request and the yield. -/
def Between (i : Nat) (_ : List SchedEvent) (m : Timed) : TimedOp → Prop
  | .tick => True
  | .call op => m.sched.Decides i (op.atTick m.now) ∧ (m.sched.current = i → op.Foreign)

/-- The timer does not find the sleeper with its request pending and quanta left. -/
def Scheduler.Spent (i : Nat) (s : Scheduler) : SchedOp → Prop
  | .preempt _ voluntary _ => voluntary = false → s.current = i → 0 < s.cur.pendingSleepTicks →
      s.mode = .cfs ∨ s.remainingQuanta ≤ 1
  | _ => True

instance (i : Nat) (s : Scheduler) (op : SchedOp) : Decidable (s.Spent i op) := by
  induction op using SchedOp.casesOn <;> unfold Scheduler.Spent <;> infer_instance

def BetweenSpent (i : Nat) (h : List SchedEvent) (m : Timed) : TimedOp → Prop
  | .tick => True
  | .call op => Between i h m (.call op) ∧ m.sched.Spent i op

instance (i : Nat) (h : List SchedEvent) (m : Timed) (op : TimedOp) : Decidable (OthersReady i h m op) := by
  cases op <;> unfold OthersReady <;> infer_instance

instance (i : Nat) (h : List SchedEvent) (m : Timed) (op : TimedOp) : Decidable (Between i h m op) := by
  cases op <;> unfold Between <;> infer_instance

instance (i : Nat) (h : List SchedEvent) (m : Timed) (op : TimedOp) : Decidable (BetweenSpent i h m op) := by
  cases op <;> unfold BetweenSpent <;> infer_instance

/-- A call of `sleep_ticks(n)` in the state `m₀`, with what is reported from
its yield on: the request, what comes in between, the yield, and what comes
after it. -/
inductive SleepRun (between : Nat → List SchedEvent → Timed → TimedOp → Prop) (m₀ : Timed) (n : Nat) :
    List SchedEvent → Prop
  | mk {m₁ m₂ m₃ m₄ : Timed} {rsp : Nat} {c : Clock} {es₀ h₁ es h₂ : List SchedEvent} :
      m₀.step (.call (.sleep n)) = some (es₀, m₁) →
      Runs Timed.step (between m₀.sched.current) m₁ h₁ m₂ →
      m₂.sched.current = m₀.sched.current →
      OthersReady m₀.sched.current h₁ m₂ (.call (.preempt rsp true c)) →
      m₂.step (.call (.preempt rsp true c)) = some (es, m₃) →
      Runs Timed.step (OthersReady m₀.sched.current) m₃ h₂ m₄ →
      SleepRun between m₀ n (es ++ h₂)

/-! ## Asleep -/

/-- Before its deadline the sleeper is off the processor, blocked until then or dead. -/
def Scheduler.Off (i deadline : Nat) (s : Scheduler) : Prop :=
  s.current ≠ i ∧ ∃ nap, s.napAt i = some nap ∧ (nap.1 = .dead ∨ nap.1 = .blocked ∧ deadline ≤ nap.2.2)

def Asleep (i deadline : Nat) (m : Timed) : Prop := deadline ≤ m.now ∨ m.sched.Off i deadline

namespace Scheduler

variable {s s' : Scheduler} {i deadline now : Nat} {op : SchedOp} {es : List SchedEvent}

/-- A nap that the wake-up scan does not end. -/
theorem wake_eq_self {p : Process} (h : p.state = .dead ∨ p.state = .blocked ∧ deadline ≤ p.wakeAtTick)
    (hnow : now < deadline) : p.wake now = p := by
  unfold Process.wake
  refine if_neg fun hw => ?_
  rcases h with hdead | ⟨-, hle⟩
  · rw [hdead] at hw; cases hw.1
  · omega

/-- The sleeper after the outgoing process, it or another, has been switched out. -/
theorem Switched.off {rsp : Nat} {force : Bool} {c : Clock} {r : Nat × Scheduler} (h : Switched s rsp force c r)
    {nap : ProcessState × Nat × Nat} (hnap : s.napAt i = some nap)
    (hst : nap.1 = .dead ∨ nap.1 = .blocked ∧ deadline ≤ nap.2.2) (hnow : c.tick < deadline)
    (hkeep : i = s.current → ¬s.Keeps force c.tick) : r.2.Off i deadline := by
  obtain ⟨p, hp, rfl⟩ := Option.map_eq_some_iff.mp hnap
  have hwake : p.wake c.tick = p := wake_eq_self hst hnow
  have hstate : (s.wakeAll c.tick).stateAt i = some p.state := by
    rw [stateAt_wakeAll, hp, Option.map_some, hwake]
  have hnot : p.state ≠ .ready := by
    rcases hst with hd | ⟨hb, -⟩
    · rw [show p.state = .dead from hd]; decide
    · rw [show p.state = .blocked from hb]; decide
  have hne : r.2.current ≠ i := by
    intro h
    obtain rfl := h
    by_cases hcur : r.2.current = s.current
    · rcases h.keeps hcur with hk | hready
      · exact hkeep hcur hk
      · rw [← hcur, hstate] at hready; exact hnot (Option.some.inj hready)
    · rw [h.ready hcur] at hstate; exact hnot (Option.some.inj hstate).symm
  refine ⟨hne, _, ?_, hst⟩
  rw [napAt, h.get_other (Ne.symm hne), hp, Option.map_some, hwake, Option.map_some]

/-- Nothing any call does before the deadline wakes the sleeper. -/
theorem Off.effect (h : s.Off i deadline) (hat : op.atTick now = op) (hnow : now < deadline)
    (he : s.Effect op es s') : s'.Off i deadline := by
  obtain ⟨hcur, nap, hnap, hst⟩ := h
  cases he with
  | calm hc hn => exact ⟨hc ▸ hcur, nap, (hn i).trans hnap, hst⟩
  | spawn p =>
    obtain ⟨q, hq, -⟩ := Option.map_eq_some_iff.mp hnap
    have hlt := (List.getElem?_eq_some_iff.mp hq).1
    refine ⟨hcur, nap, ?_, hst⟩
    rw [napAt_spawn, if_neg (Nat.ne_of_lt hlt), hnap]
  | kill pid =>
    obtain ⟨q, hq, rfl⟩ := Option.map_eq_some_iff.mp hnap
    refine ⟨hcur, _, by rw [napAt, get_kill, hq, Option.map_some, Option.map_some], ?_⟩
    split
    · exact .inl rfl
    · exact hst
  | sleep ticks =>
    refine ⟨hcur, nap, ?_, hst⟩
    rw [napAt, requestSleep, get_updateCurrent_other s _ (Ne.symm hcur), ← napAt, hnap]
  | @preempt rsp voluntary c r hsw =>
    have htick : c.tick = now := by simp only [SchedOp.atTick, SchedOp.preempt.injEq] at hat; rw [← hat.2.2]
    refine hsw.off ?_ hst (htick ▸ hnow) fun he => absurd he.symm hcur
    rw [napAt, get_updateCurrent_other s _ (Ne.symm hcur), ← napAt, hnap]
  | @exit rsp c r hsw =>
    have htick : c.tick = now := by simp only [SchedOp.atTick, SchedOp.exit.injEq] at hat; rw [← hat.2]
    refine hsw.off ?_ hst (htick ▸ hnow) fun he => absurd he.symm hcur
    rw [← hnap]
    exact congrArg _ (get_updateCurrent_other s _ (Ne.symm hcur))

/-- The sleeper blocks itself until its deadline, at a decision that finds
somebody else ready and the sleeper's quanta used up. -/
theorem off_of_pending {rsp : Nat} {voluntary : Bool} {c : Clock} {r : Nat × Scheduler}
    (hpend : 0 < s.cur.pendingSleepTicks) (hdue : deadline ≤ c.tick + s.cur.pendingSleepTicks)
    (hready : s.Decides s.current (.preempt rsp voluntary c))
    (hspent : voluntary = false → s.mode = .cfs ∨ s.remainingQuanta ≤ 1) (hnow : c.tick < deadline)
    (hsw : Switched (s.updateCurrent (Process.leave s.mode rsp voluntary c)) rsp voluntary c r) :
    r.2.Off s.current deadline := by
  obtain ⟨-, hp, ⟨-, hb, hw⟩ | ⟨hzero, -⟩⟩ := Process.leave_cases s.mode rsp voluntary c s.cur
  · refine hsw.off (by rw [napAt, get_updateCurrent, Option.map_some]) (.inr ⟨hb, ?_⟩) hnow fun _ hk => ?_
    · show deadline ≤ (s.cur.leave s.mode rsp voluntary c).wakeAtTick
      rw [hw]; exact hdue
    · obtain ⟨hmode, hforce, hq⟩ := hk.quanta hready
      rcases hspent hforce with hcfs | hle
      · exact hmode hcfs
      · exact absurd hq (by show ¬1 < s.remainingQuanta; omega)
  · omega

/-- Who is chosen is chosen now, and runs. -/
theorem Effect.chosen (he : s.Effect op es s') (hat : op.atTick now = op) {t : Nat} (h : .chosen i t ∈ es) :
    t = now ∧ i = s'.current := by
  cases he with
  | calm | spawn | sleep => cases h
  | kill pid => simp at h
  | @preempt rsp voluntary c r hsw =>
    have htick : c.tick = now := by simp only [SchedOp.atTick, SchedOp.preempt.injEq] at hat; rw [← hat.2.2]
    simp only [List.mem_singleton, SchedEvent.chosen.injEq] at h
    exact ⟨h.2.trans htick, h.1⟩
  | @exit rsp c r hsw =>
    have htick : c.tick = now := by simp only [SchedOp.atTick, SchedOp.exit.injEq] at hat; rw [← hat.2]
    simp only [List.mem_cons, reduceCtorEq, SchedEvent.chosen.injEq, List.not_mem_nil, or_false, false_or] at h
    exact ⟨h.2.trans htick, h.1⟩

end Scheduler

@[simp] theorem SchedOp.atTick_atTick (now : Nat) (op : SchedOp) : (op.atTick now).atTick now = op.atTick now := by
  cases op <;> rfl

theorem Timed.step_cases {m m' : Timed} {op : TimedOp} {es : List SchedEvent} (h : m.step op = some (es, m')) :
    (op = .tick ∧ es = [] ∧ m' = { m with now := m.now + 1 }) ∨
      ∃ o s', op = .call o ∧ m.sched.Effect (o.atTick m.now) es s' ∧ m' = { m with sched := s' } := by
  cases op with
  | tick => cases h; exact .inl ⟨rfl, rfl, rfl⟩
  | call o =>
    obtain ⟨⟨es', s'⟩, hs, he⟩ := Option.map_eq_some_iff.mp h
    cases he
    exact .inr ⟨o, s', rfl, Scheduler.step_effect hs, rfl⟩

section

variable {m m' : Timed} {i deadline : Nat} {op : TimedOp} {es : List SchedEvent}

/-- A call that ends with the sleeper asleep has not chosen it before its deadline. -/
theorem Asleep.chosen (h : Asleep i deadline m') {s : Scheduler} {o : SchedOp} (he : s.Effect o es m'.sched)
    (hat : o.atTick m'.now = o) : ∀ now, .chosen i now ∈ es → deadline ≤ now := by
  intro now hc
  obtain ⟨rfl, hcur⟩ := he.chosen hat hc
  exact h.resolve_right fun hoff => hoff.1 hcur.symm

/-- Once asleep, the sleeper is chosen at its deadline at the earliest. -/
theorem Asleep.step (h : Asleep i deadline m) (hs : m.step op = some (es, m')) :
    Asleep i deadline m' ∧ ∀ now, .chosen i now ∈ es → deadline ≤ now := by
  obtain ⟨rfl, rfl, rfl⟩ | ⟨o, s', rfl, he, rfl⟩ := Timed.step_cases hs
  · exact ⟨h.imp_left Nat.le_succ_of_le, nofun⟩
  · have hstep : Asleep i deadline { m with sched := s' } := by
      by_cases hle : deadline ≤ m.now
      · exact .inl hle
      · exact .inr ((h.resolve_left hle).effect (o.atTick_atTick m.now) (by omega) he)
    exact ⟨hstep, hstep.chosen he (o.atTick_atTick m.now)⟩

/-- Between the request and the yield: asleep already, or running with the request pending. -/
def Dozing (i t n : Nat) (m : Timed) : Prop :=
  Asleep i (t + n) m ∨ t ≤ m.now ∧ m.sched.current = i ∧ m.sched.cur.pendingSleepTicks = n

theorem Asleep.of_pending {t n rsp : Nat} {voluntary : Bool} {c : Clock} {r : Nat × Scheduler} (hn : 0 < n)
    (ht : t ≤ m.now) (hcur : m.sched.current = i) (hpend : m.sched.cur.pendingSleepTicks = n)
    (hready : m.sched.Decides i (.preempt rsp voluntary c)) (htick : c.tick = m.now)
    (hspent : voluntary = false → m.sched.mode = .cfs ∨ m.sched.remainingQuanta ≤ 1)
    (hsw : Scheduler.Switched (m.sched.updateCurrent (Process.leave m.sched.mode rsp voluntary c)) rsp voluntary c r) :
    Asleep i (t + n) { m with sched := r.2 } := by
  subst hcur
  by_cases hle : t + n ≤ m.now
  · exact .inl hle
  · exact .inr (Scheduler.off_of_pending (by omega) (by omega) hready hspent (by omega) hsw)

theorem SchedOp.foreign_atTick (now : Nat) (op : SchedOp) : (op.atTick now).Foreign = op.Foreign := by
  cases op <;> rfl

theorem Scheduler.spent_atTick (s : Scheduler) (now : Nat) (op : SchedOp) :
    s.Spent i (op.atTick now) = s.Spent i op := by
  cases op <;> rfl

theorem Scheduler.napAt_current (s : Scheduler) :
    s.napAt s.current = some (s.cur.state, s.cur.pendingSleepTicks, s.cur.wakeAtTick) := by
  rw [napAt, List.getElem?_eq_getElem s.current_lt, Option.map_some]
  rfl

theorem Scheduler.pending_congr (s s' : Scheduler) (hcur : s'.current = s.current)
    (hnap : (s'.napAt s.current).map (·.2.1) = (s.napAt s.current).map (·.2.1)) :
    s'.cur.pendingSleepTicks = s.cur.pendingSleepTicks := by
  have h' := s'.napAt_current
  rw [hcur] at h'
  rw [h', s.napAt_current] at hnap
  exact Option.some.inj hnap

/-- The request stays until a tick of the timer takes it and blocks the sleeper. -/
theorem Dozing.step {t n : Nat} {hist : List SchedEvent} (hn : 0 < n) (h : Dozing i t n m)
    (hok : BetweenSpent i hist m op) (hs : m.step op = some (es, m')) : Dozing i t n m' := by
  rcases h with hasleep | ⟨ht, hcur, hpend⟩
  · exact .inl (hasleep.step hs).1
  obtain ⟨rfl, rfl, rfl⟩ | ⟨o, s', rfl, he, rfl⟩ := Timed.step_cases hs
  · exact .inr ⟨Nat.le_succ_of_le ht, hcur, hpend⟩
  obtain ⟨⟨hdec, hforeign⟩, hspent⟩ := hok
  have hforeign := hforeign hcur
  have hat := o.atTick_atTick m.now
  rw [← SchedOp.foreign_atTick m.now] at hforeign
  rw [← Scheduler.spent_atTick m.sched m.now] at hspent
  generalize o.atTick m.now = o' at he hdec hforeign hspent hat
  cases he with
  | calm hc hn =>
    exact .inr ⟨ht, hc.trans hcur, (Scheduler.pending_congr m.sched _ hc (congrArg _ (hn _))).trans hpend⟩
  | spawn p =>
    refine .inr ⟨ht, hcur, (Scheduler.pending_congr m.sched (m.sched.spawn p) rfl ?_).trans hpend⟩
    rw [Scheduler.napAt_spawn, if_neg (Nat.ne_of_lt m.sched.current_lt)]
  | kill pid =>
    refine .inr ⟨ht, hcur, (Scheduler.pending_congr m.sched (m.sched.kill pid) rfl ?_).trans hpend⟩
    rw [Scheduler.napAt, Scheduler.get_kill, Scheduler.napAt, Option.map_map, Option.map_map, Option.map_map]
    congr 1
    funext p
    simp only [Function.comp_apply]
    split <;> rfl
  | sleep | exit => cases hforeign
  | @preempt rsp voluntary c r hsw =>
    have htick : c.tick = m.now := by simp only [SchedOp.atTick, SchedOp.preempt.injEq] at hat; rw [← hat.2.2]
    refine .inl (Asleep.of_pending hn ht hcur hpend hdec htick (fun hv => ?_) hsw)
    exact hspent hv hcur (by omega)

end

/-- If the timer never finds the request pending with quanta left, the
sleeper is not chosen before the tick it asked for. -/
theorem sleep_is_honoured {m₀ : Timed} {n : Nat} {h : List SchedEvent} (hn : 0 < n)
    (hr : SleepRun BetweenSpent m₀ n h) : ∀ now, .chosen m₀.sched.current now ∈ h → m₀.now + n ≤ now := by
  obtain @⟨m₁, m₂, m₃, m₄, rsp, c, es₀, h₁, es, h₂, hreq, hbetween, hcur, hready, hyield, hafter⟩ := hr
  have hdoze : Dozing m₀.sched.current m₀.now n m₂ := by
    refine hbetween.invariant_state _ ?_ fun hd hok hs => hd.step hn hok hs
    cases hreq
    refine .inr ⟨Nat.le_refl _, rfl, ?_⟩
    have hget := m₀.sched.get_updateCurrent fun p => { p with pendingSleepTicks := max n 1 }
    have hsleep := (m₀.sched.requestSleep n).napAt_current
    rw [Scheduler.napAt, show (m₀.sched.requestSleep n).current = m₀.sched.current from rfl, Scheduler.requestSleep,
      hget, Option.map_some, Option.some.injEq, Prod.mk.injEq, Prod.mk.injEq] at hsleep
    have hmax : max n 1 = (m₀.sched.requestSleep n).cur.pendingSleepTicks := hsleep.2.1
    show (m₀.sched.requestSleep n).cur.pendingSleepTicks = n
    omega
  -- The yield takes the request, unless it comes after the deadline.
  have hasleep : Asleep m₀.sched.current (m₀.now + n) m₃ ∧
      ∀ now, .chosen m₀.sched.current now ∈ es → m₀.now + n ≤ now := by
    rcases hdoze with hasleep | ⟨ht, -, hpend⟩
    · exact hasleep.step hyield
    · have hsw := Scheduler.switched_switchToNext
        (m₂.sched.updateCurrent (Process.leave m₂.sched.mode rsp true { c with tick := m₂.now })) rsp true
        { c with tick := m₂.now }
      cases hyield
      have hstep := Asleep.of_pending hn ht hcur hpend hready rfl (fun h => by cases h) hsw
      exact ⟨hstep, hstep.chosen (.preempt hsw) rfl⟩
  have hrest : Asleep m₀.sched.current (m₀.now + n) m₄ ∧
      ∀ now, .chosen m₀.sched.current now ∈ h₂ → m₀.now + n ≤ now := by
    refine hafter.invariant (fun h m => Asleep m₀.sched.current (m₀.now + n) m ∧
      ∀ now, .chosen m₀.sched.current now ∈ h → m₀.now + n ≤ now) ⟨hasleep.1, fun _ hm => absurd hm List.not_mem_nil⟩ fun hi _ hs => ?_
    obtain ⟨hstep, hev⟩ := hi.1.step hs
    exact ⟨hstep, fun now hc => (List.mem_append.mp hc).elim (hi.2 now) (hev now)⟩
  exact fun now hc => (List.mem_append.mp hc).elim (hasleep.2 now) (hrest.2 now)

/-- The clock argument of a call; `TICK` is read when it runs. -/
def anyClock : Clock := { tick := 0, tscOut := 0, tscIn := 0, cpu := 0 }

def yieldNow : TimedOp := .call (.preempt 0 true anyClock)

/-- A tick of the timer that ends a time slice. -/
def timer : TimedOp := .call (.preempt 0 false anyClock)

/-- A call of `sleep_ticks` that is executed step by step. -/
theorem SleepRun.of_exec (between : Nat → List SchedEvent → Timed → TimedOp → Prop)
    [∀ i h m op, Decidable (between i h m op)] (m₀ : Timed) (n : Nat) (mid post : List TimedOp)
    (P : List SchedEvent → Bool) (he : (m₀.step (.call (.sleep n))).any (fun r₁ : List SchedEvent × Timed =>
      (exec Timed.step (between m₀.sched.current) [] r₁.2 mid).any fun r₂ : List SchedEvent × Timed =>
        decide (r₂.2.sched.current = m₀.sched.current ∧ OthersReady m₀.sched.current r₂.1 r₂.2 yieldNow) &&
        (r₂.2.step yieldNow).any fun r₃ : List SchedEvent × Timed =>
          (exec Timed.step (OthersReady m₀.sched.current) [] r₃.2 post).any fun r₄ : List SchedEvent × Timed =>
            P (r₃.1 ++ r₄.1)) = true) :
    ∃ h, SleepRun between m₀ n h ∧ P h = true := by
  simp only [Option.any_eq_true, Bool.and_eq_true, decide_eq_true_eq] at he
  obtain ⟨⟨_, m₁⟩, hreq, ⟨h₁, m₂⟩, hmid, ⟨hcur, hready⟩, ⟨es, m₃⟩, hyield, ⟨h₂, m₄⟩, hpost, hP⟩ := he
  exact ⟨_, .mk hreq (Runs.start.exec hmid) hcur hready hyield (Runs.start.exec hpost), hP⟩

def booted : Timed := { sched := .init, now := 0 }

/-- The second of two processes has been switched in, with two quanta. -/
def secondRuns : Timed :=
  { sched := ((Scheduler.init.spawn (.new 1 0)).doPreempt 0 true anyClock).2, now := 0 }

/-- It has one quantum left. -/
def secondGoesOn : Timed := { sched := (secondRuns.sched.doPreempt 0 false anyClock).2, now := 0 }

theorem runs_secondRuns : Runs Timed.step free booted [.chosen 1 0] secondRuns := by
  have he : exec Timed.step free [] booted [.call (.spawn (.new 1 0)), yieldNow] =
    some ([.chosen 1 0], secondRuns) := rfl
  exact Runs.start.exec he

theorem runs_secondGoesOn : Runs Timed.step free booted [.chosen 1 0, .chosen 1 0] secondGoesOn := by
  have he : exec Timed.step free [.chosen 1 0] secondRuns [timer] =
    some ([.chosen 1 0, .chosen 1 0], secondGoesOn) := rfl
  exact runs_secondRuns.exec he

/-- The timer takes the request of a process without quanta left; it comes
back at the tick it asked for, and yields then. -/
theorem sleep_across_timer_is_honoured : ∃ h, Runs Timed.step free booted [.chosen 1 0, .chosen 1 0] secondGoesOn ∧
    SleepRun BetweenSpent secondGoesOn 5 h ∧ .chosen 1 6 ∈ h ∧
    ∀ now, .chosen secondGoesOn.sched.current now ∈ h → secondGoesOn.now + 5 ≤ now := by
  obtain ⟨h, hr, hP⟩ := SleepRun.of_exec BetweenSpent secondGoesOn 5
    [.tick, timer, .tick, .tick, .tick, .tick, .tick, yieldNow] [yieldNow]
    (fun h => decide (.chosen 1 6 ∈ h)) (by decide)
  exact ⟨h, runs_secondGoesOn, hr, of_decide_eq_true hP, sleep_is_honoured (by decide) hr⟩

/-- A sleep of five ticks, asked for with two quanta left: a tick of the timer
takes the request and lets the process go on, its yield finds no request,
and the next switch is back to it at the same tick. -/
theorem sleep_lost_to_timer : ∃ h, Runs Timed.step free booted [.chosen 1 0] secondRuns ∧
    SleepRun Between secondRuns 5 h ∧ secondRuns.sched.current = 1 ∧ .chosen 1 0 ∈ h ∧ ¬secondRuns.now + 5 ≤ 0 := by
  obtain ⟨h, hr, hP⟩ := SleepRun.of_exec Between secondRuns 5 [timer] [yieldNow]
    (fun h => decide (.chosen 1 0 ∈ h)) (by decide)
  exact ⟨h, runs_secondRuns, hr, rfl, of_decide_eq_true hP, by decide⟩

end ChodOs
