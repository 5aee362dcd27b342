/-
Tick accounting (`on_switch`, `ticks_run`, `recent_ticks`): what the engine
books to a process against the ticks it was current.

The engine hears of a switch from `preempt` and `voluntary_preempt`, which
say who runs next and when. `exit_current_rsp` does not, so the process it
switches to keeps the `run_start_tick` of its turn before, and its next turn
is booked from there.
-/
import ChodOs.Policy.Runs
import ChodOs.Policy.Seats

namespace ChodOs

open StepSys

/-- A turn that ended: whose it was, and how many ticks it took. -/
structure Turn where
  pid : Pid
  ticks : Nat
  deriving DecidableEq

/-- All the ticks of a process's turns. -/
def ticksOf (pid : Pid) (h : List Turn) : Nat := (h.map fun t => if t.pid = pid then t.ticks else 0).sum

@[simp] theorem ticksOf_nil (pid : Pid) : ticksOf pid [] = 0 := rfl

@[simp] theorem ticksOf_append (pid : Pid) (h es : List Turn) : ticksOf pid (h ++ es) = ticksOf pid h + ticksOf pid es := by
  simp only [ticksOf, List.map_append, List.sum_append]

@[simp] theorem ticksOf_single (pid : Pid) (t : Turn) : ticksOf pid [t] = if t.pid = pid then t.ticks else 0 := by
  simp [ticksOf]

theorem ticksOf_eq_zero {pid : Pid} {h : List Turn} (hno : ∀ t ∈ h, t.pid ≠ pid) : ticksOf pid h = 0 := by
  refine List.sum_eq_zero_iff_forall_eq_nat.mpr fun n hn => ?_
  obtain ⟨t, ht, rfl⟩ := List.mem_map.mp hn
  exact if_neg (hno t ht)

/-- `recent_ticks` of everybody registered. -/
def CpuStats.recent (s : CpuStats) : Nat := if s.active then s.recentTicks else 0

def recentTicks (e : PolicyEngine) : Nat := (e.stats.1.map CpuStats.recent).sum

/-- The call takes the processor away from the current process. -/
def Op.switches : Op → Bool
  | .preempt .. | .exit .. => true
  | _ => false

/-- The call with `TICK` as it reads it. -/
def Op.atTick (tick : Nat) : Op → Op
  | .preempt rsp voluntary c => .preempt rsp voluntary { c with tick }
  | .exit rsp c => .exit rsp { c with tick }
  | op => op

inductive ClockedOp
  /-- The timer adds one to `TICK`. -/
  | tick
  | call (op : Op)

/-- The kernel with `TICK`. -/
structure Clocked where
  kernel : Kernel
  now : Nat
  /-- `TICK` when the current process's turn began. -/
  since : Nat

namespace Clocked

/-- `scheduler::init`, with `TICK` as it found it. -/
def boot (mem : ChannelMem) (tick : Nat) : Clocked := { kernel := .init mem, now := tick, since := tick }

def step (s : Clocked) : ClockedOp → Option (List Turn × Clocked)
  | .tick => some ([], { s with now := s.now + 1 })
  | .call op => (s.kernel.step (op.atTick s.now)).map fun (_, kernel) =>
      if op.switches then ([⟨s.kernel.sched.currentPid, s.now - s.since⟩], { s with kernel, since := s.now })
      else ([], { s with kernel })

/-- Whoever an exit switches to was booked as starting at this very tick. -/
def FreshExits (_ : List Turn) (s : Clocked) : ClockedOp → Prop
  | .call (.exit rsp c) =>
    let k := s.kernel.exitCurrent rsp { c with tick := s.now }
    ∀ x ∈ k.engine.stats.1, PolicyEngine.isSlot k.sched.currentPid x = true → x.runStartTick = s.now
  | _ => True

instance (h : List Turn) (s : Clocked) (op : ClockedOp) : Decidable (FreshExits h s op) := by
  unfold FreshExits
  split <;> infer_instance

/-- The engine's accounts are exact: every registered process has the ticks of
its turns, and no more was booked in this window than its ticks so far, also
as a report finds the accounts if a switch ends the window now. -/
structure Exact (h : List Turn) (s : Clocked) : Prop where
  ticksRun : ∀ x ∈ s.kernel.engine.stats.1, x.active = true → x.ticksRun = ticksOf x.pid h
  recent : recentTicks s.kernel.engine ≤ s.now - s.kernel.engine.lastReportTick
  busy : ∀ next, recentTicks (s.kernel.engine.countSwitch s.kernel.sched.currentPid next s.now) ≤
    s.now - s.kernel.engine.lastReportTick

end Clocked

/-! ## What the calls book -/

/-- The part of a slot that says for how long its process ran. -/
structure CpuStats.SameTurn (x x' : CpuStats) : Prop where
  pid : x'.pid = x.pid
  active : x'.active = x.active
  ticksRun : x'.ticksRun = x.ticksRun
  runStartTick : x'.runStartTick = x.runStartTick

/-- A slot over a switch. -/
structure CpuStats.Switched (src dst : Pid) (tick : Nat) (x x' : CpuStats) : Prop where
  pid : x'.pid = x.pid
  active : x'.active = x.active
  ticksRun : x'.ticksRun = x.ticksRun + if PolicyEngine.isSlot src x then tick - x.runStartTick else 0
  runStartTick : x'.runStartTick = if PolicyEngine.isSlot dst x then tick else x.runStartTick

open PolicyEngine in
theorem countSwitch_slots {e : PolicyEngine} (hk : Slots.Keyed CpuStats.key e.stats.1) (src dst : Pid) (tick : Nat) :
    List.Forall₂ (CpuStats.Switched src dst tick) e.stats.1 (e.countSwitch src dst tick).stats.1 := by
  let ran := fun s : CpuStats =>
    { s with ticksRun := s.ticksRun + (tick - s.runStartTick), recentTicks := s.recentTicks + (tick - s.runStartTick) }
  have hran : Slots.Keyed CpuStats.key (Slots.updateFirst (isSlot src) ran e.stats.1) :=
    hk.forall₂ (Slots.updateFirst_forall₂ (fun _ _ h => h) (fun _ _ _ h => h) _)
  have hmap : (e.countSwitch src dst tick).stats.1 = (e.stats.1.map fun s => if isSlot src s then ran s else s).map
      fun s => if isSlot dst s then { s with runStartTick := tick, switchInCount := s.switchInCount + 1 } else s := by
    rw [← hk.updateFirst_eq_map (fun _ => isSlot_iff) ran]
    exact hran.updateFirst_eq_map (fun _ => isSlot_iff) _
  rw [hmap, List.map_map, List.forall₂_map_right_iff]
  refine List.forall₂_same.mpr fun x _ => ?_
  have hslot : isSlot dst (ran x) = isSlot dst x := rfl
  cases hs : isSlot src x <;> cases hd : isSlot dst x <;>
    exact ⟨by simp [hs, hd, hslot, ran], by simp [hs, hd, hslot, ran], by simp [hs, hd, hslot, ran],
      by simp [hs, hd, hslot, ran]⟩

section recent
variable {e : PolicyEngine}

/-- A switch books one turn. -/
theorem recentTicks_countSwitch {src tick n : Nat}
    (h : ∀ x ∈ e.stats.1, PolicyEngine.isSlot src x = true → tick - x.runStartTick ≤ n) (dst : Pid) :
    recentTicks (e.countSwitch src dst tick) ≤ recentTicks e + n := by
  -- Who starts is booked nothing.
  refine Nat.le_trans (Slots.sum_updateFirst_le (n := 0) fun _ _ _ => Nat.le_refl _) ?_
  refine Slots.sum_updateFirst_le fun x hx hs => ?_
  have hle := h x hx hs
  simp only [CpuStats.recent]
  split <;> omega

theorem recentTicks_unregister (pid : Pid) : recentTicks (e.unregister pid) ≤ recentTicks e := by
  refine Slots.sum_updateFirst_le (n := 0) fun x _ _ => ?_
  simp [CpuStats.recent]

theorem recentTicks_register (pid : Pid) : recentTicks (e.register pid) = recentTicks e := by
  simp only [PolicyEngine.register]
  split
  · rfl
  · refine congrArg List.sum (Slots.map_updateFirst (fun x hx => ?_) _)
    have hx : x.active = false := by simpa using hx
    simp [CpuStats.recent, CpuStats.empty, hx]

end recent

/-! ## A report -/

theorem scanProcess_sameTurn (enabled : Bool) (window : Nat) (st : CpuScan) (x : CpuStats) :
    x.SameTurn (scanProcess enabled window st x).2 ∧ (scanProcess enabled window st x).2.recent = 0 := by
  have happly : ∀ (pri : Priority) (st : CpuScan) (y : CpuStats), y.SameTurn (applyPriority pri st y).2 := by
    intro pri st y
    simp only [applyPriority]
    split <;> exact ⟨rfl, rfl, rfl, rfl⟩
  have halpha : ∀ (cur total : Nat) (y : CpuStats), y.SameTurn (tuneAlpha cur total y) := by
    intro cur total y
    simp only [tuneAlpha]
    split <;> exact ⟨rfl, rfl, rfl, rfl⟩
  simp only [scanProcess]
  split
  · next ha =>
    generalize (st.sched.getStats x.pid).getD (0, 0) = vf
    obtain ⟨vol, forced⟩ := vf
    simp only
    generalize (if vol + forced = 0 then x.volEma else vol * 1000 / (vol + forced)) = cur
    generalize ema (alphaLevels.getD x.alphaLevel 0) cur x.volEma = volEma
    have h₁ := halpha cur (vol + forced) { x with volEma }
    generalize tuneAlpha cur (vol + forced) { x with volEma } = t at h₁ ⊢
    have hclosed : ∀ y : CpuStats, t.SameTurn y →
        x.SameTurn { y with recentTicks := 0 } ∧ CpuStats.recent { y with recentTicks := 0 } = 0 := fun y h =>
      ⟨⟨h.pid.trans h₁.pid, h.active.trans h₁.active, h.ticksRun.trans h₁.ticksRun, h.runStartTick.trans h₁.runStartTick⟩,
        ite_self 0⟩
    cases enabled with
    | true => exact hclosed _ (happly (volPriority volEma) st t)
    | false => exact hclosed t ⟨rfl, rfl, rfl, rfl⟩
  · next ha => exact ⟨⟨rfl, rfl, rfl, rfl⟩, if_neg ha⟩

/-- The engine's own readings of the clock. -/
def PolicyEngine.readings (e : PolicyEngine) : Nat × Nat := (e.lastReportTick, e.totalTicks)

/-- The blocks of a report leave them alone. -/
theorem profileTuned_readings (k : Kernel) (tick : Nat) :
    (decayEpsilon (k.profileTuned tick)).readings = k.engine.readings := by
  obtain ⟨epsilon, he⟩ := decayEpsilon_eq (k.profileTuned tick)
  obtain ⟨rate, level, interval, bias, profile, hp⟩ := k.profileTuned_eq tick
  rw [he, hp]
  rfl

/-- The clock readings, the current process and the pids are as before. -/
structure SameClock (k k' : Kernel) : Prop where
  readings : k'.engine.readings = k.engine.readings
  currentPid : k'.sched.currentPid = k.sched.currentPid
  nextPid : k'.sched.nextPid = k.sched.nextPid

/-- A report starts the next window and leaves the rest of the accounts alone. -/
theorem report_closes {k k' : Kernel} {tick : Nat} {log : List PolicyEvent}
    (h : k.adaptAndReport tick = some (log, k')) : SameClock k k' ∧
      List.Forall₂ CpuStats.SameTurn k.engine.stats.1 k'.engine.stats.1 ∧ recentTicks k'.engine = 0 := by
  have hstable : PolicyStable fun sc _ => sc.currentPid = k.sched.currentPid ∧ sc.nextPid = k.sched.nextPid :=
    { pri := fun pid p h => ⟨(Scheduler.currentPid_updatePid fun _ => by rfl).trans h.1, h.2⟩
      cpu := fun pid cpu h => ⟨(Scheduler.currentPid_updatePid fun _ => by rfl).trans h.1, h.2⟩
      ensure := fun h _ => h
      drop := fun _ _ h => h }
  obtain ⟨hcur, hnext⟩ := hstable.report ⟨rfl, rfl⟩ h
  obtain ⟨k₃, hbefore, rfl⟩ := Kernel.adaptAndReport_readied h
  have hready := Kernel.beforeDecay_readied hbefore
  have hstats : (k₃.decay tick).2.engine.stats = (k.scanned tick).2 :=
    (decay_frame tick k₃).2.2.1.trans hready.tables.2.2.2.1
  have hbase : (k.intervalTuned tick).stats = k.engine.stats := (tuneInterval_frame _ _).2.2.1
  refine ⟨⟨?_, hcur, hnext⟩, ?_, ?_⟩
  · obtain ⟨q, rng, evict, hdecay⟩ := decay_engine k₃ tick
    obtain ⟨n, mem, -, hengine⟩ := hready.engine
    have hkept : (k₃.decay tick).2.engine.readings = k₃.engine.readings := by rw [hdecay]; rfl
    have hready : k₃.engine.readings = (decayEpsilon (k.profileTuned tick)).readings := by rw [hengine]; rfl
    exact hkept.trans (hready.trans (profileTuned_readings k tick))
  · rw [hstats, ← hbase]
    exact Slots.mapAccum_forall₂ (fun st x => (scanProcess_sameTurn _ _ st x).1) _ _
  · rw [recentTicks, hstats]
    refine List.sum_eq_zero_iff_forall_eq_nat.mpr fun n hn => ?_
    obtain ⟨x', hx', rfl⟩ := List.mem_map.mp hn
    obtain ⟨x, -, hx⟩ := Slots.forall₂_mem_right (Slots.mapAccum_forall₂ (R := fun _ b => CpuStats.recent b = 0)
      (fun st x => (scanProcess_sameTurn k.policyEnabled (max k.engine.reportInterval 1) st x).2) _ _) hx'
    exact hx

/-! ## Every call -/

/-- Who is current is told by the pids of the table. -/
theorem Scheduler.currentPid_congr {s s' : Scheduler} (hpids : s'.processes.map (·.pid) = s.processes.map (·.pid))
    (hcur : s'.current = s.current) : s'.currentPid = s.currentPid := by
  refine Option.some.inj ?_
  rw [currentPid_eq, currentPid_eq, hpids, hcur]

theorem SameClock.of_sched {k k' : Kernel} (he : k'.engine = k.engine)
    (hpids : k'.sched.processes.map (·.pid) = k.sched.processes.map (·.pid)) (hcur : k'.sched.current = k.sched.current)
    (hnext : k'.sched.nextPid = k.sched.nextPid) : SameClock k k' :=
  ⟨by rw [he], Scheduler.currentPid_congr hpids hcur, hnext⟩

/-- What a call does to the accounts. -/
inductive Kernel.Books (k : Kernel) : Op → Kernel → Prop
  | still {a : Op} {k' : Kernel} : a.switches = false → SameClock k k' → k'.engine.stats = k.engine.stats → Kernel.Books k a k'
  | spawn (rsp : Nat) : Kernel.Books k (.spawn rsp) (k.spawnNew rsp)
  | kill (pid : Pid) : Kernel.Books k (.kill pid) (k.kill pid)
  | exit (rsp : Nat) (c : Clock) : Kernel.Books k (.exit rsp c) (k.exitCurrent rsp c)
  | count {rsp : Nat} {voluntary : Bool} {c : Clock} {sched : Scheduler} : k.sched.SameTasks sched →
      Kernel.Books k (.preempt rsp voluntary c)
        { k with sched, engine := k.engine.countSwitch k.sched.currentPid sched.currentPid c.tick }
  | report {rsp : Nat} {voluntary : Bool} {c : Clock} {log : List PolicyEvent} {k' : Kernel} :
      (k.switched rsp voluntary c).adaptAndReport c.tick = some (log, k') → Kernel.Books k (.preempt rsp voluntary c) k'

theorem step_books {k k' : Kernel} {a : Op} {es : List KernelEvent} (h : k.step a = some (es, k')) : k.Books a k' := by
  cases a with
  | preempt rsp voluntary c =>
    simp only [Kernel.step, Option.map_eq_some_iff, Prod.mk.injEq] at h
    obtain ⟨⟨log, k₁⟩, hp, -, rfl⟩ := h
    simp only [Kernel.preempt, Kernel.onSwitch] at hp
    split at hp
    · exact .report hp
    · cases hp
      exact .count (Scheduler.sameTasks_doPreempt k.sched rsp voluntary c)
  | exit rsp c => cases h; exact .exit rsp c
  | spawn rsp => cases h; exact .spawn rsp
  | kill pid => cases h; exact .kill pid
  | sleep ticks =>
    cases h
    exact .still rfl (.of_sched rfl (Scheduler.sameTasks_requestSleep _ _).pids rfl rfl) rfl
  | setMode mode =>
    cases h
    have hs := Scheduler.sameTasks_setMode k.sched mode
    refine .still rfl (.of_sched rfl hs.pids ?_ hs.nextPid) rfl
    simp only [Scheduler.setMode]
    split <;> rfl
  | keyboardBoost =>
    cases h
    have hs := Scheduler.sameTasks_keyboardBoost k.sched
    split
    · refine .still rfl (.of_sched rfl hs.pids ?_ hs.nextPid) rfl
      simp only [Scheduler.keyboardBoost]
      split <;> rfl
    · exact .still rfl ⟨rfl, rfl, rfl⟩ rfl
  | boostPid pid ticks =>
    cases h
    split
    · exact .still rfl (.of_sched rfl (Scheduler.sameTasks_boostPid _ _ _).pids rfl rfl) rfl
    · exact .still rfl ⟨rfl, rfl, rfl⟩ rfl
  | reapDead => cases h; exact .still rfl (.of_sched rfl (map_reapDead k.sched fun _ => rfl) rfl rfl) rfl
  | send dst data =>
    simp only [Kernel.step, Option.map_eq_some_iff, Prod.mk.injEq] at h
    obtain ⟨⟨ok, k₁⟩, hs, -, rfl⟩ := h
    simp only [Kernel.send] at hs
    split at hs
    · simp only [Option.map_eq_some_iff, Prod.mk.injEq] at hs
      obtain ⟨⟨ok', ipc⟩, -, -, rfl⟩ := hs
      exact .still rfl ⟨rfl, rfl, rfl⟩ rfl
    · cases hs
      refine .still rfl ⟨rfl, Scheduler.currentPid_congr ?_ rfl, rfl⟩ rfl
      exact (Scheduler.pids_updatePid (Process.push_pid _)).trans
        (Scheduler.map_updateCurrent fun p => p.recordIpcSend_pid dst)
  | recv =>
    simp only [Kernel.step, Option.map_eq_some_iff, Prod.mk.injEq] at h
    obtain ⟨⟨msg, k₁⟩, hr, -, rfl⟩ := h
    obtain ⟨ipc, -, -, rfl | rfl⟩ := recv_cases hr
    · exact .still rfl ⟨rfl, rfl, rfl⟩ rfl
    · exact .still rfl (.of_sched rfl (Scheduler.map_updateCurrent fun _ => rfl) rfl rfl) rfl
  | ensure src dst =>
    simp only [Kernel.step, Option.map_eq_some_iff, Prod.mk.injEq] at h
    obtain ⟨⟨id, ipc⟩, -, -, rfl⟩ := h
    exact .still rfl ⟨rfl, rfl, rfl⟩ rfl
  | mmap pid | pageFault pid | observe src dst count bytes | drop src dst | setEnabled enabled =>
    cases h
    exact .still rfl ⟨rfl, rfl, rfl⟩ rfl

theorem CpuStats.Switched.sameTurn {src dst : Pid} {tick : Nat} {x y z : CpuStats} (h : x.Switched src dst tick y)
    (h' : y.SameTurn z) : x.Switched src dst tick z :=
  ⟨h'.pid.trans h.pid, h'.active.trans h.active, h'.ticksRun.trans h.ticksRun, h'.runStartTick.trans h.runStartTick⟩

/-- A switch, with its report or without. -/
structure Kernel.Counts (k : Kernel) (tick : Nat) (k' : Kernel) : Prop where
  slots : List.Forall₂ (CpuStats.Switched k.sched.currentPid k'.sched.currentPid tick) k.engine.stats.1 k'.engine.stats.1
  nextPid : k'.sched.nextPid = k.sched.nextPid
  totalTicks : k'.engine.totalTicks = tick
  window : k'.engine.lastReportTick = k.engine.lastReportTick ∧
      recentTicks k'.engine = recentTicks (k.engine.countSwitch k.sched.currentPid k'.sched.currentPid tick) ∨
    k'.engine.lastReportTick = tick ∧ recentTicks k'.engine = 0

theorem Kernel.Books.counts {k k' : Kernel} {rsp : Nat} {voluntary : Bool} {c : Clock} (hw : k.Wf)
    (h : k.Books (.preempt rsp voluntary c) k') : k.Counts c.tick k' := by
  cases h with
  | still hno => cases hno
  | count hsame => exact ⟨countSwitch_slots hw.slots _ _ _, hsame.nextPid, rfl, .inl ⟨rfl, rfl⟩⟩
  | report hr =>
    obtain ⟨hclock, hslots, hrecent⟩ := report_closes hr
    have hsame := Scheduler.sameTasks_doPreempt k.sched rsp voluntary c
    have hread : (k'.engine.lastReportTick, k'.engine.totalTicks) = (c.tick, c.tick) := hclock.readings
    refine ⟨?_, hclock.nextPid.trans hsame.nextPid, congrArg Prod.snd hread, .inr ⟨congrArg Prod.fst hread, hrecent⟩⟩
    rw [hclock.currentPid]
    exact Slots.forall₂_comp (countSwitch_slots hw.slots _ _ c.tick) hslots fun h h' => h.sameTurn h'

/-! ## Runs -/

theorem Op.switches_atTick (tick : Nat) (op : Op) : (op.atTick tick).switches = op.switches := by
  cases op <;> rfl

theorem Op.atTick_eq_preempt {tick rsp : Nat} {voluntary : Bool} {c : Clock} {op : Op}
    (h : op.atTick tick = .preempt rsp voluntary c) : c.tick = tick := by
  cases op <;> cases h
  rfl

theorem Op.atTick_eq_exit {tick rsp : Nat} {c : Clock} {op : Op} (h : op.atTick tick = .exit rsp c) :
    ∃ c', op = .exit rsp c' ∧ c = { c' with tick } := by
  cases op <;> cases h
  exact ⟨_, rfl, rfl⟩

theorem Kernel.Wf.currentPid_lt {k : Kernel} (h : k.Wf) : k.sched.currentPid < k.sched.nextPid :=
  h.fresh _ (List.mem_map_of_mem (List.get_mem _ _))

namespace Clocked

variable {h es : List Turn} {s s' : Clocked}

/-- A slot whose ticks are those of its process's turns. -/
structure BookedSlot (h : List Turn) (s : Clocked) (x : CpuStats) : Prop where
  pid : x.pid < s.kernel.sched.nextPid
  started : x.runStartTick ≤ s.now
  ticksRun : x.ticksRun = ticksOf x.pid h

/-- What no exit breaks. -/
structure Booked (h : List Turn) (s : Clocked) : Prop where
  wf : s.kernel.Wf
  since : s.since ≤ s.now
  totalTicks : s.kernel.engine.totalTicks ≤ s.now
  turns : ∀ t ∈ h, t.pid < s.kernel.sched.nextPid
  slots : ∀ x ∈ s.kernel.engine.stats.1, x.active = true → BookedSlot h s x

/-- The current process is booked as starting when its turn began. -/
structure Inv (h : List Turn) (s : Clocked) : Prop extends Booked h s where
  reported : s.kernel.engine.lastReportTick ≤ s.since
  fresh : ∀ x ∈ s.kernel.engine.stats.1, PolicyEngine.isSlot s.kernel.sched.currentPid x = true → x.runStartTick = s.since
  recent : recentTicks s.kernel.engine ≤ s.since - s.kernel.engine.lastReportTick

theorem step_call {op : Op} (hw : s.kernel.Wf) (hs : s.step (.call op) = some (es, s')) :
    ∃ k', s.kernel.Books (op.atTick s.now) k' ∧ k'.Wf ∧
      (op.switches = true ∧ es = [⟨s.kernel.sched.currentPid, s.now - s.since⟩] ∧
          s' = { kernel := k', now := s.now, since := s.now } ∨
        op.switches = false ∧ es = [] ∧ s' = { s with kernel := k' }) := by
  simp only [step, Option.map_eq_some_iff] at hs
  obtain ⟨⟨log, kernel⟩, hk, hs⟩ := hs
  refine ⟨kernel, step_books hk, hw.step hk, ?_⟩
  cases hop : op.switches with
  | true =>
    rw [hop, if_pos rfl] at hs
    cases hs
    exact .inl ⟨rfl, rfl, rfl⟩
  | false =>
    rw [hop, if_neg Bool.false_ne_true] at hs
    cases hs
    exact .inr ⟨rfl, rfl, rfl⟩

theorem BookedSlot.next {x x' : CpuStats} (hx : BookedSlot h s x) (hnow : s'.now = s.now)
    (hnext : s.kernel.sched.nextPid ≤ s'.kernel.sched.nextPid) (hpid : x'.pid = x.pid) (hstart : x'.runStartTick ≤ s.now)
    (hran : x'.ticksRun = x.ticksRun + ticksOf x.pid es) : BookedSlot (h ++ es) s' x' where
  pid := hpid ▸ Nat.lt_of_lt_of_le hx.pid hnext
  started := hnow ▸ hstart
  ticksRun := by rw [hran, hx.ticksRun, hpid, ticksOf_append]

/-- Whoever is registered after an `unregister` was so before, and is somebody else. -/
theorem mem_unregister {e : PolicyEngine} (hk : Slots.Keyed CpuStats.key e.stats.1) {pid : Pid} {x : CpuStats}
    (hx : x ∈ (e.unregister pid).stats.1) (ha : x.active = true) : x ∈ e.stats.1 ∧ x.pid ≠ pid := by
  have hmap : (e.unregister pid).stats.1 = _ := hk.updateFirst_eq_map (fun _ => isSlot_iff) _
  rw [hmap] at hx
  obtain ⟨y, hy, rfl⟩ := List.mem_map.mp hx
  by_cases hs : PolicyEngine.isSlot pid y = true
  · rw [if_pos hs] at ha
    cases ha
  · rw [if_neg hs] at ha ⊢
    exact ⟨hy, fun hp => hs (isSlot_iff.mpr (CpuStats.key_eq_some.mpr ⟨ha, hp⟩))⟩

/-- A call that is no switch books nothing. -/
theorem Booked.calm (hb : Booked h s) {op : Op} {k' : Kernel} (hop : op.switches = false) (hw : k'.Wf)
    (hbooks : s.kernel.Books op k') : Booked (h ++ []) { s with kernel := k' } := by
  have hslot : ∀ {x}, s.kernel.sched.nextPid ≤ k'.sched.nextPid → x ∈ s.kernel.engine.stats.1 → x.active = true →
      BookedSlot (h ++ []) { s with kernel := k' } x := fun hnext hx ha =>
    (hb.slots _ hx ha).next rfl hnext rfl (hb.slots _ hx ha).started rfl
  have hturns : s.kernel.sched.nextPid ≤ k'.sched.nextPid → ∀ t ∈ h ++ [], t.pid < k'.sched.nextPid := by
    intro hnext t ht
    rw [List.append_nil] at ht
    exact Nat.lt_of_lt_of_le (hb.turns t ht) hnext
  cases hbooks with
  | still hno hclock hstats =>
    have hnext := Nat.le_of_eq hclock.nextPid.symm
    have htotal : k'.engine.totalTicks = s.kernel.engine.totalTicks := congrArg Prod.snd hclock.readings
    refine ⟨hw, hb.since, ?_, hturns hnext, fun x hx ha => hslot hnext (hstats ▸ hx) ha⟩
    rw [htotal]
    exact hb.totalTicks
  | spawn rsp =>
    have hnext : s.kernel.sched.nextPid ≤ (s.kernel.spawnNew rsp).sched.nextPid := Nat.le_succ _
    obtain ⟨stats, heq, hstats⟩ := s.kernel.engine.register_cases s.kernel.sched.nextPid
    have hengine : (s.kernel.spawnNew rsp).engine = { s.kernel.engine with stats } := heq
    refine ⟨hw, hb.since, ?_, hturns hnext, fun x hx ha => ?_⟩
    · rw [hengine]
      exact hb.totalTicks
    · rw [hengine] at hx
      rcases hstats with rfl | rfl
      · exact hslot hnext hx ha
      · rcases Slots.mem_updateFirst hx with hx | ⟨y, -, -, rfl⟩
        · exact hslot hnext hx ha
        · -- Nobody had this pid before.
          refine ⟨Nat.lt_succ_self _, hb.totalTicks, Eq.symm (ticksOf_eq_zero fun t ht => ?_)⟩
          rw [List.append_nil] at ht
          exact Nat.ne_of_lt (hb.turns t ht)
  | kill pid =>
    refine ⟨hw, hb.since, hb.totalTicks, hturns (Nat.le_refl _), fun x hx ha => ?_⟩
    exact hslot (Nat.le_refl _) (mem_unregister hb.wf.slots hx ha).1 ha
  | exit | count | report => cases hop

/-- An exit ends a turn that nobody is booked for any more. -/
theorem Booked.exit (hb : Booked h s) {rsp : Nat} {c : Clock} (hw : (s.kernel.exitCurrent rsp c).Wf) :
    Booked (h ++ [⟨s.kernel.sched.currentPid, s.now - s.since⟩])
      { kernel := s.kernel.exitCurrent rsp c, now := s.now, since := s.now } := by
  have hnext : (s.kernel.exitCurrent rsp c).sched.nextPid = s.kernel.sched.nextPid :=
    (Scheduler.sameTasks_exitCurrent s.kernel.sched rsp c).nextPid
  refine ⟨hw, Nat.le_refl _, hb.totalTicks, fun t ht => ?_, fun x hx ha => ?_⟩
  · rw [hnext]
    rcases List.mem_append.mp ht with ht | ht
    · exact hb.turns t ht
    · cases List.mem_singleton.mp ht
      exact hb.wf.currentPid_lt
  · obtain ⟨hx, hother⟩ := mem_unregister hb.wf.slots hx ha
    refine (hb.slots x hx ha).next rfl (Nat.le_of_eq hnext.symm) rfl (hb.slots x hx ha).started ?_
    rw [ticksOf_single, if_neg (Ne.symm hother)]
    rfl

/-- A switch books a turn to the process that has it. -/
theorem Booked.preempt (hb : Booked h s) {k' : Kernel} (hw : k'.Wf) (hc : s.kernel.Counts s.now k')
    (hfresh : ∀ x ∈ s.kernel.engine.stats.1,
      PolicyEngine.isSlot s.kernel.sched.currentPid x = true → x.runStartTick = s.since) :
    Booked (h ++ [⟨s.kernel.sched.currentPid, s.now - s.since⟩]) { kernel := k', now := s.now, since := s.now } := by
  have hnext := hc.nextPid
  refine ⟨hw, Nat.le_refl _, Nat.le_of_eq hc.totalTicks, fun t ht => ?_, fun x' hx' ha' => ?_⟩
  · rw [hnext]
    rcases List.mem_append.mp ht with ht | ht
    · exact hb.turns t ht
    · cases List.mem_singleton.mp ht
      exact hb.wf.currentPid_lt
  · obtain ⟨x, hx, hsw⟩ := Slots.forall₂_mem_right hc.slots hx'
    have ha : x.active = true := hsw.active ▸ ha'
    have hslot := hb.slots x hx ha
    refine hslot.next rfl (Nat.le_of_eq hnext.symm) hsw.pid ?_ ?_
    · rw [hsw.runStartTick]
      have hstarted := hslot.started
      split <;> omega
    · rw [hsw.ticksRun, ticksOf_single]
      by_cases hcur : x.pid = s.kernel.sched.currentPid
      · have hsrc : PolicyEngine.isSlot s.kernel.sched.currentPid x = true :=
          isSlot_iff.mpr (CpuStats.key_eq_some.mpr ⟨ha, hcur⟩)
        rw [if_pos hsrc, if_pos hcur.symm, hfresh x hx hsrc]
      · have hsrc : ¬PolicyEngine.isSlot s.kernel.sched.currentPid x = true := fun hs =>
          hcur (CpuStats.key_eq_some.mp (isSlot_iff.mp hs)).2
        rw [if_neg hsrc, if_neg (Ne.symm hcur)]

theorem Inv.calm (hi : Inv h s) {op : Op} {k' : Kernel} (hop : op.switches = false) (hw : k'.Wf)
    (hbooks : s.kernel.Books op k') : Inv (h ++ []) { s with kernel := k' } := by
  have hb := hi.toBooked.calm hop hw hbooks
  cases hbooks with
  | still hno hclock hstats =>
    have hreport : k'.engine.lastReportTick = s.kernel.engine.lastReportTick := congrArg Prod.fst hclock.readings
    have hrecent : recentTicks k'.engine = recentTicks s.kernel.engine := by rw [recentTicks, hstats]; rfl
    refine ⟨hb, ?_, fun x hx hs => ?_, ?_⟩
    · rw [hreport]
      exact hi.reported
    · rw [hclock.currentPid] at hs
      exact hi.fresh x (hstats ▸ hx) hs
    · rw [hreport, hrecent]
      exact hi.recent
  | spawn rsp =>
    obtain ⟨stats, heq, hstats⟩ := s.kernel.engine.register_cases s.kernel.sched.nextPid
    have hengine : (s.kernel.spawnNew rsp).engine = { s.kernel.engine with stats } := heq
    have hcur : (s.kernel.spawnNew rsp).sched.currentPid = s.kernel.sched.currentPid := by
      obtain ⟨p, hp, -⟩ := spawnNew_processes s.kernel rsp
      refine Option.some.inj ?_
      rw [Scheduler.currentPid_eq, Scheduler.currentPid_eq, hp, List.map_append]
      exact List.getElem?_append_left (by rw [List.length_map]; exact s.kernel.sched.current_lt)
    refine ⟨hb, ?_, fun x hx hs => ?_, ?_⟩
    · rw [hengine]
      exact hi.reported
    · rw [hengine] at hx
      rw [hcur] at hs
      rcases hstats with rfl | rfl
      · exact hi.fresh x hx hs
      · rcases Slots.mem_updateFirst hx with hx | ⟨y, -, -, rfl⟩
        · exact hi.fresh x hx hs
        · have hpid : s.kernel.sched.nextPid = s.kernel.sched.currentPid :=
            (CpuStats.key_eq_some.mp (isSlot_iff.mp hs)).2
          exact absurd hpid (Nat.ne_of_gt hi.wf.currentPid_lt)
    · have hrecent : recentTicks (s.kernel.spawnNew rsp).engine = recentTicks s.kernel.engine := recentTicks_register _
      rw [hrecent, hengine]
      exact hi.recent
  | kill pid =>
    refine ⟨hb, hi.reported, fun x hx hs => ?_, Nat.le_trans (recentTicks_unregister pid) hi.recent⟩
    have hcur : (s.kernel.kill pid).sched.currentPid = s.kernel.sched.currentPid :=
      Scheduler.currentPid_updatePid fun _ => rfl
    rw [hcur] at hs
    have ha : x.active = true := (CpuStats.key_eq_some.mp (isSlot_iff.mp hs)).1
    exact hi.fresh x (mem_unregister hi.wf.slots hx ha).1 hs
  | exit | count | report => cases hop

theorem Inv.preempt (hi : Inv h s) {k' : Kernel} (hw : k'.Wf) (hc : s.kernel.Counts s.now k') :
    Inv (h ++ [⟨s.kernel.sched.currentPid, s.now - s.since⟩]) { kernel := k', now := s.now, since := s.now } := by
  have hsince := hi.since
  have hreported := hi.reported
  have hrecent := hi.recent
  have hcounted := recentTicks_countSwitch (fun x hx hs => Nat.le_of_eq (congrArg (s.now - ·) (hi.fresh x hx hs)))
    k'.sched.currentPid
  refine ⟨hi.toBooked.preempt hw hc hi.fresh, ?_, fun x' hx' hs' => ?_, ?_⟩
  · change k'.engine.lastReportTick ≤ s.now
    rcases hc.window with ⟨hsame, -⟩ | ⟨hnow, -⟩ <;> omega
  · obtain ⟨x, hx, hsw⟩ := Slots.forall₂_mem_right hc.slots hx'
    have hdst : PolicyEngine.isSlot k'.sched.currentPid x = true := by
      rw [← hs', PolicyEngine.isSlot, PolicyEngine.isSlot, hsw.pid, hsw.active]
    rw [hsw.runStartTick, if_pos hdst]
  · change recentTicks k'.engine ≤ s.now - k'.engine.lastReportTick
    rcases hc.window with ⟨hsame, hbooked⟩ | ⟨hnow, hzero⟩
    · rw [hsame, hbooked]
      omega
    · rw [hzero]
      exact Nat.zero_le _

theorem Inv.exact (hi : Inv h s) : Exact h s := by
  have hsince := hi.since
  have hreported := hi.reported
  have hrecent := hi.recent
  refine ⟨fun x hx ha => (hi.slots x hx ha).ticksRun, by omega, fun next => ?_⟩
  have hcounted := recentTicks_countSwitch (fun x hx hs => Nat.le_of_eq (congrArg (s.now - ·) (hi.fresh x hx hs))) next
  omega

theorem Inv.step {op : ClockedOp} (hi : Inv h s) (hok : FreshExits h s op) (hs : s.step op = some (es, s')) :
    Inv (h ++ es) s' := by
  cases op with
  | tick =>
    cases hs
    rw [List.append_nil]
    have hslots : ∀ x ∈ s.kernel.engine.stats.1, x.active = true → BookedSlot h { s with now := s.now + 1 } x :=
      fun x hx ha => have hx := hi.slots x hx ha; ⟨hx.pid, Nat.le_succ_of_le hx.started, hx.ticksRun⟩
    exact ⟨⟨hi.wf, Nat.le_succ_of_le hi.since, Nat.le_succ_of_le hi.totalTicks, hi.turns, hslots⟩, hi.reported, hi.fresh,
      hi.recent⟩
  | call op =>
    obtain ⟨k', hbooks, hw, ⟨hop, rfl, rfl⟩ | ⟨hop, rfl, rfl⟩⟩ := step_call hi.wf hs
    · generalize ha : op.atTick s.now = a at hbooks
      cases a with
      | preempt rsp voluntary c =>
        have hc := hbooks.counts hi.wf
        rw [Op.atTick_eq_preempt ha] at hc
        exact hi.preempt hw hc
      | exit rsp c =>
        obtain ⟨c, rfl, rfl⟩ := Op.atTick_eq_exit ha
        cases hbooks with
        | still hno => cases hno
        | exit =>
          have hsince := hi.since
          have hreported := hi.reported
          have hrecent := hi.recent
          have hle := recentTicks_unregister (e := s.kernel.engine) s.kernel.sched.currentPid
          refine ⟨hi.toBooked.exit hw, ?_, hok, ?_⟩
          · exact Nat.le_trans hreported hsince
          · change recentTicks (s.kernel.engine.unregister s.kernel.sched.currentPid) ≤
              s.now - s.kernel.engine.lastReportTick
            omega
      | _ => rw [← Op.switches_atTick s.now, ha] at hop; cases hop
    · rw [← Op.switches_atTick s.now] at hop
      exact hi.calm hop hw hbooks

theorem Booked.boot (mem : ChannelMem) (tick : Nat) : Booked [] (boot mem tick) := by
  refine ⟨.init mem, Nat.le_refl _, Nat.zero_le _, nofun, fun x hx ha => ?_⟩
  rcases Slots.mem_updateFirst hx with hx | ⟨y, -, -, rfl⟩
  · rw [List.eq_of_mem_replicate hx] at ha
    cases ha
  · exact ⟨Nat.zero_lt_one, Nat.zero_le _, rfl⟩

theorem Inv.boot (mem : ChannelMem) : Inv [] (boot mem 0) := by
  refine ⟨.boot mem 0, Nat.le_refl _, fun x hx hs => ?_, ?_⟩
  · have hstarted := ((Booked.boot mem 0).slots x hx (CpuStats.key_eq_some.mp (isSlot_iff.mp hs)).1).started
    exact Nat.le_zero.mp hstarted
  · have hrecent : recentTicks (PolicyEngine.newConst.register 0) = recentTicks .newConst := recentTicks_register 0
    have hzero : recentTicks PolicyEngine.newConst = 0 := by decide
    exact Nat.le_of_eq (hrecent.trans hzero)

/-- A current process that is booked as starting before its turn began is
booked too much when its turn ends. -/
theorem Booked.overcounts (hb : Booked h s) {x : CpuStats} (hx : x ∈ s.kernel.engine.stats.1)
    (hcur : PolicyEngine.isSlot s.kernel.sched.currentPid x = true) (hlt : x.runStartTick < s.since) {rsp : Nat}
    {voluntary : Bool} {c : Clock} (hs : s.step (.call (.preempt rsp voluntary c)) = some (es, s')) :
    ¬Exact (h ++ es) s' := by
  intro hexact
  obtain ⟨k', hbooks, -, ⟨-, rfl, rfl⟩ | ⟨hop, -⟩⟩ := step_call hb.wf hs
  · obtain ⟨x', hx', hsw⟩ := Slots.forall₂_mem_right (hbooks.counts hb.wf).slots.flip hx
    obtain ⟨ha, hpid⟩ := CpuStats.key_eq_some.mp (isSlot_iff.mp hcur)
    have htrue := hexact.ticksRun x' hx' (hsw.active.trans ha)
    have hbefore := (hb.slots x hx ha).ticksRun
    have hbooked : x'.ticksRun = x.ticksRun + (s.now - x.runStartTick) := by
      rw [hsw.ticksRun, if_pos hcur]
    rw [ticksOf_append, ticksOf_single, hsw.pid, if_pos hpid.symm] at htrue
    have hsince := hb.since
    change x'.ticksRun = ticksOf x.pid h + (s.now - s.since) at htrue
    omega
  · cases hop

end Clocked

open Clocked

/-- From a boot at tick 0 on the accounts are exact as long as every exit
switches to a process that is booked as starting then; and after any other exit
they are wrong from the next switch on. -/
theorem ticks_exact_while_exits_are_fresh {mem : ChannelMem} {h : List Turn} {s : Clocked}
    (hr : Runs Clocked.step FreshExits (boot mem 0) h s) :
    Exact h s ∧ ∀ rsp c es₁ s₁ rsp' voluntary c' es₂ s₂, ¬FreshExits h s (.call (.exit rsp c)) →
      s.step (.call (.exit rsp c)) = some (es₁, s₁) →
      s₁.step (.call (.preempt rsp' voluntary c')) = some (es₂, s₂) → ¬Exact (h ++ es₁ ++ es₂) s₂ := by
  have hi := hr.invariant Inv (Inv.boot mem) fun hi hok hs => hi.step hok hs
  refine ⟨hi.exact, fun rsp c es₁ s₁ rsp' voluntary c' es₂ s₂ hno h₁ h₂ => ?_⟩
  obtain ⟨k', hbooks, hw, ⟨-, rfl, rfl⟩ | ⟨hop, -⟩⟩ := step_call hi.wf h₁
  · cases hbooks with
    | still hno => cases hno
    | exit =>
      have hb := hi.toBooked.exit hw
      simp only [FreshExits, not_forall] at hno
      obtain ⟨x, hx, hcur, hne⟩ := hno
      have hstarted := (hb.slots x hx (CpuStats.key_eq_some.mp (isSlot_iff.mp hcur)).1).started
      exact hb.overcounts hx hcur (Nat.lt_of_le_of_ne hstarted hne) h₂
  · cases hop

/-- A boot at a later tick books the ticks before it to `kernel_main`. -/
theorem late_boot_overcounts {mem : ChannelMem} {tick : Nat} (hlate : 0 < tick) {rsp : Nat} {voluntary : Bool}
    {c : Clock} {es : List Turn} {s : Clocked}
    (hs : (boot mem tick).step (.call (.preempt rsp voluntary c)) = some (es, s)) : ¬Exact es s :=
  (Booked.boot mem tick).overcounts (x := { CpuStats.empty with pid := 0, active := true, runStartTick := 0 })
    List.mem_cons_self rfl hlate hs

/-- A yield, whatever the time. -/
def clockedYield : ClockedOp := .call (yieldAt 0)

/-- The current process exits. -/
def clockedExit : ClockedOp := .call (.exit 0 { tick := 0, tscOut := 0, tscIn := 0, cpu := 0 })

/-- A process that is spawned in the tick of an exit is the next to run; a
report comes after its turn. -/
theorem ticks_exact_spawned_at_exit : ∃ h s, Runs Clocked.step FreshExits (boot (.ofFrames 16) 0) h s ∧
    ticksOf 2 h = 40 ∧ Exact h s := by
  obtain ⟨h, s, hr, hP⟩ := Runs.of_exec Clocked.step FreshExits (boot (.ofFrames 16) 0)
    ([.call (.spawn 0)] ++ List.replicate 10 .tick ++ [clockedYield, .call (.spawn 0), clockedExit] ++ List.replicate 40 .tick ++
      [clockedYield]) (fun h s => ticksOf 2 h == 40 && s.kernel.engine.lastReportTick == 50) (by decide)
  simp only [Bool.and_eq_true, beq_iff_eq] at hP
  exact ⟨h, s, hr, hP.1, (ticks_exact_while_exits_are_fresh hr).1⟩

/-- Not in every run: `kernel_main` gets the processor back from a process that
exits, and is booked 40 ticks for the 20 it ran. -/
theorem ticks_inexact_after_exit :
    ¬∀ (mem : ChannelMem) (h : List Turn) (s : Clocked), Runs Clocked.step free (boot mem 0) h s → Exact h s := by
  intro hall
  obtain ⟨h, s, hr, hP⟩ := Runs.of_exec Clocked.step free (boot (.ofFrames 16) 0)
    ([.call (.spawn 0)] ++ List.replicate 10 .tick ++ [clockedYield] ++ List.replicate 10 .tick ++ [clockedExit] ++
      List.replicate 10 .tick ++ [clockedYield])
    (fun h s => decide (ticksOf 0 h = 20) && s.kernel.engine.stats.1.any fun x =>
      x.active && x.pid == 0 && x.ticksRun == 40) (by decide)
  simp only [Bool.and_eq_true, decide_eq_true_eq, List.any_eq_true, beq_iff_eq] at hP
  obtain ⟨hran, x, hx, ⟨ha, hpid⟩, hticks⟩ := hP
  have hexact := (hall _ h s hr).ticksRun x hx ha
  rw [hticks, hpid, hran] at hexact
  cases hexact

end ChodOs
