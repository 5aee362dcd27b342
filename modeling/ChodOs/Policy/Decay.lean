/-
How long a channel that is in use lives. Once a pair has its channel its
sends go past `observe_ipc`, so every report from then on counts a cold
window for it, whatever the pair sends.
-/
import ChodOs.Machine

namespace ChodOs

open StepSys

/-! ## Windows -/

/-- An evaluation of a pair's entry. -/
def KernelEvent.evaluates (p : Pid × Pid) : KernelEvent → Bool
  | .policy (.evaluated src dst _) => decide ((src, dst) = p)
  | _ => false

/-- The reports that found the pair's entry in the table. -/
def evaluations (p : Pid × Pid) (h : List KernelEvent) : Nat := h.countP (KernelEvent.evaluates p)

theorem evaluations_append (p : Pid × Pid) (h h' : List KernelEvent) :
    evaluations p (h ++ h') = evaluations p h + evaluations p h' := List.countP_append

theorem evaluations_ipc {p : Pid × Pid} {es : List KernelEvent} (h : ∀ e ∈ es, ∃ x, e = .ipc x) :
    evaluations p es = 0 := by
  refine List.countP_eq_zero.mpr fun e he => ?_
  obtain ⟨x, rfl⟩ := h e he
  simp [KernelEvent.evaluates]

theorem evaluates_events (p : Pid × Pid) (e : IpcEntry) :
    (e.events.map KernelEvent.policy).countP (KernelEvent.evaluates p) = if e.key = some p then 1 else 0 := by
  cases ha : e.active with
  | false => simp [IpcEntry.events, IpcEntry.key, ha]
  | true =>
    have hrest : (if e.anomalous = true then [PolicyEvent.anomaly e.src e.dst]
        else if e.decays = true then [.decayed e.src e.dst] else []).countP
          (fun ev => KernelEvent.evaluates p (.policy ev)) = 0 := by
      refine List.countP_eq_zero.mpr fun ev hev => ?_
      split at hev
      · rw [List.mem_singleton.mp hev]; simp [KernelEvent.evaluates]
      · split at hev
        · rw [List.mem_singleton.mp hev]; simp [KernelEvent.evaluates]
        · cases hev
    rw [List.countP_map]
    simp only [IpcEntry.events, ha, if_pos, List.countP_cons, Function.comp_def, hrest, Nat.zero_add]
    simp [KernelEvent.evaluates, IpcEntry.key, ha, IpcEntry.pair]

/-- A report evaluates a pair once if it has an entry. -/
theorem evaluations_report {k k' : Kernel} {log : List PolicyEvent} (hr : Reported k k' log)
    (hk : Slots.Keyed IpcEntry.key k.engine.ipcTable.1) (p : Pid × Pid) :
    evaluations p (log.map .policy ++ [.report]) = if (k.engine.entry p).isSome then 1 else 0 := by
  obtain ⟨pre, hlog, hpre⟩ := hr.log
  have hzero : evaluations p (pre.map .policy) = 0 := by
    refine List.countP_eq_zero.mpr fun e he => ?_
    obtain ⟨ev, hev, rfl⟩ := List.mem_map.mp he
    have htouch := (hpre ev hev).2
    cases ev with
    | evaluated => cases htouch; contradiction
    | _ => simp [KernelEvent.evaluates]
  have htable : evaluations p ((k.engine.ipcTable.1.flatMap IpcEntry.events).map .policy) =
      k.engine.ipcTable.1.countP fun e => decide (e.key = some p) := by
    rw [evaluations, List.map_flatMap, List.countP_flatMap, List.countP_eq_length_filter]
    induction k.engine.ipcTable.1 with
    | nil => rfl
    | cons e l ih =>
      rw [List.map_cons, List.sum_cons, ih, List.filter_cons]
      simp only [Function.comp_def, evaluates_events, decide_eq_true_eq]
      split
      · rw [List.length_cons, Nat.add_comm]
      · rw [Nat.zero_add]
  have hreport : evaluations p [.report] = 0 := rfl
  rw [evaluations_append, hlog, List.map_append, evaluations_append, hzero, htable, hreport, hk.countP_eq, Nat.zero_add,
    Nat.add_zero]
  rfl

/-! ## A channel in use cools down -/

/-- Nobody but `ipc::send` and the reports touches the pair. -/
def Undisturbed (p : Pid × Pid) (_ : List KernelEvent) (_ : Kernel) : Op → Prop
  | .observe src dst _ _ => (src, dst) ≠ p
  | .drop src dst => (src, dst) ≠ p
  | _ => True

instance (p : Pid × Pid) : ∀ h k a, Decidable (Undisturbed p h k a) := fun _ _ a => by
  induction a using Op.casesOn <;> unfold Undisturbed <;> infer_instance

/-- The cold windows a report leaves an entry with. -/
def IpcEntry.coldAfter (e : IpcEntry) : Nat := if e.delta < decayThreshold then e.coldWindows + 1 else 0

/-- An entry that is no anomaly decays at its second cold window. -/
theorem IpcEntry.decays_iff {e : IpcEntry} (han : e.anomalous = false) : e.decays = true ↔ 2 ≤ e.coldAfter := by
  by_cases hlt : e.delta < decayThreshold
  · have hmin : 2 ≤ min (e.coldWindows + 1) 255 ↔ 2 ≤ e.coldWindows + 1 := by omega
    simp [decays, han, coldAfter, nextCold, decayColdWindows, hlt, hmin]
  · simp [decays, coldAfter, hlt]

/-- The pair has its channel, and its entry, if it still has one, has seen
no message since its last window and stands at `c` cold windows. -/
structure Cooling (p : Pid × Pid) (c : Nat) (k : Kernel) : Prop where
  live : ∃ id, k.ipc.fast[p]? = some id
  entry : ∀ x, k.engine.entry p = some x → x.count = x.lastCount ∧ x.payloadBytesWindow = 0 ∧ x.coldWindows = c

/-- Such an entry is no anomaly, and one more report makes one more cold window. -/
theorem IpcEntry.coldAfter_of_quiet {x : IpcEntry} (hc : x.count = x.lastCount) (hp : x.payloadBytesWindow = 0) :
    x.anomalous = false ∧ x.coldAfter = x.coldWindows + 1 := by
  have hd : x.delta = 0 := by rw [IpcEntry.delta, hc, Nat.sub_self]
  refine ⟨by simp [IpcEntry.anomalous, IpcEntry.rateSpike, IpcEntry.payloadSpike, hd, hp], ?_⟩
  rw [IpcEntry.coldAfter, hd, if_pos (by decide)]

/-- The entry a report leaves, if it leaves one. -/
theorem IpcEntry.Closed.quiet {e e' : IpcEntry} (h : e.Closed e') (ha : e.active = true) (ha' : e'.active = true)
    (hc : e.coldAfter < 2) :
    e'.count = e'.lastCount ∧ e'.payloadBytesWindow = 0 ∧ e'.coldWindows = e.coldAfter := by
  refine ⟨by rw [h.count, h.last ha], h.payload ha, ?_⟩
  rw [h.cold ha']
  simp only [IpcEntry.coldAfter, IpcEntry.nextCold] at hc ⊢
  by_cases hlt : e.delta < decayThreshold
  · simp only [hlt, if_pos] at hc ⊢; omega
  · simp [hlt]

/-- The entries of a pair that the decay loop reclaims. -/
theorem reclaimed_of_entry {k : Kernel} (hw : k.Wf) {p : Pid × Pid}
    (h : ∀ x, k.engine.entry p = some x → x.anomalous = false ∧ x.decays = false) :
    ∀ e ∈ k.engine.ipcTable.1, e.pair = p → e.reclaimed = false := by
  intro e he h
  obtain rfl := h
  cases ha : e.active with
  | false => simp [IpcEntry.reclaimed, ha]
  | true =>
    obtain ⟨han, hd⟩ := h e (PolicyEngine.entry_of_mem hw.pairs he ha)
    simp [IpcEntry.reclaimed, han, hd]

/-- A report is one more cold window, or the end. -/
theorem Cooling.report {p : Pid × Pid} {c : Nat} {k k' : Kernel} {log : List PolicyEvent} (h : Cooling p c k)
    (hw : k.Wf) (hc : c < 2) (hr : Reported k k' log) :
    (.decayed p.1 p.2 ∉ log ∧ c + evaluations p (log.map .policy ++ [.report]) < 2 ∧
        Cooling p (c + evaluations p (log.map .policy ++ [.report])) k') ∨
      (.decayed p.1 p.2 ∈ log ∧ 2 ≤ c + evaluations p (log.map .policy ++ [.report])) := by
  rw [evaluations_report hr hw.pairs, hr.decayed_iff hw.pairs]
  obtain ⟨id, hid⟩ := h.live
  cases hx : k.engine.entry p with
  | none =>
    have hkeep := reclaimed_of_entry hw (p := p) (by rw [hx]; exact nofun)
    refine .inl ⟨?_, by simpa using hc, ⟨id, hr.kept hid hkeep⟩, fun x' hx' => ?_⟩
    · rintro ⟨x, hx', -⟩; cases hx'
    · obtain ⟨x, hx₀, -⟩ := hr.entry_some hw.pairs hx'
      rw [hx] at hx₀; cases hx₀
  | some x =>
    obtain ⟨hcount, hpay, hcold⟩ := h.entry x hx
    obtain ⟨han, hafter⟩ := IpcEntry.coldAfter_of_quiet hcount hpay
    rw [hcold] at hafter
    simp only [Option.isSome_some, if_pos, ← hafter]
    cases hd : x.decays with
    | true => exact .inr ⟨⟨x, rfl, hd⟩, (IpcEntry.decays_iff han).mp hd⟩
    | false =>
      have hlt : x.coldAfter < 2 := by
        rw [← Nat.not_le, ← IpcEntry.decays_iff han, hd]; simp
      have hkeep := reclaimed_of_entry hw (p := p) (by
        rw [hx]; rintro _ ⟨⟩; exact ⟨han, hd⟩)
      refine .inl ⟨?_, hlt, ⟨id, hr.kept hid hkeep⟩, fun x' hx' => ?_⟩
      · rintro ⟨y, ⟨⟩, hy⟩; rw [hd] at hy; cases hy
      · obtain ⟨y, hy, hcl, -⟩ := hr.entry_some hw.pairs hx'
        rw [hx] at hy; cases hy
        exact hcl.quiet (PolicyEngine.entry_some hx).2.1 (PolicyEngine.entry_some hx').2.1 hlt

/-- Every other call leaves the pair as it is: its sends take the channel. -/
theorem Cooling.step {p : Pid × Pid} {c : Nat} {h : List KernelEvent} {k k' : Kernel} {a : Op} {es : List KernelEvent}
    (hcool : Cooling p c k) (hw : k.Wf) (hc : c < 2) (hok : Undisturbed p h k a) (hs : k.step a = some (es, k')) :
    (.policy (.decayed p.1 p.2) ∉ es ∧ c + evaluations p es < 2 ∧ Cooling p (c + evaluations p es) k') ∨
      (.policy (.decayed p.1 p.2) ∈ es ∧ 2 ≤ c + evaluations p es) := by
  obtain ⟨id, hid⟩ := hcool.live
  -- Observing another pair can only take this pair's entry away.
  have hobs : ∀ {src dst : Pid} (count bytes : Nat), (src, dst) ≠ p →
      Cooling p c { k with engine := k.engine.observeIpc src dst count bytes } := by
    intro src dst count bytes hne
    refine ⟨⟨id, hid⟩, fun x hx => ?_⟩
    rw [PolicyEngine.entry_observeIpc hw.pairs, if_neg hne.symm] at hx
    split at hx
    · cases hx
    · exact hcool.entry x hx
  cases step_effect hs with
  | calm _ htab hf hes =>
    refine .inl ⟨fun hmem => ?_, by rw [evaluations_ipc hes]; exact hc, ?_⟩
    · obtain ⟨x, hx⟩ := hes _ hmem; cases hx
    · rw [evaluations_ipc hes]
      exact ⟨⟨id, by rw [hf]; exact hid⟩, by rw [PolicyEngine.entry_congr htab]; exact hcool.entry⟩
  | spawn rsp =>
    exact .inl ⟨nofun, hc, ⟨id, hid⟩, by rw [PolicyEngine.entry_congr (spawnNew_ipcTable k rsp)]; exact hcool.entry⟩
  | queue dst data ok hch =>
    have hne : (k.sched.currentPid, dst) ≠ p := by
      intro h
      obtain rfl := h
      rw [IpcState.getChannel, hid] at hch; cases hch
    have := hobs (k.sched.recordSend dst).1 (Message.inline k.sched.currentPid data).len hne
    exact .inl ⟨by simp, hc, this.live, this.entry⟩
  | observe src dst count bytes => exact .inl ⟨nofun, hc, hobs count bytes hok⟩
  | ensure he =>
    refine .inl ⟨nofun, hc, ⟨id, ?_⟩, hcool.entry⟩
    rw [ensureChannel_fast he, if_neg, hid]
    rintro ⟨rfl, hn⟩; rw [hid] at hn; cases hn
  | drop src dst =>
    refine .inl ⟨nofun, hc, ⟨id, ?_⟩, hcool.entry⟩
    rw [dropChannel_fast, if_neg fun he => hok he.symm, hid]
  | report _ _ hr =>
    have hmem : ∀ {log : List PolicyEvent}, KernelEvent.policy (.decayed p.1 p.2) ∈ log.map .policy ++ [.report] ↔
        .decayed p.1 p.2 ∈ log := by simp
    rw [hmem]
    exact hcool.report hw hc hr

/-- From a live channel with `c` cold windows: it survives a run exactly
when the reports that find its entry leave the count below two. -/
theorem Cooling.runs {p : Pid × Pid} {c : Nat} {k₀ k : Kernel} {h : List KernelEvent} (hcool : Cooling p c k₀)
    (hw : k₀.Wf) (hc : c < 2) (hr : Runs Kernel.step (Undisturbed p) k₀ h k) :
    .policy (.decayed p.1 p.2) ∉ h ↔ c + evaluations p h < 2 := by
  have hinv : k.Wf ∧ ((.policy (.decayed p.1 p.2) ∉ h ∧ c + evaluations p h < 2 ∧ Cooling p (c + evaluations p h) k) ∨
      (.policy (.decayed p.1 p.2) ∈ h ∧ 2 ≤ c + evaluations p h)) := by
    refine hr.invariant (fun h k => k.Wf ∧ ((.policy (.decayed p.1 p.2) ∉ h ∧ c + evaluations p h < 2 ∧
      Cooling p (c + evaluations p h) k) ∨ (.policy (.decayed p.1 p.2) ∈ h ∧ 2 ≤ c + evaluations p h)))
      ⟨hw, .inl ⟨nofun, hc, hcool⟩⟩ fun {h k a es k'} hi hok hs => ⟨hi.1.step hs, ?_⟩
    rw [evaluations_append, ← Nat.add_assoc, List.mem_append]
    obtain ⟨hw, ⟨hno, hlt, hcool⟩ | ⟨hyes, hge⟩⟩ := hi
    · rcases hcool.step hw hlt hok hs with ⟨hno', hlt', hcool'⟩ | ⟨hyes', hge'⟩
      · exact .inl ⟨fun hm => hm.elim hno hno', hlt', hcool'⟩
      · exact .inr ⟨.inr hyes', hge'⟩
    · exact .inr ⟨.inl hyes, by omega⟩
  obtain ⟨-, ⟨hno, hlt, -⟩ | ⟨hyes, hge⟩⟩ := hinv
  · exact ⟨fun _ => hlt, fun _ => hno⟩
  · exact ⟨fun hno => absurd hyes hno, fun hlt => by omega⟩

/-! ## From the creation on -/

/-- The report that creates a channel leaves the pair cooling, or has already reclaimed it. -/
theorem cooling_of_created {k k' : Kernel} {log : List PolicyEvent} (hw : k.Wf) (hr : Reported k k' log)
    {src dst : Pid} (hc : .created src dst ∈ log) {e : IpcEntry} (he : k.engine.entry (src, dst) = some e)
    (han : e.anomalous = false) (hnd : e.decays = false) :
    Cooling (src, dst) e.coldAfter k' ∧ e.coldAfter < 2 := by
  have hkeep := reclaimed_of_entry hw (p := (src, dst)) (by rw [he]; rintro _ ⟨⟩; exact ⟨han, hnd⟩)
  obtain ⟨id, hid⟩ := hr.made hc hkeep
  have hlt : e.coldAfter < 2 := by
    rw [← Nat.not_le, ← IpcEntry.decays_iff han, hnd]; simp
  refine ⟨⟨⟨id, hid⟩, fun x' hx' => ?_⟩, hlt⟩
  obtain ⟨y, hy, hcl, -⟩ := hr.entry_some hw.pairs hx'
  rw [he] at hy; cases hy
  exact hcl.quiet (PolicyEngine.entry_some he).2.1 (PolicyEngine.entry_some hx').2.1 hlt

/-- **Channels in use decay.** After the report that created a pair's channel
(and did not drop it as an anomaly), whatever the pair sends, the channel is
not reclaimed as cold exactly as long as its cold windows, those that the
creating report left plus one for every later report that still finds its
entry, stay below two. -/
theorem not_decayed_iff_of_created {mem : ChannelMem} {h₀ h es : List KernelEvent} {k k' k'' : Kernel} {a : Op}
    (hr : Runs Kernel.step free (.init mem) h₀ k) (hs : k.step a = some (es, k')) {src dst : Pid}
    (hc : .policy (.created src dst) ∈ es) {e : IpcEntry} (he : k.engine.entry (src, dst) = some e)
    (han : e.anomalous = false) (hrun : Runs Kernel.step (Undisturbed (src, dst)) k' h k'') :
    .policy (.decayed src dst) ∉ es ++ h ↔ e.coldAfter + evaluations (src, dst) h < decayColdWindows := by
  have hw := Kernel.Wf.of_runs hr (.init mem)
  have hw' := hw.step hs
  cases step_effect hs with
  | calm _ _ _ hes => obtain ⟨x, hx⟩ := hes _ hc; cases hx
  | spawn | queue | observe | ensure | drop => simp at hc
  | report _ _ hrep =>
    simp only [List.mem_append, List.mem_map, KernelEvent.policy.injEq, exists_eq_right, List.mem_singleton,
      reduceCtorEq, or_false] at hc ⊢
    cases hd : e.decays with
    | true =>
      have hmem := (hrep.decayed_iff hw.pairs).mpr ⟨e, he, hd⟩
      have hcold := (IpcEntry.decays_iff han).mp hd
      exact ⟨fun hno => absurd (.inl hmem) hno, fun hlt => by simp only [decayColdWindows] at hlt; omega⟩
    | false =>
      obtain ⟨hcool, hlt⟩ := cooling_of_created hw hrep hc he han hd
      have hno : PolicyEvent.decayed src dst ∉ _ := fun hmem => by
        obtain ⟨x, hx, hdx⟩ := (hrep.decayed_iff hw.pairs).mp hmem
        rw [he] at hx; cases hx; rw [hd] at hdx; cases hdx
      rw [or_iff_right hno]
      exact hcool.runs hw' hlt hrun

/-- The running sends of a window, and whether every window so far had enough. -/
def countWindow (p : Pid × Pid) (st : Nat × Bool) : KernelEvent → Nat × Bool
  | .ipc (.sent src dst _ true) => if (src, dst) = p then (st.1 + 1, st.2) else st
  | .report => (0, st.2 && decide (decayThreshold ≤ st.1))
  | _ => st

/-- In every window that a report ended the pair sent at least five messages. -/
def BusyWindows (p : Pid × Pid) (h : List KernelEvent) : Prop := (h.foldl (countWindow p) (0, true)).2 = true

instance (p : Pid × Pid) (h : List KernelEvent) : Decidable (BusyWindows p h) := inferInstanceAs (Decidable (_ = _))

/-- The engine is on. -/
def EngineOn (_ : List KernelEvent) (k : Kernel) (_ : Op) : Prop := k.policyEnabled = true

instance : ∀ h k a, Decidable (EngineOn h k a) := fun _ _ _ => inferInstanceAs (Decidable (_ = _))

/-- Task 1 sends task 2 five messages, and everyone yields. -/
def queueWindow (tick : Nat) : List Op := List.replicate 5 (.send 2 [7]) ++ List.replicate 3 (yieldAt tick)

/-- Six windows of five messages; the switch that ends the sixth creates the channel. -/
def warmOps : List Op :=
  [.spawn 0, .spawn 0, yieldAt 0] ++ [40, 80, 120, 160, 200].flatMap queueWindow ++ List.replicate 5 (.send 2 [7])

/-- Five messages over the channel, each received, and then a report. -/
def fastWindow (tick next : Nat) : List Op :=
  (List.replicate 5 [.send 2 [7], yieldAt tick, .recv, yieldAt tick, yieldAt tick]).flatten ++
    List.replicate 3 (yieldAt next)

def busyOps : List Op := [yieldAt 240, yieldAt 240] ++ fastWindow 240 320 ++ fastWindow 320 400

/-- One busy window after the creation. -/
theorem not_decayed_iff_of_created_warm : ∃ h₀ k es k' h k'' e, Runs Kernel.step free (.init (.ofFrames 16)) h₀ k ∧
    k.step (yieldAt 240) = some (es, k') ∧ .policy (.created 1 2) ∈ es ∧ k.engine.entry (1, 2) = some e ∧
    e.anomalous = false ∧ Runs Kernel.step (Undisturbed (1, 2)) k' h k'' ∧
    (.policy (.decayed 1 2) ∉ es ++ h ↔ e.coldAfter + evaluations (1, 2) h < decayColdWindows) := by
  obtain ⟨h₀, k, hr, hP⟩ := Runs.of_exec Kernel.step free (.init (.ofFrames 16)) warmOps
    (fun _ k => (k.engine.entry (1, 2)).any fun e : IpcEntry => !e.anomalous && (k.step (yieldAt 240)).any
      fun r : List KernelEvent × Kernel =>
      decide (.policy (.created 1 2) ∈ r.1) && (exec Kernel.step (Undisturbed (1, 2)) [] r.2 [yieldAt 240]).isSome)
    (by decide +kernel)
  simp only [Option.any_eq_true, Bool.and_eq_true, Bool.not_eq_true', decide_eq_true_eq] at hP
  obtain ⟨e, he, han, ⟨es, k'⟩, hs, hc, hrun⟩ := hP
  obtain ⟨⟨h, k''⟩, hrun⟩ := Option.isSome_iff_exists.mp hrun
  have hrun := Runs.start.exec hrun
  exact ⟨h₀, k, es, k', h, k'', e, hr, hs, hc, he, han, hrun, not_decayed_iff_of_created hr hs hc he han hrun⟩

/-- Busy channels do decay: five messages in each of the two windows after
the creation, and the second report reclaims the channel as cold. -/
theorem decayed_while_busy : ¬ ∀ (mem : ChannelMem) (h₀ h es : List KernelEvent) (k k' k'' : Kernel) (a : Op)
    (src dst : Pid), Runs Kernel.step EngineOn (.init mem) h₀ k → k.policyEnabled = true → k.step a = some (es, k') →
      .policy (.created src dst) ∈ es → Runs Kernel.step EngineOn k' h k'' → BusyWindows (src, dst) h →
      .policy (.decayed src dst) ∉ h := by
  intro hall
  obtain ⟨h₀, k, hr, hP⟩ := Runs.of_exec Kernel.step EngineOn (.init (.ofFrames 16)) warmOps
    (fun _ k => k.policyEnabled && (k.step (yieldAt 240)).any fun r : List KernelEvent × Kernel =>
      decide (.policy (.created 1 2) ∈ r.1) && (exec Kernel.step EngineOn [] r.2 busyOps).any
      fun r : List KernelEvent × Kernel => decide (BusyWindows (1, 2) r.1) &&
        decide (.policy (.decayed 1 2) ∈ r.1))
    (by decide +kernel)
  simp only [Option.any_eq_true, Bool.and_eq_true, decide_eq_true_eq] at hP
  obtain ⟨hon, ⟨es, k'⟩, hs, hc, ⟨h, k''⟩, hrun, hbusy, hdec⟩ := hP
  exact hall _ h₀ h es k k' k'' _ 1 2 hr hon hs hc (Runs.start.exec hrun) hbusy hdec

end ChodOs
