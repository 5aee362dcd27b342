/-
Hot pairs. `hot_ipc_pairs` hands out the pairs that both scores call hot,
best first; and a pair that is hot, for a report or for `hot_ipc_pairs`,
has had messages in two windows since it was registered. What bounds the
first score is ML 1's gain: a window adds at most five to alpha, and beta
never falls below its prior.
-/
import ChodOs.Policy.Runs

namespace ChodOs

open StepSys

/-! ## The best pairs -/

/-- The verdict of `hot_ipc_pairs`, which no action adjusts. -/
def IpcEntry.isHotPair (e : IpcEntry) : Bool := decide (ml2HotThreshold ≤ e.ml2) && decide (bayesHotScore ≤ e.bayes)

namespace PolicyEngine

/-- The entries `hot_ipc_pairs` copies to its buffer, in table order. -/
def hotEntries (e : PolicyEngine) : List IpcEntry := e.ipcTable.1.filter fun x => x.active && x.isHotPair

/-- `hot_ipc_pairs`: a selection sort of the buffer, and its first entries to `out`. -/
def hotIpcPairs (e : PolicyEngine) (out : List (Pid × Pid)) (limit : Nat) : Nat × List (Pid × Pid) :=
  let buf := e.hotEntries.map fun x => (x.pair, x.ml2)
  let sorted := Slots.topBy (fun x b : (Pid × Pid) × Int => b.2 < x.2) buf.length buf
  let n := min (min buf.length limit) out.length
  (n, (sorted.take n).map (·.1) ++ out.drop n)

/-- What `hot_ipc_pairs` leaves in `out`: entries of the table, each once, greatest score first. -/
structure Best (e : PolicyEngine) (chosen rest : List IpcEntry) : Prop where
  /-- With those left out they are the hot active entries of the table. -/
  perm : (chosen ++ rest).Perm e.hotEntries
  sorted : chosen.Pairwise fun x y => y.ml2 ≤ x.ml2
  top : ∀ x ∈ chosen, ∀ y ∈ rest, y.ml2 ≤ x.ml2

end PolicyEngine

theorem hot_ipc_pairs_are_the_best (e : PolicyEngine) (out : List (Pid × Pid)) (limit : Nat) :
    (e.hotIpcPairs out limit).1 = min (min e.hotEntries.length limit) out.length ∧
      (e.hotIpcPairs out limit).2.length = out.length ∧
      (e.hotIpcPairs out limit).2.drop (e.hotIpcPairs out limit).1 = out.drop (e.hotIpcPairs out limit).1 ∧
      ∃ chosen rest, e.Best chosen rest ∧
        (e.hotIpcPairs out limit).2.take (e.hotIpcPairs out limit).1 = chosen.map IpcEntry.pair := by
  have hkey : ∀ x b : IpcEntry, decide (b.ml2 < x.ml2) = true ↔ b.ml2 < x.ml2 := fun x b => decide_eq_true_iff
  obtain ⟨hlen, hsorted, none, hperm, -⟩ := Slots.topBy_key hkey e.hotEntries.length e.hotEntries
  -- The whole buffer is sorted: nothing is left.
  obtain rfl : none = [] := by
    have := hperm.length_eq
    rw [List.length_append, hlen] at this
    exact List.length_eq_zero_iff.mp (by omega)
  rw [List.append_nil] at hperm
  generalize hs : Slots.topBy (fun x b : IpcEntry => decide (b.ml2 < x.ml2)) e.hotEntries.length e.hotEntries = sorted
    at hlen hsorted hperm
  have hn : (e.hotIpcPairs out limit).1 = min (min e.hotEntries.length limit) out.length := by
    simp only [PolicyEngine.hotIpcPairs, List.length_map]
  have hout : (e.hotIpcPairs out limit).2 = (sorted.take (e.hotIpcPairs out limit).1).map IpcEntry.pair ++
      out.drop (e.hotIpcPairs out limit).1 := by
    rw [hn]
    simp only [PolicyEngine.hotIpcPairs, List.length_map]
    rw [Slots.topBy_map, hs, ← List.map_take, List.map_map]
    rfl
  have hle : (e.hotIpcPairs out limit).1 ≤ sorted.length := by omega
  generalize (e.hotIpcPairs out limit).1 = n at hn hout hle
  have htake : ((sorted.take n).map IpcEntry.pair).length = n := by
    rw [List.length_map, List.length_take, Nat.min_eq_left hle]
  refine ⟨hn, ?_, ?_, sorted.take n, sorted.drop n, ⟨?_, ?_, ?_⟩, ?_⟩
  · rw [hout, List.length_append, htake, List.length_drop]
    omega
  · rw [hout, List.drop_append, List.drop_of_length_le (by omega), htake, Nat.sub_self, List.drop_zero, List.nil_append]
  · rw [List.take_append_drop]
    exact hperm
  · exact hsorted.sublist (List.take_sublist n sorted)
  · intro x hx y hy
    rw [← List.take_append_drop n sorted, List.pairwise_append] at hsorted
    exact hsorted.2.2 x hx y hy
  · rw [hout, List.take_append_of_le_length (by omega), List.take_of_length_le (by omega)]

/-! ## Windows with messages -/

/-- What becomes of a pair: it gets an entry, or a report closes its window. -/
inductive PairEvent
  | registered (p : Pid × Pid)
  | evaluated (p : Pid × Pid) (delta : Nat)
  deriving DecidableEq

/-- A window of the pair with messages. -/
def PairEvent.warms (p : Pid × Pid) : PairEvent → Bool
  | .registered _ => false
  | .evaluated q delta => q == p && decide (0 < delta)

/-- The decay loop's part of a report. -/
def PolicyEvent.pairEvent? : PolicyEvent → Option PairEvent
  | .evaluated src dst delta => some (.evaluated (src, dst) delta)
  | _ => none

/-- The engine's calls, and in between any actions for the slots. -/
inductive HotOp
  | call (op : EngineOp)
  | act (choose : Nat → RlAction)

namespace Kernel

/-- `observe_ipc` of a pair without an active entry registers it. -/
def registers (k : Kernel) : EngineOp → List PairEvent
  | .observeIpc src dst _ _ => if k.engine.ipcTable.1.any (IpcEntry.isFor (src, dst)) then [] else [.registered (src, dst)]
  | _ => []

def pairStep (k : Kernel) : HotOp → Option (List PairEvent × Kernel)
  | .call op => (k.engineStep op).map fun (log, k') => (k.registers op ++ log.filterMap PolicyEvent.pairEvent?, k')
  | .act choose =>
    let ipcTable := ⟨k.engine.ipcTable.1.mapIdx fun i e => { e with rlAction := choose i }, by
      simp [k.engine.ipcTable.2]⟩
    some ([], { k with engine := { k.engine with ipcTable } })

end Kernel

/-- The pair was registered, and `n` windows with messages were closed since. -/
def WarmSince (p : Pid × Pid) (n : Nat) (h : List PairEvent) : Prop :=
  ∃ h₁ h₂, h = h₁ ++ .registered p :: h₂ ∧ .registered p ∉ h₂ ∧ h₂.countP (PairEvent.warms p) = n

theorem WarmSince.registered (p : Pid × Pid) (h : List PairEvent) : WarmSince p 0 (h ++ [.registered p]) :=
  ⟨h, [], rfl, by simp, rfl⟩

theorem WarmSince.append {p : Pid × Pid} {n : Nat} {h es : List PairEvent} (hw : WarmSince p n h)
    (hes : .registered p ∉ es) : WarmSince p (n + es.countP (PairEvent.warms p)) (h ++ es) := by
  obtain ⟨h₁, h₂, rfl, hno, rfl⟩ := hw
  refine ⟨h₁, h₂ ++ es, by simp, ?_, List.countP_append⟩
  rw [List.mem_append]
  intro hmem
  rcases hmem with hmem | hmem
  · exact hno hmem
  · exact hes hmem

/-- An entry has no more than its windows gave it. -/
def IpcEntry.Earned (h : List PairEvent) (e : IpcEntry) : Prop :=
  e.active = true → 4 ≤ e.bayesBeta ∧ ∃ n, WarmSince e.pair n h ∧ e.bayesAlpha ≤ 1 + 5 * n

/-- Every entry has no more than its windows gave it. -/
def Kernel.Earned (h : List PairEvent) (k : Kernel) : Prop := ∀ e ∈ k.engine.ipcTable.1, e.Earned h

theorem IpcEntry.Earned.quiet {h es : List PairEvent} {e : IpcEntry} (he : e.Earned h) (hes : .registered e.pair ∉ es) :
    e.Earned (h ++ es) := by
  intro ha
  obtain ⟨hbeta, n, hw, halpha⟩ := he ha
  exact ⟨hbeta, _, hw.append hes, by omega⟩

/-- A window with messages adds five to alpha at most, a cold one nothing. -/
theorem bayesStep_le (delta : Nat) {alpha beta n : Nat} (halpha : alpha ≤ 1 + 5 * n) (hbeta : 4 ≤ beta) :
    (IpcEntry.bayesStep delta alpha beta).1 ≤ 1 + 5 * (n + if 0 < delta then 1 else 0) ∧
      4 ≤ (IpcEntry.bayesStep delta alpha beta).2 := by
  simp only [IpcEntry.bayesStep, bayesPriorAlpha, bayesPriorBeta]
  split <;> simp only <;> omega

/-- A turn of the decay loop: the window that is closed counts when the log has it. -/
theorem IpcEntry.Earned.decayEntry {h es : List PairEvent} {e : IpcEntry} (he : e.Earned h) (tick : Nat)
    (st : Kernel × List PolicyEvent) (hes : ∀ p, .registered p ∉ es)
    (hlog : e.active = true → .evaluated e.pair e.delta ∈ es) :
    (ChodOs.decayEntry tick st e).2.Earned (h ++ es) := by
  cases ha : e.active with
  | false =>
    rw [decayEntry_idle tick st ha]
    exact he.quiet (hes _)
  | true =>
    obtain ⟨active, cold, state, action, -, heq⟩ := decayEntry_closes tick st ha
    intro _
    obtain ⟨hbeta, n, hw, halpha⟩ := he ha
    obtain ⟨halpha', hbeta'⟩ := bayesStep_le e.delta halpha hbeta
    rw [heq]
    refine ⟨hbeta', _, hw.append (hes _), halpha'.trans ?_⟩
    have hcount : (if 0 < e.delta then 1 else 0) ≤ es.countP (PairEvent.warms e.pair) := by
      split
      · next hpos =>
        exact List.countP_pos_iff.mpr ⟨_, hlog ha, by simp [PairEvent.warms, hpos]⟩
      · exact Nat.zero_le _
    omega

theorem Kernel.Earned.report {h : List PairEvent} {k k' : Kernel} {tick : Nat} {log : List PolicyEvent}
    (he : k.Earned h) (hr : k.adaptAndReport tick = some (log, k')) :
    k'.Earned (h ++ log.filterMap PolicyEvent.pairEvent?) := by
  obtain ⟨k₃, hk₃, rfl⟩ := Kernel.adaptAndReport_readied hr
  obtain ⟨pre, hlog, -⟩ := (adaptAndReport_spec hr).log
  have htable : k₃.engine.ipcTable = k.engine.ipcTable := (Kernel.beforeDecay_readied hk₃).tables.1
  have hes : ∀ p, PairEvent.registered p ∉ log.filterMap PolicyEvent.pairEvent? := by
    intro p hmem
    obtain ⟨ev, -, hev⟩ := List.mem_filterMap.mp hmem
    cases ev <;> cases hev
  have hdecay : List.Forall₂ (fun e e' : IpcEntry =>
      e.Earned h → (e.active = true → .evaluated e.pair e.delta ∈ log.filterMap PolicyEvent.pairEvent?) →
        e'.Earned (h ++ log.filterMap PolicyEvent.pairEvent?))
      k₃.engine.ipcTable.1 (k₃.decay tick).2.engine.ipcTable.1 :=
    Slots.mapAccum_forall₂ (fun st e hearned hin => hearned.decayEntry tick st hes hin) _ _
  intro e' he'
  obtain ⟨e, hmem, hkeep⟩ := Slots.forall₂_mem_right hdecay he'
  rw [htable] at hmem
  refine hkeep (he e hmem) fun ha => List.mem_filterMap.mpr ⟨.evaluated e.src e.dst e.delta, ?_, rfl⟩
  rw [hlog, List.mem_append, List.mem_flatMap]
  exact .inr ⟨e, hmem, IpcEntry.mem_events.mpr ⟨ha, .inl rfl⟩⟩

/-- A pair without an entry is registered, and has earned nothing. -/
theorem Kernel.Earned.observeIpc {h : List PairEvent} {k : Kernel} (he : k.Earned h) (src dst : Pid)
    (count bytes : Nat) : Kernel.Earned (h ++ k.registers (.observeIpc src dst count bytes))
      { k with engine := k.engine.observeIpc src dst count bytes } := by
  intro e' he'
  have hmem : e' ∈ Slots.upsert (IpcEntry.isFor (src, dst)) (fun x => !x.active) (fun x b => x.count < b.count)
    (IpcEntry.observed count bytes) (.fresh src dst count bytes) k.engine.ipcTable.1 := he'
  rcases Slots.upsert_cases (Table.ne_nil k.engine.ipcTable) with ⟨i, a, hi, hit, heq⟩ | ⟨hno, -, heq⟩
  · have hany : k.engine.ipcTable.1.any (IpcEntry.isFor (src, dst)) = true :=
      List.any_eq_true.mpr ⟨a, List.mem_of_getElem? hi, hit⟩
    rw [heq] at hmem
    rw [registers, if_pos hany, List.append_nil]
    rcases List.mem_or_eq_of_mem_set hmem with hold | rfl
    · exact he e' hold
    · exact he a (List.mem_of_getElem? hi)
  · have hany : k.engine.ipcTable.1.any (IpcEntry.isFor (src, dst)) = false := by
      rw [List.any_eq_false]
      intro a ha
      rw [hno a ha]
      exact Bool.false_ne_true
    rw [heq] at hmem
    rw [registers, if_neg (by rw [hany]; exact Bool.false_ne_true)]
    rcases List.mem_or_eq_of_mem_set hmem with hold | rfl
    · intro ha
      refine (he e' hold).quiet (fun hreg => ?_) ha
      -- An active entry of the pair would have been found.
      obtain hpair : e'.pair = (src, dst) := PairEvent.registered.inj (List.mem_singleton.mp hreg)
      have := IpcEntry.isFor_iff.mpr (IpcEntry.key_eq_some.mpr ⟨ha, hpair⟩)
      rw [hno e' hold] at this
      cases this
    · exact fun _ => ⟨Nat.le_refl 4, 0, .registered (src, dst) h, Nat.le_refl 1⟩

theorem Kernel.Earned.step {h es : List PairEvent} {k k' : Kernel} {op : HotOp} (he : k.Earned h)
    (hs : k.pairStep op = some (es, k')) : k'.Earned (h ++ es) := by
  cases op with
  | act choose =>
    cases hs
    rw [List.append_nil]
    intro e' he'
    obtain ⟨i, hi, rfl⟩ := List.mem_mapIdx.mp he'
    have hold : (k.engine.ipcTable.1[i]).Earned h := he _ (List.getElem_mem hi)
    exact hold
  | call op =>
    simp only [pairStep, Option.map_eq_some_iff, Prod.mk.injEq] at hs
    obtain ⟨⟨log, k₁⟩, hs, rfl, rfl⟩ := hs
    cases op with
    | register pid =>
      cases hs
      simp only [registers, List.filterMap_nil, List.append_nil]
      intro e he'
      rw [PolicyEngine.register_ipcTable] at he'
      exact he e he'
    | onSwitch src dst tick =>
      simp only [registers, List.nil_append]
      rcases onSwitch_cases hs with ⟨rfl, rfl⟩ | hr
      · rw [List.filterMap_nil, List.append_nil]
        exact he
      · exact report (k := { k with engine := { k.engine.countSwitch src dst tick with lastReportTick := tick } }) he hr
    | report tick =>
      simp only [registers, List.nil_append]
      exact he.report hs
    | observeIpc src dst count bytes =>
      cases hs
      rw [List.filterMap_nil, List.append_nil]
      exact he.observeIpc src dst count bytes
    | unregister | observeMmap | observePageFault | setEnabled | world | seed =>
      cases hs
      simp only [registers, List.filterMap_nil, List.append_nil]
      exact he

theorem Kernel.Earned.powerOn (mem : ChannelMem) : Kernel.Earned [] (.powerOn mem) := by
  intro e he ha
  rw [List.eq_of_mem_replicate he] at ha
  cases ha

/-- A hot pair has had messages in two windows since it was registered. The
entries a report looks at are those of `topPairs`. -/
theorem hot_pair_has_two_warm_windows {mem : ChannelMem} {h : List PairEvent} {k : Kernel}
    (hr : Runs Kernel.pairStep free (.powerOn mem) h k) {e : IpcEntry}
    (hot : e ∈ topPairs k.engine.ipcTable.1 ∧ e.isHot = true ∨ e ∈ k.engine.hotEntries) :
    ∃ n, 2 ≤ n ∧ WarmSince e.pair n h := by
  have hmem : e ∈ k.engine.ipcTable.1 ∧ e.active = true ∧ bayesHotScore ≤ e.bayes := by
    rcases hot with ⟨htop, hot⟩ | hot
    · simp only [IpcEntry.isHot, Bool.and_eq_true, decide_eq_true_eq] at hot
      exact ⟨(mem_topPairs htop).1, (mem_topPairs htop).2, hot.1⟩
    · simp only [PolicyEngine.hotEntries, IpcEntry.isHotPair, List.mem_filter, Bool.and_eq_true,
        decide_eq_true_eq] at hot
      exact ⟨hot.1, hot.2.1, hot.2.2.2⟩
  obtain ⟨hmem, ha, hscore⟩ := hmem
  have hinv : k.Earned h := hr.invariant (fun h k => k.Earned h) (.powerOn mem) fun he _ hs => he.step hs
  obtain ⟨hbeta, n, hw, halpha⟩ := hinv e hmem ha
  refine ⟨n, ?_, hw⟩
  -- A score of 650 with `beta` at four or more takes an `alpha` of ten.
  have hscore : bayesHotScore * (e.bayesAlpha + e.bayesBeta + 1) ≤ e.bayesAlpha * 1000 :=
    (Nat.le_div_iff_mul_le (by omega)).mp hscore
  simp only [bayesHotScore] at hscore
  omega

/-- Two windows of a hundred messages. -/
def twoWindows : List HotOp :=
  [.call (.observeIpc 2 1 100 64), .act fun _ => .pinPush, .call (.report 36), .call (.observeIpc 2 1 200 64),
    .call (.report 72)]

theorem hot_pair_has_two_warm_windows_twice : ∃ h k e n, Runs Kernel.pairStep free (.powerOn (.ofFrames 16)) h k ∧
    e ∈ k.engine.hotEntries ∧ 2 ≤ n ∧ WarmSince e.pair n h := by
  obtain ⟨h, k, hr, hP⟩ := Runs.of_exec Kernel.pairStep free (.powerOn (.ofFrames 16)) twoWindows
    (fun _ k => !k.engine.hotEntries.isEmpty) (by decide)
  rw [Bool.not_eq_true', List.isEmpty_eq_false_iff_exists_mem] at hP
  obtain ⟨e, he⟩ := hP
  obtain ⟨n, hn, hw⟩ := hot_pair_has_two_warm_windows hr (.inr he)
  exact ⟨h, k, e, n, hr, he, hn, hw⟩

end ChodOs
