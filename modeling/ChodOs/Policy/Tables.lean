/-
The engine's tables and the peer table as maps: a slot in use has a key, no
two slots have the same one, and `observe_ipc`, `record_ipc_send` and a
report are updates of a map. Where a full table gives up a slot the map
loses a key.
-/
import ChodOs.Policy.Facts

namespace ChodOs

open Slots

/-! ## Peers -/

namespace Process

/-- The peer of a slot in use. -/
def peerKey (s : Pid × Nat) : Option Pid := if 0 < s.2 then some s.1 else none

/-- No peer has two slots. -/
def PeersKeyed (t : Table (Pid × Nat) 8) : Prop := Keyed peerKey t.1

theorem isPeer_iff {dst : Pid} {s : Pid × Nat} : isPeer dst s = true ↔ peerKey s = some dst := by
  simp only [isPeer, peerKey, Bool.and_eq_true, decide_eq_true_eq, beq_iff_eq]
  split <;> simp_all

theorem peerCount_eq (p : Process) (dst : Pid) : p.peerCount dst = (lookup peerKey dst p.ipcPeers.1).elim 0 (·.2) := by
  have h : isPeer dst = fun s => decide (peerKey s = some dst) := by
    funext s; rw [Bool.eq_iff_iff, isPeer_iff, decide_eq_true_eq]
  rw [peerCount, h]; rfl

theorem upsertsPeer (dst : Pid) : UpsertsKey peerKey dst (isPeer dst) (fun s => (s.1, satAdd s.2 1)) (dst, 1) where
  hit _ := isPeer_iff
  upd s hs := by
    have hpos : 0 < satAdd s.2 1 := by simp only [satAdd, u64Max]; omega
    simp only [peerKey] at hs ⊢
    split at hs
    · rw [if_pos hpos]; exact hs
    · cases hs
  fresh := rfl

theorem PeersKeyed.recordIpcSend {p : Process} (h : PeersKeyed p.ipcPeers) (dst : Pid) :
    PeersKeyed (p.recordIpcSend dst).2.ipcPeers :=
  Keyed.upsert _ _ h (upsertsPeer dst) (Table.ne_nil p.ipcPeers)

/-- The counters after a send: one goes up, another may be lost. -/
theorem peerCount_recordIpcSend {p : Process} (h : PeersKeyed p.ipcPeers) (dst q : Pid) :
    if q = dst then (p.recordIpcSend dst).2.peerCount q = satAdd (p.peerCount dst) 1
    else (p.recordIpcSend dst).2.peerCount q = 0 ∨ (p.recordIpcSend dst).2.peerCount q = p.peerCount q := by
  have hl := Keyed.lookup_upsert (fun s : Pid × Nat => s.2 == 0) (fun x b => x.2 < b.2) h (upsertsPeer dst)
    (Table.ne_nil p.ipcPeers) q
  have hrec : (p.recordIpcSend dst).2.peerCount q = (lookup peerKey q (Slots.upsert (isPeer dst) (·.2 == 0)
    (fun x b => x.2 < b.2) (fun s => (s.1, satAdd s.2 1)) (dst, 1) p.ipcPeers.1)).elim 0 (·.2) := peerCount_eq _ q
  rw [hrec, hl]
  split
  · rw [peerCount_eq]
    cases lookup peerKey dst p.ipcPeers.1 <;> rfl
  · split
    · exact .inl rfl
    · exact .inr (peerCount_eq p q).symm

end Process

/-! ## Pairs -/

namespace IpcEntry

/-- The pair of an active entry. -/
def key (e : IpcEntry) : Option (Pid × Pid) := if e.active then some e.pair else none

theorem key_eq_some {e : IpcEntry} {p : Pid × Pid} : e.key = some p ↔ e.active = true ∧ e.pair = p := by
  simp [key]

theorem isFor_iff {e : IpcEntry} {p : Pid × Pid} : isFor p e = true ↔ e.key = some p := by
  simp only [isFor, key_eq_some, pair, Bool.and_eq_true, beq_iff_eq, Prod.ext_iff, and_assoc]

/-- The entry after `observe_ipc`. -/
def observed (count payloadBytes : Nat) (e : IpcEntry) : IpcEntry :=
  { e with count, payloadBytesWindow := satAdd e.payloadBytesWindow payloadBytes }

theorem upsertsPair (src dst : Pid) (count bytes : Nat) :
    UpsertsKey key (src, dst) (isFor (src, dst)) (observed count bytes) (fresh src dst count bytes) where
  hit _ := isFor_iff
  upd _ h := h
  fresh := rfl

end IpcEntry

namespace PolicyEngine

/-- The active entry of a pair. -/
def entry (e : PolicyEngine) (p : Pid × Pid) : Option IpcEntry := lookup IpcEntry.key p e.ipcTable.1

/-- The pair that loses its entry when `p` is observed. -/
def displaced (e : PolicyEngine) (p : Pid × Pid) : Option (Pid × Pid) :=
  if (e.entry p).isNone then
    (e.ipcTable.1[freeIdx (fun x => !x.active) (fun x b => x.count < b.count) e.ipcTable.1]?).bind IpcEntry.key
  else none

theorem keyed_observeIpc {e : PolicyEngine} (h : Keyed IpcEntry.key e.ipcTable.1) (src dst : Pid) (count bytes : Nat) :
    Keyed IpcEntry.key (e.observeIpc src dst count bytes).ipcTable.1 :=
  Keyed.upsert _ _ h (IpcEntry.upsertsPair src dst count bytes) (Table.ne_nil e.ipcTable)

theorem entry_observeIpc {e : PolicyEngine} (h : Keyed IpcEntry.key e.ipcTable.1) (src dst : Pid) (count bytes : Nat)
    (q : Pid × Pid) : (e.observeIpc src dst count bytes).entry q =
      if q = (src, dst) then some (((e.entry (src, dst)).map (.observed count bytes)).getD (.fresh src dst count bytes))
      else if e.displaced (src, dst) = some q then none else e.entry q := by
  refine (Keyed.lookup_upsert _ _ h (IpcEntry.upsertsPair src dst count bytes)
    (Table.ne_nil e.ipcTable) q).trans ?_
  by_cases hn : (lookup IpcEntry.key (src, dst) e.ipcTable.1).isNone
  · simp only [displaced, entry, hn, true_and, if_pos]
  · simp [displaced, entry, hn]

theorem entry_some {e : PolicyEngine} {p : Pid × Pid} {x : IpcEntry} (h : e.entry p = some x) :
    x ∈ e.ipcTable.1 ∧ x.active = true ∧ x.pair = p := by
  have := lookup_some h
  exact ⟨this.1, IpcEntry.key_eq_some.mp this.2⟩

theorem entry_of_mem {e : PolicyEngine} (h : Keyed IpcEntry.key e.ipcTable.1) {x : IpcEntry} (hx : x ∈ e.ipcTable.1)
    (ha : x.active = true) : e.entry x.pair = some x :=
  h.lookup_eq_some.mpr ⟨hx, IpcEntry.key_eq_some.mpr ⟨ha, rfl⟩⟩

theorem entry_congr {e e' : PolicyEngine} (h : e'.ipcTable = e.ipcTable) : e'.entry = e.entry := by
  funext p; rw [entry, entry, h]

end PolicyEngine

/-! ## Reports -/

theorem IpcEntry.Closed.pair {e e' : IpcEntry} (h : e.Closed e') : e'.pair = e.pair := Prod.ext h.src h.dst

theorem IpcEntry.Closed.key {e e' : IpcEntry} (h : e.Closed e') : e'.key = if e.reclaimed then none else e.key := by
  simp only [IpcEntry.key, h.pair, h.active]
  cases e.active <;> cases e.reclaimed <;> rfl

section reported
variable {k k' : Kernel} {log : List PolicyEvent} (h : Reported k k' log) (hk : Keyed IpcEntry.key k.engine.ipcTable.1)
include h hk

theorem Reported.keyed : Keyed IpcEntry.key k'.engine.ipcTable.1 := by
  refine hk.forall₂ (h.ipcTable.imp fun e e' hc p hp => ?_)
  rw [hc.key] at hp
  split at hp
  · cases hp
  · exact hp

/-- An entry that is still there was there and was not reclaimed. -/
theorem Reported.entry_some {p : Pid × Pid} {x' : IpcEntry} (hx : k'.engine.entry p = some x') :
    ∃ x, k.engine.entry p = some x ∧ x.Closed x' ∧ x.reclaimed = false := by
  obtain ⟨hmem, hkey⟩ := lookup_some hx
  obtain ⟨i, hi⟩ := List.mem_iff_getElem?.mp hmem
  have hlt := (List.getElem?_eq_some_iff.mp hi).1
  have hlt' : i < k.engine.ipcTable.1.length := by rw [h.ipcTable.length_eq]; exact hlt
  have hc := h.ipcTable.get hlt' hlt
  have hval : k'.engine.ipcTable.1.get ⟨i, hlt⟩ = x' := (List.getElem?_eq_some_iff.mp hi).2
  rw [hval] at hc
  rw [hc.key] at hkey
  split at hkey
  · cases hkey
  · next hr => exact ⟨_, hk.lookup_eq_some.mpr ⟨List.get_mem _ _, hkey⟩, hc, by simpa using hr⟩

/-- An entry that is not reclaimed stays. -/
theorem Reported.entry_kept {p : Pid × Pid} {x : IpcEntry} (hx : k.engine.entry p = some x) (hr : x.reclaimed = false) :
    ∃ x', k'.engine.entry p = some x' ∧ x.Closed x' := by
  obtain ⟨hmem, hkey⟩ := lookup_some hx
  obtain ⟨i, hi⟩ := List.mem_iff_getElem?.mp hmem
  have hlt := (List.getElem?_eq_some_iff.mp hi).1
  have hlt' : i < k'.engine.ipcTable.1.length := by rw [← h.ipcTable.length_eq]; exact hlt
  have hc := h.ipcTable.get hlt hlt'
  have hval : k.engine.ipcTable.1.get ⟨i, hlt⟩ = x := (List.getElem?_eq_some_iff.mp hi).2
  rw [hval] at hc
  refine ⟨_, (h.keyed hk).lookup_eq_some.mpr ⟨List.get_mem _ ⟨i, hlt'⟩, ?_⟩, hc⟩
  rw [hc.key, hr]; exact hkey

omit hk in
/-- The decay loop's events come from the decay loop. -/
theorem Reported.mem_decay {ev : PolicyEvent} (hno : ∀ k, ¬ Touches k ev) :
    ev ∈ log ↔ ∃ x ∈ k.engine.ipcTable.1, ev ∈ x.events := by
  obtain ⟨pre, hlog, hpre⟩ := h.log
  rw [hlog, List.mem_append, List.mem_flatMap]
  exact or_iff_right fun hev => hno k (hpre ev hev).2

/-- Each active entry is evaluated, with its own delta. -/
theorem Reported.evaluated_iff {src dst : Pid} {n : Nat} :
    .evaluated src dst n ∈ log ↔ ∃ x, k.engine.entry (src, dst) = some x ∧ n = x.delta := by
  rw [h.mem_decay fun k ht => by cases ht; assumption]
  constructor
  · intro ⟨x, hx, hev⟩
    obtain ⟨ha, he | ⟨he, -⟩ | ⟨he, -⟩⟩ := IpcEntry.mem_events.mp hev
    · cases he; exact ⟨x, PolicyEngine.entry_of_mem hk hx ha, rfl⟩
    · cases he
    · cases he
  · intro h
    obtain ⟨x, hx, rfl⟩ := h
    obtain ⟨hmem, ha, hpair⟩ := PolicyEngine.entry_some hx
    cases hpair
    exact ⟨x, hmem, IpcEntry.mem_events.mpr ⟨ha, .inl rfl⟩⟩

theorem Reported.decayed_iff {src dst : Pid} :
    .decayed src dst ∈ log ↔ ∃ x, k.engine.entry (src, dst) = some x ∧ x.decays = true := by
  rw [h.mem_decay fun k ht => by cases ht; assumption]
  constructor
  · intro ⟨x, hx, hev⟩
    obtain ⟨ha, he | ⟨he, -⟩ | ⟨he, hd⟩⟩ := IpcEntry.mem_events.mp hev
    · cases he
    · cases he
    · cases he; exact ⟨x, PolicyEngine.entry_of_mem hk hx ha, hd⟩
  · intro ⟨x, hx, hd⟩
    obtain ⟨hmem, ha, hpair⟩ := PolicyEngine.entry_some hx
    cases hpair
    exact ⟨x, hmem, IpcEntry.mem_events.mpr ⟨ha, .inr (.inr ⟨rfl, hd⟩)⟩⟩

end reported

/-! ## Statistics slots -/

/-- The process of an active slot. -/
def CpuStats.key (s : CpuStats) : Option Pid := if s.active then some s.pid else none

theorem CpuStats.key_eq_some {s : CpuStats} {pid : Pid} : s.key = some pid ↔ s.active = true ∧ s.pid = pid := by
  simp [key]

@[simp] theorem PolicyEngine.register_ipcTable (e : PolicyEngine) (pid : Pid) :
    (e.register pid).ipcTable = e.ipcTable := by
  simp only [PolicyEngine.register]
  split <;> rfl

theorem isSlot_iff {pid : Pid} {s : CpuStats} : PolicyEngine.isSlot pid s = true ↔ s.key = some pid := by
  simp [PolicyEngine.isSlot, CpuStats.key_eq_some]

/-- `register` takes a slot only for a process that has none. -/
theorem PolicyEngine.keyed_register {e : PolicyEngine} (h : Keyed CpuStats.key e.stats.1) (pid : Pid) :
    Keyed CpuStats.key (e.register pid).stats.1 := by
  simp only [PolicyEngine.register]
  split
  · exact h
  · next hno =>
    refine h.claim rfl fun s hs hk => hno ?_
    exact List.any_eq_true.mpr ⟨s, hs, isSlot_iff.mpr hk⟩

end ChodOs
