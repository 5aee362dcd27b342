/-
The table of reclaimed pairs, slot by slot: `evict_table` and `evict_len`, of
which `PolicyEngine.evictTable` is the part in use. `expire_evictions` ends,
and loses the pairs whose time has come and no others.
-/
import ChodOs.Lib.Filled
import ChodOs.Lib.Loop
import ChodOs.Policy.Keys

namespace ChodOs

/-- `evict_table` and `evict_len`. -/
abbrev EvictSlots := Filled (Pid × Pid × Nat) maxEvictPairs

namespace EvictSlots

/-- What `new_const` fills the table with, and `expire_evictions` a slot that comes free. -/
def vacant : Pid × Pid × Nat := (0, 0, 0)

def newConst : EvictSlots := Filled.new vacant

/-- `record_eviction`. -/
def recordEviction (s : EvictSlots) (src dst : Pid) (tick : Nat) : EvictSlots :=
  let minTick := tick + channelRecreateCooldownTicks
  match s.find fun v => v.1 == src && v.2.1 == dst with
  | some i => s.modify i fun v => (v.1, v.2.1, minTick)
  | none =>
    if h : s.len < maxEvictPairs then s.push (src, dst, minTick) h
    else s.set (Slots.bestIdx (fun x b => x.2.2 < b.2.2) s.slots.1) (src, dst, minTick)

/-- `expire_evictions`, if its loop is left within so many turns. -/
def expireEvictions (turns : Nat) (s : EvictSlots) (tick : Nat) : Option EvictSlots :=
  s.removeWhere (fun v => v.2.2 ≤ tick) vacant turns 0

/-- No pair has two slots. -/
def Distinct (s : EvictSlots) : Prop := (s.held.map evictPair).Nodup

/-- `s` is the engine's table. -/
def Refines (s : EvictSlots) (e : PolicyEngine) : Prop := s.held = e.evictTable.1

variable {s s' : EvictSlots} {e : PolicyEngine} {src dst : Pid} {tick : Nat}

/-! ## The engine's table -/

theorem refines_newConst : Refines newConst .newConst := rfl

theorem Refines.recordEviction (h : Refines s e) (src dst : Pid) (tick : Nat) :
    Refines (s.recordEviction src dst tick) (e.recordEviction src dst tick) := by
  have hlen : s.held.length = s.len := s.length_held
  rw [Refines] at h ⊢
  unfold EvictSlots.recordEviction PolicyEngine.recordEviction
  simp only
  rw [h] at hlen
  split
  · next i hfind =>
    obtain ⟨a, ha, hfirst⟩ := Filled.find_some hfind
    have hany : e.evictTable.1.any (fun v => v.1 == src && v.2.1 == dst) = true := by
      have hhit := List.find?_some hfirst
      rw [← h]
      exact List.any_eq_true.mpr ⟨a, List.mem_of_getElem? ha, hhit⟩
    rw [if_pos hany, Filled.held_modify_find hfind, h]
    refine Slots.updateFirst_congr fun v hv => ?_
    rw [Bool.and_eq_true, beq_iff_eq, beq_iff_eq] at hv
    rw [hv.1, hv.2]
  · next hfind =>
    have hno : ¬ e.evictTable.1.any (fun v => v.1 == src && v.2.1 == dst) = true := by
      rw [← h, List.any_eq_true]
      intro ⟨a, ha, hhit⟩
      exact List.find?_eq_none.mp (Filled.find_none hfind) a ha hhit
    rw [if_neg hno]
    by_cases hroom : s.len < maxEvictPairs
    · rw [dif_pos hroom, dif_pos (hlen ▸ hroom), Filled.held_push, h]
    · rw [dif_neg hroom, dif_neg (hlen ▸ hroom), Filled.held_set, ← Filled.held_of_full hroom, h]

theorem Refines.expireEvictions (h : Refines s e) (tick : Nat) :
    ∃ s', s.expireEvictions s.len tick = some s' ∧ Refines s' (e.expireEvictions tick) := by
  obtain ⟨s', hrun, hheld, -⟩ := Filled.removeWhere_spec (fun v : Pid × Pid × Nat => decide (v.2.2 ≤ tick)) vacant
    (Nat.le_add_left s.len 0)
  refine ⟨s', hrun, ?_⟩
  rw [Refines, hheld, ← s.length_held, h]
  rfl

/-! ## Runs -/

theorem distinct_iff : Distinct s ↔ Slots.Keyed evictKey s.held := Slots.keyed_some_iff.symm

theorem Distinct.recordEviction (h : Distinct s) (src dst : Pid) (tick : Nat) :
    Distinct (s.recordEviction src dst tick) := by
  have hrefines : Refines s { PolicyEngine.newConst with evictTable := ⟨s.held, s.length_held ▸ s.len_le⟩ } := rfl
  rw [distinct_iff] at h ⊢
  rw [hrefines.recordEviction src dst tick]
  exact keyed_recordEviction h src dst tick

theorem blank_recordEviction (h : Filled.Blank vacant s) (src dst : Pid) (tick : Nat) :
    Filled.Blank vacant (s.recordEviction src dst tick) := by
  unfold recordEviction
  simp only
  split
  · next i hfind =>
    obtain ⟨a, ha, -⟩ := Filled.find_some hfind
    exact h.modify (s.length_held ▸ (List.getElem?_eq_some_iff.mp ha).1)
  · split
    · next hroom => exact h.push hroom
    · next hroom =>
      intro j hle hj
      have hlen : s.len ≤ j := hle
      omega

/-! ## Expiry -/

/-- With a turn for each slot in use, the slots whose time is still to come are kept. -/
theorem expireEvictions_spec (s : EvictSlots) (tick : Nat) : ∃ s', s.expireEvictions s.len tick = some s' ∧
    s'.held.Perm (s.held.filter fun v => tick < v.2.2) ∧ (Filled.Blank vacant s → Filled.Blank vacant s') := by
  obtain ⟨s', hrun, hheld, hblank⟩ := Filled.removeWhere_spec (fun v : Pid × Pid × Nat => decide (v.2.2 ≤ tick)) vacant
    (Nat.le_add_left s.len 0)
  refine ⟨s', hrun, ?_, hblank⟩
  have hperm := Slots.dropWhere_perm_filter (fun v : Pid × Pid × Nat => decide (v.2.2 ≤ tick)) s.held
  rw [s.length_held, ← hheld] at hperm
  simpa only [← decide_not, Nat.not_le] using hperm

theorem Distinct.of_filter {p : Pid × Pid × Nat → Bool} (h : Distinct s) (hperm : s'.held.Perm (s.held.filter p)) :
    Distinct s' := (hperm.map evictPair).nodup_iff.mpr (List.Nodup.sublist (List.filter_sublist.map evictPair) h)

/-- Whatever the table has, the loop is left within a turn for each slot in
use. What is in use then are the pairs whose time is still to come, each with
the slot it had or another one; no pair has two, and the slots out of use are
vacant if they were so. -/
theorem expire_exact (s : EvictSlots) (hs : Distinct s) (tick : Nat) : ∃ s',
    (∀ turns, s.len ≤ turns → s.expireEvictions turns tick = some s') ∧
    s'.held.Perm (s.held.filter fun v => tick < v.2.2) ∧ Distinct s' ∧
    (Filled.Blank vacant s → Filled.Blank vacant s') := by
  obtain ⟨s', hrun, hperm, hblank⟩ := s.expireEvictions_spec tick
  exact ⟨s', fun turns hle => Filled.removeWhere_mono hrun hle, hperm, hs.of_filter hperm, hblank⟩

/-- Of two pairs the first is given back, and the other one moves to its slot. -/
theorem expire_exact_pair : ∃ s', (∀ turns, 2 ≤ turns →
    ((newConst.recordEviction 3 4 10).recordEviction 5 6 20).expireEvictions turns 85 = some s') ∧
    s'.held.Perm [(5, 6, 92)] := by
  obtain ⟨s', hrun, hperm, -, -⟩ :=
    expire_exact ((newConst.recordEviction 3 4 10).recordEviction 5 6 20) (by unfold Distinct; decide) 85
  exact ⟨s', hrun, hperm⟩

/-! ## Runs -/

inductive EvictCall
  | record (src dst : Pid) (tick : Nat)
  | expire (tick : Nat)

def step (s : EvictSlots) : EvictCall → Option EvictSlots
  | .record src dst tick => some (s.recordEviction src dst tick)
  | .expire tick => s.expireEvictions s.len tick

def engineStep (e : PolicyEngine) : EvictCall → PolicyEngine
  | .record src dst tick => e.recordEviction src dst tick
  | .expire tick => e.expireEvictions tick

/-- Under every sequence of calls the slots in use are the engine's table, no
pair has two, and the others are vacant. -/
theorem run_refines (h : List EvictCall) : ∃ s, h.foldlM step newConst = some s ∧
    Refines s (h.foldl engineStep .newConst) ∧ Distinct s ∧ Filled.Blank vacant s := by
  induction h using List.reverseRecOn with
  | nil => exact ⟨newConst, rfl, rfl, List.nodup_nil, .new vacant⟩
  | append_singleton h c ih =>
    obtain ⟨s, hrun, hrefines, hdistinct, hblank⟩ := ih
    rw [Loop.foldlM_append, hrun, Option.bind_some, List.foldl_append, List.foldlM_cons]
    cases c with
    | record src dst tick =>
      exact ⟨s.recordEviction src dst tick, rfl, hrefines.recordEviction src dst tick,
        hdistinct.recordEviction src dst tick, blank_recordEviction hblank src dst tick⟩
    | expire tick =>
      obtain ⟨s', hexpire, hnext⟩ := hrefines.expireEvictions tick
      obtain ⟨t, ht, hperm, hblank'⟩ := s.expireEvictions_spec tick
      obtain rfl : s' = t := Option.some.inj (hexpire.symm.trans ht)
      refine ⟨s', ?_, hnext, hdistinct.of_filter hperm, hblank' hblank⟩
      rw [step, hexpire]
      rfl

end EvictSlots

end ChodOs
