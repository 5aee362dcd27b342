/-
The pairs that may not get a new channel yet: `record_eviction`,
`expire_evictions` and `in_evict_cooldown` over whole runs. A pair keeps its
cooldown for 72 ticks unless the table, of eight places, is full of pairs in
cooldown and the pair's is the place given up.
-/
import ChodOs.Lib.Run
import ChodOs.Policy.Facts

namespace ChodOs

open StepSys

/-! ## The two calls -/

/-- The pair of a place in the table. -/
def evictPair (v : Pid × Pid × Nat) : Pid × Pid := (v.1, v.2.1)

namespace PolicyEngine

/-- The place `record_eviction` gives up: the first of least `min_tick`, when
the pair has no place and there is no free one. -/
def victim (e : PolicyEngine) (p : Pid × Pid) : Option (Pid × Pid × Nat) :=
  if e.evictTable.1.any (fun v => v.1 == p.1 && v.2.1 == p.2) ∨ e.evictTable.1.length < maxEvictPairs then none
  else e.evictTable.1[Slots.bestIdx (fun x b => x.2.2 < b.2.2) e.evictTable.1]?

/-- `record_eviction` rewrites the pair's place, takes a new one or gives one up. -/
theorem recordEviction_cases (e : PolicyEngine) (src dst : Pid) (tick : Nat) :
    (∃ i a, e.evictTable.1[i]? = some a ∧ evictPair a = (src, dst) ∧ (e.recordEviction src dst tick).evictTable.1 =
        e.evictTable.1.set i (src, dst, tick + channelRecreateCooldownTicks)) ∨
      (∀ v ∈ e.evictTable.1, evictPair v ≠ (src, dst)) ∧
        ((e.recordEviction src dst tick).evictTable.1 =
            e.evictTable.1 ++ [(src, dst, tick + channelRecreateCooldownTicks)] ∨
          ∃ i a, e.evictTable.1[i]? = some a ∧ e.victim (src, dst) = some a ∧
            (e.recordEviction src dst tick).evictTable.1 =
              e.evictTable.1.set i (src, dst, tick + channelRecreateCooldownTicks)) := by
  have hpair : ∀ v : Pid × Pid × Nat, (v.1 == src && v.2.1 == dst) = true ↔ evictPair v = (src, dst) := by
    intro v
    simp [evictPair]
  by_cases hany : e.evictTable.1.any (fun v => v.1 == src && v.2.1 == dst) = true
  · refine .inl ?_
    have hrec : (e.recordEviction src dst tick).evictTable.1 = Slots.updateFirst (fun v => v.1 == src && v.2.1 == dst)
        (fun _ => (src, dst, tick + channelRecreateCooldownTicks)) e.evictTable.1 := by
      simp only [recordEviction, hany, if_pos]
    obtain ⟨v, hv, hp⟩ := List.any_eq_true.mp hany
    rcases Slots.updateFirst_eq_set (fun v : Pid × Pid × Nat => v.1 == src && v.2.1 == dst)
      (fun _ => (src, dst, tick + channelRecreateCooldownTicks)) e.evictTable.1 with ⟨hno, -⟩ | ⟨i, a, hi, ha, he⟩
    · rw [hno v hv] at hp; cases hp
    · exact ⟨i, a, hi, (hpair a).mp ha, hrec.trans he⟩
  · have hno : ∀ v ∈ e.evictTable.1, evictPair v ≠ (src, dst) := fun v hv hp =>
      hany (List.any_eq_true.mpr ⟨v, hv, (hpair v).mpr hp⟩)
    refine .inr ⟨hno, ?_⟩
    by_cases hfree : e.evictTable.1.length < maxEvictPairs
    · refine .inl ?_
      simp only [recordEviction, hany, hfree, dif_pos]
      rfl
    · have hne : e.evictTable.1 ≠ [] := fun hnil => hfree (by rw [hnil]; decide)
      have hlt := @Slots.bestIdx_lt _ (fun x b : Pid × Pid × Nat => decide (x.2.2 < b.2.2)) _ hne
      refine .inr ⟨_, _, List.getElem?_eq_getElem hlt, ?_, ?_⟩
      · rw [victim, if_neg (by simp only [hany, hfree]; decide), List.getElem?_eq_getElem hlt]
      · simp only [recordEviction, hany, hfree]
        rfl

/-- The pair has a place until 72 ticks later. -/
theorem mem_recordEviction (e : PolicyEngine) (src dst : Pid) (tick : Nat) :
    (src, dst, tick + channelRecreateCooldownTicks) ∈ (e.recordEviction src dst tick).evictTable.1 := by
  rcases e.recordEviction_cases src dst tick with ⟨i, a, hi, -, he⟩ | ⟨-, he | ⟨i, a, hi, -, he⟩⟩
  · rw [he]; exact List.mem_set (List.getElem?_eq_some_iff.mp hi).1 _
  · rw [he]; simp
  · rw [he]; exact List.mem_set (List.getElem?_eq_some_iff.mp hi).1 _

/-- Another pair keeps its place, unless it is the one given up. -/
theorem mem_recordEviction_other {e : PolicyEngine} {src dst : Pid} (tick : Nat) {v : Pid × Pid × Nat}
    (hv : v ∈ e.evictTable.1) (hne : evictPair v ≠ (src, dst)) (hvictim : e.victim (src, dst) ≠ some v) :
    v ∈ (e.recordEviction src dst tick).evictTable.1 := by
  rcases e.recordEviction_cases src dst tick with ⟨i, a, hi, hp, he⟩ | ⟨-, he | ⟨i, a, hi, hvic, he⟩⟩
  · rw [he]
    exact Slots.mem_set_of_ne _ hi hv fun hva => hne (hva ▸ hp)
  · rw [he]; exact List.mem_append_left _ hv
  · rw [he]
    exact Slots.mem_set_of_ne _ hi hv fun hva => hvictim (hva ▸ hvic)

/-- A place is kept until its tick. -/
theorem mem_expireEvictions {e : PolicyEngine} {tick : Nat} {v : Pid × Pid × Nat} (hv : v ∈ e.evictTable.1)
    (hlt : tick < v.2.2) : v ∈ (e.expireEvictions tick).evictTable.1 :=
  Slots.mem_dropWhere _ _ hv (by simpa using hlt)

theorem inEvictCooldown_of_mem {e : PolicyEngine} {v : Pid × Pid × Nat} (hv : v ∈ e.evictTable.1) {tick : Nat}
    (hlt : tick < v.2.2) : e.inEvictCooldown v.1 v.2.1 tick = true :=
  List.any_eq_true.mpr ⟨v, hv, by simp [hlt]⟩

end PolicyEngine

/-! ## Runs -/

/-- The table and the tick of the last call. -/
structure EvictRun where
  engine : PolicyEngine
  now : Nat

inductive CoolEvent
  | recorded (p : Pid × Pid) (tick : Nat)
  deriving DecidableEq

inductive CoolOp
  | record (p : Pid × Pid) (tick : Nat)
  | expire (tick : Nat)

/-- One call; the tick does not go back. -/
def EvictRun.step (s : EvictRun) : CoolOp → Option (List CoolEvent × EvictRun)
  | .record p tick =>
    if s.now ≤ tick then some ([.recorded p tick], { engine := s.engine.recordEviction p.1 p.2 tick, now := tick })
    else none
  | .expire tick =>
    if s.now ≤ tick then some ([], { engine := s.engine.expireEvictions tick, now := tick }) else none

/-- No call gives up the place of `p` before its cooldown is over. -/
def Spares (p : Pid × Pid) (_ : List CoolEvent) (s : EvictRun) : CoolOp → Prop
  | .record q tick => ∀ v ∈ s.engine.victim q, evictPair v = p → v.2.2 ≤ tick
  | .expire _ => True

instance (p : Pid × Pid) (h : List CoolEvent) (s : EvictRun) (op : CoolOp) : Decidable (Spares p h s op) := by
  cases op <;> unfold Spares <;> infer_instance

/-- What was recorded of `p` is in the past, and its place lasts long enough. -/
def Cooled (p : Pid × Pid) (h : List CoolEvent) (s : EvictRun) : Prop :=
  ∀ t, .recorded p t ∈ h → t ≤ s.now ∧
    (s.now < t + channelRecreateCooldownTicks →
      ∃ v ∈ s.engine.evictTable.1, evictPair v = p ∧ t + channelRecreateCooldownTicks ≤ v.2.2)

theorem Cooled.step {p : Pid × Pid} {h es : List CoolEvent} {s s' : EvictRun} {op : CoolOp} (hc : Cooled p h s)
    (hok : Spares p h s op) (hs : s.step op = some (es, s')) : Cooled p (h ++ es) s' := by
  cases op with
  | expire tick =>
    simp only [EvictRun.step] at hs
    split at hs
    · next hle =>
      cases hs
      intro t ht
      rw [List.append_nil] at ht
      obtain ⟨hpast, hplace⟩ := hc t ht
      refine ⟨hpast.trans hle, fun hlt => ?_⟩
      obtain ⟨v, hv, hp, hlast⟩ := hplace (Nat.lt_of_le_of_lt hle hlt)
      exact ⟨v, PolicyEngine.mem_expireEvictions hv (Nat.lt_of_lt_of_le hlt hlast), hp, hlast⟩
    · cases hs
  | record q tick =>
    simp only [EvictRun.step] at hs
    split at hs
    · next hle =>
      cases hs
      intro t ht
      rcases List.mem_append.mp ht with ht | ht
      · obtain ⟨hpast, hplace⟩ := hc t ht
        refine ⟨hpast.trans hle, fun hlt => ?_⟩
        by_cases hq : q = p
        · -- The pair itself is recorded again, for longer.
          subst hq
          exact ⟨_, s.engine.mem_recordEviction q.1 q.2 tick, rfl, Nat.add_le_add_right (hpast.trans hle) _⟩
        · obtain ⟨v, hv, hp, hlast⟩ := hplace (Nat.lt_of_le_of_lt hle hlt)
          refine ⟨v, PolicyEngine.mem_recordEviction_other tick hv ?_ fun hvic => ?_, hp, hlast⟩
          · exact fun hvq => hq (hvq.symm.trans hp)
          · have := hok v hvic hp
            have hlt : tick < t + channelRecreateCooldownTicks := hlt
            omega
      · cases List.mem_singleton.mp ht
        exact ⟨Nat.le_refl _, fun _ => ⟨_, s.engine.mem_recordEviction p.1 p.2 tick, rfl, Nat.le_refl _⟩⟩
    · cases hs

/-- A recorded pair is in cooldown for the next 72 ticks. -/
theorem cooldown_holds {s₀ s : EvictRun} {p : Pid × Pid} {h : List CoolEvent}
    (hr : Runs EvictRun.step (Spares p) s₀ h s) {t : Nat} (hrec : .recorded p t ∈ h) {t' : Nat} (hnow : s.now ≤ t')
    (hlt : t' < t + 72) : s.engine.inEvictCooldown p.1 p.2 t' = true := by
  have hc : Cooled p h s := hr.invariant (Cooled p) nofun fun hi hok hs => hi.step hok hs
  obtain ⟨v, hv, rfl, hlast⟩ := (hc t hrec).2 (Nat.lt_of_le_of_lt hnow hlt)
  exact PolicyEngine.inEvictCooldown_of_mem hv (Nat.lt_of_lt_of_le hlt hlast)

def coolStart : EvictRun := { engine := .newConst, now := 0 }

/-- Nine pairs are reclaimed in one report. -/
def reclaimNine : List CoolOp := (List.range 9).map fun i => .record (i, 100) 36

/-- The first one has given up its place to the ninth at once. -/
theorem first_of_nine_is_not_cooling : ∃ h s, Runs EvictRun.step free coolStart h s ∧ .recorded (0, 100) 36 ∈ h ∧
    s.now ≤ 36 ∧ 36 < 36 + 72 ∧ s.engine.inEvictCooldown 0 100 36 = false := by
  obtain ⟨h, s, hr, hP⟩ := Runs.of_exec EvictRun.step free coolStart reclaimNine
    (fun h s => decide (.recorded (0, 100) 36 ∈ h) && decide (s.now ≤ 36) && !s.engine.inEvictCooldown 0 100 36)
    (by decide)
  simp only [Bool.and_eq_true, decide_eq_true_eq, Bool.not_eq_true'] at hP
  exact ⟨h, s, hr, hP.1.1, hP.1.2, by decide, hP.2⟩

/-- The second one is not the place given up, and cools down to the last tick. -/
theorem second_of_nine_is_cooling : ∃ h s, Runs EvictRun.step (Spares (1, 100)) coolStart h s ∧
    .recorded (1, 100) 36 ∈ h ∧ s.engine.inEvictCooldown 1 100 107 = true := by
  obtain ⟨h, s, hr, hP⟩ := Runs.of_exec EvictRun.step (Spares (1, 100)) coolStart reclaimNine
    (fun h s => decide (.recorded (1, 100) 36 ∈ h) && decide (s.now ≤ 107)) (by decide)
  simp only [Bool.and_eq_true, decide_eq_true_eq] at hP
  exact ⟨h, s, hr, hP.1, cooldown_holds hr hP.1 hP.2 (by decide)⟩

end ChodOs
