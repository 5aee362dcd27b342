/-
How many sleepers `futex_wake_impl` wakes. Its limit is a `u64` that it
compares as an `i64`: below `2^63` it wakes as many as it is asked to, and
from there on, where `try_wake_parent` asks for all of them, nobody.
-/
import ChodOs.User.Sessions

namespace ChodOs

open StepSys UserSys

namespace Uprocs

/-- How many are blocked on an address. -/
def sleepers (u : Uprocs) (uaddr : Nat) : Nat := u.slots.1.countP fun s => s.any fun p => p.state == .blocked uaddr

/-- How many slots differ. -/
def changes (u u' : Uprocs) : Nat := (u.slots.1.zip u'.slots.1).countP fun s => s.1 != s.2

/-- As many as there are, but no more than `n`, of those blocked on the
address become ready; their number is returned, and that is all. -/
structure WakesExactly (u : Uprocs) (uaddr n : Nat) : Prop where
  result : (u.futexWake uaddr n).1 = min n (u.sleepers uaddr)
  changes : u.changes (u.futexWake uaddr n).2 = min n (u.sleepers uaddr)
  current : (u.futexWake uaddr n).2.current = u.current
  others : ∀ i, (u.futexWake uaddr n).2.at? i = u.at? i ∨ ∃ p, u.at? i = some p ∧ p.state = .blocked uaddr ∧
    (u.futexWake uaddr n).2.at? i = some { p with state := .ready }

/-- The loop wakes the first sleepers, up to the limit. -/
theorem wake_count (limit uaddr woken : Nat) (l : List (Option UserProc)) :
    (Slots.mapAccum (wakeTurn limit uaddr) woken l).1 =
        woken + min (limit - woken) (l.countP fun s => s.any fun p => p.state == .blocked uaddr) ∧
      (l.zip (Slots.mapAccum (wakeTurn limit uaddr) woken l).2).countP (fun s => s.1 != s.2) =
        min (limit - woken) (l.countP fun s => s.any fun p => p.state == .blocked uaddr) := by
  induction l generalizing woken with
  | nil => simp [Slots.mapAccum]
  | cons s l ih =>
    by_cases hs : (s.any fun p => p.state == .blocked uaddr) = true
    · by_cases hlt : woken < limit
      · have hturn : wakeTurn limit uaddr woken s = (woken + 1, s.map fun p => { p with state := .ready }) :=
          if_pos ⟨hlt, hs⟩
        have hne : (s != s.map fun p => { p with state := .ready }) = true := by
          obtain ⟨p, rfl, hp⟩ := (Option.any_eq_true _ _).mp hs
          rw [bne_iff_ne]
          intro he
          have hready : p.state = .ready := congrArg UserProc.state (Option.some.inj he)
          rw [hready] at hp
          cases hp
        obtain ⟨hcount, hchanges⟩ := ih (woken + 1)
        simp only [Slots.mapAccum, hturn, List.zip_cons_cons, List.countP_cons, hcount, hchanges, hs, hne, if_true]
        omega
      · have hturn : wakeTurn limit uaddr woken s = (woken, s) := if_neg fun h => hlt h.1
        obtain ⟨hcount, hchanges⟩ := ih woken
        simp only [Slots.mapAccum, hturn, List.zip_cons_cons, List.countP_cons, hcount, hchanges, hs, bne_self_eq_false]
        constructor <;> simp <;> omega
    · have hturn : wakeTurn limit uaddr woken s = (woken, s) := if_neg fun h => hs h.2
      obtain ⟨hcount, hchanges⟩ := ih woken
      simp only [Slots.mapAccum, hturn, List.zip_cons_cons, List.countP_cons, hcount, hchanges, hs, bne_self_eq_false]
      constructor <;> simp

variable {u : Uprocs} {uaddr n i : Nat}

theorem exists_at? {p : UserProc} (h : some p ∈ u.slots.1) : ∃ i, u.at? i = some p := by
  obtain ⟨i, hi⟩ := List.mem_iff_getElem?.mp h
  exact ⟨i, by rw [at?, hi]; rfl⟩

theorem sleepers_eq_zero : u.sleepers uaddr = 0 ↔ ∀ i p, u.at? i = some p → p.state ≠ .blocked uaddr := by
  rw [sleepers, List.countP_eq_zero]
  constructor
  · intro h i p hp hb
    exact h _ (mem_of_at? hp) (by rw [Option.any_some, beq_iff_eq, hb])
  · intro h s hs hany
    obtain ⟨p, rfl, hp⟩ := (Option.any_eq_true _ _).mp hany
    obtain ⟨i, hi⟩ := exists_at? hs
    exact h i p hi (beq_iff_eq.mp hp)

/-- All hangs on the limit that the comparison uses. -/
theorem wakesExactly_iff_min : u.WakesExactly uaddr n ↔
    min (if n < 2 ^ 63 then n else 0) (u.sleepers uaddr) = min n (u.sleepers uaddr) := by
  obtain ⟨hcount, hchanges⟩ := wake_count (if n < 2 ^ 63 then n else 0) uaddr 0 u.slots.1
  rw [Nat.sub_zero] at hcount hchanges
  rw [Nat.zero_add] at hcount
  constructor
  · intro h
    exact hcount.symm.trans h.result
  · intro h
    exact ⟨hcount.trans h, hchanges.trans h, rfl, fun i => at?_futexWake u i uaddr n⟩

/-- The limit is as it should be below `2^63`, or where there is nobody to wake. -/
theorem wakesExactly_iff : u.WakesExactly uaddr n ↔ n < 2 ^ 63 ∨ ∀ i p, u.at? i = some p → p.state ≠ .blocked uaddr := by
  rw [wakesExactly_iff_min, ← sleepers_eq_zero]
  split
  · next hn => exact ⟨fun _ => .inl hn, fun _ => rfl⟩
  · next hn => omega

/-- From `2^63` on the loop stops before its first turn. -/
theorem futexWake_of_large (hn : 2 ^ 63 ≤ n) : (u.futexWake uaddr n).2 = u := by
  have hstay : ∀ l woken, (Slots.mapAccum (wakeTurn 0 uaddr) woken l).2 = l := by
    intro l
    induction l with
    | nil => exact fun _ => rfl
    | cons s l ih =>
      intro woken
      have hturn : wakeTurn 0 uaddr woken s = (woken, s) := if_neg fun h => Nat.not_lt_zero _ h.1
      simp only [Slots.mapAccum, hturn, ih]
  have hslots : (u.futexWake uaddr n).2.slots = u.slots := by
    refine Subtype.ext ?_
    rw [futexWake, if_neg (by omega)]
    exact hstay _ _
  exact congrArg (fun slots => ({ u with slots } : Uprocs)) hslots

end Uprocs

variable {s s' : UserSys} {p q : UserProc} {c : UserCall} {o : Outcome} {code : Int}

/-- The exit of a thread wakes nobody. -/
theorem reaped_eq_clear (u : Uprocs) (p : UserProc) : u.reaped p = u.clear u.current := by
  unfold Uprocs.reaped
  split
  · rw [Uprocs.futexWake_of_large (by decide)]
  · rfl

/-- A switch to somebody who is ready is no matter of who is blocked. -/
theorem Switched.blocked {t : Uprocs} {j : Nat} (hsw : Switched s t j q s') (hq : q.state = .ready) (i uaddr : Nat) :
    (∃ r, s'.procs.at? i = some r ∧ r.state = .blocked uaddr) ↔ ∃ r, t.at? i = some r ∧ r.state = .blocked uaddr := by
  rw [hsw.at?]
  split
  · next hij =>
    rw [← hij, hsw.slot]
    simp [hq]
  · rfl

/-- Who is blocked after the exit of a thread is whoever was blocked before, but for itself. -/
theorem blocked_after_exit (hc : s.procs.cur = some p) (ht : p.threadGroupPid ≠ 0) (code : Int) (i uaddr : Nat) :
    (∃ q, (s.sysExit code).2.procs.at? i = some q ∧ q.state = .blocked uaddr) ↔
      i ≠ s.procs.current ∧ ∃ q, s.procs.at? i = some q ∧ q.state = .blocked uaddr := by
  have hcleared : (∃ q, (s.procs.reaped p).at? i = some q ∧ q.state = .blocked uaddr) ↔
      i ≠ s.procs.current ∧ ∃ q, s.procs.at? i = some q ∧ q.state = .blocked uaddr := by
    rw [reaped_eq_clear, Uprocs.at?_clear]
    split
    · next hi => simp [hi.symm]
    · next hi => simp [Ne.symm hi]
  have heff : CallEffect s p (.exit code) (s.sysExit code).1 (s.sysExit code).2 := effect_sysExit hc rfl
  rw [← hcleared]
  generalize (s.sysExit code).1 = o at heff
  cases heff with
  | quiet hquiet => cases hquiet
  | handed hh hsw =>
    cases hh with
    | exitThread _ _ hfind =>
      obtain ⟨r, hr, hready⟩ := Uprocs.findNextReadyFrom_spec hfind
      obtain rfl := Option.some.inj (hr.symm.trans hsw.slot)
      exact hsw.blocked hready i uaddr
    | exitProcess _ hprocess => exact absurd hprocess ht
  | left hl _ _ hentries =>
    cases hl with
    | thread =>
      rcases hentries i with he | ⟨r, sigs, hr, he⟩
      · rw [he]
      · rw [he, hr]
        simp
    | program _ hprocess => exact absurd hprocess ht
    | process _ hprocess => exact absurd hprocess ht

/-- `futex_wake_impl` turns exactly as many sleepers ready as it is asked to,
when its count is below `2^63` or nobody sleeps on the address; and nobody
sleeps on a thread's `child_tid_ptr` after its exit exactly when nobody else
did before. -/
theorem futex_wake_exact_iff (u : Uprocs) (uaddr n : Nat) {s : UserSys} {p : UserProc} (hc : s.procs.cur = some p)
    (ht : p.threadGroupPid ≠ 0) (code : Int) :
    (u.WakesExactly uaddr n ↔ n < 2 ^ 63 ∨ ∀ i q, u.at? i = some q → q.state ≠ .blocked uaddr) ∧
      ((∀ i q, (s.sysExit code).2.procs.at? i = some q → q.state ≠ .blocked p.childTidPtr) ↔
        ∀ i q, i ≠ s.procs.current → s.procs.at? i = some q → q.state ≠ .blocked p.childTidPtr) := by
  refine ⟨Uprocs.wakesExactly_iff, ?_⟩
  constructor
  · intro h i q hi hq hb
    obtain ⟨r, hr, hb'⟩ := (blocked_after_exit hc ht code i p.childTidPtr).mpr ⟨hi, q, hq, hb⟩
    exact h i r hr hb'
  · intro h i q hq hb
    obtain ⟨hi, r, hr, hb'⟩ := (blocked_after_exit hc ht code i p.childTidPtr).mp ⟨q, hq, hb⟩
    exact h i r hi hr hb'

/-- A program starts a thread and sleeps until its `child_tid_ptr` is cleared. -/
theorem joining_run : ∃ (h : List SessionOp) (s : Session) (p : UserProc),
    Runs Session.step free (.boot (fun _ => 0) (fun _ _ => 0) 0 0 1) h s ∧ s.sys.procs.cur = some p ∧
    p.threadGroupPid ≠ 0 ∧ s.sys.procs.current = 1 ∧ p.childTidPtr = 0x1000 ∧
    ∃ q, s.sys.procs.at? 0 = some q ∧ q.state = .blocked 0x1000 := by
  obtain ⟨h, s, hr, hP⟩ := Runs.of_exec Session.step free (.boot (fun _ => 0) (fun _ _ => 0) 0 0 1)
    [.start 5 userEnd, .call (.clone 0x210100#64 0 0 0x1000 0 userEnd 6 (userEnd + 0x20000)),
      .call (.futex 0x1000 0#64 0 userEnd)]
    (fun _ s => s.sys.procs.current == 1 && (s.sys.procs.cur.any fun p => p.threadGroupPid != 0 && p.childTidPtr == 0x1000) &&
      (s.sys.procs.at? 0).any fun q => q.state == .blocked 0x1000)
    (by decide +kernel)
  simp only [Bool.and_eq_true, beq_iff_eq, bne_iff_ne, Option.any_eq_true] at hP
  obtain ⟨⟨hcur, p, hc, ht, hptr⟩, q, hq, hb⟩ := hP
  exact ⟨h, s, p, hr, hc, ht, hcur, hptr, q, hq, hb⟩

/-- One is woken where one is asked for, and the thread's exit wakes nobody. -/
theorem futex_wake_exact_joining : ∃ (s : UserSys) (p : UserProc), s.procs.cur = some p ∧ p.threadGroupPid ≠ 0 ∧
    s.procs.WakesExactly 0x1000 1 ∧
    ((∀ i q, (s.sysExit 0).2.procs.at? i = some q → q.state ≠ .blocked p.childTidPtr) ↔
      ∀ i q, i ≠ s.procs.current → s.procs.at? i = some q → q.state ≠ .blocked p.childTidPtr) := by
  obtain ⟨-, s, p, -, hc, ht, -⟩ := joining_run
  have h := futex_wake_exact_iff s.sys.procs 0x1000 1 hc ht 0
  exact ⟨s.sys, p, hc, ht, h.1.mpr (.inl (by decide)), h.2⟩

/-- The program is not woken: neither by a `FUTEX_WAKE` of `u64::MAX`, nor by the exit of its thread. -/
theorem futex_wake_max_wakes_nobody : ∃ (h : List SessionOp) (s : Session) (p : UserProc),
    Runs Session.step free (.boot (fun _ => 0) (fun _ _ => 0) 0 0 1) h s ∧ s.sys.procs.cur = some p ∧
    p.threadGroupPid ≠ 0 ∧ p.childTidPtr ≠ 0 ∧ ¬s.sys.procs.WakesExactly p.childTidPtr (2 ^ 64 - 1) ∧
    ¬∀ i q, (s.sys.sysExit 0).2.procs.at? i = some q → q.state ≠ .blocked p.childTidPtr := by
  obtain ⟨h, s, p, hr, hc, ht, hcur, hptr, q, hq, hb⟩ := joining_run
  refine ⟨h, s, p, hr, hc, ht, by rw [hptr]; decide, fun hwakes => ?_, fun hnobody => ?_⟩
  · rcases Uprocs.wakesExactly_iff.mp hwakes with hlt | hnone
    · exact absurd hlt (by decide)
    · exact hnone 0 q hq (hptr ▸ hb)
  · obtain ⟨r, hr', hb'⟩ := (blocked_after_exit hc ht 0 0 p.childTidPtr).mpr ⟨by rw [hcur]; decide, q, hq, hptr ▸ hb⟩
    exact hnobody 0 r hr' hb'

end ChodOs
