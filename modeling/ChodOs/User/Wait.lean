/-
`wait4_impl` for any child: `find_child` picks one before its state is
looked at, so a zombie is reaped exactly when no live child of the caller
has a slot before it.
-/
import ChodOs.User.Sessions

namespace ChodOs

open StepSys UserSys

/-- Who `wait4` waits for: a child that is not a thread. -/
def UserProc.IsChild (q p : UserProc) : Prop := q.parentPid = p.pid ∧ q.threadGroupPid = 0

/-- A child of `p` has exited. -/
def HasZombie (u : Uprocs) (p : UserProc) : Prop := ∃ i q code, u.at? i = some q ∧ q.IsChild p ∧ q.state = .zombie code

/-- In slot order the first child of `p` has exited. -/
def FirstChildDead (u : Uprocs) (p : UserProc) : Prop :=
  ∃ i q code, u.at? i = some q ∧ q.IsChild p ∧ q.state = .zombie code ∧ ∀ j < i, ∀ r, u.at? j = some r → ¬r.IsChild p

/-- A child that has exited is reaped: its pid is returned, its exit code
stored, its slot cleared, and nothing else is changed. -/
def ReapsZombie (s : UserSys) (p : UserProc) (statusPtr options frameRsp : Nat) : Prop :=
  ∃ i q code, s.procs.at? i = some q ∧ q.IsChild p ∧ q.state = .zombie code ∧
    s.wait4 anyChild statusPtr options frameRsp =
      (.ret q.pid, { s.storeUser32 statusPtr (waitStatus code) with procs := s.procs.clear i })

variable {s : UserSys} {u : Uprocs} {p q : UserProc} {i : Nat}

/-- The slot that `find_child` picks for any child. -/
theorem findChild_eq_some_iff : u.findChild p.pid anyChild = some i ↔
    (∃ q, u.at? i = some q ∧ q.IsChild p) ∧ ∀ j < i, ∀ r, u.at? j = some r → ¬r.IsChild p := by
  have htest : ∀ o : Option UserProc, (o.any fun q =>
      q.parentPid == p.pid && (anyChild == anyChild || q.pid == anyChild) && q.threadGroupPid == 0) = true ↔
      ∃ q, o = some q ∧ q.IsChild p := fun o => by
    simp [Option.any_eq_true, UserProc.IsChild]
  have hat : ∀ j (hj : j < u.slots.1.length), u.at? j = u.slots.1[j] := fun j hj => by
    rw [Uprocs.at?, List.getElem?_eq_getElem hj]
    rfl
  rw [Uprocs.findChild, List.findIdx?_eq_some_iff_getElem]
  constructor
  · intro h
    obtain ⟨hi, hq, hbefore⟩ := h
    refine ⟨?_, fun j hj r hr hchild => ?_⟩
    · rw [hat i hi]
      exact (htest _).mp hq
    · have hlt : j < u.slots.1.length := by omega
      rw [hat j hlt] at hr
      exact hbefore j hj ((htest _).mpr ⟨r, hr, hchild⟩)
  · intro h
    obtain ⟨⟨q, hq, hchild⟩, hbefore⟩ := h
    have hi : i < u.slots.1.length := u.slots.2.symm ▸ Uprocs.at?_lt hq
    refine ⟨hi, (htest _).mpr ⟨q, (hat i hi).symm.trans hq, hchild⟩, fun j hj hany => ?_⟩
    obtain ⟨r, hr, hchild⟩ := (htest _).mp hany
    exact hbefore j hj r ((hat j (by omega)).trans hr) hchild

/-- A zombie is reaped exactly when the first child is one. -/
theorem reapsZombie_iff (hc : s.procs.cur = some p) (statusPtr options frameRsp : Nat) :
    ReapsZombie s p statusPtr options frameRsp ↔ FirstChildDead s.procs p := by
  constructor
  · intro h
    obtain ⟨i, q, code, hq, _, _, hwait⟩ := h
    -- a call that leaves the table has not cleared slot `i`
    have hcleared : ∀ v, s.wait4 anyChild statusPtr options frameRsp ≠ (.ret v, s) := fun v he => by
      have hprocs : s.procs = s.procs.clear i := congrArg (fun r => r.2.procs) (he.symm.trans hwait)
      rw [hprocs, Uprocs.at?_clear, if_pos rfl] at hq
      cases hq
    cases hf : s.procs.findChild p.pid anyChild with
    | none => exact absurd (by simp only [wait4, hc, hf]) (hcleared (errno 10))
    | some k =>
      obtain ⟨⟨r, hr, hchild⟩, hfirst⟩ := findChild_eq_some_iff.mp hf
      by_cases hdead : ∃ code, r.state = .zombie code
      · obtain ⟨code, hstate⟩ := hdead
        exact ⟨k, r, code, hr, hchild, hstate, hfirst⟩
      · by_cases hnohang : options % 2 = 1
        · refine absurd ?_ (hcleared 0)
          simp only [wait4, hc, hf, hr]
          split
          · next code hstate => exact absurd ⟨code, hstate⟩ hdead
          · rw [if_pos hnohang]
        · exfalso
          simp only [wait4, hc, hf, hr] at hwait
          split at hwait
          · next code hstate => exact hdead ⟨code, hstate⟩
          · rw [if_neg hnohang] at hwait
            cases congrArg Prod.fst hwait
  · intro h
    obtain ⟨i, q, code, hq, hchild, hstate, hfirst⟩ := h
    have hfind : s.procs.findChild p.pid anyChild = some i := findChild_eq_some_iff.mpr ⟨⟨q, hq, hchild⟩, hfirst⟩
    refine ⟨i, q, code, hq, hchild, hstate, ?_⟩
    simp only [wait4, hc, hfind, hq, hstate, procs_storeUser32]

/-- While a child of the caller has exited, `wait4` for any child reaps one,
exactly when none has or the first one in slot order has. -/
theorem wait4_finds_zombie_iff (hc : s.procs.cur = some p) (statusPtr options frameRsp : Nat) :
    (HasZombie s.procs p → ReapsZombie s p statusPtr options frameRsp) ↔
      ¬HasZombie s.procs p ∨ FirstChildDead s.procs p := by
  rw [reapsZombie_iff hc, imp_iff_not_or]

/-- An only child exits while its parent is ready, and another program hands back. -/
theorem wait4_finds_only_zombie : ∃ (s : UserSys) (p : UserProc), s.procs.cur = some p ∧ HasZombie s.procs p ∧
    ReapsZombie s p 0 1 userEnd := by
  obtain ⟨-, s, -, hP⟩ := Runs.of_exec Session.step free (.boot (fun _ => 0) (fun _ _ => 0) 0 0 1)
    [.start 5 userEnd, .call (.fork userEnd 6 (userEnd + 0x20000)), .call (.yield userEnd), .call (.exit 3),
      .start 8 (userEnd + 0x60000), .call (.yield (userEnd + 0x60000))]
    (fun _ s => s.sys.procs.cur.any fun p => ((s.sys.procs.at? 0).any fun r => r.parentPid != p.pid) &&
      (s.sys.procs.at? 1).any fun q => q.parentPid == p.pid && q.threadGroupPid == 0 && q.state == .zombie 3)
    (by decide)
  simp only [Bool.and_eq_true, beq_iff_eq, bne_iff_ne, Option.any_eq_true] at hP
  obtain ⟨p, hc, ⟨r, hr, hother⟩, q, hq, ⟨hpar, hgroup⟩, hdead⟩ := hP
  have hfirst : FirstChildDead s.sys.procs p := by
    refine ⟨1, q, 3, hq, ⟨hpar, hgroup⟩, hdead, fun j hj r' hr' hchild => ?_⟩
    obtain rfl : j = 0 := by omega
    obtain rfl := Option.some.inj (hr.symm.trans hr')
    exact hother hchild.1
  have hz : HasZombie s.sys.procs p := ⟨1, q, 3, hq, ⟨hpar, hgroup⟩, hdead⟩
  exact ⟨s.sys, p, hc, hz, (wait4_finds_zombie_iff hc 0 1 userEnd).mpr (.inr hfirst) hz⟩

/-- Two children; the second exits while the first is ready, and another program hands back to the parent. -/
theorem second_child_dead_run : ∃ (h : List SessionOp) (s : Session) (p r : UserProc),
    Runs Session.step free (.boot (fun _ => 0) (fun _ _ => 0) 0 0 1) h s ∧ s.sys.procs.cur = some p ∧
    HasZombie s.sys.procs p ∧ s.sys.procs.at? 1 = some r ∧ r.IsChild p ∧ r.state = .ready ∧
    s.sys.procs.current = 0 ∧ p.state = .running := by
  obtain ⟨h, s, hr, hP⟩ := Runs.of_exec Session.step free (.boot (fun _ => 0) (fun _ _ => 0) 0 0 1)
    [.start 5 userEnd, .call (.fork userEnd 6 (userEnd + 0x20000)), .call (.fork userEnd 7 (userEnd + 0x40000)),
      .call (.yield userEnd), .call (.yield (userEnd + 0x20000)), .call (.exit 3), .start 8 (userEnd + 0x60000),
      .call (.yield (userEnd + 0x60000))]
    (fun _ s => s.sys.procs.current == 0 && s.sys.procs.cur.any fun p => p.state == .running &&
      ((s.sys.procs.at? 1).any fun r => r.parentPid == p.pid && r.threadGroupPid == 0 && r.state == .ready) &&
      (s.sys.procs.at? 2).any fun q => q.parentPid == p.pid && q.threadGroupPid == 0 && q.state == .zombie 3)
    (by decide)
  simp only [Bool.and_eq_true, beq_iff_eq, Option.any_eq_true] at hP
  obtain ⟨hcur, p, hc, ⟨hruns, r, hr1, ⟨hpar, hgroup⟩, hready⟩, q, hq, ⟨hpar', hgroup'⟩, hdead⟩ := hP
  exact ⟨h, s, p, r, hr, hc, ⟨2, q, 3, hq, ⟨hpar', hgroup'⟩, hdead⟩, hr1, ⟨hpar, hgroup⟩, hready, hcur, hruns⟩

/-- The zombie is not found: with `WNOHANG` the call returns 0. -/
theorem wait4_misses_zombie : ∃ (h : List SessionOp) (s : Session) (p : UserProc),
    Runs Session.step free (.boot (fun _ => 0) (fun _ _ => 0) 0 0 1) h s ∧ s.sys.procs.cur = some p ∧
    HasZombie s.sys.procs p ∧ ¬ReapsZombie s.sys p 0 1 userEnd ∧ ¬ReapsZombie s.sys p 0 0 userEnd := by
  obtain ⟨h, s, p, r, hr, hc, hz, hr1, hchild, hready, hcur, hruns⟩ := second_child_dead_run
  have hfirst : ¬FirstChildDead s.sys.procs p := by
    intro h
    obtain ⟨i, q, code, hq, hqc, hdead, hbefore⟩ := h
    have hi : ¬1 < i := fun hlt => hbefore 1 hlt r hr1 hchild
    obtain rfl | rfl : i = 0 ∨ i = 1 := by omega
    · rw [Uprocs.cur, hcur] at hc
      obtain rfl := Option.some.inj (hq.symm.trans hc)
      rw [hruns] at hdead
      cases hdead
    · obtain rfl := Option.some.inj (hq.symm.trans hr1)
      rw [hready] at hdead
      cases hdead
  exact ⟨h, s, p, hr, hc, hz, fun h => hfirst ((reapsZombie_iff hc 0 1 userEnd).mp h),
    fun h => hfirst ((reapsZombie_iff hc 0 0 userEnd).mp h)⟩

end ChodOs
