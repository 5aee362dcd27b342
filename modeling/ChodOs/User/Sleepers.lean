/-
Who sleeps on a futex. All switches but one pick a process that is ready;
`wait4` has the child go on whatever it was doing, so a sleeper is woken by
its futex alone exactly when no parent hands over to it.
-/
import ChodOs.User.Sessions

namespace ChodOs

open StepSys UserSys

/-- The call wakes sleepers on `uaddr`: `futex` with `FUTEX_WAKE`, or the exit of a thread with this `child_tid_ptr`. -/
def WakesFutex (s : UserSys) (c : UserCall) (uaddr : Nat) : Prop :=
  (∃ op val fr, c = .futex uaddr op val fr ∧ futexOp op = 1#64) ∨
    ∃ p, s.procs.cur = some p ∧ (c.exits p).isSome = true ∧ p.threadGroupPid ≠ 0 ∧ p.childTidPtr = uaddr

/-- A process that slept on a futex before the step and is ready or runs after it was woken there. -/
def WokenByFutex (s : Session) (a : SessionOp) (s' : Session) : Prop :=
  ∀ i p q uaddr, s.sys.procs.at? i = some p → p.state = .blocked uaddr → s'.sys.procs.at? i = some q → q.pid = p.pid →
    q.state = .ready ∨ q.state = .running → ∃ c, a = .call c ∧ WakesFutex s.sys c uaddr

/-- No parent hands over to a child that sleeps. -/
def SparesSleepers (s : Session) : SessionOp → Prop
  | .call (.wait4 childPid _ options _) => ∀ p ∈ s.sys.procs.cur, ∀ i ∈ s.sys.procs.findChild p.pid childPid,
    ∀ q ∈ s.sys.procs.at? i, ∀ uaddr, q.state = .blocked uaddr → options % 2 = 1
  | _ => True

/-- The call hands over to slot `i` for a child in it. -/
def WaitsForSlot (s : UserSys) (p : UserProc) (i : Nat) : UserCall → Prop
  | .wait4 childPid _ options _ => s.procs.findChild p.pid childPid = some i ∧ options % 2 ≠ 1
  | _ => False

variable {s s' : UserSys} {p q q' : UserProc} {c : UserCall} {o : Outcome} {t : Uprocs} {i j uaddr : Nat}

/-- In the table that an exited thread leaves. -/
theorem sleeper_reaped (hc : s.procs.cur = some p) {code : Int} (hexits : c.exits p = some code)
    (hthread : p.threadGroupPid ≠ 0) (hi : s.procs.at? i = some q) (hb : q.state = .blocked uaddr)
    (hq : (s.procs.reaped p).at? i = some q') : q' = q ∨ WakesFutex s c uaddr := by
  rw [Uprocs.reaped, Uprocs.at?_clear] at hq
  split at hq
  · cases hq
  · split at hq
    · rcases Uprocs.at?_futexWake s.procs i p.childTidPtr anyChild with
        he | ⟨r, hr, hr', -⟩
      · exact .inl (Option.some.inj (hq.symm.trans (he.trans hi)))
      · obtain rfl := Option.some.inj (hr.symm.trans hi)
        exact .inr (.inr ⟨p, hc, by rw [hexits]; rfl, hthread, UState.blocked.inj (hr'.symm.trans hb)⟩)
    · exact .inl (Option.some.inj (hq.symm.trans hi))

/-- A sleeper in the table that the caller leaves. -/
theorem Hands.sleeper (hh : Hands s p c t j) (hc : s.procs.cur = some p) (hi : s.procs.at? i = some q)
    (hb : q.state = .blocked uaddr) (hne : s.procs.current ≠ i) (hq : t.at? i = some q') :
    q' = q ∨ WakesFutex s c uaddr := by
  have hother : ∀ f, (s.procs.update f).at? i = some q := fun f => by rw [Uprocs.at?_update, if_neg hne, hi]
  cases hh with
  | wait4 => exact .inl (Option.some.inj (hq.symm.trans (hother _)))
  | exitThread hexits hthread _ => exact sleeper_reaped hc hexits hthread hi hb hq
  | exitProcess =>
    rw [Uprocs.at?_clear, if_neg hne] at hq
    exact .inl (Option.some.inj (hq.symm.trans (hother _)))
  | exec => exact .inl (Option.some.inj (hq.symm.trans (hother _)))
  | yield => exact .inl (Option.some.inj (hq.symm.trans (hother _)))
  | futex => exact .inl (Option.some.inj (hq.symm.trans (hother _)))

/-- Who goes on was not asleep, but for a child that is waited for. -/
theorem Hands.picks (hh : Hands s p c t i) (hq : t.at? i = some q) (hb : q.state = .blocked uaddr)
    (hne : s.procs.current ≠ i) : WaitsForSlot s p i c := by
  have hready : ∀ {u start}, Uprocs.findNextReadyFrom u start = some i → u.at? i = some q → WaitsForSlot s p i c := by
    intro u start hf hu
    obtain ⟨r, hr, hs⟩ := Uprocs.findNextReadyFrom_spec hf
    obtain rfl := Option.some.inj (hr.symm.trans hu)
    rw [hb] at hs
    cases hs
  cases hh with
  | wait4 hfind _ _ hhang => exact ⟨hfind, hhang⟩
  | exitThread _ _ hfind => exact hready hfind hq
  | exitProcess _ _ _ _ hparent hwaits _ =>
    rw [Uprocs.at?_clear, if_neg hne, hparent] at hq
    obtain rfl := Option.some.inj hq
    rw [hb] at hwaits
    cases hwaits
  | exec => exact absurd rfl hne
  | yield hfind => exact hready hfind hq
  | futex _ _ _ hfind => exact hready hfind hq

theorem Leaves.sleeper (hl : Leaves s p c t) (hc : s.procs.cur = some p) (hi : s.procs.at? i = some q)
    (hb : q.state = .blocked uaddr) (hne : s.procs.current ≠ i) (hq : t.at? i = some q') :
    q' = q ∨ WakesFutex s c uaddr := by
  cases hl with
  | thread hexits hthread _ => exact sleeper_reaped hc hexits hthread hi hb hq
  | program => exact .inl (Option.some.inj (hq.symm.trans hi))
  | process =>
    rw [Uprocs.zombie, Uprocs.at?_update, if_neg hne, hi] at hq
    exact .inl (Option.some.inj hq).symm

/-- A sleeper after a call. -/
theorem CallEffect.sleeper (he : CallEffect s p c o s') (hc : s.procs.cur = some p) (hp : ∀ uaddr, p.state ≠ .blocked uaddr)
    (hi : s.procs.at? i = some q) (hb : q.state = .blocked uaddr) (hq : s'.procs.at? i = some q') :
    q'.state = .blocked uaddr ∨ WakesFutex s c uaddr ∨ WaitsForSlot s p i c := by
  have hne : s.procs.current ≠ i := by
    intro h
    obtain rfl := h
    obtain rfl := Option.some.inj (hi.symm.trans hc)
    exact hp uaddr hb
  have hsame : ∀ {r}, some r = some q → r.state = .blocked uaddr := fun hr => Option.some.inj hr ▸ hb
  have hupdate : ∀ {f}, s'.procs = s.procs.update f → q'.state = .blocked uaddr := by
    intro f hprocs
    rw [hprocs, Uprocs.at?_update, if_neg hne, hi] at hq
    exact hsame hq.symm
  cases he with
  | quiet _ _ _ hprocs => exact .inl (hsame (hq.symm.trans (hprocs ▸ hi)))
  | fork _ _ hprocs => exact .inl (hsame (hq.symm.trans (hprocs ▸ Uprocs.at?_insert_of_some hi)))
  | clone _ _ hprocs => exact .inl (hsame (hq.symm.trans (hprocs ▸ Uprocs.at?_insert_of_some hi)))
  | setTid _ hprocs => exact .inl (hupdate hprocs)
  | setFs _ _ hprocs => exact .inl (hupdate hprocs)
  | alone _ _ hprocs => exact .inl (hupdate hprocs)
  | reaped _ _ _ _ hprocs =>
    rw [hprocs, Uprocs.at?_clear] at hq
    split at hq
    · cases hq
    · exact .inl (hsame (hq.symm.trans hi))
  | @woke a op val fr _ _ hwake _ hprocs =>
    rcases Uprocs.at?_futexWake s.procs i a val with h | ⟨r, hr, hr', -⟩
    · exact .inl (hsame (hq.symm.trans ((hprocs ▸ h).trans hi)))
    · obtain rfl := Option.some.inj (hr.symm.trans hi)
      obtain rfl := UState.blocked.inj (hr'.symm.trans hb)
      exact .inr (.inl (.inl ⟨op, val, fr, rfl, hwake⟩))
  | @handed _ t j r _ hh hsw =>
    rw [hsw.at?] at hq
    split at hq
    · next hj =>
      obtain rfl := hj
      rcases hh.sleeper hc hi hb hne hsw.slot with rfl | hw
      · exact .inr (.inr (hh.picks hsw.slot hb hne))
      · exact .inr (.inl hw)
    · rcases hh.sleeper hc hi hb hne hq with rfl | hw
      · exact .inl hb
      · exact .inr (.inl hw)
  | left hl _ _ hentries =>
    rcases hentries i with he | ⟨r, sigs, hr, he⟩
    · rcases hl.sleeper hc hi hb hne (he ▸ hq) with rfl | hw
      · exact .inl hb
      · exact .inr (.inl hw)
    · obtain rfl := Option.some.inj (he.symm.trans hq)
      rcases hl.sleeper hc hi hb hne hr with rfl | hw
      · exact .inl hb
      · exact .inr (.inl hw)

/-- The child of a parent that waits runs. -/
theorem wait4_runs (hc : s.procs.cur = some p) {childPid statusPtr options fr : Nat}
    (hf : s.procs.findChild p.pid childPid = some i) (hi : s.procs.at? i = some q) (hb : q.state = .blocked uaddr)
    (hne : s.procs.current ≠ i) (hhang : options % 2 ≠ 1) :
    (s.wait4 childPid statusPtr options fr).2.procs.at? i = some { q with state := .running } := by
  let t := s.procs.update (UserProc.laid fr (.waiting q.pid))
  have ht : t.at? i = some q := by rw [Uprocs.at?_update, if_neg hne, hi]
  have hcall : s.wait4 childPid statusPtr options fr = switchTo { s with procs := t } i ((t.at? i).getD q) := by
    simp only [wait4, hc, hf, hi]
    rw [hb]
    dsimp only
    rw [if_neg hhang]
    rfl
  rw [hcall, ht, Option.getD_some]
  have hstill : Still s { s with procs := t } := ⟨rfl, rfl⟩
  rw [(switched_switchTo _ hstill ht).at?, if_pos rfl]

/-! ## Runs of programs -/

namespace Session

variable {s s' : Session} {es : List SessionOp} {c : UserCall} {p q : UserProc} {i uaddr : Nat}

theorem Sound.cur_awake (hs : Sound s) (hc : s.sys.procs.cur = some p) (uaddr : Nat) : p.state ≠ .blocked uaddr := by
  intro hb
  rcases hs.seated.cur p hc with hst | ⟨code, hst⟩ <;> rw [hb] at hst <;> cases hst

/-- The start of a program leaves everybody as they were. -/
theorem at?_start (hs : Sound s) (hi : s.sys.procs.at? i = some p) (userCr3 kstack : Nat) :
    (s.start userCr3 kstack).sys.procs.at? i = some p := by
  obtain ⟨-, ⟨-, he⟩ | ⟨j, -, hnone, -, hat⟩⟩ := start_cases hs userCr3 kstack
  · rw [he]
    exact hi
  · rw [hat, if_neg, hi]
    intro h
    obtain rfl := h
    cases hnone.symm.trans hi

/-- A `wait4` that finds a sleeper and hangs lets it run, and no futex has woken it. -/
theorem spares_of_wokenByFutex (hs : Sound s) (hcall : s' = { sys := (s.sys.call c).2, inUser := s'.inUser })
    (hwoken : WokenByFutex s (.call c) s') : SparesSleepers s (.call c) := by
  cases c with
  | wait4 childPid statusPtr options fr =>
    intro p hc i hf q hi uaddr hb
    by_contra hhang
    have hne : s.sys.procs.current ≠ i := by
      intro h
      obtain rfl := h
      exact hs.cur_awake hi uaddr hb
    have hrun : s'.sys.procs.at? i = some { q with state := .running } := by
      rw [hcall]
      exact wait4_runs hc hf hi hb hne hhang
    obtain ⟨c, ha, hw⟩ := hwoken i q { q with state := .running } uaddr hi hb hrun rfl (.inr rfl)
    cases ha
    rcases hw with ⟨_, _, _, he, -⟩ | ⟨_, -, he, -⟩ <;> cases he
  | _ => trivial

theorem wokenByFutex_of_spares (hs : Sound s) (huser : s.inUser = true)
    (hcall : s' = { sys := (s.sys.call c).2, inUser := s'.inUser }) (hspares : SparesSleepers s (.call c)) :
    WokenByFutex s (.call c) s' := by
  intro i q q' uaddr hi hb hq' hpid hstate
  obtain ⟨p, hc⟩ := hs.taken huser
  rw [hcall] at hq'
  rcases (call_effect hc c).sleeper hc (hs.cur_awake hc) hi hb hq' with hsleeps | hw | hwaits
  · rw [hsleeps] at hstate
    rcases hstate with hstate | hstate <;> cases hstate
  · exact ⟨c, rfl, hw⟩
  · cases c with
    | wait4 childPid statusPtr options fr => exact absurd (hspares p hc i hwaits.1 q hi uaddr hb) hwaits.2
    | _ => exact hwaits.elim

end Session

/-- In a run of programs every sleeper is woken by its futex, exactly when
every `wait4` spares those that sleep. -/
theorem futex_sleeper_iff_spared {kernelMem : ByteMem} {spaces : Nat → ByteMem} {kernelCr3 kernRsp spawned : Nat}
    {h es : List SessionOp} {s s' : Session} {a : SessionOp}
    (hr : Runs Session.step free (.boot kernelMem spaces kernelCr3 kernRsp spawned) h s)
    (hs : s.step a = some (es, s')) : WokenByFutex s a s' ↔ SparesSleepers s a := by
  have hsound := Session.sound_of_runs hr
  cases a with
  | start userCr3 kstack =>
    refine iff_of_true (fun i p q uaddr hi hb hq hpid hstate => ?_) trivial
    simp only [Session.step] at hs
    split at hs
    · cases hs
    · cases hs
      obtain rfl := Option.some.inj (hq.symm.trans (Session.at?_start hsound hi userCr3 kstack))
      rw [hb] at hstate
      rcases hstate with hstate | hstate <;> cases hstate
  | call c =>
    simp only [Session.step] at hs
    split at hs
    · next huser =>
      cases hs
      exact ⟨Session.spares_of_wokenByFutex hsound rfl, Session.wokenByFutex_of_spares hsound huser rfl⟩
    · cases hs

/-- A program forks, its child sleeps on a word, and the program wakes it there. -/
theorem futex_sleeper_woken : ∃ (h : List SessionOp) (s : Session) (es : List SessionOp) (s' : Session),
    Runs Session.step free (.boot (fun _ => 0) (fun _ _ => 0) 0 0 1) h s ∧
    s.step (.call (.futex 0x1000 1#64 1 userEnd)) = some (es, s') ∧
    (s.sys.procs.at? 1).map (·.state) = some (.blocked 0x1000) ∧ (s'.sys.procs.at? 1).map (·.state) = some .ready ∧
    WokenByFutex s (.call (.futex 0x1000 1#64 1 userEnd)) s' := by
  obtain ⟨h, s, hr, hP⟩ := Runs.of_exec Session.step free (.boot (fun _ => 0) (fun _ _ => 0) 0 0 1)
    [.start 5 userEnd, .call (.fork userEnd 6 (userEnd + 0x20000)), .call (.yield userEnd),
      .call (.futex 0x1000 0#64 0 (userEnd + 0x20000))]
    (fun _ s => (s.sys.procs.at? 1).map (·.state) == some (.blocked 0x1000) &&
      (s.step (.call (.futex 0x1000 1#64 1 userEnd))).any fun r => (r.2.sys.procs.at? 1).map (·.state) == some .ready)
    (by decide)
  simp only [Bool.and_eq_true, beq_iff_eq, Option.any_eq_true] at hP
  obtain ⟨hsleeps, ⟨es, s'⟩, hs, hready⟩ := hP
  exact ⟨h, s, es, s', hr, hs, hsleeps, hready, (futex_sleeper_iff_spared hr hs).mpr trivial⟩

/-- The program waits for the child instead, and the child runs though nobody woke it. -/
theorem futex_sleeper_resumed_by_wait4 : ∃ (h : List SessionOp) (s : Session) (a : SessionOp) (es : List SessionOp)
    (s' : Session), Runs Session.step free (.boot (fun _ => 0) (fun _ _ => 0) 0 0 1) h s ∧ s.step a = some (es, s') ∧
    ¬WokenByFutex s a s' := by
  obtain ⟨h, s, hr, hP⟩ := Runs.of_exec Session.step free (.boot (fun _ => 0) (fun _ _ => 0) 0 0 1)
    [.start 5 userEnd, .call (.fork userEnd 6 (userEnd + 0x20000)), .call (.yield userEnd),
      .call (.futex 0x1000 0#64 0 (userEnd + 0x20000))]
    (fun _ s => (s.step (.call (.wait4 3 0 0 userEnd))).any fun r =>
      (s.sys.procs.at? 1).any fun p => (r.2.sys.procs.at? 1).any fun q =>
        p.state == .blocked 0x1000 && q.pid == p.pid && q.state == .running)
    (by decide)
  simp only [Bool.and_eq_true, beq_iff_eq, Option.any_eq_true] at hP
  obtain ⟨⟨es, s'⟩, hs, p, hp, q, hq, ⟨hsleeps, hpid⟩, hruns⟩ := hP
  refine ⟨h, s, _, es, s', hr, hs, fun hwoken => ?_⟩
  obtain ⟨c, ha, hw⟩ := hwoken 1 p q 0x1000 hp hsleeps hq hpid (.inr hruns)
  cases ha
  rcases hw with ⟨_, _, _, he, -⟩ | ⟨_, -, he, -⟩ <;> cases he

end ChodOs
