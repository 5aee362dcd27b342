/-
Programs one after the other (`enter_elf`, `sys_exit_impl`): control is in
the kernel's main loop or in a user process, and a program starts from the
one and a call is made from the other.

`Kin` is what every table on the way has: fresh and distinct pids, parents
older than their children, and nobody who waits for anything but a child.
-/
import ChodOs.User.Context

namespace ChodOs

open StepSys UserSys

structure Session where
  sys : UserSys
  /-- Control is in a user process. -/
  inUser : Bool

inductive SessionOp
  /-- `enter_elf`, with the space that it has loaded. -/
  | start (userCr3 kstack : Nat)
  | call (c : UserCall)

namespace Session

/-- Nothing has been started; the pids up to `spawned` belong to the kernel's own tasks. -/
def boot (kernelMem : ByteMem) (spaces : Nat → ByteMem) (kernelCr3 kernRsp spawned : Nat) : Session where
  sys := .boot kernelMem spaces kernelCr3 kernRsp (spawned + 1)
  inUser := false

/-- What `enter_elf` does to the table. -/
def start (s : Session) (userCr3 kstack : Nat) : Session where
  sys := s.sys.allocPid.2.register s.sys.allocPid.1 0 userCr3 kstack
  inUser := true

def step (s : Session) : SessionOp → Option (List SessionOp × Session)
  | .start userCr3 kstack => if s.inUser then none else some ([.start userCr3 kstack], s.start userCr3 kstack)
  | .call c =>
    if s.inUser then some ([.call c], { sys := (s.sys.call c).2, inUser := (s.sys.call c).1 != .kernelMain }) else none

end Session

/-! ## Who is whose child -/

/-- The same process. It does not wait if it did not before. -/
structure SameProc (q q' : UserProc) : Prop where
  pid : q'.pid = q.pid
  parentPid : q'.parentPid = q.parentPid
  group : q'.threadGroupPid = q.threadGroupPid
  waits : ∀ w, q'.state = .waiting w → q.state = .waiting w

/-- Every entry is of a process that was in its slot before. -/
def Derived (u u' : Uprocs) : Prop := ∀ i q', u'.at? i = some q' → ∃ q, u.at? i = some q ∧ SameProc q q'

/-- Pids below `next`, each of one process, and a waiting process waits for a child. -/
structure Kin (u : Uprocs) (next : Nat) : Prop where
  pos : 0 < next
  fresh : ∀ i q, u.at? i = some q → q.pid < next
  older : ∀ i q, u.at? i = some q → q.parentPid < q.pid
  distinct : ∀ i j q r, u.at? i = some q → u.at? j = some r → q.pid = r.pid → i = j
  waits : ∀ i q w, u.at? i = some q → q.state = .waiting w →
    w < next ∧ ∀ j r, u.at? j = some r → r.pid = w → r.parentPid = q.pid ∧ r.threadGroupPid = 0

variable {s s' : UserSys} {p q : UserProc} {c : UserCall} {o : Outcome} {t u u' : Uprocs} {i next : Nat}

theorem SameProc.refl (q : UserProc) : SameProc q q := ⟨rfl, rfl, rfl, fun _ h => h⟩

theorem Derived.refl (u : Uprocs) : Derived u u := fun _ q hq => ⟨q, hq, .refl q⟩

theorem Derived.update {f : UserProc → UserProc} (hf : ∀ q, SameProc q (f q)) : Derived u (u.update f) := by
  intro i q' hq
  rw [Uprocs.at?_update] at hq
  split at hq
  · obtain ⟨q, hat, rfl⟩ := Option.map_eq_some_iff.mp hq
    exact ⟨q, hat, hf q⟩
  · exact ⟨q', hq, .refl q'⟩

theorem Derived.clear (i : Nat) : Derived u (u.clear i) := by
  intro j q hq
  rw [Uprocs.at?_clear] at hq
  split at hq
  · cases hq
  · exact ⟨q, hq, .refl q⟩

theorem Derived.futexWake (uaddr maxCount : Nat) : Derived u (u.futexWake uaddr maxCount).2 := by
  intro i q' hq
  rcases Uprocs.at?_futexWake u i uaddr maxCount with he | ⟨q, hat, -, he⟩
  · exact ⟨q', he ▸ hq, .refl q'⟩
  · obtain rfl := Option.some.inj (he.symm.trans hq)
    exact ⟨q, hat, rfl, rfl, rfl, nofun⟩

theorem Derived.trans (h : Derived u t) (h' : Derived t u') : Derived u u' := by
  intro i q'' hq
  obtain ⟨q', hq', hk'⟩ := h' i q'' hq
  obtain ⟨q, hq, hk⟩ := h i q' hq'
  exact ⟨q, hq, hk'.pid.trans hk.pid, hk'.parentPid.trans hk.parentPid, hk'.group.trans hk.group,
    fun w hw => hk.waits w (hk'.waits w hw)⟩

theorem Derived.reaped (u : Uprocs) (p : UserProc) : Derived u (u.reaped p) := by
  unfold Uprocs.reaped
  split
  · exact (Derived.futexWake _ _).trans (.clear _)
  · exact .clear _

theorem Derived.zombie (u : Uprocs) (code : Int) : Derived u (u.zombie code) :=
  .update fun _ => ⟨rfl, rfl, rfl, nofun⟩

theorem Switched.derived (hsw : Switched s t i q s') : Derived t s'.procs := by
  intro j r hr
  rw [hsw.at?] at hr
  split at hr
  · next hj =>
    cases hr
    exact ⟨q, hj ▸ hsw.slot, rfl, rfl, rfl, nofun⟩
  · exact ⟨r, hr, .refl r⟩

theorem Kin.derived (h : Kin u next) (hd : Derived u u') : Kin u' next := by
  refine ⟨h.pos, fun i q hq => ?_, fun i q hq => ?_, fun i j q r hq hr he => ?_, fun i q w hq hw => ?_⟩
  · obtain ⟨q₀, hq₀, hk⟩ := hd i q hq
    exact hk.pid ▸ h.fresh i q₀ hq₀
  · obtain ⟨q₀, hq₀, hk⟩ := hd i q hq
    exact hk.pid ▸ hk.parentPid ▸ h.older i q₀ hq₀
  · obtain ⟨q₀, hq₀, hk⟩ := hd i q hq
    obtain ⟨r₀, hr₀, hk'⟩ := hd j r hr
    exact h.distinct i j q₀ r₀ hq₀ hr₀ (hk.pid ▸ hk'.pid ▸ he)
  · obtain ⟨q₀, hq₀, hk⟩ := hd i q hq
    obtain ⟨hlt, hchild⟩ := h.waits i q₀ w hq₀ (hk.waits w hw)
    refine ⟨hlt, fun j r hr he => ?_⟩
    obtain ⟨r₀, hr₀, hk'⟩ := hd j r hr
    obtain ⟨hparent, hgroup⟩ := hchild j r₀ hr₀ (hk'.pid ▸ he)
    exact ⟨by rw [hk'.parentPid, hparent, hk.pid], hk'.group.trans hgroup⟩

/-- A process with the next pid. -/
theorem Kin.add (h : Kin u next) (hpid : q.pid = next) (hparent : q.parentPid < next) (hwait : ∀ w, q.state ≠ .waiting w)
    (hat : ∀ j, u'.at? j = if i = j then some q else u.at? j) : Kin u' (next + 1) := by
  have hcases : ∀ {j r}, u'.at? j = some r → i = j ∧ r = q ∨ u.at? j = some r := by
    intro j r hr
    rw [hat] at hr
    split at hr
    · next hj => exact .inl ⟨hj, (Option.some.inj hr).symm⟩
    · exact .inr hr
  refine ⟨by omega, fun j r hr => ?_, fun j r hr => ?_, fun j k r₁ r₂ hr₁ hr₂ he => ?_, fun j r w hr hw => ?_⟩
  · rcases hcases hr with ⟨-, rfl⟩ | hr
    · omega
    · have := h.fresh j r hr
      omega
  · rcases hcases hr with ⟨-, rfl⟩ | hr
    · omega
    · exact h.older j r hr
  · rcases hcases hr₁ with ⟨rfl, rfl⟩ | hr₁ <;> rcases hcases hr₂ with ⟨rfl, rfl⟩ | hr₂
    · rfl
    · have := h.fresh k r₂ hr₂
      omega
    · have := h.fresh j r₁ hr₁
      omega
    · exact h.distinct j k r₁ r₂ hr₁ hr₂ he
  · rcases hcases hr with ⟨-, rfl⟩ | hr
    · exact absurd hw (hwait w)
    · obtain ⟨hlt, hchild⟩ := h.waits j r w hr hw
      refine ⟨by omega, fun k r' hr' he => ?_⟩
      rcases hcases hr' with ⟨-, rfl⟩ | hr'
      · omega
      · exact hchild k r' hr' he

theorem Kin.mono (h : Kin u next) {next' : Nat} (hle : next ≤ next') : Kin u next' :=
  ⟨by have := h.pos; omega, fun i q hq => by have := h.fresh i q hq; omega, h.older, h.distinct, fun i q w hq hw =>
    ⟨by have := (h.waits i q w hq hw).1; omega, (h.waits i q w hq hw).2⟩⟩

theorem Kin.insert (h : Kin u next) (hpid : q.pid = next) (hparent : q.parentPid < next)
    (hwait : ∀ w, q.state ≠ .waiting w) : Kin (u.insert q) (next + 1) := by
  rcases Uprocs.insert_cases u q with ⟨-, he⟩ | ⟨i, -, -, hat⟩
  · rw [he]
    exact h.mono (Nat.le_succ next)
  · exact h.add hpid hparent hwait hat

/-- The current process waits for a child. -/
theorem Kin.wait (h : Kin u next) (hc : u.cur = some p) (hq : u.at? i = some q) (hparent : q.parentPid = p.pid)
    (hgroup : q.threadGroupPid = 0) (fr : Nat) : Kin (u.update (UserProc.laid fr (.waiting q.pid))) next := by
  have hcases : ∀ {j r}, (u.update (UserProc.laid fr (.waiting q.pid))).at? j = some r →
      ∃ r₀, u.at? j = some r₀ ∧ r.pid = r₀.pid ∧ r.parentPid = r₀.parentPid ∧ r.threadGroupPid = r₀.threadGroupPid ∧
        (j = u.current ∧ r₀ = p ∧ r.state = .waiting q.pid ∨ r.state = r₀.state) := by
    intro j r hr
    rw [Uprocs.at?_update] at hr
    split at hr
    · next hj =>
      obtain ⟨r₀, hr₀, rfl⟩ := Option.map_eq_some_iff.mp hr
      exact ⟨r₀, hr₀, rfl, rfl, rfl, .inl ⟨hj.symm, Option.some.inj ((hj ▸ hr₀).symm.trans hc), rfl⟩⟩
    · exact ⟨r, hr, rfl, rfl, rfl, .inr rfl⟩
  refine ⟨h.pos, fun j r hr => ?_, fun j r hr => ?_, fun j k r r' hr hr' he => ?_, fun j r w hr hw => ?_⟩
  · obtain ⟨r₀, hr₀, hpid, -⟩ := hcases hr
    exact hpid ▸ h.fresh j r₀ hr₀
  · obtain ⟨r₀, hr₀, hpid, hpp, -⟩ := hcases hr
    exact hpid ▸ hpp ▸ h.older j r₀ hr₀
  · obtain ⟨r₀, hr₀, hpid, -⟩ := hcases hr
    obtain ⟨r₀', hr₀', hpid', -⟩ := hcases hr'
    exact h.distinct j k r₀ r₀' hr₀ hr₀' (hpid ▸ hpid' ▸ he)
  · obtain ⟨r₀, hr₀, hpid, -, -, hstate⟩ := hcases hr
    -- what is known of who has the pid `w` in the table before is known of it after
    have hafter : (∀ k r', u.at? k = some r' → r'.pid = w → r'.parentPid = r₀.pid ∧ r'.threadGroupPid = 0) →
        ∀ k r', (u.update (UserProc.laid fr (.waiting q.pid))).at? k = some r' → r'.pid = w →
          r'.parentPid = r.pid ∧ r'.threadGroupPid = 0 := by
      intro hbefore k r' hr' he
      obtain ⟨r₁, hr₁, hpid₁, hpp₁, hg₁, -⟩ := hcases hr'
      obtain ⟨hpp, hg⟩ := hbefore k r₁ hr₁ (hpid₁ ▸ he)
      exact ⟨by rw [hpp₁, hpp, hpid], hg₁.trans hg⟩
    rcases hstate with ⟨-, rfl, hnew⟩ | hsame
    · obtain rfl : q.pid = w := UState.waiting.inj (hnew.symm.trans hw)
      refine ⟨h.fresh i q hq, hafter fun k r' hr' he => ?_⟩
      obtain rfl := h.distinct k i r' q hr' hq he
      obtain rfl := Option.some.inj (hr'.symm.trans hq)
      exact ⟨hparent, hgroup⟩
    · obtain ⟨hlt, hbefore⟩ := h.waits j r₀ w hr₀ (hsame ▸ hw)
      exact ⟨hlt, hafter hbefore⟩

theorem Hands.kin (hh : Hands s p c t i) (hc : s.procs.cur = some p) (h : Kin s.procs next) : Kin t next := by
  cases hh with
  | @wait4 _ _ _ fr _ q hfind hchild _ _ =>
    obtain ⟨r, hr, hparent, -, hgroup⟩ := Uprocs.findChild_spec hfind
    obtain rfl := Option.some.inj (hr.symm.trans hchild)
    exact h.wait hc hchild hparent hgroup fr
  | exitThread => exact h.derived (.reaped _ _)
  | exitProcess => exact h.derived ((Derived.zombie _ _).trans (.clear _))
  | exec => exact h.derived (.update fun _ => ⟨rfl, rfl, rfl, nofun⟩)
  | yield => exact h.derived (.update fun _ => ⟨rfl, rfl, rfl, nofun⟩)
  | futex => exact h.derived (.update fun _ => ⟨rfl, rfl, rfl, nofun⟩)

theorem Leaves.derived (hl : Leaves s p c t) : Derived s.procs t := by
  cases hl with
  | thread => exact .reaped _ _
  | program => exact .refl _
  | process => exact .zombie _ _

/-- The table that `CallEffect.left` leaves. -/
theorem derived_of_entries (h : ∀ j, u'.at? j = t.at? j ∨
    ∃ q sigs, t.at? j = some q ∧ u'.at? j = some { q with pendingSigs := sigs }) : Derived t u' := by
  intro j q' hq
  rcases h j with he | ⟨q, sigs, hat, he⟩
  · exact ⟨q', he ▸ hq, .refl q'⟩
  · obtain rfl := Option.some.inj (he.symm.trans hq)
    exact ⟨q, hat, rfl, rfl, rfl, fun _ hw => hw⟩

theorem CallEffect.kin (he : CallEffect s p c o s') (hc : s.procs.cur = some p) (h : Kin s.procs s.nextPid) :
    Kin s'.procs s'.nextPid := by
  have hp : p.pid < s.nextPid := h.fresh _ p hc
  cases he with
  | quiet _ _ hstill hprocs => exact hprocs ▸ hstill.nextPid ▸ h
  | fork _ hnext hprocs => exact hprocs ▸ hnext ▸ h.insert rfl hp nofun
  | clone _ hnext hprocs => exact hprocs ▸ hnext ▸ h.insert rfl hp nofun
  | setTid hstill hprocs => exact hprocs ▸ hstill.nextPid ▸ h.derived (.update fun _ => ⟨rfl, rfl, rfl, fun _ hw => hw⟩)
  | setFs _ hnext hprocs => exact hprocs ▸ hnext ▸ h.derived (.update fun _ => ⟨rfl, rfl, rfl, fun _ hw => hw⟩)
  | reaped _ _ _ hstill hprocs => exact hprocs ▸ hstill.nextPid ▸ h.derived (.clear _)
  | woke _ hstill hprocs => exact hprocs ▸ hstill.nextPid ▸ h.derived (.futexWake _ _)
  | alone _ hstill hprocs => exact hprocs ▸ hstill.nextPid ▸ h.derived (.update fun _ => ⟨rfl, rfl, rfl, nofun⟩)
  | handed hh hsw => exact hsw.nextPid ▸ (hh.kin hc h).derived hsw.derived
  | left hl hstill _ hentries => exact hstill.nextPid ▸ h.derived (hl.derived.trans (derived_of_entries hentries))

/-! ## Who is current -/

/-- The current process runs or has exited, and never sleeps. -/
structure AtWork (u : Uprocs) : Prop where
  lt : u.current < Uprocs.maxProcs
  cur : ∀ p, u.cur = some p → p.state = .running ∨ ∃ code, p.state = .zombie code

/-- Nothing but the current process is touched, which goes on as it was. -/
theorem AtWork.same (h : AtWork u) (hcur : u'.current = u.current) (hc : u.cur = some p)
    (hat : u'.at? u.current = some q) (hq : q.state = p.state ∨ q.state = .running) :
    AtWork u' ∧ ∃ q, u'.cur = some q := by
  have hc' : u'.cur = some q := by rw [Uprocs.cur, hcur, hat]
  refine ⟨⟨hcur ▸ h.lt, fun r hr => ?_⟩, q, hc'⟩
  obtain rfl := Option.some.inj (hc'.symm.trans hr)
  rcases hq with hq | hq
  · exact hq ▸ h.cur p hc
  · exact .inl hq

theorem Leaves.current (hl : Leaves s p c t) : t.current = s.procs.current := by
  cases hl with
  | thread =>
    rw [Uprocs.reaped, Uprocs.current_clear]
    split <;> rfl
  | program => rfl
  | process => rfl

/-- Who has left its table to the kernel's main loop. -/
theorem Leaves.seated (hl : Leaves s p c t) (hc : s.procs.cur = some p) (h : AtWork s.procs) : AtWork t := by
  refine ⟨hl.current ▸ h.lt, fun q hq => ?_⟩
  cases hl with
  | thread =>
    have hnone : (s.procs.reaped p).at? s.procs.current = none := by rw [Uprocs.reaped, Uprocs.at?_clear, if_pos rfl]
    have hcur : (s.procs.reaped p).current = s.procs.current := by
      rw [Uprocs.reaped, Uprocs.current_clear]
      split <;> rfl
    rw [Uprocs.cur, hcur, hnone] at hq
    cases hq
  | program => exact h.cur q hq
  | @process code =>
    rw [Uprocs.zombie, Uprocs.cur_update, hc] at hq
    exact .inr ⟨code, (congrArg UserProc.state (Option.some.inj hq)).symm⟩

theorem CallEffect.seated (he : CallEffect s p c o s') (hc : s.procs.cur = some p) (hk : Kin s.procs next) (h : AtWork s.procs) :
    AtWork s'.procs ∧ (o ≠ .kernelMain → ∃ q, s'.procs.cur = some q) := by
  have hstays : ∀ {q}, s'.procs.current = s.procs.current → s'.procs.at? s.procs.current = some q →
      q.state = p.state ∨ q.state = .running → AtWork s'.procs ∧ (o ≠ .kernelMain → ∃ q, s'.procs.cur = some q) :=
    fun hcur hat hq => ⟨(h.same hcur hc hat hq).1, fun _ => (h.same hcur hc hat hq).2⟩
  have hupdate : ∀ f : UserProc → UserProc, s'.procs = s.procs.update f → (f p).state = p.state ∨ (f p).state = .running →
      AtWork s'.procs ∧ (o ≠ .kernelMain → ∃ q, s'.procs.cur = some q) := by
    intro f hprocs hf
    have hcur : (s.procs.update f).cur = s.procs.cur.map f := Uprocs.cur_update
    rw [hc] at hcur
    exact hstays (by rw [hprocs]; rfl) (by rw [hprocs]; exact hcur) hf
  cases he with
  | quiet _ _ _ hprocs => exact hstays (by rw [hprocs]) (by rw [hprocs]; exact hc) (.inl rfl)
  | fork _ _ hprocs => exact hstays (by rw [hprocs]; rfl) (by rw [hprocs]; exact Uprocs.at?_insert_of_some hc) (.inl rfl)
  | clone _ _ hprocs => exact hstays (by rw [hprocs]; rfl) (by rw [hprocs]; exact Uprocs.at?_insert_of_some hc) (.inl rfl)
  | setTid _ hprocs => exact hupdate _ hprocs (.inl rfl)
  | setFs _ _ hprocs => exact hupdate _ hprocs (.inl rfl)
  | @reaped _ _ _ _ i q _ _ _ hfind hchild _ _ hprocs =>
    -- nobody is their own child
    have hne : i ≠ s.procs.current := by
      intro h
      obtain rfl := h
      obtain ⟨r, hr, hparent, -⟩ := Uprocs.findChild_spec hfind
      obtain rfl := Option.some.inj (hr.symm.trans hc)
      have := hk.older _ r hr
      omega
    refine hstays (by rw [hprocs]; rfl) ?_ (.inl rfl)
    rw [hprocs, Uprocs.at?_clear, if_neg hne]
    exact hc
  | @woke uaddr _ val _ _ _ _ _ hprocs =>
    refine hstays (by rw [hprocs]; rfl) ?_ (.inl rfl)
    rw [hprocs]
    rcases Uprocs.at?_futexWake s.procs s.procs.current uaddr val with
      he | ⟨q, hq, hb, -⟩
    · exact he.trans hc
    · obtain rfl := Option.some.inj (hq.symm.trans hc)
      rcases h.cur q hc with hs | ⟨code, hs⟩ <;> rw [hb] at hs <;> cases hs
  | alone _ _ hprocs => exact hupdate _ hprocs (.inr rfl)
  | @handed _ t i q _ _ hsw =>
    have hcur : s'.procs.cur = some { q with state := .running } := by
      rw [Uprocs.cur, hsw.at?, hsw.current, if_pos rfl]
    refine ⟨⟨hsw.current ▸ Uprocs.at?_lt hsw.slot, fun r hr => ?_⟩, fun _ => ⟨_, hcur⟩⟩
    obtain rfl := Option.some.inj (hcur.symm.trans hr)
    exact .inl rfl
  | @left _ t _ hl _ hcur hentries =>
    have ht := hl.seated hc h
    refine ⟨⟨hcur ▸ ht.lt, fun q hq => ?_⟩, fun ho => absurd rfl ho⟩
    rw [Uprocs.cur, hcur] at hq
    rcases hentries t.current with he | ⟨r, sigs, hr, he⟩
    · exact ht.cur q (he.symm.trans hq)
    · obtain rfl := Option.some.inj (he.symm.trans hq)
      exact ht.cur r hr

namespace Session

/-- What every state of a run of programs has. -/
structure Sound (s : Session) : Prop where
  kin : Kin s.sys.procs s.sys.nextPid
  seated : AtWork s.sys.procs
  taken : s.inUser = true → ∃ p, s.sys.procs.cur = some p

variable {s s' : Session} {a : SessionOp} {h es : List SessionOp} {kernelMem : ByteMem} {spaces : Nat → ByteMem}
  {kernelCr3 kernRsp spawned : Nat}

theorem step_start (h : s.inUser = false) (userCr3 kstack : Nat) :
    s.step (.start userCr3 kstack) = some ([.start userCr3 kstack], s.start userCr3 kstack) := by
  rw [step, h]
  rfl

theorem step_call (h : s.inUser = true) (c : UserCall) :
    s.step (.call c) = some ([.call c], { sys := (s.sys.call c).2, inUser := (s.sys.call c).1 != .kernelMain }) :=
  if_pos h

theorem sound_boot : Sound (.boot kernelMem spaces kernelCr3 kernRsp spawned) := by
  have hnone : ∀ i, (boot kernelMem spaces kernelCr3 kernRsp spawned).sys.procs.at? i = none := by
    intro i
    cases hat : (boot kernelMem spaces kernelCr3 kernRsp spawned).sys.procs.at? i with
    | none => rfl
    | some p => cases List.eq_of_mem_replicate (Uprocs.mem_of_at? hat)
  have hno : ∀ {i q}, (boot kernelMem spaces kernelCr3 kernRsp spawned).sys.procs.at? i = some q → False := fun hq =>
    absurd ((hnone _).symm.trans hq) nofun
  exact ⟨⟨Nat.succ_pos _, fun _ _ hq => (hno hq).elim, fun _ _ hq => (hno hq).elim, fun _ _ _ _ hq => (hno hq).elim,
    fun _ _ _ hq => (hno hq).elim⟩, ⟨Nat.succ_pos _, fun _ hq => (hno hq).elim⟩, nofun⟩

/-- A program takes an empty slot, or there is none and nothing happens. -/
theorem start_cases (hs : Sound s) (userCr3 kstack : Nat) : (s.start userCr3 kstack).sys.nextPid = s.sys.nextPid + 1 ∧
    (((∀ i < Uprocs.maxProcs, s.sys.procs.at? i ≠ none) ∧ (s.start userCr3 kstack).sys.procs = s.sys.procs) ∨
      ∃ i < Uprocs.maxProcs, s.sys.procs.at? i = none ∧ (s.start userCr3 kstack).sys.procs.current = i ∧
        ∀ j, (s.start userCr3 kstack).sys.procs.at? j =
          if i = j then some (.new s.sys.nextPid 0 userCr3 kstack) else s.sys.procs.at? j) := by
  have hfresh : ∀ i q, s.sys.procs.at? i = some q → q.pid ≠ s.sys.nextPid := by
    intro i q hq
    have := hs.kin.fresh i q hq
    omega
  refine ⟨rfl, (Uprocs.register_cases hfresh).imp (fun h => ⟨h.1, ?_⟩) fun h => h⟩
  exact congrArg Prod.snd h.2

theorem sound_step (hs : Sound s) (h : s.step a = some (es, s')) : Sound s' := by
  cases a with
  | start userCr3 kstack =>
    simp only [step] at h
    split at h
    · cases h
    · cases h
      obtain ⟨hnext, hcases⟩ := start_cases hs userCr3 kstack
      rcases hcases with ⟨hfull, hsame⟩ | ⟨i, hi, hnone, hcur, hat⟩
      · refine ⟨hsame ▸ hnext ▸ hs.kin.mono (Nat.le_succ _), hsame ▸ hs.seated, fun _ => ?_⟩
        exact hsame ▸ Option.ne_none_iff_exists'.mp (hfull _ hs.seated.lt)
      · have hc : (s.start userCr3 kstack).sys.procs.cur = some (.new s.sys.nextPid 0 userCr3 kstack) := by
          rw [Uprocs.cur, hat, hcur, if_pos rfl]
        refine ⟨hnext ▸ hs.kin.add rfl hs.kin.pos (by rintro _ ⟨⟩) hat, ⟨hcur ▸ hi, fun p hp => ?_⟩, fun _ => ⟨_, hc⟩⟩
        exact .inl (Option.some.inj (hc.symm.trans hp) ▸ rfl)
  | call c =>
    simp only [step] at h
    split at h
    · next huser =>
      cases h
      obtain ⟨p, hc⟩ := hs.taken huser
      have heff := call_effect hc c
      obtain ⟨hseated, htaken⟩ := heff.seated hc hs.kin hs.seated
      exact ⟨heff.kin hc hs.kin, hseated, fun huser' => htaken (by simpa using huser')⟩
    · cases h

theorem sound_of_runs (hr : Runs step free (.boot kernelMem spaces kernelCr3 kernRsp spawned) h s) : Sound s :=
  hr.invariant_state Sound sound_boot fun hs _ h => sound_step hs h

end Session

end ChodOs
