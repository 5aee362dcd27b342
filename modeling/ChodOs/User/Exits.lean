/-
How processes end (`sys_exit_impl`, `try_wake_parent`): who runs next, and
whether the slot is free again. Only an exiting thread looks for somebody
who is ready, and a program that `enter_elf` has started keeps its slot.
-/
import ChodOs.User.Sessions

namespace ChodOs

open StepSys UserSys

/-! ## Who runs next -/

/-- The parent of `p` waits for it. -/
def ParentWaits (u : Uprocs) (p : UserProc) : Prop :=
  ∃ i q, u.at? i = some q ∧ q.pid = p.parentPid ∧ (q.state = .waiting p.pid ∨ q.state = .waiting anyChild)

variable {s s' : UserSys} {p q : UserProc} {c : UserCall} {o : Outcome} {t u u' : Uprocs} {i : Nat}

/-- Who is ready stays so while a thread exits. -/
theorem ready_reaped (hi : u.at? i = some q) (hready : q.state = .ready) (hne : u.current ≠ i) :
    ∃ j, (u.reaped p).findNextReadyFrom 0 = some j := by
  refine findNextReadyFrom_of_ready (q := q) (i := i) ?_ hready
  rw [Uprocs.reaped, Uprocs.at?_clear, if_neg hne]
  split
  · rcases Uprocs.at?_futexWake u i p.childTidPtr anyChild with he | ⟨r, hr, hb, -⟩
    · exact he.trans hi
    · obtain rfl := Option.some.inj (hr.symm.trans hi)
      rw [hready] at hb
      cases hb
  · exact hi

/-- A parent that waits is found. -/
theorem found_of_waits {next : Nat} (hk : Kin u next) (hi : u.at? i = some q) (hpid : q.pid = p.parentPid)
    (hne : u.current ≠ i) (code : Int) :
    (u.zombie code).findPid p.parentPid = some i ∧ (u.zombie code).at? i = some q := by
  have hat : (u.zombie code).at? i = some q := by rw [Uprocs.zombie, Uprocs.at?_update, if_neg hne, hi]
  obtain ⟨j, hj⟩ := Option.ne_none_iff_exists'.mp (Uprocs.findPid_ne_none hat hpid)
  obtain ⟨r, hr, hrpid⟩ := Uprocs.findPid_spec hj
  have hk' : Kin (u.zombie code) next := hk.derived (.zombie _ _)
  obtain rfl := hk'.distinct j i r q hr hat (hrpid.trans hpid.symm)
  exact ⟨hj, hat⟩

/-- Only the exit of a thread, or of a process whose parent waits, hands over to somebody. -/
theorem exit_handed {code : Int} (he : CallEffect s p (.exit code) o s') (ho : o ≠ .kernelMain) :
    p.threadGroupPid ≠ 0 ∨ ParentWaits s.procs p := by
  cases he with
  | quiet hquiet => cases hquiet
  | left => exact absurd rfl ho
  | @handed _ _ j _ _ hh _ =>
    cases hh with
    | exitThread _ hthread _ => exact .inl hthread
    | exitProcess _ _ _ hfind hparent hwaits hwhich =>
      obtain ⟨r', hr', hpid⟩ := Uprocs.findPid_spec hfind
      obtain rfl := Option.some.inj (hr'.symm.trans hparent)
      rw [Uprocs.zombie, Uprocs.at?_update] at hparent
      split at hparent
      · obtain ⟨r₀, -, rfl⟩ := Option.map_eq_some_iff.mp hparent
        cases hwaits
      · refine .inr ⟨j, r', hparent, hpid, ?_⟩
        rcases hwhich with rfl | rfl
        · exact .inl hwaits
        · exact .inr hwaits

/-- An exit that ends in the kernel's main loop: of a thread while nobody else
is ready, or of a process whose parent does not wait. -/
theorem exit_left {code : Int} {next : Nat} (he : CallEffect s p (.exit code) .kernelMain s') (hk : Kin s.procs next)
    (hawake : ∀ {i q w}, s.procs.at? i = some q → q.state = .waiting w → s.procs.current ≠ i) :
    (p.threadGroupPid ≠ 0 → ∀ i q, i ≠ s.procs.current → s.procs.at? i = some q → q.state ≠ .ready) ∧
      (p.threadGroupPid = 0 → ¬ParentWaits s.procs p) := by
  cases he with
  | left hl _ _ _ =>
    cases hl with
    | thread _ hthread hnone =>
      refine ⟨fun _ i q hne hi hready => ?_, fun hprocess => absurd hprocess hthread⟩
      obtain ⟨k, hk'⟩ := ready_reaped (p := p) hi hready (Ne.symm hne)
      cases hnone.symm.trans hk'
    | program _ hprocess hroot =>
      refine ⟨fun hthread => absurd hprocess hthread, fun _ hwaits => ?_⟩
      obtain ⟨j, r, hj, hpid, -⟩ := hwaits
      have := hk.older j r hj
      omega
    | process _ hprocess _ hunwaited =>
      refine ⟨fun hthread => absurd hprocess hthread, fun _ hwaits => ?_⟩
      obtain ⟨j, r, hj, hpid, hwaits⟩ := hwaits
      obtain ⟨hfind, hat⟩ := found_of_waits hk hj hpid (hwaits.elim (hawake hj) (hawake hj)) _
      rcases hwaits with hw | hw
      · exact (hunwaited j r _ hfind hat hw).1 rfl
      · exact (hunwaited j r _ hfind hat hw).2 rfl

/-- In a run of programs, an exit while somebody else could run goes on with
a user process, exactly when a thread exits, or a process whose parent waits
for it, or nobody else is ready. -/
theorem exit_strands_nobody_iff {kernelMem : ByteMem} {spaces : Nat → ByteMem} {kernelCr3 kernRsp spawned : Nat}
    {h : List SessionOp} {s : Session} {p : UserProc}
    (hr : Runs Session.step free (.boot kernelMem spaces kernelCr3 kernRsp spawned) h s)
    (hc : s.sys.procs.cur = some p) (code : Int) :
    ((∃ i q, i ≠ s.sys.procs.current ∧ s.sys.procs.at? i = some q ∧ (q.state = .ready ∨ q.state = .waiting p.pid)) →
        (s.sys.sysExit code).1 ≠ .kernelMain) ↔
      p.threadGroupPid ≠ 0 ∨ ParentWaits s.sys.procs p ∨
        ∀ i q, i ≠ s.sys.procs.current → s.sys.procs.at? i = some q → q.state ≠ .ready := by
  have hsound := Session.sound_of_runs hr
  have hk := hsound.kin
  have hawake : ∀ {i q w}, s.sys.procs.at? i = some q → q.state = .waiting w → s.sys.procs.current ≠ i := by
    intro i q w hi hw h
    obtain rfl := h
    rcases hsound.seated.cur q hi with hs | ⟨code, hs⟩ <;> rw [hw] at hs <;> cases hs
  have heff : CallEffect s.sys p (.exit code) _ _ := effect_sysExit hc rfl
  constructor
  · intro hprop
    by_cases hother : ∃ i q, i ≠ s.sys.procs.current ∧ s.sys.procs.at? i = some q ∧ q.state = .ready
    · obtain ⟨i, q, hne, hi, hready⟩ := hother
      exact (exit_handed heff (hprop ⟨i, q, hne, hi, .inl hready⟩)).imp_right .inl
    · exact .inr (.inr fun i q hne hi hready => hother ⟨i, q, hne, hi, hready⟩)
  · intro hcond ⟨i, q, hne, hi, hstate⟩ ho
    rw [ho] at heff
    obtain ⟨hthread, hprocess⟩ := exit_left heff hk hawake
    rcases hstate with hready | hw
    · rcases hcond with ht | hpw | hnone
      · exact hthread ht i q hne hi hready
      · by_cases ht : p.threadGroupPid = 0
        · exact hprocess ht hpw
        · exact hthread ht i q hne hi hready
      · exact hnone i q hne hi hready
    · -- whoever waits for `p` is its parent, and `p` is not a thread
      obtain ⟨hparent, ht⟩ := (hk.waits i q p.pid hi hw).2 _ p hc rfl
      exact hprocess ht ⟨i, q, hi, hparent.symm, .inl hw⟩

/-- The parent waits and gets the processor back. -/
theorem exit_returns_to_parent : ∃ (h : List SessionOp) (s : Session) (p : UserProc),
    Runs Session.step free (.boot (fun _ => 0) (fun _ _ => 0) 0 0 1) h s ∧ s.sys.procs.cur = some p ∧
    (s.sys.procs.at? 0).map (·.state) = some (.waiting p.pid) ∧ (s.sys.sysExit 0).1 ≠ .kernelMain := by
  obtain ⟨h, s, hr, hP⟩ := Runs.of_exec Session.step free (.boot (fun _ => 0) (fun _ _ => 0) 0 0 1)
    [.start 5 userEnd, .call (.fork userEnd 6 (userEnd + 0x20000)), .call (.wait4 3 0 0 userEnd)]
    (fun _ s => s.sys.procs.current == 1 && s.sys.procs.cur.any fun p => (s.sys.procs.at? 0).any fun q =>
      q.pid == p.parentPid && q.state == .waiting p.pid)
    (by decide)
  simp only [Bool.and_eq_true, beq_iff_eq, Option.any_eq_true] at hP
  obtain ⟨hcur, p, hc, q, hq, hpid, hw⟩ := hP
  refine ⟨h, s, p, hr, hc, by rw [hq, Option.map_some, hw], ?_⟩
  refine (exit_strands_nobody_iff hr hc 0).mpr (.inr (.inl ⟨0, q, hq, hpid, .inl hw⟩)) ⟨0, q, ?_, hq, .inr hw⟩
  rw [hcur]
  decide

/-- The parent is only ready, and is left behind. -/
theorem exit_strands_ready_parent : ∃ (h : List SessionOp) (s : Session) (p : UserProc),
    Runs Session.step free (.boot (fun _ => 0) (fun _ _ => 0) 0 0 1) h s ∧ s.sys.procs.cur = some p ∧
    (∃ i q, i ≠ s.sys.procs.current ∧ s.sys.procs.at? i = some q ∧ (q.state = .ready ∨ q.state = .waiting p.pid)) ∧
    (s.sys.sysExit 0).1 = .kernelMain := by
  obtain ⟨h, s, hr, hP⟩ := Runs.of_exec Session.step free (.boot (fun _ => 0) (fun _ _ => 0) 0 0 1)
    [.start 5 userEnd, .call (.fork userEnd 6 (userEnd + 0x20000)), .call (.yield userEnd)]
    (fun _ s => s.sys.procs.current == 1 && s.sys.procs.cur.isSome &&
      (s.sys.procs.at? 0).any (fun q => q.state == .ready) && (s.sys.sysExit 0).1 == .kernelMain)
    (by decide)
  simp only [Bool.and_eq_true, beq_iff_eq, Option.any_eq_true, Option.isSome_iff_exists] at hP
  obtain ⟨⟨⟨hcur, p, hc⟩, q, hq, hready⟩, hout⟩ := hP
  refine ⟨h, s, p, hr, hc, ⟨0, q, ?_, hq, .inl hready⟩, hout⟩
  rw [hcur]
  decide

/-! ## Slots of programs -/

/-- How many programs have been started. -/
def programs (h : List SessionOp) : Nat := h.countP fun | .start .. => true | .call _ => false

/-- Control goes back to the kernel's main loop only when no forked process is left. -/
def OneByOne (_ : List SessionOp) (s : Session) : SessionOp → Prop
  | .start .. => True
  | .call c => (s.sys.call c).1 = .kernelMain → ∀ i < Uprocs.maxProcs, ∀ q ∈ s.sys.procs.at? i, q.parentPid = 0

instance (h : List SessionOp) (s : Session) (a : SessionOp) : Decidable (OneByOne h s a) := by
  cases a <;> unfold OneByOne <;> infer_instance

/-- The slots of the programs that `enter_elf` has started. -/
def rootSlots (u : Uprocs) : Finset Nat :=
  (Finset.range Uprocs.maxProcs).filter fun i => (u.ident i).any fun b => b.parentPid == 0

theorem mem_rootSlots : i ∈ rootSlots u ↔ ∃ q, u.at? i = some q ∧ q.parentPid = 0 := by
  simp only [rootSlots, Finset.mem_filter, Finset.mem_range, Uprocs.ident, Option.any_map, Option.any_eq_true]
  constructor
  · intro h
    obtain ⟨-, q, hq, hroot⟩ := h
    exact ⟨q, hq, beq_iff_eq.mp hroot⟩
  · intro h
    obtain ⟨q, hq, hroot⟩ := h
    exact ⟨Uprocs.at?_lt hq, q, hq, beq_iff_eq.mpr hroot⟩

theorem not_mem_rootSlots (h : u.at? i = none) : i ∉ rootSlots u := by
  intro hi
  obtain ⟨q, hq, -⟩ := mem_rootSlots.mp hi
  cases h.symm.trans hq

/-- An update of the other slots. -/
theorem rootSlots_update {id : Option Ident} (h : u'.ident = Function.update u.ident i id) (hold : i ∉ rootSlots u)
    (hnew : ∀ b, id = some b → b.parentPid ≠ 0) : rootSlots u' = rootSlots u := by
  refine Finset.filter_congr fun j hj => ?_
  rw [h]
  by_cases hij : j = i
  · subst hij
    rw [Function.update_self]
    have hno : (u.ident j).any (fun b => b.parentPid == 0) ≠ true := fun hany =>
      hold (Finset.mem_filter.mpr ⟨hj, hany⟩)
    refine iff_of_false (fun hany => ?_) hno
    obtain ⟨b, hb, hroot⟩ := (Option.any_eq_true _ _).mp hany
    exact hnew b hb (beq_iff_eq.mp hroot)
  · rw [Function.update_of_ne hij]

/-- Threads go on to have a parent. -/
theorem IdentStep.threads (hstep : IdentStep s p c u.ident) (hc : s.procs.cur = some p)
    (h : ∀ i q, s.procs.at? i = some q → q.threadGroupPid ≠ 0 → q.parentPid ≠ 0) (hpos : p.pid ≠ 0) :
    ∀ i q, u.at? i = some q → q.threadGroupPid ≠ 0 → q.parentPid ≠ 0 := by
  have hbefore : ∀ {i b}, s.procs.ident i = some b → b.group ≠ 0 → b.parentPid ≠ 0 := by
    intro i b hb hg
    obtain ⟨r, hr, rfl⟩ := Uprocs.at?_of_ident hb
    exact h i r hr hg
  suffices hafter : ∀ {i b}, u.ident i = some b → b.group ≠ 0 → b.parentPid ≠ 0 from
    fun i q hq => hafter (Uprocs.ident_of_at? hq)
  intro i b hb hg
  cases hstep with
  | same he => exact hbefore (he ▸ hb) hg
  | @born j b' _ hnew he =>
    rw [he] at hb
    by_cases hij : i = j
    · rw [hij, Function.update_self] at hb
      obtain rfl := Option.some.inj hb
      cases hnew <;> exact hpos
    · rw [Function.update_of_ne hij] at hb
      exact hbefore hb hg
  | @gone j r _ _ he =>
    rw [he] at hb
    by_cases hij : i = j
    · rw [hij, Function.update_self] at hb
      cases hb
    · rw [Function.update_of_ne hij] at hb
      exact hbefore hb hg
  | setFs _ he =>
    rw [he] at hb
    by_cases hij : i = s.procs.current
    · rw [hij, Function.update_self] at hb
      obtain rfl := Option.some.inj hb
      exact h _ p hc hg
    · rw [Function.update_of_ne hij] at hb
      exact hbefore hb hg

/-- No call starts a program or ends one. -/
theorem IdentStep.rootSlots (hstep : IdentStep s p c u.ident) (hc : s.procs.cur = some p) (hpos : p.pid ≠ 0) :
    rootSlots u = rootSlots s.procs := by
  cases hstep with
  | same he => exact Finset.filter_congr fun j _ => by rw [he]
  | @born j b hnone hnew he =>
    refine rootSlots_update he (not_mem_rootSlots hnone) fun b' hb => ?_
    obtain rfl := Option.some.inj hb
    cases hnew <;> exact hpos
  | @gone j r hr hforked he =>
    refine rootSlots_update he (fun hj => ?_) nofun
    obtain ⟨q, hq, hroot⟩ := mem_rootSlots.mp hj
    obtain rfl := Option.some.inj (hq.symm.trans hr)
    exact hforked hroot
  | setFs _ he =>
    refine Finset.filter_congr fun j _ => ?_
    rw [he]
    by_cases hj : j = s.procs.current
    · rw [hj, Function.update_self, Uprocs.ident_of_at? hc]
      rfl
    · rw [Function.update_of_ne hj]

theorem card_rootSlots_lt (hi : i < Uprocs.maxProcs) (h : i ∉ rootSlots u) : (rootSlots u).card < Uprocs.maxProcs := by
  have hsub : rootSlots u ⊂ Finset.range Uprocs.maxProcs :=
    (Finset.ssubset_iff_of_subset (Finset.filter_subset _ _)).mpr ⟨i, Finset.mem_range.mpr hi, h⟩
  have hcard := Finset.card_lt_card hsub
  rwa [Finset.card_range] at hcard

/-- All slots are of programs. -/
theorem card_rootSlots_full (hfull : ∀ i < Uprocs.maxProcs, u.at? i ≠ none)
    (hroot : ∀ i q, u.at? i = some q → q.parentPid = 0) : (rootSlots u).card = Uprocs.maxProcs := by
  have hall : rootSlots u = Finset.range Uprocs.maxProcs := by
    refine Finset.Subset.antisymm (Finset.filter_subset _ _) fun i hi => ?_
    obtain ⟨q, hq⟩ := Option.ne_none_iff_exists'.mp (hfull i (Finset.mem_range.mp hi))
    exact mem_rootSlots.mpr ⟨q, hq, hroot i q hq⟩
  rw [hall, Finset.card_range]

namespace Session

/-- What a run of programs one by one keeps: threads have a parent, each
program has taken a slot while there were any, and only programs are left
when control is in the kernel. -/
structure Recorded (h : List SessionOp) (s : Session) : Prop where
  sound : Sound s
  threads : ∀ i q, s.sys.procs.at? i = some q → q.threadGroupPid ≠ 0 → q.parentPid ≠ 0
  count : (rootSlots s.sys.procs).card = min (programs h) Uprocs.maxProcs
  kernel : s.inUser = false → ∀ i q, s.sys.procs.at? i = some q → q.parentPid = 0

variable {s s' : Session} {a : SessionOp} {h es : List SessionOp}

theorem Recorded.start (hs : Recorded h s) (hkernel : s.inUser = false) (userCr3 kstack : Nat) :
    Recorded (h ++ [.start userCr3 kstack]) (s.start userCr3 kstack) := by
  have hsound : Sound (s.start userCr3 kstack) := sound_step hs.sound (step_start hkernel userCr3 kstack)
  have hprograms : programs (h ++ [.start userCr3 kstack]) = programs h + 1 := by simp [programs]
  have hcount := hs.count
  obtain ⟨-, ⟨hfull, hsame⟩ | ⟨i, hi, hnone, -, hat⟩⟩ := start_cases hs.sound userCr3 kstack
  · refine ⟨hsound, hsame ▸ hs.threads, ?_, nofun⟩
    have hcard := card_rootSlots_full hfull (hs.kernel hkernel)
    rw [hsame, hprograms]
    omega
  · have hold : i ∉ rootSlots s.sys.procs := not_mem_rootSlots hnone
    have hroots : rootSlots (s.start userCr3 kstack).sys.procs = insert i (rootSlots s.sys.procs) := by
      ext j
      rw [Finset.mem_insert, mem_rootSlots, mem_rootSlots, hat]
      by_cases hij : i = j
      · rw [if_pos hij]
        exact iff_of_true ⟨_, rfl, rfl⟩ (.inl hij.symm)
      · rw [if_neg hij]
        exact (or_iff_right (Ne.symm hij)).symm
    refine ⟨hsound, fun j q hq hgroup => ?_, ?_, nofun⟩
    · rw [hat] at hq
      split at hq
      · cases hq
        exact absurd rfl hgroup
      · exact hs.threads j q hq hgroup
    · have hlt := card_rootSlots_lt hi hold
      rw [hroots, Finset.card_insert_of_notMem hold, hprograms]
      omega

theorem Recorded.call (hs : Recorded h s) {c : UserCall} (huser : s.inUser = true) (hok : OneByOne h s (.call c)) :
    Recorded (h ++ [.call c]) { sys := (s.sys.call c).2, inUser := (s.sys.call c).1 != .kernelMain } := by
  obtain ⟨p, hc⟩ := hs.sound.taken huser
  have heff := call_effect hc c
  have hpos : ∀ i q, s.sys.procs.at? i = some q → q.pid ≠ 0 := by
    intro i q hq
    have := hs.sound.kin.older i q hq
    omega
  have hstep := heff.ident hc (hs.threads _ p hc) (hpos _ p hc)
  have hprograms : programs (h ++ [.call c]) = programs h := by simp [programs]
  refine ⟨sound_step hs.sound (step_call huser c), hstep.threads hc hs.threads (hpos _ p hc), ?_, fun hleft => ?_⟩
  · rw [hprograms, ← hs.count, hstep.rootSlots hc (hpos _ p hc)]
  · have hout : (s.sys.call c).1 = .kernelMain := by simpa using hleft
    have hroots := hok hout
    rw [hout] at heff
    cases heff with
    | left hl _ _ hentries =>
      intro i q hq
      obtain ⟨r, hr, hk⟩ := (hl.derived.trans (derived_of_entries hentries)) i q hq
      exact hk.parentPid.trans (hroots i (Uprocs.at?_lt hr) r hr)

variable {kernelMem : ByteMem} {spaces : Nat → ByteMem} {kernelCr3 kernRsp spawned : Nat}

theorem recorded_boot : Recorded [] (.boot kernelMem spaces kernelCr3 kernRsp spawned) := by
  have hnone : ∀ {i q}, (boot kernelMem spaces kernelCr3 kernRsp spawned).sys.procs.at? i = some q → False := fun hq =>
    nomatch List.eq_of_mem_replicate (Uprocs.mem_of_at? hq)
  refine ⟨sound_boot, fun i q hq => (hnone hq).elim, ?_, fun _ i q hq => (hnone hq).elim⟩
  have hempty : rootSlots (boot kernelMem spaces kernelCr3 kernRsp spawned).sys.procs = ∅ := by
    refine Finset.eq_empty_of_forall_notMem fun i hi => ?_
    obtain ⟨q, hq, -⟩ := mem_rootSlots.mp hi
    exact hnone hq
  rw [hempty]
  rfl

theorem recorded_of_runs (hr : Runs step OneByOne (.boot kernelMem spaces kernelCr3 kernRsp spawned) h s) :
    Recorded h s := by
  refine hr.invariant Recorded recorded_boot ?_
  intro h s a es s' hs hok hstep
  cases a with
  | start userCr3 kstack =>
    simp only [step] at hstep
    split at hstep
    · cases hstep
    · next hkernel =>
      cases hstep
      exact hs.start (by simpa using hkernel) userCr3 kstack
  | call c =>
    simp only [step] at hstep
    split at hstep
    · next huser =>
      cases hstep
      exact hs.call huser hok
    · cases hstep

end Session

/-- Programs one by one: the next is registered exactly when fewer than 16 were started before it. -/
theorem program_registered_iff_few {kernelMem : ByteMem} {spaces : Nat → ByteMem} {kernelCr3 kernRsp spawned : Nat}
    {h : List SessionOp} {s : Session}
    (hr : Runs Session.step OneByOne (.boot kernelMem spaces kernelCr3 kernRsp spawned) h s) (hkernel : s.inUser = false)
    (userCr3 kstack : Nat) :
    ((s.start userCr3 kstack).sys.procs.currentPid = s.sys.nextPid ∧
        (s.start userCr3 kstack).sys.procs.currentCr3 = userCr3) ↔ programs h < Uprocs.maxProcs := by
  have hs := Session.recorded_of_runs hr
  have hcount := hs.count
  obtain ⟨-, ⟨hfull, hsame⟩ | ⟨i, hi, hnone, hcur, hat⟩⟩ := Session.start_cases hs.sound userCr3 kstack
  · have hcard := card_rootSlots_full hfull (hs.kernel hkernel)
    refine iff_of_false (fun hreg => ?_) (by omega)
    obtain ⟨p, hp⟩ := Option.ne_none_iff_exists'.mp (hfull _ hs.sound.seated.lt)
    have hpid : s.sys.procs.currentPid = p.pid := by
      rw [Uprocs.currentPid, Uprocs.cur, hp]
      rfl
    have := hs.sound.kin.fresh _ p hp
    rw [hsame, hpid] at hreg
    omega
  · have hold : i ∉ rootSlots s.sys.procs := not_mem_rootSlots hnone
    have hlt := card_rootSlots_lt hi hold
    have hc : (s.start userCr3 kstack).sys.procs.cur = some (.new s.sys.nextPid 0 userCr3 kstack) := by
      rw [Uprocs.cur, hat, hcur, if_pos rfl]
    refine iff_of_true ⟨?_, ?_⟩ (by omega)
    · rw [Uprocs.currentPid, hc]
      rfl
    · rw [Uprocs.currentCr3, hc]
      rfl

/-- A program forks, waits for its child and exits, and the next one is registered. -/
theorem second_program_registered : ∃ (h : List SessionOp) (s : Session),
    Runs Session.step OneByOne (.boot (fun _ => 0) (fun _ _ => 0) 0 0 1) h s ∧ s.inUser = false ∧ programs h = 1 ∧
    (s.start 7 userEnd).sys.procs.currentPid = s.sys.nextPid ∧ (s.start 7 userEnd).sys.procs.currentCr3 = 7 := by
  obtain ⟨h, s, hr, hP⟩ := Runs.of_exec Session.step OneByOne (.boot (fun _ => 0) (fun _ _ => 0) 0 0 1)
    [.start 5 userEnd, .call (.fork userEnd 6 (userEnd + 0x20000)), .call (.wait4 3 0 0 userEnd), .call (.exit 0),
      .call (.exit 0)]
    (fun h s => !s.inUser && programs h == 1) (by decide +kernel)
  simp only [Bool.and_eq_true, Bool.not_eq_true', beq_iff_eq] at hP
  exact ⟨h, s, hr, hP.1, hP.2, (program_registered_iff_few hr hP.1 7 userEnd).mpr (by rw [hP.2]; decide)⟩

/-- Sixteen programs start and exit, and the next one runs under the name of the last. -/
theorem seventeenth_program_unregistered : ∃ (h : List SessionOp) (s : Session),
    Runs Session.step OneByOne (.boot (fun _ => 0) (fun _ _ => 0) 0 0 1) h s ∧ s.inUser = false ∧ programs h = 16 ∧
    (s.start 7 userEnd).sys.procs.currentPid ≠ s.sys.nextPid ∧ (s.start 7 userEnd).sys.procs.currentCr3 ≠ 7 := by
  obtain ⟨h, s, hr, hP⟩ := Runs.of_exec Session.step OneByOne (.boot (fun _ => 0) (fun _ _ => 0) 0 0 1)
    (List.replicate 16 [.start 5 userEnd, .call (.exit 0)]).flatten
    (fun h s => !s.inUser && programs h == 16 && (s.start 7 userEnd).sys.procs.currentPid != s.sys.nextPid &&
      (s.start 7 userEnd).sys.procs.currentCr3 != 7) (by decide)
  simp only [Bool.and_eq_true, Bool.not_eq_true', beq_iff_eq, bne_iff_ne] at hP
  obtain ⟨⟨⟨hkernel, hprograms⟩, hpid⟩, hcr3⟩ := hP
  exact ⟨h, s, hr, hkernel, hprograms, hpid, hcr3⟩

end ChodOs
