/-
The TLS base (`sys_arch_prctl`, `iretq_to_frame`). The register is global
and each slot keeps a copy, which a switch loads unless it is 0; the child
of a `fork` gets 0 there, whatever its parent had.

`ownTls` is what a process should see: the value that it was given last, or
that of its creator at its creation.
-/
import ChodOs.User.Context

namespace ChodOs

open StepSys UserSys

/-- What a process should see, one event later. -/
def TlsEvent.apply (own : Nat → Nat) : TlsEvent → Nat → Nat
  | .given pid v => Function.update own pid v
  | .inherits child parent => Function.update own child (own parent)

/-- What a process should see after a run whose first process has `first`. -/
def ownTls (first : Nat) (h : List TlsEvent) : Nat → Nat := h.foldl TlsEvent.apply fun _ => first

/-- One process, that has just been registered. -/
structure Started (s : UserSys) : Prop where
  alone : Alone s.procs
  cur : ∀ p, s.procs.cur = some p → 0 < p.pid ∧ p.pid < s.nextPid ∧ p.threadGroupPid = 0 ∧ p.fsBase = 0

/-- Who goes on has a TLS base in its slot, or the same as the process that stops. -/
def KeepsTls (first : Nat) (h : List TlsEvent) (s : UserSys) (c : UserCall) : Prop :=
  ∀ p t i q, s.procs.cur = some p → Hands s p c t i → t.at? i = some q →
    q.fsBase ≠ 0 ∨ ownTls first h q.pid = ownTls first h p.pid

/-- The process that runs has its TLS base in the register. -/
def TlsLoaded (first : Nat) (h : List TlsEvent) (s : UserSys) : Prop :=
  ∀ p, s.procs.cur = some p → s.fsBase = ownTls first h p.pid

variable {s s' : UserSys} {p q : UserProc} {c : UserCall} {o : Outcome} {t t' : Uprocs} {i j : Nat}

/-! ## Who goes on is determined -/

theorem Hands.unique (hh : Hands s p c t i) (hh' : Hands s p c t' j) : t' = t ∧ j = i := by
  cases hh with
  | wait4 hfind hchild _ _ =>
    cases hh' with
    | wait4 hfind' hchild' _ _ =>
      obtain rfl := Option.some.inj (hfind.symm.trans hfind')
      obtain rfl := Option.some.inj (hchild.symm.trans hchild')
      exact ⟨rfl, rfl⟩
    | exitThread he => cases he
    | exitProcess he => cases he
  | exitThread he hthread hfind =>
    cases hh' with
    | exitThread _ _ hfind' => exact ⟨rfl, Option.some.inj (hfind'.symm.trans hfind)⟩
    | exitProcess _ hprocess => exact absurd hprocess hthread
    | exec hforked => rw [UserCall.exits, if_neg hforked] at he; cases he
    | _ => cases he
  | exitProcess he hprocess _ hfind _ _ _ =>
    cases hh' with
    | exitThread _ hthread _ => exact absurd hprocess hthread
    | exitProcess he' _ _ hfind' _ _ _ =>
      obtain rfl := Option.some.inj (he.symm.trans he')
      exact ⟨rfl, Option.some.inj (hfind'.symm.trans hfind)⟩
    | exec hforked => rw [UserCall.exits, if_neg hforked] at he; cases he
    | _ => cases he
  | exec hforked =>
    cases hh' with
    | exec => exact ⟨rfl, rfl⟩
    | exitThread he => rw [UserCall.exits, if_neg hforked] at he; cases he
    | exitProcess he => rw [UserCall.exits, if_neg hforked] at he; cases he
  | yield hfind =>
    cases hh' with
    | yield hfind' => exact ⟨rfl, Option.some.inj (hfind'.symm.trans hfind)⟩
    | exitThread he => cases he
    | exitProcess he => cases he
  | futex _ _ _ hfind =>
    cases hh' with
    | futex _ _ _ hfind' => exact ⟨rfl, Option.some.inj (hfind'.symm.trans hfind)⟩
    | exitThread he => cases he
    | exitProcess he => cases he

/-- A call that hands over does so. -/
theorem CallEffect.of_hands (he : CallEffect s p c o s') (hh : Hands s p c t i) :
    ∃ q, o = .resume q.savedFrameRsp ∧ Switched s t i q s' := by
  have hexit : ∀ {code}, c.exits p = some code → c.exits p ≠ none := fun h hn => absurd (hn.symm.trans h) nofun
  cases he with
  | quiet _ hstays => exact absurd hh (hstays t i)
  | handed hh' hsw =>
    obtain ⟨rfl, rfl⟩ := hh'.unique hh
    exact ⟨_, rfl, hsw⟩
  | left hl =>
    cases hl with
    | thread _ hthread hnone =>
      cases hh with
      | exitThread _ _ hfind => exact absurd (hnone.symm.trans hfind) nofun
      | exitProcess _ hprocess => exact absurd hprocess hthread
      | exec hforked => exact absurd (if_neg hforked) (hexit ‹_›)
      | _ => exact absurd rfl (hexit ‹_›)
    | program _ hprocess hroot =>
      cases hh with
      | exitThread _ hthread => exact absurd hprocess hthread
      | exitProcess _ _ hforked => exact absurd hroot hforked
      | exec hforked => exact absurd hroot hforked
      | _ => exact absurd rfl (hexit ‹_›)
    | process he hprocess _ hunwaited =>
      cases hh with
      | exitThread _ hthread => exact absurd hprocess hthread
      | exitProcess he' _ _ hfind hparent hwaits hwhich =>
        obtain rfl := Option.some.inj (he.symm.trans he')
        obtain ⟨h₁, h₂⟩ := hunwaited _ _ _ hfind hparent hwaits
        rcases hwhich with hw | hw
        · exact absurd hw h₁
        · exact absurd hw h₂
      | exec hforked => exact absurd (if_neg hforked) (hexit ‹_›)
      | _ => exact absurd rfl (hexit ‹_›)
  | reaped hfind hchild hdead =>
    cases hh with
    | wait4 hfind' hchild' halive _ =>
      obtain rfl := Option.some.inj (hfind.symm.trans hfind')
      obtain rfl := Option.some.inj (hchild.symm.trans hchild')
      exact absurd hdead (halive _)
    | exitThread h => cases h
    | exitProcess h => cases h
  | woke hwake =>
    cases hh with
    | futex hwait => exact absurd (hwait.symm.trans hwake) (by decide)
    | exitThread h => cases h
    | exitProcess h => cases h
  | alone hnone =>
    cases hh with
    | futex _ _ _ hfind => exact absurd (hnone.symm.trans hfind) nofun
    | exitThread h => cases h
    | exitProcess h => cases h
  | _ =>
    cases hh with
    | exitThread h => cases h
    | exitProcess h => cases h

/-! ## What runs keep -/

/-- Of the table: pids below `next`, each of one process, and in every slot
the TLS base of its process or 0. -/
structure TlsSound (own : Nat → Nat) (u : Uprocs) (next : Nat) : Prop where
  pids : ∀ i b, u.ident i = some b → 0 < b.pid ∧ b.pid < next
  distinct : ∀ i j b b', u.ident i = some b → u.ident j = some b' → b.pid = b'.pid → i = j
  threads : ∀ i b, u.ident i = some b → b.group ≠ 0 → b.parentPid ≠ 0
  saved : ∀ i b, u.ident i = some b → b.fsBase = 0 ∨ b.fsBase = own b.pid

variable {own own' : Nat → Nat} {u u' : Uprocs} {next next' first : Nat} {h es : List TlsEvent}

theorem TlsSound.mono (hs : TlsSound own u next) (hsub : ∀ i b, u'.ident i = some b → u.ident i = some b)
    (hown : ∀ pid < next, own' pid = own pid) (hle : next ≤ next') : TlsSound own' u' next' := by
  refine ⟨fun i b hb => ?_, fun i j b b' hb hb' => hs.distinct i j b b' (hsub i b hb) (hsub j b' hb'),
    fun i b hb => hs.threads i b (hsub i b hb), fun i b hb => ?_⟩
  · have := hs.pids i b (hsub i b hb)
    omega
  · rw [hown _ (hs.pids i b (hsub i b hb)).2]
    exact hs.saved i b (hsub i b hb)

/-- A process with the next pid. -/
theorem TlsSound.add (hs : TlsSound own u next) {b : Ident} (hid : u'.ident = Function.update u.ident i (some b))
    (hpid : b.pid = next) (hpos : 0 < next) (hparent : b.parentPid ≠ 0) (hsaved : b.fsBase = 0 ∨ b.fsBase = own' b.pid)
    (hown : ∀ pid < next, own' pid = own pid) : TlsSound own' u' (next + 1) := by
  have hcases : ∀ {j b'}, u'.ident j = some b' → j = i ∧ b' = b ∨ u.ident j = some b' := by
    intro j b' hb
    rw [hid] at hb
    by_cases hj : j = i
    · rw [hj, Function.update_self] at hb
      exact .inl ⟨hj, (Option.some.inj hb).symm⟩
    · rw [Function.update_of_ne hj] at hb
      exact .inr hb
  refine ⟨fun j b' hb => ?_, fun j k b₁ b₂ hb₁ hb₂ he => ?_, fun j b' hb hgroup => ?_, fun j b' hb => ?_⟩
  · rcases hcases hb with ⟨-, rfl⟩ | hb
    · omega
    · have := hs.pids j b' hb
      omega
  · rcases hcases hb₁ with ⟨rfl, rfl⟩ | hb₁ <;> rcases hcases hb₂ with ⟨rfl, rfl⟩ | hb₂
    · rfl
    · have := hs.pids k b₂ hb₂
      omega
    · have := hs.pids j b₁ hb₁
      omega
    · exact hs.distinct j k b₁ b₂ hb₁ hb₂ he
  · rcases hcases hb with ⟨-, rfl⟩ | hb
    · exact hparent
    · exact hs.threads j b' hb hgroup
  · rcases hcases hb with ⟨-, rfl⟩ | hb
    · exact hsaved
    · rw [hown _ (hs.pids j b' hb).2]
      exact hs.saved j b' hb

/-- The current process sets its TLS base. -/
theorem TlsSound.setFs (hs : TlsSound own u next) (hc : u.cur = some p) {addr : Nat}
    (hid : u'.ident = Function.update u.ident u.current (some { p.ident with fsBase := addr })) :
    TlsSound (Function.update own p.pid addr) u' next := by
  have hp : u.ident u.current = some p.ident := Uprocs.ident_of_at? hc
  have hcases : ∀ {j b}, u'.ident j = some b → j = u.current ∧ b = { p.ident with fsBase := addr } ∨
      j ≠ u.current ∧ u.ident j = some b := by
    intro j b hb
    rw [hid] at hb
    by_cases hj : j = u.current
    · rw [hj, Function.update_self] at hb
      exact .inl ⟨hj, (Option.some.inj hb).symm⟩
    · rw [Function.update_of_ne hj] at hb
      exact .inr ⟨hj, hb⟩
  -- but for the copy, every entry was in its slot before
  have hbefore : ∀ {j b}, u'.ident j = some b →
      ∃ b₀, u.ident j = some b₀ ∧ b.pid = b₀.pid ∧ b.group = b₀.group ∧ b.parentPid = b₀.parentPid := by
    intro j b hb
    rcases hcases hb with ⟨rfl, rfl⟩ | ⟨-, hb⟩
    · exact ⟨p.ident, hp, rfl, rfl, rfl⟩
    · exact ⟨b, hb, rfl, rfl, rfl⟩
  refine ⟨fun j b hb => ?_, fun j k b b' hb hb' he => ?_, fun j b hb hgroup => ?_, fun j b hb => ?_⟩
  · obtain ⟨b₀, hb₀, hpid, -⟩ := hbefore hb
    exact hpid ▸ hs.pids j b₀ hb₀
  · obtain ⟨b₀, hb₀, hpid, -⟩ := hbefore hb
    obtain ⟨b₀', hb₀', hpid', -⟩ := hbefore hb'
    exact hs.distinct j k b₀ b₀' hb₀ hb₀' (hpid ▸ hpid' ▸ he)
  · obtain ⟨b₀, hb₀, -, hg, hparent⟩ := hbefore hb
    exact hparent ▸ hs.threads j b₀ hb₀ (hg ▸ hgroup)
  · rcases hcases hb with ⟨-, rfl⟩ | ⟨hj, hb⟩
    · have hself : Function.update own p.pid addr p.pid = addr := Function.update_self ..
      exact .inr hself.symm
    · have hne : b.pid ≠ p.pid := fun he => hj (hs.distinct j u.current b p.ident hb hp he)
      rw [Function.update_of_ne hne]
      exact hs.saved j b hb

theorem ownTls_append : ownTls first (h ++ es) = es.foldl TlsEvent.apply (ownTls first h) := List.foldl_append

/-- Only new processes and the caller of `arch_prctl` are given something. -/
theorem ownTls_of_lt (hc : ∀ addr, c ≠ .setFs addr) {pid : Nat} (hpid : pid < s.nextPid) :
    ownTls first (h ++ s.tlsEvents p c) pid = ownTls first h pid := by
  rw [ownTls_append]
  have hne : pid ≠ s.nextPid := by omega
  cases c with
  | setFs addr => exact absurd rfl (hc addr)
  | fork => exact Function.update_of_ne hne ..
  | clone =>
    simp only [tlsEvents]
    split <;> exact Function.update_of_ne hne ..
  | _ => rfl

theorem CallEffect.nextPid (he : CallEffect s p c o s') :
    s.nextPid ≤ s'.nextPid ∧ ∀ b, Born s p c b → s'.nextPid = s.nextPid + 1 := by
  have hexit : ∀ {code b}, c.exits p = some code → ¬Born s p c b := by
    intro code b hcode hb
    cases hb <;> cases hcode
  cases he with
  | fork _ hnext => exact ⟨by omega, fun _ _ => hnext⟩
  | clone _ hnext => exact ⟨by omega, fun _ _ => hnext⟩
  | quiet hquiet _ hstill =>
    refine ⟨hstill.nextPid.ge, fun b hb => ?_⟩
    cases hb <;> cases hquiet
  | setFs _ hnext => exact ⟨hnext.ge, nofun⟩
  | handed hh hsw =>
    refine ⟨hsw.nextPid.ge, fun b hb => ?_⟩
    cases hh with
    | exitThread hcode => exact absurd hb (hexit hcode)
    | exitProcess hcode => exact absurd hb (hexit hcode)
    | _ => cases hb
  | left hl hstill =>
    refine ⟨hstill.nextPid.ge, fun b hb => ?_⟩
    cases hl <;> exact absurd hb (hexit ‹_›)
  | setTid hstill => exact ⟨hstill.nextPid.ge, nofun⟩
  | reaped _ _ _ hstill => exact ⟨hstill.nextPid.ge, nofun⟩
  | woke _ hstill => exact ⟨hstill.nextPid.ge, nofun⟩
  | alone _ hstill => exact ⟨hstill.nextPid.ge, nofun⟩

/-- The table after a call. -/
theorem TlsSound.step (hs : TlsSound (ownTls first h) s.procs s.nextPid) (hc : s.procs.cur = some p)
    (he : CallEffect s p c o s') : TlsSound (ownTls first (h ++ s.tlsEvents p c)) s'.procs s'.nextPid := by
  have hp : s.procs.ident s.procs.current = some p.ident := Uprocs.ident_of_at? hc
  obtain ⟨hpos, hlt⟩ := hs.pids _ _ hp
  obtain ⟨hle, hnext⟩ := he.nextPid
  have hstep := he.ident hc (hs.threads _ _ hp) (Nat.ne_of_gt hpos)
  by_cases hset : ∃ addr, c = .setFs addr
  · obtain ⟨addr, rfl⟩ := hset
    have hown : ownTls first (h ++ s.tlsEvents p (.setFs addr)) = Function.update (ownTls first h) p.pid addr := ownTls_append
    rw [hown]
    cases he with
    | quiet hquiet => cases hquiet
    | handed hh => cases hh <;> cases ‹UserCall.exits _ _ = some _›
    | left hl => cases hl <;> cases ‹UserCall.exits _ _ = some _›
    | setFs _ hsame hprocs =>
      rw [hsame]
      exact hs.setFs hc (by rw [hprocs, Uprocs.ident_setFs hc])
  · have hother : ∀ addr, c ≠ .setFs addr := fun addr he => hset ⟨addr, he⟩
    have hown : ∀ pid < s.nextPid, ownTls first (h ++ s.tlsEvents p c) pid = ownTls first h pid := fun _ hpid =>
      ownTls_of_lt hother hpid
    cases hstep with
    | same hid => exact hs.mono (fun i b hb => hid ▸ hb) hown hle
    | @gone j r _ _ hid =>
      refine hs.mono (fun i b hb => ?_) hown hle
      rw [hid] at hb
      by_cases hij : i = j
      · rw [hij, Function.update_self] at hb
        cases hb
      · rwa [Function.update_of_ne hij] at hb
    | setFs hcall => exact absurd hcall (hother _)
    | born _ hnew hid =>
      rw [hnext _ hnew]
      have hsaved : p.fsBase = 0 ∨ p.fsBase = ownTls first h p.pid := hs.saved _ _ hp
      cases hnew with
      | fork => exact hs.add hid rfl (by omega) (Nat.ne_of_gt hpos) (.inl rfl) hown
      | @clone flags _ _ _ newtls =>
        refine hs.add hid rfl (by omega) (Nat.ne_of_gt hpos) ?_ hown
        rw [ownTls_append]
        simp only [tlsEvents]
        split
        · have hgiven : Function.update (ownTls first h) s.nextPid newtls s.nextPid = newtls := Function.update_self ..
          exact .inr hgiven.symm
        · have hinherits : Function.update (ownTls first h) s.nextPid (ownTls first h p.pid) s.nextPid =
            ownTls first h p.pid := Function.update_self ..
          exact hsaved.imp_right fun hsame => hsame.trans hinherits.symm

/-- A call that returns goes back to the caller. -/
theorem CallEffect.returns {v : Nat} (he : CallEffect s p c (.ret v) s') (hc : s.procs.cur = some p) (hone : OneRunning s.procs)
    (hother : ∀ addr, c ≠ .setFs addr) : s'.fsBase = s.fsBase ∧ ∃ p', s'.procs.cur = some p' ∧ p'.pid = p.pid := by
  obtain ⟨p₀, hp₀, hruns⟩ := hone.cur
  obtain rfl := Option.some.inj (hp₀.symm.trans hc)
  cases he with
  | quiet _ _ hstill hprocs => exact ⟨hstill.fsBase, _, hprocs ▸ hc, rfl⟩
  | fork hfs _ hprocs => exact ⟨hfs, _, hprocs ▸ Uprocs.at?_insert_of_some hc, rfl⟩
  | clone hfs _ hprocs => exact ⟨hfs, _, hprocs ▸ Uprocs.at?_insert_of_some hc, rfl⟩
  | @setTid tidptr _ _ hstill hprocs =>
    exact ⟨hstill.fsBase, { p₀ with childTidPtr := tidptr }, by rw [hprocs, Uprocs.cur_update, hc]; rfl, rfl⟩
  | setFs => exact absurd rfl (hother _)
  | @reaped _ _ _ _ i r _ _ _ _ hr hdead hstill hprocs =>
    have hne : i ≠ s.procs.current := by
      intro h
      obtain rfl := h
      obtain rfl := Option.some.inj (hr.symm.trans hc)
      rw [hruns] at hdead
      cases hdead
    refine ⟨hstill.fsBase, p₀, ?_, rfl⟩
    rw [hprocs, Uprocs.cur, Uprocs.at?_clear, Uprocs.current_clear, if_neg hne]
    exact hc
  | @woke uaddr _ val _ _ _ _ hstill hprocs =>
    refine ⟨hstill.fsBase, p₀, ?_, rfl⟩
    rw [hprocs, Uprocs.cur, Uprocs.current_futexWake]
    rcases Uprocs.at?_futexWake s.procs s.procs.current uaddr val with
      hat | ⟨r, hr, hb, -⟩
    · exact hat.trans hc
    · obtain rfl := Option.some.inj (hr.symm.trans hc)
      rw [hruns] at hb
      cases hb
  | @alone _ _ _ fr _ _ _ hstill hprocs =>
    exact ⟨hstill.fsBase, p₀.laid fr .running, by rw [hprocs, Uprocs.cur_update, hc]; rfl, rfl⟩

/-- In the table that the caller leaves nobody is new. -/
theorem Hands.was (hh : Hands s p c t i) (hs : TlsSound own s.procs next) (hc : s.procs.cur = some p)
    (hq : t.at? i = some q) : s.procs.ident i = some q.ident := by
  have hid : t.ident i = some q.ident := Uprocs.ident_of_at? hq
  rcases hh.ident (hs.threads _ _ (Uprocs.ident_of_at? hc)) with he | ⟨-, he⟩
  · exact he ▸ hid
  · rw [he] at hid
    by_cases hij : i = s.procs.current
    · rw [hij, Function.update_self] at hid
      cases hid
    · rwa [Function.update_of_ne hij] at hid

theorem Hands.ne_setFs (hh : Hands s p c t i) (addr : Nat) : c ≠ .setFs addr := by
  intro h
  obtain rfl := h
  cases hh with
  | exitThread he => cases he
  | exitProcess he => cases he

/-- A call leaves the right base in the register exactly when it is no switch
from a process with another base to one with none in its slot. -/
theorem tlsLoaded_iff (hs : TlsSound (ownTls first h) s.procs s.nextPid) (hone : OneRunning s.procs)
    (hload : TlsLoaded first h s) (hstep : s.userStep c = some (es, s')) :
    TlsLoaded first (h ++ es) s' ↔ KeepsTls first h s c := by
  obtain ⟨p, o, hc, hcall, ho, rfl⟩ := userStep_spec hstep
  have he := call_effect hc c
  rw [hcall] at he
  have hp : p.pid < s.nextPid := (hs.pids _ _ (Uprocs.ident_of_at? hc)).2
  cases o with
  | kernelMain => exact absurd rfl ho
  | ret v =>
    refine iff_of_true (fun q hq => ?_) fun p' t i q hc' hh => ?_
    · by_cases hset : ∃ addr, c = .setFs addr
      · obtain ⟨addr, rfl⟩ := hset
        cases hcall
        have hcur : (s.procs.update fun p => { p with fsBase := addr }).cur = some { p with fsBase := addr } := by
          rw [Uprocs.cur_update, hc]
          rfl
        obtain rfl := Option.some.inj (hcur.symm.trans hq)
        have hown : ownTls first (h ++ s.tlsEvents p (.setFs addr)) p.pid = addr := by
          rw [ownTls_append]
          exact Function.update_self ..
        exact hown.symm
      · have hother : ∀ addr, c ≠ .setFs addr := fun addr he => hset ⟨addr, he⟩
        obtain ⟨hfs, p', hp', hpid⟩ := he.returns hc hone hother
        obtain rfl := Option.some.inj (hp'.symm.trans hq)
        rw [hfs, hpid, ownTls_of_lt hother hp]
        exact hload p hc
    · obtain rfl := Option.some.inj (hc'.symm.trans hc)
      obtain ⟨_, hout, -⟩ := he.of_hands hh
      cases hout
  | resume fr =>
    cases he with
    | @handed _ t i q _ hh hsw =>
      have hwas := hh.was hs hc hsw.slot
      have hq : q.pid < s.nextPid := (hs.pids _ _ hwas).2
      have hcur : s'.procs.cur = some { q with state := .running } := by
        rw [Uprocs.cur, hsw.at?, hsw.current, if_pos rfl]
      have hleft : TlsLoaded first (h ++ s.tlsEvents p c) s' ↔ s'.fsBase = ownTls first h q.pid := by
        rw [← ownTls_of_lt hh.ne_setFs hq]
        refine ⟨fun hl => hl { q with state := .running } hcur, fun hl q' hq' => ?_⟩
        obtain rfl := Option.some.inj (hcur.symm.trans hq')
        exact hl
      have hright : KeepsTls first h s c ↔ q.fsBase ≠ 0 ∨ ownTls first h q.pid = ownTls first h p.pid := by
        refine ⟨fun hk => hk p t i q hc hh hsw.slot, fun hk p' t' i' q' hc' hh' hq' => ?_⟩
        obtain rfl := Option.some.inj (hc'.symm.trans hc)
        obtain ⟨rfl, rfl⟩ := hh.unique hh'
        obtain rfl := Option.some.inj (hq'.symm.trans hsw.slot)
        exact hk
      rw [hleft, hright, hsw.fsBase, hload p hc]
      by_cases hzero : q.fsBase = 0
      · rw [if_neg (not_not.mpr hzero)]
        exact ⟨fun he => .inr he.symm, fun he => (he.resolve_left (not_not.mpr hzero)).symm⟩
      · rw [if_pos hzero]
        exact iff_of_true ((hs.saved _ _ hwas).resolve_left hzero) (.inl hzero)

/-- In a run whose switches keep the TLS base, the process that runs has its
own in the register, and the next call keeps it so if and only if it does. -/
theorem tls_follows_iff {s₀ s : UserSys} {h : List TlsEvent} (hstart : Started s₀)
    (hr : Runs userStep (KeepsTls s₀.fsBase) s₀ h s) :
    TlsLoaded s₀.fsBase h s ∧ ∀ c es s', s.userStep c = some (es, s') →
      (TlsLoaded s₀.fsBase (h ++ es) s' ↔ KeepsTls s₀.fsBase h s c) := by
  have hinv : TlsSound (ownTls s₀.fsBase h) s.procs s.nextPid ∧ OneRunning s.procs ∧ TlsLoaded s₀.fsBase h s := by
    refine hr.invariant (fun h s => TlsSound (ownTls s₀.fsBase h) s.procs s.nextPid ∧ OneRunning s.procs ∧
      TlsLoaded s₀.fsBase h s) ⟨?_, ⟨hstart.alone.cur, fun i q hq _ => hstart.alone.only i q hq⟩, fun _ _ => rfl⟩ ?_
    · have honly : ∀ {i b}, s₀.procs.ident i = some b → i = s₀.procs.current ∧ 0 < b.pid ∧ b.pid < s₀.nextPid ∧
          b.group = 0 ∧ b.fsBase = 0 := by
        intro i b hb
        obtain ⟨q, hq, rfl⟩ := Uprocs.at?_of_ident hb
        obtain rfl := hstart.alone.only i q hq
        exact ⟨rfl, hstart.cur q hq⟩
      exact ⟨fun i b hb => ⟨(honly hb).2.1, (honly hb).2.2.1⟩, fun i j b b' hb hb' _ => (honly hb).1.trans (honly hb').1.symm,
        fun i b hb hgroup => absurd (honly hb).2.2.2.1 hgroup, fun i b hb => .inl (honly hb).2.2.2.2⟩
    · intro h s c es s' ⟨hs, hone, hload⟩ hok hstep
      have hload' := (tlsLoaded_iff hs hone hload hstep).mpr hok
      obtain ⟨p, o, hc, hcall, ho, rfl⟩ := userStep_spec hstep
      have he := call_effect hc c
      rw [hcall] at he
      exact ⟨hs.step hc he, he.oneRunning hone ho, hload'⟩
  exact ⟨hinv.2.2, fun c es s' hstep => tlsLoaded_iff hinv.1 hinv.2.1 hinv.2.2 hstep⟩

/-- The first program, as `enter_elf` starts it. -/
theorem started_first {kernelMem : ByteMem} {spaces : Nat → ByteMem} {kernelCr3 kernRsp nextPid pid userCr3 kstack : Nat}
    (hpos : 0 < pid) (hlt : pid < nextPid) :
    Started ((UserSys.boot kernelMem spaces kernelCr3 kernRsp nextPid).register pid 0 userCr3 kstack) := by
  obtain ⟨p, hc, hp, halone⟩ : ∃ p, ((UserSys.boot kernelMem spaces kernelCr3 kernRsp nextPid).register pid 0 userCr3
      kstack).procs.cur = some p ∧ p = .new pid 0 userCr3 kstack ∧ Alone _ := alone_first
  refine ⟨halone, fun q hq => ?_⟩
  obtain rfl := Option.some.inj (hc.symm.trans hq)
  subst hp
  exact ⟨hpos, hlt, rfl, rfl⟩

/-- A program sets its TLS base. -/
theorem tls_follows_first : ∃ (s₀ s : UserSys) (h : List TlsEvent), Started s₀ ∧
    Runs userStep (KeepsTls s₀.fsBase) s₀ h s ∧ s.fsBase = 0x7000 ∧ TlsLoaded s₀.fsBase h s := by
  let s₀ := (UserSys.boot (fun _ => 0) (fun _ _ => 0) 0 0 3).register 2 0 5 userEnd
  have hstart : Started s₀ := started_first (by decide) (by decide)
  have hr : Runs userStep (KeepsTls s₀.fsBase) s₀ ([] ++ [.given 2 0x7000]) (s₀.archSetFs 0x7000) :=
    Runs.start.next (fun _ _ _ _ _ hh => absurd rfl (hh.ne_setFs 0x7000)) rfl
  exact ⟨s₀, _, _, hstart, hr, rfl, (tls_follows_iff hstart hr).1⟩

/-- A program with a TLS base forks twice; the second child goes on with what the first one has set. -/
theorem tls_of_sibling : ∃ (s₀ s : UserSys) (h : List TlsEvent), Started s₀ ∧ Runs userStep free s₀ h s ∧
    ¬TlsLoaded s₀.fsBase h s := by
  let s₀ := (UserSys.boot (fun _ => 0) (fun _ _ => 0) 0 0 3).register 2 0 5 userEnd
  have hstart : Started s₀ := started_first (by decide) (by decide)
  obtain ⟨h, s, hr, hP⟩ := Runs.of_exec userStep free s₀
    [.setFs 0x7000, .fork userEnd 6 (userEnd + 0x20000), .fork userEnd 7 (userEnd + 0x40000), .yield userEnd,
      .setFs 0x9000, .yield (userEnd + 0x20000)]
    (fun h s => s.procs.cur.any fun p => s.fsBase != ownTls 0 h p.pid) (by decide)
  obtain ⟨q, hq, hne⟩ := (Option.any_eq_true _ _).mp hP
  exact ⟨s₀, s, h, hstart, hr, fun hload => bne_iff_ne.mp hne (hload q hq)⟩

end ChodOs
