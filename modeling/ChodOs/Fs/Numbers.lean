/-
When the numbers of descriptors stay apart: each allocator counts its own
way, so a number is safe only while no other allocator's descriptor has it.
-/
import ChodOs.Fs.Fds

namespace ChodOs

open History StepSys

/-! ### When a number is free -/

/-- The numbers that `read`, `write` and `close` keep for the terminal and the null stub. -/
def Reserved (n : Nat) : Prop := n ≤ 2 ∨ n = fdDevNull

instance {n : Nat} : Decidable (Reserved n) := inferInstanceAs (Decidable (_ ∨ _))

/-- `n` is an end of the pipe that the buffer stands for. -/
def FdSys.AtPipe (s : FdSys) (n : Nat) : Prop := s.isReadFd n = true ∨ s.isWriteFd n = true

/-- No open descriptor has the number. -/
def Vacant (h : List FdEvent) (n : Nat) : Prop := ∀ o, ¬ OpenFd h n o

/-- The path is one that `open` registers something for: the file system has
it, or it names a device other than the stub's. -/
def opensEntry (vfs : VfsView) (path : Option Path) (flags : Nat) : Bool :=
  match path with
  | none => false
  | some path =>
    if isDev path then
      isDevDir path || path != "/dev/null".toList && path != "/dev/zero".toList && (kindOf path).isSome
    else if flags &&& 0o200000 != 0 || path == ['/'] || path.getLast? == some '/' then vfs.existsAny path
    else if isProc path then (vfs.procRead path).isSome || vfs.procExists path
    else if flags &&& 0x03 != 0 || flags &&& 0x40 != 0 then (vfs.openWritable path (flags &&& 0x40 != 0)).isSome
    else (vfs.openReadonly path).isSome || vfs.isDir path

/-- The number that the call's allocator stands at belongs to no open
descriptor, to no reserved one and to no end of the pipe in place; and
`/dev/zero` is not opened. -/
def FdSys.Clear (h : List FdEvent) (s : FdSys) : FdCall → Prop
  | .open vfs path flags => path ≠ some "/dev/zero".toList ∧
      (opensEntry vfs path flags = true →
        Vacant h s.table.nextId ∧ ¬ Reserved s.table.nextId ∧ ¬ s.AtPipe s.table.nextId)
  | .pipe fdsVaddr => fdsVaddr ≠ 0 →
      (Vacant h s.nextPipeFd ∧ ¬ Reserved s.nextPipeFd) ∧
        Vacant h ((s.nextPipeFd + 1) % 2 ^ 32) ∧ ¬ Reserved ((s.nextPipeFd + 1) % 2 ^ 32) ∧
        (s.nextPipeFd + 1) % 2 ^ 32 ≠ minusOne
  | .socket domain sockType => sockError domain sockType = none → s.sockNextFd < 2 ^ 31 →
      Vacant h s.sockNextFd ∧ ¬ Reserved s.sockNextFd ∧ ¬ s.AtPipe s.sockNextFd
  | .epollCreate => Vacant h 9 ∧ ¬ s.AtPipe 9
  | .close _ => True

section
variable {h : List FdEvent} {s s' : FdSys} {n m : Nat} {o o' : Object} {use : FdUse}

theorem openFd_opened : OpenFd (h ++ [.opened n o]) m o' ↔ n = m ∧ o = o' ∨ OpenFd h m o' := by
  rw [OpenFd, since_concat, FdEvent.opened.injEq]
  exact or_congr_right (and_iff_left (by simp))

theorem openFd_closed : OpenFd (h ++ [.closed n]) m o ↔ n ≠ m ∧ OpenFd h m o := by
  rw [OpenFd, since_concat]
  simp [OpenFd, and_comm]

namespace FdSys

@[simp] theorem serves_congr (hp : s'.pipe = s.pipe) : s'.Serves use o ↔ s.Serves use o := by
  cases o <;> simp only [Serves, hp]

theorem sysClose_fst : (s.sysClose n).1 =
    if n = 0 then some .stdin else if n = 1 ∨ n = 2 then some .terminal else if n = fdDevNull then some .null
    else if s.isReadFd (n % 2 ^ 32) then some (.pipeRead s.pipe)
    else if s.isWriteFd (n % 2 ^ 32) then some (.pipeWrite s.pipe)
    else s.table.table[n % 2 ^ 32]?.map (·.toObject) := by
  simp only [sysClose, apply_ite Prod.fst]

theorem get_congr {T : ResourceType} {r : Rights} (ht : s'.table.table[n]? = s.table.table[n]?) :
    s'.table.get T n r = s.table.get T n r := by
  rw [HandleTable.get, HandleTable.get, ht]

theorem isDevFd_congr (ht : s'.table.table[n]? = s.table.table[n]?) : s'.isDevFd n = s.isDevFd n := by
  rw [isDevFd, isDevFd, get_congr ht]

theorem reachTable_congr {T : ResourceType} {r : Rights} (ht : s'.table.table[n]? = s.table.table[n]?) :
    s'.reachTable T n r = s.reachTable T n r := by
  rw [reachTable, reachTable, get_congr ht, ht]

/-- Calls on a number agree in two states that agree about it. -/
theorem reach_congr (hr : s'.pipeReadFd = s.pipeReadFd) (hw : s'.pipeWriteFd = s.pipeWriteFd) (hp : s'.pipe = s.pipe)
    (ht : s'.table.table[n % 2 ^ 32]? = s.table.table[n % 2 ^ 32]?) : s'.reach use n = s.reach use n := by
  have hread : ∀ k, s'.isReadFd k = s.isReadFd k := fun k => by rw [isReadFd, isReadFd, hr]
  have hwrite : ∀ k, s'.isWriteFd k = s.isWriteFd k := fun k => by rw [isWriteFd, isWriteFd, hw]
  cases use <;>
    simp only [reach, sysRead, sysWrite, sysClose_fst, hread, hwrite, isDevFd_congr ht, reachTable_congr ht, hp, ht]

/-- Closing a reserved number, or an end of the pipe, reaches no table entry. -/
theorem reach_close_of_reserved (hn : Reserved n) :
    s.reach .close n = some .stdin ∨ s.reach .close n = some .terminal ∨ s.reach .close n = some .null := by
  simp only [reach, sysClose_fst]
  rcases hn with hn | rfl
  · have : n = 0 ∨ n = 1 ∨ n = 2 := by omega
    rcases this with rfl | rfl | rfl <;> simp
  · exact .inr (.inr rfl)

theorem reach_close_of_atPipe (hlt : n < 2 ^ 32) (hn : ¬ Reserved n) (hp : s.AtPipe n) :
    s.reach .close n = some (.pipeRead s.pipe) ∨ s.reach .close n = some (.pipeWrite s.pipe) := by
  simp only [Reserved, not_or] at hn
  simp only [reach, sysClose_fst, Nat.mod_eq_of_lt hlt]
  rw [if_neg (by omega), if_neg (by omega), if_neg hn.2]
  rcases hp with hp | hp
  · exact .inl (if_pos hp)
  · by_cases hr : s.isReadFd n = true
    · exact .inl (if_pos hr)
    · rw [if_neg hr, if_pos hp]
      exact .inr rfl

theorem get_eq_none {T : ResourceType} {r : Rights} (hn : s.table.table[n]? = none) : s.table.get T n r = none := by
  simp [HandleTable.get, hn]

theorem reachTable_eq_none {T : ResourceType} {r : Rights} (hn : s.table.table[n]? = none) :
    s.reachTable T n r = none := by
  simp [reachTable, get_eq_none hn]

/-- An entry is reached through its own type and rights. -/
theorem isSome_get {raw : RawCapability Resource} {T : ResourceType} {r : Rights} (hraw : s.table.table[n]? = some raw) :
    (s.table.get T n r).isSome = (raw.rights.contains r && decide (raw.object.1 = T)) := by
  simp only [HandleTable.get, Option.bind_eq_bind, hraw, Option.bind_some, RawCapability.downcast]
  cases raw.rights.contains r <;> simp
  split <;> simp [*]

theorem contains_none {r : Rights} : r.contains Rights.none = true := by
  simp [Rights.contains, Rights.none]

/-- At a number that is neither reserved nor a pipe end the table decides. -/
theorem reach_table (use : FdUse) (hlt : n < 2 ^ 32) (hn : ¬ Reserved n) (hp : ¬ s.AtPipe n) :
    s.table.table[n]? = none ∧ s.reach use n = none ∨
      ∃ raw, s.table.table[n]? = some raw ∧ (s.Serves use raw.toObject → s.reach use n = some raw.toObject) ∧
        (¬ s.Serves use raw.toObject → s.reach use n = none) := by
  simp only [Reserved, not_or] at hn
  simp only [AtPipe, not_or] at hp
  have h3 : 3 ≤ n := by omega
  cases hraw : s.table.table[n]? with
  | none =>
    refine .inl ⟨rfl, ?_⟩
    cases use <;>
      simp only [reach, sysRead, sysWrite, sysClose_fst, Nat.mod_eq_of_lt hlt, hp, reachTable_eq_none hraw, hraw, hn.2,
        if_neg (show ¬ (n = 0) by omega), if_neg (show ¬ (n = 1 ∨ n = 2) by omega)]
    all_goals simp
  | some raw =>
    refine .inr ⟨raw, rfl, ?_⟩
    obtain ⟨⟨T, o⟩, rights⟩ := raw
    cases use <;>
      simp only [reach, sysRead, sysWrite, sysClose_fst, Nat.mod_eq_of_lt hlt, hp, isDevFd, reachTable,
        isSome_get hraw, contains_none, hraw, hn.2, if_pos h3, if_neg (show ¬ (n = 0) by omega),
        if_neg (show ¬ (n = 1 ∨ n = 2) by omega)] <;>
      cases T <;> simp [RawCapability.toObject, Serves]

/-! ### What the calls do -/

/-- The ways an `open` can end. -/
inductive Opens (s : FdSys) (vfs : VfsView) (path : Option Path) (flags : Nat) : Int → FdSys → Prop
  | refused {e : Int} : e < 0 → path ≠ some "/dev/zero".toList → opensEntry vfs path flags = false →
      Opens s vfs path flags e s
  | stub : path = some "/dev/null".toList ∨ path = some "/dev/zero".toList → opensEntry vfs path flags = false →
      Opens s vfs path flags 99 s
  | entered {T : ResourceType} {new : Nat → Resource T} {rights : Rights} {fd : Nat} {s' : FdSys} :
      (∀ k, (new k).serial = k) → s.register T new rights = some (fd, s') → path ≠ some "/dev/null".toList →
      path ≠ some "/dev/zero".toList → opensEntry vfs path flags = true → Opens s vfs path flags fd s'

theorem ret_eq_some {r : Option (Nat × FdSys)} {x : Int × FdSys} (h : ret r = some x) :
    ∃ fd : Nat, r = some (fd, x.2) ∧ x.1 = fd := by
  obtain ⟨⟨fd, s'⟩, hr, rfl⟩ := Option.map_eq_some_iff.mp h
  exact ⟨fd, hr, rfl⟩

section
variable {vfs : VfsView} {path : Path} {flags : Nat} {r e : Int}

theorem Opens.of_register {T : ResourceType} {new : Nat → Resource T} {rights : Rights}
    (h : ret (s.register T new rights) = some (r, s')) (hserial : ∀ k, (new k).serial = k)
    (hnull : path ≠ "/dev/null".toList) (hzero : path ≠ "/dev/zero".toList)
    (hentry : opensEntry vfs (some path) flags = true) : Opens s vfs (some path) flags r s' := by
  obtain ⟨fd, hreg, rfl⟩ := ret_eq_some h
  exact .entered hserial hreg (fun he => hnull (Option.some.inj he)) (fun he => hzero (Option.some.inj he)) hentry

theorem Opens.of_readonly {data : List UInt8} (h : ret (s.openFile vfs path data false) = some (r, s'))
    (hnull : path ≠ "/dev/null".toList) (hzero : path ≠ "/dev/zero".toList)
    (hentry : opensEntry vfs (some path) flags = true) : Opens s vfs (some path) flags r s' := by
  have hregister : s.openFile vfs path data false = s.register .file (⟨·, .newReadonly path data⟩) Rights.read := rfl
  rw [hregister] at h
  exact .of_register h (fun _ => rfl) hnull hzero hentry

theorem Opens.of_refused (h : some (e, s) = some (r, s')) (he : e < 0) (hzero : path ≠ "/dev/zero".toList)
    (hentry : opensEntry vfs (some path) flags = false) : Opens s vfs (some path) flags r s' := by
  obtain ⟨rfl, rfl⟩ := Prod.mk.inj (Option.some.inj h)
  exact .refused he (fun he => hzero (Option.some.inj he)) hentry

/-- A path is a directory to open, or there is none. -/
theorem opens_dirIf {b : Bool} (h : (if b then ret (s.openDir path) else some (enoent, s)) = some (r, s'))
    (hnull : path ≠ "/dev/null".toList) (hzero : path ≠ "/dev/zero".toList)
    (hentry : opensEntry vfs (some path) flags = b) : Opens s vfs (some path) flags r s' := by
  cases b with
  | true => exact .of_register h (fun _ => rfl) hnull hzero hentry
  | false => exact .of_refused h (by decide) hzero hentry

theorem sysOpenImpl_dev (hdev : isDev path = true) (hopen : s.sysOpenImpl vfs (some path) flags = some (r, s')) :
    Opens s vfs (some path) flags r s' := by
  simp only [sysOpenImpl, if_pos hdev] at hopen
  by_cases hdir : isDevDir path = true
  · rw [if_pos hdir] at hopen
    refine .of_register hopen (fun _ => rfl) ?_ ?_ (by simp [opensEntry, hdev, hdir])
    · rintro rfl; exact absurd hdir (by decide)
    · rintro rfl; exact absurd hdir (by decide)
  rw [if_neg hdir] at hopen
  by_cases hstub : path = "/dev/null".toList ∨ path = "/dev/zero".toList
  · rw [if_pos hstub] at hopen
    obtain ⟨rfl, rfl⟩ := Prod.mk.inj (Option.some.inj hopen)
    refine .stub (hstub.imp (congrArg some) (congrArg some)) ?_
    rcases hstub with rfl | rfl <;> rfl
  · rw [if_neg hstub] at hopen
    obtain ⟨hnull, hzero⟩ := not_or.mp hstub
    obtain ⟨⟨o, s₁⟩, ho, hr⟩ := Option.map_eq_some_iff.mp hopen
    unfold devOpen at ho
    split at ho
    · next hkind =>
      obtain ⟨rfl, rfl⟩ := Prod.mk.inj (Option.some.inj ho)
      exact .of_refused (congrArg some hr) (by decide) hzero (by simp [opensEntry, hdev, hdir, hkind])
    · next kind hkind =>
      obtain ⟨⟨fd, s₂⟩, hreg, ho⟩ := Option.bind_eq_some_iff.mp ho
      obtain ⟨rfl, rfl⟩ := Prod.mk.inj (Option.some.inj ho)
      refine .of_register ((congrArg ret hreg).trans (congrArg some hr)) (fun _ => rfl) hnull hzero ?_
      simp [opensEntry, hdev, hdir, hkind]
      exact ⟨hnull, hzero⟩

theorem sysOpenImpl_path (hdev : ¬isDev path = true) (hopen : s.sysOpenImpl vfs (some path) flags = some (r, s')) :
    Opens s vfs (some path) flags r s' := by
  have hnull : path ≠ "/dev/null".toList := by rintro rfl; exact hdev (by decide)
  have hzero : path ≠ "/dev/zero".toList := by rintro rfl; exact hdev (by decide)
  have hentry : opensEntry vfs (some path) flags = _ := if_neg hdev
  simp only [sysOpenImpl, if_neg hdev] at hopen
  by_cases hdir : (flags &&& 0o200000 != 0 || path == ['/'] || path.getLast? == some '/') = true
  · rw [if_pos hdir] at hopen hentry
    exact opens_dirIf hopen hnull hzero hentry
  rw [if_neg hdir] at hopen hentry
  by_cases hproc : isProc path = true
  · rw [if_pos hproc] at hopen hentry
    cases hread : vfs.procRead path with
    | some data =>
      rw [hread] at hopen hentry
      exact .of_readonly hopen hnull hzero hentry
    | none =>
      rw [hread] at hopen hentry
      exact opens_dirIf hopen hnull hzero hentry
  rw [if_neg hproc] at hopen hentry
  by_cases hwrite : (flags &&& 0x03 != 0 || flags &&& 0x40 != 0) = true
  · rw [if_pos hwrite] at hopen hentry
    cases hnode : vfs.openWritable path (flags &&& 0x40 != 0) with
    | some node =>
      rw [hnode] at hopen hentry
      exact .of_register hopen (fun _ => rfl) hnull hzero hentry
    | none =>
      rw [hnode] at hopen hentry
      exact .of_refused hopen (by decide) hzero hentry
  · rw [if_neg hwrite] at hopen hentry
    cases hread : vfs.openReadonly path with
    | some data =>
      rw [hread] at hopen hentry
      exact .of_readonly hopen hnull hzero hentry
    | none =>
      rw [hread] at hopen hentry
      exact opens_dirIf hopen hnull hzero hentry

theorem sysOpenImpl_cases {path : Option Path} (hopen : s.sysOpenImpl vfs path flags = some (r, s')) :
    Opens s vfs path flags r s' := by
  cases path with
  | none =>
    obtain ⟨rfl, rfl⟩ := Prod.mk.inj (Option.some.inj hopen)
    exact .refused (by decide) (by simp) rfl
  | some path =>
    by_cases hdev : isDev path = true
    · exact sysOpenImpl_dev hdev hopen
    · exact sysOpenImpl_path hdev hopen

end

/-- What a registration does: the next number, and a new object, which nothing had before. -/
theorem register_spec {T : ResourceType} {new : Nat → Resource T} {rights : Rights} {fd : Nat}
    (h : s.register T new rights = some (fd, s')) :
    fd = s.table.nextId ∧ fd + 1 < 2 ^ 32 ∧
      s' = { s with table := ⟨s.table.table.insert fd ⟨⟨T, new s.made⟩, rights⟩, fd + 1⟩, made := s.made + 1 } := by
  simp only [register, HandleTable.insert, Option.bind_eq_bind, Option.bind_eq_some_iff] at h
  obtain ⟨⟨hd, t⟩, ⟨next, hnext, hins⟩, hr⟩ := h
  obtain ⟨rfl, rfl⟩ := Prod.mk.inj (Option.some.inj hins)
  obtain ⟨rfl, rfl⟩ := Prod.mk.inj (Option.some.inj hr)
  unfold addU32 at hnext
  split at hnext
  · next hlt =>
    obtain rfl := Option.some.inj hnext
    exact ⟨rfl, hlt, rfl⟩
  · cases hnext

theorem sockError_neg {domain sockType : Nat} {e : Int} (h : sockError domain sockType = some e) : e < 0 := by
  unfold sockError at h
  split at h
  · rw [← Option.some.inj h]
    decide
  · simp only at h
    split at h
    · rw [← Option.some.inj h]
      decide
    · cases h

/-! ### Descriptors that reach their object -/

/-- Every call on `fd` reaches `o` where the kernel has it for `o`, and nothing otherwise. -/
def Right (s : FdSys) (fd : Nat) (o : Object) : Prop :=
  ∀ use, (s.Serves use o → s.reach use fd = some o) ∧ (¬ s.Serves use o → s.reach use fd = none)

theorem Right.congr (hright : s.Right n o) (hr : s'.pipeReadFd = s.pipeReadFd) (hw : s'.pipeWriteFd = s.pipeWriteFd)
    (hp : s'.pipe = s.pipe) (ht : s'.table.table[n % 2 ^ 32]? = s.table.table[n % 2 ^ 32]?) : s'.Right n o := by
  intro use
  rw [reach_congr hr hw hp ht, serves_congr hp]
  exact hright use

theorem right_entry {raw : RawCapability Resource} (hlt : n < 2 ^ 32) (hn : ¬ Reserved n) (hp : ¬ s.AtPipe n)
    (hraw : s.table.table[n]? = some raw) : s.Right n raw.toObject := by
  intro use
  rcases reach_table use hlt hn hp with ⟨hnone, -⟩ | ⟨raw', hraw', hr⟩
  · rw [hraw] at hnone
    cases hnone
  · obtain rfl := Option.some.inj (hraw.symm.trans hraw')
    exact hr

/-- A number without an entry suits an object that no call is for. -/
theorem right_nothing (hlt : n < 2 ^ 32) (hn : ¬ Reserved n) (hp : ¬ s.AtPipe n) (hnone : s.table.table[n]? = none)
    (ho : ∀ use, ¬ s.Serves use o) : s.Right n o := by
  intro use
  refine ⟨fun h => absurd h (ho use), fun _ => ?_⟩
  rcases reach_table use hlt hn hp with ⟨-, hr⟩ | ⟨raw, hraw, -⟩
  · exact hr
  · rw [hnone] at hraw
    cases hraw

theorem right_null (hp : ¬ s.AtPipe fdDevNull) : s.Right fdDevNull .null := by
  rw [AtPipe, not_or] at hp
  intro use
  refine ⟨fun _ => ?_, fun h => absurd trivial h⟩
  cases use <;> simp [reach, sysRead, sysWrite, sysClose_fst, fdDevNull] at hp ⊢
  · exact hp.1
  · exact hp.2

theorem right_pipeEnd (reading : Bool) (hlt : n < 2 ^ 32) (hn : ¬ Reserved n) (hr : s.isReadFd n = reading)
    (hw : s.isWriteFd n = !reading) (hnone : s.table.table[n]? = none) :
    s.Right n (bif reading then .pipeRead s.pipe else .pipeWrite s.pipe) := by
  simp only [Reserved, not_or] at hn
  have h0 : n ≠ 0 := by omega
  have h12 : ¬ (n = 1 ∨ n = 2) := by omega
  intro use
  cases use <;> cases reading <;>
    simp only [reach, sysRead, sysWrite, sysClose_fst, Serves, Nat.mod_eq_of_lt hlt, hr, hw, hn.2, if_neg h0,
      if_neg h12, reachTable_eq_none hnone]
  all_goals simp

/-- Closing a number reaches the object that it is right for, if anything. -/
theorem Right.close_eq (hr : s.Right n o) (hc : s.reach .close n = some o') : o = o' := by
  by_cases hs : s.Serves .close o
  · exact Option.some.inj (((hr .close).1 hs).symm.trans hc)
  · rw [(hr .close).2 hs] at hc
    cases hc

theorem Right.of_reserved (hr : s.Right n o) (hn : Reserved n) : o = .stdin ∨ o = .terminal ∨ o = .null :=
  (reach_close_of_reserved hn).imp hr.close_eq (·.imp hr.close_eq hr.close_eq)

theorem Right.not_reserved (hr : s.Right n o) (ho : ¬(o = .stdin ∨ o = .terminal ∨ o = .null)) : ¬ Reserved n :=
  mt hr.of_reserved ho

theorem Right.of_atPipe (hr : s.Right n o) (hlt : n < 2 ^ 32) (hn : ¬ Reserved n) (hp : s.AtPipe n) :
    o = .pipeRead s.pipe ∨ o = .pipeWrite s.pipe :=
  (reach_close_of_atPipe hlt hn hp).imp hr.close_eq hr.close_eq

/-- Only the ends in place are right for the pipe in place. -/
theorem Right.atPipe (hr : s.Right n o) (hlt : n < 2 ^ 32) (ho : o = .pipeRead s.pipe ∨ o = .pipeWrite s.pipe) :
    s.AtPipe n := by
  by_contra hp
  have hserves : s.Serves .close o := by rcases ho with rfl | rfl <;> exact ⟨rfl, by decide⟩
  have hn : ¬ Reserved n := hr.not_reserved (by rcases ho with rfl | rfl <;> simp)
  rcases reach_table .close hlt hn hp with ⟨-, hnone⟩ | ⟨raw, -, hraw, -⟩
  · rw [(hr .close).1 hserves] at hnone
    cases hnone
  · have hclosed : s.Serves .close raw.toObject := by
      obtain ⟨⟨T, a⟩, rights⟩ := raw
      cases T <;> trivial
    have := hr.close_eq (hraw hclosed)
    rcases ho with rfl | rfl <;> cases this

/-- Away from the pipe's ends the buffer does not matter. -/
theorem Right.moved (hr : s.Right n o) (hlt : n < 2 ^ 32) (hp : ¬ s.AtPipe n) (hp' : ¬ s'.AtPipe n)
    (ho : o ≠ .pipeRead s'.pipe ∧ o ≠ .pipeWrite s'.pipe) (ht : s'.table.table[n]? = s.table.table[n]?) :
    s'.Right n o := by
  have hserves : ∀ use, s'.Serves use o ↔ s.Serves use o := by
    intro use
    cases o with
    | pipeRead k =>
      have hk : k ≠ s.pipe := fun hk => hp (hr.atPipe hlt (.inl (by rw [hk])))
      have hk' : k ≠ s'.pipe := fun hk => ho.1 (by rw [hk])
      simp [Serves, hk, hk']
    | pipeWrite k =>
      have hk : k ≠ s.pipe := fun hk => hp (hr.atPipe hlt (.inr (by rw [hk])))
      have hk' : k ≠ s'.pipe := fun hk => ho.2 (by rw [hk])
      simp [Serves, hk, hk']
    | stdin | terminal | null | zero | socket _ | epoll _ => rfl
    | resource k T rights => cases T <;> rfl
  intro use
  rw [AtPipe, not_or] at hp hp'
  have hreach : s'.reach use n = s.reach use n := by
    cases use <;>
      simp only [reach, sysRead, sysWrite, sysClose_fst, Nat.mod_eq_of_lt hlt, hp, hp', isDevFd_congr ht,
        reachTable_congr ht, ht, Bool.false_eq_true, if_false]
  rw [hserves, hreach]
  exact hr use

end FdSys

theorem unambiguous_iff : Unambiguous h s ↔
    (∀ fd o o', OpenFd h fd o → OpenFd h fd o' → o = o') ∧ ∀ fd o, OpenFd h fd o → s.Right fd o :=
  ⟨fun hu => ⟨hu.distinct, fun fd o ho use => ⟨hu.serves fd o use ho, hu.nothing fd o use ho⟩⟩,
    fun ⟨hd, hr⟩ => ⟨hd, fun fd o use ho => (hr fd o ho use).1, fun fd o use ho => (hr fd o ho use).2⟩⟩

/-- What a descriptor just opened says of the others and of itself. -/
theorem Unambiguous.opened (hu : Unambiguous (h ++ [.opened n o]) s) :
    (∀ o', OpenFd h n o' → o' = o) ∧ s.Right n o := by
  obtain ⟨hd, hr⟩ := unambiguous_iff.mp hu
  have hnew : OpenFd (h ++ [.opened n o]) n o := openFd_opened.mpr (.inl ⟨rfl, rfl⟩)
  exact ⟨fun o' ho' => hd n o' o (openFd_opened.mpr (.inr ho')) hnew, hr n o hnew⟩

/-! ### Runs -/

/-- An object made before the `k`-th. -/
def Object.Older (k : Nat) : Object → Prop
  | .stdin | .terminal | .null | .zero => True
  | .resource n _ _ | .pipeRead n | .pipeWrite n | .socket n | .epoll n => n < k

theorem Object.Older.mono {k k' : Nat} (ho : o.Older k) (hle : k ≤ k') : o.Older k' := by
  cases o with
  | stdin | terminal | null | zero => trivial
  | resource n | pipeRead n | pipeWrite n | socket n | epoll n => exact Nat.lt_of_lt_of_le ho hle

/-- The descriptors are apart: they are unambiguous, every table entry is
open, and the allocators stand where they can. -/
structure FdsApart (h : List FdEvent) (s : FdSys) : Prop where
  unambiguous : Unambiguous h s
  booked : ∀ n raw, s.table.table[n]? = some raw → OpenFd h n raw.toObject
  older : ∀ fd o, OpenFd h fd o → o.Older s.made
  small : ∀ fd o, OpenFd h fd o → fd < 2 ^ 32
  ends : ∀ n, s.AtPipe n → ¬ Reserved n
  nextId : 3 ≤ s.table.nextId ∧ s.table.nextId < 2 ^ 32
  nextPipe : s.nextPipeFd < 2 ^ 32
  nextSock : s.sockNextFd < 2 ^ 32

/-- The state in which `sys_pipe` leaves the kernel. -/
def FdSys.piped (s : FdSys) : FdSys :=
  { s with nextPipeFd := (s.nextPipeFd + 2) % 2 ^ 32, pipeReadFd := s.nextPipeFd,
           pipeWriteFd := (s.nextPipeFd + 1) % 2 ^ 32, pipe := s.made, made := s.made + 1 }

namespace FdsApart

theorem boot : FdsApart [] .boot where
  unambiguous := ⟨fun _ _ _ ho => absurd ho since_nil, fun _ _ _ ho => absurd ho since_nil,
    fun _ _ _ ho => absurd ho since_nil⟩
  booked n raw hraw := by simp [FdSys.boot, HandleTable.new] at hraw
  older _ _ ho := absurd ho since_nil
  small _ _ ho := absurd ho since_nil
  ends n hn := by simp [FdSys.AtPipe, FdSys.isReadFd, FdSys.isWriteFd, FdSys.boot] at hn
  nextId := by decide
  nextPipe := by decide
  nextSock := by decide

theorem right (ht : FdsApart h s) (ho : OpenFd h n o) : s.Right n o := (unambiguous_iff.mp ht.unambiguous).2 n o ho

theorem no_entry (ht : FdsApart h s) (hv : Vacant h n) : s.table.table[n]? = none := by
  cases hraw : s.table.table[n]? with
  | none => rfl
  | some raw => exact absurd (ht.booked n raw hraw) (hv _)

/-- Where only an object that is not there yet could be open, nothing is. -/
theorem vacant (ht : FdsApart h s) (hsame : ∀ o', OpenFd h n o' → o' = o) (ho : ¬o.Older s.made) : Vacant h n :=
  fun o' ho' => ho (hsame o' ho' ▸ ht.older n o' ho')

/-- Entries are at ordinary numbers. -/
theorem entry_off {raw : RawCapability Resource} (ht : FdsApart h s) (hraw : s.table.table[n]? = some raw) :
    ¬ Reserved n ∧ ¬ s.AtPipe n := by
  have ho := ht.booked n raw hraw
  have hr := ht.right ho
  have hn : ¬ Reserved n := hr.not_reserved (by simp [RawCapability.toObject])
  refine ⟨hn, fun hp => ?_⟩
  rcases hr.of_atPipe (ht.small n _ ho) hn hp with he | he <;> cases he

/-- A new descriptor joins the others when its number is right for it and
nothing else is open under it. -/
theorem opened (ht : FdsApart h s) (hlt : n < 2 ^ 32) (hn : ∀ o', OpenFd h n o' → o' = o) (hright : s'.Right n o)
    (hold : o.Older s'.made) (hr : s'.pipeReadFd = s.pipeReadFd) (hw : s'.pipeWriteFd = s.pipeWriteFd)
    (hp : s'.pipe = s.pipe) (hmade : s.made ≤ s'.made) (hpipe : s'.nextPipeFd = s.nextPipeFd)
    (hsock : s'.sockNextFd < 2 ^ 32) (hid : 3 ≤ s'.table.nextId ∧ s'.table.nextId < 2 ^ 32)
    (htable : ∀ m, m ≠ n → s'.table.table[m]? = s.table.table[m]?)
    (hat : ∀ raw, s'.table.table[n]? = some raw → raw.toObject = o) : FdsApart (h ++ [.opened n o]) s' where
  unambiguous := by
    refine unambiguous_iff.mpr ⟨fun fd o₁ o₂ h₁ h₂ => ?_, fun fd o' ho => ?_⟩
    · rcases openFd_opened.mp h₁ with ⟨hfd, rfl⟩ | h₁ <;> rcases openFd_opened.mp h₂ with ⟨hfd', rfl⟩ | h₂
      · rfl
      · exact (hn _ (hfd ▸ h₂)).symm
      · exact hn _ (hfd' ▸ h₁)
      · exact ht.unambiguous.distinct fd _ _ h₁ h₂
    · by_cases hfd : fd = n
      · subst hfd
        rcases openFd_opened.mp ho with ⟨-, rfl⟩ | ho
        · exact hright
        · rw [hn _ ho]
          exact hright
      · rcases openFd_opened.mp ho with ⟨rfl, -⟩ | ho
        · exact absurd rfl hfd
        · intro use
          have hfd' : fd % 2 ^ 32 ≠ n := by rwa [Nat.mod_eq_of_lt (ht.small fd o' ho)]
          exact (ht.right ho).congr hr hw hp (htable _ hfd') use
  booked m raw hraw := by
    by_cases hm : m = n
    · subst hm
      exact openFd_opened.mpr (.inl ⟨rfl, (hat raw hraw).symm⟩)
    · rw [htable m hm] at hraw
      exact openFd_opened.mpr (.inr (ht.booked m raw hraw))
  older fd o' ho := by
    rcases openFd_opened.mp ho with ⟨-, rfl⟩ | ho
    · exact hold
    · exact (ht.older fd o' ho).mono hmade
  small fd o' ho := by
    rcases openFd_opened.mp ho with ⟨rfl, -⟩ | ho
    · exact hlt
    · exact ht.small fd o' ho
  ends m hm := by
    refine ht.ends m ?_
    rwa [FdSys.AtPipe, FdSys.isReadFd, FdSys.isWriteFd, hr, hw] at hm
  nextId := hid
  nextPipe := hpipe ▸ ht.nextPipe
  nextSock := hsock

/-- A socket whose number is an error to its caller is just counted. -/
theorem counted {k : Nat} (ht : FdsApart h s) (hk : k < 2 ^ 32) :
    FdsApart h { s with sockNextFd := k, made := s.made + 1 } where
  unambiguous := by
    refine unambiguous_iff.mpr ⟨ht.unambiguous.distinct, fun n o ho => ?_⟩
    exact (ht.right ho).congr rfl rfl rfl rfl
  booked := ht.booked
  older n o ho := (ht.older n o ho).mono (Nat.le_succ _)
  small := ht.small
  ends := ht.ends
  nextId := ht.nextId
  nextPipe := ht.nextPipe
  nextSock := hk

/-- An `open` that ends in a table entry. -/
theorem entered {T : ResourceType} {new : Nat → Resource T} {rights : Rights} {fd : Nat} {raw : RawCapability Resource}
    (ht : FdsApart h s) (hserial : ∀ k, (new k).serial = k) (hreg : s.register T new rights = some (fd, s'))
    (hraw : raw = ⟨⟨T, new s.made⟩, rights⟩) :
    (Vacant h fd ∧ ¬ Reserved fd ∧ ¬ s.AtPipe fd → FdsApart (h ++ [.opened fd raw.toObject]) s') ∧
    (Unambiguous (h ++ [.opened fd raw.toObject]) s' → Vacant h fd ∧ ¬ Reserved fd ∧ ¬ s.AtPipe fd) := by
  obtain ⟨hfd, hlt, rfl⟩ := FdSys.register_spec hreg
  have hid := ht.nextId.1
  have hobj : raw.toObject = .resource s.made T rights := by rw [hraw, RawCapability.toObject, hserial]
  have hself : (s.table.table.insert fd ⟨⟨T, new s.made⟩, rights⟩)[fd]? = some raw := by
    rw [hraw]
    exact Std.ExtTreeMap.getElem?_insert_self
  constructor
  · intro ⟨hv, hn, hp⟩
    refine ht.opened (by omega) (fun o' ho' => absurd ho' (hv o')) (FdSys.right_entry (by omega) hn hp hself) ?_ rfl rfl
      rfl (Nat.le_succ _) rfl ht.nextSock ⟨by simp only; omega, hlt⟩ (fun m hm => ?_) fun raw' hraw' => ?_
    · rw [hobj]
      exact Nat.lt_succ_self _
    · rw [Std.ExtTreeMap.getElem?_insert, if_neg fun he => hm (Nat.compare_eq_eq.mp he).symm]
    · rw [Option.some.inj (hself.symm.trans hraw')]
  · intro hu
    obtain ⟨hsame, hright⟩ := hu.opened
    rw [hobj] at hsame hright
    have hn : ¬ Reserved fd := hright.not_reserved (by simp)
    refine ⟨ht.vacant hsame (Nat.lt_irrefl _), hn, fun hp => ?_⟩
    rcases hright.of_atPipe (by omega) hn hp with he | he <;> cases he

/-- A descriptor whose object no call is for: a socket, an epoll instance. -/
theorem idle {k : Nat} (ht : FdsApart h s) (hlt : n < 2 ^ 32) (hk : k < 2 ^ 32)
    (hidle : ∀ s : FdSys, ∀ use, ¬ s.Serves use o) (hold : ∀ k, o.Older k ↔ s.made < k) :
    (Vacant h n ∧ ¬ Reserved n ∧ ¬ s.AtPipe n →
      FdsApart (h ++ [.opened n o]) { s with sockNextFd := k, made := s.made + 1 }) ∧
    (Unambiguous (h ++ [.opened n o]) { s with sockNextFd := k, made := s.made + 1 } →
      Vacant h n ∧ ¬ Reserved n ∧ ¬ s.AtPipe n) := by
  constructor
  · intro ⟨hv, hn, hp⟩
    have hnone := ht.no_entry hv
    refine ht.opened hlt (fun o' ho' => absurd ho' (hv o')) (FdSys.right_nothing hlt hn hp hnone (hidle _)) ?_ rfl rfl
      rfl (Nat.le_succ _) rfl hk ht.nextId (fun _ _ => rfl) fun raw hraw => ?_
    · exact (hold _).mpr (Nat.lt_succ_self _)
    · rw [hnone] at hraw
      cases hraw
  · intro hu
    obtain ⟨hsame, hright⟩ := hu.opened
    have hcongr : FdSys.reach { s with sockNextFd := k, made := s.made + 1 } .close n = s.reach .close n :=
      FdSys.reach_congr rfl rfl rfl rfl
    have hnone := hcongr.symm.trans ((hright .close).2 (hidle _ _))
    have hn : ¬ Reserved n := fun hn => by
      rcases FdSys.reach_close_of_reserved hn with he | he | he <;> rw [hnone] at he <;> cases he
    refine ⟨ht.vacant hsame fun h => Nat.lt_irrefl _ ((hold _).mp h), hn, fun hp => ?_⟩
    rcases FdSys.reach_close_of_atPipe hlt hn hp with he | he <;> rw [hnone] at he <;> cases he

/-- The buffer goes over to a new pipe. Descriptors elsewhere do not notice,
and no call is for an end of the pipe before. -/
theorem piped (ht : FdsApart h s) (hr : Vacant h s.nextPipeFd ∧ ¬ Reserved s.nextPipeFd)
    (hw : Vacant h ((s.nextPipeFd + 1) % 2 ^ 32) ∧ ¬ Reserved ((s.nextPipeFd + 1) % 2 ^ 32)) :
    FdsApart h s.piped := by
  have hends : ∀ n, s.piped.AtPipe n → n = s.nextPipeFd ∨ n = (s.nextPipeFd + 1) % 2 ^ 32 := by
    rintro n (hn | hn) <;> simp only [FdSys.isReadFd, FdSys.isWriteFd, FdSys.piped, Bool.and_eq_true, beq_iff_eq] at hn
    · exact .inl hn.2
    · exact .inr hn.2
  have hoff : ∀ {n o}, OpenFd h n o → ¬ s.piped.AtPipe n := by
    intro n o ho hn
    rcases hends n hn with rfl | rfl
    · exact hr.1 o ho
    · exact hw.1 o ho
  refine { ht with unambiguous := ?_, booked := ?_, older := ?_, ends := ?_, nextId := ?_, nextPipe := ?_ }
  · refine unambiguous_iff.mpr ⟨ht.unambiguous.distinct, fun n o ho => ?_⟩
    have hlt := ht.small n o ho
    have hright := ht.right ho
    have hold := ht.older n o ho
    have hother : o ≠ .pipeRead s.piped.pipe ∧ o ≠ .pipeWrite s.piped.pipe := by
      constructor <;> rintro rfl <;> exact Nat.lt_irrefl _ hold
    by_cases hp : s.AtPipe n
    · -- an end of the pipe before: no call is for it any more
      have hn := ht.ends n hp
      have hwas := hright.of_atPipe hlt hn hp
      refine FdSys.right_nothing hlt hn (hoff ho) ?_ fun use hserves => ?_
      · show s.table.table[n]? = none
        cases hraw : s.table.table[n]? with
        | none => rfl
        | some raw => exact absurd hp (ht.entry_off hraw).2
      · rcases hwas with rfl | rfl
        · exact hother.1 (by rw [hserves.1])
        · exact hother.2 (by rw [hserves.1])
    · exact hright.moved hlt hp (hoff ho) hother rfl
  · exact ht.booked
  · intro fd o ho
    exact (ht.older fd o ho).mono (Nat.le_succ _)
  · intro n hn
    rcases hends n hn with rfl | rfl
    · exact hr.2
    · exact hw.2
  · exact ht.nextId
  · exact Nat.mod_lt _ (by decide)

/-- Both ends of a new pipe. -/
theorem pipeOpened (ht : FdsApart h s) (hr : Vacant h s.nextPipeFd ∧ ¬ Reserved s.nextPipeFd)
    (hw : Vacant h ((s.nextPipeFd + 1) % 2 ^ 32) ∧ ¬ Reserved ((s.nextPipeFd + 1) % 2 ^ 32))
    (hone : (s.nextPipeFd + 1) % 2 ^ 32 ≠ minusOne) :
    FdsApart (h ++ [.opened s.nextPipeFd (.pipeRead s.made), .opened ((s.nextPipeFd + 1) % 2 ^ 32) (.pipeWrite s.made)])
      s.piped := by
  have hp := ht.piped hr hw
  have hrlt := ht.nextPipe
  have hwlt : (s.nextPipeFd + 1) % 2 ^ 32 < 2 ^ 32 := Nat.mod_lt _ (by decide)
  have hne : s.nextPipeFd ≠ (s.nextPipeFd + 1) % 2 ^ 32 := by omega
  have hrone : s.nextPipeFd ≠ minusOne := by
    intro he
    refine hw.2 (.inl ?_)
    rw [he]
    decide
  have hrnone : s.piped.table.table[s.nextPipeFd]? = none := hp.no_entry hr.1
  have hwnone : s.piped.table.table[(s.nextPipeFd + 1) % 2 ^ 32]? = none := hp.no_entry hw.1
  have hreads : s.piped.isReadFd s.nextPipeFd = true := by simp [FdSys.isReadFd, FdSys.piped, hrone]
  have hnoWrite : s.piped.isWriteFd s.nextPipeFd = false := by
    simp only [FdSys.isWriteFd, FdSys.piped, Bool.and_eq_false_iff, beq_eq_false_iff_ne]
    exact .inr hne
  have hnoRead : s.piped.isReadFd ((s.nextPipeFd + 1) % 2 ^ 32) = false := by
    simp only [FdSys.isReadFd, FdSys.piped, Bool.and_eq_false_iff, beq_eq_false_iff_ne]
    exact .inr hne.symm
  have hwrites : s.piped.isWriteFd ((s.nextPipeFd + 1) % 2 ^ 32) = true := by
    simp only [FdSys.isWriteFd, FdSys.piped, Bool.and_eq_true, bne_iff_ne, beq_self_eq_true, and_true]
    exact hone
  have hread : s.piped.Right s.nextPipeFd (.pipeRead s.made) :=
    FdSys.right_pipeEnd true hrlt hr.2 hreads hnoWrite hrnone
  have hwrite : s.piped.Right ((s.nextPipeFd + 1) % 2 ^ 32) (.pipeWrite s.made) :=
    FdSys.right_pipeEnd false hwlt hw.2 hnoRead hwrites hwnone
  have hfirst : FdsApart (h ++ [.opened s.nextPipeFd (.pipeRead s.made)]) s.piped :=
    hp.opened hrlt (fun o' ho' => absurd ho' (hr.1 o')) hread (Nat.lt_succ_self _) rfl rfl rfl (Nat.le_refl _) rfl
      hp.nextSock hp.nextId (fun _ _ => rfl) fun raw hraw => by rw [hrnone] at hraw; cases hraw
  rw [show ∀ a b : FdEvent, h ++ [a, b] = h ++ [a] ++ [b] from fun a b => by simp]
  refine hfirst.opened hwlt (fun o' ho' => ?_) hwrite (Nat.lt_succ_self _) rfl rfl rfl (Nat.le_refl _) rfl
    hp.nextSock hp.nextId (fun _ _ => rfl) fun raw hraw => by rw [hwnone] at hraw; cases hraw
  rcases openFd_opened.mp ho' with ⟨he, -⟩ | ho'
  · exact absurd he hne
  · exact absurd ho' (hw.1 o')

theorem of_pipeOpened (ht : FdsApart h s)
    (hu : Unambiguous
      (h ++ [.opened s.nextPipeFd (.pipeRead s.made), .opened ((s.nextPipeFd + 1) % 2 ^ 32) (.pipeWrite s.made)])
      s.piped) :
    (Vacant h s.nextPipeFd ∧ ¬ Reserved s.nextPipeFd) ∧ Vacant h ((s.nextPipeFd + 1) % 2 ^ 32) ∧
      ¬ Reserved ((s.nextPipeFd + 1) % 2 ^ 32) ∧ (s.nextPipeFd + 1) % 2 ^ 32 ≠ minusOne := by
  rw [show ∀ a b : FdEvent, h ++ [a, b] = h ++ [a] ++ [b] from fun a b => by simp] at hu
  obtain ⟨hsame, hwrite⟩ := hu.opened
  obtain ⟨hd, hr⟩ := unambiguous_iff.mp hu
  have hopen : OpenFd (h ++ [.opened s.nextPipeFd (.pipeRead s.made)] ++
      [.opened ((s.nextPipeFd + 1) % 2 ^ 32) (.pipeWrite s.made)]) s.nextPipeFd (.pipeRead s.made) :=
    openFd_opened.mpr (.inr (openFd_opened.mpr (.inl ⟨rfl, rfl⟩)))
  refine ⟨⟨ht.vacant (o := .pipeRead s.made) (fun o' ho' => ?_) (Nat.lt_irrefl _),
      (hr _ _ hopen).not_reserved (by simp)⟩,
    ht.vacant (o := .pipeWrite s.made) (fun o' ho' => ?_) (Nat.lt_irrefl _), hwrite.not_reserved (by simp),
    fun hone => ?_⟩
  · exact hd _ o' _ (openFd_opened.mpr (.inr (openFd_opened.mpr (.inr ho')))) hopen
  · exact hsame o' (openFd_opened.mpr (.inr ho'))
  · have hlt : (s.nextPipeFd + 1) % 2 ^ 32 < 2 ^ 32 := Nat.mod_lt _ (by decide)
    have hp := hwrite.atPipe hlt (.inr rfl)
    rw [hone] at hp
    rcases hp with hp | hp <;> simp [FdSys.isReadFd, FdSys.isWriteFd] at hp

/-- `close` removes the entry of the number, and there is none where it leaves the table alone. -/
theorem sysClose_table (ht : FdsApart h s) (fd : Nat) :
    ∃ t, (s.sysClose fd).2 = { s with table := t } ∧ t.nextId = s.table.nextId ∧ t.table[fd % 2 ^ 32]? = none ∧
      ∀ m, m ≠ fd % 2 ^ 32 → t.table[m]? = s.table.table[m]? := by
  have hkeep : Reserved (fd % 2 ^ 32) ∨ s.AtPipe (fd % 2 ^ 32) → s.table.table[fd % 2 ^ 32]? = none := by
    intro hn
    cases hraw : s.table.table[fd % 2 ^ 32]? with
    | none => rfl
    | some raw => exact absurd hn (by rw [not_or]; exact ht.entry_off hraw)
  unfold FdSys.sysClose
  split
  · next hfd => exact ⟨s.table, rfl, rfl, hkeep (.inl (.inl (by omega))), fun _ _ => rfl⟩
  split
  · next hfd => exact ⟨s.table, rfl, rfl, hkeep (.inl (.inl (by omega))), fun _ _ => rfl⟩
  split
  · next hfd => exact ⟨s.table, rfl, rfl, hkeep (.inl (.inr (by rw [hfd]; rfl))), fun _ _ => rfl⟩
  split
  · next hr => exact ⟨s.table, rfl, rfl, hkeep (.inr (.inl hr)), fun _ _ => rfl⟩
  split
  · next hw => exact ⟨s.table, rfl, rfl, hkeep (.inr (.inr hw)), fun _ _ => rfl⟩
  · refine ⟨_, rfl, rfl, Std.ExtTreeMap.getElem?_erase_self, fun m hm => ?_⟩
    exact Std.ExtTreeMap.getElem?_erase.trans (if_neg fun he => hm (Nat.compare_eq_eq.mp he).symm)

theorem closed (ht : FdsApart h s) (fd : Nat) : FdsApart (h ++ [.closed (fd % 2 ^ 32)]) (s.sysClose fd).2 := by
  obtain ⟨t, hs', hid, hnone, htable⟩ := ht.sysClose_table fd
  rw [hs']
  refine { unambiguous := ?_, booked := ?_, older := ?_, small := ?_, ends := ht.ends, nextId := hid ▸ ht.nextId,
           nextPipe := ht.nextPipe, nextSock := ht.nextSock }
  · refine unambiguous_iff.mpr ⟨fun n o o' ho ho' => ?_, fun n o ho use => ?_⟩
    · exact ht.unambiguous.distinct n o o' (openFd_closed.mp ho).2 (openFd_closed.mp ho').2
    · obtain ⟨hne, ho⟩ := openFd_closed.mp ho
      have hne' : n % 2 ^ 32 ≠ fd % 2 ^ 32 := by
        rw [Nat.mod_eq_of_lt (ht.small n o ho)]
        exact hne.symm
      have hright : FdSys.Right { s with table := t } n o := (ht.right ho).congr rfl rfl rfl (htable _ hne')
      exact hright use
  · intro n raw hraw
    have hne : n ≠ fd % 2 ^ 32 := by
      intro h
      obtain rfl := h
      rw [hnone] at hraw
      cases hraw
    exact openFd_closed.mpr ⟨hne.symm, ht.booked n raw ((htable n hne).symm.trans hraw)⟩
  · exact fun n o ho => ht.older n o (openFd_closed.mp ho).2
  · exact fun n o ho => ht.small n o (openFd_closed.mp ho).2

theorem stub (ht : FdsApart h s) : FdsApart (h ++ [.opened fdDevNull .null]) s := by
  have hp : ¬ s.AtPipe fdDevNull := fun hp => ht.ends _ hp (.inr rfl)
  refine ht.opened (by decide) (fun o' ho' => ?_) (FdSys.right_null hp) trivial rfl rfl rfl (Nat.le_refl _) rfl
    ht.nextSock ht.nextId (fun _ _ => rfl) fun raw hraw => absurd (.inr rfl) (ht.entry_off hraw).1
  exact (ht.right ho').close_eq rfl

end FdsApart

open FdSys

namespace FdsApart

/-- `open` keeps the descriptors apart if the number in the table is clear, and makes them ambiguous if not. -/
theorem step_open {vfs : VfsView} {path : Option Path} {flags : Nat} {r : Int} (ht : FdsApart h s)
    (hopen : s.sysOpenImpl vfs path flags = some (r, s')) :
    (s.Clear h (.open vfs path flags) → FdsApart (h ++ handOut r (s'.openedObject path r.toNat)) s') ∧
      (Unambiguous (h ++ handOut r (s'.openedObject path r.toNat)) s' → s.Clear h (.open vfs path flags)) := by
  cases sysOpenImpl_cases hopen with
  | refused he hzero hentry =>
    have hno : handOut r (s.openedObject path r.toNat) = [] := if_pos he
    rw [hno, List.append_nil]
    exact ⟨fun _ => ht, fun _ => ⟨hzero, fun h => by rw [hentry] at h; cases h⟩⟩
  | stub hpath hentry =>
    rcases hpath with rfl | rfl
    · have hnull : ¬ (some "/dev/null".toList = some "/dev/zero".toList) := by decide
      exact ⟨fun _ => ht.stub, fun _ => ⟨hnull, fun h => by cases h⟩⟩
    · refine ⟨fun hc => absurd rfl hc.1, fun hu => ?_⟩
      have hright : s.Right fdDevNull .zero := hu.opened.2
      cases hright.close_eq rfl
  | @entered T new rights fd s₂ hserial hreg hnull hzero hentry =>
    obtain ⟨hfd, -, hs'⟩ := register_spec hreg
    have hself : s'.table.table[fd]? = some ⟨⟨T, new s.made⟩, rights⟩ := by
      rw [hs']
      exact Std.ExtTreeMap.getElem?_insert_self
    have hes : handOut fd (s'.openedObject path (fd : Int).toNat) =
        [.opened fd (RawCapability.toObject ⟨⟨T, new s.made⟩, rights⟩)] := by
      rw [handOut, if_neg (by omega), openedObject, if_neg hnull, if_neg hzero, Int.toNat_natCast, hself]
      rfl
    obtain ⟨hkeep, hneed⟩ := ht.entered hserial hreg rfl
    rw [hes]
    rw [hfd] at hkeep hneed ⊢
    exact ⟨fun hc => hkeep (hc.2 hentry), fun hu => ⟨hzero, fun _ => hneed hu⟩⟩

theorem step_pipe {fdsVaddr : Nat} {es : List FdEvent} (ht : FdsApart h s)
    (hs : s.step (.pipe fdsVaddr) = some (es, s')) :
    (s.Clear h (.pipe fdsVaddr) → FdsApart (h ++ es) s') ∧
      (Unambiguous (h ++ es) s' → s.Clear h (.pipe fdsVaddr)) := by
  obtain ⟨⟨r, ends, s₁⟩, hpipe, hr⟩ := Option.map_eq_some_iff.mp hs
  unfold sysPipe at hpipe
  split at hpipe
  · next h0 =>
    obtain ⟨rfl, rfl, rfl⟩ := Option.some.inj hpipe
    obtain ⟨rfl, rfl⟩ := Prod.mk.inj hr
    rw [List.append_nil]
    exact ⟨fun _ => ht, fun _ hne => absurd h0 hne⟩
  · next h0 =>
    simp only at hpipe
    split at hpipe
    · cases hpipe
    · obtain ⟨rfl, rfl, rfl⟩ := Option.some.inj hpipe
      obtain ⟨rfl, rfl⟩ := Prod.mk.inj hr
      refine ⟨fun hc => ?_, fun hu _ => ht.of_pipeOpened hu⟩
      obtain ⟨hr, hv, hn, hone⟩ := hc h0
      exact ht.pipeOpened hr ⟨hv, hn⟩ hone

theorem step_socket {domain sockType : Nat} {es : List FdEvent} (ht : FdsApart h s)
    (hs : s.step (.socket domain sockType) = some (es, s')) :
    (s.Clear h (.socket domain sockType) → FdsApart (h ++ es) s') ∧
      (Unambiguous (h ++ es) s' → s.Clear h (.socket domain sockType)) := by
  simp only [FdSys.step, sysSocket, Option.some.injEq] at hs
  split at hs
  · next e herr =>
    have hno : handOut e (some (.socket s.made)) = [] := if_pos (sockError_neg herr)
    obtain ⟨rfl, rfl⟩ := Prod.mk.inj hs
    rw [hno, List.append_nil]
    exact ⟨fun _ => ht, fun _ hok => by rw [herr] at hok; cases hok⟩
  · next hok =>
    obtain ⟨rfl, rfl⟩ := Prod.mk.inj hs
    by_cases hlt : s.sockNextFd < 2 ^ 31
    · have hes : handOut (asI32 s.sockNextFd) (some (.socket s.made)) = [.opened s.sockNextFd (.socket s.made)] := by
        rw [asI32, if_pos hlt, handOut, if_neg (by omega), Int.toNat_natCast]
        rfl
      obtain ⟨hkeep, hneed⟩ := ht.idle (o := .socket s.made) (k := (s.sockNextFd + 1) % 2 ^ 32)
        ht.nextSock (Nat.mod_lt _ (by decide)) (fun _ _ => id) (fun _ => Iff.rfl)
      rw [hes]
      exact ⟨fun hc => hkeep (hc hok hlt), fun hu _ _ => hneed hu⟩
    · -- the number is negative as an `i32`
      have hno : handOut (asI32 s.sockNextFd) (some (.socket s.made)) = [] := by
        rw [asI32, if_neg hlt]
        have := ht.nextSock
        exact if_pos (by omega)
      rw [hno, List.append_nil]
      exact ⟨fun _ => ht.counted (Nat.mod_lt _ (by decide)), fun _ _ hlt' => absurd hlt' hlt⟩

/-- One call keeps the descriptors apart if its number is clear, and makes them ambiguous if not. -/
theorem step {a : FdCall} {es : List FdEvent} (ht : FdsApart h s) (hs : s.step a = some (es, s')) :
    (s.Clear h a → FdsApart (h ++ es) s') ∧ (Unambiguous (h ++ es) s' → s.Clear h a) := by
  cases a with
  | «open» vfs path flags =>
    obtain ⟨⟨r, s₁⟩, hopen, hr⟩ := Option.map_eq_some_iff.mp hs
    obtain ⟨rfl, rfl⟩ := Prod.mk.inj hr
    exact ht.step_open hopen
  | pipe fdsVaddr => exact ht.step_pipe hs
  | socket domain sockType => exact ht.step_socket hs
  | epollCreate =>
    obtain ⟨rfl, rfl⟩ := Prod.mk.inj (Option.some.inj hs)
    have hn : ¬ Reserved 9 := by decide
    obtain ⟨hkeep, hneed⟩ := ht.idle (n := 9) (o := .epoll s.made) (k := s.sockNextFd) (by decide)
      ht.nextSock (fun _ _ => id) (fun _ => Iff.rfl)
    exact ⟨fun hc => hkeep ⟨hc.1, hn, hc.2⟩, fun hu => ⟨(hneed hu).1, (hneed hu).2.2⟩⟩
  | close fd =>
    obtain ⟨rfl, rfl⟩ := Prod.mk.inj (Option.some.inj hs)
    exact ⟨fun _ => ht.closed fd, fun _ => trivial⟩

end FdsApart

/-- In a run whose calls are all clear the descriptors are unambiguous, and
one more call leaves them so just in case it is clear too. -/
theorem fds_unambiguous_iff (hr : Runs FdSys.step FdSys.Clear .boot h s) :
    Unambiguous h s ∧ ∀ a es s', s.step a = some (es, s') → (Unambiguous (h ++ es) s' ↔ s.Clear h a) := by
  have ht : FdsApart h s := hr.invariant FdsApart FdsApart.boot fun ht hc hs => (ht.step hs).1 hc
  exact ⟨ht.unambiguous, fun a es s' hs => ⟨(ht.step hs).2, fun hc => ((ht.step hs).1 hc).unambiguous⟩⟩

/-- A file system in which every path is a file of one byte. -/
def plainVfs : VfsView where
  existsAny _ := true
  procRead _ := none
  procExists _ := false
  nodeFor _ := none
  openWritable _ _ := none
  openReadonly _ := some [0]
  isDir _ := false

/-- The first file opened has the number 3, and reading there reads the file. -/
theorem fds_unambiguous_first :
    ∃ h s, Runs FdSys.step FdSys.Clear .boot h s ∧ Unambiguous h s ∧
      OpenFd h 3 (.resource 0 .file Rights.read) ∧ s.reach .read 3 = some (.resource 0 .file Rights.read) ∧
      ¬ Unambiguous (h ++ [.opened fdDevNull .zero]) s := by
  have hclear : FdSys.Clear [] .boot (.open plainVfs (some "/f".toList) 0) := by
    refine ⟨by decide, fun _ => ⟨fun _ => since_nil, by decide, ?_⟩⟩
    simp [AtPipe, isReadFd, isWriteFd, boot]
  obtain ⟨⟨h, s⟩, hs⟩ : ∃ r, FdSys.boot.step (.open plainVfs (some "/f".toList) 0) = some r := ⟨_, rfl⟩
  have hr := Runs.start.next hclear hs
  obtain ⟨hu, hnext⟩ := fds_unambiguous_iff hr
  obtain ⟨rfl, rfl⟩ := Prod.mk.inj (Option.some.inj hs)
  have hopen : OpenFd ([] ++ [.opened 3 (.resource 0 .file Rights.read)]) 3 (.resource 0 .file Rights.read) :=
    openFd_opened.mpr (.inl ⟨rfl, rfl⟩)
  have hserves : Rights.read.contains Rights.read = true := rfl
  refine ⟨_, _, hr, hu, hopen, hu.serves 3 _ .read hopen hserves, fun hzero => ?_⟩
  exact ((hnext (.open plainVfs (some "/dev/zero".toList) 0) _ _ rfl).mp hzero).1 rfl

/-- The seventh file and the epoll instance are both 9; the eighth file and a
pipe are both 10, where a read goes to the pipe. -/
theorem fds_collide :
    ∃ h s, Runs FdSys.step free .boot h s ∧ OpenFd h 9 (.resource 6 .file Rights.read) ∧ OpenFd h 9 (.epoll 8) ∧
      OpenFd h 10 (.resource 7 .file Rights.read) ∧ s.reach .read 10 = some (.pipeRead 9) := by
  obtain ⟨h, s, hr, hP⟩ := Runs.of_exec FdSys.step free .boot
    (List.replicate 8 (.open plainVfs (some "/f".toList) 0) ++ [.epollCreate, .pipe 4096])
    (fun h s => decide (OpenFd h 9 (.resource 6 .file Rights.read) ∧ OpenFd h 9 (.epoll 8) ∧
      OpenFd h 10 (.resource 7 .file Rights.read) ∧ s.reach .read 10 = some (.pipeRead 9))) (by decide)
  exact ⟨h, s, hr, of_decide_eq_true hP⟩

end
end ChodOs
