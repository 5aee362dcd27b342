/-
The table of user processes and threads (`process/userproc.rs`): 16 slots
and the current one. What the operations do to memory is in `User.Threads`;
here are the entries, the allocation cursors and the searches.
-/
import ChodOs.User.Vma

namespace ChodOs

def Uprocs.maxProcs : Nat := 16
def kstackSize : Nat := 64 * 1024
def isrFrameSize : Nat := 112

/-- `u64::MAX` where it stands for any child, and as a system call's result for -1. -/
def anyChild : Nat := 2 ^ 64 - 1

/-- The user half ends here: `0x0000_8000_0000_0000`. -/
def userEnd : Nat := 2 ^ 47

/-- `EAGAIN` and the others, as the unsigned number a register holds. -/
def errno (n : Nat) : Nat := 2 ^ 64 - n

/-- `(a + 0xFFF) & !0xFFF`. `none`: overflow. -/
def pageUp (a : Nat) : Option Nat := (addU64 a 4095).map fun b => b / pageSize * pageSize

/-- `SigAction`. -/
structure SigAction where
  /-- `SIG_DFL` is 0, `SIG_IGN` is 1, anything else is an address. -/
  handler : Nat
  flags : BitVec 64
  mask : BitVec 64
  deriving DecidableEq

def nsig : Nat := 32

/-- `SigAction::default`. -/
def SigAction.default : SigAction := { handler := 0, flags := 0#64, mask := 0#64 }

/-- `UState`. -/
inductive UState
  | empty
  | ready
  | running
  | waiting (child : Nat)
  | zombie (code : Int)
  | blocked (uaddr : Nat)
  deriving DecidableEq

/-- `UserProc`. Its kernel stack is the address of the buffer. -/
structure UserProc where
  pid : Nat
  parentPid : Nat
  state : UState
  userCr3 : Nat
  kstack : Nat
  savedFrameRsp : Nat
  sigHandlers : Table SigAction nsig
  sigMask : BitVec 64
  pendingSigs : BitVec 64
  fsBase : Nat
  /-- 0: not a thread. -/
  threadGroupPid : Nat
  childTidPtr : Nat
  cwd : String
  mmapNext : Nat
  brkBase : Nat
  brkCur : Nat
  deriving DecidableEq

/-- `kstack_top`. -/
def UserProc.kstackTop (p : UserProc) : Nat := p.kstack + kstackSize

/-- The entry that `register` makes. -/
def UserProc.new (pid parentPid userCr3 kstack : Nat) : UserProc where
  pid
  parentPid
  state := .running
  userCr3
  kstack
  savedFrameRsp := 0
  sigHandlers := .fill nsig .default
  sigMask := 0#64
  pendingSigs := 0#64
  fsBase := 0
  threadGroupPid := 0
  childTidPtr := 0
  cwd := "/"
  mmapNext := 0x40000000
  brkBase := 0
  brkCur := 0

/-- The entry that `fork_current` makes for a child of `p`; its frame is at the top of its kernel stack. -/
def UserProc.forked (p : UserProc) (pid userCr3 kstack : Nat) : UserProc where
  pid
  parentPid := p.pid
  state := .ready
  userCr3
  kstack
  savedFrameRsp := kstack + kstackSize - isrFrameSize
  sigHandlers := p.sigHandlers
  sigMask := p.sigMask
  pendingSigs := 0#64
  fsBase := 0
  threadGroupPid := 0
  childTidPtr := 0
  cwd := p.cwd
  mmapNext := p.mmapNext
  brkBase := p.brkBase
  brkCur := p.brkCur

/-- The new break that `sys_brk` would set. -/
def UserProc.brkTarget (p : UserProc) (addr : Nat) : Option Nat :=
  if addr = 0 ∨ addr < p.brkBase then none else pageUp addr

/-- `USER_PROCS` and `CURRENT_UPROC`. -/
structure Uprocs where
  slots : Table (Option UserProc) Uprocs.maxProcs
  current : Nat

namespace Uprocs

/-- The entry in a slot. -/
def at? (u : Uprocs) (i : Nat) : Option UserProc := (u.slots.1[i]?).join

/-- `table()[CURRENT_UPROC]`. -/
def cur (u : Uprocs) : Option UserProc := u.at? u.current

/-- Slot `i` is rewritten, if it is taken. -/
def modify (u : Uprocs) (i : Nat) (f : UserProc → UserProc) : Uprocs := { u with slots := u.slots.modify i (·.map f) }

/-- `if let Some(ref mut p) = table()[cur]`. -/
def update (u : Uprocs) (f : UserProc → UserProc) : Uprocs := u.modify u.current f

/-- `table()[i] = None`. -/
def clear (u : Uprocs) (i : Nat) : Uprocs := { u with slots := u.slots.set i none }

/-- The first empty slot is taken; nothing happens when there is none. -/
def insert (u : Uprocs) (p : UserProc) : Uprocs :=
  { u with slots := u.slots.updateFirst (·.isNone) fun _ => some p }

/-- `current_pid`. -/
def currentPid (u : Uprocs) : Nat := (u.cur.map (·.pid)).getD 0

/-- `current_cr3`. -/
def currentCr3 (u : Uprocs) : Nat := (u.cur.map (·.userCr3)).getD 0

/-- `is_forked_child`. -/
def isForkedChild (u : Uprocs) : Bool := (u.cur.map (·.parentPid != 0)).getD false

/-- `register`, with the top of the kernel stack that becomes current. A new
entry gets the stack at `kstack`; without a slot nothing changes. -/
def register (u : Uprocs) (pid parentPid userCr3 kstack : Nat) : Option Nat × Uprocs :=
  match u.slots.1.findIdx? fun s => s.map (·.pid) == some pid with
  | some i =>
    let u := { u.modify i (fun p => { p with userCr3, state := .running }) with current := i }
    (u.cur.map (·.kstackTop), u)
  | none =>
    match u.slots.1.findIdx? (·.isNone) with
    | some i =>
      (some (kstack + kstackSize),
        { slots := u.slots.set i (some (.new pid parentPid userCr3 kstack)), current := i })
    | none => (none, u)

/-- `set_brk_base`. `none`: overflow. -/
def setBrkBase (u : Uprocs) (stop : Nat) : Option Uprocs :=
  match u.cur with
  | none => some u
  | some _ => do
    let aligned ← pageUp stop
    some (u.update fun p => { p with brkBase := aligned, brkCur := aligned })

/-- What `sys_brk` inserts into the VMA table. -/
def brkGrow (vmas : VmaTable) (old new : Nat) : VmaTable :=
  if old < new then vmas.insert old ((new - old + 4095) / 4096) 3 true else vmas

/-- `sys_brk`: the new break. `none`: overflow. -/
def sysBrk (u : Uprocs) (vmas : VmaTable) (addr : Nat) : Option (Nat × Uprocs × VmaTable) :=
  match u.cur with
  | none => some (errno 12, u, vmas)
  | some p =>
    if addr = 0 ∨ addr < p.brkBase then some (p.brkCur, u, vmas)
    else do
      let newBrk ← pageUp addr
      some (newBrk, u.update fun p => { p with brkCur := newBrk }, brkGrow vmas p.brkCur newBrk)

/-- `alloc_mmap_vaddr`. `none`: overflow. -/
def allocMmapVaddr (u : Uprocs) (pages : Nat) : Option (Nat × Uprocs) :=
  match u.cur with
  | none => some (0x40000000, u)
  | some p => do
    let next ← addU64 p.mmapNext (pages * 4096)
    some (p.mmapNext, u.update fun p => { p with mmapNext := next })

/-- `sys_set_tid_address`. -/
def sysSetTidAddress (u : Uprocs) (tidptr : Nat) : Nat × Uprocs :=
  (u.currentPid, u.update fun p => { p with childTidPtr := tidptr })

/-- `find_child`: threads are not waited for. -/
def findChild (u : Uprocs) (parentPid target : Nat) : Option Nat :=
  u.slots.1.findIdx? fun s => s.any fun p =>
    p.parentPid == parentPid && (target == anyChild || p.pid == target) && p.threadGroupPid == 0

/-- `find_next_ready_from`: the first ready slot from `start` on, around the table. -/
def findNextReadyFrom (u : Uprocs) (start : Nat) : Option Nat :=
  ((List.range maxProcs).map fun i => (start + i) % maxProcs).find? fun i =>
    (u.at? i).any fun p => p.state == .ready

/-- One turn of the loop of `futex_wake_impl`. -/
def wakeTurn (limit uaddr woken : Nat) (s : Option UserProc) : Nat × Option UserProc :=
  if woken < limit ∧ (s.any fun p => p.state == .blocked uaddr) then
    (woken + 1, s.map fun p => { p with state := .ready })
  else (woken, s)

/-- `futex_wake_impl`: the number woken. The limit is compared as a signed
number, so that a limit of `u64::MAX` wakes nobody. -/
def futexWake (u : Uprocs) (uaddr maxCount : Nat) : Nat × Uprocs :=
  let (woken, slots) := u.slots.mapAccum (wakeTurn (if maxCount < 2 ^ 63 then maxCount else 0) uaddr) 0
  (woken, { u with slots })

/-! ## Reading a slot back -/

variable {u : Uprocs} {i j : Nat} {p : UserProc} {f : UserProc → UserProc}

@[simp] theorem current_modify : (u.modify i f).current = u.current := rfl

@[simp] theorem current_update : (u.update f).current = u.current := rfl

theorem at?_modify : (u.modify i f).at? j = if i = j then (u.at? j).map f else u.at? j := by
  simp only [at?, modify, Table.modify, List.getElem?_modify]
  split <;> cases u.slots.1[j]? <;> rfl

@[simp] theorem at?_modify_self : (u.modify i f).at? i = (u.at? i).map f := by rw [at?_modify, if_pos rfl]

@[simp] theorem cur_update : (u.update f).cur = u.cur.map f := at?_modify_self

theorem at?_update : (u.update f).at? j = if u.current = j then (u.at? j).map f else u.at? j := at?_modify

theorem at?_lt (h : u.at? i = some p) : i < maxProcs := by
  by_contra hi
  have hnone : u.slots.1[i]? = none := List.getElem?_eq_none (by rw [u.slots.2]; omega)
  rw [at?, hnone] at h
  cases h

theorem mem_of_at? (h : u.at? i = some p) : some p ∈ u.slots.1 := by
  rw [at?, Option.join_eq_some_iff] at h
  exact List.mem_of_getElem? h

theorem at?_clear : (u.clear i).at? j = if i = j then none else u.at? j := by
  simp only [at?, clear, Table.set, List.getElem?_set]
  split
  · next hij => split <;> rfl
  · rfl

@[simp] theorem current_clear : (u.clear i).current = u.current := rfl

@[simp] theorem current_insert : (u.insert p).current = u.current := rfl

@[simp] theorem current_futexWake {uaddr maxCount : Nat} : (u.futexWake uaddr maxCount).2.current = u.current := rfl

theorem at?_set {p' : Option UserProc} (hi : i < maxProcs) :
    at? { u with slots := u.slots.set i p' } j = if i = j then p' else u.at? j := by
  simp only [at?, Table.set, List.getElem?_set, u.slots.2, if_pos hi]
  split <;> rfl

/-- A new entry goes into an empty slot, if there is one. -/
theorem insert_cases (u : Uprocs) (p : UserProc) : ((∀ i < maxProcs, u.at? i ≠ none) ∧ u.insert p = u) ∨
    ∃ i < maxProcs, u.at? i = none ∧ ∀ j, (u.insert p).at? j = if i = j then some p else u.at? j := by
  rcases Slots.updateFirst_eq_set (fun s : Option UserProc => s.isNone) (fun _ => some p) u.slots.1 with
    ⟨hfull, h⟩ | ⟨i, s, hi, hs, h⟩
  · refine .inl ⟨fun i hi hnone => ?_, ?_⟩
    · have hlt : i < u.slots.1.length := u.slots.2.symm ▸ hi
      rw [at?, List.getElem?_eq_getElem hlt, Option.join_some] at hnone
      have hsome := hfull _ (List.getElem_mem hlt)
      rw [hnone] at hsome
      cases hsome
    · exact congrArg (fun l => ({ u with slots := l } : Uprocs)) (Subtype.ext h)
  · obtain rfl := Option.isNone_iff_eq_none.mp hs
    have hlt : i < maxProcs := u.slots.2 ▸ (List.getElem?_eq_some_iff.mp hi).1
    refine .inr ⟨i, hlt, by rw [at?, hi]; rfl, fun j => ?_⟩
    rw [← at?_set hlt]
    exact congrArg (fun l : List (Option UserProc) => (l[j]?).join) h

theorem at?_insert_of_some {q : UserProc} (h : u.at? i = some q) : (u.insert p).at? i = some q := by
  rcases insert_cases u p with ⟨-, he⟩ | ⟨k, -, hnone, hat⟩
  · rw [he, h]
  · rw [hat, if_neg, h]
    intro hki
    rw [hki, h] at hnone
    cases hnone

/-- A slot is woken from this address or left alone. -/
theorem at?_futexWake (u : Uprocs) (i uaddr maxCount : Nat) : (u.futexWake uaddr maxCount).2.at? i = u.at? i ∨
    ∃ p, u.at? i = some p ∧ p.state = .blocked uaddr ∧
      (u.futexWake uaddr maxCount).2.at? i = some { p with state := .ready } := by
  let R (o o' : Option UserProc) : Prop :=
    o' = o ∨ ∃ p, o = some p ∧ p.state = .blocked uaddr ∧ o' = some { p with state := .ready }
  have hturn : ∀ limit woken o, R o (wakeTurn limit uaddr woken o).2 := by
    intro limit woken o
    unfold wakeTurn
    split
    · next h =>
      obtain ⟨p, hp, hb⟩ := (Option.any_eq_true _ _).mp h.2
      exact .inr ⟨p, hp, beq_iff_eq.mp hb, by rw [hp]; rfl⟩
    · exact .inl rfl
  have hall := Slots.mapAccum_forall₂ (hturn (if maxCount < 2 ^ 63 then maxCount else 0)) 0 u.slots.1
  have hat : ∀ o, u.slots.1[i]? = some o → ∃ o', (u.futexWake uaddr maxCount).2.slots.1[i]? = some o' ∧ R o o' := by
    intro o ho
    obtain ⟨hi, rfl⟩ := List.getElem?_eq_some_iff.mp ho
    exact ⟨_, List.getElem?_eq_getElem (hall.length_eq ▸ hi), hall.get hi (hall.length_eq ▸ hi)⟩
  cases ho : u.slots.1[i]? with
  | none =>
    have hnone : (u.futexWake uaddr maxCount).2.slots.1[i]? = none := by
      rw [List.getElem?_eq_none_iff, (u.futexWake uaddr maxCount).2.slots.2, ← u.slots.2, ← List.getElem?_eq_none_iff]
      exact ho
    exact .inl (by rw [at?, at?, hnone, ho])
  | some o =>
    obtain ⟨o', ho', rfl | ⟨p, rfl, hb, rfl⟩⟩ := hat o ho
    · exact .inl (by rw [at?, at?, ho', ho])
    · exact .inr ⟨p, by rw [at?, ho]; rfl, hb, by rw [at?, ho']; rfl⟩

/-- A pid that is new takes an empty slot, or nothing happens. -/
theorem register_cases {pid parentPid userCr3 kstack : Nat} (hfresh : ∀ i q, u.at? i = some q → q.pid ≠ pid) :
    ((∀ i < maxProcs, u.at? i ≠ none) ∧ u.register pid parentPid userCr3 kstack = (none, u)) ∨
      ∃ i < maxProcs, u.at? i = none ∧ (u.register pid parentPid userCr3 kstack).2.current = i ∧
        ∀ j, (u.register pid parentPid userCr3 kstack).2.at? j =
          if i = j then some (.new pid parentPid userCr3 kstack) else u.at? j := by
  have hnew : (u.slots.1.findIdx? fun s => s.map (·.pid) == some pid) = none := by
    refine List.findIdx?_eq_none_iff.mpr fun o ho => ?_
    obtain ⟨i, hi⟩ := List.mem_iff_getElem?.mp ho
    cases o with
    | none => rfl
    | some q =>
      have hat : u.at? i = some q := by rw [at?, hi]; rfl
      exact beq_eq_false_iff_ne.mpr fun he => hfresh i q hat (Option.some.inj he)
  cases hf : u.slots.1.findIdx? (·.isNone) with
  | none =>
    refine .inl ⟨fun i hi hnone => ?_, by rw [register, hnew, hf]⟩
    have hlt : i < u.slots.1.length := u.slots.2.symm ▸ hi
    have hsome := List.findIdx?_eq_none_iff.mp hf _ (List.getElem_mem hlt)
    rw [at?, List.getElem?_eq_getElem hlt, Option.join_some] at hnone
    rw [hnone] at hsome
    cases hsome
  | some i =>
    obtain ⟨hi, hnone, -⟩ := List.findIdx?_eq_some_iff_getElem.mp hf
    have hlt : i < maxProcs := u.slots.2 ▸ hi
    have hreg : (u.register pid parentPid userCr3 kstack).2 =
        { slots := u.slots.set i (some (.new pid parentPid userCr3 kstack)), current := i } := by
      rw [register, hnew, hf]
    refine .inr ⟨i, hlt, ?_, by rw [hreg], fun j => by rw [hreg]; exact at?_set hlt⟩
    rw [at?, List.getElem?_eq_getElem hi, Option.isNone_iff_eq_none.mp hnone]
    rfl

theorem findChild_spec {parentPid target : Nat} (h : u.findChild parentPid target = some i) : ∃ p, u.at? i = some p ∧
    p.parentPid = parentPid ∧ (target = anyChild ∨ p.pid = target) ∧ p.threadGroupPid = 0 := by
  obtain ⟨hi, hp, -⟩ := List.findIdx?_eq_some_iff_getElem.mp h
  obtain ⟨p, hat, hp⟩ := (Option.any_eq_true _ _).mp hp
  simp only [Bool.and_eq_true, Bool.or_eq_true, beq_iff_eq] at hp
  exact ⟨p, by rw [at?, List.getElem?_eq_getElem hi, hat]; rfl, hp.1.1, hp.1.2, hp.2⟩

theorem findNextReadyFrom_spec {start : Nat} (h : u.findNextReadyFrom start = some i) :
    ∃ p, u.at? i = some p ∧ p.state = .ready := by
  have hready := List.find?_some h
  obtain ⟨p, hp, hs⟩ := (Option.any_eq_true _ _).mp hready
  exact ⟨p, hp, beq_iff_eq.mp hs⟩

/-- The search goes all the way around. -/
theorem findNextReadyFrom_eq_none {start : Nat} (h : u.findNextReadyFrom start = none) (hp : u.at? i = some p) :
    p.state ≠ .ready := by
  have hi := at?_lt hp
  have hslot : i ∈ (List.range maxProcs).map fun k => (start + k) % maxProcs := by
    simp only [List.mem_map, List.mem_range, maxProcs] at *
    exact ⟨(16 + i - start % 16) % 16, by omega, by omega⟩
  have hno := List.find?_eq_none.mp h i hslot
  intro hready
  rw [hp] at hno
  exact hno (beq_iff_eq.mpr hready)

/-- A property of every entry. -/
def All (u : Uprocs) (P : UserProc → Prop) : Prop := ∀ p, some p ∈ u.slots.1 → P p

variable {P : UserProc → Prop}

theorem All.cur (h : u.All P) (hc : u.cur = some p) : P p := h p (mem_of_at? hc)

theorem All.modify (h : u.All P) (hf : ∀ p, u.at? i = some p → P p → P (f p)) : (u.modify i f).All P := by
  intro q hq
  obtain ⟨j, hj⟩ := List.mem_iff_getElem?.mp hq
  have hat : (u.modify i f).at? j = some q := by rw [at?, hj]; rfl
  rw [at?_modify] at hat
  split at hat
  · next hij =>
    obtain ⟨p, hp, rfl⟩ := Option.map_eq_some_iff.mp hat
    exact hf p (hij ▸ hp) (h p (mem_of_at? hp))
  · exact h q (mem_of_at? hat)

theorem All.update (h : u.All P) (hf : ∀ p, u.cur = some p → P p → P (f p)) : (u.update f).All P := h.modify hf

theorem All.clear (h : u.All P) (i : Nat) : (u.clear i).All P := by
  intro q hq
  rcases List.mem_or_eq_of_mem_set hq with hq | hq
  · exact h q hq
  · cases hq

/-- A slot that the test picks is rewritten. -/
theorem All.updateFirst (h : u.All P) {t : Option UserProc → Bool} {g : Option UserProc → Option UserProc}
    (hg : ∀ o p, (∀ q, o = some q → P q) → g o = some p → P p) : All { u with slots := u.slots.updateFirst t g } P := by
  intro q hq
  rcases Slots.mem_updateFirst hq with hq | ⟨o, ho, -, hq⟩
  · exact h q hq
  · exact hg o q (fun p hp => h p (hp ▸ ho)) hq.symm

theorem All.insert (h : u.All P) (hp : P p) : (u.insert p).All P :=
  h.updateFirst fun _ _ _ hq => Option.some.inj hq ▸ hp

theorem wakeTurn_all (hP : ∀ p, P p → P { p with state := .ready }) (limit uaddr woken : Nat) {o : Option UserProc}
    (ho : ∀ p, o = some p → P p) : ∀ p, (wakeTurn limit uaddr woken o).2 = some p → P p := by
  intro p hp
  unfold wakeTurn at hp
  split at hp
  · obtain ⟨q, hq, rfl⟩ := Option.map_eq_some_iff.mp hp
    exact hP q (ho q hq)
  · exact ho p hp

theorem All.futexWake (h : u.All P) (hP : ∀ p, P p → P { p with state := .ready }) (uaddr maxCount : Nat) :
    (u.futexWake uaddr maxCount).2.All P := by
  intro q hq
  let R (o o' : Option UserProc) : Prop := (∀ p, o = some p → P p) → ∀ p, o' = some p → P p
  have hturn : ∀ woken o, R o (wakeTurn (if maxCount < 2 ^ 63 then maxCount else 0) uaddr woken o).2 := fun _ _ ho =>
    wakeTurn_all hP _ _ _ ho
  obtain ⟨o, ho, hR⟩ := Slots.forall₂_mem_right (Slots.mapAccum_forall₂ hturn 0 u.slots.1) hq
  exact hR (fun p hp => h p (hp ▸ ho)) q rfl

theorem All.register (h : u.All P) {pid parentPid userCr3 kstack : Nat}
    (hrun : ∀ p, P p → P { p with userCr3, state := .running }) (hnew : P (.new pid parentPid userCr3 kstack)) :
    (u.register pid parentPid userCr3 kstack).2.All P := by
  unfold Uprocs.register
  split
  · exact h.modify fun p _ hp => hrun p hp
  · split
    · intro q hq
      rcases List.mem_or_eq_of_mem_set hq with hq | hq
      · exact h q hq
      · exact Option.some.inj hq ▸ hnew
    · exact h

end Uprocs

end ChodOs
