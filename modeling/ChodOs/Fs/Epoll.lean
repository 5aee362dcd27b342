/-
The epoll instance (`syscall/pipe.rs`): one table of 16 slots, which
`sys_epoll_ctl` fills and `sys_epoll_wait` goes through.

The two read and write a `struct epoll_event` of the caller's each in its own
layout: `sys_epoll_ctl` has 4 bytes of padding before the data, and
`sys_epoll_wait` has none, as the packed struct of x86-64.
-/
import ChodOs.Fs.Fds
import ChodOs.Lib.ByteMem
import ChodOs.Lib.Slots

namespace ChodOs

open StepSys

/-- What decides which descriptors are ready: the pipe's two numbers, and
whether the keyboard buffer and the pipe's have something in them. -/
structure Inputs where
  fds : FdSys
  hasKey : Bool
  hasData : Bool

namespace Inputs

/-- `is_read_ready`; `fd` is a `usize`. -/
def isReadReady (w : Inputs) (fd : Nat) : Bool :=
  if fd % 2 ^ 32 = 0 then w.hasKey
  else if w.fds.isReadFd (fd % 2 ^ 32) then w.hasData
  else false

/-- `is_write_ready`. -/
def isWriteReady (w : Inputs) (fd : Nat) : Bool := fd == 1 || fd == 2 || w.fds.isWriteFd (fd % 2 ^ 32)

end Inputs

/-- A slot; `fd` is the pattern of an `i32`. -/
structure EpEntry where
  fd : Nat
  events : BitVec 32
  data : BitVec 64
  deriving DecidableEq

/-- The slots below `EP_CNT`. Those above are never read. -/
abbrev Epoll := List EpEntry

namespace Epoll

def epollMax : Nat := 16

def epollin : BitVec 32 := 1
def epollout : BitVec 32 := 4

def epollCtlAdd : Nat := 1
def epollCtlDel : Nat := 2
def epollCtlMod : Nat := 3

def sysEpollCreate (_ : Epoll) : Int × Epoll := (9, [])

/-- The branch of `EPOLL_CTL_ADD` and `EPOLL_CTL_MOD`. -/
def put (t : Epoll) (e : EpEntry) : Epoll :=
  match t.findIdx? (·.fd == e.fd) with
  | some i => t.set i e
  | none => if t.length < epollMax then t ++ [e] else t

/-- The branch of `EPOLL_CTL_DEL`. -/
def delete (t : Epoll) (fd : Nat) : Epoll :=
  match t.findIdx? (·.fd == fd) with
  | some i => Slots.swapRemove i t
  | none => t

def sysEpollCtl (t : Epoll) (mem : ByteMem) (op fd evVaddr : Nat) : Int × Epoll :=
  let fd := fd % 2 ^ 32
  let events := if evVaddr ≠ 0 then BitVec.ofNat 32 (mem.le evVaddr 4) else epollin
  let data := if evVaddr ≠ 0 then BitVec.ofNat 64 (mem.word (evVaddr + 8)) else BitVec.ofInt 64 (FdSys.asI32 fd)
  if op = epollCtlAdd ∨ op = epollCtlMod then (0, t.put ⟨fd, events, data⟩)
  else if op = epollCtlDel then (0, t.delete fd)
  else (einval, t)

/-- `ready_ev`; `fd as usize` extends the sign. -/
def readyEv (w : Inputs) (e : EpEntry) : BitVec 32 :=
  let fd := (BitVec.ofInt 64 (FdSys.asI32 e.fd)).toNat
  let r := if e.events &&& epollin ≠ 0 ∧ w.isReadReady fd = true then epollin else 0
  if e.events &&& epollout ≠ 0 ∧ w.isWriteReady fd = true then r ||| epollout else r

/-- The loop over the slots, with the records it stores, 12 bytes each. -/
def scan (w : Inputs) (evVaddr max : Nat) : Epoll → Nat → ByteMem → Nat × ByteMem
  | [], out, mem => (out, mem)
  | e :: t, out, mem =>
    if max ≤ out then (out, mem)
    else if readyEv w e ≠ 0 then
      let base := evVaddr + out * 12
      scan w evVaddr max t (out + 1)
        ((mem.patch base 4 (ByteMem.leByte (readyEv w e).toNat)).setWord (base + 4) e.data.toNat)
    else scan w evVaddr max t out mem

/-- The outer loop; each pass sees one state of the inputs. `none`: it waits for more. -/
def waitLoop (t : Epoll) (evVaddr max : Nat) (blocking : Bool) : ByteMem → List Inputs → Option (Int × ByteMem)
  | _, [] => none
  | mem, w :: ws =>
    let (out, mem) := scan w evVaddr max t 0 mem
    if 0 < out then some (out, mem)
    else if !blocking then some (0, mem)
    else waitLoop t evVaddr max blocking mem ws

def sysEpollWait (t : Epoll) (mem : ByteMem) (evVaddr maxevents timeout : Nat) (ws : List Inputs) :
    Option (Int × ByteMem) :=
  if evVaddr = 0 then some (efault, mem)
  else if maxevents = 0 then some (einval, mem)
  else waitLoop t evVaddr maxevents (timeout == 2 ^ 64 - 1 || timeout != 0) mem ws

end Epoll

/-! ### What the caller asked for -/

/-- What a descriptor is watched for, and the caller's own word for it. -/
structure Watch where
  events : BitVec 32
  data : BitVec 64
  deriving DecidableEq

/-- A call that returned 0. -/
inductive EpEvent
  | created
  | watched (fd : Nat) (w : Watch)
  | deleted (fd : Nat)
  deriving DecidableEq

inductive EpollCall
  | create
  | ctl (mem : ByteMem) (op fd evVaddr : Nat)

namespace Epoll

/-- The event that a caller supplies, in the layout in which `sys_epoll_wait`
stores one; without any, what `sys_epoll_ctl` puts in its place. -/
def supplied (mem : ByteMem) (fd evVaddr : Nat) : Watch :=
  if evVaddr ≠ 0 then ⟨BitVec.ofNat 32 (mem.le evVaddr 4), BitVec.ofNat 64 (mem.word (evVaddr + 4))⟩
  else ⟨epollin, BitVec.ofInt 64 (FdSys.asI32 fd)⟩

def asked (mem : ByteMem) (op fd evVaddr : Nat) : List EpEvent :=
  if op = epollCtlAdd ∨ op = epollCtlMod then [.watched (fd % 2 ^ 32) (supplied mem (fd % 2 ^ 32) evVaddr)]
  else if op = epollCtlDel then [.deleted (fd % 2 ^ 32)]
  else []

def step (t : Epoll) : EpollCall → Option (List EpEvent × Epoll)
  | .create => some ([.created], (sysEpollCreate t).2)
  | .ctl mem op fd evVaddr =>
    let (r, t') := t.sysEpollCtl mem op fd evVaddr
    some (if r = 0 then asked mem op fd evVaddr else [], t')

/-- What `fd` is watched for: what its last ADD or MOD supplied, unless it was deleted since. -/
def wanted (h : List EpEvent) (fd : Nat) : Option Watch :=
  h.foldl (fun o e => match e with
    | .created => none
    | .watched fd' w => if fd' = fd then some w else o
    | .deleted fd' => if fd' = fd then none else o) none

end Epoll

namespace Inputs

/-- The events that `fd` is ready for. -/
def mask (w : Inputs) (fd : Nat) : BitVec 32 :=
  let fd := (BitVec.ofInt 64 (FdSys.asI32 fd)).toNat
  (if w.isReadReady fd then Epoll.epollin else 0) ||| if w.isWriteReady fd then Epoll.epollout else 0

/-- The inputs after some calls that open and close descriptors. -/
def Reachable (w : Inputs) : Prop := ∃ h, Runs FdSys.step free FdSys.boot h w.fds

end Inputs

namespace Epoll

/-- The `n` records from `evVaddr`. -/
def records (mem : ByteMem) (evVaddr n : Nat) : List Watch :=
  (List.range n).map fun i =>
    ⟨BitVec.ofNat 32 (mem.le (evVaddr + i * 12) 4), BitVec.ofNat 64 (mem.word (evVaddr + i * 12 + 4))⟩

/-- What is to be reported of a watched descriptor. -/
def due (w : Inputs) (fd : Nat) (x : Watch) : Watch := ⟨x.events &&& w.mask fd, x.data⟩

/-- `fd` is watched, and ready for something it is watched for. -/
def IsReady (h : List EpEvent) (w : Inputs) (fd : Nat) : Prop := ∃ x, wanted h fd = some x ∧ (due w fd x).events ≠ 0

/-- `epoll` remembers: the descriptors in the table are those watched, and
whatever the inputs are, a wait with room for all that are ready reports each
of them once with what is due, and goes on waiting only if none is. -/
structure Remembers (h : List EpEvent) (t : Epoll) : Prop where
  monitored : ∀ fd, (∃ e ∈ t, e.fd = fd) ↔ ∃ x, wanted h fd = some x
  reports : ∀ w : Inputs, w.Reachable → ∃ fds : List Nat, fds.Nodup ∧ (∀ fd, fd ∈ fds ↔ IsReady h w fd) ∧
    ∀ mem evVaddr maxevents timeout ws, evVaddr ≠ 0 → maxevents ≠ 0 → fds.length ≤ maxevents →
      if fds = [] then
        t.sysEpollWait mem evVaddr maxevents timeout (w :: ws) =
          if timeout = 0 then some (0, mem) else t.sysEpollWait mem evVaddr maxevents timeout ws
      else ∃ mem', t.sysEpollWait mem evVaddr maxevents timeout (w :: ws) = some ((fds.length : Int), mem') ∧
        (records mem' evVaddr fds.length).map some = fds.map fun fd => (wanted h fd).map (due w fd)

/-- Some time `fd` may be ready for one of `events`. -/
def CanBeReady (fd : Nat) (events : BitVec 32) : Prop := ∃ w : Inputs, w.Reachable ∧ events &&& w.mask fd ≠ 0

/-- The call names no 17th descriptor, and its event has the same data with
the padding as without, if it can ever be reported. -/
def Fits (_ : List EpEvent) (t : Epoll) : EpollCall → Prop
  | .create => True
  | .ctl mem op fd evVaddr => op = epollCtlAdd ∨ op = epollCtlMod →
      ((∃ e ∈ t, e.fd = fd % 2 ^ 32) ∨ t.length < epollMax) ∧
      (evVaddr = 0 ∨ BitVec.ofNat 64 (mem.word (evVaddr + 8)) = BitVec.ofNat 64 (mem.word (evVaddr + 4)) ∨
        ¬ CanBeReady (fd % 2 ^ 32) (supplied mem (fd % 2 ^ 32) evVaddr).events)

/-- It remembers after the call. -/
def Kept (h : List EpEvent) (t : Epoll) (a : EpollCall) : Prop :=
  ∀ es t', step t a = some (es, t') → Remembers (h ++ es) t'

/-! ### The table as a map -/

variable {h : List EpEvent} {t : Epoll}

/-- Every slot in use has a key. -/
def key (e : EpEntry) : Option Nat := some e.fd

theorem key_eq {e : EpEntry} {fd : Nat} : key e = some fd ↔ e.fd = fd := Option.some_inj

/-- The slot that the loops of `sys_epoll_ctl` stop at. -/
theorem findIdx_some {fd i : Nat} (hi : t.findIdx? (·.fd == fd) = some i) : ∃ e, t[i]? = some e ∧ e.fd = fd := by
  obtain ⟨hlt, hp, -⟩ := List.findIdx?_eq_some_iff_getElem.mp hi
  exact ⟨t[i], List.getElem?_eq_getElem hlt, by simpa using hp⟩

theorem findIdx_none {fd : Nat} (hn : t.findIdx? (·.fd == fd) = none) : ∀ e ∈ t, e.fd ≠ fd := by
  intro e he
  simpa using List.findIdx?_eq_none_iff.mp hn e he

/-- An event for a descriptor that has a slot, or with a slot left for it. -/
def Room (t : Epoll) (fd : Nat) : Prop := (∃ e ∈ t, e.fd = fd) ∨ t.length < epollMax

theorem keyed_put (hk : Slots.Keyed key t) (e : EpEntry) : Slots.Keyed key (t.put e) := by
  unfold put
  split
  · next i hi =>
    obtain ⟨a, ha, hfd⟩ := findIdx_some hi
    refine hk.set fun k hx j b hj hb => hk j i b a k hj ha hb ?_
    rw [key_eq] at hx ⊢
    rw [hfd, hx]
  · next hn =>
    split
    · refine hk.append_singleton fun k hx a ha hak => findIdx_none hn a ha ?_
      rw [key_eq] at hx hak
      rw [hak, hx]
    · exact hk

theorem lookup_put (hk : Slots.Keyed key t) {e : EpEntry} (hroom : Room t e.fd) (k : Nat) :
    Slots.lookup key k (t.put e) = if e.fd = k then some e else Slots.lookup key k t := by
  unfold put
  split
  · next i hi =>
    obtain ⟨a, ha, hfd⟩ := findIdx_some hi
    rw [hk.lookup_set ha fun k hx j b hj hb => hk j i b a k hj ha hb ?_]
    · simp only [key_eq, hfd]
      split <;> rfl
    · rw [key_eq] at hx ⊢
      rw [hfd, hx]
  · next hn =>
    have hlen : t.length < epollMax := by
      refine hroom.resolve_left ?_
      intro h
      obtain ⟨a, ha, hfd⟩ := h
      exact findIdx_none hn a ha hfd
    rw [if_pos hlen, Slots.lookup_append_singleton k fun a ha hx => findIdx_none hn a ha (key_eq.mp hx)]
    simp only [key_eq]

/-- Without a slot the event is dropped. -/
theorem put_of_not_room {e : EpEntry} (hroom : ¬ Room t e.fd) : t.put e = t := by
  obtain ⟨hno, hfull⟩ := not_or.mp hroom
  have hn : t.findIdx? (·.fd == e.fd) = none := List.findIdx?_eq_none_iff.mpr fun a ha => by
    simpa using fun hfd => hno ⟨a, ha, hfd⟩
  rw [put, hn]
  exact if_neg hfull

theorem keyed_delete (hk : Slots.Keyed key t) (fd : Nat) : Slots.Keyed key (t.delete fd) := by
  unfold delete
  split
  · next i hi =>
    obtain ⟨a, ha, -⟩ := findIdx_some hi
    exact hk.swapRemove ha
  · exact hk

theorem lookup_delete (hk : Slots.Keyed key t) (fd k : Nat) :
    Slots.lookup key k (t.delete fd) = if fd = k then none else Slots.lookup key k t := by
  unfold delete
  split
  · next i hi =>
    obtain ⟨a, ha, rfl⟩ := findIdx_some hi
    simp only [hk.lookup_swapRemove ha, key_eq]
  · next hn =>
    split
    · next hfd => exact Slots.lookup_eq_none.mpr fun a ha hx => findIdx_none hn a ha ((key_eq.mp hx).trans hfd.symm)
    · rfl

/-! ### What a pass stores -/

variable {w : Inputs}

theorem and_twoPow_cases (x : BitVec 32) (i : Nat) : x &&& BitVec.twoPow 32 i = 0 ∨
    x &&& BitVec.twoPow 32 i = BitVec.twoPow 32 i := by
  rw [BitVec.and_twoPow]
  split
  · exact .inr rfl
  · exact .inl rfl

/-- `ready_ev` is the mask of the slot cut down to what its descriptor is ready for. -/
theorem readyEv_eq (w : Inputs) (e : EpEntry) : readyEv w e = e.events &&& w.mask e.fd := by
  have hin : e.events &&& epollin = 0 ∨ e.events &&& epollin = epollin := and_twoPow_cases e.events 0
  have hout : e.events &&& epollout = 0 ∨ e.events &&& epollout = epollout := and_twoPow_cases e.events 2
  have hin0 : epollin ≠ 0#32 := by decide
  have hout0 : epollout ≠ 0#32 := by decide
  simp only [readyEv, Inputs.mask, BitVec.and_or_distrib_left]
  generalize w.isReadReady _ = r
  generalize w.isWriteReady _ = o
  rcases hin with hin | hin <;> rcases hout with hout | hout <;> cases r <;> cases o <;> simp [hin, hout, hin0, hout0]

/-- The slots that a pass finds ready. -/
def found (w : Inputs) (t : Epoll) : List EpEntry := t.filter fun e => readyEv w e != 0

/-- What it stores for one. -/
def record (w : Inputs) (e : EpEntry) : Watch := ⟨readyEv w e, e.data⟩

theorem records_succ {mem : ByteMem} {evVaddr n : Nat} : records mem evVaddr (n + 1) = records mem evVaddr n ++
    [⟨BitVec.ofNat 32 (mem.le (evVaddr + n * 12) 4), BitVec.ofNat 64 (mem.word (evVaddr + n * 12 + 4))⟩] := by
  simp [records, List.range_succ]

theorem records_congr {mem mem' : ByteMem} {evVaddr n : Nat}
    (h : ∀ x, x < evVaddr + n * 12 → mem' x = mem x) : records mem' evVaddr n = records mem evVaddr n := by
  refine List.map_congr_left fun i hi => ?_
  have hin : i < n := List.mem_range.mp hi
  rw [ByteMem.le_congr fun x _ hx => h x (by omega), ByteMem.word_congr fun x _ hx => h x (by omega)]

/-- The events of a record, under its data. -/
theorem le_stored {mem : ByteMem} {base v d : Nat} (hv : v < 256 ^ 4) :
    ((mem.patch base 4 (ByteMem.leByte v)).setWord (base + 4) d).le base 4 = v := by
  rw [ByteMem.le_congr fun x _ hx => ByteMem.setWord_outside (.inl hx)]
  exact ByteMem.le_patch hv

/-- A pass with room for all that it finds. -/
theorem scan_eq {evVaddr max out : Nat} {mem : ByteMem} (hroom : out + (found w t).length ≤ max) :
    ∃ mem', scan w evVaddr max t out mem = (out + (found w t).length, mem') ∧
      (found w t = [] → mem' = mem) ∧
      records mem' evVaddr (out + (found w t).length) = records mem evVaddr out ++ (found w t).map (record w) := by
  induction t generalizing out mem with
  | nil => exact ⟨mem, rfl, fun _ => rfl, by simp [found]⟩
  | cons e t ih =>
    rw [scan]
    by_cases he : readyEv w e = 0
    · have hskip : found w (e :: t) = found w t := List.filter_cons_of_neg (by simpa using he)
      rw [hskip] at hroom ⊢
      split
      · next hfull =>
        have hnil : found w t = [] := List.eq_nil_of_length_eq_zero (by omega)
        exact ⟨mem, by rw [hnil]; rfl, fun _ => rfl, by rw [hnil]; simp⟩
      · rw [if_neg (not_not_intro he)]
        exact ih hroom
    · have hhead : found w (e :: t) = e :: found w t := List.filter_cons_of_pos (by simpa using he)
      rw [hhead, List.length_cons] at hroom ⊢
      rw [if_neg (by omega), if_pos he]
      obtain ⟨mem', hscan, -, hrec⟩ := @ih (out + 1)
        ((mem.patch (evVaddr + out * 12) 4 (ByteMem.leByte (readyEv w e).toNat)).setWord (evVaddr + out * 12 + 4)
          e.data.toNat) (by omega)
      refine ⟨mem', ?_, by simp, ?_⟩
      · rw [hscan]
        congr 1
        omega
      · rw [show out + ((found w t).length + 1) = out + 1 + (found w t).length by omega, hrec, records_succ,
          List.map_cons, List.append_assoc, List.singleton_append]
        rw [le_stored (readyEv w e).isLt, ByteMem.word_setWord_self, Nat.mod_eq_of_lt e.data.isLt, BitVec.ofNat_toNat, BitVec.ofNat_toNat,
          BitVec.setWidth_eq, BitVec.setWidth_eq]
        congr 1
        refine records_congr fun x hx => ?_
        rw [ByteMem.setWord_outside (by omega), ByteMem.patch_outside (by omega)]

/-- A wait with room for all that its first pass finds. -/
theorem sysEpollWait_eq {mem : ByteMem} {evVaddr maxevents timeout : Nat} {ws : List Inputs} (hev : evVaddr ≠ 0)
    (hmax : maxevents ≠ 0) (hroom : (found w t).length ≤ maxevents) :
    if found w t = [] then
      t.sysEpollWait mem evVaddr maxevents timeout (w :: ws) =
        if timeout = 0 then some (0, mem) else t.sysEpollWait mem evVaddr maxevents timeout ws
    else ∃ mem', t.sysEpollWait mem evVaddr maxevents timeout (w :: ws) = some (((found w t).length : Int), mem') ∧
      records mem' evVaddr (found w t).length = (found w t).map (record w) := by
  obtain ⟨mem', hscan, hsame, hrec⟩ := @scan_eq t w evVaddr maxevents 0 mem (by omega)
  rw [Nat.zero_add] at hscan hrec
  simp only [sysEpollWait, if_neg hev, if_neg hmax, waitLoop, hscan]
  split
  · next hnil =>
    rw [hsame hnil, hnil, List.length_nil, if_neg (Nat.lt_irrefl 0)]
    by_cases ht : timeout = 0
    · simp [ht]
    · simp [ht]
  · next hne =>
    exact ⟨mem', if_pos (List.length_pos_iff.mpr hne), hrec⟩

/-! ### Runs -/

/-- The slot of `fd` is what is wanted for it; the data is right if it can come to be reported. -/
def Alike (fd : Nat) (e : EpEntry) (x : Watch) : Prop :=
  e.events = x.events ∧ (CanBeReady fd x.events → e.data = x.data)

/-- The table follows the calls. -/
structure Tracks (h : List EpEvent) (t : Epoll) : Prop where
  keyed : Slots.Keyed key t
  alike : ∀ fd, Option.Rel (Alike fd) (Slots.lookup key fd t) (wanted h fd)

theorem Tracks.nil : Tracks [] [] where
  keyed := by intro i j a b k hi; cases hi
  alike _ := .none

section
variable {h : List EpEvent} {fd fd' : Nat} {x : Watch}

@[simp] theorem wanted_created : wanted (h ++ [.created]) fd = none := by simp [wanted]

@[simp] theorem wanted_watched : wanted (h ++ [.watched fd' x]) fd = if fd' = fd then some x else wanted h fd := by
  simp [wanted]

@[simp] theorem wanted_deleted : wanted (h ++ [.deleted fd']) fd = if fd' = fd then none else wanted h fd := by
  simp [wanted]

end

/-- What `sys_epoll_ctl` puts in a slot. -/
def entry (mem : ByteMem) (fd evVaddr : Nat) : EpEntry where
  fd
  events := (supplied mem fd evVaddr).events
  data := if evVaddr ≠ 0 then BitVec.ofNat 64 (mem.word (evVaddr + 8)) else BitVec.ofInt 64 (FdSys.asI32 fd)

theorem sysEpollCtl_put {mem : ByteMem} {op fd evVaddr : Nat} (hop : op = epollCtlAdd ∨ op = epollCtlMod) :
    t.sysEpollCtl mem op fd evVaddr = (0, t.put (entry mem (fd % 2 ^ 32) evVaddr)) := by
  simp only [sysEpollCtl, if_pos hop, entry, supplied]
  by_cases hev : evVaddr = 0 <;> simp [hev]

/-- The calls, as what they do to the table and what they tell. -/
theorem step_ctl (t : Epoll) (mem : ByteMem) (op fd evVaddr : Nat) :
    ((op = epollCtlAdd ∨ op = epollCtlMod) ∧ step t (.ctl mem op fd evVaddr) =
      some ([.watched (fd % 2 ^ 32) (supplied mem (fd % 2 ^ 32) evVaddr)], t.put (entry mem (fd % 2 ^ 32) evVaddr))) ∨
    (op = epollCtlDel ∧ step t (.ctl mem op fd evVaddr) = some ([.deleted (fd % 2 ^ 32)], t.delete (fd % 2 ^ 32))) ∨
    (¬ (op = epollCtlAdd ∨ op = epollCtlMod) ∧ step t (.ctl mem op fd evVaddr) = some ([], t)) := by
  by_cases hput : op = epollCtlAdd ∨ op = epollCtlMod
  · exact .inl ⟨hput, by simp [step, sysEpollCtl_put hput, asked, hput]⟩
  · by_cases hdel : op = epollCtlDel
    · refine .inr (.inl ⟨hdel, ?_⟩)
      simp only [step, sysEpollCtl, asked, if_neg hput, if_pos hdel, if_pos]
    · refine .inr (.inr ⟨hput, ?_⟩)
      simp only [step, sysEpollCtl, if_neg hput, if_neg hdel, if_neg (show einval ≠ 0 by decide)]

theorem Tracks.put (ht : Tracks h t) {e : EpEntry} {x : Watch} (hroom : Room t e.fd) (hx : Alike e.fd e x) :
    Tracks (h ++ [.watched e.fd x]) (t.put e) where
  keyed := keyed_put ht.keyed e
  alike k := by
    rw [lookup_put ht.keyed hroom, wanted_watched]
    split
    · next hk => exact .some (hk ▸ hx)
    · exact ht.alike k

theorem Tracks.delete (ht : Tracks h t) (fd : Nat) : Tracks (h ++ [.deleted fd]) (t.delete fd) where
  keyed := keyed_delete ht.keyed fd
  alike k := by
    rw [lookup_delete ht.keyed, wanted_deleted]
    split
    · exact .none
    · exact ht.alike k

/-- What the condition on an event's data says of its slot. -/
theorem alike_entry_iff {mem : ByteMem} {fd evVaddr : Nat} :
    Alike fd (entry mem fd evVaddr) (supplied mem fd evVaddr) ↔
      (evVaddr = 0 ∨ BitVec.ofNat 64 (mem.word (evVaddr + 8)) = BitVec.ofNat 64 (mem.word (evVaddr + 4)) ∨
        ¬ CanBeReady fd (supplied mem fd evVaddr).events) := by
  have hdata : (entry mem fd evVaddr).data = (supplied mem fd evVaddr).data ↔
      (evVaddr = 0 ∨ BitVec.ofNat 64 (mem.word (evVaddr + 8)) = BitVec.ofNat 64 (mem.word (evVaddr + 4))) := by
    by_cases hev : evVaddr = 0 <;> simp [entry, supplied, hev]
  rw [Alike, ← or_assoc, ← hdata]
  exact ⟨fun ⟨_, hd⟩ => (Classical.em _).elim (fun hc => .inl (hd hc)) .inr,
    fun hd => ⟨rfl, fun hc => hd.resolve_right fun hn => hn hc⟩⟩

theorem Tracks.step (ht : Tracks h t) {a : EpollCall} (hfits : Fits h t a) {es : List EpEvent} {t' : Epoll}
    (hs : Epoll.step t a = some (es, t')) : Tracks (h ++ es) t' := by
  cases a with
  | create =>
    obtain ⟨rfl, rfl⟩ := Prod.mk.inj (Option.some.inj hs)
    exact ⟨Tracks.nil.keyed, fun fd => by rw [wanted_created]; exact .none⟩
  | ctl mem op fd evVaddr =>
    rcases step_ctl t mem op fd evVaddr with ⟨hput, hst⟩ | ⟨-, hst⟩ | ⟨-, hst⟩ <;>
      obtain ⟨rfl, rfl⟩ := Prod.mk.inj (Option.some.inj (hs.symm.trans hst))
    · obtain ⟨hroom, hdata⟩ := hfits hput
      exact @Tracks.put h t ht (entry mem (fd % 2 ^ 32) evVaddr) _ hroom (alike_entry_iff.mpr hdata)
    · exact ht.delete _
    · rwa [List.append_nil]

/-- The table has the descriptors wanted, each for the events wanted. -/
def SameEvents (h : List EpEvent) (t : Epoll) : Prop :=
  ∀ fd, Option.Rel (fun e x => e.events = x.events) (Slots.lookup key fd t) (wanted h fd)

theorem Tracks.sameEvents (ht : Tracks h t) : SameEvents h t := fun fd => by
  have halike := ht.alike fd
  generalize Slots.lookup key fd t = o at halike ⊢
  generalize wanted h fd = o' at halike ⊢
  cases halike with
  | some ha => exact .some ha.1
  | none => exact .none

/-- Of a descriptor in the table, what is recorded. -/
theorem mem_found_fds (hk : Slots.Keyed key t) {fd : Nat} : fd ∈ (found w t).map EpEntry.fd ↔
    ∃ e, Slots.lookup key fd t = some e ∧ readyEv w e ≠ 0 := by
  simp only [List.mem_map, found, List.mem_filter, bne_iff_ne, hk.lookup_eq_some, key_eq]
  constructor
  · intro h
    obtain ⟨e, ⟨hmem, hr⟩, hfd⟩ := h
    exact ⟨e, ⟨hmem, hfd⟩, hr⟩
  · intro h
    obtain ⟨e, ⟨hmem, hfd⟩, hr⟩ := h
    exact ⟨e, ⟨hmem, hr⟩, hfd⟩

theorem mem_found_fds_iff (hk : Slots.Keyed key t) (hsame : SameEvents h t) {fd : Nat} :
    fd ∈ (found w t).map EpEntry.fd ↔ IsReady h w fd := by
  rw [mem_found_fds hk, IsReady]
  have hrel := hsame fd
  generalize hl : Slots.lookup key fd t = o at hrel ⊢
  generalize wanted h fd = o' at hrel ⊢
  cases hrel with
  | none => simp
  | @some e x he =>
    have hfd : e.fd = fd := key_eq.mp (Slots.lookup_some hl).2
    simp [readyEv_eq, due, hfd, he]

theorem nodup_found_fds (hk : Slots.Keyed key t) : ((found w t).map EpEntry.fd).Nodup := by
  have hpair : t.Pairwise fun a b => a.fd ≠ b.fd :=
    (Slots.keyed_iff_pairwise.mp hk).imp fun hab hfd => hab _ rfl (key_eq.mpr hfd.symm)
  exact List.pairwise_map.mpr (hpair.sublist List.filter_sublist)

/-- The records, by the descriptors they are for. -/
theorem map_record (hk : Slots.Keyed key t) : ((found w t).map (record w)).map some =
    ((found w t).map EpEntry.fd).map fun fd => (Slots.lookup key fd t).map (record w) := by
  rw [List.map_map, List.map_map]
  refine List.map_congr_left fun e he => ?_
  have hl : Slots.lookup key e.fd t = some e := hk.lookup_eq_some.mpr ⟨(List.mem_filter.mp he).1, rfl⟩
  simp [hl]

/-- A call that names a descriptor that there is no slot for is not remembered. -/
theorem Remembers.room {e : EpEntry} {x : Watch} (hr : Remembers (h ++ [.watched e.fd x]) (t.put e)) : Room t e.fd := by
  by_contra hno
  rw [put_of_not_room hno] at hr
  exact hno (.inl ((hr.monitored e.fd).mpr ⟨x, by simp⟩))

/-- Nor is one whose data will come back changed. -/
theorem Remembers.data {e : EpEntry} {x : Watch} (ht : Tracks h t) (hev : e.events = x.events)
    (hr : Remembers (h ++ [.watched e.fd x]) (t.put e)) (hc : CanBeReady e.fd x.events) : e.data = x.data := by
  obtain ⟨w, hreach, hmask⟩ := hc
  have hk := keyed_put ht.keyed e
  have hlookup := lookup_put ht.keyed hr.room
  have hsame : SameEvents (h ++ [.watched e.fd x]) (t.put e) := by
    intro k
    rw [hlookup, wanted_watched]
    split
    · exact .some hev
    · exact ht.sameEvents k
  obtain ⟨fds, hnodup, hmem, hwait⟩ := hr.reports w hreach
  have hperm : ((found w (t.put e)).map EpEntry.fd).Perm fds :=
    (List.perm_ext_iff_of_nodup (nodup_found_fds hk) hnodup).mpr fun fd => (mem_found_fds_iff hk hsame).trans (hmem fd).symm
  have hin : e.fd ∈ fds := (hmem e.fd).mpr ⟨x, by simp, hmask⟩
  have hne : fds ≠ [] := List.ne_nil_of_mem hin
  have hlen : (found w (t.put e)).length = fds.length := by rw [← hperm.length_eq, List.length_map]
  have hfound : found w (t.put e) ≠ [] := fun hnil => hne (by rw [hnil] at hperm; exact hperm.symm.eq_nil)
  -- the wait returns the same records to both, so that they are the same
  have h0 : fds.length ≠ 0 := fun h0 => hne (List.eq_nil_of_length_eq_zero h0)
  have hthis := hwait (fun _ => 0) 1 fds.length 0 [] (by decide) h0 (Nat.le_refl _)
  have hthat := @sysEpollWait_eq (t.put e) w (fun _ => 0) 1 fds.length 0 [] (by decide) h0 (Nat.le_of_eq hlen)
  rw [if_neg hne] at hthis
  rw [if_neg hfound] at hthat
  obtain ⟨mem, hret, hrec⟩ := hthis
  obtain ⟨mem', hret', hrec'⟩ := hthat
  obtain rfl : mem = mem' := (Prod.mk.inj (Option.some.inj (hret.symm.trans hret'))).2
  rw [hlen] at hrec'
  rw [hrec', map_record hk] at hrec
  have hvalues := (List.Perm.of_eq hrec).trans (hperm.symm.map _)
  have hat := Slots.eq_of_map_perm hvalues (hperm.symm.subset hin) (nodup_found_fds hk) ?_
  · rw [hlookup, if_pos rfl, wanted_watched, if_pos rfl] at hat
    exact congrArg Watch.data (Option.some.inj hat)
  · intro fd hfd hfdne
    obtain ⟨y, hy, hready⟩ := (mem_found_fds_iff hk hsame).mp hfd
    rw [wanted_watched, if_neg (Ne.symm hfdne)] at hy
    rw [hlookup, wanted_watched, if_neg (Ne.symm hfdne), if_neg (Ne.symm hfdne), hy]
    have halike := ht.alike fd
    rw [hy] at halike
    generalize hl : Slots.lookup key fd t = o at halike ⊢
    cases halike with
    | @some a _ ha =>
      have hafd : a.fd = fd := key_eq.mp (Slots.lookup_some hl).2
      simp [record, due, readyEv_eq, hafd, ha.1, ha.2 ⟨w, hreach, hready⟩]

end Epoll
end ChodOs
