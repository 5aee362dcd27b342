/-
Isolation of fast channels from each other: what one channel's sends, polls
and creation do to the others.

A channel's doorbell is cell `id % 64`. While no new channel gets the cell
of a live one the channels are isolated, whatever else takes ids in
between; nothing in the code sees to that.
-/
import ChodOs.Ipc.Channel
import ChodOs.Lib.Run

namespace ChodOs

open StepSys

/-! ## Runs of the channel operations -/

/-- The calls that reach the doorbells, the frames or `NEXT_CAP_ID`. -/
inductive ChanOp
  | ensure (src dst : Pid)
  | drop (src dst : Pid)
  | alloc (owner : Pid) (data : List UInt8)
  | free (id : CapId)
  | send (id : CapId) (data : List UInt8)
  | poll (id : CapId) (n : Nat)

/-- A `send_switchless` that returned true, or a `poll_switchless` that returned bytes. -/
inductive ChanEvent
  | sent (id : CapId) (data : List UInt8)
  | polled (id : CapId) (bytes : List UInt8)

namespace IpcState

/-- One call. `none`: it waits, faults or finds no memory; and `drop_shared`
is called from outside only on buffers that are not frame-backed. -/
def chanStep (s : IpcState) : ChanOp → Option (List ChanEvent × IpcState)
  | .ensure src dst => (s.ensureChannel src dst).map fun (_, s) => ([], s)
  | .drop src dst => some ([], s.dropChannel src dst)
  | .alloc owner data => some ([], (s.allocShared owner data).2)
  | .free id => if (s.buffers[id]?).any (·.frameBacked) then none else some ([], (s.dropShared id).2)
  | .send id data => (s.sendSwitchless id data).map fun (ok, s) => (if ok then [.sent id data] else [], s)
  | .poll id n => (s.pollSwitchless id n).map fun (r, s) => (r.toList.map (.polled id), s)

end IpcState

/-- The last send on `id` that no poll has taken yet. -/
def unconsumed (h : List ChanEvent) (id : CapId) : Option (List UInt8) :=
  h.foldl (fun last e =>
    match e with
    | .sent i data => if i = id then some data else last
    | .polled i _ => if i = id then none else last) none

theorem unconsumed_append (h : List ChanEvent) (e : ChanEvent) (id : CapId) :
    unconsumed (h ++ [e]) id =
      match e with
      | .sent i data => if i = id then some data else unconsumed h id
      | .polled i _ => if i = id then none else unconsumed h id := by
  simp only [unconsumed, List.foldl_append, List.foldl_cons, List.foldl_nil]

/-- A new channel gets a doorbell that no live one has. -/
def SlotSafe (_ : List ChanEvent) (s : IpcState) : ChanOp → Prop
  | .ensure src dst => s.getChannel src dst = none → SlotFree s
  | _ => True

instance : ∀ h s a, Decidable (SlotSafe h s a)
  | _, _, .ensure _ _ => inferInstanceAs (Decidable (_ → _))
  | _, _, .drop _ _ => .isTrue trivial
  | _, _, .alloc _ _ => .isTrue trivial
  | _, _, .free _ => .isTrue trivial
  | _, _, .send _ _ => .isTrue trivial
  | _, _, .poll _ _ => .isTrue trivial

/-- The channel whose send, poll or creation a call is. -/
def ChanOp.target (s : IpcState) : ChanOp → Option CapId
  | .ensure src dst => if (s.getChannel src dst).isNone then some s.nextCapId else none
  | .send id _ => some id
  | .poll id _ => some id
  | _ => none

/-! ## The invariant -/

/-- The doorbell and the frame agree with the last send. -/
def Holds (s : IpcState) (id : CapId) : Option (List UInt8) → Prop
  | none => s.doorbells (swSlot id) = 0
  | some data => s.doorbells (swSlot id) = min data.length 4096 ∧
      chanBytes s id (min data.length 4096) = data.take 4096

structure IsoInv (h : List ChanEvent) (s : IpcState) : Prop where
  backed : Backed s
  slots : SlotsDistinct s
  fresh : ∀ {id : CapId}, s.nextCapId ≤ id → unconsumed h id = none
  chan : ∀ {p : Pid × Pid} {id : CapId}, s.fast[p]? = some id → Holds s id (unconsumed h id)

theorem Holds.congr {s s' : IpcState} {id : CapId} {o : Option (List UInt8)} (h : Holds s id o)
    (hd : s'.doorbells (swSlot id) = s.doorbells (swSlot id))
    (hb : ∀ n ≤ pageSize, chanBytes s' id n = chanBytes s id n) : Holds s' id o := by
  cases o with
  | none => exact hd.trans h
  | some data => exact ⟨hd.trans h.1, (hb _ (Nat.min_le_right _ _)).trans h.2⟩

/-- Buffers of the heap come and go. -/
theorem Backed.heap {s s' : IpcState} (h : Backed s) {id : CapId}
    (hid : ∀ b, s.buffers[id]? = some b → b.frameBacked = false)
    (hf : s'.fast = s.fast) (hm : s'.mem = s.mem) (hn : s.nextCapId ≤ s'.nextCapId)
    (hother : ∀ i, i ≠ id → s'.buffers[i]? = s.buffers[i]?)
    (hnew : ∀ b, s'.buffers[id]? = some b → b.frameBacked = false ∧ id < s'.nextCapId) : Backed s' := by
  have old : ∀ {i : CapId} {b : SharedBuffer}, s'.buffers[i]? = some b → b.frameBacked = true →
      s.buffers[i]? = some b := by
    intro i b hi hfb
    by_cases he : i = id
    · subst he; rw [(hnew b hi).1] at hfb; cases hfb
    · rwa [hother i he] at hi
  constructor
  · intro p i hp
    rw [hf] at hp
    obtain ⟨b, hb, hfb⟩ := h.buf hp
    refine ⟨b, ?_, hfb⟩
    rw [hother, hb]
    rintro rfl; rw [hid b hb] at hfb; cases hfb
  · intro p p' i; rw [hf]; exact h.inj
  · intro i b hi hfb; rw [hf]; exact h.live (old hi hfb) hfb
  · intro i b hi hfb; rw [hm]; exact h.frame (old hi hfb) hfb
  · intro i i' b b' hi hfb hi' hfb' he; exact h.phys (old hi hfb) hfb (old hi' hfb') hfb' he
  · intro i b hi
    by_cases he : i = id
    · subst he; exact (hnew b hi).2
    · rw [hother i he] at hi; exact Nat.lt_of_lt_of_le (h.fresh hi) hn

section step
variable {s s' : IpcState} {h es : List ChanEvent}

/-- A send that is refused changes nothing. -/
theorem sendSwitchless_false {id : CapId} {data : List UInt8} (he : s.sendSwitchless id data = some (false, s')) :
    s' = s := by
  simp only [IpcState.sendSwitchless] at he
  split at he
  · simpa using he.symm
  · split at he <;> simp at he

/-- A poll that finds nothing changes nothing. -/
theorem pollSwitchless_none {id : CapId} {n : Nat} (he : s.pollSwitchless id n = some (none, s')) : s' = s := by
  simp only [IpcState.pollSwitchless] at he
  split at he
  · simpa using he.symm
  · split at he
    · cases he
    · simpa using he.symm
    · simp at he

theorem IsoInv.alloc (hi : IsoInv h s) (owner : Pid) (data : List UInt8) :
    IsoInv h (s.allocShared owner data).2 := by
  have hnone : s.buffers[s.nextCapId]? = none := by
    cases hb : s.buffers[s.nextCapId]? with
    | none => rfl
    | some b => exact absurd (hi.backed.fresh hb) (Nat.lt_irrefl _)
  refine ⟨@Backed.heap s _ hi.backed s.nextCapId (by simp [hnone]) rfl rfl (Nat.le_succ _) (fun i hne => ?_) ?_,
    hi.slots, fun hle => hi.fresh (Nat.le_of_succ_le hle), fun {p} {id} hp => (hi.chan hp).congr rfl fun n _ => ?_⟩
  · simp [IpcState.allocShared, Ne.symm hne]
  · intro b hb
    simp only [IpcState.allocShared, IpcState.getElem?_buffers_insert, if_pos, Option.some.injEq] at hb
    subst hb
    exact ⟨rfl, Nat.lt_succ_self _⟩
  · obtain ⟨b, hb, -⟩ := hi.backed.buf hp
    have hne : s.nextCapId ≠ id := (Nat.ne_of_lt (hi.backed.fresh hb)).symm
    simp [chanBytes, IpcState.allocShared, hne]

theorem IsoInv.free (hi : IsoInv h s) {id : CapId} (hid : (s.buffers[id]?).any (·.frameBacked) = false) :
    IsoInv h (s.dropShared id).2 := by
  cases hb : s.buffers[id]? with
  | none => simpa [IpcState.dropShared, hb] using hi
  | some b =>
    have hfb : b.frameBacked = false := by simpa [hb] using hid
    simp only [IpcState.dropShared, hb, hfb, Bool.false_eq_true, if_false]
    refine ⟨@Backed.heap s _ hi.backed id (fun b' hb' => ?_) rfl rfl (Nat.le_refl _) (fun i hne => ?_) ?_,
      hi.slots, hi.fresh, fun {p} {i} hp => (hi.chan hp).congr rfl fun n _ => ?_⟩
    · rw [hb] at hb'; cases hb'; exact hfb
    · simp [Ne.symm hne]
    · simp
    · obtain ⟨b', hb', hfb'⟩ := hi.backed.buf hp
      have hne : id ≠ i := by rintro rfl; rw [hb] at hb'; cases hb'; rw [hfb] at hfb'; cases hfb'
      simp [chanBytes, hne]

theorem IsoInv.ensure (hi : IsoInv h s) {src dst : Pid} {id : CapId} (he : s.ensureChannel src dst = some (id, s'))
    (hsafe : s.getChannel src dst = none → SlotFree s) : IsoInv h s' := by
  rcases ensureChannelCap_cases he with ⟨-, rfl⟩ | ⟨hn, -, b, hc⟩
  · exact hi
  have hfree := hsafe hn
  refine ⟨hi.backed.created hn hc, hi.slots.created hfree hc, fun hle => hi.fresh ?_, fun {p} {i} hp => ?_⟩
  · rw [hc.id] at hle; exact Nat.le_of_succ_le hle
  rcases hc.fast_cases hp with ⟨-, rfl⟩ | ⟨-, hp⟩
  · rw [hi.fresh (Nat.le_refl _)]
    simp [Holds, hc.doorbells]
  · refine (hi.chan hp).congr ?_ fun n hn => chanBytes_created hi.backed hc hp hn
    rw [hc.doorbells, Function.update_of_ne (hfree p i hp)]

theorem IsoInv.drop (hi : IsoInv h s) (src dst : Pid) : IsoInv h (s.dropChannel src dst) := by
  obtain ⟨hbells, hnext⟩ := dropChannel_frame s src dst
  refine ⟨hi.backed.dropChannel src dst, hi.slots.dropChannel src dst, fun hle => hi.fresh ?_, fun {p} {i} hp => ?_⟩
  · rwa [hnext] at hle
  obtain ⟨hne, hp⟩ := fast_of_dropChannel hp
  exact (hi.chan hp).congr (by rw [hbells]) fun n _ => chanBytes_dropChannel hi.backed hp hne n

/-- A send that returned true: the channel was empty and now holds the data. -/
theorem IsoInv.send (hi : IsoInv h s) {id : CapId} {data : List UInt8}
    (he : s.sendSwitchless id data = some (true, s')) : IsoInv (h ++ [.sent id data]) s' := by
  simp only [IpcState.sendSwitchless] at he
  split at he
  · simp at he
  next va hva =>
  split at he
  · next h0 =>
    simp only [Option.some.injEq, Prod.mk.injEq, true_and] at he
    subst he
    obtain ⟨b, hb, hfb, rfl⟩ := switchlessVa_some hva
    obtain ⟨p, hp⟩ := hi.backed.live hb hfb
    refine ⟨(hi.backed.switchlessWrite _ _).switchlessRing _ _, hi.slots, fun {i} hle => ?_, fun {q} {i} hq => ?_⟩
    · have hne : id ≠ i := fun he => Nat.lt_irrefl _ (Nat.lt_of_lt_of_le (hi.backed.fresh hb) (he ▸ hle))
      rw [unconsumed_append]
      simp only [hne, if_false]
      exact hi.fresh hle
    · replace hq : s.fast[q]? = some i := hq
      rw [unconsumed_append]
      by_cases hid : id = i
      · subst hid
        simp only [if_pos]
        refine ⟨by simp [IpcState.switchlessRing], ?_⟩
        refine (chanBytes_switchlessWrite hi.backed hp hb data (Nat.le_refl _)).trans ?_
        rcases Nat.le_total data.length 4096 with hle | hle
        · rw [Nat.min_eq_left hle, List.take_of_length_le (Nat.le_refl _), List.take_of_length_le hle]
        · rw [Nat.min_eq_right hle]
      · simp only [hid, if_false]
        have hpq : q ≠ p := by rintro rfl; rw [hp] at hq; exact hid (by simpa using hq)
        refine (hi.chan hq).congr ?_ fun n hn =>
          chanBytes_switchlessWrite_other hi.backed hp hb hq hpq data hn
        exact Function.update_of_ne (hi.slots.ne hp hq hpq) _ _
  · cases he

/-- A poll that returned bytes: the channel held a send, and these are its first bytes. -/
theorem IsoInv.poll (hi : IsoInv h s) {id : CapId} {n : Nat} {bs : List UInt8}
    (he : s.pollSwitchless id n = some (some bs, s')) :
    (∃ data, unconsumed h id = some data ∧ bs = (data.take 4096).take n) ∧ IsoInv (h ++ [.polled id bs]) s' := by
  simp only [IpcState.pollSwitchless] at he
  split at he
  · simp at he
  next hne =>
  by_cases hlive : ∃ p : Pid × Pid, s.fast[p]? = some id
  · obtain ⟨p, hp⟩ := hlive
    rw [switchlessCopy_live hi.backed hp] at he
    simp only [Option.some.injEq, Prod.mk.injEq] at he
    obtain ⟨rfl, rfl⟩ := he
    constructor
    · have hheld := hi.chan hp
      cases hu : unconsumed h id with
      | none => rw [hu] at hheld; exact absurd hheld hne
      | some data =>
        rw [hu] at hheld
        obtain ⟨hd, hbytes⟩ := hheld
        refine ⟨data, rfl, ?_⟩
        obtain ⟨b, hb, -⟩ := hi.backed.buf hp
        simp only [chanBytes, hb] at hbytes ⊢
        rw [hd, ← ByteMem.read_take (Nat.min_le_left (min data.length 4096) n), hbytes, ← List.take_take]
        exact List.take_of_length_le (by simp only [List.length_take]; omega)
    · refine ⟨hi.backed.resetDoorbell _, hi.slots, fun {i} hle => ?_, fun {q} {i} hq => ?_⟩
      · rw [unconsumed_append]
        simp only
        split
        · rfl
        · exact hi.fresh hle
      · rw [unconsumed_append]
        by_cases hid : id = i
        · subst hid; simp [Holds, IpcState.resetDoorbell]
        · simp only [hid, if_false]
          have hpq : q ≠ p := by rintro rfl; exact hid (by rw [← Option.some.injEq, ← hp, ← hq]; rfl)
          exact (hi.chan hq).congr (Function.update_of_ne (hi.slots.ne hp hq hpq) _ _) fun _ _ => rfl
  · rw [switchlessCopy_dead hi.backed fun p hp => hlive ⟨p, hp⟩] at he
    simp at he

end step

/-- Every slot-safe call keeps the invariant. -/
theorem IsoInv.step {s s' : IpcState} {h es : List ChanEvent} {a : ChanOp} (hi : IsoInv h s) (hsafe : SlotSafe h s a)
    (hs : s.chanStep a = some (es, s')) : IsoInv (h ++ es) s' := by
  cases a with
  | ensure src dst =>
    simp only [IpcState.chanStep, Option.map_eq_some_iff, Prod.mk.injEq] at hs
    obtain ⟨⟨id, t⟩, he, rfl, rfl⟩ := hs
    rw [List.append_nil]; exact hi.ensure he hsafe
  | drop src dst => cases hs; rw [List.append_nil]; exact hi.drop src dst
  | alloc owner data => cases hs; rw [List.append_nil]; exact hi.alloc owner data
  | free id =>
    simp only [IpcState.chanStep] at hs
    split at hs
    · cases hs
    · next hany => cases hs; rw [List.append_nil]; exact hi.free (by simpa using hany)
  | send id data =>
    simp only [IpcState.chanStep, Option.map_eq_some_iff, Prod.mk.injEq] at hs
    obtain ⟨⟨ok, t⟩, he, rfl, rfl⟩ := hs
    cases ok with
    | true => exact hi.send he
    | false => rw [sendSwitchless_false he]; simpa using hi
  | poll id n =>
    simp only [IpcState.chanStep, Option.map_eq_some_iff, Prod.mk.injEq] at hs
    obtain ⟨⟨r, t⟩, he, rfl, rfl⟩ := hs
    cases r with
    | some bs => exact (hi.poll he).2
    | none => rw [pollSwitchless_none he]; simpa using hi

theorem IsoInv.init (mem : ChannelMem) : IsoInv [] (.init mem) where
  backed := Backed.init rfl rfl
  slots p p' id id' hp := by simp [IpcState.init] at hp
  fresh _ := rfl
  chan hp := by simp [IpcState.init] at hp

/-! ## Isolation -/

theorem doorbells_dropShared (s : IpcState) (id : CapId) : (s.dropShared id).2.doorbells = s.doorbells := by
  simp only [IpcState.dropShared]
  split
  · rfl
  · simp only; split <;> rfl

/-- A call leaves the doorbell of every live channel that is not its own. -/
theorem IsoInv.others {s s' : IpcState} {h es : List ChanEvent} {a : ChanOp} (hi : IsoInv h s)
    (hsafe : SlotSafe h s a) (hs : s.chanStep a = some (es, s')) {p : Pid × Pid} {id : CapId}
    (hp : s.fast[p]? = some id) (ht : a.target s ≠ some id) :
    s'.doorbells (swSlot id) = s.doorbells (swSlot id) := by
  have apart : ∀ {q : Pid × Pid} {i : CapId}, s.fast[q]? = some i → i ≠ id → swSlot id ≠ swSlot i := by
    intro q i hq hne
    exact hi.slots.ne hq hp (by rintro rfl; rw [hp] at hq; exact hne (by simpa using hq.symm))
  cases a with
  | ensure src dst =>
    simp only [IpcState.chanStep, Option.map_eq_some_iff, Prod.mk.injEq] at hs
    obtain ⟨⟨i, t⟩, he, -, rfl⟩ := hs
    rcases ensureChannelCap_cases he with ⟨-, rfl⟩ | ⟨hn, -, b, hc⟩
    · rfl
    · rw [hc.doorbells, Function.update_of_ne (hsafe hn p id hp)]
  | drop src dst => cases hs; rw [(dropChannel_frame s src dst).1]
  | alloc owner data => cases hs; rfl
  | free i =>
    simp only [IpcState.chanStep] at hs
    split at hs
    · cases hs
    · cases hs; rw [doorbells_dropShared]
  | send i data =>
    simp only [IpcState.chanStep, Option.map_eq_some_iff, Prod.mk.injEq] at hs
    obtain ⟨⟨ok, t⟩, he, -, rfl⟩ := hs
    simp only [IpcState.sendSwitchless] at he
    split at he
    · simp only [Option.some.injEq, Prod.mk.injEq] at he; rw [← he.2]
    next va hva =>
    split at he
    · simp only [Option.some.injEq, Prod.mk.injEq] at he
      obtain ⟨b, hb, hfb, -⟩ := switchlessVa_some hva
      obtain ⟨q, hq⟩ := hi.backed.live hb hfb
      rw [← he.2]
      exact Function.update_of_ne (apart hq fun heq => ht (by rw [heq]; rfl)) _ _
    · cases he
  | poll i n =>
    simp only [IpcState.chanStep, Option.map_eq_some_iff, Prod.mk.injEq] at hs
    obtain ⟨⟨r, t⟩, he, -, rfl⟩ := hs
    cases r with
    | none => rw [pollSwitchless_none he]
    | some bs =>
      simp only [IpcState.pollSwitchless] at he
      split at he
      · simp at he
      by_cases hlive : ∃ q : Pid × Pid, s.fast[q]? = some i
      · obtain ⟨q, hq⟩ := hlive
        rw [switchlessCopy_live hi.backed hq] at he
        simp only [Option.some.injEq, Prod.mk.injEq] at he
        rw [← he.2]
        exact Function.update_of_ne (apart hq fun heq => ht (by rw [heq]; rfl)) _ _
      · rw [switchlessCopy_dead hi.backed fun q hq => hlive ⟨q, hq⟩] at he
        simp at he

/-- Every live channel is isolated: a poll returns bytes only for a send on
this channel that was not taken yet, and they are its bytes; and no call on
another channel, its creation included, sets or clears this one's doorbell. -/
def Isolated (ok : List ChanEvent → IpcState → ChanOp → Prop) (h : List ChanEvent) (s : IpcState) : Prop :=
  ∀ (p : Pid × Pid) (id : CapId), s.fast[p]? = some id →
    (∀ n bs s', s.pollSwitchless id n = some (some bs, s') →
      ∃ data, unconsumed h id = some data ∧ bs = (data.take 4096).take n) ∧
    ∀ a es s', ok h s a → s.chanStep a = some (es, s') → a.target s ≠ some id →
      s'.doorbellPending id = s.doorbellPending id

/-- **Isolation** in every run whose channel creations are all slot-safe. -/
theorem isolated_of_slotSafe {mem : ChannelMem} {h : List ChanEvent} {s : IpcState}
    (hr : Runs IpcState.chanStep SlotSafe (.init mem) h s) : Isolated SlotSafe h s := by
  have hi : IsoInv h s := hr.invariant IsoInv (IsoInv.init mem) fun hi hok hs => hi.step hok hs
  intro p id hp
  refine ⟨fun n bs s' he => (hi.poll he).1, fun a es s' hsafe hs ht => ?_⟩
  simp only [IpcState.doorbellPending, hi.others hsafe hs hp ht]

/-- Two channels with a message each, one of them taken. -/
theorem isolated_of_slotSafe_two : ∃ h s, Runs IpcState.chanStep SlotSafe (.init (.ofFrames 16)) h s ∧
    s.doorbellPending 2 = true ∧ s.doorbellPending 1 = false ∧ Isolated SlotSafe h s := by
  obtain ⟨h, s, hr, hP⟩ := Runs.of_exec IpcState.chanStep SlotSafe (.init (.ofFrames 16))
    [.ensure 1 2, .ensure 3 4, .send 1 [7], .send 2 [8, 9], .poll 1 64]
    (fun _ s => s.doorbellPending 2 && !s.doorbellPending 1) (by decide)
  simp only [Bool.and_eq_true, Bool.not_eq_true'] at hP
  exact ⟨h, s, hr, hP.1, hP.2, isolated_of_slotSafe hr⟩

/-- Not every run is isolated: after 63 more ids a new channel shares a live
one's doorbell, and a send on the old channel is polled from the new. -/
theorem not_isolated_of_shared_slot :
    ¬ ∀ (mem : ChannelMem) (h : List ChanEvent) (s : IpcState), Runs IpcState.chanStep free (.init mem) h s →
      Isolated free h s := by
  intro hall
  obtain ⟨h, s, hr, hP⟩ := Runs.of_exec IpcState.chanStep free (.init (.ofFrames 16))
    (.ensure 1 2 :: List.replicate 63 (.alloc 0 []) ++ [.ensure 3 4, .send 1 [7]])
    (fun h s => decide (s.fast[((3 : Pid), (4 : Pid))]? = some 65) && decide (unconsumed h 65 = none) &&
      decide ((s.pollSwitchless 65 64).map (·.1) = some (some [0]))) (by decide +kernel)
  simp only [Bool.and_eq_true, decide_eq_true_eq, Option.map_eq_some_iff] at hP
  obtain ⟨⟨hf, hu⟩, ⟨r, s'⟩, hpoll, rfl⟩ := hP
  obtain ⟨data, hdata, -⟩ := (hall _ h s hr (3, 4) 65 hf).1 64 _ s' hpoll
  rw [hu] at hdata
  cases hdata

end ChodOs
