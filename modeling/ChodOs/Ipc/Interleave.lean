/-
What every step of the interleaved system does to the messages of a pair.

`Inv` says what a task may rely on between two of its steps: a sender past
its lookup has a live channel of its own, a receiver that has copied a
message still finds it pending. It survives every step that is `Orderly`: a
new channel gets a doorbell nobody uses, and a channel is not dropped under
a task that is working on it. The code checks neither.

`Effect` then lists all that an orderly step can do to the queues, the
channels and the history.
-/
import ChodOs.Ipc.Channel
import ChodOs.Ipc.Queue

namespace ChodOs

/-! ## The invariant -/

/-- The id was handed out, and if it is live it is `p`'s. -/
def Owned (s : IpcState) (id : CapId) (p : Pid × Pid) : Prop :=
  id < s.nextCapId ∧ ∀ p' : Pid × Pid, s.fast[p']? = some id → p' = p

/-- `va` is the write address of `p`'s channel `id`. -/
def WritesTo (s : IpcState) (p : Pid × Pid) (id : CapId) (va : Nat) : Prop :=
  s.fast[p]? = some id ∧ ∃ b, s.buffers[id]? = some b ∧ va = b.writeVa

/-- What a task `q` in the middle of a call relies on. -/
def CallOk (s : IpcState) (q : Pid) : Call → Prop
  | .sendLookup dst id _ => Owned s id (q, dst)
  | .sendSpin dst id va _ => WritesTo s (q, dst) id va
  | .sendCopy dst id va _ => WritesTo s (q, dst) id va ∧ pendingChan s (q, dst) = none
  | .sendRing dst id data => s.fast[(q, dst)]? = some id ∧ pendingChan s (q, dst) = none ∧
      chanBytes s id (min data.length 64) = data.take 64
  | .sendQueue dst _ => pendingChan s (q, dst) = none
  | .recvPoll rest => ∀ c ∈ rest, Owned s c.1 (c.2, q)
  | .recvCopy id src len rest => Owned s id (src, q) ∧ (∀ c ∈ rest, Owned s c.1 (c.2, q)) ∧
      (s.fast[(src, q)]? = some id → pendingChan s (src, q) = some (chanBytes s id (min len 64)))
  | .recvClear id src bs => s.fast[(src, q)]? = some id ∧ pendingChan s (src, q) = some bs

/-- The call breaks if channel `id` goes away under it. -/
def Call.holds (id : CapId) : Call → Bool
  | .sendSpin _ i _ _ => i == id
  | .sendCopy _ i _ _ => i == id
  | .sendRing _ i _ => i == id
  | .recvClear i _ _ => i == id
  | _ => false

structure Sys.Inv (s : Sys) : Prop where
  pids : s.k.sched.PidsDistinct
  inline : QueuesInline s.k.sched
  backed : Backed s.k.ipc
  slots : SlotsDistinct s.k.ipc
  calls : ∀ {q : Pid} {c : Call}, s.calls[q]? = some c → CallOk s.k.ipc q c

/-- What an orderly step promises. -/
def Orderly (s : Sys) : Act → Prop
  | .ensure src dst => s.k.ipc.fast[(src, dst)]? = none → SlotFree s.k.ipc
  | .drop src dst => ∀ id ∈ s.k.ipc.fast[(src, dst)]?, FinMap.All s.calls fun _ c => c.holds id = false
  | _ => True

theorem Sys.Boot.inv {s : Sys} (h : s.Boot) : s.Inv where
  pids := h.pids
  inline q pr hpr m hm := by rw [h.queues pr (List.mem_of_find?_eq_some hpr)] at hm; cases hm
  backed := Backed.init h.fast h.buffers
  slots p p' id id' hp := by simp [h.fast] at hp
  calls hc := by simp [h.idle] at hc

/-! ## What the other tasks keep -/

/-- A change of the IPC state that task `q`, in call `c`, does not notice. -/
structure Kept (s s' : IpcState) (q : Pid) (c : Call) : Prop where
  next : s.nextCapId ≤ s'.nextCapId
  old : ∀ {p : Pid × Pid} {id : CapId}, id < s.nextCapId → s'.fast[p]? = some id → s.fast[p]? = some id
  live : ∀ {p : Pid × Pid} {id : CapId}, c.holds id = true → s.fast[p]? = some id →
    s'.fast[p]? = some id ∧ s'.buffers[id]? = s.buffers[id]?
  sends : ∀ {dst : Pid}, pendingChan s (q, dst) = none → pendingChan s' (q, dst) = none
  holds : ∀ {src : Pid} {id : CapId} {bs : List UInt8}, s'.fast[(src, q)]? = some id →
    pendingChan s (src, q) = some bs → pendingChan s' (src, q) = some bs
  bytes : ∀ {p : Pid × Pid} {id : CapId} {n : Nat}, s.fast[p]? = some id → s'.fast[p]? = some id →
    p.1 = q ∨ pendingChan s p ≠ none → n ≤ 64 → chanBytes s' id n = chanBytes s id n

theorem Owned.kept {s s' : IpcState} {q : Pid} {c : Call} (h : Kept s s' q c) {id : CapId} {p : Pid × Pid}
    (ho : Owned s id p) : Owned s' id p :=
  ⟨Nat.lt_of_lt_of_le ho.1 h.next, fun p' hp' => ho.2 p' (h.old ho.1 hp')⟩

theorem CallOk.kept {s s' : IpcState} {q : Pid} {c : Call} (h : Kept s s' q c) (hok : CallOk s q c) :
    CallOk s' q c := by
  have writes : ∀ {dst : Pid} {id : CapId} {va : Nat}, c.holds id = true → WritesTo s (q, dst) id va →
      WritesTo s' (q, dst) id va := by
    intro dst id va hc ⟨hf, b, hb, hva⟩
    obtain ⟨hf', hb'⟩ := h.live hc hf
    exact ⟨hf', b, hb'.trans hb, hva⟩
  cases c with
  | sendLookup dst id data => exact Owned.kept h hok
  | sendSpin dst id va data => exact writes (by simp [Call.holds]) hok
  | sendCopy dst id va data => exact ⟨writes (by simp [Call.holds]) hok.1, h.sends hok.2⟩
  | sendRing dst id data =>
    obtain ⟨hf, hp, hb⟩ := hok
    obtain ⟨hf', -⟩ := h.live (by simp [Call.holds]) hf
    exact ⟨hf', h.sends hp, (h.bytes hf hf' (.inl rfl) (Nat.min_le_right _ _)).trans hb⟩
  | sendQueue dst data => exact h.sends hok
  | recvPoll rest => exact fun c hc => Owned.kept h (hok c hc)
  | recvCopy id src len rest =>
    obtain ⟨ho, hrest, hlen⟩ := hok
    refine ⟨Owned.kept h ho, fun c hc => Owned.kept h (hrest c hc), fun hf' => ?_⟩
    have hf := h.old ho.1 hf'
    rw [h.bytes hf hf' (.inr (by simp [hlen hf])) (Nat.min_le_right _ _)]
    exact h.holds hf' (hlen hf)
  | recvClear id src bs =>
    obtain ⟨hf, hp⟩ := hok
    obtain ⟨hf', -⟩ := h.live (by simp [Call.holds]) hf
    exact ⟨hf', h.holds hf' hp⟩

section kept
variable {s s' : IpcState} {p : Pid × Pid} {id : CapId} {b : SharedBuffer} {q : Pid} {c : Call}

/-- A sender's copy, for every other task. -/
theorem kept_switchlessWrite (h : Backed s) (hp : s.fast[p]? = some id) (hb : s.buffers[id]? = some b)
    (h0 : pendingChan s p = none) (hq : q ≠ p.1) (data : List UInt8) :
    Kept s (s.switchlessWrite b.writeVa data) q c := by
  have hdoor : s.doorbells (swSlot id) = 0 := doorbell_of_pendingChan hp h0
  have hpend := pendingChan_switchlessWrite h hp hb hdoor data
  refine ⟨Nat.le_refl _, fun _ hf => hf, fun _ hf => ⟨hf, rfl⟩, fun h => by rw [hpend]; exact h,
    fun _ h => by rw [hpend]; exact h, fun {p'} {id'} {n} hf _ hor hn => ?_⟩
  refine chanBytes_switchlessWrite_other h hp hb hf ?_ data (Nat.le_trans hn (by decide))
  intro h
  obtain rfl := h
  rcases hor with rfl | hne
  · exact hq rfl
  · exact hne h0

/-- A sender's doorbell, for every other task. -/
theorem kept_switchlessRing (hs : SlotsDistinct s) (hp : s.fast[p]? = some id) (h0 : pendingChan s p = none)
    (hq : q ≠ p.1) (data : List UInt8) : Kept s (s.switchlessRing id data) q c := by
  have hpend := pendingChan_switchlessRing hs hp data
  refine ⟨Nat.le_refl _, fun _ hf => hf, fun _ hf => ⟨hf, rfl⟩, fun {dst} h => ?_, fun {src} {_} {bs} _ h => ?_,
    fun _ _ _ _ => rfl⟩
  · rw [hpend, if_neg fun he => hq (by rw [← he]), h]
  · rw [hpend, if_neg fun he => ?_, h]
    rw [he, h0] at h; cases h

/-- A receiver's doorbell, for every other task. -/
theorem kept_resetDoorbell (hs : SlotsDistinct s) (hp : s.fast[p]? = some id) (hq : q ≠ p.2) :
    Kept s (s.resetDoorbell id) q c := by
  have hpend := pendingChan_resetDoorbell hs hp
  refine ⟨Nat.le_refl _, fun _ hf => hf, fun _ hf => ⟨hf, rfl⟩, fun {dst} h => ?_, fun {src} {_} {bs} _ h => ?_,
    fun _ _ _ _ => rfl⟩
  · rw [hpend]; split
    · rfl
    · exact h
  · rw [hpend, if_neg fun he => hq (by rw [← he]), h]

/-- A new channel, for every task. -/
theorem kept_created (h : Backed s) (hp : s.fast[p]? = none) (hfree : SlotFree s) (hc : Created s s' p b) :
    Kept s s' q c := by
  have hpend := pendingChan_created h hp hfree hc
  refine ⟨by rw [hc.id]; exact Nat.le_succ _, fun {p'} {id} hlt hf => ?_,
    fun {p'} {id} _ hf => ⟨hc.fast_mono hp hf, ?_⟩,
    fun h => by rw [hpend]; exact h, fun _ h => by rw [hpend]; exact h,
    fun {p'} {id} {n} hf _ _ hn => chanBytes_created h hc hf (Nat.le_trans hn (by decide))⟩
  · rcases hc.fast_cases hf with ⟨-, rfl⟩ | ⟨-, hf⟩
    · exact absurd hlt (Nat.lt_irrefl _)
    · exact hf
  · obtain ⟨b', hb', -⟩ := h.buf hf
    exact hc.buffer_old (Nat.ne_of_lt (h.fresh hb'))

/-- A channel dropped, for every task that is not working on it. -/
theorem kept_dropChannel (h : Backed s) {src dst : Pid}
    (hfree : ∀ id, s.fast[(src, dst)]? = some id → c.holds id = false) : Kept s (s.dropChannel src dst) q c := by
  have hpend := pendingChan_dropChannel h src dst
  cases hf : s.fast[(src, dst)]? with
  | none =>
    rw [dropChannel_none hf]
    exact ⟨Nat.le_refl _, fun _ h => h, fun _ h => ⟨h, rfl⟩, id, fun _ h => h, fun _ _ _ _ => rfl⟩
  | some id =>
    obtain ⟨b, hb, hfb⟩ := h.buf hf
    refine ⟨by rw [dropChannel_eq hf hb hfb], fun _ hi => (fast_of_dropChannel hi).2, fun {p'} {i} hi hp' => ?_,
      fun {d} hd => ?_,
      fun {_} {_} {_} hi hbs => ?_, fun {p'} {i} {n} hp' hi _ _ => ?_⟩
    · have hne : id ≠ i := by rintro rfl; rw [hfree _ hf] at hi; cases hi
      have hp : (src, dst) ≠ p' := by rintro rfl; rw [hf] at hp'; exact hne (by simpa using hp')
      rw [dropChannel_eq hf hb hfb, IpcState.getElem?_fast_erase, IpcState.getElem?_buffers_erase, if_neg hp,
        if_neg hne]
      exact ⟨hp', rfl⟩
    · rw [hpend]; split
      · rfl
      · exact hd
    · rw [hpend, if_neg (fast_of_dropChannel hi).1, hbs]
    · exact chanBytes_dropChannel h hp' (fast_of_dropChannel hi).1 n

end kept

/-! ## What a step does -/

/-- All that an orderly step does to the messages: the cases differ in what
they report and in which queue or channel they touch. -/
inductive Effect (s : Sys) (a : Act) (s' : Sys) : List IpcEvent → Prop
  | silent : queueOf s'.k.sched = queueOf s.k.sched → pendingChan s'.k.ipc = pendingChan s.k.ipc → Effect s a s' []
  | refused {src dst : Pid} {data : List UInt8} : queueOf s'.k.sched = queueOf s.k.sched →
      pendingChan s'.k.ipc = pendingChan s.k.ipc → Effect s a s' [.sent src dst data false]
  | queued {src dst : Pid} {data : List UInt8} : pendingChan s.k.ipc (src, dst) = none →
      (∀ p, queueOf s'.k.sched p = queueOf s.k.sched p ++ if p = (src, dst) then [data.take 64] else []) →
      pendingChan s'.k.ipc = pendingChan s.k.ipc → Effect s a s' [.sent src dst data true]
  | rang {dst : Pid} {id : CapId} {data : List UInt8} : s.calls[s.me]? = some (.sendRing dst id data) →
      pendingChan s.k.ipc (s.me, dst) = none → queueOf s'.k.sched = queueOf s.k.sched →
      (∀ p, pendingChan s'.k.ipc p = if p = (s.me, dst) then if data = [] then none else some (data.take 64)
        else pendingChan s.k.ipc p) → Effect s a s' [.sent s.me dst data true]
  | took {id : CapId} {src : Pid} {bs : List UInt8} : a = .go → s.calls[s.me]? = some (.recvClear id src bs) →
      pendingChan s.k.ipc (src, s.me) = some bs → queueOf s'.k.sched = queueOf s.k.sched →
      (∀ p, pendingChan s'.k.ipc p = if p = (src, s.me) then none else pendingChan s.k.ipc p) →
      Effect s a s' [.received s.me (.inline src bs)]
  | popped {msg : Message} :
      (∀ p, queueOf s.k.sched p = (if p = (msg.sender, s.me) then [msg.payload] else []) ++ queueOf s'.k.sched p) →
      pendingChan s'.k.ipc = pendingChan s.k.ipc → Effect s a s' [.received s.me msg]
  | dropped {src dst : Pid} : a = .drop src dst → queueOf s'.k.sched = queueOf s.k.sched →
      (∀ p, pendingChan s'.k.ipc p = if p = (src, dst) then none else pendingChan s.k.ipc p) → Effect s a s' []

/-- The running task moves on, and nobody else notices. -/
theorem Sys.Inv.advance {s : Sys} (h : s.Inv) {k' : Kernel} {c : Option Call} (hp : k'.sched.PidsDistinct)
    (hi : QueuesInline k'.sched) (hb : Backed k'.ipc) (hs : SlotsDistinct k'.ipc)
    (hk : ∀ q c', q ≠ s.me → Kept s.k.ipc k'.ipc q c') (hc : ∀ c', c = some c' → CallOk k'.ipc s.me c') :
    Sys.Inv { s.setCall c with k := k' } := by
  refine ⟨hp, hi, hb, hs, fun {q} {c'} hq => ?_⟩
  replace hq : (s.setCall c).calls[q]? = some c' := hq
  rw [Sys.getElem?_setCall] at hq
  split at hq
  · next he => rw [he]; exact hc c' hq
  · next hne => exact (h.calls hq).kept (hk q c' hne)

theorem Kept.refl (s : IpcState) (q : Pid) (c : Call) : Kept s s q c :=
  ⟨Nat.le_refl _, fun _ h => h, fun _ h => ⟨h, rfl⟩, id, fun _ h => h, fun _ _ _ _ => rfl⟩

theorem Sys.Inv.setCall {s : Sys} (h : s.Inv) {c : Option Call}
    (hc : ∀ c', c = some c' → CallOk s.k.ipc s.me c') : (s.setCall c).Inv :=
  h.advance h.pids h.inline h.backed h.slots (fun q c' _ => Kept.refl _ q c') hc

/-- The bytes a poll copies are at most the buffer's. -/
theorem chanBytes_length {s : IpcState} (h : Backed s) {p : Pid × Pid} {id : CapId} (hp : s.fast[p]? = some id)
    (n : Nat) : (chanBytes s id n).length = n := by
  obtain ⟨b, hb, -⟩ := h.buf hp
  simp [chanBytes, hb]

theorem pendingChan_length {s : IpcState} (h : Backed s) {p : Pid × Pid} {bs : List UInt8}
    (hp : pendingChan s p = some bs) : bs.length ≤ 64 := by
  simp only [pendingChan, Option.bind_eq_some_iff] at hp
  obtain ⟨id, hid, hp⟩ := hp
  split at hp
  · cases hp
  · cases hp
    rw [chanBytes_length h hid]; exact Nat.min_le_right _ _

section go
variable {s s' : Sys} {es : List IpcEvent}

theorem Sys.Inv.go_send (h : s.Inv) {dst : Pid} {id : CapId} {va : Nat} {data : List UInt8}
    (hc : s.calls[s.me]? = some (.sendCopy dst id va data))
    (hg : s.go (.sendCopy dst id va data) = some (es, s')) : s'.Inv ∧ Effect s .go s' es := by
  obtain ⟨⟨hf, b, hb, rfl⟩, h0⟩ := h.calls hc
  simp only [Sys.go, Option.some.injEq, Prod.mk.injEq] at hg
  obtain ⟨rfl, rfl⟩ := hg
  have hpend := pendingChan_switchlessWrite h.backed hf hb (doorbell_of_pendingChan hf h0) data
  refine ⟨h.advance h.pids h.inline (h.backed.switchlessWrite _ _) h.slots ?_ ?_, .silent rfl (funext hpend)⟩
  · exact fun q c' hq => kept_switchlessWrite h.backed hf hb h0 hq data
  · intro c' h
    obtain ⟨⟩ := h
    refine ⟨hf, (hpend _).trans h0, ?_⟩
    rw [chanBytes_switchlessWrite h.backed hf hb data (by omega)]
    rcases Nat.le_total data.length 64 with hle | hle
    · rw [Nat.min_eq_left hle, List.take_of_length_le (Nat.le_refl _), List.take_of_length_le hle]
    · rw [Nat.min_eq_right hle]

theorem Sys.Inv.go_ring (h : s.Inv) {dst : Pid} {id : CapId} {data : List UInt8}
    (hc : s.calls[s.me]? = some (.sendRing dst id data)) (hg : s.go (.sendRing dst id data) = some (es, s')) :
    s'.Inv ∧ Effect s .go s' es := by
  obtain ⟨hf, h0, hbytes⟩ := h.calls hc
  simp only [Sys.go, Option.some.injEq, Prod.mk.injEq] at hg
  obtain ⟨rfl, rfl⟩ := hg
  have hpend := pendingChan_switchlessRing h.slots hf data
  rw [hbytes] at hpend
  refine ⟨h.advance h.pids h.inline (h.backed.switchlessRing _ _) h.slots ?_ (by simp), .rang hc h0 rfl hpend⟩
  exact fun q c' hq => kept_switchlessRing h.slots hf h0 hq data

theorem Sys.Inv.go_queue (h : s.Inv) {dst : Pid} {data : List UInt8}
    (hc : s.calls[s.me]? = some (.sendQueue dst data)) (hg : s.go (.sendQueue dst data) = some (es, s')) :
    s'.Inv ∧ Effect s .go s' es := by
  have h0 : pendingChan s.k.ipc (s.me, dst) = none := h.calls hc
  have hq := sendMessage_queued h.pids dst (.inline s.me data)
  have hok := sendMessage_ok s.k dst (.inline s.me data) h.pids
  simp only [Sys.go, Option.some.injEq, Prod.mk.injEq] at hg
  obtain ⟨rfl, rfl⟩ := hg
  refine ⟨h.advance hq.pids (hq.inline h.inline rfl) (hq.ipc ▸ h.backed) (hq.ipc ▸ h.slots) ?_ (by simp), ?_⟩
  · exact fun q c' _ => by rw [hq.ipc]; exact Kept.refl _ q c'
  · have hchan : pendingChan (s.k.sendMessage dst (.inline s.me data)).2.ipc = pendingChan s.k.ipc := by rw [hq.ipc]
    rw [hok]
    cases hh : s.k.sched.has dst with
    | false => exact .refused (funext fun p => by rw [hq.queue]; simp [hh]) hchan
    | true => exact .queued h0 (fun p => by rw [hq.queue]; simp [hh]) hchan

theorem Sys.Inv.go_pop (h : s.Inv) (hg : s.go (.recvPoll []) = some (es, s')) : s'.Inv ∧ Effect s .go s' es := by
  obtain ⟨k', hk', hpop⟩ := recvQueue_popped h.pids h.inline
  simp only [Sys.go, hk', Option.map_some, Option.some.injEq, Prod.mk.injEq] at hg
  obtain ⟨rfl, rfl⟩ := hg
  have hchan : pendingChan k'.ipc = pendingChan s.k.ipc := by rw [hpop.ipc]
  refine ⟨h.advance hpop.pids hpop.inline (hpop.ipc ▸ h.backed) (hpop.ipc ▸ h.slots) ?_ (by simp), ?_⟩
  · exact fun q c' _ => by rw [hpop.ipc]; exact Kept.refl _ q c'
  · have hqueue := hpop.queue
    generalize s.k.sched.cur.messageQueue.head? = msg at hqueue ⊢
    cases msg with
    | none => exact .silent (funext fun p => by simpa using (hqueue p).symm) hchan
    | some m =>
      refine .popped (fun p => ?_) hchan
      rw [hqueue p]
      congr 1
      by_cases hp : p = (m.sender, s.me)
      · subst hp; simp [Sys.me]
      · have : ¬ (m.sender, s.k.sched.currentPid) = p := fun he => hp he.symm
        simp [hp, this]

theorem Sys.Inv.go_copy (h : s.Inv) {id : CapId} {src : Pid} {len : Nat} {rest : List (CapId × Pid)}
    (hc : s.calls[s.me]? = some (.recvCopy id src len rest)) (hg : s.go (.recvCopy id src len rest) = some (es, s')) :
    s'.Inv ∧ Effect s .go s' es := by
  obtain ⟨ho, hrest, hlen⟩ := h.calls hc
  by_cases hf : s.k.ipc.fast[(src, s.me)]? = some id
  · simp only [Sys.go, switchlessCopy_live h.backed hf, Option.some.injEq, Prod.mk.injEq] at hg
    obtain ⟨rfl, rfl⟩ := hg
    refine ⟨h.setCall ?_, .silent rfl rfl⟩
    intro c' h
    obtain ⟨⟩ := h
    exact ⟨hf, hlen hf⟩
  · have hdead : ∀ p : Pid × Pid, s.k.ipc.fast[p]? ≠ some id := fun p hp => hf (ho.2 p hp ▸ hp)
    simp only [Sys.go, switchlessCopy_dead h.backed hdead, Option.some.injEq, Prod.mk.injEq] at hg
    obtain ⟨rfl, rfl⟩ := hg
    refine ⟨h.setCall ?_, .silent rfl rfl⟩
    intro c' h
    obtain ⟨⟩ := h
    exact hrest

theorem Sys.Inv.go_clear (h : s.Inv) {id : CapId} {src : Pid} {bs : List UInt8}
    (hc : s.calls[s.me]? = some (.recvClear id src bs)) (hg : s.go (.recvClear id src bs) = some (es, s')) :
    s'.Inv ∧ Effect s .go s' es := by
  obtain ⟨hf, hp⟩ := h.calls hc
  simp only [Sys.go, Option.some.injEq, Prod.mk.injEq] at hg
  obtain ⟨rfl, rfl⟩ := hg
  have hpend := pendingChan_resetDoorbell h.slots hf
  refine ⟨h.advance h.pids h.inline (h.backed.resetDoorbell _) h.slots ?_ (by simp), .took rfl hc hp rfl hpend⟩
  exact fun q c' hq => kept_resetDoorbell h.slots hf hq

/-- A step of the running task in its call. -/
theorem Sys.Inv.go (h : s.Inv) {c : Call} (hc : s.calls[s.me]? = some c) (hg : s.go c = some (es, s')) :
    s'.Inv ∧ Effect s .go s' es := by
  cases c with
  | sendLookup dst id data =>
    have ho : Owned s.k.ipc id (s.me, dst) := h.calls hc
    simp only [Sys.go] at hg
    split at hg
    · simp only [Option.some.injEq, Prod.mk.injEq] at hg
      obtain ⟨rfl, rfl⟩ := hg
      exact ⟨h.setCall (by simp), .refused rfl rfl⟩
    · next va hva =>
      simp only [Option.some.injEq, Prod.mk.injEq] at hg
      obtain ⟨rfl, rfl⟩ := hg
      refine ⟨h.setCall ?_, .silent rfl rfl⟩
      intro c' h
      obtain ⟨⟩ := h
      obtain ⟨b, hb, hfb, rfl⟩ := switchlessVa_some hva
      obtain ⟨p, hp⟩ := h.backed.live hb hfb
      exact ⟨ho.2 p hp ▸ hp, b, hb, rfl⟩
  | sendSpin dst id va data =>
    have hw : WritesTo s.k.ipc (s.me, dst) id va := h.calls hc
    simp only [Sys.go] at hg
    split at hg
    · next h0 =>
      simp only [Option.some.injEq, Prod.mk.injEq] at hg
      obtain ⟨rfl, rfl⟩ := hg
      refine ⟨h.setCall ?_, .silent rfl rfl⟩
      intro c' h
      obtain ⟨⟩ := h
      exact ⟨hw, pendingChan_of_doorbell hw.1 h0⟩
    · simp only [Option.some.injEq, Prod.mk.injEq] at hg
      obtain ⟨rfl, rfl⟩ := hg
      exact ⟨h, .silent rfl rfl⟩
  | sendCopy dst id va data => exact h.go_send hc hg
  | sendRing dst id data => exact h.go_ring hc hg
  | sendQueue dst data => exact h.go_queue hc hg
  | recvPoll rest =>
    cases rest with
    | nil => exact h.go_pop hg
    | cons ch rest =>
      obtain ⟨id, src⟩ := ch
      have hall := h.calls hc
      have ho : Owned s.k.ipc id (src, s.me) := hall _ List.mem_cons_self
      have hrest : ∀ c ∈ rest, Owned s.k.ipc c.1 (c.2, s.me) := fun c hc => hall c (List.mem_cons_of_mem _ hc)
      simp only [Sys.go] at hg
      split at hg
      · simp only [Option.some.injEq, Prod.mk.injEq] at hg
        obtain ⟨rfl, rfl⟩ := hg
        refine ⟨h.setCall ?_, .silent rfl rfl⟩
        intro c' h
        obtain ⟨⟩ := h
        exact hrest
      · next hne =>
        simp only [Option.some.injEq, Prod.mk.injEq] at hg
        obtain ⟨rfl, rfl⟩ := hg
        refine ⟨h.setCall ?_, .silent rfl rfl⟩
        intro c' h
        obtain ⟨⟩ := h
        exact ⟨ho, hrest, fun hf => by simp [pendingChan, hf, hne]⟩
  | recvCopy id src len rest => exact h.go_copy hc hg
  | recvClear id src bs => exact h.go_clear hc hg

end go

/-- The channels `recv` starts to poll are the receiver's. -/
theorem owned_findIncomingChannels {s : IpcState} (h : Backed s) {q : Pid} {n : Nat} :
    ∀ c ∈ s.findIncomingChannels q n, Owned s c.1 (c.2, q) := by
  intro c hc
  have hf := IpcState.mem_findIncomingChannels hc
  obtain ⟨b, hb, -⟩ := h.buf hf
  exact ⟨h.fresh hb, fun p' hp' => h.inj hp' hf⟩

/-- Every orderly step keeps the invariant and does one of the listed things. -/
theorem Sys.Inv.step {s s' : Sys} {a : Act} {es : List IpcEvent} (h : s.Inv) (ho : Orderly s a)
    (hs : s.step a = some (es, s')) : s'.Inv ∧ Effect s a s' es := by
  cases a with
  | switchTo i =>
    simp only [Sys.step] at hs
    split at hs
    · simp only [Option.some.injEq, Prod.mk.injEq] at hs
      obtain ⟨rfl, rfl⟩ := hs
      exact ⟨⟨h.pids, h.inline, h.backed, h.slots, h.calls⟩, .silent rfl rfl⟩
    · cases hs
  | send dst data =>
    simp only [Sys.step] at hs
    split at hs
    · split at hs
      · next id hid =>
        simp only [Option.some.injEq, Prod.mk.injEq] at hs
        obtain ⟨rfl, rfl⟩ := hs
        refine ⟨h.setCall ?_, .silent rfl rfl⟩
        intro c' h
        obtain ⟨⟩ := h
        obtain ⟨b, hb, -⟩ := h.backed.buf hid
        exact ⟨h.backed.fresh hb, fun p' hp' => h.backed.inj hp' hid⟩
      · next hid =>
        simp only [Option.some.injEq, Prod.mk.injEq] at hs
        obtain ⟨rfl, rfl⟩ := hs
        refine ⟨h.setCall ?_, .silent rfl rfl⟩
        intro c' h
        obtain ⟨⟩ := h
        simp only [IpcState.getChannel] at hid
        simp [CallOk, pendingChan, hid]
    · cases hs
  | recv =>
    simp only [Sys.step] at hs
    split at hs
    · simp only [Option.some.injEq, Prod.mk.injEq] at hs
      obtain ⟨rfl, rfl⟩ := hs
      refine ⟨h.setCall ?_, .silent rfl rfl⟩
      intro c' h
      obtain ⟨⟩ := h
      exact owned_findIncomingChannels h.backed
    · cases hs
  | go =>
    simp only [Sys.step, Option.bind_eq_some_iff] at hs
    obtain ⟨c, hc, hg⟩ := hs
    exact h.go hc hg
  | ensure src dst =>
    simp only [Sys.step, Option.map_eq_some_iff, Prod.mk.injEq] at hs
    obtain ⟨⟨id, ipc⟩, he, rfl, rfl⟩ := hs
    rcases ensureChannelCap_cases he with ⟨-, rfl⟩ | ⟨hn, -, b, hc⟩
    · exact ⟨h, .silent rfl rfl⟩
    · have hfree : SlotFree s.k.ipc := ho hn
      refine ⟨⟨h.pids, h.inline, h.backed.created hn hc, h.slots.created hfree hc, fun hq => ?_⟩,
        .silent rfl (funext (pendingChan_created h.backed hn hfree hc))⟩
      exact (h.calls hq).kept (kept_created h.backed hn hfree hc)
  | drop src dst =>
    simp only [Sys.step, Option.some.injEq, Prod.mk.injEq] at hs
    obtain ⟨rfl, rfl⟩ := hs
    refine ⟨⟨h.pids, h.inline, h.backed.dropChannel _ _, h.slots.dropChannel _ _, fun {q} {c} hq => ?_⟩,
      .dropped rfl rfl (pendingChan_dropChannel h.backed _ _)⟩
    exact (h.calls hq).kept (kept_dropChannel h.backed fun id hid => ho id hid q c hq)

end ChodOs
