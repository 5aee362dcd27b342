/-
No message is lost, duplicated or reordered, and when that fails.

Both results are about whole runs of the interleaved system. The code keeps
neither property in every run: a channel that is reclaimed while its
doorbell is set, or under a sender, takes an accepted message with it; an
empty message does not ring the doorbell; a channel created 64 ids later
shares a doorbell; and `recv` looks at the doorbells before the queue,
whichever message is older.
-/
import ChodOs.Ipc.Interleave

namespace ChodOs

open StepSys

/-! ## Histories -/

/-- The sends of a pair that returned true, in order, each cut to 64 bytes. -/
def accepted (h : List IpcEvent) (p : Pid × Pid) : List (List UInt8) :=
  h.filterMap fun
    | .sent src dst data true => if (src, dst) = p then some (data.take 64) else none
    | _ => none

/-- What the pair's receiver got from its sender, in order. -/
def received (h : List IpcEvent) (p : Pid × Pid) : List (List UInt8) :=
  h.filterMap fun
    | .received dst msg => if (msg.sender, dst) = p then some msg.payload else none
    | _ => none

/-- What is on its way for a pair: queued, then in the channel. -/
def Sys.pending (s : Sys) (p : Pid × Pid) : List (List UInt8) :=
  queueOf s.k.sched p ++ (pendingChan s.k.ipc p).toList

theorem Sys.Boot.pending {s : Sys} (hb : s.Boot) (p : Pid × Pid) : s.pending p = [] := by
  have hq : queueOf s.k.sched p = [] := by
    cases hf : s.k.sched.find p.2 with
    | none => simp [queueOf, hf]
    | some pr => simp [queueOf, hf, hb.queues pr (List.mem_of_find?_eq_some hf)]
  simp [Sys.pending, hq, pendingChan, hb.fast]

@[simp] theorem accepted_append (h h' : List IpcEvent) (p : Pid × Pid) :
    accepted (h ++ h') p = accepted h p ++ accepted h' p := List.filterMap_append

@[simp] theorem received_append (h h' : List IpcEvent) (p : Pid × Pid) :
    received (h ++ h') p = received h p ++ received h' p := List.filterMap_append

@[simp] theorem accepted_nil (p : Pid × Pid) : accepted [] p = [] := rfl
@[simp] theorem received_nil (p : Pid × Pid) : received [] p = [] := rfl

@[simp] theorem accepted_sent (src dst : Pid) (data : List UInt8) (ok : Bool) (p : Pid × Pid) :
    accepted [.sent src dst data ok] p = if ok ∧ p = (src, dst) then [data.take 64] else [] := by
  cases ok with
  | false => simp [accepted]
  | true =>
    by_cases hp : p = (src, dst)
    · simp [accepted, hp]
    · have : ¬ (src, dst) = p := fun he => hp he.symm
      simp [accepted, hp, this]

@[simp] theorem accepted_received (dst : Pid) (msg : Message) (p : Pid × Pid) :
    accepted [.received dst msg] p = [] := rfl

@[simp] theorem received_sent (src dst : Pid) (data : List UInt8) (ok : Bool) (p : Pid × Pid) :
    received [.sent src dst data ok] p = [] := rfl

@[simp] theorem received_received (dst : Pid) (msg : Message) (p : Pid × Pid) :
    received [.received dst msg] p = if p = (msg.sender, dst) then [msg.payload] else [] := by
  by_cases hp : p = (msg.sender, dst)
  · simp [received, hp]
  · have : ¬ (msg.sender, dst) = p := fun he => hp he.symm
    simp [received, hp, this]

/-! ## Nothing is lost or duplicated -/

/-- The call is a send past its lookup on channel `id`. -/
def Call.sendsOn (id : CapId) : Call → Bool
  | .sendSpin _ i _ _ => i == id
  | .sendCopy _ i _ _ => i == id
  | .sendRing _ i _ => i == id
  | _ => false

/-- The steps that lose nothing: a message on the fast path has bytes, a new
channel's doorbell is nobody else's, and a channel is dropped only when its
doorbell is clear and nobody is sending on it. -/
def Lossless (_ : List IpcEvent) (s : Sys) : Act → Prop
  | .send dst data => s.k.ipc.getChannel s.me dst ≠ none → data ≠ []
  | .ensure src dst => s.k.ipc.getChannel src dst = none → SlotFree s.k.ipc
  | .drop src dst => ∀ id ∈ s.k.ipc.getChannel src dst, s.k.ipc.doorbells (swSlot id) = 0 ∧
      FinMap.All s.calls fun _ c => c.sendsOn id = false
  | _ => True

instance : ∀ h s a, Decidable (Lossless h s a)
  | _, _, .send _ _ => inferInstanceAs (Decidable (_ → _))
  | _, _, .ensure _ _ => inferInstanceAs (Decidable (_ → _))
  | _, s, .drop src dst => inferInstanceAs (Decidable (∀ id ∈ s.k.ipc.getChannel src dst, _))
  | _, _, .switchTo _ => .isTrue trivial
  | _, _, .recv => .isTrue trivial
  | _, _, .go => .isTrue trivial

/-- Where nothing waits in the channel, no receiver is about to clear it. -/
theorem Lossless.orderly {h : List IpcEvent} {s : Sys} {a : Act} (hi : s.Inv) (hl : Lossless h s a) :
    Orderly s a := by
  cases a with
  | ensure src dst => exact hl
  | drop src dst =>
    intro id hid q c hc
    obtain ⟨h0, hsend⟩ := hl id hid
    have hok := hi.calls hc
    have hs := hsend q c hc
    cases c with
    | recvClear i src' bs =>
      by_contra hne
      obtain rfl : i = id := by simpa [Call.holds] using hne
      obtain ⟨hf, hp⟩ := hok
      rw [pendingChan_of_doorbell hf h0] at hp
      cases hp
    | sendSpin | sendCopy | sendRing => exact hs
    | sendLookup | sendQueue | recvPoll | recvCopy => rfl
  | _ => trivial

/-- The bytes of a send on the fast path. -/
def Call.fastData : Call → Option (List UInt8)
  | .sendLookup _ _ data => some data
  | .sendSpin _ _ _ data => some data
  | .sendCopy _ _ _ data => some data
  | .sendRing _ _ data => some data
  | _ => none

/-- No send on the fast path is empty. -/
def Sys.FastNonempty (s : Sys) : Prop := FinMap.All s.calls fun _ c => c.fastData ≠ some []

theorem Sys.FastNonempty.setCall {s : Sys} (h : s.FastNonempty) {c : Option Call}
    (hc : ∀ c', c = some c' → c'.fastData ≠ some []) : (s.setCall c).FastNonempty := by
  intro q c' hq
  rw [Sys.getElem?_setCall] at hq
  split at hq
  · exact hc c' hq
  · exact h q c' hq

/-- A call goes on with the bytes it started with. -/
theorem Sys.FastNonempty.go {s s' : Sys} (h : s.FastNonempty) {c : Call} {es : List IpcEvent}
    (hc : c.fastData ≠ some []) (hg : s.go c = some (es, s')) : s'.FastNonempty := by
  have next : ∀ {k' : Kernel} {c' : Option Call}, (∀ d, c' = some d → d.fastData ≠ some []) →
      Sys.FastNonempty { s.setCall c' with k := k' } := fun hc' => h.setCall hc'
  cases c with
  | recvPoll rest =>
    cases rest with
    | nil =>
      simp only [Sys.go, Option.map_eq_some_iff, Prod.mk.injEq] at hg
      obtain ⟨⟨msg, k'⟩, -, -, rfl⟩ := hg
      exact next (by simp)
    | cons ch rest =>
      simp only [Sys.go] at hg
      split at hg <;> cases hg
      · exact next (by rintro c' ⟨⟩; simp [Call.fastData])
      · exact next (by rintro c' ⟨⟩; simp [Call.fastData])
  | recvCopy id src len rest =>
    simp only [Sys.go] at hg
    split at hg <;> cases hg
    · exact next (by rintro c' ⟨⟩; simp [Call.fastData])
    · exact next (by rintro c' ⟨⟩; simp [Call.fastData])
  | sendLookup dst id data =>
    simp only [Sys.go] at hg
    split at hg <;> cases hg
    · exact next (by simp)
    · exact next (by rintro c' ⟨⟩; exact hc)
  | sendSpin dst id va data =>
    simp only [Sys.go] at hg
    split at hg <;> cases hg
    · exact next (by rintro c' ⟨⟩; exact hc)
    · exact h
  | sendCopy dst id va data => cases hg; exact next (by rintro c' ⟨⟩; exact hc)
  | sendRing dst id data => cases hg; exact next (by simp)
  | sendQueue dst data => cases hg; exact next (by simp)
  | recvClear id src bs => cases hg; exact next (by simp)

theorem Sys.FastNonempty.step {s s' : Sys} {a : Act} {h : List IpcEvent} {es : List IpcEvent} (hn : s.FastNonempty)
    (hl : Lossless h s a) (hs : s.step a = some (es, s')) : s'.FastNonempty := by
  cases a with
  | switchTo i =>
    simp only [Sys.step] at hs
    split at hs <;> cases hs
    exact hn
  | send dst data =>
    simp only [Sys.step] at hs
    split at hs
    · split at hs <;> cases hs
      · next id hid =>
        refine hn.setCall ?_
        intro c' h
        obtain ⟨⟩ := h
        simpa [Call.fastData] using hl (by rw [hid]; simp)
      · exact hn.setCall (by rintro c' ⟨⟩; simp [Call.fastData])
    · cases hs
  | recv =>
    simp only [Sys.step] at hs
    split at hs <;> cases hs
    exact hn.setCall (by rintro c' ⟨⟩; simp [Call.fastData])
  | go =>
    simp only [Sys.step, Option.bind_eq_some_iff] at hs
    obtain ⟨c, hc, hg⟩ := hs
    exact hn.go (hn _ _ hc) hg
  | ensure src dst =>
    simp only [Sys.step, Option.map_eq_some_iff, Prod.mk.injEq] at hs
    obtain ⟨⟨id, ipc⟩, -, -, rfl⟩ := hs
    exact hn
  | drop src dst => cases hs; exact hn

/-- One step's share of the balance. -/
theorem Effect.conserves {s s' : Sys} {a : Act} {es h : List IpcEvent} {p : Pid × Pid} (he : Effect s a s' es)
    (hi : s.Inv) (hn : s.FastNonempty) (hl : Lossless h s a)
    (hp : (received h p ++ s.pending p).Perm (accepted h p)) :
    (received (h ++ es) p ++ s'.pending p).Perm (accepted (h ++ es) p) := by
  simp only [Sys.pending, received_append, accepted_append] at hp ⊢
  cases he with
  | silent hq hc => simpa [hq, hc] using hp
  | refused hq hc => simpa [hq, hc] using hp
  | @queued src dst data h0 hq hc =>
    rw [hq, hc, accepted_sent, received_sent]
    by_cases hpair : p = (src, dst)
    · subst hpair
      simpa [h0, ← List.append_assoc] using hp.append_right [data.take 64]
    · simpa [hpair] using hp
  | @rang dst id data hcall h0 hq hc =>
    have hne : data ≠ [] := by simpa [Call.fastData] using hn _ _ hcall
    rw [hq, hc, accepted_sent, received_sent]
    by_cases hpair : p = (s.me, dst)
    · subst hpair
      simpa [h0, hne, ← List.append_assoc] using hp.append_right [data.take 64]
    · simpa [hpair] using hp
  | @took id src bs _ _ hbs hq hc =>
    have hlen : bs.take 64 = bs := List.take_of_length_le (pendingChan_length hi.backed hbs)
    rw [hq, hc, accepted_received, received_received]
    by_cases hpair : p = (src, s.me)
    · subst hpair
      simp only [hbs, Option.toList_some] at hp
      -- The message moves from the end of the pending ones to the end of the received ones.
      have hswap := (@List.perm_append_comm _ [bs] (queueOf s.k.sched (src, s.me))).append_left
        (received h (src, s.me))
      simpa [hlen, List.append_assoc] using hswap.trans hp
    · simpa [hpair] using hp
  | @popped msg hq hc =>
    rw [hq p] at hp
    rw [hc, accepted_received, received_received]
    simpa [List.append_assoc] using hp
  | @dropped src dst ha hq hc =>
    subst ha
    rw [hq, hc]
    by_cases hpair : p = (src, dst)
    · subst hpair
      have h0 : pendingChan s.k.ipc (src, dst) = none := by
        cases hf : s.k.ipc.fast[(src, dst)]? with
        | none => simp [pendingChan, hf]
        | some id => exact pendingChan_of_doorbell hf (hl id hf).1
      simpa [h0] using hp
    · simpa [hpair] using hp

/-- **Conservation.** In every lossless run, for every pair: what was received
and what is still on its way is what was accepted. -/
theorem received_pending_perm_accepted {s₀ s : Sys} {h : List IpcEvent} (hb : s₀.Boot)
    (hr : Runs Sys.step Lossless s₀ h s) (p : Pid × Pid) :
    (received h p ++ s.pending p).Perm (accepted h p) := by
  have hinv : s.Inv ∧ s.FastNonempty ∧ ∀ p, (received h p ++ s.pending p).Perm (accepted h p) := by
    refine hr.invariant (fun h s => s.Inv ∧ s.FastNonempty ∧ ∀ p, (received h p ++ s.pending p).Perm (accepted h p))
      ⟨hb.inv, fun q c hc => by simp [hb.idle] at hc, fun p => by simp [hb.pending]⟩ ?_
    intro h s a es s' ⟨hi, hn, hp⟩ hl hs
    obtain ⟨hi', he⟩ := hi.step (hl.orderly hi) hs
    exact ⟨hi', hn.step hl hs, fun p => he.conserves hi hn hl (hp p)⟩
  exact hinv.2.2 p

/-- Two tasks on a small machine. -/
def twoTasks : Sys where
  k := ((Kernel.init (.ofFrames 16)).spawn (.new 1 0)).spawn (.new 2 0)
  calls := ∅

theorem twoTasks_boot : twoTasks.Boot where
  pids := by decide
  queues := by decide
  idle := rfl
  fast := rfl
  buffers := rfl

/-- A lossless run in which the pair changes from the queue to a channel and back. -/
theorem received_pending_perm_accepted_twoTasks :
    ∃ h s, Runs Sys.step Lossless twoTasks h s ∧ received h (1, 2) = [[7], [1]] ∧ s.pending (1, 2) = [[9]] ∧
      (received h (1, 2) ++ s.pending (1, 2)).Perm (accepted h (1, 2)) := by
  obtain ⟨h, s, hr, hP⟩ := Runs.of_exec Sys.step Lossless twoTasks
    [.switchTo 1, .send 2 [1], .go, .ensure 1 2, .send 2 [7], .go, .go, .go, .go,
      .switchTo 2, .recv, .go, .go, .go, .recv, .go, .go, .drop 1 2, .switchTo 1, .send 2 [9], .go]
    (fun h s => decide (received h (1, 2) = [[7], [1]]) && decide (s.pending (1, 2) = [[9]]))
    (by decide)
  simp only [Bool.and_eq_true, decide_eq_true_eq] at hP
  exact ⟨h, s, hr, hP.1, hP.2, received_pending_perm_accepted twoTasks_boot hr (1, 2)⟩

/-- Not every run conserves messages: a channel reclaimed while its doorbell
is set takes the accepted message with it. -/
theorem not_conserved_of_drop_pending :
    ¬ ∀ (s₀ s : Sys) (h : List IpcEvent), s₀.Boot → Runs Sys.step free s₀ h s →
      ∀ p, (received h p ++ s.pending p).Perm (accepted h p) := by
  intro hall
  obtain ⟨h, s, hr, hP⟩ := Runs.of_exec Sys.step free twoTasks
    [.ensure 1 2, .switchTo 1, .send 2 [7], .go, .go, .go, .go, .drop 1 2]
    (fun h s => decide (accepted h (1, 2) = [[7]]) && decide (received h (1, 2) ++ s.pending (1, 2) = []))
    (by decide)
  simp only [Bool.and_eq_true, decide_eq_true_eq] at hP
  have := hall twoTasks s h twoTasks_boot hr (1, 2)
  rw [hP.1, hP.2] at this
  exact absurd this (by decide)

/-! ## Nothing is reordered -/

/-- The sender whose channel message the call is about to return. -/
def Call.clears : Call → Option Pid
  | .recvClear _ src _ => some src
  | _ => none

/-- The steps that keep a pair's messages in order: orderly ones, where a
receiver that returns a message from a channel has none from that sender in
its queue. -/
def InOrder (_ : List IpcEvent) (s : Sys) : Act → Prop
  | .go => ∀ src ∈ (s.calls[s.me]?).bind Call.clears, queueOf s.k.sched (src, s.me) = []
  | .ensure src dst => Orderly s (.ensure src dst)
  | .drop src dst => Orderly s (.drop src dst)
  | _ => True

instance : ∀ h s a, Decidable (InOrder h s a)
  | _, s, .go => inferInstanceAs (Decidable (∀ src ∈ (s.calls[s.me]?).bind Call.clears, _))
  | _, s, .ensure src dst => inferInstanceAs (Decidable (s.k.ipc.fast[(src, dst)]? = none → _))
  | _, s, .drop src dst => inferInstanceAs (Decidable (∀ id ∈ s.k.ipc.fast[(src, dst)]?, _))
  | _, _, .send _ _ => .isTrue trivial
  | _, _, .switchTo _ => .isTrue trivial
  | _, _, .recv => .isTrue trivial

theorem InOrder.orderly {h : List IpcEvent} {s : Sys} {a : Act} (ho : InOrder h s a) : Orderly s a := by
  cases a with
  | ensure | drop => exact ho
  | _ => trivial

/-- One step keeps the order: what was received, then what is queued, then
what is in the channel, was accepted in that order. -/
theorem Effect.ordered {s s' : Sys} {a : Act} {es h : List IpcEvent} {p : Pid × Pid} (he : Effect s a s' es)
    (hi : s.Inv) (ho : InOrder h s a) (hp : (received h p ++ s.pending p).Sublist (accepted h p)) :
    (received (h ++ es) p ++ s'.pending p).Sublist (accepted (h ++ es) p) := by
  simp only [Sys.pending, received_append, accepted_append] at hp ⊢
  cases he with
  | silent hq hc => simpa [hq, hc] using hp
  | refused hq hc => simpa [hq, hc] using hp
  | @queued src dst data h0 hq hc =>
    rw [hq, hc, accepted_sent, received_sent]
    by_cases hpair : p = (src, dst)
    · subst hpair
      -- The channel is empty, so the queue's end is the newest message.
      simpa [h0, ← List.append_assoc] using hp.append (List.Sublist.refl [data.take 64])
    · simpa [hpair] using hp
  | @rang dst id data hcall h0 hq hc =>
    rw [hq, hc, accepted_sent, received_sent]
    by_cases hpair : p = (s.me, dst)
    · subst hpair
      by_cases hd : data = []
      · subst hd
        simpa [h0] using hp.trans (List.sublist_append_left _ [[]])
      · simpa [h0, hd, ← List.append_assoc] using hp.append (List.Sublist.refl [data.take 64])
    · simpa [hpair] using hp
  | @took id src bs ha hcall hbs hq hc =>
    have hlen : bs.take 64 = bs := List.take_of_length_le (pendingChan_length hi.backed hbs)
    subst ha
    rw [hq, hc, accepted_received, received_received]
    by_cases hpair : p = (src, s.me)
    · subst hpair
      have hempty : queueOf s.k.sched (src, s.me) = [] := ho src (by simp [hcall, Call.clears])
      simpa [hempty, hbs, hlen] using hp
    · simpa [hpair] using hp
  | @popped msg hq hc =>
    rw [hq p] at hp
    rw [hc, accepted_received, received_received]
    simpa [List.append_assoc] using hp
  | @dropped src dst _ hq hc =>
    rw [hq, hc]
    by_cases hpair : p = (src, dst)
    · subst hpair
      refine List.Sublist.trans ?_ (by simpa using hp)
      simp
    · simpa [hpair] using hp

/-- **Order.** In every run of such steps, what a receiver gets from a sender
it gets in the order it was sent. -/
theorem received_sublist_accepted {s₀ s : Sys} {h : List IpcEvent} (hb : s₀.Boot)
    (hr : Runs Sys.step InOrder s₀ h s) (p : Pid × Pid) : (received h p).Sublist (accepted h p) := by
  have hinv : s.Inv ∧ ∀ p, (received h p ++ s.pending p).Sublist (accepted h p) := by
    refine hr.invariant (fun h s => s.Inv ∧ ∀ p, (received h p ++ s.pending p).Sublist (accepted h p))
      ⟨hb.inv, fun p => by simp [hb.pending]⟩ ?_
    intro h s a es s' ⟨hi, hp⟩ ho hs
    obtain ⟨hi', he⟩ := hi.step ho.orderly hs
    exact ⟨hi', fun p => he.ordered hi ho (hp p)⟩
  exact (List.sublist_append_left _ _).trans (hinv.2 p)

/-- A run that drains the queue before it reads the channel. -/
theorem received_sublist_accepted_twoTasks :
    ∃ h s, Runs Sys.step InOrder twoTasks h s ∧ received h (1, 2) = [[1], [7], [9]] ∧
      (received h (1, 2)).Sublist (accepted h (1, 2)) := by
  obtain ⟨h, s, hr, hP⟩ := Runs.of_exec Sys.step InOrder twoTasks
    [.switchTo 1, .send 2 [1], .go, .switchTo 2, .recv, .go, .ensure 1 2, .switchTo 1, .send 2 [7], .go, .go, .go, .go,
      .switchTo 2, .recv, .go, .go, .go, .drop 1 2, .switchTo 1, .send 2 [9], .go, .switchTo 2, .recv, .go]
    (fun h _ => decide (received h (1, 2) = [[1], [7], [9]])) (by decide)
  exact ⟨h, s, hr, by simpa using hP, received_sublist_accepted twoTasks_boot hr (1, 2)⟩

/-- Not every run keeps the order: a message sent through the queue is
received after one sent later through a new channel. -/
theorem not_ordered_of_queue_then_channel :
    ¬ ∀ (s₀ s : Sys) (h : List IpcEvent), s₀.Boot → Runs Sys.step free s₀ h s →
      ∀ p, (received h p).Sublist (accepted h p) := by
  intro hall
  obtain ⟨h, s, hr, hP⟩ := Runs.of_exec Sys.step free twoTasks
    [.switchTo 1, .send 2 [1], .go, .ensure 1 2, .send 2 [7], .go, .go, .go, .go,
      .switchTo 2, .recv, .go, .go, .go, .recv, .go, .go]
    (fun h _ => decide (accepted h (1, 2) = [[1], [7]]) && decide (received h (1, 2) = [[7], [1]])) (by decide)
  simp only [Bool.and_eq_true, decide_eq_true_eq] at hP
  have := hall twoTasks s h twoTasks_boot hr (1, 2)
  rw [hP.1, hP.2] at this
  exact absurd this (by decide)

end ChodOs
