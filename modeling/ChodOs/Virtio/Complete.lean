/-
Requests to the network card and the disk (`VirtioNet::send`,
`VirtioBlk::do_request`): what a call that returns true knows of its own
chain. A call sees the used index move and not which chain moved it, so a
request that timed out may be reported by a later call.
-/
import ChodOs.Lib.Run
import ChodOs.Virtio.Queue

namespace ChodOs.Virtio

open IndexRing StepSys

/-! ## The drivers -/

/-- What the two drivers do differently. -/
structure Driver where
  Call : Type
  /-- The descriptors a call writes, with the index of the first. `none`: it returns false at once. -/
  start : Queue → (Nat → UInt8) → Call → Option (Queue × (Nat → UInt8) × Nat)
  /-- The byte a call reads when it sees a completion. -/
  status : Call → Option Nat

/-- `send`: where its header and its frame are, and the frame's length. -/
structure NetCall where
  hdr : Nat
  frame : Nat
  len : Nat

/-- `VirtioNet::send`: two descriptors of a rotating index. -/
def net : Driver where
  Call := NetCall
  start q mem c :=
    if c.len = 0 then none
    else
      let d0 := q.nd
      let d1 := (d0 + 1) % q.qsize
      let q := { q with nd := (d1 + 1) % q.qsize }
      some ((q.writeDesc d0 c.hdr 10 descNext d1).writeDesc d1 c.frame c.len 0 0, mem, d0)
  status _ := none

/-- `BLK_T_IN`. -/
def blkIn : Nat := 0

/-- `do_request`: its type, and where its header, its buffer and its status
byte are; the header's bytes are for the device alone. -/
structure BlkCall where
  type : Nat
  hdr : Nat
  buf : Nat
  status : Nat
  apart : ¬ (buf ≤ status ∧ status < buf + 512)

/-- `VirtioBlk::do_request`: descriptors 0, 1 and 2, and a status byte of `0xFF`. -/
def blk : Driver where
  Call := BlkCall
  start q mem c :=
    let q := q.writeDesc 0 c.hdr 16 descNext 1
    let q := q.writeDesc 1 c.buf 512 (if c.type = blkIn then descWrite ||| descNext else descNext) 2
    let q := q.writeDesc 2 c.status 1 descWrite 0
    some (q, Function.update mem c.status 0xFF, 0)
  status c := some c.status

/-! ## Calls and completions -/

/-- Where a call is; `r` counts the chains published before its own. -/
inductive CallPc (Call : Type)
  | idle
  | put (c : Call) (head : Nat)
  | commit (c : Call)
  | poll (c : Call) (r : Nat)
  | status (r : Nat) (addr : Nat)

structure Requests (d : Driver) where
  bus : Bus
  pubs : Nat
  pc : CallPc d.Call

/-- What happened: the device completed the chain fetched after `r` others,
with this status byte; the call that published it returned. -/
inductive RequestEvent
  | completed (r : Nat) (status : Option UInt8)
  | returned (r : Nat) (ok : Bool)
  deriving DecidableEq

inductive RequestAct (Call : Type)
  | dev (a : DevAct)
  | call (c : Call)
  /-- The call's next step; its deadline has passed or not. -/
  | go (timedOut : Bool)

/-- The byte the device wrote last: the last descriptor's, if it may write there. -/
def Chain.statusByte (mem : Nat → UInt8) (c : Chain) : Option UInt8 :=
  c.descs.getLast?.bind fun d => if d.writable then some (mem d.addr) else none

namespace Requests

variable {d : Driver}

/-- After `init` of a queue of this size. -/
def boot (d : Driver) (qsize : Nat) : Requests d := ⟨.start (.init qsize) fun _ => 0, 0, .idle⟩

/-- The next step of a call. -/
def go (s : Requests d) (timedOut : Bool) : List RequestEvent × Requests d :=
  let q := s.bus.q
  match s.pc with
  | .idle => ([], s)
  | .put c head => ([], { s with bus := { s.bus with q := q.offer head }, pc := .commit c })
  | .commit c => ([], ⟨{ s.bus with q := q.availCommit q.ai }, s.pubs + 1, .poll c s.pubs⟩)
  | .poll c r =>
    if q.usedIdx ≠ q.lu then
      let bus := { s.bus with q := { q with lu := q.lu + 1 } }
      match d.status c with
      | none => ([.returned r true], { s with bus, pc := .idle })
      | some addr => ([], { s with bus, pc := .status r addr })
    else if timedOut then ([.returned r false], { s with pc := .idle })
    else ([], s)
  | .status r addr => ([.returned r (s.bus.mem addr == 0)], { s with pc := .idle })

def step (s : Requests d) : RequestAct d.Call → Option (List RequestEvent × Requests d)
  | .dev a => (s.bus.devStep a).map fun (done, bus) =>
      (done.map fun p => .completed p.1.seq (p.1.statusByte s.bus.mem), { s with bus })
  | .call c =>
    match s.pc with
    | .idle =>
      match d.start s.bus.q s.bus.mem c with
      | none => some ([], s)
      | some (q, mem, head) => some ([], { s with bus := { s.bus with q, mem }, pc := .put c head })
    | _ => none
  | .go timedOut => some (s.go timedOut)

/-- The device has completed every chain published, and the driver counted every completion. -/
def Settled (s : Requests d) : Prop :=
  s.bus.dev.fetched = s.pubs ∧ s.bus.dev.held = [] ∧ s.bus.dev.filled = [] ∧ s.bus.q.usedIdx = s.bus.q.lu

instance (s : Requests d) : Decidable s.Settled := inferInstanceAs (Decidable (_ ∧ _ ∧ _ ∧ _))

/-- Calls begin in settled states only. -/
def Clean (_ : List RequestEvent) (s : Requests d) : RequestAct d.Call → Prop
  | .call _ => s.Settled
  | _ => True

instance : ∀ h (s : Requests d) a, Decidable (Clean h s a)
  | _, s, .call _ => inferInstanceAs (Decidable s.Settled)
  | _, _, .dev _ | _, _, .go _ => .isTrue trivial

end Requests

/-- A call returned true only after its own chain was completed, with a status byte that satisfies `P`. -/
def ReportsOwn (P : Option UInt8 → Prop) (h : List RequestEvent) : Prop :=
  ∀ h₁ h₂ r, h = h₁ ++ .returned r true :: h₂ → ∃ st, .completed r st ∈ h₁ ∧ P st

/-! ## Where a chain writes -/

namespace Driver

/-- Of a chain only the last descriptor reaches the byte the call reads, at its start. -/
def Aims (d : Driver) (c : d.Call) (descs : List Desc) : Prop :=
  ∀ addr, d.status c = some addr → ∀ dsc ∈ descs, dsc.writable = true → ∀ off < dsc.len, dsc.addr + off = addr →
    descs.getLast? = some dsc ∧ dsc.addr = addr

/-- A zero in the byte the call reads is the chain's status. -/
def StatusOk (d : Driver) (c : d.Call) (mem : Nat → UInt8) (descs : List Desc) : Prop :=
  ∀ addr, d.status c = some addr → mem addr = 0 →
    ∃ dsc, descs.getLast? = some dsc ∧ dsc.writable = true ∧ dsc.addr = addr

/-- The byte the call reads is not zero yet. -/
def Unset (d : Driver) (c : d.Call) (mem : Nat → UInt8) : Prop := ∀ addr, d.status c = some addr → mem addr ≠ 0

/-- A call writes descriptors only, and the chain from the first aims at the byte it has set. -/
def Lawful (d : Driver) : Prop :=
  ∀ {q mem c q' mem' head}, d.start q mem c = some (q', mem', head) →
    (∃ desc nd, q' = { q with desc, nd }) ∧ d.Unset c mem' ∧ ∀ fuel, d.Aims c (chainFrom q'.desc fuel head)

variable {d : Driver} {c : d.Call} {mem : Nat → UInt8} {ch : Chain}

theorem Unset.statusOk (h : d.Unset c mem) (descs : List Desc) : d.StatusOk c mem descs :=
  fun addr ha hz => absurd hz (h addr ha)

/-- A byte the device writes keeps the status of its chain. -/
theorem StatusOk.write {descs : List Desc} (h : d.StatusOk c mem descs) (ha : d.Aims c descs) {dsc : Desc} {off : Nat}
    (hd : dsc ∈ descs) (hw : dsc.writable = true) (hoff : off < dsc.len) (byte : UInt8) :
    d.StatusOk c (Function.update mem (dsc.addr + off) byte) descs := by
  intro addr haddr hz
  by_cases he : addr = dsc.addr + off
  · obtain ⟨hlast, hat⟩ := ha addr haddr dsc hd hw off hoff he.symm
    exact ⟨dsc, hlast, hw, hat⟩
  · rw [Function.update_of_ne he] at hz
    exact h addr haddr hz

theorem StatusOk.statusByte (h : d.StatusOk c mem ch.descs) {addr : Nat} (ha : d.status c = some addr)
    (hz : mem addr = 0) : ch.statusByte mem = some 0 := by
  obtain ⟨dsc, hlast, hw, hat⟩ := h addr ha hz
  simp only [Chain.statusByte, hlast, Option.bind_some, hw, if_true, hat, hz]

theorem net_lawful : net.Lawful := by
  intro q mem c q' mem' head h
  simp only [net] at h
  split at h
  · cases h
  · cases h
    exact ⟨⟨_, _, rfl⟩, nofun, fun _ => nofun⟩

/-- The descriptors of a request to the disk. -/
def blkDescs (c : BlkCall) : List Desc :=
  [⟨c.hdr, 16, descNext, 1⟩, ⟨c.buf, 512, if c.type = blkIn then descWrite ||| descNext else descNext, 2⟩,
    ⟨c.status, 1, descWrite, 0⟩]

/-- The device reads them in order, as far as the table goes. -/
theorem chainFrom_blk {q q' : Queue} {mem mem' : Nat → UInt8} {c : BlkCall} {head : Nat}
    (h : blk.start q mem c = some (q', mem', head)) (fuel : Nat) :
    chainFrom q'.desc fuel head = (blkDescs c).take fuel := by
  cases h
  match fuel with
  | 0 => rfl
  | 1 => simp [chainFrom, Queue.writeDesc, blkDescs, descNext]
  | 2 => simp [chainFrom, Queue.writeDesc, blkDescs, descNext]
  | n + 3 => by_cases hin : c.type = blkIn <;> simp [chainFrom, Queue.writeDesc, blkDescs, descNext, descWrite, hin]

theorem blk_lawful : blk.Lawful := by
  intro q mem c q' mem' head h
  have hchain := chainFrom_blk h
  refine ⟨?_, ?_, fun fuel addr ha dsc hd hw off hoff he => ?_⟩
  · cases h
    exact ⟨_, _, rfl⟩
  · intro addr ha
    cases h
    cases ha
    simp
  rw [hchain] at hd ⊢
  cases ha
  have hmem := List.mem_of_mem_take hd
  simp only [blkDescs, List.mem_cons, List.not_mem_nil, or_false] at hmem
  rcases hmem with rfl | rfl | rfl
  · simp [Desc.writable, descNext, descWrite] at hw
  · -- The buffer does not reach the status byte.
    have hbuf : c.buf + off = c.status := he
    have hlen : off < 512 := hoff
    exact absurd ⟨by omega, by omega⟩ c.apart
  · refine ⟨?_, rfl⟩
    match fuel with
    | 0 => cases hd
    | 1 => simp [blkDescs, descNext, descWrite] at hd
    | 2 => simp [blkDescs, descNext, descWrite] at hd
    | n + 3 => simp [blkDescs]

end Driver

/-! ## The invariant -/

namespace Bus

/-- The indices count what was published, fetched and completed. -/
structure Counters (pubs : Nat) (b : Bus) : Prop where
  avail : b.q.availIdx = UInt16.ofNat pubs
  last : b.dev.lastAvail = UInt16.ofNat b.dev.fetched
  next : b.dev.nextUsed = b.q.usedIdx + UInt16.ofNat b.dev.filled.length

variable {pubs : Nat} {b b' : Bus} {done : List (Chain × Nat)}

theorem Counters.stepped (hc : b.Counters pubs) (hs : b.Stepped done b') : b'.Counters pubs := by
  cases hs with
  | fetch hne => exact { hc with last := by rw [fetch, hc.last, UInt16.ofNat_add]; rfl }
  | write => exact { hc with }
  | put hc' hlen =>
    refine { hc with next := ?_ }
    rw [Bus.put, List.length_append, UInt16.ofNat_add, ← UInt16.add_assoc, ← hc.next]
    rfl
  | commit => exact { hc with next := (UInt16.add_zero _).symm }

/-- Nothing to fetch once every chain is fetched. -/
theorem Counters.all_fetched (hc : b.Counters pubs) (hf : b.dev.fetched = pubs) : b.q.availIdx = b.dev.lastAvail := by
  rw [hc.avail, hc.last, hf]

/-- A device with no new used element makes nothing known. -/
theorem Counters.commit_eq (hc : b.Counters pubs) (hf : b.dev.filled = []) : b.commit = b := by
  have hnext : b.dev.nextUsed = b.q.usedIdx := by
    rw [hc.next, hf]
    exact UInt16.add_zero _
  obtain ⟨q, mem, lastAvail, nextUsed, fetched, held, filled⟩ := b
  simp only at hf hnext
  subst hf hnext
  rfl

/-- A device with no chain and nothing to fetch changes nothing. -/
theorem Counters.done_stepped (hc : b.Counters pubs) (hf : b.dev.fetched = pubs) (hh : b.dev.held = [])
    (hl : b.dev.filled = []) (hs : b.Stepped done b') : done = [] ∧ b' = b := by
  cases hs with
  | fetch hne => exact absurd (hc.all_fetched hf) hne
  | write hc' => rw [hh] at hc'; cases hc'
  | put hc' => rw [hh] at hc'; cases hc'
  | commit => exact ⟨hl, hc.commit_eq hl⟩

end Bus

/-- Where the one chain of a call is that began in a settled state. -/
inductive Phase (d : Driver) (c : d.Call) (r : Nat) (h : List RequestEvent) (b : Bus) : Prop
  | offered (hf : b.dev.fetched = r) (hh : b.dev.held = []) (hl : b.dev.filled = []) (hu : b.q.usedIdx = b.q.lu)
      (ha : d.Aims c b.nextChain.descs) (hm : d.Unset c b.mem)
  | held (ch : Chain) (hr : ch.seq = r) (hf : b.dev.fetched = r + 1) (hh : b.dev.held = [ch])
      (hl : b.dev.filled = []) (hu : b.q.usedIdx = b.q.lu) (ha : d.Aims c ch.descs) (hm : d.StatusOk c b.mem ch.descs)
  | filled (ch : Chain) (len : Nat) (hr : ch.seq = r) (hf : b.dev.fetched = r + 1) (hh : b.dev.held = [])
      (hl : b.dev.filled = [(ch, len)]) (hu : b.q.usedIdx = b.q.lu) (hm : d.StatusOk c b.mem ch.descs)
  | completed (hf : b.dev.fetched = r + 1) (hh : b.dev.held = []) (hl : b.dev.filled = [])
      (hc : ∃ st, .completed r st ∈ h ∧ ∀ addr, d.status c = some addr → b.mem addr = 0 → st = some 0)

/-- The events of a device step. -/
def completions (mem : Nat → UInt8) (done : List (Chain × Nat)) : List RequestEvent :=
  done.map fun p => .completed p.1.seq (p.1.statusByte mem)

theorem Phase.stepped {d : Driver} {c : d.Call} {r : Nat} {h : List RequestEvent} {b b' : Bus}
    {done : List (Chain × Nat)} (hp : Phase d c r h b) (hc : b.Counters (r + 1)) (hs : b.Stepped done b') :
    Phase d c r (h ++ completions b.mem done) b' := by
  cases hp with
  | offered hf hh hl hu ha hm =>
    cases hs with
    | fetch hne => exact .held b.nextChain hf (congrArg (· + 1) hf) (congrArg (· ++ [b.nextChain]) hh) hl hu ha (hm.statusOk _)
    | write hc' => rw [hh] at hc'; cases hc'
    | put hc' => rw [hh] at hc'; cases hc'
    | commit =>
      rw [hc.commit_eq hl]
      exact .offered hf hh hl hu ha hm
  | held ch hr hf hh hl hu ha hm =>
    cases hs with
    | fetch hne => exact absurd (hc.all_fetched hf) hne
    | write hc' hd hw hoff =>
      rw [hh, List.mem_singleton] at hc'
      subst hc'
      exact .held _ hr hf hh hl hu ha (hm.write ha hd hw hoff _)
    | @put _ len hc' hlen =>
      rw [hh, List.mem_singleton] at hc'
      subst hc'
      refine .filled _ len hr hf ?_ ?_ hu hm
      · simp only [Bus.put, hh, List.erase_cons_head]
      · simp only [Bus.put, hl, List.nil_append]
    | commit =>
      rw [hc.commit_eq hl, hl]
      exact .held ch hr hf hh hl hu ha hm
  | filled ch len hr hf hh hl hu hm =>
    cases hs with
    | fetch hne => exact absurd (hc.all_fetched hf) hne
    | write hc' => rw [hh] at hc'; cases hc'
    | put hc' => rw [hh] at hc'; cases hc'
    | commit =>
      -- The chain is the call's own, and so is its status.
      refine .completed hf hh rfl ⟨ch.statusByte b.mem, ?_, fun addr ha hz => hm.statusByte ha hz⟩
      rw [hl, completions, List.map_singleton, hr]
      exact List.mem_append_right _ (List.mem_singleton_self _)
  | completed hf hh hl hcomp =>
    obtain ⟨rfl, rfl⟩ := hc.done_stepped hf hh hl hs
    obtain ⟨st, hmem, hst⟩ := hcomp
    exact .completed hf hh hl ⟨st, List.mem_append_left _ hmem, hst⟩

namespace Requests

variable {d : Driver}

/-- What holds at a place in a call. -/
def PcOk (h : List RequestEvent) (s : Requests d) : Prop :=
  match s.pc with
  | .idle => s.bus.q.ai = s.bus.q.availIdx
  | .put c head => s.bus.q.ai = s.bus.q.availIdx ∧ s.Settled ∧ d.Unset c s.bus.mem ∧
      d.Aims c (chainFrom s.bus.q.desc s.bus.q.qsize head)
  | .commit c => s.bus.q.ai = s.bus.q.availIdx + 1 ∧ s.Settled ∧ d.Unset c s.bus.mem ∧ d.Aims c s.bus.nextChain.descs
  | .poll c r => s.bus.q.ai = s.bus.q.availIdx ∧ s.pubs = r + 1 ∧ Phase d c r h s.bus
  | .status r addr => s.bus.q.ai = s.bus.q.availIdx ∧ s.bus.dev.fetched = s.pubs ∧ s.bus.dev.held = [] ∧
      s.bus.dev.filled = [] ∧ ∃ st, .completed r st ∈ h ∧ (s.bus.mem addr = 0 → st = some 0)

structure Inv (P : Option UInt8 → Prop) (h : List RequestEvent) (s : Requests d) : Prop where
  own : ReportsOwn P h
  counters : s.bus.Counters s.pubs
  pc : s.PcOk h

end Requests

/-- A return of true that is not the history's has its completion before it. -/
theorem ReportsOwn.append {P : Option UInt8 → Prop} {h es : List RequestEvent} (ho : ReportsOwn P h)
    (hes : ∀ es₁ es₂ r, es = es₁ ++ .returned r true :: es₂ → ∃ st, .completed r st ∈ h ++ es₁ ∧ P st) :
    ReportsOwn P (h ++ es) := by
  intro h₁ h₂ r heq
  rcases List.append_eq_append_iff.mp heq with ⟨es₁, rfl, he⟩ | ⟨l, hl, he⟩
  · exact hes es₁ h₂ r he
  · cases l with
    | nil =>
      rw [List.append_nil] at hl
      obtain ⟨st, hmem, hP⟩ := hes [] h₂ r he.symm
      exact ⟨st, by rwa [List.append_nil, hl] at hmem, hP⟩
    | cons x l =>
      rw [List.cons_append, List.cons.injEq] at he
      obtain ⟨rfl, -⟩ := he
      exact ho h₁ l r hl

/-- Events none of which is a return of true. -/
theorem ReportsOwn.silent {P : Option UInt8 → Prop} {h es : List RequestEvent} (ho : ReportsOwn P h)
    (hes : ∀ r, .returned r true ∉ es) : ReportsOwn P (h ++ es) :=
  ho.append fun es₁ es₂ r he => absurd (by rw [he]; simp) (hes r)

/-- A return of true after the completion. -/
theorem ReportsOwn.returned {P : Option UInt8 → Prop} {h : List RequestEvent} {r : Nat} {st : Option UInt8}
    (ho : ReportsOwn P h) (hmem : .completed r st ∈ h) (hP : P st) : ReportsOwn P (h ++ [.returned r true]) := by
  refine ho.append fun es₁ es₂ r' he => ?_
  cases es₁ with
  | nil =>
    rw [List.nil_append, List.cons.injEq, RequestEvent.returned.injEq] at he
    obtain ⟨⟨rfl, -⟩, -⟩ := he
    exact ⟨st, by rwa [List.append_nil], hP⟩
  | cons x es₁ =>
    have hlen := congrArg List.length he
    simp at hlen

theorem completions_silent (mem : Nat → UInt8) (done : List (Chain × Nat)) (r : Nat) :
    .returned r true ∉ completions mem done := by
  simp [completions]

namespace Requests

variable {d : Driver} {P : Option UInt8 → Prop} {h : List RequestEvent} {s : Requests d}

theorem Inv.dev (hi : s.Inv P h) {bus : Bus} {done : List (Chain × Nat)} (hs : s.bus.Stepped done bus) :
    Inv P (h ++ completions s.bus.mem done) { s with bus } := by
  refine ⟨hi.own.silent (completions_silent _ _), hi.counters.stepped hs, ?_⟩
  have hpc := hi.pc
  -- What a device that is done does to a state.
  have hquiet : s.bus.dev.fetched = s.pubs → s.bus.dev.held = [] → s.bus.dev.filled = [] →
      completions s.bus.mem done = [] ∧ bus = s.bus := fun hf hh hl => by
    obtain ⟨rfl, rfl⟩ := hi.counters.done_stepped hf hh hl hs
    exact ⟨rfl, rfl⟩
  obtain ⟨b, pubs, pc⟩ := s
  cases pc with
  | idle =>
    have hai : bus.q.ai = b.q.ai ∧ bus.q.availIdx = b.q.availIdx := by cases hs <;> exact ⟨rfl, rfl⟩
    exact hai.1.trans (hpc.trans hai.2.symm)
  | put c head =>
    obtain ⟨-, rfl⟩ := hquiet hpc.2.1.1 hpc.2.1.2.1 hpc.2.1.2.2.1
    exact hpc
  | commit c =>
    obtain ⟨-, rfl⟩ := hquiet hpc.2.1.1 hpc.2.1.2.1 hpc.2.1.2.2.1
    exact hpc
  | poll c r =>
    obtain ⟨hai, hpubs, hphase⟩ := hpc
    have hc := hi.counters
    simp only at hc hpubs
    rw [hpubs] at hc
    have hidx : bus.q.ai = b.q.ai ∧ bus.q.availIdx = b.q.availIdx := by cases hs <;> exact ⟨rfl, rfl⟩
    exact ⟨hidx.1.trans (hai.trans hidx.2.symm), hpubs, hphase.stepped hc hs⟩
  | status r addr =>
    obtain ⟨hai, hf, hh, hl, hst⟩ := hpc
    obtain ⟨hnil, rfl⟩ := hquiet hf hh hl
    rw [hnil, List.append_nil]
    exact ⟨hai, hf, hh, hl, hst⟩

theorem Inv.call (hl : d.Lawful) {bus : Bus} {pubs : Nat} {c : d.Call} (hi : Inv P h (⟨bus, pubs, .idle⟩ : Requests d))
    (hs : Settled (⟨bus, pubs, .idle⟩ : Requests d)) {q : Queue} {mem : Nat → UInt8} {head : Nat}
    (hstart : d.start bus.q bus.mem c = some (q, mem, head)) :
    Inv P h (⟨{ bus with q, mem }, pubs, .put c head⟩ : Requests d) := by
  obtain ⟨⟨desc, nd, rfl⟩, hunset, haims⟩ := hl hstart
  exact ⟨hi.own, ⟨hi.counters.avail, hi.counters.last, hi.counters.next⟩, hi.pc, hs, hunset, haims _⟩

theorem Inv.go (hP : P (some 0)) (hnone : ∀ c, d.status c = none → ∀ st, P st) (hi : s.Inv P h) (timedOut : Bool) :
    Inv P (h ++ (s.go timedOut).1) (s.go timedOut).2 := by
  obtain ⟨hown, hc, hpc⟩ := hi
  obtain ⟨bus, pubs, pc⟩ := s
  cases pc with
  | idle =>
    rw [Requests.go, List.append_nil]
    exact ⟨hown, hc, hpc⟩
  | put c head =>
    obtain ⟨hai, hset, hunset, haims⟩ := hpc
    rw [Requests.go, List.append_nil]
    refine ⟨hown, ⟨hc.avail, hc.last, hc.next⟩, congrArg (· + 1) hai, hset, hunset, ?_⟩
    -- The device's next entry is the one written.
    have hslot : bus.dev.lastAvail = bus.q.ai := by rw [hai, hc.all_fetched hset.1]
    simp only [Bus.nextChain, Queue.offer, Queue.availPut, hslot, Function.update_self]
    exact haims
  | commit c =>
    obtain ⟨hai, hset, hunset, haims⟩ := hpc
    rw [Requests.go, List.append_nil]
    refine ⟨hown, ⟨?_, hc.last, hc.next⟩, rfl, rfl, .offered hset.1 hset.2.1 hset.2.2.1 hset.2.2.2 haims hunset⟩
    rw [UInt16.ofNat_add, ← hc.avail]
    exact hai
  | poll c r =>
    obtain ⟨hai, hpubs, hphase⟩ := hpc
    simp only [Requests.go]
    split
    · next hne =>
      -- The used index has moved, so the chain that completed is the call's.
      cases hphase with
      | offered hf hh hl hu => exact absurd hu hne
      | held ch hr hf hh hl hu => exact absurd hu hne
      | filled ch len hr hf hh hl hu => exact absurd hu hne
      | completed hf hh hl hcomp =>
        obtain ⟨st, hmem, hst⟩ := hcomp
        split
        · next hstatus =>
          exact ⟨hown.returned hmem (hnone c hstatus st), ⟨hc.avail, hc.last, hc.next⟩, hai⟩
        · next addr hstatus =>
          rw [List.append_nil]
          exact ⟨hown, ⟨hc.avail, hc.last, hc.next⟩, hai, hf.trans hpubs.symm, hh, hl, st, hmem, hst addr hstatus⟩
    · split
      · exact ⟨hown.silent (by simp), hc, hai⟩
      · rw [List.append_nil]
        exact ⟨hown, hc, hai, hpubs, hphase⟩
  | status r addr =>
    obtain ⟨hai, hf, hh, hl, st, hmem, hst⟩ := hpc
    refine ⟨?_, hc, hai⟩
    simp only [Requests.go]
    by_cases hz : bus.mem addr = 0
    · rw [hz, beq_self_eq_true]
      exact hown.returned hmem (hst hz ▸ hP)
    · have hfalse : (bus.mem addr == 0) = false := by simpa using hz
      rw [hfalse]
      exact hown.silent (by simp)

theorem Inv.step (hl : d.Lawful) (hP : P (some 0)) (hnone : ∀ c, d.status c = none → ∀ st, P st) (hi : s.Inv P h)
    {a : RequestAct d.Call} (hclean : Clean h s a) {es : List RequestEvent} {s' : Requests d}
    (hs : s.step a = some (es, s')) : s'.Inv P (h ++ es) := by
  cases a with
  | dev a =>
    obtain ⟨⟨done, bus⟩, hdev, he⟩ := Option.map_eq_some_iff.mp hs
    cases he
    exact hi.dev (Bus.devStep_stepped hdev)
  | call c =>
    obtain ⟨bus, pubs, pc⟩ := s
    cases pc with
    | idle =>
      simp only [Requests.step] at hs
      split at hs
      · cases hs
        rw [List.append_nil]
        exact hi
      · next hstart =>
        cases hs
        rw [List.append_nil]
        exact hi.call hl hclean hstart
    | _ => cases hs
  | go timedOut =>
    have hgo := hi.go hP hnone timedOut
    rwa [show s.go timedOut = (es, s') from Option.some.inj hs] at hgo

/-- In every run whose calls begin in settled states, a call that returns true reports its own chain. -/
theorem reportsOwn_of_clean (hl : d.Lawful) (hP : P (some 0)) (hnone : ∀ c, d.status c = none → ∀ st, P st)
    {qsize : Nat} (hr : Runs Requests.step Clean (boot d qsize) h s) : ReportsOwn P h := by
  have hnil : ReportsOwn P [] := fun h₁ h₂ r he => by simp at he
  exact (hr.invariant (Inv P) ⟨hnil, ⟨rfl, rfl, rfl⟩, rfl⟩ fun hi hc hs => hi.step hl hP hnone hc hs).own

end Requests

/-- In every run in which no call begins while an earlier chain is in flight
or its completion uncounted, `send` and `do_request` return true only after
the device completed the very chain of the call, the latter with status 0. -/
theorem requests_report_own (qsize : Nat) (h : List RequestEvent) :
    (∀ s, Runs Requests.step Requests.Clean (.boot net qsize) h s → ReportsOwn (fun _ => True) h) ∧
      (∀ s, Runs Requests.step Requests.Clean (.boot blk qsize) h s → ReportsOwn (· = some 0) h) :=
  ⟨fun _ hr => Requests.reportsOwn_of_clean Driver.net_lawful trivial (fun _ _ _ => trivial) hr,
    fun _ hr => Requests.reportsOwn_of_clean Driver.blk_lawful rfl nofun hr⟩

/-- A frame sent and completed. -/
def sendOnce : List (RequestAct net.Call) :=
  [.call ⟨0x1000, 0x2000, 60⟩, .go false, .go false, .go false, .dev .fetch,
    .dev (.put ⟨0, 0, [⟨0x1000, 10, descNext, 1⟩, ⟨0x2000, 60, 0, 0⟩]⟩ 0), .dev .commit, .go false]

/-- A sector is read: where it goes, and the chain. -/
def blkRead : BlkCall := ⟨blkIn, 0x1000, 0x2000, 0x3000, by decide⟩

def blkChain : Chain := ⟨0, 0, Driver.blkDescs blkRead⟩

def readOnce : List (RequestAct blk.Call) :=
  [.call blkRead, .go false, .go false, .dev .fetch, .dev (.write blkChain 2 0 0), .dev (.put blkChain 513), .dev .commit,
    .go false, .go false]

theorem requests_report_own_once :
    (∃ h s, Runs Requests.step Requests.Clean (.boot net 8) h s ∧ h = [.completed 0 none, .returned 0 true] ∧
        ReportsOwn (fun _ => True) h) ∧
      (∃ h s, Runs Requests.step Requests.Clean (.boot blk 8) h s ∧ h = [.completed 0 (some 0), .returned 0 true] ∧
        ReportsOwn (· = some 0) h) := by
  obtain ⟨h, s, hr, hP⟩ := Runs.of_exec Requests.step Requests.Clean (.boot net 8) sendOnce
    (fun h _ => decide (h = [.completed 0 none, .returned 0 true])) (by decide)
  obtain ⟨h', s', hr', hP'⟩ := Runs.of_exec Requests.step Requests.Clean (.boot blk 8) readOnce
    (fun h _ => decide (h = [.completed 0 (some 0), .returned 0 true])) (by decide)
  exact ⟨⟨h, s, hr, of_decide_eq_true hP, (requests_report_own 8 h).1 s hr⟩,
    ⟨h', s', hr', of_decide_eq_true hP', (requests_report_own 8 h').2 s' hr'⟩⟩

/-- The first of two frames times out; the device completes it when the second is offered. -/
def lateSend : List (RequestAct net.Call) :=
  [.call ⟨0x1000, 0x2000, 60⟩, .go false, .go false, .dev .fetch, .go true, .call ⟨0x1000, 0x3000, 60⟩, .go false, .go false,
    .dev (.put ⟨0, 0, [⟨0x1000, 10, descNext, 1⟩, ⟨0x2000, 60, 0, 0⟩]⟩ 0), .dev .commit, .go false]

/-- The same of two sectors read, each with its status byte at the same place of the stack. -/
def lateRead : List (RequestAct blk.Call) :=
  [.call blkRead, .go false, .go false, .dev .fetch, .go true, .call blkRead, .go false, .go false,
    .dev (.write blkChain 2 0 0), .dev (.put blkChain 513), .dev .commit, .go false, .go false]

/-- Neither driver always reports the call's own chain: the late completion
of a request that timed out is taken for the next one's. -/
theorem late_completion_credited :
    ¬ (∀ (qsize : Nat) (h : List RequestEvent) (s : Requests net),
        Runs Requests.step free (.boot net qsize) h s → ReportsOwn (fun _ => True) h) ∧
      ¬ (∀ (qsize : Nat) (h : List RequestEvent) (s : Requests blk),
        Runs Requests.step free (.boot blk qsize) h s → ReportsOwn (· = some 0) h) := by
  constructor
  · intro hall
    obtain ⟨h, s, hr, hP⟩ := Runs.of_exec Requests.step free (.boot net 8) lateSend
      (fun h _ => decide (h = [.returned 0 false, .completed 0 none, .returned 1 true])) (by decide)
    rw [of_decide_eq_true hP] at hr
    obtain ⟨st, hmem, -⟩ := hall 8 _ s hr [.returned 0 false, .completed 0 none] [] 1 rfl
    simp at hmem
  · intro hall
    obtain ⟨h, s, hr, hP⟩ := Runs.of_exec Requests.step free (.boot blk 8) lateRead
      (fun h _ => decide (h = [.returned 0 false, .completed 0 (some 0), .returned 1 true])) (by decide)
    rw [of_decide_eq_true hP] at hr
    obtain ⟨st, hmem, -⟩ := hall 8 _ s hr [.returned 0 false, .completed 0 (some 0)] [] 1 rfl
    simp at hmem

end ChodOs.Virtio
