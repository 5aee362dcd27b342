/-
Reception on the network card (`virtio/net.rs`): `post_rx_all`, then any
interleaving of the device's steps with those of `try_recv`. Each of the
eight buffers is in one place at a time, and the frames returned are those
the device delivered.
-/
import ChodOs.Lib.Run
import ChodOs.Virtio.Queue
import Mathlib.Data.List.Perm.Basic

namespace ChodOs.Virtio

open IndexRing StepSys

/-! ## The receiver -/

def netHdrLen : Nat := 10
def rxBufSize : Nat := netHdrLen + 1514
def rxBufCount : Nat := 8

/-- The descriptor of buffer `i`; `base` is `rx_bufs` less the HHDM offset. -/
def rxDesc (base i : Nat) : Desc := ⟨base + i * rxBufSize, rxBufSize, descWrite, 0⟩

namespace Queue

/-- Buffer `i` written to its descriptor. -/
def writeRxDesc (q : Queue) (base i : Nat) : Queue := q.writeDesc i (base + i * rxBufSize) rxBufSize descWrite 0

/-- `post_rx_all`. -/
def postRxAll (q : Queue) (base : Nat) : Queue :=
  let q := (List.range rxBufCount).foldl (fun q i => (q.writeRxDesc base i).offer i) q
  q.availCommit q.ai

end Queue

/-- Where `try_recv` is. -/
inductive RxPc
  | idle
  /-- `used_idx` was not `lu`. -/
  | readId
  | readLen (id : Nat)
  /-- The bytes read so far. -/
  | copy (id total : Nat) (pkt : List UInt8)
  | writeDesc (id : Nat) (pkt : List UInt8)
  | put (id : Nat) (pkt : List UInt8)
  | commit (id : Nat) (pkt : List UInt8)
  deriving DecidableEq

structure Rx where
  base : Nat
  bus : Bus
  pc : RxPc

/-- What happened: the device made a frame known, or `try_recv` returned. -/
inductive RxEvent
  | delivered (frame : List UInt8)
  | returned (frame : Option (List UInt8))
  deriving DecidableEq

inductive RxAct
  | dev (a : DevAct)
  /-- `try_recv` is called. -/
  | call
  | go

/-- The bytes after the header that a device wrote into the first buffer of a chain. -/
def deliveredFrame (mem : Nat → UInt8) (c : Chain) (len : Nat) : List UInt8 :=
  (List.range (len - netHdrLen)).map fun i => mem ((c.descs.head?.elim 0 (·.addr)) + netHdrLen + i)

/-- Byte `i` of the frame in buffer `id`. -/
def pktByte (base : Nat) (mem : Nat → UInt8) (id i : Nat) : UInt8 := mem (base + id * rxBufSize + netHdrLen + i)

namespace Rx

/-- After `init` of a queue of this size. -/
def boot (qsize base : Nat) : Rx := ⟨base, .start ((Queue.init qsize).postRxAll base) fun _ => 0, .idle⟩

/-- The next step of `try_recv`, each with one access to what is shared. -/
def go (s : Rx) : List RxEvent × Rx :=
  let q := s.bus.q
  match s.pc with
  | .idle => ([], s)
  | .readId => ([], { s with pc := .readLen (q.usedId (slot q.qsize q.lu)) })
  | .readLen id =>
    let total := q.usedLen (slot q.qsize q.lu)
    ([], { s with bus := { s.bus with q := { q with lu := q.lu + 1 } }, pc := .copy id total [] })
  | .copy id total pkt =>
    if pkt.length < total - netHdrLen then ([], { s with pc := .copy id total (pkt ++ [pktByte s.base s.bus.mem id pkt.length]) })
    else ([], { s with pc := .writeDesc id pkt })
  | .writeDesc id pkt => ([], { s with bus := { s.bus with q := q.writeRxDesc s.base id }, pc := .put id pkt })
  | .put id pkt => ([], { s with bus := { s.bus with q := q.offer id }, pc := .commit id pkt })
  | .commit _ pkt =>
    ([.returned (some pkt)], { s with bus := { s.bus with q := q.availCommit q.ai }, pc := .idle })

def step (s : Rx) : RxAct → Option (List RxEvent × Rx)
  | .dev a => (s.bus.devStep a).map fun (done, bus) =>
      (done.map fun d => .delivered (deliveredFrame s.bus.mem d.1 d.2), { s with bus })
  | .call =>
    if s.pc = .idle then
      if s.bus.q.usedIdx = s.bus.q.lu then some ([.returned none], s) else some ([], { s with pc := .readId })
    else none
  | .go => if s.pc = .idle then none else some s.go

/-! ## Where the buffers are -/

/-- The buffers posted to the device: offered, held by it, or with a used
element it has not made known. -/
def posted (s : Rx) : List Nat :=
  between s.bus.q.availRing s.bus.q.qsize s.bus.dev.lastAvail s.bus.q.availIdx ++
    (s.bus.dev.held.map (·.head) ++ s.bus.dev.filled.map (·.1.head))

/-- The used elements not consumed yet. -/
def unconsumed (s : Rx) : List UsedElem := between s.bus.q.usedRing s.bus.q.qsize s.bus.q.lu s.bus.q.usedIdx

end Rx

/-- The buffer `try_recv` works on. -/
def RxPc.working : RxPc → List Nat
  | .idle | .readId | .readLen _ => []
  | .copy id _ _ | .writeDesc id _ | .put id _ | .commit id _ => [id]

/-- The frame of a used element, in the buffer. -/
def frame (base : Nat) (mem : Nat → UInt8) (e : UsedElem) : List UInt8 :=
  (List.range (e.len - netHdrLen)).map (pktByte base mem e.id)

/-- The frame `try_recv` is about to return. -/
def RxPc.taken (base : Nat) (mem : Nat → UInt8) : RxPc → List (List UInt8)
  | .idle | .readId | .readLen _ => []
  | .copy id total _ => [frame base mem ⟨id, total⟩]
  | .writeDesc _ pkt | .put _ pkt | .commit _ pkt => [pkt]

/-- The frames delivered and not returned. -/
def Rx.pending (s : Rx) : List (List UInt8) :=
  s.pc.taken s.base s.bus.mem ++ s.unconsumed.map (frame s.base s.bus.mem)

def delivered (h : List RxEvent) : List (List UInt8) :=
  h.filterMap fun
    | .delivered frame => some frame
    | .returned _ => none

def returned (h : List RxEvent) : List (List UInt8) :=
  h.filterMap fun
    | .delivered _ => none
    | .returned frame => frame

/-- What holds at a place in `try_recv`. -/
def RxPc.Ok (base : Nat) (q : Queue) (mem : Nat → UInt8) : RxPc → Prop
  | .idle | .writeDesc _ _ | .put _ _ => q.ai = q.availIdx
  | .readId => q.ai = q.availIdx ∧ q.usedIdx ≠ q.lu
  | .readLen id => q.ai = q.availIdx ∧ q.usedIdx ≠ q.lu ∧ q.usedId (slot q.qsize q.lu) = id
  | .copy id total pkt => q.ai = q.availIdx ∧ total ≤ rxBufSize ∧ pkt.length ≤ total - netHdrLen ∧
      pkt = (frame base mem ⟨id, total⟩).take pkt.length
  | .commit id _ => q.ai = q.availIdx + 1 ∧ q.availRing (slot q.qsize q.availIdx) = id

namespace Rx

/-- Every buffer is in one place, the descriptors are the buffers', and the
used elements are those the device wrote. -/
structure Inv (s : Rx) : Prop where
  dvd : s.bus.q.qsize ∣ 2 ^ 16
  ge : 8 ≤ s.bus.q.qsize
  lt : s.bus.q.qsize < 2 ^ 16
  desc : ∀ i < 8, s.bus.q.desc i = rxDesc s.base i
  held : ∀ c ∈ s.bus.dev.held, c.descs = [rxDesc s.base c.head]
  filled : ∀ p ∈ s.bus.dev.filled, p.1.descs = [rxDesc s.base p.1.head] ∧ p.2 ≤ rxBufSize
  elems : between s.bus.q.usedRing s.bus.q.qsize s.bus.q.usedIdx s.bus.dev.nextUsed =
    s.bus.dev.filled.map fun p => ⟨p.1.head, p.2⟩
  lens : ∀ e ∈ s.unconsumed, e.len ≤ rxBufSize
  perm : (s.posted ++ (s.unconsumed.map (·.id) ++ s.pc.working)).Perm (List.range rxBufCount)
  pc : s.pc.Ok s.base s.bus.q s.bus.mem

section inv
variable {s : Rx} (hi : s.Inv)
include hi

/-- There are eight buffers. -/
theorem Inv.counts : ahead s.bus.q.availIdx s.bus.dev.lastAvail + s.bus.dev.held.length + s.bus.dev.filled.length +
    ahead s.bus.q.usedIdx s.bus.q.lu + s.pc.working.length = 8 := by
  have hlen := hi.perm.length_eq
  simp only [posted, unconsumed, List.length_append, List.length_map, length_between, List.length_range,
    rxBufCount] at hlen
  omega

theorem Inv.ahead_nextUsed : ahead s.bus.dev.nextUsed s.bus.q.usedIdx = s.bus.dev.filled.length := by
  have hlen := congrArg List.length hi.elems
  rwa [length_between, List.length_map] at hlen

/-- A buffer in some place is one of the eight. -/
theorem Inv.lt_of_mem {i : Nat} (h : i ∈ s.posted ++ (s.unconsumed.map (·.id) ++ s.pc.working)) : i < 8 :=
  List.mem_range.mp (hi.perm.mem_iff.mp h)

/-- A buffer the device holds is not one with a frame in it. -/
theorem Inv.held_apart {c : Chain} (hc : c ∈ s.bus.dev.held) :
    (∀ e ∈ s.unconsumed, e.id ≠ c.head) ∧ c.head ∉ s.pc.working := by
  have hnodup : (s.posted ++ (s.unconsumed.map (·.id) ++ s.pc.working)).Nodup :=
    hi.perm.nodup_iff.mpr List.nodup_range
  have hmem : c.head ∈ s.posted :=
    List.mem_append_right _ (List.mem_append_left _ (List.mem_map_of_mem (f := Chain.head) hc))
  obtain ⟨-, -, hapart⟩ := List.nodup_append.mp hnodup
  exact ⟨fun e he h => hapart _ hmem _ (List.mem_append_left _ (List.mem_map_of_mem he)) h.symm,
    fun h => hapart _ hmem _ (List.mem_append_right _ h) rfl⟩

end inv

/-- A step that keeps the invariant, with the events that account for the
change of what is pending. -/
structure Keeps (s s' : Rx) (es : List RxEvent) : Prop where
  inv : s'.Inv
  balance : returned es ++ s'.pending = s.pending ++ delivered es

/-! ### The device's steps -/

/-- Buffers do not overlap. -/
theorem buffers_apart {base size a b i j : Nat} (hne : a ≠ b) (hi : i < size) (hj : j < size) :
    base + a * size + i ≠ base + b * size + j := by
  intro he
  have hquot : ∀ a i, i < size → (a * size + i) / size = a := fun a i hi => by
    rw [Nat.mul_comm, Nat.mul_add_div (by omega), Nat.div_eq_of_lt hi, Nat.add_zero]
  have hsum : a * size + i = b * size + j := by omega
  have hdiv := congrArg (· / size) hsum
  simp only [hquot a i hi, hquot b j hj] at hdiv
  exact hne hdiv

/-- A frame whose buffer the device does not write stays. -/
theorem frame_write {base : Nat} {mem : Nat → UInt8} {e : UsedElem} {id off : Nat} (hne : e.id ≠ id)
    (hlen : e.len ≤ rxBufSize) (hoff : off < rxBufSize) (byte : UInt8) :
    frame base (Function.update mem ((rxDesc base id).addr + off) byte) e = frame base mem e := by
  refine List.map_congr_left fun i hlt => ?_
  rw [List.mem_range] at hlt
  refine Function.update_of_ne ?_ _ _
  rw [Nat.add_assoc (base + e.id * rxBufSize)]
  exact buffers_apart hne (by omega) hoff

section device
variable {s : Rx} (hi : s.Inv)
include hi

theorem Inv.fetch (hne : s.bus.q.availIdx ≠ s.bus.dev.lastAvail) : Keeps s { s with bus := s.bus.fetch } [] := by
  -- The head fetched is the first of those offered, so it is a buffer's.
  have hpop := @between_pop _ s.bus.q.qsize s.bus.q.availRing _ _ hne
  have hhead : s.bus.nextChain.head < 8 := by
    refine hi.lt_of_mem (List.mem_append_left _ (List.mem_append_left _ ?_))
    rw [hpop]
    exact List.mem_cons_self
  have hdesc := hi.desc _ hhead
  have hchain : s.bus.nextChain.descs = [rxDesc s.base s.bus.nextChain.head] := by
    rw [← hdesc]
    refine chainFrom_single (by have := hi.ge; omega) ?_
    change (s.bus.q.desc s.bus.nextChain.head).flags &&& descNext = 0
    rw [hdesc]
    change descWrite &&& descNext = 0
    decide
  refine ⟨{ hi with held := ?_, perm := ?_ }, by simp [returned, delivered]; rfl⟩
  · intro c hc
    rcases List.mem_append.mp hc with hc | hc
    · exact hi.held c hc
    · rw [List.mem_singleton] at hc
      rw [hc, hchain]
  · refine List.Perm.trans ?_ hi.perm
    rw [List.perm_iff_count]
    intro i
    simp only [posted, hpop, unconsumed, Bus.fetch, Bus.nextChain, List.count_append, List.map_append,
      List.map_singleton, List.count_cons, List.count_nil]
    omega

theorem Inv.write {c : Chain} {d : Desc} {off : Nat} (hc : c ∈ s.bus.dev.held) (hd : d ∈ c.descs) (hoff : off < d.len)
    (byte : UInt8) : Keeps s { s with bus := s.bus.write (d.addr + off) byte } [] := by
  -- The byte goes into the buffer of a chain the device holds.
  obtain rfl : d = rxDesc s.base c.head := by
    rw [hi.held c hc] at hd
    exact List.mem_singleton.mp hd
  obtain ⟨hused, hworking⟩ := hi.held_apart hc
  have hframes : s.unconsumed.map (frame s.base (s.bus.write ((rxDesc s.base c.head).addr + off) byte).mem) =
      s.unconsumed.map (frame s.base s.bus.mem) :=
    List.map_congr_left fun e he => frame_write (hused e he) (hi.lens e he) hoff byte
  have hpc := hi.pc
  have hframe : ∀ id total pkt, s.pc = .copy id total pkt →
      frame s.base (s.bus.write ((rxDesc s.base c.head).addr + off) byte).mem ⟨id, total⟩ =
        frame s.base s.bus.mem ⟨id, total⟩ := by
    intro id total pkt hat
    rw [hat] at hpc hworking
    exact frame_write (fun h => hworking (List.mem_singleton.mpr h.symm)) hpc.2.1 hoff byte
  refine ⟨{ hi with pc := ?_ }, ?_⟩
  · cases hat : s.pc with
    | copy id total pkt =>
      rw [hat] at hpc
      obtain ⟨hai, htotal, hlen, hpkt⟩ := hpc
      exact ⟨hai, htotal, hlen, by rw [hframe id total pkt hat]; exact hpkt⟩
    | _ => rw [hat] at hpc; exact hpc
  · simp only [returned, delivered, pending, List.filterMap_nil, List.nil_append, List.append_nil]
    refine congrArg₂ (· ++ ·) ?_ hframes
    cases hat : s.pc with
    | copy id total pkt => exact congrArg (fun f => [f]) (hframe id total pkt hat)
    | _ => rfl

/-- The used elements made known stay when the next one is written. -/
theorem Inv.used_put (e : UsedElem) (hlen : s.bus.dev.held ≠ []) :
    between (Function.update s.bus.q.usedRing (slot s.bus.q.qsize s.bus.dev.nextUsed) e) s.bus.q.qsize s.bus.q.lu
      s.bus.q.usedIdx = s.unconsumed := by
  have hcounts := hi.counts
  have hahead := hi.ahead_nextUsed
  have hpos := List.length_pos_iff.mpr hlen
  have hge := hi.ge
  have hsum := ahead_add (a := s.bus.q.usedIdx) (b := s.bus.q.lu) (c := s.bus.dev.nextUsed) (by omega)
  exact between_update hi.dvd (by omega) (by omega) e

theorem Inv.put {c : Chain} {len : Nat} (hc : c ∈ s.bus.dev.held) (hlen : len ≤ c.room) :
    Keeps s { s with bus := s.bus.put c len } [] := by
  have hused := hi.used_put ⟨c.head, len⟩ (List.ne_nil_of_mem hc)
  have hchain := hi.held c hc
  have hcounts := hi.counts
  have hahead := hi.ahead_nextUsed
  have hpos := List.length_pos_of_mem hc
  have hge := hi.ge
  have hpc := hi.pc
  refine ⟨{ hi with held := ?_, filled := ?_, elems := ?_, lens := ?_, perm := ?_, pc := ?_ }, ?_⟩
  · exact fun d hd => hi.held d (List.mem_of_mem_erase hd)
  · intro p hp
    rcases List.mem_append.mp hp with hp | hp
    · exact hi.filled p hp
    · rw [List.mem_singleton] at hp
      subst hp
      refine ⟨hchain, Nat.le_trans hlen ?_⟩
      simp [Chain.room, hchain, rxDesc, Desc.writable, descWrite]
  · have hpush := @between_push _ _ s.bus.q.usedRing s.bus.dev.nextUsed s.bus.q.usedIdx hi.dvd (by omega) hi.lt
      ⟨c.head, len⟩
    exact hpush.trans (by rw [hi.elems]; simp [Bus.put])
  · intro e he
    refine hi.lens e ?_
    rw [← hused]
    exact he
  · refine List.Perm.trans ?_ hi.perm
    have hun : unconsumed { s with bus := s.bus.put c len } = s.unconsumed := hused
    rw [hun]
    have herase := (List.perm_cons_erase hc).map (·.head)
    rw [List.perm_iff_count] at herase ⊢
    intro i
    have := herase i
    simp only [posted, Bus.put, List.count_append, List.map_append, List.map_cons, List.map_nil, List.count_cons,
      List.count_nil] at this ⊢
    omega
  · cases hat : s.pc with
    | readLen id =>
      rw [hat] at hpc
      obtain ⟨hai, hne, hid⟩ := hpc
      refine ⟨hai, hne, ?_⟩
      rw [← hid]
      have hfirst := @between_pop _ s.bus.q.qsize s.bus.q.usedRing _ _ hne
      rw [← unconsumed, ← hused] at hfirst
      rw [between_pop hne, List.cons.injEq] at hfirst
      exact congrArg UsedElem.id hfirst.1
    | _ => rw [hat] at hpc; exact hpc
  · have hun : unconsumed { s with bus := s.bus.put c len } = s.unconsumed := hused
    simp only [returned, delivered, pending, hun, List.filterMap_nil, List.nil_append, List.append_nil]
    rfl

theorem Inv.commit : Keeps s { s with bus := s.bus.commit }
    (s.bus.dev.filled.map fun d => .delivered (deliveredFrame s.bus.mem d.1 d.2)) := by
  have hcounts := hi.counts
  have hahead := hi.ahead_nextUsed
  have hun : unconsumed { s with bus := s.bus.commit } =
      s.unconsumed ++ s.bus.dev.filled.map fun p => ⟨p.1.head, p.2⟩ := by
    rw [← hi.elems]
    exact @between_append _ _ s.bus.q.usedRing s.bus.q.usedIdx s.bus.q.lu s.bus.dev.nextUsed (by omega)
  have hpc := hi.pc
  refine ⟨{ hi with filled := nofun, elems := ?_, lens := ?_, perm := ?_, pc := ?_ }, ?_⟩
  · exact between_self
  · intro e he
    rw [hun] at he
    rcases List.mem_append.mp he with he | he
    · exact hi.lens e he
    · obtain ⟨p, hp, rfl⟩ := List.mem_map.mp he
      exact (hi.filled p hp).2
  · refine List.Perm.trans ?_ hi.perm
    rw [hun, List.perm_iff_count]
    intro i
    simp only [posted, Bus.commit, List.count_append, List.map_append, List.map_map, List.map_nil,
      List.count_nil, Function.comp_def]
    omega
  · -- An index that was ahead of `lu` stays ahead of it.
    have hstay : s.bus.q.usedIdx ≠ s.bus.q.lu → s.bus.dev.nextUsed ≠ s.bus.q.lu := by
      intro hne he
      have hlen := congrArg List.length hun
      rw [unconsumed, length_between, List.length_append] at hlen
      have hzero : ahead s.bus.dev.nextUsed s.bus.q.lu = 0 := ahead_eq_zero.mpr he
      have hpos : ahead s.bus.q.usedIdx s.bus.q.lu ≠ 0 := fun h => hne (ahead_eq_zero.mp h)
      have hlen' : ahead s.bus.dev.nextUsed s.bus.q.lu = s.unconsumed.length + _ := hlen
      rw [hzero, unconsumed, length_between] at hlen'
      omega
    cases hat : s.pc with
    | readId => rw [hat] at hpc; exact ⟨hpc.1, hstay hpc.2⟩
    | readLen id => rw [hat] at hpc; exact ⟨hpc.1, hstay hpc.2.1, hpc.2.2⟩
    | _ => rw [hat] at hpc; exact hpc
  · -- What is made known is delivered.
    have hframe : ∀ p ∈ s.bus.dev.filled, deliveredFrame s.bus.mem p.1 p.2 = frame s.base s.bus.mem ⟨p.1.head, p.2⟩ := by
      intro p hp
      rw [deliveredFrame, (hi.filled p hp).1]
      rfl
    have hret : ∀ l : List (Chain × Nat), returned (l.map fun d => .delivered (deliveredFrame s.bus.mem d.1 d.2)) = [] := by
      intro l
      simp [returned, List.filterMap_map]
    have hdel : delivered (s.bus.dev.filled.map fun d => .delivered (deliveredFrame s.bus.mem d.1 d.2)) =
        s.bus.dev.filled.map fun p => frame s.base s.bus.mem ⟨p.1.head, p.2⟩ := by
      simp only [delivered, List.filterMap_map, Function.comp_def, List.filterMap_eq_map']
      exact List.map_congr_left hframe
    rw [hret, hdel, List.nil_append, pending, pending, hun, List.map_append, List.map_map, List.append_assoc]
    rfl

end device

/-! ### The driver's steps -/

section driver
variable {base : Nat} {bus : Bus}

theorem Inv.call (hi : Inv ⟨base, bus, .idle⟩) (hne : bus.q.usedIdx ≠ bus.q.lu) :
    Keeps ⟨base, bus, .idle⟩ ⟨base, bus, .readId⟩ [] :=
  ⟨{ hi with pc := ⟨hi.pc, hne⟩ }, (List.append_nil _).symm⟩

theorem Inv.readId (hi : Inv ⟨base, bus, .readId⟩) :
    Keeps ⟨base, bus, .readId⟩ ⟨base, bus, .readLen (bus.q.usedId (slot bus.q.qsize bus.q.lu))⟩ [] :=
  ⟨{ hi with pc := ⟨hi.pc.1, hi.pc.2, rfl⟩ }, (List.append_nil _).symm⟩

/-- The used element at `lu` is consumed. -/
theorem Inv.readLen {id : Nat} (hi : Inv ⟨base, bus, .readLen id⟩) :
    Keeps ⟨base, bus, .readLen id⟩ ⟨base, { bus with q := { bus.q with lu := bus.q.lu + 1 } },
      .copy id (bus.q.usedLen (slot bus.q.qsize bus.q.lu)) []⟩ [] := by
  obtain ⟨hai, hne, hid⟩ := hi.pc
  have hfirst : unconsumed ⟨base, bus, .readLen id⟩ = ⟨id, bus.q.usedLen (slot bus.q.qsize bus.q.lu)⟩ ::
      between bus.q.usedRing bus.q.qsize (bus.q.lu + 1) bus.q.usedIdx := by
    rw [← hid]
    exact between_pop hne
  have hlen := hi.lens _ (hfirst ▸ List.mem_cons_self)
  refine ⟨{ hi with lens := ?_, perm := ?_, pc := ⟨hai, hlen, Nat.zero_le _, rfl⟩ }, ?_⟩
  · exact fun e he => hi.lens e (hfirst ▸ List.mem_cons_of_mem _ he)
  · refine List.Perm.trans ?_ hi.perm
    rw [hfirst, List.perm_iff_count]
    intro i
    simp only [posted, unconsumed, RxPc.working, List.count_append, List.map_cons, List.count_cons, List.count_nil]
    omega
  · rw [pending, pending, hfirst]
    exact (List.append_nil _).symm

/-- A byte more of the frame. -/
theorem Inv.copyByte {id total : Nat} {pkt : List UInt8} (hi : Inv ⟨base, bus, .copy id total pkt⟩)
    (hlt : pkt.length < total - netHdrLen) :
    Keeps ⟨base, bus, .copy id total pkt⟩ ⟨base, bus, .copy id total (pkt ++ [pktByte base bus.mem id pkt.length])⟩ [] := by
  obtain ⟨hai, htotal, -, hpkt⟩ := hi.pc
  refine ⟨{ hi with pc := ⟨hai, htotal, ?_, ?_⟩ }, (List.append_nil _).symm⟩
  · rw [List.length_append, List.length_singleton]
    exact hlt
  · have hframe : (frame base bus.mem ⟨id, total⟩).length = total - netHdrLen := by simp [frame]
    rw [List.length_append, List.length_singleton, List.take_succ_eq_append_getElem (by rw [hframe]; exact hlt), ← hpkt]
    simp [frame]

/-- All of the frame is read. -/
theorem Inv.copied {id total : Nat} {pkt : List UInt8} (hi : Inv ⟨base, bus, .copy id total pkt⟩)
    (hge : ¬ pkt.length < total - netHdrLen) :
    Keeps ⟨base, bus, .copy id total pkt⟩ ⟨base, bus, .writeDesc id pkt⟩ [] := by
  obtain ⟨hai, -, -, hpkt⟩ := hi.pc
  refine ⟨{ hi with pc := hai }, ?_⟩
  have hframe : frame base bus.mem ⟨id, total⟩ = pkt := by
    rw [hpkt, eq_comm]
    exact List.take_of_length_le (by simp [frame]; omega)
  rw [pending, pending, RxPc.taken, hframe]
  exact (List.append_nil _).symm

/-- The descriptor is written as it was. -/
theorem Inv.writeDesc {id : Nat} {pkt : List UInt8} (hi : Inv ⟨base, bus, .writeDesc id pkt⟩) :
    Keeps ⟨base, bus, .writeDesc id pkt⟩ ⟨base, { bus with q := bus.q.writeRxDesc base id }, .put id pkt⟩ [] := by
  refine ⟨{ hi with desc := fun i hlt => ?_ }, (List.append_nil _).symm⟩
  by_cases he : i = id
  · rw [he]
    exact Function.update_self ..
  · exact (Function.update_of_ne he _ _).trans (hi.desc i hlt)

/-- The next entry of the available ring is not one the device has still to fetch. -/
theorem Inv.offer {id : Nat} {pkt : List UInt8} (hi : Inv ⟨base, bus, .put id pkt⟩) :
    Keeps ⟨base, bus, .put id pkt⟩ ⟨base, { bus with q := bus.q.offer id }, .commit id pkt⟩ [] := by
  have hai : bus.q.ai = bus.q.availIdx := hi.pc
  have hcounts : ahead bus.q.availIdx bus.dev.lastAvail + bus.dev.held.length + bus.dev.filled.length +
    ahead bus.q.usedIdx bus.q.lu + 1 = 8 := hi.counts
  have hge : 8 ≤ bus.q.qsize := hi.ge
  have hring : (bus.q.offer id).availRing = Function.update bus.q.availRing (slot bus.q.qsize bus.q.availIdx) id := by
    rw [← hai]
    rfl
  have hposted : posted ⟨base, { bus with q := bus.q.offer id }, .commit id pkt⟩ = posted ⟨base, bus, .put id pkt⟩ := by
    refine congrArg (· ++ _) ?_
    rw [hring]
    exact @between_update _ bus.q.qsize bus.q.availRing _ bus.dev.lastAvail _ hi.dvd (by omega) (Nat.le_refl _) id
  refine ⟨{ hi with perm := ?_, pc := ⟨?_, ?_⟩ }, (List.append_nil _).symm⟩
  · rw [hposted]
    exact hi.perm
  · exact congrArg (· + 1) hai
  · rw [hring]
    exact Function.update_self ..

/-- The buffer is the device's again, and the frame returned. -/
theorem Inv.availCommit {id : Nat} {pkt : List UInt8} (hi : Inv ⟨base, bus, .commit id pkt⟩) :
    Keeps ⟨base, bus, .commit id pkt⟩ ⟨base, { bus with q := bus.q.availCommit bus.q.ai }, .idle⟩
      [.returned (some pkt)] := by
  obtain ⟨hai, hid⟩ := hi.pc
  have hcounts : ahead bus.q.availIdx bus.dev.lastAvail + bus.dev.held.length + bus.dev.filled.length +
    ahead bus.q.usedIdx bus.q.lu + 1 = 8 := hi.counts
  have hsucc := @between_succ _ bus.q.qsize bus.q.availRing bus.q.availIdx bus.dev.lastAvail (by omega)
  rw [hid, ← hai] at hsucc
  refine ⟨{ hi with perm := ?_, pc := rfl }, ?_⟩
  · refine List.Perm.trans ?_ hi.perm
    rw [List.perm_iff_count]
    intro i
    simp only [posted, unconsumed, Queue.availCommit, hsucc, RxPc.working, List.count_append, List.count_nil]
    omega
  · rw [pending, pending]
    exact (List.append_nil _).symm

end driver

theorem Inv.step {s s' : Rx} {a : RxAct} {es : List RxEvent} (hi : s.Inv) (hs : s.step a = some (es, s')) :
    Keeps s s' es := by
  cases a with
  | dev a =>
    obtain ⟨⟨done, bus⟩, hdev, he⟩ := Option.map_eq_some_iff.mp hs
    cases he
    cases Bus.devStep_stepped hdev with
    | fetch hne => exact hi.fetch hne
    | write hc hd hw hoff => exact hi.write hc hd hoff _
    | put hc hlen => exact hi.put hc hlen
    | commit => exact hi.commit
  | call =>
    obtain ⟨base, bus, pc⟩ := s
    simp only [Rx.step] at hs
    split at hs
    case isFalse => cases hs
    next hpc =>
    subst hpc
    split at hs
    · cases hs
      exact ⟨hi, (List.append_nil _).symm⟩
    · next hne =>
      cases hs
      exact hi.call hne
  | go =>
    obtain ⟨base, bus, pc⟩ := s
    cases pc with
    | idle => cases hs
    | readId => cases hs; exact hi.readId
    | readLen id => cases hs; exact hi.readLen
    | copy id total pkt =>
      simp only [Rx.step, reduceCtorEq, if_false, Rx.go] at hs
      split at hs
      · next hlt => cases hs; exact hi.copyByte hlt
      · next hge => cases hs; exact hi.copied hge
    | writeDesc id pkt => cases hs; exact hi.writeDesc
    | put id pkt => cases hs; exact hi.offer
    | commit id pkt => cases hs; exact hi.availCommit

/-! ## The first eight -/

/-- After `n` turns of the loop of `post_rx_all`. -/
theorem postRx_loop {qsize base : Nat} (hdvd : qsize ∣ 2 ^ 16) (hge : 8 ≤ qsize) (hlt : qsize < 2 ^ 16) {n : Nat}
    (hn : n ≤ 8) : ∃ desc availRing,
      (List.range n).foldl (fun q i => (q.writeRxDesc base i).offer i) (Queue.init qsize) =
        { Queue.init qsize with desc, availRing, ai := UInt16.ofNat n } ∧
      (∀ i < n, desc i = rxDesc base i) ∧ between availRing qsize 0 (UInt16.ofNat n) = List.range n := by
  induction n with
  | zero => exact ⟨_, _, rfl, nofun, between_self⟩
  | succ n ih =>
    obtain ⟨desc, availRing, heq, hdesc, hring⟩ := ih (by omega)
    have hahead : ahead (UInt16.ofNat n) 0 = n := by
      have hlen := congrArg List.length hring
      rwa [length_between, List.length_range] at hlen
    have hsucc : UInt16.ofNat (n + 1) = UInt16.ofNat n + 1 := UInt16.ofNat_add n 1
    rw [List.range_succ, List.foldl_append, heq, hsucc]
    refine ⟨Function.update desc n (rxDesc base n), Function.update availRing (slot qsize (UInt16.ofNat n)) n, rfl,
      fun i hi => ?_, ?_⟩
    · by_cases he : i = n
      · rw [he]
        exact Function.update_self ..
      · exact (Function.update_of_ne he _ _).trans (hdesc i (by omega))
    · have hpush := @between_push _ _ availRing (UInt16.ofNat n) 0 hdvd (by omega) hlt n
      rw [hring] at hpush
      exact hpush

/-- After `init`: the descriptors are the buffers', all of them offered in order. -/
theorem boot_eq {qsize : Nat} (base : Nat) (hdvd : qsize ∣ 2 ^ 16) (hge : 8 ≤ qsize) (hlt : qsize < 2 ^ 16) :
    ∃ desc availRing, boot qsize base =
        ⟨base, .start { Queue.init qsize with desc, availRing, ai := UInt16.ofNat 8, availIdx := UInt16.ofNat 8 }
          fun _ => 0, .idle⟩ ∧
      (∀ i < 8, desc i = rxDesc base i) ∧ between availRing qsize 0 (UInt16.ofNat 8) = List.range 8 := by
  obtain ⟨desc, availRing, heq, hdesc, hring⟩ := postRx_loop hdvd hge hlt (Nat.le_refl 8)
  refine ⟨desc, availRing, ?_, hdesc, hring⟩
  rw [boot, Queue.postRxAll, rxBufCount, heq]
  rfl

theorem Inv.boot {qsize : Nat} (base : Nat) (hdvd : qsize ∣ 2 ^ 16) (hge : 8 ≤ qsize) (hlt : qsize < 2 ^ 16) :
    (boot qsize base).Inv ∧ (boot qsize base).pending = [] := by
  obtain ⟨desc, availRing, hboot, hdesc, hring⟩ := boot_eq base hdvd hge hlt
  have hun : (Rx.boot qsize base).unconsumed = [] := by
    rw [hboot]
    exact between_self
  have hpending : (Rx.boot qsize base).pending = [] := by
    rw [pending, hun]
    rfl
  refine ⟨?_, hpending⟩
  rw [hboot] at hun ⊢
  refine ⟨hdvd, hge, hlt, hdesc, nofun, nofun, between_self, ?_, ?_, rfl⟩
  · intro e he
    rw [hun] at he
    cases he
  · rw [hun]
    change (between availRing qsize 0 (UInt16.ofNat 8) ++ [] ++ []).Perm _
    rw [hring]
    rfl

end Rx

/-! ## Every frame once, in order -/

end ChodOs.Virtio
