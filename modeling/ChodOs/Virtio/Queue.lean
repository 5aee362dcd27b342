/-
The virtqueues of the two virtio drivers (`virtio/queue.rs`, and its like in
`virtio/blk.rs`): where their parts lie in memory, the driver's accesses,
and a device as the specification wants it. The device fetches what the
driver offers in order, writes only into buffers of chains it holds,
completes each chain once, in any order and at any time.
-/
import ChodOs.Lib.IndexRing

namespace ChodOs.Virtio

open IndexRing

/-! ## Layout -/

/-- `(n + 4095) & !4095`. -/
def alignPage (n : Nat) : Nat := (n + 4095) / 4096 * 4096

def availOff (n : Nat) : Nat := n * 16

def usedOff (n : Nat) : Nat := alignPage (availOff n + 6 + n * 2)

def allocSize (n : Nat) : Nat := alignPage (usedOff n + 6 + n * 8)

/-- What the driver and the device access in the memory of a queue. -/
inductive Cell
  | desc (i : Nat)
  | availIdx
  | avail (slot : Nat)
  | usedIdx
  | used (slot : Nat)

namespace Cell

/-- The cells of a queue of size `n`. -/
def Valid (n : Nat) : Cell → Prop
  | desc i | avail i | used i => i < n
  | availIdx | usedIdx => True

def start (n : Nat) : Cell → Nat
  | desc i => i * 16
  | availIdx => availOff n + 2
  | avail slot => availOff n + 4 + slot * 2
  | usedIdx => usedOff n + 2
  | used slot => usedOff n + 4 + slot * 8

def size : Cell → Nat
  | desc _ => 16
  | availIdx | avail _ | usedIdx => 2
  | used _ => 8

theorem le_alignPage (n : Nat) : n ≤ alignPage n := by
  unfold alignPage
  omega

/-- Cells lie in the memory allocated for the queue. -/
theorem stop_le {n : Nat} {c : Cell} (hc : c.Valid n) : c.start n + c.size ≤ allocSize n := by
  have hused := le_alignPage (availOff n + 6 + n * 2)
  have halloc := le_alignPage (usedOff n + 6 + n * 8)
  have havail : availOff n = n * 16 := rfl
  change availOff n + 6 + n * 2 ≤ usedOff n at hused
  change usedOff n + 6 + n * 8 ≤ allocSize n at halloc
  cases c <;> simp only [Valid] at hc <;> simp only [start, size] <;> omega

/-- Different cells do not overlap: the accesses below are to different parts of a state. -/
theorem apart {n : Nat} {c d : Cell} (hc : c.Valid n) (hd : d.Valid n) (hne : c ≠ d) :
    c.start n + c.size ≤ d.start n ∨ d.start n + d.size ≤ c.start n := by
  have hused := le_alignPage (availOff n + 6 + n * 2)
  have havail : availOff n = n * 16 := rfl
  change availOff n + 6 + n * 2 ≤ usedOff n at hused
  cases c <;> cases d <;> simp only [Valid] at hc hd <;> simp only [ne_eq, desc.injEq, avail.injEq, used.injEq,
    not_true_eq_false] at hne <;> simp only [start, size] <;> omega

end Cell

/-! ## The driver's side -/

def descNext : Nat := 1
def descWrite : Nat := 2

structure Desc where
  addr : Nat
  len : Nat
  flags : Nat
  next : Nat
  deriving DecidableEq

/-- The device may write into the buffer. -/
def Desc.writable (d : Desc) : Bool := d.flags &&& descWrite != 0

structure UsedElem where
  id : Nat
  len : Nat
  deriving DecidableEq

/-- `Queue`, with the memory it points to in place of the pointer. -/
structure Queue where
  qsize : Nat
  desc : Nat → Desc
  availRing : Nat → Nat
  availIdx : UInt16
  usedRing : Nat → UsedElem
  usedIdx : UInt16
  ai : UInt16
  lu : UInt16
  nd : Nat

namespace Queue

/-- `Queue::init`: zeroed memory. -/
def init (qsize : Nat) : Queue where
  qsize
  desc _ := ⟨0, 0, 0, 0⟩
  availRing _ := 0
  availIdx := 0
  usedRing _ := ⟨0, 0⟩
  usedIdx := 0
  ai := 0
  lu := 0
  nd := 0

def writeDesc (q : Queue) (idx addr len flags next : Nat) : Queue :=
  { q with desc := Function.update q.desc idx ⟨addr, len, flags, next⟩ }

def availPut (q : Queue) (slot head : Nat) : Queue := { q with availRing := Function.update q.availRing slot head }

/-- The next entry of the available ring; the device does not see it yet. -/
def offer (q : Queue) (head : Nat) : Queue := { q.availPut (slot q.qsize q.ai) head with ai := q.ai + 1 }

def availCommit (q : Queue) (idx : UInt16) : Queue := { q with availIdx := idx }

def usedId (q : Queue) (slot : Nat) : Nat := (q.usedRing slot).id

def usedLen (q : Queue) (slot : Nat) : Nat := (q.usedRing slot).len

end Queue

/-! ## The device -/

/-- A chain the device has fetched; `seq` counts the fetches. -/
structure Chain where
  seq : Nat
  head : Nat
  descs : List Desc
  deriving DecidableEq

/-- The descriptors from `i` on, as long as one has a next; no chain is
longer than the table. -/
def chainFrom (desc : Nat → Desc) : Nat → Nat → List Desc
  | 0, _ => []
  | fuel + 1, i =>
    desc i :: if (desc i).flags &&& descNext = 0 then [] else chainFrom desc fuel (desc i).next

theorem chainFrom_single {desc : Nat → Desc} {fuel i : Nat} (hf : 0 < fuel)
    (h : (desc i).flags &&& descNext = 0) : chainFrom desc fuel i = [desc i] := by
  obtain ⟨n, rfl⟩ := Nat.exists_eq_succ_of_ne_zero (Nat.ne_of_gt hf)
  rw [Nat.succ_eq_add_one, chainFrom, if_pos h]

/-- How much the device may write into a chain. -/
def Chain.room (c : Chain) : Nat := ((c.descs.filter Desc.writable).map (·.len)).sum

/-- The device's own state: how far it is in both rings, the chains it holds,
and those with a used element that `used.idx` does not cover yet. -/
structure Device where
  lastAvail : UInt16
  nextUsed : UInt16
  fetched : Nat
  held : List Chain
  filled : List (Chain × Nat)

/-- A queue, the memory of its buffers and the device. -/
structure Bus where
  q : Queue
  mem : Nat → UInt8
  dev : Device

inductive DevAct
  | fetch
  /-- A byte written at an offset of a descriptor's buffer. -/
  | write (c : Chain) (i off : Nat) (byte : UInt8)
  /-- A used element for a chain, of which `len` bytes were written. -/
  | put (c : Chain) (len : Nat)
  | commit

namespace Bus

/-- Before the device's first step. -/
def start (q : Queue) (mem : Nat → UInt8) : Bus where
  q
  mem
  dev := { lastAvail := 0, nextUsed := 0, fetched := 0, held := [], filled := [] }

/-- The chain at the device's place in the available ring. -/
def nextChain (b : Bus) : Chain :=
  let head := b.q.availRing (slot b.q.qsize b.dev.lastAvail)
  ⟨b.dev.fetched, head, chainFrom b.q.desc b.q.qsize head⟩

/-- The next chain is fetched. -/
def fetch (b : Bus) : Bus :=
  { b with dev := { b.dev with
    lastAvail := b.dev.lastAvail + 1
    fetched := b.dev.fetched + 1
    held := b.dev.held ++ [b.nextChain] } }

/-- A byte is written. -/
def write (b : Bus) (addr : Nat) (byte : UInt8) : Bus := { b with mem := Function.update b.mem addr byte }

/-- A used element for a chain, of which `len` bytes were written. -/
def put (b : Bus) (c : Chain) (len : Nat) : Bus where
  q := { b.q with usedRing := Function.update b.q.usedRing (slot b.q.qsize b.dev.nextUsed) ⟨c.head, len⟩ }
  mem := b.mem
  dev := { b.dev with
    nextUsed := b.dev.nextUsed + 1
    held := b.dev.held.erase c
    filled := b.dev.filled ++ [(c, len)] }

/-- `used.idx` covers every used element. -/
def commit (b : Bus) : Bus where
  q := { b.q with usedIdx := b.dev.nextUsed }
  mem := b.mem
  dev := { b.dev with filled := [] }

/-- A step of the device, with the chains it completed. `none`: it does not do that. -/
def devStep (b : Bus) : DevAct → Option (List (Chain × Nat) × Bus)
  | .fetch => if b.dev.lastAvail = b.q.availIdx then none else some ([], b.fetch)
  | .write c i off byte =>
    match c.descs[i]? with
    | some d =>
      if c ∈ b.dev.held ∧ d.writable = true ∧ off < d.len then some ([], b.write (d.addr + off) byte) else none
    | none => none
  | .put c len => if c ∈ b.dev.held ∧ len ≤ c.room then some ([], b.put c len) else none
  | .commit => some (b.dev.filled, b.commit)

/-- What a step of the device is. -/
inductive Stepped (b : Bus) : List (Chain × Nat) → Bus → Prop
  | fetch (hne : b.q.availIdx ≠ b.dev.lastAvail) : Stepped b [] b.fetch
  | write {c : Chain} {d : Desc} {off : Nat} {byte : UInt8} (hc : c ∈ b.dev.held) (hd : d ∈ c.descs)
      (hw : d.writable = true) (hoff : off < d.len) : Stepped b [] (b.write (d.addr + off) byte)
  | put {c : Chain} {len : Nat} (hc : c ∈ b.dev.held) (hlen : len ≤ c.room) : Stepped b [] (b.put c len)
  | commit : Stepped b b.dev.filled b.commit

theorem devStep_stepped {b b' : Bus} {a : DevAct} {done : List (Chain × Nat)}
    (h : b.devStep a = some (done, b')) : b.Stepped done b' := by
  cases a with
  | fetch =>
    simp only [devStep] at h
    split at h
    · cases h
    · next hne =>
      cases h
      exact .fetch (Ne.symm hne)
  | write c i off byte =>
    simp only [devStep] at h
    split at h
    · next d hd =>
      split at h
      · next hok =>
        cases h
        exact .write hok.1 (List.mem_of_getElem? hd) hok.2.1 hok.2.2
      · cases h
    · cases h
  | put c len =>
    simp only [devStep] at h
    split at h
    · next hok =>
      cases h
      exact .put hok.1 hok.2
    · cases h
  | commit =>
    cases h
    exact .commit

end Bus

end ChodOs.Virtio
