/-
Shared buffers and switchless doorbells (`process/ipc_cap.rs`).

A frame-backed buffer is one physical frame with a write address and a
read address. Its doorbell is one of 64 shared cells, picked by the
capability id modulo 64: 0 means empty, `n > 0` means `n` bytes are ready.
`send_switchless` is cut where another task can run: the lookup under the
lock, the wait for the doorbell, the copy, the doorbell store; and so is
`poll_switchless`.
-/
import ChodOs.Paging.Channel
import ChodOs.Process

namespace ChodOs

abbrev CapId := Nat

/-- The key order of a `BTreeMap<(Pid, Pid), _>`. -/
abbrev pairCmp : Pid × Pid → Pid × Pid → Ordering := compareLex (compareOn (·.1)) (compareOn (·.2))

instance : Std.TransCmp pairCmp := inferInstanceAs (Std.TransCmp (compareLex _ _))

instance : Std.LawfulEqCmp pairCmp where
  eq_of_compare {a b} h := by
    simp only [pairCmp, compareLex, compareOn] at h
    obtain ⟨h₁, h₂⟩ := Ordering.then_eq_eq.mp h
    exact Prod.ext (Std.LawfulEqCmp.eq_of_compare h₁) (Std.LawfulEqCmp.eq_of_compare h₂)

/-- `SharedBuffer`. -/
structure SharedBuffer where
  id : CapId
  data : List UInt8
  owner : Pid
  frameBacked : Bool
  writeVa : Nat
  readVa : Nat
  phys : Nat
  frameLen : Nat

def swSlots : Nat := 64

/-- The IPC globals: physical memory with `SHARED_BUFFERS`, `NEXT_CAP_ID`,
`SW_DOORBELLS` and `FAST_CHANNELS`. -/
structure IpcState where
  mem : ChannelMem
  buffers : Std.ExtTreeMap CapId SharedBuffer
  nextCapId : Nat
  doorbells : Fin swSlots → Nat
  fast : Std.ExtTreeMap (Pid × Pid) CapId pairCmp

/-- `sw_slot`. -/
def swSlot (id : CapId) : Fin swSlots := ⟨id % swSlots, Nat.mod_lt _ (by decide)⟩

namespace IpcState

/-- The statics as they are at boot. -/
def init (mem : ChannelMem) : IpcState where
  mem
  buffers := ∅
  nextCapId := 1
  doorbells := fun _ => 0
  fast := ∅

/-- `alloc_shared`: a heap-backed buffer. -/
def allocShared (s : IpcState) (owner : Pid) (data : List UInt8) : CapId × IpcState :=
  let buf :=
    { id := s.nextCapId, data, owner, frameBacked := false, writeVa := 0, readVa := 0, phys := 0, frameLen := 0 }
  (s.nextCapId, { s with buffers := s.buffers.insert s.nextCapId buf, nextCapId := s.nextCapId + 1 })

/-- `alloc_shared_frame`: a frame-backed buffer. `none`: out of memory. -/
def allocSharedFrame (s : IpcState) (owner : Pid) (capacity : Nat) : Option (CapId × IpcState) := do
  let ((writeVa, readVa, phys), mem) ← s.mem.allocChannelFrame
  let buf := { id := s.nextCapId, data := [], owner, frameBacked := true, writeVa, readVa, phys,
               frameLen := min capacity 4096 }
  some (s.nextCapId, { s with mem, buffers := s.buffers.insert s.nextCapId buf, nextCapId := s.nextCapId + 1 })

/-- `read_shared` with `f`: outer `none` is a page fault, inner `none` an unknown id. -/
def readShared {R : Type} (s : IpcState) (id : CapId) (f : List UInt8 → R) : Option (Option R) :=
  match s.buffers[id]? with
  | none => some none
  | some buf =>
    if buf.frameBacked then (s.mem.readKernel buf.readVa buf.frameLen).map fun bs => some (f bs)
    else some (some (f buf.data))

/-- `drop_shared`. The doorbell keeps its value. -/
def dropShared (s : IpcState) (id : CapId) : Bool × IpcState :=
  match s.buffers[id]? with
  | none => (false, s)
  | some buf =>
    let s := { s with buffers := s.buffers.erase id }
    (true, if buf.frameBacked then { s with mem := s.mem.freeChannelFrame buf.phys } else s)

/-- `reset_doorbell`. -/
def resetDoorbell (s : IpcState) (id : CapId) : IpcState :=
  { s with doorbells := Function.update s.doorbells (swSlot id) 0 }

/-- `doorbell_pending`. -/
def doorbellPending (s : IpcState) (id : CapId) : Bool := s.doorbells (swSlot id) != 0

inductive IsolationResult
  | notApplicable | ok | pteMissing | readVaIsWritable | dataMismatch
  deriving DecidableEq

/-- `verify_channel_isolation`: the entry of the read address must not be
writable, and a test byte written on one side must be read on the other. -/
def verifyChannelIsolation (s : IpcState) (id : CapId) : IsolationResult × IpcState :=
  match s.buffers[id]? with
  | none => (.notApplicable, s)
  | some buf =>
    if !buf.frameBacked then (.notApplicable, s)
    else
      match s.mem.kernelPte buf.readVa with
      | none => (.pteMissing, s)
      | some pte =>
        if pte.writable then (.readVaIsWritable, s)
        else
          let s := { s with mem := s.mem.writeHhdm buf.writeVa [0x5A] }
          if s.mem.readKernel buf.readVa 1 = some [0x5A] then
            (.ok, { s with mem := s.mem.writeHhdm buf.writeVa [0] })
          else (.dataMismatch, s)

/-! ## Switchless send -/

/-- The lookup of `send_switchless`: the write address of a frame-backed buffer. -/
def switchlessVa (s : IpcState) (id : CapId) : Option Nat :=
  match s.buffers[id]? with
  | some buf => if buf.frameBacked then some buf.writeVa else none
  | none => none

/-- The copy of `send_switchless`: at most 4096 bytes. -/
def switchlessWrite (s : IpcState) (va : Nat) (data : List UInt8) : IpcState :=
  { s with mem := s.mem.writeHhdm va (data.take 4096) }

/-- The doorbell store of `send_switchless`. -/
def switchlessRing (s : IpcState) (id : CapId) (data : List UInt8) : IpcState :=
  { s with doorbells := Function.update s.doorbells (swSlot id) (min data.length 4096) }

/-- `send_switchless`, run without interruption. `none`: it spins on a
doorbell that nobody clears. -/
def sendSwitchless (s : IpcState) (id : CapId) (data : List UInt8) : Option (Bool × IpcState) :=
  match s.switchlessVa id with
  | none => some (false, s)
  | some va =>
    if s.doorbells (swSlot id) = 0 then some (true, (s.switchlessWrite va data).switchlessRing id data)
    else none

/-! ## Switchless poll -/

/-- The copy of `poll_switchless` for a doorbell value `len`, into a buffer
of `n` bytes: outer `none` is a page fault, inner `none` an unknown id. -/
def switchlessCopy (s : IpcState) (id : CapId) (len n : Nat) : Option (Option (List UInt8)) :=
  match s.buffers[id]? with
  | none => some none
  | some buf =>
    if !buf.frameBacked then some none
    else (s.mem.readKernel buf.readVa (min len n)).map some

/-- `poll_switchless` into a buffer of `n` bytes: the bytes copied. Outer
`none`: page fault. -/
def pollSwitchless (s : IpcState) (id : CapId) (n : Nat) : Option (Option (List UInt8) × IpcState) :=
  let len := s.doorbells (swSlot id)
  if len = 0 then some (none, s)
  else
    match s.switchlessCopy id len n with
    | none => none
    | some none => some (none, s)
    | some (some bs) => some (some bs, s.resetDoorbell id)

end IpcState

end ChodOs
