/-
The fast channel registry (`process/ipc_fast.rs`): which pairs have a
channel, and the channels that lead to a process.
-/
import ChodOs.Ipc.Cap

namespace ChodOs.IpcState

/-- `get_channel`. -/
def getChannel (s : IpcState) (src dst : Pid) : Option CapId := s.fast[(src, dst)]?

/-- `ensure_channel_cap`: the pair's channel, created when there is none.
`none`: out of memory. -/
def ensureChannelCap (s : IpcState) (src dst : Pid) (capacity : Nat) : Option (CapId × IpcState) :=
  match s.getChannel src dst with
  | some id => some (id, s)
  | none => do
    let (id, s) ← s.allocSharedFrame src capacity
    let s := s.resetDoorbell id
    let s := { s with fast := s.fast.insert (src, dst) id }
    -- The verdict is only logged; the test byte it writes stays a zero.
    some (id, (s.verifyChannelIsolation id).2)

/-- `ensure_channel`. -/
def ensureChannel (s : IpcState) (src dst : Pid) : Option (CapId × IpcState) := s.ensureChannelCap src dst 512

/-- `drop_channel`. -/
def dropChannel (s : IpcState) (src dst : Pid) : IpcState :=
  match s.getChannel src dst with
  | none => s
  | some id => ({ s with fast := s.fast.erase (src, dst) }.dropShared id).2

/-- `channel_count`. -/
def channelCount (s : IpcState) : Nat := s.fast.size

/-- `find_incoming_channels`: the first `max` channels to `dst`, in key order. -/
def findIncomingChannels (s : IpcState) (dst : Pid) (max : Nat) : List (CapId × Pid) :=
  ((s.fast.toList.filter fun c => c.1.2 == dst).take max).map fun c => (c.2, c.1.1)

/-! ## The registry as a map -/

@[simp] theorem getElem?_fast_insert {s : IpcState} {k a : Pid × Pid} {id : CapId} :
    (s.fast.insert k id)[a]? = if k = a then some id else s.fast[a]? := by
  simp [Std.ExtTreeMap.getElem?_insert]

@[simp] theorem getElem?_fast_erase {s : IpcState} {k a : Pid × Pid} :
    (s.fast.erase k)[a]? = if k = a then none else s.fast[a]? := by
  simp [Std.ExtTreeMap.getElem?_erase]

@[simp] theorem getElem?_buffers_insert {s : IpcState} {k a : CapId} {b : SharedBuffer} :
    (s.buffers.insert k b)[a]? = if k = a then some b else s.buffers[a]? := by
  simp [Std.ExtTreeMap.getElem?_insert]

@[simp] theorem getElem?_buffers_erase {s : IpcState} {k a : CapId} :
    (s.buffers.erase k)[a]? = if k = a then none else s.buffers[a]? := by
  simp [Std.ExtTreeMap.getElem?_erase]

/-- A channel found for `dst` is a registered one. -/
theorem mem_findIncomingChannels {s : IpcState} {dst : Pid} {max : Nat} {c : CapId × Pid}
    (h : c ∈ s.findIncomingChannels dst max) : s.fast[(c.2, dst)]? = some c.1 := by
  simp only [findIncomingChannels, List.mem_map] at h
  obtain ⟨⟨⟨src, dst'⟩, id⟩, hmem, rfl⟩ := h
  obtain ⟨hin, hdst⟩ := List.mem_filter.mp (List.mem_of_mem_take hmem)
  simp only [beq_iff_eq] at hdst
  subst hdst
  exact Std.ExtTreeMap.mem_toList_iff_getElem?_eq_some.mp hin

end ChodOs.IpcState
