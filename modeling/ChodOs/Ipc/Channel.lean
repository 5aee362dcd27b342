/-
Facts about live channels. `Backed` is what every reachable state has: each
registered pair owns one frame-backed buffer with a frame of its own, mapped
once for writing and once for reading. It holds whatever the doorbells do.

`SlotsDistinct` is what isolation rests on besides: no two live channels
share a doorbell. The code does not ensure it (ids are handed out
consecutively and 64 doorbells are shared), so it is kept apart.
-/
import ChodOs.Ipc.Fast
import ChodOs.Lib.FinMap

namespace ChodOs

/-- A frame-backed buffer's frame: in use, writable at one address and
readable at another. -/
structure FrameOk (m : ChannelMem) (b : SharedBuffer) : Prop where
  frame : ∃ f, b.phys = f * pageSize ∧ m.frames.isFree f = false
  write : b.writeVa = b.phys + m.hhdm
  read : m.kernelPte b.readVa = some { phys := b.phys, writable := false, user := false }
  slot : ∃ n, n < m.roSlot ∧ b.readVa = roChannelBase + n * pageSize

/-- The registry, the buffers and the frames fit together. -/
structure Backed (s : IpcState) : Prop where
  buf : ∀ {p : Pid × Pid} {id : CapId}, s.fast[p]? = some id →
    ∃ b, s.buffers[id]? = some b ∧ b.frameBacked = true
  inj : ∀ {p p' : Pid × Pid} {id : CapId}, s.fast[p]? = some id → s.fast[p']? = some id → p = p'
  live : ∀ {id : CapId} {b : SharedBuffer}, s.buffers[id]? = some b → b.frameBacked = true →
    ∃ p : Pid × Pid, s.fast[p]? = some id
  frame : ∀ {id : CapId} {b : SharedBuffer}, s.buffers[id]? = some b → b.frameBacked = true → FrameOk s.mem b
  phys : ∀ {id id' : CapId} {b b' : SharedBuffer}, s.buffers[id]? = some b → b.frameBacked = true →
    s.buffers[id']? = some b' → b'.frameBacked = true → b.phys = b'.phys → id = id'
  fresh : ∀ {id : CapId} {b : SharedBuffer}, s.buffers[id]? = some b → id < s.nextCapId

/-- No two live channels share a doorbell. -/
def SlotsDistinct (s : IpcState) : Prop :=
  ∀ (p p' : Pid × Pid) (id id' : CapId), s.fast[p]? = some id → s.fast[p']? = some id' →
    swSlot id = swSlot id' → p = p'

/-- The first `n` bytes of a channel's frame. -/
def chanBytes (s : IpcState) (id : CapId) (n : Nat) : List UInt8 :=
  match s.buffers[id]? with
  | some b => s.mem.bytes.read b.phys n
  | none => []

/-- What a pair's channel holds for the receiver: at most the 64 bytes
`ipc::recv` takes, when the doorbell is set. -/
def pendingChan (s : IpcState) (p : Pid × Pid) : Option (List UInt8) :=
  s.fast[p]?.bind fun id =>
    if s.doorbells (swSlot id) = 0 then none else some (chanBytes s id (min (s.doorbells (swSlot id)) 64))

theorem Backed.init {s : IpcState} (hf : s.fast = ∅) (hb : s.buffers = ∅) : Backed s := by
  constructor <;> simp [hf, hb]

/-! ## What each operation changes -/

/-- The isolation check writes at most the first byte of the buffer's frame. -/
theorem verifyChannelIsolation_eq (s : IpcState) (id : CapId) :
    ∃ bytes', (s.verifyChannelIsolation id).2 = { s with mem := { s.mem with bytes := bytes' } } ∧
      ∀ x, (∀ b, s.buffers[id]? = some b → x ≠ b.writeVa - s.mem.hhdm) → bytes' x = s.mem.bytes x := by
  have same : ∃ bytes', s = { s with mem := { s.mem with bytes := bytes' } } ∧
      ∀ x, (∀ b, s.buffers[id]? = some b → x ≠ b.writeVa - s.mem.hhdm) → bytes' x = s.mem.bytes x :=
    ⟨s.mem.bytes, rfl, fun _ _ => rfl⟩
  unfold IpcState.verifyChannelIsolation
  split
  · exact same
  next b hb =>
  split
  · exact same
  split
  · exact same
  split
  · exact same
  have one : ∀ {m : ByteMem} {v : UInt8} {x}, (∀ b, s.buffers[id]? = some b → x ≠ b.writeVa - s.mem.hhdm) →
      m.write (b.writeVa - s.mem.hhdm) [v] x = m x := fun hx =>
    ByteMem.write_outside (by have := hx b hb; simp only [List.length_singleton]; omega)
  simp only
  split
  · exact ⟨_, rfl, fun x hx => by simp only [ChannelMem.writeHhdm]; rw [one hx, one hx]⟩
  · exact ⟨_, rfl, fun x hx => one hx⟩

/-- What creating a channel does. -/
structure Created (s s' : IpcState) (p : Pid × Pid) (b : SharedBuffer) : Prop where
  id : s'.nextCapId = s.nextCapId + 1
  fast : s'.fast = s.fast.insert p s.nextCapId
  doorbells : s'.doorbells = Function.update s.doorbells (swSlot s.nextCapId) 0
  buffers : s'.buffers = s.buffers.insert s.nextCapId b
  backed : b.frameBacked = true
  frame : ∃ f, b.phys = f * pageSize ∧ s.mem.frames.isFree f = true ∧ s'.mem.frames.isFree f = false
  write : b.writeVa = b.phys + s'.mem.hhdm
  readVa : b.readVa = roChannelBase + s.mem.roSlot * pageSize
  slot : s'.mem.roSlot = s.mem.roSlot + 1
  pte : s'.mem.kernelPte =
    Function.update s.mem.kernelPte b.readVa (some { phys := b.phys, writable := false, user := false })
  keeps : s.mem.Keeps s'.mem

/-- `ensure_channel_cap` finds the channel or creates it. -/
theorem ensureChannelCap_cases {s s' : IpcState} {src dst : Pid} {cap : Nat} {id : CapId}
    (h : s.ensureChannelCap src dst cap = some (id, s')) :
    (s.fast[(src, dst)]? = some id ∧ s' = s) ∨
      (s.fast[(src, dst)]? = none ∧ id = s.nextCapId ∧ ∃ b, Created s s' (src, dst) b) := by
  simp only [IpcState.ensureChannelCap, IpcState.getChannel] at h
  split at h
  · next hf =>
    simp only [Option.some.injEq, Prod.mk.injEq] at h
    exact .inl ⟨by rw [hf, h.1], h.2.symm⟩
  next hf =>
  simp only [IpcState.allocSharedFrame, Option.bind_eq_bind, Option.bind_eq_some_iff, Option.some.injEq,
    Prod.mk.injEq] at h
  obtain ⟨⟨i, t⟩, ⟨⟨⟨w, r, phys⟩, mem⟩, ha, rfl, rfl⟩, rfl, rfl⟩ := h
  obtain ⟨hk, hslot, rfl, rfl, hpte, f, rfl, hfree, hused⟩ := ChannelMem.allocChannelFrame_spec ha
  -- The isolation check touches only the new frame, which was free.
  obtain ⟨bytes', heq, hbytes⟩ := verifyChannelIsolation_eq _ _
  rw [heq]
  refine .inr ⟨hf, rfl, _, rfl, rfl, rfl, rfl, rfl, ⟨f, rfl, hfree, hused⟩, rfl, rfl, hslot, hpte,
    hk.used, fun {x} hx => ?_, hk.hhdm⟩
  refine (hbytes x fun b hb he => ?_).trans (hk.bytes hx)
  simp only [IpcState.resetDoorbell, IpcState.getElem?_buffers_insert, if_true, Option.some.injEq] at hb
  subst hb
  simp only [IpcState.resetDoorbell, Nat.add_sub_cancel] at he
  rw [he, Nat.mul_div_cancel _ (by decide), hfree] at hx
  cases hx

/-- `drop_channel` of a live channel: the registry entry and the buffer go,
the frame is freed, the doorbell is not touched. -/
theorem dropChannel_eq {s : IpcState} {src dst : Pid} {id : CapId} {b : SharedBuffer}
    (hf : s.fast[(src, dst)]? = some id) (hb : s.buffers[id]? = some b) (hfb : b.frameBacked = true) :
    s.dropChannel src dst = { s with
      fast := s.fast.erase (src, dst)
      buffers := s.buffers.erase id
      mem := s.mem.freeChannelFrame b.phys } := by
  simp [IpcState.dropChannel, IpcState.getChannel, hf, IpcState.dropShared, hb, hfb]

theorem dropChannel_none {s : IpcState} {src dst : Pid} (hf : s.fast[(src, dst)]? = none) :
    s.dropChannel src dst = s := by
  simp [IpcState.dropChannel, IpcState.getChannel, hf]

/-- Dropping a channel removes the pair and nothing else from the registry. -/
theorem dropChannel_fast (s : IpcState) (src dst : Pid) (p : Pid × Pid) :
    (s.dropChannel src dst).fast[p]? = if p = (src, dst) then none else s.fast[p]? := by
  simp only [IpcState.dropChannel, IpcState.getChannel, IpcState.dropShared]
  split
  · next hn =>
    split
    · next he => rw [he, hn]
    · rfl
  · have key : (s.fast.erase (src, dst))[p]? = if p = (src, dst) then none else s.fast[p]? := by
      rw [IpcState.getElem?_fast_erase]
      simp only [@eq_comm _ (src, dst)]
    split
    · exact key
    · simp only
      split <;> exact key

/-- What is still registered after a drop. -/
theorem fast_of_dropChannel {s : IpcState} {src dst : Pid} {p : Pid × Pid} {id : CapId}
    (h : (s.dropChannel src dst).fast[p]? = some id) : p ≠ (src, dst) ∧ s.fast[p]? = some id := by
  rw [dropChannel_fast] at h
  split at h
  · cases h
  · next hne => exact ⟨hne, h⟩

theorem dropChannel_frame (s : IpcState) (src dst : Pid) :
    (s.dropChannel src dst).doorbells = s.doorbells ∧ (s.dropChannel src dst).nextCapId = s.nextCapId := by
  simp only [IpcState.dropChannel, IpcState.dropShared]
  split
  · exact ⟨rfl, rfl⟩
  · split
    · exact ⟨rfl, rfl⟩
    · simp only; split <;> exact ⟨rfl, rfl⟩

/-! ## `Backed` is kept -/

/-- `FrameOk` only looks at the frame's use and its mappings. -/
theorem FrameOk.mono {m m' : ChannelMem} {b : SharedBuffer} (h : FrameOk m b)
    (hu : ∀ {g}, b.phys = g * pageSize → m.frames.isFree g = false → m'.frames.isFree g = false)
    (hh : m'.hhdm = m.hhdm) (hp : m'.kernelPte b.readVa = m.kernelPte b.readVa) (hs : m.roSlot ≤ m'.roSlot) :
    FrameOk m' b := by
  obtain ⟨f, hf, hused⟩ := h.frame
  obtain ⟨n, hn, hr⟩ := h.slot
  exact ⟨⟨f, hf, hu hf hused⟩, by rw [hh]; exact h.write, by rw [hp]; exact h.read, n, by omega, hr⟩

/-- Doorbells and bytes are not part of it. -/
theorem Backed.congr {s s' : IpcState} (h : Backed s) (hf : s'.fast = s.fast) (hb : s'.buffers = s.buffers)
    (hn : s'.nextCapId = s.nextCapId) (hfr : s'.mem.frames = s.mem.frames) (hh : s'.mem.hhdm = s.mem.hhdm)
    (hp : s'.mem.kernelPte = s.mem.kernelPte) (hs : s'.mem.roSlot = s.mem.roSlot) : Backed s' := by
  constructor
  · intro p id; rw [hf, hb]; exact h.buf
  · intro p p' id; rw [hf]; exact h.inj
  · intro id b; rw [hf, hb]; exact h.live
  · intro id b hid hfb
    rw [hb] at hid
    exact (h.frame hid hfb).mono (by rw [hfr]; exact fun _ hu => hu) hh (by rw [hp]) (by omega)
  · intro id id' b b'; rw [hb]; exact h.phys
  · intro id b; rw [hb, hn]; exact h.fresh

/-- The next id is no buffer's yet. -/
theorem Backed.buffers_next {s : IpcState} (h : Backed s) : s.buffers[s.nextCapId]? = none := by
  cases hb : s.buffers[s.nextCapId]? with
  | none => rfl
  | some b => exact absurd (h.fresh hb) (Nat.lt_irrefl _)

theorem Backed.fast_ne_next {s : IpcState} (h : Backed s) (q : Pid × Pid) : s.fast[q]? ≠ some s.nextCapId := by
  intro hq
  obtain ⟨b, hb, -⟩ := h.buf hq
  rw [h.buffers_next] at hb
  cases hb

section created
variable {s s' : IpcState} {p : Pid × Pid} {b : SharedBuffer}

theorem Created.fast_new (hc : Created s s' p b) : s'.fast[p]? = some s.nextCapId := by
  rw [hc.fast, IpcState.getElem?_fast_insert, if_pos rfl]

theorem Created.fast_old (hc : Created s s' p b) {q : Pid × Pid} (hq : q ≠ p) : s'.fast[q]? = s.fast[q]? := by
  rw [hc.fast, IpcState.getElem?_fast_insert, if_neg hq.symm]

/-- A live channel after the creation is the new one or an old one. -/
theorem Created.fast_cases (hc : Created s s' p b) {q : Pid × Pid} {id : CapId} (hq : s'.fast[q]? = some id) :
    (q = p ∧ id = s.nextCapId) ∨ (q ≠ p ∧ s.fast[q]? = some id) := by
  by_cases he : q = p
  · subst he
    rw [hc.fast_new] at hq
    exact .inl ⟨rfl, by simpa using hq.symm⟩
  · exact .inr ⟨he, by rwa [hc.fast_old he] at hq⟩

theorem Created.fast_mono (hc : Created s s' p b) (hp : s.fast[p]? = none) {q : Pid × Pid} {id : CapId}
    (hq : s.fast[q]? = some id) : s'.fast[q]? = some id := by
  rw [hc.fast_old, hq]
  intro h
  obtain rfl := h
  rw [hp] at hq
  cases hq

theorem Created.buffer_new (hc : Created s s' p b) : s'.buffers[s.nextCapId]? = some b := by
  rw [hc.buffers, IpcState.getElem?_buffers_insert, if_pos rfl]

theorem Created.buffer_old (hc : Created s s' p b) {id : CapId} (hid : id ≠ s.nextCapId) :
    s'.buffers[id]? = s.buffers[id]? := by
  rw [hc.buffers, IpcState.getElem?_buffers_insert, if_neg hid.symm]

theorem Created.buffer_cases (hc : Created s s' p b) {id : CapId} {b' : SharedBuffer}
    (hid : s'.buffers[id]? = some b') :
    (id = s.nextCapId ∧ b' = b) ∨ (id ≠ s.nextCapId ∧ s.buffers[id]? = some b') := by
  by_cases he : id = s.nextCapId
  · subst he
    rw [hc.buffer_new] at hid
    exact .inl ⟨rfl, by simpa using hid.symm⟩
  · exact .inr ⟨he, by rwa [hc.buffer_old he] at hid⟩

/-- The new frame was free, so it is nobody else's. -/
theorem Created.phys_ne (hc : Created s s' p b) (h : Backed s) {id : CapId} {b' : SharedBuffer}
    (hid : s.buffers[id]? = some b') (hfb : b'.frameBacked = true) : b'.phys ≠ b.phys := by
  intro he
  obtain ⟨f, hf, hfree, -⟩ := hc.frame
  obtain ⟨g, hg, hused⟩ := (h.frame hid hfb).frame
  have hfg : f = g := Nat.eq_of_mul_eq_mul_right (by decide) (hf.symm.trans (he.symm.trans hg))
  rw [hfg, hused] at hfree
  cases hfree

/-- The frames in use stay in use, under the mappings they have. -/
theorem Created.frameOk (hc : Created s s' p b) (h : Backed s) {id : CapId} {b' : SharedBuffer}
    (hid : s'.buffers[id]? = some b') (hfb : b'.frameBacked = true) : FrameOk s'.mem b' := by
  rcases hc.buffer_cases hid with ⟨rfl, rfl⟩ | ⟨-, hid⟩
  · obtain ⟨f, hf, -, hused⟩ := hc.frame
    exact ⟨⟨f, hf, hused⟩, hc.write, by rw [hc.pte, Function.update_self],
      s.mem.roSlot, by rw [hc.slot]; omega, hc.readVa⟩
  · have hok := h.frame hid hfb
    refine hok.mono (fun _ hg => hc.keeps.used hg) hc.keeps.hhdm ?_ (by rw [hc.slot]; omega)
    obtain ⟨n, hn, hr⟩ := hok.slot
    rw [hc.pte, Function.update_of_ne]
    rw [hc.readVa, hr]
    intro he
    have : n = s.mem.roSlot := Nat.eq_of_mul_eq_mul_right (by decide) (Nat.add_left_cancel he)
    omega

theorem Backed.created (h : Backed s) (hp : s.fast[p]? = none) (hc : Created s s' p b) : Backed s' := by
  constructor
  · intro q id hq
    rcases hc.fast_cases hq with ⟨-, rfl⟩ | ⟨-, hq⟩
    · exact ⟨b, hc.buffer_new, hc.backed⟩
    · obtain ⟨b', hb', hfb⟩ := h.buf hq
      exact ⟨b', by rw [hc.buffer_old (Nat.ne_of_lt (h.fresh hb')), hb'], hfb⟩
  · intro q q' id hq hq'
    rcases hc.fast_cases hq with ⟨rfl, rfl⟩ | ⟨-, hq⟩ <;> rcases hc.fast_cases hq' with ⟨rfl, he⟩ | ⟨-, hq'⟩
    · rfl
    · exact absurd hq' (h.fast_ne_next _)
    · exact absurd (he ▸ hq) (h.fast_ne_next _)
    · exact h.inj hq hq'
  · intro id b' hid hfb
    rcases hc.buffer_cases hid with ⟨rfl, -⟩ | ⟨-, hid⟩
    · exact ⟨p, hc.fast_new⟩
    · obtain ⟨q, hq⟩ := h.live hid hfb
      exact ⟨q, hc.fast_mono hp hq⟩
  · intro id b' hid hfb
    exact hc.frameOk h hid hfb
  · intro id id' b₁ b₂ hid hfb hid' hfb' he
    rcases hc.buffer_cases hid with ⟨rfl, rfl⟩ | ⟨-, hid⟩ <;> rcases hc.buffer_cases hid' with ⟨rfl, rfl⟩ | ⟨-, hid'⟩
    · rfl
    · exact absurd he.symm (hc.phys_ne h hid' hfb')
    · exact absurd he (hc.phys_ne h hid hfb)
    · exact h.phys hid hfb hid' hfb' he
  · intro id b' hid
    rw [hc.id]
    rcases hc.buffer_cases hid with ⟨rfl, -⟩ | ⟨-, hid⟩
    · exact Nat.lt_succ_self _
    · exact Nat.lt_succ_of_lt (h.fresh hid)

end created

theorem Backed.dropChannel {s : IpcState} (h : Backed s) (src dst : Pid) : Backed (s.dropChannel src dst) := by
  cases hf : s.fast[(src, dst)]? with
  | none => rw [dropChannel_none hf]; exact h
  | some id =>
  obtain ⟨b, hb, hfb⟩ := h.buf hf
  rw [dropChannel_eq hf hb hfb]
  have hfast : ∀ {q : Pid × Pid} {i : CapId}, (s.fast.erase (src, dst))[q]? = some i →
      (src, dst) ≠ q ∧ s.fast[q]? = some i := by
    intro q i hq
    rw [IpcState.getElem?_fast_erase] at hq
    split at hq
    · cases hq
    · next hne => exact ⟨hne, hq⟩
  have hbuf : ∀ {i : CapId} {b' : SharedBuffer}, (s.buffers.erase id)[i]? = some b' →
      id ≠ i ∧ s.buffers[i]? = some b' := by
    intro i b' hi
    rw [IpcState.getElem?_buffers_erase] at hi
    split at hi
    · cases hi
    · next hne => exact ⟨hne, hi⟩
  constructor
  · intro q i hq
    obtain ⟨hne, hq⟩ := hfast hq
    obtain ⟨b', hb', hfb'⟩ := h.buf hq
    refine ⟨b', ?_, hfb'⟩
    rw [IpcState.getElem?_buffers_erase, if_neg, hb']
    rintro rfl; exact hne (h.inj hf hq)
  · intro q q' i hq hq'; exact h.inj (hfast hq).2 (hfast hq').2
  · intro i b' hi hfb'
    obtain ⟨hne, hi⟩ := hbuf hi
    obtain ⟨q, hq⟩ := h.live hi hfb'
    refine ⟨q, ?_⟩
    rw [IpcState.getElem?_fast_erase, if_neg, hq]
    rintro rfl; rw [hf] at hq; exact hne (by simpa using hq)
  · intro i b' hi hfb'
    obtain ⟨hne, hi⟩ := hbuf hi
    refine (h.frame hi hfb').mono (fun {g} hg hused => ?_) rfl rfl (Nat.le_refl _)
    -- Only the dropped buffer's frame is freed, and it is not this one's.
    simp only [ChannelMem.freeChannelFrame]
    rw [FrameAlloc.isFree_freeFrame, hused]
    intro h
    obtain rfl := h
    obtain ⟨f, hf', -⟩ := (h.frame hb hfb).frame
    rw [hf', Nat.mul_div_cancel _ (by decide), ← hf'] at hg
    exact hne (h.phys hb hfb hi hfb' hg.symm)
  · intro i i' b₁ b₂ hi hfb₁ hi' hfb₂ he
    exact h.phys (hbuf hi).2 hfb₁ (hbuf hi').2 hfb₂ he
  · intro i b' hi; exact h.fresh (hbuf hi).2

/-- Creating a channel, or finding it. -/
theorem Backed.ensureChannelCap {s s' : IpcState} {src dst : Pid} {cap : Nat} {id : CapId} (h : Backed s)
    (he : s.ensureChannelCap src dst cap = some (id, s')) : Backed s' := by
  rcases ensureChannelCap_cases he with ⟨-, rfl⟩ | ⟨hn, -, b, hc⟩
  · exact h
  · exact h.created hn hc

theorem Backed.switchlessWrite {s : IpcState} (h : Backed s) (va : Nat) (data : List UInt8) :
    Backed (s.switchlessWrite va data) := h.congr rfl rfl rfl rfl rfl rfl rfl

theorem Backed.switchlessRing {s : IpcState} (h : Backed s) (id : CapId) (data : List UInt8) :
    Backed (s.switchlessRing id data) := h.congr rfl rfl rfl rfl rfl rfl rfl

theorem Backed.resetDoorbell {s : IpcState} (h : Backed s) (id : CapId) : Backed (s.resetDoorbell id) :=
  h.congr rfl rfl rfl rfl rfl rfl rfl

/-! ## What a channel holds -/

/-- The buffer of a live channel, with the facts about its frame. -/
theorem Backed.buffer {s : IpcState} (h : Backed s) {p : Pid × Pid} {id : CapId} (hp : s.fast[p]? = some id) :
    ∃ b, s.buffers[id]? = some b ∧ b.frameBacked = true ∧ FrameOk s.mem b := by
  obtain ⟨b, hb, hfb⟩ := h.buf hp
  exact ⟨b, hb, hfb, h.frame hb hfb⟩

/-- A frame starts at a multiple of the page size, so two frames do not meet. -/
theorem FrameOk.apart {m : ChannelMem} {b b' : SharedBuffer} (h : FrameOk m b) (h' : FrameOk m b')
    (hne : b.phys ≠ b'.phys) : b.phys + pageSize ≤ b'.phys ∨ b'.phys + pageSize ≤ b.phys := by
  obtain ⟨f, hf, -⟩ := h.frame
  obtain ⟨g, hg, -⟩ := h'.frame
  rw [hf, hg] at hne ⊢
  rcases Nat.lt_trichotomy f g with hlt | heq | hlt
  · exact .inl (by rw [← Nat.succ_mul]; exact Nat.mul_le_mul_right _ hlt)
  · exact absurd (by rw [heq]) hne
  · exact .inr (by rw [← Nat.succ_mul]; exact Nat.mul_le_mul_right _ hlt)

/-- What a pair's channel holds depends on its id, its doorbell and its bytes. -/
theorem pendingChan_congr {s s' : IpcState} {q : Pid × Pid} (hf : s'.fast[q]? = s.fast[q]?)
    (h : ∀ id, s.fast[q]? = some id → s'.doorbells (swSlot id) = s.doorbells (swSlot id) ∧
      ∀ n ≤ pageSize, chanBytes s' id n = chanBytes s id n) : pendingChan s' q = pendingChan s q := by
  simp only [pendingChan, hf]
  cases hq : s.fast[q]? with
  | none => rfl
  | some id =>
    obtain ⟨hd, hb⟩ := h id hq
    simp only [Option.bind_some, hd]
    rw [hb _ (Nat.le_trans (Nat.min_le_right _ _) (by decide))]

/-- Nothing waits in a live channel exactly when its doorbell is 0. -/
theorem doorbell_of_pendingChan {s : IpcState} {p : Pid × Pid} {id : CapId} (hp : s.fast[p]? = some id)
    (h : pendingChan s p = none) : s.doorbells (swSlot id) = 0 := by
  by_contra hne
  simp [pendingChan, hp, hne] at h

theorem pendingChan_of_doorbell {s : IpcState} {p : Pid × Pid} {id : CapId} (hp : s.fast[p]? = some id)
    (h : s.doorbells (swSlot id) = 0) : pendingChan s p = none := by
  simp [pendingChan, hp, h]

/-- A write stays inside its own channel's frame. -/
theorem chanBytes_switchlessWrite_other {s : IpcState} (h : Backed s) {p q : Pid × Pid} {id id' : CapId}
    {b : SharedBuffer} (hp : s.fast[p]? = some id) (hb : s.buffers[id]? = some b) (hq : s.fast[q]? = some id')
    (hne : q ≠ p) (data : List UInt8) {n : Nat} (hn : n ≤ pageSize) :
    chanBytes (s.switchlessWrite b.writeVa data) id' n = chanBytes s id' n := by
  obtain ⟨b₁, hb₁, hfb, hok⟩ := h.buffer hp
  obtain ⟨b', hb', hfb', hok'⟩ := h.buffer hq
  obtain rfl : b = b₁ := by rw [hb] at hb₁; simpa using hb₁
  have hphys : b.phys ≠ b'.phys := fun he => hne (h.inj hq (h.phys hb hfb hb' hfb' he ▸ hp))
  simp only [chanBytes, IpcState.switchlessWrite, hb', ChannelMem.writeHhdm]
  refine ByteMem.read_write_of_disjoint ?_
  have hlen : (data.take 4096).length ≤ pageSize := by rw [List.length_take]; exact Nat.min_le_left _ _
  have hap := hok.apart hok' hphys
  have hw := hok.write
  omega

/-- A write to an empty channel is not seen by anybody yet. -/
theorem pendingChan_switchlessWrite {s : IpcState} (h : Backed s) {p : Pid × Pid} {id : CapId} {b : SharedBuffer}
    (hp : s.fast[p]? = some id) (hb : s.buffers[id]? = some b) (h0 : s.doorbells (swSlot id) = 0)
    (data : List UInt8) (q : Pid × Pid) : pendingChan (s.switchlessWrite b.writeVa data) q = pendingChan s q := by
  by_cases hq : q = p
  · subst hq; simp [pendingChan, IpcState.switchlessWrite, hp, h0]
  · exact pendingChan_congr rfl fun id' hid' =>
      ⟨rfl, fun n hn => chanBytes_switchlessWrite_other h hp hb hid' hq data hn⟩

/-- The bytes just written are the channel's. -/
theorem chanBytes_switchlessWrite {s : IpcState} (h : Backed s) {p : Pid × Pid} {id : CapId} {b : SharedBuffer}
    (hp : s.fast[p]? = some id) (hb : s.buffers[id]? = some b) (data : List UInt8) {n : Nat}
    (hn : n ≤ min data.length 4096) : chanBytes (s.switchlessWrite b.writeVa data) id n = data.take n := by
  obtain ⟨b₁, hb₁, -, hok⟩ := h.buffer hp
  obtain rfl : b = b₁ := by rw [hb] at hb₁; simpa using hb₁
  have ha : b.writeVa - s.mem.hhdm = b.phys := by rw [hok.write, Nat.add_sub_cancel]
  simp only [chanBytes, IpcState.switchlessWrite, hb, ChannelMem.writeHhdm, ha]
  rw [ByteMem.read_write_take (by rw [List.length_take]; omega), List.take_take, Nat.min_eq_left (by omega)]

/-- The copy of a poll on a live channel. -/
theorem switchlessCopy_live {s : IpcState} (h : Backed s) {p : Pid × Pid} {id : CapId}
    (hp : s.fast[p]? = some id) (len n : Nat) :
    s.switchlessCopy id len n = some (some (chanBytes s id (min len n))) := by
  obtain ⟨b, hb, hfb, hok⟩ := h.buffer hp
  simp [IpcState.switchlessCopy, hb, hfb, ChannelMem.readKernel, hok.read, chanBytes]

/-- The copy of a poll on an id that is nobody's channel (any more). -/
theorem switchlessCopy_dead {s : IpcState} (h : Backed s) {id : CapId} (hp : ∀ p : Pid × Pid, s.fast[p]? ≠ some id)
    (len n : Nat) : s.switchlessCopy id len n = some none := by
  simp only [IpcState.switchlessCopy]
  split
  · rfl
  · next b hb =>
    cases hfb : b.frameBacked with
    | false => rfl
    | true => obtain ⟨p, hp'⟩ := h.live hb hfb; exact absurd hp' (hp p)

/-- The lookup of a send: live channels, and only those, have a write address. -/
theorem switchlessVa_live {s : IpcState} (h : Backed s) {id : CapId} :
    (∃ va, s.switchlessVa id = some va) ↔ ∃ p : Pid × Pid, s.fast[p]? = some id := by
  constructor
  · intro ⟨va, hva⟩
    simp only [IpcState.switchlessVa] at hva
    split at hva
    · next b hb =>
      split at hva
      · next hfb => exact h.live hb hfb
      · cases hva
    · cases hva
  · intro ⟨p, hp⟩
    obtain ⟨b, hb, hfb⟩ := h.buf hp
    exact ⟨b.writeVa, by simp [IpcState.switchlessVa, hb, hfb]⟩

theorem switchlessVa_some {s : IpcState} {id : CapId} {va : Nat} (h : s.switchlessVa id = some va) :
    ∃ b, s.buffers[id]? = some b ∧ b.frameBacked = true ∧ va = b.writeVa := by
  simp only [IpcState.switchlessVa] at h
  split at h
  · next b hb =>
    split at h
    · next hfb => exact ⟨b, hb, hfb, by simpa using h.symm⟩
    · cases h
  · cases h

/-! ## Doorbells of channels that do not share them -/

theorem SlotsDistinct.ne {s : IpcState} (h : SlotsDistinct s) {p q : Pid × Pid} {id id' : CapId}
    (hp : s.fast[p]? = some id) (hq : s.fast[q]? = some id') (hne : q ≠ p) : swSlot id' ≠ swSlot id :=
  fun he => hne (h q p id' id hq hp he)

/-- A store to a live channel's doorbell is seen by its pair only. -/
theorem pendingChan_doorbell {s s' : IpcState} (h : SlotsDistinct s) {p : Pid × Pid} {id : CapId} {v : Nat}
    (hp : s.fast[p]? = some id) (hs : s' = { s with doorbells := Function.update s.doorbells (swSlot id) v })
    (q : Pid × Pid) : pendingChan s' q =
      if q = p then if v = 0 then none else some (chanBytes s id (min v 64)) else pendingChan s q := by
  subst hs
  split
  · next he => subst he; simp [pendingChan, hp, chanBytes]
  · next hne =>
    refine pendingChan_congr rfl fun id' hid' => ⟨?_, fun _ _ => rfl⟩
    exact Function.update_of_ne (h.ne hp hid' hne) _ _

/-- The doorbell of a send: the pair's message is there, unless it has no bytes. -/
theorem pendingChan_switchlessRing {s : IpcState} (h : SlotsDistinct s) {p : Pid × Pid} {id : CapId}
    (hp : s.fast[p]? = some id) (data : List UInt8) (q : Pid × Pid) : pendingChan (s.switchlessRing id data) q =
      if q = p then if data = [] then none else some (chanBytes s id (min data.length 64)) else pendingChan s q := by
  refine (pendingChan_doorbell h hp (v := min data.length 4096) rfl q).trans ?_
  have hmin : min (min data.length 4096) 64 = min data.length 64 := by omega
  have hnil : min data.length 4096 = 0 ↔ data = [] := by rw [← List.length_eq_zero_iff]; omega
  simp only [hmin, hnil]

/-- The doorbell of a poll: the pair's message is gone. -/
theorem pendingChan_resetDoorbell {s : IpcState} (h : SlotsDistinct s) {p : Pid × Pid} {id : CapId}
    (hp : s.fast[p]? = some id) (q : Pid × Pid) :
    pendingChan (s.resetDoorbell id) q = if q = p then none else pendingChan s q := by
  refine (pendingChan_doorbell h hp (v := 0) rfl q).trans ?_
  rw [if_pos rfl]

/-! ## Creation and removal -/

/-- The new channel's doorbell is shared with no live one. -/
def SlotFree (s : IpcState) : Prop := FinMap.All s.fast fun _ id => swSlot id ≠ swSlot s.nextCapId

instance (s : IpcState) : Decidable (SlotFree s) := inferInstanceAs (Decidable (FinMap.All _ _))

theorem SlotsDistinct.created {s s' : IpcState} {p : Pid × Pid} {b : SharedBuffer} (h : SlotsDistinct s)
    (hfree : SlotFree s) (hc : Created s s' p b) : SlotsDistinct s' := by
  intro q q' id id' hq hq' he
  rcases hc.fast_cases hq with ⟨rfl, rfl⟩ | ⟨-, hq⟩ <;> rcases hc.fast_cases hq' with ⟨rfl, rfl⟩ | ⟨-, hq'⟩
  · rfl
  · exact absurd he.symm (hfree _ _ hq')
  · exact absurd he (hfree _ _ hq)
  · exact h _ _ _ _ hq hq' he

theorem SlotsDistinct.dropChannel {s : IpcState} (h : SlotsDistinct s) (src dst : Pid) :
    SlotsDistinct (s.dropChannel src dst) := by
  intro q q' id id' hq hq' he
  exact h _ _ _ _ (fast_of_dropChannel hq).2 (fast_of_dropChannel hq').2 he

/-- The frames in use keep their bytes when a channel is created. -/
theorem chanBytes_created {s s' : IpcState} {p q : Pid × Pid} {b : SharedBuffer} (h : Backed s)
    (hc : Created s s' p b) {id : CapId} (hid : s.fast[q]? = some id) {n : Nat} (hn : n ≤ pageSize) :
    chanBytes s' id n = chanBytes s id n := by
  obtain ⟨b', hb', hfb, hok⟩ := h.buffer hid
  simp only [chanBytes, hc.buffer_old (Nat.ne_of_lt (h.fresh hb')), hb']
  obtain ⟨f, hf, hused⟩ := hok.frame
  refine ByteMem.read_congr fun x hx hx' => hc.keeps.bytes ?_
  have : x / pageSize = f := by simp only [pageSize] at hf hn ⊢; omega
  rw [this]; exact hused

/-- A new channel is empty, and nobody else's changes. -/
theorem pendingChan_created {s s' : IpcState} {p : Pid × Pid} {b : SharedBuffer} (h : Backed s)
    (hp : s.fast[p]? = none) (hfree : SlotFree s) (hc : Created s s' p b) (q : Pid × Pid) :
    pendingChan s' q = pendingChan s q := by
  by_cases hq : q = p
  · subst hq
    simp [pendingChan, hc.fast_new, hp, hc.doorbells]
  refine pendingChan_congr (hc.fast_old hq) fun id hid => ⟨?_, fun n hn => chanBytes_created h hc hid hn⟩
  rw [hc.doorbells, Function.update_of_ne (hfree q id hid)]

/-- Every other channel keeps its bytes when one is dropped. -/
theorem chanBytes_dropChannel {s : IpcState} (h : Backed s) {src dst : Pid} {p : Pid × Pid} {id : CapId}
    (hp : s.fast[p]? = some id) (hne : p ≠ (src, dst)) (n : Nat) :
    chanBytes (s.dropChannel src dst) id n = chanBytes s id n := by
  cases hf : s.fast[(src, dst)]? with
  | none => rw [dropChannel_none hf]
  | some id' =>
    obtain ⟨b, hb, hfb⟩ := h.buf hf
    have hid : id' ≠ id := by rintro rfl; exact hne (h.inj hp hf)
    rw [dropChannel_eq hf hb hfb]
    simp [chanBytes, hid, ChannelMem.freeChannelFrame]

theorem pendingChan_dropChannel {s : IpcState} (h : Backed s) (src dst : Pid) (q : Pid × Pid) :
    pendingChan (s.dropChannel src dst) q = if q = (src, dst) then none else pendingChan s q := by
  split
  · next he => simp [pendingChan, dropChannel_fast, he]
  · next hne =>
    refine pendingChan_congr (by rw [dropChannel_fast, if_neg hne]) fun id hid => ⟨?_, fun n _ => ?_⟩
    · rw [(dropChannel_frame s src dst).1]
    · exact chanBytes_dropChannel h hid hne n

end ChodOs
