/-
The read-only channel window (`paging/mod.rs`) over runs in which other
parts of the kernel take frames and give them back.

`free_channel_frame` says that it removes the window's entry, and leaves it
in place. While no channel is dropped every page of the window shows the
frame of a live buffer; after a drop the page of the old channel shows a
frame that the allocator may hand to anybody.
-/
import ChodOs.Ipc.Channel
import ChodOs.Lib.Run

namespace ChodOs

open StepSys

/-- The IPC globals beside the frames that others hold. -/
structure WindowState where
  ipc : IpcState
  /-- What `alloc_frame` gave to others and they have not given back. -/
  others : List Nat

inductive WindowOp
  | ensureChannel (src dst : Pid)
  | dropChannel (src dst : Pid)
  | allocFrame
  | freeFrame (phys : Nat)

namespace WindowState

/-- `RO_CHANNEL_SLOT` starts at 0. -/
def boot (mem : ChannelMem) : WindowState := { ipc := .init { mem with roSlot := 0 }, others := [] }

def withFrames (s : WindowState) (frames : FrameAlloc) (others : List Nat) : WindowState :=
  { ipc := { s.ipc with mem := { s.ipc.mem with frames } }, others }

/-- A call and the frame it hands out. `none`: out of memory in `alloc_channel_frame`. -/
def step (s : WindowState) : WindowOp → Option (List Nat × WindowState)
  | .ensureChannel src dst => (s.ipc.ensureChannel src dst).map fun (_, ipc) => ([], { s with ipc })
  | .dropChannel src dst => some ([], { s with ipc := s.ipc.dropChannel src dst })
  | .allocFrame =>
    match s.ipc.mem.frames.allocFrame with
    | some (phys, frames) => some ([phys], s.withFrames frames (phys :: s.others))
    | none => some ([], s)
  | .freeFrame phys => some ([], s.withFrames (s.ipc.mem.frames.freeFrame phys) (s.others.erase phys))

/-- No channel is dropped, and what is given back is a frame that was handed out. -/
def KeepsChannels (_ : List Nat) (s : WindowState) : WindowOp → Prop
  | .dropChannel src dst => s.ipc.fast[(src, dst)]? = none
  | .freeFrame phys => phys ∈ s.others
  | _ => True

instance (h : List Nat) (s : WindowState) (op : WindowOp) : Decidable (KeepsChannels h s op) := by
  cases op <;> unfold KeepsChannels <;> infer_instance

/-- The pages of the window handed out so far. -/
def InWindow (s : WindowState) (va : Nat) : Prop := ∃ n < s.ipc.mem.roSlot, va = roChannelBase + n * pageSize

/-- The frame belongs to a live buffer: it is in use and nobody else holds it. -/
structure Owned (s : WindowState) (va phys : Nat) : Prop where
  buffer : ∃ (id : CapId) (b : SharedBuffer), s.ipc.buffers[id]? = some b ∧ b.frameBacked = true ∧ b.readVa = va ∧ b.phys = phys
  used : s.ipc.mem.frames.isFree (phys / pageSize) = false
  others : phys ∉ s.others

/-- Every present entry of the window maps a frame of a live buffer. -/
def WindowLive (s : WindowState) : Prop :=
  ∀ va e, s.InWindow va → s.ipc.mem.kernelPte va = some e → s.Owned va e.phys

/-! ## The invariant -/

/-- Channels and others have frames of their own, and the window shows channels only. -/
structure Inv (s : WindowState) : Prop where
  backed : Backed s.ipc
  shows : ∀ {va e}, s.InWindow va → s.ipc.mem.kernelPte va = some e →
    ∃ (id : CapId) (b : SharedBuffer), s.ipc.buffers[id]? = some b ∧ b.frameBacked = true ∧ b.readVa = va ∧
      b.phys = e.phys
  held : ∀ {phys}, phys ∈ s.others → ∃ f, phys = f * pageSize ∧ s.ipc.mem.frames.isFree f = false
  apart : ∀ {phys} {id : CapId} {b : SharedBuffer}, phys ∈ s.others → s.ipc.buffers[id]? = some b →
    b.frameBacked = true → b.phys ≠ phys
  nodup : s.others.Nodup

variable {s s' : WindowState} {op : WindowOp} {h es : List Nat}

theorem Inv.boot (mem : ChannelMem) : Inv (.boot mem) where
  backed := Backed.init rfl rfl
  shows := fun ⟨_, hn, _⟩ => absurd hn (Nat.not_lt_zero _)
  held := nofun
  apart := nofun
  nodup := List.nodup_nil

theorem Inv.windowLive (hi : Inv s) : s.WindowLive := by
  intro va e hva he
  obtain ⟨id, b, hb, hfb, hread, hphys⟩ := hi.shows hva he
  obtain ⟨f, hf, hused⟩ := (hi.backed.frame hb hfb).frame
  refine ⟨⟨id, b, hb, hfb, hread, hphys⟩, ?_, fun hmem => hi.apart hmem hb hfb hphys⟩
  rw [← hphys, hf, Nat.mul_div_cancel _ (by decide)]
  exact hused

/-- The channels keep their frames when others take and give theirs. -/
theorem Inv.withFrames (hi : Inv s) {frames : FrameAlloc} {others : List Nat}
    (hkeep : ∀ {id : CapId} {b : SharedBuffer} {f}, s.ipc.buffers[id]? = some b → b.frameBacked = true →
      b.phys = f * pageSize → s.ipc.mem.frames.isFree f = false → frames.isFree f = false)
    (hheld : ∀ {phys}, phys ∈ others → ∃ f, phys = f * pageSize ∧ frames.isFree f = false)
    (hapart : ∀ {phys} {id : CapId} {b : SharedBuffer}, phys ∈ others → s.ipc.buffers[id]? = some b →
      b.frameBacked = true → b.phys ≠ phys)
    (hnodup : others.Nodup) : Inv (s.withFrames frames others) where
  backed :=
    { hi.backed with
      frame := fun hb hfb => (hi.backed.frame hb hfb).mono (fun hf hu => hkeep hb hfb hf hu) rfl rfl (Nat.le_refl _) }
  shows := hi.shows
  held := hheld
  apart := hapart
  nodup := hnodup

theorem Inv.allocFrame (hi : Inv s) {phys : Nat} {frames : FrameAlloc}
    (ha : s.ipc.mem.frames.allocFrame = some (phys, frames)) : Inv (s.withFrames frames (phys :: s.others)) := by
  obtain ⟨f, rfl, hfree, hspec⟩ := FrameAlloc.allocFrame_spec ha
  -- A frame in use is not the new one, which was free.
  have hne : ∀ {g}, s.ipc.mem.frames.isFree g = false → f * pageSize ≠ g * pageSize := by
    intro g hg he
    rw [← Nat.eq_of_mul_eq_mul_right (by decide) he, hfree] at hg
    cases hg
  refine hi.withFrames (fun _ _ _ hu => ChannelMem.alloc_used ha hu) (fun {phys} hp => ?_) (fun {phys id b} hp hb hfb => ?_)
    (List.nodup_cons.mpr ⟨fun hp => ?_, hi.nodup⟩)
  · rcases List.mem_cons.mp hp with rfl | hp
    · exact ⟨f, rfl, by rw [hspec, if_pos rfl]⟩
    · obtain ⟨g, rfl, hg⟩ := hi.held hp
      exact ⟨g, rfl, ChannelMem.alloc_used ha hg⟩
  · rcases List.mem_cons.mp hp with rfl | hp
    · obtain ⟨g, hg, hused⟩ := (hi.backed.frame hb hfb).frame
      rw [hg]
      exact (hne hused).symm
    · exact hi.apart hp hb hfb
  · obtain ⟨g, hg, hused⟩ := hi.held hp
    exact hne hused hg

theorem Inv.freeFrame (hi : Inv s) {phys : Nat} (hmem : phys ∈ s.others) :
    Inv (s.withFrames (s.ipc.mem.frames.freeFrame phys) (s.others.erase phys)) := by
  obtain ⟨f, rfl, -⟩ := hi.held hmem
  have hkeep : ∀ {g}, g * pageSize ≠ f * pageSize → s.ipc.mem.frames.isFree g = false →
      (s.ipc.mem.frames.freeFrame (f * pageSize)).isFree g = false := by
    intro g hne hg
    rw [FrameAlloc.isFree_freeFrame, hg]
    intro h
    obtain rfl := h
    exact hne (by rw [Nat.mul_div_cancel _ (by decide)])
  refine hi.withFrames (fun {_ _ _} hb hfb hg => hkeep fun he => hi.apart hmem hb hfb (hg.trans he))
    (fun {phys} hp => ?_) (fun hp => hi.apart (List.mem_of_mem_erase hp)) (hi.nodup.erase _)
  obtain ⟨hne, hp⟩ := hi.nodup.mem_erase_iff.mp hp
  obtain ⟨g, rfl, hg⟩ := hi.held hp
  exact ⟨g, rfl, hkeep hne hg⟩

theorem Inv.created (hi : Inv s) {ipc : IpcState} {p : Pid × Pid} {b : SharedBuffer} (hp : s.ipc.fast[p]? = none)
    (hc : Created s.ipc ipc p b) : Inv { s with ipc } where
  backed := hi.backed.created hp hc
  shows := by
    intro va e h he
    obtain ⟨n, hn, rfl⟩ := h
    change ipc.mem.kernelPte _ = some e at he
    rw [hc.pte] at he
    by_cases hva : roChannelBase + n * pageSize = b.readVa
    · rw [hva, Function.update_self] at he
      cases he
      exact ⟨_, b, hc.buffer_new, hc.backed, hva.symm, rfl⟩
    · rw [Function.update_of_ne hva] at he
      have hn' : n < s.ipc.mem.roSlot := by
        have hlt : n < ipc.mem.roSlot := hn
        have hne : n ≠ s.ipc.mem.roSlot := fun h => hva (h ▸ hc.readVa.symm)
        rw [hc.slot] at hlt
        omega
      obtain ⟨id, b', hb', hrest⟩ := hi.shows ⟨n, hn', rfl⟩ he
      exact ⟨id, b', (hc.buffer_old (Nat.ne_of_lt (hi.backed.fresh hb'))).trans hb', hrest⟩
  held := fun hmem => by
    obtain ⟨f, hf, hused⟩ := hi.held hmem
    exact ⟨f, hf, hc.keeps.used hused⟩
  apart := fun {phys id b'} hmem hb hfb => by
    rcases hc.buffer_cases hb with ⟨-, rfl⟩ | ⟨-, hb⟩
    · -- The new frame was free, and what others hold is in use.
      intro he
      obtain ⟨f, hf, hfree, -⟩ := hc.frame
      obtain ⟨g, hg, hused⟩ := hi.held hmem
      rw [Nat.eq_of_mul_eq_mul_right (by decide) (hf.symm.trans (he.trans hg)), hused] at hfree
      cases hfree
    · exact hi.apart hmem hb hfb
  nodup := hi.nodup

theorem Inv.step (hi : Inv s) (hok : KeepsChannels h s op) (hs : s.step op = some (es, s')) : Inv s' := by
  cases op with
  | ensureChannel src dst =>
    obtain ⟨⟨id, ipc⟩, he, hs⟩ := Option.map_eq_some_iff.mp hs
    cases hs
    rcases ensureChannelCap_cases he with ⟨-, rfl⟩ | ⟨hp, -, b, hc⟩
    · exact hi
    · exact hi.created hp hc
  | dropChannel src dst =>
    cases hs
    rw [dropChannel_none hok]
    exact hi
  | allocFrame =>
    simp only [WindowState.step] at hs
    split at hs
    · next ha =>
      cases hs
      exact hi.allocFrame ha
    · cases hs
      exact hi
  | freeFrame phys =>
    cases hs
    exact hi.freeFrame hok

/-- A drop leaves the old page of the window with a frame that is nobody's. -/
theorem Inv.not_windowLive_drop (hi : Inv s) {src dst : Pid} {id : CapId} (hf : s.ipc.fast[(src, dst)]? = some id) :
    ¬WindowLive { s with ipc := s.ipc.dropChannel src dst } := by
  obtain ⟨b, hb, hfb⟩ := hi.backed.buf hf
  have hok := hi.backed.frame hb hfb
  rw [dropChannel_eq hf hb hfb]
  intro hlive
  obtain ⟨id', b', hb', hfb', -, hphys⟩ := (hlive b.readVa _ hok.slot hok.read).buffer
  have hne : id ≠ id' := by
    intro h
    obtain rfl := h
    rw [IpcState.getElem?_buffers_erase, if_pos rfl] at hb'
    cases hb'
  rw [IpcState.getElem?_buffers_erase, if_neg hne] at hb'
  exact hne (hi.backed.phys hb hfb hb' hfb' hphys.symm)

end WindowState

open WindowState

/-- While channels are kept the window shows frames of live buffers only, and
every drop of a channel ends that. -/
theorem window_live_until_drop {mem : ChannelMem} {h : List Nat} {s : WindowState}
    (hr : Runs WindowState.step KeepsChannels (.boot mem) h s) : s.WindowLive ∧
      ∀ (src dst : Pid) (id : CapId) (es : List Nat) (s' : WindowState), s.ipc.fast[(src, dst)]? = some id →
        s.step (.dropChannel src dst) = some (es, s') → ¬s'.WindowLive := by
  have hi : Inv s := hr.invariant_state Inv (Inv.boot mem) fun hi hok hs => hi.step hok hs
  refine ⟨hi.windowLive, fun src dst id es s' hf hs => ?_⟩
  cases hs
  exact hi.not_windowLive_drop hf

/-- Two channels, and frames of others that come and go. -/
theorem window_live_two_channels : ∃ h s, Runs WindowState.step KeepsChannels (.boot (.ofFrames 16)) h s ∧
    s.ipc.channelCount = 2 ∧ s.others = [6 * pageSize] ∧ s.WindowLive := by
  obtain ⟨h, s, hr, hP⟩ := Runs.of_exec WindowState.step KeepsChannels (.boot (.ofFrames 16))
    [.allocFrame, .ensureChannel 1 2, .allocFrame, .freeFrame 0, .ensureChannel 3 4, .allocFrame,
      .freeFrame (5 * pageSize)]
    (fun _ s => decide (s.ipc.channelCount = 2) && decide (s.others = [6 * pageSize])) (by decide)
  simp only [Bool.and_eq_true, decide_eq_true_eq] at hP
  exact ⟨h, s, hr, hP.1, hP.2, (window_live_until_drop hr).1⟩

/-- Not in every run: after a drop the frame goes to somebody else, and the
channel's page still shows it. -/
theorem window_shows_recycled_frame :
    ¬∀ (mem : ChannelMem) (h : List Nat) (s : WindowState), Runs WindowState.step free (.boot mem) h s →
      s.WindowLive := by
  intro hall
  obtain ⟨h, s, hr, hP⟩ := Runs.of_exec WindowState.step free (.boot (.ofFrames 16))
    [.ensureChannel 1 2, .dropChannel 1 2, .allocFrame]
    (fun _ s => decide (s.others = [0]) && decide (s.ipc.mem.roSlot = 1) &&
      decide ((s.ipc.mem.kernelPte roChannelBase).map (·.phys) = some 0)) (by decide)
  simp only [Bool.and_eq_true, decide_eq_true_eq, Option.map_eq_some_iff] at hP
  obtain ⟨⟨hothers, hslot⟩, e, he, hphys⟩ := hP
  have howned := hall _ h s hr roChannelBase e ⟨0, by omega, rfl⟩ he
  refine howned.others ?_
  rw [hphys, hothers]
  exact List.mem_singleton_self 0

end ChodOs
