/-
Context switches (`interrupts/handlers.rs`, `process/mod.rs`): the timer and
`int 0x40` put the running task's registers on its stack, the scheduler
picks a stack pointer, and the pops go on from there.

A task's own history says what its registers and its memory are; the
machine under all of them keeps to it, whatever order they run in.
-/
import ChodOs.Trap.Stubs
import ChodOs.Sched.Calls

namespace ChodOs

open RegStack StepSys

/-- Where the kernel's code is: the stubs, the trampoline of new processes, the task state. -/
structure Image where
  isr : Nat → Nat
  processStart : Nat
  tss : Nat
  processStart_lt : processStart < 2 ^ 64
  tss_lt : tss < 2 ^ 64

/-- The processor under the scheduler. -/
structure Multitask where
  cpu : Cpu
  tss : Tss
  sched : Scheduler
  /-- `TICK` -/
  tick : Nat

def kernelStackSize : Nat := 64 * 1024

/-- `PREEMPT_FRAME_BYTES` -/
def preemptFrameBytes : Nat := (15 + 3) * 8

/-- The frame that `Process::new` writes: as if `process_start` had been interrupted. -/
def newFrame (img : Image) (stackTop entry : Nat) : List Nat :=
  [0, 0, 0, 0, 0, stackTop, 0, 0, 0, 0, 0, 0, 0, 0, entry, img.processStart, kernelCodeSel, 0x202]

inductive TaskOp
  /-- The running task goes on: its registers and the bytes that it writes. -/
  | run (c : Cpu) (writes : List (Nat × UInt8))
  /-- `isr32` with the time slice in force; what the handler leaves under the frame. -/
  | timer (slice : Nat) (c : Clock) (scratch : List UInt8)
  /-- `isr64` -/
  | yield (c : Clock) (scratch : List UInt8)
  /-- `Process::new` on a stack, and `spawn`. -/
  | spawn (pid : Pid) (stack entry : Nat)
  /-- Any other call of the scheduler. -/
  | call (op : SchedOp)

/-- What tasks go through, by their places. -/
inductive TaskEvent
  | ran (i : Nat) (c : Cpu) (writes : List (Nat × UInt8))
  /-- It was interrupted, and a handler used its memory from `lo` to `hi`. -/
  | left (i lo hi : Nat)
  | entered (i rsp ss : Nat)
  | spawned (i stack entry : Nat)

def TaskEvent.place : TaskEvent → Nat
  | .ran i .. | .left i .. | .entered i .. | .spawned i .. => i

namespace Multitask

/-- A gate of the scheduler. -/
def gate (img : Image) (v : Nat) : Gate :=
  { handler := img.isr v, selector := kernelCodeSel, ist := 0, trap := false, dpl := 0, present := true }

/-- `Process::new`: the stack cleared, and the frame at its end. -/
def newStack (img : Image) (mem : ByteMem) (stack entry : Nat) : ByteMem :=
  (mem.patch stack kernelStackSize fun _ => 0).setWords (stack + kernelStackSize - preemptFrameBytes)
    (newFrame img (stack + kernelStackSize) entry)

/-- The processor as a stub of the scheduler calls its handler. -/
def entered (img : Image) (m : Multitask) (v : Nat) : Cpu := m.cpu.enterStub m.tss (gate img v) none .scheduling

/-- The memory after the handler. -/
def handled (img : Image) (m : Multitask) (v : Nat) (scratch : List UInt8) : ByteMem :=
  (m.entered img v).mem.write ((m.entered img v).rsp - scratch.length) scratch

/-- `isr32` and `isr64`: the handler says where to go on; `none`: the processor refuses. -/
def trap (img : Image) (m : Multitask) (v : Nat) (scratch : List UInt8) (handler : Nat → Nat × Scheduler) :
    Option (List TaskEvent × Multitask) :=
  let entered := m.entered img v
  let (rsp, sched) := handler entered.rsp
  let called : Called := { result := rsp, reg := entered.reg, mem := m.handled img v scratch }
  (((entered.returned called).stub [.loadRsp .rax]).leaveStub (gdt img.tss) .scheduling).map fun cpu =>
    ([.left m.sched.current (entered.rsp - scratch.length) (m.cpu.entryTop m.tss (gate img v)),
      .entered sched.current cpu.rsp cpu.ss], { m with cpu, sched })

/-- `timer_preempt`, by the time slice in force. -/
def timerPreempt (m : Multitask) (slice : Nat) (c : Clock) (rsp : Nat) : Nat × Scheduler :=
  let tick := m.tick + 1
  if tick % max slice 1 = 0 then m.sched.doPreempt rsp false { c with tick } else (rsp, m.sched)

/-- `voluntary_yield` -/
def voluntaryYield (m : Multitask) (c : Clock) (rsp : Nat) : Nat × Scheduler :=
  m.sched.doPreempt rsp true { c with tick := m.tick }

def step (img : Image) (m : Multitask) : TaskOp → Option (List TaskEvent × Multitask)
  | .run c ws =>
    some ([.ran m.sched.current c ws], { m with cpu := { c with mem := m.cpu.mem.stores ws } })
  | .timer slice c scratch => { m with tick := m.tick + 1 }.trap img 0x20 scratch (m.timerPreempt slice c)
  | .yield c scratch => m.trap img 0x40 scratch (m.voluntaryYield c)
  | .spawn pid stack entry =>
    some ([.spawned m.sched.processes.length stack entry],
      { m with
        cpu := { m.cpu with mem := newStack img m.cpu.mem stack entry }
        sched := m.sched.spawn (.new pid (stack + kernelStackSize - preemptFrameBytes)) })
  | .call op => (m.sched.step op).map fun r => ([], { m with sched := r.2 })

end Multitask

/-! ## One task by itself -/

/-- What a task has: its registers, the last two not known before it first
runs, and what it knows of the memory. -/
structure Thread where
  reg : Gpr → Nat
  rip : Nat
  cs : Nat
  rflags : Nat
  rsp : Option Nat
  ss : Option Nat
  mem : Nat → Option UInt8

namespace Thread

def ofCpu (c : Cpu) (mem : Nat → Option UInt8) : Thread :=
  { reg := c.reg, rip := c.rip, cs := c.cs, rflags := c.rflags, rsp := some c.rsp, ss := some c.ss, mem }

/-- A new task: its trampoline is to go to `entry` with the whole stack. -/
def fresh (img : Image) (stack entry : Nat) : Thread where
  reg r := if r = .rbx then stack + kernelStackSize else if r = .rax then entry else 0
  rip := img.processStart
  cs := kernelCodeSel
  rflags := 0x202
  rsp := none
  ss := none
  mem a := if stack ≤ a ∧ a < stack + kernelStackSize - preemptFrameBytes then some 0 else none

/-- What each event makes of the task that it is about. -/
def step (img : Image) : Option Thread → TaskEvent → Option Thread
  | t, .ran _ c ws => t.map fun t => ofCpu c (ByteMem.learns t.mem ws)
  -- an interrupt leaves nothing but the stack under the task's own
  | t, .left _ lo hi => t.map fun t => { t with mem := fun a => if lo ≤ a ∧ a < hi then none else t.mem a }
  -- and the way back leaves everything
  | t, .entered _ rsp ss => t.map fun t => { t with rsp := some (t.rsp.getD rsp), ss := some (t.ss.getD ss) }
  | _, .spawned _ stack entry => some (fresh img stack entry)

/-- The task at a place after its own events. -/
def after (img : Image) (boot : Option Thread) (i : Nat) (h : List TaskEvent) : Option Thread :=
  (h.filter (·.place == i)).foldl (step img) boot

end Thread

/-! ## What the scheduler does to the stack pointers -/

namespace Scheduler

/-- The saved stack pointer of the process at a place. -/
def rspAt (s : Scheduler) (i : Nat) : Option Nat := (s.processes[i]?).map (·.preemptRsp)

variable {s s' : Scheduler} {rsp i : Nat} {c : Clock} {voluntary : Bool} {r : Nat × Scheduler}

theorem rspAt_wakeAll (now : Nat) : (s.wakeAll now).rspAt i = s.rspAt i := by
  rw [rspAt, wakeAll, List.getElem?_map, Option.map_map, rspAt]
  congr 1
  funext p
  exact p.wake_preemptRsp now

/-- A switch moves no frame. -/
theorem Switched.rspAt (h : s.Switched rsp voluntary c r) : r.2.rspAt i = s.rspAt i := by
  cases h with
  | stay quanta _ =>
    exact (map_get_updateCurrent { s.wakeAll c.tick with remainingQuanta := quanta }
      (f := fun p => { p with state := .running }) (g := (·.preemptRsp)) (fun _ => rfl) i).trans (rspAt_wakeAll c.tick)
  | @enter quanta j p hp _ =>
    rw [enter_eq (s := { s.wakeAll c.tick with remainingQuanta := quanta }) hp]
    refine Eq.trans ?_ (rspAt_wakeAll c.tick)
    simp only [Scheduler.rspAt, List.getElem?_modify, Option.map_eq_map, Option.map_map]
    cases (s.wakeAll c.tick).processes[i]? with
    | none => rfl
    | some q =>
      rw [Option.map_some, Option.map_some, Function.comp_apply]
      split <;> rfl

/-- The current process saves its stack pointer, the others keep theirs, and
the one that goes on goes on from its own. -/
theorem rspAt_doPreempt : (s.doPreempt rsp voluntary c).2.rspAt i = (if i = s.current then some rsp else s.rspAt i) ∧
    (s.doPreempt rsp voluntary c).2.rspAt (s.doPreempt rsp voluntary c).2.current =
      some (s.doPreempt rsp voluntary c).1 := by
  have hsw := switched_switchToNext (s.updateCurrent (Process.leave s.mode rsp voluntary c)) rsp voluntary c
  have hcur : (s.updateCurrent (Process.leave s.mode rsp voluntary c)).rspAt s.current = some rsp := by
    rw [rspAt, get_updateCurrent, Option.map_some, (Process.leave_cases ..).1]
  rw [doPreempt, hsw.rspAt, hsw.rspAt]
  constructor
  · split
    · next h => rw [h, hcur]
    · next h => rw [rspAt, get_updateCurrent_other s _ h, rspAt]
  · rcases hsw.rsp_cases with ⟨hsame, hrsp⟩ | ⟨p, hp, hrsp, -⟩
    · rw [hsame, hrsp]
      exact hcur
    · rw [rspAt, hp, Option.map_some, hrsp]

theorem rspAt_updatePid {pid : Pid} {f : Process → Process} (hf : ∀ p, (f p).preemptRsp = p.preemptRsp) :
    (s.updatePid pid f).rspAt i = s.rspAt i := by
  simp only [rspAt, updatePid, ← List.getElem?_map]
  rw [Slots.map_updateFirst fun p _ => hf p]

end Scheduler

/-! ## The machine under the tasks -/

/-- The selectors that code runs with. -/
def Selectors (cs ss : Nat) : Prop :=
  cs = kernelCodeSel ∧ (ss = 0 ∨ ss = kernelDataSel) ∨ cs = userCs ∧ ss = userSs

theorem Selectors.lt {cs ss : Nat} (h : Selectors cs ss) : cs < 2 ^ 16 ∧ ss < 2 ^ 16 := by
  rcases h with ⟨rfl, rfl | rfl⟩ | ⟨rfl, rfl⟩ <;> decide

/-- What a task knows of the memory is its own, and so. -/
def Thread.Knows (owner : Nat → Option Nat) (i : Nat) (t : Thread) (mem : ByteMem) : Prop :=
  ∀ a v, t.mem a = some v → owner a = some i ∧ mem a = v

/-- The processor runs the task. -/
structure Thread.Running (owner : Nat → Option Nat) (i : Nat) (t : Thread) (c : Cpu) : Prop where
  eq : t = ofCpu c t.mem
  knows : t.Knows owner i c.mem

/-- The task waits, its registers in the frame at `fr`. -/
structure Thread.Suspended (owner : Nat → Option Nat) (i : Nat) (t : Thread) (mem : ByteMem) (fr : Nat) : Prop where
  regs : mem.words fr 15 = Stub.scheduling.saves.reverse.map t.reg
  ret : mem.words (fr + 120) 3 = [t.rip, t.cs, t.rflags]
  cs : t.cs < 2 ^ 16
  /-- It is new, or has run before. -/
  last : (t.rsp = none ∧ t.ss = none ∧ t.cs = kernelCodeSel ∧ fr + preemptFrameBytes = t.reg .rbx) ∨
    ∃ rsp ss, t.rsp = some rsp ∧ t.ss = some ss ∧ mem.words (fr + 144) 2 = [rsp, ss] ∧ Selectors t.cs ss
  owned : ∀ x, fr ≤ x → x < fr + (if t.rsp.isSome then 160 else preemptFrameBytes) → owner x = some i
  knows : t.Knows owner i mem

namespace Thread

variable {img : Image} {owner : Nat → Option Nat} {i : Nat} {t : Thread} {mem mem' : ByteMem} {fr : Nat} {c : Cpu}

theorem Knows.congr (h : t.Knows owner i mem) (hsame : ∀ a, owner a = some i → mem' a = mem a) : t.Knows owner i mem' := by
  intro a v hv
  obtain ⟨how, hm⟩ := h a v hv
  exact ⟨how, (hsame a how).trans hm⟩

/-- The registers in a frame fit. -/
theorem Suspended.reg_lt (h : t.Suspended owner i mem fr) (r : Gpr) : t.reg r < 2 ^ 64 := by
  have hmem : t.reg r ∈ mem.words fr 15 := by
    rw [h.regs]
    exact List.mem_map_of_mem (List.mem_reverse.mpr (Stub.mem_scheduling r))
  obtain ⟨k, -, hk⟩ := List.mem_map.mp hmem
  rw [← hk]
  exact ByteMem.word_lt ..

theorem Suspended.ret_lt (h : t.Suspended owner i mem fr) : t.rip < 2 ^ 64 ∧ t.rflags < 2 ^ 64 := by
  have hlt : ∀ w ∈ mem.words (fr + 120) 3, w < 2 ^ 64 := by
    intro w hw
    obtain ⟨k, -, rfl⟩ := List.mem_map.mp hw
    exact ByteMem.word_lt ..
  rw [h.ret] at hlt
  exact ⟨hlt _ List.mem_cons_self, hlt _ (by simp)⟩

/-- Nobody else's writes reach a task that waits. -/
theorem Suspended.congr (h : t.Suspended owner i mem fr) (hsame : ∀ a, owner a = some i → mem' a = mem a) :
    t.Suspended owner i mem' fr := by
  obtain ⟨hregs, hret, hcs, hlast, howned, hknows⟩ := h
  have hlow : ∀ x, fr ≤ x → x < fr + 144 → mem' x = mem x := by
    intro x hx hx'
    refine hsame x (howned x hx ?_)
    unfold preemptFrameBytes
    split <;> omega
  refine ⟨?_, ?_, hcs, ?_, howned, hknows.congr hsame⟩
  · rw [ByteMem.words_congr fun x hx hx' => hlow x hx (by omega), hregs]
  · rw [ByteMem.words_congr fun x hx hx' => hlow x (by omega) (by omega), hret]
  · rcases hlast with hnew | ⟨rsp, ss, hrsp, hss, hw, hsel⟩
    · exact .inl hnew
    · refine .inr ⟨rsp, ss, hrsp, hss, ?_, hsel⟩
      rw [ByteMem.words_congr fun x hx hx' => hsame x (howned x (by omega) (by rw [hrsp]; exact hx')), hw]

/-- The processor with a task's registers, the last two from its frame. -/
def resume (t : Thread) (mem : ByteMem) (fr : Nat) : Cpu where
  reg := t.reg
  rsp := mem.word (fr + 144)
  mem
  rip := t.rip
  cs := t.cs
  rflags := t.rflags
  ss := mem.word (fr + 152) % 2 ^ 16

/-- The pops and the `iretq` from a task's frame. -/
theorem Suspended.leave {gdt : List Nat} (h : t.Suspended owner i c.mem c.rsp) (hcpl : c.cs % 4 = 0) :
    c.leaveStub gdt .scheduling =
      if returns gdt 0 t.cs (t.resume c.mem c.rsp).ss then some (t.resume c.mem c.rsp) else none := by
  have hret : c.mem.words (c.rsp + 8 * Stub.scheduling.saves.length + Stub.scheduling.drop) 5 =
      [t.rip, t.cs, t.rflags, c.mem.word (c.rsp + 144), c.mem.word (c.rsp + 152)] := by
    rw [show c.rsp + 8 * Stub.scheduling.saves.length + Stub.scheduling.drop = c.rsp + 120 from rfl,
      show 5 = 3 + 2 from rfl, ByteMem.words_add, h.ret]
    rfl
  have hall : (fun r => if r ∈ Stub.scheduling.saves then t.reg r else c.reg r) = t.reg :=
    funext fun r => if_pos (Stub.mem_scheduling r)
  rw [Cpu.leaveStub_eq Stub.balanced_scheduling h.regs hret, hcpl, Nat.mod_eq_of_lt h.cs, hall]
  rfl

variable (img) in
/-- A task that was interrupted waits in the frame that the stub made. -/
theorem Running.suspend {tss : Tss} {g : Gate} {lo : Nat} (h : t.Running owner i c) (hfits : c.Fits)
    (hsel : Selectors c.cs c.ss) (howned : ∀ x, lo ≤ x → x < c.entryTop tss g → owner x = some i)
    (hlo : lo + 160 ≤ c.entryTop tss g)
    (hframe : mem.words (c.entryTop tss g - 160) 20 = c.frame .scheduling none)
    (hsame : ∀ x, x < lo ∨ c.entryTop tss g ≤ x → mem x = c.mem x) :
    ∃ t', step img (some t) (.left i lo (c.entryTop tss g)) = some t' ∧
      t'.Suspended owner i mem (c.entryTop tss g - 160) ∧ t'.rsp = some c.rsp ∧ t'.ss = some c.ss := by
  obtain ⟨heq, hknows⟩ := h
  generalize hfr : c.entryTop tss g - 160 = fr at hframe ⊢
  have hparts : c.frame .scheduling none =
      Stub.scheduling.saves.reverse.map c.reg ++ ([c.rip, c.cs, c.rflags] ++ [c.rsp, c.ss]) := rfl
  rw [hparts, show 20 = 15 + (3 + 2) from rfl, ByteMem.words_add, ByteMem.words_add] at hframe
  obtain ⟨hregs, hrest⟩ := List.append_inj hframe (by rw [ByteMem.length_words]; rfl)
  obtain ⟨hret, hlast⟩ := List.append_inj hrest (by rw [ByteMem.length_words]; rfl)
  refine ⟨_, rfl, ⟨?_, ?_, ?_, .inr ⟨c.rsp, c.ss, ?_, ?_, hlast, ?_⟩, ?_, ?_⟩, ?_, ?_⟩
  · rw [heq]; exact hregs
  · rw [heq]; exact hret
  · rw [heq]; exact hfits.cs
  · rw [heq]; rfl
  · rw [heq]; rfl
  · rw [heq]; exact hsel
  · intro x hx hx'
    have hsize : (if t.rsp.isSome then 160 else preemptFrameBytes) ≤ 160 := by
      unfold preemptFrameBytes
      split <;> omega
    exact howned x (by omega) (by dsimp only at hx'; omega)
  · intro a v ha
    dsimp only at ha
    split at ha
    · cases ha
    · next hout =>
      obtain ⟨how, hm⟩ := hknows a v ha
      exact ⟨how, (hsame a (by omega)).trans hm⟩
  · rw [heq]; rfl
  · rw [heq]; rfl

/-- A new task waits in the frame that `Process::new` wrote. -/
theorem suspended_fresh {stack entry : Nat} (hstack : stack + kernelStackSize < 2 ^ 64) (hentry : entry < 2 ^ 64)
    (himg : img.processStart < 2 ^ 64)
    (howned : ∀ x, stack ≤ x → x < stack + kernelStackSize → owner x = some i) :
    (fresh img stack entry).Suspended owner i (Multitask.newStack img mem stack entry)
      (stack + kernelStackSize - preemptFrameBytes) := by
  have hsize : kernelStackSize = 65536 := rfl
  have hbytes : preemptFrameBytes = 144 := rfl
  have hwords : (Multitask.newStack img mem stack entry).words (stack + kernelStackSize - preemptFrameBytes) (15 + 3) =
      [0, 0, 0, 0, 0, stack + kernelStackSize, 0, 0, 0, 0, 0, 0, 0, 0, entry] ++
        [img.processStart, kernelCodeSel, 0x202] := by
    refine ByteMem.words_setWords.trans ?_
    simp only [newFrame, List.map_cons, List.map_nil, Nat.zero_mod, Nat.mod_eq_of_lt hstack, Nat.mod_eq_of_lt hentry,
      Nat.mod_eq_of_lt himg]
    rfl
  rw [ByteMem.words_add] at hwords
  obtain ⟨hregs, hret⟩ := List.append_inj hwords (by rw [ByteMem.length_words]; rfl)
  refine ⟨hregs, ?_, (by decide : kernelCodeSel < 2 ^ 16), .inl ⟨rfl, rfl, rfl, ?_⟩, ?_, ?_⟩
  · exact hret
  · rw [hbytes]
    exact Nat.sub_add_cancel (by omega)
  · intro x hx hx'
    rw [hbytes] at hx
    have hfresh : (if (fresh img stack entry).rsp.isSome then 160 else preemptFrameBytes) = 144 := rfl
    rw [hfresh] at hx'
    exact howned x (by omega) (by omega)
  · intro a v ha
    have hin : stack ≤ a ∧ a < stack + kernelStackSize - preemptFrameBytes ∧ v = 0 := by
      simp only [fresh] at ha
      split at ha
      · next h => exact ⟨h.1, h.2, (Option.some.inj ha).symm⟩
      · cases ha
    obtain ⟨hlow, hhigh, rfl⟩ := hin
    refine ⟨howned a hlow (by omega), ?_⟩
    rw [Multitask.newStack, ByteMem.setWords_outside (.inl hhigh), ByteMem.patch, if_pos ⟨hlow, by omega⟩]

end Thread


namespace Multitask

/-- The memory that an interrupt and its handler use is there, and the running task's. -/
def Room (img : Image) (owner : Nat → Option Nat) (m : Multitask) (v : Nat) (scratch : List UInt8) : Prop :=
  let top := m.cpu.entryTop m.tss (gate img v)
  160 + scratch.length ≤ top ∧ ∀ x, top - 160 - scratch.length ≤ x → x < top → owner x = some m.sched.current

/-- What tasks and the kernel keep to: each writes its own memory, and its
stack reaches as far as an interrupt goes. -/
def Ok (img : Image) (owner : Nat → Option Nat) (_ : List TaskEvent) (m : Multitask) : TaskOp → Prop
  | .run c ws => c.Fits ∧ Selectors c.cs c.ss ∧ ∀ w ∈ ws, owner w.1 = some m.sched.current
  | .timer _ _ scratch => m.Room img owner 0x20 scratch
  | .yield _ scratch => m.Room img owner 0x40 scratch
  | .spawn _ stack entry => stack + kernelStackSize < 2 ^ 64 ∧ entry < 2 ^ 64 ∧
      ∀ x, stack ≤ x → x < stack + kernelStackSize → owner x = some m.sched.processes.length
  | .call (.spawn _) | .call (.preempt ..) | .call (.exit ..) => False
  | .call _ => True

/-- `kernel_main` as the scheduler finds it. -/
def bootThread (owner : Nat → Option Nat) (c : Cpu) (i : Nat) : Option Thread :=
  if i = 0 then some (.ofCpu c fun a => if owner a = some 0 then some (c.mem a) else none) else none

/-- Every task is what its own history made of it: the running one in the
processor, the others in their frames. -/
structure Kept (img : Image) (owner : Nat → Option Nat) (boot : Nat → Option Thread) (h : List TaskEvent)
    (m : Multitask) : Prop where
  fits : m.cpu.Fits
  sel : Selectors m.cpu.cs m.cpu.ss
  running : ∃ t, Thread.after img (boot m.sched.current) m.sched.current h = some t ∧
    t.Running owner m.sched.current m.cpu
  suspended : ∀ i fr, i ≠ m.sched.current → m.sched.rspAt i = some fr →
    ∃ t, Thread.after img (boot i) i h = some t ∧ t.Suspended owner i m.cpu.mem fr

/-- What a handler does with the frame at `fr`: the next task goes on from its own. -/
structure Picks (s : Scheduler) (fr : Nat) (r : Nat × Scheduler) : Prop where
  left : r.2.current ≠ s.current → r.2.rspAt s.current = some fr
  others : ∀ j, j ≠ s.current → r.2.rspAt j = s.rspAt j
  same : r.2.current = s.current → r.1 = fr
  next : r.2.current ≠ s.current → s.rspAt r.2.current = some r.1

theorem picks_stay (s : Scheduler) (fr : Nat) : Picks s fr (fr, s) where
  left h := absurd rfl h
  others _ _ := rfl
  same _ := rfl
  next h := absurd rfl h

theorem picks_doPreempt (s : Scheduler) (fr : Nat) (voluntary : Bool) (c : Clock) :
    Picks s fr (s.doPreempt fr voluntary c) where
  left _ := (Scheduler.rspAt_doPreempt.1).trans (if_pos rfl)
  others _ hj := (Scheduler.rspAt_doPreempt.1).trans (if_neg hj)
  same h := by
    have hgo := (@Scheduler.rspAt_doPreempt s fr 0 c voluntary).2
    rw [h, (Scheduler.rspAt_doPreempt (i := s.current)).1, if_pos rfl] at hgo
    exact (Option.some.inj hgo).symm
  next h := by
    have hgo := (@Scheduler.rspAt_doPreempt s fr 0 c voluntary).2
    rwa [Scheduler.rspAt_doPreempt.1, if_neg h] at hgo

variable {img : Image} {owner : Nat → Option Nat} {boot : Nat → Option Thread} {h : List TaskEvent} {m m' : Multitask}

theorem after_append {b : Option Thread} {i : Nat} {es : List TaskEvent} : Thread.after img b i (h ++ es) =
    (es.filter (·.place == i)).foldl (Thread.step img) (Thread.after img b i h) := by
  rw [Thread.after, List.filter_append, List.foldl_append, Thread.after]

theorem after_other {b : Option Thread} {i : Nat} {es : List TaskEvent} (hes : ∀ e ∈ es, e.place ≠ i) :
    Thread.after img b i (h ++ es) = Thread.after img b i h := by
  rw [after_append, List.filter_eq_nil_iff.mpr fun e he => by rw [beq_iff_eq]; exact hes e he]
  rfl

theorem after_own {b : Option Thread} {e : TaskEvent} {i : Nat} (hi : e.place = i) :
    Thread.after img b i (h ++ [e]) = Thread.step img (Thread.after img b i h) e := by
  rw [after_append, List.filter_singleton, hi, beq_self_eq_true]
  rfl

/-- A task goes on; the others do not notice. -/
theorem Kept.run {c : Cpu} {ws : List (Nat × UInt8)} (hk : Kept img owner boot h m) (hfits : c.Fits)
    (hsel : Selectors c.cs c.ss) (hws : ∀ w ∈ ws, owner w.1 = some m.sched.current) :
    Kept img owner boot (h ++ [.ran m.sched.current c ws]) { m with cpu := { c with mem := m.cpu.mem.stores ws } } where
  fits := ⟨hfits.reg, hfits.rip, hfits.cs, hfits.rflags, hfits.rsp, hfits.ss⟩
  sel := hsel
  running := by
    obtain ⟨t, ht, -, hknows⟩ := hk.running
    refine ⟨.ofCpu c (ByteMem.learns t.mem ws), ?_, rfl, ?_⟩
    · refine (after_own (i := m.sched.current) rfl).trans ?_
      rw [ht]
      rfl
    · intro a v ha
      refine ⟨?_, ByteMem.stores_learns (fun b u hb => (hknows b u hb).2) ha⟩
      rcases ByteMem.learns_eq_some ha with ⟨w, hw, rfl⟩ | hold
      · exact hws w hw
      · exact (hknows a v hold).1
  suspended := by
    intro i fr hi hfr
    obtain ⟨t, ht, hsus⟩ := hk.suspended i fr hi hfr
    refine ⟨t, ?_, hsus.congr fun a ha => ?_⟩
    · rw [after_other fun e he => ?_, ht]
      obtain rfl := List.mem_singleton.mp he
      exact hi.symm
    · refine ByteMem.stores_outside fun w hw he => hi ?_
      rw [← he, hws w hw] at ha
      exact (Option.some.inj ha).symm

/-- A new process; the others do not notice. -/
theorem Kept.spawn {pid : Pid} {stack entry : Nat} (hk : Kept img owner boot h m)
    (hstack : stack + kernelStackSize < 2 ^ 64) (hentry : entry < 2 ^ 64)
    (howned : ∀ x, stack ≤ x → x < stack + kernelStackSize → owner x = some m.sched.processes.length) :
    Kept img owner boot (h ++ [.spawned m.sched.processes.length stack entry])
      { m with
        cpu := { m.cpu with mem := newStack img m.cpu.mem stack entry }
        sched := m.sched.spawn (.new pid (stack + kernelStackSize - preemptFrameBytes)) } := by
  have hsame : ∀ i a, i ≠ m.sched.processes.length → owner a = some i →
      newStack img m.cpu.mem stack entry a = m.cpu.mem a := by
    intro i a hi ha
    have hout : ¬(stack ≤ a ∧ a < stack + kernelStackSize) := by
      intro hin
      rw [howned a hin.1 hin.2] at ha
      exact hi (Option.some.inj ha).symm
    have hlen : (newFrame img (stack + kernelStackSize) entry).length = 18 := rfl
    have hsize : kernelStackSize = 65536 := rfl
    have hbytes : preemptFrameBytes = 144 := rfl
    rw [newStack, ByteMem.setWords_outside (by rw [hlen]; omega), ByteMem.patch_outside (by omega)]
  have hother : ∀ i, i ≠ m.sched.processes.length → Thread.after img (boot i) i
      (h ++ [.spawned m.sched.processes.length stack entry]) = Thread.after img (boot i) i h := by
    intro i hi
    refine after_other fun e he => ?_
    obtain rfl := List.mem_singleton.mp he
    exact hi.symm
  have hcur : m.sched.current ≠ m.sched.processes.length := Nat.ne_of_lt m.sched.current_lt
  refine ⟨⟨hk.fits.reg, hk.fits.rip, hk.fits.cs, hk.fits.rflags, hk.fits.rsp, hk.fits.ss⟩, hk.sel, ?_, ?_⟩
  · obtain ⟨t, ht, heq, hknows⟩ := hk.running
    exact ⟨t, (hother _ hcur).trans ht, heq, hknows.congr fun a ha => hsame _ a hcur ha⟩
  · intro i fr hi hfr
    rcases eq_or_ne i m.sched.processes.length with rfl | hne
    · obtain rfl : stack + kernelStackSize - preemptFrameBytes = fr := by
        rw [Scheduler.rspAt] at hfr
        obtain ⟨v, hv⟩ := Scheduler.spawn_processes m.sched (.new pid (stack + kernelStackSize - preemptFrameBytes))
        dsimp only at hfr
        rw [hv, List.getElem?_concat_length] at hfr
        exact Option.some.inj hfr
      exact ⟨_, after_own rfl, Thread.suspended_fresh hstack hentry img.processStart_lt howned⟩
    · have hold : m.sched.rspAt i = some fr := by
        rw [Scheduler.rspAt] at hfr
        obtain ⟨v, hv⟩ := Scheduler.spawn_processes m.sched (.new pid (stack + kernelStackSize - preemptFrameBytes))
        dsimp only at hfr
        rw [hv] at hfr
        obtain ⟨q, hq, hrsp⟩ := Option.map_eq_some_iff.mp hfr
        have hlt : i < m.sched.processes.length := by
          have hbound := (List.getElem?_eq_some_iff.mp hq).1
          rw [List.length_append, List.length_singleton] at hbound
          omega
        rw [List.getElem?_append_left hlt] at hq
        rw [Scheduler.rspAt, hq, Option.map_some, hrsp]
      obtain ⟨t, ht, hsus⟩ := hk.suspended i fr hi hold
      exact ⟨t, (hother i hne).trans ht, hsus.congr fun a ha => hsame i a hne ha⟩

/-- No other call moves a frame or changes who runs. -/
theorem call_keeps {op : SchedOp} {sched' : Scheduler} {es : List SchedEvent} (hok : Ok img owner h m (.call op))
    (hs : m.sched.step op = some (es, sched')) :
    sched'.current = m.sched.current ∧ ∀ i, sched'.rspAt i = m.sched.rspAt i := by
  cases op with
  | spawn | preempt | exit => exact hok.elim
  | kill pid =>
    cases hs
    exact ⟨rfl, fun i => Scheduler.rspAt_updatePid fun _ => rfl⟩
  | sleep ticks =>
    cases hs
    exact ⟨rfl, Scheduler.map_get_updateCurrent m.sched (g := (·.preemptRsp)) fun _ => rfl⟩
  | keyboardBoost =>
    cases hs
    rw [Scheduler.keyboardBoost]
    split
    · exact ⟨rfl, fun _ => rfl⟩
    · exact ⟨rfl, Scheduler.map_get_updateCurrent m.sched (g := (·.preemptRsp)) fun _ => rfl⟩
  | boostPid pid ticks =>
    cases hs
    refine ⟨rfl, fun i => Scheduler.rspAt_updatePid fun p => ?_⟩
    split <;> rfl
  | setPriority pid pri =>
    cases hs
    exact ⟨rfl, fun i => Scheduler.rspAt_updatePid fun _ => rfl⟩
  | setPreferredCpu pid cpu =>
    cases hs
    exact ⟨rfl, fun i => Scheduler.rspAt_updatePid fun _ => rfl⟩
  | setMode mode =>
    cases hs
    rw [Scheduler.setMode]
    split
    · refine ⟨rfl, fun i => ?_⟩
      rw [Scheduler.rspAt, List.getElem?_map, Option.map_map]
      rfl
    · exact ⟨rfl, fun _ => rfl⟩

theorem Kept.call {sched' : Scheduler} (hk : Kept img owner boot h m) (hcur : sched'.current = m.sched.current)
    (hrsp : ∀ i, sched'.rspAt i = m.sched.rspAt i) : Kept img owner boot h { m with sched := sched' } where
  fits := hk.fits
  sel := hk.sel
  running := by
    dsimp only
    rw [hcur]
    exact hk.running
  suspended i fr hi hfr := by
    dsimp only at hi hfr
    rw [hcur] at hi
    rw [hrsp] at hfr
    exact hk.suspended i fr hi hfr

/-- The frame's place, and the memory around it. -/
theorem entered_eq {v : Nat} (hroom : 160 ≤ m.cpu.entryTop m.tss (gate img v)) : m.entered img v =
    { m.cpu.interrupt m.tss (gate img v) none with
      reg := m.cpu.reg
      rsp := m.cpu.entryTop m.tss (gate img v) - 160
      mem := m.cpu.mem.setWords (m.cpu.entryTop m.tss (gate img v) - 160) (m.cpu.frame .scheduling none) } :=
  Cpu.enterStub_eq (g := gate img v) hroom

/-- The two stubs up to `iretq`: the running task waits in its own frame, and
the chosen one goes on from its, if the processor takes its selectors. -/
theorem trap_spec {v : Nat} {scratch : List UInt8} {handler : Nat → Nat × Scheduler} {top : Nat} {r : Nat × Scheduler}
    {left : TaskEvent} {mem : ByteMem} (hk : Kept img owner boot h m) (hroom : m.Room img owner v scratch)
    (htop : m.cpu.entryTop m.tss (gate img v) = top) (hr : handler (top - 160) = r)
    (hleft : left = .left m.sched.current (top - 160 - scratch.length) top) (hmem : m.handled img v scratch = mem)
    (hpick : Picks m.sched (top - 160) r) :
    ∃ t, Thread.after img (boot r.2.current) r.2.current (h ++ [left]) = some t ∧
      t.Suspended owner r.2.current mem r.1 ∧
      (∀ i fr, i ≠ r.2.current → r.2.rspAt i = some fr →
        ∃ t, Thread.after img (boot i) i (h ++ [left]) = some t ∧ t.Suspended owner i mem fr) ∧
      (r.2.current ≠ m.sched.current → Thread.after img (boot r.2.current) r.2.current h = some t) ∧
      (r.2.current = m.sched.current → t.rsp.isSome) ∧
      m.trap img v scratch handler =
        if returns (gdt img.tss) 0 t.cs (t.resume mem r.1).ss then
          some ([left, .entered r.2.current (t.resume mem r.1).rsp (t.resume mem r.1).ss],
            { m with cpu := t.resume mem r.1, sched := r.2 })
        else none := by
  obtain ⟨hdepth, howned⟩ := hroom
  have hentered : m.entered img v = _ := entered_eq (by omega)
  rw [htop] at hdepth howned hentered
  have hlen : (m.cpu.frame .scheduling none).length = 20 := rfl
  have hmem' : mem = (m.cpu.mem.setWords (top - 160) (m.cpu.frame .scheduling none)).write
      (top - 160 - scratch.length) scratch := by
    rw [← hmem, handled, hentered]
  have hsame : ∀ x, x < top - 160 - scratch.length ∨ top ≤ x → mem x = m.cpu.mem x := by
    intro x hx
    rw [hmem', ByteMem.write_outside (by omega), ByteMem.setWords_outside (by rw [hlen]; omega)]
  have hframe : mem.words (top - 160) 20 = m.cpu.frame .scheduling none := by
    rw [hmem', ByteMem.words_congr fun x hx _ => ByteMem.write_outside (by omega)]
    exact ByteMem.words_setWords.trans (Cpu.frame_fits hk.fits (fun _ hv => nomatch hv) fun _ he => nomatch he)
  have hother : ∀ i a, i ≠ m.sched.current → owner a = some i → mem a = m.cpu.mem a := by
    intro i a hi ha
    refine hsame a (Decidable.byContradiction fun hin => hi ?_)
    rw [howned a (by omega) (by omega)] at ha
    exact (Option.some.inj ha).symm
  -- the task that is left
  obtain ⟨t₀, ht₀, hrun⟩ := hk.running
  rw [← htop] at howned hframe hsame
  obtain ⟨t₁, ht₁, hsus₁, hrsp₁, -⟩ := hrun.suspend img hk.fits hk.sel howned (by rw [htop]; omega) hframe hsame
  rw [htop] at howned hframe hsame ht₁ hsus₁
  have hafter₁ : Thread.after img (boot m.sched.current) m.sched.current (h ++ [left]) = some t₁ := by
    rw [after_own (by rw [hleft]; rfl), ht₀, hleft]
    exact ht₁
  have hafter : ∀ i, i ≠ m.sched.current →
      Thread.after img (boot i) i (h ++ [left]) = Thread.after img (boot i) i h := by
    intro i hi
    refine after_other fun e he => ?_
    obtain rfl := List.mem_singleton.mp he
    rw [hleft]
    exact hi.symm
  -- and every other one
  have hwaits : ∀ i fr, i ≠ m.sched.current → m.sched.rspAt i = some fr →
      ∃ t, Thread.after img (boot i) i (h ++ [left]) = some t ∧ t.Suspended owner i mem fr := by
    intro i fr hi hfr
    obtain ⟨t, ht, hsus⟩ := hk.suspended i fr hi hfr
    exact ⟨t, (hafter i hi).trans ht, hsus.congr fun a ha => hother i a hi ha⟩
  have hnext : ∃ t, Thread.after img (boot r.2.current) r.2.current (h ++ [left]) = some t ∧
      t.Suspended owner r.2.current mem r.1 ∧ (r.2.current = m.sched.current → t.rsp.isSome) := by
    by_cases hcur : r.2.current = m.sched.current
    · rw [hcur, hpick.same hcur]
      exact ⟨t₁, hafter₁, hsus₁, fun _ => by rw [hrsp₁]; rfl⟩
    · obtain ⟨t, ht, hsus⟩ := hwaits _ _ hcur (hpick.next hcur)
      exact ⟨t, ht, hsus, fun h => absurd h hcur⟩
  obtain ⟨t, ht, hsus, hran⟩ := hnext
  refine ⟨t, ht, hsus, ?_, fun hcur => (hafter _ hcur).symm.trans ht, hran, ?_⟩
  · intro i fr hi hfr
    by_cases hcur : i = m.sched.current
    · subst hcur
      rw [hpick.left hi.symm] at hfr
      obtain rfl := Option.some.inj hfr
      exact ⟨t₁, hafter₁, hsus₁⟩
    · rw [hpick.others i hcur] at hfr
      exact hwaits i fr hcur hfr
  · obtain ⟨rsp, sched⟩ := r
    let c₂ : Cpu := ((m.entered img v).returned { result := rsp, reg := (m.entered img v).reg, mem }).stub [.loadRsp .rax]
    have hcs : c₂.cs % 4 = 0 := (by decide : kernelCodeSel % 4 = 0)
    have hleave : c₂.leaveStub (gdt img.tss) .scheduling =
        if returns (gdt img.tss) 0 t.cs (t.resume mem rsp).ss then some (t.resume mem rsp) else none :=
      Thread.Suspended.leave (c := c₂) hsus hcs
    have hrsp : (m.entered img v).rsp = top - 160 := by rw [hentered]
    rw [trap, hmem]
    dsimp only
    rw [hrsp, hr, htop, ← hleft]
    dsimp only
    rw [show Cpu.leaveStub (gdt img.tss) .scheduling c₂ = _ from hleave]
    split
    · rfl
    · rfl

theorem selectors_of_returns {tss cs ss : Nat} (htss : tss < 2 ^ 64) (h : returns (gdt tss) 0 cs ss = true) :
    Selectors cs ss := by
  rcases (returns_gdt htss).mp h with ⟨-, hcs, hss⟩ | ⟨-, hcs, hss⟩
  · exact .inl ⟨hcs, hss⟩
  · exact .inr ⟨hcs, hss⟩

theorem Kept.trap {v : Nat} {scratch : List UInt8} {handler : Nat → Nat × Scheduler} {es : List TaskEvent}
    (hk : Kept img owner boot h m) (hroom : m.Room img owner v scratch) (hpick : ∀ fr, Picks m.sched fr (handler fr))
    (hs : m.trap img v scratch handler = some (es, m')) : Kept img owner boot (h ++ es) m' := by
  obtain ⟨t, ht, hsus, hothers, -, -, htrap⟩ := trap_spec hk hroom rfl rfl rfl rfl (hpick _)
  generalize handler (m.cpu.entryTop m.tss (gate img v) - 160) = r at ht hsus hothers htrap
  generalize TaskEvent.left m.sched.current _ _ = left at ht hothers htrap
  generalize m.handled img v scratch = mem at hsus hothers htrap
  rw [htrap] at hs
  split at hs
  · next hret =>
    cases hs
    have hsel := selectors_of_returns img.tss_lt hret
    have hafter : ∀ i, Thread.after img (boot i) i (h ++ [left, .entered r.2.current (t.resume mem r.1).rsp
        (t.resume mem r.1).ss]) = Thread.after img (boot i) i ((h ++ [left]) ++
          [.entered r.2.current (t.resume mem r.1).rsp (t.resume mem r.1).ss]) := by
      intro i
      rw [List.append_assoc]
      rfl
    have hnext : Thread.after img (boot r.2.current) r.2.current (h ++ [left, .entered r.2.current
        (t.resume mem r.1).rsp (t.resume mem r.1).ss]) = some { t with
          rsp := some (t.rsp.getD (t.resume mem r.1).rsp)
          ss := some (t.ss.getD (t.resume mem r.1).ss) } := by
      refine (hafter _).trans ((after_own (i := r.2.current) rfl).trans ?_)
      rw [ht]
      rfl
    refine ⟨⟨hsus.reg_lt, hsus.ret_lt.1, hsus.cs, hsus.ret_lt.2, ByteMem.word_lt .., Nat.mod_lt _ (by decide)⟩, hsel, ?_, ?_⟩
    · refine ⟨_, hnext, ?_, hsus.knows⟩
      -- what is known of the last two registers is in the frame
      have hlast : t.rsp.getD (t.resume mem r.1).rsp = (t.resume mem r.1).rsp ∧
          t.ss.getD (t.resume mem r.1).ss = (t.resume mem r.1).ss := by
        rcases hsus.last with ⟨hrsp, hss, -, -⟩ | ⟨rsp, ss, hrsp, hss, hw, hold⟩
        · rw [hrsp, hss]
          exact ⟨rfl, rfl⟩
        · have hwords : [mem.word (r.1 + 144), mem.word (r.1 + 152)] = [rsp, ss] := hw
          obtain ⟨h₁, h₂⟩ := List.cons.inj hwords
          have h₂ := (List.cons.inj h₂).1
          have hmod : mem.word (r.1 + 152) % 2 ^ 16 = ss := by
            rw [h₂]
            exact Nat.mod_eq_of_lt hold.lt.2
          rw [hrsp, hss]
          exact ⟨h₁.symm, hmod.symm⟩
      simp only [Thread.ofCpu, hlast.1, hlast.2]
      rfl
    · intro i fr hi hfr
      obtain ⟨t', ht', hsus'⟩ := hothers i fr hi hfr
      refine ⟨t', (hafter i).trans ((after_other fun e he => ?_).trans ht'), hsus'⟩
      obtain rfl := List.mem_singleton.mp he
      exact hi.symm
  · cases hs

theorem Kept.tick (hk : Kept img owner boot h m) (tick : Nat) : Kept img owner boot h { m with tick } :=
  ⟨hk.fits, hk.sel, hk.running, hk.suspended⟩

theorem picks_timerPreempt (slice : Nat) (c : Clock) (fr : Nat) : Picks m.sched fr (m.timerPreempt slice c fr) := by
  rw [timerPreempt]
  split
  · exact picks_doPreempt ..
  · exact picks_stay ..

theorem picks_voluntaryYield (c : Clock) (fr : Nat) : Picks m.sched fr (m.voluntaryYield c fr) := picks_doPreempt ..

theorem Kept.step {op : TaskOp} {es : List TaskEvent} (hk : Kept img owner boot h m) (hok : Ok img owner h m op)
    (hs : m.step img op = some (es, m')) : Kept img owner boot (h ++ es) m' := by
  cases op with
  | run c ws =>
    cases hs
    obtain ⟨hfits, hsel, hws⟩ := hok
    exact hk.run hfits hsel hws
  | timer slice c scratch =>
    rw [Multitask.step] at hs
    exact (hk.tick (m.tick + 1)).trap hok (picks_timerPreempt (m := m) slice c) hs
  | yield c scratch =>
    rw [Multitask.step] at hs
    exact hk.trap hok (picks_voluntaryYield c) hs
  | spawn pid stack entry =>
    cases hs
    obtain ⟨hstack, hentry, howned⟩ := hok
    exact hk.spawn hstack hentry howned
  | call op =>
    obtain ⟨⟨es', sched'⟩, hstep, hpair⟩ := Option.map_eq_some_iff.mp hs
    cases hpair
    obtain ⟨hcur, hrsp⟩ := call_keeps hok hstep
    rw [List.append_nil]
    exact hk.call hcur hrsp

/-! ## The first switch to a task -/

/-- The vector, the handler's use of the stack and the handler of an interrupt. -/
def interrupts (m : Multitask) : TaskOp → Option (Nat × List UInt8 × (Nat → Nat × Scheduler))
  | .timer slice c scratch => some (0x20, scratch, m.timerPreempt slice c)
  | .yield c scratch => some (0x40, scratch, m.voluntaryYield c)
  | _ => none

theorem step_interrupts {op : TaskOp} {v : Nat} {scratch : List UInt8} {handler : Nat → Nat × Scheduler}
    (hi : m.interrupts op = some (v, scratch, handler)) (hk : Kept img owner boot h m) (hok : Ok img owner h m op) :
    ∃ m₁, m.step img op = m₁.trap img v scratch handler ∧ Kept img owner boot h m₁ ∧ m₁.Room img owner v scratch ∧
      m₁.cpu = m.cpu ∧ m₁.tss = m.tss ∧ m₁.sched = m.sched ∧ ∀ fr, Picks m.sched fr (handler fr) := by
  cases op with
  | timer slice c scratch =>
    cases hi
    exact ⟨{ m with tick := m.tick + 1 }, by rw [Multitask.step], hk.tick _, hok, rfl, rfl, rfl,
      picks_timerPreempt slice c⟩
  | yield c scratch =>
    cases hi
    exact ⟨m, by rw [Multitask.step], hk, hok, rfl, rfl, rfl, picks_voluntaryYield c⟩
  | run | spawn | call => cases hi

/-- The selectors of a waiting task, and when the processor takes them. -/
theorem returns_suspended {t : Thread} {i fr tss : Nat} {mem : ByteMem} (htss : tss < 2 ^ 64)
    (hsus : t.Suspended owner i mem fr) : returns (gdt tss) 0 t.cs (t.resume mem fr).ss = true ↔
      (t.rsp = none → (mem.word (t.reg .rbx + 8) % 2 ^ 16 = 0 ∨ mem.word (t.reg .rbx + 8) % 2 ^ 16 = kernelDataSel)) := by
  rw [returns_gdt htss]
  rcases hsus.last with ⟨hrsp, -, hcs, hrbx⟩ | ⟨rsp, ss, hrsp, -, hw, hsel⟩
  · have hss : (t.resume mem fr).ss = mem.word (t.reg .rbx + 8) % 2 ^ 16 := by
      rw [Thread.resume, ← hrbx]
      rfl
    rw [hss, hcs]
    constructor
    · intro h _
      rcases h with ⟨-, -, h⟩ | ⟨-, h, -⟩
      · exact h
      · exact absurd h (by decide)
    · intro h
      exact .inl ⟨rfl, rfl, h hrsp⟩
  · have hwords : [mem.word (fr + 144), mem.word (fr + 152)] = [rsp, ss] := hw
    have hss : (t.resume mem fr).ss = ss := by
      rw [Thread.resume, (List.cons.inj (List.cons.inj hwords).2).1]
      exact Nat.mod_eq_of_lt hsel.lt.2
    rw [hss]
    refine iff_of_true ?_ fun h => ?_
    · rcases hsel with ⟨hcs, hss⟩ | ⟨hcs, hss⟩
      · exact .inl ⟨rfl, hcs, hss⟩
      · exact .inr ⟨by decide, hcs, hss⟩
    · rw [hrsp] at h
      cases h

/-- The two instructions of `process_start`. -/
def startOf (c : Cpu) : Cpu := { c.stub [.loadRsp .rbx] with rip := c.reg .rax }

/-- At boot `kernel_main` runs alone. -/
structure Boots (m : Multitask) : Prop where
  sched : m.sched = .init
  fits : m.cpu.Fits
  sel : Selectors m.cpu.cs m.cpu.ss

theorem Boots.kept (hb : m.Boots) : Kept img owner (bootThread owner m.cpu) [] m where
  fits := hb.fits
  sel := hb.sel
  running := by
    rw [hb.sched]
    refine ⟨_, rfl, rfl, fun a v ha => ?_⟩
    have hown : (if owner a = some 0 then some (m.cpu.mem a) else none) = some v := ha
    split at hown
    · next how => exact ⟨how, Option.some.inj hown⟩
    · cases hown
  suspended i fr hi hfr := by
    rw [hb.sched] at hi hfr
    cases i with
    | zero => exact absurd rfl hi
    | succ i => cases hfr

end Multitask

open Multitask

/-- However tasks, timer interrupts, yields and new processes follow each
other, each task has the registers and the memory that its own history gave
it: the running one in the processor, every other one in its frame. -/
theorem tasks_keep_their_own {img : Image} {owner : Nat → Option Nat} {m₀ m : Multitask} {h : List TaskEvent}
    (hboot : m₀.Boots) (hr : Runs (Multitask.step img) (Ok img owner) m₀ h m) :
    Multitask.Kept img owner (bootThread owner m₀.cpu) h m :=
  hr.invariant (Multitask.Kept img owner (bootThread owner m₀.cpu)) hboot.kept fun hk hok hs => hk.step hok hs

/-- A switch is refused exactly when it is the first one to a new process and
the word above its stack is no stack selector: the frame that `Process::new`
writes ends two words short of what `iretq` takes. Else a new process comes
to its function on the whole of its stack, with interrupts on. -/
theorem switch_refused_iff {img : Image} {owner : Nat → Option Nat} {m₀ m : Multitask} {h : List TaskEvent} {op : TaskOp}
    {v : Nat} {scratch : List UInt8} {handler : Nat → Nat × Scheduler} {next : Nat} (hboot : m₀.Boots)
    (hr : Runs (Multitask.step img) (Ok img owner) m₀ h m) (hok : Ok img owner h m op)
    (hi : m.interrupts op = some (v, scratch, handler))
    (hnext : (handler (m.cpu.entryTop m.tss (gate img v) - 160)).2.current = next) :
    (m.step img op = none ↔ ∃ t, Thread.after img (bootThread owner m₀.cpu next) next h = some t ∧ t.rsp = none ∧
      (m.handled img v scratch).word (t.reg .rbx + 8) % 2 ^ 16 ≠ 0 ∧
      (m.handled img v scratch).word (t.reg .rbx + 8) % 2 ^ 16 ≠ kernelDataSel) ∧
    ∀ stack entry es m', Thread.after img (bootThread owner m₀.cpu next) next h = some (.fresh img stack entry) →
      m.step img op = some (es, m') → m'.cpu.rip = img.processStart ∧ (startOf m'.cpu).rip = entry ∧
        (startOf m'.cpu).rsp = stack + kernelStackSize ∧ m'.cpu.rflags.testBit 9 = true := by
  have hk := tasks_keep_their_own hboot hr
  obtain ⟨t₀, ht₀, hrun⟩ := hk.running
  have hran : t₀.rsp ≠ none := by
    rw [hrun.eq]
    exact Option.some_ne_none _
  obtain ⟨m₁, hstep, hk₁, hroom₁, hcpu, htss, hsched, hpick⟩ := step_interrupts hi hk hok
  obtain ⟨t, -, hsus, -, hold, hback, htrap⟩ := trap_spec hk₁ hroom₁ rfl rfl rfl rfl (hsched ▸ hpick _)
  have hhandled : m₁.handled img v scratch = m.handled img v scratch := by
    rw [handled, handled, entered, entered, hcpu, htss]
  rw [hhandled] at hsus htrap
  rw [hcpu, htss] at hsus hold hback htrap
  rw [hsched] at hold hback
  rw [hstep, htrap]
  generalize handler (m.cpu.entryTop m.tss (gate img v) - 160) = r at *
  obtain rfl := hnext
  have hret := returns_suspended img.tss_lt hsus
  -- a task that has not run is not the running one
  have hnew : ∀ t', Thread.after img (bootThread owner m₀.cpu r.2.current) r.2.current h = some t' → t'.rsp = none →
      t' = t := by
    intro t' ht' hrsp'
    rcases eq_or_ne r.2.current m.sched.current with hcur | hne
    · rw [hcur, ht₀] at ht'
      exact absurd hrsp' (Option.some.inj ht' ▸ hran)
    · rw [hold hne] at ht'
      exact (Option.some.inj ht').symm
  constructor
  · constructor
    · intro hnone
      split at hnone
      · cases hnone
      · next hfalse =>
        rw [hret, Classical.not_imp, not_or] at hfalse
        obtain ⟨hrsp, hzero, hdata⟩ := hfalse
        have hne : r.2.current ≠ m.sched.current := by
          intro hcur
          have hsome := hback hcur
          rw [hrsp] at hsome
          cases hsome
        exact ⟨t, hold hne, hrsp, hzero, hdata⟩
    · intro ⟨t', ht', hrsp', hzero, hdata⟩
      obtain rfl := hnew t' ht' hrsp'
      refine if_neg fun htrue => ?_
      rcases hret.mp htrue hrsp' with h | h
      · exact hzero h
      · exact hdata h
  · intro stack entry es m' hfresh hs
    obtain rfl := hnew _ hfresh rfl
    split at hs
    · cases hs
      exact ⟨rfl, rfl, rfl, (by decide : Nat.testBit 0x202 9 = true)⟩
    · cases hs

/-- A kernel with nothing in its memory but one byte above the second task's stack. -/
def bootedAbove (above : UInt8) : Multitask where
  cpu := {
    reg := fun _ => 0
    rsp := 0x9000
    mem := fun a => if a = 0x20008 then above else 0
    rip := 0x1000
    cs := kernelCodeSel
    rflags := 0x202
    ss := kernelDataSel }
  tss := { rsp0 := 0x8000, ist := fun _ => 0 }
  sched := .init
  tick := 0

def someImage : Image where
  isr v := 0x2000 + v
  processStart := 0x3000
  tss := 0x5000
  processStart_lt := by decide
  tss_lt := by decide

def twoOwners (a : Nat) : Option Nat := if a < 0x10000 then some 0 else if a < 0x20000 then some 1 else none

theorem boots_bootedAbove (above : UInt8) : (bootedAbove above).Boots where
  sched := rfl
  fits := ⟨fun _ => show 0 < 2 ^ 64 by decide, (by decide : 0x1000 < 2 ^ 64), (by decide : kernelCodeSel < 2 ^ 16),
    (by decide : 0x202 < 2 ^ 64), (by decide : 0x9000 < 2 ^ 64), (by decide : kernelDataSel < 2 ^ 16)⟩
  sel := .inl ⟨rfl, .inr rfl⟩

def spawnSecond : TaskOp := .spawn 1 0x10000 0x400000
def yieldToSecond : TaskOp := .yield { tick := 0, tscOut := 0, tscIn := 0, cpu := 0 } []

/-- The second task is made, and the first one yields. -/
theorem run_to_second (above : UInt8) : ∃ h m, Runs (Multitask.step someImage) (Ok someImage twoOwners) (bootedAbove above) h m ∧
    (bootedAbove above).step someImage spawnSecond = some (h, m) ∧ Ok someImage twoOwners h m yieldToSecond ∧
    Thread.after someImage (bootThread twoOwners (bootedAbove above).cpu 1) 1 h = some (.fresh someImage 0x10000 0x400000) := by
  have hspawn : (bootedAbove above).Ok someImage twoOwners [] spawnSecond := by
    refine ⟨by decide, by decide, fun x hx hx' => ?_⟩
    have hsize : kernelStackSize = 0x10000 := rfl
    rw [twoOwners, if_neg (by omega), if_pos (by omega)]
    rfl
  refine ⟨_, _, Runs.start.next hspawn rfl, rfl, ?_, rfl⟩
  -- the frame lies under `0x9000`
  have htop : (bootedAbove 0).cpu.entryTop (bootedAbove 0).tss (gate someImage 0x40) = 0x9000 := by decide +kernel
  refine ⟨show 160 + 0 ≤ (bootedAbove 0).cpu.entryTop (bootedAbove 0).tss (gate someImage 0x40) by omega, ?_⟩
  intro x _ hx
  have hlt : x < (bootedAbove 0).cpu.entryTop (bootedAbove 0).tss (gate someImage 0x40) := hx
  exact if_pos (by omega)

/-- With nothing above its stack the second task is switched to. -/
theorem second_task_kept : ∃ h m, m.sched.current = 1 ∧
    Multitask.Kept someImage twoOwners (bootThread twoOwners (bootedAbove 0).cpu) h m := by
  obtain ⟨h, m, hr, hs, hok, -⟩ := run_to_second 0
  have hgo : ((bootedAbove 0).step someImage spawnSecond).any (fun r =>
      (r.2.step someImage yieldToSecond).any fun r => r.2.sched.current == 1) = true := by decide +kernel
  rw [hs, Option.any_some] at hgo
  obtain ⟨⟨es, m'⟩, hstep, hcur⟩ := (Option.any_eq_true _ _).mp hgo
  exact ⟨h ++ es, m', beq_iff_eq.mp hcur, tasks_keep_their_own (boots_bootedAbove 0) (hr.next hok hstep)⟩

/-- With a byte there that makes no selector it is not. -/
theorem second_task_refused : ∃ h m, Runs (Multitask.step someImage) (Ok someImage twoOwners) (bootedAbove 5) h m ∧
    Ok someImage twoOwners h m yieldToSecond ∧ m.step someImage yieldToSecond = none := by
  obtain ⟨h, m, hr, hs, hok, hfresh⟩ := run_to_second 5
  have hnext : ((bootedAbove 5).step someImage spawnSecond).all (fun r =>
      (r.2.voluntaryYield { tick := 0, tscOut := 0, tscIn := 0, cpu := 0 }
        (r.2.cpu.entryTop r.2.tss (gate someImage 0x40) - 160)).2.current == 1) = true := by decide +kernel
  rw [hs, Option.all_some, beq_iff_eq] at hnext
  refine ⟨h, m, hr, hok, (switch_refused_iff (boots_bootedAbove 5) hr hok rfl hnext).1.mpr ⟨_, hfresh, rfl, ?_⟩⟩
  have hword : ((bootedAbove 5).step someImage spawnSecond).all (fun r =>
      (r.2.handled someImage 0x40 []).word 0x20008 == 5) = true := by decide +kernel
  rw [hs, Option.all_some, beq_iff_eq] at hword
  rw [show (Thread.fresh someImage 0x10000 0x400000).reg .rbx + 8 = 0x20008 from rfl, hword]
  decide

end ChodOs
