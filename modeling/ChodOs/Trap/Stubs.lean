/-
The interrupt stubs (`interrupts/handlers.rs`): what each puts on the stack
around its handler, and that one whose handler leaves the frame alone goes
unnoticed.
-/
import ChodOs.Trap.Tables

namespace ChodOs

open RegStack

/-- A stub: constants and registers to push, the registers to pop and what
to drop before `iretq`. -/
structure Stub where
  imms : List Nat
  saves : List Gpr
  pops : List Gpr
  drop : Nat

namespace Stub

/-- The stubs of the scheduler save everything. -/
def scheduling : Stub where
  imms := []
  saves := [.rax, .rcx, .rdx, .rsi, .rdi, .r8, .r9, .r10, .r11, .rbx, .rbp, .r12, .r13, .r14, .r15]
  pops := [.r15, .r14, .r13, .r12, .rbp, .rbx, .r11, .r10, .r9, .r8, .rdi, .rsi, .rdx, .rcx, .rax]
  drop := 0

def isr32 : Stub := scheduling
def isr64 : Stub := scheduling

def enter (st : Stub) : List (Ins Gpr) := st.imms.map .pushImm ++ st.saves.map .push

def leave (st : Stub) : List (Ins Gpr) := st.pops.map .pop ++ [.addRsp st.drop]

/-- What a stub pops it pushed, the other way round and each once. -/
structure Balanced (st : Stub) : Prop where
  pops : st.pops = st.saves.reverse
  nodup : st.saves.Nodup

theorem balanced_scheduling : scheduling.Balanced := ⟨rfl, by decide⟩
theorem mem_scheduling (r : Gpr) : r ∈ scheduling.saves := by cases r <;> decide
end Stub

/-! ## In and out -/

namespace Cpu

/-- Up to the call of the handler. -/
def enterStub (tss : Tss) (g : Gate) (error : Option Nat) (st : Stub) (c : Cpu) : Cpu :=
  (c.interrupt tss g error).stub st.enter

/-- From a frame on the stack. -/
def leaveStub (gdt : List Nat) (st : Stub) (c : Cpu) : Option Cpu := (c.stub st.leave).iretq gdt

/-- The words that a stub puts on the stack, lowest first. -/
def frame (st : Stub) (error : Option Nat) (c : Cpu) : List Nat :=
  st.saves.reverse.map c.reg ++ (st.imms.reverse ++ (error.toList ++ c.returnWords))

/-- Where the stub's frame is. -/
def frameAt (tss : Tss) (g : Gate) (error : Option Nat) (st : Stub) (c : Cpu) : Nat :=
  c.entryTop tss g - 8 * (c.frame st error).length

variable {c c' : Cpu} {gdt : List Nat} {tss : Tss} {g : Gate} {st : Stub} {error : Option Nat}

theorem length_frame : (c.frame st error).length = st.saves.length + (st.imms.length + (error.toList.length + 5)) := by
  rw [frame, List.length_append, List.length_append, List.length_append, List.length_map, List.length_reverse,
    List.length_reverse]
  rfl

/-- Pushes of constants and registers, as one block of words. -/
theorem run_enter {s : RegStack Gpr} (h : 8 * (st.saves.length + st.imms.length) ≤ s.rsp) : s.run st.enter =
    { s with
      rsp := s.rsp - 8 * (st.saves.length + st.imms.length)
      mem := s.mem.setWords (s.rsp - 8 * (st.saves.length + st.imms.length))
        (st.saves.reverse.map s.reg ++ st.imms.reverse) } := by
  have himms : s.run (st.imms.map .pushImm) = st.imms.foldl pushWord s := by
    rw [RegStack.run, List.foldl_map]
    rfl
  have hreg : (st.imms.foldl pushWord s).reg = s.reg := by
    rw [foldl_pushWord (by omega)]
  have hlen : (st.imms ++ st.saves.map s.reg).length = st.saves.length + st.imms.length := by
    rw [List.length_append, List.length_map, Nat.add_comm]
  rw [Stub.enter, run_append, himms, run_push, hreg, ← List.foldl_append, foldl_pushWord (by rwa [hlen]), hlen,
    List.reverse_append, ← List.map_reverse]

/-- The handler finds the frame at the stack pointer. -/
theorem enterStub_eq (h : 8 * (c.frame st error).length ≤ c.entryTop tss g) : c.enterStub tss g error st =
    { c.interrupt tss g error with
      reg := c.reg
      rsp := c.frameAt tss g error st
      mem := c.mem.setWords (c.frameAt tss g error st) (c.frame st error) } := by
  rw [length_frame] at h
  have hstack : (c.interrupt tss g error).toRegStack = _ := interrupt_stack (by omega)
  have hlow : c.entryTop tss g - 8 * (5 + error.toList.length) - 8 * (st.saves.length + st.imms.length) =
      c.frameAt tss g error st := by
    rw [frameAt, length_frame]
    omega
  have hblock : (st.saves.reverse.map c.reg ++ st.imms.reverse).length = st.saves.length + st.imms.length := by
    rw [List.length_append, List.length_map, List.length_reverse, List.length_reverse]
  have htop : c.frameAt tss g error st + 8 * (st.saves.length + st.imms.length) =
      c.entryTop tss g - 8 * (5 + error.toList.length) := by omega
  have hsplit : c.mem.setWords (c.frameAt tss g error st) (c.frame st error) =
      (c.mem.setWords (c.entryTop tss g - 8 * (5 + error.toList.length)) (error.toList ++ c.returnWords)).setWords
        (c.frameAt tss g error st) (st.saves.reverse.map c.reg ++ st.imms.reverse) := by
    rw [frame, ← List.append_assoc, ByteMem.setWords_append_left, hblock, htop]
  rw [enterStub, Cpu.stub, hstack, run_enter (by dsimp only; omega)]
  dsimp only
  rw [hlow, hsplit]

theorem frame_fits (hfits : c.Fits) (himms : ∀ v ∈ st.imms, v < 2 ^ 64) (herror : ∀ e ∈ error, e < 2 ^ 64) :
    (c.frame st error).map (· % 2 ^ 64) = c.frame st error := by
  have hsmall : ∀ {l : List Nat}, (∀ v ∈ l, v < 2 ^ 64) → l.map (· % 2 ^ 64) = l := by
    intro l hl
    exact (List.map_congr_left fun v hv => Nat.mod_eq_of_lt (hl v hv)).trans (List.map_id l)
  rw [frame, List.map_append, List.map_append, List.map_append, hfits.returnWords, hsmall, hsmall, hsmall]
  · intro v hv
    exact herror v (Option.mem_toList.mp hv)
  · intro v hv
    exact himms v (List.mem_reverse.mp hv)
  · intro v hv
    obtain ⟨r, -, rfl⟩ := List.mem_map.mp hv
    exact hfits.reg r

/-- What a stub takes from a frame. -/
theorem leaveStub_eq {f : Gpr → Nat} {rip cs rflags rsp ss : Nat} (hb : st.Balanced)
    (hregs : c.mem.words c.rsp st.saves.length = st.saves.reverse.map f)
    (hret : c.mem.words (c.rsp + 8 * st.saves.length + st.drop) 5 = [rip, cs, rflags, rsp, ss]) :
    c.leaveStub gdt st = if returns gdt (c.cs % 4) (cs % 2 ^ 16) (ss % 2 ^ 16) then
      some {
        reg := fun r => if r ∈ st.saves then f r else c.reg r
        rsp
        mem := c.mem
        rip
        cs := cs % 2 ^ 16
        rflags
        ss := ss % 2 ^ 16 } else none := by
  have hrun : c.toRegStack.run st.leave = { c.toRegStack with
      reg := popped c.mem c.rsp c.reg st.pops
      rsp := c.rsp + 8 * st.saves.length + st.drop } := by
    rw [Stub.leave, run_append, run_pops, hb.pops, List.length_reverse]
    rfl
  have hpopped : popped c.mem c.rsp c.reg st.pops = fun r => if r ∈ st.saves then f r else c.reg r := by
    funext r
    rw [hb.pops]
    split
    · next hr =>
      refine popped_of_words (List.nodup_reverse.mpr hb.nodup) ?_ (List.mem_reverse.mpr hr)
      rw [List.length_reverse, hregs]
    · next hr => exact popped_of_notMem fun h => hr (List.mem_reverse.mp h)
  rw [leaveStub, Cpu.stub, hrun, hpopped]
  exact iretq_eq hret

end Cpu

/-! ## Around a handler -/

/-- What a call leaves: its result, and whatever it makes of the memory and
of the registers that are its own. -/
structure Called where
  result : Nat
  reg : Gpr → Nat
  mem : ByteMem

/-- The registers that a callee gives back. -/
def calleeSaved : List Gpr := [.rbx, .rbp, .r12, .r13, .r14, .r15]

namespace Cpu

def returned (k : Called) (c : Cpu) : Cpu :=
  { c with
    reg := fun r => if r ∈ calleeSaved then c.reg r else if r = .rax then k.result else k.reg r
    mem := k.mem }

variable {c c' : Cpu} {gdt : List Nat} {tss : Tss} {g : Gate} {st : Stub} {error : Option Nat} {k : Called}

end Cpu

/-! ## Every vector but the scheduler's and the system call's -/

end ChodOs
