/-
The processor under the interrupt code: the registers, the descriptors as
it reads them from memory, how it enters a handler and how `iretq` leaves
one. In 64-bit mode both move five words, whatever the privilege levels.
-/
import ChodOs.Lib.RegStack

namespace ChodOs

/-- The general registers but for `rsp`. -/
inductive Gpr
  | rax | rbx | rcx | rdx | rsi | rdi | rbp | r8 | r9 | r10 | r11 | r12 | r13 | r14 | r15
  deriving DecidableEq

structure Cpu extends RegStack Gpr where
  rip : Nat
  cs : Nat
  rflags : Nat
  ss : Nat

/-- The stacks that an entry may switch to. -/
structure Tss where
  rsp0 : Nat
  ist : Nat → Nat

/-! ## Descriptors -/

/-- A selector of the global table, by the access byte of what it selects. -/
def selects (gdt : List Nat) (sel : Nat) : Option Nat :=
  if sel / 4 % 2 = 0 then (gdt[sel / 8]?).map fun d => d / 2 ^ 40 % 256 else none

/-- A present segment of the privilege level that the selector asks for. -/
def segmentOf (access sel : Nat) : Bool :=
  access / 128 == 1 && access / 16 % 2 == 1 && access / 32 % 4 == sel % 4

/-- `cs` loads a code segment of its level. -/
def codeLoads (gdt : List Nat) (sel : Nat) : Bool :=
  (selects gdt sel).any fun a => segmentOf a sel && a / 8 % 2 == 1

/-- `ss` loads beside `cs`: writable data of the same level, or nothing for the kernel. -/
def stackLoads (gdt : List Nat) (cs sel : Nat) : Bool :=
  sel % 4 == cs % 4 &&
    (if sel / 4 = 0 then cs % 4 != 3
      else (selects gdt sel).any fun a => segmentOf a sel && a / 8 % 2 == 0 && a / 2 % 2 == 1)

/-- `iretq` takes these selectors at a privilege level. -/
def returns (gdt : List Nat) (cpl cs ss : Nat) : Bool :=
  decide (cpl ≤ cs % 4) && codeLoads gdt cs && stackLoads gdt cs ss

/-- An entry of the interrupt table, read. -/
structure Gate where
  handler : Nat
  selector : Nat
  ist : Nat
  /-- A trap gate leaves interrupts on. -/
  trap : Bool
  dpl : Nat
  present : Bool
  deriving DecidableEq

/-- The gate in the sixteen bytes at `a`; `none`: not a gate of 64-bit mode. -/
def gateAt (m : ByteMem) (a : Nat) : Option Gate :=
  let attr := (m (a + 5)).toNat
  if attr / 16 % 2 = 0 ∧ 14 ≤ attr % 16 then
    some {
      handler := m.le a 2 + 2 ^ 16 * m.le (a + 6) 2 + 2 ^ 32 * m.le (a + 8) 4
      selector := m.le (a + 2) 2
      ist := (m (a + 4)).toNat % 8
      trap := attr % 16 = 15
      dpl := attr / 32 % 4
      present := 128 ≤ attr }
  else none

/-! ## Entering and leaving -/

namespace Cpu

/-- User mode. -/
def user (c : Cpu) : Bool := c.cs % 4 == 3

/-- The stack that an entry through the gate starts on. -/
def entryTop (tss : Tss) (g : Gate) (c : Cpu) : Nat :=
  let top := if g.ist ≠ 0 then tss.ist g.ist else if c.user then tss.rsp0 else c.rsp
  top - top % 16

/-- The words that an entry saves, lowest first. -/
def returnWords (c : Cpu) : List Nat := [c.rip, c.cs, c.rflags, c.rsp, c.ss]

/-- `TF`, `NT` and `RF` are cleared, and through an interrupt gate `IF`. -/
def entryFlags (g : Gate) (flags : Nat) : Nat :=
  flags &&& (if g.trap then 0xFFFFFFFFFFFEBEFF else 0xFFFFFFFFFFFEBCFF)

/-- Entry through a gate, with the error code of some exceptions. -/
def interrupt (tss : Tss) (g : Gate) (error : Option Nat) (c : Cpu) : Cpu :=
  { (c.returnWords.reverse ++ error.toList).foldl RegStack.pushWord { c.toRegStack with rsp := c.entryTop tss g } with
    rip := g.handler
    cs := g.selector
    rflags := entryFlags g c.rflags
    ss := if c.user then 0 else c.ss }

/-- `int n`: refused below the gate's level. -/
def softInt (tss : Tss) (g : Option Gate) (c : Cpu) : Option Cpu :=
  match g with
  | some g => if g.present && decide (c.cs % 4 ≤ g.dpl) then some (c.interrupt tss g none) else none
  | none => none

/-- `iretq`; `none`: the processor refuses the selectors. -/
def iretq (gdt : List Nat) (c : Cpu) : Option Cpu :=
  let w := fun i => c.mem.word (c.rsp + 8 * i)
  let cs := w 1 % 2 ^ 16
  let ss := w 4 % 2 ^ 16
  if returns gdt (c.cs % 4) cs ss then some { c with rip := w 0, cs, rflags := w 2, rsp := w 3, ss } else none

/-- Every register holds what it has bits for. -/
structure Fits (c : Cpu) : Prop where
  reg : ∀ r, c.reg r < 2 ^ 64
  rip : c.rip < 2 ^ 64
  cs : c.cs < 2 ^ 16
  rflags : c.rflags < 2 ^ 64
  rsp : c.rsp < 2 ^ 64
  ss : c.ss < 2 ^ 16

/-- Instructions that only move registers. -/
def stub (c : Cpu) (is : List (RegStack.Ins Gpr)) : Cpu := { c with toRegStack := c.toRegStack.run is }

variable {c c' : Cpu} {gdt : List Nat} {tss : Tss} {g : Gate}

/-- The words of an entry, and above them what was there. -/
theorem interrupt_stack {error : Option Nat} (h : 8 * (5 + error.toList.length) ≤ c.entryTop tss g) :
    (c.interrupt tss g error).toRegStack =
      { reg := c.reg
        rsp := c.entryTop tss g - 8 * (5 + error.toList.length)
        mem := c.mem.setWords (c.entryTop tss g - 8 * (5 + error.toList.length)) (error.toList ++ c.returnWords) } := by
  have hlen : (c.returnWords.reverse ++ error.toList).length = 5 + error.toList.length := by
    rw [List.length_append]
    rfl
  have hrev : (c.returnWords.reverse ++ error.toList).reverse = error.toList ++ c.returnWords := by
    rw [List.reverse_append, List.reverse_reverse]
    cases error <;> rfl
  rw [interrupt, RegStack.foldl_pushWord (by rwa [hlen]), hlen, hrev]

/-- An `iretq` by the words that it pops. -/
theorem iretq_eq {rip cs rflags rsp ss : Nat} (hw : c.mem.words c.rsp 5 = [rip, cs, rflags, rsp, ss]) :
    c.iretq gdt = if returns gdt (c.cs % 4) (cs % 2 ^ 16) (ss % 2 ^ 16) then
      some { c with rip, cs := cs % 2 ^ 16, rflags, rsp, ss := ss % 2 ^ 16 } else none := by
  have hat : ∀ {i w}, i < 5 → [rip, cs, rflags, rsp, ss][i]? = some w → c.mem.word (c.rsp + 8 * i) = w := by
    intro i w hi hsome
    rw [← hw, ByteMem.getElem?_words hi] at hsome
    exact Option.some.inj hsome
  have h0 : c.mem.word (c.rsp + 8 * 0) = rip := hat (by omega) rfl
  have h1 : c.mem.word (c.rsp + 8 * 1) = cs := hat (by omega) rfl
  have h2 : c.mem.word (c.rsp + 8 * 2) = rflags := hat (by omega) rfl
  have h3 : c.mem.word (c.rsp + 8 * 3) = rsp := hat (by omega) rfl
  have h4 : c.mem.word (c.rsp + 8 * 4) = ss := hat (by omega) rfl
  simp only [iretq, h0, h1, h2, h3, h4]

theorem Fits.returnWords (h : c.Fits) : c.returnWords.map (· % 2 ^ 64) = c.returnWords := by
  obtain ⟨-, hrip, hcs, hrflags, hrsp, hss⟩ := h
  simp only [Cpu.returnWords, List.map_cons, List.map_nil, Nat.mod_eq_of_lt hrip, Nat.mod_eq_of_lt hrflags,
    Nat.mod_eq_of_lt hrsp, Nat.mod_eq_of_lt (show c.cs < 2 ^ 64 by omega), Nat.mod_eq_of_lt (show c.ss < 2 ^ 64 by omega)]

/-- A handler that does nothing but return goes unnoticed, but for the five words. -/
theorem iretq_interrupt (hfits : c.Fits) (hret : returns gdt (g.selector % 4) c.cs c.ss = true)
    (hroom : 40 ≤ c.entryTop tss g) : (c.interrupt tss g none).iretq gdt =
      some { c with mem := c.mem.setWords (c.entryTop tss g - 40) c.returnWords } := by
  have hstack : (c.interrupt tss g none).toRegStack = _ := interrupt_stack hroom
  have hwords : (c.interrupt tss g none).mem.words (c.interrupt tss g none).rsp 5 =
      [c.rip, c.cs, c.rflags, c.rsp, c.ss] := by
    rw [show (c.interrupt tss g none).mem = _ from congrArg RegStack.mem hstack,
      show (c.interrupt tss g none).rsp = _ from congrArg RegStack.rsp hstack]
    exact ByteMem.words_setWords.trans hfits.returnWords
  rw [iretq_eq hwords, Nat.mod_eq_of_lt hfits.cs, Nat.mod_eq_of_lt hfits.ss]
  have hcs : (c.interrupt tss g none).cs = g.selector := rfl
  rw [hcs, if_pos hret, show (c.interrupt tss g none).toRegStack = _ from hstack]
  rfl

end Cpu

end ChodOs
