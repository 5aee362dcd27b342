/-
The pipe's buffer (`syscall/pipe.rs`), and with it the three byte rings of
the kernel: the pipe's of 4096 slots, the keyboard's and the input events'
of 64 each. All three keep one slot empty, so each is a queue of one element
less than it has slots, wherever its two indices are.
-/
import ChodOs.Input
import ChodOs.Lib.ByteMem

namespace ChodOs

/-- `PIPE_BUF`, `PIPE_HEAD`, `PIPE_TAIL`. -/
abbrev Pipe := RingBuf UInt8 4096

namespace Pipe

/-- The loop of `pipe_read`, with `k` of `count` passes to go. -/
def readLoop (buf : Nat) : Nat → Nat → ByteMem → Pipe → Nat × ByteMem × Pipe
  | 0, n, mem, p => (n, mem, p)
  | k + 1, n, mem, p =>
    match RingBuf.pop p with
    | none => (n, mem, p)
    | some (b, p) => readLoop buf k (n + 1) (mem.write (buf + n) [b]) p

/-- `pipe_read`. -/
def pipeRead (p : Pipe) (mem : ByteMem) (buf count : Nat) : Int × ByteMem × Pipe :=
  let (n, mem, p) := readLoop buf count 0 mem p
  (n, mem, p)

/-- The loop of `pipe_write`, with `k` of `count` passes to go. -/
def writeLoop (mem : ByteMem) (buf : Nat) : Nat → Nat → Pipe → Nat × Pipe
  | 0, n, p => (n, p)
  | k + 1, n, p =>
    match RingBuf.push p (mem (buf + n)) with
    | none => (n, p)
    | some p => writeLoop mem buf k (n + 1) p

/-- `pipe_write`. -/
def pipeWrite (p : Pipe) (mem : ByteMem) (buf count : Nat) : Int × Pipe :=
  let (n, p) := writeLoop mem buf count 0 p
  (n, p)

/-- What is read are the oldest bytes, stored one after another. -/
theorem readLoop_spec (buf k n : Nat) (mem : ByteMem) (p : Pipe) :
    ∃ p', readLoop buf k n mem p =
        (n + (p.contents.take k).length, mem.write (buf + n) (p.contents.take k), p') ∧
      p'.contents = p.contents.drop k := by
  induction k generalizing n mem p with
  | zero => exact ⟨p, by simp [readLoop, ByteMem.write_nil], rfl⟩
  | succ k ih =>
    unfold readLoop
    cases h : RingBuf.pop p with
    | none =>
      have hnil := RingBuf.contents_of_pop_none h
      exact ⟨p, by simp [hnil, ByteMem.write_nil], by rw [hnil, List.drop_nil]⟩
    | some r =>
      obtain ⟨b, q⟩ := r
      obtain ⟨p', hrun, hp'⟩ := ih (n + 1) (mem.write (buf + n) [b]) q
      rw [RingBuf.pop_contents h]
      refine ⟨p', ?_, hp'⟩
      change readLoop buf k (n + 1) (mem.write (buf + n) [b]) q = _
      have hstore : mem.write (buf + n) (b :: q.contents.take k) =
          (mem.write (buf + n) [b]).write (buf + (n + 1)) (q.contents.take k) := mem.write_cons _ _ _
      rw [hrun, List.take_succ_cons, hstore, List.length_cons, Nat.add_assoc, Nat.add_comm 1]

/-- What is written are the first bytes, as many as there is room for. -/
theorem writeLoop_spec (mem : ByteMem) (buf k n : Nat) (p : Pipe) :
    ∃ p', writeLoop mem buf k n p = (n + min k (4095 - p.contents.length), p') ∧
      p'.contents = p.contents ++ mem.read (buf + n) (min k (4095 - p.contents.length)) := by
  induction k generalizing n p with
  | zero => exact ⟨p, by simp [writeLoop], by simp [ByteMem.read]⟩
  | succ k ih =>
    have hlt := p.length_lt
    unfold writeLoop
    cases h : RingBuf.push p (mem (buf + n)) with
    | none =>
      have hfull := p.isFull_iff.mp (RingBuf.push_eq_none_iff.mp h)
      have hroom : 4095 - p.contents.length = 0 := by
        rw [RingBuf.length_contents]
        omega
      refine ⟨p, ?_, ?_⟩
      · rw [hroom, Nat.min_zero]
        rfl
      · rw [hroom, Nat.min_zero, ByteMem.read, List.range_zero, List.map_nil, List.append_nil]
    | some q =>
      have hfull : p.length + 1 ≠ 4096 := fun he => by
        rw [RingBuf.push_eq_none_iff.mpr (p.isFull_iff.mpr he)] at h
        cases h
      obtain ⟨p', hrun, hp'⟩ := ih (n + 1) q
      have hq := RingBuf.push_contents h
      have hroom : min (k + 1) (4095 - p.contents.length) = 1 + min k (4095 - q.contents.length) := by
        rw [hq, List.length_append, List.length_singleton, RingBuf.length_contents]
        omega
      refine ⟨p', ?_, ?_⟩
      · change writeLoop mem buf k (n + 1) q = _
        rw [hrun, hroom, Nat.add_assoc]
      · rw [hp', hroom, ByteMem.read_add, ← List.append_assoc, hq]
        rfl

theorem pipeRead_spec (p : Pipe) (mem : ByteMem) (buf count : Nat) : ∃ p' : Pipe,
    p.pipeRead mem buf count =
        (((min count p.contents.length : Nat) : Int), mem.write buf (p.contents.take count), p') ∧
      p'.contents = p.contents.drop count := by
  obtain ⟨p', hrun, hp'⟩ := readLoop_spec buf count 0 mem p
  rw [Nat.zero_add, Nat.add_zero, List.length_take] at hrun
  exact ⟨p', by rw [pipeRead, hrun], hp'⟩

theorem pipeWrite_spec (p : Pipe) (mem : ByteMem) (buf count : Nat) : ∃ p' : Pipe,
    p.pipeWrite mem buf count = (((min count (4095 - p.contents.length) : Nat) : Int), p') ∧
      p'.contents = p.contents ++ mem.read buf (min count (4095 - p.contents.length)) := by
  obtain ⟨p', hrun, hp'⟩ := writeLoop_spec mem buf count 0 p
  rw [Nat.zero_add] at hrun
  exact ⟨p', by rw [pipeWrite, hrun], hp'⟩

end Pipe

/-! ### The three rings -/

structure Rings where
  pipe : Pipe
  input : Input

/-- A call; `mem` is the caller's memory at that time. -/
inductive RingOp
  | pipeRead (mem : ByteMem) (buf count : Nat)
  | pipeWrite (mem : ByteMem) (buf count : Nat)
  | pushKey (ascii : UInt8)
  | tryPop
  | pushEvent (val : Nat)
  | popEvent

/-- What a call did: its result, the memory it left, and of a push, which
returns nothing, which of the rings it was to go into had room. -/
inductive RingEvent
  | read (buf : Nat) (n : Int) (mem : ByteMem)
  | wrote (mem : ByteMem) (buf : Nat) (n : Int)
  | key (ascii : UInt8) (kbdRoom ringRoom : Bool)
  | popped (ascii : Option UInt8)
  | event (val : Nat) (room : Bool)
  | poppedEvent (val : Option Nat)

def Rings.step (s : Rings) : RingOp → RingEvent × Rings
  | .pipeRead mem buf count =>
    let (n, mem, pipe) := s.pipe.pipeRead mem buf count
    (.read buf n mem, { s with pipe })
  | .pipeWrite mem buf count =>
    let (n, pipe) := s.pipe.pipeWrite mem buf count
    (.wrote mem buf n, { s with pipe })
  | .pushKey ascii =>
    (.key ascii (!s.input.kbd.isFull) (!s.input.ring.isFull), { s with input := s.input.pushKey ascii })
  | .tryPop =>
    let (ascii, input) := s.input.tryPop
    (.popped ascii, { s with input })
  | .pushEvent val => (.event val (!s.input.ring.isFull), { s with input := s.input.pushEvent val })
  | .popEvent =>
    let (val, input) := s.input.popEvent
    (.poppedEvent val, { s with input })

/-! ### The queues -/

/-- What the rings stand for, each the oldest element first. -/
structure Queues where
  pipe : List UInt8
  kbd : List UInt8
  ring : List Nat

def Rings.queues (s : Rings) : Queues := ⟨s.pipe.contents, s.input.kbd.contents, s.input.ring.contents⟩

/-- Bounded queues: a write appends what there is room for, a push that
finds no room changes nothing, and the oldest come out first. -/
def Queues.step (q : Queues) : RingOp → RingEvent × Queues
  | .pipeRead mem buf count =>
    (.read buf (min count q.pipe.length : Nat) (mem.write buf (q.pipe.take count)),
      { q with pipe := q.pipe.drop count })
  | .pipeWrite mem buf count =>
    let n := min count (4095 - q.pipe.length)
    (.wrote mem buf n, { q with pipe := q.pipe ++ mem.read buf n })
  | .pushKey ascii =>
    let kbdRoom := decide (q.kbd.length < 63)
    let ringRoom := decide (q.ring.length < 63)
    (.key ascii kbdRoom ringRoom,
      if kbdRoom then
        { q with kbd := q.kbd ++ [ascii], ring := if ringRoom then q.ring ++ [keyEvent ascii] else q.ring }
      else q)
  | .tryPop => (.popped q.kbd.head?, { q with kbd := q.kbd.tail })
  | .pushEvent val =>
    let room := decide (q.ring.length < 63)
    (.event val room, if room then { q with ring := q.ring ++ [val] } else q)
  | .popEvent => (.poppedEvent q.ring.head?, { q with ring := q.ring.tail })

/-- One call after another, with what each did. -/
def runOps {σ : Type} (step : σ → RingOp → RingEvent × σ) : σ → List RingOp → List RingEvent × σ
  | s, [] => ([], s)
  | s, op :: ops =>
    let (e, s) := step s op
    let (es, s) := runOps step s ops
    (e :: es, s)

/-- Every call does to the rings what it does to the queues. -/
theorem Rings.step_queues (s : Rings) (op : RingOp) :
    s.queues.step op = ((s.step op).1, (s.step op).2.queues) := by
  have hkbd : decide (s.queues.kbd.length < 63) = !s.input.kbd.isFull := s.input.kbd.not_isFull.symm
  have hring : decide (s.queues.ring.length < 63) = !s.input.ring.isFull := s.input.ring.not_isFull.symm
  cases op with
  | pipeRead mem buf count =>
    obtain ⟨p', hrun, hp'⟩ := s.pipe.pipeRead_spec mem buf count
    simp only [step, Queues.step, queues, hrun, hp']
  | pipeWrite mem buf count =>
    obtain ⟨p', hrun, hp'⟩ := s.pipe.pipeWrite_spec mem buf count
    simp only [step, Queues.step, queues, hrun, hp']
  | pushKey ascii =>
    simp only [step, Queues.step, hkbd, hring]
    simp only [queues, Input.pushKey]
    cases h : s.input.kbd.push ascii with
    | none => simp [RingBuf.push_eq_none_iff.mp h]
    | some kbd =>
      have hroom : s.input.kbd.isFull = false := by
        rw [← Bool.not_eq_true, ← @RingBuf.push_eq_none_iff _ _ _ ascii, h]
        exact Option.some_ne_none _
      simp only [hroom, RingBuf.push_contents h, Input.pushEvent, RingBuf.contents_push_getD]
      cases s.input.ring.isFull <;> rfl
  | tryPop =>
    simp only [step, Queues.step, queues, Input.tryPop]
    cases h : s.input.kbd.pop with
    | none => simp [RingBuf.contents_of_pop_none h]
    | some r => simp [RingBuf.pop_contents h]
  | pushEvent val =>
    simp only [step, Queues.step, hring]
    simp only [queues, Input.pushEvent, RingBuf.contents_push_getD]
    cases s.input.ring.isFull <;> rfl
  | popEvent =>
    simp only [step, Queues.step, queues, Input.popEvent]
    cases h : s.input.ring.pop with
    | none => simp [RingBuf.contents_of_pop_none h]
    | some r => simp [RingBuf.pop_contents h]

/-- So does every sequence of calls. -/
theorem Rings.run_queues (s : Rings) (ops : List RingOp) :
    runOps Queues.step s.queues ops = ((runOps Rings.step s ops).1, (runOps Rings.step s ops).2.queues) := by
  induction ops generalizing s with
  | nil => rfl
  | cons op ops ih => simp only [runOps, s.step_queues op, ih]

/-! ### What goes in and what comes out -/

/-- The bytes that `pipe_write` accepted: as many of the caller's as it reported. -/
def pipeAccepted (h : List RingEvent) : List UInt8 :=
  h.flatMap fun
    | .wrote mem buf n => mem.read buf n.toNat
    | _ => []

/-- The bytes that `pipe_read` stored: as many as it reported. -/
def pipeGot (h : List RingEvent) : List UInt8 :=
  h.flatMap fun
    | .read buf n mem => mem.read buf n.toNat
    | _ => []

def kbdAccepted (h : List RingEvent) : List UInt8 :=
  h.filterMap fun
    | .key ascii true _ => some ascii
    | _ => none

def kbdGot (h : List RingEvent) : List UInt8 :=
  h.filterMap fun
    | .popped ascii => ascii
    | _ => none

/-- A key goes into the events' ring when the keyboard's has taken it. -/
def ringAccepted (h : List RingEvent) : List Nat :=
  h.filterMap fun
    | .key ascii true true => some (keyEvent ascii)
    | .event val true => some val
    | _ => none

def ringGot (h : List RingEvent) : List Nat :=
  h.filterMap fun
    | .poppedEvent val => val
    | _ => none

/-- What was in the queues and what they accepted is what they gave out,
and what is left. -/
structure Queues.Balanced (q : Queues) (h : List RingEvent) (q' : Queues) : Prop where
  pipe : pipeGot h ++ q'.pipe = q.pipe ++ pipeAccepted h
  kbd : kbdGot h ++ q'.kbd = q.kbd ++ kbdAccepted h
  ring : ringGot h ++ q'.ring = q.ring ++ ringAccepted h

theorem Queues.step_pipe (q : Queues) (op : RingOp) :
    pipeGot [(q.step op).1] ++ (q.step op).2.pipe = q.pipe ++ pipeAccepted [(q.step op).1] := by
  cases op with
  | pipeRead mem buf count =>
    have hgot : (mem.write buf (q.pipe.take count)).read buf (min count q.pipe.length) = q.pipe.take count := by
      rw [← List.length_take, ByteMem.read_write_take (Nat.le_refl _), List.take_length]
    simp only [pipeGot, pipeAccepted, step, List.flatMap_singleton, Int.toNat_natCast, hgot]
    rw [List.take_append_drop]
    exact (List.append_nil _).symm
  | pushKey ascii =>
    simp only [step]
    split <;> simp [pipeGot, pipeAccepted]
  | pushEvent val =>
    simp only [step]
    split <;> simp [pipeGot, pipeAccepted]
  | pipeWrite mem buf count =>
    simp only [pipeGot, pipeAccepted, step, List.flatMap_singleton, Int.toNat_natCast]
    exact List.nil_append _
  | tryPop | popEvent => simp [pipeGot, pipeAccepted, step]

theorem Queues.step_kbd (q : Queues) (op : RingOp) :
    kbdGot [(q.step op).1] ++ (q.step op).2.kbd = q.kbd ++ kbdAccepted [(q.step op).1] := by
  cases op with
  | pushKey ascii =>
    simp only [step]
    by_cases hk : q.kbd.length < 63 <;> simp [hk, kbdGot, kbdAccepted]
  | tryPop => cases hq : q.kbd <;> simp [step, hq, kbdGot, kbdAccepted]
  | pushEvent val =>
    simp only [step]
    split <;> simp [kbdGot, kbdAccepted]
  | pipeRead | pipeWrite | popEvent => simp [kbdGot, kbdAccepted, step]

theorem Queues.step_ring (q : Queues) (op : RingOp) :
    ringGot [(q.step op).1] ++ (q.step op).2.ring = q.ring ++ ringAccepted [(q.step op).1] := by
  cases op with
  | pushKey ascii =>
    simp only [step]
    by_cases hk : q.kbd.length < 63 <;> by_cases hr : q.ring.length < 63 <;> simp [hk, hr, ringGot, ringAccepted]
  | pushEvent val =>
    simp only [step]
    by_cases hr : q.ring.length < 63 <;> simp [hr, ringGot, ringAccepted]
  | popEvent => cases hq : q.ring <;> simp [step, hq, ringGot, ringAccepted]
  | pipeRead | pipeWrite | tryPop => simp [ringGot, ringAccepted, step]

/-- One call's balance before that of the calls after it. -/
theorem balance_cons {α : Type} {q q₁ q₂ got₁ got₂ acc₁ acc₂ : List α} (h₁ : got₁ ++ q₁ = q ++ acc₁)
    (h₂ : got₂ ++ q₂ = q₁ ++ acc₂) : (got₁ ++ got₂) ++ q₂ = q ++ (acc₁ ++ acc₂) := by
  rw [List.append_assoc, h₂, ← List.append_assoc, h₁, List.append_assoc]

theorem Queues.run_balanced (q : Queues) (ops : List RingOp) :
    q.Balanced (runOps step q ops).1 (runOps step q ops).2 := by
  induction ops generalizing q with
  | nil => exact ⟨by simp [runOps, pipeGot, pipeAccepted], by simp [runOps, kbdGot, kbdAccepted],
      by simp [runOps, ringGot, ringAccepted]⟩
  | cons op ops ih =>
    have hrest := ih (q.step op).2
    have hpipe := balance_cons (q.step_pipe op) hrest.pipe
    have hkbd := balance_cons (q.step_kbd op) hrest.kbd
    have hring := balance_cons (q.step_ring op) hrest.ring
    refine ⟨?_, ?_, ?_⟩
    · rwa [pipeGot, pipeGot, pipeAccepted, pipeAccepted, ← List.flatMap_append, ← List.flatMap_append] at hpipe
    · rwa [kbdGot, kbdGot, kbdAccepted, kbdAccepted, ← List.filterMap_append, ← List.filterMap_append] at hkbd
    · rwa [ringGot, ringGot, ringAccepted, ringAccepted, ← List.filterMap_append, ← List.filterMap_append] at hring

/-- The rings are bounded queues. Whatever calls are made, on rings in any
state: each call returns what it returns on queues of at most 4095, 63 and
63 elements, the rings hold what these hold, and what was read of each is a
prefix of what was in it and what it accepted since. -/
theorem rings_refine_queues (s : Rings) (ops : List RingOp) :
    runOps Queues.step s.queues ops = ((runOps Rings.step s ops).1, (runOps Rings.step s ops).2.queues) ∧
      (runOps Rings.step s ops).2.pipe.contents.length ≤ 4095 ∧
      (runOps Rings.step s ops).2.input.kbd.contents.length ≤ 63 ∧
      (runOps Rings.step s ops).2.input.ring.contents.length ≤ 63 ∧
      pipeGot (runOps Rings.step s ops).1 <+: s.pipe.contents ++ pipeAccepted (runOps Rings.step s ops).1 ∧
      kbdGot (runOps Rings.step s ops).1 <+: s.input.kbd.contents ++ kbdAccepted (runOps Rings.step s ops).1 ∧
      ringGot (runOps Rings.step s ops).1 <+: s.input.ring.contents ++ ringAccepted (runOps Rings.step s ops).1 := by
  have hrun := s.run_queues ops
  have hbal := s.queues.run_balanced ops
  rw [hrun] at hbal
  refine ⟨hrun, ?_, ?_, ?_, ⟨_, hbal.pipe⟩, ⟨_, hbal.kbd⟩, ⟨_, hbal.ring⟩⟩
  · rw [RingBuf.length_contents]
    exact Nat.le_of_lt_succ (RingBuf.length_lt _)
  · rw [RingBuf.length_contents]
    exact Nat.le_of_lt_succ (RingBuf.length_lt _)
  · rw [RingBuf.length_contents]
    exact Nat.le_of_lt_succ (RingBuf.length_lt _)

end ChodOs
