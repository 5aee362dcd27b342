/-
`sched_yield_impl` is round-robin: the current process and those that are
ready take turns, in the cyclic order of their slots. An entry that says
`Running` and is not the current one has no turn.
-/
import ChodOs.Lib.Cyclic
import ChodOs.User.Sessions

namespace ChodOs

open StepSys UserSys

namespace Uprocs

/-- The process in this slot is the current one, or ready. -/
def takesTurns (u : Uprocs) (i : Nat) : Bool := i == u.current || (u.at? i).any fun p => p.state == .ready

/-- The slots that take turns. -/
def runnable (u : Uprocs) : List Nat := (List.range maxProcs).filter u.takesTurns

/-- The same in the order of their next turns. -/
def turnOrder (u : Uprocs) : List Nat := (Cyclic.scan maxProcs (u.current + 1)).filter u.takesTurns

theorem turnOrder_perm (u : Uprocs) : u.turnOrder.Perm u.runnable := (Cyclic.scan_perm _ _).filter _

/-- The slots that say ready or running. -/
def readyOrRunning (u : Uprocs) : List Nat :=
  (List.range maxProcs).filter fun i => (u.at? i).any fun p => p.state == .ready || p.state == .running

end Uprocs

namespace UserSys

/-- One `sched_yield` after another, each by the process that is current then, with its frame: the slots switched to. -/
def switches (s : UserSys) : List Nat → List Nat
  | [] => []
  | fr :: frs =>
    match s.schedYield fr with
    | (.resume _, s) => s.procs.current :: s.switches frs
    | (_, s) => s.switches frs

/-- Of as many consecutive switches as there are slots in `l`, one is to each. -/
def RoundRobin (s : UserSys) (l : List Nat) : Prop :=
  ∀ frs k, k + l.length ≤ (s.switches frs).length → (((s.switches frs).drop k).take l.length).Perm l

end UserSys

variable {s s' : UserSys} {p q : UserProc} {fr : Nat}

/-- A yield is a switch to the next in turn, who is the last in turn from then on. -/
theorem yield_turn (hc : s.procs.cur = some p) (fr : Nat) : ∃ (i : Nat) (rest : List Nat) (frameRsp : Nat) (q : UserProc)
    (s' : UserSys), s.procs.turnOrder = i :: rest ∧ s.schedYield fr = (.resume frameRsp, s') ∧
    s'.procs.current = i ∧ s'.procs.cur = some q ∧ s'.procs.turnOrder = rest ++ [i] := by
  have heff := @effect_yield s p hc fr
  generalize hyield : s.schedYield fr = r at heff
  obtain ⟨o, s'⟩ := r
  cases heff with
  | quiet hquiet => cases hquiet
  | left hl => cases hl with
    | thread hexits | program hexits | process hexits => cases hexits
  | @handed _ _ i q _ hh hsw =>
    cases hh with
    | exitThread hexits | exitProcess hexits => cases hexits
    | yield hfind =>
      -- in the table on the way all who take turns are ready, the caller included
      have hready : ∀ j, (((s.procs.update (UserProc.laid fr .ready)).at? j).any fun p => p.state == .ready) =
          s.procs.takesTurns j := by
        intro j
        rw [Uprocs.at?_update, Uprocs.takesTurns]
        split
        · next hj =>
          have hat : s.procs.at? j = some p := hj ▸ hc
          rw [hat, hj]
          simp [UserProc.laid]
        · next hj => rw [beq_false_of_ne (Ne.symm hj), Bool.false_or]
      have hkept : s'.procs.takesTurns = s.procs.takesTurns := by
        obtain ⟨r, hr, hrdy⟩ := Uprocs.findNextReadyFrom_spec hfind
        funext j
        rw [← hready, Uprocs.takesTurns, hsw.current, hsw.at?]
        split
        · next hj =>
          rw [← hj, hr, BEq.rfl, Bool.true_or, Option.any_some, hrdy]
          rfl
        · next hj => rw [beq_false_of_ne (Ne.symm hj), Bool.false_or]
      have hhead : s.procs.turnOrder.head? = some i := by
        rw [Uprocs.turnOrder, List.head?_filter, ← hfind, Uprocs.findNextReadyFrom, Cyclic.scan]
        congr 1
        funext j
        exact (hready j).symm
      obtain ⟨rest, horder⟩ := List.head?_eq_some_iff.mp hhead
      refine ⟨i, rest, q.savedFrameRsp, { q with state := .running }, s', horder, rfl, hsw.current, ?_, ?_⟩
      · rw [Uprocs.cur, hsw.at?, hsw.current, if_pos rfl]
      · rw [Uprocs.turnOrder, hkept, hsw.current]
        exact Cyclic.filter_scan_next horder

/-- The switches of a run are the turns of those who take them. -/
theorem switches_eq_turns (hc : s.procs.cur = some p) (frs : List Nat) :
    s.switches frs = Cyclic.turns frs.length s.procs.turnOrder := by
  induction frs generalizing s p with
  | nil => rfl
  | cons fr frs ih =>
    obtain ⟨i, rest, frameRsp, q, s', horder, hyield, hcur, hc', hnext⟩ := yield_turn hc fr
    rw [switches, hyield, horder, List.length_cons, Cyclic.turns, ← hnext, ← ih hc', ← hcur]

/-- Alone, the caller goes on in its own frame, with 0 for its result; only the frame's address in its entry is new. -/
theorem yield_alone (hc : s.procs.cur = some p) (hruns : p.state = .running) (halone : s.procs.runnable = [s.procs.current])
    (fr : Nat) : ∃ s', s.schedYield fr = (.resume fr, s') ∧ (userEnd ≤ fr → s'.mem.word (fr + 0x40) = 0) ∧
    s'.procs.current = s.procs.current ∧
    ∀ j, s'.procs.at? j = (s.procs.update fun p => { p with savedFrameRsp := fr }).at? j := by
  have heff := @effect_yield s p hc fr
  generalize hyield : s.schedYield fr = r at heff
  obtain ⟨o, s'⟩ := r
  obtain ⟨i, rest, frameRsp, _, s₁, horder, hyield₁, hcur, -⟩ := yield_turn hc fr
  obtain ⟨rfl, rfl⟩ := Prod.mk.inj (hyield.symm.trans hyield₁)
  obtain rfl : i = s.procs.current := by
    have hmem : i ∈ s.procs.runnable := s.procs.turnOrder_perm.subset (by simp [horder])
    simpa [halone] using hmem
  cases heff with
  | @handed _ _ j q _ hh hsw =>
    obtain rfl : j = s.procs.current := hsw.current.symm.trans hcur
    cases hh with
    | exitThread hexits | exitProcess hexits => cases hexits
    | yield hfind =>
      have hq : q = p.laid fr .ready := by
        have hslot := hsw.slot
        rw [Uprocs.at?_update, if_pos rfl] at hslot
        exact Option.some.inj (hslot.symm.trans (congrArg _ hc))
      have hs' : s' = ((s.suspend fr .ready).switchTo s.procs.current q).2 := by
        have hrun : s.schedYield fr = (s.suspend fr .ready).switchTo s.procs.current q := by
          have hf : (s.suspend fr .ready).procs.findNextReadyFrom ((s.suspend fr .ready).procs.current + 1) =
              some s.procs.current := hfind
          have hat : (s.suspend fr .ready).procs.at? s.procs.current = some q := hsw.slot
          simp only [schedYield, switchToReady, hf, Option.bind_eq_bind, Option.bind_some, hat, Option.getD_some]
        exact congrArg Prod.snd (hyield.symm.trans hrun)
      refine ⟨s', by rw [hq]; rfl, fun hfr => ?_, hcur, fun j => ?_⟩
      · -- the frame is in the kernel's half, which the switch shares
        have hkernel : s'.mem.word (fr + 0x40) = (s.store (fr + 0x40) 0).mem.word (fr + 0x40) := by
          refine ByteMem.word_congr fun x hx _ => ?_
          have hx' : ¬x < userEnd := by omega
          rw [hs', mem, mem, if_neg hx', if_neg hx']
          rfl
        rw [hkernel, mem_store, ByteMem.word_setWord_self]
        rfl
      · rw [hsw.at?, Uprocs.at?_update, Uprocs.at?_update]
        split
        · next hj =>
          have hat : s.procs.at? j = some p := hj ▸ hc
          rw [hq, hat, Option.map_some, ← hruns]
          rfl
        · rfl

/-- Whatever the table: of as many consecutive switches as there are slots
that take turns, each gets one; and who is alone goes on at once with 0,
with nothing but its saved frame changed. -/
theorem sched_yield_round_robin (hc : s.procs.cur = some p) :
    s.RoundRobin s.procs.runnable ∧ (∀ frs, (s.switches frs).length = frs.length) ∧
      (s.procs.runnable = [s.procs.current] → p.state = .running → ∀ fr,
        ∃ s', s.schedYield fr = (.resume fr, s') ∧ (userEnd ≤ fr → s'.mem.word (fr + 0x40) = 0) ∧
          s'.procs.current = s.procs.current ∧
          ∀ j, s'.procs.at? j = (s.procs.update fun p => { p with savedFrameRsp := fr }).at? j) := by
  have hlen := s.procs.turnOrder_perm.length_eq
  have hne : s.procs.turnOrder ≠ [] := by
    obtain ⟨i, rest, _, _, _, horder, -⟩ := yield_turn hc 0
    rw [horder]
    exact List.cons_ne_nil i rest
  have hswitches : ∀ frs, (s.switches frs).length = frs.length := fun frs => by
    rw [switches_eq_turns hc, Cyclic.length_turns _ hne]
  refine ⟨fun frs k hk => ?_, hswitches, fun halone hruns fr => yield_alone hc hruns halone fr⟩
  rw [hswitches, ← hlen] at hk
  rw [switches_eq_turns hc, ← hlen]
  exact (Cyclic.turns_window hk).trans s.procs.turnOrder_perm

/-- A program and its child, which take turns. -/
theorem sched_yield_round_robin_forked : ∃ s : UserSys, s.procs.runnable = [0, 1] ∧ s.RoundRobin [0, 1] := by
  obtain ⟨-, s, -, hP⟩ := Runs.of_exec Session.step free (.boot (fun _ => 0) (fun _ _ => 0) 0 0 1)
    [.start 5 userEnd, .call (.fork userEnd 6 (userEnd + 0x20000))]
    (fun _ s => s.sys.procs.cur.isSome && decide (s.sys.procs.runnable = [0, 1])) (by decide)
  rw [Bool.and_eq_true, decide_eq_true_iff, Option.isSome_iff_exists] at hP
  obtain ⟨⟨p, hc⟩, hrunnable⟩ := hP
  exact ⟨s.sys, hrunnable, hrunnable ▸ (sched_yield_round_robin hc).1⟩

/-- An entry that says running has no turn if it is not the current one: a
program exits without a parent, which leaves its entry as it was, and the
next one only yields to itself. -/
theorem running_without_turns : ∃ (h : List SessionOp) (s : Session),
    Runs Session.step free (.boot (fun _ => 0) (fun _ _ => 0) 0 0 1) h s ∧ s.sys.procs.readyOrRunning = [0, 1] ∧
    ¬s.sys.RoundRobin s.sys.procs.readyOrRunning := by
  obtain ⟨h, s, hr, hP⟩ := Runs.of_exec Session.step free (.boot (fun _ => 0) (fun _ _ => 0) 0 0 1)
    [.start 5 userEnd, .call (.exit 0), .start 6 (userEnd + 0x20000)]
    (fun _ s => decide (s.sys.procs.readyOrRunning = [0, 1]) &&
      decide (s.sys.switches [userEnd + 0x20000, userEnd + 0x20000] = [1, 1])) (by decide)
  simp only [Bool.and_eq_true, decide_eq_true_eq] at hP
  obtain ⟨hboth, hself⟩ := hP
  refine ⟨h, s, hr, hboth, fun hrobin => ?_⟩
  have hturns := hrobin [userEnd + 0x20000, userEnd + 0x20000] 0 (by rw [hboth, hself]; decide)
  rw [hboth, hself] at hturns
  exact absurd hturns (by decide)

end ChodOs
