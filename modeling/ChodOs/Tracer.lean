/-
The event tracer (`tracer.rs`): the ring of events, and what `dump` copies
out of it and reports. Of how an event is printed, the two numbers that some
kinds have in one.
-/
import ChodOs.Lib.LastRing

namespace ChodOs

def ringSize : Nat := 256

inductive EventKind
  | channelCreated | channelDropped | hotPairDetected | pinPair | priorityBoost
  | decayWarning | policyTick | anomaly | safetyBound | paramTuned
  deriving DecidableEq, Repr

structure TraceEvent where
  ts : UInt64
  kind : EventKind
  pidA : UInt32
  pidB : UInt32
  cap : UInt32
  extra : UInt64
  deriving DecidableEq

def TraceEvent.zero : TraceEvent := ⟨0, .policyTick, 0, 0, 0, 0⟩

/-- `buf`, `head` and `total`; `total` counts as the counters of `Process` do. -/
abbrev TracerState := LastRing TraceEvent ringSize

namespace TracerState

def new : TracerState := LastRing.new .zero

/-- What a dump reports: the number of events, how many it shows, how many
were overwritten if it says so, and the events in the order of their lines. -/
structure Dump where
  total : Nat
  count : Nat
  overwritten : Option Nat
  events : List TraceEvent
  deriving DecidableEq

/-- `dump`, with `DUMP_BUF` before and after. -/
def dump (t : TracerState) (dumpBuf : Table TraceEvent ringSize) : Dump × Table TraceEvent ringSize :=
  let dumpBuf := t.copyTo dumpBuf
  ({ total := t.total
     count := t.count
     overwritten := if ringSize < t.total then some (t.total - ringSize) else none
     events := dumpBuf.1.take t.count }, dumpBuf)

/-- The ring after these calls of `record`, from boot. -/
def recorded (h : List TraceEvent) : TracerState := h.foldl LastRing.push new

/-! ## The events -/

section Events

variable (ts : UInt64)

def channelCreated (src dst cap : UInt32) (capacity : UInt64) : TraceEvent :=
  ⟨ts, .channelCreated, src, dst, cap, capacity⟩

def channelDropped (src dst cap coldCount : UInt32) : TraceEvent :=
  ⟨ts, .channelDropped, src, dst, cap, coldCount.toUInt64⟩

def hotPairDetected (src dst : UInt32) (ipcCount : UInt64) : TraceEvent :=
  ⟨ts, .hotPairDetected, src, dst, 0, ipcCount⟩

def pinPairEvent (src dst : UInt32) (cpu : UInt8) : TraceEvent := ⟨ts, .pinPair, src, dst, 0, cpu.toUInt64⟩

def priorityBoost (pid : UInt32) (oldPri newPri : UInt8) : TraceEvent :=
  ⟨ts, .priorityBoost, pid, 0, 0, oldPri.toUInt64 <<< 32 ||| newPri.toUInt64⟩

def decayWarning (src dst cold maxCold : UInt32) : TraceEvent :=
  ⟨ts, .decayWarning, src, dst, 0, cold.toUInt64 <<< 16 ||| maxCold.toUInt64⟩

def policyTick (tick : UInt64) : TraceEvent := ⟨ts, .policyTick, 0, 0, 0, tick⟩

def safetyBound (pidA pidB : UInt32) (reason : UInt64) : TraceEvent := ⟨ts, .safetyBound, pidA, pidB, 0, reason⟩

def anomaly (src dst cap : UInt32) (reason : UInt64) : TraceEvent := ⟨ts, .anomaly, src, dst, cap, reason⟩

def paramTuned (paramId subjectId : UInt32) (old new : UInt64) : TraceEvent :=
  ⟨ts, .paramTuned, paramId, subjectId, 0, old <<< 32 ||| new &&& 0xFFFFFFFF⟩

/-- The two numbers that `print_event` takes out of `extra`. -/
def pairOf (ev : TraceEvent) : Option (Nat × Nat) :=
  match ev.kind with
  | .priorityBoost => some ((ev.extra >>> 32).toUInt8.toNat, ev.extra.toUInt8.toNat)
  | .decayWarning => some ((ev.extra >>> 16).toUInt32.toNat, (ev.extra &&& 0xFFFF).toUInt32.toNat)
  | .paramTuned => some ((ev.extra >>> 32).toUInt32.toNat, ev.extra.toUInt32.toNat)
  | _ => none

theorem toNat_pack {hi lo k : UInt64} (hk : k.toNat < 64) (hlo : lo.toNat < 2 ^ k.toNat)
    (hhi : hi.toNat * 2 ^ k.toNat < 2 ^ 64) : (hi <<< k ||| lo).toNat = hi.toNat * 2 ^ k.toNat + lo.toNat := by
  rw [UInt64.toNat_or, UInt64.toNat_shiftLeft, Nat.mod_eq_of_lt hk, Nat.shiftLeft_eq, Nat.mod_eq_of_lt hhi,
    ← Nat.shiftLeft_eq, ← Nat.shiftLeft_add_eq_or_of_lt hlo, Nat.shiftLeft_eq]

theorem toNat_shiftRight {x k : UInt64} (hk : k.toNat < 64) : (x >>> k).toNat = x.toNat / 2 ^ k.toNat := by
  rw [UInt64.toNat_shiftRight, Nat.mod_eq_of_lt hk, Nat.shiftRight_eq_div_pow]

/-- Priorities are printed as they were. -/
theorem pairOf_priorityBoost (pid : UInt32) (oldPri newPri : UInt8) :
    pairOf (priorityBoost ts pid oldPri newPri) = some (oldPri.toNat, newPri.toNat) := by
  have hold := oldPri.toNat_lt
  have hnew := newPri.toNat_lt
  have hpack : (oldPri.toUInt64 <<< 32 ||| newPri.toUInt64).toNat = oldPri.toNat * 2 ^ 32 + newPri.toNat :=
    toNat_pack (by decide) (show newPri.toNat < 2 ^ 32 by omega) (show oldPri.toNat * 2 ^ 32 < 2 ^ 64 by omega)
  refine congrArg some (Prod.ext ?_ ?_)
  · rw [UInt64.toNat_toUInt8, toNat_shiftRight (by decide)]
    simp only [priorityBoost, hpack, UInt64.reduceToNat]
    omega
  · change (oldPri.toUInt64 <<< 32 ||| newPri.toUInt64).toUInt8.toNat = newPri.toNat
    rw [UInt64.toNat_toUInt8, hpack]
    omega

/-- So are the counts of a warning, if the limit has 16 bits. -/
theorem pairOf_decayWarning (src dst cold : UInt32) {maxCold : UInt32} (hmax : maxCold.toNat < 2 ^ 16) :
    pairOf (decayWarning ts src dst cold maxCold) = some (cold.toNat, maxCold.toNat) := by
  have hcold := cold.toNat_lt
  have hpack : (cold.toUInt64 <<< 16 ||| maxCold.toUInt64).toNat = cold.toNat * 2 ^ 16 + maxCold.toNat :=
    toNat_pack (by decide) hmax (show cold.toNat * 2 ^ 16 < 2 ^ 64 by omega)
  refine congrArg some (Prod.ext ?_ ?_)
  · rw [UInt64.toNat_toUInt32, toNat_shiftRight (by decide)]
    simp only [decayWarning, hpack, UInt64.reduceToNat]
    omega
  · change ((cold.toUInt64 <<< 16 ||| maxCold.toUInt64) &&& 0xFFFF).toUInt32.toNat = maxCold.toNat
    rw [UInt64.toNat_toUInt32, UInt64.toNat_and, hpack, show UInt64.toNat 0xFFFF = 2 ^ 16 - 1 from rfl,
      Nat.and_two_pow_sub_one_eq_mod]
    omega

/-- And parameters, if they have 32 bits. -/
theorem pairOf_paramTuned (paramId subjectId : UInt32) {old new : UInt64} (hold : old.toNat < 2 ^ 32)
    (hnew : new.toNat < 2 ^ 32) : pairOf (paramTuned ts paramId subjectId old new) = some (old.toNat, new.toNat) := by
  have hmask : new &&& 0xFFFFFFFF = new := by
    rw [← UInt64.toNat_inj, UInt64.toNat_and]
    exact Nat.and_two_pow_sub_one_of_lt_two_pow hnew
  have hpack : (old <<< 32 ||| new).toNat = old.toNat * 2 ^ 32 + new.toNat :=
    toNat_pack (by decide) hnew (show old.toNat * 2 ^ 32 < 2 ^ 64 by omega)
  refine congrArg some (Prod.ext ?_ ?_)
  · rw [UInt64.toNat_toUInt32, toNat_shiftRight (by decide)]
    simp only [paramTuned, hmask, hpack, UInt64.reduceToNat]
    omega
  · change (old <<< 32 ||| new &&& 0xFFFFFFFF).toUInt32.toNat = new.toNat
    rw [hmask, UInt64.toNat_toUInt32, hpack]
    omega

end Events

/-! ## What a dump shows -/

/-- Whatever `DUMP_BUF` had, a dump shows the last events that were recorded,
as many as the ring has slots at most, in order, and says of the others how
many they are. -/
theorem dump_shows_newest (h : List TraceEvent) (dumpBuf : Table TraceEvent ringSize) :
    ((recorded h).dump dumpBuf).1.total = h.length ∧
    ((recorded h).dump dumpBuf).1.count = min h.length ringSize ∧
    ((recorded h).dump dumpBuf).1.events = h.drop (h.length - min h.length ringSize) ∧
    ((recorded h).dump dumpBuf).1.overwritten.getD 0 = h.length - min h.length ringSize := by
  have hholds : LastRing.Holds (recorded h) h :=
    LastRing.holds_foldl (by decide) TraceEvent.zero h
  refine ⟨hholds.total, hholds.count_eq, ?_, ?_⟩
  · change (LastRing.copyTo (recorded h) dumpBuf).1.take (LastRing.count (recorded h)) = _
    rw [hholds.take_copyTo, hholds.snapshot_eq, hholds.count_eq]
  · change (if ringSize < (recorded h).total then some ((recorded h).total - ringSize) else none).getD 0 = _
    rw [hholds.total]
    split
    · rw [Option.getD_some]
      omega
    · rw [Option.getD_none]
      omega

end TracerState

end ChodOs
