/-
Core affinity (`smp.rs`): the map from a process to the core it is pinned to.
-/
import ChodOs.Process

namespace ChodOs

/-- `AFFINITY`. -/
abbrev Affinity := Std.ExtTreeMap Pid Nat

namespace Affinity

/-- `least_loaded_cpu`: the source returns 0 for now. -/
def leastLoadedCpu : Nat := 0

/-- The core `pin_pair` picks: one side's if it has one. -/
def pairCpu (a : Affinity) (src dst : Pid) : Nat := (a[src]?).getD ((a[dst]?).getD leastLoadedCpu)

/-- `pin_pair`. -/
def pinPair (a : Affinity) (src dst : Pid) : Affinity :=
  let target := a.pairCpu src dst
  if a[src]? = some target ∧ a[dst]? = some target then a
  else (a.insert src target).insert dst target

/-- `unpin`. -/
def unpin (a : Affinity) (pid : Pid) : Affinity := a.erase pid

end Affinity

end ChodOs
