/-
The learned parts of the policy engine (`policy/mod.rs`): the compiled
decision trees (ML 2), the Q-table with its update, reward and
epsilon-greedy choice (ML 3), and the ladders the self-tuning steps walk.

Q-values are `i32` in the source and stay far below its range; division
truncates as Rust's does. Array indices are `Nat`; an index past the end
would stop the kernel, and the model reads a default there.
-/
import ChodOs.Process

namespace ChodOs

/-- The actions of ML 3, in the order of the Q-table's columns. -/
inductive RlAction
  | noop | encourage | discourage | pinPush
  deriving DecidableEq, Repr

/-- The column of an action number. -/
def RlAction.ofIdx : Nat → RlAction
  | 0 => .noop
  | 1 => .encourage
  | 2 => .discourage
  | _ => .pinPush

def ml2HotThreshold : Int := 300
def rlThresholdDelta : Int := 80

/-- `ml2_gbdt`: the sum of four trees' leaf scores. -/
def ml2Gbdt (fAlpha fBeta fRate fCold fTrend : Int) : Int :=
  let t1 : Int :=
    if 10 ≤ fAlpha then if fCold = 0 then 200 else if 20 ≤ fAlpha then 140 else 80
    else if 20 ≤ fRate then if 5 ≤ fAlpha then 60 else 20
    else 0
  let t2 : Int :=
    if 15 ≤ fRate then if 6 ≤ fAlpha then 160 else if fTrend = 1 then 80 else 30
    else if 8 ≤ fAlpha then 60
    else 0
  let t3 : Int :=
    if 2 ≤ fCold then -80
    else if 1 ≤ fCold then if 12 ≤ fAlpha then 40 else -20
    else if 30 ≤ fRate then 120
    else 40
  let t4 : Int :=
    if fBeta ≤ 5 then if 8 ≤ fAlpha then 100 else 30
    else if 25 ≤ fAlpha then 50
    else if 10 ≤ fBeta then -40
    else -10
  t1 + t2 + t3 + t4

/-- The truncating division of the fixed-point formulas. -/
theorem tdiv_ten (x : Int) : x.tdiv 10 = if 0 ≤ x then x / 10 else -(-x / 10) := by
  split
  · next h => exact Int.tdiv_eq_ediv_of_nonneg h
  · next h => rw [← Int.tdiv_eq_ediv_of_nonneg (by omega : 0 ≤ -x), Int.neg_tdiv, Int.neg_neg]

/-! ## Q-learning -/

/-- The Q-table, a row for each of the 36 states. -/
abbrev QTable := Nat → RlAction → Int

/-- `rl_state_idx`: four buckets of alpha, three of the rate, three of the cold count. -/
def rlStateIdx (fAlpha fRate fCold : Nat) : Nat :=
  let ab := if 25 ≤ fAlpha then 3 else if 10 ≤ fAlpha then 2 else if 3 ≤ fAlpha then 1 else 0
  let rb := if 21 ≤ fRate then 2 else if 6 ≤ fRate then 1 else 0
  let cb := if 2 ≤ fCold then 2 else fCold
  ab * 9 + rb * 3 + cb

/-- The greatest value of a row. -/
def rowMax (row : RlAction → Int) : Int := max (max (max (row .noop) (row .encourage)) (row .discourage)) (row .pinPush)

/-- `rl_update_q`: one Bellman step, learning rate 1/10 and discount 9/10. -/
def rlUpdateQ (q : QTable) (s : Nat) (a : RlAction) (reward : Int) (nextS : Nat) : QTable :=
  let tdTarget := reward * 100 + (9 * rowMax (q nextS)).tdiv 10
  let tdError := tdTarget - q s a
  Function.update q s (Function.update (q s) a (q s a + tdError.tdiv 10))

/-- One turn of the xorshift64 generator. -/
def xorshift (x : UInt64) : UInt64 :=
  let x := x ^^^ (x <<< 13)
  let x := x ^^^ (x >>> 7)
  x ^^^ (x <<< 17)

/-- The first action of greatest value. -/
def rlGreedy (row : RlAction → Int) : RlAction :=
  let best := if row .encourage > row .noop then RlAction.encourage else .noop
  let best := if row .discourage > row best then .discourage else best
  if row .pinPush > row best then .pinPush else best

/-- `rl_select_action`: explore with `epsilonPct` percent, else take the best. -/
def rlSelectAction (row : RlAction → Int) (epsilonPct : Nat) (rng : UInt64) : RlAction × UInt64 :=
  let x := xorshift (if rng = 0 then 0xdeadbeefcafe else rng)
  if (x % 100).toNat < epsilonPct then
    let x := xorshift x
    (.ofIdx (x % 4).toNat, x)
  else (rlGreedy row, x)

/-- `rl_compute_reward` for a window with at least the decay threshold of messages. -/
def rlComputeReward (action : RlAction) (delta prevDelta : Nat) (channelExists : Bool) : Int :=
  let growing := 20 ≤ delta
  if growing ∧ prevDelta < 5 ∧ 50 ≤ delta then
    match action with
    | .discourage => 10
    | .noop => -3
    | .encourage | .pinPush => -8
  else
    match action with
    | .encourage | .pinPush => if growing then if channelExists then 12 else 8 else 2
    | .noop => if growing then if channelExists then 5 else 3 else 1
    | .discourage => if growing then -2 else 0

/-! ## Ladders -/

/-- The hysteresis of the self-tuning steps: one rung towards the target. -/
def ladderStep (target cur : Nat) : Nat :=
  if cur < target then cur + 1 else if target < cur then cur - 1 else cur

/-- The moving average of the engine's signals: `num` tenths of the new value. -/
def ema (num new old : Nat) : Nat := (num * new + (10 - num) * old) / 10

/-- At most one rung apart. -/
def Near (a b : Nat) : Prop := a ≤ b + 1 ∧ b ≤ a + 1

theorem Near.refl (a : Nat) : Near a a := ⟨Nat.le_succ a, Nat.le_succ a⟩

theorem ladderStep_near (target cur : Nat) : Near cur (ladderStep target cur) := by
  unfold ladderStep Near
  split
  · omega
  · split <;> omega

theorem ladderStep_le {target cur top : Nat} (ht : target ≤ top) (hc : cur ≤ top) : ladderStep target cur ≤ top := by
  unfold ladderStep
  split
  · omega
  · split <;> omega

/-- An average stays below what bounds both values. -/
theorem ema_le {num new old b : Nat} (hnum : num ≤ 10) (hnew : new ≤ b) (hold : old ≤ b) : ema num new old ≤ b := by
  unfold ema
  have h₁ : num * new ≤ num * b := Nat.mul_le_mul_left num hnew
  have h₂ : (10 - num) * old ≤ (10 - num) * b := Nat.mul_le_mul_left (10 - num) hold
  have h₃ : num * b + (10 - num) * b = 10 * b := by rw [← Nat.add_mul]; congr 1; omega
  omega

end ChodOs
