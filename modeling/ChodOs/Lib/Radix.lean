/-
Radix trees of tables: an entry of a table may point to a further table,
and a path of indices leads from the root to a table. Two facts carry
everything: what is read on the way to a table decides where the path
leads, and a new table can be hung under one entry without moving any
other path.
-/
import Mathlib.Data.List.Induction

namespace Radix

variable {τ ι ε : Type} (child : ε → Option τ)

/-- The table a path leads to from the table `r`. -/
def node (E : τ → ι → ε) (r : τ) : List ι → Option τ
  | [] => some r
  | i :: p => (child (E r i)).bind fun t => node E t p

variable {child} {E E' : τ → ι → ε} {r t u : τ} {p q : List ι} {i : ι}

theorem node_snoc : node child E r (p ++ [i]) = (node child E r p).bind fun t => child (E t i) := by
  induction p generalizing r with
  | nil =>
    simp only [List.nil_append, node, Option.bind_some]
    cases child (E r i) <;> rfl
  | cons j p ih =>
    simp only [List.cons_append, node]
    cases child (E r j) with
    | none => rfl
    | some t => exact ih

variable (child) in
/-- Different paths of `I` lead to different tables. -/
def Tree (I : List ι → Prop) (E : τ → ι → ε) (r : τ) : Prop :=
  ∀ p q t, I p → I q → node child E r p = some t → node child E r q = some t → p = q

section

variable {I : List ι → Prop} (hI : ∀ {p i}, I (p ++ [i]) → I p)

include hI in
/-- Where a path leads is decided by the entries read on the way. -/
theorem node_congr (h : ∀ p i t, I (p ++ [i]) → node child E r p = some t → E' t i = E t i) (hq : I q) :
    node child E' r q = node child E r q := by
  induction q using List.reverseRecOn with
  | nil => rfl
  | append_singleton q j ih =>
    rw [node_snoc, node_snoc, ih (hI hq)]
    cases hn : node child E r q with
    | none => rfl
    | some t => rw [Option.bind_some, Option.bind_some, h q j t hq hn]

include hI in
/-- What hangs under an index is the same under any root with the same entry there. -/
theorem node_regraft {r' : τ} (htop : E' r' i = E r i)
    (h : ∀ p j t, I (i :: p ++ [j]) → node child E r (i :: p) = some t → E' t j = E t j) (hq : I (i :: q)) :
    node child E' r' (i :: q) = node child E r (i :: q) := by
  induction q using List.reverseRecOn with
  | nil => rw [node, node, htop]; rfl
  | append_singleton q j ih =>
    rw [← List.cons_append, node_snoc, node_snoc, ih (hI hq)]
    cases hn : node child E r (i :: q) with
    | none => rfl
    | some t => rw [Option.bind_some, Option.bind_some, h q j t hq hn]

include hI in
/-- A table `u` is hung under the entry `i` of the table at the end of `p`. -/
theorem node_hang (ht : node child E r p = some t) (hold : child (E t i) = none) (hset : child (E' t i) = some u)
    (hnew : ∀ j, I (p ++ [i] ++ [j]) → child (E' u j) = none)
    (hrest : ∀ q j v, I (q ++ [j]) → node child E r q = some v → ¬(q = p ∧ j = i) → E' v j = E v j) [DecidableEq ι]
    (hq : I q) : node child E' r q = if q = p ++ [i] then some u else node child E r q := by
  induction q using List.reverseRecOn with
  | nil => rw [if_neg (by simp)]; rfl
  | append_singleton q j ih =>
    rw [node_snoc, node_snoc, ih (hI hq)]
    by_cases hqp : q = p ++ [i]
    · -- Below the new table there is nothing, and there was nothing.
      subst hqp
      have hlong : ¬p ++ [i] ++ [j] = p ++ [i] := fun he => by simpa using congrArg List.length he
      rw [if_pos rfl, if_neg hlong, Option.bind_some, hnew j hq, node_snoc, ht, Option.bind_some, hold]
      rfl
    · rw [if_neg hqp]
      by_cases hqi : q = p ∧ j = i
      · obtain ⟨rfl, rfl⟩ := hqi
        rw [if_pos rfl, ht, Option.bind_some, hset]
      · have hne : ¬q ++ [j] = p ++ [i] := by
          intro he
          have hj := List.append_inj' he rfl
          exact hqi ⟨hj.1, by simpa using hj.2⟩
        rw [if_neg hne]
        cases hn : node child E r q with
        | none => rfl
        | some v => rw [Option.bind_some, Option.bind_some, hrest q j v hq hn hqi]

/-- A tree stays one when a table that is not in it is hung into it. -/
theorem Tree.hang [DecidableEq ι] (h : Tree child I E r) (hu : ∀ q, I q → node child E r q ≠ some u)
    (hnode : ∀ q, I q → node child E' r q = if q = p then some u else node child E r q) : Tree child I E' r := by
  intro q q' v hq hq' hv hv'
  rw [hnode q hq] at hv
  rw [hnode q' hq'] at hv'
  split at hv
  · next he =>
    cases hv
    split at hv'
    · next he' => rw [he, he']
    · exact absurd hv' (hu q' hq')
  · split at hv'
    · cases hv'
      exact absurd hv (hu q hq)
    · exact h q q' v hq hq' hv hv'

theorem Tree.congr (h : Tree child I E r) (hnode : ∀ q, I q → node child E' r q = node child E r q) :
    Tree child I E' r := by
  intro q q' v hq hq' hv hv'
  rw [hnode q hq] at hv
  rw [hnode q' hq'] at hv'
  exact h q q' v hq hq' hv hv'

end

end Radix
