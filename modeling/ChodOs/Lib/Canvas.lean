/-
Memories that lists of writes go to, in order: what a place has afterwards.
-/
import Mathlib.Logic.Function.Basic
import Mathlib.Data.List.Induction
import Mathlib.Data.List.Nodup

namespace Canvas

variable {ι γ : Type} [DecidableEq ι]

def paint (m : ι → γ) (ws : List (ι × γ)) : ι → γ := ws.foldl (fun m w => Function.update m w.1 w.2) m

variable {m m' : ι → γ} {ws ws' : List (ι × γ)} {q : ι} {c : γ}

theorem paint_append (m : ι → γ) (ws ws' : List (ι × γ)) : paint m (ws ++ ws') = paint (paint m ws) ws' :=
  List.foldl_append

theorem paint_concat (m : ι → γ) (ws : List (ι × γ)) (w : ι × γ) (q : ι) :
    paint m (ws ++ [w]) q = if q = w.1 then w.2 else paint m ws q := by
  rw [paint_append]
  exact Function.update_apply _ _ _ _

/-- A place that nothing is written to. -/
theorem paint_of_not_mem (h : q ∉ ws.map (·.1)) : paint m ws q = m q := by
  induction ws generalizing m with
  | nil => rfl
  | cons w ws ih =>
    rw [List.map_cons, List.mem_cons, not_or] at h
    exact (ih h.2).trans (Function.update_of_ne h.1 w.2 m)

/-- A place that is written to has what is written there, whatever it had. -/
theorem paint_congr (h : q ∈ ws.map (·.1)) : paint m ws q = paint m' ws q := by
  induction ws using List.reverseRecOn with
  | nil => cases h
  | append_singleton ws w ih =>
    rw [paint_concat, paint_concat]
    split
    · rfl
    · next hq =>
      rw [List.map_append, List.mem_append, List.map_singleton, List.mem_singleton] at h
      exact ih (h.resolve_right hq)

/-- Writes that agree on a place leave there what each of them writes. -/
theorem paint_of_mem (h : (q, c) ∈ ws) (hone : ∀ c', (q, c') ∈ ws → c' = c) : paint m ws q = c := by
  induction ws using List.reverseRecOn with
  | nil => cases h
  | append_singleton ws w ih =>
    rw [paint_concat]
    split
    · next hq =>
      subst hq
      exact hone w.2 (List.mem_append_right _ (List.mem_singleton_self _))
    · next hq =>
      refine ih ((List.mem_append.mp h).resolve_right fun hw => hq ?_) fun c' hc' => hone c' (List.mem_append_left _ hc')
      exact congrArg Prod.fst (List.mem_singleton.mp hw)

/-- What a loop writes for each of the elements that have a place, no two the same. -/
theorem paint_filterMap {α : Type} {l : List α} {place : α → Option ι} {colour : α → γ} {a : α}
    (hinj : ∀ a ∈ l, ∀ b ∈ l, ∀ q, place a = some q → place b = some q → a = b) (ha : a ∈ l) (hq : place a = some q) :
    paint m (l.filterMap fun a => (place a).map (·, colour a)) q = colour a := by
  refine paint_of_mem (List.mem_filterMap.mpr ⟨a, ha, by rw [hq, Option.map_some]⟩) fun c' hc' => ?_
  obtain ⟨b, hb, hmap⟩ := List.mem_filterMap.mp hc'
  obtain ⟨q', hq', heq⟩ := Option.map_eq_some_iff.mp hmap
  obtain ⟨rfl, rfl⟩ := Prod.mk.inj heq
  rw [hinj a ha b hb q' hq hq']

theorem paint_filterMap_of_not {α : Type} {l : List α} {place : α → Option ι} {colour : α → γ}
    (hno : ∀ a ∈ l, place a ≠ some q) : paint m (l.filterMap fun a => (place a).map (·, colour a)) q = m q := by
  refine paint_of_not_mem fun h => ?_
  obtain ⟨w, hw, rfl⟩ := List.mem_map.mp h
  obtain ⟨a, ha, hmap⟩ := List.mem_filterMap.mp hw
  obtain ⟨q', hq', rfl⟩ := Option.map_eq_some_iff.mp hmap
  exact hno a ha hq'

end Canvas
