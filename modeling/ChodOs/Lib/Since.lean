/-
Histories: something happened, and nothing of another kind has happened since;
and when something that holds at the end began.
-/
import Mathlib.Data.List.Induction

namespace History

variable {ε : Type} {p q : ε → Prop} {h : List ε} {e : ε}

/-- An event of `h` meets `p`, and none after it meets `q`. -/
def Since (p q : ε → Prop) (h : List ε) : Prop := ∃ h₁ e h₂, h = h₁ ++ e :: h₂ ∧ p e ∧ ∀ e' ∈ h₂, ¬ q e'

@[simp] theorem since_nil : ¬ Since p q [] := by
  intro h
  obtain ⟨h₁, e, h₂, heq, -⟩ := h
  simp at heq

/-- One more event starts the matter, or leaves it as it was. -/
theorem since_concat : Since p q (h ++ [e]) ↔ p e ∨ Since p q h ∧ ¬ q e := by
  constructor
  · intro ⟨h₁, a, h₂, heq, hp, hq⟩
    rcases List.eq_nil_or_concat h₂ with rfl | ⟨l, b, rfl⟩
    · obtain ⟨-, hae⟩ := List.append_inj' heq rfl
      cases hae
      exact .inl hp
    · rw [List.concat_eq_append] at heq hq
      rw [← List.cons_append, ← List.append_assoc] at heq
      obtain ⟨hh, hbe⟩ := List.append_inj' heq rfl
      cases hbe
      refine .inr ⟨⟨h₁, a, l, hh, hp, fun e' he' => ?_⟩, ?_⟩
      · exact hq e' (List.mem_append_left _ he')
      · exact hq _ (by simp)
  · intro h
    rcases h with hp | ⟨⟨h₁, a, h₂, rfl, hp, hq⟩, he⟩
    · exact ⟨h, e, [], rfl, hp, by simp⟩
    · refine ⟨h₁, a, h₂ ++ [e], by simp, hp, fun e' he' => ?_⟩
      rcases List.mem_append.mp he' with he' | he'
      · exact hq e' he'
      · rw [List.mem_singleton.mp he']
        exact he

/-- The matter as it stands after each event in turn. -/
theorem since_iff_foldl [DecidablePred p] [DecidablePred q] :
    Since p q h ↔ h.foldl (fun b e => decide (p e) || b && !decide (q e)) false = true := by
  induction h using List.reverseRecOn with
  | nil => simp
  | append_singleton h e ih => simp [since_concat, ih, List.foldl_append]

instance [DecidablePred p] [DecidablePred q] : Decidable (Since p q h) := decidable_of_iff _ since_iff_foldl.symm

theorem Since.exists_mem (hs : Since p q h) : ∃ e ∈ h, p e := by
  obtain ⟨h₁, e, h₂, rfl, hp, -⟩ := hs
  exact ⟨e, by simp, hp⟩

/-! ## When something began -/

/-- `P` does not hold after the first `i` events, and holds after each one since. -/
structure BeganAt (P : List ε → Prop) (h : List ε) (i : Nat) : Prop where
  lt : i < h.length
  before : ¬ P (h.take i)
  since : ∀ j, i < j → j ≤ h.length → P (h.take j)

variable {P : List ε → Prop} {i j : Nat}

theorem BeganAt.holds (hb : BeganAt P h i) : P h := by
  have hend := hb.since h.length hb.lt (Nat.le_refl _)
  rwa [List.take_length] at hend

theorem BeganAt.unique (hi : BeganAt P h i) (hj : BeganAt P h j) : i = j := by
  rcases Nat.lt_trichotomy i j with hlt | heq | hlt
  · exact absurd (hi.since j hlt (Nat.le_of_lt hj.lt)) hj.before
  · exact heq
  · exact absurd (hj.since i hlt (Nat.le_of_lt hi.lt)) hi.before

/-- It goes on. -/
theorem BeganAt.concat (hb : BeganAt P h i) (he : P (h ++ [e])) : BeganAt P (h ++ [e]) i := by
  have hlen : (h ++ [e]).length = h.length + 1 := List.length_append
  refine ⟨by have := hb.lt; omega, ?_, fun j hj hle => ?_⟩
  · rw [List.take_append_of_le_length (Nat.le_of_lt hb.lt)]
    exact hb.before
  · by_cases hjh : j ≤ h.length
    · rw [List.take_append_of_le_length hjh]
      exact hb.since j hj hjh
    · rwa [List.take_of_length_le (by omega)]

/-- It begins. -/
theorem beganAt_concat (hno : ¬ P h) (he : P (h ++ [e])) : BeganAt P (h ++ [e]) h.length := by
  have hlen : (h ++ [e]).length = h.length + 1 := List.length_append
  refine ⟨by omega, ?_, fun j hj hle => ?_⟩
  · rwa [List.take_append_of_le_length (Nat.le_refl _), List.take_length]
  · rwa [List.take_of_length_le (by omega)]

end History
