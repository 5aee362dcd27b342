/-
Loops whose body may fail. The invariant of a loop speaks of the part of
the list that has been done, or of the counter.
-/
import Mathlib.Data.List.Induction

namespace Loop

variable {σ α : Type} {f : σ → α → Option σ} {s s' : σ}

theorem foldlM_append {l l' : List α} :
    (l ++ l').foldlM f s = (l.foldlM f s).bind fun s => l'.foldlM f s := by
  rw [List.foldlM_append]
  rfl

/-- What one turn makes of the elements done so far holds of all of them at the end. -/
theorem invariant (I : List α → σ → Prop) {l : List α} (h : l.foldlM f s = some s') (h₀ : I [] s)
    (keep : ∀ {done x rest s s'}, l = done ++ x :: rest → I done s → f s x = some s' → I (done ++ [x]) s') :
    I l s' := by
  induction l using List.reverseRecOn generalizing s' with
  | nil => cases h; exact h₀
  | append_singleton l x ih =>
    rw [foldlM_append, Option.bind_eq_some_iff] at h
    obtain ⟨s₁, h₁, hx⟩ := h
    rw [List.foldlM_cons, Option.bind_eq_bind, Option.bind_eq_some_iff] at hx
    obtain ⟨s₂, hx, he⟩ := hx
    cases he
    refine keep rfl (ih h₁ fun {done y rest s s'} hl => ?_) hx
    exact @keep done y (rest ++ [x]) s s' (by rw [hl]; simp)

/-- The same for `for i in 0..n`. -/
theorem invariant_range {f : σ → Nat → Option σ} (I : Nat → σ → Prop) {n : Nat} (h : (List.range n).foldlM f s = some s')
    (h₀ : I 0 s) (keep : ∀ {i s s'}, i < n → I i s → f s i = some s' → I (i + 1) s') : I n s' := by
  induction n generalizing s' with
  | zero => cases h; exact h₀
  | succ n ih =>
    rw [List.range_succ, foldlM_append, Option.bind_eq_some_iff] at h
    obtain ⟨s₁, h₁, hx⟩ := h
    rw [List.foldlM_cons, Option.bind_eq_bind, Option.bind_eq_some_iff] at hx
    obtain ⟨s₂, hx, he⟩ := hx
    cases he
    exact keep (Nat.lt_succ_self n) (ih h₁ fun hi => keep (Nat.lt_succ_of_lt hi)) hx

/-- Two loops whose turns go side by side end side by side. -/
theorem simulation {τ : Type} {g : τ → α → Option τ} {t : τ} (R : σ → τ → Prop) {l : List α}
    (h : l.foldlM f s = some s') (h₀ : R s t)
    (keep : ∀ {x s s' t}, x ∈ l → R s t → f s x = some s' → ∃ t', g t x = some t' ∧ R s' t') :
    ∃ t', l.foldlM g t = some t' ∧ R s' t' := by
  induction l generalizing s t with
  | nil => cases h; exact ⟨t, rfl, h₀⟩
  | cons x l ih =>
    rw [List.foldlM_cons, Option.bind_eq_bind, Option.bind_eq_some_iff] at h
    obtain ⟨s₁, hx, hl⟩ := h
    obtain ⟨t₁, hx', h₁⟩ := keep List.mem_cons_self h₀ hx
    obtain ⟨t', hl', h'⟩ := ih hl h₁ fun hmem => keep (List.mem_cons_of_mem x hmem)
    refine ⟨t', ?_, h'⟩
    rw [List.foldlM_cons, hx', Option.bind_eq_bind, Option.bind_some, hl']

/-- A loop that ends has done every turn: there is a state before it and one
after it, from which the rest of the loop went on. -/
theorem reaches {l : List α} {x : α} (h : l.foldlM f s = some s') (hx : x ∈ l) :
    ∃ before rest s₁ s₂, l = before ++ x :: rest ∧ before.foldlM f s = some s₁ ∧ f s₁ x = some s₂ ∧
      rest.foldlM f s₂ = some s' := by
  obtain ⟨before, rest, rfl⟩ := List.append_of_mem hx
  rw [foldlM_append, Option.bind_eq_some_iff] at h
  obtain ⟨s₁, h₁, h⟩ := h
  rw [List.foldlM_cons, Option.bind_eq_bind, Option.bind_eq_some_iff] at h
  obtain ⟨s₂, h₂, h₃⟩ := h
  exact ⟨before, rest, s₁, s₂, rfl, h₁, h₂, h₃⟩

/-- A list whose elements are all read. -/
theorem mapM_eq_map {β : Type} {g : β → Option α} {k : β → α} {l : List β} (h : ∀ x ∈ l, g x = some (k x)) :
    l.mapM g = some (l.map k) := by
  induction l with
  | nil => rfl
  | cons x l ih =>
    rw [List.mapM_cons, h x List.mem_cons_self, ih fun y hy => h y (List.mem_cons_of_mem _ hy)]
    rfl

/-- Whatever is read of a list is read of each element. -/
theorem mapM_mem {β : Type} {g : β → Option α} {l : List β} {ys : List α} (h : l.mapM g = some ys) {x : β} (hx : x ∈ l) :
    ∃ y ∈ ys, g x = some y := by
  induction l generalizing ys with
  | nil => cases hx
  | cons z l ih =>
    rw [List.mapM_cons, Option.bind_eq_bind, Option.bind_eq_some_iff] at h
    obtain ⟨y, hy, h⟩ := h
    obtain ⟨zs, hzs, he⟩ := Option.bind_eq_some_iff.mp h
    cases he
    rcases List.mem_cons.mp hx with rfl | hx
    · exact ⟨y, List.mem_cons_self, hy⟩
    · obtain ⟨y', hy', hg⟩ := ih hzs hx
      exact ⟨y', List.mem_cons_of_mem _ hy', hg⟩

/-- A loop over lists that are read on the way is a loop over all that they hold. -/
theorem of_mapM {β : Type} {g : β → Option (List α)} {l : List β}
    (h : l.foldlM (fun s x => (g x).bind fun xs => xs.foldlM f s) s = some s') :
    ∃ ls, l.mapM g = some ls ∧ ls.flatten.foldlM f s = some s' := by
  induction l generalizing s with
  | nil => exact ⟨[], rfl, h⟩
  | cons x l ih =>
    rw [List.foldlM_cons, Option.bind_eq_bind, Option.bind_eq_some_iff] at h
    obtain ⟨s₁, hx, hl⟩ := h
    obtain ⟨xs, hxs, hx⟩ := Option.bind_eq_some_iff.mp hx
    obtain ⟨ls, hls, hrest⟩ := ih hl
    refine ⟨xs :: ls, ?_, ?_⟩
    · rw [List.mapM_cons, hxs, hls]
      rfl
    · rw [List.flatten_cons, foldlM_append, hx]
      exact hrest

/-- Where each turn gives what another loop's gives, mapped, so does the whole. -/
theorem filterMapM_map {β : Type} {f g : α → Option (Option β)} {k : β → β} {l : List α} {bs : List β}
    (h : l.filterMapM f = some bs) (turn : ∀ x b, f x = some b → ∃ c, g x = some c ∧ b = c.map k) :
    ∃ cs, l.filterMapM g = some cs ∧ bs = cs.map k := by
  induction l generalizing bs with
  | nil =>
    cases h
    exact ⟨[], rfl, rfl⟩
  | cons x l ih =>
    rw [List.filterMapM_cons, Option.bind_eq_bind, Option.bind_eq_some_iff] at h
    obtain ⟨b, hx, h⟩ := h
    obtain ⟨c, hgx, rfl⟩ := turn x b hx
    rw [List.filterMapM_cons, hgx, Option.bind_eq_bind, Option.bind_some]
    cases c with
    | none => exact ih h
    | some c =>
      obtain ⟨bs, hl, he⟩ := Option.bind_eq_some_iff.mp h
      cases he
      obtain ⟨cs, hcs, rfl⟩ := ih hl
      exact ⟨c :: cs, by simp [hcs], rfl⟩

end Loop
