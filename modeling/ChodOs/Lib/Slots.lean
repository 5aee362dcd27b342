/-
Fixed-size tables of slots, as kernels keep them: find the slot of a key,
else take a vacant one, else give up the slot that ranks lowest.

`bestIdx` is the usual scan (`best = 0; for i in 1.. { if better(i, best) ..
}`): the first slot no later one beats. `mapAccum` is a loop over a table
that rewrites each slot and threads a state.
-/
import Mathlib.Algebra.Ring.Nat
import Mathlib.Data.List.Basic
import Mathlib.Data.List.Forall2
import Mathlib.Data.List.Perm.Basic
import Mathlib.Order.Lattice

namespace Slots

variable {α β σ : Type}

/-- Two passes over a list, one after the other. -/
theorem forall₂_comp {γ : Type} {R : α → β → Prop} {S : β → γ → Prop} {T : α → γ → Prop} {l₁ : List α} {l₂ : List β}
    {l₃ : List γ} (h : List.Forall₂ R l₁ l₂) (h' : List.Forall₂ S l₂ l₃) (ht : ∀ {a b c}, R a b → S b c → T a c) :
    List.Forall₂ T l₁ l₃ := by
  induction h generalizing l₃ with
  | nil => cases h'; exact .nil
  | cons hr _ ih =>
    cases h' with
    | cons hr' h' => exact .cons (ht hr hr') (ih h')

theorem forall₂_trans {R : α → α → Prop} (ht : ∀ {a b c}, R a b → R b c → R a c) {l₁ l₂ l₃ : List α}
    (h : List.Forall₂ R l₁ l₂) (h' : List.Forall₂ R l₂ l₃) : List.Forall₂ R l₁ l₃ := forall₂_comp h h' ht

theorem forall₂_mem_right {R : α → β → Prop} {l : List α} {l' : List β} (h : List.Forall₂ R l l') {b : β}
    (hb : b ∈ l') : ∃ a ∈ l, R a b := by
  induction h with
  | nil => cases hb
  | cons hr _ ih =>
    rcases List.mem_cons.mp hb with rfl | hb
    · exact ⟨_, List.mem_cons_self, hr⟩
    · obtain ⟨a, ha, hr⟩ := ih hb; exact ⟨a, List.mem_cons_of_mem _ ha, hr⟩

/-- Writing a slot loses no more than what was in it. -/
theorem mem_set_of_ne {l : List α} {i : Nat} {a v : α} (x : α) (hi : l[i]? = some a) (hv : v ∈ l) (hne : v ≠ a) :
    v ∈ l.set i x := by
  obtain ⟨j, hj⟩ := List.mem_iff_getElem?.mp hv
  have hij : i ≠ j := by
    intro h
    obtain rfl := h
    rw [hi] at hj
    exact hne (Option.some.inj hj).symm
  exact List.mem_of_getElem? ((List.getElem?_set_ne hij).trans hj)

/-! ## The first slot a test picks -/

/-- Rewrite the first element the test picks. -/
def updateFirst (p : α → Bool) (f : α → α) : List α → List α
  | [] => []
  | a :: l => if p a then f a :: l else a :: updateFirst p f l

@[simp] theorem length_updateFirst (p : α → Bool) (f : α → α) (l : List α) :
    (updateFirst p f l).length = l.length := by
  induction l with
  | nil => rfl
  | cons a l ih => simp only [updateFirst]; split <;> simp [ih]

theorem updateFirst_congr {p : α → Bool} {f g : α → α} (h : ∀ a, p a = true → f a = g a) {l : List α} :
    updateFirst p f l = updateFirst p g l := by
  induction l with
  | nil => rfl
  | cons a l ih =>
    simp only [updateFirst, ih]
    split
    · next ha => rw [h a ha]
    · rfl

/-- A projection the rewriting leaves alone. -/
theorem map_updateFirst {p : α → Bool} {f : α → α} {g : α → β} (h : ∀ a, p a = true → g (f a) = g a)
    (l : List α) : (updateFirst p f l).map g = l.map g := by
  induction l with
  | nil => rfl
  | cons a l ih =>
    simp only [updateFirst]
    split
    · next ha => simp [h a ha]
    · simp [ih]

theorem map_modify {f : α → α} {g : α → β} (h : ∀ a, g (f a) = g a) (i : Nat) (l : List α) :
    (l.modify i f).map g = l.map g := by
  refine List.ext_getElem? fun j => ?_
  simp only [List.getElem?_map, List.getElem?_modify]
  cases l[j]? with
  | none => rfl
  | some a => simp only [Option.map_eq_map, Option.map_some]; split <;> simp [h]

/-- Rewriting what is already so does nothing. -/
theorem updateFirst_of_find {p : α → Bool} {f : α → α} {l : List α} (h : ∀ a, l.find? p = some a → f a = a) :
    updateFirst p f l = l := by
  induction l with
  | nil => rfl
  | cons a l ih =>
    simp only [updateFirst]
    split
    · next ha => rw [h a (by simp [ha])]
    · next ha => rw [ih fun b hb => h b (by simpa [List.find?_cons, ha] using hb)]

theorem mem_updateFirst {p : α → Bool} {f : α → α} {l : List α} {x : α} (h : x ∈ updateFirst p f l) :
    x ∈ l ∨ ∃ a ∈ l, p a = true ∧ x = f a := by
  induction l with
  | nil => simp [updateFirst] at h
  | cons a l ih =>
    simp only [updateFirst] at h
    split at h
    · next ha =>
      rcases List.mem_cons.mp h with rfl | h
      · exact .inr ⟨a, by simp, ha, rfl⟩
      · exact .inl (by simp [h])
    · rcases List.mem_cons.mp h with rfl | h
      · exact .inl (by simp)
      · rcases ih h with h | ⟨b, hb, hp, rfl⟩
        · exact .inl (by simp [h])
        · exact .inr ⟨b, by simp [hb], hp, rfl⟩

/-- At most one slot is written. -/
theorem updateFirst_eq_set (p : α → Bool) (f : α → α) (l : List α) :
    ((∀ a ∈ l, p a = false) ∧ updateFirst p f l = l) ∨
      ∃ i a, l[i]? = some a ∧ p a = true ∧ updateFirst p f l = l.set i (f a) := by
  induction l with
  | nil => exact .inl ⟨nofun, rfl⟩
  | cons a l ih =>
    simp only [updateFirst]
    split
    · next ha => exact .inr ⟨0, a, rfl, ha, rfl⟩
    · next ha =>
      rcases ih with ⟨hno, h⟩ | ⟨i, b, hi, hb, h⟩
      · refine .inl ⟨fun b hb => ?_, by rw [h]⟩
        rcases List.mem_cons.mp hb with rfl | hb
        · simpa using ha
        · exact hno b hb
      · rw [h]; exact .inr ⟨i + 1, b, hi, hb, rfl⟩

/-- The slot that is written is the first one the test picks. -/
theorem updateFirst_eq_modify (p : α → Bool) (f : α → α) (l : List α) :
    updateFirst p f l = (l.findIdx? p).elim l fun i => l.modify i f := by
  induction l with
  | nil => rfl
  | cons a l ih =>
    simp only [updateFirst, List.findIdx?_cons]
    split
    · rfl
    · rw [ih]
      cases l.findIdx? p with
      | none => rfl
      | some i => rfl

/-- What the rewriting says of its slot, and nothing of the others. -/
theorem updateFirst_forall₂ {R : α → α → Prop} {p : α → Bool} {f : α → α} (hrefl : ∀ a, R a a)
    (h : ∀ a, p a = true → R a (f a)) (l : List α) : List.Forall₂ R l (updateFirst p f l) := by
  induction l with
  | nil => exact .nil
  | cons a l ih =>
    simp only [updateFirst]
    split
    · next ha => exact .cons (h a ha) (List.forall₂_same.mpr fun b _ => hrefl b)
    · exact .cons (hrefl a) ih

/-- A sum over the slots grows by no more than the written one does. -/
theorem sum_updateFirst_le {p : α → Bool} {f : α → α} {w : α → Nat} {n : Nat} {l : List α}
    (h : ∀ a ∈ l, p a = true → w (f a) ≤ w a + n) : ((updateFirst p f l).map w).sum ≤ (l.map w).sum + n := by
  induction l with
  | nil => exact Nat.zero_le _
  | cons a l ih =>
    simp only [updateFirst]
    split
    · next ha =>
      have hle := h a List.mem_cons_self ha
      simp only [List.map_cons, List.sum_cons]
      omega
    · have hle := ih fun b hb => h b (List.mem_cons_of_mem a hb)
      simp only [List.map_cons, List.sum_cons]
      omega

/-- What the test itself finds afterwards. -/
theorem find?_updateFirst_self {p : α → Bool} {f : α → α} (h : ∀ a, p a = true → p (f a) = true) (l : List α) :
    (updateFirst p f l).find? p = (l.find? p).map f := by
  induction l with
  | nil => rfl
  | cons a l ih =>
    simp only [updateFirst]
    split
    · next ha => simp [ha, h a ha]
    · next ha => simp [ha, ih]

/-- What a test finds that picks neither the element nor its new value. -/
theorem find?_updateFirst_other {p r : α → Bool} {f : α → α} (h : ∀ a, p a = true → r a = false ∧ r (f a) = false)
    (l : List α) : (updateFirst p f l).find? r = l.find? r := by
  induction l with
  | nil => rfl
  | cons a l ih =>
    simp only [updateFirst]
    split
    · next ha => simp [h a ha]
    · cases hr : r a <;> simp [hr, ih]

/-- Tests that agree on the list find the same. -/
theorem find?_congr {p r : α → Bool} {l : List α} (h : ∀ a ∈ l, p a = r a) : l.find? p = l.find? r := by
  induction l with
  | nil => rfl
  | cons a l ih =>
    simp only [List.find?_cons, h a (by simp)]
    rw [ih fun b hb => h b (by simp [hb])]

/-- A search meets the slots before `i`, then what is in slot `i`, then the slots behind it. -/
theorem find?_set {p : α → Bool} {l : List α} {i : Nat} (x : α) (hi : i < l.length) :
    (l.set i x).find? p = ((l.take i).find? p).or (((some x).filter p).or ((l.drop (i + 1)).find? p)) := by
  rw [List.set_eq_take_append_cons_drop, if_pos hi, List.find?_append, List.find?_cons]
  cases hx : p x <;> simp [Option.filter, hx]

/-- What a test finds in a list whose elements changed one by one, to the same result of the test. -/
theorem find?_forall₂ {R : α → α → Prop} {p : α → Bool} {l l' : List α} (h : List.Forall₂ R l l')
    (hp : ∀ a b, R a b → p b = p a) {b : α} (hb : l'.find? p = some b) : ∃ a, l.find? p = some a ∧ R a b := by
  induction h with
  | nil => cases hb
  | @cons a a' l l' hr _ ih =>
    simp only [List.find?_cons, hp a a' hr] at hb ⊢
    cases hpa : p a with
    | true => simp only [hpa, Option.some.injEq] at hb ⊢; subst hb; exact ⟨a, rfl, hr⟩
    | false => simp only [hpa] at hb; exact ih hb

/-- With distinct keys, the element at an index is the first one with its key. -/
theorem modify_eq_updateFirst {κ : Type} [DecidableEq κ] {key : α → κ} {f : α → α} {l : List α}
    (hn : (l.map key).Nodup) (i : Nat) (hi : i < l.length) :
    l.modify i f = updateFirst (fun a => key a == key (l.get ⟨i, hi⟩)) f l := by
  induction l generalizing i with
  | nil => simp at hi
  | cons a l ih =>
    obtain ⟨hna, hn⟩ := List.nodup_cons.mp hn
    cases i with
    | zero => simp [updateFirst]
    | succ i =>
      have hi' : i < l.length := by simpa using hi
      have hne : key a ≠ key (l.get ⟨i, hi'⟩) := fun he =>
        hna (by rw [he]; exact List.mem_map_of_mem (List.get_mem _ _))
      simp only [List.modify_succ_cons, updateFirst, List.get_eq_getElem, List.getElem_cons_succ] at hne ⊢
      rw [if_neg (by simpa using hne), ih hn i hi']
      rfl

/-! ## The first index a test picks -/

/-- The loop `for i in start..start + n { if p(i) { return Some(i) } } None`. -/
def firstUp (p : Nat → Bool) : Nat → Nat → Option Nat
  | 0, _ => none
  | n + 1, i => if p i then some i else firstUp p n (i + 1)

theorem firstUp_some {p : Nat → Bool} {n i j : Nat} (h : firstUp p n i = some j) : j < i + n ∧ p j = true := by
  induction n generalizing i with
  | zero => cases h
  | succ n ih =>
    simp only [firstUp] at h
    split at h
    · next hp => cases h; exact ⟨by omega, hp⟩
    · have := ih h; exact ⟨by omega, this.2⟩

theorem firstUp_none {p : Nat → Bool} {n i : Nat} (h : firstUp p n i = none) {j : Nat} (hi : i ≤ j)
    (hj : j < i + n) : p j = false := by
  induction n generalizing i with
  | zero => omega
  | succ n ih =>
    simp only [firstUp] at h
    split at h
    · cases h
    · next hp =>
      by_cases hij : i = j
      · subst hij; simpa using hp
      · exact ih h (by omega) (by omega)

/-- The loop stops at the first index that passes. -/
theorem firstUp_least {p : Nat → Bool} {n i j k : Nat} (h : firstUp p n i = some j) (hi : i ≤ k) (hk : k < j) :
    p k = false := by
  induction n generalizing i with
  | zero => cases h
  | succ n ih =>
    simp only [firstUp] at h
    split at h
    · cases h; omega
    · next hp =>
      by_cases hik : i = k
      · subst hik; simpa using hp
      · exact ih h (by omega)

/-! ## The best slot -/

/-- The scan from index `i`, the best so far being `b` at index `bi`. -/
def bestFrom (better : α → α → Bool) (b : α) (bi : Nat) : Nat → List α → Nat
  | _, [] => bi
  | i, x :: xs => if better x b then bestFrom better x i (i + 1) xs else bestFrom better b bi (i + 1) xs

/-- The index of the best element: the first that no other one beats. -/
def bestIdx (better : α → α → Bool) : List α → Nat
  | [] => 0
  | a :: l => bestFrom better a 0 1 l

theorem bestFrom_lt {better : α → α → Bool} {b : α} {bi i : Nat} {l : List α} (h : bi < i) :
    bestFrom better b bi i l < i + l.length := by
  induction l generalizing b bi i with
  | nil => simpa [bestFrom] using h
  | cons x xs ih =>
    simp only [bestFrom, List.length_cons]
    split
    · have := @ih x i (i + 1) (by omega); omega
    · have := @ih b bi (i + 1) (by omega); omega

theorem bestIdx_lt {better : α → α → Bool} {l : List α} (h : l ≠ []) : bestIdx better l < l.length := by
  cases l with
  | nil => exact absurd rfl h
  | cons a l =>
    have := @bestFrom_lt α better a 0 1 l (by omega)
    simp only [bestIdx, List.length_cons]; omega

section

/-! Where some elements beat every other one and are beaten by none, the
first of them is the best. -/

variable {better : α → α → Bool} {top : α → Prop} (hkeep : ∀ x b, top b → better x b = false)
  (hbeat : ∀ x b, top x → ¬top b → better x b = true)

include hkeep in
theorem bestFrom_of_top {b : α} (hb : top b) (bi i : Nat) (l : List α) : bestFrom better b bi i l = bi := by
  induction l generalizing i with
  | nil => rfl
  | cons x xs ih =>
    rw [bestFrom, hkeep x b hb, if_neg (by decide)]
    exact ih (i + 1)

include hkeep hbeat in
theorem bestFrom_top {b : α} {bi i k : Nat} {l : List α} {x : α} (hb : ¬top b) (hx : l[k]? = some x) (htop : top x) :
    ∃ j ≤ k, bestFrom better b bi i l = i + j ∧ ∃ y, l[j]? = some y ∧ top y := by
  induction l generalizing b bi i k with
  | nil => cases hx
  | cons a l ih =>
    by_cases ha : top a
    · refine ⟨0, Nat.zero_le _, ?_, a, rfl, ha⟩
      rw [bestFrom, if_pos (hbeat a b ha hb), bestFrom_of_top hkeep ha]
      rfl
    · -- The element looked for comes later, whichever of the two goes on.
      obtain ⟨k, rfl⟩ : ∃ k', k = k' + 1 := by
        refine ⟨k - 1, ?_⟩
        by_contra hk
        obtain rfl : k = 0 := by omega
        cases hx
        exact ha htop
      rw [bestFrom]
      split
      · obtain ⟨j, hj, he, y, hy, hty⟩ := @ih a i (i + 1) k ha hx
        exact ⟨j + 1, by omega, by rw [he]; omega, y, hy, hty⟩
      · obtain ⟨j, hj, he, y, hy, hty⟩ := @ih b bi (i + 1) k hb hx
        exact ⟨j + 1, by omega, by rw [he]; omega, y, hy, hty⟩

include hkeep hbeat in
theorem bestIdx_top {k : Nat} {l : List α} {x : α} (hx : l[k]? = some x) (htop : top x) :
    bestIdx better l ≤ k ∧ ∃ y, l[bestIdx better l]? = some y ∧ top y := by
  cases l with
  | nil => cases hx
  | cons a l =>
    by_cases ha : top a
    · rw [bestIdx, bestFrom_of_top hkeep ha]
      exact ⟨Nat.zero_le _, a, rfl, ha⟩
    · cases k with
      | zero => cases hx; exact absurd htop ha
      | succ k =>
        obtain ⟨j, hj, he, y, hy, hty⟩ := @bestFrom_top α better top hkeep hbeat a 0 1 k l x ha hx htop
        rw [bestIdx, he]
        exact ⟨by omega, y, by rw [Nat.add_comm]; exact hy, hty⟩

end

/-! Where better is greater in an order, the best is the first of the greatest. -/

section

variable {κ : Type} [LinearOrder κ] {better : α → α → Bool} {key : α → κ}
  (hbetter : ∀ x b, better x b = true ↔ key b < key x)

include hbetter in
theorem bestFrom_key {b : α} {bi i : Nat} {l : List α} (hi : bi < i) : ∃ y,
    (bestFrom better b bi i l = bi ∧ y = b ∨
      key b < key y ∧ ∃ j, bestFrom better b bi i l = i + j ∧ l[j]? = some y) ∧
    key b ≤ key y ∧ (∀ x ∈ l, key x ≤ key y) ∧
    ∀ j x, l[j]? = some x → i + j < bestFrom better b bi i l → key x < key y := by
  induction l generalizing b bi i with
  | nil => exact ⟨b, .inl ⟨rfl, rfl⟩, le_refl _, by simp, by simp⟩
  | cons x xs ih =>
    by_cases hx : better x b = true
    · have hlt := (hbetter x b).mp hx
      obtain ⟨y, hy, hle, hall, hbefore⟩ := @ih x i (i + 1) (Nat.lt_succ_self i)
      rw [bestFrom, if_pos hx]
      have hby := lt_of_lt_of_le hlt hle
      refine ⟨y, .inr ⟨hby, ?_⟩, le_of_lt hby, List.forall_mem_cons.mpr ⟨hle, hall⟩, ?_⟩
      · rcases hy with ⟨hr, rfl⟩ | ⟨-, j, hr, hj⟩
        · exact ⟨0, hr, rfl⟩
        · exact ⟨j + 1, by rw [hr]; omega, hj⟩
      · intro j z hz hj
        rcases hy with ⟨hr, -⟩ | ⟨hxy, -⟩
        · omega
        · cases j with
          | zero => cases hz; exact hxy
          | succ j => exact hbefore j z hz (by omega)
    · have hle : key x ≤ key b := not_lt.mp fun hlt => hx ((hbetter x b).mpr hlt)
      obtain ⟨y, hy, hby, hall, hbefore⟩ := @ih b bi (i + 1) (Nat.lt_succ_of_lt hi)
      rw [bestFrom, if_neg hx]
      refine ⟨y, ?_, hby, List.forall_mem_cons.mpr ⟨le_trans hle hby, hall⟩, ?_⟩
      · rcases hy with hr | ⟨hlt, j, hr, hj⟩
        · exact .inl hr
        · exact .inr ⟨hlt, j + 1, by rw [hr]; omega, hj⟩
      · intro j z hz hj
        rcases hy with ⟨hr, -⟩ | ⟨hlt, -⟩
        · omega
        · cases j with
          | zero => cases hz; exact lt_of_le_of_lt hle hlt
          | succ j => exact hbefore j z hz (by omega)

include hbetter in
theorem bestIdx_key {l : List α} (h : l ≠ []) : ∃ y, l[bestIdx better l]? = some y ∧ (∀ x ∈ l, key x ≤ key y) ∧
    ∀ j x, l[j]? = some x → j < bestIdx better l → key x < key y := by
  cases l with
  | nil => exact absurd rfl h
  | cons a l =>
    obtain ⟨y, hy, hle, hall, hbefore⟩ := @bestFrom_key α κ _ better key hbetter a 0 1 l (by omega)
    refine ⟨y, ?_, List.forall_mem_cons.mpr ⟨hle, hall⟩, fun j x hx hj => ?_⟩
    · rcases hy with ⟨hr, rfl⟩ | ⟨-, j, hr, hj⟩
      · rw [bestIdx, hr]
        rfl
      · rw [bestIdx, hr, Nat.add_comm]
        exact hj
    · rw [bestIdx] at hj
      cases j with
      | zero =>
        cases hx
        rcases hy with ⟨hr, -⟩ | ⟨hlt, -⟩
        · omega
        · exact hlt
      | succ j => exact hbefore j x hx (by omega)

end

/-! ## The best few -/

/-- The first `n` turns of a selection sort: swap the best of the rest to the front. -/
def topBy (better : α → α → Bool) : Nat → List α → List α
  | 0, _ => []
  | _ + 1, [] => []
  | n + 1, a :: l =>
    match bestIdx better (a :: l) with
    | 0 => a :: topBy better n l
    | i + 1 => (l[i]?).getD a :: topBy better n (l.set i a)

/-- Nothing is made up. -/
theorem mem_of_mem_topBy {better : α → α → Bool} {n : Nat} {l : List α} {x : α} (h : x ∈ topBy better n l) :
    x ∈ l := by
  induction n generalizing l with
  | zero => simp [topBy] at h
  | succ n ih =>
    cases l with
    | nil => simp [topBy] at h
    | cons a l =>
      simp only [topBy] at h
      split at h
      · rcases List.mem_cons.mp h with rfl | h
        · simp
        · exact List.mem_cons_of_mem _ (ih h)
      · next i _ =>
        rcases List.mem_cons.mp h with rfl | h
        · cases hi : l[i]? with
          | none => simp
          | some b => exact List.mem_cons_of_mem _ (List.mem_of_getElem? hi)
        · rcases List.mem_or_eq_of_mem_set (ih h) with h | rfl
          · exact List.mem_cons_of_mem _ h
          · simp

/-- A selection does not look at what the order does not. -/
theorem bestFrom_map {better : β → β → Bool} (f : α → β) (b : α) (bi i : Nat) (l : List α) :
    bestFrom better (f b) bi i (l.map f) = bestFrom (fun x y => better (f x) (f y)) b bi i l := by
  induction l generalizing b bi i with
  | nil => rfl
  | cons x xs ih =>
    simp only [List.map_cons, bestFrom]
    split
    · exact ih x i (i + 1)
    · exact ih b bi (i + 1)

theorem topBy_map {better : β → β → Bool} (f : α → β) (n : Nat) (l : List α) :
    topBy better n (l.map f) = (topBy (fun x y => better (f x) (f y)) n l).map f := by
  induction n generalizing l with
  | zero => rfl
  | succ n ih =>
    cases l with
    | nil => rfl
    | cons a l =>
      have hidx : bestIdx better ((a :: l).map f) = bestIdx (fun x y => better (f x) (f y)) (a :: l) :=
        bestFrom_map f a 0 1 l
      rw [List.map_cons, topBy, topBy, ← List.map_cons, hidx]
      cases bestIdx (fun x y => better (f x) (f y)) (a :: l) with
      | zero => simp only [List.map_cons, ih]
      | succ i => simp only [List.map_cons, ← List.map_set, ih, List.getElem?_map, Option.getD_map]

/-- The swap of a turn. -/
theorem perm_cons_set {a y : α} {l : List α} {i : Nat} (hi : l[i]? = some y) : (y :: l.set i a).Perm (a :: l) := by
  obtain ⟨hlt, rfl⟩ := List.getElem?_eq_some_iff.mp hi
  calc (l[i] :: l.set i a).Perm (l[i] :: a :: l.eraseIdx i) := (List.set_perm_cons_eraseIdx hlt a).cons _
    _ |>.Perm (a :: l[i] :: l.eraseIdx i) := .swap _ _ _
    _ |>.Perm (a :: l) := (List.getElem_cons_eraseIdx_perm hlt).cons _

/-- Where better is greater in an order: the best `n`, greatest first, and what is left is no greater. -/
theorem topBy_key {κ : Type} [LinearOrder κ] {better : α → α → Bool} {key : α → κ}
    (hbetter : ∀ x b, better x b = true ↔ key b < key x) (n : Nat) (l : List α) :
    (topBy better n l).length = min n l.length ∧ (topBy better n l).Pairwise (fun x y => key y ≤ key x) ∧
      ∃ rest, (topBy better n l ++ rest).Perm l ∧ ∀ x ∈ topBy better n l, ∀ y ∈ rest, key y ≤ key x := by
  induction n generalizing l with
  | zero => exact ⟨by simp [topBy], .nil, l, .refl l, by simp [topBy]⟩
  | succ n ih =>
    cases l with
    | nil => exact ⟨rfl, .nil, [], .refl _, by simp [topBy]⟩
    | cons a l =>
      obtain ⟨y, hy, hle, -⟩ := bestIdx_key hbetter (List.cons_ne_nil a l)
      -- The turn puts `y` first and leaves the rest in some order.
      obtain ⟨l', hturn, hperm⟩ : ∃ l', topBy better (n + 1) (a :: l) = y :: topBy better n l' ∧
          (y :: l').Perm (a :: l) := by
        rw [topBy]
        cases hidx : bestIdx better (a :: l) with
        | zero =>
          rw [hidx] at hy
          cases hy
          exact ⟨l, rfl, .refl _⟩
        | succ i =>
          rw [hidx, List.getElem?_cons_succ] at hy
          exact ⟨l.set i a, by simp [hy], perm_cons_set hy⟩
      obtain ⟨hlen, hsorted, rest, hrest, htop⟩ := ih l'
      have hgreatest : ∀ x ∈ l', key x ≤ key y := fun x hx => hle x (hperm.mem_iff.mp (List.mem_cons_of_mem _ hx))
      have hmem : ∀ x, x ∈ topBy better n l' ++ rest → x ∈ l' := fun x hx => hrest.mem_iff.mp hx
      rw [hturn]
      refine ⟨?_, List.pairwise_cons.mpr ⟨fun x hx => ?_, hsorted⟩, rest, ?_, ?_⟩
      · have := hperm.length_eq
        simp only [List.length_cons] at this ⊢
        omega
      · exact hgreatest x (hmem x (List.mem_append_left _ hx))
      · exact (hrest.cons y).trans hperm
      · intro x hx z hz
        rcases List.mem_cons.mp hx with rfl | hx
        · exact hgreatest z (hmem z (List.mem_append_right _ hz))
        · exact htop x hx z hz

/-! ## Take a slot for a key -/

/-- The slot a new value takes: `hit` finds the key's own slot (rewritten by
`upd`), else the first `vacant` slot, else the one ranked best by `better`,
gets `fresh`. -/
def upsert (hit vacant : α → Bool) (better : α → α → Bool) (upd : α → α) (fresh : α) (l : List α) : List α :=
  match l.findIdx? hit with
  | some i => l.modify i upd
  | none =>
    match l.findIdx? vacant with
    | some i => l.set i fresh
    | none => l.set (bestIdx better l) fresh

/-- The slot a new key takes. -/
def freeIdx (vacant : α → Bool) (better : α → α → Bool) (l : List α) : Nat :=
  (l.findIdx? vacant).getD (bestIdx better l)

theorem freeIdx_lt {vacant : α → Bool} {better : α → α → Bool} {l : List α} (h : l ≠ []) :
    freeIdx vacant better l < l.length := by
  simp only [freeIdx]
  cases hv : l.findIdx? vacant with
  | none => exact bestIdx_lt h
  | some i => exact (List.findIdx?_eq_some_iff_getElem.mp hv).1

/-- `upsert` writes one slot: the key's own, or the free one for a new key. -/
theorem upsert_cases {hit vacant : α → Bool} {better : α → α → Bool} {upd : α → α} {fresh : α} {l : List α}
    (hne : l ≠ []) :
    (∃ i a, l[i]? = some a ∧ hit a = true ∧ upsert hit vacant better upd fresh l = l.set i (upd a)) ∨
      (∀ a ∈ l, hit a = false) ∧ (∃ a, l[freeIdx vacant better l]? = some a) ∧
        upsert hit vacant better upd fresh l = l.set (freeIdx vacant better l) fresh := by
  simp only [upsert]
  cases hh : l.findIdx? hit with
  | some i =>
    obtain ⟨hi, ha, -⟩ := List.findIdx?_eq_some_iff_getElem.mp hh
    refine .inl ⟨i, l.get ⟨i, hi⟩, by simp [hi], ha, ?_⟩
    simp [List.modify_eq_set_getElem?, hi]
  | none =>
    refine .inr ⟨List.findIdx?_eq_none_iff.mp hh, ⟨_, List.getElem?_eq_getElem (freeIdx_lt hne)⟩, ?_⟩
    simp only [freeIdx]
    cases l.findIdx? vacant <;> rfl

@[simp] theorem length_upsert (hit vacant : α → Bool) (better : α → α → Bool) (upd : α → α) (fresh : α)
    (l : List α) : (upsert hit vacant better upd fresh l).length = l.length := by
  simp only [upsert]
  split
  · simp
  · split <;> simp

/-! ## Distinct keys -/

/-- No two slots have the same key. A slot without a key is vacant. -/
def Keyed {κ : Type} (key : α → Option κ) (l : List α) : Prop :=
  ∀ (i j : Nat) (a b : α) (k : κ), l[i]? = some a → l[j]? = some b → key a = some k → key b = some k → i = j

section keyed
variable {κ : Type} {key : α → Option κ} {l : List α}

/-- Where every slot has a key. -/
theorem keyed_some_iff {f : α → κ} : Keyed (fun a => some (f a)) l ↔ (l.map f).Nodup := by
  constructor
  · intro h
    refine List.nodup_iff_pairwise_ne.mpr (List.pairwise_iff_getElem.mpr fun i j hi hj hij he => ?_)
    rw [List.length_map] at hi hj
    rw [List.getElem_map, List.getElem_map] at he
    exact Nat.ne_of_lt hij (h i j _ _ _ (List.getElem?_eq_getElem hi) (List.getElem?_eq_getElem hj) rfl (congrArg some he.symm))
  · intro h i j a b k hi hj ha hb
    have hlt : i < (l.map f).length := by
      rw [List.length_map]
      exact (List.getElem?_eq_some_iff.mp hi).1
    refine (List.getElem?_inj hlt h).mp ?_
    rw [List.getElem?_map, List.getElem?_map, hi, hj, Option.map_some, Option.map_some]
    exact ha.trans hb.symm

theorem Keyed.unique (h : Keyed key l) {a b : α} {k : κ} (ha : a ∈ l) (hb : b ∈ l) (hka : key a = some k)
    (hkb : key b = some k) : a = b := by
  obtain ⟨i, hi⟩ := List.mem_iff_getElem?.mp ha
  obtain ⟨j, hj⟩ := List.mem_iff_getElem?.mp hb
  obtain rfl := h i j a b k hi hj hka hkb
  rw [hi] at hj
  exact Option.some.inj hj

theorem Keyed.tail {a : α} (h : Keyed key (a :: l)) : Keyed key l := fun i j b c k hi hj hb hc =>
  Nat.succ.inj (h (i + 1) (j + 1) b c k hi hj hb hc)

/-- One slot may be written, with a key that no other slot has. -/
theorem Keyed.set (h : Keyed key l) {i : Nat} {x : α}
    (hx : ∀ k, key x = some k → ∀ j b, l[j]? = some b → key b = some k → j = i) : Keyed key (l.set i x) := by
  intro j j' a b k hj hj' hka hkb
  rw [List.getElem?_set] at hj hj'
  split at hj <;> split at hj'
  · next h₁ h₂ => exact h₁.symm.trans h₂
  · next h₁ h₂ =>
    split at hj
    · cases hj; exact absurd (hx k hka j' b hj' hkb).symm h₂
    · cases hj
  · next h₁ h₂ =>
    split at hj'
    · cases hj'; exact absurd (hx k hkb j a hj hka).symm h₁
    · cases hj'
  · exact h j j' a b k hj hj' hka hkb

/-- Slots may lose their keys, and change otherwise. -/
theorem Keyed.forall₂ (h : Keyed key l) {l' : List α}
    (hr : List.Forall₂ (fun a b => ∀ k, key b = some k → key a = some k) l l') : Keyed key l' := by
  intro i j a b k hi hj hka hkb
  have back : ∀ {i : Nat} {a : α}, l'[i]? = some a → key a = some k → ∃ a', l[i]? = some a' ∧ key a' = some k := by
    intro i a hi hk
    have hlt := (List.getElem?_eq_some_iff.mp hi).1
    have hlt' : i < l.length := by rw [hr.length_eq]; exact hlt
    have hget := hr.get hlt' hlt
    have hval : l'.get ⟨i, hlt⟩ = a := (List.getElem?_eq_some_iff.mp hi).2
    exact ⟨_, List.getElem?_eq_getElem hlt', hget k (by rw [hval]; exact hk)⟩
  obtain ⟨a', hi', hka'⟩ := back hi hka
  obtain ⟨b', hj', hkb'⟩ := back hj hkb
  exact h i j a' b' k hi' hj' hka' hkb'

/-- An update at a key rewrites whoever has it. -/
theorem Keyed.updateFirst_eq_map (h : Keyed key l) {p : α → Bool} {k : κ} (hp : ∀ a, p a = true ↔ key a = some k)
    (f : α → α) : updateFirst p f l = l.map fun a => if p a then f a else a := by
  induction l with
  | nil => rfl
  | cons a l ih =>
    simp only [updateFirst, List.map_cons]
    split
    · next ha =>
      have hno : ∀ b ∈ l, (if p b then f b else b) = b := by
        intro b hb
        obtain ⟨j, hj⟩ := List.mem_iff_getElem?.mp hb
        refine if_neg fun hpb => ?_
        have := h 0 (j + 1) a b k rfl hj ((hp a).mp ha) ((hp b).mp hpb)
        omega
      rw [List.map_congr_left hno, List.map_id']
    · rw [ih h.tail]

/-- A slot may be claimed for a key that no slot has. -/
theorem Keyed.claim (h : Keyed key l) {p : α → Bool} {x : α} {k₀ : κ} (hx : key x = some k₀)
    (hno : ∀ a ∈ l, key a ≠ some k₀) : Keyed key (updateFirst p (fun _ => x) l) := by
  rcases updateFirst_eq_set p (fun _ => x) l with ⟨-, he⟩ | ⟨i, a, -, -, he⟩
  · rw [he]; exact h
  · rw [he]
    refine h.set fun k hk j b hj hkb => ?_
    rw [hx] at hk
    cases hk
    exact absurd hkb (hno b (List.mem_of_getElem? hj))

theorem keyed_iff_pairwise : Keyed key l ↔ l.Pairwise fun a b => ∀ k, key a = some k → key b ≠ some k := by
  rw [List.pairwise_iff_getElem]
  constructor
  · intro h i j hi hj hlt k hka hkb
    have := h i j _ _ k (List.getElem?_eq_getElem hi) (List.getElem?_eq_getElem hj) hka hkb
    omega
  · intro h i j a b k hi hj hka hkb
    obtain ⟨hlt, rfl⟩ := List.getElem?_eq_some_iff.mp hi
    obtain ⟨hlt', rfl⟩ := List.getElem?_eq_some_iff.mp hj
    rcases Nat.lt_trichotomy i j with hij | hij | hij
    · exact absurd hkb (h i j hlt hlt' hij k hka)
    · exact hij
    · exact absurd hka (h j i hlt' hlt hij k hkb)

theorem Keyed.append_singleton (h : Keyed key l) {x : α} (hx : ∀ k, key x = some k → ∀ a ∈ l, key a ≠ some k) :
    Keyed key (l ++ [x]) := by
  rw [keyed_iff_pairwise, List.pairwise_append]
  refine ⟨keyed_iff_pairwise.mp h, List.pairwise_singleton _ _, fun a ha b hb k hka hkb => ?_⟩
  cases List.mem_singleton.mp hb
  exact hx k hkb a ha hka

/-- What is left of the slots, in any order. -/
theorem Keyed.of_perm (h : Keyed key l) {gone l' : List α} (hp : (gone ++ l').Perm l) : Keyed key l' := by
  have hpair : (gone ++ l').Pairwise fun a b => ∀ k, key a = some k → key b ≠ some k :=
    (hp.pairwise_iff fun hab k hkb hka => hab k hka hkb).mpr (keyed_iff_pairwise.mp h)
  exact keyed_iff_pairwise.mpr (List.pairwise_append.mp hpair).2.1

/-! ## A keyed table as a map -/

variable [DecidableEq κ]

/-- The slot of a key. -/
def lookup (key : α → Option κ) (k : κ) (l : List α) : Option α := l.find? fun a => decide (key a = some k)

theorem lookup_eq_none {k : κ} : lookup key k l = none ↔ ∀ a ∈ l, key a ≠ some k := by simp [lookup]

theorem lookup_some {k : κ} {a : α} (h : lookup key k l = some a) : a ∈ l ∧ key a = some k :=
  ⟨List.mem_of_find?_eq_some h, by simpa using List.find?_some h⟩

theorem Keyed.lookup_eq_some (h : Keyed key l) {k : κ} {a : α} : lookup key k l = some a ↔ a ∈ l ∧ key a = some k := by
  refine ⟨lookup_some, fun ⟨ha, hk⟩ => ?_⟩
  cases hl : lookup key k l with
  | none => exact absurd hk (lookup_eq_none.mp hl a ha)
  | some b => rw [h.unique (lookup_some hl).1 ha (lookup_some hl).2 hk]

/-- A key is counted once at most. -/
theorem Keyed.countP_eq (h : Keyed key l) (k : κ) :
    l.countP (fun a => decide (key a = some k)) = if (lookup key k l).isSome then 1 else 0 := by
  induction l with
  | nil => rfl
  | cons a l ih =>
    rw [List.countP_cons, ih h.tail]
    by_cases ha : key a = some k
    · have hnone : lookup key k l = none := by
        refine lookup_eq_none.mpr fun b hb hkb => ?_
        obtain ⟨j, hj⟩ := List.mem_iff_getElem?.mp hb
        exact absurd (h 0 (j + 1) a b k rfl hj ha hkb) (by omega)
      have hself : lookup key k (a :: l) = some a := h.lookup_eq_some.mpr ⟨List.mem_cons_self, ha⟩
      simp [hnone, hself, ha]
    · have hskip : lookup key k (a :: l) = lookup key k l := by simp [lookup, ha]
      simp [hskip, ha]

/-- A slot is written with a key that no other slot has. -/
theorem Keyed.lookup_set (h : Keyed key l) {i : Nat} {a x : α} (hi : l[i]? = some a)
    (hx : ∀ k, key x = some k → ∀ j b, l[j]? = some b → key b = some k → j = i) (k : κ) :
    lookup key k (l.set i x) =
      if key x = some k then some x else if key a = some k then none else lookup key k l := by
  have hlt : i < l.length := (List.getElem?_eq_some_iff.mp hi).1
  split
  · next hk => exact (h.set hx).lookup_eq_some.mpr ⟨List.mem_set hlt x, hk⟩
  next hkx =>
  split
  · next hka =>
    refine lookup_eq_none.mpr fun b hb hkb => ?_
    obtain ⟨j, hj⟩ := List.mem_iff_getElem?.mp hb
    rw [List.getElem?_set] at hj
    split at hj
    · cases hj; exact hkx hkb
    · next hne => exact hne (h i j a b k hi hj hka hkb)
  · next hka =>
    refine Option.ext fun b => ?_
    rw [(h.set hx).lookup_eq_some, h.lookup_eq_some]
    refine and_congr_left fun hkb => ?_
    constructor
    · intro hb
      rcases List.mem_or_eq_of_mem_set hb with hb | rfl
      · exact hb
      · exact absurd hkb hkx
    · intro hb
      obtain ⟨j, hj⟩ := List.mem_iff_getElem?.mp hb
      refine List.mem_iff_getElem?.mpr ⟨j, ?_⟩
      rw [List.getElem?_set, if_neg, hj]
      intro h
      obtain rfl := h
      rw [hi, Option.some.injEq] at hj
      exact hka (hj ▸ hkb)

/-- A slot is added with a key that no other slot has. -/
theorem lookup_append_singleton {x : α} (k : κ) (hx : ∀ a ∈ l, key a ≠ key x) :
    lookup key k (l ++ [x]) = if key x = some k then some x else lookup key k l := by
  rw [lookup, List.find?_append]
  split
  · next hk =>
    have hnone : lookup key k l = none := lookup_eq_none.mpr fun a ha hka => hx a ha (hka.trans hk.symm)
    rw [show l.find? _ = none from hnone, Option.none_or, List.find?_singleton, if_pos (decide_eq_true hk)]
  · next hk =>
    rw [List.find?_singleton, if_neg (fun h => hk (of_decide_eq_true h)), Option.or_none]
    rfl

/-- The tests of `upsert` are about one key. -/
structure UpsertsKey (key : α → Option κ) (k₀ : κ) (hit : α → Bool) (upd : α → α) (fresh : α) : Prop where
  hit : ∀ a, hit a = true ↔ key a = some k₀
  upd : ∀ a, key a = some k₀ → key (upd a) = some k₀
  fresh : key fresh = some k₀

section upsert
variable {k₀ : κ} {hit : α → Bool} (vacant : α → Bool) (better : α → α → Bool) {upd : α → α} {fresh : α}

/-- What `upsert` may write where. -/
theorem Keyed.upsert_cases (h : Keyed key l) (hu : UpsertsKey key k₀ hit upd fresh) (hne : l ≠ []) :
    ∃ i a x, l[i]? = some a ∧ upsert hit vacant better upd fresh l = l.set i x ∧
      (∀ k, key x = some k → ∀ j b, l[j]? = some b → key b = some k → j = i) ∧
      (lookup key k₀ l = some a ∧ x = upd a ∨
        lookup key k₀ l = none ∧ i = freeIdx vacant better l ∧ x = fresh) := by
  rcases Slots.upsert_cases hne with ⟨i, a, hi, hh, he⟩ | ⟨hno, ⟨a, hi⟩, he⟩
  · have hka := (hu.hit a).mp hh
    refine ⟨i, a, upd a, hi, he, fun k hk j b hj hkb => ?_,
      .inl ⟨h.lookup_eq_some.mpr ⟨List.mem_of_getElem? hi, hka⟩, rfl⟩⟩
    rw [hu.upd a hka] at hk
    cases hk
    exact h j i b a k₀ hj hi hkb hka
  · have hnone : ∀ b ∈ l, key b ≠ some k₀ := fun b hb hk => by
      rw [← hu.hit, hno b hb] at hk; cases hk
    refine ⟨_, a, fresh, hi, he, fun k hk j b hj hkb => ?_, .inr ⟨lookup_eq_none.mpr hnone, rfl, rfl⟩⟩
    rw [hu.fresh] at hk
    cases hk
    exact absurd hkb (hnone b (List.mem_of_getElem? hj))

theorem Keyed.upsert (h : Keyed key l) (hu : UpsertsKey key k₀ hit upd fresh) (hne : l ≠ []) :
    Keyed key (Slots.upsert hit vacant better upd fresh l) := by
  obtain ⟨i, a, x, -, he, hx, -⟩ := h.upsert_cases vacant better hu hne
  rw [he]
  exact h.set hx

/-- The key gets its new value; a new key may displace another one. -/
theorem Keyed.lookup_upsert (h : Keyed key l) (hu : UpsertsKey key k₀ hit upd fresh) (hne : l ≠ []) (k : κ) :
    lookup key k (Slots.upsert hit vacant better upd fresh l) =
      if k = k₀ then some (((lookup key k₀ l).map upd).getD fresh)
      else if (lookup key k₀ l).isNone ∧ (l[freeIdx vacant better l]?).bind key = some k then none
      else lookup key k l := by
  obtain ⟨i, a, x, hi, he, hx, hcase⟩ := h.upsert_cases vacant better hu hne
  rw [he, h.lookup_set hi hx]
  rcases hcase with ⟨hl, rfl⟩ | ⟨hl, rfl, rfl⟩
  · have hka := (lookup_some hl).2
    simp only [hu.upd a hka, hka, hl, Option.some.injEq, Option.map_some, Option.getD_some, Option.isNone_some,
      Bool.false_eq_true, false_and, if_false, @eq_comm _ k₀ k]
    split
    · rfl
    · rfl
  · simp only [hu.fresh, hl, hi, Option.some.injEq, Option.map_none, Option.getD_none, Option.isNone_none,
      true_and, Option.bind_some, @eq_comm _ k₀ k]

end upsert

end keyed

/-! ## Two functions on a list's elements -/

/-- Functions that agree but at one element, and have the same values on the list in some order, agree there too. -/
theorem eq_of_map_perm {f g : α → β} {l : List α} {a : α} (hp : (l.map f).Perm (l.map g)) (ha : a ∈ l)
    (hn : l.Nodup) (hoff : ∀ b ∈ l, b ≠ a → f b = g b) : f a = g a := by
  obtain ⟨xs, ys, rfl⟩ := List.append_of_mem ha
  have hout : a ∉ xs ++ ys := (List.nodup_cons.mp (List.perm_middle.nodup_iff.mp hn)).1
  have hxs : xs.map g = xs.map f := List.map_congr_left fun b hb =>
    (hoff b (by simp [hb]) fun he => hout (he ▸ List.mem_append_left _ hb)).symm
  have hys : ys.map g = ys.map f := List.map_congr_left fun b hb =>
    (hoff b (by simp [hb]) fun he => hout (he ▸ List.mem_append_right _ hb)).symm
  rw [List.map_append, List.map_append, List.map_cons, List.map_cons, hxs, hys, List.perm_append_left_iff] at hp
  exact List.singleton_perm_singleton.mp ((List.perm_append_right_iff (ys.map f)).mp hp)

/-! ## Removal that does not keep the order -/

/-- `l[i] = l[len - 1]; len -= 1`. -/
def swapRemove (i : Nat) (l : List α) : List α := ((l.getLast?).elim l fun b => l.set i b).dropLast

theorem length_swapRemove (i : Nat) (l : List α) : (swapRemove i l).length = l.length - 1 := by
  cases h : l.getLast? <;> simp [swapRemove, h]

/-- The loop `i = 0; while i < len { if p(l[i]) { swap_remove(i) } else { i += 1 } }`,
whose every turn makes the part ahead one shorter. -/
def dropWhere (p : α → Bool) : Nat → Nat → List α → List α
  | 0, _, l => l
  | n + 1, i, l =>
    match l[i]? with
    | none => l
    | some a => if p a then dropWhere p n i (swapRemove i l) else dropWhere p n (i + 1) l

theorem length_dropWhere_le (p : α → Bool) (n i : Nat) (l : List α) : (dropWhere p n i l).length ≤ l.length := by
  induction n generalizing i l with
  | zero => exact Nat.le_refl _
  | succ n ih =>
    simp only [dropWhere]
    split
    · exact Nat.le_refl _
    · split
      · exact Nat.le_trans (ih _ _) (by rw [length_swapRemove]; omega)
      · exact ih _ _

/-- The last element takes the place of the removed one. -/
theorem swapRemove_perm {i : Nat} {l : List α} {a : α} (h : l[i]? = some a) : (a :: swapRemove i l).Perm l := by
  obtain ⟨hi, ha⟩ := List.getElem?_eq_some_iff.mp h
  rcases List.eq_nil_or_concat' l with rfl | ⟨xs, z, rfl⟩
  · simp at hi
  have hswap : swapRemove i (xs ++ [z]) = ((xs ++ [z]).set i z).dropLast := by simp [swapRemove]
  rw [hswap]
  by_cases hlt : i < xs.length
  · rw [List.getElem_append_left hlt] at ha
    rw [List.set_append_left i z hlt, List.dropLast_concat]
    have hback : List.Perm (a :: xs.eraseIdx i) xs := ha ▸ List.getElem_cons_eraseIdx_perm hlt
    calc List.Perm (a :: xs.set i z) (a :: z :: xs.eraseIdx i) := (List.set_perm_cons_eraseIdx hlt z).cons a
      List.Perm _ (z :: a :: xs.eraseIdx i) := .swap z a _
      List.Perm _ (z :: xs) := hback.cons z
      List.Perm _ (xs ++ [z]) := (List.perm_append_singleton z xs).symm
  · have hlast : i = xs.length := by simp at hi; omega
    subst hlast
    have haz : a = z := by simpa using ha.symm
    rw [List.set_append_right _ _ (Nat.le_refl _), haz]
    simpa using (List.perm_append_singleton z xs).symm

theorem Keyed.swapRemove {κ : Type} {key : α → Option κ} {i : Nat} {l : List α} {a : α} (h : Keyed key l)
    (hi : l[i]? = some a) : Keyed key (swapRemove i l) := @Keyed.of_perm _ _ _ _ h [a] _ (swapRemove_perm hi)

/-- The slot of one key is lost. -/
theorem Keyed.lookup_swapRemove {κ : Type} [DecidableEq κ] {key : α → Option κ} {i : Nat} {l : List α} {a : α}
    (h : Keyed key l) (hi : l[i]? = some a) (k : κ) :
    lookup key k (Slots.swapRemove i l) = if key a = some k then none else lookup key k l := by
  have hperm := swapRemove_perm hi
  have hcons : Keyed key (a :: Slots.swapRemove i l) := @Keyed.of_perm _ _ _ _ h [] _ hperm
  have hmem : ∀ {b}, b ∈ l ↔ b = a ∨ b ∈ Slots.swapRemove i l := hperm.mem_iff.symm.trans List.mem_cons
  split
  · next hk =>
    refine lookup_eq_none.mpr fun b hb hkb => ?_
    obtain ⟨j, hj⟩ := List.mem_iff_getElem?.mp hb
    exact Nat.succ_ne_zero j (hcons 0 (j + 1) a b k rfl hj hk hkb).symm
  · next hk =>
    refine Option.ext fun b => ?_
    rw [(h.swapRemove hi).lookup_eq_some, h.lookup_eq_some, hmem]
    refine and_congr_left fun hkb => ⟨.inr, fun hb => hb.resolve_left ?_⟩
    intro h
    obtain rfl := h
    exact hk hkb

/-- The loop loses only elements the test picks. -/
theorem dropWhere_perm (p : α → Bool) (n i : Nat) (l : List α) :
    ∃ gone, (∀ a ∈ gone, p a = true) ∧ (gone ++ dropWhere p n i l).Perm l := by
  induction n generalizing i l with
  | zero => exact ⟨[], nofun, .refl l⟩
  | succ n ih =>
    simp only [dropWhere]
    split
    · exact ⟨[], nofun, .refl l⟩
    · next a ha =>
      split
      · next hp =>
        obtain ⟨gone, hgone, hperm⟩ := ih i (swapRemove i l)
        refine ⟨a :: gone, ?_, (hperm.cons a).trans (swapRemove_perm ha)⟩
        simpa [hp] using hgone
      · exact ih (i + 1) l

theorem mem_of_mem_dropWhere {p : α → Bool} {n i : Nat} {l : List α} {a : α} (h : a ∈ dropWhere p n i l) : a ∈ l := by
  obtain ⟨gone, -, hperm⟩ := dropWhere_perm p n i l
  exact hperm.subset (List.mem_append_right gone h)

theorem mem_dropWhere {p : α → Bool} (n i : Nat) {l : List α} {a : α} (h : a ∈ l) (hp : p a = false) :
    a ∈ dropWhere p n i l := by
  obtain ⟨gone, hgone, hperm⟩ := dropWhere_perm p n i l
  rcases List.mem_append.mp (hperm.symm.subset h) with hg | hd
  · rw [hgone a hg] at hp; cases hp
  · exact hd

theorem getElem?_swapRemove {i j : Nat} {l : List α} (hi : i < l.length) (hj : j < i) : (swapRemove i l)[j]? = l[j]? := by
  obtain ⟨xs, z, rfl⟩ : ∃ xs z, l = xs ++ [z] := List.eq_nil_or_concat' l |>.resolve_left fun h => by simp [h] at hi
  rw [List.length_append, List.length_singleton] at hi
  rw [swapRemove, List.getLast?_concat, Option.elim_some, List.getElem?_dropLast, List.getElem?_set_ne (by omega),
    List.length_set, List.length_append, List.length_singleton, if_pos (by omega)]

/-- The loop keeps nothing that the test picks. -/
theorem dropWhere_keeps {p : α → Bool} {n i : Nat} {l : List α} (hlen : l.length ≤ i + n)
    (hdone : ∀ j < i, ∀ a, l[j]? = some a → p a = false) : ∀ a ∈ dropWhere p n i l, p a = false := by
  have all {i : Nat} {l : List α} (hlen : l.length ≤ i) (hdone : ∀ j < i, ∀ a, l[j]? = some a → p a = false) :
      ∀ a ∈ l, p a = false := by
    intro a ha
    obtain ⟨j, hj⟩ := List.mem_iff_getElem?.mp ha
    have hlt := (List.getElem?_eq_some_iff.mp hj).1
    exact hdone j (by omega) a hj
  induction n generalizing i l with
  | zero => exact all hlen hdone
  | succ n ih =>
    simp only [dropWhere]
    split
    · next ha => exact all (List.getElem?_eq_none_iff.mp ha) hdone
    · next a ha =>
      split
      · -- The slot has another element now, and is looked at again.
        have hi := (List.getElem?_eq_some_iff.mp ha).1
        refine ih (by rw [length_swapRemove]; omega) fun j hj b hb => ?_
        exact hdone j hj b (getElem?_swapRemove hi hj ▸ hb)
      · next hp =>
        refine ih (by omega) fun j hj b hb => ?_
        rcases Nat.lt_succ_iff_lt_or_eq.mp hj with hj | rfl
        · exact hdone j hj b hb
        · rw [ha] at hb
          cases hb
          simpa using hp

/-- From the first slot on, with enough turns: the loop loses all that the test picks and nothing else. -/
theorem dropWhere_perm_filter (p : α → Bool) (l : List α) : (dropWhere p l.length 0 l).Perm (l.filter fun a => !p a) := by
  obtain ⟨gone, hgone, hperm⟩ := dropWhere_perm p l.length 0 l
  have hkeeps := @dropWhere_keeps α p l.length 0 l (by omega) nofun
  have hfilter := hperm.filter fun a => !p a
  rwa [List.filter_append, List.filter_eq_nil_iff.mpr fun a ha => by simp [hgone a ha], List.nil_append,
    List.filter_eq_self.mpr fun a ha => by simp [hkeeps a ha]] at hfilter

theorem Keyed.dropWhere {κ : Type} {key : α → Option κ} {l : List α} (h : Keyed key l) (p : α → Bool) (n i : Nat) :
    Keyed key (Slots.dropWhere p n i l) := by
  obtain ⟨gone, -, hperm⟩ := dropWhere_perm p n i l
  exact h.of_perm hperm

/-! ## A loop that rewrites each slot -/

/-- The loop `for i in 0..n { (s, t[i]) = f(s, t[i]) }`. -/
def mapAccum (f : σ → α → σ × β) : σ → List α → σ × List β
  | s, [] => (s, [])
  | s, a :: l =>
    let (s, b) := f s a
    let (s, bs) := mapAccum f s l
    (s, b :: bs)

@[simp] theorem length_mapAccum (f : σ → α → σ × β) (s : σ) (l : List α) :
    (mapAccum f s l).2.length = l.length := by
  induction l generalizing s with
  | nil => rfl
  | cons a l ih => simp [mapAccum, ih]

theorem mapAccum_append (f : σ → α → σ × β) (s : σ) (l₁ l₂ : List α) : mapAccum f s (l₁ ++ l₂) =
    ((mapAccum f (mapAccum f s l₁).1 l₂).1, (mapAccum f s l₁).2 ++ (mapAccum f (mapAccum f s l₁).1 l₂).2) := by
  induction l₁ generalizing s with
  | nil => rfl
  | cons a l ih => simp only [List.cons_append, mapAccum, ih]

/-- A property of the threaded state that every turn of the loop keeps. -/
theorem mapAccum_invariant {f : σ → α → σ × β} (I : σ → Prop) {l : List α}
    (keep : ∀ s, ∀ a ∈ l, I s → I (f s a).1) {s : σ} (h : I s) : I (mapAccum f s l).1 := by
  induction l generalizing s with
  | nil => exact h
  | cons a l ih => exact ih (fun s b hb => keep s b (by simp [hb])) (keep s a (by simp) h)

/-- A part of the threaded state that a turn computes from itself alone. -/
theorem mapAccum_fold {γ : Type} {f : σ → α → σ × β} (g : σ → γ) {t : γ → α → γ}
    (h : ∀ s a, g (f s a).1 = t (g s) a) (s : σ) (l : List α) : g (mapAccum f s l).1 = l.foldl t (g s) := by
  induction l generalizing s with
  | nil => rfl
  | cons a l ih => simp only [mapAccum, List.foldl_cons, ih, h]

/-- A measure that a turn raises by one at most is raised by the length at most. -/
theorem mapAccum_le {f : σ → α → σ × β} (g : σ → Nat) (h : ∀ s a, g (f s a).1 ≤ g s + 1) (s : σ) (l : List α) :
    g (mapAccum f s l).1 ≤ g s + l.length := by
  induction l generalizing s with
  | nil => simp [mapAccum]
  | cons a l ih =>
    have h₁ := h s a
    have h₂ := ih (f s a).1
    simp only [mapAccum, List.length_cons]
    omega

/-- What a turn says of its slot as long as the threaded state keeps a property, the loop says of every slot. -/
theorem mapAccum_forall₂_of {f : σ → α → σ × β} {R : α → β → Prop} (I : σ → Prop) (keep : ∀ s a, I s → I (f s a).1)
    (h : ∀ s a, I s → R a (f s a).2) {s : σ} (hs : I s) (l : List α) : List.Forall₂ R l (mapAccum f s l).2 := by
  induction l generalizing s with
  | nil => exact .nil
  | cons a l ih => exact .cons (h s a hs) (ih (keep s a hs))

/-- What a turn says of its slot, the loop says of every slot. -/
theorem mapAccum_forall₂ {f : σ → α → σ × β} {R : α → β → Prop} (h : ∀ s a, R a (f s a).2) (s : σ) (l : List α) :
    List.Forall₂ R l (mapAccum f s l).2 :=
  mapAccum_forall₂_of (fun _ => True) (fun _ _ _ => trivial) (fun s a _ => h s a) trivial l

/-- What a turn leaves unchanged the loop leaves unchanged. -/
theorem mapAccum_frame {γ : Type} {f : σ → α → σ × β} (g : σ → γ) {l : List α}
    (h : ∀ s, ∀ a ∈ l, g (f s a).1 = g s) (s : σ) : g (mapAccum f s l).1 = g s :=
  mapAccum_invariant (fun t => g t = g s) (fun t a ha ht => (h t a ha).trans ht) rfl

end Slots

/-- A table of exactly `n` slots. -/
abbrev Table (α : Type) (n : Nat) := { l : List α // l.length = n }

namespace Table

variable {α : Type} {n : Nat}

/-- Every slot the same. -/
def fill (n : Nat) (a : α) : Table α n := ⟨List.replicate n a, by simp⟩

theorem ne_nil (t : Table α (n + 1)) : t.1 ≠ [] := by
  intro h
  have := t.2
  rw [h] at this
  cases this

/-- `Slots.upsert` on a table. -/
def upsert (hit vacant : α → Bool) (better : α → α → Bool) (upd : α → α) (fresh : α) (t : Table α n) : Table α n :=
  ⟨Slots.upsert hit vacant better upd fresh t.1, by simp [t.2]⟩

/-- Slot `i` written. -/
def set (i : Nat) (a : α) (t : Table α n) : Table α n := ⟨t.1.set i a, by simp [t.2]⟩

/-- Slot `i` rewritten. -/
def modify (i : Nat) (f : α → α) (t : Table α n) : Table α n := ⟨t.1.modify i f, by simp [t.2]⟩

/-- Every slot rewritten. -/
def map (f : α → α) (t : Table α n) : Table α n := ⟨t.1.map f, by simp [t.2]⟩

/-- `Slots.updateFirst` on a table. -/
def updateFirst (p : α → Bool) (f : α → α) (t : Table α n) : Table α n :=
  ⟨Slots.updateFirst p f t.1, by simp [t.2]⟩

/-- `Slots.mapAccum` on a table. -/
def mapAccum {σ β : Type} (f : σ → α → σ × β) (s : σ) (t : Table α n) : σ × Table β n :=
  ((Slots.mapAccum f s t.1).1, ⟨(Slots.mapAccum f s t.1).2, by simp [t.2]⟩)

/-- Other entries for a table. -/
def refill (t : Table α n) (l : List α) : Table α n := if h : l.length = n then ⟨l, h⟩ else t

theorem refill_eq (t : Table α n) {l : List α} (h : l.length = n) : t.refill l = ⟨l, h⟩ := dif_pos h

/-- What every slot has and the rewriting keeps, every slot has afterwards. -/
theorem forall_updateFirst {P : α → Prop} {t : Table α n} (h : ∀ a ∈ t.1, P a) {p : α → Bool} {f : α → α}
    (hf : ∀ a, P a → P (f a)) : ∀ a ∈ (t.updateFirst p f).1, P a := by
  intro a ha
  rcases Slots.mem_updateFirst ha with ha | ⟨b, hb, -, rfl⟩
  · exact h a ha
  · exact hf b (h b hb)

theorem forall_upsert {P : α → Prop} {t : Table α (n + 1)} (h : ∀ a ∈ t.1, P a) {hit vacant : α → Bool}
    {better : α → α → Bool} {upd : α → α} {fresh : α} (hupd : ∀ a, P a → P (upd a)) (hfresh : P fresh) :
    ∀ a ∈ (t.upsert hit vacant better upd fresh).1, P a := by
  intro a ha
  rcases @Slots.upsert_cases α hit vacant better upd fresh t.1 t.ne_nil with ⟨i, b, hb, -, he⟩ | ⟨-, -, he⟩
  · simp only [upsert, he] at ha
    rcases List.mem_or_eq_of_mem_set ha with ha | rfl
    · exact h a ha
    · exact hupd b (h b (List.mem_of_getElem? hb))
  · simp only [upsert, he] at ha
    rcases List.mem_or_eq_of_mem_set ha with ha | rfl
    · exact h a ha
    · exact hfresh

end Table
