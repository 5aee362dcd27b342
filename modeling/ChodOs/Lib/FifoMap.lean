/-
Maps with room for `cap` keys, in the order in which these came. A new key
that finds no room takes the place of the one that has been there longest; a
key that is there gets its new value where it is.
-/
import ChodOs.Lib.Since
import ChodOs.Lib.Slots

namespace FifoMap

open History

variable {κ β : Type}

def keys (l : List (κ × β)) : List κ := l.map Prod.fst

section Keys

variable {l l' : List (κ × β)}

@[simp] theorem keys_append : keys (l ++ l') = keys l ++ keys l' := List.map_append

theorem keys_tail : keys l.tail = (keys l).tail := List.map_tail

end Keys

variable [DecidableEq κ]

def lookup (l : List (κ × β)) (k : κ) : Option β := (l.find? fun e => decide (e.1 = k)).map (·.2)

/-- The entry for `k`, or a new one at the end, where the first makes room if there are `cap`. -/
def insert (cap : Nat) (l : List (κ × β)) (k : κ) (v : β) : List (κ × β) :=
  if k ∈ keys l then Slots.updateFirst (fun e => decide (e.1 = k)) (fun e => (e.1, v)) l
  else if l.length < cap then l ++ [(k, v)]
  else l.tail ++ [(k, v)]

/-- The map after these insertions, the oldest first. -/
def run (cap : Nat) (h : List (κ × β)) : List (κ × β) := h.foldl (fun l e => insert cap l e.1 e.2) []

/-- The value that was last inserted for a key. -/
def last (h : List (κ × β)) (k : κ) : Option β := (h.reverse.find? fun e => decide (e.1 = k)).map (·.2)

/-- The insertion since which the key has been there. -/
def CameAt (cap : Nat) (h : List (κ × β)) (k : κ) (i : Nat) : Prop := BeganAt (fun h => k ∈ keys (run cap h)) h i

variable {cap : Nat} {l h : List (κ × β)} {k x y : κ} {v : β} {e : κ × β} {i j : Nat}

theorem run_concat : run cap (h ++ [(k, v)]) = insert cap (run cap h) k v := by
  rw [run, List.foldl_append]
  rfl

theorem last_concat : last (h ++ [(k, v)]) x = if k = x then some v else last h x := by
  rw [last, List.reverse_append, List.reverse_singleton, List.singleton_append, List.find?_cons]
  by_cases hk : k = x
  · rw [if_pos hk, decide_eq_true hk]
    rfl
  · rw [if_neg hk, decide_eq_false hk]
    rfl

/-! ## One insertion -/

theorem keys_insert_of_mem (hk : k ∈ keys l) : keys (insert cap l k v) = keys l := by
  rw [insert, if_pos hk]
  exact Slots.map_updateFirst (f := fun e : κ × β => (e.1, v)) (g := Prod.fst) (fun _ _ => rfl) l

theorem keys_insert_of_room (hk : k ∉ keys l) (hr : l.length < cap) : keys (insert cap l k v) = keys l ++ [k] := by
  rw [insert, if_neg hk, if_pos hr, keys_append]
  rfl

theorem keys_insert_of_full (hk : k ∉ keys l) (hf : ¬ l.length < cap) :
    keys (insert cap l k v) = (keys l).tail ++ [k] := by
  rw [insert, if_neg hk, if_neg hf, keys_append, keys_tail]
  rfl

/-- The other keys were there before. -/
theorem mem_keys_of_insert (hx : x ∈ keys (insert cap l k v)) (hne : x ≠ k) : x ∈ keys l := by
  have hnot : x ∉ [k] := fun hm => hne (List.mem_singleton.mp hm)
  by_cases hk : k ∈ keys l
  · rwa [keys_insert_of_mem hk] at hx
  by_cases hr : l.length < cap
  · rw [keys_insert_of_room hk hr] at hx
    exact (List.mem_append.mp hx).resolve_right hnot
  · rw [keys_insert_of_full hk hr] at hx
    exact List.mem_of_mem_tail ((List.mem_append.mp hx).resolve_right hnot)

theorem length_insert_le (hcap : 0 < cap) (hl : l.length ≤ cap) : (insert cap l k v).length ≤ cap := by
  unfold insert
  split
  · rw [Slots.length_updateFirst]
    exact hl
  split
  · rw [List.length_append]
    assumption
  · rw [List.length_append, List.length_tail, List.length_singleton]
    omega

theorem lookup_eq_none : lookup l k = none ↔ k ∉ keys l := by
  rw [lookup, Option.map_eq_none_iff, List.find?_eq_none, keys, List.mem_map]
  constructor
  · intro h hk
    obtain ⟨e, he, rfl⟩ := hk
    exact h e he (decide_eq_true rfl)
  · intro h e he hek
    exact h ⟨e, he, of_decide_eq_true hek⟩

theorem lookup_append : lookup (l ++ h) x = (lookup l x).or (lookup h x) := by
  rw [lookup, List.find?_append, Option.map_or]
  rfl

theorem lookup_singleton : lookup [(k, v)] x = if k = x then some v else none := by
  rw [lookup, List.find?_singleton]
  by_cases hk : k = x
  · rw [if_pos hk, if_pos (decide_eq_true hk)]
    rfl
  · rw [if_neg hk, if_neg (mt of_decide_eq_true hk)]
    rfl

theorem lookup_insert_self : lookup (insert cap l k v) k = some v := by
  have hnew : ∀ {l' : List (κ × β)}, k ∉ keys l' → lookup (l' ++ [(k, v)]) k = some v := fun hno => by
    rw [lookup_append, lookup_eq_none.mpr hno, lookup_singleton, if_pos rfl]
    rfl
  unfold insert
  split
  · next hk =>
    obtain ⟨b, hb⟩ := Option.ne_none_iff_exists'.mp (mt lookup_eq_none.mp (not_not.mpr hk))
    obtain ⟨e, he, -⟩ := Option.map_eq_some_iff.mp hb
    have hfind := Slots.find?_updateFirst_self (p := fun e : κ × β => decide (e.1 = k)) (f := fun e => (e.1, v)) (fun _ h => h) l
    rw [lookup, hfind, he]
    rfl
  next hk =>
  split
  · exact hnew hk
  · refine hnew fun hmem => hk ?_
    rw [keys_tail] at hmem
    exact List.mem_of_mem_tail hmem

/-- A key that stays keeps its value. -/
theorem lookup_insert_other (hn : (keys l).Nodup) (hx : x ≠ k) (hmem : x ∈ keys (insert cap l k v)) :
    lookup (insert cap l k v) x = lookup l x := by
  have hnew : ∀ {l' : List (κ × β)}, lookup (l' ++ [(k, v)]) x = lookup l' x := by
    intro l'
    rw [lookup_append, lookup_singleton, if_neg (Ne.symm hx), Option.or_none]
  by_cases hk : k ∈ keys l
  · rw [insert, if_pos hk, lookup, Slots.find?_updateFirst_other]
    · rfl
    · intro e he
      have hne : decide (e.1 = x) = false := decide_eq_false (of_decide_eq_true he ▸ Ne.symm hx)
      exact ⟨hne, hne⟩
  by_cases hr : l.length < cap
  · rw [insert, if_neg hk, if_pos hr, hnew]
  · rw [keys_insert_of_full hk hr] at hmem
    rw [insert, if_neg hk, if_neg hr, hnew]
    have htail : x ∈ (keys l).tail := (List.mem_append.mp hmem).resolve_right fun h => hx (List.mem_singleton.mp h)
    -- the first key is another one
    cases l with
    | nil => cases htail
    | cons e l =>
      have hne : e.1 ≠ x := fun he => (List.nodup_cons.mp hn).1 (he ▸ htail)
      rw [List.tail_cons, lookup, lookup, List.find?_cons, decide_eq_false hne]

/-! ## Runs -/

/-- What holds after the insertions: the keys came one after the other. -/
structure Held (cap : Nat) (h : List (κ × β)) : Prop where
  length_le : (run cap h).length ≤ cap
  values : ∀ k ∈ keys (run cap h), lookup (run cap h) k = last h k
  came : ∃ births : List Nat, births.Pairwise (· < ·) ∧ List.Forall₂ (CameAt cap h) (keys (run cap h)) births

theorem lt_of_came {births : List Nat} {ks : List κ} (hb : List.Forall₂ (CameAt cap h) ks births) :
    ∀ b ∈ births, b < h.length := by
  intro b hmem
  obtain ⟨k, -, hk⟩ := Slots.forall₂_mem_right hb hmem
  exact hk.lt

/-- Keys that came at different times are different. -/
theorem Held.nodup (hh : Held cap h) : (keys (run cap h)).Nodup := by
  obtain ⟨births, hsort, hcame⟩ := hh.came
  generalize keys (run cap h) = ks at hcame
  induction hcame with
  | nil => exact List.nodup_nil
  | @cons k b ks bs hk hrest ih =>
    obtain ⟨hlt, hsort⟩ := List.pairwise_cons.mp hsort
    refine List.nodup_cons.mpr ⟨fun hmem => ?_, ih hsort⟩
    obtain ⟨b', hb', hk'⟩ := Slots.forall₂_mem_right hrest.flip hmem
    exact Nat.lt_irrefl b (hk.unique hk' ▸ hlt b' hb')

/-- Those that stay came when they came. -/
theorem came_concat {ks : List κ} {births : List Nat} (hstay : ∀ x ∈ ks, x ∈ keys (run cap (h ++ [e])))
    (hcame : List.Forall₂ (CameAt cap h) ks births) : List.Forall₂ (CameAt cap (h ++ [e])) ks births := by
  induction hcame with
  | nil => exact .nil
  | cons hx _ ih =>
    exact .cons (hx.concat (hstay _ List.mem_cons_self)) (ih fun x hx => hstay x (List.mem_cons_of_mem _ hx))

/-- A new key comes after those that stay. -/
theorem came_push {ks : List κ} {births : List Nat} (hsort : births.Pairwise (· < ·))
    (hcame : List.Forall₂ (CameAt cap h) ks births) (hk : k ∉ keys (run cap h))
    (hkeys : keys (run cap (h ++ [(k, v)])) = ks ++ [k]) :
    ∃ births, births.Pairwise (· < ·) ∧
      List.Forall₂ (CameAt cap (h ++ [(k, v)])) (keys (run cap (h ++ [(k, v)]))) births := by
  have hself : k ∈ keys (run cap (h ++ [(k, v)])) := hkeys ▸ List.mem_append_right _ (List.mem_singleton_self k)
  refine ⟨births ++ [h.length], ?_, ?_⟩
  · refine List.pairwise_append.mpr ⟨hsort, List.pairwise_singleton _ _, fun b hb _ hn => ?_⟩
    rw [List.mem_singleton.mp hn]
    exact lt_of_came hcame b hb
  · have hold := came_concat (fun x hx => hkeys ▸ List.mem_append_left _ hx) hcame
    rw [hkeys]
    exact List.rel_append hold (.cons (beganAt_concat hk hself) .nil)

theorem Held.concat (hcap : 0 < cap) (hh : Held cap h) (k : κ) (v : β) : Held cap (h ++ [(k, v)]) := by
  refine ⟨?_, fun x hx => ?_, ?_⟩
  · rw [run_concat]
    exact length_insert_le hcap hh.length_le
  · rw [last_concat]
    rw [run_concat] at hx ⊢
    split
    · next hkx =>
      rw [← hkx]
      exact lookup_insert_self
    · next hkx =>
      rw [lookup_insert_other hh.nodup (Ne.symm hkx) hx]
      exact hh.values x (mem_keys_of_insert hx (Ne.symm hkx))
  · obtain ⟨births, hsort, hcame⟩ := hh.came
    by_cases hk : k ∈ keys (run cap h)
    · have hsame : keys (run cap (h ++ [(k, v)])) = keys (run cap h) := by rw [run_concat, keys_insert_of_mem hk]
      refine ⟨births, hsort, ?_⟩
      rw [hsame]
      exact came_concat (fun x hx => hsame ▸ hx) hcame
    by_cases hr : (run cap h).length < cap
    · exact came_push hsort hcame hk (by rw [run_concat, keys_insert_of_room hk hr])
    · have htail : List.Forall₂ (CameAt cap h) (keys (run cap h)).tail births.tail := by
        generalize keys (run cap h) = ks at hcame
        cases hcame with
        | nil => exact .nil
        | cons _ hrest => exact hrest
      exact came_push hsort.tail htail hk (by rw [run_concat, keys_insert_of_full hk hr])

end FifoMap
