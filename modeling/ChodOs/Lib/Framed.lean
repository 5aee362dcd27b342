/-
A reader of frames of `n` bytes that knows them by a mark on their first
byte: that it reads what is sent to it, and how long it stays out of step
when it has begun in the middle of a frame.
-/
import Mathlib.Data.List.TakeWhile

namespace Framed

variable {α : Type} (n : Nat) (mark : α → Bool)

/-- One more byte after those that are held; one without a mark begins no frame. -/
def feed (held : List α) (b : α) : Option (List α) × List α :=
  if held.isEmpty && !mark b then (none, [])
  else if held.length + 1 = n then (some (held ++ [b]), [])
  else (none, held ++ [b])

/-- The frames that are read, and what is held at the end. -/
def feeds (held : List α) : List α → List (List α) × List α
  | [] => ([], held)
  | b :: bs =>
    let r := feed n mark held b
    let rs := feeds r.2 bs
    (r.1.toList ++ rs.1, rs.2)

/-- A frame, as it is sent. -/
structure IsFrame (f : List α) : Prop where
  length : f.length = n
  marked : f.head?.any mark = true

/-- In each frame there is a marked byte at `o` or behind, and nowhere before
the one in the frame before. -/
inductive Strays : Nat → List (List α) → Prop
  | nil {o : Nat} : Strays o []
  | cons {o j : Nat} {f : List α} {fs : List (List α)} : o ≤ j → (f[j]?).any mark = true → Strays j fs → Strays o (f :: fs)

variable {n mark} {held bs cs f : List α} {fs : List (List α)} {b : α} {o o' : Nat}

theorem feeds_append (held bs cs : List α) : feeds n mark held (bs ++ cs) =
    ((feeds n mark held bs).1 ++ (feeds n mark (feeds n mark held bs).2 cs).1, (feeds n mark (feeds n mark held bs).2 cs).2) := by
  induction bs generalizing held with
  | nil => rfl
  | cons b bs ih =>
    rw [List.cons_append, feeds, feeds, ih]
    dsimp only
    rw [List.append_assoc]

theorem feed_of_ne_nil (h : held ≠ []) (b : α) :
    feed n mark held b = if held.length + 1 = n then (some (held ++ [b]), []) else (none, held ++ [b]) := by
  rw [feed, if_neg]
  rw [List.isEmpty_eq_false_iff.mpr h]
  exact Bool.false_ne_true

theorem feed_marked (hmark : mark b = true) :
    feed n mark [] b = if 1 = n then (some [b], []) else (none, [b]) := by
  rw [feed, hmark]
  rfl

theorem feed_unmarked (hmark : mark b = false) : feed n mark [] b = (none, []) := by
  rw [feed, hmark]
  rfl

/-- A frame that has begun is filled up. -/
theorem feeds_fill (h : held ≠ []) (hlen : held.length + bs.length < n) : feeds n mark held bs = ([], held ++ bs) := by
  induction bs generalizing held with
  | nil => rw [feeds, List.append_nil]
  | cons b bs ih =>
    rw [List.length_cons] at hlen
    rw [feeds, feed_of_ne_nil h, if_neg (by omega)]
    dsimp only
    rw [ih (by simp) (by rw [List.length_append, List.length_singleton]; omega), List.append_assoc]
    rfl

/-- And read with its last byte. -/
theorem feeds_full (h : held ≠ []) (hbs : bs ≠ []) (hlen : held.length + bs.length = n) :
    feeds n mark held bs = ([held ++ bs], []) := by
  obtain ⟨init, b, rfl⟩ : ∃ init b, bs = init ++ [b] := ⟨_, _, (List.dropLast_concat_getLast hbs).symm⟩
  rw [List.length_append, List.length_singleton] at hlen
  rw [feeds_append, feeds_fill h (by omega)]
  dsimp only
  rw [feeds, feed_of_ne_nil (by simp [h]), if_pos (by rw [List.length_append]; omega), List.append_assoc]
  rfl

/-- In step, frames are read as they are sent. -/
theorem feeds_frames (hfs : ∀ f ∈ fs, IsFrame n mark f) : feeds n mark [] fs.flatten = (fs, []) := by
  induction fs with
  | nil => rfl
  | cons f fs ih =>
    obtain ⟨hf, hfs⟩ := List.forall_mem_cons.mp hfs
    have hone : feeds n mark [] f = ([f], []) := by
      cases f with
      | nil => cases hf.marked
      | cons b bs =>
        have hmark : mark b = true := hf.marked
        have hlen : bs.length + 1 = n := hf.length
        rw [feeds, feed_marked hmark]
        cases bs with
        | nil =>
          rw [if_pos (show 1 = n from hlen)]
          rfl
        | cons c cs =>
          rw [if_neg (by rw [List.length_cons] at hlen; omega)]
          dsimp only
          rw [feeds_full (List.cons_ne_nil _ _) (List.cons_ne_nil _ _) (by rw [← hlen, Nat.add_comm]; rfl)]
          rfl
    rw [List.flatten_cons, feeds_append, hone]
    dsimp only
    rw [ih hfs]
    rfl

/-! ## Out of step -/

/-- A part of a frame is taken for one from its first mark on. -/
theorem feeds_part (hlen : bs.length < n) : feeds n mark [] bs = ([], bs.dropWhile fun b => !mark b) := by
  induction bs with
  | nil => rfl
  | cons b bs ih =>
    rw [List.length_cons] at hlen
    rw [feeds, List.dropWhile_cons]
    cases hmark : mark b with
    | false =>
      rw [feed_unmarked hmark]
      dsimp only
      rw [ih (by omega)]
      rfl
    | true =>
      rw [feed_marked hmark, if_neg (by omega)]
      dsimp only
      rw [feeds_fill (List.cons_ne_nil _ _) (by rw [List.length_singleton]; omega)]
      rfl

/-- A whole frame fills up the one that has begun; what is taken for the next
begins at a mark in it. -/
theorem feeds_across (h : held ≠ []) (hlen : held.length < n) (hf : f.length = n) :
    feeds n mark held f =
      ([held ++ f.take (n - held.length)], (f.drop (n - held.length)).dropWhile fun b => !mark b) := by
  have hpos := List.length_pos_iff.mpr h
  have htake : (f.take (n - held.length)).length = n - held.length := by rw [List.length_take]; omega
  have hfull : feeds n mark held (f.take (n - held.length)) = ([held ++ f.take (n - held.length)], []) :=
    feeds_full h (fun hnil => by rw [hnil, List.length_nil] at htake; omega) (by omega)
  have hsplit : feeds n mark held (f.take (n - held.length) ++ f.drop (n - held.length)) = _ := feeds_append ..
  rw [List.take_append_drop, hfull] at hsplit
  rw [hsplit]
  dsimp only
  rw [feeds_part (by rw [List.length_drop]; omega)]
  rfl

theorem Strays.mono (h : Strays mark o fs) (ho : o' ≤ o) : Strays mark o' fs := by
  cases h with
  | nil => exact .nil
  | cons hj hmark hfs => exact .cons (Nat.le_trans ho hj) hmark hfs

theorem Strays.marked (h : Strays mark o fs) (hf : f ∈ fs) : ∃ j, o ≤ j ∧ (f[j]?).any mark = true := by
  induction h with
  | nil => cases hf
  | cons hj hmark _ ih =>
    rcases List.mem_cons.mp hf with rfl | hf
    · exact ⟨_, hj, hmark⟩
    · obtain ⟨j', hj', hmark'⟩ := ih hf
      exact ⟨j', Nat.le_trans hj hj', hmark'⟩

/-- The first mark from `o` on is where the reader is out of step next. -/
theorem strays_cons : Strays mark o (f :: fs) ↔
    ∃ b bs, (f.drop o).dropWhile (fun b => !mark b) = b :: bs ∧ Strays mark (f.length - (b :: bs).length) fs := by
  have hsplit := List.takeWhile_append_dropWhile (p := fun b => !mark b) (l := f.drop o)
  have hskip : ∀ b ∈ (f.drop o).takeWhile (fun b => !mark b), mark b = false := fun b hb => by
    simpa using List.mem_takeWhile_imp hb
  generalize (f.drop o).takeWhile (fun b => !mark b) = skip at hsplit hskip
  have hhead : ∀ b bs, (f.drop o).dropWhile (fun b => !mark b) = b :: bs → mark b = true := fun b bs hd => by
    have hb := List.head?_dropWhile_not (fun b => !mark b) (f.drop o)
    rw [hd] at hb
    simpa using hb
  generalize (f.drop o).dropWhile (fun b => !mark b) = rest at hsplit hhead
  have hlen := congrArg List.length hsplit
  rw [List.length_append, List.length_drop] at hlen
  have hget : ∀ i, f[o + i]? = (skip ++ rest)[i]? := fun i => by rw [hsplit, List.getElem?_drop]
  constructor
  · rintro (_ | ⟨hj, hmark, hfs⟩)
    rename_i j
    obtain ⟨i, rfl⟩ := Nat.exists_eq_add_of_le hj
    rw [hget] at hmark
    obtain ⟨b, hb, hmarked⟩ := (Option.any_eq_true _ _).mp hmark
    have hbehind : skip.length ≤ i := by
      refine Nat.le_of_not_lt fun hlt => ?_
      rw [List.getElem?_append_left hlt] at hb
      rw [hskip b (List.mem_of_getElem? hb)] at hmarked
      cases hmarked
    rw [List.getElem?_append_right hbehind] at hb
    cases rest with
    | nil => cases hb
    | cons b' bs => exact ⟨b', bs, rfl, hfs.mono (by omega)⟩
  · rintro ⟨b, bs, rfl, hfs⟩
    have hj : f.length - (b :: bs).length = o + skip.length := by
      rw [List.length_cons] at hlen ⊢
      omega
    refine .cons (by omega) ?_ hfs
    rw [hj, hget, List.getElem?_append_right (Nat.le_refl _), Nat.sub_self]
    exact hhead b bs rfl

/-- Out of step for as long as the frames that come allow it. -/
theorem out_of_step_iff (h : held ≠ []) (hlen : held.length < n) (hfs : ∀ f ∈ fs, IsFrame n mark f) :
    (feeds n mark held fs.flatten).2 ≠ [] ↔ Strays mark (n - held.length) fs := by
  induction fs generalizing held with
  | nil => exact iff_of_true h .nil
  | cons f fs ih =>
    obtain ⟨hf, hfs⟩ := List.forall_mem_cons.mp hfs
    rw [List.flatten_cons, feeds_append, feeds_across h hlen hf.length, strays_cons]
    dsimp only
    cases hrest : (f.drop (n - held.length)).dropWhile (fun b => !mark b) with
    | nil =>
      rw [feeds_frames hfs]
      exact iff_of_false (fun hne => hne rfl) fun ⟨_, _, hcon, _⟩ => nomatch hcon
    | cons b bs =>
      have hshort := (List.dropWhile_sublist (l := f.drop (n - held.length)) (fun b => !mark b)).length_le
      have hpos := List.length_pos_iff.mpr h
      rw [hrest, List.length_drop, hf.length] at hshort
      rw [ih (List.cons_ne_nil _ _) (by omega) hfs, hf.length]
      exact ⟨fun hs => ⟨b, bs, rfl, hs⟩, fun ⟨_, _, heq, hs⟩ => by rw [heq]; exact hs⟩

end Framed
