/-
Code that saves registers on the stack and gets them back, whatever the
registers are: what pushes leave in memory, and what pops read from it.
-/
import ChodOs.Lib.ByteMem
import Mathlib.Data.List.Nodup

namespace ByteMem

/-- The `n` words from `a`. -/
def words (m : ByteMem) (a n : Nat) : List Nat := (List.range n).map fun i => m.word (a + 8 * i)

@[simp] theorem length_words (m : ByteMem) (a n : Nat) : (m.words a n).length = n := by
  rw [words, List.length_map, List.length_range]

theorem getElem?_words {m : ByteMem} {a n i : Nat} (h : i < n) : (m.words a n)[i]? = some (m.word (a + 8 * i)) := by
  rw [words, List.getElem?_map, List.getElem?_range h, Option.map_some]

theorem words_congr {m m' : ByteMem} {a n : Nat} (h : ∀ x, a ≤ x → x < a + 8 * n → m' x = m x) :
    m'.words a n = m.words a n := by
  refine List.map_congr_left fun i hi => word_congr fun x hx hx' => h x (by omega) ?_
  have hin := List.mem_range.mp hi
  omega

theorem words_add {m : ByteMem} {a n k : Nat} : m.words a (n + k) = m.words a n ++ m.words (a + 8 * n) k := by
  rw [words, List.range_add, List.map_append, List.map_map]
  refine congrArg _ (List.map_congr_left fun i _ => ?_)
  rw [Function.comp_apply, Nat.mul_add, Nat.add_assoc]

/-- Words that are stored are read back, as far as they fit. -/
theorem words_setWords {m : ByteMem} {a : Nat} {vs : List Nat} :
    (m.setWords a vs).words a vs.length = vs.map (· % 2 ^ 64) := by
  refine List.ext_getElem? fun i => ?_
  rw [List.getElem?_map]
  rcases Nat.lt_or_ge i vs.length with hi | hi
  · rw [getElem?_words hi, List.getElem?_eq_getElem hi, word_setWords (List.getElem?_eq_getElem hi), Option.map_some]
  · rw [List.getElem?_eq_none hi, List.getElem?_eq_none (by rwa [length_words]), Option.map_none]

/-- The upper words first. -/
theorem setWords_append_left {m : ByteMem} {a : Nat} {vs ws : List Nat} :
    m.setWords a (vs ++ ws) = (m.setWords (a + 8 * vs.length) ws).setWords a vs := by
  induction vs generalizing m a with
  | nil => rfl
  | cons v vs ih =>
    rw [List.cons_append, setWords, ih, List.length_cons, setWords_setWord (.inl (by omega)), setWords,
      show a + 8 * (vs.length + 1) = a + 8 + 8 * vs.length by omega]

/-! ## Single bytes -/

/-- Bytes written one by one. -/
def stores (m : ByteMem) (ws : List (Nat × UInt8)) : ByteMem :=
  ws.foldl (fun (m : Nat → UInt8) w => Function.update m w.1 w.2) m

/-- The same, of a memory that is known in part. -/
def learns (k : Nat → Option UInt8) (ws : List (Nat × UInt8)) : Nat → Option UInt8 :=
  ws.foldl (fun (k : Nat → Option UInt8) w => Function.update k w.1 (some w.2)) k

theorem stores_outside {m : ByteMem} {ws : List (Nat × UInt8)} {a : Nat} (h : ∀ w ∈ ws, w.1 ≠ a) : m.stores ws a = m a := by
  induction ws generalizing m with
  | nil => rfl
  | cons w ws ih =>
    have hw : w.1 ≠ a := h w List.mem_cons_self
    exact (ih fun x hx => h x (List.mem_cons_of_mem _ hx)).trans (Function.update_of_ne hw.symm ..)

/-- What is known, or written, is so after the writes. -/
theorem stores_learns {m : ByteMem} {k : Nat → Option UInt8} {ws : List (Nat × UInt8)} {a : Nat} {v : UInt8}
    (hk : ∀ a v, k a = some v → m a = v) (h : learns k ws a = some v) : m.stores ws a = v := by
  induction ws generalizing m k with
  | nil => exact hk a v h
  | cons w ws ih =>
    refine ih (m := Function.update (β := fun _ => UInt8) m w.1 w.2)
      (k := Function.update (β := fun _ => Option UInt8) k w.1 (some w.2)) (fun b u hb => ?_) h
    rcases eq_or_ne b w.1 with rfl | hne
    · rw [Function.update_self] at hb ⊢
      exact Option.some.inj hb
    · rw [Function.update_of_ne hne] at hb ⊢
      exact hk b u hb

theorem learns_outside {k : Nat → Option UInt8} {ws : List (Nat × UInt8)} {a : Nat} (h : ∀ w ∈ ws, w.1 ≠ a) :
    learns k ws a = k a := by
  induction ws generalizing k with
  | nil => rfl
  | cons w ws ih =>
    have hw : w.1 ≠ a := h w List.mem_cons_self
    exact (ih fun x hx => h x (List.mem_cons_of_mem _ hx)).trans (Function.update_of_ne hw.symm ..)

/-- A byte that is known was written, or known before. -/
theorem learns_eq_some {k : Nat → Option UInt8} {ws : List (Nat × UInt8)} {a : Nat} {v : UInt8}
    (h : learns k ws a = some v) : (∃ w ∈ ws, w.1 = a) ∨ k a = some v := by
  by_cases hw : ∃ w ∈ ws, w.1 = a
  · exact .inl hw
  · rw [learns_outside fun w hmem he => hw ⟨w, hmem, he⟩] at h
    exact .inr h

end ByteMem

/-- Registers of some kind, a stack pointer and the memory. -/
structure RegStack (R : Type) where
  reg : R → Nat
  rsp : Nat
  mem : ByteMem

namespace RegStack

inductive Ins (R : Type)
  | push (r : R)
  | pushImm (v : Nat)
  | pop (r : R)
  /-- `mov r, rsp` -/
  | saveRsp (r : R)
  /-- `mov rsp, r` -/
  | loadRsp (r : R)
  /-- `add rsp, n` -/
  | addRsp (n : Nat)

variable {R : Type}

def pushWord (s : RegStack R) (v : Nat) : RegStack R := { s with rsp := s.rsp - 8, mem := s.mem.setWord (s.rsp - 8) v }

/-- Words pushed one by one lie in memory the other way round. -/
theorem foldl_pushWord {s : RegStack R} {vs : List Nat} (h : 8 * vs.length ≤ s.rsp) : vs.foldl pushWord s =
    { s with
      rsp := s.rsp - 8 * vs.length
      mem := s.mem.setWords (s.rsp - 8 * vs.length) vs.reverse } := by
  induction vs generalizing s with
  | nil => rfl
  | cons v vs ih =>
    rw [List.length_cons] at h
    have hrsp : s.rsp - 8 - 8 * vs.length = s.rsp - 8 * (vs.length + 1) := by omega
    have htop : s.rsp - 8 * (vs.length + 1) + 8 * vs.reverse.length = s.rsp - 8 := by
      rw [List.length_reverse]
      omega
    have hwords : (s.mem.setWord (s.rsp - 8) v).setWords (s.rsp - 8 * (vs.length + 1)) vs.reverse =
        s.mem.setWords (s.rsp - 8 * (vs.length + 1)) (v :: vs).reverse := by
      rw [ByteMem.setWords_setWord (.inr (by omega)), List.reverse_cons, ByteMem.setWords_append, htop]
      rfl
    have hpush : (s.pushWord v).rsp = s.rsp - 8 := rfl
    rw [List.foldl_cons, ih (by rw [hpush]; omega), List.length_cons, ← hwords, ← hrsp]
    rfl

variable [DecidableEq R]

def exec (s : RegStack R) : Ins R → RegStack R
  | .push r => s.pushWord (s.reg r)
  | .pushImm v => s.pushWord v
  | .pop r => { s with reg := Function.update s.reg r (s.mem.word s.rsp), rsp := s.rsp + 8 }
  | .saveRsp r => { s with reg := Function.update s.reg r s.rsp }
  | .loadRsp r => { s with rsp := s.reg r }
  | .addRsp n => { s with rsp := s.rsp + n }

def run (s : RegStack R) (is : List (Ins R)) : RegStack R := is.foldl exec s

variable {s : RegStack R} {rs : List R} {is js : List (Ins R)} {m : ByteMem} {a : Nat} {f : R → Nat} {r : R}

theorem run_append : s.run (is ++ js) = (s.run is).run js := List.foldl_append

/-! ## Pushes -/

theorem run_push : s.run (rs.map .push) = (rs.map s.reg).foldl pushWord s := by
  induction rs generalizing s with
  | nil => rfl
  | cons r rs ih => exact ih (s := s.pushWord (s.reg r))

/-! ## Pops -/

/-- The registers after a row of pops from `a`. -/
def popped (m : ByteMem) (a : Nat) (f : R → Nat) : List R → R → Nat
  | [] => f
  | r :: rs => popped m (a + 8) (Function.update f r (m.word a)) rs

theorem run_pops : s.run (rs.map .pop) =
    { s with reg := popped s.mem s.rsp s.reg rs, rsp := s.rsp + 8 * rs.length } := by
  induction rs generalizing s with
  | nil => rfl
  | cons r rs ih =>
    have hrsp : s.rsp + 8 * (rs.length + 1) = s.rsp + 8 + 8 * rs.length := by omega
    rw [List.length_cons, hrsp]
    exact ih (s := s.exec (.pop r))

theorem popped_of_notMem (h : r ∉ rs) : popped m a f rs r = f r := by
  induction rs generalizing a f with
  | nil => rfl
  | cons q rs ih =>
    obtain ⟨hne, hrs⟩ := not_or.mp (mt List.mem_cons.mpr h)
    rw [popped, ih hrs, Function.update_of_ne hne]

/-- Each register gets the word at its own place. -/
theorem popped_of_words {g : R → Nat} (hnd : rs.Nodup) (hm : m.words a rs.length = rs.map g) (hr : r ∈ rs) :
    popped m a f rs r = g r := by
  induction rs generalizing a f with
  | nil => cases hr
  | cons q rs ih =>
    obtain ⟨hq, hnd⟩ := List.nodup_cons.mp hnd
    rw [List.length_cons, Nat.add_comm, ByteMem.words_add, List.map_cons] at hm
    obtain ⟨hhead, htail⟩ := List.cons.inj hm
    rcases List.mem_cons.mp hr with rfl | hr
    · rw [popped, popped_of_notMem hq, Function.update_self]
      exact hhead
    · rw [popped]
      exact ih hnd htail hr

end RegStack
