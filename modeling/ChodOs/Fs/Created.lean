/-
What is created can be found: `create_file` and `mkdir` cut a path from the
right, `lookup` from the left, and they mean the same node, however many
slashes there are between the names, at the end and in front.
-/
import ChodOs.Fs.CopyUp
import Mathlib.Logic.Relation

namespace ChodOs

open Relation

/-! ## Redundant slashes -/

/-- One slash less: one of two in a row, or one at the end. -/
inductive OneSlashLess : Path → Path → Prop
  | repeated (a b : Path) : OneSlashLess (a ++ '/' :: '/' :: b) (a ++ '/' :: b)
  | trailing (a : Path) : OneSlashLess (a ++ ['/']) a

/-- The paths differ only in repeated or trailing slashes. -/
def Respelled : Path → Path → Prop := EqvGen OneSlashLess

/-- The same from the root, where `lookup` starts with or without a slash in front. -/
def SamePath (p q : Path) : Prop := Respelled ('/' :: p) ('/' :: q)

/-- Every name with one slash in front. -/
def spelled (names : List Name) : Path := names.flatMap ('/' :: ·)

variable {path a b p q : Path}

theorem Respelled.trans (h : Respelled p a) (h' : Respelled a q) : Respelled p q := EqvGen.trans _ _ _ h h'

theorem Respelled.symm (h : Respelled p q) : Respelled q p := EqvGen.symm _ _ h

theorem parts_cons_slash (path : Path) : parts ('/' :: path) = parts path := by
  simpa using parts_append (a := []) (b := path)

theorem Respelled.parts_eq (h : Respelled p q) : parts p = parts q := by
  induction h with
  | rel p q hstep =>
    cases hstep with
    | repeated a b => rw [parts_append, parts_append, parts_cons_slash]
    | trailing a => rw [parts_append, parts_nil, List.append_nil]
  | refl p => rfl
  | symm p q _ ih => exact ih.symm
  | trans p q a _ _ ih ih' => exact ih.trans ih'

/-- A path is cut at its first slash, if it has one. -/
theorem exists_first_slash (path : Path) : '/' ∉ path ∨ ∃ x rest, path = x ++ '/' :: rest ∧ '/' ∉ x := by
  induction path with
  | nil => exact .inl List.not_mem_nil
  | cons c path ih =>
    by_cases hc : c = '/'
    · exact .inr ⟨[], path, by rw [hc, List.nil_append], List.not_mem_nil⟩
    · rcases ih with hno | ⟨x, rest, rfl, hx⟩
      · exact .inl (List.not_mem_cons_of_ne_of_not_mem (Ne.symm hc) hno)
      · exact .inr ⟨c :: x, rest, rfl, List.not_mem_cons_of_ne_of_not_mem (Ne.symm hc) hx⟩

/-- Behind a slash, a path is as good as its names. -/
theorem respelled_append (a b : Path) : Respelled (a ++ '/' :: b) (a ++ spelled (parts b)) := by
  induction hn : b.length using Nat.strong_induction_on generalizing a b with
  | _ n ih =>
    rcases exists_first_slash b with hno | ⟨x, rest, rfl, hx⟩
    · by_cases hb : b = []
      · subst hb
        rw [parts_nil, spelled, List.flatMap_nil, List.append_nil]
        exact .rel _ _ (.trailing a)
      · rw [parts_of_not_mem hno hb, spelled, List.flatMap_singleton]
        exact .refl _
    · have hshort : rest.length < n := by
        rw [← hn, List.length_append, List.length_cons]
        omega
      by_cases hempty : x = []
      · subst hempty
        rw [List.nil_append, parts_cons_slash]
        exact (Respelled.trans (.rel _ _ (.repeated a rest)) (ih _ hshort a rest rfl))
      · have hrest := ih _ hshort (a ++ '/' :: x) rest rfl
        have hspelled : spelled (parts (x ++ '/' :: rest)) = '/' :: x ++ spelled (parts rest) := by
          rw [parts_append, parts_of_not_mem hx hempty, List.singleton_append]
          rfl
        rw [hspelled, ← List.append_assoc]
        rwa [List.append_assoc, List.cons_append] at hrest

/-- Paths with a slash in front that have the same names differ in redundant slashes only. -/
theorem respelled_iff : Respelled ('/' :: p) ('/' :: q) ↔ parts p = parts q := by
  constructor
  · intro h
    have hparts := h.parts_eq
    rwa [parts_cons_slash, parts_cons_slash] at hparts
  · intro h
    have hp := respelled_append [] p
    have hq := respelled_append [] q
    rw [h] at hp
    exact hp.trans hq.symm

theorem samePath_iff : SamePath p q ↔ parts p = parts q := respelled_iff

theorem samePath_of_absolute (hp : p.head? = some '/') (hq : q.head? = some '/') : SamePath p q ↔ Respelled p q := by
  obtain ⟨a, rfl⟩ := List.head?_eq_some_iff.mp hp
  obtain ⟨b, rfl⟩ := List.head?_eq_some_iff.mp hq
  rw [samePath_iff, respelled_iff, parts_cons_slash, parts_cons_slash]

namespace Vfs

variable {s s' : Vfs} {r n m : NodeRef} {new : Nat → VfsNode}

theorem lookup_respelled (s : Vfs) (h : Respelled p q) : s.lookup p = s.lookup q := by
  rw [lookup_eq_find, lookup_eq_find, h.parts_eq]

/-! ## What is created -/

/-- A path that leads somewhere is not made again. -/
theorem create_of_lookup (hl : s.lookup path = some m) (hcreate : (s.create path new).1 = some n) :
    n = m ∧ (s.create path new).2 = s := by
  unfold create at hcreate ⊢
  split at hcreate
  · cases hcreate
  next parent x hsplit =>
  split at hcreate
  · cases hcreate
  next p hp =>
  split at hcreate
  · next dir info hnode =>
    have hentry : dir[x]? = some m := by rw [← entry_of_dir hnode, ← lookup_split hsplit hp, hl]
    simp only [orInsertWith, hentry] at hcreate ⊢
    exact ⟨(Option.some.inj hcreate).symm, trivial⟩
  · cases hcreate

/-- `n` is where the path leads; no other path leads elsewhere than before. -/
structure Found (s : Vfs) (path : Path) (n : NodeRef) (s' : Vfs) : Prop where
  found : s'.lookup path = some n
  others : ∀ q, ¬ SamePath q path → s'.lookup q = s.lookup q

theorem Tree.found_create (ht : Tree s r) (hnew : ∀ ino y, (new ino).entry y = none)
    (hcreate : (s.create path new).1 = some n) : Found s path n (s.create path new).2 := by
  cases hl : s.lookup path with
  | some m =>
    obtain ⟨rfl, hsame⟩ := create_of_lookup hl hcreate
    rw [hsame]
    exact ⟨hl, fun _ _ => rfl⟩
  | none =>
    rcases ht.create_cases hl hnew with hsame | ⟨hnode, hmade⟩
    · rw [hsame] at hcreate
      cases hcreate
    · obtain rfl : s.nextRef = n := Option.some.inj (hnode.symm.trans hcreate)
      refine ⟨?_, fun q hq => ?_⟩
      · rw [lookup_eq_find, hmade.find, if_pos rfl]
      · rw [lookup_eq_find, lookup_eq_find, hmade.find, if_neg (mt samePath_iff.mpr hq)]

/-- In every tree, what `create_file` or `mkdir` returns for a path is what
`lookup` finds there afterwards, and no other path is looked up otherwise than
before (nor is one below it: what was created has nothing below). Paths that
differ in repeated or trailing slashes only are the same path, and paths
without a slash in front are those with one. -/
theorem created_is_found (ht : Tree s r) :
    (∀ path n, (s.createFile path).1 = some n → Found s path n (s.createFile path).2) ∧
    (∀ path n, (s.mkdir path).1 = some n → Found s path n (s.mkdir path).2) ∧
    (∀ p q, Respelled p q → s.lookup p = s.lookup q) ∧
    ∀ p q, p.head? = some '/' → q.head? = some '/' → (SamePath p q ↔ Respelled p q) :=
  ⟨fun _ _ => ht.found_create fun _ _ => rfl,
    fun _ _ => ht.found_create fun _ _ => Std.ExtTreeMap.getElem?_empty,
    fun _ _ => s.lookup_respelled, fun _ _ => samePath_of_absolute⟩

/-- A directory that is made is found under each of its spellings. -/
theorem created_is_found_mkdir : ∃ n, (boot.init.mkdir "/tmp//a/".toList).1 = some n ∧
    Found boot.init "/tmp//a/".toList n (boot.init.mkdir "/tmp//a/".toList).2 := by
  obtain ⟨n, hn⟩ : ∃ n, (boot.init.mkdir "/tmp//a/".toList).1 = some n := Option.isSome_iff_exists.mp (by decide)
  exact ⟨n, hn, (created_is_found tree_init).2.1 _ n hn⟩

end Vfs

end ChodOs
