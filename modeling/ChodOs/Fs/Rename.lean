/-
What removing, inserting and renaming do to the entries of directories, and
when a rename that fails has changed nothing: the node is taken out of its
directory before the new parent has been seen to be one.
-/
import ChodOs.Fs.Vfs

namespace ChodOs

/-- What a node has under a name, wherever it is. -/
def VfsNode.entry : VfsNode → Name → Option NodeRef
  | .dir d _, x => d[x]?
  | .file _, _ => none

def VfsNode.isDir : VfsNode → Bool
  | .dir _ _ => true
  | .file _ => false

theorem TmpfsDir.getElem?_erase {dir : TmpfsDir} {x y : Name} :
    (dir.erase x)[y]? = if y = x then none else dir[y]? := by
  rw [Std.ExtTreeMap.getElem?_erase]
  exact if_congr (Std.LawfulEqCmp.compare_eq_iff_eq.trans eq_comm) rfl rfl

theorem TmpfsDir.getElem?_insert {dir : TmpfsDir} {x y : Name} {m : NodeRef} :
    (dir.insert x m)[y]? = if y = x then some m else dir[y]? := by
  rw [Std.ExtTreeMap.getElem?_insert]
  exact if_congr (Std.LawfulEqCmp.compare_eq_iff_eq.trans eq_comm) rfl rfl

namespace Vfs

variable {s s' s₁ : Vfs} {a b p q m n : NodeRef} {x y : Name} {node : VfsNode}

def isDir (s : Vfs) (d : NodeRef) : Bool :=
  match s.heap[d]? with
  | some (.dir _ _) => true
  | _ => false

theorem isDir_iff : s.isDir n = true ↔ ∃ dir info, s.heap[n]? = some (.dir dir info) := by
  unfold isDir
  split
  · next dir info hn => exact ⟨fun _ => ⟨dir, info, hn⟩, fun _ => rfl⟩
  · next hn => exact ⟨fun h => (by cases h), fun ⟨dir, info, h⟩ => absurd h (hn dir info)⟩

theorem entry_of_dir {dir : TmpfsDir} {info : VfsMeta} (hn : s.heap[n]? = some (.dir dir info)) :
    s.entry n x = dir[x]? := by
  simp only [entry, hn]

theorem isDir_of_entry (he : s.entry a x = some b) : s.isDir a = true := by
  unfold entry at he
  split at he
  · next hn => exact isDir_iff.mpr ⟨_, _, hn⟩
  · cases he

theorem getElem?_set : (s.set n node).heap[a]? = if n = a then some node else s.heap[a]? := by
  rw [set, Std.ExtTreeMap.getElem?_insert]
  simp only [Nat.compare_eq_eq]

theorem entry_set : (s.set n node).entry a x = if n = a then VfsNode.entry node x else s.entry a x := by
  simp only [entry, getElem?_set]
  by_cases ha : n = a
  · rw [if_pos ha, if_pos ha]
    cases node <;> rfl
  · rw [if_neg ha, if_neg ha]

theorem isDir_set : (s.set n node).isDir a = if n = a then node.isDir else s.isDir a := by
  simp only [isDir, getElem?_set]
  by_cases ha : n = a
  · rw [if_pos ha, if_pos ha]
    cases node <;> rfl
  · rw [if_neg ha, if_neg ha]

/-- Removing takes one entry out and leaves everything else as it is. -/
structure Removed (s : Vfs) (p : NodeRef) (x : Name) (m : NodeRef) (s' : Vfs) : Prop where
  had : s.entry p x = some m
  root : s'.root = s.root
  nextRef : s'.nextRef = s.nextRef
  isDir : ∀ a, s'.isDir a = s.isDir a
  entry : ∀ a y, s'.entry a y = if a = p ∧ y = x then none else s.entry a y

theorem remove_spec (hr : s.remove p x = some (m, s')) : Removed s p x m s' := by
  unfold remove at hr
  split at hr
  · next dir info hp =>
    split at hr
    · next node hx =>
      obtain ⟨rfl, rfl⟩ := Prod.mk.inj (Option.some.inj hr)
      have hdir := entry_of_dir (x := x) hp
      refine ⟨hdir.trans hx, rfl, rfl, fun a => ?_, fun a y => ?_⟩
      · rw [isDir_set]
        split
        · next ha => rw [← ha]; exact (isDir_iff.mpr ⟨dir, info, hp⟩).symm
        · rfl
      · rw [entry_set]
        by_cases ha : p = a
        · subst ha
          rw [if_pos rfl, entry_of_dir hp, VfsNode.entry, TmpfsDir.getElem?_erase]
          simp only [true_and]
        · rw [if_neg ha, if_neg fun h => ha h.1.symm]
    · cases hr
  · cases hr

theorem remove_eq_none : s.remove p x = none ↔ s.entry p x = none := by
  unfold remove entry
  split
  · split <;> simp [*]
  · simp

/-- Inserting sets one entry of a directory. -/
structure Inserted (s : Vfs) (q : NodeRef) (y : Name) (m : NodeRef) (s' : Vfs) : Prop where
  dir : s.isDir q = true
  root : s'.root = s.root
  nextRef : s'.nextRef = s.nextRef
  isDir : ∀ a, s'.isDir a = s.isDir a
  entry : ∀ a x, s'.entry a x = if a = q ∧ x = y then some m else s.entry a x

theorem insert_spec (hi : s.insert q y m = some s') : Inserted s q y m s' := by
  unfold insert at hi
  split at hi
  · next dir info hq =>
    obtain rfl := Option.some.inj hi
    have hdir := isDir_iff.mpr ⟨dir, info, hq⟩
    refine ⟨hdir, rfl, rfl, fun a => ?_, fun a x => ?_⟩
    · rw [isDir_set]
      split
      · next ha => rw [← ha]; exact hdir.symm
      · rfl
    · rw [entry_set]
      by_cases ha : q = a
      · subst ha
        rw [if_pos rfl, entry_of_dir hq, VfsNode.entry, TmpfsDir.getElem?_insert]
        simp only [true_and]
      · rw [if_neg ha, if_neg fun h => ha h.1.symm]
  · cases hi

theorem insert_eq_none : s.insert q y m = none ↔ s.isDir q = false := by
  cases hq : s.heap[q]? with
  | none => simp [insert, isDir, hq]
  | some node => cases node <;> simp [insert, isDir, hq]

/-! ### Renaming -/

/-- The two paths name the entry `x` of `p` and the entry `y` of `q`. -/
structure Names (s : Vfs) (oldPath newPath : Path) (p : NodeRef) (x : Name) (q : NodeRef) (y : Name) : Prop where
  old : ∃ path, splitParent oldPath = some (path, x) ∧ s.lookup path = some p
  new : ∃ path, splitParent newPath = some (path, y) ∧ s.lookup path = some q

/-- The ways a rename can end. -/
inductive Renamed (s : Vfs) (oldPath newPath : Path) : Int → Vfs → Prop
  | refused {e : Int} : e < 0 → (∀ p x q y, Names s oldPath newPath p x q y → s.entry p x = none) →
      Renamed s oldPath newPath e s
  | moved {p q m : NodeRef} {x y : Name} {s₁ s' : Vfs} : Names s oldPath newPath p x q y →
      Removed s p x m s₁ → Inserted s₁ q y m s' → Renamed s oldPath newPath 0 s'
  | dropped {p q m : NodeRef} {x y : Name} {s₁ : Vfs} : Names s oldPath newPath p x q y →
      Removed s p x m s₁ → s.isDir q = false → Renamed s oldPath newPath enoent s₁

theorem Names.unique {x' y' : Name} {p' q' : NodeRef} {oldPath newPath : Path} (h : Names s oldPath newPath p x q y)
    (h' : Names s oldPath newPath p' x' q' y') : p = p' ∧ x = x' ∧ q = q' ∧ y = y' := by
  obtain ⟨⟨op, ho, hp⟩, ⟨np, hn, hq⟩⟩ := h
  obtain ⟨⟨op', ho', hp'⟩, ⟨np', hn', hq'⟩⟩ := h'
  obtain ⟨rfl, rfl⟩ := Prod.mk.inj (Option.some.inj (ho.symm.trans ho'))
  obtain ⟨rfl, rfl⟩ := Prod.mk.inj (Option.some.inj (hn.symm.trans hn'))
  exact ⟨Option.some.inj (hp.symm.trans hp'), rfl, Option.some.inj (hq.symm.trans hq'), rfl⟩

/-- One directory or two: the entry is taken out, then put in. -/
theorem rename_moves {oldPath newPath oldParentPath newParentPath : Path}
    (ho : splitParent oldPath = some (oldParentPath, x)) (hn : splitParent newPath = some (newParentPath, y))
    (hp : s.lookup oldParentPath = some p) (hq : s.lookup newParentPath = some q) :
    s.rename oldPath newPath = match s.remove p x with
      | none => (enoent, s)
      | some (node, s) =>
        match s.insert q y node with
        | some s => (0, s)
        | none => (enoent, s) := by
  simp only [rename, ho, hn, hp, hq]
  split
  · next heq =>
    subst heq
    rfl
  · rfl

theorem rename_refused {e : Int} {oldPath newPath : Path} (h : s.rename oldPath newPath = (e, s)) (he : e < 0)
    (hno : ∀ p x q y, Names s oldPath newPath p x q y → s.entry p x = none) :
    Renamed s oldPath newPath (s.rename oldPath newPath).1 (s.rename oldPath newPath).2 := by
  rw [h]
  exact .refused he hno

theorem rename_spec (s : Vfs) (oldPath newPath : Path) :
    Renamed s oldPath newPath (s.rename oldPath newPath).1 (s.rename oldPath newPath).2 := by
  cases ho : splitParent oldPath with
  | none =>
    refine rename_refused (e := einval) (by simp only [rename, ho]) (by decide) fun p x q y h => ?_
    obtain ⟨⟨_, h, -⟩, -⟩ := h
    cases ho.symm.trans h
  | some old =>
    obtain ⟨oldParentPath, x⟩ := old
    cases hn : splitParent newPath with
    | none =>
      refine rename_refused (e := einval) (by simp only [rename, ho, hn]) (by decide) fun p x q y h => ?_
      obtain ⟨-, _, h, -⟩ := h
      cases hn.symm.trans h
    | some new =>
      obtain ⟨newParentPath, y⟩ := new
      cases hp : s.lookup oldParentPath with
      | none =>
        refine rename_refused (e := enoent) (by simp only [rename, ho, hn, hp]) (by decide) fun p x q y h => ?_
        obtain ⟨⟨_, h, hl⟩, -⟩ := h
        cases ho.symm.trans h
        cases hp.symm.trans hl
      | some p =>
        cases hq : s.lookup newParentPath with
        | none =>
          refine rename_refused (e := enoent) (by simp only [rename, ho, hn, hp, hq]) (by decide) fun p x q y h => ?_
          obtain ⟨-, _, h, hl⟩ := h
          cases hn.symm.trans h
          cases hq.symm.trans hl
        | some q =>
          have hnames : Names s oldPath newPath p x q y := ⟨⟨_, ho, hp⟩, ⟨_, hn, hq⟩⟩
          have hmoves := rename_moves ho hn hp hq
          cases hr : s.remove p x with
          | none =>
            simp only [hr] at hmoves
            refine rename_refused hmoves (by decide) fun p' x' q' y' h => ?_
            obtain ⟨rfl, rfl, -, -⟩ := hnames.unique h
            exact remove_eq_none.mp hr
          | some r =>
            obtain ⟨m, s₁⟩ := r
            have hrem := remove_spec hr
            cases hi : s₁.insert q y m with
            | some s' =>
              simp only [hr, hi] at hmoves
              rw [hmoves]
              exact .moved hnames hrem (insert_spec hi)
            | none =>
              simp only [hr, hi] at hmoves
              rw [hmoves]
              exact .dropped hnames hrem (hrem.isDir q ▸ insert_eq_none.mp hi)

/-- What holds of a state, of it after a removal and of that after an insertion, holds after a rename. -/
theorem rename_induct {P : Vfs → Prop} {oldPath newPath : Path} (h : P s)
    (hremove : ∀ {p x m s'}, s.remove p x = some (m, s') → P s')
    (hinsert : ∀ {p x m s₁ q y s'}, s.remove p x = some (m, s₁) → s₁.insert q y m = some s' → P s') :
    P (s.rename oldPath newPath).2 := by
  unfold rename
  split
  · exact h
  split
  · exact h
  split
  · exact h
  split
  · exact h
  split
  · split
    · exact h
    · next hr =>
      split
      · next hi => exact hinsert hr hi
      · exact hremove hr
  · split
    · exact h
    · next hr =>
      split
      · next hi => exact hinsert hr hi
      · exact hremove hr

/-! ### Renames that fail -/

/-- The node that a path, as the list of its names, leads to. -/
def find (s : Vfs) (names : List Name) : Option NodeRef := s.root.bind fun root => s.walk root names

/-- The bindings of paths to nodes, over the whole tree. -/
def bindings (s : Vfs) : Set (List Name × NodeRef) := {b | s.find b.1 = some b.2}

/-- The old path names an entry, and the parent of the new one is no directory. -/
def MovesIntoFile (s : Vfs) (oldPath newPath : Path) : Prop :=
  ∃ p x q y, Names s oldPath newPath p x q y ∧ s.entry p x ≠ none ∧ s.isDir q = false

theorem walk_append (names rest : List Name) (a : NodeRef) :
    s.walk a (names ++ rest) = (s.walk a names).bind fun b => s.walk b rest := by
  induction names generalizing a with
  | nil => rfl
  | cons part names ih =>
    simp only [List.cons_append, walk]
    cases s.entry a part with
    | none => rfl
    | some b => exact ih b

theorem find_concat {names : List Name} (hp : s.find names = some p) : s.find (names ++ [x]) = s.entry p x := by
  obtain ⟨root, hroot, hwalk⟩ := Option.bind_eq_some_iff.mp hp
  rw [find, hroot, Option.bind_some, walk_append, hwalk, Option.bind_some, walk]
  cases s.entry p x <;> rfl

theorem lookup_eq_find {path : Path} : s.lookup path = s.find (parts path) := by
  unfold lookup find
  cases s.root with
  | none => rfl
  | some root =>
    simp only [Option.bind_some]
    split
    · next hpath =>
      subst hpath
      rfl
    · rfl

/-- The last name of a path is an entry of its parent. -/
theorem lookup_split {path parent : Path} (hsplit : splitParent path = some (parent, x)) (hp : s.lookup parent = some p) :
    s.lookup path = s.entry p x := by
  rw [lookup_eq_find] at hp ⊢
  rw [parts_splitParent hsplit, find_concat hp]

/-- A rename that fails leaves every binding as it was, unless it takes an
entry out of its directory and then finds that the new parent is no
directory. -/
theorem failed_rename_iff (s : Vfs) (oldPath newPath : Path) :
    ((s.rename oldPath newPath).1 < 0 → bindings (s.rename oldPath newPath).2 = bindings s) ↔
      ¬ s.MovesIntoFile oldPath newPath := by
  have hspec := rename_spec s oldPath newPath
  generalize s.rename oldPath newPath = r at hspec
  obtain ⟨r, s'⟩ := r
  cases hspec with
  | refused he hno =>
    refine ⟨fun _ => ?_, fun _ _ => rfl⟩
    intro h
    obtain ⟨p, x, q, y, hnames, hentry, -⟩ := h
    exact hentry (hno p x q y hnames)
  | moved hnames hrem hins =>
    refine ⟨fun _ => ?_, fun _ hneg => absurd hneg (Int.lt_irrefl 0)⟩
    intro h
    obtain ⟨p, x, q, y, hnames', -, hfile⟩ := h
    obtain ⟨-, -, rfl, -⟩ := hnames.unique hnames'
    have hdir := hins.dir
    rw [hrem.isDir, hfile] at hdir
    cases hdir
  | @dropped p q m x y _ hnames hrem hfile =>
    refine ⟨fun hsame => ?_, fun hno => absurd ⟨p, x, q, y, hnames, ?_, hfile⟩ hno⟩
    · -- the path of the old parent still leads there, where the entry is gone
      obtain ⟨⟨path, -, hl⟩, -⟩ := hnames
      have hfind := lookup_eq_find ▸ hl
      have heq := hsame (show enoent < 0 by decide)
      have hparent : (parts path, p) ∈ bindings s' := heq ▸ hfind
      have hnode : (parts path ++ [x], m) ∈ bindings s' := heq ▸ (find_concat hfind).trans hrem.had
      have hgone : s'.entry p x = none := by rw [hrem.entry, if_pos ⟨rfl, rfl⟩]
      cases hgone.symm.trans ((find_concat hparent).symm.trans hnode)
    · rw [hrem.had]
      exact Option.some_ne_none m

/-- `/a` is moved below the file `/f`: the call fails, and `/a` is gone. -/
theorem failed_rename_loses_node :
    ∃ s : Vfs, s = ((boot.init.mkdir "/a".toList).2.createFile "/f".toList).2 ∧
      (s.rename "/a".toList "/f/b".toList).1 < 0 ∧
      ∃ n, (["a".toList], n) ∈ bindings s ∧ (["a".toList], n) ∉ bindings (s.rename "/a".toList "/f/b".toList).2 := by
  refine ⟨_, rfl, by decide, 22, ?_, ?_⟩
  · show find _ _ = some 22
    decide
  · show ¬ find _ _ = some 22
    decide

end Vfs
end ChodOs
