/-
The file tree over whole runs: it stays a tree, and what each call can lose.
Renaming does not look whether a directory goes below itself, and neither
renaming nor linking looks at what the new name had.
-/
import ChodOs.Fs.Rename
import ChodOs.Lib.Rooted

namespace ChodOs

open Places StepSys Relation

namespace Vfs

variable {s s' s'' s₁ : Vfs} {a b p q m n r : NodeRef} {x y : Name} {node : VfsNode} {path : Path}

/-- The root leads to `v`. -/
def Reachable (s : Vfs) (v : NodeRef) : Prop := ∃ r, s.root = some r ∧ Reach s.entry r v

/-- A tree under `r`, with nodes that have been allocated. -/
structure Tree (s : Vfs) (r : NodeRef) : Prop where
  root : s.root = some r
  top : s.isDir r = true
  rooted : Rooted s.entry (s.isDir · = true) r
  target : ∀ {a x b}, s.entry a x = some b → b < s.nextRef
  dirs : ∀ {a}, s.isDir a = true → a < s.nextRef

theorem Tree.reachable_iff (ht : Tree s r) : s.Reachable n ↔ Reach s.entry r n := by
  constructor
  · intro ⟨r', hr', h⟩
    obtain rfl := Option.some.inj (ht.root.symm.trans hr')
    exact h
  · exact fun h => ⟨r, ht.root, h⟩

theorem walk_eq_follow {names : List Name} : s.walk a names = follow s.entry a names := by
  induction names generalizing a with
  | nil => rfl
  | cons part names ih => exact congrArg (s.entry a part).bind (funext fun _ => ih)

theorem reach_of_walk {names : List Name} (h : s.walk a names = some b) : Reach s.entry a b :=
  reach_of_follow (walk_eq_follow ▸ h)

theorem Tree.find_eq {names : List Name} (ht : Tree s r) : s.find names = follow s.entry r names := by
  rw [find, ht.root, Option.bind_some, walk_eq_follow]

theorem Tree.reach_of_lookup (ht : Tree s r) (h : s.lookup path = some p) : Reach s.entry r p := by
  simp only [lookup, ht.root] at h
  split at h
  · obtain rfl := Option.some.inj h
    exact .refl
  · exact reach_of_walk h

theorem Tree.reach_lt (ht : Tree s r) (hn : Reach s.entry r n) : n < s.nextRef := by
  rcases ReflTransGen.cases_tail hn with rfl | ⟨a, -, x, hx⟩
  · exact ht.dirs ht.top
  · exact ht.target hx

theorem Tree.find_lt {names : List Name} (ht : Tree s r) (hf : s.find names = some n) : n < s.nextRef :=
  ht.reach_lt (reach_of_follow (ht.find_eq ▸ hf))

theorem Tree.lookup_lt (ht : Tree s r) (hl : s.lookup path = some n) : n < s.nextRef :=
  ht.reach_lt (ht.reach_of_lookup hl)

theorem Tree.find_nil (ht : Tree s r) : s.find [] = some r := by
  rw [find, ht.root]
  rfl

/-! ### Calls that make nodes -/

/-- Every entry is kept, in a tree. -/
structure Grown (s s' : Vfs) (r : NodeRef) : Prop where
  tree : Tree s' r
  keeps : ∀ a x b, s.entry a x = some b → s'.entry a x = some b

theorem Grown.refl (ht : Tree s r) : Grown s s r := ⟨ht, fun _ _ _ h => h⟩

theorem Grown.trans (h : Grown s s' r) (h' : Grown s' s'' r) : Grown s s'' r :=
  ⟨h'.tree, fun a x b he => h'.keeps a x b (h.keeps a x b he)⟩

theorem Tree.entry_new (ht : Tree s r) : s.entry s.nextRef x = none := by
  cases he : s.entry s.nextRef x with
  | none => rfl
  | some b => exact absurd (ht.dirs (isDir_of_entry he)) (Nat.lt_irrefl _)

/-- A node that was in no use, put at a free place of a directory. -/
theorem Tree.grown_new (ht : Tree s r) (hp : s.isDir p = true) (hfree : s.entry p x = none) (hroot : s'.root = s.root)
    (hnext : s'.nextRef = s.nextRef + 1) (hentry : s'.entry = put s.entry p x s.nextRef)
    (hdir : ∀ a, a ≠ s.nextRef → s'.isDir a = s.isDir a) : Grown s s' r := by
  have hold : ∀ {a}, s.isDir a = true → s'.isDir a = true := fun ha => by
    rwa [hdir _ (Nat.ne_of_lt (ht.dirs ha))]
  refine ⟨⟨hroot.trans ht.root, hold ht.top, ?_, fun {a y b} hb => ?_, fun {a} ha => ?_⟩, fun a y b hb => ?_⟩
  · rw [hentry]
    exact ht.rooted.put (fun a ha => hold ha) (fun a ha hne => (hdir a hne).symm.trans ha) hp
      (Nat.ne_of_gt (ht.dirs ht.top)) (fun _ a y ha => Nat.lt_irrefl _ (ht.target ha)) x
  · rw [hentry] at hb
    rw [hnext]
    rcases put_eq_some.mp hb with ⟨-, rfl⟩ | ⟨-, hb⟩
    · exact Nat.lt_succ_self _
    · exact Nat.lt_succ_of_lt (ht.target hb)
  · rw [hnext]
    by_cases hne : a = s.nextRef
    · exact hne ▸ Nat.lt_succ_self _
    · exact Nat.lt_succ_of_lt (ht.dirs ((hdir a hne).symm.trans ha))
  · rw [hentry]
    refine put_eq_some.mpr (.inr ⟨?_, hb⟩)
    intro h
    obtain ⟨rfl, rfl⟩ := h
    rw [hfree] at hb
    cases hb

/-- A new node, with no entries of its own, is put at a place that was free. -/
theorem Tree.entry_orInsertWith {dir : TmpfsDir} {info : VfsMeta} {new : Nat → VfsNode} (ht : Tree s r)
    (hp : s.heap[p]? = some (.dir dir info)) (hfree : dir[x]? = none) (hnew : ∀ ino y, (new ino).entry y = none) :
    (s.orInsertWith p dir info x new).2.entry = put s.entry p x s.nextRef := by
  have hsame : ∀ a y, (s.alloc new).2.entry a y = s.entry a y := by
    intro a y
    refine (entry_set (s := s)).trans ?_
    split
    · next ha => rw [hnew, ← ha, ht.entry_new]
    · rfl
  simp only [orInsertWith, hfree]
  funext a y
  refine (entry_set (s := (s.alloc new).2)).trans ?_
  rw [hsame, put]
  by_cases ha : p = a
  · subst ha
    rw [if_pos rfl, VfsNode.entry, TmpfsDir.getElem?_insert, entry_of_dir hp]
    simp only [true_and]
    rfl
  · rw [if_neg ha, if_neg fun h => ha h.1.symm]

theorem grown_orInsertWith {dir : TmpfsDir} {info : VfsMeta} {new : Nat → VfsNode} (ht : Tree s r)
    (hp : s.heap[p]? = some (.dir dir info)) (hnew : ∀ ino y, (new ino).entry y = none) :
    Grown s (s.orInsertWith p dir info x new).2 r := by
  cases hfree : dir[x]? with
  | some n =>
    simp only [orInsertWith, hfree]
    exact .refl ht
  | none =>
    have hpdir : s.isDir p = true := isDir_iff.mpr ⟨dir, info, hp⟩
    have hentry := ht.entry_orInsertWith hp hfree hnew
    simp only [orInsertWith, hfree] at hentry ⊢
    refine ht.grown_new hpdir ((entry_of_dir hp).trans hfree) rfl rfl hentry fun a ha => ?_
    have halloc : (s.alloc new).2.isDir a = s.isDir a := (isDir_set (s := s)).trans (if_neg (Ne.symm ha))
    refine (isDir_set (s := (s.alloc new).2)).trans ?_
    split
    · next he => exact (he ▸ hpdir).symm
    · exact halloc

theorem grown_create {new : Nat → VfsNode} (path : Path) (ht : Tree s r) (hnew : ∀ ino y, (new ino).entry y = none) :
    Grown s (s.create path new).2 r := by
  unfold create
  split
  · exact .refl ht
  split
  · exact .refl ht
  split
  · next hp => exact grown_orInsertWith ht hp hnew
  · exact .refl ht

theorem grown_createFile (path : Path) (ht : Tree s r) : Grown s (s.createFile path).2 r :=
  grown_create path ht fun _ _ => rfl

theorem grown_mkdir (path : Path) (ht : Tree s r) : Grown s (s.mkdir path).2 r :=
  grown_create path ht fun _ _ => Std.ExtTreeMap.getElem?_empty

theorem grown_ensureDirs {names : List Name} {cur : Path} (ht : Tree s r) : Grown s (s.ensureDirs cur names) r := by
  induction names generalizing s cur with
  | nil => exact .refl ht
  | cons part names ih =>
    simp only [ensureDirs]
    split
    · exact (grown_mkdir _ ht).trans (ih (grown_mkdir _ ht).tree)
    · exact ih ht

theorem grown_ensureParentDirs (path : Path) (ht : Tree s r) : Grown s (s.ensureParentDirs path) r := by
  unfold ensureParentDirs
  simp only
  split
  · exact .refl ht
  · exact grown_ensureDirs ht

theorem entry_set_file {f f' : FileNode} (hn : s.heap[n]? = some (.file f)) :
    (s.set n (.file f')).entry = s.entry := by
  funext a x
  rw [entry_set]
  split
  · next ha => simp only [← ha, entry, hn, VfsNode.entry]
  · rfl

theorem isDir_set_file {f f' : FileNode} (hn : s.heap[n]? = some (.file f)) (a : NodeRef) :
    (s.set n (.file f')).isDir a = s.isDir a := by
  rw [isDir_set]
  split
  · next ha => simp only [← ha, isDir, hn, VfsNode.isDir]
  · rfl

/-- A state with the same entries and directories is a tree as well. -/
theorem Tree.congr (ht : Tree s r) (hroot : s'.root = s.root) (hnext : s'.nextRef = s.nextRef)
    (hentry : s'.entry = s.entry) (hdir : ∀ a, s'.isDir a = s.isDir a) : Tree s' r := by
  refine ⟨hroot.trans ht.root, (hdir r).trans ht.top, ?_, fun ha => ?_, fun ha => ?_⟩
  · rw [hentry]
    simp only [hdir]
    exact ht.rooted
  · rw [hnext]
    exact ht.target (hentry ▸ ha)
  · rw [hnext]
    exact ht.dirs (hdir _ ▸ ha)

/-- What is written to a file is no matter of the tree. -/
theorem grown_file {f f' : FileNode} (ht : Tree s r) (hn : s.heap[n]? = some (.file f)) :
    Grown s (s.set n (.file f')) r :=
  ⟨ht.congr rfl rfl (entry_set_file hn) (isDir_set_file hn), fun _ _ _ hb => (entry_set_file hn).symm ▸ hb⟩

theorem grown_copyUp (ext4ReadFile : Path → Option (List UInt8)) (path : Path) (ht : Tree s r) :
    Grown s (s.copyUp ext4ReadFile path).2 r := by
  have hparents := grown_ensureParentDirs path ht
  have hfile := hparents.trans (grown_createFile path hparents.tree)
  unfold copyUp
  split
  · exact .refl ht
  split
  · exact .refl ht
  split
  · next heq => rwa [heq] at hfile
  · next node s₁ heq =>
    rw [heq] at hfile
    split
    · next f hn => exact hfile.trans (grown_file hfile.tree hn)
    · exact hfile

/-! ### Calls that remove, move and link -/

theorem Removed.entry_eq (h : Removed s p x m s') : s'.entry = cut s.entry p x := funext₂ h.entry

theorem Inserted.entry_eq (h : Inserted s q y m s') : s'.entry = put s.entry q y m := funext₂ h.entry

theorem Tree.removed (ht : Tree s r) (h : Removed s p x m s') : Tree s' r := by
  refine ⟨h.root.trans ht.root, (h.isDir r).trans ht.top, ?_, fun ha => ?_, fun ha => ?_⟩
  · rw [h.entry_eq]
    simp only [h.isDir]
    exact ht.rooted.cut p x
  · rw [h.entry_eq] at ha
    rw [h.nextRef]
    exact ht.target (cut_eq_some.mp ha).2
  · rw [h.nextRef]
    exact ht.dirs (h.isDir _ ▸ ha)

/-- A node that is nowhere else, or is a file, can be put anywhere. -/
theorem Tree.inserted (ht : Tree s r) (h : Inserted s q y m s') (hm : m ≠ r) (hlt : m < s.nextRef)
    (hfree : s.isDir m = true → ∀ a x, s.entry a x ≠ some m) : Tree s' r := by
  refine ⟨h.root.trans ht.root, (h.isDir r).trans ht.top, ?_, fun ha => ?_, fun ha => ?_⟩
  · rw [h.entry_eq]
    simp only [h.isDir]
    exact ht.rooted.put (fun _ hd => hd) (fun _ hd _ => hd) h.dir hm hfree y
  · rw [h.entry_eq] at ha
    rw [h.nextRef]
    rcases put_eq_some.mp ha with ⟨-, rfl⟩ | ⟨-, ha⟩
    · exact hlt
    · exact ht.target ha
  · rw [h.nextRef]
    exact ht.dirs (h.isDir _ ▸ ha)

theorem Tree.moved (ht : Tree s r) (h : Removed s p x m s₁) (h' : Inserted s₁ q y m s') : Tree s' r := by
  refine (ht.removed h).inserted h' (fun he => ht.rooted.top (he ▸ h.had)) ?_ fun hd a z ha => ?_
  · rw [h.nextRef]
    exact ht.target h.had
  · rw [h.entry_eq] at ha
    obtain ⟨hne, ha⟩ := cut_eq_some.mp ha
    exact hne (ht.rooted.unique (h.isDir m ▸ hd) ha h.had)

/-- The path names an entry, and it is `v`. -/
def EntryAt (s : Vfs) (path : Path) (v : NodeRef) : Prop :=
  ∃ parent x p, splitParent path = some (parent, x) ∧ s.lookup parent = some p ∧ s.entry p x = some v

/-- The ways a removal can end. Only what has no entries is removed. -/
inductive Unlinked (s : Vfs) (path : Path) : Int → Vfs → Prop
  | refused {e : Int} : Unlinked s path e s
  | removed {p m : NodeRef} {x : Name} {s' : Vfs} : s.EntryAt path m → Removed s p x m s' →
      (∀ y, s.entry m y = none) → Unlinked s path 0 s'

theorem entry_of_isEmpty {dir : TmpfsDir} (h : dir.isEmpty = true) : dir[x]? = none := by
  rw [Std.ExtTreeMap.isEmpty_iff.mp h]
  exact Std.ExtTreeMap.getElem?_empty

theorem removeEntry_spec (s : Vfs) (path : Path) (allowDir : Bool) :
    Unlinked s path (s.removeEntry path allowDir).1 (s.removeEntry path allowDir).2 := by
  unfold removeEntry
  split
  · exact .refused
  next parent x hsplit =>
  split
  · exact .refused
  next p hp =>
  split
  · exact .refused
  next m hm =>
  simp only
  split
  · exact .refused
  next hok =>
  split
  · next node s' hr =>
    have hrem := remove_spec hr
    obtain rfl := Option.some.inj (hm.symm.trans hrem.had)
    refine .removed ⟨parent, x, p, hsplit, hp, hm⟩ hrem fun y => ?_
    unfold entry
    split
    · next dir info hdir =>
      rw [hdir] at hok
      simp only at hok
      split at hok
      · cases hok
      split at hok
      · cases hok
      · next hempty => exact entry_of_isEmpty (by simpa using hempty)
    · rfl
  · exact .refused

/-- The ways a link can end, other than by the trap. -/
inductive Linked (s : Vfs) (oldPath newPath : Path) : Int → Vfs → Prop
  | refused {e : Int} :
      (∀ m parent q y, s.lookup oldPath = some m → s.isDir m = false → splitParent newPath = some (parent, y) →
        s.lookup parent = some q → s.isDir q = false) → Linked s oldPath newPath e s
  | linked {m q : NodeRef} {y : Name} {parent : Path} {s' : Vfs} : s.lookup oldPath = some m → s.isDir m = false →
      splitParent newPath = some (parent, y) → s.lookup parent = some q → Inserted s q y m s' →
      Linked s oldPath newPath 0 s'

theorem Inserted.set_file {f f' : FileNode} (h : Inserted s q y m s') (hn : s'.heap[n]? = some (.file f)) :
    Inserted s q y m (s'.set n (.file f')) where
  dir := h.dir
  root := h.root
  nextRef := h.nextRef
  isDir a := (isDir_set_file hn a).trans (h.isDir a)
  entry a x := (congrFun₂ (entry_set_file hn) a x).trans (h.entry a x)

theorem linkVfs_spec {oldPath newPath : Path} {e : Int} (h : s.linkVfs oldPath newPath = some (e, s')) :
    Linked s oldPath newPath e s' := by
  unfold linkVfs at h
  split at h
  · next hno =>
    obtain ⟨rfl, rfl⟩ := Prod.mk.inj (Option.some.inj h)
    exact .refused fun m _ _ _ hm => by rw [hno] at hm; cases hm
  next node hnode =>
  split at h
  · next hdir =>
    obtain ⟨rfl, rfl⟩ := Prod.mk.inj (Option.some.inj h)
    refine .refused fun m _ _ _ hm hfile => ?_
    obtain rfl := Option.some.inj (hnode.symm.trans hm)
    rw [isDir_iff.mpr ⟨_, _, hdir⟩] at hfile
    cases hfile
  next hfile =>
  have hmfile : s.isDir node = false := by
    cases hd : s.isDir node with
    | false => rfl
    | true =>
      obtain ⟨dir, info, hdir⟩ := isDir_iff.mp hd
      exact absurd hdir (hfile dir info)
  split at h
  · next hno =>
    obtain ⟨rfl, rfl⟩ := Prod.mk.inj (Option.some.inj h)
    exact .refused fun _ _ _ _ _ _ hs => by rw [hno] at hs; cases hs
  next parent y hsplit =>
  split at h
  · next hno =>
    obtain ⟨rfl, rfl⟩ := Prod.mk.inj (Option.some.inj h)
    refine .refused fun _ _ q _ _ _ hs hq => ?_
    cases hsplit.symm.trans hs
    rw [hno] at hq
    cases hq
  next q hq =>
  split at h
  · next hno =>
    obtain ⟨rfl, rfl⟩ := Prod.mk.inj (Option.some.inj h)
    refine .refused fun _ _ q' _ _ _ hs hq' => ?_
    cases hsplit.symm.trans hs
    obtain rfl := Option.some.inj (hq.symm.trans hq')
    exact insert_eq_none.mp hno
  next s₁ hi =>
  have hins := insert_spec hi
  split at h
  · next f hf =>
    obtain ⟨nlink, -, h⟩ := Option.bind_eq_some_iff.mp h
    obtain ⟨rfl, rfl⟩ := Prod.mk.inj (Option.some.inj h)
    exact .linked hnode hmfile hsplit hq (hins.set_file hf)
  · obtain ⟨rfl, rfl⟩ := Prod.mk.inj (Option.some.inj h)
    exact .linked hnode hmfile hsplit hq hins

/-! ### Runs -/

/-- The node whose entry the call removes or replaces, where it succeeds. -/
def Displaces (s : Vfs) : VfsOp → NodeRef → Prop
  | .removeEntry path _, v => s.EntryAt path v
  | .rename _ newPath, v => s.EntryAt newPath v
  | .linkVfs _ newPath, v => s.EntryAt newPath v
  | _, _ => False

/-- Every node that was reached still is, but for what a call that succeeds displaces. -/
def Keeps (s : Vfs) (op : VfsOp) (ret : List Int) (s' : Vfs) : Prop :=
  ∀ v, s.Reachable v → s'.Reachable v ∨ ret = [0] ∧ s.Displaces op v

/-- A rename or link loses nothing: a directory does not go below itself,
what is below the node at the new name is below the node put there or reached
otherwise, and a node that is to go into a file is reached otherwise. -/
def Spared (s : Vfs) : VfsOp → Prop
  | .rename oldPath newPath => ∀ r p x q y m, s.root = some r → Names s oldPath newPath p x q y → s.entry p x = some m →
      if s.isDir q = true then ¬ Reach s.entry m q ∧ Spares s.entry r q y m else Reach (cut s.entry p x) r m
  | .linkVfs oldPath newPath => ∀ r m parent q y, s.root = some r → s.lookup oldPath = some m → s.isDir m = false →
      splitParent newPath = some (parent, y) → s.lookup parent = some q → s.isDir q = true → Spares s.entry r q y m
  | _ => True

theorem tree_mountRoot : Tree boot.mountRoot 0 := by
  have hentry : ∀ a x, boot.mountRoot.entry a x = none := by
    intro a x
    refine (entry_set (s := boot)).trans ?_
    split
    · exact Std.ExtTreeMap.getElem?_empty
    · rfl
  have hdir : ∀ a, boot.mountRoot.isDir a = true → a = 0 := by
    intro a ha
    have h : (if 0 = a then VfsNode.isDir (.dir ∅ (.newDir 2)) else boot.isDir a) = true :=
      (isDir_set (s := boot)).symm.trans ha
    split at h
    · next h0 => exact h0.symm
    · cases h
  refine ⟨rfl, rfl, ⟨fun ha => ?_, fun _ ha _ => ?_, fun ha => ?_⟩, fun ha => ?_, fun ha => ?_⟩
  · rw [hentry] at ha
    cases ha
  · rw [hentry] at ha
    cases ha
  · rw [hentry] at ha
    cases ha
  · rw [hentry] at ha
    cases ha
  · rw [hdir _ ha]
    exact Nat.one_pos

theorem tree_mkdirs {dirs : List Path} (ht : Tree s r) : Tree (dirs.foldl (fun s d => (s.mkdir d).2) s) r := by
  induction dirs generalizing s with
  | nil => exact ht
  | cons d dirs ih => exact ih (grown_mkdir d ht).tree

theorem tree_init : Tree boot.init 0 := tree_mkdirs tree_mountRoot

theorem Grown.keeps_reach (h : Grown s s' r) (ht : Tree s r) {op : VfsOp} {ret : List Int} : Keeps s op ret s' :=
  fun _ hv => .inl (h.tree.reachable_iff.mpr ((ht.reachable_iff.mp hv).mono h.keeps))

theorem Tree.same (ht : Tree s r) {op : VfsOp} {ret : List Int} : Keeps s op ret s := (Grown.refl ht).keeps_reach ht

theorem entryAt_iff {parent : Path} (hs : splitParent path = some (parent, y)) (hq : s.lookup parent = some q) :
    s.EntryAt path n ↔ s.entry q y = some n := by
  constructor
  · intro ⟨parent', y', q', hs', hq', hn⟩
    cases hs.symm.trans hs'
    obtain rfl := Option.some.inj (hq.symm.trans hq')
    exact hn
  · exact fun hn => ⟨parent, y, q, hs, hq, hn⟩

/-- What a call that fills a place keeps, in terms of the places. -/
theorem keeps_put_iff {op : VfsOp} (ht : Tree s r) (ht' : Tree s' r) (hq : Reach s.entry r q)
    (hreach : ∀ v, Reach s'.entry r v ↔ Reach s.entry m v ∨ Reach (cut s.entry q y) r v)
    (hdisp : ∀ v, s.Displaces op v ↔ s.entry q y = some v) : Keeps s op [0] s' ↔ Spares s.entry r q y m := by
  rw [spares_iff hq ht.rooted.acyclic]
  refine forall_congr' fun v => ?_
  rw [ht.reachable_iff, ht'.reachable_iff, hreach, hdisp]
  simp only [true_and]

section
variable {oldPath newPath : Path}

/-- What a rename that finds its entry has to do to lose nothing. -/
theorem Tree.spared_rename_iff (ht : Tree s r) (hnames : Names s oldPath newPath p x q y) (had : s.entry p x = some m) :
    s.Spared (.rename oldPath newPath) ↔
      if s.isDir q = true then ¬ Reach s.entry m q ∧ Spares s.entry r q y m else Reach (cut s.entry p x) r m := by
  refine ⟨fun h => h r p x q y m ht.root hnames had, fun h r' p' x' q' y' m' hr' hnames' hm' => ?_⟩
  obtain ⟨rfl, rfl, rfl, rfl⟩ := hnames.unique hnames'
  obtain rfl := Option.some.inj (had.symm.trans hm')
  obtain rfl := Option.some.inj (ht.root.symm.trans hr')
  exact h

/-- A directory that goes below itself is reached no more. -/
theorem Tree.moved_below_itself (ht : Tree s r) (ht' : Tree s' r) (hnames : Names s oldPath newPath p x q y)
    (hrem : Removed s p x m s₁) (hins : Inserted s₁ q y m s') (hbelow : Reach s.entry m q) :
    ¬Keeps s (.rename oldPath newPath) [0] s' := by
  intro hkeeps
  obtain ⟨_, _, hp⟩ := hnames.old
  obtain ⟨parent, hsplit, hlookup⟩ := hnames.new
  have hrm := (ht.reach_of_lookup hp).edge hrem.had
  have hentry : s'.entry = put (cut s.entry p x) q y m := by rw [hins.entry_eq, hrem.entry_eq]
  have hmdir : s.isDir m = true := by
    rcases ReflTransGen.cases_head hbelow with rfl | ⟨c, ⟨z, hz⟩, -⟩
    · exact hrem.isDir m ▸ hins.dir
    · exact isDir_of_entry hz
  have hne : ¬ (p = q ∧ x = y) := by
    intro h
    obtain ⟨rfl, rfl⟩ := h
    exact ht.rooted.acyclic hrm (TransGen.tail' hbelow ⟨x, hrem.had⟩)
  rcases hkeeps m (ht.reachable_iff.mpr hrm) with hm | ⟨-, hdisp⟩
  · rw [ht'.reachable_iff, hentry] at hm
    exact not_reach_move ht.rooted hmdir hrem.had (ht.reach_of_lookup hlookup) (hrem.isDir q ▸ hins.dir) hbelow hne hm
  · exact hne (ht.rooted.unique hmdir hrem.had ((entryAt_iff hsplit hlookup).mp hdisp))

/-- A rename that moves its node. -/
theorem Tree.rename_moved (ht : Tree s r) (hnames : Names s oldPath newPath p x q y) (hrem : Removed s p x m s₁)
    (hins : Inserted s₁ q y m s') :
    Tree s' r ∧ (Keeps s (.rename oldPath newPath) [0] s' ↔ s.Spared (.rename oldPath newPath)) := by
  have ht' := ht.moved hrem hins
  refine ⟨ht', ?_⟩
  rw [ht.spared_rename_iff hnames hrem.had, if_pos (hrem.isDir q ▸ hins.dir)]
  by_cases hbelow : Reach s.entry m q
  · exact iff_of_false (ht.moved_below_itself ht' hnames hrem hins hbelow) fun h => h.1 hbelow
  · obtain ⟨parent, hsplit, hlookup⟩ := hnames.new
    have hq := ht.reach_of_lookup hlookup
    have hdisp : ∀ v, s.Displaces (.rename oldPath newPath) v ↔ s.entry q y = some v := fun v =>
      entryAt_iff hsplit hlookup
    have hreach : ∀ v, Reach s'.entry r v ↔ Reach s.entry m v ∨ Reach (cut s.entry q y) r v := fun v => by
      rw [hins.entry_eq, hrem.entry_eq]
      exact reach_move hrem.had hq (ht.rooted.acyclic hq) hbelow
    exact (keeps_put_iff ht ht' hq hreach hdisp).trans (and_iff_right hbelow).symm

/-- A rename that drops its node, since the new parent is a file. -/
theorem Tree.rename_dropped (ht : Tree s r) (hnames : Names s oldPath newPath p x q y) (hrem : Removed s p x m s')
    (hfile : s.isDir q = false) :
    Tree s' r ∧ (Keeps s (.rename oldPath newPath) [enoent] s' ↔ s.Spared (.rename oldPath newPath)) := by
  have ht' := ht.removed hrem
  obtain ⟨_, _, hp⟩ := hnames.old
  refine ⟨ht', ?_⟩
  rw [ht.spared_rename_iff hnames hrem.had, if_neg (by rw [hfile]; decide),
    ← reach_cut_iff hrem.had (ht.reach_of_lookup hp), ← hrem.entry_eq]
  refine forall_congr' fun v => ?_
  rw [ht.reachable_iff, ht'.reachable_iff]
  refine imp_congr_right fun _ => or_iff_left ?_
  intro h
  obtain ⟨hret, -⟩ := h
  exact absurd (List.cons.inj hret).1 (show enoent ≠ 0 by decide)

theorem Tree.rename (ht : Tree s r) (oldPath newPath : Path) :
    Tree (s.rename oldPath newPath).2 r ∧
      (Keeps s (.rename oldPath newPath) [(s.rename oldPath newPath).1] (s.rename oldPath newPath).2 ↔
        s.Spared (.rename oldPath newPath)) := by
  have hspec := rename_spec s oldPath newPath
  generalize s.rename oldPath newPath = res at hspec
  obtain ⟨e, s'⟩ := res
  cases hspec with
  | refused he hno =>
    refine ⟨ht, fun _ r p x q y m _ hnames hm => ?_, fun _ => ht.same⟩
    rw [hno p x q y hnames] at hm
    cases hm
  | moved hnames hrem hins => exact ht.rename_moved hnames hrem hins
  | dropped hnames hrem hfile => exact ht.rename_dropped hnames hrem hfile

end

theorem Tree.linkVfs {oldPath newPath : Path} {e : Int} (ht : Tree s r)
    (h : s.linkVfs oldPath newPath = some (e, s')) :
    Tree s' r ∧ (Keeps s (.linkVfs oldPath newPath) [e] s' ↔ s.Spared (.linkVfs oldPath newPath)) := by
  cases linkVfs_spec h with
  | refused hno =>
    refine ⟨ht, fun _ r m parent q y _ hm hmfile hs hq hdir => ?_, fun _ => ht.same⟩
    rw [hno m parent q y hm hmfile hs hq] at hdir
    cases hdir
  | @linked m q y parent _ hm hmfile hs hq hins =>
    have hmr : m ≠ r := by
      intro h
      obtain rfl := h
      rw [ht.top] at hmfile
      cases hmfile
    have hleaf : ∀ x, s.entry m x = none := fun x => by
      cases hx : s.entry m x with
      | none => rfl
      | some b => rw [isDir_of_entry hx] at hmfile; cases hmfile
    have hrm := ht.reach_of_lookup hm
    have hrq := ht.reach_of_lookup hq
    have ht' := ht.inserted hins hmr (ht.reach_lt hrm) fun hd => by rw [hmfile] at hd; cases hd
    have hbelow : ¬ Reach s.entry m q := by
      intro h
      have hqm := h.eq_of_leaf hleaf
      rw [← hqm, hins.dir] at hmfile
      cases hmfile
    have hspared : s.Spared (.linkVfs oldPath newPath) ↔ Spares s.entry r q y m := by
      constructor
      · exact fun h => h r m parent q y ht.root hm hmfile hs hq hins.dir
      · intro h r' m' parent' q' y' hr' hm' _ hs' hq' _
        obtain rfl := Option.some.inj (ht.root.symm.trans hr')
        obtain rfl := Option.some.inj (hm.symm.trans hm')
        cases hs.symm.trans hs'
        obtain rfl := Option.some.inj (hq.symm.trans hq')
        exact h
    refine ⟨ht', ?_⟩
    rw [hspared]
    have hdisp : ∀ v, s.Displaces (.linkVfs oldPath newPath) v ↔ s.entry q y = some v := fun v => entryAt_iff hs hq
    have hreach : ∀ v, Reach s'.entry r v ↔ Reach s.entry m v ∨ Reach (cut s.entry q y) r v := fun v => by
      rw [hins.entry_eq]
      exact reach_put hrq (ht.rooted.acyclic hrq) hbelow
    exact keeps_put_iff ht ht' hrq hreach hdisp

theorem Tree.removeEntry (ht : Tree s r) (path : Path) (allowDir : Bool) :
    Tree (s.removeEntry path allowDir).2 r ∧
      Keeps s (.removeEntry path allowDir) [(s.removeEntry path allowDir).1] (s.removeEntry path allowDir).2 := by
  have hspec := removeEntry_spec s path allowDir
  generalize s.removeEntry path allowDir = res at hspec
  obtain ⟨e, s'⟩ := res
  cases hspec with
  | refused => exact ⟨ht, ht.same⟩
  | @removed p m x _ hat hrem hleaf =>
    have ht' := ht.removed hrem
    refine ⟨ht', fun v hv => ?_⟩
    rcases reach_cut_leaf hrem.had hleaf (ht.reachable_iff.mp hv) with h | rfl
    · refine .inl (ht'.reachable_iff.mpr ?_)
      rwa [hrem.entry_eq]
    · exact .inr ⟨rfl, hat⟩

/-- Each call keeps the tree, and keeps every node in it just in case it is spared. -/
theorem Tree.step {op : VfsOp} {ret : List Int} (ht : Tree s r) (hs : s.step op = some (ret, s')) :
    Tree s' r ∧ (Keeps s op ret s' ↔ s.Spared op) := by
  cases op with
  | createFile path =>
    obtain ⟨rfl, rfl⟩ := Prod.mk.inj (Option.some.inj hs)
    have hg := grown_createFile path ht
    exact ⟨hg.tree, fun _ => trivial, fun _ => hg.keeps_reach ht⟩
  | mkdir path =>
    obtain ⟨rfl, rfl⟩ := Prod.mk.inj (Option.some.inj hs)
    have hg := grown_mkdir path ht
    exact ⟨hg.tree, fun _ => trivial, fun _ => hg.keeps_reach ht⟩
  | removeEntry path allowDir =>
    obtain ⟨rfl, rfl⟩ := Prod.mk.inj (Option.some.inj hs)
    have h := ht.removeEntry path allowDir
    exact ⟨h.1, fun _ => trivial, fun _ => h.2⟩
  | rename oldPath newPath =>
    obtain ⟨rfl, rfl⟩ := Prod.mk.inj (Option.some.inj hs)
    exact ht.rename oldPath newPath
  | linkVfs oldPath newPath =>
    obtain ⟨⟨e, s₁⟩, hl, hr⟩ := Option.map_eq_some_iff.mp hs
    obtain ⟨rfl, rfl⟩ := Prod.mk.inj hr
    exact ht.linkVfs hl
  | copyUp ext4ReadFile path =>
    obtain ⟨rfl, rfl⟩ := Prod.mk.inj (Option.some.inj hs)
    have hg := grown_copyUp ext4ReadFile path ht
    exact ⟨hg.tree, fun _ => trivial, fun _ => hg.keeps_reach ht⟩

/-- In every run the directories below the root have no cycle, and each but
the root is at exactly one place; and a call keeps every node reached, but for
what it displaces, just in case it is spared. -/
theorem tree_kept_iff {h : List Int} (hr : Runs Vfs.step free boot.init h s) :
    (∀ d, s.Reachable d → ¬ TransGen (Edge s.entry) d d) ∧
    (∀ d, s.Reachable d → s.isDir d = true → some d ≠ s.root →
      ∃! place : NodeRef × Name, s.entry place.1 place.2 = some d) ∧
    (∀ a x, s.entry a x ≠ s.root) ∧
    ∀ op ret s', s.step op = some (ret, s') → (Keeps s op ret s' ↔ s.Spared op) := by
  have ht : Tree s 0 := hr.invariant_state (Tree · 0) tree_init fun ht _ hs => (ht.step hs).1
  refine ⟨fun d hd => ht.rooted.acyclic (ht.reachable_iff.mp hd), fun d hd hdir hne => ?_, fun a x => ?_,
    fun op ret s' hs => (ht.step hs).2⟩
  · rcases ReflTransGen.cases_tail (ht.reachable_iff.mp hd) with rfl | ⟨a, -, x, hx⟩
    · exact absurd ht.root.symm hne
    · refine ⟨(a, x), hx, fun ⟨b, y⟩ hb => ?_⟩
      obtain ⟨rfl, rfl⟩ := ht.rooted.unique hdir hx hb
      rfl
  · rw [ht.root]
    exact ht.rooted.top

/-- `/a` is made, has its one place, and can be removed again. -/
theorem tree_kept_iff_mkdir :
    ∃ h s s', Runs Vfs.step free boot.init h s ∧ s.find ["a".toList] = some 22 ∧
      (∃! place : NodeRef × Name, s.entry place.1 place.2 = some 22) ∧
      s.step (.removeEntry "/a".toList true) = some ([0], s') ∧ Keeps s (.removeEntry "/a".toList true) [0] s' := by
  have hr : Runs Vfs.step free boot.init ([] ++ []) (boot.init.mkdir "/a".toList).2 :=
    Runs.start.next (a := .mkdir "/a".toList) trivial rfl
  obtain ⟨-, hplace, -, hkeeps⟩ := tree_kept_iff hr
  have hfind : (boot.init.mkdir "/a".toList).2.find ["a".toList] = some 22 := by decide
  have hret : ((boot.init.mkdir "/a".toList).2.removeEntry "/a".toList true).1 = 0 := by decide
  have hs : (boot.init.mkdir "/a".toList).2.step (.removeEntry "/a".toList true) =
      some ([0], ((boot.init.mkdir "/a".toList).2.removeEntry "/a".toList true).2) := by
    rw [← hret]
    rfl
  have hreach : (boot.init.mkdir "/a".toList).2.Reachable 22 := ⟨0, by decide, reach_of_walk hfind⟩
  exact ⟨_, _, _, hr, hfind, hplace 22 hreach (by decide) (by decide), hs, (hkeeps _ _ _ hs).mpr trivial⟩

/-- `/a` is renamed to `/a/b`: the call succeeds, and `/a` is reached no more. -/
theorem rename_below_itself_loses :
    ∃ h s s', Runs Vfs.step free boot.init h s ∧
      s.step (.rename "/a".toList "/a/b".toList) = some ([0], s') ∧ s'.lookup "/a".toList = none ∧
      ¬ Keeps s (.rename "/a".toList "/a/b".toList) [0] s' := by
  have hr : Runs Vfs.step free boot.init ([] ++ []) (boot.init.mkdir "/a".toList).2 :=
    Runs.start.next (a := .mkdir "/a".toList) trivial rfl
  have ht : Tree (boot.init.mkdir "/a".toList).2 0 := (grown_mkdir _ tree_init).tree
  have hret : ((boot.init.mkdir "/a".toList).2.rename "/a".toList "/a/b".toList).1 = 0 := by decide
  have hs : (boot.init.mkdir "/a".toList).2.step (.rename "/a".toList "/a/b".toList) =
      some ([0], ((boot.init.mkdir "/a".toList).2.rename "/a".toList "/a/b".toList).2) := by
    rw [← hret]
    rfl
  refine ⟨_, _, _, hr, hs, by decide, fun hkeeps => ?_⟩
  have hspared := (ht.step hs).2.mp hkeeps 0 0 "a".toList 22 "b".toList 22 (by decide)
    ⟨⟨"/".toList, by decide, by decide⟩, ⟨"/a".toList, by decide, by decide⟩⟩ (by decide)
  rw [if_pos (by decide)] at hspared
  exact hspared.1 .refl

end Vfs
end ChodOs
