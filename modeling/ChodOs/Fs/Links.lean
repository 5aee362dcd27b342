/-
Link counts: a new file counts one link and `link_vfs` counts one more, but
nothing counts a link less. So the counts are right in a run as long as every
file that loses an entry loses all of them.
-/
import ChodOs.Fs.Files
import Mathlib.Data.Set.Card
import Mathlib.Order.CompletePartialOrder

namespace ChodOs

open Places StepSys Relation

/-- A finite set loses nothing just in case it keeps its size. -/
theorem encard_diff_eq_iff {α : Type} {R G : Set α} (hR : R.encard ≠ ⊤) : (R \ G).encard = R.encard ↔ Disjoint R G := by
  have hfin := Set.encard_ne_top_iff.mp hR
  refine ⟨fun h => ?_, fun h => by rw [h.sdiff_eq_left]⟩
  rw [← hfin.eq_of_subset_of_encard_le' Set.sdiff_subset h.ge]
  exact Set.disjoint_sdiff_left

/-- One element is exchanged for another. -/
theorem encard_exchange {α : Type} {R G : Set α} {old new : α} (hold : old ∈ R) (hnew : new ∈ G) :
    ({a | a = new} ∪ (R \ G) \ {old}).encard = (R \ (G \ {old})).encard := by
  have hleft : {a | a = new} ∪ (R \ G) \ {old} = insert new ((R \ G) \ {old}) := rfl
  have hright : R \ (G \ {old}) = insert old ((R \ G) \ {old}) := by
    ext a
    by_cases ha : a = old
    · subst ha
      simp [hold]
    · simp [ha]
  rw [hleft, hright, Set.encard_insert_of_notMem fun hin => hin.1.2 hnew,
    Set.encard_insert_of_notMem fun hin => hin.2 rfl]

namespace Vfs

variable {s s' s'' s₁ : Vfs} {a b p q m n r : NodeRef} {x y : Name} {node : VfsNode} {path : Path}
  {G : Set (NodeRef × Name)}

/-- The entries in the tree that refer to a node. -/
def refs (s : Vfs) (n : NodeRef) : Set (NodeRef × Name) :=
  {place | s.Reachable place.1 ∧ s.entry place.1 place.2 = some n}

/-- A file in the tree has as many entries there as `stat_node` reports links. -/
def LinkRight (s : Vfs) (n : NodeRef) : Prop :=
  ∀ st, s.isDir n = false → s.Reachable n → s.statNode n = some st → (s.refs n).encard = st.nlink

def LinksRight (s : Vfs) : Prop := ∀ n, s.LinkRight n

/-- `path` names the place. -/
def Named (s : Vfs) (path : Path) (place : NodeRef × Name) : Prop :=
  ∃ parent, splitParent path = some (parent, place.2) ∧ s.lookup parent = some place.1

open Classical in
/-- The places that a call takes out of the tree, other than by moving what
is there: the one removed; the one that is filled anew, and those below it; those
of a node that goes into a file or below itself, and those below it. -/
def gone (s : Vfs) : VfsOp → Set (NodeRef × Name)
  | .removeEntry path _ => {place | s.Named path place}
  | .rename oldPath newPath => {place | ∃ r p x q y m, s.root = some r ∧ Names s oldPath newPath p x q y ∧
      s.entry p x = some m ∧
      if s.isDir q = true ∧ ¬ Reach s.entry m q then place ∈ replaces s.entry r q y m \ {(p, x)}
      else place ∈ drops s.entry r p x}
  | .linkVfs oldPath newPath => {place | ∃ r m q y, s.root = some r ∧ s.lookup oldPath = some m ∧ s.isDir m = false ∧
      s.Named newPath (q, y) ∧ s.isDir q = true ∧ place ∈ replaces s.entry r q y m}
  | _ => ∅

/-- The file is given another entry. -/
def Relinks (s : Vfs) (op : VfsOp) (n : NodeRef) : Prop :=
  match op with
  | .linkVfs oldPath _ => s.lookup oldPath = some n
  | _ => False

/-- A file that loses an entry loses all of them, and is given none. -/
def Wholly (s : Vfs) (op : VfsOp) : Prop :=
  ∀ n f, s.file n = some f → Disjoint (s.refs n) (s.gone op) ∨ s.refs n ⊆ s.gone op ∧ ¬ s.Relinks op n

/-! ### Counting -/

/-- The links that a file counts. -/
def nlink (s : Vfs) (n : NodeRef) : Option Nat := (s.file n).map (·.info.nlink)

theorem linkRight_iff : s.LinkRight n ↔ ∀ k, s.nlink n = some k → s.Reachable n → (s.refs n).encard = k := by
  unfold LinkRight nlink file isDir statNode
  cases hn : s.heap[n]? with
  | none => exact iff_of_true (fun _ _ _ h => by cases h) fun _ h => by cases h
  | some node =>
    cases node with
    | dir dir info => exact iff_of_true (fun _ h => by cases h) fun _ h => by cases h
    | file f =>
      constructor
      · intro h k hk hr
        obtain rfl := Option.some.inj hk
        exact h _ rfl hr rfl
      · intro h st h hr hst
        obtain - := h
        obtain rfl := Option.some.inj hst
        exact h _ rfl hr

theorem Tree.refs_eq (ht : Tree s r) : s.refs n = Places.refs s.entry r n := by
  ext place
  exact and_congr_left' ht.reachable_iff

theorem Tree.ne_root (ht : Tree s r) (hn : s.isDir n = false) : n ≠ r := by
  intro h
  obtain rfl := h
  rw [ht.top] at hn
  cases hn

theorem isDir_of_nlink {k : Nat} (hk : s.nlink n = some k) : s.isDir n = false := by
  obtain ⟨f, hf, -⟩ := Option.map_eq_some_iff.mp hk
  exact isDir_of_file hf

theorem Tree.reachable_iff_refs (ht : Tree s r) (hn : s.isDir n = false) : s.Reachable n ↔ (s.refs n).Nonempty := by
  rw [ht.refs_eq, refs_nonempty_iff (ht.ne_root hn), ht.reachable_iff]

/-- A call takes the entries in `G` of a file and gives it `c` others, of
which it counts a link each. -/
theorem LinkRight.step_iff {k c : Nat} (h : s.LinkRight n) (ht : Tree s r) (ht' : Tree s' r)
    (hk : s.nlink n = some k) (hk' : s'.nlink n = some (k + c))
    (hrefs : (s'.refs n).encard = (s.refs n \ G).encard + c) (hr : c ≠ 0 → s.Reachable n) :
    s'.LinkRight n ↔ Disjoint (s.refs n) G ∨ s.refs n ⊆ G ∧ c = 0 := by
  have hright : (s.refs n).Nonempty → (s.refs n).encard = k := fun hne =>
    linkRight_iff.mp h k hk ((ht.reachable_iff_refs (isDir_of_nlink hk)).mpr hne)
  rw [linkRight_iff]
  simp only [hk', Option.some.injEq, forall_eq', ht'.reachable_iff_refs (isDir_of_nlink hk'), hrefs,
    ← Set.encard_ne_zero (s := s'.refs n)]
  constructor
  · intro h'
    rcases Set.eq_empty_or_nonempty (s.refs n) with hempty | hne
    · exact .inl (hempty ▸ Set.empty_disjoint G)
    by_cases hsub : s.refs n ⊆ G ∧ c = 0
    · exact .inr hsub
    refine .inl ((encard_diff_eq_iff ?_).mp ?_)
    · rw [hright hne]
      exact ENat.natCast_ne_top k
    · have hcount : (s.refs n \ G).encard + c = (k + c : Nat) := by
        refine h' fun hzero => hsub ?_
        obtain ⟨hdiff, hc⟩ := add_eq_zero.mp hzero
        exact ⟨Set.sdiff_eq_empty.mp (Set.encard_eq_zero.mp hdiff), by exact_mod_cast hc⟩
      rw [hright hne]
      push_cast at hcount
      exact ENat.add_left_injective_of_ne_top (ENat.natCast_ne_top c) hcount
  · intro h hzero
    rcases h with hdisj | ⟨hsub, rfl⟩
    · rw [hdisj.sdiff_eq_left] at hzero ⊢
      have hne : (s.refs n).Nonempty := by
        by_cases hc : c = 0
        · subst hc
          rw [Nat.cast_zero, add_zero] at hzero
          exact Set.encard_ne_zero.mp hzero
        · exact (ht.reachable_iff_refs (isDir_of_nlink hk)).mp (hr hc)
      rw [hright hne]
      push_cast
      rfl
    · rw [Set.sdiff_eq_empty.mpr hsub] at hzero
      exact absurd (by simp) hzero

/-- A call that only takes entries in `G` keeps the counts right just in case
each file loses none of its entries, or all. -/
theorem LinksRight.lose_iff (h : LinksRight s) (ht : Tree s r) (ht' : Tree s' r) (hk : ∀ n, s'.nlink n = s.nlink n)
    (hrefs : ∀ n f, s.file n = some f → (s'.refs n).encard = (s.refs n \ G).encard) :
    LinksRight s' ↔ ∀ n f, s.file n = some f → Disjoint (s.refs n) G ∨ s.refs n ⊆ G := by
  have hstep : ∀ {n f}, s.file n = some f → (s'.LinkRight n ↔ Disjoint (s.refs n) G ∨ s.refs n ⊆ G) := by
    intro n f hf
    have hn : s.nlink n = some f.info.nlink := by rw [nlink, hf]; rfl
    have hn' : s'.nlink n = some (f.info.nlink + 0) := (hk n).trans hn
    have hrefs' : (s'.refs n).encard = (s.refs n \ G).encard + (0 : Nat) := by
      rw [hrefs n f hf, Nat.cast_zero, add_zero]
    have hiff := (h n).step_iff ht ht' hn hn' hrefs' fun h0 => absurd rfl h0
    rwa [and_iff_left (Eq.refl 0)] at hiff
  constructor
  · exact fun h' n f hf => (hstep hf).mp (h' n)
  · intro h' n
    cases hf : s.file n with
    | some f => exact (hstep hf).mpr (h' n f hf)
    | none =>
      rw [linkRight_iff, hk, nlink, hf]
      exact fun k hk => by cases hk

/-! ### What the calls count -/

theorem nlink_set : (s.set n node).nlink a = if n = a then (match node with | .file f => some f.info.nlink | _ => none)
    else s.nlink a := by
  rw [nlink, nlink, file, file, getElem?_set]
  by_cases ha : n = a
  · rw [if_pos ha, if_pos ha]
    cases node <;> rfl
  · rw [if_neg ha, if_neg ha]

theorem nlink_dir {dir : TmpfsDir} {info : VfsMeta} (hn : s.heap[n]? = some (.dir dir info)) : s.nlink n = none := by
  rw [nlink, file, hn]
  rfl

/-- Changing a directory changes no count. -/
theorem nlink_set_dir {dir dir' : TmpfsDir} {info info' : VfsMeta} (hn : s.heap[n]? = some (.dir dir info)) :
    (s.set n (.dir dir' info')).nlink a = s.nlink a := by
  rw [nlink_set]
  split
  · next ha => rw [← ha, nlink_dir hn]
  · rfl

theorem nlink_remove (hr : s.remove p x = some (m, s')) : s'.nlink a = s.nlink a := by
  unfold remove at hr
  split at hr
  · next hp =>
    split at hr
    · obtain ⟨-, rfl⟩ := Prod.mk.inj (Option.some.inj hr)
      exact nlink_set_dir hp
    · cases hr
  · cases hr

theorem nlink_insert (hi : s.insert q y m = some s') : s'.nlink a = s.nlink a := by
  unfold insert at hi
  split at hi
  · next hq =>
    obtain rfl := Option.some.inj hi
    exact nlink_set_dir hq
  · cases hi

theorem nlink_removeEntry {allowDir : Bool} : (s.removeEntry path allowDir).2.nlink a = s.nlink a := by
  unfold removeEntry
  split
  · rfl
  split
  · rfl
  split
  · rfl
  simp only
  split
  · rfl
  split
  · next hr => exact nlink_remove hr
  · rfl

theorem nlink_rename {oldPath newPath : Path} : (s.rename oldPath newPath).2.nlink a = s.nlink a := by
  cases ho : splitParent oldPath with
  | none => simp only [rename, ho]
  | some old =>
    cases hn : splitParent newPath with
    | none => simp only [rename, ho, hn]
    | some new =>
      cases hp : s.lookup old.1 with
      | none => simp only [rename, ho, hn, hp]
      | some p =>
        cases hq : s.lookup new.1 with
        | none => simp only [rename, ho, hn, hp, hq]
        | some q =>
          rw [rename_moves ho hn hp hq]
          split
          · rfl
          · next hr =>
            split
            · next hi => exact (nlink_insert hi).trans (nlink_remove hr)
            · exact nlink_remove hr

/-- A link that is made is counted, for the file it is made to. -/
theorem nlink_linkVfs {oldPath newPath : Path} (h : s.linkVfs oldPath newPath = some (0, s'))
    (hm : s.lookup oldPath = some m) :
    (∀ a, a ≠ m → s'.nlink a = s.nlink a) ∧ s'.nlink m = (s.nlink m).map (· + 1) := by
  unfold linkVfs at h
  simp only [hm] at h
  split at h
  · cases h
  split at h
  · cases h
  split at h
  · cases h
  split at h
  · cases h
  next s₁ hi =>
  have hsame : ∀ a, s₁.nlink a = s.nlink a := fun a => nlink_insert hi
  split at h
  · next f hf =>
    obtain ⟨nlink, hadd, h⟩ := Option.bind_eq_some_iff.mp h
    obtain ⟨-, rfl⟩ := Prod.mk.inj (Option.some.inj h)
    have hcount : s₁.nlink m = some f.info.nlink := by
      rw [Vfs.nlink, file_eq_some.mpr hf]
      rfl
    refine ⟨fun a ha => ?_, ?_⟩
    · rw [nlink_set, if_neg (Ne.symm ha), hsame]
    · rw [← hsame, hcount, nlink_set, if_pos rfl]
      unfold addU32 at hadd
      split at hadd
      · exact hadd.symm
      · cases hadd
  · next hno =>
    obtain ⟨-, rfl⟩ := Prod.mk.inj (Option.some.inj h)
    have hnone : s₁.file m = none := Option.eq_none_iff_forall_not_mem.mpr fun f hf => hno f (file_eq_some.mp hf)
    refine ⟨fun a _ => hsame a, ?_⟩
    rw [← hsame, nlink, hnone]
    rfl

/-! ### The calls that take entries away -/

theorem Named.unique {place place' : NodeRef × Name} (h : s.Named path place) (h' : s.Named path place') :
    place = place' := by
  obtain ⟨parent, hs, hl⟩ := h
  obtain ⟨parent', hs', hl'⟩ := h'
  obtain ⟨rfl, hx⟩ := Prod.mk.inj (Option.some.inj (hs.symm.trans hs'))
  exact Prod.ext (Option.some.inj (hl.symm.trans hl')) hx

/-- A file that is named is removed. -/
theorem removeEntry_file (allowDir : Bool) {f : FileNode} (hp : s.Named path (p, x)) (hm : s.entry p x = some m)
    (hf : s.file m = some f) : ∃ s', s.remove p x = some (m, s') ∧ s.removeEntry path allowDir = (0, s') := by
  obtain ⟨parent, hs, hl⟩ := hp
  cases hr : s.remove p x with
  | none =>
    rw [remove_eq_none.mp hr] at hm
    cases hm
  | some res =>
    obtain ⟨m', s'⟩ := res
    obtain rfl := Option.some.inj (hm.symm.trans (remove_spec hr).had)
    refine ⟨s', rfl, ?_⟩
    simp only [removeEntry, hs, hl, hm, file_eq_some.mp hf, hr]

theorem Tree.refs_remove_leaf (ht : Tree s r) (ht' : Tree s' r) (hrem : Removed s p x m s')
    (hleaf : ∀ y, s.entry m y = none) : s'.refs n = s.refs n \ {(p, x)} := by
  rw [ht.refs_eq, ht'.refs_eq, hrem.entry_eq, refs_cut]
  ext place
  exact and_congr_right fun hplace => not_congr (mem_drops_leaf hrem.had hleaf hplace)

theorem entry_of_file {f : FileNode} (hf : s.file n = some f) : s.entry n x = none := by
  rw [entry, file_eq_some.mp hf]

theorem Tree.links_removeEntry {allowDir : Bool} (ht : Tree s r) (h : LinksRight s) :
    LinksRight (s.removeEntry path allowDir).2 ↔ s.Wholly (.removeEntry path allowDir) := by
  have ht' := (ht.removeEntry path allowDir).1
  simp only [Wholly, Relinks, not_false_eq_true, and_true]
  refine h.lose_iff ht ht' (fun n => nlink_removeEntry) fun n f hf => congrArg Set.encard ?_
  by_cases hfile : ∃ place m g, s.Named path place ∧ s.entry place.1 place.2 = some m ∧ s.file m = some g
  · obtain ⟨⟨p, x⟩, m, g, hp, hm, hg⟩ := hfile
    obtain ⟨s₁, hr, heq⟩ := removeEntry_file allowDir hp hm hg
    rw [heq] at ht' ⊢
    rw [ht.refs_remove_leaf ht' (remove_spec hr) fun y => entry_of_file hg]
    congr 1
    ext place
    exact ⟨fun he => he ▸ hp, fun hplace => hplace.unique hp⟩
  · -- no file goes
    have hnot : ∀ place ∈ s.refs n, ¬ s.Named path place := fun place hplace hnamed =>
      hfile ⟨place, n, f, hnamed, hplace.2, hf⟩
    rw [show s.refs n \ s.gone (.removeEntry path allowDir) = s.refs n from
      (Set.disjoint_left.mpr hnot).sdiff_eq_left]
    have hspec := removeEntry_spec s path allowDir
    generalize s.removeEntry path allowDir = res at hspec ht' ⊢
    obtain ⟨e, s'⟩ := res
    cases hspec with
    | refused => rfl
    | @removed p m x _ hat hrem hleaf =>
      rw [ht.refs_remove_leaf ht' hrem hleaf]
      refine (Set.disjoint_left.mpr fun place hplace he => ?_).sdiff_eq_left
      obtain ⟨parent, y, q, hs, hl, hm⟩ := hat
      obtain rfl : place = (p, x) := he
      obtain rfl := Option.some.inj (hrem.had.symm.trans hplace.2)
      exact hfile ⟨(q, y), m, f, ⟨parent, hs, hl⟩, hm, hf⟩

open Classical in
/-- What a rename that drops its node takes away: the node below itself, or the new parent a file. -/
theorem gone_rename {oldPath newPath : Path} (ht : Tree s r) (hnames : Names s oldPath newPath p x q y)
    (hm : s.entry p x = some m) : s.gone (.rename oldPath newPath) =
      if s.isDir q = true ∧ ¬ Reach s.entry m q then replaces s.entry r q y m \ {(p, x)} else drops s.entry r p x := by
  ext place
  constructor
  · intro ⟨r', p', x', q', y', m', hr', hnames', hm', hplace⟩
    obtain ⟨rfl, rfl, rfl, rfl⟩ := hnames.unique hnames'
    obtain rfl := Option.some.inj (hm.symm.trans hm')
    obtain rfl := Option.some.inj (ht.root.symm.trans hr')
    split at hplace <;> rename_i hc
    · rwa [if_pos hc]
    · rwa [if_neg hc]
  · intro hplace
    refine ⟨r, p, x, q, y, m, ht.root, hnames, hm, ?_⟩
    split at hplace <;> rename_i hc
    · rwa [if_pos hc]
    · rwa [if_neg hc]

theorem Tree.links_rename {oldPath newPath : Path} (ht : Tree s r) (h : LinksRight s) :
    LinksRight (s.rename oldPath newPath).2 ↔ s.Wholly (.rename oldPath newPath) := by
  have ht' := (ht.rename oldPath newPath).1
  simp only [Wholly, Relinks, not_false_eq_true, and_true]
  refine h.lose_iff ht ht' (fun n => nlink_rename) fun n f hf => ?_
  have hspec := rename_spec s oldPath newPath
  generalize s.rename oldPath newPath = res at hspec ht' ⊢
  obtain ⟨e, s'⟩ := res
  cases hspec with
  | refused he hno =>
    rw [show gone _ (.rename oldPath newPath) = ∅ from Set.eq_empty_of_forall_notMem ?_, Set.sdiff_empty]
    intro place h
    obtain ⟨_, p, x, q, y, m, -, hnames, hm, -⟩ := h
    rw [hno p x q y hnames] at hm
    cases hm
  | @dropped p q m x y s₁ hnames hrem hfile =>
    rw [gone_rename ht hnames hrem.had, if_neg fun hc => Bool.false_ne_true (hfile.symm.trans hc.1), ht.refs_eq, ht'.refs_eq, hrem.entry_eq, refs_cut]
  | @moved p q m x y s₁ s' hnames hrem hins =>
    obtain ⟨_, -, hp⟩ := hnames.old
    obtain ⟨_, -, hq⟩ := hnames.new
    have hp := ht.reach_of_lookup hp
    have hq := ht.reach_of_lookup hq
    have hqdir : s.isDir q = true := hrem.isDir q ▸ hins.dir
    rw [gone_rename ht hnames hrem.had, ht.refs_eq, ht'.refs_eq, hins.entry_eq, hrem.entry_eq]
    by_cases hbelow : Reach s.entry m q
    · rw [if_neg fun hc => hc.2 hbelow, refs_put_unreached (not_reach_cut_of_below ht.rooted hrem.had hbelow hqdir),
        refs_cut]
    · rw [if_pos ⟨hqdir, hbelow⟩, refs_move hrem.had hp hq (ht.rooted.acyclic hq) hbelow]
      by_cases hn : m = n
      · subst hn
        simp only [and_true]
        exact encard_exchange ⟨hp, hrem.had⟩ (.inl rfl)
      · -- the place that the moved node leaves holds no other
        have hempty : {place : NodeRef × Name | place = (q, y) ∧ m = n} = ∅ :=
          Set.eq_empty_of_forall_notMem fun _ hc => hn hc.2
        have hnot : (p, x) ∉ Places.refs s.entry r n := fun hin => hn (Option.some.inj (hrem.had.symm.trans hin.2))
        rw [hempty, Set.empty_union]
        congr 1
        ext place
        by_cases hplace : place = (p, x)
        · subst hplace
          exact iff_of_false (fun hc => hc.2 rfl) fun hc => hnot hc.1
        · simp [hplace]

theorem gone_linkVfs {oldPath newPath parent : Path} (ht : Tree s r) (hm : s.lookup oldPath = some m)
    (hmfile : s.isDir m = false) (hs : splitParent newPath = some (parent, y)) (hq : s.lookup parent = some q)
    (hqdir : s.isDir q = true) : s.gone (.linkVfs oldPath newPath) = replaces s.entry r q y m := by
  ext place
  constructor
  · intro h
    obtain ⟨r', m', q', y', hr', hm', -, hnamed, -, hplace⟩ := h
    obtain rfl := Option.some.inj (ht.root.symm.trans hr')
    obtain rfl := Option.some.inj (hm.symm.trans hm')
    obtain ⟨rfl, rfl⟩ := Prod.mk.inj (hnamed.unique ⟨parent, hs, hq⟩)
    exact hplace
  · exact fun hplace => ⟨r, m, q, y, ht.root, hm, hmfile, ⟨parent, hs, hq⟩, hqdir, hplace⟩

theorem Tree.links_linkVfs {oldPath newPath : Path} {e : Int} (ht : Tree s r) (h : LinksRight s)
    (hl : s.linkVfs oldPath newPath = some (e, s')) : LinksRight s' ↔ s.Wholly (.linkVfs oldPath newPath) := by
  have ht' := (ht.linkVfs hl).1
  cases linkVfs_spec hl with
  | refused hno =>
    refine iff_of_true h fun n f hf => .inl ?_
    rw [show s.gone (.linkVfs oldPath newPath) = ∅ from Set.eq_empty_of_forall_notMem ?_]
    · exact Set.disjoint_empty _
    · intro place h
      obtain ⟨_, m, q, y, -, hm, hmfile, ⟨parent, hs, hq⟩, hqdir, -⟩ := h
      rw [hno m parent q y hm hmfile hs hq] at hqdir
      cases hqdir
  | @linked m q y parent _ hm hmfile hs hq hins =>
    obtain ⟨hother, hself⟩ := nlink_linkVfs hl hm
    have hqr := ht.reach_of_lookup hq
    have hmr := ht.reach_of_lookup hm
    have hleaf : ∀ x, s.entry m x = none := fun x => by
      cases hx : s.entry m x with
      | none => rfl
      | some b => rw [isDir_of_entry hx] at hmfile; cases hmfile
    have hbelow : ¬ Reach s.entry m q := fun hreach => by
      rw [← hreach.eq_of_leaf hleaf, hins.dir] at hmfile
      cases hmfile
    have hrefs : ∀ n, s'.refs n = {place | place = (q, y) ∧ m = n} ∪ s.refs n \ replaces s.entry r q y m := fun n => by
      rw [ht.refs_eq, ht'.refs_eq, hins.entry_eq, refs_put hqr (ht.rooted.acyclic hqr) hbelow fun a z ha _ => hmr.trans ha]
    have hstep : ∀ n f, s.file n = some f → (s'.LinkRight n ↔ Disjoint (s.refs n) (s.gone (.linkVfs oldPath newPath)) ∨
        s.refs n ⊆ s.gone (.linkVfs oldPath newPath) ∧ ¬ s.Relinks (.linkVfs oldPath newPath) n) := by
      intro n f hf
      have hk : s.nlink n = some f.info.nlink := by rw [nlink, hf]; rfl
      rw [gone_linkVfs ht hm hmfile hs hq hins.dir]
      by_cases hn : n = m
      · subst hn
        have hnew : (q, y) ∉ s.refs n \ replaces s.entry r q y n := fun hin => hin.2 (.inl rfl)
        have hcard : (s'.refs n).encard = (s.refs n \ replaces s.entry r q y n).encard + (1 : Nat) := by
          rw [hrefs, Nat.cast_one, ← Set.encard_insert_of_notMem hnew]
          simp only [and_true]
          rfl
        have hself' : s'.nlink n = some (f.info.nlink + 1) := by rw [hself, hk]; rfl
        refine ((h n).step_iff ht ht' hk hself' hcard fun _ => ht.reachable_iff.mpr hmr).trans ?_
        exact or_congr_right (and_congr_right fun _ => iff_of_false Nat.one_ne_zero fun hno => hno hm)
      · have hcard : (s'.refs n).encard = (s.refs n \ replaces s.entry r q y m).encard + (0 : Nat) := by
          have hempty : {place : NodeRef × Name | place = (q, y) ∧ m = n} = ∅ :=
            Set.eq_empty_of_forall_notMem fun _ hc => hn hc.2.symm
          rw [hrefs, hempty, Set.empty_union, Nat.cast_zero, add_zero]
        have hk' : s'.nlink n = some (f.info.nlink + 0) := (hother n hn).trans hk
        refine ((h n).step_iff ht ht' hk hk' hcard fun h0 => absurd rfl h0).trans ?_
        refine or_congr_right (and_congr_right fun _ => iff_of_true rfl fun hre => hn ?_)
        exact Option.some.inj (Eq.trans hre.symm hm)
    constructor
    · exact fun h' n f hf => (hstep n f hf).mp (h' n)
    · intro h' n
      cases hf : s.file n with
      | some f => exact (hstep n f hf).mpr (h' n f hf)
      | none =>
        have hnone : s'.nlink n = none := by
          by_cases hn : n = m
          · rw [hn, hself, nlink, ← hn, hf]
            rfl
          · rw [hother n hn, nlink, hf]
            rfl
        rw [linkRight_iff, hnone]
        exact fun k hk => by cases hk

/-! ### The calls that make nodes -/

section
variable {dir : TmpfsDir} {info : VfsMeta} {new : Nat → VfsNode}

theorem Tree.nlink_orInsertWith (ht : Tree s r) (hp : s.heap[p]? = some (.dir dir info)) (hfree : dir[x]? = none) :
    (s.orInsertWith p dir info x new).2.nlink n =
      if s.nextRef = n then (match new s.inoSeq with | .file f => some f.info.nlink | _ => none) else s.nlink n := by
  have hpn : (s.alloc new).2.heap[p]? = some (.dir dir info) := by
    refine (getElem?_set (s := s)).trans ?_
    rw [if_neg (Nat.ne_of_gt (ht.dirs (isDir_iff.mpr ⟨dir, info, hp⟩)))]
    exact hp
  simp only [Vfs.orInsertWith, hfree]
  exact (nlink_set_dir (s := (s.alloc new).2) hpn).trans (nlink_set (s := s))

/-- The new node is at the one place. -/
theorem Tree.refs_orInsertWith (ht : Tree s r) (hreach : Reach s.entry r p) (hp : s.heap[p]? = some (.dir dir info))
    (hfree : dir[x]? = none) (hnew : ∀ ino y, (new ino).entry y = none) :
    (s.orInsertWith p dir info x new).2.refs n = {place | place = (p, x) ∧ s.nextRef = n} ∪ s.refs n := by
  have hleaf : ∀ y, s.entry s.nextRef y = none := fun y => ht.entry_new
  have hbelow : ¬ Reach s.entry s.nextRef p := fun hr =>
    Nat.lt_irrefl _ (hr.eq_of_leaf hleaf ▸ ht.dirs (isDir_iff.mpr ⟨dir, info, hp⟩))
  have hnone : ∀ {a z b}, s.entry a z = some b → ¬ (a = p ∧ z = x) := by
    intro a z b hz h
    obtain ⟨rfl, rfl⟩ := h
    rw [entry_of_dir hp, hfree] at hz
    cases hz
  rw [ht.refs_eq, (grown_orInsertWith ht hp hnew).tree.refs_eq, ht.entry_orInsertWith hp hfree hnew,
    refs_put hreach (ht.rooted.acyclic hreach) hbelow fun a z ha hz => ?_]
  · congr 1
    refine (Set.disjoint_left.mpr ?_).sdiff_eq_left
    intro place h₁ h₂
    obtain ⟨hr, hz⟩ := h₁
    rcases h₂ with rfl | hno
    · exact hnone hz ⟨rfl, rfl⟩
    · exact hno (.inr (hr.mono fun a z b hz => cut_eq_some.mpr ⟨hnone hz, hz⟩))
  · rw [ha.eq_of_leaf hleaf, hleaf] at hz
    cases hz

/-- A new file counts its one entry. -/
theorem LinksRight.orInsertWith (h : LinksRight s) (ht : Tree s r) (hreach : Reach s.entry r p)
    (hp : s.heap[p]? = some (.dir dir info)) (hnew : ∀ ino y, (new ino).entry y = none)
    (hone : ∀ ino f, new ino = .file f → f.info.nlink = 1) : LinksRight (s.orInsertWith p dir info x new).2 := by
  cases hfree : dir[x]? with
  | some n =>
    simp only [Vfs.orInsertWith, hfree]
    exact h
  | none =>
    have ht' := (grown_orInsertWith (x := x) ht hp hnew).tree
    intro n
    rw [linkRight_iff, ht.nlink_orInsertWith hp hfree]
    intro k hk hr
    by_cases hn : s.nextRef = n
    · rw [if_pos hn] at hk
      have hold : s.refs n = ∅ := Set.eq_empty_of_forall_notMem fun place hplace =>
        Nat.lt_irrefl _ (hn ▸ ht.target hplace.2)
      have hsingle : {place : NodeRef × Name | place = (p, x) ∧ s.nextRef = n} = {(p, x)} := by
        simp only [hn, and_true]
        rfl
      rw [ht.refs_orInsertWith hreach hp hfree hnew, hold, Set.union_empty, hsingle, Set.encard_singleton]
      split at hk
      · next f hf =>
        rw [← Option.some.inj hk, hone _ f hf]
        rfl
      · cases hk
    · rw [if_neg hn] at hk
      have hempty : {place : NodeRef × Name | place = (p, x) ∧ s.nextRef = n} = ∅ :=
        Set.eq_empty_of_forall_notMem fun _ hc => hn hc.2
      have hrefs : (s.orInsertWith p dir info x new).2.refs n = s.refs n := by
        rw [ht.refs_orInsertWith hreach hp hfree hnew, hempty, Set.empty_union]
      have hk' : (s.orInsertWith p dir info x new).2.nlink n = some k := by
        rw [ht.nlink_orInsertWith hp hfree, if_neg hn]
        exact hk
      rw [ht'.reachable_iff_refs (isDir_of_nlink hk'), hrefs, ← ht.reachable_iff_refs (isDir_of_nlink hk)] at hr
      rw [hrefs]
      exact linkRight_iff.mp (h n) k hk hr

theorem LinksRight.create (h : LinksRight s) (ht : Tree s r) (path : Path) (hnew : ∀ ino y, (new ino).entry y = none)
    (hone : ∀ ino f, new ino = .file f → f.info.nlink = 1) : LinksRight (s.create path new).2 := by
  unfold Vfs.create
  split
  · exact h
  split
  · exact h
  next hl =>
  split
  · next hp => exact h.orInsertWith ht (ht.reach_of_lookup hl) hp hnew hone
  · exact h

end

/-- A tree whose files count their links. -/
structure Counted (s : Vfs) (r : NodeRef) : Prop where
  tree : Tree s r
  links : LinksRight s

theorem Counted.createFile (h : Counted s r) (path : Path) : Counted (s.createFile path).2 r :=
  ⟨(grown_createFile path h.tree).tree, h.links.create h.tree path (fun _ _ => rfl) fun _ f hf => by cases hf; rfl⟩

theorem Counted.mkdir (h : Counted s r) (path : Path) : Counted (s.mkdir path).2 r :=
  ⟨(grown_mkdir path h.tree).tree,
    h.links.create h.tree path (fun _ _ => Std.ExtTreeMap.getElem?_empty) fun _ f hf => by cases hf⟩

theorem Counted.ensureDirs {names : List Name} {cur : Path} (h : Counted s r) : Counted (s.ensureDirs cur names) r := by
  induction names generalizing s cur with
  | nil => exact h
  | cons part names ih =>
    simp only [Vfs.ensureDirs]
    split
    · exact ih (h.mkdir _)
    · exact ih h

/-- Other contents of a file leave its links. -/
theorem Counted.setData {f : FileNode} (h : Counted s r) (hf : s.heap[n]? = some (.file f)) (data : List UInt8) :
    Counted (s.setData n f data) r := by
  have hg : Grown s (s.setData n f data) r := grown_file h.tree hf
  have hentry : (s.setData n f data).entry = s.entry := entry_set_file hf
  refine ⟨hg.tree, fun a => ?_⟩
  have hrefs : (s.setData n f data).refs a = s.refs a := by
    rw [h.tree.refs_eq, hg.tree.refs_eq, hentry]
  have hnlink : (s.setData n f data).nlink a = s.nlink a := by
    rw [Vfs.setData, nlink_set]
    split
    · next ha => rw [← ha, nlink, file_eq_some.mpr hf]; rfl
    · rfl
  rw [linkRight_iff, hnlink, hrefs]
  intro k hk hr
  refine linkRight_iff.mp (h.links a) k hk ?_
  rwa [h.tree.reachable_iff, ← hentry, ← hg.tree.reachable_iff]

theorem Counted.copyUp (h : Counted s r) (ext4ReadFile : Path → Option (List UInt8)) (path : Path) :
    Counted (s.copyUp ext4ReadFile path).2 r := by
  have hparents : Counted (s.ensureParentDirs path) r := by
    unfold Vfs.ensureParentDirs
    simp only
    split
    · exact h
    · exact h.ensureDirs
  have hfile := hparents.createFile path
  unfold Vfs.copyUp
  split
  · exact h
  split
  · exact h
  split
  · next heq => rwa [heq] at hfile
  · next node s₁ heq =>
    rw [heq] at hfile
    split
    · next f hn => exact hfile.setData hn _
    · exact hfile

theorem counted_init : Counted boot.init 0 := by
  have hroot : Counted boot.mountRoot 0 := by
    refine ⟨tree_mountRoot, fun n => linkRight_iff.mpr fun k hk _ => ?_⟩
    have hn : boot.mountRoot.nlink n = none := by
      refine (nlink_set (s := boot)).trans ?_
      split <;> rfl
    rw [hn] at hk
    cases hk
  have hdirs : ∀ (dirs : List Path) (s : Vfs), Counted s 0 → Counted (dirs.foldl (fun s d => (s.mkdir d).2) s) 0 := by
    intro dirs
    induction dirs with
    | nil => exact fun s h => h
    | cons d dirs ih => exact fun s h => ih _ (h.mkdir d)
  exact hdirs _ _ hroot

/-! ### Runs -/

theorem Counted.step {op : VfsOp} {ret : List Int} (h : Counted s r) (hs : s.step op = some (ret, s')) :
    LinksRight s' ↔ s.Wholly op := by
  have hnone : s.gone op = ∅ → s.Wholly op := fun hempty n f _ => .inl (hempty ▸ Set.disjoint_empty _)
  cases op with
  | createFile path =>
    obtain ⟨rfl, rfl⟩ := Prod.mk.inj (Option.some.inj hs)
    exact iff_of_true (h.createFile path).links (hnone rfl)
  | mkdir path =>
    obtain ⟨rfl, rfl⟩ := Prod.mk.inj (Option.some.inj hs)
    exact iff_of_true (h.mkdir path).links (hnone rfl)
  | removeEntry path allowDir =>
    obtain ⟨rfl, rfl⟩ := Prod.mk.inj (Option.some.inj hs)
    exact h.tree.links_removeEntry h.links
  | rename oldPath newPath =>
    obtain ⟨rfl, rfl⟩ := Prod.mk.inj (Option.some.inj hs)
    exact h.tree.links_rename h.links
  | linkVfs oldPath newPath =>
    obtain ⟨⟨e, s₁⟩, hl, hr⟩ := Option.map_eq_some_iff.mp hs
    obtain ⟨rfl, rfl⟩ := Prod.mk.inj hr
    exact h.tree.links_linkVfs h.links hl
  | copyUp ext4ReadFile path =>
    obtain ⟨rfl, rfl⟩ := Prod.mk.inj (Option.some.inj hs)
    exact iff_of_true (h.copyUp ext4ReadFile path).links (hnone rfl)

/-- In a run in which each file that loses an entry loses all of them, and is
given none by the same call, the counts are right in every state; and one more
call keeps them so exactly when the same holds of it. -/
theorem links_right_iff_wholly {h : List Int} (hr : Runs Vfs.step (fun _ s op => s.Wholly op) boot.init h s) :
    LinksRight s ∧ ∀ op ret s', s.step op = some (ret, s') → (LinksRight s' ↔ s.Wholly op) := by
  have hc : Counted s 0 := hr.invariant_state (Counted · 0) counted_init fun hc hok hs =>
    ⟨(hc.tree.step hs).1, (hc.step hs).mpr hok⟩
  exact ⟨hc.links, fun op ret s' hs => hc.step hs⟩

/-- A file that is made counts one link. -/
theorem links_right_made :
    ∃ h s, Runs Vfs.step (fun _ s op => s.Wholly op) boot.init h s ∧ s.find ["f".toList] = some 22 ∧ LinksRight s := by
  have hr : Runs Vfs.step (fun _ s op => s.Wholly op) boot.init ([] ++ []) (boot.init.createFile "/f".toList).2 :=
    Runs.start.next (a := .createFile "/f".toList) (fun _ _ _ => .inl (Set.disjoint_empty _)) rfl
  exact ⟨_, _, hr, by decide, (links_right_iff_wholly hr).1⟩

/-- Every entry of a node, in the tree or not. -/
def entriesOf (s : Vfs) (n : NodeRef) : List (NodeRef × Name) :=
  s.heap.toList.flatMap fun (a, node) =>
    match node with
    | .dir dir _ => (dir.toList.filter fun e => e.2 == n).map fun e => (a, e.1)
    | .file _ => []

theorem mem_entriesOf (hxn : s.entry a x = some n) : (a, x) ∈ s.entriesOf n := by
  unfold entry at hxn
  split at hxn
  · next dir info ha =>
    refine List.mem_flatMap.mpr ⟨(a, .dir dir info), Std.ExtTreeMap.mem_toList_iff_getElem?_eq_some.mpr ha, ?_⟩
    refine List.mem_map.mpr ⟨(x, n), List.mem_filter.mpr ⟨?_, beq_self_eq_true n⟩, rfl⟩
    exact Std.ExtTreeMap.mem_toList_iff_getElem?_eq_some.mpr hxn
  · cases hxn

/-- `/g` is made a link to `/f` and removed: the file still counts two links, and has one entry. -/
theorem unlinked_file_counts_two : ∃ h s n st, Runs Vfs.step free boot.init h s ∧ s.isDir n = false ∧ s.Reachable n ∧
    s.statNode n = some st ∧ st.nlink = 2 ∧ (s.refs n).encard = 1 ∧ ¬ LinksRight s := by
  obtain ⟨h, s, hr, hP⟩ := Runs.of_exec Vfs.step free boot.init
    [.createFile "/f".toList, .linkVfs "/f".toList "/g".toList, .removeEntry "/g".toList false]
    (fun _ s => s.find ["f".toList] == some 22 && s.entriesOf 22 == [(0, "f".toList)] && s.root == some 0 &&
      s.isDir 22 == false && (s.statNode 22).any fun st => st.nlink == 2) (by decide)
  simp only [Bool.and_eq_true, beq_iff_eq, Option.any_eq_true] at hP
  obtain ⟨⟨⟨⟨hfind, hentries⟩, hroot⟩, hfile⟩, st, hst, hnlink⟩ := hP
  have hreach : s.Reachable 22 := by
    obtain ⟨root, hroot, hwalk⟩ := Option.bind_eq_some_iff.mp hfind
    exact ⟨root, hroot, reach_of_walk hwalk⟩
  have hrefs : s.refs 22 = {(0, "f".toList)} := by
    ext place
    constructor
    · intro h
      obtain ⟨-, hentry⟩ := h
      exact List.mem_singleton.mp (hentries ▸ mem_entriesOf hentry)
    · intro h
      obtain rfl := h
      refine ⟨⟨0, hroot, .refl⟩, ?_⟩
      have htop : s.find [] = some 0 := by rw [find, hroot]; rfl
      exact (find_concat htop).symm.trans hfind
  have hcard : (s.refs 22).encard = 1 := by rw [hrefs, Set.encard_singleton]
  refine ⟨h, s, 22, st, hr, hfile, hreach, hst, hnlink, hcard, fun hright => ?_⟩
  have h12 := (hright 22 st hfile hreach hst).symm.trans hcard
  rw [hnlink] at h12
  exact absurd (Nat.cast_inj.mp h12) (by decide)

end Vfs
end ChodOs
