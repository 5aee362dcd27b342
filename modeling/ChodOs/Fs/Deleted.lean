/-
What is seen of a path after it has been removed or renamed away. The layers
below the tree are asked as if nothing had been removed from above them.
-/
import ChodOs.Fs.Overlay

namespace ChodOs

open Places StepSys

namespace Vfs

variable {s s' : Vfs} {p q m r : NodeRef} {x y : Name} {path oldPath newPath : Path} {ext4 : Option Ext4View}
  {c : VfsCall} {ret h : List Int}

/-- Nothing is there, whether it is asked for by reading, by looking or by writing. -/
structure Vanished (s : Vfs) (ext4 : Option Ext4View) (path : Path) : Prop where
  read : s.openReadonly ext4 path = none
  exist : ∀ info, s.existsAny ext4 info path = false
  write : (s.openWritable ext4 path false).1 = none

/-- The call takes the entry of the path away. -/
inductive Deletes : VfsCall → Path → Prop
  | remove {path : Path} {allowDir : Bool} : Deletes (.tree (.removeEntry path allowDir)) path
  | rename {oldPath newPath : Path} : newPath ≠ oldPath → Deletes (.tree (.rename oldPath newPath)) oldPath

/-- The call does not make the path again. -/
def Leaves (ext4 : Option Ext4View) (path : Path) (s : Vfs) (c : VfsCall) : Prop :=
  ∀ ret s', s.call ext4 c = some (ret, s') → s.lookup path = none → s'.lookup path = none

/-- The image, or the process files or devices, have the path. -/
def Elsewhere (ext4 : Option Ext4View) (path : Path) : Prop :=
  ext4ReadFile ext4 path ≠ none ∨
    if isProc path then ∃ info, procExists info path = true
    else if ChodOs.isDev path then devExists path = true
    else ext4ListDir ext4 path ≠ []

/-- A rename puts a node where its old path leads: to a place on the way there. -/
def Refills (s : Vfs) : VfsCall → Prop
  | .tree (.rename oldPath newPath) =>
    ∃ rest, parts oldPath = parts newPath ++ rest ∧ (s.find (parts oldPath ++ rest)).isSome = true
  | _ => False

theorem readFile_of_lookup (hl : s.lookup path = none) : s.readFile path = none := by
  simp only [readFile, nodeAt, hl]
  rfl

theorem existsAny_congr {info info' : ProcInfo} (hproc : isProc path = false) :
    s.existsAny ext4 info path = s.existsAny ext4 info' path := by
  simp only [existsAny, hproc, Bool.false_eq_true, if_false]

theorem vanished_iff (hne : path ≠ ['/']) :
    s.Vanished ext4 path ↔ s.lookup path = none ∧ ¬ Elsewhere ext4 path := by
  constructor
  · intro ⟨hread, hexist, hwrite⟩
    have hlookup : s.lookup path = none := by
      cases hl : s.lookup path with
      | none => rfl
      | some n =>
        simp only [openWritable, hl] at hwrite
        cases hwrite
    simp only [openReadonly, readFile_of_lookup hlookup] at hread
    refine ⟨hlookup, ?_⟩
    intro h
    rcases h with himage | hother
    · exact himage hread
    · split at hother
      · next hproc =>
        obtain ⟨info, hp⟩ := hother
        have := hexist info
        rw [existsAny, if_neg hne, if_pos hproc, hp] at this
        cases this
      · next hproc =>
        have := hexist ⟨0, 0⟩
        rw [existsAny, if_neg hne, if_neg hproc] at this
        split at hother
        · next hdev =>
          rw [if_pos hdev, hother] at this
          cases this
        · next hdev =>
          rw [if_neg hdev, hlookup, hread] at this
          exact hother (by simpa using this)
  · intro ⟨hlookup, helse⟩
    obtain ⟨himage, hother⟩ := not_or.mp helse
    have hread : ext4ReadFile ext4 path = none := not_not.mp himage
    refine ⟨?_, fun info => ?_, ?_⟩
    · simp only [openReadonly, readFile_of_lookup hlookup, hread]
    · rw [existsAny, if_neg hne]
      split
      · next hproc =>
        rw [if_pos hproc] at hother
        exact Bool.eq_false_iff.mpr fun hp => hother ⟨info, hp⟩
      · next hproc =>
        rw [if_neg hproc] at hother
        split
        · next hdev =>
          rw [if_pos hdev] at hother
          exact Bool.eq_false_iff.mpr hother
        · next hdev =>
          rw [if_neg hdev] at hother
          rw [hlookup, hread]
          simpa using hother
    · simp only [openWritable, hlookup, copyUp, hread]
      split <;> rfl

/-! ### What the two calls leave -/

theorem ne_root_of_split {parent : Path} (hsplit : splitParent path = some (parent, x)) : path ≠ ['/'] := by
  intro h
  obtain rfl := h
  cases hsplit

/-- A removal that succeeds takes out the entry. -/
theorem removed_of_zero {allowDir : Bool} (h : s.removeEntry path allowDir = (0, s')) :
    ∃ parent x p m, splitParent path = some (parent, x) ∧ s.lookup parent = some p ∧ Removed s p x m s' := by
  have hneg : ∀ {e : Int} {t : Vfs}, e < 0 → (e, t) ≠ (0, s') := fun he heq => by
    rw [(Prod.mk.inj heq).1] at he
    exact Int.lt_irrefl 0 he
  unfold removeEntry at h
  split at h
  · exact absurd h (hneg (by decide))
  next parent x hsplit =>
  split at h
  · exact absurd h (hneg (by decide))
  next p hp =>
  split at h
  · exact absurd h (hneg (by decide))
  next m hm =>
  simp only at h
  split at h
  · next e href =>
    refine absurd h (hneg ?_)
    split at href
    · split at href
      · exact Option.some.inj href ▸ by decide
      · split at href
        · exact Option.some.inj href ▸ by decide
        · cases href
    · cases href
  split at h
  · next s₁ hrem =>
    obtain ⟨-, rfl⟩ := Prod.mk.inj h
    exact ⟨parent, x, p, _, hsplit, hp, remove_spec hrem⟩
  · exact absurd h (hneg (by decide))

/-- The entry a path names, when it is gone, is not found under the path. -/
theorem Tree.lookup_removed {parent : Path} (ht : Tree s r) (hsplit : splitParent path = some (parent, x))
    (hp : s.lookup parent = some p) (hrem : Removed s p x m s') : s'.lookup path = none := by
  rw [lookup_eq_find, ht.find_eq] at hp
  rw [lookup_eq_find, (ht.removed hrem).find_eq, hrem.entry_eq, parts_splitParent hsplit]
  exact follow_cut hp

/-- What is renamed is found under its old path just in case it is put there again. -/
theorem Tree.lookup_moved (ht : Tree s r) {s₁ : Vfs} (hnames : Names s oldPath newPath p x q y)
    (hrem : Removed s p x m s₁) (hins : Inserted s₁ q y m s') :
    (s'.lookup oldPath).isSome = true ↔ Refills s (.tree (.rename oldPath newPath)) := by
  obtain ⟨⟨oldParent, ho, hp⟩, newParent, hn, hq⟩ := hnames
  rw [lookup_eq_find, ht.find_eq] at hp hq
  have hdir : s.isDir q = true := hrem.isDir q ▸ hins.dir
  rw [lookup_eq_find, (ht.moved hrem hins).find_eq, hins.entry_eq, hrem.entry_eq, parts_splitParent ho,
    follow_move ht.rooted hp hrem.had hq hdir]
  unfold Refills
  simp only [parts_splitParent ho, parts_splitParent hn, ht.find_eq, List.append_assoc, List.singleton_append]

/-- A call that deletes the path leaves it out of the tree, unless it is refilled. -/
theorem Deletes.lookup_iff (hd : Deletes c path) (ht : Tree s r) (hs : s.call ext4 c = some ([0], s')) :
    path ≠ ['/'] ∧ (s'.lookup path = none ↔ ¬ s.Refills c) := by
  cases hd with
  | @remove path allowDir =>
    obtain ⟨hret, rfl⟩ := Prod.mk.inj (Option.some.inj hs)
    obtain ⟨parent, x, p, m, hsplit, hp, hrem⟩ := removed_of_zero (Prod.ext (List.cons.inj hret).1 rfl)
    exact ⟨ne_root_of_split hsplit, iff_of_true (ht.lookup_removed hsplit hp hrem) id⟩
  | @rename oldPath newPath hne =>
    obtain ⟨hret, rfl⟩ := Prod.mk.inj (Option.some.inj hs)
    have hspec := rename_spec s path newPath
    rw [(List.cons.inj hret).1] at hspec
    generalize (s.rename path newPath).2 = s' at hspec
    cases hspec with
    | refused he => exact absurd he (Int.lt_irrefl 0)
    | moved hnames hrem hins =>
      obtain ⟨_, hsplit, -⟩ := hnames.old
      exact ⟨ne_root_of_split hsplit, by rw [← ht.lookup_moved hnames hrem hins, Option.not_isSome_iff_eq_none]⟩

/-- A deleted path is gone, until it is made again, just in case no other
layer has it and the call does not put its own node there. -/
theorem deleted_vanishes_iff (hr : Runs (Vfs.call ext4) free boot.init h s) (hd : Deletes c path)
    (hs : s.call ext4 c = some ([0], s')) :
    (∀ h' s'', Runs (Vfs.call ext4) (fun _ s c => Leaves ext4 path s c) s' h' s'' → s''.Vanished ext4 path) ↔
      ¬ Elsewhere ext4 path ∧ ¬ s.Refills c := by
  obtain ⟨hne, hlookup⟩ := hd.lookup_iff (sound_of_runs hr).tree hs
  constructor
  · intro hall
    obtain ⟨hgone, helse⟩ := (vanished_iff hne).mp (hall [] s' .start)
    exact ⟨helse, hlookup.mp hgone⟩
  · intro ⟨helse, hfill⟩ h' s'' hr'
    refine (vanished_iff hne).mpr ⟨?_, helse⟩
    exact hr'.invariant_state (fun s => s.lookup path = none) (hlookup.mpr hfill) fun hgone hleaves hstep =>
      hleaves _ _ hstep hgone

/-- A file that only the tree has. -/
theorem deleted_vanishes_made : ∃ h s s', Runs (Vfs.call (some oneFile)) free boot.init h s ∧
    s.call (some oneFile) (.tree (.removeEntry "/a".toList false)) = some ([0], s') ∧
    ∀ h' s'', Runs (Vfs.call (some oneFile)) (fun _ s c => Leaves (some oneFile) "/a".toList s c) s' h' s'' →
      s''.Vanished (some oneFile) "/a".toList := by
  obtain ⟨h, s, hr, hP⟩ := Runs.of_exec (Vfs.call (some oneFile)) free boot.init [.tree (.createFile "/a".toList)]
    (fun _ s => (s.removeEntry "/a".toList false).1 == 0) (by decide)
  have hs : s.call (some oneFile) (.tree (.removeEntry "/a".toList false)) =
      some ([0], (s.removeEntry "/a".toList false).2) :=
    congrArg (fun e => some ([e], (s.removeEntry "/a".toList false).2)) (beq_iff_eq.mp hP)
  have hnot : ¬ Elsewhere (some oneFile) "/a".toList := by
    intro h
    rcases h with himage | hother
    · exact himage (by decide)
    · rw [if_neg (by decide), if_neg (by decide)] at hother
      exact hother (by decide)
  exact ⟨h, s, _, hr, hs, (deleted_vanishes_iff hr .remove hs).mpr ⟨hnot, id⟩⟩

/-- A file of the image is opened for writing, so that the tree has a copy, and removed: it reads as in the image. -/
theorem removed_file_reads_again : ∃ h s s' data, Runs (Vfs.call (some oneFile)) free boot.init h s ∧
    s.call (some oneFile) (.tree (.removeEntry "/etc/os-release".toList false)) = some ([0], s') ∧
    s'.openReadonly (some oneFile) "/etc/os-release".toList = some data ∧
    (∀ info, s'.existsAny (some oneFile) info "/etc/os-release".toList = true) ∧
    (s'.openWritable (some oneFile) "/etc/os-release".toList false).1 ≠ none := by
  obtain ⟨h, s, hr, hP⟩ := Runs.of_exec (Vfs.call (some oneFile)) free boot.init
    [.openWritable "/etc/os-release".toList false]
    (fun _ s =>
      let r := s.removeEntry "/etc/os-release".toList false
      (s.lookup "/etc/os-release".toList).isSome && r.1 == 0 &&
        r.2.openReadonly (some oneFile) "/etc/os-release".toList == some (ascii "ID=mu\n") &&
        r.2.existsAny (some oneFile) ⟨0, 1⟩ "/etc/os-release".toList &&
        (r.2.openWritable (some oneFile) "/etc/os-release".toList false).1.isSome) (by decide)
  simp only [Bool.and_eq_true, beq_iff_eq] at hP
  obtain ⟨⟨⟨⟨-, hret⟩, hread⟩, hexist⟩, hwrite⟩ := hP
  exact ⟨h, s, _, _, hr, congrArg (fun e => some ([e], (s.removeEntry "/etc/os-release".toList false).2)) hret, hread,
    fun _ => (existsAny_congr (by decide)).trans hexist, Option.isSome_iff_ne_none.mp hwrite⟩

end Vfs
end ChodOs
