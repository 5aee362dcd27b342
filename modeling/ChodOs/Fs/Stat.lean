/-
`exists_any`, `is_dir` and `stat_any` of one path. All three ask the devices
first or second, the tree and the image last; of the process files only
`exists_any` takes a no for an answer, and `is_dir` does not ask them.
-/
import ChodOs.Fs.Overlay

namespace ChodOs

open Places StepSys

/-- `S_ISDIR`. -/
def NodeStat.isDir (st : NodeStat) : Bool := st.mode &&& 0o170000 == 0o040000

/-- Permission bits say nothing of the type. -/
theorem and_type_eq_zero {mode : Nat} (hmode : mode < 0o10000) : mode &&& 0o170000 = 0 := by
  refine Nat.eq_of_testBit_eq fun i => ?_
  rw [Nat.testBit_and, Nat.zero_testBit, show 0o170000 = 0o17 <<< 12 by decide, Nat.testBit_shiftLeft]
  rcases Nat.lt_or_ge i 12 with hi | hi
  · rw [decide_eq_false (Nat.not_le_of_lt hi), Bool.false_and, Bool.and_false]
  · rw [Nat.testBit_lt_two_pow (Nat.lt_of_lt_of_le hmode (Nat.pow_le_pow_right Nat.zero_lt_two hi)), Bool.false_and]

theorem isDir_stat {node : VfsNode} (hmode : node.info.mode < 0o10000) : node.stat.isDir = node.isDir := by
  have hzero := and_type_eq_zero hmode
  cases node with
  | file f =>
    show ((f.info.mode ||| 0o100000) &&& 0o170000 == 0o040000) = false
    rw [Nat.and_or_distrib_right, show f.info.mode &&& 0o170000 = 0 from hzero]
    decide
  | dir dir info =>
    show ((info.mode ||| 0o040000) &&& 0o170000 == 0o040000) = true
    rw [Nat.and_or_distrib_right, show info.mode &&& 0o170000 = 0 from hzero]
    decide

/-- What can be read as a file has no entries to read. -/
def Ext4View.FilesApart (fs : Ext4View) : Prop := ∀ path, fs.read path ≠ none → fs.readDir path = none

theorem ext4ListDir_of_read {ext4 : Option Ext4View} {path : Path} (himage : ∀ fs, ext4 = some fs → fs.FilesApart)
    (hread : ext4ReadFile ext4 path ≠ none) : ext4ListDir ext4 path = [] := by
  cases ext4 with
  | none => rfl
  | some fs =>
    show fs.listDir path = []
    rw [Ext4View.listDir, himage fs rfl path hread]

theorem isProc_of_isDev {path : Path} (hdev : isDev path = true) : isProc path = false := by
  have hd : path[1]? = some 'd' := by
    rcases (Bool.or_eq_true _ _).mp hdev with h | h
    · exact beq_iff_eq.mp h ▸ rfl
    · obtain ⟨rest, rfl⟩ := List.isPrefixOf_iff_prefix.mp h
      rfl
  refine Bool.eq_false_iff.mpr fun hproc => ?_
  have hp : path[1]? = some 'p' := by
    rcases (Bool.or_eq_true _ _).mp hproc with h | h
    · exact beq_iff_eq.mp h ▸ rfl
    · obtain ⟨rest, rfl⟩ := List.isPrefixOf_iff_prefix.mp h
      rfl
  cases hd.symm.trans hp

/-- `dev::stat` knows the paths that `dev::exists` does. -/
theorem devStat_ne_none {path : Path} : devStat path ≠ none ↔ devExists path = true := by
  unfold devStat devExists isDevDir
  split
  · next hdir =>
    rw [hdir, Bool.true_or]
    exact iff_of_true (Option.some_ne_none _) rfl
  · next hdir =>
    rw [Bool.eq_false_iff.mpr hdir, Bool.false_or, Option.isSome_iff_ne_none, Ne, Option.map_eq_none_iff]

namespace Vfs

variable {s : Vfs} {n r : NodeRef} {path : Path} {ext4 : Option Ext4View} {info : ProcInfo}

/-- The two checks say what the report says. -/
structure Agrees (s : Vfs) (ext4 : Option Ext4View) (info : ProcInfo) (path : Path) : Prop where
  exist : s.existsAny ext4 info path = true ↔ s.statAny ext4 info path ≠ none
  dir : s.isDirPath ext4 path = true ↔ ∃ st, s.statAny ext4 info path = some st ∧ st.isDir = true

/-- The tree or the image has the path. -/
def InTree (s : Vfs) (ext4 : Option Ext4View) (path : Path) : Prop :=
  s.lookup path ≠ none ∨ ext4ReadFile ext4 path ≠ none ∨ ext4ListDir ext4 path ≠ []

/-- The tree has a directory there, or it has nothing and the image has one. -/
def DirInTree (s : Vfs) (ext4 : Option Ext4View) (path : Path) : Prop :=
  match s.lookup path with
  | some n => s.isDir n = true
  | none => ext4ListDir ext4 path ≠ []

/-- Below `/proc` the layers under the process files have the same directories, and nothing of their own. -/
def ProcShown (s : Vfs) (ext4 : Option Ext4View) (info : ProcInfo) (path : Path) : Prop :=
  isProc path = true →
    if procExists info path then isProcDir path = true ↔ s.DirInTree ext4 path else ¬ s.InTree ext4 path

theorem statAny_below (hroot : path ≠ ['/']) (hdev : ChodOs.isDev path = false)
    (hno : (isProc path && procExists info path) = false) :
    s.statAny ext4 info path = match s.statPath path with
      | some st => some st
      | none =>
        match ext4ReadFile ext4 path with
        | some data => some ⟨0, 0o100644, 0, 0, 1, data.length⟩
        | none => if (ext4ListDir ext4 path).isEmpty then none else some ⟨0, 0o040755, 0, 0, 2, 0⟩ :=
  (if_neg hroot).trans ((if_neg (Bool.eq_false_iff.mp hdev)).trans (if_neg (Bool.eq_false_iff.mp hno)))

/-- What the tree reports of a path. -/
theorem Sound.statPath (h : Sound s r) : (s.lookup path = none ∧ s.statPath path = none) ∨
    ∃ n st, s.lookup path = some n ∧ s.statPath path = some st ∧ st.isDir = s.isDir n := by
  cases hl : s.lookup path with
  | none => exact .inl ⟨rfl, by rw [Vfs.statPath, hl]; rfl⟩
  | some n =>
    obtain ⟨node, hn⟩ := Option.isSome_iff_exists.mp (h.stored.all n (h.tree.lookup_lt hl))
    refine .inr ⟨n, node.stat, rfl, ?_, ?_⟩
    · rw [Vfs.statPath, hl, Option.bind_eq_bind, Option.bind_some, statNode, hn, Option.map_some]
    · rw [isDir_stat (h.stored.mode hn), isDir, hn]
      cases node <;> rfl

/-- What is under the process files is reported as it is. -/
theorem Sound.agrees_below (h : Sound s r) (himage : ∀ fs, ext4 = some fs → fs.FilesApart) (hroot : path ≠ ['/'])
    (hdev : ChodOs.isDev path = false) (hno : (isProc path && procExists info path) = false) :
    (s.statAny ext4 info path ≠ none ↔ s.InTree ext4 path) ∧
      ((∃ st, s.statAny ext4 info path = some st ∧ st.isDir = true) ↔ s.DirInTree ext4 path) := by
  rw [statAny_below hroot hdev hno, InTree, DirInTree]
  rcases h.statPath with ⟨hl, hst⟩ | ⟨n, st, hl, hst, hdir⟩
  · rw [hl, hst]
    cases hread : ext4ReadFile ext4 path with
    | some data =>
      have hlist := ext4ListDir_of_read himage (hread ▸ Option.some_ne_none data)
      have hfile : NodeStat.isDir ⟨0, 0o100644, 0, 0, 1, data.length⟩ = false :=
        show (0o100644 &&& 0o170000 == 0o040000) = false by decide
      rw [hlist]
      refine ⟨by simp, ⟨?_, fun h => absurd rfl h⟩⟩
      intro ⟨st, hst, hdir⟩
      obtain rfl := Option.some.inj hst
      cases hfile.symm.trans hdir
    | none =>
      cases hlist : ext4ListDir ext4 path with
      | nil => simp
      | cons e es =>
        have hlisted : NodeStat.isDir ⟨0, 0o040755, 0, 0, 2, 0⟩ = true := by decide
        exact ⟨by simp, ⟨fun _ => by simp, fun _ => ⟨_, rfl, hlisted⟩⟩⟩
  · rw [hl, hst]
    simp [hdir]

/-- On a device path the two checks are right. -/
theorem agrees_dev (hroot : path ≠ ['/']) (hdev : ChodOs.isDev path = true) : s.Agrees ext4 info path := by
  have hproc := isProc_of_isDev hdev
  have hstat : s.statAny ext4 info path = (devStat path).map fun st => ⟨0, st.1, 0, 0, 1, st.2⟩ :=
    (if_neg hroot).trans (if_pos hdev)
  constructor
  · rw [existsAny, if_neg hroot, hproc, if_neg Bool.false_ne_true, if_pos hdev, hstat, Ne, Option.map_eq_none_iff]
    exact devStat_ne_none.symm
  · rw [isDirPath, if_neg hroot, if_pos hdev, hstat, devStat]
    split
    · next hdir => exact iff_of_true hdir ⟨_, rfl, show (0o040755 &&& 0o170000 == 0o040000) = true by decide⟩
    · next hdir =>
      refine iff_of_false hdir ?_
      intro ⟨st, hst, hmode⟩
      rw [Option.map_map] at hst
      obtain ⟨kind, -, rfl⟩ := Option.map_eq_some_iff.mp hst
      exact absurd hmode (show ¬ (0o020666 &&& 0o170000 == 0o040000) = true by decide)

theorem isDirPath_iff (hroot : path ≠ ['/']) (hdev : ChodOs.isDev path = false) :
    s.isDirPath ext4 path = true ↔ s.DirInTree ext4 path := by
  rw [isDirPath, if_neg hroot, if_neg (Bool.eq_false_iff.mp hdev), DirInTree]
  cases s.lookup path with
  | some n => exact Iff.rfl
  | none => simp

theorem existsAny_iff (hroot : path ≠ ['/']) (hdev : ChodOs.isDev path = false) (hproc : isProc path = false) :
    s.existsAny ext4 info path = true ↔ s.InTree ext4 path := by
  rw [existsAny, if_neg hroot, if_neg (Bool.eq_false_iff.mp hproc), if_neg (Bool.eq_false_iff.mp hdev), InTree]
  cases s.lookup path <;> cases ext4ReadFile ext4 path <;> simp

theorem procStat_isDir : (procStat info path).isDir = isProcDir path := by
  unfold procStat
  cases isProcDir path with
  | true => exact show (0o040555 &&& 0o170000 == 0o040000) = true by decide
  | false => exact show (0o100444 &&& 0o170000 == 0o040000) = false by decide

/-- In every state reached the two checks agree with the report, just in case a
path below `/proc` is shown as the layers under the process files have it. -/
theorem agrees_iff {ext4' : Option Ext4View} {h : List Int} (hr : Runs (Vfs.call ext4') free boot.init h s)
    (himage : ∀ fs, ext4 = some fs → fs.FilesApart) : s.Agrees ext4 info path ↔ s.ProcShown ext4 info path := by
  by_cases hroot : path = ['/']
  · subst hroot
    refine iff_of_true ⟨iff_of_true rfl (fun h => by cases h), iff_of_true rfl ⟨_, rfl, ?_⟩⟩ fun h => by cases h
    show (0o040755 &&& 0o170000 == 0o040000) = true
    decide
  cases hdev : ChodOs.isDev path with
  | true =>
    refine iff_of_true (agrees_dev hroot hdev) fun hproc => ?_
    cases (isProc_of_isDev hdev).symm.trans hproc
  | false =>
    have hbelow := @Sound.agrees_below s 0 path ext4 info (sound_of_runs hr) himage hroot hdev
    have hdir : s.isDirPath ext4 path = true ↔ s.DirInTree ext4 path := isDirPath_iff hroot hdev
    cases hproc : isProc path with
    | false =>
      -- the process files are not asked
      obtain ⟨hstat, hstatDir⟩ := hbelow (by rw [hproc, Bool.false_and])
      refine iff_of_true ⟨(existsAny_iff hroot hdev hproc).trans hstat.symm, hdir.trans hstatDir.symm⟩ fun h => ?_
      cases hproc.symm.trans h
    | true =>
      have hexist : s.existsAny ext4 info path = procExists info path := by
        rw [existsAny, if_neg hroot, if_pos hproc]
      cases hp : procExists info path with
      | false =>
        obtain ⟨hstat, hstatDir⟩ := hbelow (by rw [hp, Bool.and_false])
        have hshown : s.ProcShown ext4 info path ↔ ¬ s.InTree ext4 path := by
          rw [ProcShown, if_neg (Bool.eq_false_iff.mp hp)]
          exact ⟨fun h => h hproc, fun h _ => h⟩
        rw [hshown]
        constructor
        · intro h hin
          obtain ⟨hagree, -⟩ := h
          cases (hexist.trans hp).symm.trans (hagree.mpr (hstat.mpr hin))
        · intro hno
          exact ⟨iff_of_false (Bool.eq_false_iff.mp (hexist.trans hp)) (hstat.not.mpr hno), hdir.trans hstatDir.symm⟩
      | true =>
        have hstat : s.statAny ext4 info path = some (procStat info path) := by
          rw [statAny, if_neg hroot, if_neg (Bool.eq_false_iff.mp hdev), hproc, hp]
          rfl
        have hshown : s.ProcShown ext4 info path ↔ (isProcDir path = true ↔ s.DirInTree ext4 path) := by
          rw [ProcShown, if_pos hp]
          exact ⟨fun h => h hproc, fun h _ => h⟩
        have hreport : (∃ st, s.statAny ext4 info path = some st ∧ st.isDir = true) ↔ isProcDir path = true := by
          rw [hstat]
          exact ⟨fun ⟨st, h, hd⟩ => procStat_isDir.symm.trans (Option.some.inj h ▸ hd),
            fun h => ⟨_, rfl, procStat_isDir.trans h⟩⟩
        rw [hshown]
        constructor
        · intro h
          obtain ⟨-, hagree⟩ := h
          exact (hreport.symm.trans hagree.symm).trans hdir
        · intro h
          refine ⟨iff_of_true (hexist.trans hp) (hstat ▸ Option.some_ne_none _), hdir.trans (h.symm.trans hreport.symm)⟩

theorem oneFile_filesApart : oneFile.FilesApart := by
  intro path hread
  by_cases hpath : path.head? = some '/' ∧ parts path = ["etc".toList, "os-release".toList]
  · simp only [oneFile, hpath.2]
    rw [if_neg fun h => (by cases h.2), if_neg fun h => (by cases h.2)]
  · exact absurd (if_neg hpath) hread

/-- The file of the image is there for all three. -/
theorem agrees_oneFile : boot.init.Agrees (some oneFile) ⟨1, 1⟩ "/etc/os-release".toList :=
  (agrees_iff (.start : Runs (Vfs.call none) free boot.init [] boot.init)
    fun _ hfs => Option.some.inj hfs ▸ oneFile_filesApart).mpr fun hproc => absurd hproc (by decide)

/-- `/proc/self` is no directory for `is_dir`; a file made as `/proc/foo` has a report, and does not exist. -/
theorem checks_differ_in_proc : ∃ h s, Runs (Vfs.call none) free boot.init h s ∧
    s.existsAny none ⟨1, 1⟩ "/proc/foo".toList = false ∧ s.statAny none ⟨1, 1⟩ "/proc/foo".toList ≠ none ∧
    s.isDirPath none "/proc/self".toList = false ∧
    ∃ st, s.statAny none ⟨1, 1⟩ "/proc/self".toList = some st ∧ st.isDir = true := by
  obtain ⟨h, s, hr, hP⟩ := Runs.of_exec (Vfs.call none) free boot.init [.tree (.createFile "/proc/foo".toList)]
    (fun _ s => s.existsAny none ⟨1, 1⟩ "/proc/foo".toList == false &&
      (s.statAny none ⟨1, 1⟩ "/proc/foo".toList).isSome && s.isDirPath none "/proc/self".toList == false &&
      (s.statAny none ⟨1, 1⟩ "/proc/self".toList).any NodeStat.isDir) (by decide)
  simp only [Bool.and_eq_true, beq_iff_eq] at hP
  obtain ⟨⟨⟨hexist, hstat⟩, hdir⟩, hself⟩ := hP
  exact ⟨h, s, hr, hexist, Option.isSome_iff_ne_none.mp hstat, hdir, (Option.any_eq_true _ _).mp hself⟩

end Vfs
end ChodOs
