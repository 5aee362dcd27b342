/-
What each call makes of the contents of files. It writes to one file, or to
none; the others keep theirs, and a file that is made is empty.
-/
import ChodOs.Fs.Overlay

namespace ChodOs

open FileBytes

/-- A file's contents. -/
def VfsNode.contents : VfsNode → Option (List UInt8)
  | .file f => some f.data
  | .dir _ _ => none

namespace Vfs

def contents (s : Vfs) (n : NodeRef) : Option (List UInt8) := s.heap[n]?.bind VfsNode.contents

/-! ### The change that a call makes -/

def changed (s : Vfs) (n : NodeRef) (c : Change) : List (NodeRef × Change) :=
  if (s.contents n).isSome then [(n, c)] else []

/-- The file at a path is changed, by what it holds. -/
def changedAt (s : Vfs) (path : Path) (c : List UInt8 → Change) : List (NodeRef × Change) :=
  match s.nodeAt path with
  | some (n, .file f) => [(n, c f.data)]
  | _ => []

/-- A copy is written to the file that is made for it. -/
def copied (s : Vfs) (ext4ReadFile : Path → Option (List UInt8)) (path : Path) : List (NodeRef × Change) :=
  match s.lookup path with
  | some _ => []
  | none =>
    match ext4ReadFile path with
    | none => []
    | some data =>
      match (s.ensureParentDirs path).createFile path with
      | (none, _) => []
      | (some n, s) => s.changed n (.replace data)

/-- The writes and truncates that a call completes, each with its file. -/
def changes (ext4 : Option Ext4View) (s : Vfs) : VfsCall → List (NodeRef × Change)
  | .tree (.copyUp ext4ReadFile path) => s.copied ext4ReadFile path
  | .openWritable path _ => if ext4Exists ext4 path then s.copied (ext4ReadFile ext4) path else []
  | .writeFile path data => s.changedAt path fun _ => .replace data
  | .appendFile path data => s.changedAt path fun old => .write old.length data
  | .truncateVfs path size => s.changedAt path fun _ => .truncate size
  | .change n c => s.changed n c
  | _ => []

variable {s s' s'' : Vfs} {n m p q r : NodeRef} {node node' : VfsNode} {x y : Name} {path : Path} {c : Change}
  {f : FileNode} {ext4 : Option Ext4View} {new : Nat → VfsNode}

theorem contents_set : (s.set n node).contents p = if n = p then node.contents else s.contents p := by
  rw [contents, getElem?_set]
  split
  · rfl
  · rfl

theorem contents_of (hn : s.heap[n]? = some node) : s.contents n = node.contents := by
  rw [contents, hn, Option.bind_some]

/-! ### Calls that write to no file -/

/-- No node is there that has not been allocated. -/
def Bounded (s : Vfs) : Prop := ∀ n, s.nextRef ≤ n → s.heap[n]? = none

theorem Bounded.lt (h : Bounded s) (hn : s.heap[n]? = some node) : n < s.nextRef := by
  refine Nat.lt_of_not_le fun hle => ?_
  cases hn.symm.trans (h n hle)

/-- Files hold what they held, and new ones hold nothing. -/
structure Quiet (s s' : Vfs) : Prop where
  bounded : Bounded s'
  next : s.nextRef ≤ s'.nextRef
  old : ∀ n < s.nextRef, s'.contents n = s.contents n
  new : ∀ n data, s.nextRef ≤ n → s'.contents n = some data → data = []

theorem Quiet.refl (hb : Bounded s) : Quiet s s :=
  ⟨hb, Nat.le_refl _, fun _ _ => rfl, fun n data hn hdata => by
    rw [contents, hb n hn] at hdata
    cases hdata⟩

theorem Quiet.trans (h : Quiet s s') (h' : Quiet s' s'') : Quiet s s'' := by
  refine ⟨h'.bounded, h.next.trans h'.next, fun n hn => ?_, fun n data hn hdata => ?_⟩
  · exact (h'.old n (Nat.lt_of_lt_of_le hn h.next)).trans (h.old n hn)
  · by_cases hlt : n < s'.nextRef
    · exact h.new n data hn ((h'.old n hlt).symm.trans hdata)
    · exact h'.new n data (Nat.le_of_not_lt hlt) hdata

/-- A node is replaced by one with the same contents. -/
theorem Bounded.quiet_set (hb : Bounded s) (hn : s.heap[n]? = some node) (hsame : node'.contents = node.contents) :
    Quiet s (s.set n node') := by
  have hlt := hb.lt hn
  have hcontents : ∀ p, (s.set n node').contents p = s.contents p := fun p => by
    rw [contents_set]
    split
    · next h => rw [hsame, ← h, contents_of hn]
    · rfl
  refine ⟨fun p hp => ?_, Nat.le_refl _, fun p _ => hcontents p, fun p data hp hdata => ?_⟩
  · rw [getElem?_set, if_neg (Nat.ne_of_lt (Nat.lt_of_lt_of_le hlt hp)), hb p hp]
  · rw [hcontents, contents, hb p hp] at hdata
    cases hdata

theorem Bounded.quiet_alloc (hb : Bounded s) (hnew : ∀ ino data, (new ino).contents = some data → data = []) :
    Quiet s (s.alloc new).2 := by
  refine ⟨fun p hp => ?_, Nat.le_succ _, fun p hp => ?_, fun p data hp hdata => ?_⟩
  · refine (getElem?_set (s := s)).trans ?_
    rw [if_neg (Nat.ne_of_lt hp)]
    exact hb p (Nat.le_of_succ_le hp)
  · exact (contents_set (s := s)).trans (if_neg (Nat.ne_of_gt hp))
  · have hset : (s.set s.nextRef (new s.inoSeq)).contents p = some data := hdata
    rw [contents_set] at hset
    split at hset
    · exact hnew _ data hset
    · rw [contents, hb p hp] at hset
      cases hset

theorem Bounded.quiet_remove (hb : Bounded s) (hr : s.remove p x = some (m, s')) : Quiet s s' := by
  unfold Vfs.remove at hr
  split at hr
  · next dir info hp =>
    split at hr
    · obtain ⟨-, rfl⟩ := Prod.mk.inj (Option.some.inj hr)
      exact hb.quiet_set hp rfl
    · cases hr
  · cases hr

theorem Bounded.quiet_insert (hb : Bounded s) (hi : s.insert q y m = some s') : Quiet s s' := by
  unfold Vfs.insert at hi
  split at hi
  · next dir info hq =>
    obtain rfl := Option.some.inj hi
    exact hb.quiet_set hq rfl
  · cases hi

theorem Bounded.quiet_create (hb : Bounded s) (path : Path)
    (hnew : ∀ ino data, (new ino).contents = some data → data = []) : Quiet s (s.create path new).2 := by
  unfold Vfs.create
  split
  · exact .refl hb
  split
  · exact .refl hb
  split
  · next dir info hp =>
    simp only [orInsertWith]
    split
    · exact .refl hb
    · have halloc := hb.quiet_alloc hnew
      have hne := Nat.ne_of_gt (hb.lt hp)
      exact halloc.trans (halloc.bounded.quiet_set ((getElem?_set (s := s)).trans ((if_neg hne).trans hp)) rfl)
  · exact .refl hb

theorem Bounded.quiet_createFile (hb : Bounded s) (path : Path) : Quiet s (s.createFile path).2 :=
  hb.quiet_create path fun _ _ h => (Option.some.inj h).symm

theorem Bounded.quiet_mkdir (hb : Bounded s) (path : Path) : Quiet s (s.mkdir path).2 :=
  hb.quiet_create path fun _ _ h => by cases h

theorem Bounded.quiet_ensureDirs {names : List Name} {cur : Path} (hb : Bounded s) :
    Quiet s (s.ensureDirs cur names) := by
  induction names generalizing s cur with
  | nil => exact .refl hb
  | cons part names ih =>
    simp only [Vfs.ensureDirs]
    split
    · have hmkdir := hb.quiet_mkdir (cur ++ '/' :: part)
      exact hmkdir.trans (ih hmkdir.bounded)
    · exact ih hb

theorem Bounded.quiet_ensureParentDirs (hb : Bounded s) (path : Path) : Quiet s (s.ensureParentDirs path) := by
  unfold Vfs.ensureParentDirs
  simp only
  split
  · exact .refl hb
  · exact hb.quiet_ensureDirs

theorem Bounded.quiet_removeEntry (hb : Bounded s) (path : Path) (allowDir : Bool) :
    Quiet s (s.removeEntry path allowDir).2 := by
  unfold Vfs.removeEntry
  split
  · exact .refl hb
  split
  · exact .refl hb
  split
  · exact .refl hb
  simp only
  split
  · exact .refl hb
  split
  · next hr => exact hb.quiet_remove hr
  · exact .refl hb

theorem Bounded.quiet_rename (hb : Bounded s) (oldPath newPath : Path) : Quiet s (s.rename oldPath newPath).2 :=
  rename_induct (.refl hb) (fun hr => hb.quiet_remove hr) fun hr hi =>
    (hb.quiet_remove hr).trans ((hb.quiet_remove hr).bounded.quiet_insert hi)

theorem Bounded.quiet_linkVfs {oldPath newPath : Path} {e : Int} (hb : Bounded s)
    (hl : s.linkVfs oldPath newPath = some (e, s')) : Quiet s s' := by
  have hsame : ∀ {e'}, some (e', s) = some (e, s') → Quiet s s' := fun heq =>
    (Prod.mk.inj (Option.some.inj heq)).2 ▸ .refl hb
  unfold Vfs.linkVfs at hl
  split at hl
  · exact hsame hl
  split at hl
  · exact hsame hl
  split at hl
  · exact hsame hl
  split at hl
  · exact hsame hl
  split at hl
  · exact hsame hl
  next s₁ hi =>
  have hquiet := hb.quiet_insert hi
  split at hl
  · next f hf =>
    obtain ⟨nlink, -, hl⟩ := Option.bind_eq_some_iff.mp hl
    obtain ⟨-, rfl⟩ := Prod.mk.inj (Option.some.inj hl)
    exact hquiet.trans (hquiet.bounded.quiet_set hf rfl)
  · obtain ⟨-, rfl⟩ := Prod.mk.inj (Option.some.inj hl)
    exact hquiet

theorem Bounded.quiet_setInfo (hb : Bounded s) (path : Path) (change : VfsMeta → VfsMeta) :
    Quiet s (s.setInfo path change).2 := by
  unfold Vfs.setInfo
  split
  · exact .refl hb
  · next n f hnode => exact hb.quiet_set (nodeAt_eq_some.mp hnode).2 rfl
  · next n dir info hnode => exact hb.quiet_set (nodeAt_eq_some.mp hnode).2 rfl

/-! ### Every call -/

/-- A call writes to no file, or to one that is there by then. -/
inductive Follows (s : Vfs) : List (NodeRef × Change) → Vfs → Prop
  | quiet {s' : Vfs} : Quiet s s' → Follows s [] s'
  | changed {s₁ : Vfs} {n : NodeRef} {f : FileNode} {c : Change} : Quiet s s₁ → s₁.heap[n]? = some (.file f) →
      Follows s [(n, c)] (s₁.setData n f (c.apply f.data))

theorem Quiet.follows_changed (h : Quiet s s') (n : NodeRef) (c : Change) :
    Follows s (s'.changed n c) (s'.changeNode n c) := by
  unfold changeNode
  split
  · next f hn =>
    rw [Vfs.changed, contents_of hn, VfsNode.contents, Option.isSome_some, if_pos rfl]
    exact .changed h hn
  · next hno =>
    rw [Vfs.changed, if_neg]
    · exact .quiet h
    · intro hsome
      obtain ⟨data, hdata⟩ := Option.isSome_iff_exists.mp hsome
      obtain ⟨node, hn, hnode⟩ := Option.bind_eq_some_iff.mp hdata
      cases node with
      | file f => exact hno f hn
      | dir dir info => cases hnode

theorem follows_copyUp (hb : Bounded s) (ext4ReadFile : Path → Option (List UInt8)) (path : Path) :
    Follows s (s.copied ext4ReadFile path) (s.copyUp ext4ReadFile path).2 := by
  have hens := hb.quiet_ensureParentDirs path
  have hfile := hens.trans (hens.bounded.quiet_createFile path)
  cases hl : s.lookup path with
  | some n =>
    simp only [copied, copyUp, hl]
    exact .quiet (.refl hb)
  | none =>
    cases hread : ext4ReadFile path with
    | none =>
      simp only [copied, copyUp, hl, hread]
      exact .quiet (.refl hb)
    | some data =>
      simp only [copied, copyUp, hl, hread]
      generalize (s.ensureParentDirs path).createFile path = created at hfile
      obtain ⟨_ | n, s₁⟩ := created
      · exact .quiet hfile
      · have h := hfile.follows_changed n (.replace data)
        unfold changeNode at h
        simp only
        split
        · next f hn =>
          rw [hn] at h
          exact h
        · next hno =>
          split at h
          · next f hn => exact absurd hn (hno f)
          · exact h

/-- A call that changes the file at a path, if there is one. -/
theorem follows_at {g : List UInt8 → Change} (hb : Bounded s)
    (hfile : ∀ n f, s.nodeAt path = some (n, .file f) → s' = s.setData n f ((g f.data).apply f.data))
    (hother : (∀ n f, s.nodeAt path ≠ some (n, .file f)) → s' = s) : Follows s (s.changedAt path g) s' := by
  unfold changedAt
  split
  · next n f hnode =>
    rw [hfile n f hnode]
    exact .changed (.refl hb) (nodeAt_eq_some.mp hnode).2
  · next hno =>
    rw [hother hno]
    exact .quiet (.refl hb)

theorem follows_writeFile (hb : Bounded s) (path : Path) (data : List UInt8) :
    Follows s (s.changedAt path fun _ => .replace data) (s.writeFile path data).2 := by
  refine follows_at hb (fun n f hnode => ?_) fun hno => ?_
  · simp only [writeFile, hnode]
    rfl
  · unfold writeFile
    split
    · next n f hnode => exact absurd hnode (hno n f)
    · rfl

theorem follows_appendFile (hb : Bounded s) (path : Path) (data : List UInt8) :
    Follows s (s.changedAt path fun old => .write old.length data) (s.appendFile path data).2 := by
  refine follows_at hb (fun n f hnode => ?_) fun hno => ?_
  · simp only [appendFile, hnode]
    rw [Change.apply, writeAt_length]
  · unfold appendFile
    split
    · next n f hnode => exact absurd hnode (hno n f)
    · rfl

theorem truncateNode_snd (s : Vfs) (n : NodeRef) (size : Nat) :
    (s.truncateNode n size).2 = s.changeNode n (.truncate size) := by
  unfold truncateNode changeNode
  cases s.heap[n]? with
  | none => rfl
  | some node => cases node <;> rfl

theorem truncateNode_cases (s : Vfs) (n : NodeRef) (size : Nat) :
    (s.truncateNode n size).1 = 0 ∨ s.truncateNode n size = (-21, s) := by
  unfold truncateNode
  split
  · exact .inl rfl
  · exact .inr rfl

theorem follows_truncateVfs (hb : Bounded s) (path : Path) (size : Nat) :
    Follows s (s.changedAt path fun _ => .truncate size) (s.truncateVfs path size).2 := by
  refine follows_at hb (fun n f hnode => ?_) fun hno => ?_
  · obtain ⟨hl, hn⟩ := nodeAt_eq_some.mp hnode
    simp only [truncateVfs, hl, truncateNode, hn]
    rfl
  · unfold truncateVfs truncateNode
    split
    · rfl
    · next n hl =>
      split
      · next f hn => exact absurd (nodeAt_eq_some.mpr ⟨hl, hn⟩) (hno n f)
      · rfl

theorem follows_openWritable (hb : Bounded s) (path : Path) (oCreat : Bool) :
    Follows s (s.changes ext4 (.openWritable path oCreat)) (s.openWritable ext4 path oCreat).2 := by
  have hcopy := follows_copyUp hb (ext4ReadFile ext4) path
  have hens := hb.quiet_ensureParentDirs path
  show Follows s (if ext4Exists ext4 path then s.copied (ext4ReadFile ext4) path else []) _
  cases hl : s.lookup path with
  | some n =>
    have hnone : s.copied (ext4ReadFile ext4) path = [] := by simp only [copied, hl]
    simp only [Vfs.openWritable, hl, hnone, ite_self]
    exact .quiet (.refl hb)
  | none =>
    simp only [Vfs.openWritable, hl]
    split
    · exact hcopy
    · split
      · exact .quiet (hens.trans (hens.bounded.quiet_createFile path))
      · exact .quiet (.refl hb)

/-- A call writes to the files of its changes, and to no other. -/
theorem follows_call {c : VfsCall} {ret : List Int} (hb : Bounded s) (hs : s.call ext4 c = some (ret, s')) :
    Follows s (s.changes ext4 c) s' := by
  cases c with
  | tree op =>
    cases op with
    | createFile path =>
      obtain ⟨-, rfl⟩ := Prod.mk.inj (Option.some.inj hs)
      exact .quiet (hb.quiet_createFile path)
    | mkdir path =>
      obtain ⟨-, rfl⟩ := Prod.mk.inj (Option.some.inj hs)
      exact .quiet (hb.quiet_mkdir path)
    | removeEntry path allowDir =>
      obtain ⟨-, rfl⟩ := Prod.mk.inj (Option.some.inj hs)
      exact .quiet (hb.quiet_removeEntry path allowDir)
    | rename oldPath newPath =>
      obtain ⟨-, rfl⟩ := Prod.mk.inj (Option.some.inj hs)
      exact .quiet (hb.quiet_rename oldPath newPath)
    | linkVfs oldPath newPath =>
      obtain ⟨⟨e, s₁⟩, hl, heq⟩ := Option.map_eq_some_iff.mp hs
      obtain ⟨-, rfl⟩ := Prod.mk.inj heq
      exact .quiet (hb.quiet_linkVfs hl)
    | copyUp ext4ReadFile path =>
      obtain ⟨-, rfl⟩ := Prod.mk.inj (Option.some.inj hs)
      exact follows_copyUp hb ext4ReadFile path
  | openWritable path oCreat =>
    obtain ⟨-, rfl⟩ := Prod.mk.inj (Option.some.inj hs)
    exact follows_openWritable hb path oCreat
  | writeFile path data =>
    obtain ⟨-, rfl⟩ := Prod.mk.inj (Option.some.inj hs)
    exact follows_writeFile hb path data
  | appendFile path data =>
    obtain ⟨-, rfl⟩ := Prod.mk.inj (Option.some.inj hs)
    exact follows_appendFile hb path data
  | truncateVfs path size =>
    obtain ⟨-, rfl⟩ := Prod.mk.inj (Option.some.inj hs)
    exact follows_truncateVfs hb path size
  | chmodVfs path mode =>
    obtain ⟨-, rfl⟩ := Prod.mk.inj (Option.some.inj hs)
    exact .quiet (hb.quiet_setInfo path _)
  | chownVfs path uid gid =>
    obtain ⟨-, rfl⟩ := Prod.mk.inj (Option.some.inj hs)
    exact .quiet (hb.quiet_setInfo path _)
  | change n c =>
    obtain ⟨-, rfl⟩ := Prod.mk.inj (Option.some.inj hs)
    exact (Quiet.refl hb).follows_changed n c

/-! ### What the changes leave -/

/-- The changes made to one file, the oldest first. -/
def changesTo (n : NodeRef) (h : List (NodeRef × Change)) : List Change :=
  h.filterMap fun e => if e.1 = n then some e.2 else none

/-- Files hold what the changes recorded for them have left. -/
structure Recorded (h : List (NodeRef × Change)) (s : Vfs) : Prop where
  bounded : Bounded s
  holds : ∀ n data, s.contents n = some data → data = (changesTo n h).foldl Change.apply []
  targets : ∀ e ∈ h, e.1 < s.nextRef

variable {h cs : List (NodeRef × Change)}

theorem changesTo_append : changesTo n (h ++ cs) = changesTo n h ++ changesTo n cs := List.filterMap_append

theorem Recorded.quiet (hr : Recorded h s) (hq : Quiet s s') : Recorded h s' := by
  refine ⟨hq.bounded, fun n data hdata => ?_, fun e he => Nat.lt_of_lt_of_le (hr.targets e he) hq.next⟩
  by_cases hlt : n < s.nextRef
  · exact hr.holds n data ((hq.old n hlt).symm.trans hdata)
  · -- nothing was recorded for a node that was not there
    have hnone : changesTo n h = [] := by
      refine List.filterMap_eq_nil_iff.mpr fun e he => if_neg fun heq => hlt ?_
      rw [← heq]
      exact hr.targets e he
    rw [hnone, hq.new n data (Nat.le_of_not_lt hlt) hdata]
    rfl

theorem Recorded.setData (hr : Recorded h s) (hn : s.heap[n]? = some (.file f)) (c : Change) :
    Recorded (h ++ [(n, c)]) (s.setData n f (c.apply f.data)) := by
  have hlt := hr.bounded.lt hn
  refine ⟨fun p hp => ?_, fun p data hdata => ?_, fun e he => ?_⟩
  · refine getElem?_set.trans ((if_neg ?_).trans (hr.bounded p hp))
    exact Nat.ne_of_lt (Nat.lt_of_lt_of_le hlt hp)
  · have hset := contents_set.symm.trans hdata
    rw [changesTo_append, List.foldl_append]
    split at hset
    · next heq =>
      rw [← heq, ← hr.holds n f.data (contents_of hn), ← Option.some.inj hset]
      simp [changesTo]
    · next hne =>
      rw [← hr.holds p data hset]
      simp [changesTo, hne]
  · rcases List.mem_append.mp he with he | he
    · exact hr.targets e he
    · rw [List.mem_singleton.mp he]
      exact hlt

theorem Recorded.follows (hr : Recorded h s) (hf : Follows s cs s') : Recorded (h ++ cs) s' := by
  cases hf with
  | quiet hq =>
    rw [List.append_nil]
    exact hr.quiet hq
  | changed hq hn => exact (hr.quiet hq).setData hn _

theorem recorded_init : Recorded [] boot.init := by
  have hboot : Bounded boot := fun _ _ => Std.ExtTreeMap.getElem?_empty
  have hroot : Quiet boot (boot.alloc fun ino => .dir ∅ (.newDir ino)).2 := hboot.quiet_alloc fun _ _ h => by cases h
  have hdirs : ∀ (dirs : List Path) (s : Vfs), Bounded s → Quiet s (dirs.foldl (fun s d => (s.mkdir d).2) s) := by
    intro dirs
    induction dirs with
    | nil => exact fun s hb => .refl hb
    | cons d dirs ih => exact fun s hb => (hb.quiet_mkdir d).trans (ih _ (hb.quiet_mkdir d).bounded)
  have hempty : Recorded [] boot := by
    refine ⟨hboot, fun n data hdata => ?_, fun e he => by cases he⟩
    rw [contents, hboot n (Nat.zero_le n)] at hdata
    cases hdata
  have hmount : Quiet boot boot.mountRoot := ⟨hroot.bounded, hroot.next, hroot.old, hroot.new⟩
  exact hempty.quiet (hmount.trans (hdirs standardDirs _ hmount.bounded))

end Vfs
end ChodOs
