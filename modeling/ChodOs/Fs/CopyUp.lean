/-
Copying a file of the image up into the tree: the directories above it are
made where they are missing, and then the file. Nothing else is found
otherwise than before.
-/
import ChodOs.Fs.Overlay

namespace ChodOs

open Places StepSys

/-- The image reads absolute paths only, and by their names. -/
structure Ext4View.Spelled (fs : Ext4View) : Prop where
  absolute : ∀ path, fs.read path ≠ none → path.head? = some '/'
  same : ∀ p q, p.head? = some '/' → q.head? = some '/' → parts p = parts q → fs.read p = fs.read q

namespace Vfs

variable {s s' s'' s₁ : Vfs} {n p q m r : NodeRef} {x : Name} {path parent cur : Path} {names done k : List Name}
  {new : Nat → VfsNode} {node : VfsNode} {data : List UInt8} {ext4 : Option Ext4View}

/-- The nodes that were there are of the same kind, and files hold the same. -/
structure Old (s s' : Vfs) : Prop where
  next : s.nextRef ≤ s'.nextRef
  isDir : ∀ n < s.nextRef, s'.isDir n = s.isDir n
  file : ∀ n < s.nextRef, s'.file n = s.file n

theorem Old.refl : Old s s := ⟨Nat.le_refl _, fun _ _ => rfl, fun _ _ => rfl⟩

theorem Old.trans (h : Old s s') (h' : Old s' s'') : Old s s'' :=
  ⟨h.next.trans h'.next, fun n hn => (h'.isDir n (Nat.lt_of_lt_of_le hn h.next)).trans (h.isDir n hn),
    fun n hn => (h'.file n (Nat.lt_of_lt_of_le hn h.next)).trans (h.file n hn)⟩

/-! ### Making one node -/

/-- A node with nothing below it has been made where the names lead. -/
structure Made (s : Vfs) (names : List Name) (node : VfsNode) (s' : Vfs) (r : NodeRef) : Prop where
  tree : Tree s' r
  find : ∀ k, s'.find k = if k = names then some s.nextRef else s.find k
  new : s'.heap[s.nextRef]? = some node
  old : Old s s'

/-- The parent is a directory without such an entry. -/
theorem Tree.made_create (ht : Tree s r) (hsplit : splitParent path = some (parent, x)) (hp : s.lookup parent = some p)
    (hdir : s.isDir p = true) (hl : s.lookup path = none) (hnew : ∀ ino y, (new ino).entry y = none) :
    (s.create path new).1 = some s.nextRef ∧ Made s (parts path) (new s.inoSeq) (s.create path new).2 r := by
  obtain ⟨dir, info, hnode⟩ := isDir_iff.mp hdir
  have hentry : s.entry p x = none := (lookup_split hsplit hp).symm.trans hl
  have hfree : dir[x]? = none := (entry_of_dir hnode).symm.trans hentry
  have hpn : p ≠ s.nextRef := Nat.ne_of_lt (ht.dirs hdir)
  have hgrown := (grown_orInsertWith (x := x) ht hnode hnew).tree
  have heq := ht.entry_orInsertWith hnode hfree hnew
  simp only [create, hsplit, hp, hnode, orInsertWith, hfree] at hgrown heq ⊢
  refine ⟨rfl, hgrown, fun k => ?_, ?_, ⟨Nat.le_succ _, fun n hn => ?_, fun n hn => ?_⟩⟩
  · rw [hgrown.find_eq, ht.find_eq, heq, parts_splitParent hsplit]
    rw [lookup_eq_find, ht.find_eq] at hp
    exact follow_put_new ht.rooted hp hdir hentry (fun _ => ht.entry_new) hpn.symm
  · refine (getElem?_set (s := (s.alloc new).2)).trans ?_
    rw [if_neg hpn]
    exact (getElem?_set (s := s)).trans (if_pos rfl)
  · refine (isDir_set (s := (s.alloc new).2)).trans ?_
    split
    · next h => exact (h ▸ hdir).symm
    · exact (isDir_set (s := s)).trans (if_neg (Nat.ne_of_gt hn))
  · refine (file_set (s := (s.alloc new).2)).trans ?_
    split
    · next h => exact (h ▸ file_of_isDir hdir).symm
    · exact (file_set (s := s)).trans (if_neg (Nat.ne_of_gt hn))

/-- What leads nowhere is made, or nothing is. -/
theorem Tree.create_cases (ht : Tree s r) (hl : s.lookup path = none) (hnew : ∀ ino y, (new ino).entry y = none) :
    s.create path new = (none, s) ∨
      (s.create path new).1 = some s.nextRef ∧ Made s (parts path) (new s.inoSeq) (s.create path new).2 r := by
  cases hsplit : splitParent path with
  | none => exact .inl (by rw [create, hsplit])
  | some split =>
    obtain ⟨parent, x⟩ := split
    cases hp : s.lookup parent with
    | none => exact .inl (by simp only [create, hsplit, hp])
    | some p =>
      cases hdir : s.isDir p with
      | true => exact .inr (ht.made_create hsplit hp hdir hl hnew)
      | false =>
        refine .inl ?_
        simp only [create, hsplit, hp]
        split
        · next dir info hnode => cases (isDir_iff.mpr ⟨dir, info, hnode⟩).symm.trans hdir
        · rfl

theorem Tree.mkdir_cases (ht : Tree s r) (hl : s.lookup path = none) : s.mkdir path = (none, s) ∨
    (s.mkdir path).1 = some s.nextRef ∧ Made s (parts path) (.dir ∅ (.newDir s.inoSeq)) (s.mkdir path).2 r :=
  ht.create_cases hl fun _ _ => Std.ExtTreeMap.getElem?_empty

theorem Tree.made_mkdir (ht : Tree s r) (hsplit : splitParent path = some (parent, x)) (hp : s.lookup parent = some p)
    (hdir : s.isDir p = true) (hl : s.lookup path = none) :
    Made s (parts path) (.dir ∅ (.newDir s.inoSeq)) (s.mkdir path).2 r := by
  have hnew : ∀ ino y, (VfsNode.dir ∅ (.newDir ino)).entry y = none := fun _ _ => Std.ExtTreeMap.getElem?_empty
  exact (ht.made_create hsplit hp hdir hl hnew).2

theorem Tree.createFile_cases (ht : Tree s r) (hl : s.lookup path = none) : s.createFile path = (none, s) ∨
    (s.createFile path).1 = some s.nextRef ∧ Made s (parts path) (.file (.new s.inoSeq 0o644)) (s.createFile path).2 r :=
  ht.create_cases hl fun _ _ => rfl

/-! ### The directories above -/

/-- Directories may have been made where the names lead, and on the way there. -/
structure Ensured (s : Vfs) (names : List Name) (s' : Vfs) (r : NodeRef) : Prop where
  tree : Tree s' r
  old : Old s s'
  keeps : ∀ {k n}, s.find k = some n → s'.find k = some n
  find : ∀ k, ¬ k <+: names → s'.find k = s.find k

theorem Ensured.refl (ht : Tree s r) : Ensured s names s r := ⟨ht, .refl, id, fun _ _ => rfl⟩

theorem Ensured.trans (h : Ensured s names s' r) (h' : Ensured s' names s'' r) : Ensured s names s'' r :=
  ⟨h'.tree, h.old.trans h'.old, fun hf => h'.keeps (h.keeps hf), fun k hk => (h'.find k hk).trans (h.find k hk)⟩

theorem Made.ensured (h : Made s k node s' r) (hfree : s.find k = none) (hk : k <+: names) : Ensured s names s' r := by
  refine ⟨h.tree, h.old, fun {k' n} hf => ?_, fun k' hk' => ?_⟩
  · rw [h.find, if_neg, hf]
    intro h
    obtain rfl := h
    cases hfree.symm.trans hf
  · rw [h.find, if_neg]
    intro h
    obtain rfl := h
    exact hk' hk

theorem Tree.ensured_dirs (ht : Tree s r) (hnames : ∀ x ∈ names, '/' ∉ x ∧ x ≠ []) (hdone : parts cur ++ names <+: k) :
    Ensured s k (s.ensureDirs cur names) r := by
  induction names generalizing s cur with
  | nil => exact .refl ht
  | cons part names ih =>
    have hcur : parts (cur ++ '/' :: part) = parts cur ++ [part] :=
      parts_snoc (hnames part (List.mem_cons_self ..)).1 (hnames part (List.mem_cons_self ..)).2
    have hrest : parts (cur ++ '/' :: part) ++ names <+: k := by rwa [hcur, List.append_assoc]
    have hnext := fun {s : Vfs} (ht : Tree s r) => ih (s := s) ht (fun x hx => hnames x (List.mem_cons_of_mem _ hx)) hrest
    simp only [ensureDirs]
    split
    · next hnone =>
      have hl : s.lookup (cur ++ '/' :: part) = none := Option.isNone_iff_eq_none.mp hnone
      rcases ht.mkdir_cases hl with hsame | ⟨-, hmade⟩
      · rw [hsame]
        exact hnext ht
      · have hdir := hmade.ensured (lookup_eq_find ▸ hl) ((List.prefix_append ..).trans hrest)
        exact hdir.trans (hnext hdir.tree)
    · exact hnext ht

/-- The names lead to directories, each of them. -/
def Directories (s : Vfs) (names : List Name) : Prop := ∀ k, k <+: names → ∃ d, s.find k = some d ∧ s.isDir d = true

/-- None of the names leads to a file. -/
def NoFiles (s : Vfs) (names : List Name) : Prop := ∀ k d, k <+: names → s.find k = some d → s.isDir d = true

theorem Tree.directories_ensureDirs (ht : Tree s r) (hnames : ∀ x ∈ names, '/' ∉ x ∧ x ≠ [])
    (hdone : s.Directories (parts cur)) (habove : s.NoFiles (parts cur ++ names)) :
    (s.ensureDirs cur names).Directories (parts cur ++ names) := by
  induction names generalizing s cur with
  | nil => rwa [List.append_nil]
  | cons part names ih =>
    obtain ⟨hslash, hne⟩ := hnames part (List.mem_cons_self ..)
    have hcur : parts (cur ++ '/' :: part) = parts cur ++ [part] := parts_snoc hslash hne
    have happ : parts cur ++ part :: names = parts (cur ++ '/' :: part) ++ names := by
      rw [hcur, List.append_assoc, List.singleton_append]
    rw [happ] at habove ⊢
    have hrest : ∀ x ∈ names, '/' ∉ x ∧ x ≠ [] := fun x hx => hnames x (List.mem_cons_of_mem _ hx)
    simp only [ensureDirs]
    split
    · next hnone =>
      have hl : s.lookup (cur ++ '/' :: part) = none := Option.isNone_iff_eq_none.mp hnone
      obtain ⟨d, hd, hdir⟩ := hdone (parts cur) (List.prefix_refl _)
      have hparent : s.lookup (if cur = [] then ['/'] else cur) = some d := by
        rw [lookup_eq_find]
        split
        · next h => rwa [h] at hd
        · exact hd
      have hmade := ht.made_mkdir (splitParent_snoc hslash hne) hparent hdir hl
      have hnew : (s.mkdir (cur ++ '/' :: part)).2.isDir s.nextRef = true := isDir_iff.mpr ⟨_, _, hmade.new⟩
      rw [hcur] at hmade
      refine ih hmade.tree hrest (fun k hk => ?_) fun k d hk hf => ?_
      · rw [hcur] at hk
        rcases List.prefix_concat_iff.mp hk with rfl | hk
        · exact ⟨_, (hmade.find _).trans (if_pos rfl), hnew⟩
        · obtain ⟨e, he, hedir⟩ := hdone k hk
          have hne' : k ≠ parts cur ++ [part] := fun h => by
            have := hk.length_le
            rw [h, List.length_append, List.length_singleton] at this
            omega
          exact ⟨e, ((hmade.find k).trans (if_neg hne')).trans he, (hmade.old.isDir e (ht.find_lt he)).trans hedir⟩
      · rw [hmade.find] at hf
        split at hf
        · exact Option.some.inj hf ▸ hnew
        · exact (hmade.old.isDir d (ht.find_lt hf)).trans (habove k d hk hf)
    · next hsome =>
      refine ih ht hrest (fun k hk => ?_) habove
      rw [hcur] at hk
      rcases List.prefix_concat_iff.mp hk with rfl | hk
      · obtain ⟨d, hd⟩ := Option.ne_none_iff_exists'.mp (mt Option.isNone_iff_eq_none.mpr hsome)
        rw [lookup_eq_find, hcur] at hd
        exact ⟨d, hd, habove _ d (hcur ▸ List.prefix_append ..) hd⟩
      · exact hdone k hk

theorem Tree.ensured_parents (ht : Tree s r) (path : Path) :
    Ensured s (parts path).dropLast (s.ensureParentDirs path) r := by
  have hnames : ∀ x ∈ (parts path).dropLast, '/' ∉ x ∧ x ≠ [] := fun x hx => mem_parts (List.dropLast_subset _ hx)
  unfold ensureParentDirs
  simp only [parts_rdropWhile, ← List.dropLast_eq_take]
  split
  · exact .refl ht
  · exact ht.ensured_dirs hnames (List.prefix_refl _)

theorem Tree.directories_ensureParentDirs (ht : Tree s r) (habove : s.NoFiles (parts path).dropLast) :
    (s.ensureParentDirs path).Directories (parts path).dropLast := by
  have hnames : ∀ x ∈ (parts path).dropLast, '/' ∉ x ∧ x ≠ [] := fun x hx => mem_parts (List.dropLast_subset _ hx)
  have hroot : s.Directories [] := fun k hk => by
    rw [List.prefix_nil.mp hk]
    exact ⟨r, ht.find_nil, ht.top⟩
  unfold ensureParentDirs
  simp only [parts_rdropWhile, ← List.dropLast_eq_take]
  split
  · next hlen =>
    have hnil : (parts path).dropLast = [] := List.eq_nil_of_length_eq_zero (by rw [List.length_dropLast]; omega)
    rwa [hnil]
  · exact ht.directories_ensureDirs hnames hroot habove

/-- The path itself is not made. -/
theorem Tree.lookup_ensureParentDirs (ht : Tree s r) (hl : s.lookup path = none) :
    (s.ensureParentDirs path).lookup path = none := by
  have hnot : ¬ parts path <+: (parts path).dropLast := fun h => by
    have hlen := h.length_le
    rw [List.length_dropLast] at hlen
    have hnil : parts path = [] := List.eq_nil_of_length_eq_zero (by omega)
    rw [lookup_eq_find, hnil, ht.find_nil] at hl
    cases hl
  rw [lookup_eq_find, (ht.ensured_parents path).find _ hnot, ← lookup_eq_find, hl]

/-! ### The file -/

/-- The path is a file of its own, with these contents. -/
structure CopiedUp (s : Vfs) (names : List Name) (data : List UInt8) (n : NodeRef) (s' : Vfs) (r : NodeRef) : Prop where
  tree : Tree s' r
  find : s'.find names = some n
  file : ∃ f, s'.file n = some f ∧ f.data = data
  new : s.nextRef ≤ n
  old : Old s s'
  keeps : ∀ {k d}, s.find k = some d → s'.find k = some d
  other : ∀ k, ¬ k <+: names → s'.find k = s.find k

/-- A copy that is not refused is a file of its own. -/
theorem Tree.copyUp_cases (ht : Tree s r) {ext4ReadFile : Path → Option (List UInt8)} (hl : s.lookup path = none)
    (hread : ext4ReadFile path = some data) :
    ((s.ensureParentDirs path).createFile path).1 = none ∧
        s.copyUp ext4ReadFile path = (none, s.ensureParentDirs path) ∨
      ∃ n, (s.copyUp ext4ReadFile path).1 = some n ∧
        CopiedUp s (parts path) data n (s.copyUp ext4ReadFile path).2 r := by
  have hens := ht.ensured_parents path
  have hl₁ := ht.lookup_ensureParentDirs hl
  simp only [copyUp, hl, hread]
  rcases hens.tree.createFile_cases hl₁ with hsame | ⟨hsome, hmade⟩
  · refine .inl ⟨congrArg Prod.fst hsame, ?_⟩
    rw [hsame]
  · refine .inr ⟨(s.ensureParentDirs path).nextRef, ?_⟩
    generalize (s.ensureParentDirs path).createFile path = created at hsome hmade
    obtain ⟨n, s'⟩ := created
    obtain rfl := hsome
    have hfile : s'.heap[(s.ensureParentDirs path).nextRef]? = some (.file (.new (s.ensureParentDirs path).inoSeq 0o644)) :=
      hmade.new
    have hsame := sameTree_setData hfile data
    have habove : ∀ k, ¬ k <+: parts path → ¬ k <+: (parts path).dropLast := fun k hk h =>
      hk (h.trans (List.dropLast_prefix _))
    simp only [hfile]
    refine ⟨trivial, hsame.tree hmade.tree, ?_, ?_, hens.old.next, ?_, fun {k d} hf => ?_, fun k hk => ?_⟩
    · exact (hsame.find _).trans ((hmade.find _).trans (if_pos rfl))
    · exact ⟨_, file_set.trans (if_pos rfl), rfl⟩
    · have hold := hens.old.trans hmade.old
      refine ⟨hold.next, fun n hn => (hsame.isDir n).trans (hold.isDir n hn), fun n hn => ?_⟩
      exact (file_set.trans (if_neg (Nat.ne_of_gt (Nat.lt_of_lt_of_le hn hens.old.next)))).trans (hold.file n hn)
    · refine (hsame.find k).trans ((hmade.find k).trans ((if_neg ?_).trans (hens.keeps hf)))
      intro h
      obtain rfl := h
      rw [← lookup_eq_find, hl] at hf
      cases hf
    · refine (hsame.find k).trans ((hmade.find k).trans ((if_neg ?_).trans (hens.find k (habove k hk))))
      intro h
      obtain rfl := h
      exact hk (List.prefix_refl _)

/-! ### What is read then -/

theorem readFile_eq : s.readFile path = (s.find (parts path)).bind fun n => (s.file n).map (·.data) := by
  unfold readFile nodeAt file
  rw [lookup_eq_find]
  cases s.find (parts path) with
  | none => rfl
  | some n =>
    simp only [Option.bind_eq_bind, Option.bind_some]
    cases s.heap[n]? with
    | none => rfl
    | some node => cases node <;> rfl

/-- What leads further is a directory. -/
theorem Tree.isDir_of_find (ht : Tree s r) {rest : List Name} (hf : s.find (k ++ x :: rest) = some n) :
    ∃ d, s.find k = some d ∧ s.isDir d = true := by
  rw [ht.find_eq] at hf
  obtain ⟨d, hd, hf⟩ := follow_append.mp hf
  obtain ⟨_, hx, -⟩ := follow_cons.mp hf
  exact ⟨d, (ht.find_eq).trans hd, isDir_of_entry hx⟩

theorem CopiedUp.readFile (h : CopiedUp s names data n s' r) (ht : Tree s r) (habove : s.NoFiles names.dropLast)
    (q : Path) : s'.readFile q = if parts q = names then some data else s.readFile q := by
  rw [readFile_eq, readFile_eq]
  split
  · next hq =>
    obtain ⟨f, hf, hdata⟩ := h.file
    rw [hq, h.find, Option.bind_some, hf, Option.map_some, hdata]
  · next hq =>
    by_cases hprefix : parts q <+: names
    · -- a directory on the way, before and after
      obtain ⟨rest, hrest⟩ := hprefix
      cases rest with
      | nil => exact absurd ((List.append_nil _).symm.trans hrest) hq
      | cons x rest =>
        have hfind := h.find
        rw [← hrest] at hfind
        obtain ⟨d, hd, hdir⟩ := h.tree.isDir_of_find hfind
        rw [hd, Option.bind_some, file_of_isDir hdir]
        cases hs : s.find (parts q) with
        | none => rfl
        | some e =>
          have hshort : parts q <+: names.dropLast := by
            rw [← hrest, List.dropLast_append_of_ne_nil (List.cons_ne_nil x rest)]
            exact List.prefix_append ..
          rw [Option.bind_some, file_of_isDir (habove _ e hshort hs)]
    · rw [h.other _ hprefix]
      cases hs : s.find (parts q) with
      | none => rfl
      | some e => rw [Option.bind_some, Option.bind_some, h.old.file e (ht.find_lt hs)]

/-- A path of the image whose way in the tree goes past no file is copied up: the copy holds what
the image has, is found, and nothing reads otherwise than before, but for the
path's own names spelled without the leading slash. -/
theorem copyUp_transparent (ht : Tree s r) (himage : ∀ fs, ext4 = some fs → fs.Spelled) (hl : s.lookup path = none)
    (hread : ext4ReadFile ext4 path = some data) (habove : s.NoFiles (parts path).dropLast) :
    ∃ n s' f, s.copyUp (ext4ReadFile ext4) path = (some n, s') ∧ s'.file n = some f ∧ f.data = data ∧
      s'.lookup path = some n ∧ ∀ q, s'.openReadonly ext4 q =
        if parts q = parts path ∧ q.head? ≠ some '/' then some data else s.openReadonly ext4 q := by
  obtain ⟨fs, hfs, hfread⟩ := Option.bind_eq_some_iff.mp hread
  have hspelled := himage fs hfs
  have habs : path.head? = some '/' := hspelled.absolute path (hfread ▸ Option.some_ne_none data)
  have hne : parts path ≠ [] := fun h => by
    rw [lookup_eq_find, h, ht.find_nil] at hl
    cases hl
  rcases ht.copyUp_cases hl hread with ⟨hnone, -⟩ | ⟨n, hsome, hcopied⟩
  · -- the directory of the file is there by then
    obtain ⟨parent, x, hsplit⟩ := exists_splitParent habs hne
    have hens := ht.ensured_parents path
    have hparent : (parts path).dropLast = parts parent := by
      rw [parts_splitParent hsplit, List.dropLast_concat]
    obtain ⟨d, hd, hdir⟩ := ht.directories_ensureParentDirs habove _ (List.prefix_refl _)
    have hd' : (s.ensureParentDirs path).lookup parent = some d := by rwa [lookup_eq_find, ← hparent]
    have hmade := (hens.tree.made_create hsplit hd' hdir (ht.lookup_ensureParentDirs hl)
      (fun ino y => show (VfsNode.file (.new ino 0o644)).entry y = none from rfl)).1
    cases hnone.symm.trans hmade
  · obtain ⟨f, hf, hdata⟩ := hcopied.file
    refine ⟨n, _, f, Prod.ext hsome rfl, hf, hdata, lookup_eq_find.trans hcopied.find, fun q => ?_⟩
    rw [openReadonly, hcopied.readFile ht habove q]
    by_cases hq : parts q = parts path
    · rw [if_pos hq]
      by_cases hrel : q.head? = some '/'
      · rw [if_neg fun h => h.2 hrel]
        have hql : s.lookup q = none := by rw [lookup_eq_find, hq, ← lookup_eq_find, hl]
        have hqread : ext4ReadFile ext4 q = some data := by
          rw [hfs]
          exact (hspelled.same q path hrel habs hq).trans hfread
        simp only [openReadonly, readFile, nodeAt, hql, hqread]
        rfl
      · rw [if_pos ⟨hq, hrel⟩]
    · rw [if_neg hq, if_neg fun h => hq h.1]
      rfl

theorem oneFile_spelled : oneFile.Spelled where
  absolute path hread := by
    by_cases h : path.head? = some '/' ∧ parts path = ["etc".toList, "os-release".toList]
    · exact h.1
    · exact absurd (if_neg h) hread
  same p q hp hq heq := by simp only [oneFile, hp, hq, heq]

theorem noFiles_etc : boot.init.NoFiles ["etc".toList] := by
  have hdirs : ∀ k ∈ [[], ["etc".toList]], (boot.init.find k).all boot.init.isDir = true := by decide
  intro k d hk hf
  have hmem : k ∈ [[], ["etc".toList]] := by
    rcases List.prefix_cons_iff.mp hk with rfl | ⟨t, rfl, ht⟩
    · exact List.mem_cons_self ..
    · rw [List.prefix_nil.mp ht]
      exact List.mem_cons_of_mem _ (List.mem_cons_self ..)
  have hall := hdirs k hmem
  rwa [hf] at hall

/-- `/etc/os-release` of the image is copied into `/etc`. -/
theorem copyUp_transparent_etc : ∃ n s' f, boot.init.copyUp (ext4ReadFile (some oneFile)) "/etc/os-release".toList =
      (some n, s') ∧ s'.file n = some f ∧ f.data = ascii "ID=mu\n" ∧ s'.lookup "/etc/os-release".toList = some n ∧
    ∀ q, s'.openReadonly (some oneFile) q =
      if parts q = ["etc".toList, "os-release".toList] ∧ q.head? ≠ some '/' then some (ascii "ID=mu\n")
      else boot.init.openReadonly (some oneFile) q :=
  copyUp_transparent tree_init (fun _ h => Option.some.inj h ▸ oneFile_spelled) (by decide) (by decide) noFiles_etc

/-- `etc/os-release` is not there before, and is the copy then. -/
theorem copyUp_shows_relative : boot.init.lookup "/etc/os-release".toList = none ∧
    ext4ReadFile (some oneFile) "/etc/os-release".toList = some (ascii "ID=mu\n") ∧ boot.init.NoFiles ["etc".toList] ∧
    boot.init.openReadonly (some oneFile) "etc/os-release".toList = none ∧
    (boot.init.copyUp (ext4ReadFile (some oneFile)) "/etc/os-release".toList).2.openReadonly (some oneFile)
      "etc/os-release".toList = some (ascii "ID=mu\n") :=
  ⟨by decide, by decide, noFiles_etc, by decide, by decide⟩

end Vfs
end ChodOs
