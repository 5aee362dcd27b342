/-
Directory entries in a caller's buffer: `sys_getdents64` (`syscall/fs.rs`)
writes them as records of their own length, and `ls` of the shell
(`mushell/src/main.rs`) reads them back. The kernel keeps no place in the
directory from one call to the next.
-/
import ChodOs.Fs.State

namespace ChodOs

/-- `str::as_bytes`. -/
def nameBytes (name : Name) : List UInt8 := name.flatMap String.utf8EncodeChar

/-- An entry as it is listed: the bytes of its name, and whether it is a directory. -/
abbrev Dirent := List UInt8 × Bool

def dtReg : UInt8 := 8
def dtDir : UInt8 := 4

/-- `size_of::<Dirent64Hdr>()`. -/
def direntHdr : Nat := 19

/-- `rec_len`: header, name and NUL, in full words. -/
def recLen (name : List UInt8) : Nat := (direntHdr + name.length + 1 + 7) / 8 * 8

/-- The bytes of one record: the header, the name, and zeros to its end. -/
def direntRecord (pos ino : Nat) (entry : Dirent) : List UInt8 :=
  let (name, isDir) := entry
  ByteMem.leBytes 8 ino ++ (ByteMem.leBytes 8 (pos + recLen name) ++ (ByteMem.leBytes 2 (recLen name) ++
    ([if isDir then dtDir else dtReg] ++ (name ++ List.replicate (recLen name - (direntHdr + name.length)) 0))))

/-- The loop of `sys_getdents64` over the entries: where it ends, and the memory then. -/
def fillDirents (buf max : Nat) : (mem : ByteMem) → (pos ino : Nat) → List Dirent → Nat × ByteMem
  | mem, pos, _, [] => (pos, mem)
  | mem, pos, ino, entry :: rest =>
    if pos + recLen entry.1 > max then (pos, mem)
    else fillDirents buf max (mem.write (buf + pos) (direntRecord pos ino entry)) (pos + recLen entry.1) (ino + 1) rest

namespace FsState

/-- The entries that `sys_getdents64` collects. -/
def entries (s : FsState) (path : Path) : List (Name × Bool) :=
  if isDev path then devList path
  else if isProc path then procList path
  else (ext4ListDir s.ext4 path).foldl (fun v e => if v.any (·.1 == e.name) then v else v ++ [(e.name, e.isDir)])
    ((s.vfs.listDir path).map fun e => (e.name, e.isDir))

def listed (s : FsState) (path : Path) : List Dirent := (s.entries path).map fun (name, isDir) => (nameBytes name, isDir)

def sysGetdents64 (s : FsState) (fd bufVaddr count : Nat) : Int × FsState :=
  if fd = 0 ∨ fd = 1 ∨ fd = 2 then (-9, s)
  else if bufVaddr = 0 then (efault, s)
  else if count < 32 then (einval, s)
  else
    match s.dirPath fd <|> s.lastOpen with
    | none => (0, s)
    | some path =>
      let (pos, mem) := fillDirents bufVaddr count s.mem 0 2 (s.listed path)
      (pos, { s with mem })

end FsState

/-! ### The shell -/

/-- The loop of `cmd_ls` over the `total` bytes it has got: the entries it prints, and where it stops. -/
def lsLoop (mem : ByteMem) (buf total pos : Nat) : List Dirent × Nat :=
  if pos + direntHdr ≤ total then
    let dReclen := mem.le (buf + (pos + 16)) 2
    if dReclen = 0 then ([], pos)
    else
      let dType := mem (buf + (pos + 18))
      let nameStart := pos + direntHdr
      let nameLimit := min (pos + dReclen) total
      let name := (mem.read (buf + nameStart) (nameLimit - nameStart)).takeWhile (· != 0)
      let (rest, stop) := lsLoop mem buf total (pos + dReclen)
      (if name.isEmpty then rest else (name, dType == dtDir) :: rest, stop)
  else ([], pos)
termination_by total - pos
decreasing_by unfold direntHdr at *; omega

/-- The buffer of `cmd_ls`. -/
def lsBuf : Nat := 4096

/-- `cmd_ls` of an open directory. -/
def FsState.cmdLs (s : FsState) (fd buf : Nat) : List Dirent × Nat :=
  let (n, s) := s.sysGetdents64 fd buf lsBuf
  if n ≤ 0 then ([], 0) else lsLoop s.mem buf n.toNat 0

/-! ### What is written -/

variable {buf max pos ino total n : Nat} {mem mem' : ByteMem} {entry : Dirent} {entries : List Dirent}

theorem recLen_bounds (name : List UInt8) : direntHdr + name.length < recLen name := by
  unfold recLen
  omega

theorem length_direntRecord : (direntRecord pos ino entry).length = recLen entry.1 := by
  have := recLen_bounds entry.1
  simp only [direntRecord, List.length_append, ByteMem.length_leBytes, List.length_singleton, List.length_replicate]
  unfold direntHdr at *
  omega

/-- The bytes that the records take. -/
def direntsLen (entries : List Dirent) : Nat := (entries.map fun e => recLen e.1).sum

/-- The records are in memory, one after the other. -/
def Records (mem : ByteMem) (buf : Nat) : (pos ino : Nat) → List Dirent → Prop
  | _, _, [] => True
  | pos, ino, entry :: rest =>
    mem.Holds (buf + pos) (direntRecord pos ino entry) ∧ Records mem buf (pos + recLen entry.1) (ino + 1) rest

theorem fillDirents_fst (hfit : pos + direntsLen entries ≤ max) :
    (fillDirents buf max mem pos ino entries).1 = pos + direntsLen entries := by
  induction entries generalizing mem pos ino with
  | nil => rfl
  | cons entry rest ih =>
    simp only [direntsLen, List.map_cons, List.sum_cons] at hfit ⊢
    rw [fillDirents, if_neg (by omega), ih (by simp only [direntsLen]; omega), direntsLen, Nat.add_assoc]

theorem fillDirents_before {x : Nat} (hx : x < buf + pos) : (fillDirents buf max mem pos ino entries).2 x = mem x := by
  induction entries generalizing mem pos ino with
  | nil => rfl
  | cons entry rest ih =>
    rw [fillDirents]
    split
    · rfl
    · rw [ih (by omega), ByteMem.write_outside (.inl hx)]

theorem recLen_le_direntsLen (he : entry ∈ entries) : recLen entry.1 ≤ direntsLen entries := by
  induction entries with
  | nil => cases he
  | cons e rest ih =>
    simp only [direntsLen, List.map_cons, List.sum_cons]
    rcases List.mem_cons.mp he with rfl | he
    · exact Nat.le_add_right ..
    · exact (ih he).trans (Nat.le_add_left ..)

theorem direntsLen_eq_zero : direntsLen entries = 0 ↔ entries = [] := by
  cases entries with
  | nil => exact iff_of_true rfl rfl
  | cons entry rest =>
    have := recLen_bounds entry.1
    have : recLen entry.1 ≤ direntsLen (entry :: rest) := recLen_le_direntsLen (List.mem_cons_self ..)
    refine iff_of_false (by omega) (List.cons_ne_nil _ _)

theorem FsState.sysGetdents64_dir (s : FsState) {fd count : Nat} {path : Path} (hfd : 2 < fd) (hbuf : buf ≠ 0)
    (hcount : 32 ≤ count) (hdir : s.dirPath fd = some path) : s.sysGetdents64 fd buf count =
      (((fillDirents buf count s.mem 0 2 (s.listed path)).1 : Int),
        { s with mem := (fillDirents buf count s.mem 0 2 (s.listed path)).2 }) := by
  rw [sysGetdents64, if_neg (by omega), if_neg hbuf, if_neg (by omega), hdir]
  rfl

/-- Later records leave the earlier ones as they are. -/
theorem records_fillDirents (hfit : pos + direntsLen entries ≤ max) :
    Records (fillDirents buf max mem pos ino entries).2 buf pos ino entries := by
  induction entries generalizing mem pos ino with
  | nil => trivial
  | cons entry rest ih =>
    simp only [direntsLen, List.map_cons, List.sum_cons] at hfit
    rw [fillDirents, if_neg (by omega)]
    refine ⟨ByteMem.holds_write.congr fun x _ hx => fillDirents_before ?_, ih (by simp only [direntsLen]; omega)⟩
    rw [length_direntRecord] at hx
    omega

/-! ### What is read -/

/-- The name ends at the first of the zeros after it. -/
theorem takeWhile_name {name : List UInt8} {k : Nat} (hnul : 0 ∉ name) (hk : 0 < k) :
    (name ++ List.replicate k 0).takeWhile (· != 0) = name := by
  obtain ⟨k, rfl⟩ := Nat.exists_eq_succ_of_ne_zero (Nat.ne_of_gt hk)
  have hall : ∀ b ∈ name, (b != 0) = true := fun b hb => bne_iff_ne.mpr fun h => hnul (h ▸ hb)
  rw [List.takeWhile_append_of_pos hall, List.replicate_succ, List.takeWhile_cons_of_neg (by decide), List.append_nil]

/-- One record is read as it was written. -/
theorem lsLoop_record (h : mem.Holds (buf + pos) (direntRecord pos ino entry)) (hne : entry.1 ≠ []) (hnul : 0 ∉ entry.1)
    (hlen : recLen entry.1 < 2 ^ 16) (hfit : pos + recLen entry.1 ≤ total) :
    lsLoop mem buf total pos =
      (entry :: (lsLoop mem buf total (pos + recLen entry.1)).1, (lsLoop mem buf total (pos + recLen entry.1)).2) := by
  obtain ⟨name, isDir⟩ := entry
  have hbounds := recLen_bounds name
  simp only at hfit hlen hne hnul
  simp only [direntRecord, ByteMem.holds_append, ByteMem.length_leBytes, List.length_singleton,
    ByteMem.holds_singleton, Nat.add_assoc] at h
  obtain ⟨-, -, hreclen, htype, hname, hzeros⟩ := h
  have hle : mem.le (buf + (pos + 16)) 2 = recLen name := hreclen.le.trans (Nat.mod_eq_of_lt hlen)
  have hslice : (mem.read (buf + (pos + direntHdr)) (min (pos + recLen name) total - (pos + direntHdr))).takeWhile
      (· != 0) = name := by
    have hlimit : min (pos + recLen name) total - (pos + direntHdr) =
        name.length + (recLen name - (direntHdr + name.length)) := by omega
    have hstart : mem.read (buf + (pos + direntHdr)) name.length = name := hname
    have hend : mem.read (buf + (pos + direntHdr) + name.length) (recLen name - (direntHdr + name.length)) =
        List.replicate (recLen name - (direntHdr + name.length)) 0 := by
      rw [ByteMem.Holds, List.length_replicate] at hzeros
      refine Eq.trans (congrArg (mem.read · _) ?_) hzeros
      unfold direntHdr
      omega
    rw [hlimit, ByteMem.read_add, hstart, hend, takeWhile_name hnul (by omega)]
  rw [lsLoop, if_pos (by omega)]
  simp only [hle, hslice]
  rw [if_neg (by omega), if_neg (by simpa using hne), show mem (buf + (pos + 18)) = _ from htype]
  cases isDir <;> rfl

/-- The shell reads the records that are there, and stops at their end. -/
theorem lsLoop_records (h : Records mem buf pos ino entries) (hne : ∀ e ∈ entries, e.1 ≠ [] ∧ 0 ∉ e.1)
    (hlen : ∀ e ∈ entries, recLen e.1 < 2 ^ 16) (htotal : total = pos + direntsLen entries) :
    lsLoop mem buf total pos = (entries, total) := by
  induction entries generalizing pos ino with
  | nil =>
    rw [lsLoop, if_neg (by simp [htotal, direntsLen, direntHdr])]
    rw [htotal]
    rfl
  | cons entry rest ih =>
    obtain ⟨hrec, hrest⟩ := h
    simp only [direntsLen, List.map_cons, List.sum_cons] at htotal
    have hnext := ih hrest (fun e he => hne e (List.mem_cons_of_mem _ he)) (fun e he => hlen e (List.mem_cons_of_mem _ he))
      (by rw [htotal, direntsLen, Nat.add_assoc])
    rw [lsLoop_record hrec (hne entry (List.mem_cons_self ..)).1 (hne entry (List.mem_cons_self ..)).2
      (hlen entry (List.mem_cons_self ..)) (by omega), hnext]

/-- Whatever the size of the buffer, as long as the records fit and their lengths fit a `u16`. -/
theorem lsLoop_fillDirents (hne : ∀ e ∈ entries, e.1 ≠ [] ∧ 0 ∉ e.1) (hlen : ∀ e ∈ entries, recLen e.1 < 2 ^ 16)
    (hfit : direntsLen entries ≤ max) :
    lsLoop (fillDirents buf max mem 0 2 entries).2 buf (fillDirents buf max mem 0 2 entries).1 0 =
      (entries, (fillDirents buf max mem 0 2 entries).1) := by
  have hle : 0 + direntsLen entries ≤ max := by rwa [Nat.zero_add]
  rw [fillDirents_fst hle]
  exact lsLoop_records (records_fillDirents hle) hne hlen rfl

/-! ### Names in UTF-8 -/

theorem nameBytes_ne_nil {name : Name} (hne : name ≠ []) : nameBytes name ≠ [] := by
  cases name with
  | nil => exact absurd rfl hne
  | cons c name => exact fun h => String.utf8EncodeChar_ne_nil (List.append_eq_nil_iff.mp h).1

/-- Only NUL has a zero byte. -/
theorem zero_mem_utf8EncodeChar {c : Char} (h : 0 ∈ String.utf8EncodeChar c) : c = '\x00' := by
  have hbyte : ∀ {k : Nat}, 0 < k → k < 256 → (0 : UInt8) ≠ UInt8.ofNat k := fun hpos hlt h0 => by
    have := congrArg UInt8.toNat h0
    rw [UInt8.toNat_ofNat', Nat.mod_eq_of_lt hlt] at this
    exact absurd this (Nat.ne_of_lt hpos)
  unfold String.utf8EncodeChar at h
  simp only at h
  split at h
  · next hsmall =>
    by_cases hc : c.val.toNat = 0
    · exact Char.ext (UInt32.toNat_inj.mp hc)
    · exact absurd (List.mem_singleton.mp h) (hbyte (by omega) (by omega))
  split at h
  · simp only [List.mem_cons, List.not_mem_nil, or_false] at h
    rcases h with h | h
    · exact absurd h (hbyte (by omega) (by omega))
    · exact absurd h (hbyte (by omega) (by omega))
  split at h
  · simp only [List.mem_cons, List.not_mem_nil, or_false] at h
    rcases h with h | h | h
    all_goals exact absurd h (hbyte (by omega) (by omega))
  · simp only [List.mem_cons, List.not_mem_nil, or_false] at h
    rcases h with h | h | h | h
    all_goals exact absurd h (hbyte (by omega) (by omega))

theorem zero_not_mem_nameBytes {name : Name} (hnul : '\x00' ∉ name) : 0 ∉ nameBytes name := by
  intro h
  obtain ⟨c, hc, h0⟩ := List.mem_flatMap.mp h
  exact hnul (zero_mem_utf8EncodeChar h0 ▸ hc)

/-- The shell lists what the kernel wrote: any entries that fit its buffer, and those of any open directory. -/
theorem shell_reads_entries {entries : List (Name × Bool)} {es : List Dirent}
    (hes : es = entries.map fun (name, isDir) => (nameBytes name, isDir))
    (hnames : ∀ e ∈ entries, e.1 ≠ [] ∧ '\x00' ∉ e.1) (hfit : direntsLen es ≤ lsBuf) :
    (∀ buf mem, lsLoop (fillDirents buf lsBuf mem 0 2 es).2 buf (fillDirents buf lsBuf mem 0 2 es).1 0 =
      (es, (fillDirents buf lsBuf mem 0 2 es).1)) ∧
    ∀ (s : FsState) (fd buf : Nat) (path : Path), 2 < fd → buf ≠ 0 → s.dirPath fd = some path →
      s.entries path = entries → ∃ n : Nat, (s.sysGetdents64 fd buf lsBuf).1 = n ∧ s.cmdLs fd buf = (es, n) := by
  have hne : ∀ e ∈ es, e.1 ≠ [] ∧ 0 ∉ e.1 := by
    rw [hes]
    intro e he
    obtain ⟨entry, hentry, rfl⟩ := List.mem_map.mp he
    exact ⟨nameBytes_ne_nil (hnames entry hentry).1, zero_not_mem_nameBytes (hnames entry hentry).2⟩
  have hlen : ∀ e ∈ es, recLen e.1 < 2 ^ 16 := fun e he =>
    Nat.lt_of_le_of_lt ((recLen_le_direntsLen he).trans hfit) (show lsBuf < 2 ^ 16 by decide)
  refine ⟨fun buf mem => lsLoop_fillDirents hne hlen hfit, fun s fd buf path hfd hbuf hdir hentries => ?_⟩
  have hlisted : s.listed path = es := by rw [FsState.listed, hentries, hes]
  have hcall := s.sysGetdents64_dir hfd hbuf (show 32 ≤ lsBuf by decide) hdir
  rw [hlisted] at hcall
  have hloop : lsLoop (fillDirents buf lsBuf s.mem 0 2 es).2 buf _ 0 = _ := lsLoop_fillDirents hne hlen hfit
  have hfst : (fillDirents buf lsBuf s.mem 0 2 es).1 = direntsLen es :=
    (fillDirents_fst (by rwa [Nat.zero_add])).trans (Nat.zero_add _)
  rw [FsState.cmdLs, hcall]
  refine ⟨_, rfl, ?_⟩
  simp only [Int.toNat_natCast, hloop]
  split
  · next hzero =>
    -- no bytes, so no records
    have hlen0 : direntsLen es = 0 := by omega
    rw [hfst, direntsLen_eq_zero.mp hlen0]
    rfl
  · rfl

/-- After boot, with the directory `path` open as 3. -/
def FsState.opened (path : Path) : FsState :=
  let s := boot none
  { s with fds := ((s.fds.openDir path).map (·.2)).getD s.fds }

/-- `/dev/pts` has one entry. -/
theorem shell_reads_pts : ∃ n : Nat, ((FsState.opened "/dev/pts".toList).sysGetdents64 3 4096 lsBuf).1 = n ∧
    (FsState.opened "/dev/pts".toList).cmdLs 3 4096 = ([(nameBytes "0".toList, false)], n) :=
  (@shell_reads_entries [("0".toList, false)] _ rfl (by decide) (by decide)).2 _ 3 4096 "/dev/pts".toList
    (by decide) (by decide) (by decide) (by decide)

/-! ### Reading a directory to its end -/

/-- `fd` is an open directory; the numbers up to 2 are the terminal's. -/
structure FsState.OpenDir (s : FsState) (fd : Nat) (path : Path) : Prop where
  number : 2 < fd
  dir : s.dirPath fd = some path

/-- Calls until one returns 0, with the bytes that they all returned. -/
inductive Drained (fd buf count : Nat) : FsState → List UInt8 → Prop
  | done {s s' : FsState} : s.sysGetdents64 fd buf count = (0, s') → Drained fd buf count s []
  | more {s s' : FsState} {n : Int} {bytes : List UInt8} : s.sysGetdents64 fd buf count = (n, s') → n ≠ 0 →
      Drained fd buf count s' bytes → Drained fd buf count s (s'.mem.read buf n.toNat ++ bytes)

/-- The entries in records that follow each other. -/
def recordsOf (bytes : List UInt8) : List Dirent := (lsLoop (fun i => bytes.getD i 0) 0 bytes.length 0).1

variable {s s' : FsState} {fd count : Nat} {path : Path} {r : Int} {bytes : List UInt8}

theorem le_fillDirents : pos ≤ (fillDirents buf max mem pos ino entries).1 := by
  induction entries generalizing mem pos ino with
  | nil => exact Nat.le_refl _
  | cons entry rest ih =>
    rw [fillDirents]
    split
    · exact Nat.le_refl _
    · exact (Nat.le_add_right ..).trans ih

/-- A call changes the caller's memory only. -/
theorem sysGetdents64_frame (hs : s.sysGetdents64 fd buf count = (r, s')) : ∃ mem, s' = { s with mem } := by
  unfold FsState.sysGetdents64 at hs
  repeat' split at hs
  all_goals
    obtain ⟨-, rfl⟩ := Prod.mk.inj hs
    exact ⟨_, rfl⟩

/-- A call returns 0 only for an empty directory. -/
theorem sysGetdents64_eq_zero (ho : s.OpenDir fd path) (hbuf : buf ≠ 0) (hfit : ∀ e ∈ s.listed path, recLen e.1 ≤ count) :
    (s.sysGetdents64 fd buf count).1 = 0 ↔ s.listed path = [] ∧ 32 ≤ count := by
  by_cases hcount : count < 32
  · have hcall : s.sysGetdents64 fd buf count = (einval, s) := by
      have := ho.number
      rw [FsState.sysGetdents64, if_neg (by omega), if_neg hbuf, if_pos hcount]
    rw [hcall]
    exact iff_of_false (show einval ≠ 0 by decide) (by omega)
  rw [s.sysGetdents64_dir ho.number hbuf (by omega) ho.dir]
  cases hl : s.listed path with
  | nil => exact iff_of_true rfl ⟨rfl, by omega⟩
  | cons entry rest =>
    have hrec : recLen entry.1 ≤ count := hfit entry (hl ▸ List.mem_cons_self ..)
    have hpos := recLen_bounds entry.1
    refine iff_of_false ?_ fun h => List.cons_ne_nil _ _ h.1
    rw [fillDirents, if_neg (by omega)]
    have hle : 0 + recLen entry.1 ≤ (fillDirents buf count (s.mem.write (buf + 0) (direntRecord 0 2 entry))
      (0 + recLen entry.1) (2 + 1) rest).1 := le_fillDirents
    simp only
    omega

/-- Nothing but an empty directory is ever read to its end. -/
theorem listed_of_drained (hd : Drained fd buf count s bytes) (ho : s.OpenDir fd path) (hbuf : buf ≠ 0)
    (hfit : ∀ e ∈ s.listed path, recLen e.1 ≤ count) : s.listed path = [] ∧ 32 ≤ count := by
  induction hd with
  | done hcall => exact (sysGetdents64_eq_zero ho hbuf hfit).mp (congrArg Prod.fst hcall)
  | more hcall _ _ ih =>
    obtain ⟨mem, rfl⟩ := sysGetdents64_frame hcall
    exact ih ⟨ho.number, ho.dir⟩ hfit

/-- Reading an open directory call by call ends, with each entry once, just in case there are none. -/
theorem iteration_ends_iff (ho : s.OpenDir fd path) (hbuf : buf ≠ 0) (hfit : ∀ e ∈ s.listed path, recLen e.1 ≤ count) :
    (∃ bytes, Drained fd buf count s bytes ∧ (recordsOf bytes).Perm (s.listed path)) ↔
      s.listed path = [] ∧ 32 ≤ count := by
  constructor
  · intro h
    obtain ⟨bytes, hd, -⟩ := h
    exact listed_of_drained hd ho hbuf hfit
  · intro ⟨hempty, hcount⟩
    have hzero := (sysGetdents64_eq_zero ho hbuf hfit).mpr ⟨hempty, hcount⟩
    refine ⟨[], .done (Prod.ext hzero rfl), ?_⟩
    rw [hempty, recordsOf, lsLoop, if_neg (by decide)]

/-- `/tmp` is empty after boot. -/
theorem iteration_ends_tmp : ∃ bytes, Drained 3 4096 64 (.opened "/tmp".toList) bytes ∧ recordsOf bytes = [] := by
  have hempty : (FsState.opened "/tmp".toList).listed "/tmp".toList = [] := by decide
  have hopen : (FsState.opened "/tmp".toList).OpenDir 3 "/tmp".toList := ⟨by decide, by decide⟩
  have hfit : ∀ e ∈ (FsState.opened "/tmp".toList).listed "/tmp".toList, recLen e.1 ≤ 64 := by
    rw [hempty]
    intro e he
    cases he
  obtain ⟨bytes, hd, hperm⟩ := (iteration_ends_iff hopen (show 4096 ≠ 0 by decide) hfit).mpr ⟨hempty, by decide⟩
  exact ⟨bytes, hd, List.perm_nil.mp (hempty ▸ hperm)⟩

/-- `/run` has one entry, `lock`: each call returns its record again. -/
theorem iteration_repeats_lock : (FsState.opened "/run".toList).listed "/run".toList = [(nameBytes "lock".toList, true)] ∧
    ∀ bytes, ¬ Drained 3 4096 64 (.opened "/run".toList) bytes := by
  have hlisted : (FsState.opened "/run".toList).listed "/run".toList = [(nameBytes "lock".toList, true)] := by
    decide
  have hopen : (FsState.opened "/run".toList).OpenDir 3 "/run".toList := ⟨by decide, by decide⟩
  have hfit : ∀ e ∈ (FsState.opened "/run".toList).listed "/run".toList, recLen e.1 ≤ 64 := by
    rw [hlisted]
    intro e he
    rw [List.mem_singleton.mp he]
    decide
  refine ⟨hlisted, fun bytes hd => ?_⟩
  have hnil := (listed_of_drained hd hopen (by decide) hfit).1
  rw [hlisted] at hnil
  cases hnil

end ChodOs
