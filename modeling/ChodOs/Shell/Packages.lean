/-
The packages (`pkg.rs`, the `sys_pkg_*` calls in `syscall/mod.rs`) and what
`mukg` of the shell makes of them: the listing is written chunk by chunk into
a buffer and taken apart line by line again.
-/
import ChodOs.Gui.Wm
import ChodOs.Lib.Run
import Mathlib.Data.List.Infix

namespace ChodOs

open StepSys

/-! ## The registry -/

/-- `Package`, but for the image. -/
structure Package where
  name : List UInt8
  version : List UInt8
  desc : List UInt8
  deps : List (List UInt8)

def Package.plain (name version desc : String) : Package := ⟨textBytes name, textBytes version, textBytes desc, []⟩

/-- `PACKAGES`. -/
def packages : List Package :=
  [.plain "sysinfo" "0.1.0" "Display system information",
   .plain "muecho" "0.1.0" "Echo arguments to stdout",
   .plain "mucat" "0.1.0" "Read and print a file from ext4",
   .plain "muls" "0.1.0" "List directory entries (ls)",
   .plain "mupwd" "0.1.0" "Print working directory (pwd)",
   .plain "hello" "1.0.0" "musl-static hello world (BETA 2-1 compat test)",
   .plain "uname" "1.0.0" "musl-static uname test (syscall 63)",
   .plain "hello_dyn" "1.0.0" "musl-linked dynamic hello (BETA 21 dynlink test)"]

/-- `find`. -/
def findPackage (name : List UInt8) : Option Nat := packages.findIdx? (·.name == name)

/-- `PKG_INSTALL_STATE`. -/
structure PkgState where
  installed : BitVec 64

namespace PkgState

def boot : PkgState := ⟨0⟩

def install (s : PkgState) (idx : Nat) : PkgState := if idx < 64 then ⟨s.installed ||| BitVec.twoPow 64 idx⟩ else s

def remove (s : PkgState) (idx : Nat) : PkgState := if idx < 64 then ⟨s.installed &&& ~~~BitVec.twoPow 64 idx⟩ else s

def isInstalled (s : PkgState) (idx : Nat) : Bool := decide (idx < 64) && (s.installed &&& BitVec.twoPow 64 idx) != 0

end PkgState

/-! ## The listing -/

/-- What `copy_nonoverlapping` of a chunk leaves in the buffer. `none`: there is no room. -/
def putChunk (max : Nat) (out chunk : List UInt8) : Option (List UInt8) :=
  let copy := min chunk.length (max - out.length)
  if copy = 0 then none else some (out ++ chunk.take copy)

/-- The loop over the chunks, up to one that does not fit. -/
def putChunks (max : Nat) : List UInt8 → List (List UInt8) → List UInt8
  | out, [] => out
  | out, chunk :: chunks =>
    match putChunk max out chunk with
    | none => out
    | some out => putChunks max out chunks

/-- The loop over the packages. -/
def putLines (max : Nat) : List UInt8 → List (List (List UInt8)) → List UInt8
  | out, [] => out
  | out, line :: lines =>
    let out := putChunks max out line
    if max ≤ out.length then out else putLines max out lines

/-- `[*] ` or `[ ] `. -/
def marker (installed : Bool) : List UInt8 := if installed then [0x5B, 0x2A, 0x5D, 0x20] else [0x5B, 0x20, 0x5D, 0x20]

/-- ` - `. -/
def dash : List UInt8 := [0x20, 0x2D, 0x20]

def Package.chunks (pkg : Package) (installed : Bool) : List (List UInt8) :=
  [marker installed, pkg.name, [0x20], pkg.version, dash, pkg.desc, [newline]]

/-- `tmp[..len]` of `fmt_u64`, with so many places left. `none`: there is none for a digit. -/
def fmtLoop : Nat → Nat → Option (List UInt8)
  | room, n =>
    if n = 0 then some []
    else
      match room with
      | 0 => none
      | room + 1 => (fmtLoop room (n / 10)).map (UInt8.ofNat (0x30 + n % 10) :: ·)

/-- `fmt_u64`. -/
def fmtU64 (n : Nat) : Option (List UInt8) := if n = 0 then some [0x30] else (fmtLoop 20 n).map List.reverse

namespace PkgState

/-- `sys_pkg_list`: the bytes it writes. -/
def sysPkgList (s : PkgState) (max : Nat) : List UInt8 :=
  putLines max [] (packages.mapIdx fun i pkg => pkg.chunks (s.isInstalled i))

/-- `sys_pkg_installed`. -/
def sysPkgInstalled (s : PkgState) (max : Nat) : List UInt8 :=
  let found := (packages.mapIdx fun i pkg => (s.isInstalled i, pkg)).filter (·.1)
  let out := putLines max [] (found.map fun (_, pkg) => pkg.chunks true)
  if found = [] ∧ 0 < max then (textBytes "(no packages installed)\n").take max else out

/-- `sys_pkg_info` of a package that was found, with its image of `size` bytes. `none`: no room for a digit. -/
def sysPkgInfo (s : PkgState) (idx : Nat) (pkg : Package) (size max : Nat) : Option (List UInt8) := do
  let digits ← fmtU64 size
  let deps := if pkg.deps = [] then [[textBytes "Deps:    (none)\n"]]
    else pkg.deps.mapIdx fun i dep => [textBytes (if i = 0 then "Deps:    " else "         "), dep, [newline]]
  let status := textBytes (if s.isInstalled idx then "installed" else "not installed")
  some (([[textBytes "Name:    ", pkg.name, [newline]], [textBytes "Version: ", pkg.version, [newline]],
    [textBytes "Desc:    ", pkg.desc, [newline]], [textBytes "Size:    ", digits, textBytes " bytes\n"]] ++ deps ++
    [[textBytes "Status:  ", status, [newline]]]).foldl (putChunks max) [])

/-- `sys_pkg_install`, by the name that was read; `EINVAL`, `ENOENT`. -/
def sysPkgInstall (s : PkgState) (name : Option (List UInt8)) : Int × PkgState :=
  match name with
  | none => (-22, s)
  | some name =>
    match findPackage name with
    | none => (-2, s)
    | some idx =>
      let deps := (packages[idx]?.map (·.deps)).getD []
      (0, ((deps.filterMap findPackage).foldl install s).install idx)

/-- `sys_pkg_remove`. -/
def sysPkgRemove (s : PkgState) (name : Option (List UInt8)) : Int × PkgState :=
  match name with
  | none => (-22, s)
  | some name =>
    match findPackage name with
    | none => (-2, s)
    | some idx => (0, s.remove idx)

end PkgState

/-! ## The shell's side -/

/-- `contains`: every place of the haystack is tried. -/
def containsBytes (haystack needle : List UInt8) : Bool :=
  if needle = [] then true
  else if haystack.length < needle.length then false
  else (List.range (haystack.length - needle.length + 1)).any fun i => (haystack.drop i).take needle.length == needle

/-- `split(|&b| b == b'\n')` of the 2048 bytes that are asked for. -/
def PkgState.lines (s : PkgState) : List (List UInt8) := (s.sysPkgList 2048).splitOn newline

/-- The lines that `mukg list` prints. -/
def PkgState.mukgList (s : PkgState) : List (List UInt8) := s.lines.filter (· != [])

/-- Those that `mukg upgrade` does. -/
def PkgState.mukgUpgrade (s : PkgState) : List (List UInt8) := s.lines.filter fun line => [0x5B, 0x2A, 0x5D].isPrefixOf line

/-- Those that `mukg search` does. -/
def PkgState.mukgSearch (s : PkgState) (kw : List UInt8) : List (List UInt8) :=
  s.lines.filter fun line => containsBytes (if 4 < line.length then line.drop 4 else line) kw

/-! ## Decimals -/

/-- The number that digits stand for. -/
def decimal (digits : List UInt8) : Nat := digits.foldl (fun v d => 10 * v + (d.toNat - 0x30)) 0

/-- `sys_pkg_info` as it is read. -/
def PkgState.infoText (s : PkgState) (idx : Nat) (pkg : Package) (digits : List UInt8) : List UInt8 :=
  textBytes "Name:    " ++ pkg.name ++ [newline] ++ textBytes "Version: " ++ pkg.version ++ [newline] ++
    textBytes "Desc:    " ++ pkg.desc ++ [newline] ++ textBytes "Size:    " ++ digits ++ textBytes " bytes\n" ++
    textBytes "Deps:    (none)\n" ++
    textBytes "Status:  " ++ textBytes (if s.isInstalled idx then "installed" else "not installed") ++ [newline]

theorem decimal_concat (digits : List UInt8) (d : UInt8) :
    decimal (digits ++ [d]) = 10 * decimal digits + (d.toNat - 0x30) := by
  rw [decimal, decimal, List.foldl_append, List.foldl_cons, List.foldl_nil]

theorem digit_spec : ∀ k < 10, (UInt8.ofNat (0x30 + k)).toNat = 0x30 + k ∧
    (0x30 ≤ UInt8.ofNat (0x30 + k) ∧ UInt8.ofNat (0x30 + k) ≤ 0x39) ∧ (k ≠ 0 → UInt8.ofNat (0x30 + k) ≠ 0x30) := by
  decide

/-- The digits come last to first. -/
structure Digits (n : Nat) (ds : List UInt8) : Prop where
  decimal : decimal ds.reverse = n
  digit : ∀ d ∈ ds, 0x30 ≤ d ∧ d ≤ 0x39
  nonzero : ds.getLast? ≠ some 0x30

theorem Digits.cons {n : Nat} {ds : List UInt8} (h : Digits (n / 10) ds) (hnil : ds = [] → n / 10 = 0) (hn : n ≠ 0) :
    Digits n (UInt8.ofNat (0x30 + n % 10) :: ds) := by
  obtain ⟨hval, hdigit, hne⟩ := digit_spec (n % 10) (Nat.mod_lt _ (by decide))
  refine ⟨?_, List.forall_mem_cons.mpr ⟨hdigit, h.digit⟩, ?_⟩
  · rw [List.reverse_cons, decimal_concat, h.decimal, hval]
    omega
  · cases ds with
    | nil =>
      have hlow := hnil rfl
      rw [List.getLast?_singleton, Ne, Option.some_inj]
      exact hne (by omega)
    | cons d ds =>
      rw [List.getLast?_cons_cons]
      exact h.nonzero

theorem fmtLoop_eq (room : Nat) {n : Nat} (h : n < 10 ^ room) :
    ∃ ds, fmtLoop room n = some ds ∧ Digits n ds ∧ ds.length ≤ room ∧ (ds = [] → n = 0) := by
  induction room generalizing n with
  | zero =>
    obtain rfl : n = 0 := by omega
    exact ⟨[], rfl, ⟨rfl, nofun, nofun⟩, Nat.le_refl _, fun _ => rfl⟩
  | succ room ih =>
    rw [fmtLoop]
    by_cases hn : n = 0
    · exact ⟨[], if_pos hn, ⟨hn.symm, nofun, nofun⟩, Nat.zero_le _, fun _ => hn⟩
    · obtain ⟨ds, hds, hdigits, hlen, hnil⟩ := ih (Nat.div_lt_of_lt_mul (by rwa [Nat.mul_comm, ← Nat.pow_succ]))
      refine ⟨_ :: ds, by rw [if_neg hn, hds]; rfl, hdigits.cons hnil hn, Nat.succ_le_succ hlen, nofun⟩

/-- A number is written with at most 20 digits, the first of them no zero, and can be read again. -/
theorem fmtU64_spec {n : Nat} (h : n < 2 ^ 64) : ∃ ds, fmtU64 n = some ds ∧ ds ≠ [] ∧ decimal ds = n ∧ ds.length ≤ 20 ∧
    (∀ d ∈ ds, 0x30 ≤ d ∧ d ≤ 0x39) ∧ (n ≠ 0 → ds.head? ≠ some 0x30) := by
  rw [fmtU64]
  by_cases hn : n = 0
  · refine ⟨[0x30], if_pos hn, nofun, hn.symm, by decide, ?_, fun hne => absurd hn hne⟩
    rintro d (_ | ⟨_, ⟨⟩⟩)
    decide
  · obtain ⟨ds, hds, hdigits, hlen, hnil⟩ := fmtLoop_eq 20 (n := n) (by omega)
    refine ⟨ds.reverse, by rw [if_neg hn, hds]; rfl, fun hrev => hn (hnil (List.reverse_eq_nil_iff.mp hrev)),
      hdigits.decimal, by rwa [List.length_reverse], fun d hd => hdigits.digit d (List.mem_reverse.mp hd), fun _ => ?_⟩
    rw [List.head?_reverse]
    exact hdigits.nonzero

/-! ## Runs -/

inductive PkgOp
  | install (name : Option (List UInt8))
  | remove (name : Option (List UInt8))

inductive PkgEvent
  | installed (idx : Nat)
  | removed (idx : Nat)
  deriving DecidableEq

/-- The packages that an installation installs. -/
def installs (name : List UInt8) : List Nat :=
  match findPackage name with
  | none => []
  | some idx => ((packages[idx]?.map (·.deps)).getD []).filterMap findPackage ++ [idx]

def PkgState.step (s : PkgState) : PkgOp → Option (List PkgEvent × PkgState)
  | .install name => some (((name.map installs).getD []).map .installed, (s.sysPkgInstall name).2)
  | .remove name => some (((name.bind findPackage).toList).map .removed, (s.sysPkgRemove name).2)

/-- The last that happened to a package is that it was installed. -/
def LastInstalled (h : List PkgEvent) (i : Nat) : Prop :=
  ∃ a b, h = a ++ .installed i :: b ∧ .removed i ∉ b

/-- The line of a package. -/
def Package.line (pkg : Package) (installed : Bool) : List UInt8 :=
  marker installed ++ pkg.name ++ [0x20] ++ pkg.version ++ dash ++ pkg.desc

variable {s s' : PkgState} {h : List PkgEvent} {i j max : Nat} {out chunk : List UInt8} {chunks : List (List UInt8)}

/-! ## Bits -/

theorem isInstalled_eq (s : PkgState) (i : Nat) : s.isInstalled i = s.installed.getLsbD i := by
  rw [PkgState.isInstalled, BitVec.and_twoPow]
  by_cases hi : i < 64
  · rw [decide_eq_true hi, Bool.true_and]
    cases hb : s.installed.getLsbD i with
    | true =>
      rw [if_pos rfl, bne_iff_ne]
      intro hcon
      have hbit := congrArg (fun x : BitVec 64 => x.getLsbD i) hcon
      simp [hi] at hbit
    | false => simp
  · rw [decide_eq_false hi, Bool.false_and, BitVec.getLsbD_of_ge _ _ (Nat.not_lt.mp hi)]

theorem isInstalled_install (hj : j < 64) : (s.install j).isInstalled i = (s.isInstalled i || decide (i = j)) := by
  rw [isInstalled_eq, isInstalled_eq, PkgState.install, if_pos hj, BitVec.getLsbD_or, BitVec.getLsbD_twoPow]
  congr 1
  by_cases hij : i = j
  · subst hij
    simp [hj]
  · simp [hij, Ne.symm hij]

theorem isInstalled_remove (hj : j < 64) : (s.remove j).isInstalled i = (s.isInstalled i && !decide (i = j)) := by
  rw [isInstalled_eq, isInstalled_eq, PkgState.remove, if_pos hj, BitVec.getLsbD_and, BitVec.getLsbD_not,
    BitVec.getLsbD_twoPow]
  by_cases hi : i < 64
  · by_cases hij : i = j
    · subst hij
      simp [hj]
    · simp [hij, Ne.symm hij, hi]
  · rw [BitVec.getLsbD_of_ge _ _ (Nat.not_lt.mp hi), Bool.false_and, Bool.false_and]

theorem lastInstalled_concat (e : PkgEvent) :
    LastInstalled (h ++ [e]) i ↔ e = .installed i ∨ e ≠ .removed i ∧ LastInstalled h i := by
  constructor
  · rintro ⟨a, b, hab, hb⟩
    rcases List.eq_nil_or_concat' b with rfl | ⟨b, e', rfl⟩
    · obtain ⟨-, he⟩ := List.append_inj' hab rfl
      exact .inl (List.singleton_inj.mp he)
    · rw [← List.cons_append, ← List.append_assoc] at hab
      obtain ⟨rfl, he⟩ := List.append_inj' hab rfl
      obtain rfl := List.singleton_inj.mp he
      rw [List.mem_append, List.mem_singleton, not_or] at hb
      exact .inr ⟨Ne.symm hb.2, a, b, rfl, hb.1⟩
  · rintro (rfl | ⟨hne, a, b, rfl, hb⟩)
    · exact ⟨h, [], rfl, List.not_mem_nil⟩
    · refine ⟨a, b ++ [e], by rw [List.append_assoc, List.cons_append], ?_⟩
      rw [List.mem_append, List.mem_singleton, not_or]
      exact ⟨hb, Ne.symm hne⟩

/-- The bits tell what happened last. -/
def PkgState.Tells (h : List PkgEvent) (s : PkgState) : Prop := ∀ i, s.isInstalled i = true ↔ LastInstalled h i

theorem PkgState.Tells.installed (ht : s.Tells h) (hj : j < 64) : (s.install j).Tells (h ++ [.installed j]) := fun i => by
  rw [isInstalled_install hj, lastInstalled_concat, Bool.or_eq_true, decide_eq_true_eq, ht i]
  constructor
  · rintro (hi | rfl)
    · exact .inr ⟨nofun, hi⟩
    · exact .inl rfl
  · rintro (he | ⟨-, hi⟩)
    · cases he
      exact .inr rfl
    · exact .inl hi

theorem PkgState.Tells.removed (ht : s.Tells h) (hj : j < 64) : (s.remove j).Tells (h ++ [.removed j]) := fun i => by
  rw [isInstalled_remove hj, lastInstalled_concat, Bool.and_eq_true, Bool.not_eq_true', decide_eq_false_iff_not, ht i]
  constructor
  · rintro ⟨hi, hne⟩
    exact .inr ⟨fun he => hne (by cases he; rfl), hi⟩
  · rintro (he | ⟨hne, hi⟩)
    · cases he
    · exact ⟨hi, fun he => hne (by rw [he])⟩

theorem findPackage_lt {name : List UInt8} (hf : findPackage name = some i) : i < 64 := by
  have hlt := (List.findIdx?_eq_some_iff_findIdx_eq.mp hf).1
  have hlen : packages.length = 8 := rfl
  omega

theorem PkgState.Tells.foldl (ht : s.Tells h) {l : List Nat} (hl : ∀ j ∈ l, j < 64) :
    (l.foldl PkgState.install s).Tells (h ++ l.map .installed) := by
  induction l generalizing s h with
  | nil => rwa [List.map_nil, List.append_nil]
  | cons j l ih =>
    obtain ⟨hj, hl⟩ := List.forall_mem_cons.mp hl
    rw [List.map_cons, List.append_cons]
    exact ih (ht.installed hj) hl

theorem sysPkgInstall_eq (s : PkgState) (name : Option (List UInt8)) :
    (s.sysPkgInstall name).2 = ((name.map installs).getD []).foldl PkgState.install s := by
  cases name with
  | none => rfl
  | some name =>
    simp only [PkgState.sysPkgInstall, installs, Option.map_some, Option.getD_some]
    cases findPackage name with
    | none => rfl
    | some idx => rw [List.foldl_append]; rfl

theorem installs_lt {name : List UInt8} (hj : j ∈ installs name) : j < 64 := by
  rw [installs] at hj
  cases hf : findPackage name with
  | none => simp [hf] at hj
  | some idx =>
    simp only [hf, List.mem_append, List.mem_singleton, List.mem_filterMap] at hj
    rcases hj with ⟨dep, -, hdep⟩ | rfl
    · exact findPackage_lt hdep
    · exact findPackage_lt hf

theorem tells_of_runs (hr : Runs PkgState.step free .boot h s) : s.Tells h := by
  refine hr.invariant (fun h s => s.Tells h) (fun i => ?_) ?_
  · rw [isInstalled_eq, PkgState.boot]
    refine ⟨fun hi => ?_, ?_⟩
    · simp at hi
    · rintro ⟨a, b, hab, -⟩
      simp at hab
  intro h s op es s' ih _ hs
  cases op with
  | install name =>
    cases hs
    rw [sysPkgInstall_eq]
    refine ih.foldl fun j hj => ?_
    cases name with
    | none => cases hj
    | some name => exact installs_lt hj
  | remove name =>
    cases hs
    cases name with
    | none => exact (List.append_nil h).symm ▸ ih
    | some name =>
      simp only [PkgState.sysPkgRemove, Option.bind_some]
      cases hf : findPackage name with
      | none => exact (List.append_nil h).symm ▸ ih
      | some idx => exact ih.removed (findPackage_lt hf)

/-! ## The listing, written and read -/

/-- What did not fit makes no difference to what fits. -/
theorem take_append_take (l rest : List UInt8) : (l.take max ++ rest).take max = (l ++ rest).take max := by
  rcases Nat.le_total l.length max with hle | hge
  · rw [List.take_of_length_le hle]
  · have hlen : (l.take max).length = max := by rw [List.length_take, Nat.min_eq_left hge]
    rw [List.take_append_of_le_length (Nat.le_of_eq hlen.symm), List.take_append_of_le_length hge, List.take_take,
      Nat.min_self]

theorem putChunks_eq (hout : out.length ≤ max) (hchunks : ∀ chunk ∈ chunks, chunk ≠ []) :
    putChunks max out chunks = (out ++ chunks.flatten).take max := by
  induction chunks generalizing out with
  | nil => rw [putChunks, List.flatten_nil, List.append_nil, List.take_of_length_le hout]
  | cons chunk chunks ih =>
    obtain ⟨hchunk, hchunks⟩ := List.forall_mem_cons.mp hchunks
    have hpos := List.length_pos_iff.mpr hchunk
    rw [putChunks, putChunk, List.flatten_cons, ← List.append_assoc]
    by_cases hfull : out.length = max
    · simp only [hfull, Nat.sub_self, Nat.min_zero, if_true]
      rw [List.append_assoc, ← hfull, List.take_left']
      rfl
    · have hcopy : min chunk.length (max - out.length) ≠ 0 := by omega
      have htake : out ++ chunk.take (min chunk.length (max - out.length)) = (out ++ chunk).take max := by
        rw [List.take_append, List.take_of_length_le hout, Nat.min_comm, ← List.take_take, List.take_length]
      simp only [if_neg hcopy]
      rw [htake, ih (List.length_take_le _ _) hchunks, take_append_take]

theorem putLines_eq {lines : List (List (List UInt8))} (hout : out.length ≤ max)
    (hlines : ∀ line ∈ lines, ∀ chunk ∈ line, chunk ≠ []) :
    putLines max out lines = (out ++ (lines.map List.flatten).flatten).take max := by
  induction lines generalizing out with
  | nil => rw [putLines, List.map_nil, List.flatten_nil, List.append_nil, List.take_of_length_le hout]
  | cons line lines ih =>
    obtain ⟨hline, hlines⟩ := List.forall_mem_cons.mp hlines
    rw [putLines, putChunks_eq hout hline, List.map_cons, List.flatten_cons, ← List.append_assoc]
    split
    · next hfull =>
      rw [List.length_take] at hfull
      exact (List.take_append_of_le_length (Nat.le_trans hfull (Nat.min_le_right _ _))).symm
    · rw [ih (List.length_take_le _ _) hlines, take_append_take]

theorem foldl_putChunks {groups : List (List (List UInt8))} (hout : out.length ≤ max)
    (hgroups : ∀ chunks ∈ groups, ∀ chunk ∈ chunks, chunk ≠ []) :
    groups.foldl (putChunks max) out = (out ++ (groups.map List.flatten).flatten).take max := by
  induction groups generalizing out with
  | nil => rw [List.foldl_nil, List.map_nil, List.flatten_nil, List.append_nil, List.take_of_length_le hout]
  | cons chunks groups ih =>
    obtain ⟨hchunks, hgroups⟩ := List.forall_mem_cons.mp hgroups
    rw [List.foldl_cons, putChunks_eq hout hchunks, ih (List.length_take_le _ _) hgroups, take_append_take,
      List.map_cons, List.flatten_cons, List.append_assoc]

/-- A text of lines is taken apart into them. -/
theorem splitOn_lines {lines : List (List UInt8)} (h : ∀ line ∈ lines, newline ∉ line) :
    (lines.map (· ++ [newline])).flatten.splitOn newline = lines ++ [[]] := by
  induction lines with
  | nil => rfl
  | cons line lines ih =>
    obtain ⟨hline, hlines⟩ := List.forall_mem_cons.mp h
    rw [List.map_cons, List.flatten_cons, List.append_assoc, List.singleton_append,
      List.splitOn_append_cons_self_of_not_mem hline, ih hlines, List.cons_append]

theorem containsBytes_iff {haystack needle : List UInt8} : containsBytes haystack needle = true ↔ needle <:+: haystack := by
  rw [containsBytes]
  split
  · next hnil =>
    subst hnil
    exact ⟨fun _ => List.nil_infix, fun _ => rfl⟩
  · split
    · next hshort =>
      refine ⟨nofun, fun h => ?_⟩
      have hle := h.length_le
      omega
    · next hlong =>
      rw [List.any_eq_true]
      constructor
      · rintro ⟨i, -, hi⟩
        rw [beq_iff_eq] at hi
        rw [← hi]
        exact (List.take_prefix _ (haystack.drop i)).isInfix.trans (haystack.drop_suffix i).isInfix
      · rintro ⟨a, b, rfl⟩
        refine ⟨a.length, List.mem_range.mpr ?_, ?_⟩
        · simp only [List.length_append]
          omega
        · rw [List.append_assoc, List.drop_left', List.take_left', beq_iff_eq] <;> rfl

/-- The lines of the packages, and what they are made of. -/
structure Package.Fine (pkg : Package) : Prop where
  chunks : ∀ b, ∀ chunk ∈ pkg.chunks b, chunk ≠ []
  flatten : ∀ b, (pkg.chunks b).flatten = pkg.line b ++ [newline]
  line : ∀ b, newline ∉ pkg.line b
  short : ∀ b, (pkg.line b).length < 128

theorem packages_fine : ∀ pkg ∈ packages, pkg.Fine := by
  intro pkg hpkg
  have hall : packages.all (fun pkg => [true, false].all fun b => (pkg.chunks b).all (· != []) &&
      !(pkg.line b).contains newline && decide ((pkg.line b).length < 128)) = true := by decide +kernel
  have h := List.all_eq_true.mp hall pkg hpkg
  have hb : ∀ b : Bool, ((pkg.chunks b).all (· != []) && !(pkg.line b).contains newline &&
      decide ((pkg.line b).length < 128)) = true := fun b => List.all_eq_true.mp h b (by cases b <;> decide)
  simp only [Bool.and_eq_true, List.all_eq_true, bne_iff_ne, Bool.not_eq_true', List.contains_eq_mem,
    decide_eq_false_iff_not, decide_eq_true_eq] at hb
  refine ⟨fun b => (hb b).1.1, fun b => ?_, fun b => (hb b).1.2, fun b => (hb b).2⟩
  simp [Package.chunks, Package.line]

namespace PkgState

/-- The lines of the listing. -/
def pkgLines (s : PkgState) : List (List UInt8) := packages.mapIdx fun i pkg => pkg.line (s.isInstalled i)

/-- Those of the packages that are installed. -/
def installedLines (s : PkgState) : List (List UInt8) :=
  ((packages.mapIdx fun i pkg => (s.isInstalled i, pkg)).filter (·.1)).map fun (_, pkg) => pkg.line true

/-- The installed packages are those that were installed last; the calls write
the lines of the packages as far as they fit; and the shell prints the lines
it means to. -/
structure Listed (s : PkgState) (h : List PkgEvent) : Prop where
  tells : s.Tells h
  list : ∀ max, s.sysPkgList max = ((s.pkgLines.map (· ++ [newline])).flatten).take max
  installed : ∀ max, s.sysPkgInstalled max =
    (if s.installedLines = [] then textBytes "(no packages installed)\n"
      else (s.installedLines.map (· ++ [newline])).flatten).take max
  mukgList : s.mukgList = s.pkgLines
  mukgUpgrade : s.mukgUpgrade = s.installedLines
  info : ∀ i pkg size max, pkg ∈ packages → size < 2 ^ 64 → ∃ digits, decimal digits = size ∧
    (∀ d ∈ digits, 0x30 ≤ d ∧ d ≤ 0x39) ∧ s.sysPkgInfo i pkg size max = some ((s.infoText i pkg digits).take max)
  mukgSearch : ∀ kw, kw ≠ [] → s.mukgSearch kw = s.pkgLines.filter fun line => decide (kw <:+: line.drop 4)

theorem map_mapIdx_congr {α β γ δ : Type} {l : List α} {f : Nat → α → β} {g : Nat → α → γ} {k : β → δ} {k' : γ → δ}
    (h : ∀ i, ∀ a ∈ l, k (f i a) = k' (g i a)) : (l.mapIdx f).map k = (l.mapIdx g).map k' := by
  refine List.ext_getElem? fun i => ?_
  rw [List.getElem?_map, List.getElem?_map, List.getElem?_mapIdx, List.getElem?_mapIdx]
  cases ha : l[i]? with
  | none => rfl
  | some a => simp only [Option.map_some, h i a (List.mem_of_getElem? ha)]

theorem length_flatten_le {ls : List (List UInt8)} {n : Nat} (h : ∀ l ∈ ls, l.length ≤ n) :
    ls.flatten.length ≤ ls.length * n := by
  induction ls with
  | nil => exact Nat.zero_le _
  | cons l ls ih =>
    obtain ⟨hl, hls⟩ := List.forall_mem_cons.mp h
    have hrest := ih hls
    rw [List.flatten_cons, List.length_append, List.length_cons, Nat.succ_mul]
    omega

theorem mem_pkgLines {line : List UInt8} (h : line ∈ s.pkgLines) : ∃ pkg ∈ packages, ∃ b, line = pkg.line b := by
  obtain ⟨i, hi, rfl⟩ := List.mem_mapIdx.mp h
  exact ⟨packages[i], List.getElem_mem hi, _, rfl⟩

theorem sysPkgList_eq (s : PkgState) (max : Nat) :
    s.sysPkgList max = ((s.pkgLines.map (· ++ [newline])).flatten).take max := by
  rw [sysPkgList, putLines_eq (Nat.zero_le _), List.nil_append, pkgLines]
  · refine congrArg (fun l => (List.flatten l).take max) (map_mapIdx_congr fun i pkg hpkg => ?_)
    exact (packages_fine pkg hpkg).flatten _
  · intro line hline
    obtain ⟨i, hi, rfl⟩ := List.mem_mapIdx.mp hline
    exact (packages_fine _ (List.getElem_mem hi)).chunks _

theorem found_fine {p : Bool × Package}
    (h : p ∈ (packages.mapIdx fun i pkg => (s.isInstalled i, pkg)).filter (·.1)) : p.2.Fine := by
  obtain ⟨i, hi, rfl⟩ := List.mem_mapIdx.mp (List.mem_filter.mp h).1
  exact packages_fine _ (List.getElem_mem hi)

theorem sysPkgInstalled_eq (s : PkgState) (max : Nat) : s.sysPkgInstalled max =
    (if s.installedLines = [] then textBytes "(no packages installed)\n"
      else (s.installedLines.map (· ++ [newline])).flatten).take max := by
  rw [sysPkgInstalled, installedLines]
  generalize hfound : (packages.mapIdx fun i pkg => (s.isInstalled i, pkg)).filter (·.1) = found
  have hfine : ∀ p ∈ found, p.2.Fine := fun p hp => found_fine (hfound ▸ hp)
  dsimp only
  by_cases hnil : found = []
  · subst hnil
    rcases Nat.eq_zero_or_pos max with rfl | hpos
    · rfl
    · rw [if_pos ⟨rfl, hpos⟩, List.map_nil, if_pos rfl]
  · rw [if_neg (fun h => hnil h.1), if_neg (by rwa [List.map_eq_nil_iff]), putLines_eq (Nat.zero_le _), List.nil_append,
      List.map_map, List.map_map]
    · refine congrArg (fun l => (List.flatten l).take max) (List.map_congr_left fun p hp => ?_)
      exact (hfine p hp).flatten true
    · intro line hline
      obtain ⟨p, hp, rfl⟩ := List.mem_map.mp hline
      exact (hfine p hp).chunks true

/-- The listing is read back whole. -/
theorem lines_eq (s : PkgState) : s.lines = s.pkgLines ++ [[]] := by
  have hlen : ((s.pkgLines.map (· ++ [newline])).flatten).length ≤ 2048 := by
    have hcount : s.pkgLines.length = 8 := List.length_mapIdx
    have hsum : ((s.pkgLines.map (· ++ [newline])).flatten).length ≤ (s.pkgLines.map (· ++ [newline])).length * 128 := by
      refine length_flatten_le fun l hl => ?_
      obtain ⟨line, hline, rfl⟩ := List.mem_map.mp hl
      obtain ⟨pkg, hpkg, b, rfl⟩ := mem_pkgLines hline
      have hshort := (packages_fine pkg hpkg).short b
      rw [List.length_append, List.length_singleton]
      omega
    rw [List.length_map] at hsum
    omega
  rw [lines, sysPkgList_eq, List.take_of_length_le hlen, splitOn_lines]
  intro line hline
  obtain ⟨pkg, hpkg, b, rfl⟩ := mem_pkgLines hline
  exact (packages_fine pkg hpkg).line b

theorem four_lt_length {line : List UInt8} (h : line ∈ s.pkgLines) : 4 < line.length := by
  obtain ⟨pkg, -, b, rfl⟩ := mem_pkgLines h
  have hmarker : (marker b).length = 4 := by cases b <;> rfl
  simp only [Package.line, List.length_append, hmarker, List.length_singleton]
  omega

/-- The marker is what `mukg upgrade` looks at. -/
theorem installedLines_eq (s : PkgState) :
    s.pkgLines.filter (fun line => [0x5B, 0x2A, 0x5D].isPrefixOf line) = s.installedLines := by
  have hmarker : ∀ (b : Bool) (pkg : Package), ([0x5B, 0x2A, 0x5D] : List UInt8).isPrefixOf (pkg.line b) = b := by
    intro b pkg
    cases b <;> rfl
  rw [pkgLines, installedLines, List.mapIdx_eq_zipIdx_map, List.mapIdx_eq_zipIdx_map, List.filter_map, List.filter_map,
    List.map_map]
  simp only [Function.comp_def, hmarker]
  refine List.map_congr_left fun p hp => ?_
  rw [(List.mem_filter.mp hp).2]

theorem sysPkgInfo_eq (s : PkgState) (i : Nat) {pkg : Package} (max : Nat) {size : Nat} (hpkg : pkg ∈ packages)
    (hsize : size < 2 ^ 64) : ∃ digits, decimal digits = size ∧ (∀ d ∈ digits, 0x30 ≤ d ∧ d ≤ 0x39) ∧
      s.sysPkgInfo i pkg size max = some ((s.infoText i pkg digits).take max) := by
  obtain ⟨digits, hdigits, hne, hdec, -, hdigit, -⟩ := fmtU64_spec hsize
  refine ⟨digits, hdec, hdigit, ?_⟩
  have hchunks := (packages_fine pkg hpkg).chunks false
  have hname : pkg.name ≠ [] := hchunks _ (by simp [Package.chunks])
  have hversion : pkg.version ≠ [] := hchunks _ (by simp [Package.chunks])
  have hdesc : pkg.desc ≠ [] := hchunks _ (by simp [Package.chunks])
  have hdeps : pkg.deps = [] := by
    have hall : packages.all (·.deps.isEmpty) = true := by decide +kernel
    exact List.isEmpty_iff.mp (List.all_eq_true.mp hall pkg hpkg)
  have hstatus : (textBytes (if s.isInstalled i then "installed" else "not installed")) ≠ [] := by
    cases s.isInstalled i <;> decide
  rw [sysPkgInfo, hdigits, Option.bind_eq_bind, Option.bind_some, hdeps, if_pos rfl]
  dsimp only
  rw [foldl_putChunks (Nat.zero_le _)]
  · simp [infoText]
  · have hlabels : ∀ label ∈ ["Name:    ", "Version: ", "Desc:    ", "Size:    ", " bytes\n", "Deps:    (none)\n",
        "Status:  "], textBytes label ≠ [] := by decide
    simp only [List.forall_mem_cons, List.not_mem_nil] at hlabels
    simp only [List.cons_append, List.nil_append, List.forall_mem_cons, List.not_mem_nil]
    grind

theorem listed (ht : s.Tells h) : s.Listed h := by
  refine ⟨ht, s.sysPkgList_eq, s.sysPkgInstalled_eq, ?_, ?_, fun i pkg size max => s.sysPkgInfo_eq i max, fun kw hkw => ?_⟩
  · rw [mukgList, lines_eq, List.filter_append, List.filter_eq_self.mpr fun line hline => ?_]
    · exact List.append_nil _
    · have hlen := four_lt_length hline
      exact bne_iff_ne.mpr fun hnil => by simp [hnil] at hlen
  · rw [mukgUpgrade, lines_eq, List.filter_append, installedLines_eq]
    exact List.append_nil _
  · have hlast : containsBytes [] kw = false := by
      rw [← Bool.not_eq_true, containsBytes_iff]
      exact fun hin => hkw (List.infix_nil.mp hin)
    rw [mukgSearch, lines_eq, List.filter_append, List.filter_singleton]
    simp only [List.length_nil, Nat.not_lt_zero, if_false, hlast, cond_false, List.append_nil]
    refine List.filter_congr fun line hline => ?_
    rw [if_pos (four_lt_length hline), Bool.eq_iff_iff, containsBytes_iff, decide_eq_true_iff]

end PkgState

/-- Whatever packages are installed and removed, by name: the listing shows
those as installed that were installed last, and the shell, which takes it
apart again, prints what it means to. -/
theorem packages_listed (hr : Runs PkgState.step free .boot h s) : s.Listed h := PkgState.listed (tells_of_runs hr)

theorem packages_listed_mupwd : ∃ h s, Runs PkgState.step free .boot h s ∧ s.Listed h ∧
    s.mukgUpgrade = [textBytes "[*] mupwd 0.1.0 - Print working directory (pwd)"] := by
  obtain ⟨h, s, hr, hs⟩ := Runs.of_exec PkgState.step free .boot
    [.install (some (textBytes "muls")), .install (some (textBytes "mupwd")), .remove (some (textBytes "muls"))]
    (fun _ s => s.installedLines == [textBytes "[*] mupwd 0.1.0 - Print working directory (pwd)"]) (by decide +kernel)
  have hl := packages_listed hr
  exact ⟨h, s, hr, hl, hl.mukgUpgrade.trans (beq_iff_eq.mp hs)⟩

end ChodOs
