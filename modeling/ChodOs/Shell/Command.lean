/-
What a line at the prompt starts: the shell's branches by the words of the
line, and the program that runs after it, in any session.
-/
import ChodOs.Shell.Session

namespace ChodOs

open StepSys

variable {s line name args rest cmd : List UInt8} {n i : Nat} {k k' : Launch} {p : Program} {d d' : Desk} {h : List DeskEvent}
  {size : Nat → UInt64} {f : Frame}

/-! ## What a line starts -/

/-- The words that the shell knows itself: some only alone, some with what comes after them. -/
def Builtin (name args : List UInt8) : Prop :=
  name ∈ ["help", "uname", "whoami", "pwd", "exit", "quit"].map textBytes ∧ args = [] ∨
    name ∈ ["echo", "mukg", "ls", "mkdir", "cat"].map textBytes

instance (name args : List UInt8) : Decidable (Builtin name args) := inferInstanceAs (Decidable (_ ∨ _))

/-- A line asks for a program with arguments. -/
inductive Asks : List UInt8 → List UInt8 → List UInt8 → Prop
  | direct {line name args : List UInt8} : Words line name args → ¬ Builtin name args → Asks line name args
  | cat {line file : List UInt8} : Words line (textBytes "cat") file → file ≠ [] → Asks line (textBytes "mucat") file
  | run {line rest cmd name args : List UInt8} : Words line (textBytes "mukg") rest → Words rest (textBytes "run") cmd →
      Words cmd name args → Asks line name args

/-- What is handed to `exec_pkg`. -/
def execText : Command → Option (List UInt8)
  | .exec cmd _ => some cmd
  | .mukg args =>
    match mukgCommand args with
    | .run rest => some rest
    | _ => none
  | _ => none

/-- The branches of `command`, by the words. -/
def branch (name args cmd : List UInt8) : Command :=
  if name = textBytes "help" ∧ args = [] then .help
  else if name = textBytes "uname" ∧ args = [] then .prints (textBytes "MuKernel 0.1.0-alpha x86_64 (ALPHA-16)\n")
  else if name = textBytes "whoami" ∧ args = [] then .prints (textBytes "root\n")
  else if name = textBytes "echo" then .prints ((if 5 < cmd.length then cmd.drop 5 else []) ++ [newline])
  else if name = textBytes "mukg" then .mukg (if 5 < cmd.length then cmd.drop 5 else [])
  else if name = textBytes "ls" then .ls (if 3 < cmd.length then trim (cmd.drop 3) else [])
  else if name = textBytes "pwd" ∧ args = [] then .pwd
  else if name = textBytes "mkdir" then .mkdir (if 6 < cmd.length then trim (cmd.drop 6) else [])
  else if name = textBytes "cat" then
    let args := if 4 < cmd.length then trim (cmd.drop 4) else []
    if args ≠ [] then .exec (textBytes "mucat " ++ args.take 263) []
    else .prints (textBytes "cat: missing file operand\n")
  else if name = textBytes "exit" ∧ args = [] ∨ name = textBytes "quit" ∧ args = [] then .exit
  else .exec cmd (textBytes "mukernel: " ++ cmd ++ textBytes ": command not found\n")

namespace Words

/-- The line is its word alone, or there is something behind it. -/
theorem cases (hw : Words line name args) : space ∉ name ∧ (args = [] ∧ trim line = name ∨
    args ≠ [] ∧ ∃ sep, (∀ b ∈ sep, b = space) ∧ trim line = name ++ space :: (sep ++ args)) := by
  obtain ⟨sep, hline, -, hname, hsep, -, hsome⟩ := hw
  obtain ⟨-, -, -, -, -, -, hlast⟩ := id hline
  refine ⟨hname, ?_⟩
  rw [hline.trim]
  by_cases hargs : args = []
  · subst hargs
    obtain rfl : sep = [] := by
      refine Decidable.byContradiction fun h => hlast ?_
      rw [List.append_nil]
      exact getLast?_spaces hsep h
    exact .inl ⟨rfl, by rw [List.append_nil, List.append_nil]⟩
  · obtain ⟨b, sep, rfl⟩ := List.exists_cons_of_ne_nil (hsome hargs)
    obtain ⟨rfl, hsep'⟩ := List.forall_mem_cons.mp hsep
    exact .inr ⟨hargs, sep, hsep', by rw [List.append_assoc, List.cons_append]⟩

theorem trimmed (hw : Words line name args) : trim args = args := by
  have hsplit := (words_iff.mp hw).2
  rcases eq_word_or (trim line) with hword | ⟨word, rest, hline, hword⟩
  · rw [splitFirstWord_alone hword] at hsplit
    cases hsplit
    rfl
  · rw [hline, splitFirstWord_eq hword] at hsplit
    cases hsplit
    obtain ⟨-, -, -, -, -, hhead, hlast⟩ := padded_trim rest
    exact Padded.trim ⟨[], [], by rw [List.append_nil, List.nil_append], nofun, nofun, hhead, hlast⟩

/-- There is one way to read a line. -/
theorem unique (hw : Words line name args) {name' args' : List UInt8} :
    Words line name' args' ↔ name = name' ∧ args = args' := by
  rw [words_iff, (words_iff.mp hw).2, Prod.mk.injEq]
  exact and_iff_right (words_iff.mp hw).1

theorem drop_of_ne_nil (hw : Words line name args) (hn : n = name.length + 1) (hne : args ≠ []) :
    n < (trim line).length ∧ trim ((trim line).drop n) = args := by
  obtain ⟨-, ⟨hargs, -⟩ | ⟨-, sep, hsep, hline⟩⟩ := hw.cases
  · exact absurd hargs hne
  · have hpos := List.length_pos_iff.mpr hne
    rw [hline, hn]
    refine ⟨by simp only [List.length_append, List.length_cons]; omega, ?_⟩
    rw [List.append_cons, List.drop_left' (by rw [List.length_append, List.length_singleton]), trim_append hsep, hw.trimmed]

theorem drop_eq (hw : Words line name args) (hn : n = name.length + 1) :
    trim (if n < (trim line).length then (trim line).drop n else []) = args := by
  by_cases hargs : args = []
  · obtain ⟨-, ⟨-, hline⟩ | ⟨hne, -⟩⟩ := hw.cases
    · rw [hline, hn, if_neg (by omega), hargs]
      rfl
    · exact absurd hargs hne
  · obtain ⟨hlt, hdrop⟩ := hw.drop_of_ne_nil hn hargs
    rw [if_pos hlt, hdrop]

variable {w w' : String}

theorem eq_word (hw : Words line name args) (w : String) (hword : space ∉ textBytes w) :
    trim line = textBytes w ↔ name = textBytes w ∧ args = [] := by
  obtain ⟨-, ⟨hargs, hline⟩ | ⟨hargs, sep, hsep, hline⟩⟩ := hw.cases
  · rw [hline]
    exact ⟨fun h => ⟨h, hargs⟩, fun h => h.1⟩
  · refine ⟨fun h => absurd ?_ hword, fun h => absurd h.2 hargs⟩
    rw [← h, hline]
    exact List.mem_append_right _ (List.mem_cons_self ..)

theorem starts_word (hw : Words line name args) (w w' : String) (hword : space ∉ textBytes w)
    (hw' : textBytes w' = textBytes w ++ [space]) : startsWith (trim line) w' = true ↔ name = textBytes w ∧ args ≠ [] := by
  rw [startsWith, hw', List.isPrefixOf_iff_prefix]
  obtain ⟨hname, ⟨hargs, hline⟩ | ⟨hargs, sep, hsep, hline⟩⟩ := hw.cases
  · rw [hline]
    refine ⟨fun h => absurd ?_ hname, fun h => absurd hargs h.2⟩
    exact h.subset (List.mem_append_right _ (List.mem_singleton_self _))
  · rw [hline]
    constructor
    · rintro ⟨rest, h⟩
      rw [List.append_assoc, List.singleton_append] at h
      have hsplit : splitFirstWord (name ++ space :: (sep ++ args)) = _ := splitFirstWord_eq hname
      rw [← h, splitFirstWord_eq hword] at hsplit
      exact ⟨(congrArg Prod.fst hsplit).symm, hargs⟩
    · rintro ⟨rfl, -⟩
      exact ⟨sep ++ args, by rw [List.append_assoc, List.singleton_append]⟩

theorem or_word (hw : Words line name args) (w w' : String) (hword : space ∉ textBytes w)
    (hw' : textBytes w' = textBytes w ++ [space]) :
    (decide (trim line = textBytes w) || startsWith (trim line) w') = true ↔ name = textBytes w := by
  rw [Bool.or_eq_true, decide_eq_true_eq, hw.eq_word w hword, hw.starts_word w w' hword hw', ← and_or_left]
  exact and_iff_left (Decidable.em _)

/-- The branch that a line takes, by its words. -/
theorem command_eq (hw : Words line name args) : command (trim line) = branch name args (trim line) := by
  rw [command, if_neg (words_iff.mp hw).1, branch]
  simp only [hw.eq_word "help" (by decide), hw.eq_word "uname" (by decide),
    hw.eq_word "whoami" (by decide), hw.or_word "echo" "echo " (by decide) (by decide),
    hw.or_word "mukg" "mukg " (by decide) (by decide),
    hw.or_word "ls" "ls " (by decide) (by decide), hw.eq_word "pwd" (by decide),
    hw.or_word "mkdir" "mkdir " (by decide) (by decide),
    hw.or_word "cat" "cat " (by decide) (by decide), Bool.or_eq_true, decide_eq_true_eq,
    hw.eq_word "exit" (by decide), hw.eq_word "quit" (by decide)]

theorem length_le (hw : Words line name args) : args.length ≤ (trim line).length := by
  obtain ⟨-, ⟨rfl, -⟩ | ⟨-, sep, -, hline⟩⟩ := hw.cases
  · exact Nat.zero_le _
  · rw [hline, List.length_append, List.length_cons, List.length_append]
    omega

theorem trim_trim (line : List UInt8) : trim (trim line) = trim line := by
  obtain ⟨-, -, -, -, -, hhead, hlast⟩ := padded_trim line
  exact Padded.trim ⟨[], [], by rw [List.append_nil, List.nil_append], nofun, nofun, hhead, hlast⟩

end Words

theorem branch_direct {cmd : List UInt8} (h : ¬ Builtin name args) :
    execText (branch name args cmd) = some cmd := by
  simp only [Builtin, List.map_cons, List.map_nil, List.mem_cons, List.not_mem_nil, or_false, not_or, not_and_or] at h
  simp only [branch]
  grind [execText]

theorem branch_builtin {cmd : List UInt8} (h : Builtin name args) (hcat : name ≠ textBytes "cat")
    (hmukg : name ≠ textBytes "mukg") : execText (branch name args cmd) = none := by
  simp only [Builtin, List.map_cons, List.map_nil, List.mem_cons, List.not_mem_nil, or_false] at h
  simp only [branch]
  grind [execText]

theorem branch_mukg {cmd : List UInt8} :
    branch (textBytes "mukg") args cmd = .mukg (if 5 < cmd.length then cmd.drop 5 else []) := by
  rw [branch, if_neg fun h => absurd h.1 (by decide), if_neg fun h => absurd h.1 (by decide),
    if_neg fun h => absurd h.1 (by decide), if_neg (by decide), if_pos rfl]

theorem branch_cat {cmd : List UInt8} (hargs : trim (if 4 < cmd.length then cmd.drop 4 else []) = args)
    (hlen : args.length ≤ 263) :
    execText (branch (textBytes "cat") args cmd) = if args = [] then none else some (textBytes "mucat " ++ args) := by
  have hfile : (if 4 < cmd.length then trim (cmd.drop 4) else []) = args := by
    rw [← hargs]
    split <;> rfl
  rw [branch, if_neg fun h => absurd h.1 (by decide), if_neg fun h => absurd h.1 (by decide),
    if_neg fun h => absurd h.1 (by decide), if_neg (by decide), if_neg (by decide), if_neg (by decide),
    if_neg fun h => absurd h.1 (by decide), if_neg (by decide), if_pos rfl]
  dsimp only
  rw [hfile, List.take_of_length_le hlen]
  by_cases hnil : args = []
  · rw [if_neg (not_not.mpr hnil), if_pos hnil]
    rfl
  · rw [if_pos hnil, if_neg hnil]
    rfl

theorem mukg_run_iff {cmd : List UInt8} : mukgCommand rest = .run cmd ↔ Words rest (textBytes "run") cmd ∧ cmd ≠ [] := by
  by_cases hne : trim rest = []
  · refine ⟨fun h => ?_, fun h => absurd hne (words_iff.mp h.1).1⟩
    simp [mukgCommand, hne] at h
  · have hw : Words rest (splitFirstWord (trim rest)).1 (splitFirstWord (trim rest)).2 := words_iff.mpr ⟨hne, rfl⟩
    generalize (splitFirstWord (trim rest)).1 = name, (splitFirstWord (trim rest)).2 = args at hw
    have hcmd : name = textBytes "run" → args ≠ [] → trim ((trim rest).drop 4) = args := fun hname hargs =>
      (hw.drop_of_ne_nil (by rw [hname]; rfl) hargs).2
    rw [hw.unique]
    simp only [mukgCommand, hne, hw.eq_word "list" (by decide), hw.eq_word "installed" (by decide),
      hw.starts_word "info" "info " (by decide) (by decide),
      hw.starts_word "install" "install " (by decide) (by decide),
      hw.starts_word "remove" "remove " (by decide) (by decide),
      hw.starts_word "run" "run " (by decide) (by decide), Bool.or_eq_true, decide_eq_true_eq, false_or]
    by_cases hrun : name = textBytes "run" ∧ args ≠ []
    · obtain ⟨rfl, hargs⟩ := hrun
      rw [if_neg fun h => absurd h.1 (by decide), if_neg fun h => absurd h.1 (by decide),
        if_neg fun h => absurd h.1 (by decide), if_neg fun h => absurd h.1 (by decide),
        if_neg fun h => absurd h.1 (by decide), if_pos ⟨rfl, hargs⟩, hcmd rfl hargs, Mukg.run.injEq]
      exact ⟨fun h => ⟨⟨rfl, h⟩, h ▸ hargs⟩, fun h => h.1.2⟩
    · rw [if_neg hrun]
      refine ⟨fun h => ?_, fun ⟨⟨hname, hargs⟩, hc⟩ => absurd ⟨hname.symm ▸ rfl, hargs ▸ hc⟩ hrun⟩
      split_ifs at h

theorem words_trim : Words (trim line) name args ↔ Words line name args := by
  rw [words_iff, words_iff, Words.trim_trim]

theorem splitFirstWord_mucat (hw : Words line name args) :
    splitFirstWord (textBytes "mucat " ++ args) = (textBytes "mucat", args) := by
  have hlead : textBytes "mucat " = textBytes "mucat" ++ [space] := by decide
  rw [hlead, List.append_assoc, List.singleton_append, splitFirstWord_eq (by decide), hw.trimmed]

/-- The three ways to `exec_pkg`. -/
theorem execText_cases {text : List UInt8} (hlen : (trim line).length ≤ 255)
    (h : execText (command (trim line)) = some text) :
    (∃ name args, Words line name args ∧ ¬ Builtin name args ∧ text = trim line) ∨
      (∃ file, Words line (textBytes "cat") file ∧ file ≠ [] ∧ text = textBytes "mucat " ++ file) ∨
      ∃ rest, Words line (textBytes "mukg") rest ∧ Words rest (textBytes "run") text ∧ text ≠ [] := by
  by_cases hblank : trim line = []
  · rw [hblank] at h
    cases h
  have hw : Words line (splitFirstWord (trim line)).1 (splitFirstWord (trim line)).2 := words_iff.mpr ⟨hblank, rfl⟩
  generalize (splitFirstWord (trim line)).1 = word, (splitFirstWord (trim line)).2 = rest at hw
  rw [hw.command_eq] at h
  by_cases hb : Builtin word rest
  · by_cases hcat : word = textBytes "cat"
    · subst hcat
      have hshort := hw.length_le
      rw [branch_cat (hw.drop_eq rfl) (by omega)] at h
      split at h
      · cases h
      · next hfile => exact .inr (.inl ⟨rest, hw, hfile, (Option.some_inj.mp h).symm⟩)
    · by_cases hmukg : word = textBytes "mukg"
      · subst hmukg
        rw [branch_mukg, execText] at h
        split at h
        · next text' hrun =>
          obtain rfl := Option.some_inj.mp h
          rw [mukg_run_iff, ← words_trim, hw.drop_eq (n := 5) rfl] at hrun
          exact .inr (.inr ⟨rest, hw, hrun⟩)
        · cases h
      · rw [branch_builtin hb hcat hmukg] at h
        cases h
  · rw [branch_direct hb, Option.some_inj] at h
    exact .inl ⟨word, rest, hw, hb, h.symm⟩

/-- What is asked for is what `exec_pkg` gets. -/
theorem asks_iff (hlen : (trim line).length ≤ 255) : Asks line name args ↔
    ∃ cmd, execText (command (trim line)) = some cmd ∧ cmd ≠ [] ∧ splitFirstWord cmd = (name, args) := by
  constructor
  · intro h
    cases h with
    | direct hw hdirect =>
      exact ⟨trim line, by rw [hw.command_eq, branch_direct hdirect], words_iff.mp hw⟩
    | cat hw hfile =>
      refine ⟨textBytes "mucat " ++ args, ?_, List.append_ne_nil_of_left_ne_nil (by decide) _, splitFirstWord_mucat hw⟩
      have hshort := hw.length_le
      rw [hw.command_eq, branch_cat (hw.drop_eq rfl) (by omega), if_neg hfile]
    | run hw hrun hcmd =>
      rename_i rest cmd
      obtain ⟨hne, hsplit⟩ := words_iff.mp hcmd
      rw [hrun.trimmed] at hne hsplit
      refine ⟨cmd, ?_, hne, hsplit⟩
      have hmukg : mukgCommand (if 5 < (trim line).length then (trim line).drop 5 else []) = .run cmd := by
        rw [mukg_run_iff, ← words_trim, hw.drop_eq (n := 5) rfl]
        exact ⟨hrun, hne⟩
      rw [hw.command_eq, branch_mukg, execText, hmukg]
  · rintro ⟨cmd, hexec, hne, hsplit⟩
    rcases execText_cases hlen hexec with ⟨word, rest, hw, hb, rfl⟩ | ⟨file, hw, hfile, rfl⟩ | ⟨rest, hw, hrun, -⟩
    · rw [(words_iff.mp hw).2] at hsplit
      cases hsplit
      exact .direct hw hb
    · rw [splitFirstWord_mucat hw] at hsplit
      cases hsplit
      exact .cat hw hfile
    · exact .run hw hrun (words_iff.mpr (by rw [hrun.trimmed]; exact ⟨hne, hsplit⟩))

theorem Words.plain (hw : Words line name args) (h : Plain line) : Plain args := by
  have hsub := (splitFirstWord_sub (trim line)).2.1
  rw [(words_iff.mp hw).2] at hsub
  exact fun b hb => h b (mem_of_mem_trim (hsub b hb))

theorem plain_of_printable (h : ∀ b ∈ s, isPrintable b = true) : Plain s := by
  have hall : ∀ n < 256, isPrintable (UInt8.ofNat n) = true → UInt8.ofNat n ≠ 0 ∧ UInt8.ofNat n < 0x80 := by
    decide +kernel
  intro b hb
  have hbyte := hall b.toNat (UInt8.toNat_lt b)
  rw [UInt8.ofNat_toNat] at hbyte
  exact hbyte (h b hb)

/-- What is handed over fits the arrays. -/
theorem execText_fits {text : List UInt8} (hplain : Plain line) (hlen : (trim line).length ≤ 255)
    (h : execText (command (trim line)) = some text) : Plain text ∧ text.length ≤ 511 := by
  rcases execText_cases hlen h with ⟨word, rest, -, -, rfl⟩ | ⟨file, hw, -, rfl⟩ | ⟨rest, hw, hrun, -⟩
  · exact ⟨fun b hb => hplain b (mem_of_mem_trim hb), by omega⟩
  · have hshort := hw.length_le
    refine ⟨fun b hb => (List.mem_append.mp hb).elim (fun hb => ?_) (hw.plain hplain b), ?_⟩
    · exact plain_of_printable (List.all_eq_true.mp (by decide : (textBytes "mucat ").all isPrintable = true)) b hb
    · have hsix : (textBytes "mucat ").length = 6 := rfl
      rw [List.length_append, hsix]
      omega
  · have hshort := hw.length_le
    have hshort' := hrun.length_le
    have htrim := length_trim_le rest
    exact ⟨hrun.plain (hw.plain hplain), by omega⟩

theorem isPrintable_edited (keys : List UInt8) : ∀ b ∈ edited keys, isPrintable b = true := by
  induction keys using List.reverseRecOn with
  | nil => exact nofun
  | append_singleton keys c ih =>
    rw [edited_concat, editKey]
    split_ifs with herase hprint
    · exact fun b hb => ih b (List.mem_of_mem_dropLast hb)
    · exact fun b hb => (List.mem_append.mp hb).elim (ih b) fun hb => List.mem_singleton.mp hb ▸ hprint.1
    · exact ih

/-- The line that keys make is one that the arrays can hold. -/
theorem lineEnd_fits (keys : List UInt8) (c : UInt8) (hlen : (edited keys).length < lineMax) :
    Plain (lineEnd (edited keys) c).1 ∧ (trim (lineEnd (edited keys) c).1).length ≤ 255 := by
  suffices h : Plain (lineEnd (edited keys) c).1 ∧ (lineEnd (edited keys) c).1.length ≤ 255 from
    ⟨h.1, Nat.le_trans (length_trim_le _) h.2⟩
  rw [lineEnd]
  split_ifs
  · exact ⟨fun b hb => absurd hb List.not_mem_nil, Nat.zero_le _⟩
  · have hexit : ([0x65, 0x78, 0x69, 0x74] : List UInt8).all isPrintable = true := by decide
    exact ⟨plain_of_printable (List.all_eq_true.mp hexit), by decide⟩
  · exact ⟨plain_of_printable (isPrintable_edited keys), Nat.le_of_lt_succ hlen⟩

theorem Desk.execved_left {missing : List DeskEvent} (hafter : k.afterUserDemo = some (p, k')) :
    d.execved missing (.left idx k) =
      some ([.args k.getArgs, .left (some idx) p], { d with launch := k', program := p }) := by
  rw [Desk.execved, Desk.leave, hafter]
  rfl

/-- The shell has gone on, or left for the package of a text that was handed over. -/
def Desk.StartedBy (d : Desk) (text : Option (List UInt8)) : Prop :=
  (d.program = .shell ∨ ∃ i, d.program = .pkg i) ∧ ∀ i args, d.program = .pkg i ∧ d.launch.getArgs = args ↔
    ∃ cmd, text = some cmd ∧
      findPackage (lastComponent ((splitFirstWord cmd).1.take 63)) = some i ∧ (splitFirstWord cmd).2 = args

theorem Desk.StartedBy.none (hprog : d.program = .shell) : d.StartedBy none := by
  refine ⟨.inl hprog, fun i args => ?_⟩
  simp [hprog]

namespace Desk.Kept

/-- The shell runs when the third exit is past. -/
theorem two_lt_exits (hd : d.Kept h) (hshell : d.program = .shell) : 2 < (exits h).length := by
  rcases List.eq_nil_or_concat' (exits h) with hnil | ⟨past, ⟨r, p⟩, hsplit⟩
  · have hprog := hd.program
    rw [hnil, hshell] at hprog
    cases hprog
  · have hprog := hd.program
    rw [hsplit, List.getLast?_concat, hshell] at hprog
    have hdue := hd.due past r p [] hsplit
    rw [← show Program.shell = p from hprog, ChodOs.due] at hdue
    rw [hsplit, List.length_append, List.length_singleton]
    split at hdue
    · cases hdue
    · cases hdue
    · omega

/-- What the shell hands over is started, if there is such a package. -/
theorem starts (hd : d.Kept h) (hshell : d.program = .shell) (mem : ByteMem) {cmd : List UInt8} (hcmd : Plain cmd)
    (hlen : cmd.length ≤ 511) (missing : List DeskEvent) :
    ∃ es d', d.execved missing (execPkg f mem d.launch cmd) = some (es, d') ∧ d'.StartedBy (some cmd) := by
  rw [execPkg_eq f mem d.launch hcmd]
  cases hfind : findPackage (lastComponent ((splitFirstWord cmd).1.take 63)) with
  | none =>
    refine ⟨missing, d, rfl, .inl hshell, fun i args => ?_⟩
    simp [hshell, hfind]
  | some idx =>
    have hargs : (splitFirstWord cmd).2.length ≤ 511 := Nat.le_trans (splitFirstWord_sub cmd).2.2 hlen
    obtain ⟨k', hafter, -, hkept⟩ :=
      (hd.owes.ask (findPackage_lt_length hfind) ((splitFirstWord cmd).2.take 511)).afterUserDemo
    have hdue : ChodOs.due (exits h) (some idx) = .pkg idx := by
      have hpast := hd.two_lt_exits hshell
      rw [ChodOs.due, owed_some]
      split <;> first | omega | rfl
    rw [hdue] at hafter
    have hgot : k'.getArgs = (splitFirstWord cmd).2 := by
      refine hkept.trans ((getArgs_setArgs _ _).trans ?_)
      rw [List.take_take, Nat.min_self, List.take_of_length_le hargs]
    refine ⟨_, _, Desk.execved_left hafter, .inr ⟨idx, rfl⟩, fun i args => ?_⟩
    simp [hgot, hfind]

theorem cmdMukg_program {args : List UInt8} {mem : ByteMem} (hs : Desk.cmdMukg size f mem d args = some (es, d'))
    (hrun : ∀ rest, mukgCommand args ≠ .run rest) : d'.program = d.program := by
  rw [Desk.cmdMukg] at hs
  cases hmukg : mukgCommand args with
  | run rest => exact absurd hmukg (hrun rest)
  | info pkg =>
    rw [hmukg] at hs
    dsimp only at hs
    split at hs
    · cases hs
      rfl
    · obtain ⟨p, -, hp⟩ := Option.bind_eq_some_iff.mp hs
      obtain ⟨out, -, hout⟩ := Option.map_eq_some_iff.mp hp
      cases hout
      rfl
  | install pkg | remove pkg =>
    rw [hmukg] at hs
    obtain ⟨r, -, hr⟩ := Option.map_eq_some_iff.mp hs
    cases hr
    rfl
  | _ =>
    rw [hmukg] at hs
    cases hs
    rfl

variable (size f) in
/-- A turn of the shell starts what the line hands over, and nothing else. -/
theorem answers (hd : d.Kept h) (hshell : d.program = .shell) (mem : ByteMem) (hplain : Plain line)
    (hlen : (trim line).length ≤ 255) :
    ∃ es d', d.answer size f mem (trim line) = some (es, d') ∧ d'.StartedBy (execText (command (trim line))) := by
  have hfits : ∀ text, execText (command (trim line)) = some text → Plain text ∧ text.length ≤ 511 :=
    fun _ => execText_fits hplain hlen
  rw [Desk.answer]
  generalize command (trim line) = c at *
  cases c with
  | exec cmd missing =>
    obtain ⟨hcmd, hshort⟩ := hfits cmd rfl
    exact hd.starts hshell mem hcmd hshort _
  | mukg args =>
    by_cases hrun : ∃ rest, mukgCommand args = .run rest
    · obtain ⟨rest, hrest⟩ := hrun
      have htext : execText (.mukg args) = some rest := by rw [execText, hrest]
      obtain ⟨hcmd, hshort⟩ := hfits rest htext
      rw [htext]
      dsimp only
      rw [Desk.cmdMukg, hrest]
      exact hd.starts hshell mem hcmd hshort _
    · obtain ⟨es, d', hs, -⟩ := hd.cmdMukg size f mem args
      have hnone : execText (.mukg args) = none := by
        rw [execText]
        split
        · next hrest => exact absurd ⟨_, hrest⟩ hrun
        · rfl
      rw [hnone]
      exact ⟨es, d', hs, .none ((cmdMukg_program hs fun rest hrest => hrun ⟨rest, hrest⟩).trans hshell)⟩
  | exit =>
    obtain ⟨k', hafter, -⟩ := hd.owes.afterUserDemo
    have hdue : ChodOs.due (exits h) none = .shell := by
      have hpast := hd.two_lt_exits hshell
      rw [ChodOs.due, owed, if_neg (by omega)]
      split <;> first | omega | rfl
    rw [hdue] at hafter
    exact ⟨_, { d with launch := k', program := .shell }, by dsimp only; rw [Desk.leave, hafter]; rfl, .none rfl⟩
  | _ => exact ⟨_, d, rfl, .none hshell⟩

end Desk.Kept

/-- A whole line is typed at the prompt, in any session. The package starts
that the line asks for, with the arguments typed: the first word, or `cat`, or
what is behind `mukg run`, with any spaces around; its name, of which 63 bytes
count, may be a path. No line starts anything else. -/
theorem typed_line_starts {keys : List UInt8} {c : UInt8} (mem : ByteMem) (hr : Runs (Desk.step size f) free .boot h d)
    (hshell : d.program = .shell) (hkeys : ∀ c ∈ keys, endsLine c = false) (hc : endsLine c = true) :
    ∃ es d', d.step size f (.typed mem (keys ++ [c])) = some (es, d') ∧
      (d'.program = .shell ∨ ∃ i, d'.program = .pkg i) ∧ ∀ i args, d'.program = .pkg i ∧ d'.launch.getArgs = args ↔
        ∃ name, Asks (lineEnd (edited keys) c).1 name args ∧ findPackage (lastComponent (name.take 63)) = some i := by
  have hd := Desk.kept_of_runs hr
  obtain ⟨s, n, hread, hbuf, hline, hlen⟩ : ∃ s n, LineState.readLine ⟨d.buf, 0, []⟩ (keys ++ [c]) = (s, some (n, [])) ∧
      s.buf.length = lineMax ∧ s.buf.take n = (lineEnd (edited keys) c).1 ∧ (edited keys).length < lineMax := by
    have hstart : LineState.Holds ⟨d.buf, 0, []⟩ [] := ⟨hd.buf, rfl, by decide, rfl⟩
    have hblank : (Term.cleared.writeBytes []).Shows [] := Term.displays_writeBytes nofun
    obtain ⟨s', -, hrun, hheld, -⟩ := hstart.goesOn [] hkeys hblank [c]
    obtain ⟨n, hn, hline, -⟩ := hheld.ends hc
    have hsize := s'.length_turn c (by rw [hheld.size]; decide)
    refine ⟨(s'.turn c).1, n, ?_, hsize.trans hheld.size, hline, hheld.room⟩
    rw [hrun, LineState.readLine]
    generalize s'.turn c = r at hn
    obtain ⟨s'', _⟩ := r
    cases hn
    rfl
  obtain ⟨hplain, hshort⟩ := lineEnd_fits keys c hlen
  have hd' := hd.withBuf hbuf
  obtain ⟨es, d', hanswer, hprog, hiff⟩ := hd'.answers size f hshell mem hplain hshort
  refine ⟨_, d', by rw [Desk.step, if_pos hshell, hread]; dsimp only; rw [hline, hanswer]; rfl, hprog, fun i args => ?_⟩
  rw [hiff]
  constructor
  · rintro ⟨cmd, htext, hfind, rfl⟩
    refine ⟨(splitFirstWord cmd).1, (asks_iff hshort).mpr ⟨cmd, htext, ?_, rfl⟩, hfind⟩
    rintro rfl
    have hblank : findPackage (lastComponent ((splitFirstWord []).1.take 63)) = none := by decide +kernel
    cases hblank.symm.trans hfind
  · rintro ⟨name, hasks, hfind⟩
    obtain ⟨cmd, htext, -, hsplit⟩ := (asks_iff hshort).mp hasks
    exact ⟨cmd, htext, by rw [hsplit]; exact hfind, by rw [hsplit]⟩

/-- `cat` starts `mucat`. -/
theorem typed_line_starts_cat : ∃ size f h d es d', Runs (Desk.step size f) free .boot h d ∧
    d.step size f (.typed (fun _ => 0) (textBytes "cat  /etc/hosts" ++ [newline])) = some (es, d') ∧
    d'.program = .pkg 2 ∧ d'.launch.getArgs = textBytes "/etc/hosts" := by
  obtain ⟨h, d, hr, hd⟩ := Runs.of_exec (Desk.step (fun _ => 8192) ⟨0x1000, 0x2000, by decide, by decide, by decide⟩) free
    .boot [.exit, .exit, .exit] (fun _ d => d.program == .shell) (by decide +kernel)
  have hkeys : ∀ c ∈ textBytes "cat  /etc/hosts", endsLine c = false := by
    have hall : (textBytes "cat  /etc/hosts").all (fun c => !endsLine c) = true := by decide +kernel
    exact fun c hc => Bool.not_eq_true' _ ▸ List.all_eq_true.mp hall c hc
  obtain ⟨es, d', hs, -, hiff⟩ := typed_line_starts (fun _ => 0) hr (beq_iff_eq.mp hd) hkeys (c := newline) rfl
  have hwords : Words (lineEnd (edited (textBytes "cat  /etc/hosts")) newline).1 (textBytes "cat") (textBytes "/etc/hosts") :=
    words_iff.mpr (by decide +kernel)
  obtain ⟨hprog, hargs⟩ := (hiff 2 (textBytes "/etc/hosts")).mpr
    ⟨textBytes "mucat", .cat hwords (by decide), by decide +kernel⟩
  exact ⟨_, _, h, d, es, d', hr, hs, hprog, hargs⟩

end ChodOs
