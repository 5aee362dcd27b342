/-
The shell, the programs it starts and what becomes of them in the kernel
(`mukernel_main` and `exec_pkg` of the shell, `sys_execve` in
`syscall/mod.rs`, `set_args` in `pkg.rs`, `after_user_demo` in
`interrupts/handlers.rs`). The name and the arguments go through two arrays on
the shell's stack, the request through `PENDING_PKG_IDX`.
-/
import ChodOs.Shell.Line
import ChodOs.Shell.Packages
import ChodOs.Shell.Words

namespace ChodOs

open StepSys

/-! ## The request -/

def slash : UInt8 := 0x2F

/-- `rsplit('/').next().unwrap_or(path)`. -/
def lastComponent (path : List UInt8) : List UInt8 := (path.splitOn slash).getLastD path

/-- `PKG_ARGS_BUF`, `PKG_ARGS_LEN`, `PENDING_PKG_IDX` and `PHASE`. -/
structure Launch where
  argsBuf : List UInt8
  argsLen : Nat
  pending : Int
  phase : UInt8

/-- What runs. -/
inductive Program
  | rawDemo
  | elfTest
  | shell
  | pkg (idx : Nat)
  deriving DecidableEq

/-- What `sys_execve` comes to: it returns, the image of a forked child is replaced, or the program is left. -/
inductive Execved
  | returned (ret : Int)
  | replaced (idx : Nat) (k : Launch)
  | left (idx : Nat) (k : Launch)

namespace Launch

def boot : Launch := ⟨List.replicate 512 0, 0, -1, 0⟩

/-- `set_args`. -/
def setArgs (k : Launch) (args : List UInt8) : Launch :=
  let len := min args.length 511
  { k with argsBuf := args.take len ++ [0] ++ k.argsBuf.drop (len + 1), argsLen := len }

/-- `get_args`. -/
def getArgs (k : Launch) : List UInt8 := k.argsBuf.take k.argsLen

/-- `sys_pkg_getargs`: what it copies. -/
def sysPkgGetargs (k : Launch) (max : Nat) : List UInt8 := k.getArgs.take (min k.getArgs.length max)

/-- `sys_execve`. -/
def sysExecve (k : Launch) (mem : ByteMem) (pathVaddr argvVaddr : Nat) (forkedChild : Bool) : Execved :=
  match readCstr mem pathVaddr with
  | none => .returned (-22)
  | some path =>
    match findPackage (lastComponent path) with
    | none => .returned (-2)
    | some idx =>
      let args := if argvVaddr ≠ 0 then (readCstr mem argvVaddr).getD [] else []
      let k := k.setArgs args
      if forkedChild then .replaced idx k else .left idx { k with pending := idx }

/-- `after_user_demo`: what it enters. `none`: there is no package of the index. -/
def afterUserDemo (k : Launch) : Option (Program × Launch) :=
  let phase := k.phase
  let k := { k with phase := k.phase + 1 }
  if phase = 0 then some (.elfTest, k)
  else if phase = 1 then some (((findPackage (textBytes "hello_dyn")).map .pkg).getD .shell, k)
  else
    let idx := k.pending
    let k := { k with phase := 2, pending := -1 }
    if 0 ≤ idx then (packages[idx.toNat]?).map fun _ => (.pkg idx.toNat, k) else some (.shell, k)

end Launch

/-! ## The shell -/

/-- The places of `name_buf` and `args_buf` on the shell's stack. -/
structure Frame where
  nameBuf : Nat
  argsBuf : Nat
  name_ne_zero : nameBuf ≠ 0
  args_ne_zero : argsBuf ≠ 0
  apart : nameBuf + 64 ≤ argsBuf ∨ argsBuf + 512 ≤ nameBuf

/-- `exec_pkg`. -/
def execPkg (f : Frame) (mem : ByteMem) (k : Launch) (cmd : List UInt8) : Execved :=
  let (name, args) := splitFirstWord cmd
  let mem := (mem.write f.nameBuf (zeroed 64 name)).write f.argsBuf (zeroed 512 args)
  k.sysExecve mem f.nameBuf f.argsBuf false

/-- The branches of `mukernel_main`. -/
inductive Command
  | nothing
  | help
  | prints (out : List UInt8)
  | mukg (args : List UInt8)
  | ls (path : List UInt8)
  | pwd
  | mkdir (path : List UInt8)
  | exec (cmd missing : List UInt8)
  | exit
  deriving DecidableEq

def startsWith (s : List UInt8) (lead : String) : Bool := (textBytes lead).isPrefixOf s

def command (cmd : List UInt8) : Command :=
  if cmd = [] then .nothing
  else if cmd = textBytes "help" then .help
  else if cmd = textBytes "uname" then .prints (textBytes "MuKernel 0.1.0-alpha x86_64 (ALPHA-16)\n")
  else if cmd = textBytes "whoami" then .prints (textBytes "root\n")
  else if cmd = textBytes "echo" || startsWith cmd "echo " then
    .prints ((if 5 < cmd.length then cmd.drop 5 else []) ++ [newline])
  else if cmd = textBytes "mukg" || startsWith cmd "mukg " then .mukg (if 5 < cmd.length then cmd.drop 5 else [])
  else if cmd = textBytes "ls" || startsWith cmd "ls " then .ls (if 3 < cmd.length then trim (cmd.drop 3) else [])
  else if cmd = textBytes "pwd" then .pwd
  else if cmd = textBytes "mkdir" || startsWith cmd "mkdir " then
    .mkdir (if 6 < cmd.length then trim (cmd.drop 6) else [])
  else if cmd = textBytes "cat" || startsWith cmd "cat " then
    let args := if 4 < cmd.length then trim (cmd.drop 4) else []
    if args ≠ [] then .exec (textBytes "mucat " ++ args.take 263) []
    else .prints (textBytes "cat: missing file operand\n")
  else if cmd = textBytes "exit" || cmd = textBytes "quit" then .exit
  else .exec cmd (textBytes "mukernel: " ++ cmd ++ textBytes ": command not found\n")

/-- The branches of `cmd_mukg`. -/
inductive Mukg
  | list
  | info (pkg : List UInt8)
  | install (pkg : List UInt8)
  | remove (pkg : List UInt8)
  | installed
  | run (rest : List UInt8)
  | upgrade
  | search (kw : List UInt8)
  | help
  | unknown
  deriving DecidableEq

def mukgCommand (args : List UInt8) : Mukg :=
  let args := trim args
  if args = [] || args = textBytes "list" then .list
  else if startsWith args "info " then .info (trim (args.drop 5))
  else if startsWith args "install " then .install (trim (args.drop 8))
  else if startsWith args "remove " then .remove (trim (args.drop 7))
  else if args = textBytes "installed" then .installed
  else if startsWith args "run " then .run (trim (args.drop 4))
  else if args = textBytes "upgrade" then .upgrade
  else if args = textBytes "search" || startsWith args "search " then
    .search (if 7 < args.length then trim (args.drop 7) else [])
  else if args = textBytes "help" then .help
  else .unknown

/-! ## The session -/

/-- What the shell and the other programs work on. -/
structure Desk where
  launch : Launch
  pkgs : PkgState
  buf : List UInt8
  program : Program

inductive DeskOp
  /-- The shell reads a line. -/
  | typed (mem : ByteMem) (keys : List UInt8)
  /-- `sys_execve` of another program. -/
  | execve (mem : ByteMem) (pathVaddr argvVaddr : Nat) (forkedChild : Bool)
  | pkg (op : PkgOp)
  | getargs (max : Nat)
  /-- `sys_exit` of another program. -/
  | exit

inductive DeskEvent
  | line (cmd : List UInt8)
  | printed (out : List UInt8)
  | pkg (e : PkgEvent)
  /-- `sys_execve` has found its package and kept the arguments. -/
  | args (args : List UInt8)
  | gave (args : List UInt8)
  /-- A program was left, perhaps for a package it asked for, and the next one entered. -/
  | left (asked : Option Nat) (entered : Program)

namespace Desk

def boot : Desk := ⟨.boot, .boot, List.replicate lineMax 0, .rawDemo⟩

/-- The jump to `after_user_demo`. -/
def leave (d : Desk) (asked : Option Nat) : Option (List DeskEvent × Desk) :=
  d.launch.afterUserDemo.map fun (p, k) => ([.left asked p], { d with launch := k, program := p })

/-- What comes of an `sys_execve`. -/
def execved (d : Desk) (missing : List DeskEvent) : Execved → Option (List DeskEvent × Desk)
  | .returned _ => some (missing, d)
  | .replaced _ k => some ([.args k.getArgs], { d with launch := k })
  | .left idx k => ({ d with launch := k }.leave (some idx)).map fun (es, d) => (.args k.getArgs :: es, d)

/-- `sys_pkg_install` and `sys_pkg_remove`. -/
def pkgCall (d : Desk) (op : PkgOp) (out : List DeskEvent) : Option (List DeskEvent × Desk) :=
  (d.pkgs.step op).map fun (es, pkgs) => (es.map .pkg ++ out, { d with pkgs })

section Shell

-- The sizes of the images, and where the arrays of the shell are.
variable (size : Nat → UInt64) (f : Frame)

/-- A name as the kernel reads it. -/
def named (mem : ByteMem) (pkg : List UInt8) : Option (List UInt8) :=
  readCstr (mem.write f.nameBuf (zeroed 64 pkg)) f.nameBuf

/-- A text about a package. -/
def about (lead : String) (pkg : List UInt8) (trail : String) : List UInt8 := textBytes lead ++ pkg ++ textBytes trail

/-- `cmd_mukg`. -/
def cmdMukg (mem : ByteMem) (d : Desk) (args : List UInt8) : Option (List DeskEvent × Desk) :=
  match mukgCommand args with
  | .list =>
    let lines := (d.pkgs.mukgList.map fun line => textBytes "  " ++ line ++ [newline]).flatten
    some ([.printed (if d.pkgs.sysPkgList 2048 ≠ [] then
      textBytes "Available packages ([*]=installed  [ ]=not installed):\n" ++ lines
      else textBytes "No packages available.\n")], d)
  | .info pkg =>
    match (named f mem pkg).bind findPackage with
    | none => some ([.printed (about "[mukg] error: package '" pkg "' not found.\n")], d)
    | some idx => packages[idx]?.bind fun p => (d.pkgs.sysPkgInfo idx p (size idx).toNat 512).map fun out => ([.printed out], d)
  | .install pkg =>
    let ok := ((named f mem pkg).bind findPackage).isSome
    d.pkgCall (.install (named f mem pkg)) [.printed (about "[mukg] Installing " pkg "...\n" ++
      if ok then about "[mukg] Package '" pkg "' installed successfully.\n"
      else about "[mukg] error: package '" pkg "' not found in registry.\n")]
  | .remove pkg =>
    let ok := ((named f mem pkg).bind findPackage).isSome
    d.pkgCall (.remove (named f mem pkg)) [.printed (if ok then about "[mukg] Package '" pkg "' removed.\n"
      else about "[mukg] error: package '" pkg "' not found.\n")]
  | .installed => some ([.printed (d.pkgs.sysPkgInstalled 2048)], d)
  | .run rest =>
    d.execved [.printed (about "[mukg] error: package not found: " (splitFirstWord rest).1 "\n")]
      (execPkg f mem d.launch rest)
  | .upgrade =>
    let lines := (d.pkgs.mukgUpgrade.map fun line => about "  " line " (up to date)\n").flatten
    some ([.printed (textBytes "[mukg] Checking for upgrades...\n" ++ if d.pkgs.mukgUpgrade ≠ [] then lines
      else textBytes "[mukg] No packages installed. Use: mukg install <pkg>\n")], d)
  | .search kw =>
    let lines := ((d.pkgs.mukgSearch kw).map fun line => about "  " line "\n").flatten
    some ([.printed (if kw = [] then textBytes "Usage: mukg search <keyword>\n"
      else if d.pkgs.mukgSearch kw ≠ [] then textBytes "Search results:\n" ++ lines
      else about "[mukg] No packages matching '" kw "'.\n")], d)
  | .help => some ([], d)
  | .unknown => some ([.printed (textBytes "[mukg] unknown subcommand. Try: mukg help\n")], d)

/-- A turn of `mukernel_main` with what was read. -/
def answer (mem : ByteMem) (d : Desk) (cmd : List UInt8) : Option (List DeskEvent × Desk) :=
  match command cmd with
  | .nothing | .help | .ls _ | .pwd | .mkdir _ => some ([], d)
  | .prints out => some ([.printed out], d)
  | .mukg args => cmdMukg size f mem d args
  | .exec cmd missing => d.execved [.printed missing] (execPkg f mem d.launch cmd)
  | .exit => (d.leave none).map fun (es, d) => (.printed (textBytes "Goodbye!\n") :: es, d)

def step (d : Desk) : DeskOp → Option (List DeskEvent × Desk)
  | .typed mem keys =>
    if d.program = .shell then
      match LineState.readLine ⟨d.buf, 0, []⟩ keys with
      | (s, some (n, [])) =>
        let cmd := trim (s.buf.take n)
        (answer size f mem { d with buf := s.buf } cmd).map fun (es, d) => (.line cmd :: es, d)
      | _ => none
    else none
  | .execve mem pathVaddr argvVaddr forkedChild =>
    if d.program ≠ .shell then d.execved [] (d.launch.sysExecve mem pathVaddr argvVaddr forkedChild) else none
  | .pkg op => if d.program ≠ .shell then d.pkgCall op [] else none
  | .getargs max => some ([.gave (d.launch.sysPkgGetargs max)], d)
  | .exit => if d.program ≠ .shell then d.leave none else none

end Shell

end Desk

variable {s cmd : List UInt8} {mem : ByteMem} {a i : Nat}

/-! ## The request in the kernel -/

/-- Bytes that a string of C can hold. -/
def Plain (bs : List UInt8) : Prop := ∀ b ∈ bs, b ≠ 0 ∧ b < 0x80

theorem zeroed_eq (size : Nat) (s : List UInt8) : ∃ zeros, zeroed (size + 1) s = s.take size ++ [0] ++ zeros := by
  refine ⟨List.replicate (size - min s.length size) 0, ?_⟩
  rw [zeroed, Nat.add_sub_cancel, List.append_assoc, List.singleton_append, ← List.replicate_succ,
    Nat.succ_sub (Nat.min_le_right _ _)]

theorem length_zeroed (size : Nat) (s : List UInt8) : (zeroed (size + 1) s).length = size + 1 := by
  rw [zeroed, Nat.add_sub_cancel, List.length_append, List.length_take, List.length_replicate]
  omega

theorem readCstr_zeroed {size : Nat} (ha : a ≠ 0) (hs : Plain s) (hm : mem.Holds a (zeroed (size + 1) s))
    (hsize : size < 4096) : readCstr mem a = some (s.take size) := by
  obtain ⟨zeros, hzeroed⟩ := zeroed_eq size s
  rw [hzeroed, ByteMem.holds_append] at hm
  refine readCstr_eq ha (fun h => (hs 0 (List.mem_of_mem_take h)).1 rfl) (fun b hb => (hs b (List.mem_of_mem_take hb)).2)
    hm.1 ?_
  exact Nat.lt_of_le_of_lt (List.length_take_le _ _) hsize

theorem getArgs_setArgs (k : Launch) (args : List UInt8) : (k.setArgs args).getArgs = args.take 511 := by
  rw [Launch.setArgs, Launch.getArgs]
  dsimp only
  rw [List.append_assoc, List.take_left' (by rw [List.length_take]; omega), Nat.min_comm, ← List.take_take, List.take_length]

/-- What is asked for is what was typed, as far as the arrays hold it. -/
theorem execPkg_eq (f : Frame) (mem : ByteMem) (k : Launch) {cmd : List UInt8} (hcmd : Plain cmd) :
    execPkg f mem k cmd =
      match findPackage (lastComponent ((splitFirstWord cmd).1.take 63)) with
      | none => .returned (-2)
      | some idx => .left idx { k.setArgs ((splitFirstWord cmd).2.take 511) with pending := idx } := by
  obtain ⟨hname, hargs, -⟩ := splitFirstWord_sub cmd
  rw [execPkg]
  generalize splitFirstWord cmd = w at *
  obtain ⟨name, args⟩ := w
  dsimp only at *
  have hheld : ((mem.write f.nameBuf (zeroed 64 name)).write f.argsBuf (zeroed 512 args)).Holds f.nameBuf (zeroed 64 name) := by
    refine ByteMem.holds_write.congr fun x hx hx' => ByteMem.write_outside ?_
    rw [length_zeroed] at hx' ⊢
    have hapart := f.apart
    omega
  rw [Launch.sysExecve, readCstr_zeroed f.name_ne_zero (fun b hb => hcmd b (hname b hb)) hheld (by decide)]
  dsimp only
  cases findPackage (lastComponent (name.take 63)) with
  | none => rfl
  | some idx =>
    dsimp only
    rw [if_pos f.args_ne_zero, readCstr_zeroed f.args_ne_zero (fun b hb => hcmd b (hargs b hb)) ByteMem.holds_write (by decide)]
    rfl

/-! ## After a program -/

/-- The exits in a history: what was asked for and what was entered. -/
def exits (h : List DeskEvent) : List (Option Nat × Program) :=
  h.filterMap fun | .left asked p => some (asked, p) | _ => none

def pkgEvents (h : List DeskEvent) : List PkgEvent := h.filterMap fun | .pkg e => some e | _ => none

/-- The arguments that were kept last. -/
def lastArgs (h : List DeskEvent) : List UInt8 :=
  (h.filterMap fun | .args args => some args | _ => none).getLastD []

/-- What was asked for last. -/
def lastAsked (past : List (Option Nat × Program)) : Option Nat := (past.filterMap (·.1)).getLast?

/-- The package that an exit owes: the one it asks for, and at the third exit
one that was asked for before. -/
def owed (past : List (Option Nat × Program)) (asked : Option Nat) : Option Nat :=
  if past.length ≤ 2 then asked.or (lastAsked past) else asked

/-- What is to be entered: the test, the dynamic program, and then what is owed or the shell. -/
def due (past : List (Option Nat × Program)) (asked : Option Nat) : Program :=
  match past.length with
  | 0 => .elfTest
  | 1 => .pkg 7
  | _ + 2 => ((owed past asked).map .pkg).getD .shell

variable {k k' : Launch} {past : List (Option Nat × Program)} {asked : Option Nat} {idx : Nat} {p : Program}

/-- What the kernel keeps after so many exits, with a request. -/
structure Launch.Owes (k : Launch) (past : List (Option Nat × Program)) (asked : Option Nat) : Prop where
  phase : k.phase.toNat = min past.length 2
  pending : k.pending = ((owed past asked).map Int.ofNat).getD (-1)
  known : ∀ i, owed past asked = some i → i < packages.length

theorem lastAsked_concat (past : List (Option Nat × Program)) (asked : Option Nat) (p : Program) :
    lastAsked (past ++ [(asked, p)]) = asked.or (lastAsked past) := by
  rw [lastAsked, lastAsked, List.filterMap_append]
  cases asked with
  | none => exact congrArg List.getLast? (List.append_nil _)
  | some i => exact List.getLast?_concat

/-- Nothing is owed after the shell or a package was entered as asked for, but what the first two exits put off. -/
theorem owed_concat (past : List (Option Nat × Program)) (asked : Option Nat) (p : Program) :
    owed (past ++ [(asked, p)]) none = if past.length ≤ 1 then owed past asked else none := by
  rw [owed, owed, List.length_append, List.length_singleton, lastAsked_concat, Option.none_or]
  by_cases h : past.length ≤ 1
  · rw [if_pos h, if_pos (by omega), if_pos (by omega)]
  · rw [if_neg h, if_neg (by omega)]

/-- An exit enters what is due, and then it is paid. -/
theorem Launch.Owes.afterUserDemo (hk : k.Owes past asked) : ∃ k', k.afterUserDemo = some (due past asked, k') ∧
    k'.Owes (past ++ [(asked, due past asked)]) none ∧ k'.getArgs = k.getArgs := by
  obtain ⟨hphase, hpending, hknown⟩ := hk
  have howed := owed_concat past asked (due past asked)
  have hlen : (past ++ [(asked, due past asked)]).length = past.length + 1 := by rw [List.length_append, List.length_singleton]
  rw [Launch.afterUserDemo]
  by_cases h0 : past.length = 0
  · have hzero : k.phase = 0 := UInt8.toNat_inj.mp (by rw [hphase, h0]; rfl)
    rw [if_pos (Nat.le_succ_of_le (Nat.le_of_eq h0))] at howed
    refine ⟨{ k with phase := k.phase + 1 }, by rw [if_pos hzero, due, h0], ⟨?_, ?_, ?_⟩, rfl⟩
    · rw [hlen, h0, hzero]
      rfl
    · rw [howed]
      exact hpending
    · rwa [howed]
  · by_cases h1 : past.length = 1
    · have hone : k.phase = 1 := UInt8.toNat_inj.mp (by rw [hphase, h1]; rfl)
      rw [if_pos (Nat.le_of_eq h1)] at howed
      have hdyn : findPackage (textBytes "hello_dyn") = some 7 := by decide +kernel
      refine ⟨{ k with phase := k.phase + 1 }, ?_, ⟨?_, ?_, ?_⟩, rfl⟩
      · rw [if_neg (by rw [hone]; decide), if_pos hone, hdyn, due, h1]
        rfl
      · rw [hlen, h1, hone]
        rfl
      · rw [howed]
        exact hpending
      · rwa [howed]
    · have htwo : k.phase = 2 := UInt8.toNat_inj.mp (by rw [hphase, Nat.min_eq_right (by omega)]; rfl)
      rw [if_neg (by omega)] at howed
      have hdue : due past asked = ((owed past asked).map .pkg).getD .shell := by
        rw [due]
        split <;> first | contradiction | rfl
      refine ⟨{ k with phase := 2, pending := -1 }, ?_, ⟨?_, ?_, ?_⟩, rfl⟩
      · rw [if_neg (by rw [htwo]; decide), if_neg (by rw [htwo]; decide), hdue]
        cases ho : owed past asked with
        | none =>
          rw [ho] at hpending
          dsimp only
          rw [if_neg (by rw [hpending]; decide)]
          rfl
        | some i =>
          have hi : k.pending = (i : Int) := by rw [hpending, ho]; rfl
          dsimp only
          rw [hi, if_pos (Int.natCast_nonneg i), Int.toNat_natCast, List.getElem?_eq_getElem (hknown i ho)]
          rfl
      · rw [hlen, Nat.min_eq_right (by omega)]
        rfl
      · rw [howed]
        rfl
      · rw [howed]
        exact nofun

theorem findPackage_lt_length {name : List UInt8} (hf : findPackage name = some i) : i < packages.length :=
  (List.findIdx?_eq_some_iff_findIdx_eq.mp hf).1

/-- What a `sys_execve` leaves behind. -/
def Execved.From (k : Launch) : Execved → Prop
  | .returned _ => True
  | .replaced _ k' => ∃ args, k' = k.setArgs args
  | .left idx k' => idx < packages.length ∧ ∃ args, k' = { k.setArgs args with pending := idx }

theorem sysExecve_from (k : Launch) (mem : ByteMem) (pathVaddr argvVaddr : Nat) (forkedChild : Bool) :
    (k.sysExecve mem pathVaddr argvVaddr forkedChild).From k := by
  rw [Launch.sysExecve]
  split
  · trivial
  · split
    · trivial
    · next hfind =>
      dsimp only
      cases forkedChild
      · exact ⟨findPackage_lt_length hfind, _, rfl⟩
      · exact ⟨_, rfl⟩

theorem owed_some (past : List (Option Nat × Program)) (idx : Nat) : owed past (some idx) = some idx := by
  rw [owed, Option.some_or, ite_self]

theorem Launch.Owes.ask (hk : k.Owes past none) (hidx : idx < packages.length) (args : List UInt8) :
    Launch.Owes { k.setArgs args with pending := idx } past (some idx) := by
  refine ⟨hk.phase, by rw [owed_some]; rfl, fun i hi => ?_⟩
  rw [owed_some, Option.some_inj] at hi
  exact hi ▸ hidx

/-! ## Runs -/

/-- An event that is only seen. -/
def DeskEvent.quiet : DeskEvent → Bool
  | .line _ | .printed _ | .gave _ => true
  | _ => false

variable {d d' : Desk} {h es : List DeskEvent} {size : Nat → UInt64} {f : Frame}

/-- What can come next: a whole line at the prompt, a call of another program. -/
def Desk.Enabled (d : Desk) : DeskOp → Prop
  | .typed _ keys => d.program = .shell ∧ ∃ s n, LineState.readLine ⟨d.buf, 0, []⟩ keys = (s, some (n, []))
  | .getargs _ => True
  | _ => d.program ≠ .shell

theorem Desk.enabled_of_step {op : DeskOp} (hs : Desk.step size f d op = some (es, d')) : d.Enabled op := by
  cases op with
  | typed mem keys =>
    rw [Desk.step] at hs
    split at hs
    · next hshell =>
      refine ⟨hshell, ?_⟩
      split at hs
      · next hline => exact ⟨_, _, hline⟩
      · cases hs
    · cases hs
  | getargs max => trivial
  | _ =>
    rw [Desk.step] at hs
    split at hs
    · assumption
    · cases hs

/-- What a session keeps: what is owed and what was entered, the arguments, the packages. -/
structure Desk.Kept (h : List DeskEvent) (d : Desk) : Prop where
  owes : d.launch.Owes (exits h) none
  due : ∀ past asked p rest, exits h = past ++ (asked, p) :: rest → p = due past asked
  program : d.program = ((exits h).getLast?.map (·.2)).getD .rawDemo
  args : d.launch.getArgs = lastArgs h
  pkgs : Runs PkgState.step free .boot (pkgEvents h) d.pkgs
  buf : d.buf.length = lineMax

theorem exits_append (h es : List DeskEvent) : exits (h ++ es) = exits h ++ exits es := List.filterMap_append

theorem pkgEvents_append (h es : List DeskEvent) : pkgEvents (h ++ es) = pkgEvents h ++ pkgEvents es := List.filterMap_append

theorem filterMap_none {α β : Type} {g : α → Option β} {l : List α} (h : ∀ x ∈ l, g x = none) : l.filterMap g = [] :=
  List.filterMap_eq_nil_iff.mpr h

/-- Events that add none of a kind. -/
theorem lastArgs_append {es : List DeskEvent} (hes : ∀ args, .args args ∉ es) : lastArgs (h ++ es) = lastArgs h := by
  rw [lastArgs, List.filterMap_append, filterMap_none (l := es), List.append_nil, lastArgs]
  intro e he
  cases e with
  | args args => exact absurd he (hes args)
  | _ => rfl

theorem LineState.length_turn (s : LineState) (c : UInt8) (h : 4 ≤ s.buf.length) :
    (s.turn c).1.buf.length = s.buf.length := by
  rw [LineState.turn]
  split_ifs <;> simp
  omega

theorem LineState.length_readLine (s : LineState) (keys : List UInt8) (h : 4 ≤ s.buf.length) :
    (s.readLine keys).1.buf.length = s.buf.length := by
  induction keys generalizing s with
  | nil => rfl
  | cons c keys ih =>
    have hturn := s.length_turn c h
    rw [LineState.readLine]
    generalize s.turn c = r at *
    obtain ⟨s', _ | n⟩ := r
    · exact (ih s' (hturn.symm ▸ h)).trans hturn
    · exact hturn

namespace Desk.Kept

theorem boot : Desk.boot.Kept [] where
  owes := ⟨rfl, rfl, nofun⟩
  due past asked p rest hsplit := absurd hsplit (by simp [exits])
  program := rfl
  args := rfl
  pkgs := .start
  buf := List.length_replicate

/-- What is only seen changes nothing. -/
theorem quiet (hd : d.Kept h) (hes : ∀ e ∈ es, e.quiet = true) : d.Kept (h ++ es) := by
  have hexits : exits es = [] := filterMap_none fun e he => by
    have hq := hes e he
    cases e <;> first | rfl | cases hq
  have hpkgs : pkgEvents es = [] := filterMap_none fun e he => by
    have hq := hes e he
    cases e <;> first | rfl | cases hq
  have hargs : ∀ args, .args args ∉ es := fun args he => absurd (hes _ he) Bool.false_ne_true
  obtain ⟨howes, hdue, hprog, hkept, hruns, hbuf⟩ := hd
  exact ⟨by rwa [exits_append, hexits, List.append_nil], by rwa [exits_append, hexits, List.append_nil],
    by rwa [exits_append, hexits, List.append_nil], by rwa [lastArgs_append hargs],
    by rwa [pkgEvents_append, hpkgs, List.append_nil], hbuf⟩

theorem withBuf (hd : d.Kept h) {buf : List UInt8} (hbuf : buf.length = lineMax) : Desk.Kept h { d with buf } :=
  ⟨hd.owes, hd.due, hd.program, hd.args, hd.pkgs, hbuf⟩

/-- An exit enters what is due. -/
theorem leave (hd : d.Kept h) (hk : k.Owes (exits h) asked) (hargs : k.getArgs = lastArgs h) :
    ∃ d', Desk.leave { d with launch := k } asked = some ([.left asked (ChodOs.due (exits h) asked)], d') ∧
      d'.Kept (h ++ [.left asked (ChodOs.due (exits h) asked)]) := by
  obtain ⟨k', hafter, howes, hkept⟩ := hk.afterUserDemo
  refine ⟨{ d with launch := k', program := ChodOs.due (exits h) asked }, by rw [Desk.leave, hafter]; rfl, ?_⟩
  have hexits : exits (h ++ [.left asked (ChodOs.due (exits h) asked)]) =
      exits h ++ [(asked, ChodOs.due (exits h) asked)] := exits_append _ _
  refine ⟨by rwa [hexits], fun past r p rest hsplit => ?_, by rw [hexits, List.getLast?_concat]; rfl, ?_, ?_, hd.buf⟩
  · rw [hexits] at hsplit
    rcases List.eq_nil_or_concat' rest with rfl | ⟨rest, e, rfl⟩
    · obtain ⟨rfl, he⟩ := List.append_inj' hsplit rfl
      cases he
      rfl
    · rw [← List.cons_append, ← List.append_assoc] at hsplit
      obtain ⟨hinit, -⟩ := List.append_inj' hsplit rfl
      exact hd.due _ _ _ _ hinit
  · rw [lastArgs_append (by simp)]
    exact hkept.trans hargs
  · rw [pkgEvents_append]
    exact (List.append_nil _).symm ▸ hd.pkgs

/-- New arguments are kept. -/
theorem newArgs (hd : d.Kept h) (hphase : k.phase = d.launch.phase) (hpending : k.pending = d.launch.pending) :
    Desk.Kept (h ++ [.args k.getArgs]) { d with launch := k } := by
  have hexits : exits (h ++ [.args k.getArgs]) = exits h := by
    rw [exits_append]
    exact List.append_nil _
  refine ⟨?_, by rw [hexits]; exact hd.due, by rw [hexits]; exact hd.program, ?_, ?_, hd.buf⟩
  · rw [hexits]
    exact ⟨by rw [hphase]; exact hd.owes.phase, by rw [hpending]; exact hd.owes.pending, hd.owes.known⟩
  · rw [lastArgs, List.filterMap_append]
    exact (List.getLastD_concat ..).symm
  · rw [pkgEvents_append]
    exact (List.append_nil _).symm ▸ hd.pkgs

/-- The call of a package's image, whatever comes of it. -/
theorem execved (hd : d.Kept h) {x : Execved} (hx : x.From d.launch) {missing : List DeskEvent}
    (hmissing : ∀ e ∈ missing, e.quiet = true) :
    ∃ es d', d.execved missing x = some (es, d') ∧ d'.Kept (h ++ es) := by
  cases x with
  | returned ret => exact ⟨missing, d, rfl, hd.quiet hmissing⟩
  | replaced idx k =>
    obtain ⟨args, rfl⟩ := hx
    exact ⟨_, _, rfl, hd.newArgs rfl rfl⟩
  | left idx k =>
    obtain ⟨hidx, args, rfl⟩ := hx
    have hd' : Desk.Kept _ { d with launch := d.launch.setArgs args } := hd.newArgs rfl rfl
    have hexits : exits (h ++ [.args (d.launch.setArgs args).getArgs]) = exits h := by
      rw [exits_append]
      exact List.append_nil _
    have howes : Launch.Owes { d.launch.setArgs args with pending := idx }
        (exits (h ++ [.args (d.launch.setArgs args).getArgs])) (some idx) := by
      rw [hexits]
      exact hd.owes.ask hidx args
    obtain ⟨d'', hleave, hkept⟩ := hd'.leave howes hd'.args
    refine ⟨_, d'', by rw [Desk.execved]; exact (congrArg _ hleave).trans rfl, ?_⟩
    rw [List.append_cons]
    exact hkept

theorem pkgCall (hd : d.Kept h) (op : PkgOp) {out : List DeskEvent} (hout : ∀ e ∈ out, e.quiet = true) :
    ∃ es d', d.pkgCall op out = some (es, d') ∧ d'.Kept (h ++ es) := by
  obtain ⟨es, pkgs, hstep⟩ : ∃ es pkgs, d.pkgs.step op = some (es, pkgs) := by
    cases op <;> exact ⟨_, _, rfl⟩
  refine ⟨_, _, by rw [Desk.pkgCall, hstep]; rfl, ?_⟩
  rw [← List.append_assoc]
  refine Desk.Kept.quiet ?_ hout
  have hexits : exits (es.map .pkg) = [] := filterMap_none fun e he => by
    obtain ⟨e, -, rfl⟩ := List.mem_map.mp he
    rfl
  have hevents : pkgEvents (es.map .pkg) = es := by
    rw [pkgEvents, List.filterMap_map]
    exact List.filterMap_some
  refine ⟨by rw [exits_append, hexits, List.append_nil]; exact hd.owes,
    by rw [exits_append, hexits, List.append_nil]; exact hd.due,
    by rw [exits_append, hexits, List.append_nil]; exact hd.program, ?_, ?_, hd.buf⟩
  · rw [lastArgs_append fun args he => by simp at he]
    exact hd.args
  · rw [pkgEvents_append, hevents]
    exact hd.pkgs.next trivial hstep

variable (size f) in
theorem cmdMukg (hd : d.Kept h) (mem : ByteMem) (args : List UInt8) :
    ∃ es d', Desk.cmdMukg size f mem d args = some (es, d') ∧ d'.Kept (h ++ es) := by
  have hquiet : ∀ out : List UInt8, ∀ e ∈ [DeskEvent.printed out], e.quiet = true := fun out e he => by
    rw [List.mem_singleton.mp he]
    rfl
  rw [Desk.cmdMukg]
  cases mukgCommand args with
  | info pkg =>
    dsimp only
    cases hfind : (Desk.named f mem pkg).bind findPackage with
    | none => exact ⟨_, _, rfl, hd.quiet (hquiet _)⟩
    | some idx =>
      have hlt : idx < packages.length := by
        obtain ⟨name, -, hname⟩ := Option.bind_eq_some_iff.mp hfind
        exact findPackage_lt_length hname
      obtain ⟨digits, -, -, hinfo⟩ :=
        d.pkgs.sysPkgInfo_eq idx 512 (List.getElem_mem hlt) (UInt64.toNat_lt (size idx))
      refine ⟨_, _, by dsimp only; rw [List.getElem?_eq_getElem hlt, Option.bind_some, hinfo]; rfl, hd.quiet (hquiet _)⟩
  | install pkg => exact hd.pkgCall _ (hquiet _)
  | remove pkg => exact hd.pkgCall _ (hquiet _)
  | run rest => exact hd.execved (sysExecve_from ..) (hquiet _)
  | help => exact ⟨_, _, rfl, hd.quiet nofun⟩
  | _ => exact ⟨_, _, rfl, hd.quiet (hquiet _)⟩

variable (size f) in
theorem answer (hd : d.Kept h) (mem : ByteMem) (cmd : List UInt8) :
    ∃ es d', Desk.answer size f mem d cmd = some (es, d') ∧ d'.Kept (h ++ es) := by
  have hquiet : ∀ out : List UInt8, ∀ e ∈ [DeskEvent.printed out], e.quiet = true := fun out e he => by
    rw [List.mem_singleton.mp he]
    rfl
  rw [Desk.answer]
  cases command cmd with
  | prints out => exact ⟨_, _, rfl, hd.quiet (hquiet _)⟩
  | mukg args => exact hd.cmdMukg size f mem args
  | exec cmd missing => exact hd.execved (sysExecve_from ..) (hquiet _)
  | exit =>
    have hd' := hd.quiet (hquiet (textBytes "Goodbye!\n"))
    obtain ⟨d', hleave, hkept⟩ := hd'.leave hd'.owes hd'.args
    refine ⟨_, d', by dsimp only; rw [show d = { d with launch := d.launch } from rfl, hleave]; rfl, ?_⟩
    rw [List.append_cons]
    exact hkept
  | _ => exact ⟨_, _, rfl, hd.quiet nofun⟩

variable (size f) in
/-- Whatever can be done next goes well. -/
theorem goes (hd : d.Kept h) {op : DeskOp} (hop : d.Enabled op) :
    ∃ es d', Desk.step size f d op = some (es, d') ∧ d'.Kept (h ++ es) := by
  cases op with
  | typed mem keys =>
    obtain ⟨hshell, s, n, hline⟩ := hop
    have hbuf : s.buf.length = lineMax := by
      have hlen := LineState.length_readLine ⟨d.buf, 0, []⟩ keys (by rw [hd.buf]; decide)
      rw [hline] at hlen
      exact hlen.trans hd.buf
    have hread : Desk.Kept (h ++ [.line (trim (s.buf.take n))]) { d with buf := s.buf } := (hd.withBuf hbuf).quiet fun e he => by
      rw [List.mem_singleton.mp he]
      rfl
    obtain ⟨es, d', hanswer, hkept⟩ := hread.answer size f mem (trim (s.buf.take n))
    refine ⟨_, d', by rw [Desk.step, if_pos hshell, hline]; dsimp only; rw [hanswer]; rfl, ?_⟩
    rw [List.append_cons]
    exact hkept
  | execve mem pathVaddr argvVaddr forkedChild =>
    have hother : d.program ≠ .shell := hop
    rw [Desk.step, if_pos hother]
    exact hd.execved (sysExecve_from _ mem pathVaddr argvVaddr forkedChild) nofun
  | pkg op =>
    have hother : d.program ≠ .shell := hop
    rw [Desk.step, if_pos hother]
    exact hd.pkgCall op nofun
  | getargs max =>
    refine ⟨_, _, rfl, hd.quiet fun e he => ?_⟩
    rw [List.mem_singleton.mp he]
    rfl
  | exit =>
    have hother : d.program ≠ .shell := hop
    rw [Desk.step, if_pos hother]
    obtain ⟨d', hleave, hkept⟩ := hd.leave hd.owes hd.args
    exact ⟨_, d', hleave, hkept⟩

end Desk.Kept

theorem Desk.kept_of_runs (hr : Runs (Desk.step size f) free .boot h d) : d.Kept h := by
  refine hr.invariant (fun h d => d.Kept h) Desk.Kept.boot fun ih _ hs => ?_
  obtain ⟨es', d'', hs', hkept⟩ := ih.goes size f (Desk.enabled_of_step hs)
  cases hs.symm.trans hs'
  exact hkept

end ChodOs
