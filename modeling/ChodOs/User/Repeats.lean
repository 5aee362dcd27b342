/-
How often `load_deps` loads a library (`dynlink.rs`). A library is kept under
its base name, but looked for under the name that a `DT_NEEDED` entry gives:
a name with a directory before it is never found, and loaded again.

The walk is first described by its names alone, without an end to the memory
and the slots: so that it can be asked if it ends.
-/
import ChodOs.User.InitOrder

namespace ChodOs

open Elf

/-- The names that are taken before the walk begins, those of the libraries that it has
loaded, and those of the entries that are still to be looked at. -/
structure DepNames where
  known : List String
  loaded : List String
  pending : List String

namespace LibProvider

/-- It has libraries of finitely many names. -/
def Finite (lib : LibProvider) : Prop := ∃ names : List String, ∀ n, (lib n).isSome → n ∈ names

/-- The file that an entry leads to, if it is one that can be loaded. -/
def fileOf (lib : LibProvider) (depName : String) : Option (List UInt8) :=
  (lib (baseName depName)).filter fun data => (Elf64.parse data).isSome

/-- One turn of the walk, with a name looked for among those loaded as `key` has it: the name
itself in `load_deps`. -/
def turn (lib : LibProvider) (key : String → String) (s : DepNames) : DepNames :=
  match s.pending with
  | [] => s
  | depName :: rest =>
    if depName ∈ s.known ∨ key depName ∈ s.loaded then { s with pending := rest }
    else
      match lib.fileOf depName with
      | none => { s with pending := rest }
      | some data => { s with
          loaded := s.loaded ++ [baseName depName]
          pending := (neededBy data).getD [] ++ rest }

/-- The first `n` turns. -/
def run (lib : LibProvider) (key : String → String) : Nat → DepNames → DepNames
  | 0, s => s
  | n + 1, s => lib.turn key (lib.run key n s)

/-- The walk of `load_deps` ends, and it loads at most one library of a base name. -/
structure LoadsOnce (lib : LibProvider) (s : DepNames) : Prop where
  ends : ∃ n, (lib.run id n s).pending = []
  once : ∀ n, (lib.run id n s).loaded.Nodup

/-- Where the walk that looks for base names comes to a name with a directory, it has not
loaded a library of its base name yet, or there is none to load. -/
def DirectoriesFirst (lib : LibProvider) (s : DepNames) : Prop :=
  ∀ n, ∀ depName ∈ (lib.run baseName n s).pending.head?, '/' ∈ depName.toList → depName ∉ s.known →
    baseName depName ∈ (lib.run baseName n s).loaded → lib.fileOf depName = none

variable {lib : LibProvider} {key : String → String} {s : DepNames} {names : List String} {n : Nat}

/-! ## One turn -/

@[simp] theorem turn_known : (lib.turn key s).known = s.known := by
  unfold turn
  split
  · rfl
  · split
    · rfl
    · split <;> rfl

@[simp] theorem run_known : (lib.run key n s).known = s.known := by
  induction n with
  | zero => rfl
  | succ n ih => rw [run, turn_known, ih]

/-- What is loaded has no directory in its name. -/
theorem turn_loaded (h : ∀ l ∈ s.loaded, '/' ∉ l.toList) : ∀ l ∈ (lib.turn key s).loaded, '/' ∉ l.toList := by
  intro l hl
  unfold turn at hl
  split at hl
  · exact h l hl
  · split at hl
    · exact h l hl
    · split at hl
      · exact h l hl
      · rcases List.mem_append.mp hl with hl | hl
        · exact h l hl
        · rw [List.mem_singleton.mp hl]
          exact baseName_no_slash _

theorem run_loaded (h : ∀ l ∈ s.loaded, '/' ∉ l.toList) : ∀ l ∈ (lib.run key n s).loaded, '/' ∉ l.toList := by
  induction n with
  | zero => exact h
  | succ n ih => exact turn_loaded ih

/-- A walk that looks for base names loads none of them twice. -/
theorem turn_nodup (h : s.loaded.Nodup) : (lib.turn baseName s).loaded.Nodup := by
  unfold turn
  split
  · exact h
  · split
    · exact h
    · next hnew =>
      split
      · exact h
      · rw [List.nodup_append]
        refine ⟨h, List.nodup_singleton _, fun a ha b hb => ?_⟩
        rw [List.mem_singleton.mp hb]
        exact fun he => hnew (.inr (he ▸ ha))

theorem run_nodup (h : s.loaded.Nodup) : (lib.run baseName n s).loaded.Nodup := by
  induction n with
  | zero => exact h
  | succ n ih => exact turn_nodup ih

/-! ## The walk by base names ends -/

/-- The names of libraries that are not loaded. -/
def missing (names loaded : List String) : List String := names.filter fun n => n ∉ loaded

theorem run_succ' : lib.run key (n + 1) s = lib.run key n (lib.turn key s) := by
  induction n with
  | zero => rfl
  | succ n ih => exact congrArg (lib.turn key) ih

/-- Each turn loads a library of a new name or takes a name off the list. -/
theorem turn_lt (hnames : ∀ n, (lib n).isSome → n ∈ names) (hpending : s.pending ≠ []) :
    Prod.Lex (· < ·) (· < ·)
      ((missing names (lib.turn baseName s).loaded).length, (lib.turn baseName s).pending.length)
      ((missing names s.loaded).length, s.pending.length) := by
  cases hs : s.pending with
  | nil => exact absurd hs hpending
  | cons depName rest =>
    have hdrop : Prod.Lex (· < ·) (· < ·) ((missing names s.loaded).length, rest.length)
        ((missing names s.loaded).length, (depName :: rest).length) := Prod.Lex.right _ (Nat.lt_succ_self _)
    simp only [turn, hs]
    split
    · exact hdrop
    · next hnew =>
      split
      · exact hdrop
      · next data hfile =>
        refine Prod.Lex.left _ _ ?_
        obtain ⟨hlib, -⟩ := Option.filter_eq_some_iff.mp hfile
        have hmem : baseName depName ∈ missing names s.loaded :=
          List.mem_filter.mpr ⟨hnames _ (Option.isSome_of_eq_some hlib), decide_eq_true fun h => hnew (.inr h)⟩
        have hfilter : missing names (s.loaded ++ [baseName depName]) =
            (missing names s.loaded).filter fun n => n ≠ baseName depName := by
          simp only [missing, List.filter_filter]
          refine List.filter_congr fun n _ => ?_
          simp [not_or, and_comm]
        rw [hfilter]
        refine List.length_filter_lt_length_iff_exists.mpr ⟨baseName depName, hmem, ?_⟩
        simp

theorem run_ends (hnames : ∀ n, (lib n).isSome → n ∈ names) (s : DepNames) :
    ∃ n, (lib.run baseName n s).pending = [] := by
  by_cases hpending : s.pending = []
  · exact ⟨0, hpending⟩
  · obtain ⟨n, hn⟩ := run_ends hnames (lib.turn baseName s)
    exact ⟨n + 1, by rwa [run_succ']⟩
termination_by ((missing names s.loaded).length, s.pending.length)
decreasing_by exact turn_lt hnames hpending

/-! ## The two walks -/

/-- They part only at a name with a directory whose library is loaded already. -/
theorem turn_id_eq (hbare : ∀ l ∈ s.loaded, '/' ∉ l.toList)
    (hfirst : ∀ depName ∈ s.pending.head?, '/' ∈ depName.toList → depName ∉ s.known →
      baseName depName ∈ s.loaded → lib.fileOf depName = none) :
    lib.turn id s = lib.turn baseName s := by
  cases hs : s.pending with
  | nil => simp only [turn, hs]
  | cons depName rest =>
    simp only [turn, hs, id_eq]
    by_cases hknown : depName ∈ s.known
    · rw [if_pos (.inl hknown), if_pos (.inl hknown)]
    by_cases hdir : '/' ∈ depName.toList
    · rw [if_neg (not_or.mpr ⟨hknown, fun hmem => hbare _ hmem hdir⟩)]
      by_cases hmem : baseName depName ∈ s.loaded
      · rw [if_pos (.inr hmem), hfirst depName (by rw [hs]; rfl) hdir hknown hmem]
      · rw [if_neg (not_or.mpr ⟨hknown, hmem⟩)]
    · rw [baseName_of_no_slash hdir]

/-- There it is loaded again. -/
theorem turn_id_repeats {depName : String} {rest : List String} {data : List UInt8}
    (hbare : ∀ l ∈ s.loaded, '/' ∉ l.toList) (hs : s.pending = depName :: rest) (hdir : '/' ∈ depName.toList)
    (hknown : depName ∉ s.known) (hmem : baseName depName ∈ s.loaded) (hfile : lib.fileOf depName = some data) :
    ¬(lib.turn id s).loaded.Nodup := by
  simp only [turn, hs, id_eq, if_neg (not_or.mpr ⟨hknown, fun hmem => hbare depName hmem hdir⟩), hfile]
  intro hnodup
  exact (List.nodup_append.mp hnodup).2.2 _ hmem _ (List.mem_singleton_self _) rfl

/-- As long as names with a directory come first, the walks go the same way. -/
theorem run_id_eq (hbare : ∀ l ∈ s.loaded, '/' ∉ l.toList) (h : lib.DirectoriesFirst s) :
    lib.run id n s = lib.run baseName n s := by
  induction n with
  | zero => rfl
  | succ n ih =>
    rw [run, run, ih]
    exact turn_id_eq (run_loaded hbare) (by rw [run_known]; exact h n)

theorem directoriesFirst_of_once (hbare : ∀ l ∈ s.loaded, '/' ∉ l.toList) (h : ∀ n, (lib.run id n s).loaded.Nodup) :
    lib.DirectoriesFirst s := by
  have hfirst : ∀ n, lib.run id n s = lib.run baseName n s → ∀ depName ∈ (lib.run baseName n s).pending.head?,
      '/' ∈ depName.toList → depName ∉ s.known → baseName depName ∈ (lib.run baseName n s).loaded →
      lib.fileOf depName = none := by
    intro n hsame depName hhead hdir hknown hmem
    cases hfile : lib.fileOf depName with
    | none => rfl
    | some data =>
      obtain ⟨rest, hs⟩ := List.head?_eq_some_iff.mp hhead
      have hnodup := h (n + 1)
      rw [run, hsame] at hnodup
      exact absurd hnodup (turn_id_repeats (run_loaded hbare) hs hdir (by rwa [run_known]) hmem hfile)
  have hsame : ∀ n, lib.run id n s = lib.run baseName n s := by
    intro n
    induction n with
    | zero => rfl
    | succ n ih =>
      rw [run, run, ih]
      exact turn_id_eq (run_loaded hbare) (by rw [run_known]; exact hfirst n ih)
  exact fun n => hfirst n (hsame n)

theorem loadsOnce_iff (hlib : lib.Finite) (hbare : ∀ l ∈ s.loaded, '/' ∉ l.toList) (hnodup : s.loaded.Nodup) :
    lib.LoadsOnce s ↔ lib.DirectoriesFirst s := by
  constructor
  · exact fun h => directoriesFirst_of_once hbare h.once
  · intro h
    obtain ⟨names, hnames⟩ := hlib
    obtain ⟨n, hn⟩ := run_ends hnames s
    refine ⟨⟨n, ?_⟩, fun n => ?_⟩
    · rwa [run_id_eq hbare h]
    · rw [run_id_eq hbare h]
      exact run_nodup hnodup

end LibProvider

/-! ## The walk of `load_deps` -/

namespace DynLinker

/-- The names at the beginning of the walk. -/
def depNames (d : DynLinker) (needed : List String) : DepNames := ⟨d.libs.map (·.name), [], needed⟩

/-- One turn of the loop of `load_deps`, with what is left of the loops that it was called from. -/
def turnDeps (lib : LibProvider) (s : DynLinker × Phys × List String) : Option (DynLinker × Phys × List String) :=
  match s.2.2 with
  | [] => none
  | depName :: rest => (loadDep lib s.1 s.2.1 depName).map fun r => (r.1, r.2.1, r.2.2 ++ rest)

/-- The first `n` turns, on a machine with its memory and slots. -/
def turns (lib : LibProvider) : Nat → DynLinker × Phys × List String → Option (DynLinker × Phys × List String)
  | 0, s => some s
  | n + 1, s => (turns lib n s).bind (turnDeps lib)

variable {lib : LibProvider} {d d' : DynLinker} {m m' : Phys} {needed : List String} {n : Nat}

/-- The state of the machine has the names of the walk. -/
def Has (d : DynLinker) (pending : List String) (s : DepNames) : Prop :=
  d.libs.map (·.name) = s.known ++ s.loaded ∧ pending = s.pending

theorem Has.any_iff {s : DepNames} {pending : List String} (h : d.Has pending s) (depName : String) :
    d.libs.any (·.name == depName) = true ↔ depName ∈ s.known ∨ depName ∈ s.loaded := by
  rw [← List.mem_append, ← h.1, List.any_eq_true, List.mem_map]
  simp only [beq_iff_eq]

theorem Has.turn {s : DepNames} {depName : String} {rest sub : List String} (h : d.Has (depName :: rest) s)
    (hdep : loadDep lib d m depName = some (d', m', sub)) : d'.Has (sub ++ rest) (lib.turn id s) := by
  have hany := h.any_iff depName
  obtain ⟨hnames, hpending⟩ := h
  simp only [LibProvider.turn, ← hpending, id_eq, LibProvider.fileOf]
  unfold loadDep at hdep
  split at hdep
  · next hseen =>
    cases hdep
    rw [if_pos (hany.mp hseen)]
    exact ⟨hnames, rfl⟩
  · next hseen =>
    rw [if_neg fun hmem => hseen (hany.mpr hmem)]
    cases hlib : lib (baseName depName) with
    | none =>
      simp only [hlib] at hdep
      cases hdep
      exact ⟨hnames, rfl⟩
    | some data =>
      simp only [hlib] at hdep
      obtain ⟨next, -, hdep⟩ := Option.bind_eq_some_iff.mp hdep
      obtain ⟨⟨l, m₁⟩, hso, hdep⟩ := Option.bind_eq_some_iff.mp hdep
      rcases Phys.loadSoAt_cases hso with ⟨rfl, -, hparse⟩ | ⟨l', _, _, _, rfl, hname, -, hneeded, hparse, -⟩
      · cases hdep
        simp only [Option.filter_some, hparse, Option.isSome_none, Bool.false_eq_true, if_false]
        exact ⟨hnames, rfl⟩
      · cases hdep
        simp only [Option.filter_some, hparse, Option.isSome_some, if_true, hneeded, Option.getD_some]
        refine ⟨?_, rfl⟩
        rw [push, List.map_append, hnames, List.append_assoc, List.map_singleton, hname]

theorem turnDeps_has {t t' : DynLinker × Phys × List String} {s : DepNames} (h : t.1.Has t.2.2 s)
    (hturn : turnDeps lib t = some t') : t'.1.Has t'.2.2 (lib.turn id s) := by
  unfold turnDeps at hturn
  split at hturn
  · cases hturn
  · next depName rest hrest =>
    obtain ⟨r, hdep, rfl⟩ := Option.map_eq_some_iff.mp hturn
    rw [hrest] at h
    exact h.turn hdep

theorem turns_has {t : DynLinker × Phys × List String} (h : turns lib n (d, m, needed) = some t) :
    t.1.Has t.2.2 (lib.run id n (d.depNames needed)) := by
  induction n generalizing t with
  | zero =>
    cases h
    exact ⟨(List.append_nil _).symm, rfl⟩
  | succ n ih =>
    obtain ⟨t₁, ht₁, h⟩ := Option.bind_eq_some_iff.mp h
    exact turnDeps_has (ih ht₁) h

theorem turns_succ' {t : DynLinker × Phys × List String} :
    turns lib (n + 1) t = (turnDeps lib t).bind (turns lib n) := by
  induction n with
  | zero => exact (Option.bind_fun_some _).symm
  | succ n ih =>
    rw [turns, ih, Option.bind_assoc]
    rfl

/-- The walk of `load_deps` is one of these. -/
theorem loadDeps_turns (h : loadDeps lib d m needed = some (d', m')) :
    ∃ n, turns lib n (d, m, needed) = some (d', m', []) := by
  induction d, m, needed using loadDeps.induct lib with
  | case1 d m =>
    rw [loadDeps] at h
    cases h
    exact ⟨0, rfl⟩
  | case2 d m depName rest hdep =>
    rw [loadDeps] at h
    split at h
    · cases h
    · next hdep' =>
      rw [hdep] at hdep'
      cases hdep'
  | case3 d m depName rest d₁ m₁ sub hdep ih =>
    rw [loadDeps] at h
    split at h
    · cases h
    · next hdep' =>
      rw [hdep] at hdep'
      cases hdep'
      obtain ⟨n, hn⟩ := ih h
      refine ⟨n + 1, ?_⟩
      have hturn : turnDeps lib (d, m, depName :: rest) = some (d₁, m₁, sub ++ rest) := by
        simp only [turnDeps, hdep, Option.map_some]
      rw [turns_succ', hturn]
      exact hn

/-- **The walk ends and loads each library once exactly if names with a directory come
first.** It is the one of `load_deps` on every machine. -/
theorem load_deps_once_iff (hlib : lib.Finite) (d : DynLinker) (needed : List String) :
    (∀ m d' m', loadDeps lib d m needed = some (d', m') → ∃ n, turns lib n (d, m, needed) = some (d', m', [])) ∧
      (∀ n m t, turns lib n (d, m, needed) = some t → t.1.Has t.2.2 (lib.run id n (d.depNames needed))) ∧
      (lib.LoadsOnce (d.depNames needed) ↔ lib.DirectoriesFirst (d.depNames needed)) :=
  ⟨fun _ _ _ => loadDeps_turns, fun _ _ _ => turns_has,
    LibProvider.loadsOnce_iff hlib (fun _ hl => absurd hl List.not_mem_nil) List.nodup_nil⟩

/-- Two libraries of one letter. -/
theorem load_deps_once_two : twoLibraries.Finite ∧
    (twoLibraries.LoadsOnce ((new 0).depNames ["b", "a"]) ↔
      twoLibraries.DirectoriesFirst ((new 0).depNames ["b", "a"])) := by
  have hlib : twoLibraries.Finite := by
    refine ⟨["a", "b"], fun n hn => ?_⟩
    unfold twoLibraries at hn
    split at hn
    · next h => exact h ▸ List.mem_cons_self
    · split at hn
      · next h => exact h ▸ List.mem_cons_of_mem _ List.mem_cons_self
      · cases hn
  exact ⟨hlib, (load_deps_once_iff hlib (new 0) ["b", "a"]).2.2⟩

end DynLinker

/-! ## A library that needs itself -/

/-- A file of two segments, with what is behind its dynamic entries, and some BSS. -/
def dynamicElf (elfType vaddr : Nat) (entries : List (Nat × Nat)) (rest : List UInt8) : List UInt8 :=
  let dynSize := 16 * (entries.length + 1)
  let size := 176 + dynSize + rest.length
  [0x7F, 0x45, 0x4C, 0x46, 2, 1, 1, 0] ++ ByteMem.leBytes 8 0 ++ ByteMem.leBytes 2 elfType ++ ByteMem.leBytes 2 0x3E ++
    ByteMem.leBytes 4 1 ++ ByteMem.leBytes 8 vaddr ++ ByteMem.leBytes 8 64 ++ ByteMem.leBytes 8 0 ++
    ByteMem.leBytes 4 0 ++ ByteMem.leBytes 2 64 ++ ByteMem.leBytes 2 56 ++ ByteMem.leBytes 2 2 ++ ByteMem.leBytes 6 0 ++
  -- `PT_LOAD` and `PT_DYNAMIC`
  ByteMem.leBytes 4 ptLoad ++ ByteMem.leBytes 4 6 ++ ByteMem.leBytes 8 0 ++ ByteMem.leBytes 8 vaddr ++
    ByteMem.leBytes 8 0 ++ ByteMem.leBytes 8 size ++ ByteMem.leBytes 8 (size + 256) ++ ByteMem.leBytes 8 0x1000 ++
  ByteMem.leBytes 4 ptDynamic ++ ByteMem.leBytes 4 6 ++ ByteMem.leBytes 8 176 ++ ByteMem.leBytes 8 (vaddr + 176) ++
    ByteMem.leBytes 8 0 ++ ByteMem.leBytes 8 dynSize ++ ByteMem.leBytes 8 dynSize ++ ByteMem.leBytes 8 1 ++
  entries.flatMap (fun e => ByteMem.leBytes 8 e.1 ++ ByteMem.leBytes 8 e.2) ++
    ByteMem.leBytes 8 0 ++ ByteMem.leBytes 8 0 ++ rest

/-- A library that needs `depName`. -/
def needingElf (depName : List UInt8) : List UInt8 := dynamicElf etDyn 0 [(1, 1), (5, 224)] (0 :: depName ++ [0])

/-- The library `a` needs `/a`. -/
def selfLibrary : LibProvider := fun libName => if libName = "a" then some (needingElf [0x2F, 0x61]) else none

theorem selfLibrary_needs : neededBy (needingElf [0x2F, 0x61]) = some ["/a"] := by decide +kernel

theorem baseName_slash_a : baseName "/a" = "a" := by
  rw [baseName, splitOn_slash]
  decide

theorem selfLibrary_turn {loaded : List String} {depName : String} (hdep : depName = "a" ∨ depName = "/a")
    (hnew : depName ∉ loaded) :
    selfLibrary.turn id ⟨[], loaded, [depName]⟩ = ⟨[], loaded ++ ["a"], ["/a"]⟩ := by
  have hbase : baseName depName = "a" := by
    rcases hdep with rfl | rfl
    · exact baseName_of_no_slash (by decide)
    · exact baseName_slash_a
  have hfile : selfLibrary.fileOf depName = some (needingElf [0x2F, 0x61]) := by
    rw [LibProvider.fileOf, hbase]
    decide +kernel
  simp [LibProvider.turn, hnew, hfile, selfLibrary_needs, hbase]

/-- Each turn loads it again. -/
theorem selfLibrary_run (n : Nat) : selfLibrary.run id (n + 1) ⟨[], [], ["a"]⟩ =
    ⟨[], List.replicate (n + 1) "a", ["/a"]⟩ := by
  induction n with
  | zero => exact selfLibrary_turn (.inl rfl) List.not_mem_nil
  | succ n ih =>
    rw [LibProvider.run, ih, selfLibrary_turn (.inr rfl), ← List.replicate_succ']
    intro hmem
    exact absurd (List.eq_of_mem_replicate hmem) (by decide)

theorem selfLibrary_turnDeps {d : DynLinker} {m m' : Phys} {l : SharedLib} {depName : String} {root : Nat} (slot : Nat)
    (hcr3 : d.cr3 = root) (hdep : depName = "a" ∨ depName = "/a")
    (hnew : d.libs.any (·.name == depName) = false) (hd : d.nextSlot = slot)
    (hslot : slot + soSlotSize < 2 ^ 64)
    (hso : m.loadSoAt "a" (needingElf [0x2F, 0x61]) root slot = some (some l, m')) (hneeded : l.needed = ["/a"]) :
    DynLinker.turnDeps selfLibrary (d, m, [depName]) =
      some ({ d with nextSlot := slot + soSlotSize }.push l (needingElf [0x2F, 0x61]), m', ["/a"]) := by
  have hbase : baseName depName = "a" := by
    rcases hdep with rfl | rfl
    · exact baseName_of_no_slash (by decide)
    · exact baseName_slash_a
  have hnext : addU64 slot soSlotSize = some (slot + soSlotSize) := if_pos hslot
  have hlib : selfLibrary "a" = some (needingElf [0x2F, 0x61]) := rfl
  simp only [DynLinker.turnDeps, DynLinker.loadDep, hnew, Bool.false_eq_true, if_false, hbase, hlib, hd, hcr3, hnext, hso,
    Option.bind_eq_bind, Option.bind_some, Option.map_some, hneeded, List.append_nil]

/-- The machine that has been started has the memory for two turns. -/
theorem selfLibrary_twice : ∃ root m t, DynLinker.turns selfLibrary 2 (.new root, m, ["a"]) = some t := by
  have hany : (bootMachine.allocUserPml4.any fun r =>
      (r.2.loadSoAt "a" (needingElf [0x2F, 0x61]) r.1 soLoadBase).any fun q => q.1.any fun l =>
        (q.2.loadSoAt "a" (needingElf [0x2F, 0x61]) r.1 (soLoadBase + soSlotSize)).any fun q' => q'.1.isSome) = true := by
    decide +kernel
  obtain ⟨⟨root, m⟩, -, hany⟩ := (Option.any_eq_true _ _).mp hany
  obtain ⟨⟨o, m₁⟩, hso, hany⟩ := (Option.any_eq_true _ _).mp hany
  obtain ⟨l, rfl, hany⟩ := (Option.any_eq_true _ _).mp hany
  obtain ⟨⟨o', m₂⟩, hso', hany⟩ := (Option.any_eq_true _ _).mp hany
  obtain ⟨l', rfl⟩ := Option.isSome_iff_exists.mp hany
  have hneeded : l.needed = ["/a"] := Option.some.inj ((DynLinker.neededBy_eq hso).symm.trans selfLibrary_needs)
  have hneeded' : l'.needed = ["/a"] := Option.some.inj ((DynLinker.neededBy_eq hso').symm.trans selfLibrary_needs)
  have hname : l.name = "a" := by
    rcases Phys.loadSoAt_cases hso with ⟨hl, -, -⟩ | ⟨_, _, _, _, hl, hname, -⟩
    · cases hl
    · exact Option.some.inj hl ▸ hname
  have hfirst := @selfLibrary_turnDeps (.new root) _ _ _ _ _ soLoadBase rfl (.inl rfl) rfl rfl (by decide) hso hneeded
  have hsecond := @selfLibrary_turnDeps ({ DynLinker.new root with nextSlot := soLoadBase + soSlotSize }.push l
    (needingElf [0x2F, 0x61])) _ _ _ _ root (soLoadBase + soSlotSize) rfl (.inr rfl)
    (by simp [DynLinker.push, DynLinker.new, hname]) rfl (by decide) hso' hneeded'
  have hturns : DynLinker.turns selfLibrary 2 (.new root, m, ["a"]) =
      (DynLinker.turnDeps selfLibrary (.new root, m, ["a"])).bind (DynLinker.turnDeps selfLibrary) := rfl
  rw [hfirst, Option.bind_some, hsecond] at hturns
  exact ⟨root, m, _, hturns⟩

/-- **Loaded as `a` and needed as `/a` it is loaded again**, and the walk does not end. -/
theorem load_deps_loads_again : ∃ lib d m needed t, LibProvider.Finite lib ∧
    DynLinker.turns lib 2 (d, m, needed) = some t ∧ t.1.libs.map (·.name) = ["a", "a"] ∧
    ∀ n, (lib.run id n (d.depNames needed)).pending ≠ [] := by
  obtain ⟨root, m, t, hturns⟩ := selfLibrary_twice
  refine ⟨selfLibrary, .new root, m, ["a"], t, ⟨["a"], fun n hn => ?_⟩, hturns, ?_, fun n => ?_⟩
  · unfold selfLibrary at hn
    split at hn
    · next h => exact h ▸ List.mem_cons_self
    · cases hn
  · have hhas := (DynLinker.turns_has hturns).1
    rw [DynLinker.depNames, DynLinker.new, List.map_nil, selfLibrary_run 1] at hhas
    exact hhas
  · cases n with
    | zero => exact List.cons_ne_nil _ _
    | succ n =>
      rw [DynLinker.depNames, DynLinker.new, List.map_nil, selfLibrary_run n]
      exact List.cons_ne_nil _ _

end ChodOs
