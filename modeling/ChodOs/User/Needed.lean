/-
What needs what (`load_deps`). The entries of `DT_NEEDED` are followed depth
first from the executable, its interpreter before them: `load_exec` is a
walk in the sense of the library, with an entry skipped when its name is
that of a module already loaded.
-/
import ChodOs.Fs.Path
import ChodOs.Lib.DepthFirst
import ChodOs.User.Modules
import Mathlib.Data.String.Basic
import Mathlib.Logic.Relation

namespace ChodOs

open Elf DepthFirst Relation

/-! ## Names without a path -/

/-- What `splitOn` does from a place on: `l` is done with, `m` belongs to the part that `r` goes on with. -/
theorem splitOnAux_slash (l m r : List Char) (done : List String) :
    String.splitOnAux (.ofList (l ++ m ++ r)) "/" ⟨String.utf8Len l⟩ ⟨String.utf8Len l + String.utf8Len m⟩ 0 done =
      done.reverse ++ (List.splitOnPPrepend (· == '/') r m.reverse).map .ofList := by
  induction r generalizing l m done with
  | nil =>
    have hend : (⟨String.utf8Len l + String.utf8Len m⟩ : String.Pos.Raw).atEnd (.ofList (l ++ m ++ [])) = true := by
      simp [-String.ofList_append]
    rw [String.splitOnAux, if_pos hend, String.extract_of_valid]
    simp
  | cons c r ih =>
    have hpos : (⟨String.utf8Len l + String.utf8Len m⟩ : String.Pos.Raw) = ⟨String.utf8Len (l ++ m)⟩ := by simp
    have hend : ¬ (⟨String.utf8Len l + String.utf8Len m⟩ : String.Pos.Raw).atEnd (.ofList (l ++ m ++ c :: r)) = true := by
      have := Char.utf8Size_pos c
      simp [-String.ofList_append]
      omega
    have hget : (⟨String.utf8Len l + String.utf8Len m⟩ : String.Pos.Raw).get (.ofList (l ++ m ++ c :: r)) = c := by
      rw [hpos, String.get_of_valid]
      rfl
    have hnext : (⟨String.utf8Len l + String.utf8Len m⟩ : String.Pos.Raw).next (.ofList (l ++ m ++ c :: r)) =
        ⟨String.utf8Len (l ++ m) + c.utf8Size⟩ := by
      rw [hpos, String.next_of_valid]
    have hsep : (0 : String.Pos.Raw).get "/" = '/' := by decide
    rw [String.splitOnAux, if_neg hend, hget, hnext, hsep]
    by_cases hc : c = '/'
    · subst hc
      have hsepEnd : ((0 : String.Pos.Raw).next "/").atEnd "/" = true := by decide
      have hun : (⟨String.utf8Len (l ++ m) + Char.utf8Size '/'⟩ : String.Pos.Raw).unoffsetBy ((0 : String.Pos.Raw).next "/") =
          ⟨String.utf8Len l + String.utf8Len m⟩ := by
        have hsize : (0 : String.Pos.Raw).next "/" = ⟨Char.utf8Size '/'⟩ := by decide
        rw [hsize, hpos]
        simp [String.Pos.Raw.unoffsetBy]
      rw [if_pos (by decide)]
      dsimp only
      rw [if_pos hsepEnd, hun, String.extract_of_valid]
      simpa [List.splitOnPPrepend_cons_eq_if, Nat.add_assoc] using ih (l ++ m ++ ['/']) [] (.ofList m :: done)
    · have hun : (⟨String.utf8Len l + String.utf8Len m⟩ : String.Pos.Raw).unoffsetBy 0 =
          ⟨String.utf8Len l + String.utf8Len m⟩ := by simp
      rw [if_neg (by simpa using hc), hun, hnext]
      simpa [List.splitOnPPrepend_cons_eq_if, Nat.add_assoc, hc] using ih l (m ++ [c]) done

theorem splitOn_slash (name : String) : name.splitOn "/" = (name.toList.splitOn '/').map .ofList := by
  have h := splitOnAux_slash [] [] name.toList []
  simpa [String.splitOn, List.splitOn_eq_splitOnP] using h

/-- The part behind the last slash has none. -/
theorem baseName_no_slash (name : String) : '/' ∉ (baseName name).toList := by
  rw [baseName, splitOn_slash]
  have hlast : ((name.toList.splitOn '/').map String.ofList).getLastD name ∈ (name.toList.splitOn '/').map String.ofList := by
    rw [List.getLastD_eq_getLast?, List.getLast?_eq_some_getLast (by simp)]
    exact List.getLast_mem _
  obtain ⟨part, hpart, he⟩ := List.mem_map.mp hlast
  rw [← he, String.toList_ofList]
  cases hp : part with
  | nil => exact List.not_mem_nil
  | cons c rest =>
    have hmem : part ∈ parts name.toList := by
      rw [parts_eq, List.mem_filter]
      exact ⟨hpart, by rw [hp]; rfl⟩
    exact hp ▸ (mem_parts hmem).1

theorem baseName_of_no_slash {name : String} (h : '/' ∉ name.toList) : baseName name = name := by
  rw [baseName, splitOn_slash, List.splitOn_eq_singleton h]
  exact String.ofList_toList

@[simp] theorem baseName_baseName (name : String) : baseName (baseName name) = baseName name :=
  baseName_of_no_slash (baseName_no_slash name)
/-! ## What needs what -/

/-- The addresses in a file's `DT_INIT_ARRAY`, which count from where it is loaded. -/
def initArrayOf (data : List UInt8) : Option (List Nat) := do
  let elf ← Elf64.parse data
  Phys.readInitArray elf data 0 ((← elf.dynamicEntries).foldl DynInfo.add .empty)

namespace LibProvider

/-- The library `n` has a `DT_NEEDED` entry that names `n'`. -/
def Needs (lib : LibProvider) (n n' : String) : Prop :=
  ∃ data, lib n = some data ∧ ∃ depName ∈ (neededBy data).getD [], baseName depName = n'

/-- No library needs itself, directly or through others. -/
def Acyclic (lib : LibProvider) : Prop := ∀ n, ¬ TransGen lib.Needs n n

end LibProvider

/-- What is to be loaded: the executable, its interpreter, and what a `DT_NEEDED` entry names. -/
inductive Dep
  | exec
  | interp
  | named (depName : String)

namespace Dep

section program

variable (execData : List UInt8) (lib : LibProvider)

/-- The interpreter, if it is found. -/
def interpreter : Option LoadedModule := (Elf64.parse execData).bind fun elf => (interpreterOf elf lib).head?

/-- The file, if it is found and one that can be loaded. -/
def file : Dep → Option (List UInt8)
  | exec => some execData
  | interp => (interpreter execData lib).map (·.data)
  | named depName => (lib (baseName depName)).filter fun data => (Elf64.parse data).isSome

/-- The name that it is loaded under. -/
def name : Dep → String
  | exec => "(exec)"
  | interp => ((interpreter execData lib).map (·.name)).getD ""
  | named depName => baseName depName

/-- The names in its `DT_NEEDED` entries. -/
def needed (x : Dep) : List String := ((x.file execData lib).bind neededBy).getD []

/-- It has a function in `DT_INIT_ARRAY`. -/
def HasInits (x : Dep) : Prop := ((x.file execData lib).bind initArrayOf).getD [] ≠ []

/-- The name is taken before `load_deps` begins. -/
def Reserved (depName : String) : Prop :=
  depName = "(exec)" ∨ (interpreter execData lib).map (·.name) = some depName

instance (depName : String) : Decidable (Reserved execData lib depName) := inferInstanceAs (Decidable (_ ∨ _))

/-- What is to be loaded next if this one is loaded; `none` if there is no such file. -/
def follows : Dep → Option (List Dep)
  | exec => some (interp :: (needed execData lib exec).map named)
  | interp => (interpreter execData lib).map fun _ => []
  | named depName =>
    if Reserved execData lib depName then some []
    else (file execData lib (named depName)).map fun _ => (needed execData lib (named depName)).map named

/-- It may be skipped. Names with a slash are never those of a loaded module. -/
def Skippable : Dep → Prop
  | exec => False
  | interp => False
  | named depName => baseName depName = depName

end program

variable {execData : List UInt8} {lib : LibProvider}

theorem baseName_exec : baseName "(exec)" = "(exec)" := baseName_of_no_slash (by decide)

@[simp] theorem baseName_name (x : Dep) : baseName (x.name execData lib) = x.name execData lib := by
  have hnone : baseName "" = "" := baseName_of_no_slash (by decide)
  cases x with
  | exec => exact baseName_exec
  | interp =>
    rw [name, interpreter]
    cases hparse : Elf64.parse execData with
    | none => exact hnone
    | some elf =>
      rw [Option.bind_some, interpreterOf]
      split
      · next path _ =>
        dsimp only
        cases lib (baseName ((fromUtf8 path).getD "")) with
        | none => exact hnone
        | some data => exact baseName_baseName _
      · exact hnone
  | named depName => exact baseName_baseName _

theorem name_interp {x : LoadedModule} (h : interpreter execData lib = some x) : interp.name execData lib = x.name := by
  rw [name, h]
  rfl

/-- A name that is taken is the name of the executable, or of the interpreter if it is found. -/
theorem Reserved.cases {depName : String} (h : Reserved execData lib depName) :
    depName = exec.name execData lib ∨
      (interpreter execData lib).isSome ∧ depName = interp.name execData lib := by
  rcases h with rfl | h
  · exact .inl rfl
  · obtain ⟨x, hx, rfl⟩ := Option.map_eq_some_iff.mp h
    exact .inr ⟨by rw [hx]; rfl, (name_interp hx).symm⟩

theorem Reserved.skippable {depName : String} (h : Reserved execData lib depName) : (named depName).Skippable := by
  rcases h.cases with he | ⟨-, he⟩
  · rw [he]
    exact baseName_name _
  · rw [he]
    exact baseName_name _

theorem file_named {depName : String} {data : List UInt8} (h : (named depName).file execData lib = some data) :
    lib (baseName depName) = some data ∧ (Elf64.parse data).isSome :=
  Option.filter_eq_some_iff.mp h

/-- Below a library come libraries that it needs. -/
theorem needs_of_itemAt {depName : String} {r : Route} {x : Dep}
    (h : itemAt (follows execData lib) (named depName) r = some x) (hr : r ≠ []) :
    ∃ below, x = named below ∧ TransGen lib.Needs (baseName depName) (baseName below) := by
  induction r generalizing depName with
  | nil => exact absurd rfl hr
  | cons i r ih =>
    obtain ⟨l, hl, h⟩ := Option.bind_eq_some_iff.mp h
    obtain ⟨c, hc, h⟩ := Option.bind_eq_some_iff.mp h
    rw [follows] at hl
    split at hl
    · cases hl
      exact absurd hc nofun
    · obtain ⟨data, hdata, rfl⟩ := Option.map_eq_some_iff.mp hl
      obtain ⟨sub, hsub, rfl⟩ := List.mem_map.mp (List.mem_of_getElem? hc)
      have hneeds : lib.Needs (baseName depName) (baseName sub) := by
        rw [needed, hdata, Option.bind_some] at hsub
        exact ⟨data, (file_named hdata).1, sub, hsub, rfl⟩
      cases r with
      | nil =>
        obtain ⟨-, -, rfl⟩ := Option.map_eq_some_iff.mp h
        exact ⟨sub, rfl, .single hneeds⟩
      | cons j r =>
        obtain ⟨below, hx, hbelow⟩ := ih h nofun
        exact ⟨below, hx, .head hneeds hbelow⟩

theorem acyclic (h : lib.Acyclic) : DepthFirst.Acyclic (follows execData lib) (name execData lib) Skippable where
  same x y hskip hname hy := by
    cases x with
    | exec => cases hskip
    | interp => cases hskip
    | named depName =>
      rw [follows]
      split
      · exact .inl rfl
      · next hfree =>
        cases y with
        | exec => exact absurd (.inl (hskip.symm.trans hname.symm)) hfree
        | interp =>
          obtain ⟨l, hl⟩ := Option.isSome_iff_exists.mp hy
          obtain ⟨z, hz, -⟩ := Option.map_eq_some_iff.mp hl
          refine absurd (.inr ?_) hfree
          rw [hz, Option.map_some, ← name_interp hz, hname]
          exact congrArg some hskip
        | named other =>
          have hbase : baseName other = baseName depName := hname
          right
          rw [follows, if_neg fun hres => ?_, needed, needed, file, file, hbase]
          rw [← Reserved.skippable hres, hbase, hskip] at hres
          exact hfree hres
  noLoop y r x hr hx hskip hname := by
    cases x with
    | exec => cases hskip
    | interp => cases hskip
    | named depName =>
      have hbase : baseName depName = depName := hskip
      rw [follows]
      refine if_pos ?_
      cases y with
      | exec => exact .inl (hbase.symm.trans hname.symm)
      | interp =>
        cases r with
        | nil => exact absurd rfl hr
        | cons i r =>
          obtain ⟨l, hl, hx⟩ := Option.bind_eq_some_iff.mp hx
          obtain ⟨z, -, rfl⟩ := Option.map_eq_some_iff.mp hl
          exact absurd hx nofun
      | named other =>
        obtain ⟨below, he, hneeds⟩ := needs_of_itemAt hx hr
        cases he
        have hsame : baseName other = baseName depName := hname
        rw [hsame] at hneeds
        exact absurd hneeds (h _)

end Dep

/-! ## The walk of `load_deps` -/

/-- `l` is what has been loaded for `x`. -/
structure Dep.LoadedAs (execData : List UInt8) (lib : LibProvider) (x : Dep) (l : SharedLib) : Prop where
  name : l.name = x.name execData lib
  needed : l.needed = x.needed execData lib
  inits : l.initArray ≠ [] ↔ x.HasInits execData lib

namespace DynLinker

variable {execData : List UInt8} {lib : LibProvider} {d d' : DynLinker} {m m' : Phys}

theorem readInitArray_base {elf : Elf64} {data : List UInt8} {base : Nat} {dyn : DynInfo} {arr : List Nat}
    (h : Phys.readInitArray elf data base dyn = some arr) :
    ∃ addrs, Phys.readInitArray elf data 0 dyn = some addrs ∧ arr = addrs.map (base + ·) := by
  unfold Phys.readInitArray at h ⊢
  split at h
  · next hnone =>
    cases h
    exact ⟨[], if_pos hnone, rfl⟩
  · next harr =>
    rw [if_neg harr]
    obtain ⟨off, hoff, h⟩ := Option.bind_eq_some_iff.mp h
    rw [hoff, Option.bind_eq_bind, Option.bind_some]
    cases off with
    | none =>
      cases h
      exact ⟨[], rfl, rfl⟩
    | some foff =>
      refine Loop.filterMapM_map h fun i b hb => ?_
      simp only [Option.bind_eq_bind, Option.bind_eq_some_iff] at hb ⊢
      obtain ⟨off, hoff, stop, hstop, hb⟩ := hb
      split at hb
      · next hfits =>
        obtain ⟨addr, hread, hb⟩ := Option.bind_eq_some_iff.mp hb
        obtain ⟨va, hva, he⟩ := Option.bind_eq_some_iff.mp hb
        cases he
        obtain ⟨hlt, rfl⟩ := addU64_eq_some.mp hva
        refine ⟨some addr, ⟨off, hoff, stop, hstop, ?_⟩, rfl⟩
        rw [if_pos hfits, hread, Option.bind_some, addU64_eq_some.mpr ⟨by omega, Nat.zero_add _⟩]
        rfl
      · next hover =>
        cases hb
        exact ⟨none, ⟨off, hoff, stop, hstop, if_neg hover⟩, rfl⟩

theorem loadSoAt_loadedAs {x : Dep} {l : SharedLib} {data : List UInt8} {cr3 base : Nat}
    (hfile : x.file execData lib = some data) (h : m.loadSoAt (x.name execData lib) data cr3 base = some (some l, m')) :
    x.LoadedAs execData lib l := by
  have hneeded := neededBy_eq h
  cases hparse : Elf64.parse data with
  | none =>
    rw [Phys.loadSoAt, hparse] at h
    cases h
  | some elf =>
    simp only [Phys.loadSoAt, hparse, Option.bind_eq_bind, Option.bind_eq_some_iff, Option.some.injEq, Prod.exists,
      Prod.mk.injEq] at h
    obtain ⟨_, -, _, _, -, entries, hdyn, _, -, _, -, _, -, _, -, _, -, arr, harr, rfl, -⟩ := h
    obtain ⟨addrs, haddrs, rfl⟩ := readInitArray_base harr
    have hinit : initArrayOf data = some addrs := by
      rw [initArrayOf, hparse, Option.bind_eq_bind, Option.bind_some, hdyn, Option.bind_eq_bind, Option.bind_some]
      exact haddrs
    refine ⟨rfl, ?_, ?_⟩
    · rw [Dep.needed, hfile, Option.bind_some, hneeded]
      rfl
    · rw [Dep.HasInits, hfile, Option.bind_some, hinit, Option.getD_some, ne_eq, List.map_eq_nil_iff]

/-- The walk so far has loaded the modules of `d`; the names that are taken are among them. -/
structure Follows (execData : List UInt8) (lib : LibProvider) (done : List (Route × Dep)) (d : DynLinker) : Prop where
  libs : done.Forall₂ (fun x l => x.2.LoadedAs execData lib l) d.libs
  reserved : ∀ depName, Dep.Reserved execData lib depName → ∃ x ∈ done, x.2.name execData lib = depName

variable {done : List (Route × Dep)}

theorem Follows.push (h : Follows execData lib done d) {x : Dep} {l : SharedLib} (hl : x.LoadedAs execData lib l)
    (hlibs : d'.libs = d.libs ++ [l]) (p : Route) : Follows execData lib (done ++ [(p, x)]) d' where
  libs := by
    rw [hlibs]
    exact List.rel_append h.libs (.cons hl .nil)
  reserved depName hres := by
    obtain ⟨y, hy, hname⟩ := h.reserved depName hres
    exact ⟨y, List.mem_append_left _ hy, hname⟩

/-- `self.libs.iter().any(|l| &l.name == dep_name)`: what the walk skips. -/
theorem Follows.any_iff (h : Follows execData lib done d) (depName : String) :
    d.libs.any (·.name == depName) = true ↔ Skipped (Dep.name execData lib) Dep.Skippable done (.named depName) := by
  have hnames : d.libs.map (·.name) = done.map fun x => x.2.name execData lib := by
    rw [← List.forall₂_eq_eq_eq, List.forall₂_map_left_iff, List.forall₂_map_right_iff]
    exact h.libs.flip.imp fun _ _ hx => hx.name
  rw [List.any_eq_true]
  constructor
  · intro ⟨l, hl, he⟩
    have hmem : l.name ∈ done.map fun x => x.2.name execData lib := hnames ▸ List.mem_map_of_mem hl
    obtain ⟨x, hx, hname⟩ := List.mem_map.mp hmem
    have hdep : x.2.name execData lib = depName := hname.trans (eq_of_beq he)
    have hskip : baseName depName = depName := by rw [← hdep, Dep.baseName_name]
    exact ⟨hskip, x, hx, hdep.trans hskip.symm⟩
  · intro ⟨hskip, x, hx, hname⟩
    have hmem : depName ∈ d.libs.map (·.name) := by
      rw [hnames]
      exact List.mem_map.mpr ⟨x, hx, hname.trans hskip⟩
    obtain ⟨l, hl, he⟩ := List.mem_map.mp hmem
    exact ⟨l, hl, beq_iff_eq.mpr he⟩

/-- One turn of `load_deps` is one step of the walk. -/
theorem Follows.loadDep (h : Follows execData lib done d) {depName : String} {sub : List String}
    (hrun : loadDep lib d m depName = some (d', m', sub)) :
    (sub = [] ∧ d'.libs = d.libs ∧
      (Skipped (Dep.name execData lib) Dep.Skippable done (.named depName) ∨
        Dep.follows execData lib (.named depName) = none)) ∨
    (¬ Skipped (Dep.name execData lib) Dep.Skippable done (.named depName) ∧
      Dep.follows execData lib (.named depName) = some (sub.map .named) ∧
      ∃ l, (Dep.named depName).LoadedAs execData lib l ∧ d'.libs = d.libs ++ [l]) := by
  unfold DynLinker.loadDep at hrun
  split at hrun
  · next hany =>
    cases hrun
    exact .inl ⟨rfl, rfl, .inl ((h.any_iff depName).mp hany)⟩
  · next hany =>
    have hskip : ¬ Skipped (Dep.name execData lib) Dep.Skippable done (.named depName) :=
      fun hs => hany ((h.any_iff depName).mpr hs)
    have hfree : ¬ Dep.Reserved execData lib depName := by
      intro hres
      obtain ⟨x, hx, hname⟩ := h.reserved depName hres
      exact hskip ⟨hres.skippable, x, hx, hname.trans hres.skippable.symm⟩
    cases hlib : lib (baseName depName) with
    | none =>
      simp only [hlib] at hrun
      cases hrun
      refine .inl ⟨rfl, rfl, .inr ?_⟩
      rw [Dep.follows, if_neg hfree, Dep.file, hlib]
      rfl
    | some data =>
      simp only [hlib] at hrun
      obtain ⟨next, -, hrun⟩ := Option.bind_eq_some_iff.mp hrun
      obtain ⟨⟨l, m₁⟩, hso, hrun⟩ := Option.bind_eq_some_iff.mp hrun
      cases l with
      | none =>
        cases hrun
        rcases Phys.loadSoAt_cases hso with ⟨-, -, hparse⟩ | ⟨_, _, _, _, hl, -⟩
        · refine .inl ⟨rfl, rfl, .inr ?_⟩
          rw [Dep.follows, if_neg hfree, Dep.file, hlib, Option.filter_some_neg (by rw [hparse]; rfl)]
          rfl
        · cases hl
      | some l =>
        cases hrun
        rcases Phys.loadSoAt_cases hso with ⟨hl, -, -⟩ | ⟨_, elf, _, _, -, -, -, -, hparse, -, -⟩
        · cases hl
        · have hfile : (Dep.named depName).file execData lib = some data := by
            rw [Dep.file, hlib, Option.filter_some_pos (by rw [hparse]; rfl)]
          have hloaded := loadSoAt_loadedAs hfile hso
          refine .inr ⟨hskip, ?_, l, hloaded, rfl⟩
          rw [Dep.follows, if_neg hfree, hfile, Option.map_some, hloaded.needed]

/-- What the walk does in the end, from where it has come to. -/
def WalksTo (execData : List UInt8) (lib : LibProvider) (done todo : List (Route × Dep)) (d' : DynLinker) : Prop :=
  ∃ final, Walk (Dep.follows execData lib) (Dep.name execData lib) Dep.Skippable done todo final ∧
    final.Forall₂ (fun x l => x.2.LoadedAs execData lib l) d'.libs

theorem Follows.loadDeps {todo : List (Route × Dep)} {needed : List String} (h : Follows execData lib done d)
    (htodo : todo.map (·.2) = needed.map .named) (hrun : DynLinker.loadDeps lib d m needed = some (d', m')) :
    WalksTo execData lib done todo d' := by
  induction d, m, needed using DynLinker.loadDeps.induct lib generalizing done todo with
  | case1 d m =>
    rw [DynLinker.loadDeps] at hrun
    cases hrun
    rw [List.map_nil, List.map_eq_nil_iff] at htodo
    exact ⟨done, htodo ▸ .nil, h.libs⟩
  | case2 d m depName rest hdep =>
    rw [DynLinker.loadDeps] at hrun
    split at hrun
    · cases hrun
    · next hdep' =>
      rw [hdep] at hdep'
      cases hdep'
  | case3 d m depName rest d₁ m₁ sub hdep ih =>
    rw [DynLinker.loadDeps] at hrun
    split at hrun
    · cases hrun
    · next hdep' =>
      rw [hdep] at hdep'
      cases hdep'
      obtain ⟨⟨p, x⟩, todo, rfl, hx, hrest⟩ := List.map_eq_cons_iff.mp htodo
      obtain rfl : x = .named depName := hx
      rcases h.loadDep hdep with ⟨rfl, hlibs, hdrop⟩ | ⟨hskip, hfollows, l, hl, hlibs⟩
      · obtain ⟨final, hwalk, hfinal⟩ := ih ⟨hlibs ▸ h.libs, h.reserved⟩ hrest hrun
        refine ⟨final, ?_, hfinal⟩
        rcases hdrop with hskip | hnone
        · exact .skip hskip hwalk
        · exact .missing hnone hwalk
      · have hnext : (below p (sub.map Dep.named) ++ todo).map (·.2) = (sub ++ rest).map .named := by
          rw [List.map_append, map_snd_below, hrest, List.map_append]
        obtain ⟨final, hwalk, hfinal⟩ := ih (h.push hl hlibs p) hnext hrun
        exact ⟨final, .load hskip hfollows hwalk, hfinal⟩

theorem loadMain_loadedAs {elf : Elf64} (h : d.loadMain m elf execData = some (some d', m')) :
    ∃ l, Dep.exec.LoadedAs execData lib l ∧ d'.libs = d.libs ++ [l] := by
  obtain ⟨⟨l, m₁⟩, hso, h⟩ := Option.bind_eq_some_iff.mp h
  cases l with
  | none => cases h
  | some l =>
    simp only [Option.bind_eq_bind, Option.bind_eq_some_iff, Option.some.injEq, Prod.mk.injEq] at h
    obtain ⟨_, -, _, -, _, -, _, -, _, -, _, -, rfl, rfl⟩ := h
    exact ⟨l, loadSoAt_loadedAs rfl hso, rfl⟩

theorem loadInterp_loadedAs {elf : Elf64} (hparse : Elf64.parse execData = some elf)
    (h : d.loadInterp m elf lib = some (some d', m')) :
    (Dep.interpreter execData lib = none ∧ d'.libs = d.libs) ∨
      ((Dep.interpreter execData lib).isSome ∧ ∃ l, Dep.interp.LoadedAs execData lib l ∧ d'.libs = d.libs ++ [l]) := by
  obtain ⟨interp, hinterp, h⟩ := Option.bind_eq_some_iff.mp h
  have hfound : Dep.interpreter execData lib = (interpreterOf elf lib).head? := by
    rw [Dep.interpreter, hparse, Option.bind_some]
  rw [interpreterOf, hinterp] at hfound
  cases interp with
  | none =>
    cases h
    exact .inl ⟨hfound, rfl⟩
  | some path =>
    dsimp only at h hfound
    split at h
    · next hlib =>
      cases h
      rw [hlib] at hfound
      exact .inl ⟨hfound, rfl⟩
    · next data hlib =>
      rw [hlib] at hfound
      have hname : Dep.interp.name execData lib = baseName ((fromUtf8 path).getD "") := Dep.name_interp hfound
      have hfile : Dep.interp.file execData lib = some data := by
        rw [Dep.file, hfound]
        rfl
      split at h
      · cases h
      · obtain ⟨⟨l, m₁⟩, hso, h⟩ := Option.bind_eq_some_iff.mp h
        cases l with
        | none => cases h
        | some l =>
          simp only [Option.bind_eq_bind, Option.bind_eq_some_iff, Option.some.injEq, Prod.mk.injEq] at h
          obtain ⟨_, -, _, -, rfl, rfl⟩ := h
          rw [← hname] at hso
          exact .inr ⟨by rw [hfound]; rfl, l, loadSoAt_loadedAs hfile hso, rfl⟩

/-- `load_exec` walks from the executable, with its interpreter before the libraries. -/
theorem loadExec_walks {root entry : Nat} (h : (new root).loadExec m execData lib = some (some entry, d', m')) :
    WalksTo execData lib [] [([], .exec)] d' := by
  cases hparse : Elf64.parse execData with
  | none =>
    rw [loadExec, hparse] at h
    cases h
  | some elf =>
    rw [loadExec, hparse] at h
    obtain ⟨⟨o, m₁⟩, hmain, h⟩ := Option.bind_eq_some_iff.mp h
    cases o with
    | none => cases h
    | some d₁ =>
      obtain ⟨⟨o, m₂⟩, hinterp, h⟩ := Option.bind_eq_some_iff.mp h
      cases o with
      | none => cases h
      | some d₂ =>
        obtain ⟨⟨d₃, m₃⟩, hdeps, h⟩ := Option.bind_eq_some_iff.mp h
        cases h
        obtain ⟨l, hl, hlibs₁⟩ := @loadMain_loadedAs _ lib _ _ _ _ _ hmain
        obtain ⟨todo, htodo, hbelow⟩ : ∃ todo, todo.map (·.2) = l.needed.map Dep.named ∧
            below [] (Dep.interp :: (Dep.exec.needed execData lib).map .named) ++ [] = ([0], .interp) :: todo := by
          refine ⟨_, ?_, List.append_nil _⟩
          rw [hl.needed, List.map_map]
          exact List.zipIdx_map_fst 1 _
        suffices hrest : WalksTo execData lib [([], .exec)] (([0], .interp) :: todo) d' by
          obtain ⟨final, hwalk, hfinal⟩ := hrest
          have hskip : ¬ Skipped (Dep.name execData lib) Dep.Skippable [] .exec := fun hs => hs.1
          exact ⟨final, .load hskip rfl (hbelow ▸ hwalk), hfinal⟩
        have hfirst : List.Forall₂ (fun x l => x.2.LoadedAs execData lib l) [(([] : Route), Dep.exec)] [l] := .cons hl .nil
        rcases loadInterp_loadedAs hparse hinterp with ⟨hnone, hlibs₂⟩ | ⟨hsome, l', hl', hlibs₂⟩
        · rw [hlibs₁] at hlibs₂
          rw [hlibs₂] at hdeps
          have hat : Follows execData lib [([], .exec)] d₂ := by
            refine ⟨hlibs₂ ▸ hfirst, fun depName hres => ?_⟩
            rcases hres.cases with he | ⟨hsome, -⟩
            · exact ⟨_, List.mem_singleton_self _, he.symm⟩
            · rw [hnone] at hsome
              cases hsome
          obtain ⟨final, hwalk, hfinal⟩ := hat.loadDeps htodo hdeps
          exact ⟨final, .missing (by rw [Dep.follows, hnone]; rfl) hwalk, hfinal⟩
        · rw [hlibs₁] at hlibs₂
          rw [hlibs₂] at hdeps
          have hat : Follows execData lib [([], .exec), ([0], .interp)] d₂ := by
            refine ⟨hlibs₂ ▸ .cons hl (.cons hl' .nil), fun depName hres => ?_⟩
            rcases hres.cases with he | ⟨-, he⟩
            · exact ⟨_, List.mem_cons_self, he.symm⟩
            · exact ⟨_, List.mem_cons_of_mem _ (List.mem_singleton_self _), he.symm⟩
          obtain ⟨final, hwalk, hfinal⟩ := hat.loadDeps htodo hdeps
          obtain ⟨x, hx⟩ := Option.isSome_iff_exists.mp hsome
          have hskip : ¬ Skipped (Dep.name execData lib) Dep.Skippable [([], .exec)] .interp := fun hs => hs.1
          exact ⟨final, .load (l := []) hskip (by rw [Dep.follows, hx]; rfl) hwalk, hfinal⟩

end DynLinker

end ChodOs
