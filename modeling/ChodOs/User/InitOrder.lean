/-
In which order initialisers run (`collect_init_arrays`): the modules are
loaded depth first, what is loaded already is skipped, and they are
initialised in the reverse of that order. This is right for a tree, and
wrong where a library is loaded for one module and needed by another that
comes later.
-/
import ChodOs.User.Needed

namespace ChodOs

open Elf DepthFirst Relation

/-! ## The initialisers -/

namespace DynLinker

/-- `collect_init_arrays`. -/
def collectInitArrays (d : DynLinker) : List Nat := d.libs.reverse.flatMap (·.initArray)

/-- The same, each address with the module that it is of. -/
def initCalls (d : DynLinker) : List (Nat × Nat) :=
  d.libs.zipIdx.reverse.flatMap fun x => x.1.initArray.map fun addr => (x.2, addr)

/-- Module `i` has a `DT_NEEDED` entry that names module `j`. -/
def Needs (d : DynLinker) (i j : Nat) : Prop :=
  ∃ l l', d.libs[i]? = some l ∧ d.libs[j]? = some l' ∧ ∃ depName ∈ l.needed, baseName depName = l'.name

/-- The list has each module's initialisers in their order, once each, and behind those of what it needs. -/
structure InitInOrder (d : DynLinker) : Prop where
  list : d.initCalls.map (·.2) = d.collectInitArrays
  own : ∀ i l, d.libs[i]? = some l → (d.initCalls.filter (·.1 == i)).map (·.2) = l.initArray
  after : ∀ (a b : Nat) (c c' : Nat × Nat), d.initCalls[a]? = some c → d.initCalls[b]? = some c' →
    TransGen d.Needs c.1 c'.1 → b < a

variable {d : DynLinker} {i j : Nat}

theorem map_initCalls : d.initCalls.map (·.2) = d.collectInitArrays := by
  rw [initCalls, collectInitArrays, List.map_flatMap]
  have hlibs : d.libs.reverse = d.libs.zipIdx.reverse.map (·.1) := by
    rw [List.map_reverse, List.zipIdx_map_fst]
  rw [hlibs, List.flatMap_map]
  refine congrArg (List.flatMap · _) (funext fun x => ?_)
  rw [List.map_map]
  exact List.map_id _

theorem mem_initCalls {c : Nat × Nat} : c ∈ d.initCalls ↔ ∃ l, d.libs[c.1]? = some l ∧ c.2 ∈ l.initArray := by
  simp only [initCalls, List.mem_flatMap, List.mem_reverse, List.mem_map]
  constructor
  · intro h
    obtain ⟨x, hx, addr, haddr, rfl⟩ := h
    exact ⟨x.1, List.mem_zipIdx_iff_getElem?.mp hx, haddr⟩
  · intro ⟨l, hl, haddr⟩
    exact ⟨(l, c.1), List.mem_zipIdx_iff_getElem?.mpr hl, c.2, haddr, rfl⟩

/-- The modules loaded last come first. -/
theorem initCalls_sorted : d.initCalls.Pairwise fun c c' => c'.1 ≤ c.1 := by
  rw [initCalls, List.pairwise_flatMap]
  constructor
  · intro x _
    rw [List.pairwise_map]
    exact List.pairwise_of_forall fun _ _ => Nat.le_refl _
  · rw [List.pairwise_reverse]
    refine (zipIdx_sorted d.libs).imp fun {x y} hxy c hc c' hc' => ?_
    obtain ⟨_, -, rfl⟩ := List.mem_map.mp hc
    obtain ⟨_, -, rfl⟩ := List.mem_map.mp hc'
    exact hxy.le

theorem filter_initCalls {l : SharedLib} (h : d.libs[i]? = some l) :
    (d.initCalls.filter (·.1 == i)).map (·.2) = l.initArray := by
  obtain ⟨hi, hl⟩ := List.getElem?_eq_some_iff.mp h
  have hlen : (d.libs.take i).length = i := List.length_take_of_le hi.le
  have hsplit : d.libs = d.libs.take i ++ l :: d.libs.drop (i + 1) := by
    rw [← hl, List.getElem_cons_drop, List.take_append_drop]
  have hother : ∀ xs : List (SharedLib × Nat), (∀ x ∈ xs, x.2 ≠ i) →
      (xs.flatMap fun x => x.1.initArray.map fun addr => (x.2, addr)).filter (·.1 == i) = [] := by
    intro xs hxs
    rw [List.filter_eq_nil_iff]
    intro c hc
    obtain ⟨x, hx, hc⟩ := List.mem_flatMap.mp hc
    obtain ⟨_, -, rfl⟩ := List.mem_map.mp hc
    simpa using hxs x hx
  have hown : (l.initArray.map fun addr => (i, addr)).filter (·.1 == i) = l.initArray.map fun addr => (i, addr) := by
    rw [List.filter_eq_self]
    intro c hc
    obtain ⟨_, -, rfl⟩ := List.mem_map.mp hc
    exact beq_self_eq_true i
  rw [initCalls, hsplit, List.zipIdx_append, List.zipIdx_cons, hlen, Nat.zero_add, List.reverse_append, List.reverse_cons,
    List.flatMap_append, List.flatMap_append, List.flatMap_singleton, List.filter_append, List.filter_append, hother, hother,
    List.nil_append, List.append_nil, hown, List.map_map]
  · exact List.map_id _
  · intro x hx
    have := List.snd_lt_of_mem_zipIdx (List.mem_reverse.mp hx)
    omega
  · intro x hx
    have := List.le_snd_of_mem_zipIdx (List.mem_reverse.mp hx)
    omega

/-- The order of the modules decides. -/
theorem initInOrder_iff : d.InitInOrder ↔ ∀ i j l l', d.libs[i]? = some l → d.libs[j]? = some l' → TransGen d.Needs i j →
    l.initArray ≠ [] → l'.initArray ≠ [] → i < j := by
  have hsorted := List.pairwise_iff_getElem.mp (initCalls_sorted (d := d))
  constructor
  · intro h i j l l' hl hl' hneeds hinits hinits'
    obtain ⟨addr, haddr⟩ := List.exists_mem_of_ne_nil _ hinits
    obtain ⟨addr', haddr'⟩ := List.exists_mem_of_ne_nil _ hinits'
    obtain ⟨a, ha, hca⟩ := List.mem_iff_getElem.mp (mem_initCalls (c := (i, addr)).mpr ⟨l, hl, haddr⟩)
    obtain ⟨b, hb, hcb⟩ := List.mem_iff_getElem.mp (mem_initCalls (c := (j, addr')).mpr ⟨l', hl', haddr'⟩)
    have hat := List.getElem?_eq_some_iff.mpr ⟨ha, hca⟩
    have hle := hsorted b a hb ha (h.after a b _ _ hat (List.getElem?_eq_some_iff.mpr ⟨hb, hcb⟩) hneeds)
    rw [hca, hcb] at hle
    refine Nat.lt_of_le_of_ne hle fun he => ?_
    subst he
    exact Nat.lt_irrefl a (h.after a a _ _ hat hat hneeds)
  · intro h
    refine ⟨map_initCalls, fun i l hl => filter_initCalls hl, fun a b c c' hca hcb hneeds => ?_⟩
    obtain ⟨l, hl, hinit⟩ := mem_initCalls.mp (List.mem_of_getElem? hca)
    obtain ⟨l', hl', hinit'⟩ := mem_initCalls.mp (List.mem_of_getElem? hcb)
    have hlt := h c.1 c'.1 l l' hl hl' hneeds (List.ne_nil_of_mem hinit) (List.ne_nil_of_mem hinit')
    by_contra hge
    obtain ⟨ha, rfl⟩ := List.getElem?_eq_some_iff.mp hca
    obtain ⟨hb, rfl⟩ := List.getElem?_eq_some_iff.mp hcb
    rcases Nat.lt_or_eq_of_le (Nat.le_of_not_lt hge) with hab | rfl
    · exact absurd (hsorted a b ha hb hab) (Nat.not_le_of_lt hlt)
    · exact Nat.lt_irrefl _ hlt

end DynLinker

/-! ## The order of the chains -/

section chains

variable (execData : List UInt8) (lib : LibProvider)

/-- The chain of entries `p`, from the executable on, leads to `x`, and no entry on it is
skipped: none that could be names what a chain before it in dictionary order leads to. -/
def LoadedAt (p : Route) (x : Dep) : Prop :=
  itemAt (Dep.follows execData lib) .exec p = some x ∧
    Taken (Dep.follows execData lib) (Dep.name execData lib) Dep.Skippable .exec p

/-- What is loaded at `p` has a `DT_NEEDED` entry that names what is loaded at `q`. -/
def NeedsAt (p q : Route) : Prop :=
  ∃ x y, LoadedAt execData lib p x ∧ LoadedAt execData lib q y ∧
    ∃ depName ∈ x.needed execData lib, baseName depName = y.name execData lib

/-- The chain of what needs something comes before the chain of what it needs, if both have initialisers. -/
def ChainsInOrder : Prop :=
  ∀ p q x y, LoadedAt execData lib p x → LoadedAt execData lib q y → TransGen (NeedsAt execData lib) p q →
    x.HasInits execData lib → y.HasInits execData lib → p < q

end chains

namespace DynLinker

variable {execData : List UInt8} {lib : LibProvider} {d : DynLinker} {final : List (Route × Dep)} {i j : Nat}

/-- The chains of the modules, in the order in which they are loaded. -/
structure Chains (execData : List UInt8) (lib : LibProvider) (d : DynLinker) (final : List (Route × Dep)) : Prop where
  libs : final.Forall₂ (fun x l => x.2.LoadedAs execData lib l) d.libs
  sorted : final.Pairwise fun x y => x.1 < y.1
  mem : ∀ p x, (p, x) ∈ final ↔ LoadedAt execData lib p x

namespace Chains

variable (h : Chains execData lib d final)
include h

theorem lib_of {x : Route × Dep} (hx : final[i]? = some x) : ∃ l, d.libs[i]? = some l ∧ x.2.LoadedAs execData lib l := by
  obtain ⟨hi, rfl⟩ := List.getElem?_eq_some_iff.mp hx
  have hi' : i < d.libs.length := h.libs.length_eq ▸ hi
  exact ⟨d.libs[i], List.getElem?_eq_getElem hi', (List.forall₂_iff_get.mp h.libs).2 i hi hi'⟩

theorem of_lib {l : SharedLib} (hl : d.libs[i]? = some l) : ∃ x, final[i]? = some x ∧ x.2.LoadedAs execData lib l := by
  obtain ⟨hi, rfl⟩ := List.getElem?_eq_some_iff.mp hl
  have hi' : i < final.length := h.libs.length_eq ▸ hi
  exact ⟨final[i], List.getElem?_eq_getElem hi', (List.forall₂_iff_get.mp h.libs).2 i hi' hi⟩

theorem lt_iff {x y : Route × Dep} (hx : final[i]? = some x) (hy : final[j]? = some y) : x.1 < y.1 ↔ i < j := by
  have hsorted := List.pairwise_iff_getElem.mp h.sorted
  obtain ⟨hi, rfl⟩ := List.getElem?_eq_some_iff.mp hx
  obtain ⟨hj, rfl⟩ := List.getElem?_eq_some_iff.mp hy
  refine ⟨fun hlt => ?_, hsorted i j hi hj⟩
  rcases Nat.lt_trichotomy i j with hij | rfl | hji
  · exact hij
  · exact absurd hlt (lt_irrefl _)
  · exact absurd (hlt.trans (hsorted j i hj hi hji)) (lt_irrefl _)

theorem needs {x y : Route × Dep} (hx : final[i]? = some x) (hy : final[j]? = some y) (hneeds : d.Needs i j) :
    NeedsAt execData lib x.1 y.1 := by
  obtain ⟨l, l', hl, hl', depName, hmem, hname⟩ := hneeds
  obtain ⟨k, hk, hxl⟩ := h.lib_of hx
  cases hl.symm.trans hk
  obtain ⟨k', hk', hyl⟩ := h.lib_of hy
  cases hl'.symm.trans hk'
  exact ⟨x.2, y.2, (h.mem _ _).mp (List.mem_of_getElem? hx), (h.mem _ _).mp (List.mem_of_getElem? hy), depName,
    hxl.needed ▸ hmem, hname.trans hyl.name⟩

/-- One chain leads to one module. -/
theorem at_unique {p : Route} {x : Dep} {y : Route × Dep} (hx : LoadedAt execData lib p x) (hy : final[i]? = some y)
    (he : y.1 = p) : y.2 = x := by
  have hyx := (h.mem y.1 y.2).mp (List.mem_of_getElem? hy)
  rw [he] at hyx
  exact Option.some.inj (hyx.1.symm.trans hx.1)

theorem needs_of_needsAt {p q : Route} {x : Route × Dep} (hx : final[i]? = some x) (hp : x.1 = p)
    (hneeds : NeedsAt execData lib p q) : ∃ j y, final[j]? = some y ∧ y.1 = q ∧ d.Needs i j := by
  obtain ⟨z, y, hz, hy, depName, hmem, hname⟩ := hneeds
  obtain rfl := h.at_unique hz hx hp
  obtain ⟨j, hj⟩ := List.mem_iff_getElem?.mp ((h.mem q y).mpr hy)
  obtain ⟨l, hl, hxl⟩ := h.lib_of hx
  obtain ⟨l', hl', hyl⟩ := h.lib_of hj
  exact ⟨j, _, hj, rfl, l, l', hl, hl', depName, hxl.needed.symm ▸ hmem, hname.trans hyl.name.symm⟩

/-- Modules need each other as their chains do. -/
theorem needs_iff {x y : Route × Dep} (hx : final[i]? = some x) (hy : final[j]? = some y) :
    TransGen d.Needs i j ↔ TransGen (NeedsAt execData lib) x.1 y.1 := by
  constructor
  · intro hneeds
    induction hneeds generalizing y with
    | single hij => exact .single (h.needs hx hy hij)
    | tail _ hstep ih =>
      have hstep' := hstep
      obtain ⟨l, -, hl, -⟩ := hstep'
      obtain ⟨z, hz, -⟩ := h.of_lib hl
      exact (ih hz).tail (h.needs hz hy hstep)
  · intro hneeds
    have hreach : ∀ q, TransGen (NeedsAt execData lib) x.1 q → ∃ k z, final[k]? = some z ∧ z.1 = q ∧ TransGen d.Needs i k := by
      intro q hq
      induction hq with
      | single hstep =>
        obtain ⟨k, z, hz, he, hneed⟩ := h.needs_of_needsAt hx rfl hstep
        exact ⟨k, z, hz, he, .single hneed⟩
      | tail _ hstep ih =>
        obtain ⟨k, z, hz, he, hneed⟩ := ih
        obtain ⟨k', z', hz', he', hneed'⟩ := h.needs_of_needsAt hz he hstep
        exact ⟨k', z', hz', he', hneed.tail hneed'⟩
    obtain ⟨k, z, hz, he, hneed⟩ := hreach _ hneeds
    have hkj : k = j := by
      rcases Nat.lt_trichotomy k j with hlt | heq | hlt
      · exact absurd (he ▸ (h.lt_iff hz hy).mpr hlt) (lt_irrefl _)
      · exact heq
      · exact absurd (he ▸ (h.lt_iff hy hz).mpr hlt) (lt_irrefl _)
    exact hkj ▸ hneed

end Chains

end DynLinker

/-- `collect_init_arrays` has the initialisers of each module behind those of all
that it needs just in case, whenever a module needs another and both have
initialisers, the chain that the first is loaded at comes before the chain
of the second. -/
theorem initialisers_in_order_iff {execData : List UInt8} {lib : LibProvider} {d : DynLinker} {m m' : Phys}
    {root entry : Nat} (hacyclic : lib.Acyclic)
    (hload : (DynLinker.new root).loadExec m execData lib = some (some entry, d, m')) :
    d.InitInOrder ↔ ChainsInOrder execData lib := by
  obtain ⟨final, hwalk, hlibs⟩ := DynLinker.loadExec_walks hload
  have hc := @Dep.acyclic execData lib hacyclic
  have h : DynLinker.Chains execData lib d final := ⟨hlibs, hwalk.sorted hc, fun p x => hwalk.mem_iff hc⟩
  rw [DynLinker.initInOrder_iff]
  constructor
  · intro horder p q x y hx hy hneeds hinits hinits'
    obtain ⟨i, hi⟩ := List.mem_iff_getElem?.mp ((h.mem p x).mpr hx)
    obtain ⟨j, hj⟩ := List.mem_iff_getElem?.mp ((h.mem q y).mpr hy)
    obtain ⟨l, hl, hxl⟩ := h.lib_of hi
    obtain ⟨l', hl', hyl⟩ := h.lib_of hj
    exact (h.lt_iff hi hj).mpr
      (horder i j l l' hl hl' ((h.needs_iff hi hj).mpr hneeds) (hxl.inits.mpr hinits) (hyl.inits.mpr hinits'))
  · intro horder i j l l' hl hl' hneeds hinits hinits'
    obtain ⟨x, hi, hxl⟩ := h.of_lib hl
    obtain ⟨y, hj, hyl⟩ := h.of_lib hl'
    exact (h.lt_iff hi hj).mp (horder x.1 y.1 x.2 y.2 ((h.mem _ _).mp (List.mem_of_getElem? hi))
      ((h.mem _ _).mp (List.mem_of_getElem? hj)) ((h.needs_iff hi hj).mp hneeds) (hxl.inits.mp hinits) (hyl.inits.mp hinits'))

/-! ## Two libraries -/

namespace DynLinker

/-- `load_deps` on names without a slash, with a bound on its turns, which can be run. -/
def runBare (lib : LibProvider) : Nat → DynLinker → Phys → List String → Option (DynLinker × Phys)
  | _, d, m, [] => some (d, m)
  | 0, _, _, _ :: _ => none
  | n + 1, d, m, depName :: rest =>
    if '/' ∈ depName.toList then none
    else if d.libs.any (·.name == depName) then runBare lib n d m rest
    else match lib depName with
      | none => runBare lib n d m rest
      | some data => do
        let nextSlot ← addU64 d.nextSlot soSlotSize
        match ← m.loadSoAt depName data d.cr3 d.nextSlot with
        | (none, m) => runBare lib n { d with nextSlot } m rest
        | (some l, m) => runBare lib n ({ d with nextSlot }.push l data) m (l.needed ++ rest)

theorem runDeps_of_bare {lib : LibProvider} {n : Nat} {d : DynLinker} {m : Phys} {needed : List String}
    {r : DynLinker × Phys} (h : runBare lib n d m needed = some r) : runDeps lib n d m needed = some r := by
  induction n generalizing d m needed with
  | zero =>
    cases needed with
    | nil => exact h
    | cons depName rest => cases h
  | succ n ih =>
    cases needed with
    | nil => exact h
    | cons depName rest =>
      rw [runBare] at h
      split at h
      · cases h
      · next hbare =>
        rw [runDeps, loadDep, baseName_of_no_slash hbare]
        split at h
        · next hany =>
          rw [if_pos hany]
          exact ih h
        · next hany =>
          rw [if_neg hany]
          cases hlib : lib depName with
          | none =>
            simp only [hlib] at h
            exact ih h
          | some data =>
            simp only [hlib] at h
            obtain ⟨next, hnext, h⟩ := Option.bind_eq_some_iff.mp h
            obtain ⟨⟨l, m₁⟩, hso, h⟩ := Option.bind_eq_some_iff.mp h
            simp only [hnext, hso, Option.bind_eq_bind, Option.bind_some]
            cases l with
            | none => exact ih h
            | some l => exact ih h

/-- The three parts of `load_exec`, run so. -/
def runBareExec (lib : LibProvider) (n : Nat) (d : DynLinker) (m : Phys) (data : List UInt8) : Option (DynLinker × Phys) :=
  (Elf64.parse data).bind fun elf => (d.loadMain m elf data).bind fun r => r.1.bind fun d₁ =>
    (d₁.loadInterp r.2 elf lib).bind fun q => q.1.bind fun d₂ =>
      runBare lib n d₂ q.2 ((d₂.libs.head?.map (·.needed)).getD [])

theorem runExec_of_bare {lib : LibProvider} {n : Nat} {d : DynLinker} {m : Phys} {data : List UInt8} {r : DynLinker × Phys}
    (h : runBareExec lib n d m data = some r) : runExec lib n d m data = some r := by
  simp only [runBareExec, Option.bind_eq_some_iff] at h
  obtain ⟨elf, hparse, q, hmain, d₁, hd₁, q₂, hinterp, d₂, hd₂, hdeps⟩ := h
  simp only [runExec, hparse, hmain, hd₁, hinterp, hd₂, Option.bind_some]
  exact runDeps_of_bare hdeps

end DynLinker

/-- A file that needs libraries of one letter. -/
def smallElf (elfType vaddr : Nat) (needed : List UInt8) (inits : List Nat) : List UInt8 :=
  let initsAt := 176 + 16 * (needed.length + 4)
  let namesAt := initsAt + 8 * inits.length
  let size := namesAt + 1 + 2 * needed.length
  [0x7F, 0x45, 0x4C, 0x46, 2, 1, 1, 0] ++ ByteMem.leBytes 8 0 ++ ByteMem.leBytes 2 elfType ++ ByteMem.leBytes 2 0x3E ++
    ByteMem.leBytes 4 1 ++ ByteMem.leBytes 8 vaddr ++ ByteMem.leBytes 8 64 ++ ByteMem.leBytes 8 0 ++
    ByteMem.leBytes 4 0 ++ ByteMem.leBytes 2 64 ++ ByteMem.leBytes 2 56 ++ ByteMem.leBytes 2 2 ++ ByteMem.leBytes 6 0 ++
  -- `PT_LOAD` and `PT_DYNAMIC`
  ByteMem.leBytes 4 ptLoad ++ ByteMem.leBytes 4 5 ++ ByteMem.leBytes 8 0 ++ ByteMem.leBytes 8 vaddr ++
    ByteMem.leBytes 8 0 ++ ByteMem.leBytes 8 size ++ ByteMem.leBytes 8 size ++ ByteMem.leBytes 8 1 ++
  ByteMem.leBytes 4 ptDynamic ++ ByteMem.leBytes 4 5 ++ ByteMem.leBytes 8 176 ++ ByteMem.leBytes 8 (vaddr + 176) ++
    ByteMem.leBytes 8 0 ++ ByteMem.leBytes 8 (initsAt - 176) ++ ByteMem.leBytes 8 (initsAt - 176) ++ ByteMem.leBytes 8 1 ++
  -- `DT_NEEDED`, `DT_STRTAB`, `DT_INIT_ARRAY`, `DT_INIT_ARRAYSZ` and `DT_NULL`
  (List.range needed.length).flatMap (fun i => ByteMem.leBytes 8 1 ++ ByteMem.leBytes 8 (1 + 2 * i)) ++
    ByteMem.leBytes 8 5 ++ ByteMem.leBytes 8 (vaddr + namesAt) ++ ByteMem.leBytes 8 25 ++
    ByteMem.leBytes 8 (vaddr + initsAt) ++ ByteMem.leBytes 8 27 ++ ByteMem.leBytes 8 (8 * inits.length) ++
    ByteMem.leBytes 8 0 ++ ByteMem.leBytes 8 0 ++
  inits.flatMap (ByteMem.leBytes 8) ++ 0 :: needed.flatMap fun c => [c, 0]

/-- Two libraries with an initialiser each; `b` needs `a`. -/
def twoLibraries : LibProvider := fun libName =>
  if libName = "a" then some (smallElf etDyn 0 [] [0])
  else if libName = "b" then some (smallElf etDyn 0 [0x61] [0])
  else none

/-- The modules by their names, the names that they need and the number of their initialisers. -/
def DynLinker.summary (d : DynLinker) : List (String × List String × Nat) :=
  d.libs.map fun l => (l.name, l.needed, l.initArray.length)

/-- The libraries are loaded in the order in which the executable names them. -/
theorem twoLibraries_run {needed : List UInt8} (h : needed = [0x61, 0x62] ∨ needed = [0x62, 0x61]) :
    ∃ root m entry d m', bootMachine.allocUserPml4 = some (root, m) ∧
      (DynLinker.new root).loadExec m (smallElf etExec 0x10000 needed []) twoLibraries = some (some entry, d, m') ∧
      d.summary = ("(exec)", needed.map fun c => (fromUtf8 [c]).getD "", 0) ::
        needed.map fun c => ((fromUtf8 [c]).getD "", if c = 0x62 then ["a"] else [], 1) := by
  have hany : (bootMachine.allocUserPml4.any fun r =>
      (DynLinker.runBareExec twoLibraries 4 (.new r.1) r.2 (smallElf etExec 0x10000 needed [])).any fun q =>
        decide (q.1.summary = ("(exec)", needed.map fun c => (fromUtf8 [c]).getD "", 0) ::
          needed.map fun c => ((fromUtf8 [c]).getD "", if c = 0x62 then ["a"] else [], 1))) = true := by
    rcases h with rfl | rfl <;> decide +kernel
  obtain ⟨⟨root, m⟩, hnew, hP⟩ := (Option.any_eq_true _ _).mp hany
  obtain ⟨⟨d, m'⟩, hrun, hP⟩ := (Option.any_eq_true _ _).mp hP
  obtain ⟨entry, hload⟩ := DynLinker.loadExec_of_run (DynLinker.runExec_of_bare hrun)
  exact ⟨root, m, entry, d, m', hnew, hload, of_decide_eq_true hP⟩

theorem twoLibraries_needs {n n' : String} (h : twoLibraries.Needs n n') : n = "b" ∧ n' = "a" := by
  have ha : neededBy (smallElf etDyn 0 [] [0]) = some [] := by decide +kernel
  have hb : neededBy (smallElf etDyn 0 [0x61] [0]) = some ["a"] := by decide +kernel
  obtain ⟨data, hdata, depName, hmem, rfl⟩ := h
  unfold twoLibraries at hdata
  split at hdata
  · cases hdata
    rw [ha] at hmem
    exact absurd hmem List.not_mem_nil
  · split at hdata
    · next hn =>
      cases hdata
      rw [hb] at hmem
      rw [List.mem_singleton.mp hmem]
      exact ⟨hn, baseName_of_no_slash (by decide)⟩
    · cases hdata

theorem twoLibraries_acyclic : twoLibraries.Acyclic := by
  intro n h
  obtain ⟨k, hfirst, -⟩ := TransGen.head'_iff.mp h
  obtain ⟨k', -, hlast⟩ := TransGen.tail'_iff.mp h
  have hne : ("b" : String) ≠ "a" := by decide
  exact hne ((twoLibraries_needs hfirst).1.symm.trans (twoLibraries_needs hlast).2)

theorem DynLinker.lib_of_summary {d : DynLinker} {xs : List (String × List String × Nat)} (h : d.summary = xs) {i : Nat}
    {x : String × List String × Nat} (hx : xs[i]? = some x) :
    ∃ l, d.libs[i]? = some l ∧ l.name = x.1 ∧ l.needed = x.2.1 ∧ l.initArray.length = x.2.2 := by
  rw [← h, summary, List.getElem?_map] at hx
  obtain ⟨l, hl, rfl⟩ := Option.map_eq_some_iff.mp hx
  exact ⟨l, hl, rfl, rfl, rfl⟩

/-- Each module is loaded before what it needs. -/
theorem DynLinker.inOrder_of_summary {d : DynLinker} {xs : List (String × List String × Nat)} (h : d.summary = xs)
    (hbare : ∀ x ∈ xs, ∀ depName ∈ x.2.1, '/' ∉ depName.toList)
    (hlater : ∀ i < xs.length, ∀ j < xs.length, ∀ x ∈ xs[i]?, ∀ y ∈ xs[j]?, y.1 ∈ x.2.1 → i < j) : d.InitInOrder := by
  have hget : ∀ {k : Nat} {l : SharedLib}, d.libs[k]? = some l → xs[k]? = some (l.name, l.needed, l.initArray.length) := by
    intro k l hl
    rw [← h, summary, List.getElem?_map, hl]
    rfl
  have hneeds : ∀ {i j : Nat}, d.Needs i j → i < j := by
    intro i j ⟨l, l', hl, hl', depName, hmem, hname⟩
    rw [baseName_of_no_slash (hbare _ (List.mem_of_getElem? (hget hl)) depName hmem)] at hname
    exact hlater i (List.getElem?_eq_some_iff.mp (hget hl)).1 j (List.getElem?_eq_some_iff.mp (hget hl')).1 _ (hget hl) _
      (hget hl') (hname ▸ hmem)
  refine initInOrder_iff.mpr fun i j _ _ _ _ hij _ _ => ?_
  clear * - hij hneeds
  induction hij with
  | single hij => exact hneeds hij
  | tail _ hkj ih => exact ih.trans (hneeds hkj)

/-- The executable names `b` before the `a` that `b` needs. -/
theorem initialisers_in_order_iff_chain : ∃ (root : Nat) (m : Phys) (entry : Nat) (d : DynLinker) (m' : Phys),
    (DynLinker.new root).loadExec m (smallElf etExec 0x10000 [0x62, 0x61] []) twoLibraries = some (some entry, d, m') ∧
      d.InitInOrder ∧ ChainsInOrder (smallElf etExec 0x10000 [0x62, 0x61] []) twoLibraries := by
  obtain ⟨root, m, entry, d, m', -, hload, hsum⟩ := twoLibraries_run (.inr rfl)
  have hnames : d.summary = [("(exec)", ["b", "a"], 0), ("b", ["a"], 1), ("a", [], 1)] := hsum.trans (by decide)
  have horder : d.InitInOrder := DynLinker.inOrder_of_summary hnames (by decide) (by decide)
  exact ⟨root, m, entry, d, m', hload, horder, (initialisers_in_order_iff twoLibraries_acyclic hload).mp horder⟩

/-- The executable names `a` before `b`: `b`, loaded last, is initialised before the `a` that it needs. -/
theorem initialised_before_needed : ∃ (lib : LibProvider) (execData : List UInt8) (root : Nat) (m : Phys) (entry : Nat)
    (d : DynLinker) (m' : Phys), lib.Acyclic ∧
      (DynLinker.new root).loadExec m execData lib = some (some entry, d, m') ∧ ¬ d.InitInOrder := by
  obtain ⟨root, m, entry, d, m', -, hload, hsum⟩ := twoLibraries_run (.inl rfl)
  refine ⟨twoLibraries, _, root, m, entry, d, m', twoLibraries_acyclic, hload, fun horder => ?_⟩
  have hnames : d.summary = [("(exec)", ["a", "b"], 0), ("a", [], 1), ("b", ["a"], 1)] := hsum.trans (by decide)
  obtain ⟨a, ha, hname, -, hinit⟩ := DynLinker.lib_of_summary hnames (i := 1) rfl
  obtain ⟨b, hb, -, hneeded, hinit'⟩ := DynLinker.lib_of_summary hnames (i := 2) rfl
  have hneeds : d.Needs 2 1 := by
    refine ⟨b, a, hb, ha, "a", by rw [hneeded]; exact List.mem_singleton_self _, ?_⟩
    rw [hname]
    exact baseName_of_no_slash (by decide)
  exact absurd (DynLinker.initInOrder_iff.mp horder 2 1 b a hb ha (.single hneeds)
    (List.ne_nil_of_length_pos (by rw [hinit']; decide)) (List.ne_nil_of_length_pos (by rw [hinit]; decide))) (by decide)

end ChodOs
