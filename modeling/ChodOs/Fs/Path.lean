/-
Paths: how the file system cuts one into names (`vfs/mod.rs`), and which
belong to the device and process trees.
-/
import Mathlib.Data.List.Basic
import Mathlib.Data.List.DropRight

namespace ChodOs

/-- A path, character by character. -/
abbrev Path := List Char

/-- One component of a path. -/
abbrev Name := List Char

/-- `Arc<Mutex<VfsNode>>`, by its allocation. -/
abbrev NodeRef := Nat

/-- `ENOENT`, `EINVAL`. -/
def enoent : Int := -2
def einval : Int := -22

/-- `dev::is_dev`. -/
def isDev (path : Path) : Bool := path == "/dev".toList || "/dev/".toList.isPrefixOf path

/-- `procfs::is_proc`. -/
def isProc (path : Path) : Bool := path == "/proc".toList || "/proc/".toList.isPrefixOf path

/-- `str::rfind`. -/
def rfind (c : Char) (s : List Char) : Option Nat := (s.reverse.findIdx? (· == c)).map fun i => s.length - 1 - i

/-- The components that `lookup` and `ensure_parent_dirs` go through. -/
def parts (path : Path) : List Name := ((path.dropWhile (· == '/')).splitOn '/').filter (!·.isEmpty)

def splitParent (path : Path) : Option (Path × Name) := do
  let path := path.rdropWhile (· == '/')
  let slash ← rfind '/' path
  let parent := if slash = 0 then ['/'] else path.take slash
  let name := path.drop (slash + 1)
  if name.isEmpty then none else some (parent, name)

example : splitParent "/var//log/".toList = some ("/var/".toList, "log".toList) := by decide

example : splitParent "/tmp".toList = some ("/".toList, "tmp".toList) := by decide

/-! ### The names in a path -/

variable {path parent a b cur : Path} {x : Name}

theorem parts_eq : parts path = (path.splitOn '/').filter (!·.isEmpty) := by
  unfold parts
  induction path with
  | nil => rfl
  | cons c path ih =>
    by_cases hc : c = '/'
    · subst hc
      rw [List.dropWhile_cons_of_pos (by rfl), ih, List.splitOn_cons_eq_if_modifyHead, if_pos (by rfl)]
      rfl
    · rw [List.dropWhile_cons_of_neg (by simpa using hc)]

@[simp] theorem parts_nil : parts [] = [] := rfl

@[simp] theorem parts_slash : parts ['/'] = [] := by decide

theorem parts_append : parts (a ++ '/' :: b) = parts a ++ parts b := by
  rw [parts_eq, parts_eq, parts_eq, List.splitOn_append_cons_self, List.filter_append]

theorem parts_of_not_mem (hx : '/' ∉ x) (hne : x ≠ []) : parts x = [x] := by
  rw [parts_eq, List.splitOn_eq_singleton hx]
  cases x with
  | nil => exact absurd rfl hne
  | cons c x => rfl

theorem parts_snoc (hx : '/' ∉ x) (hne : x ≠ []) : parts (cur ++ '/' :: x) = parts cur ++ [x] := by
  rw [parts_append, parts_of_not_mem hx hne]

/-- Slashes at the end are no matter. -/
theorem parts_rdropWhile : parts (path.rdropWhile (· == '/')) = parts path := by
  induction path using List.reverseRecOn with
  | nil => rfl
  | append_singleton path c ih =>
    by_cases hc : c = '/'
    · subst hc
      rw [List.rdropWhile_concat_pos _ _ _ (by rfl), ih, parts_append, parts_nil, List.append_nil]
    · rw [List.rdropWhile_concat_neg _ _ _ (by simpa using hc)]

theorem mem_parts (hx : x ∈ parts path) : '/' ∉ x ∧ x ≠ [] := by
  rw [parts_eq] at hx
  obtain ⟨hmem, hne⟩ := List.mem_filter.mp hx
  refine ⟨?_, by simpa using hne⟩
  clear hne hx
  induction path generalizing x with
  | nil =>
    rw [List.mem_singleton.mp hmem]
    exact List.not_mem_nil
  | cons c path ih =>
    rw [List.splitOn_cons_eq_if_modifyHead] at hmem
    split at hmem
    · rcases List.mem_cons.mp hmem with rfl | hmem
      · exact List.not_mem_nil
      · exact ih hmem
    · next hc =>
      cases hs : path.splitOn '/' with
      | nil =>
        rw [hs] at hmem
        cases hmem
      | cons first rest =>
        rw [hs] at hmem ih
        rcases List.mem_cons.mp hmem with rfl | hmem
        · exact List.not_mem_cons_of_ne_of_not_mem (fun h => hc (beq_iff_eq.mpr h.symm)) (ih (List.mem_cons_self ..))
        · exact ih (List.mem_cons_of_mem _ hmem)

theorem rfind_append (hx : '/' ∉ x) : rfind '/' (a ++ '/' :: x) = some a.length := by
  have hrev : (a ++ '/' :: x).reverse = x.reverse ++ '/' :: a.reverse := by simp
  have hfind : (x.reverse ++ '/' :: a.reverse).findIdx? (· == '/') = some x.length := by
    have hno : x.reverse.findIdx? (· == '/') = none := by
      rw [List.findIdx?_eq_none_iff]
      intro c hc
      have : c ≠ '/' := fun h => hx (h ▸ List.mem_reverse.mp hc)
      simpa using this
    rw [List.findIdx?_append, hno, List.findIdx?_cons]
    simp
  rw [rfind, hrev, hfind]
  simp

theorem rfind_eq_none (hx : '/' ∉ x) : rfind '/' x = none := by
  rw [rfind, Option.map_eq_none_iff, List.findIdx?_eq_none_iff]
  intro c hc
  have : c ≠ '/' := fun h => hx (h ▸ List.mem_reverse.mp hc)
  simpa using this

/-- A list of characters with a slash in it, cut at its last one. -/
theorem exists_last_slash (h : '/' ∈ path) : ∃ a x, path = a ++ '/' :: x ∧ '/' ∉ x := by
  induction path with
  | nil => cases h
  | cons c path ih =>
    by_cases hp : '/' ∈ path
    · obtain ⟨a, x, rfl, hx⟩ := ih hp
      exact ⟨c :: a, x, rfl, hx⟩
    · have hc : c = '/' := ((List.mem_cons.mp h).resolve_right hp).symm
      exact ⟨[], path, by rw [hc, List.nil_append], hp⟩

/-- A path is cut at the last slash that has a name behind it. -/
theorem splitParent_eq_some : splitParent path = some (parent, x) ↔
    ∃ a, path.rdropWhile (· == '/') = a ++ '/' :: x ∧ '/' ∉ x ∧ x ≠ [] ∧ parent = if a = [] then ['/'] else a := by
  unfold splitParent
  generalize path.rdropWhile (· == '/') = path
  by_cases hp : '/' ∈ path
  · obtain ⟨a, y, rfl, hy⟩ := exists_last_slash hp
    have htake : (a ++ '/' :: y).take a.length = a := List.take_left
    have hdrop : (a ++ '/' :: y).drop (a.length + 1) = y := by
      rw [← List.drop_drop, List.drop_left]
      rfl
    simp only [rfind_append hy, Option.bind_eq_bind, Option.bind_some, htake, hdrop, List.length_eq_zero_iff,
      List.isEmpty_iff]
    constructor
    · intro h
      split at h
      · cases h
      · next hne =>
        obtain ⟨rfl, rfl⟩ := Prod.mk.inj (Option.some.inj h)
        exact ⟨a, rfl, hy, hne, rfl⟩
    · intro h
      obtain ⟨b, heq, hx, hne, rfl⟩ := h
      have hlen := (rfind_append (a := a) hy).symm.trans (heq ▸ rfind_append hx)
      obtain ⟨rfl, htail⟩ := List.append_inj heq (Option.some.inj hlen)
      obtain rfl := (List.cons.inj htail).2
      rw [if_neg hne]
  · simp only [rfind_eq_none hp, Option.bind_eq_bind, Option.bind_none]
    constructor
    · intro h
      cases h
    · intro h
      obtain ⟨a, rfl, -⟩ := h
      exact absurd (List.mem_append_right a (List.mem_cons_self ..)) hp

theorem splitParent_snoc (hx : '/' ∉ x) (hne : x ≠ []) :
    splitParent (cur ++ '/' :: x) = some (if cur = [] then ['/'] else cur, x) := by
  refine splitParent_eq_some.mpr ⟨cur, ?_, hx, hne, rfl⟩
  refine List.rdropWhile_eq_self_iff.mpr fun hc => ?_
  rw [List.getLast_append_of_ne_nil _ (List.cons_ne_nil _ _), List.getLast_cons hne]
  have hlast : x.getLast hne ≠ '/' := fun h => hx (h ▸ List.getLast_mem hne)
  simpa using hlast

/-- An absolute path with a name in it has a parent. -/
theorem exists_splitParent (habs : path.head? = some '/') (hne : parts path ≠ []) :
    ∃ parent x, splitParent path = some (parent, x) := by
  rw [← parts_rdropWhile] at hne
  cases htrim : path.rdropWhile (· == '/') with
  | nil =>
    rw [htrim] at hne
    exact absurd rfl hne
  | cons c rest =>
    have hc : c = '/' := by
      obtain ⟨tail, htail⟩ := List.rdropWhile_prefix (· == '/') (l := path)
      rw [htrim] at htail
      rw [← htail] at habs
      exact Option.some.inj habs
    have hslash : '/' ∈ c :: rest := hc ▸ List.mem_cons_self ..
    obtain ⟨a, x, hpath, hx⟩ := exists_last_slash hslash
    refine ⟨_, x, splitParent_eq_some.mpr ⟨a, htrim.trans hpath, hx, ?_, rfl⟩⟩
    intro h
    obtain rfl := h
    have hlast := List.rdropWhile_last_not (· == '/') path (by rw [htrim]; exact List.cons_ne_nil _ _)
    refine hlast ?_
    simp only [htrim, hpath, List.getLast_append_of_ne_nil _ (List.cons_ne_nil _ _), List.getLast_singleton]
    rfl

theorem parts_splitParent (h : splitParent path = some (parent, x)) : parts path = parts parent ++ [x] := by
  obtain ⟨a, hpath, hx, hne, rfl⟩ := splitParent_eq_some.mp h
  rw [← parts_rdropWhile, hpath, parts_snoc hx hne]
  split
  · next ha => rw [ha, parts_nil, parts_slash]
  · rfl

end ChodOs
