/-
Depth-first walks over items that name what comes below them. An item whose
name has been loaded may be skipped, and one may be missing. Where no item
comes below itself, the loaded items are those that no earlier route leads
to, in the dictionary order of their routes.
-/
import Mathlib.Data.List.Lex
import Mathlib.Data.List.Pairwise

namespace DepthFirst

/-- The places to go down at, from the first item on. -/
abbrev Route := List Nat

/-! ## Routes in dictionary order -/

/-- `p` turns off before `q` where they part. -/
inductive LeftOf : Route → Route → Prop
  | head {i j : Nat} {s t : Route} : i < j → LeftOf (i :: s) (j :: t)
  | tail {i : Nat} {s t : Route} : LeftOf s t → LeftOf (i :: s) (i :: t)

variable {p q r s t : Route}

theorem LeftOf.lt (h : LeftOf p q) : p < q := by
  induction h with
  | head h => exact List.cons_lt_cons_iff.mpr (.inl h)
  | tail _ ih => exact List.cons_lt_cons_iff.mpr (.inr ⟨rfl, ih⟩)

/-- Whatever comes below `p` is before whatever comes below `q`. -/
theorem LeftOf.append (h : LeftOf p q) : LeftOf (p ++ s) (q ++ t) := by
  induction h with
  | head h => exact .head h
  | tail _ ih => exact .tail ih

theorem leftOf_of_lt {i j : Nat} (h : i < j) : LeftOf (p ++ [i]) (p ++ [j]) := by
  induction p with
  | nil => exact .head h
  | cons k p ih => exact .tail ih

theorem prefix_or_leftOf (h : p < q) : p <+: q ∨ LeftOf p q := by
  induction p generalizing q with
  | nil => exact .inl List.nil_prefix
  | cons i p ih =>
    cases q with
    | nil => exact absurd h (List.not_lt_nil _)
    | cons j q =>
      rcases List.cons_lt_cons_iff.mp h with hij | ⟨rfl, hpq⟩
      · exact .inr (.head hij)
      · rcases ih hpq with hp | hl
        · exact .inl (List.cons_prefix_cons.mpr ⟨rfl, hp⟩)
        · exact .inr (.tail hl)

theorem prefix_le (h : p <+: q) : p ≤ q := by
  obtain ⟨t, rfl⟩ := h
  rw [← not_lt]
  induction p with
  | nil => exact List.not_lt_nil _
  | cons i p ih =>
    rw [List.cons_append, List.cons_lt_cons_iff]
    intro h
    rcases h with hlt | ⟨-, hlt⟩
    · exact Nat.lt_irrefl _ hlt
    · exact ih hlt

/-! ## Items by their routes -/

section walk

variable {ι κ : Type} (kids : ι → Option (List ι)) (name : ι → κ) (keyed : ι → Prop)

/-- The item that a route leads to; `kids` has none for one that is missing. -/
def itemAt (d : ι) : Route → Option ι
  | [] => (kids d).map fun _ => d
  | i :: p => (kids d).bind fun l => l[i]?.bind fun c => itemAt c p

/-- No earlier route leads to an item of the same name as the one at `p`, if that may be skipped. -/
def Fresh (root : ι) (p : Route) : Prop :=
  ∀ d, itemAt kids root p = some d → keyed d → ∀ r < p, ∀ e, itemAt kids root r = some e → name e ≠ name d

/-- The route is gone all the way: nothing on it is skipped. -/
def Taken (root : ι) (p : Route) : Prop := ∀ q, q <+: p → Fresh kids name keyed root q

/-- The items below the one at `p`, each with its route. -/
def below (p : Route) (l : List ι) : List (Route × ι) := l.zipIdx.map fun x => (p ++ [x.2], x.1)

/-- `d` is skipped: it has the name of a loaded item. -/
def Skipped (done : List (Route × ι)) (d : ι) : Prop := keyed d ∧ ∃ x ∈ done, name x.2 = name d

/-- The walk: from what is loaded and what is still to be looked at, to what is loaded in the end. -/
inductive Walk : List (Route × ι) → List (Route × ι) → List (Route × ι) → Prop
  | nil {done} : Walk done [] done
  | skip {done rest final p d} : Skipped name keyed done d → Walk done rest final → Walk done ((p, d) :: rest) final
  | missing {done rest final p d} : kids d = none → Walk done rest final → Walk done ((p, d) :: rest) final
  | load {done rest final p d l} : ¬ Skipped name keyed done d → kids d = some l →
      Walk (done ++ [(p, d)]) (below p l ++ rest) final → Walk done ((p, d) :: rest) final

/-- Items of one name have the same below them, unless nothing is; and nothing is below an item of its own name. -/
structure Acyclic : Prop where
  same : ∀ d e, keyed d → name e = name d → (kids e).isSome → kids d = some [] ∨ kids d = kids e
  noLoop : ∀ e r d, r ≠ [] → itemAt kids e r = some d → keyed d → name e = name d → kids d = some []

/-- How far a walk has come. -/
structure Partway (root : ι) (done todo : List (Route × ι)) : Prop where
  sorted : done.Pairwise fun x y => x.1 < y.1
  before : ∀ x ∈ done, ∀ y ∈ todo, x.1 < y.1
  apart : todo.Pairwise fun x y => LeftOf x.1 y.1
  items : ∀ x ∈ done, itemAt kids root x.1 = some x.2
  under : ∀ y ∈ todo, ∀ s, itemAt kids root (y.1 ++ s) = itemAt kids y.2 s
  taken : ∀ x ∈ done, Taken kids name keyed root x.1
  way : ∀ y ∈ todo, ∀ q, q <+: y.1 → q ≠ y.1 → Fresh kids name keyed root q
  /-- What a route leads to has been loaded by its name, not later than there, or is still to come. -/
  named : ∀ q e, itemAt kids root q = some e →
    (∃ x ∈ done, x.1 ≤ q ∧ name x.2 = name e) ∨ ∃ y ∈ todo, y.1 <+: q
  all : ∀ q e, itemAt kids root q = some e → Taken kids name keyed root q → (q, e) ∈ done ∨ ∃ y ∈ todo, y.1 <+: q

variable {kids name keyed} {root d e : ι} {l : List ι} {done rest final : List (Route × ι)}

theorem itemAt_append (d : ι) (p s : Route) : itemAt kids d (p ++ s) = (itemAt kids d p).bind fun e => itemAt kids e s := by
  induction p generalizing d with
  | nil =>
    cases hk : kids d with
    | none => cases s <;> simp [itemAt, hk]
    | some l => simp [itemAt, hk]
  | cons i p ih =>
    rw [List.cons_append, itemAt, itemAt, Option.bind_assoc]
    refine congrArg _ (funext fun l => ?_)
    rw [Option.bind_assoc]
    exact congrArg _ (funext fun c => ih c)

/-- No route goes on from a missing item. -/
theorem itemAt_of_missing (h : kids d = none) (s : Route) : itemAt kids d s = none := by
  cases s <;> rw [itemAt, h] <;> rfl

theorem itemAt_isSome (h : itemAt kids d p = some e) : (kids e).isSome := by
  induction p generalizing d with
  | nil =>
    obtain ⟨l, hl, rfl⟩ := Option.map_eq_some_iff.mp h
    rw [hl]
    rfl
  | cons i p ih =>
    obtain ⟨l, -, h⟩ := Option.bind_eq_some_iff.mp h
    obtain ⟨c, -, h⟩ := Option.bind_eq_some_iff.mp h
    exact ih h

theorem itemAt_congr {d' : ι} (h : kids d = kids d') {i : Nat} : itemAt kids d (i :: s) = itemAt kids d' (i :: s) := by
  rw [itemAt, itemAt, h]

theorem forall_mem_below {P : Route × ι → Prop} (h : ∀ i c, l[i]? = some c → P (p ++ [i], c)) : ∀ y ∈ below p l, P y := by
  intro y hy
  obtain ⟨x, hx, rfl⟩ := List.mem_map.mp hy
  exact h x.2 x.1 (List.mem_zipIdx_iff_getElem?.mp hx)

theorem below_mem {i : Nat} (h : l[i]? = some d) : (p ++ [i], d) ∈ below p l :=
  List.mem_map.mpr ⟨(d, i), List.mem_zipIdx_iff_getElem?.mpr h, rfl⟩

@[simp] theorem map_snd_below : (below p l).map (·.2) = l := by
  rw [below, List.map_map]
  exact List.zipIdx_map_fst 0 l

theorem zipIdx_sorted {α : Type} (xs : List α) : xs.zipIdx.Pairwise fun x y => x.2 < y.2 := by
  rw [← List.pairwise_map (f := Prod.snd), List.zipIdx_map_snd]
  exact List.pairwise_lt_range'

theorem below_apart : (below p l).Pairwise fun x y => LeftOf x.1 y.1 := by
  rw [below, List.pairwise_map]
  exact (zipIdx_sorted l).imp leftOf_of_lt

namespace Partway

theorem start (root : ι) : Partway kids name keyed root [] [([], root)] where
  sorted := .nil
  before x hx := absurd hx List.not_mem_nil
  apart := List.pairwise_singleton _ _
  items x hx := absurd hx List.not_mem_nil
  under y hy s := by
    rw [List.mem_singleton.mp hy]
    rfl
  taken x hx := absurd hx List.not_mem_nil
  way y hy q hq hne := by
    rw [List.mem_singleton.mp hy] at hq hne
    exact absurd (List.prefix_nil.mp hq) hne
  named q e _ := .inr ⟨_, List.mem_singleton_self _, List.nil_prefix⟩
  all q e _ _ := .inr ⟨_, List.mem_singleton_self _, List.nil_prefix⟩

theorem here (h : Partway kids name keyed root done ((p, d) :: rest)) : itemAt kids root p = (kids d).map fun _ => d := by
  have hat := h.under _ List.mem_cons_self []
  rw [List.append_nil] at hat
  exact hat

/-- Nothing that is still to come is before the next item. -/
theorem not_before (h : Partway kids name keyed root done ((p, d) :: rest)) {y : Route × ι} (hy : y ∈ (p, d) :: rest)
    (hq : y.1 <+: q) : ¬ q < p := by
  have hpy : p ≤ y.1 := by
    rcases List.mem_cons.mp hy with rfl | hy
    · exact le_refl _
    · exact (List.rel_of_pairwise_cons h.apart hy).lt.le
  exact not_lt.mpr (hpy.trans (prefix_le hq))

/-- An item is dropped whose subtree is accounted for. -/
theorem drop (h : Partway kids name keyed root done ((p, d) :: rest))
    (hnamed : ∀ s e, itemAt kids root (p ++ s) = some e → ∃ x ∈ done, x.1 ≤ p ++ s ∧ name x.2 = name e)
    (hall : ∀ s e, itemAt kids root (p ++ s) = some e → ¬ Taken kids name keyed root (p ++ s)) :
    Partway kids name keyed root done rest where
  sorted := h.sorted
  before x hx y hy := h.before x hx y (List.mem_cons_of_mem _ hy)
  apart := h.apart.tail
  items := h.items
  under y hy := h.under y (List.mem_cons_of_mem _ hy)
  taken := h.taken
  way y hy := h.way y (List.mem_cons_of_mem _ hy)
  named q e he := by
    rcases h.named q e he with hdone | ⟨y, hy, hq⟩
    · exact .inl hdone
    · rcases List.mem_cons.mp hy with rfl | hy
      · obtain ⟨s, rfl⟩ := hq
        exact .inl (hnamed s e he)
      · exact .inr ⟨y, hy, hq⟩
  all q e he ht := by
    rcases h.all q e he ht with hdone | ⟨y, hy, hq⟩
    · exact .inl hdone
    · rcases List.mem_cons.mp hy with rfl | hy
      · obtain ⟨s, rfl⟩ := hq
        exact absurd ht (hall s e he)
      · exact .inr ⟨y, hy, hq⟩

theorem missing (h : Partway kids name keyed root done ((p, d) :: rest)) (hk : kids d = none) :
    Partway kids name keyed root done rest := by
  have hnone : ∀ s, itemAt kids root (p ++ s) = none := fun s =>
    (h.under _ List.mem_cons_self s).trans (itemAt_of_missing hk s)
  exact h.drop (fun s e he => absurd ((hnone s).symm.trans he) nofun) fun s e he => absurd ((hnone s).symm.trans he) nofun

/-- An item of the same name that has been loaded turned off before `p`: else `d` would come below itself. -/
theorem leftOf_of_name (hc : Acyclic kids name keyed) (h : Partway kids name keyed root done ((p, d) :: rest))
    (hkeyed : keyed d) (hr : (r, e) ∈ done) (hname : name e = name d) (hsome : kids d ≠ some []) :
    LeftOf r p ∧ kids d = kids e := by
  have hrp : r < p := h.before _ hr _ List.mem_cons_self
  have hre : itemAt kids root r = some e := h.items _ hr
  have hsame := (hc.same d e hkeyed hname (itemAt_isSome hre)).resolve_left hsome
  refine ⟨(prefix_or_leftOf hrp).resolve_left fun ⟨t, ht⟩ => hsome ?_, hsame⟩
  refine hc.noLoop e t d (fun hnil => ?_) ?_ hkeyed hname
  · rw [hnil, List.append_nil] at ht
    exact absurd (ht ▸ hrp) (lt_irrefl _)
  · have hat := h.here
    rw [← ht, itemAt_append, hre, Option.bind_some] at hat
    rw [hat]
    obtain ⟨l, hl⟩ := Option.isSome_iff_exists.mp (hsame ▸ itemAt_isSome hre)
    rw [hl]
    rfl

/-- What comes below a skipped item came below the one that it is skipped for. -/
theorem skip (hc : Acyclic kids name keyed) (h : Partway kids name keyed root done ((p, d) :: rest))
    (hskip : Skipped name keyed done d) : Partway kids name keyed root done rest := by
  obtain ⟨hkeyed, ⟨r, e⟩, hr, hname⟩ := hskip
  have hunder : ∀ s, itemAt kids root (p ++ s) = itemAt kids d s := h.under _ List.mem_cons_self
  have hrp : r < p := h.before _ hr _ List.mem_cons_self
  have hre : itemAt kids root r = some e := h.items _ hr
  refine h.drop (fun s f hf => ?_) fun s f hf ht => ?_
  · cases s with
    | nil =>
      rw [hunder] at hf
      obtain ⟨-, -, rfl⟩ := Option.map_eq_some_iff.mp hf
      exact ⟨_, hr, (List.append_nil p).symm ▸ hrp.le, hname⟩
    | cons i s =>
      rw [hunder] at hf
      have hsome : kids d ≠ some [] := by
        intro hnil
        rw [itemAt, hnil] at hf
        exact absurd hf nofun
      obtain ⟨hleft, hsame⟩ := leftOf_of_name hc h hkeyed hr hname hsome
      have hthere : itemAt kids root (r ++ i :: s) = some f := by
        rw [itemAt_append, hre, Option.bind_some, ← itemAt_congr hsame]
        exact hf
      have hlt : r ++ i :: s < p ++ i :: s := hleft.append.lt
      rcases h.named _ f hthere with ⟨x, hx, hle, hxf⟩ | ⟨y, hy, hq⟩
      · exact ⟨x, hx, hle.trans hlt.le, hxf⟩
      · have hbelow : LeftOf (r ++ i :: s) (p ++ []) := hleft.append
        rw [List.append_nil] at hbelow
        exact absurd hbelow.lt (h.not_before hy hq)
  · have hd : itemAt kids root p = some d := by
      rw [itemAt_append] at hf
      obtain ⟨f', hf', -⟩ := Option.bind_eq_some_iff.mp hf
      rw [h.here] at hf' ⊢
      obtain ⟨l, hl, rfl⟩ := Option.map_eq_some_iff.mp hf'
      exact hf'
    exact ht p (List.prefix_append _ _) d hd hkeyed r hrp e hre hname

/-- A loaded item is none that an earlier route leads to, as that would be loaded by now. -/
theorem fresh_here (h : Partway kids name keyed root done ((p, d) :: rest)) (hskip : ¬ Skipped name keyed done d) :
    Fresh kids name keyed root p := by
  intro d' hd' hkeyed r hr e he hname
  rw [h.here] at hd'
  obtain ⟨-, -, rfl⟩ := Option.map_eq_some_iff.mp hd'
  rcases h.named r e he with ⟨x, hx, -, hxe⟩ | ⟨y, hy, hyr⟩
  · exact hskip ⟨hkeyed, x, hx, hxe.trans hname⟩
  · exact absurd hr (h.not_before hy hyr)

/-- A route that goes on from a loaded item ends there, or goes on to an item below. -/
theorem goes_on (h : Partway kids name keyed root done ((p, d) :: rest)) (hk : kids d = some l)
    (he : itemAt kids root q = some e) (hq : ∃ y ∈ (p, d) :: rest, y.1 <+: q) :
    (q, e) = (p, d) ∨ ∃ y ∈ below p l ++ rest, y.1 <+: q := by
  obtain ⟨y, hy, hyq⟩ := hq
  rcases List.mem_cons.mp hy with rfl | hy
  · obtain ⟨s, rfl⟩ := hyq
    rw [h.under _ List.mem_cons_self] at he
    cases s with
    | nil =>
      obtain ⟨-, -, rfl⟩ := Option.map_eq_some_iff.mp he
      exact .inl (by rw [List.append_nil])
    | cons i s =>
      rw [itemAt, hk, Option.bind_some] at he
      obtain ⟨c, hc, -⟩ := Option.bind_eq_some_iff.mp he
      exact .inr ⟨_, List.mem_append_left _ (below_mem hc), s, by simp⟩
  · exact .inr ⟨y, List.mem_append_right _ hy, hyq⟩

theorem load (h : Partway kids name keyed root done ((p, d) :: rest)) (hskip : ¬ Skipped name keyed done d)
    (hk : kids d = some l) : Partway kids name keyed root (done ++ [(p, d)]) (below p l ++ rest) := by
  have hfresh := h.fresh_here hskip
  have hway : ∀ q, q <+: p → Fresh kids name keyed root q := fun q hq =>
    if he : q = p then he ▸ hfresh else h.way _ List.mem_cons_self q hq he
  have hbefore : ∀ x ∈ done, x.1 < p := fun x hx => h.before x hx _ List.mem_cons_self
  have hafter : ∀ i : Nat, p < p ++ [i] := fun i => lt_of_le_of_ne (prefix_le (List.prefix_append _ _)) (by simp)
  have hright : ∀ y ∈ rest, LeftOf p y.1 := fun y hy => List.rel_of_pairwise_cons h.apart hy
  constructor
  case sorted =>
    exact List.pairwise_append.mpr ⟨h.sorted, List.pairwise_singleton _ _, fun x hx y hy =>
      List.mem_singleton.mp hy ▸ hbefore x hx⟩
  case before =>
    refine List.forall_mem_append.mpr ⟨fun x hx => List.forall_mem_append.mpr ⟨?_, fun y hy => ?_⟩,
      List.forall_mem_singleton.mpr (List.forall_mem_append.mpr ⟨?_, fun y hy => (hright y hy).lt⟩)⟩
    · exact forall_mem_below fun i _ _ => (hbefore x hx).trans (hafter i)
    · exact h.before x hx y (List.mem_cons_of_mem _ hy)
    · exact forall_mem_below fun i _ _ => hafter i
  case apart =>
    refine List.pairwise_append.mpr ⟨below_apart, h.apart.tail, forall_mem_below fun i _ _ y hy => ?_⟩
    have hleft : LeftOf (p ++ [i]) (y.1 ++ []) := (hright y hy).append
    rwa [List.append_nil] at hleft
  case items =>
    refine List.forall_mem_append.mpr ⟨h.items, List.forall_mem_singleton.mpr ?_⟩
    rw [h.here, hk]
    rfl
  case under =>
    refine List.forall_mem_append.mpr ⟨forall_mem_below fun i c hc s => ?_, fun y hy =>
      h.under y (List.mem_cons_of_mem _ hy)⟩
    rw [List.append_assoc, h.under _ List.mem_cons_self, List.singleton_append, itemAt, hk, Option.bind_some, hc,
      Option.bind_some]
  case taken => exact List.forall_mem_append.mpr ⟨h.taken, List.forall_mem_singleton.mpr hway⟩
  case way =>
    refine List.forall_mem_append.mpr ⟨forall_mem_below fun i c _ q hq hne => ?_, fun y hy =>
      h.way y (List.mem_cons_of_mem _ hy)⟩
    exact hway q ((List.prefix_concat_iff.mp hq).resolve_left hne)
  case named =>
    intro q e he
    rcases h.named q e he with ⟨x, hx, hle⟩ | htodo
    · exact .inl ⟨x, List.mem_append_left _ hx, hle⟩
    · rcases h.goes_on hk he htodo with heq | hnext
      · cases heq
        exact .inl ⟨_, List.mem_append_right _ (List.mem_singleton_self _), le_refl _, rfl⟩
      · exact .inr hnext
  case all =>
    intro q e he ht
    rcases h.all q e he ht with hx | htodo
    · exact .inl (List.mem_append_left _ hx)
    · rcases h.goes_on hk he htodo with heq | hnext
      · exact .inl (heq ▸ List.mem_append_right _ (List.mem_singleton_self _))
      · exact .inr hnext

end Partway

/-- Every step keeps it, so a walk that has come to its end has the lot. -/
theorem Walk.partway (hc : Acyclic kids name keyed) {todo : List (Route × ι)} (hw : Walk kids name keyed done todo final)
    (h : Partway kids name keyed root done todo) : Partway kids name keyed root final [] := by
  induction hw with
  | nil => exact h
  | skip hskip _ ih => exact ih (h.skip hc hskip)
  | missing hk _ ih => exact ih (h.missing hk)
  | load hskip hk _ ih => exact ih (h.load hskip hk)

/-- A whole walk loads the items of the routes that are gone all the way, in dictionary order. -/
theorem Walk.mem_iff (hc : Acyclic kids name keyed) (hw : Walk kids name keyed [] [([], root)] final) :
    (p, d) ∈ final ↔ itemAt kids root p = some d ∧ Taken kids name keyed root p := by
  have hend := hw.partway hc (.start root)
  constructor
  · intro hx
    exact ⟨hend.items _ hx, hend.taken _ hx⟩
  · intro ⟨hd, ht⟩
    rcases hend.all p d hd ht with hx | ⟨y, hy, -⟩
    · exact hx
    · exact absurd hy List.not_mem_nil

theorem Walk.sorted (hc : Acyclic kids name keyed) (hw : Walk kids name keyed [] [([], root)] final) :
    final.Pairwise fun x y => x.1 < y.1 :=
  (hw.partway hc (.start root)).sorted

end walk

end DepthFirst
