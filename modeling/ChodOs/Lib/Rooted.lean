/-
Graphs whose edges have places: a place of a node holds at most one edge. One
place can be cut or filled, and reachability from a root follows.
-/
import Mathlib.Data.List.Induction
import Mathlib.Data.Set.Insert
import Mathlib.Logic.Relation

namespace Places

open Relation

variable {α ι : Type}

/-- `b` is at some place of `a`. -/
def Edge (E : α → ι → Option α) (a b : α) : Prop := ∃ x, E a x = some b

/-- A path leads from `a` to `b`. -/
def Reach (E : α → ι → Option α) : α → α → Prop := ReflTransGen (Edge E)

variable {E E' : α → ι → Option α} {a b d m p q r t v : α} {x y : ι}

theorem edge_mono (hE : ∀ c x d, E c x = some d → E' c x = some d) : Edge E ≤ Edge E' :=
  fun c _ ⟨x, hx⟩ => ⟨x, hE c x _ hx⟩

theorem Reach.mono (h : Reach E a b) (hE : ∀ c x d, E c x = some d → E' c x = some d) : Reach E' a b :=
  ReflTransGen.mono (edge_mono hE) _ _ h

theorem Reach.edge (h : Reach E a b) (hE : E b x = some d) : Reach E a d := ReflTransGen.tail h ⟨x, hE⟩

/-- What has no edges reaches itself only. -/
theorem Reach.eq_of_leaf (h : Reach E a b) (hleaf : ∀ x, E a x = none) : b = a := by
  rcases ReflTransGen.cases_head h with rfl | ⟨c, ⟨x, hx⟩, -⟩
  · rfl
  · rw [hleaf x] at hx
    cases hx

/-! ### Trees -/

/-- Edges leave directories only; a directory is at one place at most, and the root at none. -/
structure Rooted (E : α → ι → Option α) (D : α → Prop) (r : α) : Prop where
  dir : ∀ {a x b}, E a x = some b → D a
  unique : ∀ {a x b y d}, D d → E a x = some d → E b y = some d → a = b ∧ x = y
  top : ∀ {a x}, E a x ≠ some r

/-- Going up from what the root reaches ends at the root, so there is no cycle below it. -/
theorem Rooted.acyclic {D : α → Prop} (h : Rooted E D r) (hd : Reach E r d) : ¬ TransGen (Edge E) d d := by
  induction hd with
  | refl =>
    intro hc
    obtain ⟨c, -, x, hx⟩ := TransGen.tail'_iff.mp hc
    exact h.top hx
  | @tail c e _ hedge ih =>
    intro hc
    obtain ⟨x, hx⟩ := hedge
    obtain ⟨c', hec', y, hy⟩ := TransGen.tail'_iff.mp hc
    obtain ⟨_, ⟨z, hz⟩, -⟩ := TransGen.head'_iff.mp hc
    -- the cycle comes back to `e` from its one parent, `c`
    obtain ⟨rfl, -⟩ := h.unique (h.dir hz) hx hy
    exact ih (TransGen.head' ⟨x, hx⟩ hec')

variable [DecidableEq α] [DecidableEq ι]

/-- The place `x` of `p` is emptied. -/
def cut (E : α → ι → Option α) (p : α) (x : ι) : α → ι → Option α := fun a y => if a = p ∧ y = x then none else E a y

/-- The place `y` of `q` gets `m`. -/
def put (E : α → ι → Option α) (q : α) (y : ι) (m : α) : α → ι → Option α :=
  fun a x => if a = q ∧ x = y then some m else E a x

theorem cut_eq_some : cut E p x a y = some b ↔ ¬ (a = p ∧ y = x) ∧ E a y = some b := by
  unfold cut
  split <;> simp [*]

theorem put_eq_some : put E q y m a x = some b ↔ (a = q ∧ x = y) ∧ m = b ∨ ¬ (a = q ∧ x = y) ∧ E a x = some b := by
  unfold put
  split <;> simp [*]

theorem Reach.of_cut (h : Reach (cut E p x) a b) : Reach E a b := h.mono fun _ _ _ hE => (cut_eq_some.mp hE).2

/-- A path goes past a place, or through it a last time. -/
theorem Reach.cut_or (h : Reach E a v) (p : α) (x : ι) :
    Reach (cut E p x) a v ∨ ∃ t, E p x = some t ∧ Reach E a p ∧ Reach (cut E p x) t v := by
  induction h with
  | refl => exact .inl .refl
  | @tail b c hb hedge ih =>
    obtain ⟨y, hy⟩ := hedge
    by_cases hp : b = p ∧ y = x
    · obtain ⟨rfl, rfl⟩ := hp
      exact .inr ⟨c, hy, hb, .refl⟩
    · have hcut : cut E p x b y = some c := cut_eq_some.mpr ⟨hp, hy⟩
      rcases ih with h | ⟨t, ht, hap, h⟩
      · exact .inl (h.edge hcut)
      · exact .inr ⟨t, ht, hap, h.edge hcut⟩

/-- From what is at a place the place is not needed. -/
theorem Reach.cut_self (h : Reach E m v) (hm : E p x = some m) : Reach (cut E p x) m v := by
  rcases h.cut_or p x with h | ⟨t, ht, -, h⟩
  · exact h
  · obtain rfl := Option.some.inj (hm.symm.trans ht)
    exact h

/-- Without cycles no place of `q` is needed to get to `q`. -/
theorem Reach.cut_target (h : Reach E a q) (hq : ¬ TransGen (Edge E) q q) (y : ι) : Reach (cut E q y) a q := by
  rcases h.cut_or q y with h | ⟨t, ht, -, h⟩
  · exact h
  · exact absurd (TransGen.head' ⟨y, ht⟩ h.of_cut) hq

theorem Rooted.cut {D : α → Prop} (h : Rooted E D r) (p : α) (x : ι) : Rooted (cut E p x) D r where
  dir ha := h.dir (cut_eq_some.mp ha).2
  unique hd ha hb := h.unique hd (cut_eq_some.mp ha).2 (cut_eq_some.mp hb).2
  top ha := h.top (cut_eq_some.mp ha).2

/-- A tree stays one when a node is put at a place, unless it is a directory that is elsewhere too. -/
theorem Rooted.put {D D' : α → Prop} (h : Rooted E D r) (hD : ∀ a, D a → D' a) (hD' : ∀ a, D' a → a ≠ m → D a)
    (hq : D q) (hm : m ≠ r) (hfree : D' m → ∀ a x, E a x ≠ some m) (y : ι) : Rooted (put E q y m) D' r where
  dir ha := by
    rcases put_eq_some.mp ha with ⟨⟨rfl, -⟩, -⟩ | ⟨-, ha⟩
    · exact hD _ hq
    · exact hD _ (h.dir ha)
  unique hd ha hb := by
    rcases put_eq_some.mp ha with ⟨⟨rfl, rfl⟩, rfl⟩ | ⟨-, ha'⟩ <;>
      rcases put_eq_some.mp hb with ⟨⟨rfl, rfl⟩, hmd⟩ | ⟨-, hb'⟩
    · exact ⟨rfl, rfl⟩
    · exact absurd hb' (hfree hd _ _)
    · exact absurd (hmd ▸ ha') (hfree (hmd ▸ hd) _ _)
    · refine h.unique (hD' _ hd ?_) ha' hb'
      intro h
      obtain rfl := h
      exact hfree hd _ _ ha'
  top ha := by
    rcases put_eq_some.mp ha with ⟨-, rfl⟩ | ⟨-, ha⟩
    · exact hm rfl
    · exact h.top ha

/-! ### What a change keeps -/

/-- After `m` is put at a place of `q`, not below itself, the root reaches
what is below `m`, and what it reached without that place. -/
theorem reach_put (hq : Reach E r q) (hcycle : ¬ TransGen (Edge E) q q) (hbelow : ¬ Reach E m q) :
    Reach (put E q y m) r v ↔ Reach E m v ∨ Reach (cut E q y) r v := by
  have hcut : ∀ {a b}, Reach (cut E q y) a b → Reach (put E q y m) a b := fun h =>
    h.mono fun _ _ _ hE => put_eq_some.mpr (.inr (cut_eq_some.mp hE))
  have hback : ∀ {a b}, Reach (cut (put E q y m) q y) a b → Reach (cut E q y) a b := fun h =>
    h.mono fun _ _ _ hE => by
      obtain ⟨hne, hE⟩ := cut_eq_some.mp hE
      rcases put_eq_some.mp hE with ⟨he, -⟩ | ⟨-, hE⟩
      · exact absurd he hne
      · exact cut_eq_some.mpr ⟨hne, hE⟩
  constructor
  · intro h
    rcases h.cut_or q y with h | ⟨t, ht, -, h⟩
    · exact .inr (hback h)
    · rcases put_eq_some.mp ht with ⟨-, rfl⟩ | ⟨hne, -⟩
      · exact .inl (hback h).of_cut
      · exact absurd ⟨rfl, rfl⟩ hne
  · intro h
    rcases h with h | h
    · rcases h.cut_or q y with h | ⟨-, -, hmq, -⟩
      · have hm : put E q y m q y = some m := put_eq_some.mpr (.inl ⟨⟨rfl, rfl⟩, rfl⟩)
        exact ((hcut (hq.cut_target hcycle y)).edge hm).trans (hcut h)
      · exact absurd hmq hbelow
    · exact hcut h

/-- Nothing below what was at a place of `q` is lost to `m`: it is below `m`, or reached without that place. -/
def Spares (E : α → ι → Option α) (r q : α) (y : ι) (m : α) : Prop :=
  ∀ t, E q y = some t → ∀ v, TransGen (Edge E) t v → Reach E m v ∨ Reach (cut E q y) r v

theorem spares_iff (hq : Reach E r q) (hcycle : ∀ {v}, Reach E r v → ¬ TransGen (Edge E) v v) :
    Spares E r q y m ↔
      ∀ v, Reach E r v → (Reach E m v ∨ Reach (cut E q y) r v) ∨ E q y = some v := by
  constructor
  · intro h v hv
    rcases hv.cut_or q y with hv | ⟨t, ht, -, htv⟩
    · exact .inl (.inr hv)
    · rcases reflTransGen_iff_eq_or_transGen.mp htv.of_cut with rfl | htv
      · exact .inr ht
      · exact .inl (h t ht v htv)
  · intro h t ht v htv
    have hrt : Reach E r t := hq.edge ht
    rcases h v (hrt.trans htv.to_reflTransGen) with h | hv
    · exact h
    · obtain rfl := Option.some.inj (ht.symm.trans hv)
      exact absurd htv (hcycle hrt)

/-- The same for a node moved from the place `x` of `p`. -/
theorem reach_move (hm : E p x = some m) (hq : Reach E r q) (hcycle : ¬ TransGen (Edge E) q q)
    (hbelow : ¬ Reach E m q) :
    Reach (put (cut E p x) q y m) r v ↔ Reach E m v ∨ Reach (cut E q y) r v := by
  have hcycle' : ¬ TransGen (Edge (cut E p x)) q q := fun h =>
    hcycle (TransGen.mono (edge_mono fun _ _ _ hE => (cut_eq_some.mp hE).2) _ _ h)
  have hq' : Reach (cut E p x) r q := by
    rcases hq.cut_or p x with h | ⟨t, ht, -, h⟩
    · exact h
    · obtain rfl := Option.some.inj (hm.symm.trans ht)
      exact absurd h.of_cut hbelow
  rw [reach_put hq' hcycle' fun h => hbelow h.of_cut]
  constructor
  · intro h
    rcases h with h | h
    · exact .inl h.of_cut
    · refine .inr (h.mono fun _ _ _ hE => ?_)
      obtain ⟨hne, hE⟩ := cut_eq_some.mp hE
      exact cut_eq_some.mpr ⟨hne, (cut_eq_some.mp hE).2⟩
  · intro h
    rcases h with h | h
    · exact .inl (h.cut_self hm)
    · have hcut : ∀ {a b}, Reach (cut (cut E q y) p x) a b → Reach (cut (cut E p x) q y) a b := fun h =>
        h.mono fun _ _ _ hE => by
          obtain ⟨hne, hE⟩ := cut_eq_some.mp hE
          obtain ⟨hne', hE⟩ := cut_eq_some.mp hE
          exact cut_eq_some.mpr ⟨hne', cut_eq_some.mpr ⟨hne, hE⟩⟩
      rcases h.cut_or p x with h | ⟨t, ht, -, h⟩
      · exact .inr (hcut h)
      · obtain rfl := Option.some.inj (hm.symm.trans (cut_eq_some.mp ht).2)
        exact .inl (hcut h).of_cut

/-- A directory put below itself is out of the root's reach. -/
theorem not_reach_move {D : α → Prop} (h : Rooted E D r) (hD : D m) (hm : E p x = some m) (hq : Reach E r q)
    (hDq : D q) (hbelow : Reach E m q) (hne : ¬ (p = q ∧ x = y)) :
    ¬ Reach (put (cut E p x) q y m) r m := by
  have hmr : m ≠ r := fun he => h.top (he ▸ hm)
  have hfree : ∀ a z, cut E p x a z ≠ some m := fun a z ha => by
    obtain ⟨hne, ha⟩ := cut_eq_some.mp ha
    exact hne (h.unique hD ha hm)
  have h' : Rooted (put (cut E p x) q y m) D r :=
    (h.cut p x).put (fun _ hd => hd) (fun _ hd _ => hd) hDq hmr (fun _ => hfree) y
  intro hreach
  refine h'.acyclic hreach ?_
  -- from `m` down to `q`, past both places, and back by the new one
  have hmq := hbelow.cut_target (h.acyclic hq) y
  have hpx : cut E q y p x = some m := cut_eq_some.mpr ⟨hne, hm⟩
  have hdown : Reach (put (cut E p x) q y m) m q := (hmq.cut_self hpx).mono fun _ _ _ hE => by
    obtain ⟨hne₁, hE⟩ := cut_eq_some.mp hE
    obtain ⟨hne₂, hE⟩ := cut_eq_some.mp hE
    exact put_eq_some.mpr (.inr ⟨hne₂, cut_eq_some.mpr ⟨hne₁, hE⟩⟩)
  exact TransGen.tail' hdown ⟨y, put_eq_some.mpr (.inl ⟨⟨rfl, rfl⟩, rfl⟩)⟩

/-- A cut loses nothing just in case what was at the place is still reached. -/
theorem reach_cut_iff (hm : E p x = some m) (hp : Reach E r p) :
    (∀ v, Reach E r v → Reach (cut E p x) r v) ↔ Reach (cut E p x) r m := by
  constructor
  · exact fun h => h m (hp.edge hm)
  · intro h v hv
    rcases hv.cut_or p x with hv | ⟨t, ht, -, hv⟩
    · exact hv
    · obtain rfl := Option.some.inj (hm.symm.trans ht)
      exact h.trans hv

/-- A leaf is cut off alone. -/
theorem reach_cut_leaf (hm : E p x = some m) (hleaf : ∀ y, E m y = none) (hv : Reach E r v) :
    Reach (cut E p x) r v ∨ v = m := by
  rcases hv.cut_or p x with hv | ⟨t, ht, -, hv⟩
  · exact .inl hv
  · obtain rfl := Option.some.inj (hm.symm.trans ht)
    exact .inr (hv.of_cut.eq_of_leaf hleaf)

/-- Below a directory nothing that is one is reached past its place. -/
theorem not_reach_cut_of_below {D : α → Prop} (h : Rooted E D r) (hm : E p x = some m) (hd : Reach E m d) (hD : D d) :
    ¬ Reach (cut E p x) r d := by
  induction hd with
  | refl =>
    intro hr
    rcases ReflTransGen.cases_tail hr with rfl | ⟨a, -, y, hy⟩
    · exact h.top hm
    · obtain ⟨hne, hy⟩ := cut_eq_some.mp hy
      exact hne (h.unique hD hy hm)
  | @tail c d _ hedge ih =>
    obtain ⟨z, hz⟩ := hedge
    intro hr
    rcases ReflTransGen.cases_tail hr with rfl | ⟨a, ha, y, hy⟩
    · exact h.top hz
    · obtain ⟨rfl, -⟩ := h.unique hD (cut_eq_some.mp hy).2 hz
      exact ih (h.dir hz) ha

/-! ### The places that hold a node -/

/-- The places in the root's reach that hold `n`. -/
def refs (E : α → ι → Option α) (r n : α) : Set (α × ι) := {place | Reach E r place.1 ∧ E place.1 place.2 = some n}

/-- What goes when the place `x` of `p` is cut: it, and the places out of reach then. -/
def drops (E : α → ι → Option α) (r p : α) (x : ι) : Set (α × ι) :=
  {place | place = (p, x) ∨ ¬ Reach (cut E p x) r place.1}

/-- What goes when `m` is put at the place `y` of `q`: what was there, and the
places that are below it, but not below `m`. -/
def replaces (E : α → ι → Option α) (r q : α) (y : ι) (m : α) : Set (α × ι) :=
  {place | place = (q, y) ∨ ¬ (Reach E m place.1 ∨ Reach (cut E q y) r place.1)}

theorem mem_diff_drops {S : Set (α × ι)} {place : α × ι} :
    place ∈ S \ drops E r p x ↔ place ∈ S ∧ place ≠ (p, x) ∧ Reach (cut E p x) r place.1 :=
  and_congr_right' (not_or.trans (and_congr_right' not_not))

theorem mem_diff_replaces {S : Set (α × ι)} {place : α × ι} :
    place ∈ S \ replaces E r q y m ↔
      place ∈ S ∧ place ≠ (q, y) ∧ (Reach E m place.1 ∨ Reach (cut E q y) r place.1) :=
  and_congr_right' (not_or.trans (and_congr_right' not_not))

theorem refs_cut {n : α} : refs (cut E p x) r n = refs E r n \ drops E r p x := by
  ext ⟨a, z⟩
  rw [mem_diff_drops, ne_eq, Prod.mk.injEq]
  constructor
  · intro ⟨hr, hE⟩
    obtain ⟨hne, hE⟩ := cut_eq_some.mp hE
    exact ⟨⟨hr.of_cut, hE⟩, hne, hr⟩
  · intro h
    obtain ⟨⟨-, hE⟩, hne, hr⟩ := h
    exact ⟨hr, cut_eq_some.mpr ⟨hne, hE⟩⟩

/-- Only the places of a leaf's own node go with it. -/
theorem mem_drops_leaf {n : α} {place : α × ι} (hm : E p x = some m) (hleaf : ∀ y, E m y = none)
    (h : place ∈ refs E r n) : place ∈ drops E r p x ↔ place = (p, x) := by
  refine or_iff_left fun hno => ?_
  rcases reach_cut_leaf hm hleaf h.1 with hr | hr
  · exact hno hr
  · have hE := h.2
    rw [hr, hleaf] at hE
    cases hE

theorem refs_put {n : α} (hq : Reach E r q) (hcycle : ¬ TransGen (Edge E) q q) (hbelow : ¬ Reach E m q)
    (hm : ∀ a z, Reach E m a → E a z = some n → Reach E r a) :
    refs (put E q y m) r n = {place | place = (q, y) ∧ m = n} ∪ refs E r n \ replaces E r q y m := by
  ext ⟨a, z⟩
  rw [Set.mem_union, mem_diff_replaces, ne_eq, Prod.mk.injEq]
  constructor
  · intro ⟨hr, hE⟩
    rcases put_eq_some.mp hE with ⟨⟨rfl, rfl⟩, hn⟩ | ⟨hne, hE⟩
    · exact .inl ⟨rfl, hn⟩
    · have hr := (reach_put hq hcycle hbelow).mp hr
      refine .inr ⟨⟨?_, hE⟩, hne, hr⟩
      rcases hr with hr | hr
      · exact hm a z hr hE
      · exact hr.of_cut
  · intro h
    rcases h with ⟨he, hn⟩ | ⟨⟨-, hE⟩, hne, hr⟩
    · obtain ⟨rfl, rfl⟩ := Prod.mk.inj he
      exact ⟨(reach_put hq hcycle hbelow).mpr (.inr (hq.cut_target hcycle z)), put_eq_some.mpr (.inl ⟨⟨rfl, rfl⟩, hn⟩)⟩
    · exact ⟨(reach_put hq hcycle hbelow).mpr hr, put_eq_some.mpr (.inr ⟨hne, hE⟩)⟩

theorem refs_move {n : α} (hm : E p x = some m) (hp : Reach E r p) (hq : Reach E r q)
    (hcycle : ¬ TransGen (Edge E) q q) (hbelow : ¬ Reach E m q) :
    refs (put (cut E p x) q y m) r n =
      {place | place = (q, y) ∧ m = n} ∪ (refs E r n \ replaces E r q y m) \ {(p, x)} := by
  have hreach : ∀ {v}, Reach (put (cut E p x) q y m) r v ↔ Reach E m v ∨ Reach (cut E q y) r v :=
    reach_move hm hq hcycle hbelow
  ext ⟨a, z⟩
  rw [Set.mem_union, Set.mem_sdiff, mem_diff_replaces, Set.mem_singleton_iff, ne_eq, Prod.mk.injEq, Prod.mk.injEq]
  constructor
  · intro ⟨hr, hE⟩
    rcases put_eq_some.mp hE with ⟨⟨rfl, rfl⟩, hn⟩ | ⟨hne, hE⟩
    · exact .inl ⟨rfl, hn⟩
    · obtain ⟨hne', hE⟩ := cut_eq_some.mp hE
      have hr := hreach.mp hr
      refine .inr ⟨⟨⟨?_, hE⟩, hne, hr⟩, hne'⟩
      rcases hr with hr | hr
      · exact (hp.edge hm).trans hr
      · exact hr.of_cut
  · intro h
    rcases h with ⟨he, hn⟩ | ⟨⟨⟨-, hE⟩, hne, hr⟩, hne'⟩
    · obtain ⟨rfl, rfl⟩ := Prod.mk.inj he
      exact ⟨hreach.mpr (.inr (hq.cut_target hcycle z)), put_eq_some.mpr (.inl ⟨⟨rfl, rfl⟩, hn⟩)⟩
    · exact ⟨hreach.mpr hr, put_eq_some.mpr (.inr ⟨hne, cut_eq_some.mpr ⟨hne', hE⟩⟩)⟩

/-- What is put out of reach changes nothing. -/
theorem refs_put_unreached {n : α} (hq : ¬ Reach E r q) : refs (put E q y m) r n = refs E r n := by
  have hreach : ∀ {v}, Reach (put E q y m) r v → Reach E r v := fun h => by
    induction h with
    | refl => exact .refl
    | @tail b c _ hedge ih =>
      obtain ⟨z, hz⟩ := hedge
      rcases put_eq_some.mp hz with ⟨⟨rfl, -⟩, -⟩ | ⟨-, hz⟩
      · exact absurd ih hq
      · exact ih.edge hz
  ext ⟨a, z⟩
  constructor
  · intro ⟨hr, hE⟩
    rcases put_eq_some.mp hE with ⟨⟨rfl, -⟩, -⟩ | ⟨-, hE⟩
    · exact absurd (hreach hr) hq
    · exact ⟨hreach hr, hE⟩
  · intro ⟨hr, hE⟩
    have hne : ∀ {b c : α} {w : ι}, Reach E r b → E b w = some c → put E q y m b w = some c := fun hb hE =>
      put_eq_some.mpr (.inr ⟨fun he => hq (he.1 ▸ hb), hE⟩)
    have hup : ∀ {v}, Reach E r v → Reach (put E q y m) r v := fun h => by
      induction h with
      | refl => exact .refl
      | @tail b c hb hedge ih =>
        obtain ⟨w, hw⟩ := hedge
        exact ih.edge (hne hb hw)
    exact ⟨hup hr, hne hr hE⟩

omit [DecidableEq α] [DecidableEq ι] in
/-- What is not the root is reached just in case a place holds it. -/
theorem refs_nonempty_iff {n : α} (hn : n ≠ r) : (refs E r n).Nonempty ↔ Reach E r n := by
  constructor
  · intro ⟨⟨a, z⟩, hr, hE⟩
    exact Reach.edge hr hE
  · intro h
    rcases ReflTransGen.cases_tail h with rfl | ⟨a, ha, z, hz⟩
    · exact absurd rfl hn
    · exact ⟨(a, z), ha, hz⟩

/-! ### Following places by name -/

omit [DecidableEq α] [DecidableEq ι]

/-- The node that a list of places leads to. -/
def follow (E : α → ι → Option α) : α → List ι → Option α
  | a, [] => some a
  | a, x :: l => (E a x).bind fun b => follow E b l

variable {k l : List ι}

theorem follow_cons : follow E a (x :: l) = some b ↔ ∃ c, E a x = some c ∧ follow E c l = some b :=
  Option.bind_eq_some_iff

theorem follow_append : follow E a (l ++ k) = some b ↔ ∃ c, follow E a l = some c ∧ follow E c k = some b := by
  induction l generalizing a with
  | nil => exact ⟨fun h => ⟨a, rfl, h⟩, fun ⟨c, hc, h⟩ => Option.some.inj hc ▸ h⟩
  | cons x l ih =>
    rw [List.cons_append, follow_cons]
    constructor
    · intro ⟨d, hd, h⟩
      obtain ⟨c, hc, h⟩ := ih.mp h
      exact ⟨c, follow_cons.mpr ⟨d, hd, hc⟩, h⟩
    · intro ⟨c, hc, h⟩
      obtain ⟨d, hd, hc⟩ := follow_cons.mp hc
      exact ⟨d, hd, ih.mpr ⟨c, hc, h⟩⟩

theorem follow_concat : follow E a (l ++ [x]) = some b ↔ ∃ c, follow E a l = some c ∧ E c x = some b := by
  rw [follow_append]
  refine exists_congr fun c => and_congr_right fun _ => ?_
  rw [follow_cons]
  exact ⟨fun ⟨d, hd, h⟩ => Option.some.inj h ▸ hd, fun h => ⟨b, h, rfl⟩⟩

theorem follow_mono (hE : ∀ c x d, E c x = some d → E' c x = some d) (h : follow E a l = some b) :
    follow E' a l = some b := by
  induction l generalizing a with
  | nil => exact h
  | cons x l ih =>
    obtain ⟨c, hc, h⟩ := follow_cons.mp h
    exact follow_cons.mpr ⟨c, hE _ _ _ hc, ih h⟩

theorem reach_of_follow (h : follow E a l = some b) : Reach E a b := by
  induction l generalizing a with
  | nil =>
    obtain rfl := Option.some.inj h
    exact .refl
  | cons x l ih =>
    obtain ⟨c, hc, h⟩ := follow_cons.mp h
    exact ReflTransGen.head ⟨x, hc⟩ (ih h)

/-- A directory of a tree has one name there. -/
theorem follow_unique {D : α → Prop} (h : Rooted E D r) (hd : D d) (hl : follow E r l = some d)
    (hk : follow E r k = some d) : l = k := by
  induction l using List.reverseRecOn generalizing d k with
  | nil =>
    obtain rfl := Option.some.inj hl
    cases k using List.reverseRecOn with
    | nil => rfl
    | append_singleton k y =>
      obtain ⟨c, -, hc⟩ := follow_concat.mp hk
      exact absurd hc h.top
  | append_singleton l x ih =>
    obtain ⟨a, hla, ha⟩ := follow_concat.mp hl
    cases k using List.reverseRecOn with
    | nil =>
      obtain rfl := Option.some.inj hk
      exact absurd ha h.top
    | append_singleton k y =>
      obtain ⟨b, hkb, hb⟩ := follow_concat.mp hk
      obtain ⟨rfl, rfl⟩ := h.unique hd ha hb
      rw [ih (h.dir ha) hla hkb]

variable [DecidableEq α] [DecidableEq ι]

/-- The name of a place that is cut leads nowhere. -/
theorem follow_cut (hl : follow E a l = some p) : follow (cut E p x) a (l ++ [x]) = none := by
  rw [Option.eq_none_iff_forall_ne_some]
  intro b hb
  obtain ⟨c, hc, hcut⟩ := follow_concat.mp hb
  obtain rfl := Option.some.inj (hl.symm.trans (follow_mono (fun _ _ _ hE => (cut_eq_some.mp hE).2) hc))
  exact (cut_eq_some.mp hcut).1 ⟨rfl, rfl⟩

/-- A name whose way does not go through the place is good without it. -/
theorem follow_cut_of_not (h : follow E a l = some b)
    (hno : ¬ ∃ m, E p x = some m ∧ Reach E a p ∧ Reach E m b) : follow (cut E p x) a l = some b := by
  induction l generalizing a with
  | nil => exact h
  | cons y l ih =>
    obtain ⟨c, hc, h⟩ := follow_cons.mp h
    refine follow_cons.mpr ⟨c, cut_eq_some.mpr ⟨?_, hc⟩, ih h ?_⟩
    · intro h
      obtain ⟨rfl, rfl⟩ := h
      exact hno ⟨c, hc, .refl, reach_of_follow h⟩
    · intro ⟨m, hm, hcp, hmb⟩
      exact hno ⟨m, hm, ReflTransGen.head ⟨y, hc⟩ hcp, hmb⟩

/-- A name is good as before, or goes through the place that is filled. -/
theorem follow_put (h : follow (put E q y m) a l = some b) : follow E a l = some b ∨
    ∃ l₁ l₂, l = l₁ ++ y :: l₂ ∧ follow E a l₁ = some q ∧ follow (put E q y m) m l₂ = some b := by
  induction l generalizing a with
  | nil => exact .inl h
  | cons x l ih =>
    obtain ⟨c, hc, h⟩ := follow_cons.mp h
    rcases put_eq_some.mp hc with ⟨⟨rfl, rfl⟩, rfl⟩ | ⟨-, hc⟩
    · exact .inr ⟨[], l, rfl, rfl, h⟩
    · rcases ih h with h | ⟨l₁, l₂, rfl, hq, h⟩
      · exact .inl (follow_cons.mpr ⟨c, hc, h⟩)
      · exact .inr ⟨x :: l₁, l₂, rfl, follow_cons.mpr ⟨c, hc, hq⟩, h⟩

/-- What is put at a free place, with nothing below it, is found there and nowhere else. -/
theorem follow_put_new {D : α → Prop} (h : Rooted E D r) (hl : follow E r l = some p) (hp : D p) (hfree : E p x = none)
    (hleaf : ∀ z, E m z = none) (hne : m ≠ p) :
    follow (put E p x m) r k = if k = l ++ [x] then some m else follow E r k := by
  have hup : ∀ c z d, E c z = some d → put E p x m c z = some d := fun c z d hE => by
    refine put_eq_some.mpr (.inr ⟨?_, hE⟩)
    intro h
    obtain ⟨rfl, rfl⟩ := h
    cases hfree.symm.trans hE
  split
  · next hk => exact hk ▸ follow_concat.mpr ⟨p, follow_mono hup hl, put_eq_some.mpr (.inl ⟨⟨rfl, rfl⟩, rfl⟩)⟩
  · next hk =>
    refine Option.ext fun b => ⟨fun hb => ?_, follow_mono hup⟩
    rcases follow_put hb with hb | ⟨l₁, l₂, rfl, hl₁, hb⟩
    · exact hb
    · obtain rfl := follow_unique h hp hl₁ hl
      cases l₂ with
      | nil => exact absurd rfl hk
      | cons z l₂ =>
        obtain ⟨c, hc, -⟩ := follow_cons.mp hb
        rcases put_eq_some.mp hc with ⟨⟨hmp, -⟩, -⟩ | ⟨-, hc⟩
        · exact absurd hmp hne
        · cases (hleaf z).symm.trans hc

/-- What is moved can be found under its old name just in case the new name
leads to the old one, and it has below it what that name then asks for. -/
theorem follow_move {D : α → Prop} (h : Rooted E D r) (hl : follow E r l = some p) (hx : E p x = some m)
    (hk : follow E r k = some q) (hq : D q) :
    (follow (put (cut E p x) q y m) r (l ++ [x])).isSome ↔
      ∃ rest, l ++ [x] = k ++ y :: rest ∧ (follow E r (l ++ [x] ++ rest)).isSome := by
  have hacyclic := h.acyclic (reach_of_follow hl)
  have hof : ∀ c z d, cut E p x c z = some d → E c z = some d := fun _ _ _ hE => (cut_eq_some.mp hE).2
  have hm : follow E r (l ++ [x]) = some m := follow_concat.mpr ⟨p, hl, hx⟩
  -- the new place is above the old one
  have habove : ∀ {rest}, l ++ [x] = k ++ y :: rest → Reach E q p := fun {rest} he => by
    rcases List.eq_nil_or_concat rest with rfl | ⟨rest, z, rfl⟩
    · obtain ⟨rfl, -⟩ := List.append_inj' he rfl
      obtain rfl := Option.some.inj (hl.symm.trans hk)
      exact .refl
    · rw [List.concat_eq_append, ← List.cons_append, ← List.append_assoc] at he
      obtain ⟨rfl, -⟩ := List.append_inj' he rfl
      obtain ⟨c, hc, hp⟩ := follow_append.mp hl
      obtain rfl := Option.some.inj (hk.symm.trans hc)
      exact reach_of_follow hp
  -- so what is moved has neither place below it
  have hbelow : Reach E q p → ¬ Reach E m q := fun hqp hmq =>
    hacyclic (TransGen.head' ⟨x, hx⟩ (hmq.trans hqp))
  constructor
  · intro hsome
    obtain ⟨v, hv⟩ := Option.isSome_iff_exists.mp hsome
    rcases follow_put hv with hv | ⟨l₁, rest, he, hq₁, hv⟩
    · cases (follow_cut hl).symm.trans hv
    obtain rfl := follow_unique h hq (follow_mono hof hq₁) hk
    refine ⟨rest, he, Option.isSome_iff_exists.mpr ⟨v, follow_append.mpr ⟨m, hm, ?_⟩⟩⟩
    rcases follow_put hv with hv | ⟨l₂, -, -, hq₂, -⟩
    · exact follow_mono hof hv
    · exact absurd (reach_of_follow (follow_mono hof hq₂)) (hbelow (habove he))
  · intro ⟨rest, he, hsome⟩
    obtain ⟨v, hv⟩ := Option.isSome_iff_exists.mp hsome
    obtain ⟨m', hm', hv⟩ := follow_append.mp hv
    obtain rfl := Option.some.inj (hm.symm.trans hm')
    have hqp := habove he
    -- neither way uses a place that changes
    have hup : ∀ c z d, cut (cut E p x) q y c z = some d → put (cut E p x) q y m c z = some d := fun c z d hE => by
      obtain ⟨hne, hE⟩ := cut_eq_some.mp hE
      exact put_eq_some.mpr (.inr ⟨hne, hE⟩)
    have hq₁ : follow (cut (cut E p x) q y) r k = some q := by
      refine follow_cut_of_not (follow_cut_of_not hk ?_) ?_
      · intro h
        obtain ⟨t, ht, -, htq⟩ := h
        obtain rfl := Option.some.inj (hx.symm.trans ht)
        exact hbelow hqp htq
      · intro h
        obtain ⟨t, ht, -, htq⟩ := h
        exact h.acyclic (reach_of_follow hk) (TransGen.head' ⟨y, hof _ _ _ ht⟩ htq.of_cut)
    have hv₁ : follow (cut (cut E p x) q y) m rest = some v := by
      refine follow_cut_of_not (follow_cut_of_not hv ?_) ?_
      · intro h
        obtain ⟨t, -, hmp, -⟩ := h
        exact hacyclic (TransGen.head' ⟨x, hx⟩ hmp)
      · intro h
        obtain ⟨t, -, hmq, -⟩ := h
        exact hbelow hqp hmq.of_cut
    rw [he]
    exact Option.isSome_iff_exists.mpr ⟨v, follow_append.mpr ⟨q, follow_mono hup hq₁,
      follow_cons.mpr ⟨m, put_eq_some.mpr (.inl ⟨⟨rfl, rfl⟩, rfl⟩), follow_mono hup hv₁⟩⟩⟩

end Places
