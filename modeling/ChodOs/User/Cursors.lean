/-
Threads of one address space (`clone` with `CLONE_VM`) and the ranges that
`alloc_mmap_vaddr` and a growing break hand out in it.

The cursors `mmap_next` and `brk_cur` are fields of each thread, copied when
it is made, so a thread that has not allocated since is behind the others
and hands out again what they already have.
-/
import ChodOs.User.Signal

namespace ChodOs

open StepSys UserSys

/-- A range handed out in an address space, for a mapping or for the heap. -/
structure Span where
  cr3 : Nat
  heap : Bool
  start : Nat
  stop : Nat
  deriving DecidableEq

/-- What a call does: a range goes out, or a break that is lowered gives one back. -/
inductive Grant
  | out (r : Span)
  | back (cr3 start stop : Nat)
  deriving DecidableEq

/-- The break goes from its old place to `new`. -/
def brkGrants (p : UserProc) (new : Nat) : List Grant :=
  if p.brkCur < new then [.out { cr3 := p.userCr3, heap := true, start := p.brkCur, stop := new }]
  else if new < p.brkCur then [.back p.userCr3 new p.brkCur]
  else []

inductive ShareOp
  | alloc (pages : Nat)
  | brk (addr : Nat)
  /-- `clone`, a switch, an exit: anything else that processes do. -/
  | other (op : UserOp)

namespace UserSys

/-- The current thread allocates, or something else happens. -/
def shareStep (s : UserSys) : ShareOp → Option (List Grant × UserSys)
  | .alloc pages => (s.procs.allocMmapVaddr pages).map fun (start, procs) =>
    (match s.procs.cur with
      | some p => if pages = 0 then [] else [.out { cr3 := p.userCr3, heap := false, start, stop := start + pages * 4096 }]
      | none => [],
      { s with procs })
  | .brk addr => (s.procs.sysBrk s.vmas addr).map fun (new, procs, vmas) =>
    (match s.procs.cur with
      | some p => brkGrants p new
      | none => [],
      { s with procs, vmas })
  | .other op => (s.step op).map fun (_, s) => ([], s)

end UserSys

/-! ## What has been handed out -/

namespace Span

def Apart (r r' : Span) : Prop :=
  r.cr3 = r'.cr3 → ∀ x, ¬((r.start ≤ x ∧ x < r.stop) ∧ (r'.start ≤ x ∧ x < r'.stop))

/-- What is left of a range without the addresses from `a` to `b`. -/
def cut (a b : Nat) (r : Span) : List Span :=
  [{ r with stop := min r.stop a }, { r with start := max r.start b }].filter fun r => decide (r.start < r.stop)

end Span

def Grant.span? : Grant → Option Span
  | .out r => some r
  | .back .. => none

/-- All ranges ever handed out. -/
def handed (h : List Grant) : List Span := h.filterMap Grant.span?

def Grant.apply (rs : List Span) : Grant → List Span
  | .out r => rs ++ [r]
  | .back cr3 start stop => rs.flatMap fun r => if r.cr3 = cr3 ∧ r.heap = true then r.cut start stop else [r]

/-- The ranges handed out and not given back. -/
def held (h : List Grant) : List Span := h.foldl Grant.apply []

def Grant.mark? (heap : Bool) (c : Nat) : Grant → Option Nat
  | .out r => if r.heap = heap ∧ r.cr3 = c then some r.stop else none
  | .back cr3 start _ => if heap = true ∧ cr3 = c then some start else none

/-- Where the cursor of an address space was left, by whichever thread moved it last. -/
def mark (h : List Grant) (heap : Bool) (c : Nat) : Option Nat := (h.filterMap (Grant.mark? heap c)).getLast?

/-- A new range starts where the last one of its kind ends or above, and
those of the other kind all lie under it or all above it. -/
def NotBehind (h : List Grant) (r : Span) : Prop :=
  (∀ m ∈ mark h r.heap r.cr3, m ≤ r.start) ∧
    ((∀ m ∈ mark h (!r.heap) r.cr3, m ≤ r.start) ∨ ∀ r' ∈ held h, r'.cr3 = r.cr3 → r'.heap = !r.heap → r.stop ≤ r'.start)

instance (h : List Grant) (r : Span) : Decidable (NotBehind h r) := by unfold NotBehind; infer_instance

/-- The cursor of the thread that allocates is not behind. -/
def UpToDate (h : List Grant) (s : UserSys) : ShareOp → Prop
  | .alloc pages => ∀ p ∈ s.procs.cur, pages ≠ 0 →
    NotBehind h { cr3 := p.userCr3, heap := false, start := p.mmapNext, stop := p.mmapNext + pages * 4096 }
  | .brk addr => ∀ p ∈ s.procs.cur, ∀ new ∈ p.brkTarget addr,
    (p.brkCur < new → NotBehind h { cr3 := p.userCr3, heap := true, start := p.brkCur, stop := new }) ∧
      (new < p.brkCur → ∀ m ∈ mark h true p.userCr3, m ≤ p.brkCur)
  | .other _ => True

instance (h : List Grant) (s : UserSys) (op : ShareOp) : Decidable (UpToDate h s op) := by
  induction op using ShareOp.casesOn <;> unfold UpToDate <;> infer_instance

/-! ## One call -/

section

variable {h : List Grant} {r : Span} {g : Grant} {c a b : Nat} {heap : Bool}

theorem held_append : held (h ++ [g]) = g.apply (held h) := List.foldl_append

theorem mark_append : mark (h ++ [g]) heap c = (g.mark? heap c).or (mark h heap c) := by
  rw [mark, List.filterMap_append]
  cases hg : g.mark? heap c <;> simp [hg, mark]

/-- Every range held ends where its cursor was left, or below, and no two share an address. -/
structure Tidy (h : List Grant) : Prop where
  apart : (held h).Pairwise Span.Apart
  under : ∀ r ∈ held h, ∃ m ∈ mark h r.heap r.cr3, r.stop ≤ m

theorem Tidy.out (ht : Tidy h) (hr : r.start ≤ r.stop) (hf : NotBehind h r) : Tidy (h ++ [.out r]) := by
  obtain ⟨hown, hother⟩ := hf
  constructor
  · rw [held_append, Grant.apply, List.pairwise_append]
    refine ⟨ht.apart, List.pairwise_singleton .., fun r' hr' q hq => ?_⟩
    obtain rfl := List.mem_singleton.mp hq
    intro hc x hx
    obtain ⟨m, hm, hle⟩ := ht.under r' hr'
    rw [hc] at hm
    by_cases hkind : r'.heap = q.heap
    · rw [hkind] at hm
      have := hown m hm
      omega
    · have hkind : r'.heap = !q.heap := by
        cases hr : r'.heap <;> cases hq : q.heap <;> simp_all
      rcases hother with hother | hother
      · rw [hkind] at hm
        have := hother m hm
        omega
      · have := hother r' hr' hc hkind
        omega
  · intro r' hr'
    rw [held_append, Grant.apply, List.mem_append] at hr'
    rw [mark_append]
    by_cases hsame : r.heap = r'.heap ∧ r.cr3 = r'.cr3
    · refine ⟨r.stop, by simp [Grant.mark?, hsame], ?_⟩
      rcases hr' with hr' | hr'
      · obtain ⟨m, hm, hle⟩ := ht.under r' hr'
        have := hown m (by rw [hsame.1, hsame.2]; exact hm)
        omega
      · rw [List.mem_singleton.mp hr']
    · rcases hr' with hr' | hr'
      · obtain ⟨m, hm, hle⟩ := ht.under r' hr'
        exact ⟨m, by simpa [Grant.mark?, hsame] using hm, hle⟩
      · exact absurd (List.mem_singleton.mp hr' ▸ ⟨rfl, rfl⟩) hsame

/-- What is left of a range lies in it. -/
theorem mem_cut {q : Span} (hq : q ∈ r.cut a b) : q.cr3 = r.cr3 ∧ q.heap = r.heap ∧ r.start ≤ q.start ∧ q.stop ≤ r.stop ∧
    q.start < q.stop ∧ (q.stop ≤ a ∨ b ≤ q.start) := by
  simp only [Span.cut, List.mem_filter, List.mem_cons, List.not_mem_nil, or_false, decide_eq_true_eq] at hq
  obtain ⟨rfl | rfl, hlt⟩ := hq
  · exact ⟨rfl, rfl, Nat.le_refl _, Nat.min_le_left .., hlt, .inl (Nat.min_le_right ..)⟩
  · exact ⟨rfl, rfl, Nat.le_max_left .., Nat.le_refl _, hlt, .inr (Nat.le_max_right ..)⟩

theorem Span.Apart.within {r r' q q' : Span} (h : r.Apart r') (hq : q.cr3 = r.cr3 ∧ r.start ≤ q.start ∧ q.stop ≤ r.stop)
    (hq' : q'.cr3 = r'.cr3 ∧ r'.start ≤ q'.start ∧ q'.stop ≤ r'.stop) : q.Apart q' := by
  intro hc x hx
  refine h (by rw [← hq.1, ← hq'.1, hc]) x ?_
  omega

theorem pairwise_cut (hab : a ≤ b) : (r.cut a b).Pairwise Span.Apart := by
  refine List.Pairwise.filter _ (List.pairwise_pair.mpr fun _ x hx => ?_)
  simp only at hx
  omega

theorem Tidy.back (ht : Tidy h) (hab : a ≤ b) (hmark : ∀ m ∈ mark h true c, m ≤ b) : Tidy (h ++ [.back c a b]) := by
  -- the pieces that a range leaves
  have hpiece : ∀ r q : Span, (q ∈ if r.cr3 = c ∧ r.heap = true then r.cut a b else [r]) →
      q.cr3 = r.cr3 ∧ r.start ≤ q.start ∧ q.stop ≤ r.stop := by
    intro r q hq
    split at hq
    · obtain ⟨hc, -, hlo, hhi, -⟩ := mem_cut hq
      exact ⟨hc, hlo, hhi⟩
    · rw [List.mem_singleton.mp hq]
      exact ⟨rfl, Nat.le_refl _, Nat.le_refl _⟩
  constructor
  · rw [held_append, Grant.apply, List.pairwise_flatMap]
    refine ⟨fun r _ => ?_, ht.apart.imp fun h q hq q' hq' => h.within (hpiece _ q hq) (hpiece _ q' hq')⟩
    split
    · exact pairwise_cut hab
    · exact List.pairwise_singleton ..
  · intro q hq
    rw [held_append, Grant.apply, List.mem_flatMap] at hq
    obtain ⟨r, hr, hq⟩ := hq
    obtain ⟨m, hm, hle⟩ := ht.under r hr
    rw [mark_append]
    split at hq
    · next hcut =>
      obtain ⟨hc, hheap, -, hhi, hlt, hside⟩ := mem_cut hq
      refine ⟨a, by simp [Grant.mark?, hc, hheap, hcut], ?_⟩
      have := hmark m (by rw [← hcut.1, ← hcut.2]; exact hm)
      omega
    · next hcut =>
      obtain rfl := List.mem_singleton.mp hq
      have hnone : Grant.mark? q.heap q.cr3 (.back c a b) = none := if_neg fun hboth => hcut ⟨hboth.2.symm, hboth.1⟩
      exact ⟨m, by rw [hnone]; exact hm, hle⟩

end

/-! ## Runs -/

section

variable {h es : List Grant} {s s' : UserSys} {op : ShareOp}

theorem Tidy.brk {p : UserProc} {new : Nat} (ht : Tidy h)
    (hgrow : p.brkCur < new → NotBehind h { cr3 := p.userCr3, heap := true, start := p.brkCur, stop := new })
    (hback : new < p.brkCur → ∀ m ∈ mark h true p.userCr3, m ≤ p.brkCur) : Tidy (h ++ brkGrants p new) := by
  unfold brkGrants
  split
  · next hlt => exact ht.out (Nat.le_of_lt hlt) (hgrow hlt)
  · split
    · next hlt => exact ht.back (Nat.le_of_lt hlt) (hback hlt)
    · rwa [List.append_nil]

/-- The break that `sys_brk` returns is the old one or its target. -/
theorem sysBrk_new {u u' : Uprocs} {vmas vmas' : VmaTable} {addr new : Nat} {p : UserProc} (hc : u.cur = some p)
    (hb : u.sysBrk vmas addr = some (new, u', vmas')) : new = p.brkCur ∨ new ∈ p.brkTarget addr := by
  simp only [Uprocs.sysBrk, hc] at hb
  split at hb
  · cases hb
    exact .inl rfl
  · next haddr =>
    obtain ⟨b, hup, hb⟩ := Option.bind_eq_some_iff.mp hb
    cases hb
    exact .inr (by rw [UserProc.brkTarget, if_neg haddr]; exact hup)

theorem tidy_step (ht : Tidy h) (hok : UpToDate h s op) (hs : s.shareStep op = some (es, s')) : Tidy (h ++ es) := by
  cases op with
  | alloc pages =>
    obtain ⟨⟨start, procs⟩, ha, he⟩ := Option.map_eq_some_iff.mp hs
    cases he
    cases hc : s.procs.cur with
    | none => exact (List.append_nil h).symm ▸ ht
    | some p =>
      simp only [Uprocs.allocMmapVaddr, hc] at ha
      obtain ⟨next, -, ha⟩ := Option.bind_eq_some_iff.mp ha
      cases ha
      dsimp only
      split
      · rwa [List.append_nil]
      · next hpages => exact ht.out (Nat.le_add_right ..) (hok p hc hpages)
  | brk addr =>
    obtain ⟨⟨new, procs, vmas⟩, hb, he⟩ := Option.map_eq_some_iff.mp hs
    cases he
    cases hc : s.procs.cur with
    | none => exact (List.append_nil h).symm ▸ ht
    | some p =>
      rcases sysBrk_new hc hb with rfl | hnew
      · exact ht.brk (fun hlt => absurd hlt (Nat.lt_irrefl _)) fun hlt => absurd hlt (Nat.lt_irrefl _)
      · obtain ⟨hgrow, hback⟩ := hok p hc new hnew
        exact ht.brk hgrow hback
  | other op =>
    obtain ⟨r, -, he⟩ := Option.map_eq_some_iff.mp hs
    cases he
    rwa [List.append_nil]

/-- Without a lowered break nothing is given back. -/
theorem held_eq_handed (h : List Grant) (hout : ∀ g ∈ h, ∃ r, g = .out r) : held h = handed h := by
  induction h using List.reverseRecOn with
  | nil => rfl
  | append_singleton h g ih =>
    obtain ⟨r, rfl⟩ := hout g (by simp)
    rw [held_append, ih fun g hg => hout g (List.mem_append_left _ hg), Grant.apply, handed, handed,
      List.filterMap_append]
    rfl

end

/-- As long as only threads allocate whose cursors are not behind, the ranges
held in an address space share no address; and where no break is lowered
these are all that were ever handed out. -/
theorem thread_ranges_apart {s₀ s : UserSys} {h : List Grant} (hr : Runs shareStep UpToDate s₀ h s) :
    (held h).Pairwise Span.Apart ∧ ((∀ g ∈ h, ∃ r, g = .out r) → (handed h).Pairwise Span.Apart) := by
  have ht : Tidy h := hr.invariant (fun h _ => Tidy h) ⟨.nil, nofun⟩ fun ht hok hs => tidy_step ht hok hs
  exact ⟨ht.apart, fun hout => held_eq_handed h hout ▸ ht.apart⟩

/-- A process makes a thread, which allocates and grows the heap before the process itself does. -/
theorem thread_ranges_apart_run : ∃ h s, Runs shareStep UpToDate (.boot (fun _ => 0) (fun _ _ => 0) 0 0 2) h s ∧
    h.length = 2 ∧ (held h).Pairwise Span.Apart := by
  obtain ⟨h, s, hr, hP⟩ := Runs.of_exec shareStep UpToDate (.boot (fun _ => 0) (fun _ _ => 0) 0 0 2)
    [.other (.register 2 0 5 userEnd), .other (.clone 0x100#64 0 0 0 0 userEnd 0 (userEnd + 0x20000)),
      .other (.yield userEnd), .alloc 1, .brk 0x1000]
    (fun h _ => h.length == 2) (by decide)
  exact ⟨h, s, hr, beq_iff_eq.mp hP, (thread_ranges_apart hr).1⟩

/-- Both allocate after the thread was made, and get the same range. -/
theorem same_range_twice : ∃ h s, Runs shareStep free (.boot (fun _ => 0) (fun _ _ => 0) 0 0 2) h s ∧
    ¬(handed h).Pairwise Span.Apart := by
  obtain ⟨h, s, hr, hP⟩ := Runs.of_exec shareStep free (.boot (fun _ => 0) (fun _ _ => 0) 0 0 2)
    [.other (.register 2 0 5 userEnd), .other (.clone 0x100#64 0 0 0 0 userEnd 0 (userEnd + 0x20000)), .alloc 1,
      .other (.yield userEnd), .alloc 1]
    (fun h _ => h == [.out { cr3 := 5, heap := false, start := 0x40000000, stop := 0x40001000 },
      .out { cr3 := 5, heap := false, start := 0x40000000, stop := 0x40001000 }]) (by decide)
  refine ⟨h, s, hr, fun hapart => ?_⟩
  rw [beq_iff_eq.mp hP] at hapart
  have htwice := List.rel_of_pairwise_cons hapart (List.mem_singleton.mpr rfl)
  exact htwice rfl 0x40000000 (by decide)

end ChodOs
