/-
`sys_select` (`syscall/pipe.rs`). The request and the answer share the
caller's three sets of 1024 bits; `sys_select` clears them before
`sys_select_inner` copies the request, so that nothing is ever asked for.
-/
import ChodOs.Fs.Epoll

namespace ChodOs

namespace Inputs

/-! ### Sets of descriptors -/

/-- `1 << (fd % 8)`. -/
def fdBit (fd : Nat) : UInt8 := 1 <<< UInt8.ofNat (fd % 8)

/-- `fd_isset`. -/
def fdIsset (mem : ByteMem) (fdsPtr fd : Nat) : Bool :=
  if fdsPtr = 0 ∨ 1024 ≤ fd then false else mem (fdsPtr + fd / 8) &&& fdBit fd != 0

/-- `fd_set_bit`. -/
def fdSetBit (mem : ByteMem) (fdsPtr fd : Nat) : ByteMem :=
  if fdsPtr = 0 ∨ 1024 ≤ fd then mem else mem.write (fdsPtr + fd / 8) [mem (fdsPtr + fd / 8) ||| fdBit fd]

/-- `fds_zero`. -/
def fdsZero (mem : ByteMem) (fdsPtr : Nat) : ByteMem := if fdsPtr = 0 then mem else mem.patch fdsPtr 128 fun _ => 0

/-! ### The call -/

/-- `orig_r` or `orig_w`: the copy of a set, all zero for none. -/
def copySet (mem : ByteMem) (fdsPtr : Nat) : Nat → UInt8 := fun i => if fdsPtr = 0 then 0 else mem (fdsPtr + i)

/-- One turn of the loop over the descriptors. -/
def selectTurn (w : Inputs) (rfds wfds : Nat) (origR origW : Nat → UInt8) (s : Nat × ByteMem) (fd : Nat) : Nat × ByteMem :=
  let s := if origR (fd / 8) &&& fdBit fd ≠ 0 ∧ w.isReadReady fd = true then (s.1 + 1, fdSetBit s.2 rfds fd) else s
  if origW (fd / 8) &&& fdBit fd ≠ 0 ∧ w.isWriteReady fd = true then (s.1 + 1, fdSetBit s.2 wfds fd) else s

/-- One pass of the outer loop: the sets are cleared and filled again. -/
def selectPass (w : Inputs) (nfds rfds wfds : Nat) (origR origW : Nat → UInt8) (mem : ByteMem) : Nat × ByteMem :=
  (List.range (min nfds 1024)).foldl (w.selectTurn rfds wfds origR origW) (0, fdsZero (fdsZero mem rfds) wfds)

/-- The outer loop; each pass sees one state of the inputs. `none`: it waits for more. -/
def selectLoop (nfds rfds wfds : Nat) (origR origW : Nat → UInt8) (blocking : Bool) :
    ByteMem → List Inputs → Option (Int × ByteMem)
  | _, [] => none
  | mem, w :: ws =>
    let (ready, mem) := w.selectPass nfds rfds wfds origR origW mem
    if 0 < ready ∨ blocking = false then some (ready, mem)
    else selectLoop nfds rfds wfds origR origW blocking mem ws

/-- `sys_select_inner`. -/
def sysSelectInner (mem : ByteMem) (nfds rfds wfds : Nat) (blocking : Bool) (ws : List Inputs) : Option (Int × ByteMem) :=
  selectLoop nfds rfds wfds (copySet mem rfds) (copySet mem wfds) blocking mem ws

/-- A `timeval` that is not zero, or none, is to wait. -/
def isBlocking (mem : ByteMem) (timeout : Nat) : Bool :=
  if timeout = 0 then true else mem.word timeout != 0 || mem.word (timeout + 8) != 0

/-- `sys_select`. Of its own loop over the descriptors nothing comes; the sets are cleared before it. -/
def sysSelect (mem : ByteMem) (nfds rfds wfds efds timeout : Nat) (ws : List Inputs) : Option (Int × ByteMem) :=
  sysSelectInner (fdsZero (fdsZero (fdsZero mem rfds) wfds) efds) nfds rfds wfds (isBlocking mem timeout) ws

/-! ### What is asked for, and what is due -/

/-- `fd` is asked for in the set at `fdsPtr`, among the first `nfds`. -/
def Requested (mem : ByteMem) (nfds fdsPtr fd : Nat) : Prop := fd < min nfds 1024 ∧ fdIsset mem fdsPtr fd = true

instance (mem : ByteMem) (nfds fdsPtr fd : Nat) : Decidable (Requested mem nfds fdsPtr fd) :=
  inferInstanceAs (Decidable (_ ∧ _))

/-- How many requests can be met: pairs of a descriptor and a set. -/
def due (w : Inputs) (mem : ByteMem) (nfds rfds wfds : Nat) : Nat :=
  (List.range (min nfds 1024)).countP (fun fd => fdIsset mem rfds fd && w.isReadReady fd) +
    (List.range (min nfds 1024)).countP fun fd => fdIsset mem wfds fd && w.isWriteReady fd

/-- The two sets at `rfds` and `wfds` are the requests in `mem` that can be met. -/
def SetsDue (w : Inputs) (mem : ByteMem) (nfds rfds wfds : Nat) (mem' : ByteMem) : Prop :=
  ∀ fd < 1024,
    (fdIsset mem' rfds fd = true ↔ Requested mem nfds rfds fd ∧ w.isReadReady fd = true) ∧
    (fdIsset mem' wfds fd = true ↔ Requested mem nfds wfds fd ∧ w.isWriteReady fd = true)

/-- The result is what is due: at once, or when it waits, for the first
inputs for which anything is. -/
def Reports (mem : ByteMem) (nfds rfds wfds : Nat) (blocking : Bool) (ws : List Inputs) (r : Option (Int × ByteMem)) :
    Prop :=
  match ws.find? fun w => !blocking || decide (0 < w.due mem nfds rfds wfds) with
  | none => r = none
  | some w => ∃ mem', r = some ((w.due mem nfds rfds wfds : Int), mem') ∧ w.SetsDue mem nfds rfds wfds mem'

variable {mem : ByteMem} {nfds rfds wfds : Nat} {w : Inputs} {origR origW : Nat → UInt8}

theorem due_eq_zero : w.due mem nfds rfds wfds = 0 ↔
    ∀ fd, ¬(Requested mem nfds rfds fd ∧ w.isReadReady fd = true) ∧ ¬(Requested mem nfds wfds fd ∧ w.isWriteReady fd = true) := by
  simp only [due, Nat.add_eq_zero_iff, List.countP_eq_zero, List.mem_range, Bool.and_eq_true, Requested]
  constructor
  · intro ⟨hr, hw⟩ fd
    exact ⟨fun h => hr fd h.1.1 ⟨h.1.2, h.2⟩, fun h => hw fd h.1.1 ⟨h.1.2, h.2⟩⟩
  · intro h
    exact ⟨fun fd hfd hr => (h fd).1 ⟨⟨hfd, hr.1⟩, hr.2⟩, fun fd hfd hw => (h fd).2 ⟨⟨hfd, hw.1⟩, hw.2⟩⟩

/-! ### Cleared sets -/

theorem fdsZero_self {p i : Nat} (hp : p ≠ 0) (hi : i < 128) : fdsZero mem p (p + i) = 0 := by
  rw [fdsZero, if_neg hp]
  exact ByteMem.patch_inside hi

theorem fdsZero_zero {p x : Nat} (h : mem x = 0) : fdsZero mem p x = 0 := by
  unfold fdsZero
  split
  · exact h
  · unfold ByteMem.patch
    split
    · rfl
    · exact h

/-- Of a cleared set no bit is set. -/
theorem fdIsset_zero {p fd : Nat} (h : p ≠ 0 → ∀ i < 128, mem (p + i) = 0) : fdIsset mem p fd = false := by
  unfold fdIsset
  split
  · rfl
  · next hp =>
    rw [h (fun h0 => hp (.inl h0)) (fd / 8) (by omega), UInt8.zero_and]
    rfl

/-! ### The request as it was copied -/

theorem fdBit_and {i j : Nat} : fdBit i &&& fdBit j ≠ 0 ↔ i % 8 = j % 8 := by
  have hbits : ∀ i < 8, ∀ j < 8, fdBit i &&& fdBit j ≠ 0 ↔ i = j := by decide
  have hmod : ∀ k, fdBit k = fdBit (k % 8) := fun k => by rw [fdBit, fdBit, Nat.mod_mod]
  rw [hmod i, hmod j]
  exact hbits _ (Nat.mod_lt _ (by decide)) _ (Nat.mod_lt _ (by decide))

theorem or_and_ne_zero {b x y : UInt8} : (b ||| x) &&& y ≠ 0 ↔ b &&& y ≠ 0 ∨ x &&& y ≠ 0 := by
  have hdistrib : (b ||| x) &&& y = (b &&& y) ||| (x &&& y) := by
    rw [← UInt8.toBitVec_inj]
    ext i hi
    simp [Bool.and_or_distrib_right]
  rw [hdistrib, Ne, UInt8.or_eq_zero_iff, not_and_or]

/-- Two sets that do not share a byte. -/
def Apart (p q : Nat) : Prop := p = 0 ∨ q = 0 ∨ p + 128 ≤ q ∨ q + 128 ≤ p

theorem Apart.symm {p q : Nat} (h : Apart p q) : Apart q p := by
  unfold Apart at *
  omega

theorem fdIsset_fdSetBit {p fd fd' : Nat} (hp : p ≠ 0) (hfd : fd < 1024) (hfd' : fd' < 1024) :
    fdIsset (fdSetBit mem p fd) p fd' = true ↔ fdIsset mem p fd' = true ∨ fd' = fd := by
  rw [fdIsset, fdIsset, fdSetBit, if_neg (by omega), if_neg (by omega), if_neg (by omega), bne_iff_ne, bne_iff_ne]
  by_cases hbyte : fd' / 8 = fd / 8
  · have hwrite : mem.write (p + fd / 8) [mem (p + fd / 8) ||| fdBit fd] (p + fd' / 8) =
        mem (p + fd / 8) ||| fdBit fd := by rw [hbyte]; simp [ByteMem.write]
    rw [hwrite, or_and_ne_zero, fdBit_and, hbyte]
    refine or_congr_right ?_
    omega
  · rw [ByteMem.write_outside (by rw [List.length_singleton]; omega)]
    refine (or_iff_left fun h => hbyte (by rw [h])).symm

theorem fdIsset_fdSetBit_apart {p q fd fd' : Nat} (h : Apart p q) :
    fdIsset (fdSetBit mem p fd) q fd' = fdIsset mem q fd' := by
  unfold fdIsset fdSetBit
  split
  · rfl
  · split
    · rfl
    · rw [ByteMem.write_outside]
      rw [List.length_singleton]
      unfold Apart at h
      omega

/-- What is copied of a set are its bits. -/
theorem copySet_bit {p fd : Nat} (hfd : fd < 1024) : copySet mem p (fd / 8) &&& fdBit fd ≠ 0 ↔ fdIsset mem p fd = true := by
  unfold copySet fdIsset
  by_cases hp : p = 0
  · simp [hp]
  · rw [if_neg hp, if_neg (by omega), bne_iff_ne]

theorem ne_zero_of_isset {p fd : Nat} (h : fdIsset mem p fd = true) : p ≠ 0 := by
  intro h
  obtain rfl := h
  cases h

/-- A descriptor that is due goes into its set, and the other set stays. -/
theorem mark_spec {p q n : Nat} {due : Prop} [Decidable due] (hp : due → p ≠ 0) (hn : n < 1024) (happart : Apart p q)
    {fd : Nat} (hfd : fd < 1024) :
    (fdIsset (if due then fdSetBit mem p n else mem) p fd = true ↔ fdIsset mem p fd = true ∨ due ∧ fd = n) ∧
      fdIsset (if due then fdSetBit mem p n else mem) q fd = fdIsset mem q fd := by
  split
  · next hdue => exact ⟨by rw [fdIsset_fdSetBit (hp hdue) hn hfd, and_iff_right hdue], fdIsset_fdSetBit_apart happart⟩
  · next hdue => exact ⟨(or_iff_left fun h => hdue h.1).symm, rfl⟩

/-- One turn, for the requests that were copied. -/
theorem selectTurn_eq {n : Nat} (hn : n < 1024) (s : Nat × ByteMem) :
    w.selectTurn rfds wfds (copySet mem rfds) (copySet mem wfds) s n =
      (s.1 + (if (fdIsset mem rfds n && w.isReadReady n) = true then 1 else 0) +
          (if (fdIsset mem wfds n && w.isWriteReady n) = true then 1 else 0),
        let m := if (fdIsset mem rfds n && w.isReadReady n) = true then fdSetBit s.2 rfds n else s.2
        if (fdIsset mem wfds n && w.isWriteReady n) = true then fdSetBit m wfds n else m) := by
  simp only [selectTurn, copySet_bit hn, Bool.and_eq_true]
  split <;> split <;> rfl

/-- After the turns of the first `n` descriptors the due ones are counted and in the sets. -/
theorem selectTurn_run {cleared : ByteMem} (happart : Apart rfds wfds)
    (hempty : ∀ fd, fdIsset cleared rfds fd = false ∧ fdIsset cleared wfds fd = false) {n : Nat} (hn : n ≤ 1024) :
    let s := (List.range n).foldl (w.selectTurn rfds wfds (copySet mem rfds) (copySet mem wfds)) (0, cleared)
    s.1 = (List.range n).countP (fun fd => fdIsset mem rfds fd && w.isReadReady fd) +
        (List.range n).countP (fun fd => fdIsset mem wfds fd && w.isWriteReady fd) ∧
      ∀ fd < 1024,
        (fdIsset s.2 rfds fd = true ↔ fd < n ∧ (fdIsset mem rfds fd && w.isReadReady fd) = true) ∧
        (fdIsset s.2 wfds fd = true ↔ fd < n ∧ (fdIsset mem wfds fd && w.isWriteReady fd) = true) := by
  induction n with
  | zero =>
    refine ⟨rfl, fun fd _ => ?_⟩
    simp [hempty fd]
  | succ n ih =>
    obtain ⟨hcount, hsets⟩ := ih (by omega)
    simp only [List.range_succ, List.foldl_append, List.foldl_cons, List.foldl_nil, List.countP_append,
      List.countP_singleton, selectTurn_eq (show n < 1024 by omega)]
    refine ⟨by omega, fun fd hfd => ?_⟩
    have hr : (fdIsset mem rfds n && w.isReadReady n) = true → rfds ≠ 0 := fun h =>
      ne_zero_of_isset (Bool.and_eq_true_iff.mp h).1
    have hw : (fdIsset mem wfds n && w.isWriteReady n) = true → wfds ≠ 0 := fun h =>
      ne_zero_of_isset (Bool.and_eq_true_iff.mp h).1
    have hlast : ∀ P : Nat → Prop, (fd < n ∧ P fd ∨ P n ∧ fd = n) ↔ fd < n + 1 ∧ P fd := fun P => by
      constructor
      · intro h
        rcases h with ⟨hlt, hP⟩ | ⟨hP, rfl⟩
        · exact ⟨by omega, hP⟩
        · exact ⟨by omega, hP⟩
      · intro h
        obtain ⟨hlt, hP⟩ := h
        rcases Nat.lt_succ_iff_lt_or_eq.mp hlt with hlt | rfl
        · exact .inl ⟨hlt, hP⟩
        · exact .inr ⟨hP, rfl⟩
    constructor
    · rw [(mark_spec hw (by omega) happart.symm hfd).2, (mark_spec hr (by omega) happart hfd).1, (hsets fd hfd).1, hlast
        fun fd => (fdIsset mem rfds fd && w.isReadReady fd) = true]
    · rw [(mark_spec hw (by omega) happart.symm hfd).1, (mark_spec hr (by omega) happart hfd).2, (hsets fd hfd).2, hlast
        fun fd => (fdIsset mem wfds fd && w.isWriteReady fd) = true]

/-- One pass counts what is due, and leaves the sets with that. -/
theorem selectPass_reports (happart : Apart rfds wfds) (cur : ByteMem) : ∃ mem',
    w.selectPass nfds rfds wfds (copySet mem rfds) (copySet mem wfds) cur = (w.due mem nfds rfds wfds, mem') ∧
      w.SetsDue mem nfds rfds wfds mem' := by
  have hempty : ∀ fd, fdIsset (fdsZero (fdsZero cur rfds) wfds) rfds fd = false ∧
      fdIsset (fdsZero (fdsZero cur rfds) wfds) wfds fd = false := fun fd =>
    ⟨fdIsset_zero fun hp i hi => fdsZero_zero (fdsZero_self hp hi), fdIsset_zero fun hp i hi => fdsZero_self hp hi⟩
  obtain ⟨hcount, hsets⟩ := @selectTurn_run mem rfds wfds w _ happart hempty _ (Nat.min_le_right nfds 1024)
  refine ⟨_, Prod.ext hcount rfl, fun fd hfd => ?_⟩
  rw [Requested, Requested, and_assoc, and_assoc, ← Bool.and_eq_true_iff, ← Bool.and_eq_true_iff]
  exact hsets fd hfd

/-- `sys_select_inner` is right about the request that it finds. -/
theorem sysSelectInner_reports (mem : ByteMem) (nfds : Nat) (happart : Apart rfds wfds) (blocking : Bool) (ws : List Inputs) :
    Reports mem nfds rfds wfds blocking ws (sysSelectInner mem nfds rfds wfds blocking ws) := by
  have hloop : ∀ cur, Reports mem nfds rfds wfds blocking ws
      (selectLoop nfds rfds wfds (copySet mem rfds) (copySet mem wfds) blocking cur ws) := by
    induction ws with
    | nil => exact fun _ => rfl
    | cons w ws ih =>
      intro cur
      obtain ⟨mem', hpass, hsets⟩ := @selectPass_reports mem nfds rfds wfds w happart cur
      have hstop : (0 < w.due mem nfds rfds wfds ∨ blocking = false) ↔
          (!blocking || decide (0 < w.due mem nfds rfds wfds)) = true := by
        rw [Bool.or_eq_true, Bool.not_eq_true', decide_eq_true_iff, or_comm]
      rw [selectLoop, hpass]
      by_cases hnow : (!blocking || decide (0 < w.due mem nfds rfds wfds)) = true
      · dsimp only
        rw [if_pos (hstop.mpr hnow), Reports, List.find?_cons, hnow]
        exact ⟨mem', rfl, hsets⟩
      · dsimp only
        rw [if_neg (mt hstop.mp hnow), Reports, List.find?_cons, Bool.eq_false_of_not_eq_true hnow]
        exact ih mem'
  exact hloop mem

/-! ### The request as it is cleared -/

/-- A pass without requests leaves the sets empty. -/
theorem selectPass_nothing (hR : ∀ i < 128, origR i = 0) (hW : ∀ i < 128, origW i = 0) :
    w.selectPass nfds rfds wfds origR origW mem = (0, fdsZero (fdsZero mem rfds) wfds) := by
  have hturn : ∀ (l : List Nat), (∀ fd ∈ l, fd < 1024) → ∀ s, l.foldl (w.selectTurn rfds wfds origR origW) s = s := by
    intro l
    induction l with
    | nil => exact fun _ _ => rfl
    | cons fd l ih =>
      intro hl s
      have hfd : fd / 8 < 128 := by
        have := hl fd (by simp)
        omega
      have hs : w.selectTurn rfds wfds origR origW s fd = s := by
        simp only [selectTurn, hR _ hfd, hW _ hfd, UInt8.zero_and, ne_eq, not_true_eq_false, false_and, if_false]
      rw [List.foldl_cons, hs, ih fun fd' h' => hl fd' (List.mem_cons_of_mem _ h')]
  exact hturn _ (fun fd hfd => by rw [List.mem_range] at hfd; omega) _

/-- Without requests a wait never ends, and no wait ends with nothing. -/
theorem selectLoop_nothing (hR : ∀ i < 128, origR i = 0) (hW : ∀ i < 128, origW i = 0) (blocking : Bool)
    (ws : List Inputs) : selectLoop nfds rfds wfds origR origW blocking mem ws =
      if blocking then none else ws.head?.map fun _ => (0, fdsZero (fdsZero mem rfds) wfds) := by
  induction ws generalizing mem with
  | nil => cases blocking <;> rfl
  | cons w ws ih =>
    rw [selectLoop, selectPass_nothing hR hW]
    cases blocking with
    | false => rfl
    | true => exact ih

/-- Of the request nothing is left when it is copied. -/
theorem copySet_cleared (efds i : Nat) (hi : i < 128) :
    copySet (fdsZero (fdsZero (fdsZero mem rfds) wfds) efds) rfds i = 0 ∧
      copySet (fdsZero (fdsZero (fdsZero mem rfds) wfds) efds) wfds i = 0 := by
  unfold copySet
  constructor
  · split
    · rfl
    · next hp => exact fdsZero_zero (fdsZero_zero (fdsZero_self hp hi))
  · split
    · rfl
    · next hp => exact fdsZero_zero (fdsZero_self hp hi)

/-- So `select` returns 0 with empty sets, or waits for ever. -/
theorem sysSelect_eq (mem : ByteMem) (nfds rfds wfds efds timeout : Nat) (ws : List Inputs) : ∃ mem',
    (∀ fd, fdIsset mem' rfds fd = false ∧ fdIsset mem' wfds fd = false) ∧
    sysSelect mem nfds rfds wfds efds timeout ws =
      if isBlocking mem timeout then none else ws.head?.map fun _ => (0, mem') := by
  refine ⟨_, fun fd => ?_, selectLoop_nothing (fun i hi => (copySet_cleared efds i hi).1)
    (fun i hi => (copySet_cleared efds i hi).2) _ ws⟩
  exact ⟨fdIsset_zero fun hp i hi => fdsZero_zero (fdsZero_self hp hi), fdIsset_zero fun hp i hi => fdsZero_self hp hi⟩

/-- `select` reports the descriptors that are asked for and ready exactly
when there are none: at the time of the call, or at any time, if it waits. -/
theorem select_reports_iff (mem : ByteMem) (nfds rfds wfds efds timeout : Nat) (ws : List Inputs) :
    Reports mem nfds rfds wfds (isBlocking mem timeout) ws (sysSelect mem nfds rfds wfds efds timeout ws) ↔
      ∀ w ∈ if isBlocking mem timeout then ws else ws.take 1, ∀ fd,
        ¬(Requested mem nfds rfds fd ∧ w.isReadReady fd = true) ∧
          ¬(Requested mem nfds wfds fd ∧ w.isWriteReady fd = true) := by
  obtain ⟨mem', hempty, hrun⟩ := sysSelect_eq mem nfds rfds wfds efds timeout ws
  simp only [← due_eq_zero]
  rw [hrun, Reports]
  cases isBlocking mem timeout with
  | true =>
    simp only [Bool.not_true, Bool.false_or, if_true]
    split
    · next hnone =>
      refine iff_of_true trivial fun w hw => ?_
      simpa using List.find?_eq_none.mp hnone w hw
    · next w hsome =>
      refine iff_of_false (by simp) fun hall => ?_
      have hdue := List.find?_some hsome
      rw [hall w (List.mem_of_find?_eq_some hsome)] at hdue
      cases hdue
  | false =>
    cases ws with
    | nil => simp
    | cons w ws =>
      have hsets : w.due mem nfds rfds wfds = 0 → w.SetsDue mem nfds rfds wfds mem' := by
        intro hdue fd _
        obtain ⟨hr, hw⟩ := due_eq_zero.mp hdue fd
        rw [(hempty fd).1, (hempty fd).2]
        exact ⟨iff_of_false Bool.false_ne_true hr, iff_of_false Bool.false_ne_true hw⟩
      simp only [Bool.not_false, Bool.true_or, List.find?_cons_of_pos, Bool.false_eq_true, if_false, List.head?_cons,
        Option.map_some, List.take_succ_cons, List.take_zero, List.mem_singleton, forall_eq]
      constructor
      · intro h
        obtain ⟨_, hr, _⟩ := h
        have hcount := congrArg Prod.fst (Option.some.inj hr)
        exact (Int.natCast_eq_zero.mp hcount.symm)
      · intro hdue
        exact ⟨mem', by rw [hdue]; rfl, hsets hdue⟩

/-- Standard output is asked for, and is ready, but no call says so: with a
zero timeout the result is 0, and without one there is none. -/
theorem select_loses_requests : ∃ (mem : ByteMem) (w : Inputs), Requested mem 2 0x1000 1 ∧ w.isWriteReady 1 = true ∧
    isBlocking mem 0x2000 = false ∧
    ¬Reports mem 2 0 0x1000 (isBlocking mem 0x2000) [w] (sysSelect mem 2 0 0x1000 0 0x2000 [w]) ∧
    ¬Reports mem 2 0 0x1000 (isBlocking mem 0) [w] (sysSelect mem 2 0 0x1000 0 0 [w]) := by
  let mem : ByteMem := fun a => if a = 0x1000 then 2 else 0
  let w : Inputs := ⟨FdSys.boot, false, false⟩
  have hzero : isBlocking mem 0x2000 = false := by
    have hword : ∀ a, 0x2000 ≤ a → mem.word a = 0 := fun a ha =>
      ByteMem.word_zero fun x hx _ => if_neg (by omega)
    rw [isBlocking, if_neg (by decide), hword _ (by decide), hword _ (by decide)]
    rfl
  have hdue : w.due mem 2 0 0x1000 = 1 := by decide
  refine ⟨mem, w, by decide, by decide, hzero, fun hr => ?_, fun hr => ?_⟩
  · obtain ⟨mem', -, hrun⟩ := sysSelect_eq mem 2 0 0x1000 0 0x2000 [w]
    rw [hrun, hzero] at hr
    simp [Reports, hdue] at hr
  · obtain ⟨mem', -, hrun⟩ := sysSelect_eq mem 2 0 0x1000 0 0 [w]
    rw [hrun, show isBlocking mem 0 = true from rfl] at hr
    simp [Reports, hdue] at hr

end Inputs

end ChodOs
