/-
The segment and interrupt tables (`interrupts/gdt.rs`, `interrupts/idt.rs`)
as the processor reads them: which selectors load, where each vector goes
and on which stack, and how user mode gets into the kernel.
-/
import ChodOs.Trap.Cpu

namespace ChodOs

/-! ## The segments -/

def kernelCodeSel : Nat := 0x08
def kernelDataSel : Nat := 0x10
def tssSel : Nat := 0x18
def userCodeSel : Nat := 0x28
def userDataSel : Nat := 0x30

/-- `USER_CS_RPL3` -/
def userCs : Nat := userCodeSel ||| 3

/-- `USER_SS_RPL3` -/
def userSs : Nat := userDataSel ||| 3

/-- `size_of::<Tss>() - 1` -/
def tssLimit : Nat := 103

/-- The lower half of the descriptor of the task state at `tss`. -/
def tssLow (tss : Nat) : Nat :=
  (tssLimit &&& 0xFFFF) ||| ((tss &&& 0x00FFFFFF) <<< 16) ||| (0x89 <<< 40) ||| (((tssLimit >>> 16) &&& 0xF) <<< 48) |||
    (((tss >>> 24) &&& 0xFF) <<< 56)

/-- `GDT` after `gdt::init`. -/
def gdt (tss : Nat) : List Nat :=
  [0, 0x00af9a000000ffff, 0x00cf92000000ffff, tssLow tss, tss >>> 32, 0x00affa000000ffff, 0x00cff2000000ffff]

/-- The bits of the halves of the descriptor do not meet. -/
theorem tssLow_eq (tss : Nat) :
    tssLow tss = tssLimit + 2 ^ 16 * (tss % 2 ^ 24) + 2 ^ 40 * 0x89 + 2 ^ 56 * (tss / 2 ^ 24 % 2 ^ 8) := by
  have hlow : tss &&& 0x00FFFFFF = tss % 2 ^ 24 := Nat.and_two_pow_sub_one_eq_mod tss 24
  have hhigh : tss >>> 24 &&& 0xFF = tss / 2 ^ 24 % 2 ^ 8 := by
    rw [Nat.shiftRight_eq_div_pow]
    exact Nat.and_two_pow_sub_one_eq_mod _ 8
  have hbase : tssLimit ||| ((tss % 2 ^ 24) <<< 16) = 2 ^ 16 * (tss % 2 ^ 24) + tssLimit := by
    rw [Nat.or_comm, ← Nat.shiftLeft_add_eq_or_of_lt (by decide), Nat.shiftLeft_eq, Nat.mul_comm]
  have haccess : 2 ^ 16 * (tss % 2 ^ 24) + tssLimit ||| 0x89 <<< 40 =
      2 ^ 40 * 0x89 + (2 ^ 16 * (tss % 2 ^ 24) + tssLimit) := by
    rw [Nat.or_comm, ← Nat.shiftLeft_add_eq_or_of_lt (by unfold tssLimit; omega), Nat.shiftLeft_eq, Nat.mul_comm]
  have htop : 2 ^ 40 * 0x89 + (2 ^ 16 * (tss % 2 ^ 24) + tssLimit) ||| (tss / 2 ^ 24 % 2 ^ 8) <<< 56 =
      2 ^ 56 * (tss / 2 ^ 24 % 2 ^ 8) + (2 ^ 40 * 0x89 + (2 ^ 16 * (tss % 2 ^ 24) + tssLimit)) := by
    rw [Nat.or_comm, ← Nat.shiftLeft_add_eq_or_of_lt (by unfold tssLimit; omega), Nat.shiftLeft_eq, Nat.mul_comm]
  have hlimit : (tssLimit >>> 16 &&& 0xF) <<< 48 = 0 := rfl
  rw [tssLow, hlow, hhigh, hlimit, Nat.or_zero, show tssLimit &&& 0xFFFF = tssLimit from rfl, hbase, haccess, htop]
  omega

/-- What a processor takes from the two halves as the address of the task state. -/
theorem tss_base (tss : Nat) :
    tssLow tss / 2 ^ 16 % 2 ^ 24 + 2 ^ 24 * (tssLow tss / 2 ^ 56) + 2 ^ 32 * (tss >>> 32) = tss := by
  rw [tssLow_eq, Nat.shiftRight_eq_div_pow]
  unfold tssLimit
  omega

/-- The access bytes of the table. -/
theorem access_gdt {tss k : Nat} (h : tss < 2 ^ 64) :
    ((gdt tss)[k]?.map fun d => d / 2 ^ 40 % 256) = [0, 0x9A, 0x92, 0x89, 0, 0xFA, 0xF2][k]? := by
  have hlow : tssLow tss / 2 ^ 40 % 256 = 0x89 := by
    rw [tssLow_eq]
    unfold tssLimit
    omega
  have hhigh : tss >>> 32 / 2 ^ 40 % 256 = 0 := by
    rw [Nat.shiftRight_eq_div_pow]
    omega
  rw [← List.getElem?_map, gdt, List.map_cons, List.map_cons, List.map_cons, List.map_cons, List.map_cons, hlow, hhigh]
  rfl

/-- What holds of the selectors that the table has, for each of its places. -/
theorem forall_sel {P : Nat → Prop} {sel : Nat} (hplace : ∀ k < 7, ∀ rpl < 4, P (8 * k + rpl))
    (hlocal : sel / 4 % 2 = 1 → P sel) (hbeyond : 7 ≤ sel / 8 → P sel) : P sel := by
  rcases Nat.mod_two_eq_zero_or_one (sel / 4) with ht | ht
  · rcases Nat.lt_or_ge (sel / 8) 7 with hk | hk
    · rw [show sel = 8 * (sel / 8) + sel % 4 by omega]
      exact hplace _ hk _ (Nat.mod_lt _ (by omega))
    · exact hbeyond hk
  · exact hlocal ht

/-- A selector loads by the access byte that it selects. -/
theorem selects_gdt {tss : Nat} (h : tss < 2 ^ 64) (sel : Nat) : selects (gdt tss) sel =
    if sel / 4 % 2 = 0 then [0, 0x9A, 0x92, 0x89, 0, 0xFA, 0xF2][sel / 8]? else none := by
  rw [selects, access_gdt h]

theorem selects_beyond {tss sel : Nat} (h : tss < 2 ^ 64) (hk : 7 ≤ sel / 8) : selects (gdt tss) sel = none := by
  rw [selects_gdt h, List.getElem?_eq_none hk, ite_self]

theorem selects_local {tss sel : Nat} (h : tss < 2 ^ 64) (ht : sel / 4 % 2 = 1) : selects (gdt tss) sel = none := by
  rw [selects_gdt h, if_neg (by omega)]

/-- The code segments. -/
theorem codeLoads_gdt {tss : Nat} (h : tss < 2 ^ 64) (sel : Nat) :
    codeLoads (gdt tss) sel = true ↔ sel = kernelCodeSel ∨ sel = userCs := by
  have hcode : kernelCodeSel = 8 := rfl
  have huser : userCs = 43 := rfl
  refine forall_sel (P := fun sel => codeLoads (gdt tss) sel = true ↔ sel = kernelCodeSel ∨ sel = userCs) ?_ ?_ ?_
  · simp only [codeLoads, selects_gdt h]
    decide
  · intro ht
    rw [codeLoads, selects_local h ht, Option.any_none, hcode, huser]
    exact iff_of_false Bool.false_ne_true (by omega)
  · intro hk
    rw [codeLoads, selects_beyond h hk, Option.any_none, hcode, huser]
    exact iff_of_false Bool.false_ne_true (by omega)

/-- The stack segments: the kernel's code also goes with none at all. -/
theorem stackLoads_gdt {tss : Nat} (h : tss < 2 ^ 64) (cs sel : Nat) : stackLoads (gdt tss) cs sel = true ↔
    sel % 4 = cs % 4 ∧ (sel / 4 = 0 ∧ cs % 4 ≠ 3 ∨ sel = kernelDataSel ∨ sel = userSs) := by
  have hdata : kernelDataSel = 16 := rfl
  have huser : userSs = 51 := rfl
  have hany : ((selects (gdt tss) sel).any fun a => segmentOf a sel && a / 8 % 2 == 0 && a / 2 % 2 == 1) = true ↔
      sel = kernelDataSel ∨ sel = userSs := by
    refine forall_sel (P := fun sel => ((selects (gdt tss) sel).any fun a =>
      segmentOf a sel && a / 8 % 2 == 0 && a / 2 % 2 == 1) = true ↔ sel = kernelDataSel ∨ sel = userSs) ?_ ?_ ?_
    · simp only [selects_gdt h]
      decide
    · intro ht
      rw [selects_local h ht, Option.any_none, hdata, huser]
      exact iff_of_false Bool.false_ne_true (by omega)
    · intro hk
      rw [selects_beyond h hk, Option.any_none, hdata, huser]
      exact iff_of_false Bool.false_ne_true (by omega)
  rw [stackLoads, Bool.and_eq_true, beq_iff_eq, and_congr_right_iff]
  intro _
  split
  · next hnull => rw [bne_iff_ne, hdata, huser]; omega
  · next hnull => rw [hany]; omega

/-- The pairs of selectors that an `iretq` takes. -/
theorem returns_gdt {tss cpl cs ss : Nat} (h : tss < 2 ^ 64) : returns (gdt tss) cpl cs ss = true ↔
    cpl = 0 ∧ cs = kernelCodeSel ∧ (ss = 0 ∨ ss = kernelDataSel) ∨ cpl ≤ 3 ∧ cs = userCs ∧ ss = userSs := by
  have hcode : kernelCodeSel = 8 := rfl
  have hdata : kernelDataSel = 16 := rfl
  have hucode : userCs = 43 := rfl
  have hudata : userSs = 51 := rfl
  rw [returns, Bool.and_eq_true, Bool.and_eq_true, decide_eq_true_iff, codeLoads_gdt h, stackLoads_gdt h, hcode, hdata,
    hucode, hudata]
  omega

/-! ## The vectors -/

def intGate : Nat := 0x8E
def trapGate : Nat := 0x8F
def trapGateDpl3 : Nat := 0xEF

structure IdtEntry where
  offsetLow : Nat
  selector : Nat
  ist : Nat
  typeAttr : Nat
  offsetMid : Nat
  offsetHigh : Nat
  reserved : Nat

namespace IdtEntry

def absent : IdtEntry := ⟨0, 0, 0, 0, 0, 0, 0⟩

/-- The entry that `set` leaves, whatever was there. -/
def set (handler gate ist : Nat) : IdtEntry where
  offsetLow := handler % 2 ^ 16
  offsetMid := handler / 2 ^ 16 % 2 ^ 16
  offsetHigh := handler / 2 ^ 32 % 2 ^ 32
  selector := kernelCodeSel
  ist := ist % 8
  typeAttr := gate
  reserved := 0

/-- The packed structure. -/
def bytes (e : IdtEntry) : List UInt8 :=
  ByteMem.leBytes 2 e.offsetLow ++ ByteMem.leBytes 2 e.selector ++ ByteMem.leBytes 1 e.ist ++
    ByteMem.leBytes 1 e.typeAttr ++ ByteMem.leBytes 2 e.offsetMid ++ ByteMem.leBytes 4 e.offsetHigh ++
    ByteMem.leBytes 4 e.reserved

end IdtEntry

/-- `IDT` after `idt::init`, by the addresses of the stubs. -/
def idt (isr : Nat → Nat) : Nat → IdtEntry :=
  let exceptions := (List.range 32).foldl
    (fun t vec => Function.update t vec (.set (isr vec) trapGate (if vec = 2 then 1 else if vec = 8 then 2 else 0)))
    fun _ => .absent
  let irqs := [0x20, 0x21, 0x2C, 0x40].foldl (fun t vec => Function.update t vec (.set (isr vec) intGate 0)) exceptions
  Function.update irqs 0x80 (.set (isr 0x80) trapGateDpl3 0)

/-- The table at `base`, sixteen bytes an entry. -/
def storeIdt (m : ByteMem) (base : Nat) (t : Nat → IdtEntry) : ByteMem :=
  m.patch base (16 * 256) fun i => ((t (i / 16)).bytes[i % 16]?).getD 0

/-- What an entry says, read. -/
def IdtEntry.gate (e : IdtEntry) : Option Gate :=
  if e.typeAttr / 16 % 2 = 0 ∧ 14 ≤ e.typeAttr % 16 then
    some {
      handler := e.offsetLow + 2 ^ 16 * e.offsetMid + 2 ^ 32 * e.offsetHigh
      selector := e.selector
      ist := e.ist
      trap := e.typeAttr % 16 = 15
      dpl := e.typeAttr / 32 % 4
      present := 128 ≤ e.typeAttr }
  else none

/-- The fields fit their places. -/
structure IdtEntry.Fits (e : IdtEntry) : Prop where
  offsetLow : e.offsetLow < 2 ^ 16
  selector : e.selector < 2 ^ 16
  ist : e.ist < 8
  typeAttr : e.typeAttr < 2 ^ 8
  offsetMid : e.offsetMid < 2 ^ 16
  offsetHigh : e.offsetHigh < 2 ^ 32

theorem IdtEntry.Fits.absent : IdtEntry.absent.Fits := by constructor <;> decide

theorem IdtEntry.Fits.set {handler gate ist : Nat} (h : gate < 2 ^ 8) : (IdtEntry.set handler gate ist).Fits where
  offsetLow := Nat.mod_lt _ (by decide)
  selector := (by decide : kernelCodeSel < 2 ^ 16)
  ist := Nat.mod_lt _ (by decide)
  typeAttr := h
  offsetMid := Nat.mod_lt _ (by decide)
  offsetHigh := Nat.mod_lt _ (by decide)

theorem IdtEntry.length_bytes (e : IdtEntry) : e.bytes.length = 16 := by
  simp only [bytes, List.length_append, ByteMem.length_leBytes]

/-- The bytes of an entry are at its place. -/
theorem holds_storeIdt {m : ByteMem} {base v : Nat} {t : Nat → IdtEntry} (hv : v < 256) :
    (storeIdt m base t).Holds (base + 16 * v) (t v).bytes := by
  refine List.ext_getElem? fun i => ?_
  rw [IdtEntry.length_bytes, ByteMem.read, List.getElem?_map]
  rcases Nat.lt_or_ge i 16 with hi | hi
  · have hlen : i < (t v).bytes.length := by rwa [IdtEntry.length_bytes]
    rw [List.getElem?_range hi, Option.map_some, storeIdt, Nat.add_assoc, ByteMem.patch_inside (by omega),
      show (16 * v + i) / 16 = v by omega, show (16 * v + i) % 16 = i by omega, List.getElem?_eq_getElem hlen,
      Option.getD_some]
  · rw [List.getElem?_eq_none (by rwa [List.length_range]), List.getElem?_eq_none (by rwa [IdtEntry.length_bytes])]
    rfl

/-- The processor reads what was stored. -/
theorem gateAt_storeIdt {m : ByteMem} {base v : Nat} {t : Nat → IdtEntry} (hv : v < 256) (hfits : (t v).Fits) :
    gateAt (storeIdt m base t) (base + 16 * v) = (t v).gate := by
  have hholds : (storeIdt m base t).Holds (base + 16 * v) (t v).bytes := holds_storeIdt hv
  generalize storeIdt m base t = m' at hholds ⊢
  generalize base + 16 * v = a at hholds ⊢
  simp only [IdtEntry.bytes, ByteMem.holds_append, List.length_append, ByteMem.length_leBytes] at hholds
  obtain ⟨⟨⟨⟨⟨⟨hlow, hsel⟩, hist⟩, hattr⟩, hmid⟩, hhigh⟩, -⟩ := hholds
  have hone : ∀ {b w}, m'.Holds b (ByteMem.leBytes 1 w) → w < 2 ^ 8 → (m' b).toNat = w := by
    intro b w h hw
    have hle := h.le
    rw [ByteMem.le, ByteMem.le, Nat.mul_zero, Nat.add_zero] at hle
    rw [hle]
    exact Nat.mod_eq_of_lt hw
  have hattr' : (m' (a + 5)).toNat = (t v).typeAttr := hone hattr hfits.typeAttr
  have hist' : (m' (a + 4)).toNat = (t v).ist := hone hist (by have := hfits.ist; omega)
  have hlow' : m'.le a 2 = (t v).offsetLow := hlow.le.trans (Nat.mod_eq_of_lt hfits.offsetLow)
  have hsel' : m'.le (a + 2) 2 = (t v).selector := hsel.le.trans (Nat.mod_eq_of_lt hfits.selector)
  have hmid' : m'.le (a + 6) 2 = (t v).offsetMid := hmid.le.trans (Nat.mod_eq_of_lt hfits.offsetMid)
  have hhigh' : m'.le (a + 8) 4 = (t v).offsetHigh := hhigh.le.trans (Nat.mod_eq_of_lt hfits.offsetHigh)
  simp only [gateAt, IdtEntry.gate, hattr', hist', hlow', hsel', hmid', hhigh', Nat.mod_eq_of_lt hfits.ist]

/-- The gate that a vector is to have. -/
def vectorGate (isr : Nat → Nat) (v : Nat) : Option Gate :=
  let gate := fun ist trap dpl => some { handler := isr v, selector := kernelCodeSel, ist, trap, dpl, present := true }
  if v < 32 then gate (if v = 2 then 1 else if v = 8 then 2 else 0) true 0
  else if v ∈ [0x20, 0x21, 0x2C, 0x40] then gate 0 false 0
  else if v = 0x80 then gate 0 true 3
  else none

theorem gate_absent : IdtEntry.absent.gate = none := rfl

theorem gate_set {handler gate ist : Nat} (h : handler < 2 ^ 64) (hist : ist < 8)
    (hgate : gate / 16 % 2 = 0 ∧ 14 ≤ gate % 16) : (IdtEntry.set handler gate ist).gate = some {
      handler
      selector := kernelCodeSel
      ist
      trap := gate % 16 = 15
      dpl := gate / 32 % 4
      present := 128 ≤ gate } := by
  have hoffset : handler % 2 ^ 16 + 2 ^ 16 * (handler / 2 ^ 16 % 2 ^ 16) + 2 ^ 32 * (handler / 2 ^ 32 % 2 ^ 32) = handler := by
    omega
  simp only [IdtEntry.gate, IdtEntry.set, hoffset, Nat.mod_eq_of_lt hist]
  rw [if_pos hgate]

/-- The entries that a loop over vectors stores. -/
theorem foldl_update {α : Type} {vs : List Nat} {f : Nat → α} {t : Nat → α} {v : Nat} :
    vs.foldl (fun t v => Function.update t v (f v)) t v = if v ∈ vs then f v else t v := by
  induction vs generalizing t with
  | nil => rfl
  | cons w vs ih =>
    rw [List.foldl_cons, ih]
    by_cases hv : v ∈ vs
    · rw [if_pos hv, if_pos (List.mem_cons_of_mem _ hv)]
    · rcases eq_or_ne v w with rfl | hne
      · rw [if_neg hv, if_pos List.mem_cons_self, Function.update_self]
      · rw [if_neg hv, Function.update_of_ne hne, if_neg (by simp [hne, hv])]

theorem idt_apply (isr : Nat → Nat) (v : Nat) : idt isr v =
    if v = 0x80 then .set (isr v) trapGateDpl3 0
    else if v ∈ [0x20, 0x21, 0x2C, 0x40] then .set (isr v) intGate 0
    else if v < 32 then .set (isr v) trapGate (if v = 2 then 1 else if v = 8 then 2 else 0)
    else .absent := by
  rw [idt, Function.update_apply, foldl_update, foldl_update]
  simp only [List.mem_range]
  split
  · next h => rw [h]
  · rfl

theorem idt_fits (isr : Nat → Nat) (v : Nat) : (idt isr v).Fits := by
  rw [idt_apply]
  split
  · exact .set (by decide)
  split
  · exact .set (by decide)
  split
  · exact .set (by decide)
  · exact .absent

theorem gate_idt {isr : Nat → Nat} (h : ∀ v, isr v < 2 ^ 64) (v : Nat) : (idt isr v).gate = vectorGate isr v := by
  rw [idt_apply, vectorGate]
  dsimp only
  split
  · next hv => rw [gate_set (h v) (by decide) (by decide), if_neg (by omega), if_neg (by rw [hv]; decide), hv]; rfl
  split
  · next hv =>
    have hge : ¬v < 32 := by
      simp only [List.mem_cons, List.not_mem_nil, or_false] at hv
      omega
    rw [gate_set (h v) (by decide) (by decide), if_neg hge]
    rfl
  split
  · next hv =>
    have hist : (if v = 2 then 1 else if v = 8 then 2 else 0) < 8 := by split <;> [decide; split <;> decide]
    rw [gate_set (h v) hist (by decide)]
    rfl
  · exact gate_absent

/-- The gate of a vector, read from the table in memory. -/
theorem gateAt_idt {isr : Nat → Nat} (h : ∀ v, isr v < 2 ^ 64) {m : ByteMem} {base v : Nat} (hv : v < 256) :
    gateAt (storeIdt m base (idt isr)) (base + 16 * v) = vectorGate isr v :=
  (gateAt_storeIdt hv (idt_fits isr v)).trans (gate_idt h v)

/-- The gates are the kernel's, and one of them is open to users. -/
theorem vectorGate_some {isr : Nat → Nat} {v : Nat} {g : Gate} (h : vectorGate isr v = some g) :
    g.present = true ∧ g.selector = kernelCodeSel ∧ (3 ≤ g.dpl ↔ v = 0x80) := by
  rw [vectorGate] at h
  dsimp only at h
  split at h
  · next hv =>
    cases h
    exact ⟨rfl, rfl, iff_of_false (show ¬3 ≤ 0 by decide) (by omega)⟩
  split at h
  · next hv =>
    cases h
    refine ⟨rfl, rfl, iff_of_false (show ¬3 ≤ 0 by decide) ?_⟩
    rintro rfl
    exact absurd hv (by decide)
  split at h
  · next hv =>
    cases h
    exact ⟨rfl, rfl, iff_of_true (Nat.le_refl 3) hv⟩
  · cases h

/-- What becomes of a user's `int v`. -/
structure UserInt (isr : Nat → Nat) (tss : Tss) (gdt : List Nat) (c : Cpu) (v : Nat) (r : Option Cpu) : Prop where
  taken : r.isSome = true ↔ v = 0x80
  /-- It is in `isr128`, on the stack of `TSS.RSP0`, with interrupts as they were. -/
  handler : ∀ c', r = some c' → c'.rip = isr 0x80 ∧ c'.cs = kernelCodeSel ∧ c'.reg = c.reg ∧
    c'.rsp = tss.rsp0 - tss.rsp0 % 16 - 40 ∧ c'.mem.words c'.rsp 5 = c.returnWords ∧
    c'.rflags.testBit 9 = c.rflags.testBit 9
  /-- `iretq` from there. -/
  back : ∀ c', r = some c' → c'.iretq gdt = some { c with mem := c'.mem }

/-- User mode gets into the kernel through vector 0x80 and no other, there
into `isr128` on the kernel's stack, and back to where it was. -/
theorem user_interrupts {isr : Nat → Nat} {m : ByteMem} {base ptr v : Nat} {tss : Tss} {c : Cpu}
    (hisr : ∀ v, isr v < 2 ^ 64) (hptr : ptr < 2 ^ 64) (hv : v < 256) (hcs : c.cs = userCs) (hss : c.ss = userSs)
    (hfits : c.Fits) (hroom : 64 ≤ tss.rsp0) :
    UserInt isr tss (gdt ptr) c v (c.softInt tss (gateAt (storeIdt m base (idt isr)) (base + 16 * v))) := by
  have hcpl : c.cs % 4 = 3 := by rw [hcs]; rfl
  have huser : c.user = true := by rw [Cpu.user, hcpl]; rfl
  rw [gateAt_idt hisr hv]
  have hnone : v ≠ 0x80 → c.softInt tss (vectorGate isr v) = none := by
    intro hne
    cases hg : vectorGate isr v with
    | none => rfl
    | some g =>
      obtain ⟨-, -, hdpl⟩ := vectorGate_some hg
      have hlow : ¬3 ≤ g.dpl := fun h => hne (hdpl.mp h)
      simp only [Cpu.softInt, hcpl, decide_eq_false hlow, Bool.and_false, Bool.false_eq_true, if_false]
  rcases eq_or_ne v 0x80 with rfl | hne
  · let g : Gate := { handler := isr 0x80, selector := kernelCodeSel, ist := 0, trap := true, dpl := 3, present := true }
    have hsome : c.softInt tss (vectorGate isr 0x80) = some (c.interrupt tss g none) := by
      simp only [Cpu.softInt, vectorGate, hcpl]
      rfl
    have htop : c.entryTop tss g = tss.rsp0 - tss.rsp0 % 16 := by
      simp only [Cpu.entryTop, huser, g]
      rfl
    have hstack : (c.interrupt tss g none).toRegStack = _ :=
      Cpu.interrupt_stack (show 8 * 5 ≤ _ by rw [htop]; omega)
    have hsel : g.selector % 4 ≤ 3 := (by decide : kernelCodeSel % 4 ≤ 3)
    have hback : (c.interrupt tss g none).iretq (gdt ptr) = _ := Cpu.iretq_interrupt hfits
      ((returns_gdt hptr).mpr (.inr ⟨hsel, hcs, hss⟩)) (by rw [htop]; omega)
    rw [hsome]
    refine ⟨iff_of_true rfl rfl, ?_, ?_⟩
    · rintro c' ⟨⟩
      refine ⟨rfl, rfl, by rw [hstack], ?_, ?_, ?_⟩
      · rw [show (c.interrupt tss g none).rsp = _ from congrArg RegStack.rsp hstack, htop]
        rfl
      · rw [show (c.interrupt tss g none).toRegStack = _ from hstack]
        exact ByteMem.words_setWords.trans hfits.returnWords
      · rw [show (c.interrupt tss g none).rflags = c.rflags &&& 0xFFFFFFFFFFFEBEFF from rfl, Nat.testBit_and,
          show Nat.testBit 0xFFFFFFFFFFFEBEFF 9 = true by decide, Bool.and_true]
    · rintro c' ⟨⟩
      rw [hback, show (c.interrupt tss g none).mem = _ from congrArg RegStack.mem hstack]
      rfl
  · rw [hnone hne]
    exact ⟨iff_of_false Bool.false_ne_true hne, (fun _ h => nomatch h), fun _ h => nomatch h⟩

/-- A user at `0x400000`. -/
def atUser : Cpu where
  reg _ := 0
  rsp := 0x7FFF0000
  mem _ := 0
  rip := 0x400000
  cs := userCs
  rflags := 0x202
  ss := userSs

theorem atUser_fits : atUser.Fits where
  reg _ := show 0 < 2 ^ 64 by decide
  rip := by decide
  cs := by decide
  rflags := by decide
  rsp := by decide
  ss := by decide

/-- Its system call, through stubs that lie side by side. -/
theorem user_interrupts_atUser : UserInt (0x1000 + · % 256) { rsp0 := 0x9000, ist := fun _ => 0 } (gdt 0x5000) atUser
    0x80 (atUser.softInt { rsp0 := 0x9000, ist := fun _ => 0 }
      (gateAt (storeIdt (fun _ => 0) 0x2000 (idt (0x1000 + · % 256))) (0x2000 + 16 * 0x80))) :=
  user_interrupts (fun v => by omega) (by decide) (by decide) rfl rfl atUser_fits (by decide)

end ChodOs
