/-
The capability handle table (`process/handle.rs`): an id stands for a
type-erased object together with the rights it was registered under.

`Obj T` is the type of the `Arc<T>`s, for each `T` that is stored. The ids
are `u32`s; `checks` says whether the build traps overflow, as the dev
profile does, or wraps, as the release profile does.
-/
import ChodOs.Lib.Run
import ChodOs.Lib.Since
import Mathlib.Algebra.Ring.Nat
import Mathlib.Data.List.Nodup

namespace ChodOs

open History StepSys

/-- `Rights`, a bit mask. -/
structure Rights where
  bits : BitVec 32
  deriving DecidableEq, Repr

namespace Rights

def none : Rights := ⟨0⟩
def read : Rights := ⟨1⟩
def write : Rights := ⟨2⟩
def exec : Rights := ⟨4⟩
def grant : Rights := ⟨8⟩
def all : Rights := ⟨15⟩

def contains (self other : Rights) : Bool := self.bits &&& other.bits == other.bits

def or (self rhs : Rights) : Rights := ⟨self.bits ||| rhs.bits⟩

def and (self rhs : Rights) : Rights := ⟨self.bits &&& rhs.bits⟩

/-- Every right of `other` is one of `self`'s. -/
def Includes (self other : Rights) : Prop := ∀ i, other.bits.getLsbD i = true → self.bits.getLsbD i = true

theorem contains_iff {self other : Rights} : self.contains other = true ↔ self.Includes other := by
  rw [contains, beq_iff_eq]
  constructor
  · intro h i hi
    rw [← h, BitVec.getLsbD_and, Bool.and_eq_true] at hi
    exact hi.1
  · intro h
    refine BitVec.eq_of_getLsbD_eq fun i hi => ?_
    rw [BitVec.getLsbD_and]
    cases ho : other.bits.getLsbD i with
    | false => exact Bool.and_false _
    | true => rw [h i ho]; rfl

end Rights

section
variable {Ty : Type} {Obj : Ty → Type}

variable (Obj) in
/-- `RawCapability`: an `Arc<dyn Any>` carries its own type. -/
structure RawCapability where
  object : (T : Ty) × Obj T
  rights : Rights

variable (Obj) in
/-- `Capability<T>`. -/
structure Capability (T : Ty) where
  object : Obj T
  rights : Rights

def Capability.restrict {T : Ty} (self : Capability Obj T) (mask : Rights) : Capability Obj T :=
  { self with rights := self.rights.and mask }

def Capability.intoRaw {T : Ty} (self : Capability Obj T) : RawCapability Obj := ⟨⟨T, self.object⟩, self.rights⟩

/-- `downcast::<T>`. -/
def RawCapability.downcast [DecidableEq Ty] (self : RawCapability Obj) (T : Ty) : Option (Obj T) :=
  if h : self.object.1 = T then some (h ▸ self.object.2) else none

/-- `Handle`: what `insert` gives back. -/
structure Handle where
  id : Nat
  rights : Rights
  deriving DecidableEq

variable (Obj) in
structure HandleTable where
  table : Std.ExtTreeMap Nat (RawCapability Obj)
  nextId : Nat

/-- `a + b` in `u32`. `none`: the overflow check traps. -/
def addU32 (checks : Bool) (a b : Nat) : Option Nat :=
  if a + b < 2 ^ 32 then some (a + b) else if checks then none else some ((a + b) % 2 ^ 32)

theorem addU32_eq_mod {checks : Bool} {a b c : Nat} (h : addU32 checks a b = some c) : c = (a + b) % 2 ^ 32 := by
  unfold addU32 at h
  split at h
  · next hlt => rw [Nat.mod_eq_of_lt hlt, ← Option.some.inj h]
  · split at h
    · cases h
    · exact (Option.some.inj h).symm

namespace HandleTable

def new : HandleTable Obj := ⟨∅, 3⟩

/-- `insert`: the id is counted up before the capability is stored. -/
def insert (checks : Bool) (self : HandleTable Obj) {T : Ty} (cap : Capability Obj T) :
    Option (Handle × HandleTable Obj) := do
  let id := self.nextId
  let nextId ← addU32 checks self.nextId 1
  some (⟨id, cap.rights⟩, { table := self.table.insert id cap.intoRaw, nextId })

def get [DecidableEq Ty] (self : HandleTable Obj) (T : Ty) (id : Nat) (required : Rights) : Option (Obj T) := do
  let raw ← self.table[id]?
  if !raw.rights.contains required then none else raw.downcast T

def contains (self : HandleTable Obj) (id : Nat) : Bool := self.table.contains id

def rightsOf (self : HandleTable Obj) (id : Nat) : Option Rights := self.table[id]?.map (·.rights)

def close (self : HandleTable Obj) (id : Nat) : Bool × HandleTable Obj :=
  (self.table[id]?.isSome, { self with table := self.table.erase id })

def len (self : HandleTable Obj) : Nat := self.table.size

def isEmpty (self : HandleTable Obj) : Bool := self.table.isEmpty

/-- `list`: in the order of the ids. -/
def list (self : HandleTable Obj) : List (Nat × Rights) := self.table.toList.map fun e => (e.1, e.2.rights)

end HandleTable

theorem RawCapability.downcast_eq_some [DecidableEq Ty] {raw : RawCapability Obj} {T : Ty} {o : Obj T} :
    raw.downcast T = some o ↔ raw.object = ⟨T, o⟩ := by
  obtain ⟨⟨T', o'⟩, rights⟩ := raw
  constructor
  · intro h
    simp only [RawCapability.downcast] at h
    split at h
    · next hT =>
      cases hT
      obtain rfl : o' = o := Option.some.inj h
      rfl
    · cases h
  · intro h
    cases h
    exact dif_pos rfl

namespace HandleTable

theorem get_eq_some [DecidableEq Ty] {t : HandleTable Obj} {T : Ty} {id : Nat} {r : Rights} {o : Obj T} :
    t.get T id r = some o ↔ ∃ cap : Capability Obj T, t.table[id]? = some cap.intoRaw ∧ cap.object = o ∧
      cap.rights.Includes r := by
  constructor
  · intro h
    simp only [get, Option.bind_eq_bind, Option.bind_eq_some_iff] at h
    obtain ⟨raw, hraw, h⟩ := h
    split at h
    · cases h
    · next hc =>
      have hobj := RawCapability.downcast_eq_some.mp h
      refine ⟨⟨o, raw.rights⟩, ?_, rfl, Rights.contains_iff.mp (by simpa using hc)⟩
      rw [hraw, Capability.intoRaw, ← hobj]
  · intro h
    obtain ⟨cap, hraw, rfl, hr⟩ := h
    simp only [get, Option.bind_eq_bind, hraw, Option.bind_some, Capability.intoRaw]
    rw [if_neg (by simpa using Rights.contains_iff.mpr hr)]
    exact RawCapability.downcast_eq_some.mpr rfl

theorem mem_list {t : HandleTable Obj} {id : Nat} {rights : Rights} :
    (id, rights) ∈ t.list ↔ ∃ raw, t.table[id]? = some raw ∧ raw.rights = rights := by
  simp only [list, List.mem_map, Prod.mk.injEq]
  constructor
  · intro h
    obtain ⟨⟨k, raw⟩, hmem, rfl, rfl⟩ := h
    exact ⟨raw, Std.ExtTreeMap.mem_toList_iff_getElem?_eq_some.mp hmem, rfl⟩
  · intro h
    obtain ⟨raw, hraw, rfl⟩ := h
    exact ⟨(id, raw), Std.ExtTreeMap.mem_toList_iff_getElem?_eq_some.mpr hraw, rfl, rfl⟩

/-- The list is in order, so that no id is in it twice. -/
theorem list_ordered {t : HandleTable Obj} : t.list.Pairwise fun a b => a.1 < b.1 :=
  List.pairwise_map.mpr <| (Std.ExtTreeMap.ordered_keys_toList (t := t.table)).imp fun h =>
    Nat.compare_eq_lt.mp h

theorem length_list {t : HandleTable Obj} : t.list.length = t.len := by
  rw [list, List.length_map, Std.ExtTreeMap.length_toList, len]

end HandleTable

/-! ### Runs -/

variable (Obj) in
inductive HandleOp
  | insert (T : Ty) (cap : Capability Obj T)
  | close (id : Nat)

variable (Obj) in
/-- What a caller is told: the id of a capability registered, the answer to a `close`. -/
inductive HandleEvent
  | inserted (id : Nat) (T : Ty) (cap : Capability Obj T)
  | closed (id : Nat) (ok : Bool)

def HandleTable.step (checks : Bool) (t : HandleTable Obj) :
    HandleOp Obj → Option (List (HandleEvent Obj) × HandleTable Obj)
  | .insert T cap => (t.insert checks cap).map fun (h, t') => ([.inserted h.id T cap], t')
  | .close id => some ([.closed id (t.close id).1], (t.close id).2)

namespace HandleEvent

/-- The id an `insert` returned. -/
def insertedId : HandleEvent Obj → Option Nat
  | inserted id _ _ => some id
  | closed _ _ => none

/-- A `close` of `id`. -/
def Closes (id : Nat) (e : HandleEvent Obj) : Prop := ∃ ok, e = closed id ok

end HandleEvent

/-- The ids returned, in their order. -/
def insertedIds (h : List (HandleEvent Obj)) : List Nat := h.filterMap HandleEvent.insertedId

/-- `id` was returned by an insert of `cap` and has not been closed since. -/
def OpenHandle (h : List (HandleEvent Obj)) (id : Nat) {T : Ty} (cap : Capability Obj T) : Prop :=
  Since (· = .inserted id T cap) (HandleEvent.Closes id) h

@[simp] theorem insertedIds_concat_inserted {h : List (HandleEvent Obj)} {id : Nat} {T : Ty}
    {cap : Capability Obj T} : insertedIds (h ++ [.inserted id T cap]) = insertedIds h ++ [id] := by
  simp [insertedIds, HandleEvent.insertedId]

@[simp] theorem insertedIds_concat_closed {h : List (HandleEvent Obj)} {id : Nat} {ok : Bool} :
    insertedIds (h ++ [.closed id ok]) = insertedIds h := by
  simp [insertedIds, HandleEvent.insertedId]

theorem OpenHandle.mem_insertedIds {h : List (HandleEvent Obj)} {id : Nat} {T : Ty} {cap : Capability Obj T}
    (ho : OpenHandle h id cap) : id ∈ insertedIds h := by
  obtain ⟨e, he, rfl⟩ := ho.exists_mem
  exact List.mem_filterMap.mpr ⟨_, he, rfl⟩

/-- A fresh insert opens its id, and no other id's matter changes. -/
theorem openHandle_inserted {h : List (HandleEvent Obj)} {id id' : Nat} {T T' : Ty} {cap : Capability Obj T}
    {cap' : Capability Obj T'} (hfresh : id ∉ insertedIds h) :
    OpenHandle (h ++ [.inserted id T cap]) id' cap' ↔
      if id = id' then (⟨T, cap⟩ : (T : Ty) × Capability Obj T) = ⟨T', cap'⟩ else OpenHandle h id' cap' := by
  have hstill : ¬ HandleEvent.Closes id' (.inserted id T cap) := fun ⟨_, he⟩ => by cases he
  rw [OpenHandle, since_concat]
  split
  · next hid =>
    subst hid
    constructor
    · intro h
      rcases h with he | ⟨ho, -⟩
      · cases he
        rfl
      · exact absurd (OpenHandle.mem_insertedIds ho) hfresh
    · intro he
      cases he
      exact .inl rfl
  · next hid =>
    constructor
    · intro h
      rcases h with he | ⟨ho, -⟩
      · cases he
        exact absurd rfl hid
      · exact ho
    · exact fun ho => .inr ⟨ho, hstill⟩

theorem openHandle_closed {h : List (HandleEvent Obj)} {id id' : Nat} {ok : Bool} {T : Ty}
    {cap : Capability Obj T} :
    OpenHandle (h ++ [.closed id ok]) id' cap ↔ id ≠ id' ∧ OpenHandle h id' cap := by
  rw [OpenHandle, since_concat]
  constructor
  · intro h
    rcases h with he | ⟨ho, hne⟩
    · cases he
    · exact ⟨fun hid => hne ⟨ok, by rw [hid]⟩, ho⟩
  · intro ⟨hid, ho⟩
    refine .inr ⟨ho, ?_⟩
    intro ⟨ok', he⟩
    cases he
    exact hid rfl

/-- What the table is at any time: the ids are counted up from 3, and an id
is in it under a capability just in case it is open under it. -/
structure Booked (h : List (HandleEvent Obj)) (t : HandleTable Obj) : Prop where
  nextId : t.nextId = (3 + (insertedIds h).length) % 2 ^ 32
  ids : insertedIds h = (List.range (insertedIds h).length).map fun k => (3 + k) % 2 ^ 32
  entries : ∀ id T (cap : Capability Obj T), t.table[id]? = some cap.intoRaw ↔ OpenHandle h id cap

theorem Booked.new : Booked ([] : List (HandleEvent Obj)) HandleTable.new :=
  ⟨rfl, rfl, fun id T cap => by simp [HandleTable.new, OpenHandle]⟩

/-- The next id is none of those returned, as long as they are fewer than `2 ^ 32`. -/
theorem Booked.fresh {h : List (HandleEvent Obj)} {t : HandleTable Obj} (hb : Booked h t)
    (hfew : (insertedIds h).length < 2 ^ 32) : t.nextId ∉ insertedIds h := by
  rw [hb.ids, hb.nextId]
  intro hmem
  obtain ⟨k, hk, heq⟩ := List.mem_map.mp hmem
  have := List.mem_range.mp hk
  omega

theorem Booked.nodup {h : List (HandleEvent Obj)} {t : HandleTable Obj} (hb : Booked h t)
    (hfew : (insertedIds h).length ≤ 2 ^ 32) : (insertedIds h).Nodup := by
  rw [hb.ids]
  refine List.Nodup.map_on (fun i hi j hj hij => ?_) List.nodup_range
  have := List.mem_range.mp hi
  have := List.mem_range.mp hj
  omega

/-- Two capabilities are stored alike only if they are the same. -/
theorem intoRaw_inj {T T' : Ty} {cap : Capability Obj T} {cap' : Capability Obj T'} :
    cap.intoRaw = cap'.intoRaw ↔ (⟨T, cap⟩ : (T : Ty) × Capability Obj T) = ⟨T', cap'⟩ := by
  constructor
  · intro h
    obtain ⟨o, r⟩ := cap
    obtain ⟨o', r'⟩ := cap'
    simp only [Capability.intoRaw, RawCapability.mk.injEq] at h
    obtain ⟨ho, rfl⟩ := h
    cases ho
    rfl
  · intro h
    cases h
    rfl

theorem Booked.step {checks : Bool} {h : List (HandleEvent Obj)} {t t' : HandleTable Obj} {op : HandleOp Obj}
    {es : List (HandleEvent Obj)} (hb : Booked h t) (hs : t.step checks op = some (es, t'))
    (hfew : (insertedIds (h ++ es)).length < 2 ^ 32) : Booked (h ++ es) t' := by
  cases op with
  | insert T cap =>
    simp only [HandleTable.step, HandleTable.insert, Option.bind_eq_bind, Option.map_eq_some_iff,
      Option.bind_eq_some_iff] at hs
    obtain ⟨⟨hd, t₁⟩, ⟨next, hnext, hins⟩, hs⟩ := hs
    obtain ⟨rfl, rfl⟩ := Prod.mk.inj (Option.some.inj hins)
    obtain ⟨rfl, rfl⟩ := Prod.mk.inj hs
    rw [insertedIds_concat_inserted, List.length_append, List.length_singleton] at hfew
    have hfresh := hb.fresh (by omega)
    refine ⟨?_, ?_, fun id T' cap' => ?_⟩
    · show next = _
      rw [addU32_eq_mod hnext, hb.nextId, insertedIds_concat_inserted, List.length_append, List.length_singleton]
      omega
    · show insertedIds (h ++ [.inserted t.nextId T cap]) = _
      rw [insertedIds_concat_inserted, List.length_append, List.length_singleton, List.range_succ, List.map_append,
        ← hb.ids, hb.nextId]
      rfl
    · show (t.table.insert t.nextId cap.intoRaw)[id]? = _ ↔ OpenHandle (h ++ [.inserted t.nextId T cap]) id cap'
      rw [Std.ExtTreeMap.getElem?_insert, openHandle_inserted hfresh]
      simp only [Nat.compare_eq_eq]
      split
      · rw [Option.some.injEq, intoRaw_inj]
      · exact hb.entries id T' cap'
  | close id =>
    obtain ⟨rfl, rfl⟩ := Prod.mk.inj (Option.some.inj hs)
    refine ⟨?_, ?_, fun id' T cap => ?_⟩
    · rw [insertedIds_concat_closed]
      exact hb.nextId
    · rw [insertedIds_concat_closed]
      exact hb.ids
    · show (t.table.erase id)[id']? = _ ↔ _
      rw [Std.ExtTreeMap.getElem?_erase, openHandle_closed]
      simp only [Nat.compare_eq_eq]
      split
      · next hid => simp [hid]
      · next hid => simp [hid, hb.entries id' T cap]

theorem length_insertedIds_le {h es : List (HandleEvent Obj)} :
    (insertedIds h).length ≤ (insertedIds (h ++ es)).length := by
  rw [insertedIds, insertedIds, List.filterMap_append, List.length_append]
  exact Nat.le_add_right _ _

theorem booked_of_run {checks : Bool} {h : List (HandleEvent Obj)} {t : HandleTable Obj}
    (hr : Runs (HandleTable.step checks) free HandleTable.new h t) (hfew : (insertedIds h).length < 2 ^ 32) :
    Booked h t :=
  hr.invariant (fun h t => (insertedIds h).length < 2 ^ 32 → Booked h t) (fun _ => Booked.new)
    (fun hb _ hs hfew => (hb (Nat.lt_of_le_of_lt length_insertedIds_le hfew)).step hs hfew) hfew

/-- Handles are capabilities: `get` gives an object just to the holder of an
open id with its type and rights, ids are not reused, and `contains`, `list`
and `len` tell the open ids. -/
theorem handle_get_iff_open [DecidableEq Ty] {checks : Bool} {h : List (HandleEvent Obj)} {t : HandleTable Obj}
    (hr : Runs (HandleTable.step checks) free HandleTable.new h t) (hfew : (insertedIds h).length < 2 ^ 32) :
    (∀ id T r (o : Obj T), t.get T id r = some o ↔
      ∃ cap : Capability Obj T, OpenHandle h id cap ∧ cap.object = o ∧ cap.rights.Includes r) ∧
    (insertedIds h).Nodup ∧
    (∀ id, t.contains id = true ↔ ∃ T, ∃ cap : Capability Obj T, OpenHandle h id cap) ∧
    (∀ id rights, (id, rights) ∈ t.list ↔
      ∃ T, ∃ cap : Capability Obj T, OpenHandle h id cap ∧ cap.rights = rights) ∧
    t.list.Pairwise (fun a b => a.1 < b.1) ∧ t.list.length = t.len := by
  have hb := booked_of_run hr hfew
  refine ⟨fun id T r o => ?_, hb.nodup (Nat.le_of_lt hfew), fun id => ?_, fun id rights => ?_, HandleTable.list_ordered,
    HandleTable.length_list⟩
  · rw [HandleTable.get_eq_some]
    exact exists_congr fun cap => and_congr_left fun _ => hb.entries id T cap
  · rw [HandleTable.contains, Std.ExtTreeMap.contains_eq_isSome_getElem?, Option.isSome_iff_exists]
    constructor
    · intro ⟨⟨⟨T, o⟩, rights⟩, hraw⟩
      exact ⟨T, ⟨o, rights⟩, (hb.entries id T ⟨o, rights⟩).mp hraw⟩
    · intro ⟨T, cap, ho⟩
      exact ⟨cap.intoRaw, (hb.entries id T cap).mpr ho⟩
  · rw [HandleTable.mem_list]
    constructor
    · intro h
      obtain ⟨⟨⟨T, o⟩, rights'⟩, hraw, rfl⟩ := h
      exact ⟨T, ⟨o, rights'⟩, (hb.entries id T ⟨o, rights'⟩).mp hraw, rfl⟩
    · intro h
      obtain ⟨T, cap, ho, rfl⟩ := h
      exact ⟨cap.intoRaw, (hb.entries id T cap).mpr ho, rfl⟩

/-- Two capabilities and a close: the closed id is dead, the other answers to its type and rights only. -/
theorem handle_get_iff_open_run :
    ∃ (h : List (HandleEvent fun _ : Bool => Nat)) (t : HandleTable fun _ : Bool => Nat),
      Runs (HandleTable.step true) free HandleTable.new h t ∧ insertedIds h = [3, 4] ∧
      t.get true 4 Rights.read = some 9 ∧ t.get false 4 Rights.read = none ∧ t.get true 4 Rights.write = none ∧
      (∃ cap : Capability (fun _ : Bool => Nat) true, OpenHandle h 4 cap ∧ cap.object = 9) ∧
      ¬ ∃ cap : Capability (fun _ : Bool => Nat) false, OpenHandle h 3 cap := by
  obtain ⟨h, t, hr, hP⟩ := Runs.of_exec (HandleTable.step true) free (HandleTable.new : HandleTable fun _ : Bool => Nat)
    [.insert false ⟨7, Rights.all⟩, .insert true ⟨9, Rights.read⟩, .close 3]
    (fun h t => decide (insertedIds h = [3, 4] ∧ t.get true 4 Rights.read = some 9 ∧
      t.get false 4 Rights.read = none ∧ t.get true 4 Rights.write = none ∧ t.contains 3 = false)) (by decide)
  obtain ⟨hids, hget, htype, hright, hclosed⟩ := of_decide_eq_true hP
  obtain ⟨hiff, -, hcontains, -⟩ := handle_get_iff_open hr (by rw [hids]; decide)
  refine ⟨h, t, hr, hids, hget, htype, hright, ?_, fun ⟨cap, ho⟩ => ?_⟩
  · obtain ⟨cap, ho, hobj, -⟩ := (hiff 4 true Rights.read 9).mp hget
    exact ⟨cap, ho, hobj⟩
  · have := (hcontains 3).mpr ⟨false, cap, ho⟩
    rw [hclosed] at this
    cases this

end
end ChodOs
