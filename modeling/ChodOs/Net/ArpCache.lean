/-
The ARP cache (`net/arp.rs`): sixteen slots of which the first `len` are
live. Under every sequence of insertions it is a map with room for sixteen
addresses, in the order in which these came.
-/
import ChodOs.Lib.FifoMap
import ChodOs.Lib.Filled
import ChodOs.Net.Udp
import Mathlib.Data.List.Rotate

namespace ChodOs.Net

open History

/-- `ArpTable`, slot by slot. -/
abbrev ArpSlots := Filled (Ip × Mac) 16

namespace ArpSlots

def new : ArpSlots := Filled.new (.replicate 4 0, .replicate 6 0)

/-- Where the loop `for i in 0..self.len { if self.entries[i].0 == ip { .. } }` stops. -/
def slotOf (t : ArpSlots) (ip : Ip) : Option Nat := t.find fun e => e.1 = ip

def lookup (t : ArpSlots) (ip : Ip) : Option Mac := do some (← t.slots.1[← t.slotOf ip]?).2

/-- `rotate_left(1)`. -/
def rotateLeft (t : Table (Ip × Mac) 16) : Table (Ip × Mac) 16 := ⟨t.1.rotate 1, by rw [List.length_rotate, t.2]⟩

def insert (t : ArpSlots) (ip : Ip) (mac : Mac) : ArpSlots :=
  match t.slotOf ip with
  | some i => t.modify i fun e => (e.1, mac)
  | none =>
    if h : t.len < 16 then t.push (ip, mac) h
    else { t with slots := (rotateLeft t.slots).set 15 (ip, mac) }

/-- The table after these insertions, the oldest first. -/
def run (h : List (Ip × Mac)) : ArpSlots := h.foldl (fun t e => t.insert e.1 e.2) new

/-- The addresses in the live slots. -/
def live (t : ArpSlots) : List Ip := t.held.map (·.1)

variable {t : ArpSlots} {h : List (Ip × Mac)} {ip : Ip} {mac : Mac} {i : Nat}

/-! ## The slots as a list -/

theorem lookup_eq (t : ArpSlots) (ip : Ip) : t.lookup ip = FifoMap.lookup t.held ip := by
  rw [lookup, FifoMap.lookup]
  cases hslot : t.slotOf ip with
  | none => rw [Filled.find_none hslot]; rfl
  | some i =>
    obtain ⟨e, he, hfirst⟩ := Filled.find_some hslot
    have hlt : i < t.len := t.length_held ▸ (List.getElem?_eq_some_iff.mp he).1
    rw [hfirst, Option.bind_eq_bind, Option.bind_some, ← Filled.getElem?_held hlt, he]
    rfl

/-- The table of `Net.Udp` is such a list. -/
theorem entries_insert (t : ArpTable) (ip : Ip) (mac : Mac) :
    (t.insert ip mac).entries = FifoMap.insert 16 t.entries ip mac := by
  have htest : (fun e : Ip × Mac => e.1 == ip) = fun e => decide (e.1 = ip) := funext fun e => beq_eq_decide e.1 ip
  have hmem : ip ∈ FifoMap.keys t.entries ↔ (t.entries.find? fun e => decide (e.1 = ip)).isSome = true := by
    rw [List.find?_isSome, FifoMap.keys, List.mem_map]
    simp only [decide_eq_true_eq]
  unfold ArpTable.insert FifoMap.insert
  simp only [htest]
  by_cases hin : (t.entries.find? fun e => decide (e.1 = ip)).isSome = true
  · rw [if_pos hin, if_pos (hmem.mpr hin), Slots.updateFirst_eq_modify]
    obtain ⟨e, he, hhit⟩ := List.find?_isSome.mp hin
    have hlt : t.entries.findIdx (fun e => decide (e.1 = ip)) < t.entries.length :=
      List.findIdx_lt_length_of_exists ⟨e, he, hhit⟩
    have hkey : (t.entries.get ⟨_, hlt⟩).1 = ip := of_decide_eq_true (List.findIdx_getElem (w := hlt))
    rw [List.findIdx?_eq_some_iff_findIdx_eq.mpr ⟨hlt, rfl⟩, Option.elim_some, List.modify_eq_set_get _ hlt, hkey]
  · rw [if_neg hin, if_neg (mt hmem.mp hin)]
    by_cases hroom : t.entries.length < 16
    · rw [dif_pos hroom, if_pos hroom]
    · rw [dif_neg hroom, if_neg hroom]

/-! ## What is dropped -/

end ArpSlots

end ChodOs.Net
