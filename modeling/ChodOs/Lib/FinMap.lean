/-
Ordered finite maps: a test of every entry can be run.
-/
import Mathlib.Data.List.Basic

namespace FinMap

variable {κ β : Type} {cmp : κ → κ → Ordering} [Std.TransCmp cmp] [Std.LawfulEqCmp cmp]

/-- Every entry of the map meets `P`. -/
def All (m : Std.ExtTreeMap κ β cmp) (P : κ → β → Prop) : Prop := ∀ k v, m[k]? = some v → P k v

theorem all_iff {m : Std.ExtTreeMap κ β cmp} {P : κ → β → Prop} : All m P ↔ ∀ e ∈ m.toList, P e.1 e.2 :=
  ⟨fun h e he => h e.1 e.2 (Std.ExtTreeMap.mem_toList_iff_getElem?_eq_some.mp he),
    fun h k v hk => h (k, v) (Std.ExtTreeMap.mem_toList_iff_getElem?_eq_some.mpr hk)⟩

instance {m : Std.ExtTreeMap κ β cmp} {P : κ → β → Prop} [∀ k v, Decidable (P k v)] : Decidable (All m P) :=
  decidable_of_iff _ all_iff.symm

end FinMap
