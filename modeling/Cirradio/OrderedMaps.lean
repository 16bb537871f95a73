import Mathlib.Tactic.Common
import Std.Data.ExtTreeMap

/-!
# Lookups in ordered maps

What a lookup gives after an insertion or an erasure, as a case distinction on equality
of the keys. Maps with the same keys list them the same.
-/

namespace Cirradio.OrderedMaps

variable {α β : Type} [Ord α] [Std.TransOrd α]

theorem getD_of_some {m : Std.ExtTreeMap α β} {k : α} {b : β} (h : m[k]? = some b)
    (fallback : β) : m.getD k fallback = b := by
  rw [Std.ExtTreeMap.getD_eq_getD_getElem?, h, Option.getD_some]

theorem getD_of_none {m : Std.ExtTreeMap α β} {k : α} (h : m[k]? = none) (fallback : β) :
    m.getD k fallback = fallback := by
  rw [Std.ExtTreeMap.getD_eq_getD_getElem?, h, Option.getD_none]

theorem getD_empty (k : α) (fallback : β) :
    (∅ : Std.ExtTreeMap α β).getD k fallback = fallback :=
  getD_of_none Std.ExtTreeMap.getElem?_empty fallback

variable [Std.LawfulEqOrd α] [DecidableEq α]

theorem getElem?_insert_ite (m : Std.ExtTreeMap α β) (v w : α) (b : β) :
    (m.insert v b)[w]? = if w = v then some b else m[w]? := by
  rw [Std.ExtTreeMap.getElem?_insert]
  by_cases hvw : w = v
  · subst hvw
    simp
  · have hcmp : compare v w ≠ .eq := fun h => hvw (Std.LawfulEqCmp.eq_of_compare h).symm
    rw [if_neg hcmp, if_neg hvw]

theorem getElem?_erase_ite (m : Std.ExtTreeMap α β) (v w : α) :
    (m.erase v)[w]? = if w = v then none else m[w]? := by
  rw [Std.ExtTreeMap.getElem?_erase]
  by_cases hvw : w = v
  · subst hvw
    simp
  · have hcmp : compare v w ≠ .eq := fun h => hvw (Std.LawfulEqCmp.eq_of_compare h).symm
    rw [if_neg hcmp, if_neg hvw]

theorem getD_insert_ite (m : Std.ExtTreeMap α β) (v w : α) (b fallback : β) :
    (m.insert v b).getD w fallback = if w = v then b else m.getD w fallback := by
  rw [Std.ExtTreeMap.getD_eq_getD_getElem?, getElem?_insert_ite,
    Std.ExtTreeMap.getD_eq_getD_getElem?]
  split <;> rfl

omit [DecidableEq α] in
theorem mem_insert_iff {m : Std.ExtTreeMap α β} {j k : α} {b : β} :
    j ∈ m.insert k b ↔ j = k ∨ j ∈ m := by
  rw [Std.ExtTreeMap.mem_insert, Std.LawfulEqCmp.compare_eq_iff_eq, eq_comm]

omit [DecidableEq α] in
theorem mem_erase_iff {m : Std.ExtTreeMap α β} {j k : α} :
    j ∈ m.erase k ↔ j ≠ k ∧ j ∈ m := by
  rw [Std.ExtTreeMap.mem_erase, Ne, Ne, Std.LawfulEqCmp.compare_eq_iff_eq, eq_comm]

omit [Std.LawfulEqOrd α] [DecidableEq α] in
theorem size_erase_add_one {m : Std.ExtTreeMap α β} {k : α} (h : k ∈ m) :
    (m.erase k).size + 1 = m.size := by
  have hcontains : m.contains k = true := h
  have hsize := m.size_erase (k := k)
  rw [if_pos hcontains] at hsize
  have hpos : m.size ≠ 0 := by
    intro hzero
    rw [Std.ExtTreeMap.eq_empty_iff_size_eq_zero.mpr hzero] at h
    exact Std.ExtTreeMap.not_mem_empty h
  omega

omit [Std.LawfulEqOrd α] [DecidableEq α] in
theorem size_insert_of_not_mem {m : Std.ExtTreeMap α β} {k : α} {b : β} (h : k ∉ m) :
    (m.insert k b).size = m.size + 1 := by
  have hcontains : ¬ m.contains k = true := h
  rw [m.size_insert, if_neg hcontains]

omit [DecidableEq α] in
theorem minKey?_eq_some_iff [LE α] [Std.LawfulOrderOrd α] {m : Std.ExtTreeMap α β} {k : α} :
    m.minKey? = some k ↔ k ∈ m ∧ ∀ j ∈ m, k ≤ j := by
  rw [Std.ExtTreeMap.minKey?_eq_some_iff_mem_and_forall]
  simp only [Std.isLE_compare]

omit [DecidableEq α] in
theorem keys_eq_of_mem_iff {γ : Type} {m : Std.ExtTreeMap α β} {m' : Std.ExtTreeMap α γ}
    (h : ∀ k, k ∈ m ↔ k ∈ m') : m.keys = m'.keys := by
  have hperm : m.keys.Perm m'.keys := by
    rw [List.perm_ext_iff_of_nodup Std.ExtTreeMap.nodup_keys Std.ExtTreeMap.nodup_keys]
    intro k
    rw [Std.ExtTreeMap.mem_keys, Std.ExtTreeMap.mem_keys, h]
  refine hperm.eq_of_pairwise (fun a b _ _ hab hba => ?_) Std.ExtTreeMap.ordered_keys
    Std.ExtTreeMap.ordered_keys
  have hswap : compare a b = (compare b a).swap := Std.OrientedCmp.eq_swap
  rw [hab, hba] at hswap
  cases hswap

end Cirradio.OrderedMaps
