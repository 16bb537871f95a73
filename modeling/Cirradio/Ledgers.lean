import Mathlib.Data.List.Nodup
import Mathlib.Data.Set.Insert
import Mathlib.Tactic.Common

/-!
# Ledgers of created and destroyed objects

A ledger lists, in order, which objects have been created and which destroyed. It balances
with a set of held objects if no object has been created or destroyed twice and the held ones
are those that have been created and not destroyed.
-/

namespace Cirradio.Ledgers

variable {η : Type*}

inductive Entry (η : Type*) where
  | created (h : η)
  | destroyed (h : η)
  deriving DecidableEq, Repr

def Entry.created? : Entry η → Option η
  | .created h => some h
  | .destroyed _ => none

def Entry.destroyed? : Entry η → Option η
  | .created _ => none
  | .destroyed h => some h

def created (log : List (Entry η)) : List η := log.filterMap Entry.created?

def destroyed (log : List (Entry η)) : List η := log.filterMap Entry.destroyed?

@[simp] theorem created_create (log : List (Entry η)) (h : η) :
    created (log ++ [.created h]) = created log ++ [h] := List.filterMap_append

@[simp] theorem destroyed_create (log : List (Entry η)) (h : η) :
    destroyed (log ++ [.created h]) = destroyed log := by
  simp [destroyed, Entry.destroyed?]

@[simp] theorem created_destroy (log : List (Entry η)) (h : η) :
    created (log ++ [.destroyed h]) = created log := by
  simp [created, Entry.created?]

@[simp] theorem destroyed_destroy (log : List (Entry η)) (h : η) :
    destroyed (log ++ [.destroyed h]) = destroyed log ++ [h] := List.filterMap_append

/-- The objects that have been created and not yet destroyed. -/
def live (log : List (Entry η)) : Set η := {h | h ∈ created log ∧ h ∉ destroyed log}

structure Balanced (log : List (Entry η)) (held : Set η) : Prop where
  created_nodup : (created log).Nodup
  destroyed_nodup : (destroyed log).Nodup
  destroyed_created : ∀ h ∈ destroyed log, h ∈ created log
  live_eq : live log = held

namespace Balanced
variable {log : List (Entry η)} {held : Set η} {h : η}

theorem nil : Balanced ([] : List (Entry η)) ∅ where
  created_nodup := List.nodup_nil
  destroyed_nodup := List.nodup_nil
  destroyed_created _ hd := absurd hd List.not_mem_nil
  live_eq := Set.eq_empty_of_forall_notMem fun _ hl => absurd hl.1 List.not_mem_nil

theorem mem_created (hb : Balanced log held) (hheld : h ∈ held) : h ∈ created log :=
  (hb.live_eq ▸ hheld : h ∈ live log).1

theorem not_mem_destroyed (hb : Balanced log held) (hheld : h ∈ held) : h ∉ destroyed log :=
  (hb.live_eq ▸ hheld : h ∈ live log).2

theorem create (hb : Balanced log held) (hfresh : h ∉ created log) :
    Balanced (log ++ [.created h]) (insert h held) where
  created_nodup := by
    rw [created_create, ← List.concat_eq_append]
    exact hb.created_nodup.concat hfresh
  destroyed_nodup := by
    rw [destroyed_create]
    exact hb.destroyed_nodup
  destroyed_created d hd := by
    rw [destroyed_create] at hd
    rw [created_create]
    exact List.mem_append_left _ (hb.destroyed_created d hd)
  live_eq := by
    rw [← hb.live_eq]
    ext a
    have hnot : h ∉ destroyed log := fun hd => hfresh (hb.destroyed_created h hd)
    simp only [live, created_create, destroyed_create, List.mem_append, List.mem_singleton,
      Set.mem_ofPred_eq, Set.mem_insert_iff]
    constructor
    · rintro ⟨hc | rfl, hd⟩
      · exact .inr ⟨hc, hd⟩
      · exact .inl rfl
    · rintro (rfl | ⟨hc, hd⟩)
      · exact ⟨.inr rfl, hnot⟩
      · exact ⟨.inl hc, hd⟩

/-- A held object may be destroyed, and is no longer held. -/
theorem destroy (hb : Balanced log held) (hheld : h ∈ held) :
    Balanced (log ++ [.destroyed h]) (held \ {h}) where
  created_nodup := by
    rw [created_destroy]
    exact hb.created_nodup
  destroyed_nodup := by
    rw [destroyed_destroy, ← List.concat_eq_append]
    exact hb.destroyed_nodup.concat (hb.not_mem_destroyed hheld)
  destroyed_created d hd := by
    rw [destroyed_destroy, List.mem_append, List.mem_singleton] at hd
    rw [created_destroy]
    rcases hd with hd | rfl
    · exact hb.destroyed_created d hd
    · exact hb.mem_created hheld
  live_eq := by
    rw [← hb.live_eq]
    ext a
    simp only [live, created_destroy, destroyed_destroy, List.mem_append, List.mem_singleton,
      Set.mem_ofPred_eq, Set.mem_sdiff, Set.mem_singleton_iff, not_or, and_assoc]

end Balanced
end Cirradio.Ledgers
