import Cirradio.WhileLoops
import Mathlib.Data.Finset.Card
import Mathlib.Logic.Relation

/-!
# Loops that follow a key

The turns of a loop may be led by a key of the state that takes finitely many values, such as
an offset into data that stay as they are. Such a loop ends exactly if the key never takes a
value again.
-/

namespace Cirradio.WhileLoops
open Relation

variable {σ τ κ : Type} {next : κ → κ → Prop} {start k k' : κ} {behind : List κ}

/-- A way along a relation, with the places left behind. -/
inductive Way (next : κ → κ → Prop) (start : κ) : List κ → κ → Prop
  | start : Way next start [] start
  | step {behind : List κ} {k k' : κ} : Way next start behind k → next k k' →
      Way next start (k :: behind) k'

theorem Way.reflTransGen (h : Way next start behind k) : ReflTransGen next start k := by
  induction h with
  | start => exact .refl
  | step _ hnext ih => exact ih.tail hnext

theorem Way.transGen_of_mem (h : Way next start behind k) (hk' : k' ∈ behind) :
    TransGen next k' k := by
  induction h with
  | start => exact (List.not_mem_nil hk').elim
  | step _ hnext ih =>
    rcases List.mem_cons.mp hk' with rfl | hmem
    · exact .single hnext
    · exact (ih hmem).tail hnext

/-- A way that can go round has a next place from which it can still go round. -/
theorem exists_next_of_cycle {c : κ} (hway : ReflTransGen next k c) (hcycle : TransGen next c c) :
    ∃ k', next k k' ∧ ReflTransGen next k' c := by
  rcases hway.cases_head with rfl | ⟨k', hnext, hrest⟩
  · obtain ⟨k', hnext, hrest⟩ := TransGen.head'_iff.mp hcycle
    exact ⟨k', hnext, hrest⟩
  · exact ⟨k', hnext, hrest⟩

/-- A loop whose way goes round does not end. -/
theorem loop_ne_some_of_cycle {turn : σ → Option (σ ⊕ τ)} {key : σ → κ} (Inv : σ → Prop)
    (hturn : ∀ s k' r, Inv s → next (key s) k' → turn s = some r →
      ∃ s', r = .inl s' ∧ key s' = k' ∧ Inv s')
    {s : σ} (hs : Inv s) (hto : ReflTransGen next (key s) k) (hcycle : TransGen next k k)
    (limit : ℕ) (t : τ) : loop turn limit s ≠ some t := by
  intro hloop
  let Round (s : σ) : Prop := Inv s ∧ ∃ c, ReflTransGen next (key s) c ∧ TransGen next c c
  have hround : Round s := ⟨hs, k, hto, hcycle⟩
  have hstep : ∀ s s', Round s → turn s = some (.inl s') → Round s' := by
    rintro s s' ⟨hinv, c, hto, hcycle⟩ hnext
    obtain ⟨k', hk', hrest⟩ := exists_next_of_cycle hto hcycle
    obtain ⟨s₁, heq, hkey, hinv'⟩ := hturn s k' _ hinv hk' hnext
    cases heq
    exact ⟨hinv', c, by rwa [hkey], hcycle⟩
  obtain ⟨s', ⟨hinv, c, hto, hcycle⟩, hend⟩ := loop_eq_some Round hstep hround hloop
  obtain ⟨k', hk', -⟩ := exists_next_of_cycle hto hcycle
  obtain ⟨s₁, heq, -⟩ := hturn s' k' _ hinv hk' hend
  cases heq

/-- A loop whose way does not go round ends. -/
theorem exists_ends_of_acyclic [DecidableEq κ] {turn : ℕ → σ → Option (σ ⊕ τ)} {key : σ → κ}
    (Inv : σ → Prop) (places : Finset κ) (hplaces : ∀ s, Inv s → key s ∈ places)
    (hturn : ∀ s, Inv s → (∃ t, Returns (fun n => turn n s) (.inr t)) ∨
      ∃ s', Returns (fun n => turn n s) (.inl s') ∧ Inv s' ∧ next (key s) (key s'))
    {s : σ} (hs : Inv s) (hno : ∀ k, ReflTransGen next (key s) k → ¬ TransGen next k k) :
    ∃ t, Ends turn s t := by
  have hnew : ∀ behind k, Way next (key s) behind k → k ∉ behind := fun behind k hway hmem =>
    hno k hway.reflTransGen (hway.transGen_of_mem hmem)
  -- the places left behind are different, so there are only so many of them
  have hends : ∀ left behind s', places.card = behind.length + left → Inv s' →
      Way next (key s) behind (key s') → behind.Nodup → (∀ k ∈ behind, k ∈ places) →
      ∃ t, Ends turn s' t := by
    intro left
    induction left with
    | zero =>
      intro behind s' hcard hs' hway hnodup hin
      have hsub : (key s' :: behind).toFinset ⊆ places := by
        intro k hk
        rcases List.mem_cons.mp (List.mem_toFinset.mp hk) with rfl | hk
        · exact hplaces s' hs'
        · exact hin k hk
      have hle := Finset.card_le_card hsub
      rw [List.toFinset_card_of_nodup (List.nodup_cons.mpr ⟨hnew _ _ hway, hnodup⟩),
        List.length_cons] at hle
      omega
    | succ left ih =>
      intro behind s' hcard hs' hway hnodup hin
      rcases hturn s' hs' with ⟨t, hreturns⟩ | ⟨s₁, hreturns, hs₁, hnext⟩
      · exact ⟨t, .of_inr hreturns⟩
      · obtain ⟨t, hends⟩ := ih (key s' :: behind) s₁ (by rw [List.length_cons]; omega) hs₁
          (hway.step hnext) (List.nodup_cons.mpr ⟨hnew _ _ hway, hnodup⟩)
          (List.forall_mem_cons.mpr ⟨hplaces s' hs', hin⟩)
        exact ⟨t, .of_inl hreturns hends⟩
  exact hends places.card [] s (Nat.zero_add _).symm hs .start List.nodup_nil
    fun k hk => (List.not_mem_nil hk).elim

end Cirradio.WhileLoops
