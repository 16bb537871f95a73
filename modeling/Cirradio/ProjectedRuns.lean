import Cirradio.CallRuns

/-!
# Runs without the calls of others

An observer sees the replies to some of the calls of a run. When every call that is not
kept leaves the observer's view of the state alone, and kept calls depend on the view
only, the run with only the kept calls gives the observer the same replies.
-/

namespace Cirradio.CallRuns

universe u v w
variable {σ : Type u} {κ : Type v} {ρ : Type w}

/-- The replies to the observed calls, in order. -/
def repliesTo (step : σ → κ → σ × ρ) (observed : κ → Bool) : σ → List κ → List ρ
  | _, [] => []
  | s, c :: calls =>
    if observed c then (step s c).2 :: repliesTo step observed (step s c).1 calls
    else repliesTo step observed (step s c).1 calls

variable (step : σ → κ → σ × ρ) (observed : κ → Bool) (s : σ)

@[simp] theorem repliesTo_nil : repliesTo step observed s [] = [] := rfl

theorem repliesTo_cons_of_observed {c : κ} (h : observed c = true) (calls : List κ) :
    repliesTo step observed s (c :: calls) =
      (step s c).2 :: repliesTo step observed (step s c).1 calls := if_pos h

theorem repliesTo_cons_of_not {c : κ} (h : observed c = false) (calls : List κ) :
    repliesTo step observed s (c :: calls) = repliesTo step observed (step s c).1 calls :=
  if_neg (Bool.eq_false_iff.mp h)

/-- What the view of an observer must satisfy: kept calls go from equal views to equal
views, observed ones with equal replies, and no other call changes the view. -/
structure Isolates (keep : κ → Bool) (View : σ → σ → Prop) : Prop where
  kept : ∀ s s' c, View s s' → keep c = true → View (step s c).1 (step s' c).1
  answered : ∀ s s' c, View s s' → observed c = true → (step s c).2 = (step s' c).2
  dropped : ∀ s s' c, View s s' → keep c = false → View (step s c).1 s'

variable {step observed s}

/-- Deleting the calls that are not kept changes no reply the observer sees. -/
theorem Isolates.repliesTo_filter {keep : κ → Bool} {View : σ → σ → Prop}
    (h : Isolates step observed keep View) (hkeep : ∀ c, observed c = true → keep c = true)
    {s' : σ} (hview : View s s') (calls : List κ) :
    repliesTo step observed s calls = repliesTo step observed s' (calls.filter keep) := by
  induction calls generalizing s s' with
  | nil => rfl
  | cons c calls ih =>
    cases hc : keep c with
    | false =>
      have hunseen : observed c = false := by
        apply Bool.eq_false_iff.mpr
        intro hseen
        exact absurd (hkeep c hseen) (Bool.eq_false_iff.mp hc)
      rw [List.filter_cons_of_neg (Bool.eq_false_iff.mp hc),
        repliesTo_cons_of_not step observed s hunseen]
      exact ih (h.dropped s s' c hview hc)
    | true =>
      have hnext := ih (h.kept s s' c hview hc)
      rw [List.filter_cons_of_pos hc]
      cases hseen : observed c with
      | false =>
        rw [repliesTo_cons_of_not step observed s hseen,
          repliesTo_cons_of_not step observed s' hseen, hnext]
      | true =>
        rw [repliesTo_cons_of_observed step observed s hseen,
          repliesTo_cons_of_observed step observed s' hseen, hnext,
          h.answered s s' c hview hseen]

end Cirradio.CallRuns
