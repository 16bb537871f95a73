import Mathlib.Data.List.Basic
import Mathlib.Tactic.Common

/-!
# Calls whose failure goes unnoticed

A call changes an object or fails and leaves it as it was. Code that does not look at the results
goes on with whatever object is there. If all calls succeed it is the one that code which checks
every call would have.
-/

namespace Cirradio.UncheckedCalls

universe u v
variable {α : Type u} {β : Type v}

/-- The object after a call, however that ends. -/
def attempt (call : α → Option α) (a : α) : α := (call a).getD a

/-- The object after some calls, however each of them ends. -/
def attempts (calls : List (α → Option α)) (a : α) : α :=
  calls.foldl (fun a call => attempt call a) a

/-- The object after some calls, if none of them fails. -/
def succeed : List (α → Option α) → α → Option α
  | [], a => some a
  | call :: calls, a => call a >>= succeed calls

theorem attempt_of_some {call : α → Option α} {a a' : α} (h : call a = some a') :
    attempt call a = a' := by
  rw [attempt, h, Option.getD_some]

theorem attempts_of_succeed {calls : List (α → Option α)} {a a' : α}
    (h : succeed calls a = some a') : attempts calls a = a' := by
  induction calls generalizing a with
  | nil => exact Option.some.inj h
  | cons call calls ih =>
    obtain ⟨a₁, hcall, hrest⟩ := Option.bind_eq_some_iff.mp h
    rw [attempts, List.foldl_cons, attempt_of_some hcall]
    exact ih hrest

/-- A buffer of which the start has been written over. -/
def overwrite (buffer written : List β) : List β := written ++ buffer.drop written.length

end Cirradio.UncheckedCalls
