import Mathlib.Data.List.TakeWhile
import Mathlib.Tactic.Common

/-!
# Numbers at the front of a text

A scanner takes a sign, if there is one, and the digits after it, and leaves what follows. The
texts it takes a number from are described by how they fall into these three parts, which can
be done in one way only.
-/

namespace Cirradio.Numerals

/-- One digit or more, and nothing else. -/
def IsNumeral (digits : List Char) : Prop := digits ≠ [] ∧ ∀ c ∈ digits, c.isDigit = true

def value (digits : List Char) : ℕ :=
  digits.foldl (fun value c => 10 * value + (c.toNat - '0'.toNat)) 0

def IsSign (sign : List Char) : Prop := sign = [] ∨ sign = ['+'] ∨ sign = ['-']

/-- Whether there is a minus sign, and what follows the sign. -/
def splitSign : List Char → Bool × List Char
  | '-' :: rest => (true, rest)
  | '+' :: rest => (false, rest)
  | rest => (false, rest)

/-- Whether the number is negative, and its size. -/
def scan (text : List Char) : Option (Bool × ℕ) :=
  let digits := (splitSign text).2.takeWhile Char.isDigit
  if digits.isEmpty then none else some ((splitSign text).1, value digits)

/-- A sign, all the digits after it, and what is left. -/
structure Splits (text sign digits tail : List Char) : Prop where
  text_eq : text = sign ++ (digits ++ tail)
  sign : IsSign sign
  digits : IsNumeral digits
  tail : ∀ c ∈ tail.head?, c.isDigit = false

theorem splitSign_of_digit {c : Char} (h : c.isDigit = true) (rest : List Char) :
    splitSign (c :: rest) = (false, c :: rest) := by
  unfold splitSign
  split
  · next heq =>
    cases heq
    exact absurd h (by decide)
  · next heq =>
    cases heq
    exact absurd h (by decide)
  · rfl

theorem exists_sign (text : List Char) : ∃ sign, IsSign sign ∧
    text = sign ++ (splitSign text).2 ∧ ((splitSign text).1 = true ↔ sign = ['-']) := by
  unfold splitSign
  split
  · exact ⟨['-'], .inr (.inr rfl), rfl, by simp⟩
  · exact ⟨['+'], .inr (.inl rfl), rfl, by simp⟩
  · exact ⟨[], .inl rfl, rfl, by simp⟩

theorem Splits.splitSign_eq {text sign digits tail : List Char}
    (h : Splits text sign digits tail) :
    splitSign text = (decide (sign = ['-']), digits ++ tail) := by
  obtain ⟨c, ds, rfl⟩ := List.exists_cons_of_ne_nil h.digits.1
  have hc : c.isDigit = true := h.digits.2 c List.mem_cons_self
  rw [h.text_eq]
  rcases h.sign with rfl | rfl | rfl
  · exact splitSign_of_digit hc (ds ++ tail)
  · rfl
  · rfl

theorem takeWhile_digits {digits tail : List Char} (hdigits : IsNumeral digits)
    (htail : ∀ c ∈ tail.head?, c.isDigit = false) :
    (digits ++ tail).takeWhile Char.isDigit = digits := by
  rw [List.takeWhile_append_of_pos hdigits.2]
  cases tail with
  | nil => simp
  | cons c tail =>
    have hc : c.isDigit = false := htail c rfl
    simp [hc]

theorem Splits.scan_eq {text sign digits tail : List Char} (h : Splits text sign digits tail) :
    scan text = some (decide (sign = ['-']), value digits) := by
  unfold scan
  rw [h.splitSign_eq, takeWhile_digits h.digits h.tail]
  have hne : digits.isEmpty = false := List.isEmpty_eq_false_iff.mpr h.digits.1
  simp only [hne, Bool.false_eq_true, if_false]

/-- A number is found exactly in a text that falls into the three parts. -/
theorem scan_eq_some_iff {text : List Char} {negative : Bool} {size : ℕ} :
    scan text = some (negative, size) ↔ ∃ sign digits tail, Splits text sign digits tail ∧
      negative = decide (sign = ['-']) ∧ size = value digits := by
  constructor
  · intro h
    obtain ⟨sign, hsign, htext, hnegative⟩ := exists_sign text
    unfold scan at h
    simp only at h
    split at h
    · cases h
    · next hdigits =>
      have hparts := List.takeWhile_append_dropWhile (p := Char.isDigit) (l := (splitSign text).2)
      cases h
      refine ⟨sign, _, (splitSign text).2.dropWhile Char.isDigit,
        ⟨?_, hsign, ⟨?_, ?_⟩, ?_⟩, ?_, rfl⟩
      · rw [hparts]
        exact htext
      · exact fun hnil => hdigits (List.isEmpty_iff.mpr hnil)
      · exact fun c hc => List.mem_takeWhile_imp hc
      · intro c hc
        have hlast := List.head?_dropWhile_not Char.isDigit (splitSign text).2
        rw [Option.mem_def.mp hc] at hlast
        exact hlast
      · rw [Bool.eq_iff_iff, decide_eq_true_iff]
        exact hnegative
  · rintro ⟨sign, digits, tail, hsplits, rfl, rfl⟩
    exact hsplits.scan_eq

theorem Splits.unique {text sign digits tail sign' digits' tail' : List Char}
    (h : Splits text sign digits tail) (h' : Splits text sign' digits' tail') :
    sign = sign' ∧ digits = digits' ∧ tail = tail' := by
  have hrest : digits ++ tail = digits' ++ tail' :=
    congrArg Prod.snd (h.splitSign_eq.symm.trans h'.splitSign_eq)
  have hdigits : digits = digits' := by
    rw [← takeWhile_digits h.digits h.tail, hrest, takeWhile_digits h'.digits h'.tail]
  have hsign : sign ++ (digits ++ tail) = sign' ++ (digits ++ tail) := by
    rw [← h.text_eq, h'.text_eq, hrest]
  subst hdigits
  exact ⟨List.append_cancel_right hsign, rfl, List.append_cancel_left hrest⟩

theorem splits_of_isNumeral {sign digits : List Char} (hsign : IsSign sign)
    (hdigits : IsNumeral digits) : Splits (sign ++ digits) sign digits [] :=
  ⟨by rw [List.append_nil], hsign, hdigits, fun c hc => by cases hc⟩

end Cirradio.Numerals
