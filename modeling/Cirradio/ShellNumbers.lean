import Cirradio.CliShell

/-!
# Numbers on the shell

The shell reads a number from the front of a word and does not look at what follows it. A minus
sign before a frequency wraps. So besides the numerals meant, it takes words that only begin with
a number in range.
-/

namespace Cirradio.Transec.CliShell
open Numerals

theorem not_of_mem_splitOnP {α : Type} {p : α → Bool} {xs piece : List α}
    (h : piece ∈ xs.splitOnP p) : ∀ c ∈ piece, p c = false := by
  induction xs generalizing piece with
  | nil =>
    rw [List.splitOnP_nil, List.mem_singleton] at h
    intro c hc
    rw [h] at hc
    cases hc
  | cons x xs ih =>
    rw [List.splitOnP_cons_eq_if_modifyHead] at h
    split at h
    · rcases List.mem_cons.mp h with rfl | h
      · intro c hc
        cases hc
      · exact ih h
    · next hx =>
      obtain ⟨head, rest, hsplit⟩ := List.exists_cons_of_ne_nil (List.splitOnP_ne_nil p xs)
      rw [hsplit, List.modifyHead_cons] at h
      rw [hsplit] at ih
      rcases List.mem_cons.mp h with rfl | h
      · intro c hc
        rcases List.mem_cons.mp hc with rfl | hc
        · exact Bool.eq_false_iff.mpr hx
        · exact ih List.mem_cons_self c hc
      · exact ih (List.mem_cons_of_mem head h)

theorem dropWhile_isSpace_of_mem_tokenize {input x : String} (h : x ∈ tokenize input) :
    x.toList.dropWhile isSpace = x.toList := by
  obtain ⟨token, htoken, rfl⟩ := List.mem_map.mp h
  have hspace := not_of_mem_splitOnP (List.mem_filter.mp htoken).1
  rw [String.toList_ofList]
  cases token with
  | nil => rfl
  | cons c token => exact List.dropWhile_cons_of_neg (by simp [hspace c List.mem_cons_self])

theorem stoi_eq (token : String) : stoi token =
    match scan (token.toList.dropWhile isSpace) with
    | none => none
    | some (negative, size) =>
      let value : Int := if negative then -size else size
      if value < -2 ^ 31 ∨ 2 ^ 31 ≤ value then none else some value := by
  unfold scan
  generalize htext : token.toList.dropWhile isSpace = text
  have hsign : stoi token =
      let digits := (splitSign text).2.takeWhile Char.isDigit
      if digits.isEmpty then none
      else
        let value : Int := if (splitSign text).1 then -(value digits : Int) else value digits
        if value < -2 ^ 31 ∨ 2 ^ 31 ≤ value then none else some value := by
    rw [← htext]
    rfl
  rw [hsign]
  simp only
  split <;> rfl

/-- The number with its sign. -/
def signed (sign digits : List Char) : Int :=
  if sign = ['-'] then -(value digits : Int) else value digits

theorem stoi_of_splits {input x : String} (hx : x ∈ tokenize input)
    {sign digits tail : List Char} (h : Splits x.toList sign digits tail) :
    stoi x = if signed sign digits < -2 ^ 31 ∨ 2 ^ 31 ≤ signed sign digits then none
      else some (signed sign digits) := by
  rw [stoi_eq, dropWhile_isSpace_of_mem_tokenize hx, h.scan_eq]
  simp only [signed, decide_eq_true_eq]
  rfl

theorem stoi_eq_some_iff {input x : String} (hx : x ∈ tokenize input) {v : Int} :
    stoi x = some v ↔ ∃ sign digits tail, Splits x.toList sign digits tail ∧
      v = signed sign digits ∧ -2 ^ 31 ≤ v ∧ v < 2 ^ 31 := by
  constructor
  · intro h
    cases hscan : scan x.toList with
    | none =>
      rw [stoi_eq, dropWhile_isSpace_of_mem_tokenize hx, hscan] at h
      cases h
    | some number =>
      obtain ⟨sign, digits, tail, hsplits, -, -⟩ := scan_eq_some_iff.mp hscan
      rw [stoi_of_splits hx hsplits] at h
      by_cases hrange : signed sign digits < -2 ^ 31 ∨ 2 ^ 31 ≤ signed sign digits
      · rw [if_pos hrange] at h
        cases h
      · rw [if_neg hrange] at h
        cases h
        exact ⟨sign, digits, tail, hsplits, rfl, by omega, by omega⟩
  · rintro ⟨sign, digits, tail, hsplits, rfl, hlow, hhigh⟩
    rw [stoi_of_splits hx hsplits, if_neg (by omega)]

end Cirradio.Transec.CliShell

namespace Cirradio.Mgmt
open Transec Transec.CliShell Numerals

/-- The number with its sign, modulo `2 ^ 64`. -/
def wrapped (sign digits : List Char) : ℕ :=
  if sign = ['-'] then (2 ^ 64 - value digits) % 2 ^ 64 else value digits

theorem toNat_wrapped (sign : List Char) {digits : List Char} (h : value digits < 2 ^ 64) :
    (UInt64.ofNat (wrapped sign digits)).toNat = wrapped sign digits := by
  apply UInt64.toNat_ofNat_of_lt'
  change wrapped sign digits < 2 ^ 64
  unfold wrapped
  split
  · exact Nat.mod_lt _ (by decide)
  · exact h

theorem neg_ofNat {size : ℕ} (h : size < 2 ^ 64) :
    -UInt64.ofNat size = UInt64.ofNat ((2 ^ 64 - size) % 2 ^ 64) := by
  apply UInt64.toNat_inj.mp
  rw [UInt64.toNat_neg, UInt64.toNat_ofNat_of_lt' h]
  exact (UInt64.toNat_ofNat_of_lt' (Nat.mod_lt _ (by decide))).symm

theorem stoull_of_splits {input x : String} (hx : x ∈ tokenize input)
    {sign digits tail : List Char} (h : Splits x.toList sign digits tail) :
    stoull x = if 2 ^ 64 ≤ value digits then none
      else some (UInt64.ofNat (wrapped sign digits)) := by
  unfold stoull
  rw [dropWhile_isSpace_of_mem_tokenize hx, h.scan_eq]
  simp only [decide_eq_true_eq]
  by_cases hbig : 2 ^ 64 ≤ value digits
  · rw [if_pos hbig, if_pos hbig]
  · rw [if_neg hbig, if_neg hbig]
    unfold wrapped
    split
    · rw [neg_ofNat (Nat.lt_of_not_le hbig)]
    · rfl

theorem stoull_eq_some_iff {input x : String} (hx : x ∈ tokenize input) {v : UInt64} :
    stoull x = some v ↔ ∃ sign digits tail, Splits x.toList sign digits tail ∧
      value digits < 2 ^ 64 ∧ v.toNat = wrapped sign digits := by
  constructor
  · intro h
    cases hscan : scan x.toList with
    | none =>
      unfold stoull at h
      rw [dropWhile_isSpace_of_mem_tokenize hx, hscan] at h
      cases h
    | some number =>
      obtain ⟨sign, digits, tail, hsplits, -, -⟩ := scan_eq_some_iff.mp hscan
      rw [stoull_of_splits hx hsplits] at h
      by_cases hbig : 2 ^ 64 ≤ value digits
      · rw [if_pos hbig] at h
        cases h
      · rw [if_neg hbig] at h
        cases h
        exact ⟨sign, digits, tail, hsplits, by omega, toNat_wrapped sign (by omega)⟩
  · rintro ⟨sign, digits, tail, hsplits, hsmall, hv⟩
    rw [stoull_of_splits hx hsplits, if_neg (by omega), ← hv, UInt64.ofNat_toNat]

namespace CliShell
variable {τ P : Type} (T : PowerText P) (R : TransecRegs τ) (s : CliShell τ P)

/-- A frequency is a numeral in the band, and is stored. -/
def ExactFreq (input : String) : Prop :=
  ∀ x rest, tokenize input = "set" :: "freq" :: x :: rest →
    (s.execute T R input).2.success = true →
      IsNumeral x.toList ∧ 225000000 ≤ value x.toList ∧ value x.toList ≤ 512000000 ∧
        (s.execute T R input).1.freqHz.toNat = value x.toList

/-- A power is a numeral with at most a sign, in range, and is stored. -/
def ExactPower (input : String) : Prop :=
  ∀ x rest, tokenize input = "set" :: "power" :: x :: rest →
    (s.execute T R input).2.success = true →
      ∃ sign digits, x.toList = sign ++ digits ∧ IsSign sign ∧ IsNumeral digits ∧
        -10 ≤ signed sign digits ∧ signed sign digits ≤ 37 ∧
        (s.execute T R input).1.powerDbm = signed sign digits

/-- A level is one of three words, and is stored. -/
def ExactLevel (input : String) : Prop :=
  ∀ x rest, tokenize input = "emcon" :: x :: rest → (s.execute T R input).2.success = true →
    (x = "0" ∧ (s.execute T R input).1.emconMgr = some 0) ∨
    (x = "1" ∧ (s.execute T R input).1.emconMgr = some 1) ∨
    (x = "2" ∧ (s.execute T R input).1.emconMgr = some 2)

/-- Whatever the state of the shell, a line with a number is taken only with such a number. -/
def ParsesExactly (input : String) : Prop :=
  ∀ s : CliShell τ P, s.ExactFreq T R input ∧ s.ExactPower T R input ∧ s.ExactLevel T R input

/-- No sign stands before a frequency in the band, and nothing stands after it. -/
def PlainFreq (x : String) : Prop :=
  ∀ sign digits tail, Splits x.toList sign digits tail → value digits < 2 ^ 64 →
    225000000 ≤ wrapped sign digits → wrapped sign digits ≤ 512000000 → sign = [] ∧ tail = []

/-- Nothing stands after a power in range. -/
def PlainPower (x : String) : Prop :=
  ∀ sign digits tail, Splits x.toList sign digits tail →
    -10 ≤ signed sign digits → signed sign digits ≤ 37 → tail = []

/-- A level in range is written as one digit. -/
def PlainLevel (x : String) : Prop :=
  ∀ sign digits tail, Splits x.toList sign digits tail →
    0 ≤ signed sign digits → signed sign digits ≤ 2 → x = "0" ∨ x = "1" ∨ x = "2"

/-- The number of a line is plain. -/
def PlainNumber (input : String) : Prop :=
  (∀ x rest, tokenize input = "set" :: "freq" :: x :: rest → PlainFreq x) ∧
  (∀ x rest, tokenize input = "set" :: "power" :: x :: rest → PlainPower x) ∧
  ∀ x rest, tokenize input = "emcon" :: x :: rest → PlainLevel x

variable {T R s} {input x param : String} {rest : List String}

theorem execute_setFreq (h : tokenize input = "set" :: "freq" :: x :: rest) :
    s.execute T R input = s.handleSet ("freq" :: x :: rest) := by
  unfold execute
  rw [h]
  rfl

theorem execute_setPower (h : tokenize input = "set" :: "power" :: x :: rest) :
    s.execute T R input = s.handleSet ("power" :: x :: rest) := by
  unfold execute
  rw [h]
  rfl

theorem execute_emcon (h : tokenize input = "emcon" :: x :: rest) :
    s.execute T R input = s.handleEmcon R (x :: rest) := by
  unfold execute
  rw [h]
  rfl

theorem setFreq_success {hz : UInt64} (hx : stoull x = some hz) (hlow : 225000000 ≤ hz.toNat)
    (hhigh : hz.toNat ≤ 512000000) :
    (s.handleSet ("freq" :: x :: rest)).2.success = true := by
  have hin : ¬ (hz < 225000000 ∨ 512000000 < hz) := by
    rw [UInt64.lt_iff_toNat_lt, UInt64.lt_iff_toNat_lt]
    change ¬ (hz.toNat < 225000000 ∨ 512000000 < hz.toNat)
    omega
  unfold handleSet
  simp only [if_true, hx, if_neg hin]

theorem setFreq_stores (h : (s.handleSet ("freq" :: x :: rest)).2.success = true) :
    ∃ hz, stoull x = some hz ∧ 225000000 ≤ hz.toNat ∧ hz.toNat ≤ 512000000 ∧
      (s.handleSet ("freq" :: x :: rest)).1.freqHz = hz := by
  unfold handleSet at h ⊢
  simp only [if_true] at h ⊢
  cases hx : stoull x with
  | none =>
    rw [hx] at h
    cases h
  | some hz =>
    rw [hx] at h
    simp only at h ⊢
    split at h
    · cases h
    · next hin =>
      rw [UInt64.lt_iff_toNat_lt, UInt64.lt_iff_toNat_lt] at hin
      change ¬ (hz.toNat < 225000000 ∨ 512000000 < hz.toNat) at hin
      refine ⟨hz, rfl, by omega, by omega, ?_⟩
      rw [if_neg]
      rw [UInt64.lt_iff_toNat_lt, UInt64.lt_iff_toNat_lt]
      exact hin

theorem setPower_success {dbm : Int} (hx : stoi x = some dbm) (hlow : -10 ≤ dbm)
    (hhigh : dbm ≤ 37) : (s.handleSet ("power" :: x :: rest)).2.success = true := by
  have hin : ¬ (dbm < -10 ∨ 37 < dbm) := by omega
  have hparam : ¬ ("power" : String) = "freq" := by decide
  unfold handleSet
  simp only [if_neg hparam, if_true, hx, if_neg hin]

theorem setPower_stores (h : (s.handleSet ("power" :: x :: rest)).2.success = true) :
    ∃ dbm, stoi x = some dbm ∧ -10 ≤ dbm ∧ dbm ≤ 37 ∧
      (s.handleSet ("power" :: x :: rest)).1.powerDbm = dbm := by
  have hparam : ¬ ("power" : String) = "freq" := by decide
  unfold handleSet at h ⊢
  simp only [if_neg hparam, if_true] at h ⊢
  cases hx : stoi x with
  | none =>
    rw [hx] at h
    cases h
  | some dbm =>
    rw [hx] at h
    simp only at h ⊢
    split at h
    · cases h
    · next hin =>
      refine ⟨dbm, rfl, by omega, by omega, ?_⟩
      rw [if_neg hin]

theorem emcon_success {level named : Int} (hmgr : s.emconMgr = some level)
    (hx : stoi x = some named) (hlow : 0 ≤ named) (hhigh : named ≤ 2) :
    (s.handleEmcon R (x :: rest)).2.success = true := by
  unfold handleEmcon
  rw [hmgr]
  simp only
  rw [(handleEmcon_of_stoi R.toIAxiRegs hx ⟨hlow, hhigh⟩ rest ⟨s.regs, level⟩).2]

theorem emcon_stores (h : (s.handleEmcon R (x :: rest)).2.success = true) :
    ∃ named, stoi x = some named ∧ 0 ≤ named ∧ named ≤ 2 ∧
      (s.handleEmcon R (x :: rest)).1.emconMgr = some named := by
  unfold handleEmcon at h ⊢
  cases hmgr : s.emconMgr with
  | none =>
    rw [hmgr] at h
    cases h
  | some level =>
    rw [hmgr] at h
    simp only at h ⊢
    cases hx : stoi x with
    | none =>
      simp only [Transec.CliShell.handleEmcon, hx] at h
      cases h
    | some named =>
      by_cases hout : named < 0 ∨ 2 < named
      · simp only [Transec.CliShell.handleEmcon, hx, if_pos hout] at h
        cases h
      · have hrange : 0 ≤ named ∧ named ≤ 2 := by omega
        have hset := handleEmcon_of_stoi R.toIAxiRegs hx hrange rest ⟨s.regs, level⟩
        exact ⟨named, rfl, hrange.1, hrange.2, congrArg some hset.1⟩

theorem execute_number_congr {input' : String} {words rest' : List String}
    (hwords : words = ["set", "freq", x] ∨ words = ["set", "power", x] ∨ words = ["emcon", x])
    (h : tokenize input = words ++ rest) (h' : tokenize input' = words ++ rest') :
    s.execute T R input = s.execute T R input' := by
  rcases hwords with rfl | rfl | rfl
  · rw [execute_setFreq h, execute_setFreq h']
    rfl
  · rw [execute_setPower h, execute_setPower h']
    rfl
  · rw [execute_emcon h, execute_emcon h']
    rfl

theorem plain_of_isNumeral {text sign digits tail : List Char} (h : Splits text sign digits tail)
    (htext : IsNumeral text) : sign = [] ∧ tail = [] := by
  have hwhole : Splits ([] ++ text) [] text [] := splits_of_isNumeral (.inl rfl) htext
  obtain ⟨hsign, -, htail⟩ := h.unique hwhole
  exact ⟨hsign, htail⟩

theorem exactFreq_iff (T : PowerText P) (R : TransecRegs τ) (regs : τ) (input : String) :
    (∀ s : CliShell τ P, s.ExactFreq T R input) ↔
      ∀ x rest, tokenize input = "set" :: "freq" :: x :: rest → PlainFreq x := by
  constructor
  · intro h x rest hinput sign digits tail hsplits hsmall hlow hhigh
    have hx : x ∈ tokenize input := by simp [hinput]
    have hv := toNat_wrapped sign hsmall
    have hstoull := (stoull_eq_some_iff hx).mpr ⟨sign, digits, tail, hsplits, hsmall, hv⟩
    have hsuccess : ((new regs : CliShell τ P).execute T R input).2.success = true := by
      rw [execute_setFreq hinput]
      exact setFreq_success hstoull (by rwa [hv]) (by rwa [hv])
    exact plain_of_isNumeral hsplits (h (new regs) x rest hinput hsuccess).1
  · intro hplain s x rest hinput hsuccess
    have hx : x ∈ tokenize input := by simp [hinput]
    rw [execute_setFreq hinput] at hsuccess ⊢
    obtain ⟨hz, hstoull, hlow, hhigh, hstored⟩ := setFreq_stores hsuccess
    obtain ⟨sign, digits, tail, hsplits, hsmall, hv⟩ := (stoull_eq_some_iff hx).mp hstoull
    rw [hv] at hlow hhigh
    obtain ⟨rfl, rfl⟩ := hplain x rest hinput sign digits tail hsplits hsmall hlow hhigh
    have htext : x.toList = digits := by rw [hsplits.text_eq, List.append_nil, List.nil_append]
    have hwrapped : wrapped [] digits = value digits := rfl
    rw [hwrapped] at hv hlow hhigh
    rw [htext, hstored]
    exact ⟨hsplits.digits, hlow, hhigh, hv⟩

theorem exactPower_iff (T : PowerText P) (R : TransecRegs τ) (regs : τ) (input : String) :
    (∀ s : CliShell τ P, s.ExactPower T R input) ↔
      ∀ x rest, tokenize input = "set" :: "power" :: x :: rest → PlainPower x := by
  constructor
  · intro h x rest hinput sign digits tail hsplits hlow hhigh
    have hx : x ∈ tokenize input := by simp [hinput]
    have hstoi := (stoi_eq_some_iff hx).mpr
      ⟨sign, digits, tail, hsplits, rfl, by omega, by omega⟩
    have hsuccess : ((new regs : CliShell τ P).execute T R input).2.success = true := by
      rw [execute_setPower hinput]
      exact setPower_success hstoi hlow hhigh
    obtain ⟨sign', digits', htext, hsign, hdigits, -⟩ := h (new regs) x rest hinput hsuccess
    rw [htext] at hsplits
    exact (hsplits.unique (splits_of_isNumeral hsign hdigits)).2.2
  · intro hplain s x rest hinput hsuccess
    have hx : x ∈ tokenize input := by simp [hinput]
    rw [execute_setPower hinput] at hsuccess ⊢
    obtain ⟨dbm, hstoi, hlow, hhigh, hstored⟩ := setPower_stores hsuccess
    obtain ⟨sign, digits, tail, hsplits, rfl, -⟩ := (stoi_eq_some_iff hx).mp hstoi
    have htail := hplain x rest hinput sign digits tail hsplits hlow hhigh
    subst htail
    refine ⟨sign, digits, ?_, hsplits.sign, hsplits.digits, hlow, hhigh, hstored⟩
    rw [hsplits.text_eq, List.append_nil]

theorem exactLevel_iff (T : PowerText P) (R : TransecRegs τ) (regs : τ) (input : String) :
    (∀ s : CliShell τ P, s.ExactLevel T R input) ↔
      ∀ x rest, tokenize input = "emcon" :: x :: rest → PlainLevel x := by
  constructor
  · intro h x rest hinput sign digits tail hsplits hlow hhigh
    have hx : x ∈ tokenize input := by simp [hinput]
    have hstoi := (stoi_eq_some_iff hx).mpr
      ⟨sign, digits, tail, hsplits, rfl, by omega, by omega⟩
    -- only a shell with a manager takes a level
    have hsuccess :
        (({ new regs with emconMgr := some 2 } : CliShell τ P).execute T R input).2.success =
          true := by
      rw [execute_emcon hinput]
      exact emcon_success rfl hstoi hlow hhigh
    rcases h _ x rest hinput hsuccess with hword | hword | hword
    · exact .inl hword.1
    · exact .inr (.inl hword.1)
    · exact .inr (.inr hword.1)
  · intro hplain s x rest hinput hsuccess
    have hx : x ∈ tokenize input := by simp [hinput]
    rw [execute_emcon hinput] at hsuccess ⊢
    obtain ⟨named, hstoi, hlow, hhigh, hstored⟩ := emcon_stores hsuccess
    obtain ⟨sign, digits, tail, hsplits, hnamed, -⟩ := (stoi_eq_some_iff hx).mp hstoi
    rw [hnamed] at hlow hhigh
    have hstored' : ∀ v : Int, stoi x = some v →
        (s.handleEmcon R (x :: rest)).1.emconMgr = some v := by
      intro v hv
      rw [hstored, ← hstoi, hv]
    rcases hplain x rest hinput sign digits tail hsplits hlow hhigh with rfl | rfl | rfl
    · exact .inl ⟨rfl, hstored' 0 (by decide)⟩
    · exact .inr (.inl ⟨rfl, hstored' 1 (by decide)⟩)
    · exact .inr (.inr ⟨rfl, hstored' 2 (by decide)⟩)

/-- The lines parsed exactly are those whose number, where it is in range, is plain. -/
theorem parses_exactly_iff (T : PowerText P) (R : TransecRegs τ) (regs : τ) (input : String) :
    ParsesExactly T R input ↔ PlainNumber input := by
  unfold ParsesExactly PlainNumber
  rw [← exactFreq_iff T R regs, ← exactPower_iff T R regs, ← exactLevel_iff T R regs,
    ← forall_and, ← forall_and]

/-- Registers that keep nothing. -/
def nullTransecRegs : TransecRegs Unit where
  toIAxiRegs := nullAxiRegs
  setInterleaverDepth _ _ := ()
  setHopRate _ _ := ()

/-- A text of powers that reads none. -/
def noPowerText : PowerText ℚ := ⟨fun _ => none, fun _ => ""⟩

/-- The shell takes a frequency with letters after it, a negative one that wraps into the band,
a power with a unit and a level with more behind it. -/
theorem parses_exactly_prefix :
    ¬ ParsesExactly noPowerText nullTransecRegs "set freq 300000000abc" ∧
    ¬ ParsesExactly noPowerText nullTransecRegs "set freq -18446744073409551616" ∧
    ¬ ParsesExactly noPowerText nullTransecRegs "set power 20dBm" ∧
    ¬ ParsesExactly noPowerText nullTransecRegs "emcon 1x" := by
  refine ⟨fun h => ?_, fun h => ?_, fun h => ?_, fun h => ?_⟩
  · have hdigits := ((h (new ())).1 "300000000abc" [] (by decide) (by decide)).1
    exact absurd (hdigits.2 'a' (by decide)) (by decide)
  · have hdigits := ((h (new ())).1 "-18446744073409551616" [] (by decide) (by decide)).1
    exact absurd (hdigits.2 '-' (by decide)) (by decide)
  · obtain ⟨sign, digits, htext, hsign, hdigits, -⟩ :=
      (h (new ())).2.1 "20dBm" [] (by decide) (by decide)
    have hd : 'd' ∈ sign ++ digits := htext ▸ (by decide : 'd' ∈ "20dBm".toList)
    rcases List.mem_append.mp hd with hd | hd
    · rcases hsign with rfl | rfl | rfl
      · cases hd
      · exact absurd hd (by decide)
      · exact absurd hd (by decide)
    · exact absurd (hdigits.2 'd' hd) (by decide)
  · rcases (h { new () with emconMgr := some 2 }).2.2 "1x" [] (by decide) (by decide) with
      hword | hword | hword
    · exact absurd hword.1 (by decide)
    · exact absurd hword.1 (by decide)
    · exact absurd hword.1 (by decide)

end CliShell
end Cirradio.Mgmt
