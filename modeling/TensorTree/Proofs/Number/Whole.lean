import Mathlib.Algebra.Order.Floor.Ring
import Mathlib.Data.Nat.Digits.Defs
import Mathlib.Data.Rat.Floor
import Mathlib.Tactic.FieldSimp
import Mathlib.Tactic.Linarith
import Mathlib.Tactic.Ring
import TensorTree.Number.Decimal

/-!
# Whole numbers and their shortest decimals

The shortest decimal of a number has a fraction exactly if the number has one
(`Binary64.exponent_shortest_nonneg_iff`).  A whole number lies on the grid of the whole numbers, so
the search for its decimal does not go on to a finer one.  And between the ends of the interval that
rounds to a number with a fraction there is no whole number, since that would be a binary number of
the same precision.
-/

namespace TensorTree

/-! ## §1 Powers and first hits -/

/-- A power with an integer exponent as a quotient of two powers of which one is trivial. -/
theorem zpow_mul_pow_toNat {b : ℚ} (hb : b ≠ 0) (p : ℤ) :
    b ^ p * b ^ (-p).toNat = b ^ p.toNat := by
  rw [← zpow_natCast, ← zpow_natCast, ← zpow_add₀ hb]
  congr 1
  omega

/-- The first hit of a search along the natural numbers. -/
theorem exists_of_findSome?_range {β : Type} {g : Nat → Option β} {n : Nat} {b : β}
    (h : (List.range n).findSome? g = some b) :
    ∃ j < n, g j = some b ∧ ∀ k < j, g k = none := by
  induction n with
  | zero => simp at h
  | succ n ih =>
    rw [List.range_succ, List.findSome?_append, Option.or_eq_some_iff] at h
    rcases h with h | ⟨hnone, h⟩
    · obtain ⟨j, hj, hfound⟩ := ih h
      exact ⟨j, Nat.lt_succ_of_lt hj, hfound⟩
    · refine ⟨n, Nat.lt_succ_self n, by simpa using h, fun k hk => ?_⟩
      exact List.findSome?_eq_none_iff.1 hnone k (List.mem_range.2 hk)

/-! ## §2 Values of decimals -/

namespace Decimal

/-- The number that a decimal stands for. -/
def value (d : Decimal) : ℚ := d.coefficient * 10 ^ d.exponent

/-- Zeros are moved into the exponent without changing the value. -/
theorem value_dropZeros (n : Nat) (d : Decimal) : (d.dropZeros n).value = d.value := by
  induction n generalizing d with
  | zero => rfl
  | succ n ih =>
    rw [dropZeros]
    split
    next h =>
      obtain ⟨k, hk⟩ := Nat.dvd_of_mod_eq_zero h.2
      rw [ih, value, value, hk, Nat.mul_div_cancel_left k (by decide), zpow_add_one₀ (by decide)]
      push_cast
      ring
    next => rfl

theorem exponent_le_dropZeros (n : Nat) (d : Decimal) : d.exponent ≤ (d.dropZeros n).exponent := by
  induction n generalizing d with
  | zero => exact Int.le_refl _
  | succ n ih =>
    rw [dropZeros]
    split
    next => exact Int.le_trans (Int.le_add_one (Int.le_refl _)) (ih _)
    next => exact Int.le_refl _

/-- A decimal without digits behind the point stands for a whole number. -/
theorem exists_value_eq {d : Decimal} (h : 0 ≤ d.exponent) : ∃ n : ℕ, d.value = n := by
  obtain ⟨k, hk⟩ := Int.eq_ofNat_of_zero_le h
  refine ⟨d.coefficient * 10 ^ k, ?_⟩
  rw [value, hk]
  push_cast
  rfl

end Decimal

/-! ## §3 Grids -/

namespace Rounding

variable {r : Rounding} {tie : Tie} {p : ℤ} {d : Decimal}

/-- A number lies between the ends of the interval. -/
structure Contains (r : Rounding) (y : ℚ) : Prop where
  low_le : r.low ≤ y * r.denominator
  le_high : y * r.denominator ≤ r.high

theorem contains_value {n : ℕ}
    (hlow : r.low * Nat.pow 10 (-p).toNat ≤ n * (r.denominator * Nat.pow 10 p.toNat))
    (hhigh : n * (r.denominator * Nat.pow 10 p.toNat) ≤ r.high * Nat.pow 10 (-p).toNat) :
    r.Contains (Decimal.value ⟨n, p⟩) := by
  -- multiplied by the power of ten below the fraction line, both sides are natural numbers
  have hpos : (0 : ℚ) < 10 ^ (-p).toNat := pow_pos (by decide) _
  have hvalue : Decimal.value ⟨n, p⟩ * r.denominator * 10 ^ (-p).toNat =
      (n * (r.denominator * Nat.pow 10 p.toNat) : ℕ) := by
    calc Decimal.value ⟨n, p⟩ * r.denominator * 10 ^ (-p).toNat
        = n * (r.denominator * ((10 : ℚ) ^ p * 10 ^ (-p).toNat)) := by
          rw [Decimal.value]
          ring
      _ = n * (r.denominator * (10 : ℚ) ^ p.toNat) := by
          rw [zpow_mul_pow_toNat (by decide) p]
      _ = (n * (r.denominator * Nat.pow 10 p.toNat) : ℕ) := by
          rw [Nat.pow_eq]
          push_cast
          rfl
  constructor
  · apply le_of_mul_le_mul_right _ hpos
    rw [hvalue]
    exact_mod_cast hlow
  · apply le_of_mul_le_mul_right _ hpos
    rw [hvalue]
    exact_mod_cast hhigh

theorem contains_ite {above : Bool} {m n : ℕ} (hm : r.Contains (Decimal.value ⟨m, p⟩))
    (hn : r.Contains (Decimal.value ⟨n, p⟩)) :
    r.Contains (Decimal.value ⟨if above then m else n, p⟩) := by
  cases above with
  | true => exact hm
  | false => exact hn

/-- What lies strictly between two ends lies between them. -/
theorem le_of_inside {closed : Bool} {a b c : ℕ}
    (h : (if closed then decide (a ≤ b) && decide (b ≤ c)
      else decide (a < b) && decide (b < c)) = true) : a ≤ b ∧ b ≤ c := by
  cases closed with
  | true => simpa using h
  | false =>
    obtain ⟨hab, hbc⟩ : a < b ∧ b < c := by simpa using h
    exact ⟨Nat.le_of_lt hab, Nat.le_of_lt hbc⟩

/-- What is found on a grid lies on it and between the ends of the interval. -/
theorem contains_of_onGrid? (h : r.onGrid? tie p = some d) :
    d.exponent = p ∧ r.Contains d.value := by
  unfold onGrid? at h
  dsimp only at h
  split at h
  case h_1 => cases h
  case h_2 hbelow _ =>
    obtain rfl := Option.some.inj h
    obtain ⟨hlow, hhigh⟩ := le_of_inside hbelow
    exact ⟨rfl, contains_value hlow hhigh⟩
  case h_3 _ habove =>
    obtain rfl := Option.some.inj h
    obtain ⟨hlow, hhigh⟩ := le_of_inside habove
    exact ⟨rfl, contains_value hlow hhigh⟩
  case h_4 hbelow habove =>
    -- of two hits the nearer one is taken
    obtain rfl := Option.some.inj h
    obtain ⟨hlow, hhigh⟩ := le_of_inside hbelow
    obtain ⟨hlow', hhigh'⟩ := le_of_inside habove
    exact ⟨rfl, contains_ite (contains_value hlow' hhigh') (contains_value hlow hhigh)⟩

/-- A whole number is found on the grid of the whole numbers. -/
theorem onGrid?_zero_ne_none (hdvd : r.denominator ∣ r.value) (hlow : r.low < r.value)
    (hhigh : r.value < r.high) : r.onGrid? tie 0 ≠ none := by
  have hbelow : r.value / r.denominator * r.denominator = r.value := Nat.div_mul_cancel hdvd
  intro h
  unfold onGrid? at h
  dsimp only at h
  split at h
  case h_1 hnone _ =>
    simp [hbelow, hlow, hhigh, Nat.le_of_lt] at hnone
  all_goals cases h

/-- The shortest decimal is the first hit on grids that get finer from the first digit on, or has
seventeen digits if there is no hit. -/
theorem exponent_shortest_cases (r : Rounding) (tie : Tie) (hvalue : r.value ≠ 0) :
    (∃ (n : ℕ) (d : Decimal), r.onGrid? tie (r.leading - n) = some d ∧
      (∀ k < n, r.onGrid? tie (r.leading - k) = none) ∧ r.shortest tie = d.dropZeros 18) ∨
    ((∀ k < 17, r.onGrid? tie (r.leading - (k : ℕ)) = none) ∧
      (r.shortest tie).exponent = r.leading - 16) := by
  unfold shortest
  rw [if_neg hvalue]
  dsimp only
  split
  case h_1 d hfound =>
    obtain ⟨n, -, hn, hbefore⟩ := exists_of_findSome?_range hfound
    exact .inl ⟨n, d, hn, hbefore, rfl⟩
  case h_2 hnone =>
    refine .inr ⟨fun k hk => ?_, rfl⟩
    exact List.findSome?_eq_none_iff.1 hnone k (List.mem_range.2 hk)

/-- The search does not go past a hit on the grid of the whole numbers. -/
theorem exponent_shortest_nonneg (hvalue : r.value ≠ 0) (hleading : 0 ≤ r.leading)
    (hzero : r.onGrid? tie 0 ≠ none) : 0 ≤ (r.shortest tie).exponent := by
  -- the grid of the whole numbers is as many steps away as the first digit is from the last one
  have hself : r.leading - r.leading.toNat = 0 := by omega
  rcases exponent_shortest_cases r tie hvalue with
    ⟨n, d, hd, hbefore, hshortest⟩ | ⟨hnone, hexponent⟩
  · have hn : ¬ r.leading.toNat < n := by
      intro hlt
      apply hzero
      rw [← hself]
      exact hbefore _ hlt
    have hgrid : d.exponent = r.leading - n := (contains_of_onGrid? hd).1
    have hdrop := d.exponent_le_dropZeros 18
    rw [hshortest]
    omega
  · have hlong : ¬ r.leading.toNat < 17 := by
      intro hlt
      apply hzero
      rw [← hself]
      exact hnone _ hlt
    omega

/-- A decimal without a fraction stands for a whole number between the ends of the interval. -/
theorem exists_contains (hvalue : r.value ≠ 0) (hleading : r.leading < 16)
    (hexponent : 0 ≤ (r.shortest tie).exponent) : ∃ n : ℕ, r.Contains n := by
  rcases exponent_shortest_cases r tie hvalue with ⟨n, d, hd, -, hshortest⟩ | ⟨-, hlast⟩
  · obtain ⟨k, hk⟩ := Decimal.exists_value_eq hexponent
    refine ⟨k, ?_⟩
    rw [← hk, hshortest, Decimal.value_dropZeros]
    exact (contains_of_onGrid? hd).2
  · omega

/-! ### The first digit -/

theorem leading_nonneg (h : r.denominator ≤ r.value) : 0 ≤ r.leading := by
  have hlength : 0 < (Nat.toDigits 10 (r.value / r.denominator)).length :=
    List.length_pos_iff.2 Nat.toDigits_ne_nil
  rw [leading, if_pos h]
  omega

theorem leading_lt (h : r.value / r.denominator < 10 ^ 16) : r.leading < 16 := by
  have hlength := Nat.toDigits_length 10 (r.value / r.denominator) 16 (by decide) h
  unfold leading
  split <;> omega

end Rounding

/-! ## §4 Magnitudes -/

namespace Binary64

variable {x : Binary64}

/-- A finite number without its sign. -/
def magnitude (x : Binary64) : ℚ := x.significand * 2 ^ x.power

theorem significand_lt (x : Binary64) : x.significand < 2 ^ 53 := by
  have hfraction : x.fraction.val < 2 ^ 52 := x.fraction.isLt
  unfold significand
  simp only [Nat.pow_eq]
  split <;> omega

theorem value_ofBinary (x : Binary64) :
    ((Rounding.ofBinary x).value : ℚ) = x.magnitude * (Rounding.ofBinary x).denominator := by
  have hpow := zpow_mul_pow_toNat (b := 2) (by decide) (x.power - 2)
  rw [show -(x.power - 2) = 2 - x.power by ring] at hpow
  calc ((Rounding.ofBinary x).value : ℚ)
      = 4 * x.significand * 2 ^ (x.power - 2).toNat := by
        simp [Rounding.ofBinary]
    _ = x.significand * (2 ^ (x.power - 2) * 2 ^ 2) * 2 ^ (2 - x.power).toNat := by
        rw [← hpow]
        ring
    _ = x.significand * 2 ^ x.power * 2 ^ (2 - x.power).toNat := by
        rw [← zpow_natCast 2 2, ← zpow_add₀ (by decide)]
        simp
    _ = x.magnitude * (Rounding.ofBinary x).denominator := by
        simp [magnitude, Rounding.ofBinary]

theorem denominator_pos (x : Binary64) : 0 < (Rounding.ofBinary x).denominator :=
  Nat.pow_pos (by decide)

/-- The ends of the interval are apart from every number but zero. -/
theorem low_lt_value (h : (Rounding.ofBinary x).value ≠ 0) :
    (Rounding.ofBinary x).low < (Rounding.ofBinary x).value := by
  have hne : 4 * x.significand ≠ 0 := left_ne_zero_of_mul h
  apply Nat.mul_lt_mul_of_pos_right _ (Nat.pow_pos (by decide))
  split <;> omega

theorem value_lt_high (x : Binary64) : (Rounding.ofBinary x).value < (Rounding.ofBinary x).high :=
  Nat.mul_lt_mul_of_pos_right (by omega) (Nat.pow_pos (by decide))

/-! ### Numbers with a fraction -/

/-- Below the whole numbers the unit of the last bit is the fraction line of the interval. -/
theorem ofBinary_of_power_neg (h : x.power < 0) :
    4 * x.significand ≤ (Rounding.ofBinary x).low + 2 ∧
      (Rounding.ofBinary x).value = 4 * x.significand ∧
      (Rounding.ofBinary x).high = 4 * x.significand + 2 ∧
      (Rounding.ofBinary x).denominator = 4 * 2 ^ (-x.power).toNat := by
  have hscale : (x.power - 2).toNat = 0 := by omega
  have hplaces : (2 - x.power).toNat = 2 + (-x.power).toNat := by omega
  simp only [Rounding.ofBinary, hscale, hplaces, Nat.pow_eq, Nat.pow_zero, Nat.mul_one,
    Nat.pow_add]
  refine ⟨?_, trivial, trivial, trivial⟩
  split <;> omega

/-- Between the ends of the interval of a number that has bits behind the point, there is no whole
number but the number itself. -/
theorem eq_magnitude_of_contains (hpower : x.power < 0) {n : ℕ}
    (h : (Rounding.ofBinary x).Contains n) : (n : ℚ) = x.magnitude := by
  obtain ⟨hlow, -, hhigh, hdenominator⟩ := ofBinary_of_power_neg hpower
  have hbelow : (Rounding.ofBinary x).low ≤ n * (Rounding.ofBinary x).denominator := by
    exact_mod_cast h.low_le
  have habove : n * (Rounding.ofBinary x).denominator ≤ (Rounding.ofBinary x).high := by
    exact_mod_cast h.le_high
  rw [hdenominator, Nat.mul_left_comm] at hbelow habove
  -- both are multiples of the unit of the last bit, and less than one unit apart
  have hunits : n * 2 ^ (-x.power).toNat = x.significand := by omega
  have hpow := zpow_mul_pow_toNat (b := 2) (by decide) x.power
  have hzero : x.power.toNat = 0 := by omega
  rw [hzero, pow_zero] at hpow
  calc (n : ℚ) = n * (2 ^ x.power * 2 ^ (-x.power).toNat) := by rw [hpow, mul_one]
    _ = (n * 2 ^ (-x.power).toNat : ℕ) * 2 ^ x.power := by
      push_cast
      ring
    _ = x.magnitude := by rw [hunits, magnitude]

theorem leading_lt_of_power_neg (hpower : x.power < 0) : (Rounding.ofBinary x).leading < 16 := by
  obtain ⟨-, hvalue, -, hdenominator⟩ := ofBinary_of_power_neg hpower
  apply Rounding.leading_lt
  have hquotient : (Rounding.ofBinary x).value / (Rounding.ofBinary x).denominator ≤
      x.significand := by
    apply Nat.div_le_of_le_mul
    rw [hvalue, hdenominator]
    have hunit : 0 < 2 ^ (-x.power).toNat := Nat.pow_pos (by decide)
    nlinarith
  have hlt := x.significand_lt
  omega

/-! ### Whole numbers -/

theorem exists_magnitude_eq (h : 0 ≤ x.power) : ∃ n : ℕ, x.magnitude = n := by
  obtain ⟨k, hk⟩ := Int.eq_ofNat_of_zero_le h
  refine ⟨x.significand * 2 ^ k, ?_⟩
  rw [magnitude, hk]
  push_cast
  rfl

theorem fract_magnitude_eq_zero_iff (x : Binary64) :
    Int.fract x.magnitude = 0 ↔ ∃ n : ℕ, x.magnitude = n := by
  have hnonneg : 0 ≤ x.magnitude :=
    mul_nonneg (Nat.cast_nonneg x.significand) (zpow_nonneg (by decide) x.power)
  rw [Int.fract_eq_zero_iff]
  constructor
  · rintro ⟨k, hk⟩
    rw [← hk] at hnonneg
    obtain ⟨n, rfl⟩ := Int.eq_ofNat_of_zero_le (Int.cast_nonneg_iff.1 hnonneg)
    exact ⟨n, hk.symm⟩
  · rintro ⟨n, hn⟩
    exact ⟨n, hn.symm⟩

/-- The search for the shortest decimal of a whole number ends on a grid of whole numbers. -/
theorem exponent_shortest_of_whole (hvalue : (Rounding.ofBinary x).value ≠ 0) (tie : Tie) {n : ℕ}
    (hn : x.magnitude = n) : 0 ≤ ((Rounding.ofBinary x).shortest tie).exponent := by
  have hproduct : (Rounding.ofBinary x).value = n * (Rounding.ofBinary x).denominator := by
    have hcast := x.value_ofBinary
    rw [hn] at hcast
    exact_mod_cast hcast
  have hdvd : (Rounding.ofBinary x).denominator ∣ (Rounding.ofBinary x).value :=
    ⟨n, by rw [hproduct, Nat.mul_comm]⟩
  apply Rounding.exponent_shortest_nonneg hvalue
  · exact Rounding.leading_nonneg (Nat.le_of_dvd (Nat.pos_of_ne_zero hvalue) hdvd)
  · exact Rounding.onGrid?_zero_ne_none hdvd (low_lt_value hvalue) x.value_lt_high

/-- The shortest decimal of a number has no fraction exactly if the number has none. -/
theorem exponent_shortest_nonneg_iff (x : Binary64) (tie : Tie) :
    0 ≤ ((Rounding.ofBinary x).shortest tie).exponent ↔ Int.fract x.magnitude = 0 := by
  rw [fract_magnitude_eq_zero_iff]
  by_cases hvalue : (Rounding.ofBinary x).value = 0
  · -- zero is its own shortest decimal
    have hmagnitude : x.magnitude = 0 := by
      have hcast := x.value_ofBinary
      rw [hvalue, Nat.cast_zero, zero_eq_mul] at hcast
      exact hcast.resolve_right (Nat.cast_ne_zero.2 x.denominator_pos.ne')
    rw [Rounding.shortest, if_pos hvalue, hmagnitude]
    exact ⟨fun _ => ⟨0, Nat.cast_zero.symm⟩, fun _ => Int.le_refl 0⟩
  · constructor
    · intro hexponent
      by_cases hpower : 0 ≤ x.power
      · exact exists_magnitude_eq hpower
      · have hneg : x.power < 0 := Int.not_le.1 hpower
        obtain ⟨n, hn⟩ :=
          Rounding.exists_contains hvalue (leading_lt_of_power_neg hneg) hexponent
        exact ⟨n, (eq_magnitude_of_contains hneg hn).symm⟩
    · rintro ⟨n, hn⟩
      exact exponent_shortest_of_whole hvalue tie hn

end Binary64

end TensorTree
