import LiveSheet.Decimal.Shortest
import LiveSheet.Proofs.Binary64
import Mathlib.Algebra.Order.Field.Rat
import Mathlib.Algebra.Order.Field.Power
import Mathlib.Tactic.FieldSimp
import Mathlib.Tactic.Linarith
import Mathlib.Tactic.Positivity
import Mathlib.Tactic.Ring

/-!
# Shortest digits read back

The reals that round to a positive binary64 number lie between the points half-way to its
neighbours; these points belong to it if its mantissa is even (`Rounds`). The digits that `shortest`
finds lie there (`rounds_shortest`), and no real rounds to two numbers (`Rounds.unique`), so the
digits determine the number.
-/

namespace LiveSheet.Decimal

open Binary64

/-- The number that digits with a scale stand for. -/
def Expansion.value (d : Expansion) : ℚ :=
  d.digits * 10 ^ d.scale

/-- The quarters of the last place from a number to the point half-way to the one below. -/
def quartersBelow (m : Nat) (e : Int) : Nat :=
  if m = 2 ^ 52 ∧ -1074 < e then 1 else 2

/-- The point half-way to the number below. -/
def lowEnd (m : Nat) (e : Int) : ℚ :=
  (4 * m - quartersBelow m e) * 2 ^ (e - 2)

/-- The point half-way to the number above. -/
def highEnd (m : Nat) (e : Int) : ℚ :=
  (4 * m + 2) * 2 ^ (e - 2)

/-- Whether a real number rounds to `m · 2^e`. -/
structure Rounds (m : Nat) (e : Int) (q : ℚ) : Prop where
  lower : lowEnd m e ≤ q
  upper : q ≤ highEnd m e
  strict : m % 2 = 1 → lowEnd m e < q ∧ q < highEnd m e

/-- The half-way point below is two quarters away at most. -/
theorem quartersBelow_le (m : Nat) (e : Int) : quartersBelow m e ≤ 2 := by
  unfold quartersBelow
  split <;> decide

/-! ### The search for digits -/

/-- A point on the decimal grid. -/
theorem onDecimalGrid_mul (n : Nat) (e : Int) :
    (onDecimalGrid n e : ℚ) * 10 ^ (min e 0) = n * 2 ^ e := by
  unfold onDecimalGrid
  by_cases he : 0 ≤ e
  · obtain ⟨k, rfl⟩ := Int.eq_ofNat_of_zero_le he
    rw [if_pos he, min_eq_right he, Int.toNat_natCast]
    simp
  · obtain ⟨k, hk⟩ := Int.eq_ofNat_of_zero_le (show 0 ≤ -e by omega)
    obtain rfl : e = -(k : Int) := by omega
    rw [if_neg he, min_eq_left (by omega), hk, Int.toNat_natCast, zpow_neg, zpow_neg, zpow_natCast,
      zpow_natCast]
    have h10 : (10 : ℚ) ^ k = 5 ^ k * 2 ^ k := by rw [← mul_pow]; norm_num
    push_cast
    rw [h10]
    field_simp

/-- Rounding a quotient gives one of the two neighbours. -/
theorem roundDiv_eq (n d : Nat) : roundDiv n d = n / d ∨ roundDiv n d = n / d + 1 := by
  unfold roundDiv
  simp only
  split
  · exact .inl rfl
  · split
    · rcases Nat.mod_two_eq_zero_or_one (n / d) with h | h
      · exact .inl (by rw [h, Nat.add_zero])
      · exact .inr (by rw [h])
    · exact .inr rfl

/-- The multiple that is found lies between the ends. -/
theorem nearestWithin_spec {low high v unit d : Nat} {ends : Bool} (hunit : 0 < unit)
    (h : nearestWithin low high ends v unit = some d) :
    low ≤ d * unit ∧ d * unit ≤ high ∧ (ends = false → low < d * unit ∧ d * unit < high) := by
  have hinside : ∀ x, (if ends then low ≤ x && x ≤ high else low < x && x < high) = true →
      low ≤ x ∧ x ≤ high ∧ (ends = false → low < x ∧ x < high) := by
    intro x hx
    cases ends with
    | true => simpa using hx
    | false =>
      have hx' : low < x ∧ x < high := by simpa using hx
      exact ⟨hx'.1.le, hx'.2.le, fun _ => hx'⟩
  have hbelow : v / unit * unit / unit = v / unit := Nat.mul_div_cancel _ hunit
  have habove : (v / unit * unit + unit) / unit = v / unit + 1 := by
    rw [← Nat.succ_mul, Nat.mul_div_cancel _ hunit]
  unfold nearestWithin at h
  simp only at h
  split at h
  · next hlow hhigh =>
    obtain rfl := Option.some.inj h
    -- Both neighbours lie inside, and the nearer one is one of them.
    rcases roundDiv_eq v unit with heq | heq
    · rw [heq]
      exact hinside _ hlow
    · rw [heq, Nat.succ_mul]
      exact hinside _ hhigh
  · next hlow _ =>
    obtain rfl := Option.some.inj h
    rw [hbelow]
    exact hinside _ hlow
  · next _ hhigh =>
    obtain rfl := Option.some.inj h
    rw [habove, Nat.succ_mul]
    exact hinside _ hhigh
  · cases h

/-- Zeros at the end may go. -/
theorem value_dropZeros (n : Nat) (d : Expansion) : (d.dropZeros n).value = d.value := by
  induction n generalizing d with
  | zero => rfl
  | succ n ih =>
    rw [Expansion.dropZeros]
    split
    · next h =>
      rw [ih]
      have hdigits : d.digits = d.digits / 10 * 10 := by omega
      unfold Expansion.value
      rw [hdigits]
      simp only [Nat.mul_div_cancel _ (by decide : 0 < 10)]
      rw [zpow_add₀ (by norm_num : (10 : ℚ) ≠ 0)]
      push_cast
      ring
    · rfl

/-- The digits that are found round to the number. -/
theorem rounds_shortest {m : Nat} (e : Int) (hm : 0 < m) : Rounds m e (shortest m e).value := by
  have hpos : (0 : ℚ) < 10 ^ (min (e - 2) 0) := by positivity
  have hpow : (0 : ℚ) < 2 ^ (e - 2) := by positivity
  have hq := quartersBelow_le m e
  -- The ends of the interval on the decimal grid.
  have hlow : (onDecimalGrid (4 * m - quartersBelow m e) (e - 2) : ℚ) * 10 ^ (min (e - 2) 0) =
      lowEnd m e := by
    rw [onDecimalGrid_mul, lowEnd, Nat.cast_sub (by omega)]
    push_cast
    rfl
  have hhigh : (onDecimalGrid (4 * m + 2) (e - 2) : ℚ) * 10 ^ (min (e - 2) 0) = highEnd m e := by
    rw [onDecimalGrid_mul, highEnd]
    push_cast
    rfl
  unfold shortest
  simp only
  split
  · next d hd =>
    obtain ⟨n, -, hn⟩ := List.exists_of_findSome?_eq_some hd
    obtain ⟨x, hx, rfl⟩ := Option.map_eq_some_iff.1 hn
    obtain ⟨hlower, hupper, hstrict⟩ := nearestWithin_spec (by positivity) hx
    rw [value_dropZeros]
    set dropped := digitCount (onDecimalGrid (4 * m) (e - 2)) - (n + 1)
    have hvalue : (⟨x, min (e - 2) 0 + dropped⟩ : Expansion).value =
        ((x * 10 ^ dropped : Nat) : ℚ) * 10 ^ (min (e - 2) 0) := by
      unfold Expansion.value
      simp only
      rw [zpow_add₀ (by norm_num : (10 : ℚ) ≠ 0), zpow_natCast]
      push_cast
      ring
    rw [hvalue]
    refine ⟨?_, ?_, fun hodd => ⟨?_, ?_⟩⟩
    · rw [← hlow]
      exact mul_le_mul_of_nonneg_right (by exact_mod_cast hlower) hpos.le
    · rw [← hhigh]
      exact mul_le_mul_of_nonneg_right (by exact_mod_cast hupper) hpos.le
    · rw [← hlow]
      exact mul_lt_mul_of_pos_right
        (by exact_mod_cast (hstrict (by simp [hodd])).1) hpos
    · rw [← hhigh]
      exact mul_lt_mul_of_pos_right
        (by exact_mod_cast (hstrict (by simp [hodd])).2) hpos
  · have hvalue : (exact m e).value = 4 * m * 2 ^ (e - 2) := by
      have hgrid : (exact m e).value = (m : ℚ) * 2 ^ e := onDecimalGrid_mul m e
      rw [hgrid, show e = e - 2 + 2 by ring, zpow_add₀ (by norm_num : (2 : ℚ) ≠ 0)]
      norm_num
      ring
    have hquarters : (0 : ℚ) < quartersBelow m e := by
      unfold quartersBelow
      split <;> norm_num
    rw [hvalue]
    have hlt : lowEnd m e < 4 * m * 2 ^ (e - 2) := by
      unfold lowEnd
      exact mul_lt_mul_of_pos_right (by linarith) hpow
    have hgt : 4 * m * 2 ^ (e - 2) < highEnd m e := by
      unfold highEnd
      exact mul_lt_mul_of_pos_right (by linarith) hpow
    exact ⟨hlt.le, hgt.le, fun _ => ⟨hlt, hgt⟩⟩

/-! ### No number rounds to two -/

/-- What rounds to a positive number is positive. -/
theorem Rounds.pos {m : Nat} {e : Int} {q : ℚ} (h : Rounds m e q) (hm : 0 < m) : 0 < q := by
  have hquarters : (quartersBelow m e : ℚ) ≤ 2 := by exact_mod_cast quartersBelow_le m e
  have hcast : (1 : ℚ) ≤ m := by exact_mod_cast hm
  have hlow : 0 < lowEnd m e := by
    unfold lowEnd
    exact mul_pos (by linarith) (by positivity)
  exact lt_of_lt_of_le hlow h.lower

/-- Between two numbers lies at most one point that is an end of both, and then one of the two
mantissas is odd. -/
theorem highEnd_le_lowEnd {m m' : Nat} {e e' : Int} (hn : Normalized m e) (hn' : Normalized m' e')
    (hlt : e < e' ∨ e = e' ∧ m < m') :
    highEnd m e < lowEnd m' e' ∨ highEnd m e = lowEnd m' e' ∧ (m % 2 = 1 ∨ m' % 2 = 1) := by
  have hpow : (0 : ℚ) < 2 ^ (e - 2) := by positivity
  have hq' := quartersBelow_le m' e'
  rcases hlt with hlt | ⟨rfl, hlt⟩
  · -- The greater number is normal, so that its low end is far from 0.
    obtain ⟨k, hk⟩ := Int.le.dest hlt
    obtain rfl : e' = e + 1 + k := hk.symm
    have hfull := hn'.full (by have := hn.least_le; omega)
    have hmantissa := hn.mantissa_lt
    have hscale : (2 : ℚ) ^ (e + 1 + k - 2) = 2 ^ (k + 1) * 2 ^ (e - 2) := by
      rw [show e + 1 + (k : Int) - 2 = ((k + 1 : Nat) : Int) + (e - 2) by push_cast; ring,
        zpow_add₀ two_ne_zero, zpow_natCast]
    have hkpos : 1 ≤ 2 ^ k := Nat.one_le_two_pow
    -- Both ends as multiples of a quarter of the last place of the smaller number.
    have hcompare : 4 * m + 2 < (4 * m' - quartersBelow m' (e + 1 + k)) * 2 ^ (k + 1) ∨
        4 * m + 2 = (4 * m' - quartersBelow m' (e + 1 + k)) * 2 ^ (k + 1) ∧
          (m % 2 = 1 ∨ m' % 2 = 1) := by
      have hquarters : 2 ^ 54 - 1 ≤ 4 * m' - quartersBelow m' (e + 1 + k) := by
        unfold quartersBelow
        split
        · omega
        · next hnot =>
          have : m' ≠ 2 ^ 52 := fun h => hnot ⟨h, by have := hn.least_le; omega⟩
          omega
      have hdouble : 2 * (4 * m' - quartersBelow m' (e + 1 + k)) ≤
          (4 * m' - quartersBelow m' (e + 1 + k)) * 2 ^ (k + 1) := by
        rw [pow_succ, mul_comm 2]
        exact Nat.mul_le_mul_left _ (by omega)
      rcases Nat.lt_or_ge (4 * m + 2)
        ((4 * m' - quartersBelow m' (e + 1 + k)) * 2 ^ (k + 1)) with h | h
      · exact .inl h
      · exact .inr ⟨by omega, .inl (by omega)⟩
    have hleft : highEnd m e = ((4 * m + 2 : Nat) : ℚ) * 2 ^ (e - 2) := by
      unfold highEnd
      push_cast
      rfl
    have hright : lowEnd m' (e + 1 + k) =
        (((4 * m' - quartersBelow m' (e + 1 + k)) * 2 ^ (k + 1) : Nat) : ℚ) * 2 ^ (e - 2) := by
      unfold lowEnd
      rw [hscale]
      push_cast [Nat.cast_sub (show quartersBelow m' (e + 1 + k) ≤ 4 * m' by omega)]
      ring
    rw [hleft, hright]
    rcases hcompare with h | ⟨h, hodd⟩
    · exact .inl (mul_lt_mul_of_pos_right (by exact_mod_cast h) hpow)
    · exact .inr ⟨by rw [h], hodd⟩
  · have hquarters : quartersBelow m' e = 2 := by
      unfold quartersBelow
      rw [if_neg]
      rintro ⟨rfl, hleast⟩
      have := hn.full hleast
      omega
    have hleft : highEnd m e = ((4 * m + 2 : Nat) : ℚ) * 2 ^ (e - 2) := by
      unfold highEnd
      push_cast
      rfl
    have hright : lowEnd m' e = ((4 * m' - 2 : Nat) : ℚ) * 2 ^ (e - 2) := by
      unfold lowEnd
      rw [hquarters, Nat.cast_sub (by omega)]
      push_cast
      rfl
    rw [hleft, hright]
    rcases Nat.lt_or_ge (4 * m + 2) (4 * m' - 2) with h | h
    · exact .inl (mul_lt_mul_of_pos_right (by exact_mod_cast h) hpow)
    · exact .inr ⟨by rw [show 4 * m + 2 = 4 * m' - 2 by omega], by omega⟩

/-- A real number does not round to a number and to a greater one. -/
theorem Rounds.not_lt {m m' : Nat} {e e' : Int} {q : ℚ} (hn : Normalized m e)
    (hn' : Normalized m' e') (h : Rounds m e q) (h' : Rounds m' e' q) :
    ¬ (e < e' ∨ e = e' ∧ m < m') := by
  intro hlt
  have hupper := h.upper
  have hlower := h'.lower
  rcases highEnd_le_lowEnd hn hn' hlt with hgap | ⟨htouch, hodd | hodd⟩
  · linarith
  · have := (h.strict hodd).2
    linarith
  · have := (h'.strict hodd).1
    linarith

/-- A real number rounds to one number at most. -/
theorem Rounds.unique {m m' : Nat} {e e' : Int} {q : ℚ} (hn : Normalized m e)
    (hn' : Normalized m' e') (h : Rounds m e q) (h' : Rounds m' e' q) : m = m' ∧ e = e' := by
  have hnot := Rounds.not_lt hn hn' h h'
  have hnot' := Rounds.not_lt hn' hn h' h
  omega

end LiveSheet.Decimal
