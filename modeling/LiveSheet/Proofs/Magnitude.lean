import LiveSheet.Proofs.Notation

/-!
# How great shortest digits are

The search for the shortest digits of a number comes to an end after 17 digits
(`exists_of_shortest`). What it finds begins where the number begins: its exponent of ten is not
less (`le_exponent_shortest`), and not more as far as powers of ten are binary64 numbers
(`exponent_shortest_lt`). It ends in no zero (`mod_shortest`), and not behind the place where the
number itself ends, if that has 17 digits or fewer (`le_scale_shortest`).
-/

namespace LiveSheet.Decimal

open Binary64

/-! ### Counting digits -/

/-- A number has so many digits at most if it is below the power of ten. -/
theorem digitCount_le_iff {n k : Nat} (hk : 0 < k) : digitCount n ≤ k ↔ n < 10 ^ k :=
  Nat.length_toDigits_le_iff (by decide) hk

/-- Every number has a digit. -/
theorem digitCount_pos (n : Nat) : 0 < digitCount n :=
  List.length_pos_iff.2 (digitChars_ne_nil n)

/-- A number is below the power of ten with as many zeros as it has digits. -/
theorem lt_pow_digitCount (n : Nat) : n < 10 ^ digitCount n :=
  (digitCount_le_iff (digitCount_pos n)).1 le_rfl

/-- And it is not below one with fewer. -/
theorem pow_le_of_lt_digitCount {n k : Nat} (hn : 0 < n) (hk : k < digitCount n) : 10 ^ k ≤ n := by
  by_contra hlt
  rcases Nat.eq_zero_or_pos k with rfl | hpos
  · omega
  · have := (digitCount_le_iff hpos).2 (not_le.1 hlt)
    omega

/-- A number with `k + 1` digits. -/
theorem digitCount_eq {n k : Nat} (hle : 10 ^ k ≤ n) (hlt : n < 10 ^ (k + 1)) :
    digitCount n = k + 1 := by
  have hcount := (digitCount_le_iff (Nat.succ_pos k)).2 hlt
  by_contra hne
  have hless : n < 10 ^ k := by
    rcases Nat.eq_zero_or_pos k with rfl | hpos
    · have := digitCount_pos n
      omega
    · exact (digitCount_le_iff hpos).1 (by omega)
  omega

/-- Zeros behind a number count as digits. -/
theorem digitCount_mul_pow {n : Nat} (hn : 0 < n) (k : Nat) :
    digitCount (n * 10 ^ k) = digitCount n + k := by
  obtain ⟨j, hj⟩ : ∃ j, digitCount n = j + 1 :=
    Nat.exists_eq_add_one.2 (digitCount_pos n)
  have hle : 10 ^ j ≤ n := pow_le_of_lt_digitCount hn (by omega)
  have hlt : n < 10 ^ (j + 1) := hj ▸ lt_pow_digitCount n
  have hpos : 0 < 10 ^ k := by positivity
  rw [hj, Nat.add_right_comm]
  refine digitCount_eq ?_ ?_
  · rw [pow_add]
    exact Nat.mul_le_mul_right _ hle
  · rw [Nat.add_right_comm, pow_add]
    exact Nat.mul_lt_mul_of_pos_right hlt hpos

/-! ### Expansions -/

/-- The exponent says between which powers of ten the value is. -/
theorem Expansion.value_bounds {d : Expansion} (hd : 0 < d.digits) :
    (10 : ℚ) ^ d.exponent ≤ d.value ∧ d.value < 10 ^ (d.exponent + 1) := by
  obtain ⟨j, hj⟩ : ∃ j, digitCount d.digits = j + 1 :=
    Nat.exists_eq_add_one.2 (digitCount_pos d.digits)
  have hle : 10 ^ j ≤ d.digits := pow_le_of_lt_digitCount hd (by omega)
  have hlt : d.digits < 10 ^ (j + 1) := hj ▸ lt_pow_digitCount d.digits
  have hpos : (0 : ℚ) < 10 ^ d.scale := by positivity
  have hexponent : d.exponent = (j : Int) + d.scale := by
    unfold Expansion.exponent
    omega
  have hsucc : d.exponent + 1 = ((j + 1 : Nat) : Int) + d.scale := by omega
  have hten : (10 : ℚ) ≠ 0 := by norm_num
  rw [hsucc, hexponent, zpow_add₀ hten, zpow_add₀ hten, zpow_natCast, zpow_natCast]
  constructor
  · exact mul_le_mul_of_nonneg_right (by exact_mod_cast hle) hpos.le
  · exact mul_lt_mul_of_pos_right (by exact_mod_cast hlt) hpos

/-- Taking zeros off leaves the leading digit where it is. -/
theorem Expansion.dropZeros_spec (n : Nat) {d : Expansion} (hd : 0 < d.digits) :
    0 < (d.dropZeros n).digits ∧ (d.dropZeros n).exponent = d.exponent ∧
      d.scale ≤ (d.dropZeros n).scale ∧
        (d.digits < 10 ^ n → (d.dropZeros n).digits % 10 ≠ 0) := by
  induction n generalizing d with
  | zero => exact ⟨hd, rfl, le_rfl, fun h => by omega⟩
  | succ n ih =>
    rw [Expansion.dropZeros]
    split
    · next h =>
      obtain ⟨hzero, -⟩ := h
      -- The zero that goes is one digit less and one power of ten more.
      have hdigits : d.digits = d.digits / 10 * 10 ^ 1 := by omega
      have hpos : 0 < d.digits / 10 := by omega
      obtain ⟨hfound, hexponent, hscale, hmod⟩ :=
        ih (d := ⟨d.digits / 10, d.scale + 1⟩) hpos
      refine ⟨hfound, ?_, by simp only at hscale; omega, fun hlt => hmod ?_⟩
      · rw [hexponent]
        have hcount := digitCount_mul_pow hpos 1
        rw [← hdigits] at hcount
        unfold Expansion.exponent
        simp only
        omega
      · rw [pow_succ] at hlt
        simp only
        omega
    · next h =>
      exact ⟨hd, rfl, le_rfl, fun _ hzero => h ⟨hzero, by omega⟩⟩

/-! ### The search for digits -/

/-- Every point is a multiple of one step on the decimal grid. -/
theorem onDecimalGrid_eq_mul (n : Nat) (e : Int) : onDecimalGrid n e = n * onDecimalGrid 1 e := by
  unfold onDecimalGrid
  split <;> rw [Nat.one_mul]

/-- Every exponent has a place on the decimal grid. -/
theorem onDecimalGrid_one_pos (e : Int) : 0 < onDecimalGrid 1 e := by
  unfold onDecimalGrid
  split <;> positivity

/-- What is found is one of the two neighbours. -/
theorem nearestWithin_eq {low high v unit x : Nat} {ends : Bool} (hunit : 0 < unit)
    (h : nearestWithin low high ends v unit = some x) : x = v / unit ∨ x = v / unit + 1 := by
  have hbelow : v / unit * unit / unit = v / unit := Nat.mul_div_cancel _ hunit
  have habove : (v / unit * unit + unit) / unit = v / unit + 1 := by
    rw [← Nat.succ_mul, Nat.mul_div_cancel _ hunit]
  unfold nearestWithin at h
  simp only at h
  split at h
  · obtain rfl := Option.some.inj h
    exact roundDiv_eq v unit
  · obtain rfl := Option.some.inj h
    exact .inl hbelow
  · obtain rfl := Option.some.inj h
    exact .inr habove
  · cases h

/-- One of the two neighbours is found if it is closer than the end on its side. -/
theorem isSome_nearestWithin {low high v unit : Nat} (ends : Bool) (hlow : low < v)
    (hhigh : v < high) (h : low < v / unit * unit ∨ v / unit * unit + unit < high)
    (hunit : 0 < unit) :
    (nearestWithin low high ends v unit).isSome := by
  have hle : v / unit * unit ≤ v := Nat.div_mul_le_self v unit
  have hlt : v < v / unit * unit + unit := Nat.lt_div_mul_add hunit
  have hinside : ∀ x, low < x → x < high →
      (if ends then low ≤ x && x ≤ high else low < x && x < high) = true := by
    intro x hx hx'
    cases ends <;> simp [hx, hx', hx.le, hx'.le]
  unfold nearestWithin
  simp only
  split
  · rfl
  · rfl
  · rfl
  · next hbelow habove =>
    rcases h with h | h
    · rw [hinside _ h (by omega)] at hbelow
      cases hbelow
    · rw [hinside _ (by omega) h] at habove
      cases habove

/-- The exact digits of a number, on the grid on which half-way points are whole. -/
def quarters (m : Nat) (e : Int) : Expansion :=
  exact (4 * m) (e - 2)

/-- Quarters do not change the number. -/
theorem value_quarters (m : Nat) (e : Int) : (quarters m e).value = m * 2 ^ e := by
  have hgrid : (quarters m e).value = ((4 * m : Nat) : ℚ) * 2 ^ (e - 2) := onDecimalGrid_mul ..
  rw [hgrid, show e = e - 2 + 2 by ring, zpow_add₀ (by norm_num : (2 : ℚ) ≠ 0)]
  push_cast
  norm_num
  ring

/-- And they do not make it 0. -/
theorem digits_quarters_pos {m : Nat} (e : Int) (hm : 0 < m) : 0 < (quarters m e).digits := by
  have hone := onDecimalGrid_one_pos (e - 2)
  change 0 < onDecimalGrid (4 * m) (e - 2)
  rw [onDecimalGrid_eq_mul]
  positivity

/-- The multiples of a power of ten that stand for a number with `n + 1` digits. -/
def found (m : Nat) (e : Int) (n : Nat) : Option Nat :=
  nearestWithin (onDecimalGrid (4 * m - quartersBelow m e) (e - 2))
    (onDecimalGrid (4 * m + 2) (e - 2)) (m % 2 = 0) (quarters m e).digits
      (10 ^ (digitCount (quarters m e).digits - (n + 1)))

/-- Half a unit of the 17th digit is less than the way to a point half-way to a neighbour: the 53
binary digits of a mantissa make no more than 16 decimal ones. -/
theorem lt_of_seventeen_digits {m : Nat} {e : Int} (hn : Normalized m e) {k unit : Nat} (hk : 0 < k)
    (hunits : 10 ^ 16 * unit ≤ 4 * m * k) : unit < 2 * (quartersBelow m e * k) := by
  by_contra hnot
  have hmany : 10 ^ 16 * (2 * quartersBelow m e) ≤ 4 * m := by
    refine Nat.le_of_mul_le_mul_right ?_ hk
    calc 10 ^ 16 * (2 * quartersBelow m e) * k = 10 ^ 16 * (2 * (quartersBelow m e * k)) := by ring
      _ ≤ 10 ^ 16 * unit := Nat.mul_le_mul_left _ (not_lt.1 hnot)
      _ ≤ 4 * m * k := hunits
  have hmantissa := hn.mantissa_lt
  unfold quartersBelow at hmany
  split at hmany <;> omega

/-- With 17 digits there is always one, and there is one if the number itself ends there. -/
theorem isSome_found {m : Nat} {e : Int} (hn : Normalized m e) (hm : 0 < m) {n : Nat}
    (h : 10 ^ (digitCount (quarters m e).digits - (n + 1)) ∣ (quarters m e).digits ∨ n = 16) :
    (found m e n).isSome := by
  obtain ⟨v, hv⟩ : ∃ v, v = (quarters m e).digits := ⟨_, rfl⟩
  obtain ⟨k, hk⟩ : ∃ k, k = onDecimalGrid 1 (e - 2) := ⟨_, rfl⟩
  obtain ⟨unit, hunit⟩ : ∃ unit, unit = 10 ^ (digitCount v - (n + 1)) := ⟨_, rfl⟩
  have hq := quartersBelow_le m e
  have hkpos : 0 < k := hk ▸ onDecimalGrid_one_pos _
  have hupos : 0 < unit := hunit ▸ by positivity
  have hvk : v = 4 * m * k := by rw [hv, hk]; exact onDecimalGrid_eq_mul ..
  have hvpos : 0 < v := hv ▸ digits_quarters_pos e hm
  -- A quarter of the last place is `k`: the number is `4m` of them, and the ends are whole, too.
  have hlow : onDecimalGrid (4 * m - quartersBelow m e) (e - 2) = (4 * m - quartersBelow m e) * k :=
    hk ▸ onDecimalGrid_eq_mul ..
  have hhigh : onDecimalGrid (4 * m + 2) (e - 2) = (4 * m + 2) * k := hk ▸ onDecimalGrid_eq_mul ..
  have hquarters : 0 < quartersBelow m e := by unfold quartersBelow; split <;> decide
  have hbelow : (4 * m - quartersBelow m e) * k + quartersBelow m e * k = v := by
    rw [hvk, ← Nat.add_mul, Nat.sub_add_cancel (by omega)]
  have habove : (4 * m + 2) * k = v + 2 * k := by rw [hvk, Nat.add_mul]
  have hstep : 0 < quartersBelow m e * k := Nat.mul_pos hquarters hkpos
  rw [found, ← hv, ← hunit, hlow, hhigh]
  refine isSome_nearestWithin _ (by omega) (by omega) ?_ hupos
  rw [← hv, ← hunit] at h
  rcases h with hdvd | rfl
  · left
    rw [Nat.div_mul_cancel hdvd]
    omega
  · rcases Nat.lt_or_ge 17 (digitCount v) with hlong | hshort
    · have hunits : 10 ^ 16 * unit ≤ 4 * m * k := by
        rw [← hvk, hunit, ← pow_add]
        exact pow_le_of_lt_digitCount hvpos (by omega)
      -- The nearer neighbour is not more than half a unit away.
      have hclose := lt_of_seventeen_digits hn hkpos hunits
      have hsteps : quartersBelow m e * k ≤ 2 * k := Nat.mul_le_mul_right k hq
      have hsplit := Nat.div_add_mod' v unit
      have hmod := Nat.mod_lt v hupos
      omega
    · obtain rfl : unit = 1 := by rw [hunit, Nat.sub_eq_zero_of_le hshort, pow_zero]
      left
      rw [Nat.div_one, Nat.mul_one]
      omega

/-- What is found first among the numbers below `n` is found at the least of them. -/
theorem exists_of_findSome?_range {α : Type} {f : Nat → Option α} {n : Nat} {a : α}
    (h : (List.range n).findSome? f = some a) :
    ∃ k < n, f k = some a ∧ ∀ j < k, f j = none := by
  obtain ⟨front, k, back, hrange, hk, hfront⟩ := List.findSome?_eq_some_iff.1 h
  have hlength : (List.range n).length = front.length + (back.length + 1) := by
    rw [hrange, List.length_append, List.length_cons]
  rw [List.length_range] at hlength
  -- The numbers in front of the one at which something is found are the smaller ones.
  have hget : ∀ j, j < n → (front ++ k :: back)[j]? = some j := by
    intro j hj
    rw [← hrange, List.getElem?_range hj]
  have hfrontk : front.length = k := by
    have := hget front.length (by omega)
    simpa using this.symm
  refine ⟨k, by omega, hk, fun j hj => ?_⟩
  have happend : (front ++ k :: back)[j]? = front[j]? := List.getElem?_append_left (by omega)
  exact hfront j (List.mem_of_getElem? (happend.symm.trans (hget j (by omega))))

/-- The place of the last of `n + 1` digits. -/
def lastPlace (m : Nat) (e : Int) (n : Nat) : Int :=
  (quarters m e).scale + (digitCount (quarters m e).digits - (n + 1) : Nat)

/-- The shortest digits are those of the first count of digits at which something is found, without
zeros at the end. -/
theorem exists_of_shortest {m : Nat} {e : Int} (hn : Normalized m e) (hm : 0 < m) :
    ∃ n x, n < 17 ∧ found m e n = some x ∧ (∀ k < n, found m e k = none) ∧
      shortest m e = Expansion.dropZeros 20 ⟨x, lastPlace m e n⟩ := by
  obtain ⟨foundAt, hfoundAt⟩ : ∃ foundAt : Nat → Option Expansion,
    foundAt = fun n => (found m e n).map fun x => ⟨x, lastPlace m e n⟩ := ⟨_, rfl⟩
  have hshortest : ∀ d, (List.range 17).findSome? foundAt = some d →
      shortest m e = d.dropZeros 20 := by
    intro d hd
    rw [hfoundAt] at hd
    unfold shortest
    simp only
    split
    · next d' hd' => rw [Option.some.inj (hd'.symm.trans hd)]
    · next hd' => cases hd'.symm.trans hd
  cases hfind : (List.range 17).findSome? foundAt with
  | none =>
    -- With 17 digits something is always found.
    have hlast := List.findSome?_eq_none_iff.1 hfind 16 (by decide)
    have hsome := isSome_found hn hm (.inr rfl)
    rw [hfoundAt, Option.map_eq_none_iff] at hlast
    rw [hlast] at hsome
    cases hsome
  | some d =>
    obtain ⟨n, hlt, hd, hfirst⟩ := exists_of_findSome?_range hfind
    rw [hfoundAt] at hd hfirst
    obtain ⟨x, hx, rfl⟩ := Option.map_eq_some_iff.1 hd
    exact ⟨n, x, hlt, hx, fun k hk => Option.map_eq_none_iff.1 (hfirst k hk), hshortest _ hfind⟩

/-- What is found has as many digits as the number has before the place, or is the power of ten
above. -/
theorem bounds_of_found {m : Nat} {e : Int} (hm : 0 < m) {n x dropped : Nat}
    (hdropped : dropped = digitCount (quarters m e).digits - (n + 1)) (h : found m e n = some x) :
    10 ^ (digitCount (quarters m e).digits - 1 - dropped) ≤ x ∧
      x ≤ 10 ^ (digitCount (quarters m e).digits - dropped) := by
  have hpos := digits_quarters_pos e hm
  have hcount := digitCount_pos (quarters m e).digits
  have hx := nearestWithin_eq (by positivity) h
  rw [← hdropped] at hx
  have hlower : 10 ^ (digitCount (quarters m e).digits - 1 - dropped) ≤
      (quarters m e).digits / 10 ^ dropped := by
    rw [Nat.le_div_iff_mul_le (by positivity), ← pow_add]
    exact pow_le_of_lt_digitCount hpos (by omega)
  have hupper : (quarters m e).digits / 10 ^ dropped <
      10 ^ (digitCount (quarters m e).digits - dropped) := by
    rw [Nat.div_lt_iff_lt_mul (by positivity), ← pow_add,
      show digitCount (quarters m e).digits - dropped + dropped =
        digitCount (quarters m e).digits by omega]
    exact lt_pow_digitCount _
  omega

/-! ### The leading digit -/

/-- The leading digit of the shortest digits is not behind that of the number. -/
theorem exponent_quarters_le {m : Nat} {e : Int} (hn : Normalized m e) (hm : 0 < m) :
    (quarters m e).exponent ≤ (shortest m e).exponent := by
  obtain ⟨n, x, -, hx, -, hshortest⟩ := exists_of_shortest hn hm
  have hlower := (bounds_of_found hm rfl hx).1
  have hxpos : 0 < x := lt_of_lt_of_le (by positivity) hlower
  have hcount := digitCount_pos (quarters m e).digits
  have hlength : digitCount (quarters m e).digits - 1 -
      (digitCount (quarters m e).digits - (n + 1)) < digitCount x := by
    by_contra hnot
    have hlt := lt_pow_digitCount x
    have hpow := Nat.pow_le_pow_right (n := 10) (by decide) (not_lt.1 hnot)
    omega
  rw [hshortest, (Expansion.dropZeros_spec 20 hxpos).2.1]
  unfold Expansion.exponent lastPlace
  simp only
  omega

/-- A number that a power of ten does not exceed has its leading digit there or above. -/
theorem le_exponent_shortest {m : Nat} {e : Int} (hn : Normalized m e) (hm : 0 < m) {k : Int}
    (hle : (10 : ℚ) ^ k ≤ m * 2 ^ e) : k ≤ (shortest m e).exponent := by
  refine le_trans ?_ (exponent_quarters_le hn hm)
  have hupper := (Expansion.value_bounds (digits_quarters_pos e hm)).2
  rw [value_quarters] at hupper
  have := (zpow_lt_zpow_iff_right₀ (by norm_num : (1 : ℚ) < 10)).1 (hle.trans_lt hupper)
  omega

/-- The shortest digits end in no zero. -/
theorem mod_shortest {m : Nat} {e : Int} (hn : Normalized m e) (hm : 0 < m) :
    0 < (shortest m e).digits ∧ (shortest m e).digits % 10 ≠ 0 := by
  obtain ⟨n, x, hlt, hx, -, hshortest⟩ := exists_of_shortest hn hm
  obtain ⟨hlower, hupper⟩ := bounds_of_found hm rfl hx
  have hxpos : 0 < x := lt_of_lt_of_le (by positivity) hlower
  -- At most 17 digits are found, so that no zero is left after 20 have been taken off.
  obtain ⟨hpos, -, -, hmod⟩ := Expansion.dropZeros_spec 20 (d := ⟨x, lastPlace m e n⟩) hxpos
  rw [hshortest]
  refine ⟨hpos, hmod ?_⟩
  calc x ≤ 10 ^ 17 := hupper.trans (Nat.pow_le_pow_right (by decide) (by omega))
    _ < 10 ^ 20 := by decide

/-- The shortest digits do not go on behind the place where the number itself ends. -/
theorem le_scale_shortest {m : Nat} {e : Int} (hn : Normalized m e) (hm : 0 < m) {c : Nat}
    {place : Int} (hc : digitCount c ≤ 17) (hvalue : (m : ℚ) * 2 ^ e = c * 10 ^ place) :
    place ≤ (shortest m e).scale := by
  obtain ⟨n, x, -, hx, hfirst, hshortest⟩ := exists_of_shortest hn hm
  have hxpos : 0 < x := lt_of_lt_of_le (by positivity) (bounds_of_found hm rfl hx).1
  have hscale := (Expansion.dropZeros_spec 20 (d := ⟨x, lastPlace m e n⟩) hxpos).2.2.1
  rw [← hshortest] at hscale
  simp only [lastPlace] at hscale
  rcases Int.le_total place (quarters m e).scale with hplace | hplace
  · omega
  · -- The exact digits are those of `c` and zeros behind them.
    obtain ⟨t, ht⟩ := Int.le.dest hplace
    have hten : (10 : ℚ) ≠ 0 := by norm_num
    have hdigits : (quarters m e).digits = c * 10 ^ t := by
      rw [← value_quarters, Expansion.value, ← ht, add_comm, zpow_add₀ hten, ← mul_assoc,
        mul_left_inj' (zpow_ne_zero _ hten), zpow_natCast] at hvalue
      exact_mod_cast hvalue
    have hcpos : 0 < c := by
      have hpos := digits_quarters_pos e hm
      rw [hdigits] at hpos
      exact Nat.pos_of_mul_pos_right hpos
    have hcount : digitCount (quarters m e).digits = digitCount c + t := by
      rw [hdigits, digitCount_mul_pow hcpos]
    have hcountpos := digitCount_pos c
    -- With the digits of `c` the number itself is found.
    have hsome : (found m e (digitCount c - 1)).isSome := by
      refine isSome_found hn hm (.inl ?_)
      rw [hcount, hdigits, show digitCount c + t - (digitCount c - 1 + 1) = t by omega]
      exact Nat.dvd_mul_left _ _
    have hle : n ≤ digitCount c - 1 := by
      by_contra hnot
      rw [hfirst _ (not_le.1 hnot)] at hsome
      cases hsome
    omega

/-- The shortest digits stand for less than twice the number, so they begin at most one place in
front of it. -/
theorem exponent_shortest_le {m : Nat} {e : Int} (hn : Normalized m e) (hm : 0 < m) {k : Int}
    (hlt : (m : ℚ) * 2 ^ e < 10 ^ k) : (shortest m e).exponent ≤ k := by
  have hm' : (1 : ℚ) ≤ m := by exact_mod_cast hm
  have hpow : (0 : ℚ) < 2 ^ (e - 2) := by positivity
  have hdouble : (shortest m e).value < 2 * (m * 2 ^ e) := by
    calc (shortest m e).value ≤ highEnd m e := (rounds_shortest e hm).upper
      _ < (8 * m) * 2 ^ (e - 2) := mul_lt_mul_of_pos_right (by linarith) hpow
      _ = 2 * (m * 2 ^ e) := by
        rw [show e = e - 2 + 2 by ring, zpow_add₀ (by norm_num : (2 : ℚ) ≠ 0)]
        norm_num
        ring
  have hlower := (Expansion.value_bounds (mod_shortest hn hm).1).1
  have hten : (0 : ℚ) < 10 ^ k := by positivity
  have hbetween : (10 : ℚ) ^ (shortest m e).exponent < 10 ^ (k + 1) := by
    rw [zpow_add₀ (by norm_num : (10 : ℚ) ≠ 0), zpow_one]
    linarith
  have := (zpow_lt_zpow_iff_right₀ (by norm_num)).1 hbetween
  omega

/-- A number below a power of ten that is a binary64 number has its digits below it, too. -/
theorem exponent_shortest_lt {m : Nat} {e : Int} (hn : Normalized m e) (hm : 0 < m) {k : Nat}
    (hk : k ≤ 15) (hlt : (m : ℚ) * 2 ^ e < 10 ^ k) : (shortest m e).exponent < k := by
  have hten : (10 : ℚ) ^ k ≤ 10 ^ 15 := pow_le_pow_right₀ (by norm_num) hk
  obtain ⟨j, hj⟩ : ∃ j : Nat, e = -j := by
    by_contra hnot
    have hpos : 0 ≤ e := by
      by_contra hneg
      exact hnot ⟨e.natAbs, by omega⟩
    have hfull : (2 ^ 52 : ℚ) ≤ m := by exact_mod_cast hn.full (by omega)
    have hone : (1 : ℚ) ≤ 2 ^ e := one_le_zpow₀ (by norm_num) hpos
    have hgreat : (2 ^ 52 : ℚ) * 1 ≤ m * 2 ^ e := by gcongr
    linarith
  have hpow : (2 : ℚ) ^ e * 2 ^ j = 1 := by
    rw [hj, zpow_neg, zpow_natCast, inv_mul_cancel₀ (by positivity)]
  have hpos : (0 : ℚ) < 2 ^ e := by positivity
  -- The power of ten is on the grid of the number, so that half a step does not reach it.
  have hstep : m + 1 ≤ 10 ^ k * 2 ^ j := by
    have hnat : (m : ℚ) < 10 ^ k * 2 ^ j := by
      calc (m : ℚ) = m * 2 ^ e * 2 ^ j := by rw [mul_assoc, hpow, mul_one]
        _ < 10 ^ k * 2 ^ j := mul_lt_mul_of_pos_right hlt (by positivity)
    exact_mod_cast hnat
  have hhigh : highEnd m e < 10 ^ k := by
    have hstep' : (m : ℚ) + 1 ≤ 10 ^ k * 2 ^ j := by exact_mod_cast hstep
    calc highEnd m e = (m + 1 / 2) * 2 ^ e := by
          unfold highEnd
          rw [zpow_sub₀ (by norm_num : (2 : ℚ) ≠ 0)]
          norm_num
          ring
      _ < (m + 1) * 2 ^ e := mul_lt_mul_of_pos_right (by linarith) hpos
      _ ≤ 10 ^ k * 2 ^ j * 2 ^ e := mul_le_mul_of_nonneg_right hstep' hpos.le
      _ = 10 ^ k := by rw [mul_assoc, mul_comm ((2 : ℚ) ^ j), hpow, mul_one]
  have hlower := (Expansion.value_bounds (mod_shortest hn hm).1).1
  have hupper := (rounds_shortest e hm).upper
  have hbetween : (10 : ℚ) ^ (shortest m e).exponent < 10 ^ (k : Int) := by
    rw [zpow_natCast]
    linarith
  exact (zpow_lt_zpow_iff_right₀ (by norm_num)).1 hbetween

/-! ### Rounded digits -/

/-- A number that is rounded to `n + 1` significant digits has no more of them. -/
theorem digitCount_significant_le (n m : Nat) (e : Int) :
    digitCount (significant n m e).digits ≤ n + 1 := by
  unfold significant
  split
  · exact (digitCount_le_iff (Nat.succ_pos n)).2 (by positivity)
  · next hm =>
    have hpos : 0 < (exact m e).digits := by
      change 0 < onDecimalGrid m e
      rw [onDecimalGrid_eq_mul]
      exact Nat.mul_pos (Nat.pos_of_ne_zero hm) (onDecimalGrid_one_pos e)
    simp only
    split
    · next hle =>
      rw [digitCount_mul_pow hpos]
      omega
    · next hlt =>
      split
      · exact (digitCount_le_iff (Nat.succ_pos n)).2 (Nat.pow_lt_pow_right (by decide) (by omega))
      · next hne =>
        -- The quotient has `n + 1` digits, and so has the next number unless it is a power of ten.
        have hquotient : (exact m e).digits / 10 ^ (digitCount (exact m e).digits - (n + 1)) <
            10 ^ (n + 1) := by
          rw [Nat.div_lt_iff_lt_mul (by positivity), ← pow_add,
            show n + 1 + (digitCount (exact m e).digits - (n + 1)) =
              digitCount (exact m e).digits by omega]
          exact lt_pow_digitCount _
        refine (digitCount_le_iff (Nat.succ_pos n)).2 ?_
        simp only
        rcases roundDiv_eq (exact m e).digits (10 ^ (digitCount (exact m e).digits - (n + 1)))
          with heq | heq <;> omega

end LiveSheet.Decimal
