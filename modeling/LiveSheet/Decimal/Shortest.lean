import LiveSheet.Binary64.Basic

/-!
# Decimal digits of binary64 numbers

Every dyadic fraction is a decimal fraction, so the digits of a number are found in natural
numbers. `shortest` gives the fewest digits that read back as the same number, and of those the
nearest to it: for 1, 2, … 17 digits it looks whether one of the two neighbours of the number on
that grid lies in the interval of reals that round to the number. `significant` rounds the exact
value to a given count of digits, a half to the even neighbour.
-/

namespace LiveSheet.Decimal

-- Powers are those of the numbers themselves, also where monoids are in scope.
attribute [local instance (2000)] instPowNat

open Binary64

/-- The number `digits · 10^scale`. -/
structure Expansion where
  digits : Nat
  scale : Int
deriving Repr, DecidableEq

/-- The decimal digits of a natural number. -/
def digitChars (n : Nat) : List Char :=
  Nat.toDigits 10 n

/-- The number of decimal digits of a natural number; 0 has one. -/
def digitCount (n : Nat) : Nat :=
  (digitChars n).length

/-- The exponent of ten of the leading digit. -/
def Expansion.exponent (d : Expansion) : Int :=
  d.scale + digitCount d.digits - 1

/-- Takes up to `n` zeros off the end. -/
def Expansion.dropZeros : (n : Nat) → Expansion → Expansion
  | 0, d => d
  | n + 1, d =>
    if d.digits % 10 = 0 ∧ d.digits ≠ 0 then dropZeros n ⟨d.digits / 10, d.scale + 1⟩ else d

/-- Natural `n`, times `n ↦ n · 2^e` on the decimal grid of scale `min e 0`. -/
def onDecimalGrid (n : Nat) (e : Int) : Nat :=
  if 0 ≤ e then n * 2 ^ e.toNat else n * 5 ^ (-e).toNat

/-- The dyadic fraction `m · 2^e` as a decimal one, without rounding. -/
def exact (m : Nat) (e : Int) : Expansion :=
  ⟨onDecimalGrid m e, min e 0⟩

/-- The multiple of `unit` nearest to `v`, the even one of two, among its two neighbours that lie
between `low` and `high`, with the ends or without. -/
def nearestWithin (low high : Nat) (ends : Bool) (v unit : Nat) : Option Nat :=
  let inside (x : Nat) : Bool := if ends then low ≤ x && x ≤ high else low < x && x < high
  let below := v / unit * unit
  let above := below + unit
  match inside below, inside above with
  | true, true => some (roundDiv v unit)
  | true, false => some (below / unit)
  | false, true => some (above / unit)
  | false, false => none

/-- The fewest digits that read back as the binary64 number `m · 2^e`, nearest to it among those.
For positive `m`. -/
def shortest (m : Nat) (e : Int) : Expansion :=
  -- Quarters of the last place: the number is `4m`, half-way to its neighbours are the ends.
  let below := if m = 2 ^ (52 : Nat) ∧ -1074 < e then 1 else 2
  let low := onDecimalGrid (4 * m - below) (e - 2)
  let value := onDecimalGrid (4 * m) (e - 2)
  let high := onDecimalGrid (4 * m + 2) (e - 2)
  let scale := min (e - 2) 0
  let count := digitCount value
  let onGrid (n : Nat) : Option Expansion :=
    let dropped := count - (n + 1)
    (nearestWithin low high (m % 2 = 0) value (10 ^ dropped)).map fun d => ⟨d, scale + dropped⟩
  match (List.range 17).findSome? onGrid with
  | some d => d.dropZeros 20
  | none => exact m e

/-- The dyadic fraction `m · 2^e` rounded to `n + 1` significant digits, with ties to even. -/
def significant (n m : Nat) (e : Int) : Expansion :=
  if m = 0 then ⟨0, -n⟩
  else
    let d := exact m e
    let count := digitCount d.digits
    if count ≤ n + 1 then
      ⟨d.digits * 10 ^ (n + 1 - count), d.scale - (n + 1 - count : Nat)⟩
    else
      let dropped := count - (n + 1)
      let rounded := roundDiv d.digits (10 ^ dropped)
      if rounded = 10 ^ (n + 1) then ⟨10 ^ n, d.scale + dropped + 1⟩ else ⟨rounded, d.scale + dropped⟩

end LiveSheet.Decimal
