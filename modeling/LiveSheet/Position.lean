/-!
# Positions in lists

A place in a list can be given by an integer: a negative one counts from the end, and one that is
outside stands for the nearer end. Cursors in texts and limits of suggestions are given this way.
-/

namespace LiveSheet.Position

variable {α : Type}

/-- The place that an integer means in a list of so many items. -/
def clip (length : Nat) (i : Int) : Nat :=
  if i < 0 then (length + i).toNat else min i.toNat length

/-- The items before a place. -/
def before (xs : List α) (i : Int) : List α :=
  xs.take (clip xs.length i)

/-- The items from a place on. -/
def after (xs : List α) (i : Int) : List α :=
  xs.drop (clip xs.length i)

/-- The first place at or behind `start` that holds `x`. -/
def first? [BEq α] (x : α) (start : Nat) (xs : List α) : Option Nat :=
  ((xs.drop start).idxOf? x).map (start + ·)

/-- The last place that holds `x`. -/
def last? [BEq α] (x : α) (xs : List α) : Option Nat :=
  (xs.reverse.idxOf? x).map (xs.length - 1 - ·)

/-- A place in range is kept. -/
theorem clip_ofNat {length i : Nat} (h : i ≤ length) : clip length i = i := by
  unfold clip
  split <;> omega

end LiveSheet.Position
