/-!
# Unsigned numerals

The digits of a number without its sign and exponent: whole digits with perhaps a point and more
digits, or a point and at least one digit. `takeNumber?` takes the longest such numeral off the
front of a text and loses nothing of it.
-/

namespace LiveSheet.Decimal

/-- An ASCII digit. -/
def isDigit (c : Char) : Bool :=
  '0' ≤ c && c ≤ '9'

/-- The longest fraction at the front of a text, and the rest: a point and at least one digit. -/
def takeFraction? : List Char → Option (List Char × List Char)
  | '.' :: cs =>
    match cs.takeWhile isDigit with
    | [] => none
    | fraction => some ('.' :: fraction, cs.dropWhile isDigit)
  | _ => none

/-- A point and the digits behind it, if there is a point, and the rest. -/
def takePoint : List Char → List Char × List Char
  | '.' :: cs => ('.' :: cs.takeWhile isDigit, cs.dropWhile isDigit)
  | cs => ([], cs)

/-- The longest number at the front of a text, and the rest: digits with perhaps a point and more
digits, or a point and digits. -/
def takeNumber? (cs : List Char) : Option (List Char × List Char) :=
  match cs.takeWhile isDigit with
  | [] => takeFraction? cs
  | whole =>
    let (fraction, rest) := takePoint (cs.dropWhile isDigit)
    some (whole ++ fraction, rest)

/-- The digits of a numeral as one natural number, without the point. -/
def digitsValue (numeral : List Char) : Nat :=
  (numeral.filter isDigit).foldl (fun n c => 10 * n + (c.toNat - '0'.toNat)) 0

/-- The number of digits behind the point of a numeral. -/
def places (numeral : List Char) : Nat :=
  (numeral.dropWhile isDigit).length - 1

/-- The digits behind a point and the rest are the text. -/
theorem takeFraction?_append {cs digits rest : List Char}
    (h : takeFraction? cs = some (digits, rest)) : digits ++ rest = cs := by
  unfold takeFraction? at h
  split at h
  · split at h
    · simp at h
    · obtain ⟨rfl, rfl⟩ := by simpa using h
      rw [List.cons_append, List.takeWhile_append_dropWhile]
  · simp at h

/-- The fraction, if there is one, and the rest are the text. -/
theorem takePoint_append (cs : List Char) : (takePoint cs).1 ++ (takePoint cs).2 = cs := by
  unfold takePoint
  split
  · rw [List.cons_append, List.takeWhile_append_dropWhile]
  · rfl

/-- Number and rest make up the text. -/
theorem takeNumber?_append {cs digits rest : List Char}
    (h : takeNumber? cs = some (digits, rest)) : digits ++ rest = cs := by
  unfold takeNumber? at h
  split at h
  · exact takeFraction?_append h
  · obtain ⟨rfl, rfl⟩ := by simpa using h
    rw [List.append_assoc, takePoint_append, List.takeWhile_append_dropWhile]

/-- A number holds at least one character. -/
theorem takeNumber?_ne_nil {cs digits rest : List Char}
    (h : takeNumber? cs = some (digits, rest)) : digits ≠ [] := by
  unfold takeNumber? at h
  split at h
  · unfold takeFraction? at h
    split at h
    · split at h
      · simp at h
      · obtain ⟨rfl, -⟩ := by simpa using h
        simp
    · simp at h
  · next hne =>
    obtain ⟨rfl, -⟩ := by simpa using h
    intro hnil
    exact hne (List.append_eq_nil_iff.1 hnil).1

end LiveSheet.Decimal
