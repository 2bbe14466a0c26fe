import LiveSheet.Completion
import Mathlib.Data.List.Basic

/-!
# Where the caret goes inside a call

The call around the cursor is opened by the nearest opening parenthesis that is not behind the
cursor (`Position.IsLast`) and ends at the first closing one behind that (`Position.IsFirst`). From
the cursor the caret goes to the next argument, behind the first comma and a blank, or behind the
call (`Completion.Slot`, `Completion.nextSlot?_eq_some_iff`). In both cases it moves forward, and it
does not leave the text (`Completion.StaysInCall`).

But the first comma is looked for in the whole text. If the call has none and another one comes
behind it, then the caret goes there, past the end of the call and perhaps of the text
(`Completion.nextSlot?_forward`, `Completion.nextSlot?_innerCall`).
-/

namespace LiveSheet

/-! ### Places in a list -/

namespace Position

variable {α : Type} {x : α} {start stop i j : Nat} {xs : List α}

/-- Whether a place is the first one at or behind `start` that holds `x`. -/
structure IsFirst (x : α) (start : Nat) (xs : List α) (i : Nat) : Prop where
  le : start ≤ i
  holds : xs[i]? = some x
  first : ∀ j, start ≤ j → xs[j]? = some x → i ≤ j

/-- Whether a place is the last one at or before `stop` that holds `x`. -/
structure IsLast (x : α) (stop : Nat) (xs : List α) (i : Nat) : Prop where
  le : i ≤ stop
  holds : xs[i]? = some x
  last : ∀ j, j ≤ stop → xs[j]? = some x → j ≤ i

/-- The first place is within the list. -/
theorem IsFirst.lt_length (h : IsFirst x start xs i) : i < xs.length :=
  (List.getElem?_eq_some_iff.1 h.holds).1

/-- There is one first place. -/
theorem IsFirst.unique (h : IsFirst x start xs i) (h' : IsFirst x start xs j) : i = j :=
  Nat.le_antisymm (h.first j h'.le h'.holds) (h'.first i h.le h.holds)

/-- There is one last place. -/
theorem IsLast.unique (h : IsLast x stop xs i) (h' : IsLast x stop xs j) : i = j :=
  Nat.le_antisymm (h'.last i h.le h.holds) (h.last j h'.le h'.holds)

variable [BEq α] [LawfulBEq α]

/-- The search from the front finds the first place. -/
theorem first?_eq_some_iff : first? x start xs = some i ↔ IsFirst x start xs i := by
  unfold first?
  rw [Option.map_eq_some_iff]
  constructor
  · rintro ⟨k, hk, rfl⟩
    obtain ⟨hlt, hget, hfirst⟩ := List.idxOf?_eq_some_iff.1 hk
    refine ⟨Nat.le_add_right start k, ?_, fun j hj hx => ?_⟩
    · rw [← List.getElem?_drop, List.getElem?_eq_getElem hlt, hget]
    · -- A place before `k` would be found before it.
      by_contra hbefore
      obtain ⟨hlt', hget'⟩ := List.getElem?_eq_some_iff.1 hx
      refine hfirst (j - start) (by omega) ?_
      rw [List.getElem_drop]
      simpa [Nat.add_sub_cancel' hj] using hget'
  · rintro ⟨hle, hx, hfirst⟩
    obtain ⟨hlt, hget⟩ := List.getElem?_eq_some_iff.1 hx
    refine ⟨i - start, List.idxOf?_eq_some_iff.2 ⟨?_, ?_, fun j hj hx' => ?_⟩, by omega⟩
    · rw [List.length_drop]
      omega
    · rw [List.getElem_drop]
      simpa [Nat.add_sub_cancel' hle] using hget
    · rw [List.getElem_drop] at hx'
      have hx : xs[start + j]? = some x := by rw [← hx', List.getElem?_eq_getElem]
      have := hfirst (start + j) (Nat.le_add_right start j) hx
      omega

/-- The search from the front finds nothing if there is no first place. -/
theorem first?_eq_none_iff : first? x start xs = none ↔ ∀ i, ¬ IsFirst x start xs i := by
  rw [Option.eq_none_iff_forall_ne_some]
  exact forall_congr' fun i => not_congr first?_eq_some_iff

/-- The search from the back finds the last of all places. -/
theorem last?_eq_some_iff :
    last? x xs = some i ↔ xs[i]? = some x ∧ ∀ j, xs[j]? = some x → j ≤ i := by
  unfold last?
  rw [Option.map_eq_some_iff]
  constructor
  · rintro ⟨k, hk, rfl⟩
    obtain ⟨hlt, hget, hfirst⟩ := List.idxOf?_eq_some_iff.1 hk
    rw [List.length_reverse] at hlt
    refine ⟨?_, fun j hx => ?_⟩
    · rw [← hget, List.getElem_reverse, List.getElem?_eq_getElem]
    · -- From the back, a place behind the found one comes before it.
      by_contra hbehind
      obtain ⟨hlt', hget'⟩ := List.getElem?_eq_some_iff.1 hx
      refine hfirst (xs.length - 1 - j) (by omega) ?_
      rw [List.getElem_reverse]
      simpa [show xs.length - 1 - (xs.length - 1 - j) = j by omega] using hget'
  · rintro ⟨hx, hlast⟩
    obtain ⟨hlt, hget⟩ := List.getElem?_eq_some_iff.1 hx
    refine ⟨xs.length - 1 - i,
      List.idxOf?_eq_some_iff.2 ⟨?_, ?_, fun j hj hx' => ?_⟩, by omega⟩
    · rw [List.length_reverse]
      omega
    · rw [List.getElem_reverse]
      simpa [show xs.length - 1 - (xs.length - 1 - i) = i by omega] using hget
    · rw [List.getElem_reverse] at hx'
      have := hlast (xs.length - 1 - j) (by rw [← hx', List.getElem?_eq_getElem])
      omega

/-- The search up to a place finds the last one at or before it. -/
theorem last?_take_eq_some_iff : last? x (xs.take (stop + 1)) = some i ↔ IsLast x stop xs i := by
  have hfront (j : Nat) : (xs.take (stop + 1))[j]? = some x ↔ j ≤ stop ∧ xs[j]? = some x := by
    rw [List.getElem?_take, ite_eq_iff, Nat.lt_succ_iff]
    simp
  rw [last?_eq_some_iff]
  simp only [hfront]
  constructor
  · rintro ⟨⟨hle, hx⟩, hlast⟩
    exact ⟨hle, hx, fun j hj hx' => hlast j ⟨hj, hx'⟩⟩
  · rintro ⟨hle, hx, hlast⟩
    exact ⟨⟨hle, hx⟩, fun j ⟨hj, hx'⟩ => hlast j hj hx'⟩

end Position

/-! ### The next slot -/

namespace Completion

open Position (IsFirst IsLast)

/-- Where a call is: at the nearest opening parenthesis that is not behind the cursor, and up to the
first closing one behind that. -/
structure IsCall (s : List Char) (cursor opening closing : Nat) : Prop where
  opens : IsLast '(' cursor s opening
  closes : IsFirst ')' opening s closing

/-- Where the caret goes from the cursor in a call. -/
inductive Slot (s : List Char) (cursor opening closing : Nat) : Nat → Prop
  /-- Behind a comma of the call that is not before the cursor, and a blank. -/
  | argument {comma : Nat} (hcomma : IsFirst ',' opening s comma) (hcursor : cursor ≤ comma)
      (hinside : comma < closing) : Slot s cursor opening closing (comma + 2)
  /-- Behind the call, where no comma follows. -/
  | exit (hcomma : ∀ comma, IsFirst ',' opening s comma → comma < cursor)
      (hcursor : cursor ≤ closing) : Slot s cursor opening closing (closing + 1)
  /-- Behind a comma that comes after the call. -/
  | beyond {comma : Nat} (hcomma : IsFirst ',' opening s comma) (hcursor : cursor ≤ comma)
      (hbeyond : closing < comma) : Slot s cursor opening closing (comma + 2)

/-- Whether the caret goes on to the next argument of the call, or directly behind the call. -/
structure StaysInCall (s : List Char) (cursor opening closing slot : Nat) : Prop where
  forward : cursor < slot
  inside : slot ≤ s.length
  place : (∃ comma, IsFirst ',' opening s comma ∧ comma < closing ∧ slot = comma + 2) ∨
    slot = closing + 1

/-- Whether the first comma behind an opening parenthesis is behind the end of the call, and not
before the cursor. -/
structure CommaBeyond (s : List Char) (cursor opening closing comma : Nat) : Prop where
  isFirst : IsFirst ',' opening s comma
  closing_lt : closing < comma
  cursor_le : cursor ≤ comma

variable {s : List Char} {cursor opening closing slot comma : Nat}

/-- The cursor is in one innermost call. -/
theorem IsCall.unique {opening' closing' : Nat} (h : IsCall s cursor opening closing)
    (h' : IsCall s cursor opening' closing') : opening = opening' ∧ closing = closing' := by
  obtain rfl := h.opens.unique h'.opens
  exact ⟨rfl, h.closes.unique h'.closes⟩

/-- The caret moves forward. -/
theorem Slot.cursor_lt (h : Slot s cursor opening closing slot) : cursor < slot := by
  cases h with
  | argument _ hcursor _ => omega
  | exit _ hcursor => omega
  | beyond _ hcursor _ => omega

/-- A comma behind the call is where the caret goes. -/
theorem Slot.eq_of_commaBeyond (h : Slot s cursor opening closing slot)
    (hbeyond : CommaBeyond s cursor opening closing comma) : slot = comma + 2 := by
  cases h with
  | argument hcomma => rw [hcomma.unique hbeyond.isFirst]
  | exit hnone => exact absurd (hnone comma hbeyond.isFirst) (Nat.not_lt.2 hbeyond.cursor_le)
  | beyond hcomma => rw [hcomma.unique hbeyond.isFirst]

/-- The caret stays in the call, unless the next comma is behind it. -/
theorem Slot.staysInCall_iff (hcall : IsCall s cursor opening closing)
    (h : Slot s cursor opening closing slot) :
    StaysInCall s cursor opening closing slot ↔
      ∀ comma, ¬ CommaBeyond s cursor opening closing comma := by
  have hclosing := hcall.closes.lt_length
  constructor
  · rintro ⟨-, -, hplace⟩ comma hbeyond
    have hslot := h.eq_of_commaBeyond hbeyond
    have hlt := hbeyond.closing_lt
    rcases hplace with ⟨comma', hcomma', hinside, -⟩ | hexit
    · obtain rfl := hcomma'.unique hbeyond.isFirst
      omega
    · omega
  · intro hnone
    cases h with
    | argument hcomma hcursor hinside =>
      exact ⟨by omega, by omega, .inl ⟨_, hcomma, hinside, rfl⟩⟩
    | exit hcomma hcursor => exact ⟨by omega, by omega, .inr rfl⟩
    | beyond hcomma hcursor hbeyond => exact absurd ⟨hcomma, hbeyond, hcursor⟩ (hnone _)

/-- For each cursor in a text there is a slot if and only if there is a call around it that the
caret has not left, and it is one of the three. -/
theorem nextSlot?_eq_some_iff {text : String} (hcursor : cursor ≤ text.toList.length)
    {caret : Int} :
    nextSlot? text cursor = some caret ↔
      ∃ opening closing slot, IsCall text.toList cursor opening closing ∧
        Slot text.toList cursor opening closing slot ∧ caret = slot := by
  have hbefore : Position.before text.toList ((cursor : Int) + 1) =
      text.toList.take (cursor + 1) := by
    rw [Position.before, Position.clip, if_neg (by omega), List.take_eq_take_iff]
    omega
  unfold nextSlot?
  simp only [hbefore, Option.bind_eq_bind, Option.bind_eq_some_iff,
    Position.last?_take_eq_some_iff, Position.first?_eq_some_iff]
  constructor
  · rintro ⟨opening, hopens, closing, hcloses, hcaret⟩
    have hcall : IsCall text.toList cursor opening closing := ⟨hopens, hcloses⟩
    split at hcaret
    · next comma hcomma =>
      have hcomma := Position.first?_eq_some_iff.1 hcomma
      split at hcaret
      · next hle =>
        obtain rfl := Option.some.inj hcaret
        -- One character cannot be a comma and a parenthesis.
        have hne : comma ≠ closing := by
          rintro rfl
          cases hcomma.holds.symm.trans hcloses.holds
        rcases Nat.lt_or_gt_of_ne hne with hlt | hgt
        · exact ⟨_, _, _, hcall, .argument hcomma (by omega) hlt, rfl⟩
        · exact ⟨_, _, _, hcall, .beyond hcomma (by omega) hgt, rfl⟩
      · next hgt =>
        split at hcaret
        · obtain rfl := Option.some.inj hcaret
          refine ⟨_, _, _, hcall, .exit (fun comma' hcomma' => ?_) (by omega), rfl⟩
          obtain rfl := hcomma.unique hcomma'
          omega
        · cases hcaret
    · next hnone =>
      split at hcaret
      · obtain rfl := Option.some.inj hcaret
        exact ⟨_, _, _, hcall, .exit (fun comma hcomma =>
          absurd hcomma (Position.first?_eq_none_iff.1 hnone comma)) (by omega), rfl⟩
      · cases hcaret
  · rintro ⟨opening, closing, slot, ⟨hopens, hcloses⟩, hslot, rfl⟩
    refine ⟨opening, hopens, closing, hcloses, ?_⟩
    cases hslot with
    | argument hcomma hle =>
      rw [Position.first?_eq_some_iff.2 hcomma]
      simp [hle]
    | exit hcomma hle =>
      cases hfirst : Position.first? ',' opening text.toList with
      | none => simp [hle]
      | some comma =>
        have hlt := hcomma comma (Position.first?_eq_some_iff.1 hfirst)
        simp [hle, Nat.not_le.2 hlt]
    | beyond hcomma hle =>
      rw [Position.first?_eq_some_iff.2 hcomma]
      simp [hle]

/-- From a cursor in a text the caret goes to the slot of the call around it, and so forward; if
there is none, it goes nowhere. It stays in the call and in the text, unless the first comma behind
the opening parenthesis comes after the call and not before the cursor. Then it goes behind this
comma, and stays in the text only if something follows there. -/
theorem nextSlot?_forward (text : String) {cursor : Nat} (hcursor : cursor ≤ text.toList.length) :
    (∀ caret : Int, nextSlot? text cursor = some caret ↔
      ∃ opening closing slot, IsCall text.toList cursor opening closing ∧
        Slot text.toList cursor opening closing slot ∧ caret = slot) ∧
      ∀ opening closing slot : Nat, nextSlot? text cursor = some (slot : Int) →
        IsCall text.toList cursor opening closing →
          cursor < slot ∧
            (StaysInCall text.toList cursor opening closing slot ↔
              ∀ comma, ¬ CommaBeyond text.toList cursor opening closing comma) ∧
            ∀ comma, CommaBeyond text.toList cursor opening closing comma →
              slot = comma + 2 ∧ (slot ≤ text.toList.length ↔ comma + 1 < text.toList.length) := by
  refine ⟨fun caret => nextSlot?_eq_some_iff hcursor, fun opening closing slot hslot hcall => ?_⟩
  obtain ⟨opening', closing', slot', hcall', hslot', hcaret⟩ :=
    (nextSlot?_eq_some_iff hcursor).1 hslot
  obtain ⟨rfl, rfl⟩ := hcall.unique hcall'
  obtain rfl : slot = slot' := by omega
  refine ⟨hslot'.cursor_lt, hslot'.staysInCall_iff hcall, fun comma hbeyond => ?_⟩
  have hcomma := hslot'.eq_of_commaBeyond hbeyond
  exact ⟨hcomma, by omega⟩

/-- From the first argument of a call the caret goes to the second one, and a call that stands there
is not looked into. -/
theorem nextSlot?_nestedCall :
    5 ≤ "pow(x, sqrt(4))".toList.length ∧ nextSlot? "pow(x, sqrt(4))" 5 = some 7 ∧
      IsCall "pow(x, sqrt(4))".toList 5 3 13 ∧ 5 < 7 ∧
        (StaysInCall "pow(x, sqrt(4))".toList 5 3 13 7 ↔
          ∀ comma, ¬ CommaBeyond "pow(x, sqrt(4))".toList 5 3 13 comma) ∧
        StaysInCall "pow(x, sqrt(4))".toList 5 3 13 7 := by
  have hcursor : 5 ≤ "pow(x, sqrt(4))".toList.length := by decide
  have hslot : nextSlot? "pow(x, sqrt(4))" 5 = some 7 := by decide +kernel
  have hcall : IsCall "pow(x, sqrt(4))".toList 5 3 13 :=
    ⟨Position.last?_take_eq_some_iff.1 (by decide), Position.first?_eq_some_iff.1 (by decide)⟩
  obtain ⟨-, hforward⟩ := nextSlot?_forward "pow(x, sqrt(4))" hcursor
  obtain ⟨hlt, hiff, -⟩ := hforward 3 13 7 hslot hcall
  have hcomma : IsFirst ',' 3 "pow(x, sqrt(4))".toList 5 :=
    Position.first?_eq_some_iff.1 (by decide)
  refine ⟨hcursor, hslot, hcall, hlt, hiff, hiff.2 fun comma hbeyond => ?_⟩
  obtain rfl := hcomma.unique hbeyond.isFirst
  exact absurd hbeyond.closing_lt (by decide)

/-- From the argument of an inner call without comma the caret goes behind the comma of the outer
one, and here past the end of the text, and not behind the inner call. -/
theorem nextSlot?_innerCall :
    nextSlot? "pow(sqrt(2)," 9 = some 13 ∧ "pow(sqrt(2),".toList.length = 12 ∧
      IsCall "pow(sqrt(2),".toList 9 8 10 ∧ ¬ StaysInCall "pow(sqrt(2),".toList 9 8 10 13 := by
  refine ⟨by decide +kernel, by decide,
    ⟨Position.last?_take_eq_some_iff.1 (by decide), Position.first?_eq_some_iff.1 (by decide)⟩,
    fun hstays => ?_⟩
  exact absurd hstays.inside (by decide)

end Completion

end LiveSheet
