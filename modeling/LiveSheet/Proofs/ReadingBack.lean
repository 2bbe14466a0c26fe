import LiveSheet.Proofs.Superscripts

/-!
# Reading displayed formulas back

A formula has parentheses that no group of the tree stands for, and shows no difference between `^`
and `pow`. So what it can be read as is the tree as it is displayed (`Expr.displayed`), which has
the same value.

By induction on the grammar, a legible tree is read back as it is displayed if the base of every
power in it stands alone: what a level of the grammar is set as is read where one of this level is
wanted (`Latex.ReadsBack`). In turn, no formula is read as a tree that has a superscript behind a
minus sign with its operand or behind another superscript (`Latex.gives_readSum`), and
a base that does not stand alone is displayed as one of these.
-/

namespace LiveSheet

open Lexer (takeName?)
open Registry (standard)

/-! ### The displayed tree -/

namespace Expr

/-- An expression between parentheses, if so. -/
def groupedIf (grouped : Bool) (e : Expr) : Expr :=
  if grouped then group e else e

mutual

/-- The expression as it is displayed: with the parentheses that are put around operands, and a
power for each call of `pow`. -/
def displayed : Expr → Expr
  | number text => number text
  | reference name => reference name
  | constant name => constant name
  | prefixed symbol operand =>
    prefixed symbol (groupedIf operand.shape.isCompound operand.displayed)
  | binary symbol left right =>
    binary symbol (groupedIf (symbol == "^" && left.shape == .binary) left.displayed)
      right.displayed
  | group inner => group inner.displayed
  | call "pow" [base, exponent] =>
    binary "^" (groupedIf (base.shape == .binary) base.displayed) exponent.displayed
  | call name args => call name (displayedAll args)

/-- The same of several expressions. -/
def displayedAll : List Expr → List Expr
  | [] => []
  | e :: es => e.displayed :: displayedAll es

end

/-- The trees of a list are displayed one by one. -/
theorem displayedAll_eq_map (es : List Expr) : displayedAll es = es.map displayed := by
  induction es with
  | nil => rfl
  | cons e es ih => rw [displayedAll, ih, List.map_cons]

/-- A call is displayed with its arguments, except for a power. -/
theorem displayed_call {name : String} (h : name ≠ "pow") (args : List Expr) :
    (call name args).displayed = call name (args.map displayed) := by
  rw [displayed, displayedAll_eq_map]
  rintro base exponent rfl
  exact absurd rfl h

/-- An operation is displayed with its operands, except for a power. -/
theorem displayed_binary {symbol : String} (h : symbol ≠ "^") (left right : Expr) :
    (binary symbol left right).displayed = binary symbol left.displayed right.displayed := by
  rw [displayed, beq_eq_false_iff_ne.2 h]
  rfl

/-! ### Its value -/

section

variable {r : Registry} {scope : Scope}

/-- Parentheses do not change what a tree is worth. -/
theorem value_groupedIf (grouped : Bool) (e : Expr) :
    (groupedIf grouped e).value r scope = e.value r scope := by
  cases grouped <;> rfl

/-- What a computation gives does not depend on how its faults are told, if the same holds of its
two parts. -/
theorem toOption_bind {ε α β : Type} {x x' : Except ε α} {next next' : α → Except ε β}
    (h : x.toOption = x'.toOption) (hnext : ∀ a, (next a).toOption = (next' a).toOption) :
    (x.bind next).toOption = (x'.bind next').toOption := by
  cases x with
  | error err =>
    cases x' with
    | error err' => rfl
    | ok a => cases h
  | ok a =>
    cases x' with
    | error err' => cases h
    | ok a' =>
      obtain rfl := Option.some.inj h
      exact hnext a

/-- The symbol an operation is written with only shows in its fault. -/
theorem toOption_checked (symbol symbol' : String) (x : Float) :
    (checked symbol x).toOption = (checked symbol' x).toOption := by
  unfold checked
  split <;> rfl

/-- A power has the value of a call of `pow`, or both have none. -/
theorem toOption_value_power (base exponent : Expr) :
    ((binary "^" base exponent).value standard scope).toOption =
      ((call "pow" [base, exponent]).value standard scope).toOption := by
  rw [value, value, values, values, values]
  cases base.value standard scope with
  | error err => rfl
  | ok a =>
    cases exponent.value standard scope with
    | error err => rfl
    | ok b => exact toOption_checked "^" "pow" (a.pow b)

/-- A displayed call is worth what the call of its displayed arguments is. -/
theorem toOption_value_displayed_call (name : String) (args : List Expr) :
    ((call name args).displayed.value standard scope).toOption =
      ((call name (displayedAll args)).value standard scope).toOption := by
  -- Only a call of `pow` with two arguments is displayed as no call.
  by_cases hpow : ∃ base exponent, name = "pow" ∧ args = [base, exponent]
  · obtain ⟨base, exponent, rfl, rfl⟩ := hpow
    rw [displayed, toOption_value_power, value, value, values, value_groupedIf]
    rfl
  · rw [displayed]
    exact fun base exponent hname hargs => hpow ⟨base, exponent, hname, hargs⟩

mutual

/-- An expression has the value that it is displayed with, or both have none. -/
theorem toOption_value_displayed : (e : Expr) →
    (e.displayed.value standard scope).toOption = (e.value standard scope).toOption
  | number text => rfl
  | reference name => rfl
  | constant name => rfl
  | prefixed symbol operand => by
    rw [displayed, value, value, value_groupedIf]
    exact toOption_bind (toOption_value_displayed operand) fun _ => rfl
  | binary symbol left right => by
    rw [displayed, value, value, value_groupedIf]
    refine toOption_bind (toOption_value_displayed left) fun a => ?_
    exact toOption_bind (toOption_value_displayed right) fun b => rfl
  | group inner => by
    rw [displayed, value, value]
    exact toOption_value_displayed inner
  | call name args => by
    rw [toOption_value_displayed_call, value, value]
    exact toOption_bind (toOption_values_displayed args) fun xs => rfl

/-- Displayed trees are worth what the trees are. -/
theorem toOption_values_displayed : (es : List Expr) →
    (values standard scope (displayedAll es)).toOption = (values standard scope es).toOption
  | [] => rfl
  | e :: es => by
    rw [displayedAll, values, values]
    refine toOption_bind (toOption_value_displayed e) fun x => ?_
    exact toOption_bind (toOption_values_displayed es) fun xs => rfl

end

end

/-! ### Readable trees -/

/-- Whether the base of every power in an expression stands alone. -/
def PowersStandAlone (e : Expr) : Prop :=
  ∀ p ∈ e.parts, ∀ base exponent, p.power? = some (base, exponent) → base.standsAlone = true

/-- Whether the powers of a tree stand alone is seen from its parts. -/
instance : DecidablePred PowersStandAlone :=
  fun e => decidable_of_iff
    (e.parts.all (fun p => p.power?.all fun power => power.1.standsAlone) = true) <| by
      simp [PowersStandAlone, Option.all_eq_true]

/-- Whether a legible tree is displayed in such a way that it is read back. -/
structure Readable (e : Expr) : Prop extends Legible e where
  alone : e.PowersStandAlone

/-- So are its parts. -/
theorem hereditary_readable : Hereditary Readable where
  prefixed h := ⟨hereditary_legible.prefixed h.toLegible,
    fun p hp => h.alone p (parts_subset_prefixed _ _ hp)⟩
  binary h :=
    have hparts := hereditary_legible.binary h.toLegible
    ⟨⟨hparts.1, fun p hp => h.alone p (parts_subset_left _ _ _ hp)⟩,
      hparts.2, fun p hp => h.alone p (parts_subset_right _ _ _ hp)⟩
  group h := ⟨hereditary_legible.group h.toLegible,
    fun p hp => h.alone p (List.mem_cons_of_mem _ hp)⟩
  call h arg harg := ⟨hereditary_legible.call h.toLegible arg harg,
    fun p hp => h.alone p (parts_subset_call _ _ (mem_partsOfAll.2 ⟨arg, harg, hp⟩))⟩

/-- Base and exponent of a legible power are legible. -/
theorem Legible.of_power? {p base exponent : Expr} (h : p.Legible)
    (hpower : p.power? = some (base, exponent)) : base.Legible ∧ exponent.Legible := by
  unfold power? at hpower
  split at hpower
  · obtain ⟨rfl, rfl⟩ := Prod.mk.inj (Option.some.inj hpower)
    exact hereditary_legible.binary h
  · obtain ⟨rfl, rfl⟩ := Prod.mk.inj (Option.some.inj hpower)
    have hargs := hereditary_legible.call h
    exact ⟨hargs _ List.mem_cons_self, hargs _ (by simp)⟩
  · cases hpower

/-- A power is displayed with its base in parentheses if that is an operation. -/
theorem displayed_of_power? {p base exponent : Expr} (h : p.power? = some (base, exponent)) :
    p.displayed =
      binary "^" (groupedIf (base.shape == .binary) base.displayed) exponent.displayed := by
  unfold power? at h
  split at h
  · obtain ⟨rfl, rfl⟩ := Prod.mk.inj (Option.some.inj h)
    rw [displayed]
    rfl
  · obtain ⟨rfl, rfl⟩ := Prod.mk.inj (Option.some.inj h)
    rw [displayed]
  · cases h

end Expr

namespace Latex

open LiveSheet.Expr (Level Derives)

/-- Whether a formula is read as a tree where one of a level of the grammar is wanted. -/
def ReadsAt : Level → String → Expr → Prop
  | .sum => ReadsChain .sum
  | .product => ReadsChain .product
  | .power | .factor => ReadsSigned

/-- Every level is one of sums. -/
theorem ReadsAt.sum {level : Level} {s : String} {e : Expr} (h : ReadsAt level s e) :
    ReadsChain .sum s e := by
  cases level with
  | sum => exact h
  | product => exact h.operand.chain
  | power | factor => exact ReadsSigned.sum h

/-- Whether what an expression is set as is read as it is displayed, and as an atom if it can be the
base of a power as it stands. -/
structure ReadsBack (level : Level) (e : Expr) : Prop where
  reads : ReadsAt level (ofExpr standard e) e.displayed
  atom : e.shape ≠ .binary → e.standsAlone = true → ReadsAtom (ofExpr standard e) e.displayed

/-- What is read back as an atom is read back as a factor. -/
theorem ReadsBack.ofAtom {e : Expr} (h : ReadsAtom (ofExpr standard e) e.displayed) :
    ReadsBack .factor e :=
  ⟨h.signed, fun _ _ => h⟩

/-- What stands before a superscript is read as an atom. -/
theorem ReadsBack.base {level : Level} {base : Expr} (h : ReadsBack level base)
    (halone : base.standsAlone = true) :
    ReadsAtom (baseLatex base) (.groupedIf (base.shape == .binary) base.displayed) := by
  unfold baseLatex
  split
  · next hshape =>
    rw [hshape]
    exact h.reads.sum.group
  · next hshape =>
    rw [show (base.shape == .binary) = false from beq_eq_false_iff_ne.2 hshape]
    exact h.atom hshape halone

/-- A power is read back if its base stands alone. -/
theorem ReadsBack.power {level level' : Level} {p base exponent : Expr}
    (hpower : p.power? = some (base, exponent)) (hbase : ReadsBack level base)
    (hexponent : ReadsBack level' exponent) (halone : base.standsAlone = true) :
    ReadsSigned (ofExpr standard p) p.displayed := by
  rw [ofExpr_power hpower, Expr.displayed_of_power? hpower]
  exact (hbase.base halone).power hexponent.reads.sum

/-- An operation of a chain is set with the sign of its operator. -/
theorem ReadsBack.operation {chain : Chain} {symbol sign : String} {left right : Expr}
    (hsign : (symbol, sign) ∈ chain.signs)
    (hleft : ReadsChain chain (ofExpr standard left) left.displayed)
    (hright : ReadsOperand chain (ofExpr standard right) right.displayed) :
    ReadsChain chain (ofExpr standard (.binary symbol left right))
      (Expr.binary symbol left right).displayed := by
  obtain ⟨hlatex, hpower⟩ : ofExpr standard (.binary symbol left right) =
      infixRule sign [⟨ofExpr standard left, left.shape⟩, ⟨ofExpr standard right, right.shape⟩] ∧
        symbol ≠ "^" := by
    cases chain with
    | sum | product =>
      simp only [Chain.signs, List.mem_cons, Prod.mk.injEq, List.not_mem_nil, or_false] at hsign
      rcases hsign with ⟨rfl, rfl⟩ | ⟨rfl, rfl⟩
      all_goals exact ⟨rfl, by decide⟩
  have hspaced : infixRule sign [⟨ofExpr standard left, left.shape⟩,
      ⟨ofExpr standard right, right.shape⟩] =
        ofExpr standard left ++ spaced sign ++ ofExpr standard right := by
    simp only [infixRule, spaced, String.append_assoc]
  rw [hlatex, hspaced, Expr.displayed_binary hpower]
  exact hleft.operation hsign hright

/-- A quotient is set as an atom. -/
theorem readsAtom_quotient {left right : Expr}
    (hleft : ReadsChain .sum (ofExpr standard left) left.displayed)
    (hright : ReadsChain .sum (ofExpr standard right) right.displayed) :
    ReadsAtom (ofExpr standard (.binary "/" left right))
      (Expr.binary "/" left right).displayed := by
  rw [Expr.displayed_binary (by decide)]
  exact hleft.fraction hright

/-- A minus sign is set before its operand, which gets parentheses if it is compound. -/
theorem ReadsBack.negation {operand : Expr} (h : ReadsBack .factor operand) :
    ReadsSigned (ofExpr standard (.prefixed "-" operand))
      (Expr.prefixed "-" operand).displayed := by
  show ReadsSigned ("-" ++ if operand.shape.isCompound then fenced (ofExpr standard operand)
    else ofExpr standard operand) (Expr.prefixed "-" operand).displayed
  rw [Expr.displayed, Expr.groupedIf]
  split
  · exact h.reads.sum.group.signed.negated
  · exact ReadsSigned.negated h.reads

/-- A call that is not one of `pow` is read as an atom. -/
theorem readsAtom_of_setCall {name latex : String} {args : List Expr}
    (hset : SetCall name args latex) (hname : takeName? name.toList = some (name.toList, []))
    (hpow : name ≠ "pow")
    (hargs : ∀ arg ∈ args, ReadsChain .sum (ofExpr standard arg) arg.displayed) :
    ReadsAtom latex (.call name (args.map Expr.displayed)) := by
  cases hset with
  | power => exact absurd rfl hpow
  | root operand => exact (hargs operand (List.mem_singleton_self _)).root
  | logarithm operand base =>
    exact (hargs base (by simp)).logarithm (hargs operand List.mem_cons_self)
  | named hword operand => exact (hargs operand (List.mem_singleton_self _)).named hword
  | plain =>
    refine readsAtom_call hname ?_
    rw [List.forall₂_map_left_iff, List.forall₂_map_right_iff, List.forall₂_same]
    exact hargs

/-- A call of `pow` has a base and an exponent. -/
theorem SetCall.args_of_pow {name latex : String} {args : List Expr} (h : SetCall name args latex)
    (hpow : name = "pow") : ∃ base exponent, args = [base, exponent] := by
  cases h with
  | power base exponent => exact ⟨base, exponent, rfl⟩
  | root | logarithm => exact absurd hpow (by decide)
  | named hword => exact absurd hpow (ne_pow_of_mem_commands hword)
  | plain hne => exact absurd hpow hne

/-- A call is read back if its arguments are. -/
theorem readsBack_call {name : String} {args : List Expr}
    (hreadable : (Expr.call name args).Readable) (hargs : ∀ arg ∈ args, ReadsBack .sum arg) :
    ReadsBack .factor (.call name args) := by
  by_cases hpow : name = "pow"
  · subst hpow
    obtain ⟨base, exponent, rfl⟩ := (setCall_ofExpr hreadable.toLegible).args_of_pow rfl
    have hpower : (Expr.call "pow" [base, exponent]).power? = some (base, exponent) := rfl
    refine ⟨?_, nofun⟩
    exact (hargs base List.mem_cons_self).power hpower (hargs exponent (by simp))
      (hreadable.alone _ (Expr.mem_parts _) base exponent hpower)
  · refine .ofAtom ?_
    rw [Expr.displayed_call hpow]
    exact readsAtom_of_setCall (setCall_ofExpr hreadable.toLegible) hreadable.isFunction.1 hpow
      fun arg harg => (hargs arg harg).reads

/-- Every tree of the grammar is read back as it is displayed if it is readable. -/
theorem readsBack {level : Level} {e : Expr} (h : Derives level e) (hreadable : e.Readable) :
    ReadsBack level e := by
  -- A tree stands where its level is wanted, so the induction is on how the grammar makes it.
  induction h with
  | term _ ih => exact ⟨(ih hreadable).reads.operand.chain, (ih hreadable).atom⟩
  | power _ ih => exact ⟨(ih hreadable).reads.operand.chain, (ih hreadable).atom⟩
  | factor _ ih => exact ⟨(ih hreadable).reads, (ih hreadable).atom⟩
  | addition hsymbol _ _ ihleft ihright =>
    obtain ⟨hleft, hright⟩ := Expr.hereditary_readable.binary hreadable
    refine ⟨?_, fun hshape => absurd rfl hshape⟩
    have hsum := (ihleft hleft).reads
    have hproduct := (ihright hright).reads.operand
    rcases List.mem_pair.1 hsymbol with rfl | rfl
    · exact ReadsBack.operation (show ("+", "+") ∈ Chain.sum.signs by decide) hsum hproduct
    · exact ReadsBack.operation (show ("-", "-") ∈ Chain.sum.signs by decide) hsum hproduct
  | @multiplication symbol left right hsymbol _ _ ihleft ihright =>
    obtain ⟨hleft, hright⟩ := Expr.hereditary_readable.binary hreadable
    have hproduct := (ihleft hleft).reads
    have hpower := (ihright hright).reads
    refine ⟨?_, fun hshape => absurd rfl hshape⟩
    simp only [List.mem_cons, List.not_mem_nil, or_false] at hsymbol
    rcases hsymbol with rfl | rfl | rfl
    · exact ReadsBack.operation (show ("*", "\\cdot") ∈ Chain.product.signs by decide) hproduct
        hpower.operand
    · exact (readsAtom_quotient hproduct.sum hpower.sum).signed.operand.chain
    · exact ReadsBack.operation (show ("%", "\\bmod") ∈ Chain.product.signs by decide) hproduct
        hpower.operand
  | @exponentiation base exponent _ _ ihbase ihexponent =>
    obtain ⟨hbase, hexponent⟩ := Expr.hereditary_readable.binary hreadable
    have hpower : (Expr.binary "^" base exponent).power? = some (base, exponent) := rfl
    refine ⟨?_, fun hshape => absurd rfl hshape⟩
    exact (ihbase hbase).power hpower (ihexponent hexponent)
      (hreadable.alone _ (Expr.mem_parts _) base exponent hpower)
  | negation _ ih => exact ⟨(ih (Expr.hereditary_readable.prefixed hreadable)).negation, nofun⟩
  | number text => exact .ofAtom (readsAtom_number hreadable.isNumber)
  | reference name => exact .ofAtom (readsAtom_reference hreadable.isName)
  | constant name =>
    obtain rfl := hreadable.eq_pi
    exact .ofAtom readsAtom_pi
  | group _ ih =>
    have hinner := ih (Expr.hereditary_readable.group hreadable)
    exact .ofAtom hinner.reads.group
  | call name _ ih =>
    exact readsBack_call hreadable fun arg harg =>
      ih arg harg (Expr.hereditary_readable.call hreadable arg harg)

end Latex

/-! ### Bases of powers -/

namespace Expr

/-- Whether an expression is a minus sign with its operand, or a power. -/
def IsSignedOrPower : Expr → Prop
  | prefixed .. => True
  | binary symbol .. => symbol = "^"
  | _ => False

/-- Whether no superscript stands behind a signed operand or another power. -/
def PowersOverAtoms (e : Expr) : Prop :=
  ∀ base exponent, binary "^" base exponent ∈ e.parts → ¬ base.IsSignedOrPower

/-- An operation other than a power over a sign or a power. -/
theorem PowersOverAtoms.binary {symbol : String} {left right : Expr} (hleft : left.PowersOverAtoms)
    (hright : right.PowersOverAtoms) (hsymbol : symbol = "^" → ¬ left.IsSignedOrPower) :
    (binary symbol left right).PowersOverAtoms := by
  intro base exponent h
  rw [parts, List.mem_cons, List.mem_append] at h
  rcases h with h | h | h
  · obtain ⟨hpower, rfl, rfl⟩ := binary.inj h
    exact hsymbol hpower.symm
  · exact hleft base exponent h
  · exact hright base exponent h

/-- A sign adds no power. -/
theorem PowersOverAtoms.prefixed {symbol : String} {operand : Expr} (h : operand.PowersOverAtoms) :
    (prefixed symbol operand).PowersOverAtoms := by
  intro base exponent hmem
  rw [parts, List.mem_cons] at hmem
  exact h base exponent (hmem.resolve_left (by simp))

/-- Parentheses add no power. -/
theorem PowersOverAtoms.group {inner : Expr} (h : inner.PowersOverAtoms) :
    (group inner).PowersOverAtoms := by
  intro base exponent hmem
  rw [parts, List.mem_cons] at hmem
  exact h base exponent (hmem.resolve_left (by simp))

/-- A call adds no power. -/
theorem PowersOverAtoms.call (name : String) {args : List Expr}
    (h : ∀ arg ∈ args, arg.PowersOverAtoms) : (call name args).PowersOverAtoms := by
  intro base exponent hmem
  rw [parts, List.mem_cons] at hmem
  obtain ⟨arg, harg, hmem⟩ := mem_partsOfAll.1 (hmem.resolve_left (by simp))
  exact h arg harg base exponent hmem

/-- Whether such an expression can stand before a superscript itself. -/
structure IsBase (e : Expr) : Prop where
  powers : e.PowersOverAtoms
  atom : ¬ e.IsSignedOrPower

/-- A number may be raised. -/
theorem isBase_number (text : String) : (number text).IsBase :=
  ⟨by simp [PowersOverAtoms, parts], id⟩

/-- A reference may be raised. -/
theorem isBase_reference (name : String) : (reference name).IsBase :=
  ⟨by simp [PowersOverAtoms, parts], id⟩

/-- A constant may be raised. -/
theorem isBase_constant (name : String) : (constant name).IsBase :=
  ⟨by simp [PowersOverAtoms, parts], id⟩

/-- What stands in parentheses may be raised. -/
theorem PowersOverAtoms.isBase_group {inner : Expr} (h : inner.PowersOverAtoms) :
    (Expr.group inner).IsBase :=
  ⟨h.group, id⟩

/-- A fraction may be raised. -/
theorem PowersOverAtoms.isBase_quotient {left right : Expr} (hleft : left.PowersOverAtoms)
    (hright : right.PowersOverAtoms) : (Expr.binary "/" left right).IsBase :=
  ⟨hleft.binary hright (absurd · (by decide)), by simp [IsSignedOrPower]⟩

/-- A call may be raised. -/
theorem isBase_call (name : String) {args : List Expr} (h : ∀ arg ∈ args, arg.PowersOverAtoms) :
    (call name args).IsBase :=
  ⟨.call name h, id⟩

end Expr

namespace Latex

open LiveSheet.Expr (PowersOverAtoms IsBase isBase_number isBase_reference isBase_constant
  isBase_call)

/-- Whether all that can be read is of a kind. -/
def Gives {α : Type} (P : α → Prop) (x : Option (α × List Char)) : Prop :=
  ∀ result, x = some result → P result.1

section

variable {α β γ : Type} {P : α → Prop} {Q : β → Prop}

/-- A reader that fails gives nothing to check. -/
theorem gives_none : Gives P none :=
  fun _ h => nomatch h

/-- A reader that succeeds gives what it has read. -/
theorem gives_some {a : α} (h : P a) (rest : List Char) : Gives P (some (a, rest)) := by
  intro result heq
  obtain rfl := Option.some.inj heq
  exact h

/-- What is read behind something that has been read. -/
theorem Gives.bind {x : Option (α × List Char)} {next : α × List Char → Option (β × List Char)}
    (h : Gives P x) (hnext : ∀ a rest, P a → Gives Q (next (a, rest))) : Gives Q (x >>= next) := by
  intro result hresult
  obtain ⟨⟨a, rest⟩, ha, hb⟩ := Option.bind_eq_some_iff.1 hresult
  exact hnext a rest (h _ ha) result hb

/-- What is read behind a sign. -/
theorem gives_behind {x : Option γ} {next : γ → Option (β × List Char)}
    (hnext : ∀ c, Gives Q (next c)) : Gives Q (x >>= next) := by
  intro result hresult
  obtain ⟨c, -, hb⟩ := Option.bind_eq_some_iff.1 hresult
  exact hnext c result hb

end

/-- No operator of a chain is that of powers. -/
theorem ne_power_of_operator? {chain : Chain} {cs rest : List Char} {symbol : String}
    (h : chain.operator? cs = some (symbol, rest)) : symbol ≠ "^" := by
  have hcommands : ∀ entry ∈ commands, entry.2 ≠ .operator "^" :=
    Decimal.forall_mem_of_all (by decide)
  rintro rfl
  cases chain with
  | sum =>
    rw [Chain.operator?] at h
    split at h
    all_goals simp at h
  | product =>
    rw [Chain.operator?] at h
    split at h
    · next symbol rest' hcommand =>
      obtain ⟨rfl, rfl⟩ := Prod.mk.inj (Option.some.inj h)
      unfold command? at hcommand
      split at hcommand
      · obtain ⟨entry, hentry, heq⟩ := Option.map_eq_some_iff.1 hcommand
        exact hcommands entry (List.mem_of_find?_eq_some hentry) (Prod.mk.inj heq).1
      · cases hcommand
    · cases h

section

variable {inner : Reader Expr} (h : ∀ cs, Gives PowersOverAtoms (inner cs))

include h

/-- What is read in braces has powers over atoms only. -/
theorem gives_readBraced (cs : List Char) : Gives PowersOverAtoms (readBraced inner cs) := by
  refine gives_behind fun rest => (h rest).bind fun e rest he => ?_
  exact gives_behind fun rest => gives_some he rest

/-- What is read between parentheses has powers over atoms only. -/
theorem gives_readFenced (cs : List Char) : Gives PowersOverAtoms (readFenced inner cs) := by
  refine gives_behind fun rest => (h rest).bind fun e rest he => ?_
  exact gives_behind fun rest => gives_some he rest

/-- Further arguments have powers over atoms only. -/
theorem gives_readArgumentsTail (cs : List Char) :
    Gives (fun args => ∀ e ∈ args, PowersOverAtoms e) (readArgumentsTail inner cs) := by
  induction cs using readArgumentsTail.induct with
  | case1 cs rest hseparator ih =>
    rw [readArgumentsTail, hseparator]
    refine (h rest).bind fun next rest hnext => ?_
    dsimp only
    split
    · next hshorter =>
      refine (ih rest hshorter).bind fun more rest hmore => ?_
      exact gives_some (List.forall_mem_cons.2 ⟨hnext, hmore⟩) rest
    · exact gives_none
  | case2 cs hseparator =>
    rw [readArgumentsTail, hseparator]
    exact gives_behind fun rest => gives_some (List.forall_mem_nil _) rest

/-- Arguments have powers over atoms only. -/
theorem gives_readArguments (cs : List Char) :
    Gives (fun args => ∀ e ∈ args, PowersOverAtoms e) (readArguments inner cs) := by
  unfold readArguments
  split
  · exact gives_some (List.forall_mem_nil _) _
  · refine (h cs).bind fun first rest hfirst => ?_
    refine (gives_readArgumentsTail h rest).bind fun more rest hmore => ?_
    exact gives_some (List.forall_mem_cons.2 ⟨hfirst, hmore⟩) rest

/-- What is read as an atom can stand before a superscript. -/
theorem gives_readAtom (cs : List Char) : Gives IsBase (readAtom inner cs) := by
  unfold readAtom
  split
  · -- The cases are those of the reader: a group, a fraction, a root, a logarithm with its base, a
    -- constant, a command of one operand, two dead ends, and last a numeral or a word.
    exact (gives_readFenced h cs).bind fun e rest he => gives_some he.isBase_group rest
  · refine (gives_readBraced h _).bind fun left rest hleft => ?_
    refine (gives_readBraced h rest).bind fun right rest hright => ?_
    exact gives_some (hleft.isBase_quotient hright) rest
  · refine (gives_readBraced h _).bind fun operand rest hoperand => ?_
    exact gives_some (isBase_call "sqrt" (List.forall_mem_singleton.2 hoperand)) rest
  · refine gives_behind fun rest => (gives_readBraced h rest).bind fun base rest hbase => ?_
    refine (gives_readFenced h rest).bind fun operand rest hoperand => ?_
    have hargs := List.forall_mem_cons.2 ⟨hoperand, List.forall_mem_singleton.2 hbase⟩
    exact gives_some (isBase_call "log" hargs) rest
  · exact gives_some (isBase_constant _) _
  · refine (gives_readFenced h _).bind fun operand rest hoperand => ?_
    exact gives_some (isBase_call _ (List.forall_mem_singleton.2 hoperand)) rest
  · exact gives_none
  · exact gives_none
  · split
    · exact gives_some (isBase_number _) _
    · refine gives_behind fun word => ?_
      dsimp only
      split
      · refine (gives_readArguments h _).bind fun args rest hargs => ?_
        exact gives_some (isBase_call _ hargs) rest
      · exact gives_some (isBase_reference _) _

/-- A superscript is read behind an atom only, and a second one not at all. -/
theorem gives_readPower (cs : List Char) : Gives PowersOverAtoms (readPower inner cs) := by
  refine (gives_readAtom h cs).bind fun base rest hbase => ?_
  dsimp only
  split
  · refine (gives_readBraced h _).bind fun exponent rest hexponent => ?_
    dsimp only
    split
    · exact gives_none
    · exact gives_some (hbase.powers.binary hexponent fun _ => hbase.atom) rest
  · exact gives_some hbase.powers rest

/-- What is read behind signs has powers over atoms only. -/
theorem gives_readSigned (cs : List Char) : Gives PowersOverAtoms (readSigned inner cs) := by
  fun_induction readSigned inner cs with
  | case1 cs ih => exact ih
  | case2 cs ih => exact ih.bind fun operand rest hoperand => gives_some hoperand.prefixed rest
  | case3 cs => exact gives_readPower h cs

end

section

variable {operand : Reader Expr} (h : ∀ cs, Gives PowersOverAtoms (operand cs)) (chain : Chain)

include h

/-- The rest of a chain of operations adds powers over atoms only. -/
theorem gives_readChainTail {left : Expr} (hleft : left.PowersOverAtoms) (cs : List Char) :
    Gives PowersOverAtoms (readChainTail chain operand left cs) := by
  induction left, cs using readChainTail.induct chain with
  | case1 left cs symbol rest hoperator ih =>
    rw [readChainTail, hoperator]
    refine (h rest).bind fun right rest hright => ?_
    dsimp only
    split
    · next hshorter =>
      refine ih right rest hshorter (hleft.binary hright fun hpower => ?_)
      exact absurd hpower (ne_power_of_operator? hoperator)
    · exact gives_none
  | case2 left cs hoperator =>
    rw [readChainTail, hoperator]
    exact gives_some hleft cs

/-- A chain of operations has powers over atoms only. -/
theorem gives_readChain (cs : List Char) : Gives PowersOverAtoms (readChain chain operand cs) :=
  (h cs).bind fun _ rest hfirst => gives_readChainTail h chain hfirst rest

end

/-- A sum has powers over atoms only. -/
theorem gives_readSum (cs : List Char) : Gives PowersOverAtoms (readSum cs) := by
  induction cs using readSum.induct with
  | case1 cs ih =>
    -- What is between brackets is shorter, or is not read.
    have hinner : ∀ rest, Gives PowersOverAtoms (readWithin cs.length rest) := by
      intro rest
      unfold readWithin
      split
      · next hshorter => exact ih rest hshorter
      · exact gives_none
    rw [readSum_eq]
    exact gives_readChain (gives_readChain (gives_readSigned hinner) .product) .sum cs

end Latex

/-! ### What is not read back -/

namespace Expr

/-- A tree without further parts has no further powers. -/
theorem PowersOverAtoms.of_subset {e e' : Expr} (h : e'.PowersOverAtoms)
    (hsubset : e.parts ⊆ e'.parts) : e.PowersOverAtoms :=
  fun base exponent hmem => h base exponent (hsubset hmem)

/-- A tree in parentheses keeps its parts. -/
theorem parts_subset_groupedIf (grouped : Bool) (e : Expr) :
    e.parts ⊆ (groupedIf grouped e).parts := by
  cases grouped with
  | false => exact List.Subset.refl _
  | true => exact List.subset_cons_self _ _

/-- What is displayed of a part is a part of what is displayed. -/
theorem hereditary_displayed : Hereditary fun e => e.displayed.PowersOverAtoms where
  prefixed h := by
    rw [displayed] at h
    exact (h.of_subset (parts_subset_prefixed _ _)).of_subset (parts_subset_groupedIf _ _)
  binary h := by
    rw [displayed] at h
    exact ⟨(h.of_subset (parts_subset_left _ _ _)).of_subset (parts_subset_groupedIf _ _),
      h.of_subset (parts_subset_right _ _ _)⟩
  group h := by
    rw [displayed] at h
    exact h.of_subset (List.subset_cons_self _ _)
  call := by
    intro name args h arg harg
    by_cases hpow : ∃ base exponent, name = "pow" ∧ args = [base, exponent]
    · obtain ⟨base, exponent, rfl, rfl⟩ := hpow
      rw [displayed] at h
      rcases List.mem_pair.1 harg with rfl | rfl
      · exact (h.of_subset (parts_subset_left _ _ _)).of_subset (parts_subset_groupedIf _ _)
      · exact h.of_subset (parts_subset_right _ _ _)
    · rw [displayed, displayedAll_eq_map] at h
      · refine h.of_subset fun p hp => parts_subset_call _ _ (mem_partsOfAll.2 ⟨_, ?_, hp⟩)
        exact List.mem_map_of_mem harg
      · exact fun base exponent hname hargs => hpow ⟨base, exponent, hname, hargs⟩

/-- What does not stand alone is displayed as a signed operand or a power. -/
theorem isSignedOrPower_displayed {base : Expr} (h : base.Legible)
    (halone : base.standsAlone = false) : base.displayed.IsSignedOrPower := by
  cases base with
  | prefixed symbol operand =>
    rw [displayed]
    trivial
  | call name args =>
    obtain rfl : name = "pow" := bne_eq_false_iff_eq.1 halone
    obtain ⟨base, exponent, rfl⟩ := (Latex.setCall_ofExpr h).args_of_pow rfl
    rw [displayed]
    rfl
  | number | reference | constant | binary | group => cases halone

/-- If what is displayed has only atoms as bases, all bases stand alone. -/
theorem powersStandAlone_of_displayed {e : Expr} (h : e.Legible)
    (hdisplayed : e.displayed.PowersOverAtoms) : e.PowersStandAlone := by
  -- A base that does not stand alone gets no parentheses, so a superscript is displayed behind it.
  intro p hp base exponent hpower
  by_contra hnot
  have halone : base.standsAlone = false := Bool.not_eq_true _ ▸ hnot
  have hlegible := hereditary_legible.of_mem_parts e h hp
  have hover := hereditary_displayed.of_mem_parts e hdisplayed hp
  have hshape : (base.shape == .binary) = false := by
    cases base with
    | binary => cases halone
    | number | reference | constant | prefixed | group | call => rfl
  rw [displayed_of_power? hpower, hshape] at hover
  exact hover _ _ (mem_parts _) (isSignedOrPower_displayed (hlegible.of_power? hpower).1 halone)

end Expr

namespace Latex

/-- Whatever is read back has powers over atoms only. -/
theorem powersOverAtoms_of_read {s : String} {e : Expr} (h : read s = some e) :
    e.PowersOverAtoms := by
  obtain ⟨result, hresult, h⟩ := Option.bind_eq_some_iff.1 h
  have hover := gives_readSum s.toList result hresult
  dsimp only at h
  split at h
  · obtain rfl := Option.some.inj h
    exact hover
  · cases h

/-- A text is set as the tree that it is strictly read as. -/
theorem ofText_of_parse {r : Registry} {text : String} {e : Expr}
    (hparse : Expr.parse .strict (r.tokens text) = .ok e) : ofText r text = ofExpr r e := by
  have hlenient : Expr.parse .lenient (r.tokens text) = .ok e := by
    by_cases hne : r.tokens text = []
    · rw [hne] at hparse ⊢
      exact hparse
    · exact Expr.parse_lenient_of_strict hne (Lexer.callsOpen_tokens _ text) hparse
  rw [ofText, ofTokens, hlenient]

/-- Every power in a text stands in the formula as its base with the exponent as a superscript, and
the base is set apart if and only if it stands alone. The formula is read as what is displayed of
the tree if and only if all bases stand alone, and that has the value of the tree. -/
theorem powers_read_back (text : String) {e : Expr}
    (hparse : Expr.parse .strict (standard.tokens text) = .ok e)
    (hcalls : e.callsFull standard = true) :
    (∀ p ∈ e.parts, ∀ base exponent, p.power? = some (base, exponent) →
      StandsIn (ofExpr standard p) (ofText standard text) ∧
      ofExpr standard p = baseLatex base ++ "^" ++ braced (ofExpr standard exponent) ∧
      (SetApart base ↔ base.standsAlone = true)) ∧
    (read (ofText standard text) = some e.displayed ↔ e.PowersStandAlone) ∧
    ∀ scope, (e.displayed.value standard scope).toOption = (e.value standard scope).toOption := by
  have hlegible := Expr.legible_of_parse hparse hcalls
  have htext := ofText_of_parse hparse
  refine ⟨fun p hp base exponent hpower => ⟨?_, ofExpr_power hpower, ?_⟩, ?_, fun scope =>
    Expr.toOption_value_displayed e⟩
  · rw [htext]
    exact standsIn_of_mem_parts hlegible hp
  · have hp := Expr.hereditary_legible.of_mem_parts e hlegible hp
    exact setApart_iff (hp.of_power? hpower).1
  · rw [htext]
    constructor
    · intro hread
      exact Expr.powersStandAlone_of_displayed hlegible (powersOverAtoms_of_read hread)
    · intro halone
      exact (readsBack hlegible.derives ⟨hlegible, halone⟩).reads.whole

/-- Powers of a sum, of a group and of a call, with a minus sign in an exponent. -/
def powersTree : Expr :=
  .binary "-"
    (.binary "*" (.call "pow" [.binary "+" (.reference "A") (.number "1"), .number "2"])
      (.binary "^" (.group (.prefixed "-" (.reference "B"))) (.number "2")))
    (.binary "^" (.call "sqrt" [.number "2"]) (.prefixed "-" (.constant "pi")))

/-- A text with powers over a sum and over a sign in parentheses, which are read back. -/
theorem powers_read_back_powersTree :
    Expr.parse .strict (standard.tokens "pow(A + 1, 2) * (-B) ^ 2 - sqrt(2) ^ -pi") =
        .ok powersTree ∧
      powersTree.callsFull standard = true ∧
      ofText standard "pow(A + 1, 2) * (-B) ^ 2 - sqrt(2) ^ -pi" =
        "\\left(A + 1\\right)^\x7b2\x7d \\cdot " ++
          "\\left(-B\\right)^\x7b2\x7d - \\sqrt\x7b2\x7d^\x7b-\\pi\x7d" ∧
      read (ofText standard "pow(A + 1, 2) * (-B) ^ 2 - sqrt(2) ^ -pi") =
        some powersTree.displayed := by
  have htokens : standard.tokens "pow(A + 1, 2) * (-B) ^ 2 - sqrt(2) ^ -pi" =
      [ ⟨.function, "pow"⟩, .openParen, ⟨.reference, "A"⟩, ⟨.operator, "+"⟩, ⟨.number, "1"⟩,
        ⟨.comma, ","⟩, ⟨.number, "2"⟩, .closeParen, ⟨.operator, "*"⟩, .openParen, ⟨.operator, "-"⟩,
        ⟨.reference, "B"⟩, .closeParen, ⟨.operator, "^"⟩, ⟨.number, "2"⟩, ⟨.operator, "-"⟩,
        ⟨.function, "sqrt"⟩, .openParen, ⟨.number, "2"⟩, .closeParen, ⟨.operator, "^"⟩,
        ⟨.operator, "-"⟩, ⟨.constant, "pi"⟩ ] := by
    decide +kernel
  have hparse : Expr.parse .strict
      (standard.tokens "pow(A + 1, 2) * (-B) ^ 2 - sqrt(2) ^ -pi") = .ok powersTree := by
    rw [htokens]
    cbv
  have hcalls : powersTree.callsFull standard = true := by decide
  obtain ⟨-, hread, -⟩ := powers_read_back _ hparse hcalls
  exact ⟨hparse, hcalls, by decide +kernel, hread.2 (by decide)⟩

/-- The square of a negative number. -/
def minusSquared : Expr :=
  .binary "^" (.prefixed "-" (.number "2")) (.number "2")

/-- It is set without parentheses, and read as what is subtracted from 0. -/
theorem not_setApart_minusSquared :
    Expr.parse .strict (standard.tokens "-2^2") = .ok minusSquared ∧
      minusSquared.callsFull standard = true ∧ ofText standard "-2^2" = "-2^\x7b2\x7d" ∧
      minusSquared.power? = some (.prefixed "-" (.number "2"), .number "2") ∧
      ¬ SetApart (.prefixed "-" (.number "2")) ∧
      read "-2^\x7b2\x7d" = some (.prefixed "-" (.binary "^" (.number "2") (.number "2"))) ∧
      read (ofText standard "-2^2") ≠ some minusSquared.displayed := by
  have htokens : standard.tokens "-2^2" =
      [⟨.operator, "-"⟩, ⟨.number, "2"⟩, ⟨.operator, "^"⟩, ⟨.number, "2"⟩] := by
    decide +kernel
  have hparse : Expr.parse .strict (standard.tokens "-2^2") = .ok minusSquared := by
    rw [htokens]
    cbv
  have hcalls : minusSquared.callsFull standard = true := by decide
  have hlegible := Expr.legible_of_parse hparse hcalls
  have hlatex : ofText standard "-2^2" = "-2^\x7b2\x7d" := by decide +kernel
  have hread : read "-2^\x7b2\x7d" =
      some (.prefixed "-" (.binary "^" (.number "2") (.number "2"))) := by
    have htwo : ReadsAtom "2" (.number "2") := readsAtom_number (by decide)
    exact (htwo.power htwo.signed.sum).negated.sum.whole
  -- A number behind a sign does not stand alone.
  refine ⟨hparse, hcalls, hlatex, rfl, fun hset => ?_, hread, ?_⟩
  · have halone := (setApart_iff (Expr.hereditary_legible.binary hlegible).1).1 hset
    cases halone
  · rw [hlatex, hread]
    simp [minusSquared, Expr.displayed]

end Latex

end LiveSheet
