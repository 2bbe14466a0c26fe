import LiveSheet.Proofs.Height
import Mathlib.Combinatorics.Enumerative.DyckWord

/-!
# What postfix order keeps

Whatever the tokens are, postfix order loses none of them and makes up none: it writes every
operand, operator and function once, and the operands in the order in which they stand. The only
thing that can be wrong is the parentheses. `order_spec` says that ordering fails exactly where the
parentheses of the tokens, read alone, are no Dyck word.

The invariant is the number of parentheses that wait (`count_paren_of_advance`): only a closing
parenthesis takes one away, so it is the depth at which the parentheses of the rest begin. Operands
never wait, so every token writes its own operand and no other (`operands_of_advance`).
-/

namespace LiveSheet

/-- Whether the token is an operand of its own. -/
def Token.isOperand (t : Token) : Bool :=
  t.kind == .number || t.kind == .reference || t.kind == .constant

/-- What a token is among parentheses: a step up, a step down or nothing. -/
def Token.parenStep? (t : Token) : Option DyckStep :=
  if t.isOpenParen then some .U else if t.isCloseParen then some .D else none

/-- The parentheses of tokens, taken alone. -/
def Token.parens (ts : List Token) : List DyckStep :=
  ts.filterMap Token.parenStep?

/-- Whether the parentheses of tokens, taken alone, are balanced. -/
def Token.Balanced (ts : List Token) : Prop :=
  ∃ w : DyckWord, w.toList = Token.parens ts

namespace Postfix

variable {r : Registry}

/-! ### Operands -/

/-- What waits is no operand. -/
theorem isOperand_of_pending {p : Pending} {step : Step} (h : p.step? = some step) :
    step.token.isOperand = false := by
  cases p with
  | paren => cases h
  | _ =>
    obtain rfl := Option.some.inj h
    rfl

/-- No operand is ever pending. -/
theorem operands_of_pending (pending : List Pending) :
    ((pending.filterMap Pending.step?).map Step.token).filter Token.isOperand = [] := by
  rw [List.filter_eq_nil_iff]
  intro t ht
  obtain ⟨step, hstep, rfl⟩ := List.mem_map.1 ht
  obtain ⟨p, -, hp⟩ := List.mem_filterMap.1 hstep
  rw [isOperand_of_pending hp]
  exact Bool.false_ne_true

/-- Every operand is a part of the expression. -/
theorem filter_isOperand_isPart (ts : List Token) :
    (ts.filter Token.isPart).filter Token.isOperand = ts.filter Token.isOperand := by
  rw [List.filter_filter]
  refine List.filter_congr fun t _ => ?_
  obtain ⟨kind, text⟩ := t
  cases kind <;> rfl

/-- A token writes the operand that it is, and no other. -/
theorem operands_of_advance {free : Bool} {pending waiting : List Pending} {t : Token}
    {out : List Step} (h : advance r free pending t = .ok (out, waiting)) :
    (out.map Step.token).filter Token.isOperand = [t].filter Token.isOperand := by
  obtain ⟨taken, kept, own, written, -, -, rfl, hown, -, -⟩ := exists_taken_of_advance h
  -- Neither what has been waiting nor what begins to wait is an operand.
  calc ((taken.filterMap Pending.step? ++ written).map Step.token).filter Token.isOperand
    _ = (written.map Step.token).filter Token.isOperand := by
      rw [List.map_append, List.filter_append, operands_of_pending, List.nil_append]
    _ = ((own.filterMap Pending.step? ++ written).map Step.token).filter Token.isOperand := by
      rw [List.map_append, List.filter_append, operands_of_pending, List.nil_append]
    _ = ([t].filter Token.isPart).filter Token.isOperand := by
      rw [hown, ← map_token_stepsFrom (r := r) free [t], stepsFrom, stepsFrom, List.append_nil]
    _ = [t].filter Token.isOperand := filter_isOperand_isPart [t]

/-- Operands are written in the order in which they stand. -/
theorem operands_of_orderFrom {previous : Option Token} {pending : List Pending} {ts : List Token}
    {steps : List Step} (h : orderFrom r previous pending ts = .ok steps) :
    (steps.map Step.token).filter Token.isOperand = ts.filter Token.isOperand := by
  induction ts generalizing previous pending steps with
  | nil =>
    rw [orderFrom] at h
    split at h
    · cases h
    · obtain rfl := Except.ok.inj h
      exact operands_of_pending pending
  | cons t ts ih =>
    obtain ⟨out, waiting, back, hadvance, hback, rfl⟩ := exists_advance_of_orderFrom h
    rw [List.map_append, List.filter_append, operands_of_advance hadvance, ih hback,
      ← List.filter_append]
    rfl

/-! ### Parentheses -/

/-- Whether parentheses that begin at a depth never close more than has been opened. -/
def StaysOpen (depth : Nat) (ds : List DyckStep) : Prop :=
  ∀ i, (ds.take i).count .D ≤ depth + (ds.take i).count .U

/-- Without parentheses nothing is closed. -/
theorem staysOpen_nil (depth : Nat) : StaysOpen depth [] := by
  intro i
  rw [List.take_nil, List.count_nil]
  exact Nat.zero_le _

/-- Behind a parenthesis the rest begins at the depth that it leaves. -/
theorem staysOpen_cons {depth depth' : Nat} {d : DyckStep}
    (h : depth' + [d].count .D = depth + [d].count .U) (ds : List DyckStep) :
    StaysOpen depth (d :: ds) ↔ StaysOpen depth' ds := by
  have hcount : ∀ i e, ((d :: ds).take (i + 1)).count e = [d].count e + (ds.take i).count e := by
    intro i e
    rw [List.take_succ_cons, ← List.singleton_append, List.count_append]
  constructor
  · intro hopen i
    have := hopen (i + 1)
    rw [hcount, hcount] at this
    omega
  · intro hopen i
    cases i with
    | zero => simp
    | succ i =>
      have := hopen i
      rw [hcount, hcount]
      omega

/-- Nothing is left to close at depth 0. -/
theorem not_staysOpen_down (ds : List DyckStep) : ¬ StaysOpen 0 (.D :: ds) := by
  intro h
  have := h 1
  simp at this

/-- The parentheses of a text are those of its first token and those of the rest. -/
theorem parens_cons (t : Token) (ts : List Token) :
    Token.parens (t :: ts) = t.parenStep?.toList ++ Token.parens ts := by
  unfold Token.parens
  cases h : t.parenStep? with
  | none => exact List.filterMap_cons_none h
  | some d => exact List.filterMap_cons_some h

/-- A token that changes the depth by its parenthesis. -/
theorem staysOpen_parens {depth depth' : Nat} {t : Token}
    (h : depth' + t.parenStep?.toList.count .D = depth + t.parenStep?.toList.count .U)
    (ts : List Token) :
    StaysOpen depth (Token.parens (t :: ts)) ↔ StaysOpen depth' (Token.parens ts) := by
  rw [parens_cons]
  cases hstep : t.parenStep? with
  | none =>
    obtain rfl : depth' = depth := by simpa [hstep] using h
    rfl
  | some d =>
    rw [hstep] at h
    exact staysOpen_cons h _

/-- A token goes wrong only if it closes a parenthesis and none waits. -/
theorem advance_or_unmatched (free : Bool) (pending : List Pending) (t : Token) :
    (t.parenStep? = some .D ∧ pending.count .paren = 0 ∧
        advance r free pending t = .error .unmatchedClose) ∨
      ∃ out waiting, advance r free pending t = .ok (out, waiting) := by
  unfold advance
  cases t.kind with
  | number | reference | constant | function | comma => exact .inr ⟨_, _, rfl⟩
  | operator =>
    simp only
    split <;> exact .inr ⟨_, _, rfl⟩
  | parenthesis =>
    simp only
    split
    · exact .inr ⟨_, _, rfl⟩
    · next hopen =>
      split
      · next hclose =>
        split
        · next hfrom =>
          refine .inl ⟨by rw [Token.parenStep?, if_neg hopen, if_pos hclose], ?_, rfl⟩
          -- Nothing from a parenthesis on means that none waits.
          rw [List.count_eq_zero]
          intro hmem
          have := List.dropWhile_eq_nil_iff.1 hfrom .paren hmem
          simp at this
        · exact .inr ⟨_, _, rfl⟩
      · exact .inr ⟨_, _, rfl⟩

/-- Only parentheses change the number of parentheses that wait. -/
theorem count_paren_of_advance {free : Bool} {pending waiting : List Pending} {t : Token}
    {out : List Step} (h : advance r free pending t = .ok (out, waiting)) :
    waiting.count .paren + t.parenStep?.toList.count .D =
      pending.count .paren + t.parenStep?.toList.count .U := by
  obtain ⟨taken, kept, own, written, rfl, rfl, -, -, hclosed, hopened⟩ := exists_taken_of_advance h
  have hne : t.isOpenParen = true → t.isCloseParen = false := by
    intro hopen
    obtain rfl : t = .openParen := by simpa [Token.isOpenParen] using hopen
    rfl
  rw [List.count_append, List.count_append, hclosed, hopened, Token.parenStep?]
  split
  · next hopen =>
    rw [hne hopen]
    simp
    omega
  · split
    · simp
      omega
    · simp

/-- Ordering goes wrong at a parenthesis that closes nothing, or else at the end if some are
left. -/
theorem orderFrom_parens (previous : Option Token) (pending : List Pending) (ts : List Token) :
    (¬ StaysOpen (pending.count .paren) (Token.parens ts) ∧
        orderFrom r previous pending ts = .error .unmatchedClose) ∨
      StaysOpen (pending.count .paren) (Token.parens ts) ∧
        (pending.count .paren + (Token.parens ts).count .U ≠ (Token.parens ts).count .D ∧
            orderFrom r previous pending ts = .error .unmatchedOpen ∨
          pending.count .paren + (Token.parens ts).count .U = (Token.parens ts).count .D ∧
            ∃ steps, orderFrom r previous pending ts = .ok steps) := by
  induction ts generalizing previous pending with
  | nil =>
    -- Whatever is open at the end has not been closed.
    refine .inr ⟨staysOpen_nil _, ?_⟩
    rw [orderFrom]
    by_cases hparen : pending.contains .paren = true
    · have hpos : 0 < pending.count .paren :=
        List.count_pos_iff.2 (List.contains_iff_mem.1 hparen)
      refine .inl ⟨?_, by rw [if_pos hparen]⟩
      simp [Token.parens]
      omega
    · have hzero : pending.count .paren = 0 :=
        List.count_eq_zero.2 fun hmem => hparen (List.contains_iff_mem.2 hmem)
      refine .inr ⟨?_, _, by rw [if_neg hparen]⟩
      simp [Token.parens, hzero]
  | cons t ts ih =>
    rw [orderFrom_cons]
    rcases advance_or_unmatched (r := r) (Token.isPrefixPosition previous) pending t with
      ⟨hstep, hzero, hadvance⟩ | ⟨out, waiting, hadvance⟩
    · refine .inl ⟨?_, by rw [hadvance]; rfl⟩
      rw [hzero, parens_cons, hstep]
      exact not_staysOpen_down _
    · -- What waits behind the token is the depth at which the rest begins.
      have hdepth := count_paren_of_advance hadvance
      rw [staysOpen_parens hdepth, parens_cons, List.count_append, List.count_append, hadvance]
      rcases ih (some t) waiting with ⟨hnot, herror⟩ | ⟨hopen, ⟨hne, herror⟩ | ⟨heq, steps, hsteps⟩⟩
      · refine .inl ⟨hnot, ?_⟩
        simp only [Except.bind, herror]
        rfl
      · refine .inr ⟨hopen, .inl ⟨by omega, ?_⟩⟩
        simp only [Except.bind, herror]
        rfl
      · refine .inr ⟨hopen, .inr ⟨by omega, out ++ steps, ?_⟩⟩
        simp only [Except.bind, hsteps]
        rfl

/-- Balanced parentheses never close more than has been opened, and close it all. -/
theorem balanced_iff (ts : List Token) : Token.Balanced ts ↔
    StaysOpen 0 (Token.parens ts) ∧ (Token.parens ts).count .U = (Token.parens ts).count .D := by
  constructor
  · rintro ⟨w, hw⟩
    rw [← hw]
    exact ⟨fun i => (Nat.zero_add _).symm ▸ w.count_D_le_count_U i, w.count_U_eq_count_D⟩
  · rintro ⟨hopen, hcount⟩
    exact ⟨⟨Token.parens ts, hcount, fun i => by simpa using hopen i⟩, rfl⟩

/-- Tokens cannot be brought into postfix order if and only if their parentheses, taken alone, are
not balanced. What comes out otherwise has every operand, operator and function once, some operators
as prefix ones, no parenthesis and no comma, and the operands in the order in which they stand. -/
theorem order_spec (r : Registry) (ts : List Token) :
    (order r ts = .error .unmatchedClose ∨ order r ts = .error .unmatchedOpen ↔
        ¬ Token.Balanced ts) ∧
      (Token.Balanced ts → ∃ steps, order r ts = .ok steps ∧ steps.Perm (stepsFrom r true ts) ∧
        (steps.map Step.token).Perm (ts.filter Token.isPart) ∧
          (steps.map Step.token).filter Token.isOperand = ts.filter Token.isOperand) := by
  have horder := orderFrom_parens (r := r) none [] ts
  rw [List.count_nil, Nat.zero_add] at horder
  rw [balanced_iff]
  unfold order
  rcases horder with ⟨hnot, herror⟩ | ⟨hopen, ⟨hne, herror⟩ | ⟨heq, steps, hsteps⟩⟩
  · exact ⟨⟨fun _ h => hnot h.1, fun _ => .inl herror⟩, fun h => absurd h.1 hnot⟩
  · exact ⟨⟨fun _ h => hne h.2, fun _ => .inr herror⟩, fun h => absurd h.2 hne⟩
  · refine ⟨⟨?_, fun h => absurd ⟨hopen, heq⟩ h⟩, fun _ => ⟨steps, hsteps, ?_⟩⟩
    · rw [hsteps]
      rintro (h | h) <;> cases h
    · have hperm : steps.Perm (stepsFrom r true ts) := perm_of_orderFrom hsteps
      refine ⟨hperm, ?_, operands_of_orderFrom hsteps⟩
      rw [← map_token_stepsFrom (r := r) true ts]
      exact hperm.map Step.token

/-- The tokens of `* sqrt(- A,) 2 pow`, which are no expression. -/
def strayTokens : List Token :=
  [ ⟨.operator, "*"⟩, ⟨.function, "sqrt"⟩, .openParen, ⟨.operator, "-"⟩, ⟨.reference, "A"⟩,
    ⟨.comma, ","⟩, .closeParen, ⟨.number, "2"⟩, ⟨.function, "pow"⟩ ]

/-- Only the parentheses have to be right: the operator without operands and the function without
parentheses come out at the end. -/
theorem order_strayTokens :
    Token.Balanced strayTokens ∧ ∃ steps, order Registry.standard strayTokens = .ok steps ∧
      steps = [.reference "A", .prefixed "-", .call "sqrt", .number "2", .call "pow",
        .operator "*"] ∧
        (steps.map Step.token).Perm (strayTokens.filter Token.isPart) ∧
          (steps.map Step.token).filter Token.isOperand = strayTokens.filter Token.isOperand := by
  have hbalanced : Token.Balanced strayTokens := ⟨DyckWord.nest 0, rfl⟩
  obtain ⟨steps, hsteps, -, hparts, hoperands⟩ :=
    (order_spec Registry.standard strayTokens).2 hbalanced
  have hcomputed : order Registry.standard strayTokens = .ok
      [.reference "A", .prefixed "-", .call "sqrt", .number "2", .call "pow", .operator "*"] := by
    decide
  exact ⟨hbalanced, steps, hsteps, Except.ok.inj (hsteps.symm.trans hcomputed), hparts, hoperands⟩

end Postfix

end LiveSheet
