import LiveSheet.Postfix
import Mathlib.Data.List.TakeWhile

/-!
# Postfix order token by token

Postfix order takes one token after the other (`advance`): a token writes some steps and leaves some
to wait. It takes off what it does not wait behind, and writes it, so of what has been waiting and
of its own nothing is lost (`exists_taken_of_advance`). By induction on the tokens, postfix order
only moves their steps (`perm_of_orderFrom`), and every step that it writes is that of a token
(`token_mem_of_order`).
-/

namespace LiveSheet

/-- Whether the token is a part of the expression, and not a mark between the parts. -/
def Token.isPart (t : Token) : Bool :=
  t.kind != .parenthesis && t.kind != .comma

/-- Only tokens of one kind open or close parentheses. -/
theorem Token.not_paren_of_kind {t : Token} (h : t.kind ≠ .parenthesis) :
    t.isCloseParen = false ∧ t.isOpenParen = false := by
  constructor <;>
  · refine beq_eq_false_iff_ne.2 fun heq => h ?_
    rw [heq]
    rfl

namespace Postfix

/-- The token that a step has been written for. -/
def Step.token : Step → Token
  | .number text => ⟨.number, text⟩
  | .reference name => ⟨.reference, name⟩
  | .constant name => ⟨.constant, name⟩
  | .prefixed symbol => ⟨.operator, symbol⟩
  | .operator symbol => ⟨.operator, symbol⟩
  | .call name => ⟨.function, name⟩

variable {r : Registry}

/-! ### The steps of tokens -/

/-- The step of a token; `free` says whether an operand can begin at the token. -/
def stepOf? (r : Registry) (free : Bool) (t : Token) : Option Step :=
  match t.kind with
  | .number => some (.number t.text)
  | .reference => some (.reference t.text)
  | .constant => some (.constant t.text)
  | .function => some (.call t.text)
  | .operator =>
    if free && (r.prefix? t.text).isSome then some (.prefixed t.text) else some (.operator t.text)
  | .parenthesis => none
  | .comma => none

/-- The steps of tokens, in the order of the tokens. -/
def stepsFrom (r : Registry) : (free : Bool) → List Token → List Step
  | _, [] => []
  | free, t :: ts => (stepOf? r free t).toList ++ stepsFrom r (Token.isPrefixPosition (some t)) ts

/-- A token stands for one step, its own, unless it is a mark between the parts. -/
theorem map_token_stepOf? (free : Bool) (t : Token) :
    (stepOf? r free t).map Step.token = if t.isPart then some t else none := by
  obtain ⟨kind, text⟩ := t
  cases kind with
  | operator =>
    simp only [stepOf?]
    split <;> rfl
  | _ => rfl

/-- The steps keep the operands, operators and calls of the text, in order. -/
theorem map_token_stepsFrom (free : Bool) (ts : List Token) :
    (stepsFrom r free ts).map Step.token = ts.filter Token.isPart := by
  induction ts generalizing free with
  | nil => rfl
  | cons t ts ih =>
    have hown := map_token_stepOf? (r := r) free t
    rw [stepsFrom, List.map_append, ih, List.filter_cons]
    split at hown
    · next hpart =>
      obtain ⟨step, hstep, htoken⟩ := Option.map_eq_some_iff.1 hown
      rw [hstep, if_pos hpart, Option.toList_some, List.map_singleton, htoken]
      rfl
    · next hpart =>
      rw [Option.map_eq_none_iff.1 hown, if_neg hpart]
      rfl

/-! ### One token after the other -/

/-- Steps that are put in front one after the other are put there at once. -/
theorem prepend_prepend (steps more : List Step) (rest : Except Fault (List Step)) :
    prepend steps (prepend more rest) = prepend (steps ++ more) rest := by
  cases rest <;> simp [prepend, Except.map]

/-- No steps in front change nothing. -/
theorem prepend_nil (rest : Except Fault (List Step)) : prepend [] rest = rest := by
  cases rest <;> simp [prepend, Except.map]

/-- What is put before the steps of the rest. -/
theorem ok_of_prepend {front steps : List Step} {rest : Except Fault (List Step)}
    (h : prepend front rest = .ok steps) : ∃ back, rest = .ok back ∧ steps = front ++ back := by
  cases rest with
  | error f => cases h
  | ok back => exact ⟨back, rfl, (Except.ok.inj h).symm⟩

/-- What one token does: the steps that it writes, and what waits behind it. -/
def advance (r : Registry) (free : Bool) (pending : List Pending) (t : Token) :
    Except Fault (List Step × List Pending) :=
  match t.kind with
  | .number => .ok ([.number t.text], pending)
  | .reference => .ok ([.reference t.text], pending)
  | .constant => .ok ([.constant t.text], pending)
  | .function => .ok ([], .call t.text :: pending)
  | .operator =>
    if free && (r.prefix? t.text).isSome then .ok ([], .prefixed t.text :: pending)
    else
      .ok ((pending.takeWhile (yieldsTo r t.text)).filterMap Pending.step?,
        .operator t.text :: pending.dropWhile (yieldsTo r t.text))
  | .comma => .ok (stepsAboveParen pending, fromParen pending)
  | .parenthesis =>
    if t.isOpenParen then .ok ([], .paren :: pending)
    else if t.isCloseParen then
      match fromParen pending with
      | [] => .error .unmatchedClose
      | _ :: outer =>
        .ok (stepsAboveParen pending ++ (calledFunction outer).1, (calledFunction outer).2)
    else .ok ([], pending)

/-- Tokens are put in order one after the other. -/
theorem orderFrom_cons (previous : Option Token) (pending : List Pending) (t : Token)
    (ts : List Token) : orderFrom r previous pending (t :: ts) =
      (advance r (Token.isPrefixPosition previous) pending t).bind fun next =>
        prepend next.1 (orderFrom r (some t) next.2 ts) := by
  rw [orderFrom, advance]
  cases t.kind with
  | number | reference | constant | comma => rfl
  | function => exact (prepend_nil _).symm
  | operator =>
    simp only
    split
    · exact (prepend_nil _).symm
    · rfl
  | parenthesis =>
    simp only
    split
    · exact (prepend_nil _).symm
    · split
      · cases fromParen pending <;> rfl
      · exact (prepend_nil _).symm

/-- What the first of some tokens writes, and the order of the others. -/
theorem exists_advance_of_orderFrom {previous : Option Token} {pending : List Pending} {t : Token}
    {ts : List Token} {steps : List Step} (h : orderFrom r previous pending (t :: ts) = .ok steps) :
    ∃ out waiting back, advance r (Token.isPrefixPosition previous) pending t = .ok (out, waiting) ∧
      orderFrom r (some t) waiting ts = .ok back ∧ steps = out ++ back := by
  rw [orderFrom_cons] at h
  cases hadvance : advance r (Token.isPrefixPosition previous) pending t with
  | error f =>
    rw [hadvance] at h
    cases h
  | ok next =>
    rw [hadvance] at h
    obtain ⟨back, hback, hsteps⟩ := ok_of_prepend h
    exact ⟨next.1, next.2, back, rfl, hback, hsteps⟩

/-- What is first from the innermost open parenthesis on is that parenthesis. -/
theorem eq_paren_of_fromParen {pending outer : List Pending} {p : Pending}
    (h : fromParen pending = p :: outer) : p = .paren := by
  have hhead := List.head?_dropWhile_not (· != Pending.paren) pending
  rw [show pending.dropWhile (· != Pending.paren) = p :: outer from h] at hhead
  simpa using hhead

/-- What is taken off the front by a test that stops at parentheses holds none. -/
theorem count_paren_takeWhile {test : Pending → Bool} (h : test .paren = false)
    (pending : List Pending) : (pending.takeWhile test).count .paren = 0 := by
  rw [List.count_eq_zero]
  intro hmem
  have := List.mem_takeWhile_imp hmem
  rw [h] at this
  cases this

/-- What a closed parenthesis takes behind itself: the function that stands before it, if any. -/
theorem exists_of_calledFunction (pending : List Pending) :
    ∃ called, pending = called ++ (calledFunction pending).2 ∧
      (calledFunction pending).1 = called.filterMap Pending.step? ∧ called.count .paren = 0 := by
  unfold calledFunction
  split
  · next name rest => exact ⟨[.call name], rfl, rfl, rfl⟩
  · exact ⟨[], rfl, rfl, rfl⟩

/-- What a closed parenthesis takes off: what waits above the open one, that one itself, and the
function before it. -/
theorem exists_taken_of_fromParen {pending outer : List Pending} {p : Pending}
    (h : fromParen pending = p :: outer) :
    ∃ taken, pending = taken ++ (calledFunction outer).2 ∧
      stepsAboveParen pending ++ (calledFunction outer).1 = taken.filterMap Pending.step? ∧
      taken.count .paren = 1 := by
  obtain rfl := eq_paren_of_fromParen h
  have hsplit : pending = pending.takeWhile (· != .paren) ++ .paren :: outer := by
    rw [← h]
    exact List.takeWhile_append_dropWhile.symm
  obtain ⟨called, houter, hsteps, hcount⟩ := exists_of_calledFunction outer
  refine ⟨pending.takeWhile (· != .paren) ++ .paren :: called, ?_, ?_, ?_⟩
  · rw [List.append_assoc, List.cons_append, ← houter]
    exact hsplit
  · -- The parenthesis itself writes no step, and the function before it does.
    rw [List.filterMap_append, List.filterMap_cons_none (by rfl), hsteps]
    rfl
  · rw [List.count_append, count_paren_takeWhile rfl, List.count_cons_self, hcount]

/-- What a token does to the pending items: it takes some of them off, of which the parentheses are
those that it closes, and writes their steps; its own step it writes or lets wait. -/
theorem exists_taken_of_advance {free : Bool} {pending waiting : List Pending} {t : Token}
    {out : List Step} (h : advance r free pending t = .ok (out, waiting)) :
    ∃ taken kept own written, pending = taken ++ kept ∧ waiting = own ++ kept ∧
      out = taken.filterMap Pending.step? ++ written ∧
      own.filterMap Pending.step? ++ written = (stepOf? r free t).toList ∧
      taken.count .paren = (if t.isCloseParen then 1 else 0) ∧
      own.count .paren = (if t.isOpenParen then 1 else 0) := by
  by_cases hmark : t.kind = .parenthesis
  · unfold advance at h
    unfold stepOf?
    simp only [hmark] at h ⊢
    split at h
    · next hopen =>
      obtain ⟨rfl, rfl⟩ := Prod.mk.inj (Except.ok.inj h)
      obtain rfl : t = .openParen := by simpa [Token.isOpenParen] using hopen
      exact ⟨[], pending, [.paren], [], rfl, rfl, rfl, rfl, rfl, rfl⟩
    · next hopen =>
      split at h
      · next hclose =>
        split at h
        · cases h
        · next p outer hfrom =>
          obtain ⟨rfl, rfl⟩ := Prod.mk.inj (Except.ok.inj h)
          obtain ⟨taken, hpending, hsteps, hcount⟩ := exists_taken_of_fromParen hfrom
          exact ⟨taken, _, [], [], hpending, rfl, hsteps.trans (List.append_nil _).symm, rfl,
            by rw [hcount, if_pos hclose], by simp [hopen]⟩
      · next hclose =>
        obtain ⟨rfl, rfl⟩ := Prod.mk.inj (Except.ok.inj h)
        exact ⟨[], pending, [], [], rfl, rfl, rfl, rfl, by simp [hclose], by simp [hopen]⟩
  · -- Of all other tokens none opens or closes a parenthesis, so no count is changed.
    obtain ⟨hclose, hopen⟩ := Token.not_paren_of_kind hmark
    rw [hclose, hopen]
    unfold advance at h
    unfold stepOf?
    cases hkind : t.kind with
    | parenthesis => exact absurd hkind hmark
    | number | reference | constant =>
      simp only [hkind, Except.ok.injEq, Prod.mk.injEq] at h ⊢
      obtain ⟨rfl, rfl⟩ := h
      exact ⟨[], pending, [], _, rfl, rfl, rfl, rfl, rfl, rfl⟩
    | function =>
      simp only [hkind, Except.ok.injEq, Prod.mk.injEq] at h ⊢
      obtain ⟨rfl, rfl⟩ := h
      exact ⟨[], pending, [.call t.text], [], rfl, rfl, rfl, rfl, rfl, rfl⟩
    | operator =>
      simp only [hkind] at h ⊢
      split at h
      · next hprefix =>
        obtain ⟨rfl, rfl⟩ := Prod.mk.inj (Except.ok.inj h)
        rw [if_pos hprefix]
        exact ⟨[], pending, [.prefixed t.text], [], rfl, rfl, rfl, rfl, rfl, rfl⟩
      · next hprefix =>
        obtain ⟨rfl, rfl⟩ := Prod.mk.inj (Except.ok.inj h)
        rw [if_neg hprefix]
        -- The operators that it does not wait behind are those above the first that it does.
        exact ⟨pending.takeWhile (yieldsTo r t.text), pending.dropWhile (yieldsTo r t.text),
          [.operator t.text], [], List.takeWhile_append_dropWhile.symm, rfl,
          (List.append_nil _).symm, rfl, count_paren_takeWhile rfl _, rfl⟩
    | comma =>
      simp only [hkind, Except.ok.injEq, Prod.mk.injEq] at h ⊢
      obtain ⟨rfl, rfl⟩ := h
      exact ⟨pending.takeWhile (· != .paren), fromParen pending, [], [],
        List.takeWhile_append_dropWhile.symm, rfl, (List.append_nil _).symm, rfl,
        count_paren_takeWhile rfl _, rfl⟩

open scoped List in
/-- A token writes steps that were pending and its own, or leaves them pending. -/
theorem perm_of_advance {free : Bool} {pending waiting : List Pending} {t : Token}
    {out : List Step} (h : advance r free pending t = .ok (out, waiting)) :
    (out ++ waiting.filterMap Pending.step?).Perm
      (pending.filterMap Pending.step? ++ (stepOf? r free t).toList) := by
  obtain ⟨taken, kept, own, written, rfl, rfl, rfl, hown, -, -⟩ := exists_taken_of_advance h
  rw [← hown, List.filterMap_append, List.filterMap_append, List.append_assoc, List.append_assoc]
  apply List.Perm.append_left
  -- What waits goes behind what was kept, and what is written behind that.
  calc
    written ++ (own.filterMap Pending.step? ++ kept.filterMap Pending.step?)
    _ ~ (own.filterMap Pending.step? ++ kept.filterMap Pending.step?) ++ written :=
      List.perm_append_comm
    _ ~ (kept.filterMap Pending.step? ++ own.filterMap Pending.step?) ++ written :=
      List.perm_append_comm.append_right _
    _ = kept.filterMap Pending.step? ++ (own.filterMap Pending.step? ++ written) :=
      List.append_assoc ..

/-- Postfix order only moves steps: those of the tokens and of what is pending come out. -/
theorem perm_of_orderFrom {previous : Option Token} {pending : List Pending} {ts : List Token}
    {steps : List Step} (h : orderFrom r previous pending ts = .ok steps) :
    steps.Perm (pending.filterMap Pending.step? ++
      stepsFrom r (Token.isPrefixPosition previous) ts) := by
  induction ts generalizing previous pending steps with
  | nil =>
    rw [orderFrom] at h
    split at h
    · cases h
    · obtain rfl := Except.ok.inj h
      simp [stepsFrom]
  | cons t ts ih =>
    obtain ⟨out, waiting, back, hadvance, hback, rfl⟩ := exists_advance_of_orderFrom h
    have hrest := (ih hback).append_left out
    rw [← List.append_assoc] at hrest
    have hfirst := (perm_of_advance hadvance).append_right
      (stepsFrom r (Token.isPrefixPosition (some t)) ts)
    rw [List.append_assoc _ (stepOf? r _ t).toList] at hfirst
    exact hrest.trans hfirst

/-- Every step in postfix order is that of a token. -/
theorem token_mem_of_order {ts : List Token} {steps : List Step} (h : order r ts = .ok steps)
    {step : Step} (hmem : step ∈ steps) : step.token ∈ ts := by
  have hstep : step ∈ stepsFrom r true ts := (perm_of_orderFrom h).mem_iff.1 hmem
  have htoken := List.mem_map_of_mem (f := Step.token) hstep
  rw [map_token_stepsFrom] at htoken
  exact (List.mem_filter.1 htoken).1

end Postfix

end LiveSheet
