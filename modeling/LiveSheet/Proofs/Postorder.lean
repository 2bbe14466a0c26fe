import LiveSheet.Proofs.Advance
import LiveSheet.Proofs.Parses
import LiveSheet.Registry.Standard

/-!
# The postfix order of a tree

The exact evaluator reads tokens with a parser that has a level for each precedence, the stack
evaluator with a stack and a table of precedences. `order_eq_postorder` shows that they read the
same language the same way: where strict reading accepts tokens as a tree, `Postfix.order` returns
the postorder of that tree.

The invariant is `Reads`. Between two levels of the grammar the stack is split in two: the items
`pending` that were there before the level began, which no operator of the level may touch, and
the items on top of them, which every operator of a lower level takes off. What has been written so
far, with the items on top behind it, is the postorder of what the level has read. There is one
lemma for each rule of the parser, and `Expr.Parses.orders` is the induction over the rules.
-/

namespace LiveSheet

namespace Expr

open Postfix (Step)

mutual

/-- The steps of an expression: operands before what takes them, and nothing for a group. -/
def postorder : Expr → List Step
  | number text => [.number text]
  | reference name => [.reference name]
  | constant name => [.constant name]
  | prefixed symbol operand => postorder operand ++ [.prefixed symbol]
  | binary symbol left right => postorder left ++ postorder right ++ [.operator symbol]
  | group inner => postorder inner
  | call name args => postorderOfAll args ++ [.call name]

/-- The steps of several expressions, from left to right. -/
def postorderOfAll : List Expr → List Step
  | [] => []
  | e :: es => postorder e ++ postorderOfAll es

end

end Expr

/-- Whether each function token stands directly before an opening parenthesis. -/
def Token.callsOpen : List Token → Bool
  | [] => true
  | t :: ts => (t.kind != .function || ts.head?.any (·.isOpenParen)) && callsOpen ts

/-- A registry whose operators bind as the levels of the grammar nest. -/
structure Registry.FollowsGrammar (r : Registry) : Prop where
  sum : ∀ symbol ∈ ["+", "-"], r.precedence symbol = 1
  product : ∀ symbol ∈ ["*", "/", "%"], r.precedence symbol = 2
  power : r.precedence "^" = 3
  right_iff : ∀ symbol, r.isRightAssociative symbol = true ↔ r.precedence symbol = 3
  minus : (r.prefix? "-").isSome = true

/-- The operators of the standard registry bind as the grammar says, on every platform. -/
theorem Registry.standardOn_followsGrammar (p : Platform) :
    (Registry.standardOn p).FollowsGrammar where
  sum symbol hmem := by
    simp only [List.mem_cons, List.not_mem_nil, or_false] at hmem
    rcases hmem with rfl | rfl <;> rfl
  product symbol hmem := by
    simp only [List.mem_cons, List.not_mem_nil, or_false] at hmem
    rcases hmem with rfl | rfl | rfl <;> rfl
  power := rfl
  right_iff symbol := by
    have hfound : ∀ rule, (symbol, rule) ∈ Registry.standardOperators p →
        (rule.associativity = .right ↔ rule.precedence = 3) := by
      intro rule h
      simp only [standardOperators, List.mem_cons, Prod.mk.injEq, List.not_mem_nil, or_false] at h
      rcases h with ⟨-, rfl⟩ | ⟨-, rfl⟩ | ⟨-, rfl⟩ | ⟨-, rfl⟩ | ⟨-, rfl⟩ | ⟨-, rfl⟩ <;> simp
    unfold Registry.isRightAssociative Registry.precedence
    cases h : (Registry.standardOn p).operator? symbol with
    | none => simp
    | some rule =>
      have hmem : (symbol, rule) ∈ Registry.standardOperators p := Table.mem_of_lookup h
      simpa using hfound rule hmem
  minus := rfl

/-- The operators of the builtin registry bind as the grammar has them. -/
theorem Registry.standard_followsGrammar : Registry.standard.FollowsGrammar :=
  standardOn_followsGrammar .native

namespace Postfix

variable {r : Registry}

/-! ### Pending items between two levels -/

/-- Whether a pending item takes its operands before any operator of precedence at most `reach`. -/
def Pending.YieldsUpTo (r : Registry) (reach : Int) (p : Pending) : Prop :=
  ∀ symbol, r.precedence symbol ≤ reach → yieldsTo r symbol p = true

/-- What a level of the grammar finds waiting: no function that still lacks its parenthesis, and
first an item that stays when an operator of precedence `level` or more comes. -/
structure Awaits (r : Registry) (level : Int) (pending : List Pending) : Prop where
  noCall : calledFunction pending = ([], pending)
  stays : ∀ symbol, level ≤ r.precedence symbol → ∀ p ∈ pending.head?, yieldsTo r symbol p = false

/-- A level below finds what a level finds. -/
theorem Awaits.mono {level level' : Int} {pending : List Pending} (h : Awaits r level pending)
    (hle : level ≤ level') : Awaits r level' pending where
  noCall := h.noCall
  stays symbol hs := h.stays symbol (Int.le_trans hle hs)

/-- Inside parentheses every level can begin. -/
theorem awaits_paren (level : Int) (pending : List Pending) :
    Awaits r level (.paren :: pending) where
  noCall := rfl
  stays symbol _ p hp := by
    obtain rfl : Pending.paren = p := by simpa using hp
    rfl

/-- With nothing pending every level can begin. -/
theorem awaits_nil (level : Int) : Awaits r level [] where
  noCall := rfl
  stays symbol _ p hp := by simp at hp

/-- Behind an operator its right operand can begin: the next level, or the same one if operators of
this precedence group to the right. -/
theorem awaits_operator (hr : r.FollowsGrammar) {level : Int} {symbol : String}
    (pending : List Pending) (hle : r.precedence symbol ≤ level)
    (hright : r.precedence symbol = level → level = 3) :
    Awaits r level (.operator symbol :: pending) where
  noCall := rfl
  stays next hnext p hp := by
    obtain rfl : Pending.operator symbol = p := by simpa using hp
    have hlt : ¬ r.precedence next < r.precedence symbol := by omega
    by_cases heq : r.precedence symbol = r.precedence next
    · have hassoc : r.isRightAssociative next = true := by
        rw [hr.right_iff]
        have := hright (by omega)
        omega
      simp [yieldsTo, hlt, hassoc]
    · simp [yieldsTo, hlt, heq]

/-- Behind a prefix operator its operand can begin. -/
theorem awaits_prefixed (symbol : String) (pending : List Pending) :
    Awaits r 4 (.prefixed symbol :: pending) where
  noCall := rfl
  stays next hnext p hp := by
    obtain rfl : Pending.prefixed symbol = p := by simpa using hp
    have : ¬ r.precedence next < prefixPrecedence := by unfold prefixPrecedence; omega
    simp [yieldsTo, this]

/-- Items that yield up to some precedence yield up to a smaller one. -/
theorem Pending.YieldsUpTo.mono {reach reach' : Int} {p : Pending} (h : p.YieldsUpTo r reach)
    (hle : reach' ≤ reach) : p.YieldsUpTo r reach' :=
  fun symbol hs => h symbol (Int.le_trans hs hle)

/-- A prefix operator yields to every operator of the grammar. -/
theorem yieldsUpTo_prefixed (symbol : String) : (Pending.prefixed symbol).YieldsUpTo r 3 := by
  intro next hnext
  have : r.precedence next < prefixPrecedence := by unfold prefixPrecedence; omega
  simpa [yieldsTo] using this

/-- An operator yields up to its own precedence, unless it groups to the right. -/
theorem yieldsUpTo_operator (hr : r.FollowsGrammar) {reach : Int} {symbol : String}
    (hle : reach ≤ r.precedence symbol) (hreach : reach < 3) :
    (Pending.operator symbol).YieldsUpTo r reach := by
  intro next hnext
  by_cases hlt : r.precedence next < r.precedence symbol
  · simp [yieldsTo, hlt]
  · have heq : r.precedence symbol = r.precedence next := by omega
    have hassoc : r.isRightAssociative next = false := by
      rw [Bool.eq_false_iff]
      intro h
      have := (hr.right_iff next).1 h
      omega
    simp [yieldsTo, heq, hassoc]

/-- No parenthesis yields to an operator. -/
theorem Pending.YieldsUpTo.ne_paren (hr : r.FollowsGrammar) {reach : Int} {p : Pending}
    (h : p.YieldsUpTo r reach) (hreach : 1 ≤ reach) : p ≠ .paren := by
  rintro rfl
  have hplus := h "+" (by rw [hr.sum "+" (by simp)]; exact hreach)
  simp [yieldsTo] at hplus

/-! ### Single tokens -/

/-- What satisfies a test is taken off the front of a list, up to a first item that does not. -/
theorem takeWhile_append_of_all {α : Type} (test : α → Bool) (top pending : List α)
    (htop : ∀ p ∈ top, test p = true) (hpending : ∀ p ∈ pending.head?, test p = false) :
    (top ++ pending).takeWhile test = top ∧ (top ++ pending).dropWhile test = pending := by
  have hrest : pending.takeWhile test = [] ∧ pending.dropWhile test = pending := by
    cases pending with
    | nil => simp
    | cons p ps => simp [hpending p (by simp)]
  rw [List.takeWhile_append_of_pos htop, List.dropWhile_append_of_pos htop, hrest.1, hrest.2]
  simp

/-- An operator between operands takes what is on top, and waits in its place. -/
theorem orderFrom_operator {level reach : Int} {last t : Token} {top pending : List Pending}
    (ts : List Token) (hkind : t.kind = .operator)
    (hlast : Token.isPrefixPosition (some last) = false)
    (hlevel : level ≤ r.precedence t.text) (hreach : r.precedence t.text ≤ reach)
    (hpending : Awaits r level pending) (htop : ∀ p ∈ top, p.YieldsUpTo r reach) :
    orderFrom r (some last) (top ++ pending) (t :: ts) =
      prepend (top.filterMap Pending.step?)
        (orderFrom r (some t) (.operator t.text :: pending) ts) := by
  obtain ⟨htake, hdrop⟩ := takeWhile_append_of_all (yieldsTo r t.text) top pending
    (fun p hp => htop p hp t.text hreach) (hpending.stays t.text hlevel)
  rw [orderFrom, hkind]
  simp only [hlast, Bool.false_and, Bool.false_eq_true, if_false]
  rw [htake, hdrop]

/-- The items above the innermost open parenthesis, and those from it on. -/
theorem parenSplit (hr : r.FollowsGrammar) {top : List Pending} (pending : List Pending)
    (htop : ∀ p ∈ top, p.YieldsUpTo r 1) :
    stepsAboveParen (top ++ .paren :: pending) = top.filterMap Pending.step? ∧
      fromParen (top ++ .paren :: pending) = .paren :: pending := by
  obtain ⟨htake, hdrop⟩ := takeWhile_append_of_all (· != Pending.paren) top (.paren :: pending)
    (fun p hp => by simpa using (htop p hp).ne_paren hr (Int.le_refl 1)) (by simp)
  unfold stepsAboveParen fromParen
  rw [htake, hdrop]
  exact ⟨rfl, rfl⟩

/-- A comma takes what is above the innermost open parenthesis. -/
theorem orderFrom_comma (hr : r.FollowsGrammar) {t : Token} {top : List Pending}
    (previous : Option Token) (pending : List Pending) (ts : List Token) (hkind : t.kind = .comma)
    (htop : ∀ p ∈ top, p.YieldsUpTo r 1) :
    orderFrom r previous (top ++ .paren :: pending) (t :: ts) =
      prepend (top.filterMap Pending.step?) (orderFrom r (some t) (.paren :: pending) ts) := by
  obtain ⟨habove, hfrom⟩ := parenSplit hr pending htop
  rw [orderFrom, hkind]
  simp only
  rw [habove, hfrom]

/-- A closing parenthesis takes what is above the open one, and the function that stands before
it. -/
theorem orderFrom_close (hr : r.FollowsGrammar) {top : List Pending} (previous : Option Token)
    (pending : List Pending) (ts : List Token) (htop : ∀ p ∈ top, p.YieldsUpTo r 1) :
    orderFrom r previous (top ++ .paren :: pending) (.closeParen :: ts) =
      prepend (top.filterMap Pending.step? ++ (calledFunction pending).1)
        (orderFrom r (some .closeParen) (calledFunction pending).2 ts) := by
  obtain ⟨habove, hfrom⟩ := parenSplit hr pending htop
  rw [orderFrom]
  have hopen : Token.closeParen.isOpenParen = false := by decide
  have hclose : Token.closeParen.isCloseParen = true := by decide
  have hkind : Token.closeParen.kind = .parenthesis := rfl
  simp only [hkind, hopen, hclose, Bool.false_eq_true, if_false, if_true]
  rw [hfrom]
  simp only [habove]

/-- An opening parenthesis waits. -/
theorem orderFrom_open (previous : Option Token) (pending : List Pending) (ts : List Token) :
    orderFrom r previous pending (.openParen :: ts) =
      orderFrom r (some .openParen) (.paren :: pending) ts := by
  rw [orderFrom]
  have hopen : Token.openParen.isOpenParen = true := by decide
  have hkind : Token.openParen.kind = .parenthesis := rfl
  simp only [hkind, hopen, if_true]

/-! ### Levels of the grammar -/

/-- How ordering the tokens `ts` comes to `rest` if a level of the grammar reads `steps` between
them: `out` is written, `top` waits on what was pending, and both together are the steps. What waits
yields to the operators that may follow the level. -/
def Reads (r : Registry) (level reach : Int) (ts rest : List Token) (steps : List Step) : Prop :=
  ∀ previous pending, Token.isPrefixPosition previous = true → Awaits r level pending →
    ∃ last out top, Token.isPrefixPosition (some last) = false ∧
      orderFrom r previous pending ts =
        prepend out (orderFrom r (some last) (top ++ pending) rest) ∧
      out ++ top.filterMap Pending.step? = steps ∧ ∀ p ∈ top, p.YieldsUpTo r reach

/-- The same for a tail, which begins with items on top that stand for the end of the steps read
before it. -/
def Continues (r : Registry) (level : Int) (ts rest : List Token) (before steps : List Step) :
    Prop :=
  ∀ last pending top, Token.isPrefixPosition (some last) = false → Awaits r level pending →
    (∀ p ∈ top, p.YieldsUpTo r level) →
    ∃ last' out top' more, Token.isPrefixPosition (some last') = false ∧
      orderFrom r (some last) (top ++ pending) ts =
        prepend out (orderFrom r (some last') (top' ++ pending) rest) ∧
      steps = before ++ more ∧
      out ++ top'.filterMap Pending.step? = top.filterMap Pending.step? ++ more ∧
      ∀ p ∈ top', p.YieldsUpTo r level

/-- A level is its first operand and its tail. -/
theorem Reads.continue {level reach : Int} {ts mid rest : List Token} {before steps : List Step}
    (hfirst : Reads r (level + 1) reach ts mid before)
    (htail : Continues r level mid rest before steps) (hle : level ≤ reach) :
    Reads r level level ts rest steps := by
  intro previous pending hprevious hpending
  obtain ⟨last, out, top, hlast, horder, hsteps, htop⟩ :=
    hfirst previous pending hprevious (hpending.mono (by omega))
  obtain ⟨last', out', top', more, hlast', horder', hmore, hsteps', htop'⟩ :=
    htail last pending top hlast hpending fun p hp => (htop p hp).mono hle
  refine ⟨last', out ++ out', top', hlast', ?_, ?_, htop'⟩
  · rw [horder, horder', prepend_prepend]
  · rw [List.append_assoc, hsteps', ← List.append_assoc, hsteps, hmore]

/-- An operator with its right operand lengthens what a tail continues. -/
theorem Continues.operator (hr : r.FollowsGrammar) {level reach : Int} {t : Token}
    {us mid rest : List Token} {before right steps : List Step} (hkind : t.kind = .operator)
    (hlevel : r.precedence t.text = level) (hlt : level < 3) (hle : level ≤ reach)
    (hright : Reads r (level + 1) reach us mid right)
    (htail : Continues r level mid rest (before ++ right ++ [.operator t.text]) steps) :
    Continues r level (t :: us) rest before steps := by
  intro last pending top hlast hpending htop
  have hoperator := orderFrom_operator us hkind hlast (Int.le_of_eq hlevel.symm)
    (Int.le_of_eq hlevel) hpending htop
  have hpos : Token.isPrefixPosition (some t) = true := by simp [Token.isPrefixPosition, hkind]
  obtain ⟨last₁, out₁, top₁, hlast₁, horder₁, hsteps₁, htop₁⟩ :=
    hright (some t) (.operator t.text :: pending) hpos
      (awaits_operator hr pending (by omega) (by omega))
  -- The operator is now the lowest of the items on top.
  have htop₂ : ∀ p ∈ top₁ ++ [.operator t.text], p.YieldsUpTo r level := by
    intro p hp
    rcases List.mem_append.1 hp with hp | hp
    · exact (htop₁ p hp).mono hle
    · obtain rfl := List.mem_singleton.1 hp
      exact yieldsUpTo_operator hr (Int.le_of_eq hlevel.symm) hlt
  obtain ⟨last', out', top', more, hlast', horder', hmore, hsteps', htop'⟩ :=
    htail last₁ pending (top₁ ++ [.operator t.text]) hlast₁ hpending htop₂
  refine ⟨last', top.filterMap Pending.step? ++ out₁ ++ out', top',
    right ++ [.operator t.text] ++ more, hlast', ?_, ?_, ?_, htop'⟩
  · rw [hoperator, horder₁, List.append_cons, horder', prepend_prepend, prepend_prepend,
      List.append_assoc]
  · rw [hmore]
    simp
  · rw [List.append_assoc, hsteps', List.filterMap_append, ← hsteps₁]
    simp [Pending.step?]

/-- A tail may end where it begins. -/
theorem Continues.stop (level : Int) (ts : List Token) (steps : List Step) :
    Continues r level ts ts steps steps := by
  intro last pending top hlast _ htop
  exact ⟨last, [], top, [], hlast, by rw [prepend_nil], by simp, by simp, htop⟩

/-- A factor alone is a power whose operators are all prefix ones. -/
theorem Reads.alone {ts rest : List Token} {steps : List Step} (h : Reads r 4 3 ts rest steps) :
    Reads r 3 2 ts rest steps := by
  intro previous pending hprevious hpending
  obtain ⟨last, out, top, hlast, horder, hsteps, htop⟩ :=
    h previous pending hprevious (hpending.mono (by omega))
  exact ⟨last, out, top, hlast, horder, hsteps, fun p hp => (htop p hp).mono (by omega)⟩

/-- A power: its base, the operator, and the power that is its exponent. -/
theorem Reads.power (hr : r.FollowsGrammar) {t : Token} {ts us rest : List Token}
    {base exponent : List Step} (hkind : t.kind = .operator) (htext : t.text = "^")
    (hbase : Reads r 4 3 ts (t :: us) base) (hexponent : Reads r 3 2 us rest exponent) :
    Reads r 3 2 ts rest (base ++ exponent ++ [.operator "^"]) := by
  intro previous pending hprevious hpending
  obtain ⟨last, out, top, hlast, horder, hsteps, htop⟩ :=
    hbase previous pending hprevious (hpending.mono (by omega))
  have hthree : r.precedence t.text = 3 := htext ▸ hr.power
  have hoperator := orderFrom_operator us hkind hlast (Int.le_of_eq hthree.symm)
    (Int.le_of_eq hthree) hpending htop
  have hpos : Token.isPrefixPosition (some t) = true := by simp [Token.isPrefixPosition, hkind]
  obtain ⟨last', out', top', hlast', horder', hsteps', htop'⟩ :=
    hexponent (some t) (.operator t.text :: pending) hpos
      (awaits_operator hr pending (by omega) (fun _ => rfl))
  refine ⟨last', out ++ top.filterMap Pending.step? ++ out', top' ++ [.operator t.text], hlast',
    ?_, ?_, ?_⟩
  · rw [horder, hoperator, horder', prepend_prepend, prepend_prepend, List.append_cons top']
  · rw [List.filterMap_append, hsteps, ← hsteps', htext]
    simp [Pending.step?]
  · intro p hp
    rcases List.mem_append.1 hp with hp | hp
    · exact htop' p hp
    · obtain rfl := List.mem_singleton.1 hp
      exact yieldsUpTo_operator hr (by omega) (by omega)

/-- An operand that is one token is written at once. -/
theorem Reads.single {t : Token} {step : Step} (us : List Token)
    (hlast : Token.isPrefixPosition (some t) = false)
    (horder : ∀ previous pending, orderFrom r previous pending (t :: us) =
      prepend [step] (orderFrom r (some t) pending us)) :
    Reads r 4 3 (t :: us) us [step] := by
  intro previous pending _ _
  exact ⟨t, [step], [], hlast, by rw [horder]; rfl, by simp, by simp⟩

/-- A prefix operator and its operand. -/
theorem Reads.prefixed (hr : r.FollowsGrammar) {t : Token} {us rest : List Token}
    {operand : List Step} (hkind : t.kind = .operator) (htext : t.text = "-")
    (hoperand : Reads r 4 3 us rest operand) :
    Reads r 4 3 (t :: us) rest (operand ++ [.prefixed "-"]) := by
  intro previous pending hprevious _
  have hpos : Token.isPrefixPosition (some t) = true := by simp [Token.isPrefixPosition, hkind]
  have hminus : orderFrom r previous pending (t :: us) =
      orderFrom r (some t) (.prefixed "-" :: pending) us := by
    rw [orderFrom, hkind]
    simp only [hprevious, htext, hr.minus, Bool.and_true, if_true]
  obtain ⟨last, out, top, hlast, horder, hsteps, htop⟩ :=
    hoperand (some t) (.prefixed "-" :: pending) hpos (awaits_prefixed "-" pending)
  refine ⟨last, out, top ++ [.prefixed "-"], hlast, ?_, ?_, ?_⟩
  · rw [hminus, horder, List.append_cons]
  · rw [List.filterMap_append, ← hsteps]
    simp [Pending.step?]
  · intro p hp
    rcases List.mem_append.1 hp with hp | hp
    · exact htop p hp
    · obtain rfl := List.mem_singleton.1 hp
      exact yieldsUpTo_prefixed "-"

/-- A group is written as what stands in it. -/
theorem Reads.group (hr : r.FollowsGrammar) {us rest : List Token} {inner : List Step}
    (hinner : Reads r 1 1 us (.closeParen :: rest) inner) :
    Reads r 4 3 (.openParen :: us) rest inner := by
  intro previous pending _ hpending
  obtain ⟨last, out, top, -, horder, hsteps, htop⟩ :=
    hinner (some .openParen) (.paren :: pending) (by decide) (awaits_paren 1 pending)
  refine ⟨.closeParen, out ++ top.filterMap Pending.step?, [], by decide, ?_, by simpa using hsteps,
    by simp⟩
  rw [orderFrom_open, horder, orderFrom_close hr (some last) pending rest htop, prepend_prepend,
    hpending.noCall]
  simp

/-! ### Arguments -/

/-- How ordering the tokens `ts` behind the parenthesis of a call comes to `rest` if they hold
arguments with the given steps. -/
def ReadsArguments (r : Registry) (ts rest : List Token) (steps : List Step) : Prop :=
  ∀ previous pending, Token.isPrefixPosition previous = true →
    ∃ last out top, orderFrom r previous (.paren :: pending) ts =
        prepend out (orderFrom r last (top ++ .paren :: pending) rest) ∧
      out ++ top.filterMap Pending.step? = steps ∧ ∀ p ∈ top, p.YieldsUpTo r 1

/-- The same for the arguments behind the first one. -/
def ContinuesArguments (r : Registry) (ts rest : List Token) (steps : List Step) : Prop :=
  ∀ last pending top, (∀ p ∈ top, p.YieldsUpTo r 1) →
    ∃ last' out top', orderFrom r last (top ++ .paren :: pending) ts =
        prepend out (orderFrom r last' (top' ++ .paren :: pending) rest) ∧
      out ++ top'.filterMap Pending.step? = top.filterMap Pending.step? ++ steps ∧
      ∀ p ∈ top', p.YieldsUpTo r 1

/-- There may be no arguments. -/
theorem ReadsArguments.none (ts : List Token) : ReadsArguments r ts ts [] := by
  intro previous pending _
  exact ⟨previous, [], [], by rw [prepend_nil]; rfl, by simp, by simp⟩

/-- There may be no further arguments. -/
theorem ContinuesArguments.stop (ts : List Token) : ContinuesArguments r ts ts [] := by
  intro last pending top htop
  exact ⟨last, [], top, by rw [prepend_nil], by simp, htop⟩

/-- A first argument and the others. -/
theorem ReadsArguments.some {ts mid rest : List Token} {first more : List Step}
    (hfirst : Reads r 1 1 ts mid first) (hmore : ContinuesArguments r mid rest more) :
    ReadsArguments r ts rest (first ++ more) := by
  intro previous pending hprevious
  obtain ⟨last, out, top, -, horder, hsteps, htop⟩ :=
    hfirst previous (.paren :: pending) hprevious (awaits_paren 1 pending)
  obtain ⟨last', out', top', horder', hsteps', htop'⟩ := hmore (Option.some last) pending top htop
  refine ⟨last', out ++ out', top', ?_, ?_, htop'⟩
  · rw [horder, horder', prepend_prepend]
  · rw [List.append_assoc, hsteps', ← List.append_assoc, hsteps]

/-- A comma, a further argument and the others. -/
theorem ContinuesArguments.comma (hr : r.FollowsGrammar) {t : Token} {us mid rest : List Token}
    {next more : List Step} (hkind : t.kind = .comma) (hnext : Reads r 1 1 us mid next)
    (hmore : ContinuesArguments r mid rest more) :
    ContinuesArguments r (t :: us) rest (next ++ more) := by
  intro last pending top htop
  have hpos : Token.isPrefixPosition (some t) = true := by simp [Token.isPrefixPosition, hkind]
  obtain ⟨last₁, out₁, top₁, -, horder₁, hsteps₁, htop₁⟩ :=
    hnext (some t) (.paren :: pending) hpos (awaits_paren 1 pending)
  obtain ⟨last', out', top', horder', hsteps', htop'⟩ := hmore (some last₁) pending top₁ htop₁
  refine ⟨last', top.filterMap Pending.step? ++ out₁ ++ out', top', ?_, ?_, htop'⟩
  · rw [orderFrom_comma hr last pending us hkind htop, horder₁, horder', prepend_prepend,
      prepend_prepend, List.append_assoc]
  · rw [List.append_assoc, hsteps', List.append_assoc, ← hsteps₁]
    simp

/-- A call: the arguments, and then the function. -/
theorem Reads.call (hr : r.FollowsGrammar) {t : Token} {us rest : List Token} {args : List Step}
    (hkind : t.kind = .function) (hargs : ReadsArguments r us (.closeParen :: rest) args) :
    Reads r 4 3 (t :: .openParen :: us) rest (args ++ [.call t.text]) := by
  intro previous pending _ _
  have hcall : orderFrom r previous pending (t :: .openParen :: us) =
      orderFrom r (some .openParen) (.paren :: .call t.text :: pending) us := by
    rw [orderFrom, hkind]
    exact orderFrom_open _ _ _
  obtain ⟨last, out, top, horder, hsteps, htop⟩ :=
    hargs (some .openParen) (.call t.text :: pending) (by decide)
  refine ⟨.closeParen, args ++ [.call t.text], [], by decide, ?_, by simp, by simp⟩
  rw [hcall, horder, orderFrom_close hr last (.call t.text :: pending) rest htop, prepend_prepend,
    ← List.append_assoc, hsteps]
  rfl

end Postfix

namespace Expr

open Postfix

variable {r : Registry}

/-- What stands behind the first token of a list in which calls are open. -/
theorem callsOpen_tail {t : Token} {ts : List Token} (h : Token.callsOpen (t :: ts) = true) :
    Token.callsOpen ts = true := by
  simp only [Token.callsOpen, Bool.and_eq_true] at h
  exact h.2

/-- Behind the name of a function comes its parenthesis. -/
theorem exists_open_of_callsOpen {t : Token} {ts : List Token} (hkind : t.kind = .function)
    (h : Token.callsOpen (t :: ts) = true) : ∃ us, ts = .openParen :: us := by
  simp only [Token.callsOpen, hkind, Bool.and_eq_true] at h
  cases ts with
  | nil => simp at h
  | cons u us =>
    have hopen : u = .openParen := by simpa [Token.isOpenParen] using h.1
    exact ⟨us, by rw [hopen]⟩

/-- An operator stands in front of its operand behind operators, commas and opening parentheses. -/
theorem isPrefixPosition_some (t : Token) : Token.isPrefixPosition (some t) =
    (t.kind == .operator || t.kind == .comma || (t.kind == .parenthesis && t.text == "(")) := by
  obtain ⟨kind, text⟩ := t
  simp [Token.isPrefixPosition, Token.isOpenParen, Token.openParen, Bool.beq_eq_decide_eq,
    Token.mk.injEq, Bool.decide_and]

/-- Where calls open in tokens, they do in the end of them. -/
theorem callsOpen_of_append {ts us : List Token} (h : Token.callsOpen (ts ++ us) = true) :
    Token.callsOpen us = true := by
  induction ts with
  | nil => exact h
  | cons t ts ih => exact ih (callsOpen_tail h)

/-- What a part of the parser leaves are the last tokens, so calls are open there too. -/
theorem Parses.callsOpen {reading : Reading} {part : Part} {ts rest : List Token}
    (h : Parses reading part ts rest) (hcalls : Token.callsOpen ts = true) :
    Token.callsOpen rest = true := by
  obtain ⟨read, rfl⟩ := h.suffix
  exact callsOpen_of_append hcalls

/-- Whether the tokens that a part of the parser reads are ordered as the postorder of what it comes
to. -/
def Part.Orders (r : Registry) : Part → (ts rest : List Token) → Prop
  | .sum e, ts, rest => Reads r 1 1 ts rest e.postorder
  | .sumTail left e, ts, rest => Continues r 1 ts rest left.postorder e.postorder
  | .product e, ts, rest => Reads r 2 2 ts rest e.postorder
  | .productTail left e, ts, rest => Continues r 2 ts rest left.postorder e.postorder
  | .power e, ts, rest => Reads r 3 2 ts rest e.postorder
  | .factor e, ts, rest => Reads r 4 3 ts rest e.postorder
  | .arguments es, ts, rest => ReadsArguments r ts rest (postorderOfAll es)
  | .argumentsTail es, ts, rest => ContinuesArguments r ts rest (postorderOfAll es)

/-- What is read without repairs is ordered as its postorder, if calls are open. -/
theorem Parses.orders (hr : r.FollowsGrammar) {reading : Reading} {part : Part}
    {ts rest : List Token} (h : Parses reading part ts rest) (hstrict : reading = .strict)
    (hcalls : Token.callsOpen ts = true) : part.Orders r ts rest := by
  induction h with
  | sum hfirst _ ihfirst ihtail =>
    have hproduct : Reads r 2 2 _ _ _ := ihfirst hstrict hcalls
    exact hproduct.continue (ihtail hstrict (hfirst.callsOpen hcalls)) (by decide)
  | product hfirst _ ihfirst ihtail =>
    have hpower : Reads r 3 2 _ _ _ := ihfirst hstrict hcalls
    exact hpower.continue (ihtail hstrict (hfirst.callsOpen hcalls)) (by decide)
  | sumEnd | productEnd => exact .stop _ _ _
  | addition ht hright _ ihright ihtail =>
    obtain ⟨hkind, htext⟩ := isOperatorAmong_iff.1 ht
    have hcalls₁ := callsOpen_tail hcalls
    exact .operator hr hkind (hr.sum _ htext) (by decide) (by decide) (ihright hstrict hcalls₁)
      (ihtail hstrict (hright.callsOpen hcalls₁))
  | multiplication ht hright _ ihright ihtail =>
    obtain ⟨hkind, htext⟩ := isOperatorAmong_iff.1 ht
    have hcalls₁ := callsOpen_tail hcalls
    exact .operator hr hkind (hr.product _ htext) (by decide) (by decide) (ihright hstrict hcalls₁)
      (ihtail hstrict (hright.callsOpen hcalls₁))
  | base _ _ ih => exact (ih hstrict hcalls).alone
  | exponentiation hbase ht _ ihbase ihexponent =>
    obtain ⟨hkind, htext⟩ := isOperatorAmong_iff.1 ht
    exact (ihbase hstrict hcalls).power hr hkind (List.mem_singleton.1 htext)
      (ihexponent hstrict (callsOpen_tail (hbase.callsOpen hcalls)))
  | number text us | reference name us | constant name us =>
    exact .single us (by simp [isPrefixPosition_some]) fun _ _ => by rw [orderFrom]
  | negation ht _ ih =>
    obtain ⟨hkind, htext⟩ := isOperatorAmong_iff.1 ht
    exact (ih hstrict (callsOpen_tail hcalls)).prefixed hr hkind (List.mem_singleton.1 htext)
  | group _ hclose ih =>
    subst hstrict
    obtain rfl := hclose.eq_of_strict
    exact (ih rfl (callsOpen_tail hcalls)).group hr
  | call _ hclose ih =>
    subst hstrict
    obtain rfl := hclose.eq_of_strict
    exact .call hr rfl (ih rfl (callsOpen_tail (callsOpen_tail hcalls)))
  | name h =>
    -- Where calls are open, the parenthesis behind the name of a function is there.
    obtain ⟨vs, rfl⟩ := exists_open_of_callsOpen rfl hcalls
    exact absurd rfl (h _ rfl)
  | missing | stray => cases hstrict
  | noArguments => exact .none _
  | arguments _ hfirst _ ihfirst ihmore =>
    exact .some (ihfirst hstrict hcalls) (ihmore hstrict (hfirst.callsOpen hcalls))
  | argumentsEnd => exact .stop _
  | nextArgument ht hnext _ ihnext ihmore =>
    have hcalls₁ := callsOpen_tail hcalls
    exact .comma hr ht (ihnext hstrict hcalls₁) (ihmore hstrict (hnext.callsOpen hcalls₁))

/-- Tokens that are an expression without repairs are ordered as its postorder. -/
theorem order_of_parse (hr : r.FollowsGrammar) {ts : List Token} {e : Expr} (hne : ts ≠ [])
    (hcalls : Token.callsOpen ts = true) (h : parse .strict ts = .ok e) :
    order r ts = .ok e.postorder := by
  have hreads : Reads r 1 1 ts [] e.postorder :=
    (parses_of_parse_strict hne h).orders hr rfl hcalls
  obtain ⟨last, out, top, -, horder, hsteps, htop⟩ := hreads none [] rfl (awaits_nil 1)
  have hparen : Pending.paren ∉ top := fun hmem =>
    (htop _ hmem).ne_paren hr (Int.le_refl 1) rfl
  unfold order
  rw [horder, List.append_nil, orderFrom]
  simp [hparen, prepend, Except.map, hsteps]

end Expr

/-- With the standard operators, the tokens of an expression that reads without repairs are brought
into the postorder of its tree. -/
theorem order_standard_eq_postorder {ts : List Token} {e : Expr} (hne : ts ≠ [])
    (hcalls : Token.callsOpen ts = true) (h : Expr.parse .strict ts = .ok e) :
    Postfix.order Registry.standard ts = .ok e.postorder :=
  Expr.order_of_parse Registry.standard_followsGrammar hne hcalls h

/-- The tokens of `-2 ^ pow(a - 1, 3)`. -/
def callTokens : List Token :=
  [ ⟨.operator, "-"⟩, ⟨.number, "2"⟩, ⟨.operator, "^"⟩, ⟨.function, "pow"⟩, .openParen,
    ⟨.reference, "a"⟩, ⟨.operator, "-"⟩, ⟨.number, "1"⟩, ⟨.comma, ","⟩, ⟨.number, "3"⟩,
    .closeParen ]

/-- The tree of `-2 ^ pow(a - 1, 3)`. -/
def callTree : Expr :=
  .binary "^" (.prefixed "-" (.number "2"))
    (.call "pow" [.binary "-" (.reference "a") (.number "1"), .number "3"])

/-- The postfix order of an expression in which every level of the grammar occurs. -/
theorem order_callTokens : callTokens ≠ [] ∧ Token.callsOpen callTokens = true ∧
    Expr.parse .strict callTokens = .ok callTree ∧
    Postfix.order Registry.standard callTokens = .ok
      [ .number "2", .prefixed "-", .reference "a", .number "1", .operator "-", .number "3",
        .call "pow", .operator "^" ] := by
  have hparse : Expr.parse .strict callTokens = .ok callTree := by cbv
  have horder := order_standard_eq_postorder (by decide) (by decide) hparse
  exact ⟨by decide, by decide, hparse, horder⟩

end LiveSheet
