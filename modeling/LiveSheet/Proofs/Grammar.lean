import LiveSheet.Proofs.Postorder

/-!
# The grammar of strict reading

`Expr.Derives` is the grammar of expressions, without a parser: sums and products are chains that
group to the left, powers group to the right. `Expr.tokens` writes a tree back, a group with its
parentheses and a call with its commas. Strict reading accepts tokens as a tree if and only if the
tree is derived and written as these tokens (`Expr.parse_strict_iff_derives`), so every tree of the
grammar is read back as it was, and no list of tokens is written for two trees.

The parser reads a chain from the left and the grammar derives it from the right. So what is said of
a sum in the middle of tokens is said with what the loop makes of the rest: reading the tokens of a
derived sum and what comes after them is going on with the loop behind that sum (`Reads`).
-/

namespace LiveSheet

/-- The token without what the spelling of a comma says. -/
def Token.plain (t : Token) : Token :=
  if t.kind = .comma then ⟨.comma, ","⟩ else t

/-- A token that is no comma is plain. -/
theorem Token.plain_of_ne {t : Token} (h : t.kind ≠ .comma) : t.plain = t :=
  if_neg h

/-- A token that is no comma is spelled in one way. -/
theorem Token.eq_of_plain_eq {t u : Token} (h : t.plain = u) (hu : u.kind ≠ .comma) : t = u := by
  unfold plain at h
  split at h
  · exact absurd (h ▸ rfl) hu
  · exact h

/-- A token that stands for a comma is one. -/
theorem Token.kind_of_plain_eq {t : Token} (h : t.plain = ⟨.comma, ","⟩) : t.kind = .comma := by
  unfold plain at h
  split at h
  · assumption
  · rw [h]

namespace Expr

/-! ### The grammar -/

/-- The levels of the grammar, from the loosest. -/
inductive Level where
  | sum
  | product
  | power
  | factor
deriving DecidableEq

/-- Whether a tree can be derived at a level of the grammar. -/
inductive Derives : Level → Expr → Prop
  | term {e : Expr} (h : Derives .product e) : Derives .sum e
  | addition {symbol : String} {left right : Expr} (hsymbol : symbol ∈ ["+", "-"])
      (hleft : Derives .sum left) (hright : Derives .product right) :
      Derives .sum (.binary symbol left right)
  | power {e : Expr} (h : Derives .power e) : Derives .product e
  | multiplication {symbol : String} {left right : Expr} (hsymbol : symbol ∈ ["*", "/", "%"])
      (hleft : Derives .product left) (hright : Derives .power right) :
      Derives .product (.binary symbol left right)
  | factor {e : Expr} (h : Derives .factor e) : Derives .power e
  | exponentiation {base exponent : Expr} (hbase : Derives .factor base)
      (hexponent : Derives .power exponent) : Derives .power (.binary "^" base exponent)
  | negation {operand : Expr} (h : Derives .factor operand) :
      Derives .factor (.prefixed "-" operand)
  | number (text : String) : Derives .factor (.number text)
  | reference (name : String) : Derives .factor (.reference name)
  | constant (name : String) : Derives .factor (.constant name)
  | group {inner : Expr} (h : Derives .sum inner) : Derives .factor (.group inner)
  | call (name : String) {args : List Expr} (h : ∀ arg ∈ args, Derives .sum arg) :
      Derives .factor (.call name args)

mutual

/-- The tokens of an expression. -/
def tokens : Expr → List Token
  | number text => [⟨.number, text⟩]
  | reference name => [⟨.reference, name⟩]
  | constant name => [⟨.constant, name⟩]
  | prefixed symbol operand => ⟨.operator, symbol⟩ :: tokens operand
  | binary symbol left right => tokens left ++ ⟨.operator, symbol⟩ :: tokens right
  | group inner => .openParen :: (tokens inner ++ [.closeParen])
  | call name args => ⟨.function, name⟩ :: .openParen :: (tokensOfArguments args ++ [.closeParen])

/-- The tokens of arguments, with commas between them. -/
def tokensOfArguments : List Expr → List Token
  | [] => []
  | e :: es => tokens e ++ tokensBehind es

/-- The tokens of arguments behind another one. -/
def tokensBehind : List Expr → List Token
  | [] => []
  | e :: es => ⟨.comma, ","⟩ :: (tokens e ++ tokensBehind es)

end

mutual

/-- The tokens of an expression are plain. -/
theorem plain_tokens : (e : Expr) → e.tokens.map Token.plain = e.tokens
  | number _ => rfl
  | reference _ => rfl
  | constant _ => rfl
  | prefixed symbol operand => by
    rw [tokens, List.map_cons, plain_tokens operand]
    rfl
  | binary symbol left right => by
    rw [tokens, List.map_append, List.map_cons, plain_tokens left, plain_tokens right]
    rfl
  | group inner => by
    rw [tokens, List.map_cons, List.map_append, plain_tokens inner]
    rfl
  | call name args => by
    rw [tokens, List.map_cons, List.map_cons, List.map_append, plain_tokensOfArguments args]
    rfl

/-- So are the tokens of arguments. -/
theorem plain_tokensOfArguments :
    (es : List Expr) → (tokensOfArguments es).map Token.plain = tokensOfArguments es
  | [] => rfl
  | e :: es => by
    rw [tokensOfArguments, List.map_append, plain_tokens e, plain_tokensBehind es]

/-- And those of the arguments behind the first one. -/
theorem plain_tokensBehind : (es : List Expr) → (tokensBehind es).map Token.plain = tokensBehind es
  | [] => rfl
  | e :: es => by
    rw [tokensBehind, List.map_cons, List.map_append, plain_tokens e, plain_tokensBehind es]
    rfl

end

/-! ### What is read is derived -/

/-- What has been read off tokens is derived at a level, and written as them with the rest. -/
structure Derived (level : Level) (ts : List Token) (e : Expr) (rest : List Token) : Prop where
  derives : e.Derives level
  written : ts.map Token.plain = e.tokens ++ rest.map Token.plain

/-- The same for what has been read behind a left operand. -/
def Extends (level : Level) (left : Expr) (ts : List Token) (e : Expr) (rest : List Token) : Prop :=
  left.Derives level → e.Derives level ∧
    left.tokens ++ ts.map Token.plain = e.tokens ++ rest.map Token.plain

/-- A chain may end at any place. -/
theorem Extends.stop (level : Level) (left : Expr) (ts : List Token) :
    Extends level left ts left ts :=
  fun h => ⟨h, rfl⟩

/-- An operator and its right operand, and what comes after them. -/
theorem Extends.operator {level next : Level} {left right e : Expr} {t : Token}
    {us vs rest : List Token} (hkind : t.kind = .operator)
    (hderives : left.Derives level → right.Derives next →
      (Expr.binary t.text left right).Derives level)
    (hright : Derived next us right vs)
    (hrest : Extends level (.binary t.text left right) vs e rest) :
    Extends level left (t :: us) e rest := by
  intro hleft
  obtain ⟨hderived, hwritten⟩ := hrest (hderives hleft hright.derives)
  refine ⟨hderived, ?_⟩
  have ht : t.plain = ⟨.operator, t.text⟩ := by
    rw [Token.plain_of_ne (by simp [hkind]), ← hkind]
  rw [← hwritten, List.map_cons, ht, hright.written, tokens]
  simp

/-- A level is its first operand and what comes behind it. -/
theorem Derived.chain {level next : Level} {first e : Expr} {ts us rest : List Token}
    (hnext : ∀ {e : Expr}, e.Derives next → e.Derives level) (hfirst : Derived next ts first us)
    (htail : Extends level first us e rest) : Derived level ts e rest := by
  obtain ⟨hderives, hwritten⟩ := htail (hnext hfirst.derives)
  exact ⟨hderives, hfirst.written.trans hwritten⟩

/-- The same for arguments, all of which are sums. -/
structure DerivedArguments (ts : List Token) (args : List Expr) (written rest : List Token) :
    Prop where
  derives : ∀ arg ∈ args, arg.Derives .sum
  written : ts.map Token.plain = written ++ rest.map Token.plain

/-- A token that is an operand by itself is derived. -/
theorem Derived.atom {t : Token} {us : List Token} {e : Expr} (h : e.Derives .factor)
    (htokens : e.tokens = [t]) (hkind : t.kind ≠ .comma) : Derived .factor (t :: us) e us := by
  refine ⟨h, ?_⟩
  rw [List.map_cons, Token.plain_of_ne hkind, htokens]
  rfl

/-- A minus sign with an operand is derived as one. -/
theorem Derived.negation {t : Token} {us rest : List Token} {e : Expr}
    (hkind : t.kind = .operator) (htext : t.text = "-") (h : Derived .factor us e rest) :
    Derived .factor (t :: us) (.prefixed "-" e) rest := by
  refine ⟨.negation h.derives, ?_⟩
  rw [List.map_cons, Token.plain_of_ne (by simp [hkind]), h.written, tokens, ← hkind, ← htext]
  rfl

/-- A base with an exponent is derived as a power. -/
theorem Derived.exponentiation {t : Token} {ts us rest : List Token} {base exponent : Expr}
    (hbase : Derived .factor ts base (t :: us)) (hkind : t.kind = .operator) (htext : t.text = "^")
    (h : Derived .power us exponent rest) :
    Derived .power ts (.binary "^" base exponent) rest := by
  refine ⟨.exponentiation hbase.derives h.derives, ?_⟩
  rw [hbase.written, List.map_cons, Token.plain_of_ne (by simp [hkind]), h.written, tokens,
    ← hkind, ← htext, List.append_assoc]
  rfl

/-- A sum in parentheses is derived as an operand. -/
theorem Derived.group {us rest : List Token} {inner : Expr}
    (h : Derived .sum us inner (.closeParen :: rest)) :
    Derived .factor (.openParen :: us) (.group inner) rest := by
  refine ⟨.group h.derives, ?_⟩
  rw [List.map_cons, h.written, tokens, List.cons_append, List.append_assoc]
  rfl

/-- So is a name with its arguments in parentheses. -/
theorem Derived.call {t : Token} {us rest : List Token} {args : List Expr}
    (hkind : t.kind = .function)
    (h : DerivedArguments us args (tokensOfArguments args) (.closeParen :: rest)) :
    Derived .factor (t :: .openParen :: us) (.call t.text args) rest := by
  refine ⟨.call t.text h.derives, ?_⟩
  rw [List.map_cons, List.map_cons, Token.plain_of_ne (by simp [hkind]), h.written, tokens,
    ← hkind, List.cons_append, List.cons_append, List.append_assoc]
  rfl

/-- There may be no arguments. -/
theorem DerivedArguments.none (ts : List Token) : DerivedArguments ts [] [] ts :=
  ⟨by simp, rfl⟩

/-- The first argument stands by itself. -/
theorem DerivedArguments.first {ts us rest : List Token} {e : Expr} {es : List Expr}
    (h : Derived .sum ts e us) (hrest : DerivedArguments us es (tokensBehind es) rest) :
    DerivedArguments ts (e :: es) (tokensOfArguments (e :: es)) rest := by
  refine ⟨List.forall_mem_cons.2 ⟨h.derives, hrest.derives⟩, ?_⟩
  rw [h.written, hrest.written, tokensOfArguments, List.append_assoc]

/-- The others stand behind commas. -/
theorem DerivedArguments.comma {t : Token} {ts us rest : List Token} {e : Expr} {es : List Expr}
    (hkind : t.kind = .comma) (h : Derived .sum ts e us)
    (hrest : DerivedArguments us es (tokensBehind es) rest) :
    DerivedArguments (t :: ts) (e :: es) (tokensBehind (e :: es)) rest := by
  refine ⟨List.forall_mem_cons.2 ⟨h.derives, hrest.derives⟩, ?_⟩
  rw [List.map_cons, h.written, hrest.written, tokensBehind, List.cons_append, List.append_assoc,
    Token.plain, if_pos hkind]

/-- Whether what a part of the parser comes to is derived, and written as the tokens that it
reads. -/
def Part.IsDerived : Part → (ts rest : List Token) → Prop
  | .sum e, ts, rest => Derived .sum ts e rest
  | .sumTail left e, ts, rest => Extends .sum left ts e rest
  | .product e, ts, rest => Derived .product ts e rest
  | .productTail left e, ts, rest => Extends .product left ts e rest
  | .power e, ts, rest => Derived .power ts e rest
  | .factor e, ts, rest => Derived .factor ts e rest
  | .arguments es, ts, rest => DerivedArguments ts es (tokensOfArguments es) rest
  | .argumentsTail es, ts, rest => DerivedArguments ts es (tokensBehind es) rest

/-- What is read without repairs is derived, if calls are open. -/
theorem Parses.isDerived {reading : Reading} {part : Part} {ts rest : List Token}
    (h : Parses reading part ts rest) (hstrict : reading = .strict)
    (hcalls : Token.callsOpen ts = true) : part.IsDerived ts rest := by
  induction h with
  | sum hfirst _ ihfirst ihtail =>
    exact .chain .term (ihfirst hstrict hcalls) (ihtail hstrict (hfirst.callsOpen hcalls))
  | product hfirst _ ihfirst ihtail =>
    exact .chain .power (ihfirst hstrict hcalls) (ihtail hstrict (hfirst.callsOpen hcalls))
  | sumEnd | productEnd => exact .stop _ _ _
  | addition ht hright _ ihright ihtail =>
    obtain ⟨hkind, htext⟩ := isOperatorAmong_iff.1 ht
    have hcalls₁ := callsOpen_tail hcalls
    exact .operator hkind (.addition htext) (ihright hstrict hcalls₁)
      (ihtail hstrict (hright.callsOpen hcalls₁))
  | multiplication ht hright _ ihright ihtail =>
    obtain ⟨hkind, htext⟩ := isOperatorAmong_iff.1 ht
    have hcalls₁ := callsOpen_tail hcalls
    exact .operator hkind (.multiplication htext) (ihright hstrict hcalls₁)
      (ihtail hstrict (hright.callsOpen hcalls₁))
  | base _ _ ih =>
    have hfactor : Derived .factor _ _ _ := ih hstrict hcalls
    exact ⟨.factor hfactor.derives, hfactor.written⟩
  | exponentiation hbase ht _ ihbase ihexponent =>
    obtain ⟨hkind, htext⟩ := isOperatorAmong_iff.1 ht
    exact .exponentiation (ihbase hstrict hcalls) hkind (List.mem_singleton.1 htext)
      (ihexponent hstrict (callsOpen_tail (hbase.callsOpen hcalls)))
  | number text => exact .atom (.number text) rfl (by simp)
  | reference name => exact .atom (.reference name) rfl (by simp)
  | constant name => exact .atom (.constant name) rfl (by simp)
  | negation ht _ ih =>
    obtain ⟨hkind, htext⟩ := isOperatorAmong_iff.1 ht
    exact .negation hkind (List.mem_singleton.1 htext) (ih hstrict (callsOpen_tail hcalls))
  | group _ hclose ih =>
    subst hstrict
    obtain rfl := hclose.eq_of_strict
    exact .group (ih rfl (callsOpen_tail hcalls))
  | call _ hclose ih =>
    subst hstrict
    obtain rfl := hclose.eq_of_strict
    exact .call rfl (ih rfl (callsOpen_tail (callsOpen_tail hcalls)))
  | name h =>
    -- Calls are open, so a parenthesis follows the name of the function.
    obtain ⟨vs, rfl⟩ := exists_open_of_callsOpen rfl hcalls
    exact absurd rfl (h _ rfl)
  | missing | stray => cases hstrict
  | noArguments | argumentsEnd => exact .none _
  | arguments _ hfirst _ ihfirst ihmore =>
    exact .first (ihfirst hstrict hcalls) (ihmore hstrict (hfirst.callsOpen hcalls))
  | nextArgument ht hnext _ ihnext ihmore =>
    have hcalls₁ := callsOpen_tail hcalls
    exact .comma ht (ihnext hstrict hcalls₁) (ihmore hstrict (hnext.callsOpen hcalls₁))

/-! ### What is derived is read -/

section

variable {α : Type} {reading : Reading} {ts us vs rest : List Token} {t : Token}
  {e left right first : Expr} {args : List Expr}

/-- What a part of the parser has read, and what it has left. -/
def Yields (result : Except ParseError (Parsed α ts)) (value : α) (rest : List Token) : Prop :=
  ∃ h, result = .ok ⟨value, rest, h⟩

/-! The rules of the parser. -/

/-- A sum is read as its first product and what comes behind it. -/
theorem yields_sum (hfirst : Yields (parseProduct reading ts) first us)
    (htail : Yields (parseSumTail reading first us) e rest) :
    Yields (parseSum reading ts) e rest := by
  obtain ⟨hle, hfirst⟩ := hfirst
  obtain ⟨hle', htail⟩ := htail
  refine ⟨Nat.le_trans hle' hle, ?_⟩
  rw [parseSum, hfirst]
  simp only [htail]
  rfl

/-- A further product is read behind its sign. -/
theorem yields_sumTail (ht : t.isOperatorAmong ["+", "-"] = true)
    (hright : Yields (parseProduct reading us) right vs)
    (htail : Yields (parseSumTail reading (.binary t.text left right) vs) e rest) :
    Yields (parseSumTail reading left (t :: us)) e rest := by
  obtain ⟨hle, hright⟩ := hright
  obtain ⟨hle', htail⟩ := htail
  refine ⟨Nat.le_succ_of_le (Nat.le_trans hle' hle), ?_⟩
  rw [parseSumTail, if_pos ht, hright]
  simp only [htail]
  rfl

/-- Without a sign the sum ends. -/
theorem yields_sumTail_stop (h : NotNext ["+", "-"] ts) :
    Yields (parseSumTail reading left ts) left ts := by
  refine ⟨Nat.le_refl _, ?_⟩
  cases ts with
  | nil => rw [parseSumTail]; rfl
  | cons t us =>
    rw [parseSumTail, if_neg (by simp [h t (by simp)])]
    rfl

/-- A product is read as its first power and what comes behind it. -/
theorem yields_product (hfirst : Yields (parsePower reading ts) first us)
    (htail : Yields (parseProductTail reading first us) e rest) :
    Yields (parseProduct reading ts) e rest := by
  obtain ⟨hle, hfirst⟩ := hfirst
  obtain ⟨hle', htail⟩ := htail
  refine ⟨Nat.le_trans hle' hle, ?_⟩
  rw [parseProduct, hfirst]
  simp only [htail]
  rfl

/-- A further power is read behind its sign. -/
theorem yields_productTail (ht : t.isOperatorAmong ["*", "/", "%"] = true)
    (hright : Yields (parsePower reading us) right vs)
    (htail : Yields (parseProductTail reading (.binary t.text left right) vs) e rest) :
    Yields (parseProductTail reading left (t :: us)) e rest := by
  obtain ⟨hle, hright⟩ := hright
  obtain ⟨hle', htail⟩ := htail
  refine ⟨Nat.le_succ_of_le (Nat.le_trans hle' hle), ?_⟩
  rw [parseProductTail, if_pos ht, hright]
  simp only [htail]
  rfl

/-- Without a sign the product ends. -/
theorem yields_productTail_stop (h : NotNext ["*", "/", "%"] ts) :
    Yields (parseProductTail reading left ts) left ts := by
  refine ⟨Nat.le_refl _, ?_⟩
  cases ts with
  | nil => rw [parseProductTail]; rfl
  | cons t us =>
    rw [parseProductTail, if_neg (by simp [h t (by simp)])]
    rfl

/-- A base without an exponent is read as it is. -/
theorem yields_power_alone (hbase : Yields (parseFactor reading ts) e rest)
    (h : NotNext ["^"] rest) : Yields (parsePower reading ts) e rest := by
  obtain ⟨hle, hbase⟩ := hbase
  refine ⟨hle, ?_⟩
  rw [parsePower, hbase]
  dsimp only
  cases rest with
  | nil => rfl
  | cons t us =>
    dsimp only
    rw [if_neg (by simp [h t (by simp)])]

/-- A base is read with its exponent. -/
theorem yields_power (hbase : Yields (parseFactor reading ts) left (t :: us))
    (ht : t.isOperatorAmong ["^"] = true) (hexponent : Yields (parsePower reading us) right rest) :
    Yields (parsePower reading ts) (.binary "^" left right) rest := by
  obtain ⟨hle, hbase⟩ := hbase
  obtain ⟨hle', hexponent⟩ := hexponent
  refine ⟨Nat.le_trans hle' (Nat.le_of_succ_le hle), ?_⟩
  rw [parsePower, hbase]
  dsimp only
  rw [if_pos ht, hexponent]
  rfl

/-- A number is an operand. -/
theorem yields_number (text : String) (rest : List Token) :
    Yields (parseFactor reading (⟨.number, text⟩ :: rest)) (.number text) rest :=
  ⟨Nat.le_succ _, by rw [parseFactor.eq_def]⟩

/-- So is a reference. -/
theorem yields_reference (name : String) (rest : List Token) :
    Yields (parseFactor reading (⟨.reference, name⟩ :: rest)) (.reference name) rest :=
  ⟨Nat.le_succ _, by rw [parseFactor.eq_def]⟩

/-- And a constant. -/
theorem yields_constant (name : String) (rest : List Token) :
    Yields (parseFactor reading (⟨.constant, name⟩ :: rest)) (.constant name) rest :=
  ⟨Nat.le_succ _, by rw [parseFactor.eq_def]⟩

/-- A minus sign is read with its operand. -/
theorem yields_negation (ht : t.isOperatorAmong ["-"] = true)
    (hoperand : Yields (parseFactor reading us) e rest) :
    Yields (parseFactor reading (t :: us)) (.prefixed "-" e) rest := by
  obtain ⟨hle, hoperand⟩ := hoperand
  refine ⟨Nat.le_succ_of_le hle, ?_⟩
  rw [parseFactor.eq_def]
  simp only [(isOperatorAmong_iff.1 ht).1, if_pos ht, hoperand]
  rfl

/-- A closing parenthesis is passed. -/
theorem yields_closing (error : ParseError) :
    Yields (closing reading error (.closeParen :: rest)) () rest :=
  ⟨Nat.le_succ _, rfl⟩

/-- A sum between parentheses is read as a group. -/
theorem yields_group (hinner : Yields (parseSum reading us) e vs)
    (hclose : Yields (closing reading .unclosedGroup vs) () rest) :
    Yields (parseFactor reading (.openParen :: us)) (.group e) rest := by
  obtain ⟨hle, hinner⟩ := hinner
  obtain ⟨hle', hclose⟩ := hclose
  refine ⟨Nat.le_trans hle' (Nat.le_succ_of_le hle), ?_⟩
  rw [parseFactor.eq_def]
  dsimp only [Token.openParen] at hinner ⊢
  rw [if_neg (by decide), if_pos (by decide), hinner]
  simp only [hclose]

/-- A name is read with its arguments. -/
theorem yields_call (ht : t.kind = .function) (hargs : Yields (parseArguments reading us) args vs)
    (hclose : Yields (closing reading (.unclosedCall t.text) vs) () rest) :
    Yields (parseFactor reading (t :: .openParen :: us)) (.call t.text args) rest := by
  obtain ⟨hle, hargs⟩ := hargs
  obtain ⟨hle', hclose⟩ := hclose
  refine ⟨by simp only [List.length_cons]; omega, ?_⟩
  rw [parseFactor.eq_def]
  simp only [ht]
  rw [if_pos (by decide), hargs]
  simp only [hclose]

/-- A closing parenthesis or the end leaves no arguments. -/
theorem yields_arguments_none (h : ∀ t ∈ ts.head?, t = .closeParen) :
    Yields (parseArguments reading ts) [] ts := by
  refine ⟨Nat.le_refl _, ?_⟩
  cases ts with
  | nil => rw [parseArguments]; rfl
  | cons t us =>
    obtain rfl := h t (by simp)
    rw [parseArguments, if_pos (by decide)]
    rfl

/-- Arguments are read as the first one and what comes behind it. -/
theorem yields_arguments (ht : t ≠ .closeParen) (hfirst : Yields (parseSum reading (t :: us)) e vs)
    (hrest : Yields (parseArgumentsTail reading vs) args rest) :
    Yields (parseArguments reading (t :: us)) (e :: args) rest := by
  obtain ⟨hle, hfirst⟩ := hfirst
  obtain ⟨hle', hrest⟩ := hrest
  refine ⟨Nat.le_trans hle' hle, ?_⟩
  rw [parseArguments, if_neg (by simpa [Token.isCloseParen] using ht), hfirst]
  simp only [hrest]
  rfl

/-- Without a comma the arguments end. -/
theorem yields_argumentsTail_stop (h : ∀ t ∈ ts.head?, t.kind ≠ .comma) :
    Yields (parseArgumentsTail reading ts) [] ts := by
  refine ⟨Nat.le_refl _, ?_⟩
  cases ts with
  | nil => rw [parseArgumentsTail]; rfl
  | cons t us =>
    rw [parseArgumentsTail, if_neg (h t (by simp))]
    rfl

/-- A further argument is read behind its comma. -/
theorem yields_argumentsTail (ht : t.kind = .comma) (hnext : Yields (parseSum reading us) e vs)
    (hrest : Yields (parseArgumentsTail reading vs) args rest) :
    Yields (parseArgumentsTail reading (t :: us)) (e :: args) rest := by
  obtain ⟨hle, hnext⟩ := hnext
  obtain ⟨hle', hrest⟩ := hrest
  refine ⟨Nat.le_succ_of_le (Nat.le_trans hle' hle), ?_⟩
  rw [parseArgumentsTail, if_pos ht, hnext]
  simp only [hrest]
  rfl

/-! Where the tokens of an expression are cut. -/

/-- Tokens that are plainly two lists one after the other can be cut there. -/
theorem exists_of_plain_append {front back : List Token} (h : ts.map Token.plain = front ++ back) :
    ∃ us vs, ts = us ++ vs ∧ us.map Token.plain = front ∧ vs.map Token.plain = back :=
  List.map_eq_append_iff.1 h

/-- And the first token can be taken from them, unless it is a comma. -/
theorem exists_of_plain_cons {back : List Token} (ht : t.kind ≠ .comma)
    (h : ts.map Token.plain = t :: back) : ∃ us, ts = t :: us ∧ us.map Token.plain = back := by
  obtain ⟨t', us, rfl, hplain, hback⟩ := List.map_eq_cons_iff.1 h
  obtain rfl := Token.eq_of_plain_eq hplain ht
  exact ⟨us, rfl, hback⟩

/-- The tokens of a binary expression, at its operator. -/
theorem exists_of_plain_binary {symbol : String}
    (h : ts.map Token.plain = (Expr.binary symbol left right).tokens) :
    ∃ us vs, ts = us ++ ⟨.operator, symbol⟩ :: vs ∧ us.map Token.plain = left.tokens ∧
      vs.map Token.plain = right.tokens := by
  obtain ⟨us, back, rfl, hleft, hback⟩ := exists_of_plain_append h
  obtain ⟨vs, rfl, hright⟩ := exists_of_plain_cons (by simp) hback
  exact ⟨us, vs, rfl, hleft, hright⟩

/-- No expression begins with a closing parenthesis. -/
theorem exists_head_tokens : (e : Expr) → ∃ t ts, e.tokens = t :: ts ∧ t ≠ .closeParen
  | number _ => ⟨_, _, rfl, by simp [Token.closeParen]⟩
  | reference _ => ⟨_, _, rfl, by simp [Token.closeParen]⟩
  | constant _ => ⟨_, _, rfl, by simp [Token.closeParen]⟩
  | prefixed _ _ => ⟨_, _, rfl, by simp [Token.closeParen]⟩
  | binary symbol left right => by
    obtain ⟨t, ts, htokens, ht⟩ := exists_head_tokens left
    exact ⟨t, ts ++ ⟨.operator, symbol⟩ :: right.tokens, by rw [tokens, htokens]; rfl, ht⟩
  | group _ => ⟨_, _, rfl, by decide⟩
  | call _ _ => ⟨_, _, rfl, by simp [Token.closeParen]⟩

/-- Behind an argument there is no operator. -/
theorem notNext_behind (hts : ts.map Token.plain = tokensBehind args) (symbols : List String)
    (rest : List Token) : NotNext symbols (ts ++ .closeParen :: rest) := by
  refine .of_kind fun t ht => ?_
  cases args with
  | nil =>
    obtain rfl : ts = [] := List.map_eq_nil_iff.1 hts
    obtain rfl : Token.closeParen = t := by simpa using ht
    decide
  | cons e es =>
    obtain ⟨t', us, rfl, hplain, -⟩ := List.map_eq_cons_iff.1 hts
    obtain rfl : t' = t := by simpa using ht
    simp [Token.kind_of_plain_eq hplain]

/-! Reading what is written. -/

/-- Whether an expression is read where its tokens stand. Behind a sum or a product the loop goes on
with what comes next, and a power takes the next operator if that is `^`. -/
def Reads (reading : Reading) : Level → Expr → Prop
  | .sum, e => ∀ ts next e' rest, ts.map Token.plain = e.tokens → NotNext ["^"] next →
    NotNext ["*", "/", "%"] next → Yields (parseSumTail reading e next) e' rest →
      Yields (parseSum reading (ts ++ next)) e' rest
  | .product, e => ∀ ts next e' rest, ts.map Token.plain = e.tokens → NotNext ["^"] next →
    Yields (parseProductTail reading e next) e' rest →
      Yields (parseProduct reading (ts ++ next)) e' rest
  | .power, e => ∀ ts next, ts.map Token.plain = e.tokens → NotNext ["^"] next →
    Yields (parsePower reading (ts ++ next)) e next
  | .factor, e => ∀ ts next, ts.map Token.plain = e.tokens →
    Yields (parseFactor reading (ts ++ next)) e next

/-- A sum is read up to what is no operator of the grammar. -/
theorem Reads.sum (h : Reads reading .sum e) {next : List Token}
    (hts : ts.map Token.plain = e.tokens) (hnext : ∀ symbols, NotNext symbols next) :
    Yields (parseSum reading (ts ++ next)) e next :=
  h ts next e next hts (hnext _) (hnext _) (yields_sumTail_stop (hnext _))

/-- The arguments behind the first one are read from their tokens. -/
theorem reads_behind (h : ∀ arg ∈ args, Reads reading .sum arg) (rest : List Token)
    (hts : ts.map Token.plain = tokensBehind args) :
    Yields (parseArgumentsTail reading (ts ++ .closeParen :: rest)) args (.closeParen :: rest) := by
  induction args generalizing ts with
  | nil =>
    obtain rfl : ts = [] := List.map_eq_nil_iff.1 hts
    exact yields_argumentsTail_stop (by simp [Token.closeParen])
  | cons e es ih =>
    obtain ⟨hfirst, hmore⟩ := List.forall_mem_cons.1 h
    obtain ⟨t, back, rfl, hcomma, hback⟩ := List.map_eq_cons_iff.1 hts
    obtain ⟨us, vs, rfl, hus, hvs⟩ := exists_of_plain_append hback
    rw [List.cons_append, List.append_assoc]
    exact yields_argumentsTail (Token.kind_of_plain_eq hcomma)
      (hfirst.sum hus fun symbols => notNext_behind hvs symbols rest) (ih hmore hvs)

/-- And so are all of them. -/
theorem reads_tokensOfArguments (h : ∀ arg ∈ args, Reads reading .sum arg) (rest : List Token)
    (hts : ts.map Token.plain = tokensOfArguments args) :
    Yields (parseArguments reading (ts ++ .closeParen :: rest)) args (.closeParen :: rest) := by
  cases args with
  | nil =>
    obtain rfl : ts = [] := List.map_eq_nil_iff.1 hts
    exact yields_arguments_none (by simp)
  | cons e es =>
    obtain ⟨hfirst, hmore⟩ := List.forall_mem_cons.1 h
    obtain ⟨us, vs, rfl, hus, hvs⟩ := exists_of_plain_append hts
    have hsum := hfirst.sum hus fun symbols => notNext_behind hvs symbols rest
    obtain ⟨t, back, hhead, hne⟩ := exists_head_tokens e
    obtain ⟨t', us', rfl, hplain, -⟩ := List.map_eq_cons_iff.1 (hus.trans hhead)
    have hne' : t' ≠ .closeParen := by
      rintro rfl
      exact hne hplain.symm
    rw [List.append_assoc]
    exact yields_arguments hne' hsum (reads_behind hmore rest hvs)

/-- What is derived is read where its tokens stand. -/
theorem Derives.reads (reading : Reading) {level : Level} (h : e.Derives level) :
    Reads reading level e := by
  induction h with
  | term _ ih =>
    intro ts next e' rest hts hpower hproduct htail
    exact yields_sum (ih ts next _ next hts hpower (yields_productTail_stop hproduct)) htail
  | @addition symbol left right hsymbol _ _ ihleft ihright =>
    intro ts next e' rest hts hpower hproduct htail
    obtain ⟨us, vs, rfl, hus, hvs⟩ := exists_of_plain_binary hts
    have hright := ihright vs next right next hvs hpower (yields_productTail_stop hproduct)
    rw [List.append_assoc, List.cons_append]
    -- The left operand is read with the operator and the right one as its tail.
    refine ihleft us _ e' rest hus (notNext_operator ?_) (notNext_operator ?_)
      (yields_sumTail (isOperatorAmong_iff.2 ⟨rfl, hsymbol⟩) hright htail)
    all_goals
      obtain rfl | rfl : symbol = "+" ∨ symbol = "-" := by simpa using hsymbol
      all_goals decide
  | power _ ih =>
    intro ts next e' rest hts hpower htail
    exact yields_product (ih ts next hts hpower) htail
  | @multiplication symbol left right hsymbol _ _ ihleft ihright =>
    intro ts next e' rest hts hpower htail
    obtain ⟨us, vs, rfl, hus, hvs⟩ := exists_of_plain_binary hts
    have hright := ihright vs next hvs hpower
    rw [List.append_assoc, List.cons_append]
    refine ihleft us _ e' rest hus (notNext_operator fun hmem => ?_)
      (yields_productTail (isOperatorAmong_iff.2 ⟨rfl, hsymbol⟩) hright htail)
    obtain rfl := List.mem_singleton.1 hmem
    simp at hsymbol
  | factor _ ih =>
    intro ts next hts hpower
    exact yields_power_alone (ih ts next hts) hpower
  | @exponentiation base exponent _ _ ihbase ihexponent =>
    intro ts next hts hpower
    obtain ⟨us, vs, rfl, hus, hvs⟩ := exists_of_plain_binary hts
    rw [List.append_assoc, List.cons_append]
    exact yields_power (ihbase us _ hus) (by decide) (ihexponent vs next hvs hpower)
  | negation _ ih =>
    intro ts next hts
    obtain ⟨us, rfl, hus⟩ := exists_of_plain_cons (by simp) hts
    exact yields_negation (by decide) (ih us next hus)
  | number text =>
    intro ts next hts
    obtain ⟨us, rfl, hus⟩ := exists_of_plain_cons (by simp) hts
    obtain rfl := List.map_eq_nil_iff.1 hus
    exact yields_number text next
  | reference name =>
    intro ts next hts
    obtain ⟨us, rfl, hus⟩ := exists_of_plain_cons (by simp) hts
    obtain rfl := List.map_eq_nil_iff.1 hus
    exact yields_reference name next
  | constant name =>
    intro ts next hts
    obtain ⟨us, rfl, hus⟩ := exists_of_plain_cons (by simp) hts
    obtain rfl := List.map_eq_nil_iff.1 hus
    exact yields_constant name next
  | @group inner _ ih =>
    intro ts next hts
    obtain ⟨back, rfl, hback⟩ := exists_of_plain_cons (by decide) hts
    obtain ⟨us, close, rfl, hus, hclose⟩ := exists_of_plain_append hback
    obtain ⟨none, rfl, hnone⟩ := exists_of_plain_cons (by decide) hclose
    obtain rfl := List.map_eq_nil_iff.1 hnone
    rw [List.cons_append, List.append_assoc]
    exact yields_group (ih.sum hus fun symbols => .of_kind (by simp [Token.closeParen]))
      (yields_closing _)
  | @call name args _ ih =>
    intro ts next hts
    obtain ⟨call, rfl, hcall⟩ := exists_of_plain_cons (by simp) hts
    obtain ⟨back, rfl, hback⟩ := exists_of_plain_cons (by decide) hcall
    obtain ⟨us, close, rfl, hus, hclose⟩ := exists_of_plain_append hback
    obtain ⟨none, rfl, hnone⟩ := exists_of_plain_cons (by decide) hclose
    obtain rfl := List.map_eq_nil_iff.1 hnone
    rw [List.cons_append, List.cons_append, List.append_assoc]
    exact yields_call rfl (reads_tokensOfArguments ih next hus) (yields_closing _)

end

/-! ### Strict reading -/

variable {ts : List Token} {e : Expr}

/-- What is read without repairs is derived, and it has the tokens of the text. -/
theorem derives_of_parse_strict (hne : ts ≠ []) (hcalls : Token.callsOpen ts = true)
    (h : parse .strict ts = .ok e) : e.Derives .sum ∧ e.tokens = ts.map Token.plain := by
  have hderived : Derived .sum ts e [] := (parses_of_parse_strict hne h).isDerived rfl hcalls
  refine ⟨hderived.derives, ?_⟩
  rw [hderived.written, List.map_nil, List.append_nil]

/-- What is derived is read from its tokens, strictly and leniently. -/
theorem Derives.parse_of_tokens (reading : Reading) (h : e.Derives .sum)
    (hts : e.tokens = ts.map Token.plain) : parse reading ts = .ok e := by
  have hsum := (h.reads reading).sum hts.symm notNext_nil
  rw [List.append_nil] at hsum
  obtain ⟨hle, hsum⟩ := hsum
  have hne : ts ≠ [] := by
    rintro rfl
    obtain ⟨t, us, hhead, -⟩ := exists_head_tokens e
    rw [hts] at hhead
    cases hhead
  unfold parse
  rw [if_neg (by simpa using hne), hsum]

/-- What is derived is read from its tokens. -/
theorem Derives.parse_strict (h : e.Derives .sum) (hts : e.tokens = ts.map Token.plain) :
    parse .strict ts = .ok e :=
  h.parse_of_tokens .strict hts

/-- Strict reading accepts tokens as a tree if and only if the grammar derives the tree and it is
written as these tokens, and refuses all other tokens. Every tree of the grammar is read back as it
was from the tokens that it is written as. -/
theorem parse_strict_iff_derives :
    (∀ ts, ts ≠ [] → Token.callsOpen ts = true →
      (∀ e : Expr, parse .strict ts = .ok e ↔ e.Derives .sum ∧ e.tokens = ts.map Token.plain) ∧
        ((∃ e : Expr, e.Derives .sum ∧ e.tokens = ts.map Token.plain) ∨
          ∃ error, parse .strict ts = .error error)) ∧
      ∀ e : Expr, e.Derives .sum → parse .strict e.tokens = .ok e := by
  refine ⟨fun ts hne hcalls => ⟨fun e => ?_, ?_⟩, fun e h => h.parse_strict (plain_tokens e).symm⟩
  · exact ⟨derives_of_parse_strict hne hcalls, fun h => h.1.parse_strict h.2⟩
  · cases hparse : parse .strict ts with
    | error error => exact .inr ⟨error, rfl⟩
    | ok e => exact .inl ⟨e, derives_of_parse_strict hne hcalls hparse⟩

/-- The tree of `-2 ^ pow(a - 1, 3)` is derived, so it is the one that its tokens are read as. -/
theorem parse_callTokens :
    callTokens ≠ [] ∧ Token.callsOpen callTokens = true ∧ callTree.Derives .sum ∧
      callTree.tokens = callTokens.map Token.plain ∧
        (∀ e, parse .strict callTokens = .ok e ↔ e = callTree) ∧
          parse .strict callTree.tokens = .ok callTree := by
  have hderives : callTree.Derives .sum := by
    refine .term (.power (.exponentiation (.negation (.number "2")) (.factor (.call "pow" ?_))))
    refine List.forall_mem_cons.2 ⟨?_, List.forall_mem_singleton.2 ?_⟩
    · exact .addition (by decide) (.term (.power (.factor (.reference "a"))))
        (.power (.factor (.number "1")))
    · exact .term (.power (.factor (.number "3")))
  have htokens : callTree.tokens = callTokens.map Token.plain := by rfl
  have hparse := (parse_strict_iff_derives.1 callTokens (by decide) (by decide)).1
  refine ⟨by decide, by decide, hderives, htokens, fun e => ?_,
    parse_strict_iff_derives.2 callTree hderives⟩
  rw [(hparse callTree).2 ⟨hderives, htokens⟩, Except.ok.injEq, eq_comm]

end Expr

end LiveSheet
