import LiveSheet.Proofs.Notation
import LiveSheet.Proofs.Recalculation

/-!
# Fingerprints

A fingerprint is an expression followed by a list of results in brackets. A result is a number, an
error kind, or 0 in place of a node that is not registered (`Value.IsSeen`). None of them is written
with a bracket, a comma or nothing at all, so the last opening bracket ends the expression and the
commas end the results; and a result is determined by its text. Hence expression and results can be
told from a fingerprint (`Sheet.fingerprintOf_eq_iff`), whatever the expression ends with.
-/

namespace LiveSheet

/-! ### Lists in text -/

/-- Two texts that are cut at the same character are cut at the same place, or the character stands
behind the first cut and before the second one, or the other way round. -/
theorem append_cons_inj_or {α : Type} {x : α} {as as' bs bs' : List α}
    (heq : as ++ x :: bs = as' ++ x :: bs') :
    (as = as' ∧ bs = bs') ∨ (x ∈ bs ∧ x ∈ as') ∨ (x ∈ as ∧ x ∈ bs') := by
  rcases List.append_eq_append_iff.1 heq with ⟨cs, rfl, hcs⟩ | ⟨cs, rfl, hcs⟩
  · cases cs with
    | nil => exact .inl ⟨by simp, by simpa using hcs⟩
    | cons c cs =>
      rw [List.cons_append] at hcs
      obtain ⟨rfl, rfl⟩ := List.cons.inj hcs
      exact .inr (.inl ⟨by simp, by simp⟩)
  · cases cs with
    | nil => exact .inl ⟨by simp, by simpa [eq_comm] using hcs⟩
    | cons c cs =>
      rw [List.cons_append] at hcs
      obtain ⟨rfl, rfl⟩ := List.cons.inj hcs
      exact .inr (.inr ⟨by simp, by simp⟩)

/-- A character of a list in text stands between the items or in one of them. -/
theorem mem_intercalate {α : Type} {x : α} {separator : List α} {items : List (List α)}
    (h : x ∈ separator.intercalate items) : x ∈ separator ∨ ∃ item ∈ items, x ∈ item := by
  induction items with
  | nil => simp at h
  | cons a rest ih =>
    cases rest with
    | nil => exact .inr ⟨a, by simp, by simpa using h⟩
    | cons b rest =>
      rw [List.intercalate_cons_cons, List.mem_append, List.mem_append] at h
      rcases h with (h | h) | h
      · exact .inr ⟨a, by simp, h⟩
      · exact .inl h
      · rcases ih h with hseparator | ⟨item, hitem, hx⟩
        · exact .inl hseparator
        · exact .inr ⟨item, List.mem_cons_of_mem a hitem, hx⟩

/-- Items without commas can be told from the list of them. -/
theorem intercalate_injective {items items' : List (List Char)}
    (h : ∀ item ∈ items, item ≠ [] ∧ ',' ∉ item) (h' : ∀ item ∈ items', item ≠ [] ∧ ',' ∉ item)
    (heq : [',', ' '].intercalate items = [',', ' '].intercalate items') : items = items' := by
  -- A list with items has a text, for its first item has one.
  have hne : ∀ {a : List Char} {rest : List (List Char)}, a ≠ [] →
      [',', ' '].intercalate (a :: rest) ≠ [] := by
    intro a rest ha
    cases rest with
    | nil => simpa using ha
    | cons b rest => simp
  induction items generalizing items' with
  | nil =>
    cases items' with
    | nil => rfl
    | cons b rest' => exact absurd heq.symm (hne (h' b (by simp)).1)
  | cons a rest ih =>
    cases items' with
    | nil => exact absurd heq (hne (h a (by simp)).1)
    | cons b rest' =>
      have ha := (h a (by simp)).2
      have hb := (h' b (by simp)).2
      have ih := fun rest' => @ih rest' fun item hitem =>
        h item (List.mem_cons_of_mem a hitem)
      have hrest' := fun item hitem => h' item (List.mem_cons_of_mem b hitem)
      cases rest with
      | nil =>
        cases rest' with
        | nil => simpa using heq
        | cons b' rest' =>
          rw [List.intercalate_singleton, List.intercalate_cons_cons] at heq
          exact absurd (heq ▸ by simp) ha
      | cons a' rest =>
        cases rest' with
        | nil =>
          rw [List.intercalate_singleton, List.intercalate_cons_cons] at heq
          exact absurd (heq ▸ by simp) hb
        | cons b' rest' =>
          rw [List.intercalate_cons_cons, List.intercalate_cons_cons] at heq
          simp only [List.append_assoc, List.cons_append, List.nil_append] at heq
          -- The first comma ends the first item on both sides.
          rcases append_cons_inj_or heq with ⟨rfl, htail⟩ | ⟨-, hcomma⟩ | ⟨hcomma, -⟩
          · rw [ih (b' :: rest') hrest' (List.cons.inj htail).2]
          · exact absurd hcomma hb
          · exact absurd hcomma ha

/-! ### Results in text -/

/-- Numbers can be read back from their texts. -/
theorem legible_jsonNumber : Value.jsonNumber.Legible where
  signedZero := rfl
  differ := by decide
  infinity := ⟨rfl, by decide⟩
  notANumber := ⟨rfl, by decide⟩

/-- A character that belongs to a list and not to its items. -/
def isDelimiter (c : Char) : Bool :=
  c == ',' || c == '['

/-- No number has a delimiter of lists in its text. -/
theorem not_isDelimiter_of_mem_format {x : Float} {c : Char}
    (h : c ∈ (Value.jsonNumber.format x).toList) : isDelimiter c = false ∧ c ≠ '"' := by
  have hwords : ∀ c ∈ Value.jsonNumber.infinity.toList ++ Value.jsonNumber.notANumber.toList,
      isDelimiter c = false ∧ c ≠ '"' := Decimal.forall_mem_of_all (by decide)
  rcases Decimal.Style.mem_format h with hnumeral | hword
  · constructor
    · by_contra hdelimiter
      rw [Bool.not_eq_false, isDelimiter, Bool.or_eq_true, beq_iff_eq, beq_iff_eq] at hdelimiter
      rcases hdelimiter with rfl | rfl <;> exact absurd hnumeral (by decide)
    · rintro rfl
      exact absurd hnumeral (by decide)
  · exact hwords c (List.mem_append.2 hword)

/-- A number has a text. -/
theorem format_ne_empty (x : Float) : (Value.jsonNumber.format x).toList ≠ [] := by
  rw [Decimal.Style.toList_format legible_jsonNumber]
  intro hnil
  have hbody := (List.append_eq_nil_iff.1 hnil).2
  have hread := Decimal.Style.readMagnitude?_bodyOf legible_jsonNumber (Binary64.decode x)
  rw [hbody] at hread
  cases hx : Binary64.decode x with
  | notANumber =>
    rw [hx] at hbody
    exact absurd (show Value.jsonNumber.notANumber.toList = [] from hbody) (by decide)
  | infinite negative =>
    rw [hx] at hbody
    exact absurd (show Value.jsonNumber.infinity.toList = [] from hbody) (by decide)
  | finite negative m e =>
    rw [hx] at hread
    cases hread

/-- Without an exponent there is a point. -/
theorem point_mem_positionalChars (ds : List Char) (exponent : Int) :
    '.' ∈ Decimal.positionalChars true ds exponent := by
  unfold Decimal.positionalChars
  split
  · simp
  · simp only
    split <;> simp

/-- So there is a point or an exponent in every number. -/
theorem mark_mem_magnitude (d : Decimal.Expansion) :
    '.' ∈ Value.jsonNumber.magnitude d ∨ 'e' ∈ Value.jsonNumber.magnitude d := by
  unfold Decimal.Style.magnitude
  simp only
  split
  · exact .inl (point_mem_positionalChars _ _)
  · exact .inr (by simp)

/-- A number has a point or an exponent, so it is not written like a whole number. -/
theorem format_ne_zero (x : Float) : Value.jsonNumber.format x ≠ "0" := by
  intro htext
  unfold Decimal.Style.format at htext
  cases hx : Binary64.decode x with
  | notANumber =>
    rw [hx] at htext
    exact absurd htext (by decide)
  | infinite negative =>
    rw [hx] at htext
    cases negative <;> exact absurd htext (by decide)
  | finite negative m e =>
    rw [hx] at htext
    have hchars := congrArg String.toList htext
    simp only [apply_ite String.toList, String.toList_ofList] at hchars
    split at hchars
    · have hpoint := point_mem_positionalChars ['0'] 0
      have hmem : '.' ∈ "0".toList := hchars ▸ List.mem_append_right _ hpoint
      exact absurd hmem (by decide)
    · rcases mark_mem_magnitude (Decimal.shortest m e) with hpoint | hexponent
      · have hmem : '.' ∈ "0".toList := hchars ▸ List.mem_append_right _ hpoint
        exact absurd hmem (by decide)
      · have hmem : 'e' ∈ "0".toList := hchars ▸ List.mem_append_right _ hexponent
        exact absurd hmem (by decide)

namespace Value

/-- A result as other nodes see it, or the 0 in place of a node that is not registered. -/
inductive IsSeen : Value → Prop
  | number (x : Float) : IsSeen (.float x)
  | failed (kind : ErrorKind) : IsSeen (.text kind.text)
  | missing : IsSeen (.int 0)

/-- Every result may be seen. -/
theorem isSeen_toValue (result : Result) : IsSeen result.toValue := by
  cases result with
  | number x => exact .number x
  | failed kind => exact .failed kind

/-- The text of an error kind starts with a quote and has no delimiter in it. -/
theorem json_failed (kind : ErrorKind) :
    ∃ cs, (json (.text kind.text)).toList = '"' :: cs ∧ ∀ c ∈ '"' :: cs, isDelimiter c = false := by
  cases kind <;> exact ⟨_, rfl, Decimal.forall_mem_of_all (by decide)⟩

/-- Error kinds are told apart by their texts. -/
theorem json_failed_injective {kind kind' : ErrorKind} :
    json (.text kind.text) = json (.text kind'.text) → kind = kind' := by
  cases kind <;> cases kind' <;> decide

/-- Only the text of an error kind has a quotation mark. -/
theorem json_float_ne_failed (x : Float) (kind : ErrorKind) :
    json (.float x) ≠ json (.text kind.text) := by
  intro heq
  obtain ⟨cs, hcs, -⟩ := json_failed kind
  have hquote : '"' ∈ (json (.float x)).toList := by simp [heq, hcs]
  exact (not_isDelimiter_of_mem_format hquote).2 rfl

variable {v v' : Value}

/-- No result has a delimiter of lists in its text. -/
theorem IsSeen.not_isDelimiter (h : v.IsSeen) {c : Char} (hc : c ∈ v.json.toList) :
    isDelimiter c = false := by
  cases h with
  | number x => exact (not_isDelimiter_of_mem_format hc).1
  | failed kind =>
    obtain ⟨cs, hcs, hdelimiter⟩ := json_failed kind
    exact hdelimiter c (hcs ▸ hc)
  | missing =>
    have hzero : (json (.int 0)).toList = ['0'] := by decide
    obtain rfl : c = '0' := by simpa [hzero] using hc
    decide

/-- What may be seen has a text. -/
theorem IsSeen.json_ne_empty (h : v.IsSeen) : v.json.toList ≠ [] := by
  cases h with
  | number x => exact format_ne_empty x
  | failed kind =>
    obtain ⟨cs, hcs, -⟩ := json_failed kind
    simp [hcs]
  | missing => decide

/-- The text of a result determines it. -/
theorem IsSeen.json_injective (h : v.IsSeen) (h' : v'.IsSeen) (heq : v.json = v'.json) :
    v = v' := by
  cases h with
  | number x =>
    cases h' with
    | number y => exact congrArg float (Decimal.Style.format_injective legible_jsonNumber heq)
    | failed kind => exact absurd heq (json_float_ne_failed x kind)
    | missing => exact absurd heq (format_ne_zero x)
  | failed kind =>
    cases h' with
    | number y => exact absurd heq.symm (json_float_ne_failed y kind)
    | failed kind' => rw [json_failed_injective heq]
    | missing => cases kind <;> exact absurd heq (by decide)
  | missing =>
    cases h' with
    | number y => exact absurd heq.symm (format_ne_zero y)
    | failed kind => cases kind <;> exact absurd heq (by decide)
    | missing => rfl

/-- The texts of items are those of each. -/
theorem jsonItems_eq_map (vs : List Value) : jsonItems vs = vs.map json := by
  induction vs with
  | nil => rfl
  | cons v vs ih => rw [jsonItems, ih, List.map_cons]

/-- The texts of results determine them one by one. -/
theorem IsSeen.map_json_injective {vs vs' : List Value} (h : ∀ v ∈ vs, v.IsSeen)
    (h' : ∀ v ∈ vs', v.IsSeen)
    (heq : (vs.map fun v => v.json.toList) = vs'.map fun v => v.json.toList) : vs = vs' := by
  induction vs generalizing vs' with
  | nil => exact (List.map_eq_nil_iff.1 heq.symm).symm
  | cons v vs ih =>
    cases vs' with
    | nil => cases heq
    | cons v' vs' =>
      obtain ⟨hv, hvs⟩ := List.forall_mem_cons.1 h
      obtain ⟨hv', hvs'⟩ := List.forall_mem_cons.1 h'
      obtain ⟨hfirst, hrest⟩ := List.cons.inj heq
      rw [hv.json_injective hv' (String.toList_inj.1 hfirst), ih hvs hvs' hrest]

end Value

/-- Results are told apart by their values. -/
theorem Result.toValue_injective : Function.Injective Result.toValue := by
  intro result result' heq
  cases result with
  | number x =>
    cases result' with
    | number y => exact congrArg number (Value.float.inj heq)
    | failed kind => cases heq
  | failed kind =>
    cases result' with
    | number y => cases heq
    | failed kind' =>
      have hkind := congrArg ErrorKind.ofValue? heq
      rw [ErrorKind.ofValue?_toValue, ErrorKind.ofValue?_toValue] at hkind
      exact congrArg failed (Option.some.inj hkind)

namespace Sheet

variable {expression expression' : String}

/-- The characters of a fingerprint: the expression, and the results between brackets. -/
theorem toList_fingerprintOf (expression : String) (results : List Value) :
    (fingerprintOf expression results).toList = expression.toList ++
      '[' :: ([',', ' '].intercalate (results.map fun v => v.json.toList) ++ [']']) := by
  unfold fingerprintOf
  rw [Value.json, Value.jsonItems_eq_map]
  simp [String.toList_intercalate, List.map_map, Function.comp_def]

/-- Expression and results can be told from a fingerprint. -/
theorem fingerprintOf_injective {results results' : List Value} (h : ∀ v ∈ results, v.IsSeen)
    (h' : ∀ v ∈ results', v.IsSeen)
    (heq : fingerprintOf expression results = fingerprintOf expression' results') :
    expression = expression' ∧ results = results' := by
  -- Results are written without commas and opening brackets, so the last bracket that opens is
  -- where the expression ends.
  have hitem : ∀ {vs : List Value}, (∀ v ∈ vs, v.IsSeen) →
      ∀ item ∈ vs.map fun v => v.json.toList, item ≠ [] ∧ ',' ∉ item ∧ '[' ∉ item := by
    intro vs hvs item hitem
    obtain ⟨v, hv, rfl⟩ := List.mem_map.1 hitem
    refine ⟨(hvs v hv).json_ne_empty, fun hcomma => ?_, fun hbracket => ?_⟩
    · exact absurd ((hvs v hv).not_isDelimiter hcomma) (by decide)
    · exact absurd ((hvs v hv).not_isDelimiter hbracket) (by decide)
  have hbracket : ∀ {vs : List Value}, (∀ v ∈ vs, v.IsSeen) →
      '[' ∉ [',', ' '].intercalate (vs.map fun v => v.json.toList) ++ [']'] := by
    intro vs hvs hmem
    rcases List.mem_append.1 hmem with hmem | hmem
    · rcases mem_intercalate hmem with hmem | ⟨item, hmem, hin⟩
      · exact absurd hmem (by decide)
      · exact (hitem hvs item hmem).2.2 hin
    · exact absurd hmem (by decide)
  have hchars := congrArg String.toList heq
  rw [toList_fingerprintOf, toList_fingerprintOf] at hchars
  rcases append_cons_inj_or hchars with ⟨hexpression, hresults⟩ | ⟨hmem, -⟩ | ⟨-, hmem⟩
  rotate_left
  · exact absurd hmem (hbracket h)
  · exact absurd hmem (hbracket h')
  have hitems := intercalate_injective
    (fun item hmem => ⟨(hitem h item hmem).1, (hitem h item hmem).2.1⟩)
    (fun item hmem => ⟨(hitem h' item hmem).1, (hitem h' item hmem).2.1⟩)
    (List.append_cancel_right hresults)
  exact ⟨String.toList_inj.1 hexpression, Value.IsSeen.map_json_injective h h' hitems⟩

/-- A fingerprint stands for one expression and one list of results only. -/
theorem fingerprintOf_eq_iff {results results' : List Value} (h : ∀ v ∈ results, v.IsSeen)
    (h' : ∀ v ∈ results', v.IsSeen) :
    fingerprintOf expression results = fingerprintOf expression' results' ↔
      expression = expression' ∧ results = results' := by
  refine ⟨fingerprintOf_injective h h', ?_⟩
  rintro ⟨rfl, rfl⟩
  rfl

/-- An expression may end like a list of results that goes on, and 0 in place of a node is not the
number 0. -/
theorem fingerprintOf_ne_unfinished :
    let results : List Value := [.float 1, .text "Self Reference", .int 0]
    let results' : List Value := [.float 0]
    (∀ v ∈ results, v.IsSeen) ∧ (∀ v ∈ results', v.IsSeen) ∧
      fingerprintOf "A" results ≠ fingerprintOf "A[1.0, \"Self Reference\", " results' := by
  intro results results'
  have h : ∀ v ∈ results, v.IsSeen := by
    simp only [results, List.forall_mem_cons]
    exact ⟨.number 1, .failed .selfReference, .missing, nofun⟩
  have h' : ∀ v ∈ results', v.IsSeen := List.forall_mem_singleton.2 (.number 0)
  refine ⟨h, h', fun heq => ?_⟩
  obtain ⟨hexpression, -⟩ := (fingerprintOf_eq_iff h h').1 heq
  exact absurd hexpression (by decide)

/-- The same for the results of nodes. -/
theorem printOf_injective {results results' : List Result}
    (h : printOf expression results = printOf expression' results') :
    expression = expression' ∧ results = results' := by
  have hseen : ∀ {results : List Result}, ∀ v ∈ results.map Result.toValue, v.IsSeen :=
    List.forall_mem_map.2 fun result _ => Value.isSeen_toValue result
  obtain ⟨hexpression, hresults⟩ := fingerprintOf_injective hseen hseen h
  exact ⟨hexpression, List.map_injective_iff.2 Result.toValue_injective hresults⟩

end Sheet

end LiveSheet
