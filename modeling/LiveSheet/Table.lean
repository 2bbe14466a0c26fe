/-!
# Tables in order of insertion

A finite map whose entries keep the order in which their keys first came. Writing to a key that is
there keeps its place. Names of operators and functions, scopes, and the nodes of a sheet are held
in tables, because answers list them in this order.
-/

namespace LiveSheet

/-- A finite map with its entries in order of insertion. -/
structure Table (κ : Type) (α : Type) where
  entries : List (κ × α)
deriving Repr, DecidableEq

namespace Table

variable {κ α : Type} [DecidableEq κ]

/-- The table without entries. -/
def empty : Table κ α :=
  ⟨[]⟩

/-- A table is without entries by default. -/
instance : Inhabited (Table κ α) :=
  ⟨empty⟩

/-- The table without entries is also written as the empty set is. -/
instance : EmptyCollection (Table κ α) :=
  ⟨empty⟩

/-- The value at a key. -/
def get? (t : Table κ α) (k : κ) : Option α :=
  t.entries.lookup k

/-- Whether the key has an entry. -/
def contains (t : Table κ α) (k : κ) : Bool :=
  (t.get? k).isSome

/-- The keys in order of insertion. -/
def keys (t : Table κ α) : List κ :=
  t.entries.map (·.1)

/-- The values in order of insertion. -/
def values (t : Table κ α) : List α :=
  t.entries.map (·.2)

/-- The number of entries. -/
def size (t : Table κ α) : Nat :=
  t.entries.length

/-- Writes `v` at `k` in the first entry of that key, or at the end if there is none. -/
def insertEntry (k : κ) (v : α) : List (κ × α) → List (κ × α)
  | [] => [(k, v)]
  | (k', v') :: rest => if k' = k then (k, v) :: rest else (k', v') :: insertEntry k v rest

/-- Writes a value; a new key goes to the end, a known one keeps its place. -/
def insert (t : Table κ α) (k : κ) (v : α) : Table κ α :=
  ⟨insertEntry k v t.entries⟩

/-- Writes a value only if the key is new. -/
def insertIfNew (t : Table κ α) (k : κ) (v : α) : Table κ α :=
  if t.contains k then t else t.insert k v

/-- Removes the entry of a key. -/
def erase (t : Table κ α) (k : κ) : Table κ α :=
  ⟨t.entries.filter (·.1 ≠ k)⟩

/-- Changes the value at a key that has one. -/
def modify (t : Table κ α) (k : κ) (f : α → α) : Table κ α :=
  ⟨t.entries.map fun (k', v) => if k' = k then (k', f v) else (k', v)⟩

/-- The table with the entries of a list written one after the other. -/
def ofList (entries : List (κ × α)) : Table κ α :=
  entries.foldl (fun t (k, v) => t.insert k v) empty

/-! ### Look-up after each operation -/

/-- The first entry is looked up first. -/
theorem lookup_cons_eq_ite (k j : κ) (v : α) (es : List (κ × α)) :
    ((k, v) :: es).lookup j = if j = k then some v else es.lookup j := by
  by_cases h : j = k
  · simp [h]
  · rw [List.lookup_cons, beq_eq_false_iff_ne.2 h, if_neg h]

/-- What is found at a key is an entry. -/
theorem mem_of_lookup {k : κ} {v : α} {es : List (κ × α)} (h : es.lookup k = some v) :
    (k, v) ∈ es := by
  obtain ⟨front, back, rfl, -⟩ := List.lookup_eq_some_iff.1 h
  exact List.mem_append_right front List.mem_cons_self

/-- Where values are changed by their keys, so is the value that is found. -/
theorem lookup_map {β : Type} (f : κ → α → β) (k : κ) (es : List (κ × α)) :
    (es.map fun e => (e.1, f e.1 e.2)).lookup k = (es.lookup k).map (f k) := by
  induction es with
  | nil => rfl
  | cons e es ih =>
    rw [List.map_cons, lookup_cons_eq_ite, lookup_cons_eq_ite, ih]
    split
    · next h => rw [h, Option.map_some]
    · rfl

/-- An inserted entry is found at its key and leaves the others. -/
theorem lookup_insertEntry (k j : κ) (v : α) (es : List (κ × α)) :
    (insertEntry k v es).lookup j = if j = k then some v else es.lookup j := by
  induction es with
  | nil => rw [insertEntry, lookup_cons_eq_ite]
  | cons e es ih =>
    by_cases hk : e.1 = k
    · rw [insertEntry, if_pos hk, lookup_cons_eq_ite, lookup_cons_eq_ite, hk]
      by_cases h : j = k <;> simp [h]
    · rw [insertEntry, if_neg hk, lookup_cons_eq_ite, lookup_cons_eq_ite, ih]
      by_cases h : j = e.1
      · simp [h, hk]
      · simp [h]

/-- What is written at a key is found there, and no other key is touched. -/
theorem get?_insert (t : Table κ α) (k j : κ) (v : α) :
    (t.insert k v).get? j = if j = k then some v else t.get? j :=
  lookup_insertEntry k j v t.entries

/-- Nothing is found at a key that has been removed, and no other key is touched. -/
theorem get?_erase (t : Table κ α) (k j : κ) :
    (t.erase k).get? j = if j = k then none else t.get? j := by
  obtain ⟨es⟩ := t
  change (es.filter (·.1 ≠ k)).lookup j = if j = k then none else es.lookup j
  induction es with
  | nil => simp
  | cons e es ih =>
    rw [List.filter_cons, lookup_cons_eq_ite]
    by_cases hk : e.1 = k
    · rw [if_neg (by simp [hk]), ih, hk]
      by_cases h : j = k <;> simp [h]
    · rw [if_pos (by simp [hk]), lookup_cons_eq_ite, ih]
      by_cases h : j = e.1
      · simp [h, hk]
      · simp [h]

/-- The value at the key that is modified is changed, and no other one. -/
theorem get?_modify (t : Table κ α) (k j : κ) (f : α → α) :
    (t.modify k f).get? j = if j = k then (t.get? j).map f else t.get? j := by
  obtain ⟨es⟩ := t
  change (es.map fun (k', v) => if k' = k then (k', f v) else (k', v)).lookup j =
    if j = k then (es.lookup j).map f else es.lookup j
  induction es with
  | nil => simp
  | cons e es ih =>
    rw [List.map_cons, lookup_cons_eq_ite]
    by_cases hk : e.1 = k
    · rw [if_pos hk, lookup_cons_eq_ite, ih]
      by_cases h : j = e.1
      · simp [h, hk]
      · simp [h]
    · rw [if_neg hk, lookup_cons_eq_ite, ih]
      by_cases h : j = e.1
      · simp [h, hk]
      · simp [h]

/-! ### Keys after each operation -/

/-- A new key goes to the end, and a known one keeps its place. -/
theorem keys_insert (t : Table κ α) (k : κ) (v : α) :
    (t.insert k v).keys = if k ∈ t.keys then t.keys else t.keys ++ [k] := by
  obtain ⟨es⟩ := t
  change (insertEntry k v es).map (·.1) =
    if k ∈ es.map (·.1) then es.map (·.1) else es.map (·.1) ++ [k]
  induction es with
  | nil => simp [insertEntry]
  | cons e es ih =>
    by_cases hk : e.1 = k
    · simp [insertEntry, hk]
    · have hne : k ≠ e.1 := fun h => hk h.symm
      rw [insertEntry, if_neg hk, List.map_cons, ih]
      by_cases hmem : k ∈ es.map (·.1)
      · rw [if_pos hmem, if_pos (by simp [hmem]), List.map_cons]
      · rw [if_neg hmem, if_neg (by simp [hne, hmem]), List.map_cons, List.cons_append]

/-- The entry of a new key comes last. -/
theorem insertEntry_of_new {k : κ} (v : α) {es : List (κ × α)} (h : k ∉ es.map (·.1)) :
    insertEntry k v es = es ++ [(k, v)] := by
  induction es with
  | nil => rfl
  | cons e es ih =>
    simp only [List.map_cons, List.mem_cons, not_or] at h
    rw [insertEntry, if_neg (Ne.symm h.1), ih h.2, List.cons_append]

/-- Erasing a key leaves the other keys in their order. -/
theorem keys_erase (t : Table κ α) (k : κ) : (t.erase k).keys = t.keys.filter (· ≠ k) := by
  simp [erase, keys, List.filter_map, Function.comp_def]

/-- A modification leaves the keys as they are. -/
theorem keys_modify (t : Table κ α) (k : κ) (f : α → α) : (t.modify k f).keys = t.keys := by
  simp only [modify, keys, List.map_map]
  refine List.map_congr_left fun e _ => ?_
  by_cases h : e.1 = k <;> simp [h]

/-- A table contains its keys. -/
theorem contains_iff_mem_keys (t : Table κ α) (k : κ) : t.contains k = true ↔ k ∈ t.keys := by
  obtain ⟨es⟩ := t
  change (es.lookup k).isSome = true ↔ k ∈ es.map (·.1)
  induction es with
  | nil => simp
  | cons e es ih =>
    rw [lookup_cons_eq_ite, List.map_cons, List.mem_cons, ← ih]
    by_cases h : k = e.1 <;> simp [h]

end Table

end LiveSheet
