import LiveSheet.Proofs.Appending

/-!
# Loading all or nothing

A value that stores no list of records is refused before anything is done, with the first item that
is no record (`Record.ofStored_spec`). Otherwise every record gets a node.

No operation gives an id twice: ids are numbered, and no change of the nodes takes a number back
(`Workspace.keeps_grows`). So what is loaded comes after what is there, under ids that have not been
seen before (`Workspace.Reachable.loads`).
-/

namespace LiveSheet

open Relation

/-! ### What is stored -/

namespace Record

/-- A value that stores no records: no list, or a list with an item that is none. -/
inductive Malformed : Value → RecordsError → Prop
  | notAList {v : Value} (h : ∀ items, v ≠ .list items) : Malformed v (.notAList v)
  | notARecord {items : List Value} {index : Nat} {v : Value} (hv : items[index]? = some v)
      (h : ∀ entries, v ≠ .map entries)
      (hbefore : ∀ i < index, ∃ entries, items[i]? = some (.map entries)) :
      Malformed (.list items) (.notARecord index v)

/-- Items are read up to the first one that is no record. -/
theorem ofItems_spec (start : Nat) (items : List Value) :
    (∃ mappings : List (List (String × Value)), items = mappings.map .map ∧
      ofItems start items = .ok (mappings.map ofEntries)) ∨
    ∃ index v, items[index]? = some v ∧ (∀ entries, v ≠ .map entries) ∧
      (∀ i < index, ∃ entries, items[i]? = some (.map entries)) ∧
        ofItems start items = .error (.notARecord (start + index) v) := by
  induction items generalizing start with
  | nil => exact .inl ⟨[], rfl, rfl⟩
  | cons v items ih =>
    -- The first item is a record, or it is the one that is refused.
    by_cases hv : ∃ entries, v = .map entries
    · obtain ⟨entries, rfl⟩ := hv
      rcases ih (start + 1) with ⟨mappings, rfl, hok⟩ | ⟨index, v, hv, hno, hbefore, herror⟩
      · left
        refine ⟨entries :: mappings, rfl, ?_⟩
        rw [ofItems, hok]
        rfl
      · right
        refine ⟨index + 1, v, hv, hno, ?_, ?_⟩
        · intro i hi
          cases i with
          | zero => exact ⟨entries, rfl⟩
          | succ i => exact hbefore i (by omega)
        · rw [ofItems, herror, Nat.add_right_comm, Nat.add_assoc]
          rfl
    · right
      have hno : ∀ entries, v ≠ .map entries := fun entries h => hv ⟨entries, h⟩
      refine ⟨0, v, rfl, hno, nofun, ?_⟩
      cases v with
      | map entries => exact absurd rfl (hno entries)
      | _ => rfl

/-- An item is found to be no record at one place only. -/
theorem Malformed.unique {stored : Value} {e e' : RecordsError} (h : Malformed stored e)
    (h' : Malformed stored e') : e = e' := by
  cases h with
  | notAList h =>
    cases h' with
    | notAList => rfl
    | notARecord => exact absurd rfl (h _)
  | @notARecord items index v hv hno hbefore =>
    cases h' with
    | notAList h => exact absurd rfl (h items)
    | @notARecord _ index' v' hv' hno' hbefore' =>
      have hle : ¬ index < index' := fun hlt => by
        obtain ⟨entries, hentries⟩ := hbefore' index hlt
        exact hno entries (Option.some.inj (hv.symm.trans hentries))
      have hge : ¬ index' < index := fun hlt => by
        obtain ⟨entries, hentries⟩ := hbefore index' hlt
        exact hno' entries (Option.some.inj (hv'.symm.trans hentries))
      obtain rfl : index = index' := by omega
      rw [Option.some.inj (hv.symm.trans hv')]

/-- A value is malformed if it is no list, or has an item anywhere that is no record. -/
theorem exists_malformed_iff {stored : Value} :
    (∃ e, Malformed stored e) ↔ (∀ items, stored ≠ .list items) ∨
      ∃ items, stored = .list items ∧ ∃ item ∈ items, ∀ entries, item ≠ .map entries := by
  constructor
  · rintro ⟨e, h⟩
    cases h with
    | notAList h => exact .inl h
    | @notARecord items index v hv hno _ =>
      exact .inr ⟨items, rfl, v, List.mem_of_getElem? hv, hno⟩
  · rintro (h | ⟨items, rfl, item, hitem, hno⟩)
    · exact ⟨_, .notAList h⟩
    · rcases ofItems_spec 0 items with ⟨mappings, rfl, -⟩ | ⟨index, v, hv, hno, hbefore, -⟩
      · obtain ⟨entries, -, heq⟩ := List.mem_map.1 hitem
        exact absurd heq.symm (hno entries)
      · exact ⟨_, .notARecord hv hno hbefore⟩

/-- A value is a list of records and read as these, or it is malformed. -/
theorem ofStored_spec (stored : Value) :
    (∃ mappings : List (List (String × Value)), stored = .list (mappings.map .map) ∧
      ofStored stored = .ok (mappings.map ofEntries) ∧ ∀ e, ¬ Malformed stored e) ∨
    ∃ e, ofStored stored = .error e ∧ Malformed stored e := by
  cases stored with
  | list items =>
    rcases ofItems_spec 0 items with ⟨mappings, rfl, hok⟩ | ⟨index, v, hv, hno, hbefore, herror⟩
    · refine .inl ⟨mappings, rfl, hok, fun e h => ?_⟩
      rcases exists_malformed_iff.1 ⟨e, h⟩ with h | ⟨items', heq, item, hitem, hno⟩
      · exact h _ rfl
      · obtain rfl := Value.list.inj heq
        obtain ⟨entries, -, heq⟩ := List.mem_map.1 hitem
        exact hno entries heq.symm
    · refine .inr ⟨_, herror, ?_⟩
      rw [Nat.zero_add]
      exact .notARecord hv hno hbefore
  | _ => exact .inr ⟨_, rfl, .notAList nofun⟩

end Record

namespace Workspace

variable {setup : Setup} {w w' w'' : Workspace}

/-! ### Ids that have been given -/

/-- What the ids of a workspace may become: some go, and new ones have higher numbers than there
were before. -/
structure Grows (w w' : Workspace) : Prop where
  created_le : w.created ≤ w'.created
  ids : ∀ id ∈ w'.ids, id ∈ w.ids ∨ ∃ n, w.created < n ∧ n ≤ w'.created ∧ id = idAt n

/-- What grows twice has grown. -/
theorem Grows.trans (h : Grows w w') (h' : Grows w' w'') : Grows w w'' where
  created_le := h.created_le.trans h'.created_le
  ids id hid := by
    rcases h'.ids id hid with hid | ⟨n, hlt, hle, rfl⟩
    · rcases h.ids id hid with hid | ⟨n, hlt, hle, rfl⟩
      · exact .inl hid
      · exact .inr ⟨n, hlt, hle.trans h'.created_le, rfl⟩
    · exact .inr ⟨n, h.created_le.trans_lt hlt, hle, rfl⟩

/-- Nodes may go without new ones. -/
theorem Grows.of_subset (hcreated : w'.created = w.created) (hids : ∀ id ∈ w'.ids, id ∈ w.ids) :
    Grows w w' :=
  ⟨hcreated.ge, fun id hid => .inl (hids id hid)⟩

/-- A workspace has grown by nothing. -/
theorem Grows.refl (w : Workspace) : Grows w w :=
  .of_subset rfl fun _ hid => hid

/-- And it has grown by nothing if it has the same nodes. -/
theorem SameNodes.grows (h : SameNodes w w') : Grows w w' :=
  .of_subset h.created fun _ hid => h.ids_eq ▸ hid

/-- A creation makes it grow. -/
theorem grows_create (setup : Setup) (w : Workspace) (record : Record) :
    Grows w (w.create setup record).1 := by
  refine ⟨Nat.le_succ _, fun id hid => ?_⟩
  have hkeys : (w.create setup record).1.ids = _ := Table.keys_insert w.sheet.calculators w.nextId _
  rw [hkeys] at hid
  split at hid
  · exact .inl hid
  · rcases List.mem_append.1 hid with hid | hid
    · exact .inl hid
    · exact .inr ⟨w.created + 1, Nat.lt_succ_self _, le_rfl, List.mem_singleton.1 hid⟩

/-- No change of the nodes gives an id again. -/
theorem keeps_grows (setup : Setup) (w₀ : Workspace) : Keeps setup (Grows w₀) := by
  refine .of_sameNodes (fun h hsame => h.trans hsame.grows)
    (fun h record => h.trans (grows_create setup _ record))
    (fun h => h.trans (.of_subset rfl fun _ hk => by cases hk))
    (fun h id expression => h.trans (.of_subset rfl fun k hk => ?_))
    (fun h _ _ => h.trans (.of_subset rfl fun _ hk => hk))
    fun h id => h.trans (.of_subset rfl fun k hk => ?_)
  · rwa [ids, onSheet, Sheet.setExpression, Sheet.calculatorKeys_modify] at hk
  · rw [ids, onSheet, Sheet.without, Table.keys_erase] at hk
    exact (List.mem_filter.1 hk).1

/-- What a workspace becomes in the course of time. -/
theorem Reachable.later (h : Reachable setup w) (hlater : ReflTransGen (Next setup) w w') :
    Reachable setup w' ∧ Grows w w' := by
  induction hlater with
  | refl => exact ⟨h, .refl w⟩
  | tail _ hnext ih => exact ⟨ih.1.next hnext, (keeps_grows setup w).next ih.2 hnext⟩

/-- The ids of a workspace have numbers up to the number of nodes that there have been. -/
theorem Reachable.exists_number (h : Reachable setup w) {id : NodeId} (hid : id ∈ w.ids) :
    ∃ n ≤ w.created, id = idAt n := by
  have hgrows : Grows Workspace.empty w := (keeps_grows setup _).reachable (.refl _) h
  rcases hgrows.ids id hid with hnone | ⟨n, -, hle, rfl⟩
  · cases hnone
  · exact ⟨n, hle, rfl⟩

/-! ### New nodes -/

/-- A new row comes behind the others, with the header of the record or a new one. -/
theorem rows_create (setup : Setup) (hnew : w.nextId ∉ w.ids) (record : Record) :
    (w.create setup record).1.sheet.rows =
      w.sheet.rows ++ [⟨w.nextId, some (record.header.getD w.nextHeader), record.expression⟩] := by
  have hsheet : (w.create setup record).1.sheet = w.sheet.withNode w.nextId
      (record.header.getD w.nextHeader) record.expression setup.delay := rfl
  have hentries : (w.sheet.withNode w.nextId (record.header.getD w.nextHeader) record.expression
      setup.delay).calculators.entries = w.sheet.calculators.entries ++ [(w.nextId, _)] :=
    Table.insertEntry_of_new _ hnew
  rw [hsheet, Sheet.rows, hentries, List.map_append, Sheet.rows]
  congr 1
  · refine List.map_congr_left fun e he => ?_
    have hne : e.1 ≠ w.nextId := fun heq => hnew (heq ▸ List.mem_map.2 ⟨e, he, rfl⟩)
    simp only [Sheet.headerOf_withNode hne]
  · simp [Graph.headerOf, Sheet.node?_withNode]

/-- The workspace with nodes that have not been computed has their rows at the end, under the ids
that come next. -/
theorem rows_createAll (setup : Setup) (hnumbers : ∀ id ∈ w.ids, ∃ n ≤ w.created, id = idAt n)
    (records : List Record) :
    ∃ added, (w.createAll setup records).1.sheet.rows = w.sheet.rows ++ added ∧
      added.map (·.id) = (w.createAll setup records).2 ∧ List.Forall₂ IsRowOf added records ∧
        (w.createAll setup records).2 =
          (List.range' (w.created + 1) records.length).map idAt := by
  induction records generalizing w with
  | nil => exact ⟨[], (List.append_nil _).symm, rfl, .nil, rfl⟩
  | cons record records ih =>
    -- All ids in use have smaller numbers.
    have hnew : w.nextId ∉ w.ids := by
      intro hmem
      obtain ⟨n, hn, heq⟩ := hnumbers _ hmem
      have := idAt_injective ((nextId_eq w).symm.trans heq)
      omega
    have hrows := rows_create setup hnew record
    obtain ⟨added, hadded, hids, hall, hrange⟩ := @ih (w.create setup record).1 fun id hid => by
      rcases (grows_create setup w record).ids id hid with hid | ⟨n, -, hle, rfl⟩
      · obtain ⟨n, hn, rfl⟩ := hnumbers id hid
        exact ⟨n, Nat.le_succ_of_le hn, rfl⟩
      · exact ⟨n, hle, rfl⟩
    refine ⟨⟨w.nextId, some (record.header.getD w.nextHeader), record.expression⟩ :: added, ?_,
      congrArg (w.nextId :: ·) hids, .cons ⟨rfl, _, rfl, fun given hgiven => ?_⟩ hall, ?_⟩
    · refine hadded.trans ?_
      rw [hrows, List.append_assoc]
      rfl
    · rw [hgiven]
      rfl
    · exact congrArg (w.nextId :: ·) hrange

/-- Recalculating fails with numbers only. -/
theorem exists_number_of_recalculateAll {ids : List NodeId} {e : WorkspaceError}
    (h : (w.recalculateAll setup ids).2 = .error e) : ∃ number, e = .number number := by
  induction ids generalizing w with
  | nil => cases h
  | cons id ids ih =>
    unfold recalculateAll at h
    split at h
    · exact ih h
    · split at h
      · exact ih h
      · next w' e' hw' =>
        obtain rfl := Except.error.inj h
        have houtcome := congrArg Prod.snd hw'
        simp only [recalculate] at houtcome
        cases hresult : (w.sheet.recalculate setup.environment id).2 with
        | ok result =>
          rw [hresult] at houtcome
          cases houtcome
        | error number =>
          rw [hresult] at houtcome
          exact ⟨number, (Except.error.inj houtcome).symm⟩

/-! ### Loading -/

/-- What comes of a list of records: as many new nodes, behind the old ones or in their place. -/
structure Creates (setup : Setup) (earlier w : Workspace) (mappings : List (List (String × Value)))
    (replaces : Bool) (outcome : Outcome (List NodeId)) (added : List Row) : Prop where
  rows : outcome.1.sheet.rows = (if replaces then [] else w.sheet.rows) ++ added
  records : List.Forall₂ IsRowOf added (mappings.map Record.ofEntries)
  ids : outcome.1.ids = (if replaces then [] else w.ids) ++ added.map (·.id)
  length : (added.map (·.id)).length = mappings.length
  nodup : (added.map (·.id)).Nodup
  /-- No id has been given before. -/
  new : ∀ id ∈ added.map (·.id), id ∉ earlier.ids
  /-- The answer is the new ids, unless it fails to evaluate one of the nodes. -/
  answer : outcome.2 = .ok (added.map (·.id)) ∨ ∃ e, outcome.2 = .error (.number e)
  succeeds : setup.environment.Answers → outcome.2 = .ok (added.map (·.id))

/-- What a workspace does with a value that it is to load. -/
structure Loads (setup : Setup) (earlier w : Workspace) (stored : Value) (replaces : Bool) :
    Prop where
  /-- A value is malformed if it is no list, or has an item anywhere that is no record. -/
  malformed : (∃ e, Record.Malformed stored e) ↔ (∀ items, stored ≠ .list items) ∨
    ∃ items, stored = .list items ∧ ∃ item ∈ items, ∀ entries, item ≠ .map entries
  /-- Such a value is refused for what is wrong about it, and no other value is. -/
  refused : ∀ e, (w.load setup stored replaces).2 = .error (.records e) ↔ Record.Malformed stored e
  /-- Then nothing at all is changed. -/
  unchanged : ∀ e, Record.Malformed stored e → (w.load setup stored replaces).1 = w
  creates : (∀ e, ¬ Record.Malformed stored e) → ∃ mappings added,
    stored = .list (mappings.map .map) ∧
      Creates setup earlier w mappings replaces (w.load setup stored replaces) added

/-- What is loaded later than some workspace has created nodes in it, in order. -/
theorem Reachable.creates {earlier : Workspace} (hearlier : Reachable setup earlier)
    (hlater : ReflTransGen (Next setup) earlier w) (mappings : List (List (String × Value)))
    (hok : Record.ofStored (.list (mappings.map .map)) = .ok (mappings.map Record.ofEntries))
    (replaces : Bool) : ∃ added, Creates setup earlier w mappings replaces
      (w.load setup (.list (mappings.map .map)) replaces) added := by
  obtain ⟨hw, hgrows⟩ := hearlier.later hlater
  -- The nodes are created on what is there before them, which has no id that is still to come.
  obtain ⟨start, hstart⟩ : ∃ start, start = if replaces then w.clear else w := ⟨_, rfl⟩
  have hcreated : start.created = w.created := by rw [hstart]; split <;> rfl
  have hrows : start.sheet.rows = if replaces then [] else w.sheet.rows := by
    rw [hstart]; split <;> rfl
  have hids : start.ids = if replaces then [] else w.ids := by rw [hstart]; split <;> rfl
  have hnumbers : ∀ id ∈ start.ids, ∃ n ≤ start.created, id = idAt n := by
    intro id hid
    rw [hids] at hid
    rw [hcreated]
    split at hid
    · cases hid
    · exact hw.exists_number hid
  obtain ⟨added, hadded, hnew, hall, hrange⟩ :=
    rows_createAll setup hnumbers (mappings.map Record.ofEntries)
  obtain ⟨created, hall'⟩ :
      ∃ created, created = start.createAll setup (mappings.map Record.ofEntries) := ⟨_, rfl⟩
  have hload : w.load setup (.list (mappings.map .map)) replaces =
      ((created.1.recalculateAll setup created.2).1,
        (created.1.recalculateAll setup created.2).2.map fun _ => created.2) := by
    rw [load, hok, hall', hstart]
  rw [← hall'] at hadded hnew hrange
  have hsame := sameNodes_recalculateAll setup created.1 created.2
  have hloaded : (created.1.recalculateAll setup created.2).1.sheet.rows =
      (if replaces then [] else w.sheet.rows) ++ added := by
    rw [hsame.sheet.rows_eq, hadded, hrows]
  rw [hload]
  refine ⟨added, ?_⟩
  constructor
  case rows => exact hloaded
  case records => exact hall
  case ids =>
    rw [ids, ← Sheet.ids_rows, hloaded, List.map_append]
    congr 1
    split
    · rfl
    · exact Sheet.ids_rows w.sheet
  case length => rw [hnew, hrange, List.length_map, List.length_range', List.length_map]
  case nodup =>
    rw [hnew, hrange]
    exact (List.nodup_range' ..).map idAt_injective
  case new =>
    intro id hid hold
    rw [hnew, hrange] at hid
    obtain ⟨n, hn, rfl⟩ := List.mem_map.1 hid
    obtain ⟨m, hm, heq⟩ := hearlier.exists_number hold
    have hlt := (List.mem_range'_1.1 hn).1
    have hle := hgrows.created_le
    have := idAt_injective heq
    omega
  case answer =>
    rw [hnew]
    cases hresult : (created.1.recalculateAll setup created.2).2 with
    | ok _ => exact .inl rfl
    | error e =>
      obtain ⟨number, rfl⟩ := exists_number_of_recalculateAll hresult
      exact .inr ⟨number, rfl⟩
  case succeeds =>
    intro henv
    have hsound : Sound setup start [] := by
      rw [hstart]
      split
      · exact (hw.sound henv).clear
      · exact hw.sound henv
    have hcoherent : created.1.sheet.Coherent :=
      hall' ▸ (hsound.createAll (mappings.map Record.ofEntries)).accounted.coherent
    rw [recalculateAll_eq henv hcoherent, hnew]
    rfl

/-- Loading does all or nothing, whatever has happened to a workspace. -/
theorem Reachable.loads {earlier : Workspace} (hearlier : Reachable setup earlier)
    (hlater : ReflTransGen (Next setup) earlier w) (stored : Value) (replaces : Bool) :
    Loads setup earlier w stored replaces := by
  rcases Record.ofStored_spec stored with ⟨mappings, rfl, hok, hwell⟩ | ⟨e, herror, hmalformed⟩
  · obtain ⟨added, hcreates⟩ := hearlier.creates hlater mappings hok replaces
    refine ⟨Record.exists_malformed_iff, fun e => iff_of_false ?_ (hwell e),
      fun e h => absurd h (hwell e), fun _ => ⟨mappings, added, rfl, hcreates⟩⟩
    rcases hcreates.answer with h | ⟨number, h⟩ <;> rw [h] <;> nofun
  · have hload : w.load setup stored replaces = (w, .error (.records e)) := by
      rw [load, herror]
    refine ⟨Record.exists_malformed_iff, fun e' => ?_, fun e' _ => by rw [hload], fun hwell =>
      absurd hmalformed (hwell e)⟩
    rw [hload]
    constructor
    · intro heq
      obtain rfl := WorkspaceError.records.inj (Except.error.inj heq)
      exact hmalformed
    · intro h
      rw [h.unique hmalformed]

set_option maxRecDepth 100000 in
/-- The id of a node that has been removed is not given again, and a number in the place of a record
leaves everything as it is. -/
theorem loads_afterRemoval :
    let setup := Setup.ofSettings .standard {}
    let earlier := empty.performAll setup [.add ⟨some "A", "1"⟩, .add ⟨some "B", "A"⟩]
    let w := earlier.perform setup (.remove "node-2")
    let records := .list [.map [("header", .text "B"), ("expression", .text "A + 1")], .map []]
    let mixed := .list [.map [("expression", .int 5)], .int 5]
    Reachable setup earlier ∧ ReflTransGen (Next setup) earlier w ∧
      Loads setup earlier w records false ∧
        (w.load setup records false).1.ids = ["node-1", "node-3", "node-4"] ∧
          Loads setup earlier w mixed true ∧ (w.load setup mixed true).1 = w := by
  intro setup earlier w records mixed
  have hids : (w.load setup records false).1.ids = ["node-1", "node-3", "node-4"] := by
    decide +kernel
  have hearlier : Reachable setup earlier := .performAll setup _
  have hlater : ReflTransGen (Next setup) earlier w := .single (.perform _ _)
  have hmixed : Loads setup earlier w mixed true := hearlier.loads hlater mixed true
  have hrefused : Record.Malformed mixed (.notARecord 1 (.int 5)) := by
    refine .notARecord rfl nofun fun i hi => ⟨[("expression", .int 5)], ?_⟩
    obtain rfl : i = 0 := by omega
    rfl
  exact ⟨hearlier, hlater, hearlier.loads hlater records false, hids, hmixed,
    hmixed.unchanged _ hrefused⟩

end Workspace

end LiveSheet
