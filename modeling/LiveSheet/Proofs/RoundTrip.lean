import LiveSheet.Proofs.Appending
import LiveSheet.Proofs.Relabelling

/-!
# Storing a workspace and loading it again

The records of a workspace say everything about it but the ids. Records are read back as they were
written (`Record.ofStored_toValue`), and since no header is missing (`Rows.Headed`), none has to be
made up: the loaded workspace has the table of the stored one under other ids
(`Workspace.Sound.exists_loaded`). It has been computed at once and from nothing, so everything in
it is up to date when it has settled, and each node comes to what the stored one has come to, unless
that depends on a node with the fingerprint of another time (`Workspace.load_toRecords`).
-/

namespace LiveSheet

open Relation

/-! ### Records -/

namespace Record

/-- A record is read back from its entries. -/
theorem ofEntries_toValue (record : Record) :
    ofEntries [ ("header", (record.header.map Value.text).getD .null),
      ("expression", .text record.expression) ] = record := by
  obtain ⟨header, expression⟩ := record
  cases header <;> rfl

/-- Records are read back one by one. -/
theorem ofItems_toValue (records : List Record) (index : Nat) :
    ofItems index (records.map toValue) = .ok records := by
  induction records generalizing index with
  | nil => rfl
  | cons record records ih =>
    rw [List.map_cons, toValue, ofItems, ih, ofEntries_toValue]
    rfl

/-- What records are stored as is read as these records. -/
theorem ofStored_toValue (records : List Record) :
    ofStored (.list (records.map toValue)) = .ok records :=
  ofItems_toValue records 0

end Record

/-- The record of a row. -/
def Row.record (row : Row) : Record :=
  ⟨row.header, row.expression⟩

namespace Rows

variable {rows rows' : List Row}

/-- Tables are the same if their ids and records are. -/
theorem eq_of_map_eq (hids : rows.map (·.id) = rows'.map (·.id))
    (hrecords : rows.map Row.record = rows'.map Row.record) : rows = rows' := by
  induction rows generalizing rows' with
  | nil => exact (List.map_eq_nil_iff.1 hids.symm).symm
  | cons row rows ih =>
    cases rows' with
    | nil => cases hids
    | cons row' rows' =>
      obtain ⟨hid, hids⟩ := List.cons.inj hids
      obtain ⟨hrecord, hrecords⟩ := List.cons.inj hrecords
      obtain ⟨hheader, hexpression⟩ := Record.mk.inj hrecord
      have hrow : row = row' := by
        cases row
        cases row'
        simp_all
      rw [hrow, ih hids hrecords]

/-- Whether every row has a header. -/
def Headed (rows : List Row) : Prop :=
  ∀ row ∈ rows, row.header.isSome = true

/-- Records with headers are made into rows with these headers. -/
theorem map_record_of_isRowOf {records : List Record}
    (h : List.Forall₂ Workspace.IsRowOf rows records)
    (hheaded : ∀ record ∈ records, record.header.isSome = true) :
    rows.map Row.record = records := by
  induction h with
  | nil => rfl
  | @cons row record rows records hrow _ ih =>
    obtain ⟨hexpression, header, hheader, hgiven⟩ := hrow
    obtain ⟨given, hrecord⟩ :=
      Option.isSome_iff_exists.1 (hheaded record (List.mem_cons_self ..))
    have hsame : row.record = record := by
      rw [Row.record, hexpression, hheader, hgiven given hrecord, ← hrecord]
    rw [List.map_cons, hsame, ih fun record hmem => hheaded record (List.mem_cons_of_mem _ hmem)]

/-- The rows of records have headers if the records name them. -/
theorem headed_of_isRowOf {records : List Record}
    (h : List.Forall₂ Workspace.IsRowOf rows records) : Headed rows := by
  induction h with
  | nil => exact List.forall_mem_nil _
  | cons hrow _ ih =>
    obtain ⟨-, header, hheader, -⟩ := hrow
    exact List.forall_mem_cons.2 ⟨by rw [hheader]; rfl, ih⟩

/-- The entries of one list are those of another one of its length under some function, if none of
them stands twice. -/
theorem exists_map_eq {ids ids' : List NodeId} (hnodup : ids.Nodup)
    (hlength : ids.length = ids'.length) : ∃ f : NodeId → NodeId, ids.map f = ids' := by
  induction ids generalizing ids' with
  | nil => exact ⟨id, (List.eq_nil_of_length_eq_zero hlength.symm).symm⟩
  | cons a ids ih =>
    cases ids' with
    | nil => cases hlength
    | cons a' ids' =>
      obtain ⟨hnew, hnodup⟩ := List.nodup_cons.1 hnodup
      obtain ⟨f, hf⟩ := ih hnodup (Nat.succ.inj hlength)
      refine ⟨Function.update f a a', ?_⟩
      rw [List.map_cons, Function.update_self, ← hf]
      congr 1
      refine List.map_congr_left fun b hb => Function.update_of_ne ?_ _ _
      rintro rfl
      exact hnew hb

end Rows

namespace Sheet

variable {s : Sheet}

/-- The headers of a coherent sheet, node by node. -/
theorem Coherent.headed_iff (h : s.Coherent) :
    Rows.Headed s.rows ↔ ∀ k ∈ s.graph.nodes.keys, (s.graph.headerOf k).isSome = true := by
  constructor
  · intro hheaded k hk
    obtain ⟨c, hc⟩ := h.calculator_of_mem hk
    exact hheaded _ (h.mem_rows.2 ⟨k, c, hc, rfl⟩)
  · rintro hheaded row hrow
    obtain ⟨k, c, hc, rfl⟩ := h.mem_rows.1 hrow
    exact hheaded k (h.registered hc)

end Sheet

namespace Workspace

open Sheet (Progress Collided)

variable {setup : Setup} {w : Workspace} {past : List Sheet}

/-- The records of a workspace are those of its rows. -/
theorem toRecords_eq (w : Workspace) : w.toRecords = w.sheet.rows.map Row.record := by
  unfold toRecords Sheet.rows
  rw [List.map_map]
  rfl

/-- The nodes of a workspace are those of its rows. -/
theorem ids_eq (w : Workspace) : w.ids = w.sheet.rows.map (·.id) :=
  (Sheet.ids_rows w.sheet).symm

/-- Workspaces with the same records have the same table but for the ids. -/
theorem exists_relabel {w' : Workspace} (h : w.sheet.Coherent)
    (hrecords : w'.toRecords = w.toRecords) : ∃ f : NodeId → NodeId, w.ids.map f = w'.ids ∧
      w'.sheet.rows = w.sheet.rows.map (Row.relabel f) := by
  rw [toRecords_eq, toRecords_eq] at hrecords
  have hcount := congrArg List.length hrecords
  rw [List.length_map, List.length_map] at hcount
  have hlength : w.ids.length = w'.ids.length := by
    rw [ids_eq, ids_eq, List.length_map, List.length_map, hcount]
  obtain ⟨f, hf⟩ := Rows.exists_map_eq (ids_eq w ▸ h.nodup_ids) hlength
  refine ⟨f, hf, Rows.eq_of_map_eq ?_ ?_⟩
  · rw [Rows.ids_relabel, ← ids_eq, ← ids_eq, hf]
  · rw [hrecords, List.map_map]
    rfl

/-! ### Headers -/

variable {w' : Workspace} {todo : List NodeId}

/-- Every node has a header in what an operation prepares, except for renamings and appended
records. -/
theorem Prepares.headed (h : Sound setup w []) (hheaded : Rows.Headed w.sheet.rows)
    {operation : Operation} (hprepares : Prepares setup w operation w' todo)
    (hdirect : operation.IsDirect) : Rows.Headed w'.sheet.rows := by
  have hcoherent := h.accounted.coherent
  have hcoherent' := (hprepares.accounted h).1.coherent
  cases hprepares with
  | add record =>
    rw [show (w.create setup record).1.sheet.rows = _ from
      hcoherent.rows_withNode _ _ _ h.nextId_new h.registered]
    -- Where the record has no header, one is made up.
    exact List.forall_mem_append.2 ⟨hheaded, List.forall_mem_singleton.2 rfl⟩
  | setExpression =>
    exact hcoherent'.headed_iff.2 (hcoherent.headed_iff.1 hheaded)
  | edit hc expression =>
    refine hcoherent'.headed_iff.2 ?_
    rw [show (w.onSheet (·.withEdit _ expression)).sheet = w.sheet.withEdit _ expression from rfl,
      Sheet.withEdit_eq hc]
    exact hcoherent.headed_iff.1 hheaded
  | rename => exact hdirect.elim
  | remove =>
    rw [show (w.onSheet (·.without _)).sheet.rows = _ from hcoherent.rows_without _]
    exact fun row hrow => hheaded row (List.mem_filter.1 hrow).1
  | clear => exact List.forall_mem_nil _
  | @load stored replaces records hrecords =>
    obtain rfl := hdirect
    obtain ⟨added, hrows, -, hall⟩ := h.clear.rows_createAll records
    refine hrows.symm ▸ List.forall_mem_append.2 ⟨List.forall_mem_nil _, ?_⟩
    exact Rows.headed_of_isRowOf hall

/-- Every operation but a renaming leaves each node with a header. -/
theorem Sound.headed_perform (henv : setup.environment.Answers) (h : Sound setup w [])
    (hheaded : Rows.Headed w.sheet.rows) {operation : Operation} (hdirect : operation.IsDirect) :
    Rows.Headed (w.perform setup operation).sheet.rows := by
  rcases h.perform_cases henv operation with ⟨w', todo, hprepares, hperform⟩ | ⟨s', hperform, hkept⟩
  · rw [hperform, show (w'.onSheet (Sheet.recalculateEach setup.environment · todo)).sheet.rows = _
      from ((hprepares.accounted h).1.coherent.rows_recalculateEach henv todo).2]
    exact hprepares.headed h hheaded hdirect
  · have hrows := (hkept _ (Sheet.lasts_rows henv _).toKeeps ⟨h.accounted.coherent, rfl⟩).2
    rw [hperform]
    exact hrows.symm ▸ hheaded

/-- Every node has a header after any history without renamings and appended records. -/
theorem History.headed (henv : setup.environment.Answers)
    (h : History setup Operation.IsDirect past w) : Rows.Headed w.sheet.rows := by
  induction h with
  | empty => exact List.forall_mem_nil _
  | perform h hdirect ih => exact (h.reachable.sound henv).headed_perform henv ih hdirect
  | varies h hs ih =>
    rw [(hs.resembles (h.reachable.sound henv).accounted.coherent).rows]
    exact ih

/-! ### Loading -/

/-- Records with headers are loaded into a workspace without nodes as they are, and nothing that was
there before is doubtful. -/
theorem Sound.exists_loaded (henv : setup.environment.Answers) (records : List Record)
    (hheaded : ∀ record ∈ records, record.header.isSome = true) (replaces : Bool) :
    ∃ w' : Workspace,
      empty.load setup (.list (records.map Record.toValue)) replaces = (w', .ok w'.ids) ∧
      w'.toRecords = records ∧ Sound setup w' [] ∧
      Progress setup.environment [] (fun _ => False) (fun _ => True) w'.sheet [] := by
  have hstart : (if replaces then empty.clear else empty) = empty := by split <;> rfl
  have hcreated := (sound_empty setup).createAll records
  have hcoherent := hcreated.accounted.coherent
  obtain ⟨added, hadded, hids, hall⟩ := (sound_empty setup).rows_createAll records
  -- No node is there that is not created now.
  have hprogress := (sound_empty setup).progress_createAll henv (progress_empty setup)
    (fun k _ hk => by cases hk) records
  obtain ⟨-, hrows⟩ := hcoherent.rows_recalculateEach henv (empty.createAll setup records).2
  have hstored := Record.ofStored_toValue records
  obtain ⟨w', hw', hload⟩ : ∃ w' : Workspace,
      w' = (empty.createAll setup records).1.onSheet
        (Sheet.recalculateEach setup.environment · (empty.createAll setup records).2) ∧
      empty.load setup (.list (records.map Record.toValue)) replaces =
        (w', .ok (empty.createAll setup records).2) := by
    rcases Workspace.load_spec henv (w := empty) (.list (records.map Record.toValue)) replaces
      (fun records' _ => ((sound_empty setup).createAll_start replaces records').accounted.coherent)
      with ⟨e, herror, -⟩ | ⟨records', hok, hload⟩
    · rw [hstored] at herror
      cases herror
    · obtain rfl := Except.ok.inj (hstored.symm.trans hok)
      rw [hstart] at hload
      exact ⟨_, rfl, hload⟩
  have hrows' : w'.sheet.rows = added := by
    rw [hw']
    exact hrows.trans hadded
  refine ⟨w', ?_, ?_, ?_, ?_⟩
  · rw [hload, ids_eq, hrows', hids]
  · rw [toRecords_eq, hrows']
    exact Rows.map_record_of_isRowOf hall hheaded
  · rw [hw']
    exact Sound.recalculateEach henv hcreated.accounted hcreated.fresh
  · rw [hw']
    exact progress_recalculateEach henv hcoherent hprogress

/-- After any operations except for renamings and appended records, with anything in between that
may happen at any time, the records of a workspace are never refused by one without nodes. There is
then one node for each of them, in order, and the records are the same again, with headers that were
made up and headers that occur twice. When both workspaces have settled, by whatever runs of the
worker, two nodes in the same place have the same result, unless that of the stored node depends on
a node with the fingerprint that it had before some removal, although it reads other nodes now, or
the same ones by other names. It does not matter how expressions are evaluated, as long as something
comes of them, and the precision may be any whose power of ten is a number, so from 0 to 308. -/
theorem load_toRecords (setup : Setup) {factor : Float}
    (hreferences : setup.environment.references = setup.registry.references)
    (hevaluates : setup.environment.EvaluatesNumbers)
    (hscale : scaleFactor setup.environment.precision = .ok factor)
    (hw : History setup Operation.IsDirect past w) (replaces : Bool) :
    ∃ w' : Workspace,
      empty.load setup (.list (w.toRecords.map Record.toValue)) replaces = (w', .ok w'.ids) ∧
      w'.toRecords = w.toRecords ∧ w'.ids.length = w.ids.length ∧
      (w.sheet.IsRun setup.environment fun steps => (w.settle setup steps).sheet) ∧
      (w'.sheet.IsRun setup.environment fun steps => (w'.settle setup steps).sheet) ∧
      ∀ run, w.sheet.IsRun setup.environment run → ∀ run', w'.sheet.IsRun setup.environment run' →
        ∃ bound, ∀ steps, bound ≤ steps → ∀ steps', bound ≤ steps' →
          let s := run steps
          let s' := run' steps'
          s.AtRest ∧ s'.AtRest ∧ s.rows = w.sheet.rows ∧ s'.rows = w'.sheet.rows ∧
          ∀ k k', (k, k') ∈ w.ids.zip w'.ids →
            (∀ m, Collided past s m → ¬ ReflTransGen s.graph.Reads k m) →
            s'.resultOf k' = s.resultOf k := by
  have henv : setup.environment.Answers := hevaluates.answers hreferences hscale
  have hsound : Sound setup w [] := hw.reachable.sound henv
  obtain ⟨w', hload, hrecords, hsound', hprogress'⟩ := Sound.exists_loaded henv w.toRecords
    (fun record hrecord => by
      rw [toRecords_eq] at hrecord
      obtain ⟨row, hrow, rfl⟩ := List.mem_map.1 hrecord
      exact hw.headed henv row hrow) replaces
  obtain ⟨f, hf, hrelabel⟩ := exists_relabel hsound.accounted.coherent hrecords
  have hlength : w'.ids.length = w.ids.length := by rw [← hf, List.length_map]
  have hsettles : w.sheet.Settles setup.environment fun s => s.rows = w.sheet.rows ∧
      Sheet.Accounted setup.environment s [] ∧
        Progress setup.environment past (fun _ => False) (fun _ => True) s [] :=
    hsound.accounted.settles henv (Sheet.lasts_progress henv _ _ _)
      ⟨hsound.accounted.coherent, hw.progress henv⟩ fun _ _ hrows haccounted hdone =>
        ⟨hrows, haccounted, hdone.2⟩
  have hsettles' : w'.sheet.Settles setup.environment fun s => s.rows = w'.sheet.rows ∧
      Sheet.Accounted setup.environment s [] ∧
        Progress setup.environment [] (fun _ => False) (fun _ => True) s [] :=
    hsound'.accounted.settles henv (Sheet.lasts_progress henv _ _ _)
      ⟨hsound'.accounted.coherent, hprogress'⟩ fun _ _ hrows haccounted hdone =>
        ⟨hrows, haccounted, hdone.2⟩
  refine ⟨w', hload, hrecords, hlength, hsettles.1, hsettles'.1, fun run hrun run' hrun' => ?_⟩
  obtain ⟨bound, hbound⟩ := hsettles.2 run hrun
  obtain ⟨bound', hbound'⟩ := hsettles'.2 run' hrun'
  refine ⟨max bound bound', fun steps hsteps steps' hsteps' => ?_⟩
  obtain ⟨hrest, hrows, haccounted, hsettled⟩ := hbound steps (by omega)
  obtain ⟨hrest', hrows', haccounted', hsettled'⟩ := hbound' steps' (by omega)
  refine ⟨hrest, hrest', hrows, hrows', fun k k' hpair hfree => ?_⟩
  have hk : k ∈ (run steps).graph.nodes.keys := by
    rw [haccounted.coherent.keys_eq_ids, hrows, ← ids_eq]
    exact (List.of_mem_zip hpair).1
  -- Nodes in the same place are those that the relabelling takes to each other.
  obtain rfl : f k = k' := by
    rw [← hf, ← List.map_prod_left_eq_zip] at hpair
    obtain ⟨a, -, hpair⟩ := List.mem_map.1 hpair
    obtain ⟨rfl, heq⟩ := Prod.mk.inj hpair
    exact heq
  exact hsettled.resultOf_relabel henv haccounted haccounted' hsettled' hrest hrest'
    (hrows'.trans (hrelabel.trans (congrArg _ hrows.symm))) hk hfree

/-- A node without header, two nodes with the same header, the first of which is being edited, and
one that refers to itself. -/
def sharedHeader : List Operation :=
  [.add ⟨none, "B * 2"⟩, .add ⟨some "B", "3"⟩, .add ⟨some "B", "Node1 + B"⟩, .add ⟨some "S", "S"⟩,
    .edit "node-2" "4 + Z"]

/-- The header that was made up is kept, and names mean the first of the two nodes again. -/
theorem load_toRecords_sharedHeader :
    let setup := Setup.onStack
    let w := empty.performAll setup sharedHeader
    let past := empty.beforeRemovals setup sharedHeader
    History setup Operation.IsDirect past w ∧ setup.environment.EvaluatesNumbers ∧
      w.toRecords = [⟨some "Node1", "B * 2"⟩, ⟨some "B", "4 + Z"⟩, ⟨some "B", "Node1 + B"⟩,
        ⟨some "S", "S"⟩] ∧
      ∃ w' : Workspace,
        empty.load setup (.list (w.toRecords.map Record.toValue)) true = (w', .ok w'.ids) ∧
        w'.toRecords = w.toRecords ∧ w'.ids.length = w.ids.length ∧
        (w.sheet.IsRun setup.environment fun steps => (w.settle setup steps).sheet) ∧
        (w'.sheet.IsRun setup.environment fun steps => (w'.settle setup steps).sheet) ∧
        ∀ run, w.sheet.IsRun setup.environment run →
          ∀ run', w'.sheet.IsRun setup.environment run' →
            ∃ bound, ∀ steps, bound ≤ steps → ∀ steps', bound ≤ steps' →
              let s := run steps
              let s' := run' steps'
              s.AtRest ∧ s'.AtRest ∧ s.rows = w.sheet.rows ∧ s'.rows = w'.sheet.rows ∧
              ∀ k k', (k, k') ∈ w.ids.zip w'.ids →
                (∀ m, Collided past s m → ¬ ReflTransGen s.graph.Reads k m) →
                s'.resultOf k' = s.resultOf k := by
  intro setup w past
  have hdirect : ∀ operation ∈ sharedHeader, operation.IsDirect := by
    simp [sharedHeader, Operation.IsDirect]
  have hw : History setup Operation.IsDirect past w := .performAll setup hdirect
  exact ⟨hw, Setup.evaluatesNumbers_onStack, by decide +kernel,
    load_toRecords setup rfl Setup.evaluatesNumbers_onStack rfl hw true⟩

set_option maxRecDepth 100000 in
/-- The stored node keeps the result that belongs to a node which is gone; the loaded one has never
known it. -/
theorem load_toRecords_editTakenBack :
    let setup := Setup.onStack
    let w := empty.performAll setup editTakenBack
    let w' := (empty.load setup (.list (w.toRecords.map Record.toValue)) true).1
    let s := (w.settle setup 10).sheet
    let s' := (w'.settle setup 10).sheet
    (∀ operation ∈ editTakenBack, operation.IsDirect) ∧ s.AtRest ∧ s'.AtRest ∧
      w.toRecords = [⟨some "M", "A - B"⟩, ⟨some "B", "1"⟩] ∧
      w.ids.zip w'.ids = [("node-2", "node-1"), ("node-3", "node-2")] ∧
      s.resultOf "node-2" = .number 1 ∧ s'.resultOf "node-1" = .number (-1) := by
  refine ⟨by simp [editTakenBack, Operation.IsDirect], ?_⟩
  decide +kernel

end Workspace

end LiveSheet
