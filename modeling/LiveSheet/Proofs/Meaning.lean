import LiveSheet.Proofs.Bookkeeping
import Mathlib.Data.Fintype.Card
import Mathlib.Data.Fintype.EquivFin
import Mathlib.Data.Fintype.Sets

/-!
# What a table of nodes says

The headers and expressions of some nodes in the order of their creation, without any results, edges
or agenda, say what each node comes to (`Rows.Comes`): a reference means the first row that has it
as its header, and counts as 0 if there is none; a node that refers to itself is a self reference,
one from which a cycle of references can be reached is circular, and any other one takes over the
first error kind among its references, or else what its expression evaluates to. No node comes to
two results (`Comes.unique`).

A sheet is correct (`Sheet.Correct`) if each of its nodes has come to what the table says, and
linked (`Sheet.Linked`) if its reads and its edges are what the table says. What does not depend on
anything tainted has come to the right result if it is up to date (`Coherent.correct_of_tainted`),
whatever is meant by tainted.
-/

namespace LiveSheet

open Relation

/-- Induction along the steps of a relation, from something that leads to no cycle, if there are
only finitely many things to come to. -/
theorem acyclic_induction {α : Type} [DecidableEq α] {R : α → α → Prop} {support : List α}
    (hsupport : ∀ a b, R a b → b ∈ support) {P : α → Prop}
    (hstep : ∀ a, (¬ ∃ b, ReflTransGen R a b ∧ TransGen R b b) → (∀ b, R a b → P b) → P a) {a : α}
    (ha : ¬ ∃ b, ReflTransGen R a b ∧ TransGen R b b) : P a := by
  -- What something that leads to no cycle comes to does not come back to it.
  let leads (a : α) : Prop := ∃ b, ReflTransGen R a b ∧ TransGen R b b
  have hleads : ∀ {a b}, R a b → leads b → leads a :=
    fun hab ⟨c, hreach, hcycle⟩ => ⟨c, .head hab hreach, hcycle⟩
  let below (b c : { b : α // b ∈ support }) : Prop := TransGen R c.1 b.1 ∧ ¬ leads c.1
  have htrans : IsTrans _ below := ⟨fun _ _ _ hab hbc => ⟨hbc.1.trans hab.1, hbc.2⟩⟩
  have hirrefl : Std.Irrefl below := ⟨fun b hb => hb.2 ⟨b.1, .refl, hb.1⟩⟩
  have hwf : WellFounded below := Finite.wellFounded_of_trans_of_irrefl below
  have hall : ∀ b : { b : α // b ∈ support }, ¬ leads b.1 → P b.1 := by
    intro b
    induction b using hwf.induction with
    | _ b ih =>
      intro hb
      exact hstep b.1 hb fun d hd =>
        ih ⟨d, hsupport _ _ hd⟩ ⟨.single hd, hb⟩ fun hd' => hb (hleads hd hd')
  exact hstep a ha fun b hb => hall ⟨b, hsupport _ _ hb⟩ fun hb' => ha (hleads hb hb')

/-- What defines a node. -/
structure Row where
  id : NodeId
  header : Option String
  expression : String
deriving Repr, DecidableEq

namespace Rows

/-- The row that a name refers to. -/
def holder? (rows : List Row) (name : String) : Option NodeId :=
  (rows.find? (·.header = some name)).map (·.id)

variable (env : Environment) (rows : List Row)

/-- The rows that a row refers to, in order of first mention. -/
def targets (row : Row) : List NodeId :=
  (env.references row.expression).filterMap (holder? rows)

/-- What a row reads: nothing if it refers to itself, or else what it refers to. -/
def readsOf (row : Row) : List NodeId :=
  if row.id ∈ targets env rows row then [] else targets env rows row

/-- Whether one row reads another one. -/
def Depends (a b : NodeId) : Prop :=
  ∃ row ∈ rows, row.id = a ∧ b ∈ readsOf env rows row

/-- Whether a cycle can be reached from a row along what is read. -/
def LeadsToCycle (a : NodeId) : Prop :=
  ∃ b, ReflTransGen (Depends env rows) a b ∧ TransGen (Depends env rows) b b

/-- What a name shows if the rows come to the given results: 0 if there is no such row. -/
def shown (values : NodeId → Result) (name : String) : String × Result :=
  (name, ((holder? rows name).map values).getD (.number 0))

/-- What the rows of a table come to. -/
inductive Comes : NodeId → Result → Prop where
  | selfReference (row : Row) (hrow : row ∈ rows) (hself : row.id ∈ targets env rows row) :
      Comes row.id (.failed .selfReference)
  | circular (row : Row) (hrow : row ∈ rows) (hself : row.id ∉ targets env rows row)
      (hcycle : LeadsToCycle env rows row.id) : Comes row.id (.failed .circularDependency)
  | concluded (row : Row) (values : NodeId → Result) (result : Result) (hrow : row ∈ rows)
      (hself : row.id ∉ targets env rows row) (hcycle : ¬ LeadsToCycle env rows row.id)
      (hvalues : ∀ a ∈ targets env rows row, Comes a (values a))
      (hresult : Sheet.conclusion env row.expression
        ((env.references row.expression).map (shown rows values)) = .ok result) :
      Comes row.id result

variable {env : Environment} {rows : List Row}

/-- Rows with the same id are the same, if no id stands twice. -/
theorem eq_of_id_eq (hids : (rows.map (·.id)).Nodup) {row row' : Row} (hrow : row ∈ rows)
    (hrow' : row' ∈ rows) (hid : row.id = row'.id) : row = row' :=
  List.inj_on_of_nodup_map hids hrow hrow' hid

/-- What a row shows depends on the results of what it refers to. -/
theorem shown_congr {values values' : NodeId → Result} {row : Row}
    (h : ∀ a ∈ targets env rows row, values a = values' a) :
    (env.references row.expression).map (shown rows values) =
      (env.references row.expression).map (shown rows values') := by
  refine List.map_congr_left fun name hname => ?_
  unfold shown
  cases hholder : holder? rows name with
  | none => rfl
  | some a =>
    have : values a = values' a := h a (List.mem_filterMap.2 ⟨name, hname, hholder⟩)
    simp [this]

/-- No row comes to two results. -/
theorem Comes.unique (hids : (rows.map (·.id)).Nodup) {id : NodeId} {result result' : Result}
    (h : Comes env rows id result) (h' : Comes env rows id result') : result = result' := by
  -- The same row decides both, so both come by the same rule; where it is evaluated, its references
  -- come to the same results.
  induction h generalizing result' with
  | selfReference row hrow hself =>
    generalize hid : row.id = id at h'
    cases h' with
    | selfReference => rfl
    | circular row' hrow' hself' =>
      obtain rfl := eq_of_id_eq hids hrow hrow' hid
      exact absurd hself hself'
    | concluded row' values' _ hrow' hself' =>
      obtain rfl := eq_of_id_eq hids hrow hrow' hid
      exact absurd hself hself'
  | circular row hrow hself hcycle =>
    generalize hid : row.id = id at h'
    cases h' with
    | selfReference row' hrow' hself' =>
      obtain rfl := eq_of_id_eq hids hrow hrow' hid
      exact absurd hself' hself
    | circular => rfl
    | concluded row' values' _ hrow' _ hcycle' =>
      obtain rfl := eq_of_id_eq hids hrow hrow' hid
      exact absurd hcycle hcycle'
  | concluded row values result hrow hself hcycle _ hresult ih =>
    generalize hid : row.id = id at h'
    cases h' with
    | selfReference row' hrow' hself' =>
      obtain rfl := eq_of_id_eq hids hrow hrow' hid
      exact absurd hself' hself
    | circular row' hrow' _ hcycle' =>
      obtain rfl := eq_of_id_eq hids hrow hrow' hid
      exact absurd hcycle' hcycle
    | concluded row' values' _ hrow' _ _ hvalues' hresult' =>
      obtain rfl := eq_of_id_eq hids hrow hrow' hid
      rw [shown_congr fun a ha => ih a ha (hvalues' a ha)] at hresult
      exact Except.ok.inj (hresult.symm.trans hresult')

/-- What a name refers to is a row. -/
theorem mem_ids_of_holder? {name : String} {a : NodeId} (h : holder? rows name = some a) :
    a ∈ rows.map (·.id) := by
  obtain ⟨row, hrow, rfl⟩ := Option.map_eq_some_iff.1 h
  exact List.mem_map_of_mem (List.mem_of_find?_eq_some hrow)

/-- What a row refers to are rows. -/
theorem mem_ids_of_mem_targets {row : Row} {a : NodeId} (h : a ∈ targets env rows row) :
    a ∈ rows.map (·.id) := by
  obtain ⟨name, -, hholder⟩ := List.mem_filterMap.1 h
  exact mem_ids_of_holder? hholder

/-- A row reads what it refers to, unless it refers to itself. -/
theorem mem_readsOf {row : Row} {a : NodeId} :
    a ∈ readsOf env rows row ↔ row.id ∉ targets env rows row ∧ a ∈ targets env rows row := by
  unfold readsOf
  split
  · next hself => simp [hself]
  · next hself => simp [hself]

/-- Only rows depend, and only on rows. -/
theorem Depends.mem_ids {a b : NodeId} (h : Depends env rows a b) :
    a ∈ rows.map (·.id) ∧ b ∈ rows.map (·.id) := by
  obtain ⟨row, hrow, rfl, hb⟩ := h
  exact ⟨List.mem_map_of_mem hrow, mem_ids_of_mem_targets (mem_readsOf.1 hb).2⟩

/-- What depends on something that leads to a cycle leads to it. -/
theorem LeadsToCycle.of_depends {a b : NodeId} (h : Depends env rows a b)
    (hb : LeadsToCycle env rows b) : LeadsToCycle env rows a := by
  obtain ⟨c, hreach, hcycle⟩ := hb
  exact ⟨c, .head h hreach, hcycle⟩

/-- An error kind that is concluded is that of a reference, or comes from the evaluation. -/
theorem failed_of_conclusion {expression : String} {read : List (String × Result)}
    {kind : ErrorKind} (h : Sheet.conclusion env expression read = .ok (.failed kind)) :
    (∃ name, (name, Result.failed kind) ∈ read) ∨ kind = .error := by
  unfold Sheet.conclusion at h
  split at h
  · next first hfirst =>
    obtain rfl := Result.failed.inj (Except.ok.inj h)
    obtain ⟨⟨name, result⟩, hmem, hfailure⟩ := List.exists_of_findSome?_eq_some hfirst
    cases result with
    | number x => cases hfailure
    | failed kind' =>
      obtain rfl := Option.some.inj hfailure
      exact .inl ⟨name, hmem⟩
  · refine .inr ?_
    unfold Sheet.evaluate at h
    split at h
    · -- What the evaluation comes to has no other kind.
      unfold Result.finalize at h
      split at h
      · exact (Result.failed.inj (Except.ok.inj h)).symm
      · exact (Result.failed.inj (Except.ok.inj h)).symm
      · split at h
        · cases h
        · split at h
          · next x _ _ =>
            cases hround : roundHalfUp x env.precision with
            | ok y => rw [hround] at h; cases h
            | error e => rw [hround] at h; cases h
          · exact (Result.failed.inj (Except.ok.inj h)).symm
    · cases h

/-- A row that comes to the kind of a cycle leads to one. -/
theorem Comes.leadsToCycle {id : NodeId}
    (h : Comes env rows id (.failed .circularDependency)) : LeadsToCycle env rows id := by
  generalize hresult : Result.failed .circularDependency = result at h
  induction h with
  | selfReference => cases hresult
  | circular row hrow hself hcycle => exact hcycle
  | concluded row values result hrow hself hcycle hvalues hconclusion ih =>
    subst hresult
    rcases failed_of_conclusion hconclusion with ⟨name, hmem⟩ | hkind
    · obtain ⟨name', hname, hshown⟩ := List.mem_map.1 hmem
      obtain ⟨rfl, hvalue⟩ := Prod.mk.inj hshown
      cases hholder : holder? rows name' with
      | none =>
        rw [hholder] at hvalue
        cases hvalue
      | some a =>
        rw [hholder] at hvalue
        have ha : a ∈ targets env rows row := List.mem_filterMap.2 ⟨name', hname, hholder⟩
        exact .of_depends ⟨row, hrow, rfl, mem_readsOf.2 ⟨hself, ha⟩⟩ (ih a ha hvalue.symm)
    · cases hkind

/-- Rows that read no others come to some results, if these are an error kind where a row refers to
itself or leads to a cycle, and else what the row comes to by the results of its references. -/
theorem comes_of_closed {known : NodeId → Prop} {values : NodeId → Result}
    (hclosed : ∀ a b, known a → Depends env rows a b → known b)
    (hself : ∀ row ∈ rows, known row.id → row.id ∈ targets env rows row →
      values row.id = .failed .selfReference)
    (hcycle : ∀ row ∈ rows, known row.id → row.id ∉ targets env rows row →
      LeadsToCycle env rows row.id → values row.id = .failed .circularDependency)
    (hother : ∀ row ∈ rows, known row.id → row.id ∉ targets env rows row →
      ¬ LeadsToCycle env rows row.id → Sheet.conclusion env row.expression
        ((env.references row.expression).map (shown rows values)) = .ok (values row.id))
    {row : Row} (hrow : row ∈ rows) (hknown : known row.id) :
    Comes env rows row.id (values row.id) := by
  -- What a row comes to, if its references come to their results.
  have hnode : ∀ row ∈ rows, known row.id →
      (row.id ∉ targets env rows row → ¬ LeadsToCycle env rows row.id →
        ∀ a ∈ targets env rows row, Comes env rows a (values a)) →
      Comes env rows row.id (values row.id) := by
    intro row hrow hknown htargets
    by_cases hrefers : row.id ∈ targets env rows row
    · rw [hself row hrow hknown hrefers]
      exact .selfReference row hrow hrefers
    by_cases hleads : LeadsToCycle env rows row.id
    · rw [hcycle row hrow hknown hrefers hleads]
      exact .circular row hrow hrefers hleads
    · exact .concluded row values _ hrow hrefers hleads (htargets hrefers hleads)
        (hother row hrow hknown hrefers hleads)
  by_cases hleads : LeadsToCycle env rows row.id
  · exact hnode row hrow hknown fun _ hnot => absurd hleads hnot
  -- The rows that lead to no cycle, each after those that it reads.
  · refine acyclic_induction (R := Depends env rows)
      (P := fun id => ∀ row ∈ rows, row.id = id → known row.id →
        Comes env rows row.id (values row.id))
      (fun a b hab => hab.mem_ids.2) (fun id _ ih row hrow hid hknown => ?_) hleads row hrow rfl
      hknown
    refine hnode row hrow hknown fun hrefers _ a ha => ?_
    obtain ⟨target, htarget, rfl⟩ := List.mem_map.1 (mem_ids_of_mem_targets ha)
    have hdepends : Depends env rows row.id target.id :=
      ⟨row, hrow, rfl, mem_readsOf.2 ⟨hrefers, ha⟩⟩
    exact ih target.id (hid ▸ hdepends) target htarget rfl (hclosed _ _ hknown hdepends)

end Rows

namespace Sheet

/-- What defines the nodes of a sheet, in order of creation. -/
def rows (s : Sheet) : List Row :=
  s.calculators.entries.map fun (id, c) => ⟨id, s.graph.headerOf id, c.expression⟩

/-- Whether every node has come to what the table says. -/
def Correct (env : Environment) (s : Sheet) : Prop :=
  ∀ row ∈ s.rows, Rows.Comes env s.rows row.id (s.resultOf row.id)

/-- Whether the reads and the edges of a sheet are what its table says. -/
structure Linked (env : Environment) (s : Sheet) : Prop where
  reads : ∀ row ∈ s.rows, ∃ c, s.calculator? row.id = some c ∧ c.reads = Rows.readsOf env s.rows row
  edges : ∀ a b, s.graph.Reads a b ↔ Rows.Depends env s.rows a b

variable {env : Environment} {s s' : Sheet} {id : NodeId} {c : Calculator}

/-! ### The table of a coherent sheet -/

/-- The rows of a sheet are its calculators. -/
theorem ids_rows (s : Sheet) : s.rows.map (·.id) = s.calculators.keys := by
  unfold rows Table.keys
  rw [List.map_map]
  rfl

/-- In a coherent sheet they are the registered nodes. -/
theorem Coherent.keys_eq_ids (h : s.Coherent) : s.graph.nodes.keys = s.rows.map (·.id) := by
  rw [ids_rows, h.keys]

/-- No row is there twice. -/
theorem Coherent.nodup_ids (h : s.Coherent) : (s.rows.map (·.id)).Nodup :=
  h.keys_eq_ids ▸ h.nodup

/-- And no calculator is. -/
theorem Coherent.nodup_keys (h : s.Coherent) : s.calculators.keys.Nodup :=
  h.keys ▸ h.nodup

/-- The row of a node. -/
def rowOf (s : Sheet) (id : NodeId) (c : Calculator) : Row :=
  ⟨id, s.graph.headerOf id, c.expression⟩

/-- A row is that of a node with its calculator. -/
theorem Coherent.mem_rows (h : s.Coherent) {row : Row} :
    row ∈ s.rows ↔ ∃ id c, s.calculator? id = some c ∧ row = s.rowOf id c := by
  unfold rows rowOf
  rw [List.mem_map]
  constructor
  · rintro ⟨⟨id, c⟩, hmem, rfl⟩
    exact ⟨id, c, (Table.get?_eq_some_iff h.nodup_keys).2 hmem, rfl⟩
  · rintro ⟨id, c, hc, rfl⟩
    exact ⟨(id, c), (Table.get?_eq_some_iff h.nodup_keys).1 hc, rfl⟩

/-- The table lists the nodes in the order of their calculators. -/
theorem Coherent.rows_eq (h : s.Coherent) : s.rows = s.calculators.keys.map fun id =>
    ⟨id, s.graph.headerOf id, ((s.calculator? id).map (·.expression)).getD ""⟩ := by
  unfold rows Table.keys
  rw [List.map_map]
  refine List.map_congr_left fun entry hentry => ?_
  have hget : s.calculator? entry.1 = some entry.2 := (Table.get?_eq_some_iff h.nodup_keys).2 hentry
  simp [hget]

/-- A name means the same in the table as in the graph. -/
theorem Coherent.holder?_rows (h : s.Coherent) : Rows.holder? s.rows = s.graph.holder? := by
  have hheadings :
      s.graph.headings = s.graph.nodes.keys.map fun id => (id, s.graph.headerOf id) := by
    unfold Graph.headings Table.keys
    rw [List.map_map]
    refine List.map_congr_left fun entry hentry => ?_
    have hget : s.graph.node? entry.1 = some entry.2 := (Table.get?_eq_some_iff h.nodup).2 hentry
    simp [Graph.headerOf, hget]
  have hrows : s.rows.map (fun row => (row.id, row.header)) = s.graph.headings := by
    rw [hheadings, ← h.keys]
    unfold rows Table.keys
    rw [List.map_map, List.map_map]
    rfl
  funext name
  rw [Graph.holder?_eq, ← hrows]
  unfold Rows.holder? Graph.holderIn?
  rw [List.find?_map, Option.map_map]
  rfl

/-- A row refers to the nodes that hold the names in its expression. -/
theorem Coherent.targets_eq (h : s.Coherent) (row : Row) :
    Rows.targets env s.rows row = (env.references row.expression).filterMap s.graph.holder? := by
  unfold Rows.targets
  rw [h.holder?_rows]

/-- What a node should read is what its row refers to. -/
theorem Coherent.reading_eq (h : s.Coherent) (henv : env.Answers) (id : NodeId) (c : Calculator) :
    reading? env s id c = if id ∈ Rows.targets env s.rows (s.rowOf id c) then none
      else some (Rows.targets env s.rows (s.rowOf id c)) := by
  unfold reading?
  rw [resolve?_eq h.nodup (henv.nodup _), h.targets_eq]
  rfl

/-- A node reads what its row reads. -/
theorem Coherent.getD_reading (h : s.Coherent) (henv : env.Answers) (id : NodeId)
    (c : Calculator) :
    (reading? env s id c).getD [] = Rows.readsOf env s.rows (s.rowOf id c) := by
  rw [h.reading_eq henv]
  unfold Rows.readsOf
  by_cases hself : id ∈ Rows.targets env s.rows (s.rowOf id c)
  · rw [if_pos hself, if_pos (show (s.rowOf id c).id ∈ _ from hself)]
    rfl
  · rw [if_neg hself, if_neg (show (s.rowOf id c).id ∉ _ from hself)]
    rfl

/-! ### What is shown by name -/

/-- A scope may leave out the names that nothing refers to. -/
theorem sameNumbers_scope (h : s.Coherent) {names : List String} (hnames : names.Nodup)
    {scope scope' : Scope} (hscope : Scope.SameNumbers scope scope')
    (hnew : ∀ name ∈ names, scope'.get? name = none) :
    Scope.SameNumbers
      ((names.map (Rows.shown s.rows s.resultOf)).foldl
        (fun scope (name, result) => scope.insert name result.toValue) scope)
      (((names.filterMap s.graph.holder?).map s.seen).foldl
        (fun scope (name, result) => scope.insert name result.toValue) scope') := by
  induction names generalizing scope scope' with
  | nil => exact hscope
  | cons name names ih =>
    obtain ⟨hname, hnodup⟩ := List.nodup_cons.1 hnames
    rw [List.map_cons, List.foldl_cons]
    cases hholder : s.graph.holder? name with
    | none =>
      rw [List.filterMap_cons_none hholder]
      refine ih hnodup (fun other => ?_) fun other hother =>
        hnew other (List.mem_cons_of_mem name hother)
      rw [Table.get?_insert]
      -- A name that nothing refers to counts as zero, bound or not.
      split
      · next heq =>
        subst heq
        rw [hnew other (List.mem_cons_self ..)]
        unfold Rows.shown
        rw [h.holder?_rows, hholder]
        rfl
      · exact hscope other
    | some a =>
      rw [List.filterMap_cons_some hholder, List.map_cons, List.foldl_cons]
      have hshown : Rows.shown s.rows s.resultOf name = s.seen a := by
        unfold Rows.shown seen
        rw [h.holder?_rows, hholder, (Graph.headerOf_of_holder? h.nodup hholder).2]
        rfl
      rw [hshown]
      have hheader : (s.seen a).1 = name := by rw [← hshown]; rfl
      refine ih hnodup (fun other => ?_) fun other hother => ?_
      · rw [Table.get?_insert, Table.get?_insert]
        split
        · rfl
        · exact hscope other
      · rw [Table.get?_insert, if_neg, hnew other (List.mem_cons_of_mem name hother)]
        rintro rfl
        exact hname (hheader ▸ hother)

/-- Names that nothing refers to show no error kind. -/
theorem firstFailure?_shown (h : s.Coherent) (names : List String) :
    firstFailure? (names.map (Rows.shown s.rows s.resultOf)) =
      firstFailure? ((names.filterMap s.graph.holder?).map s.seen) := by
  induction names with
  | nil => rfl
  | cons name names ih =>
    cases hholder : s.graph.holder? name with
    | none =>
      have hshown : Rows.shown s.rows s.resultOf name = (name, .number 0) := by
        unfold Rows.shown
        rw [h.holder?_rows, hholder]
        rfl
      rw [List.filterMap_cons_none hholder, ← ih, List.map_cons, hshown]
      rfl
    | some a =>
      have hshown : (Rows.shown s.rows s.resultOf name).2 = s.resultOf a := by
        unfold Rows.shown
        rw [h.holder?_rows, hholder]
        rfl
      rw [List.filterMap_cons_some hholder, List.map_cons, List.map_cons]
      unfold firstFailure? at ih ⊢
      rw [List.findSome?_cons, List.findSome?_cons, ih]
      simp only [hshown, seen]

/-- What an expression comes to by its names is what it comes to by the nodes that it reads. -/
theorem conclusion_shown (h : s.Coherent) (henv : env.Lawful) (expression : String) :
    conclusion env expression
        ((env.references expression).map (Rows.shown s.rows s.resultOf)) =
      conclusion env expression
        (((env.references expression).filterMap s.graph.holder?).map s.seen) := by
  unfold conclusion
  rw [firstFailure?_shown h]
  cases firstFailure? (((env.references expression).filterMap s.graph.holder?).map s.seen) with
  | some kind => rfl
  | none =>
    unfold evaluate scopeOf
    simp only
    rw [henv.congr expression _ _ (sameNumbers_scope h (henv.nodup expression) (fun _ => rfl)
      fun _ _ => rfl)]

/-! ### Up to date and in agreement -/

/-- The nodes that a row refers to are registered. -/
theorem Coherent.mem_keys_of_mem_targets (h : s.Coherent) {row : Row} {a : NodeId}
    (ha : a ∈ Rows.targets env s.rows row) : a ∈ s.graph.nodes.keys := by
  rw [h.keys_eq_ids]
  exact Rows.mem_ids_of_mem_targets ha

/-- If a node reads what it should, its edges are what the table says. -/
theorem Coherent.edges_iff (h : s.Coherent) {a : NodeId}
    (hreads : ∀ c, s.calculator? a = some c → c.reads = Rows.readsOf env s.rows (s.rowOf a c))
    (b : NodeId) : b ∈ s.graph.dependenciesOf a ↔ Rows.Depends env s.rows a b := by
  refine (h.edges a b).trans ?_
  constructor
  · rintro ⟨c, hc, hb, -⟩
    exact ⟨s.rowOf a c, h.mem_rows.2 ⟨a, c, hc, rfl⟩, rfl, hreads c hc ▸ hb⟩
  · rintro ⟨row, hrow, rfl, hb⟩
    obtain ⟨id, c, hc, rfl⟩ := h.mem_rows.1 hrow
    exact ⟨c, hc, (hreads c hc).symm ▸ hb, h.mem_keys_of_mem_targets (Rows.mem_readsOf.1 hb).2⟩

/-- What a node should come to that refers to itself, leads to a cycle, or does neither, by the
nodes that it refers to. -/
theorem Coherent.due_seen (h : s.Coherent) (henv : env.Answers)
    (hcycle : s.graph.LeadsToCycle id ↔ Rows.LeadsToCycle env s.rows id) (c : Calculator) :
    (id ∈ Rows.targets env s.rows (s.rowOf id c) →
      due env s id c = .ok (.failed .selfReference)) ∧
    (id ∉ Rows.targets env s.rows (s.rowOf id c) → Rows.LeadsToCycle env s.rows id →
      due env s id c = .ok (.failed .circularDependency)) ∧
    (id ∉ Rows.targets env s.rows (s.rowOf id c) → ¬ Rows.LeadsToCycle env s.rows id →
      due env s id c = conclusion env c.expression
        ((Rows.targets env s.rows (s.rowOf id c)).map s.seen)) := by
  rw [← Graph.reachesCycle_eq_true_iff] at hcycle
  unfold due
  rw [h.reading_eq henv]
  refine ⟨fun hself => ?_, fun hself hleads => ?_, fun hself hleads => ?_⟩
  · rw [if_pos hself]
  · rw [if_neg hself]
    simp only [hcycle.2 hleads, if_true]
  · rw [if_neg hself]
    simp only [if_neg fun hreaches => hleads (hcycle.1 hreaches)]

/-- The same by the names that the expression mentions. -/
theorem Coherent.due_eq (h : s.Coherent) (henv : env.Lawful)
    (hcycle : s.graph.LeadsToCycle id ↔ Rows.LeadsToCycle env s.rows id) (c : Calculator) :
    (id ∈ Rows.targets env s.rows (s.rowOf id c) →
      due env s id c = .ok (.failed .selfReference)) ∧
    (id ∉ Rows.targets env s.rows (s.rowOf id c) → Rows.LeadsToCycle env s.rows id →
      due env s id c = .ok (.failed .circularDependency)) ∧
    (id ∉ Rows.targets env s.rows (s.rowOf id c) → ¬ Rows.LeadsToCycle env s.rows id →
      due env s id c = conclusion env c.expression
        ((env.references c.expression).map (Rows.shown s.rows s.resultOf))) := by
  obtain ⟨hself, hleads, hother⟩ := h.due_seen henv hcycle c
  refine ⟨hself, hleads, fun hnot hfree => ?_⟩
  rw [hother hnot hfree, conclusion_shown h henv, h.targets_eq]
  rfl

/-- Nodes that read no others come to their results, if they are up to date and lead to a cycle in
the graph whenever they do so in the table. -/
theorem Coherent.comes_of_upToDate (h : s.Coherent) (henv : env.Lawful) {known : NodeId → Prop}
    (hclosed : ∀ a b, known a → Rows.Depends env s.rows a b → known b)
    (hknown : ∀ id c, known id → s.calculator? id = some c →
      UpToDate env s id ∧ (s.graph.LeadsToCycle id ↔ Rows.LeadsToCycle env s.rows id))
    (hid : known id) (hc : s.calculator? id = some c) :
    Rows.Comes env s.rows id (s.resultOf id) := by
  have hdue : ∀ row ∈ s.rows, known row.id → ∃ c, s.rowOf row.id c = row ∧
      due env s row.id c = .ok (s.resultOf row.id) ∧
        (s.graph.LeadsToCycle row.id ↔ Rows.LeadsToCycle env s.rows row.id) := by
    intro row hrow hrowKnown
    obtain ⟨k, ck, hck, rfl⟩ := h.mem_rows.1 hrow
    obtain ⟨⟨c₁, hc₁, -, hok⟩, hcycle⟩ := hknown k ck hrowKnown hck
    obtain rfl := Option.some.inj (hck.symm.trans hc₁)
    exact ⟨ck, rfl, hok.trans (congrArg _ (resultOf_eq hck).symm), hcycle⟩
  have hrowOf : s.rowOf id c ∈ s.rows := h.mem_rows.2 ⟨id, c, hc, rfl⟩
  -- What is due agrees with the rule for the row: a reference to itself, a cycle, or neither.
  refine Rows.comes_of_closed hclosed (fun row hrow hrowKnown hself => ?_)
    (fun row hrow hrowKnown hself hleads => ?_) (fun row hrow hrowKnown hself hleads => ?_) hrowOf
    hid
  · obtain ⟨ck, hrowOf, hok, hcycle⟩ := hdue row hrow hrowKnown
    exact Except.ok.inj (hok.symm.trans ((h.due_eq henv hcycle ck).1 (hrowOf.symm ▸ hself)))
  · obtain ⟨ck, hrowOf, hok, hcycle⟩ := hdue row hrow hrowKnown
    exact Except.ok.inj
      (hok.symm.trans ((h.due_eq henv hcycle ck).2.1 (hrowOf.symm ▸ hself) hleads))
  · obtain ⟨ck, hrowOf, hok, hcycle⟩ := hdue row hrow hrowKnown
    rw [← hok, (h.due_eq henv hcycle ck).2.2 (hrowOf.symm ▸ hself) hleads, ← hrowOf]
    rfl

/-- If every node reads what it should, reads and edges are what the table says. -/
theorem Coherent.linked (h : s.Coherent) (henv : env.Answers)
    (hreads : ∀ id c, s.calculator? id = some c → c.reads = (reading? env s id c).getD []) :
    s.Linked env := by
  have hreads' : ∀ id c, s.calculator? id = some c →
      c.reads = Rows.readsOf env s.rows (s.rowOf id c) := by
    intro id c hc
    rw [hreads id c hc, h.getD_reading henv]
  refine ⟨fun row hrow => ?_, fun a => h.edges_iff (hreads' a)⟩
  obtain ⟨id, c, hc, rfl⟩ := h.mem_rows.1 hrow
  exact ⟨c, hc, hreads' id c hc⟩

/-- The edges of a node that is up to date are what the table says. -/
theorem Coherent.edges_of_upToDate (h : s.Coherent) (henv : env.Answers) {a : NodeId}
    (ha : a ∈ s.graph.nodes.keys → UpToDate env s a) (b : NodeId) :
    s.graph.Reads a b ↔ Rows.Depends env s.rows a b := by
  refine h.edges_iff (fun c hc => ?_) b
  obtain ⟨c₁, hc₁, hreads, -⟩ := ha (h.registered hc)
  obtain rfl : c = c₁ := Option.some.inj (hc.symm.trans hc₁)
  rw [hreads, h.getD_reading henv]

/-- Whether a node depends on nothing that is tainted. -/
def FreeOf (s : Sheet) (tainted : NodeId → Prop) (k : NodeId) : Prop :=
  ∀ m, tainted m → ¬ ReflTransGen s.graph.Reads k m

variable {tainted : NodeId → Prop} {a b : NodeId}

/-- What is free of a taint reads only what is. -/
theorem FreeOf.next (ha : s.FreeOf tainted a) (hab : s.graph.Reads a b) : s.FreeOf tainted b :=
  fun m hm hreach => ha m hm (.head hab hreach)

/-- And what is not free depends on a tainted node. -/
theorem exists_of_not_freeOf (ha : ¬ s.FreeOf tainted a) :
    ∃ m, tainted m ∧ ReflTransGen s.graph.Reads a m := by
  unfold FreeOf at ha
  push Not at ha
  exact ha

/-- From a node that depends on nothing tainted, the cycles of the graph are those of the table, if
every such node is up to date. -/
theorem FreeOf.leadsToCycle_iff (ha : s.FreeOf tainted a) (h : s.Coherent) (henv : env.Answers)
    (hupToDate : ∀ k ∈ s.graph.nodes.keys, s.FreeOf tainted k → UpToDate env s k) :
    s.graph.LeadsToCycle a ↔ Rows.LeadsToCycle env s.rows a := by
  have hedges : ∀ x, s.FreeOf tainted x → ∀ y, s.graph.Reads x y ↔ Rows.Depends env s.rows x y :=
    fun x hx => h.edges_of_upToDate henv fun hmem => hupToDate x hmem hx
  constructor
  · exact leadsToCycle_of_closed (fun x y hx hxy => ⟨(hedges x hx y).1 hxy, hx.next hxy⟩) ha
  · refine leadsToCycle_of_closed (fun x y hx hxy => ?_) ha
    have hxy' := (hedges x hx y).2 hxy
    exact ⟨hxy', hx.next hxy'⟩

/-- A node that depends on nothing tainted has come to the right result, if every such node is up to
date. -/
theorem FreeOf.comes (ha : s.FreeOf tainted a) (h : s.Coherent) (henv : env.Lawful)
    (hupToDate : ∀ k ∈ s.graph.nodes.keys, s.FreeOf tainted k → UpToDate env s k)
    (hregistered : a ∈ s.graph.nodes.keys) : Rows.Comes env s.rows a (s.resultOf a) := by
  obtain ⟨c, hc⟩ := h.calculator_of_mem hregistered
  refine h.comes_of_upToDate henv (fun x y hx hxy => ?_) (fun k ck hk hck => ?_) ha hc
  · exact hx.next ((h.edges_of_upToDate henv (fun hmem => hupToDate x hmem hx) y).2 hxy)
  · exact ⟨hupToDate k (h.registered hck) hk, hk.leadsToCycle_iff h henv hupToDate⟩

/-- Whether nothing is wrong but what depends on something tainted. -/
structure CorrectBut (env : Environment) (s : Sheet) (tainted : NodeId → Prop) : Prop where
  /-- Every node that depends on nothing tainted has come to what the table says. -/
  comes : ∀ row ∈ s.rows, s.FreeOf tainted row.id →
    Rows.Comes env s.rows row.id (s.resultOf row.id)
  /-- All nodes have, if and only if those have that depend on something tainted. -/
  correct_iff : s.Correct env ↔ ∀ m, tainted m → ∀ k, ReflTransGen s.graph.Reads k m →
    Rows.Comes env s.rows k (s.resultOf k)

/-- Nothing else is wrong if every node is up to date that depends on nothing tainted. -/
theorem Coherent.correctBut (h : s.Coherent) (henv : env.Lawful)
    (hupToDate : ∀ k ∈ s.graph.nodes.keys, s.FreeOf tainted k → UpToDate env s k)
    (htainted : ∀ m, tainted m → m ∈ s.graph.nodes.keys) : s.CorrectBut env tainted := by
  have hcomes : ∀ row ∈ s.rows, s.FreeOf tainted row.id →
      Rows.Comes env s.rows row.id (s.resultOf row.id) := fun row hrow hfree =>
    hfree.comes h henv hupToDate (h.keys_eq_ids ▸ List.mem_map_of_mem hrow)
  refine ⟨hcomes, fun hcorrect m hm k hreach => ?_, fun hright row hrow => ?_⟩
  · have hk : k ∈ s.graph.nodes.keys := by
      rcases ReflTransGen.cases_head hreach with rfl | ⟨b, hstep, -⟩
      · exact htainted k hm
      · obtain ⟨c, hc, -⟩ := (h.edges k b).1 hstep
        exact h.registered hc
    obtain ⟨c, hc⟩ := h.calculator_of_mem hk
    exact hcorrect _ (h.mem_rows.2 ⟨k, c, hc, rfl⟩)
  · by_cases hfree : s.FreeOf tainted row.id
    · exact hcomes row hrow hfree
    · obtain ⟨m, hm, hreach⟩ := exists_of_not_freeOf hfree
      exact hright m hm row.id hreach

/-- Only which nodes are tainted matters. -/
theorem CorrectBut.congr {tainted' : NodeId → Prop} (h : s.CorrectBut env tainted)
    (hsame : ∀ m, tainted m ↔ tainted' m) : s.CorrectBut env tainted' := by
  obtain rfl : tainted = tainted' := funext fun m => propext (hsame m)
  exact h

/-- Correct sheets with the same table have the same results. -/
theorem Correct.resultOf_eq (h : s.Correct env) (h' : s'.Correct env) (hcoherent : s.Coherent)
    (hrows : s'.rows = s.rows) {row : Row} (hrow : row ∈ s.rows) :
    s'.resultOf row.id = s.resultOf row.id := by
  have hcomes := h' row (hrows ▸ hrow)
  rw [hrows] at hcomes
  exact hcomes.unique hcoherent.nodup_ids (h row hrow)

end Sheet

end LiveSheet
