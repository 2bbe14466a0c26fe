import LiveSheet.Proofs.Consistency

/-!
# Appended records

Records that are appended to a settled workspace are computed after those that are there, but
nothing that is there is computed again, because nothing in it reads a new node (`Sheet.Sealed`). So
an old node that mentions a header which only a new record has (`Sheet.Misses`) keeps the result
that it had without it. Apart from what depends on such nodes, or on others that were not up to date
before, results are right when everything has settled.
-/

namespace LiveSheet

open Relation

/-- A name is held by a row of the first list, or else by one of the second. -/
theorem Rows.holder?_append (rows added : List Row) (name : String) :
    Rows.holder? (rows ++ added) name = (Rows.holder? rows name).or (Rows.holder? added name) := by
  unfold Rows.holder?
  rw [List.find?_append]
  cases rows.find? (·.header = some name) <;> rfl

namespace Sheet

variable {env : Environment} {s₀ s s' : Sheet} {id k : NodeId} {c c' : Calculator} {loud : Bool}
  {todo : List NodeId}

/-! ### Sealed nodes -/

/-- Whether the nodes of an old sheet are as they were, and nothing that is still to be done
concerns them. -/
structure Sealed (s₀ s : Sheet) (todo : List NodeId) : Prop where
  coherent : s.Coherent
  same : ∀ k ∈ s₀.graph.nodes.keys, s.calculator? k = s₀.calculator? k
  todo : ∀ k ∈ todo, k ∉ s₀.graph.nodes.keys
  awaits : ∀ k, s.Awaits k → k ∉ s₀.graph.nodes.keys

/-- What an old node comes to are old nodes. -/
theorem Coherent.mem_of_reaches (h : s.Coherent)
    (hsame : ∀ k ∈ s₀.graph.nodes.keys, s.calculator? k = s₀.calculator? k)
    (hregistered : ∀ k c, s₀.calculator? k = some c → ∀ a ∈ c.reads, a ∈ s₀.graph.nodes.keys)
    (hk : k ∈ s₀.graph.nodes.keys) {a : NodeId} (hreach : ReflTransGen s.graph.Reads k a) :
    a ∈ s₀.graph.nodes.keys := by
  induction hreach with
  | refl => exact hk
  | tail _ hstep ih =>
    obtain ⟨c, hc, hb, -⟩ := (h.edges _ _).1 hstep
    rw [hsame _ ih] at hc
    exact hregistered _ c hc _ hb

/-- The recalculation of the first node that is left changes no sealed node. -/
theorem Sealed.recalculate (henv : env.Answers)
    (hregistered : ∀ k c, s₀.calculator? k = some c → ∀ a ∈ c.reads, a ∈ s₀.graph.nodes.keys)
    (h : Sealed s₀ s (id :: todo)) : Sealed s₀ (recalculate env s id).1 todo := by
  cases hc : s.calculator? id with
  | none =>
    rw [recalculate_of_none hc]
    exact ⟨h.coherent, h.same, fun k hk => h.todo k (List.mem_cons_of_mem _ hk), h.awaits⟩
  | some c =>
    have hnames := henv.nodup c.expression
    obtain ⟨c', loud, heffect, hverdict⟩ := h.coherent.recalculate_spec hnames hc
    generalize (Sheet.recalculate env s id).1 = s' at heffect hverdict
    have hcoherent := heffect.coherent h.coherent hnames hc hverdict
    have hid := h.todo id (List.mem_cons_self ..)
    have hsame : ∀ k ∈ s₀.graph.nodes.keys, s'.calculator? k = s₀.calculator? k := by
      intro k hk
      rw [heffect.calculator_other fun heq => hid (heq ▸ hk), h.same k hk]
    refine ⟨hcoherent, hsame, fun k hk => h.todo k (List.mem_cons_of_mem id hk),
      fun k hawaits hk => ?_⟩
    -- What is new on the agenda comes to the node that is recalculated, and no old node does.
    rcases heffect.of_awaits hawaits with hawaits | hmem
    · exact h.awaits k hawaits hk
    · obtain ⟨-, -, hreach⟩ := (Graph.mem_wave_callbacks hcoherent.mirrored
        fun _ _ => hcoherent.callback).1 hmem
      exact hid (hcoherent.mem_of_reaches hsame hregistered hk hreach.to_reflTransGen)

/-- The worker leaves old nodes as they are. -/
theorem lasts_sealed (henv : env.Answers)
    (hregistered : ∀ k c, s₀.calculator? k = some c → ∀ a ∈ c.reads, a ∈ s₀.graph.nodes.keys) :
    Lasts env (Sealed s₀) :=
  .of_resembles (·.coherent) (·.recalculate henv hregistered) fun h hsame hcoherent =>
    ⟨hcoherent, fun k hk => (hsame.calculator? k).trans (h.same k hk),
      fun k hk => h.awaits k (hsame.of_awaits k (.inl hk)),
      fun k hk => h.awaits k (hsame.of_awaits k (.inr hk))⟩

/-! ### What old nodes notice -/

variable {added : List Row} {a b : NodeId}

/-- Whether the expression of a node mentions a header that no node had before and one has now. -/
def Misses (env : Environment) (before s : Sheet) (k : NodeId) : Prop :=
  ∃ c, before.calculator? k = some c ∧ ∃ name ∈ env.references c.expression,
    before.graph.holder? name = none ∧ s.graph.holder? name ≠ none

/-- The nodes from before are still registered. -/
theorem Sealed.mem_keys (h : Sealed s₀ s todo) (hcoherent : s₀.Coherent)
    (hk : k ∈ s₀.graph.nodes.keys) : k ∈ s.graph.nodes.keys := by
  obtain ⟨c, hc⟩ := hcoherent.calculator_of_mem hk
  exact h.coherent.registered ((h.same k hk).trans hc)

/-- The edges of an old node are what they were. -/
theorem Sealed.reads_iff (h : Sealed s₀ s todo) (hcoherent : s₀.Coherent)
    (hregistered : ∀ k c, s₀.calculator? k = some c → ∀ a ∈ c.reads, a ∈ s₀.graph.nodes.keys)
    (ha : a ∈ s₀.graph.nodes.keys) : s.graph.Reads a b ↔ s₀.graph.Reads a b := by
  refine (h.coherent.edges a b).trans (Iff.trans ?_ (hcoherent.edges a b).symm)
  rw [h.same a ha]
  refine exists_congr fun c => and_congr_right fun hc => and_congr_right fun hb => ?_
  have hmem := hregistered a c hc b hb
  exact iff_of_true (h.mem_keys hcoherent hmem) hmem

/-- So are the cycles that it leads to. -/
theorem Sealed.leadsToCycle_iff (h : Sealed s₀ s todo) (hcoherent : s₀.Coherent)
    (hregistered : ∀ k c, s₀.calculator? k = some c → ∀ a ∈ c.reads, a ∈ s₀.graph.nodes.keys)
    (ha : a ∈ s₀.graph.nodes.keys) : s.graph.LeadsToCycle a ↔ s₀.graph.LeadsToCycle a := by
  have hclosed : ∀ x y, s₀.graph.Reads x y → y ∈ s₀.graph.nodes.keys := by
    intro x y hstep
    obtain ⟨-, -, -, hy⟩ := (hcoherent.edges x y).1 hstep
    exact hy
  have hreads := fun {x y} (hx : x ∈ s₀.graph.nodes.keys) =>
    h.reads_iff (b := y) hcoherent hregistered hx
  constructor
  · refine leadsToCycle_of_closed (fun x y hx hstep => ?_) ha
    have hstep' := (hreads hx).1 hstep
    exact ⟨hstep', hclosed x y hstep'⟩
  · exact leadsToCycle_of_closed (fun x y hx hstep => ⟨(hreads hx).2 hstep, hclosed x y hstep⟩) ha

/-- An old node shows the header that it had. -/
theorem headerOf_of_rows (hcoherent : s₀.Coherent) (h : s.Coherent)
    (hrows : s.rows = s₀.rows ++ added)
    (hk : k ∈ s₀.graph.nodes.keys) : s.graph.headerOf k = s₀.graph.headerOf k := by
  obtain ⟨c, hc⟩ := hcoherent.calculator_of_mem hk
  have hmem : s₀.rowOf k c ∈ s.rows :=
    hrows ▸ List.mem_append_left _ (hcoherent.mem_rows.2 ⟨k, c, hc, rfl⟩)
  obtain ⟨k', c', -, hrow⟩ := h.mem_rows.1 hmem
  obtain ⟨rfl, hheader, -⟩ := Row.mk.inj hrow
  exact hheader.symm

/-- An old node that was up to date still is, unless it misses a new one. -/
theorem Sealed.upToDate (h : Sealed s₀ s todo) (henv : env.Answers) (hcoherent : s₀.Coherent)
    (hregistered : ∀ k c, s₀.calculator? k = some c → ∀ a ∈ c.reads, a ∈ s₀.graph.nodes.keys)
    (hrows : s.rows = s₀.rows ++ added) (hk : k ∈ s₀.graph.nodes.keys)
    (hupToDate : UpToDate env s₀ k)
    (hmisses : ¬ Misses env s₀ s k) : UpToDate env s k := by
  have hholder : ∀ name, s.graph.holder? name =
      (s₀.graph.holder? name).or (Rows.holder? added name) := by
    intro name
    rw [← h.coherent.holder?_rows, ← hcoherent.holder?_rows, hrows, Rows.holder?_append]
  refine hupToDate.congr (h.same k hk) (fun c hc => ?_)
    (h.leadsToCycle_iff hcoherent hregistered hk) fun c hc a ha => ?_
  · refine reading?_congr hcoherent.nodup h.coherent.nodup (henv.nodup _) fun name hname => ?_
    cases hbefore : s₀.graph.holder? name with
    | some a =>
      rw [hholder, hbefore]
      rfl
    | none =>
      by_contra hnow
      exact hmisses ⟨c, hc, name, hname, hbefore, hnow⟩
  · have hmem := hregistered k c hc a ha
    unfold seen resultOf
    rw [headerOf_of_rows hcoherent h.coherent hrows hmem, h.same a hmem]

/-! ### New nodes -/

/-- A new node leaves the old ones as they are. -/
theorem Sealed.withNode (h : Sealed s₀ s todo) (header expression : String) (delay : Int)
    (hnew : id ∉ s.graph.nodes.keys) (hid : id ∉ s₀.graph.nodes.keys)
    (hregistered : ∀ k c, s.calculator? k = some c → ∀ a ∈ c.reads, a ∈ s.graph.nodes.keys) :
    Sealed s₀ (s.withNode id header expression delay) (todo ++ [id]) where
  coherent := h.coherent.withNode header expression delay hnew hregistered
  same k hk := by
    have hne : k ≠ id := fun heq => hid (heq ▸ hk)
    rw [calculator?_withNode, if_neg hne, h.same k hk]
  todo k hk := by
    rcases List.mem_append.1 hk with hk | hk
    · exact h.todo k hk
    · rwa [List.mem_singleton.1 hk]
  awaits := h.awaits

/-- A new node is the last one in the table. -/
theorem Coherent.rows_withNode (h : s.Coherent) (header expression : String) (delay : Int)
    (hnew : id ∉ s.graph.nodes.keys)
    (hregistered : ∀ k c, s.calculator? k = some c → ∀ a ∈ c.reads, a ∈ s.graph.nodes.keys) :
    (s.withNode id header expression delay).rows = s.rows ++ [⟨id, some header, expression⟩] := by
  rw [(h.withNode header expression delay hnew hregistered).rows_eq, h.rows_eq,
    h.calculatorKeys_withNode header expression delay hnew, List.map_append, List.map_singleton]
  congr 1
  · refine List.map_congr_left fun k hk => ?_
    have hne : k ≠ id := fun heq => hnew (h.keys ▸ heq ▸ hk)
    rw [headerOf_withNode hne, calculator?_withNode, if_neg hne]
  · rw [calculator?_withNode, if_pos rfl, Graph.headerOf, node?_withNode, if_pos rfl]
    rfl

end Sheet

namespace Workspace

open Sheet (recalculateEach Progress Sealed Misses Stale upToDate_of_not_stale)

variable {setup : Setup} {w : Workspace} {todo : List NodeId}

/-- Whether a row is that of a node which was created from a record. -/
def IsRowOf (row : Row) (record : Record) : Prop :=
  row.expression = record.expression ∧ ∃ header, row.header = some header ∧
    ∀ given, record.header = some given → header = given

/-- What is created from records are new rows at the end of the table. -/
theorem Sound.rows_createAll (h : Sound setup w todo) (records : List Record) :
    ∃ added, (w.createAll setup records).1.sheet.rows = w.sheet.rows ++ added ∧
      added.map (·.id) = (w.createAll setup records).2 ∧ List.Forall₂ IsRowOf added records := by
  induction records generalizing w todo with
  | nil => exact ⟨[], (List.append_nil _).symm, rfl, .nil⟩
  | cons record records ih =>
    have hcreate : Sound setup (w.create setup record).1 (todo ++ [w.nextId]) :=
      h.create record (fun k hk => List.mem_append_left _ hk) (by simp)
    have hrows : (w.create setup record).1.sheet.rows = _ :=
      h.accounted.coherent.rows_withNode (record.header.getD w.nextHeader) record.expression
        setup.delay h.nextId_new h.registered
    obtain ⟨added, hadded, hids, hall⟩ := ih hcreate
    refine ⟨⟨w.nextId, some (record.header.getD w.nextHeader), record.expression⟩ :: added, ?_,
      congrArg (w.nextId :: ·) hids, .cons ⟨rfl, _, rfl, fun given hgiven => ?_⟩ hall⟩
    · refine hadded.trans ?_
      rw [hrows, List.append_assoc]
      rfl
    · rw [hgiven]
      rfl

/-- New nodes leave the old ones as they are. -/
theorem Sound.sealed_createAll {s₀ : Sheet} (h : Sound setup w todo)
    (hold : ∀ k ∈ s₀.graph.nodes.keys, k ∈ w.sheet.graph.nodes.keys)
    (hsealed : Sealed s₀ w.sheet todo) (records : List Record) :
    Sealed s₀ (w.createAll setup records).1.sheet (todo ++ (w.createAll setup records).2) := by
  induction records generalizing w todo with
  | nil =>
    rw [Workspace.createAll, List.append_nil]
    exact hsealed
  | cons record records ih =>
    have hcreate : Sound setup (w.create setup record).1 (todo ++ [w.nextId]) :=
      h.create record (fun k hk => List.mem_append_left _ hk) (by simp)
    have hnode := hsealed.withNode (record.header.getD w.nextHeader) record.expression setup.delay
      h.nextId_new (fun hmem => h.nextId_new (hold _ hmem)) h.registered
    have hrest := ih hcreate (fun k hk => by
      rw [show (w.create setup record).1.sheet = w.sheet.withNode w.nextId _ _ _ from rfl,
        Sheet.keys_withNode _ _ _ h.nextId_new]
      exact List.mem_append_left _ (hold k hk)) hnode
    rw [List.append_assoc] at hrest
    exact hrest

/-- What records that are appended to a workspace at rest leave to be done concerns only the new
nodes. -/
theorem Sound.load_spec (henv : setup.environment.Lawful) (h : Sound setup w [])
    (hrest : w.sheet.AtRest) (stored : Value) :
    Sealed w.sheet (w.load setup stored false).1.sheet [] ∧
      Progress setup.environment [] (Stale setup.environment w.sheet)
        (· ∉ w.sheet.graph.nodes.keys) (w.load setup stored false).1.sheet [] ∧
      ∃ added, (w.load setup stored false).1.sheet.rows = w.sheet.rows ++ added ∧
        ∀ records, Record.ofStored stored = .ok records → List.Forall₂ IsRowOf added records := by
  have hcoherent := h.accounted.coherent
  -- At rest no node awaits a recalculation, so what is owed then concerns new nodes only.
  have hsealed : Sealed w.sheet w.sheet [] :=
    ⟨hcoherent, fun _ _ => rfl, by simp, fun k hawaits => absurd hawaits (hrest.not_awaits k)⟩
  have hprogress : Progress setup.environment [] (Stale setup.environment w.sheet)
      (· ∉ w.sheet.graph.nodes.keys) w.sheet [] :=
    h.accounted.progress henv hrest [] fun k hnew hstale => hnew hstale.1
  -- Values that are no records change nothing; otherwise nodes are created and recalculated.
  rcases Workspace.load_spec (w := w) henv stored false fun records _ =>
    (h.createAll records).accounted.coherent with ⟨e, herror, hload⟩ | ⟨records, hok, hload⟩
  · rw [hload]
    refine ⟨hsealed, hprogress, [], (List.append_nil _).symm, fun records hok => ?_⟩
    rw [herror] at hok
    cases hok
  · rw [hload]
    have hsealed' := h.sealed_createAll (fun _ hk => hk) hsealed records
    obtain ⟨added, hrows, -, hall⟩ := h.rows_createAll records
    have hcreated := (h.createAll records).accounted.coherent
    have hprogress' := h.progress_createAll henv hprogress
      (fun k hnew hold => absurd hold hnew) records
    refine ⟨?_, progress_recalculateEach henv hcreated hprogress', added, ?_, ?_⟩
    · refine (Sheet.lasts_sealed henv.toAnswers h.registered).recalculateEach ?_
      rw [List.append_nil]
      exact hsealed'
    · exact (hcreated.rows_recalculateEach henv _).2.trans hrows
    · intro records' hok'
      obtain rfl := Except.ok.inj (hok.symm.trans hok')
      exact hall

/-- After anything that may have happened, let a workspace be at rest. When records have been
appended, every run of the worker comes to rest again, with a row for each record after the old
rows, and the old nodes have the results that they had. By the larger table nothing is wrong then
but what depends on an old node which was not up to date before, or which mentions a header that
only a new node has.

It does not matter how expressions are evaluated, as long as the evaluator answers at once, with
something that depends on the text and on the numbers in the scope, and the precision may be any
whose power of ten is a number, so from 0 to 308. -/
theorem correct_iff_of_load (setup : Setup) {factor : Float}
    (hreferences : setup.environment.references = setup.registry.references)
    (hevaluates : setup.environment.EvaluatesNumbers)
    (hreads : setup.environment.ReadsNumbers)
    (hscale : scaleFactor setup.environment.precision = .ok factor)
    (hw : Reachable setup w) (hrest : w.sheet.AtRest) (stored : Value) :
    (w.load setup stored false).1.sheet.Settles setup.environment fun s =>
      (∃ added, s.rows = w.sheet.rows ++ added ∧
        ∀ records, Record.ofStored stored = .ok records → List.Forall₂ IsRowOf added records) ∧
      (∀ row ∈ w.sheet.rows, s.resultOf row.id = w.sheet.resultOf row.id) ∧
        s.CorrectBut setup.environment fun m =>
          Stale setup.environment w.sheet m ∨ Misses setup.environment w.sheet s m := by
  have henv := hevaluates.lawful hreads hreferences hscale
  have hsound := hw.sound henv.toAnswers
  have hcoherent := hsound.accounted.coherent
  obtain ⟨hsealed, hprogress, added, hadded, hrecords⟩ := hsound.load_spec henv hrest stored
  have hloaded := (hsound.perform henv.toAnswers (.load stored false)).accounted
  have hlasts := (Sheet.lasts_sealed henv.toAnswers hsound.registered).and
    (Sheet.lasts_progress henv.toAnswers [] (Stale setup.environment w.sheet)
      (· ∉ w.sheet.graph.nodes.keys))
  refine hloaded.settles henv.toAnswers hlasts ⟨hsealed, hloaded.coherent, hprogress⟩ ?_
  rintro s hrest' hrows haccounted ⟨hsealed', hcoherent', hprogress'⟩
  have hrows' := hrows.trans hadded
  refine ⟨⟨added, hrows', hrecords⟩, fun row hrow => ?_, hcoherent'.correctBut henv
    (fun k hk hfree => ?_) fun m hm => hsealed'.mem_keys hcoherent ?_⟩
  · obtain ⟨k, c, hc, rfl⟩ := hcoherent.mem_rows.1 hrow
    unfold Sheet.resultOf
    exact congrArg (fun c => (c.map (·.result)).getD default)
      (hsealed'.same k (hcoherent.registered hc))
  -- Old nodes have kept their results, and new ones have been recalculated.
  · by_cases hold : k ∈ w.sheet.graph.nodes.keys
    · exact hsealed'.upToDate henv.toAnswers hcoherent hsound.registered hrows' hold
        (upToDate_of_not_stale (fun hstale => hfree k (.inl hstale) .refl) hold)
        fun hmisses => hfree k (.inr hmisses) .refl
    · refine (hprogress'.upToDate haccounted hrest' hold hk).resolve_right ?_
      rintro ⟨m, hstale | ⟨before, hmem, -⟩, hreach⟩
      · exact hfree m (.inl hstale) hreach
      · cases hmem
  · rcases hm with hm | ⟨c, hc, -⟩
    · exact hm.1
    · exact hcoherent.registered hc

/-! ### A header that comes later -/

/-- A node mentions a header that no node has. -/
def unresolved : List Operation :=
  [.add ⟨some "M", "X"⟩, .settle 10]

/-- A record with that header. -/
def provided : Value :=
  .list [.map [("header", .text "X"), ("expression", .text "5")]]

set_option maxRecDepth 100000 in
/-- A record that provides what another one mentions comes behind an older node, which does not
mention it. -/
theorem correct_iff_after_provided :
    let setup := Setup.onStack
    let w := empty.performAll setup unresolved
    Reachable setup w ∧ w.sheet.AtRest ∧
      (w.load setup provided false).1.sheet.Settles setup.environment fun s =>
        (∃ added, s.rows = w.sheet.rows ++ added ∧
          ∀ records, Record.ofStored provided = .ok records → List.Forall₂ IsRowOf added records) ∧
        (∀ row ∈ w.sheet.rows, s.resultOf row.id = w.sheet.resultOf row.id) ∧
          s.CorrectBut setup.environment fun m =>
            Stale setup.environment w.sheet m ∨ Misses setup.environment w.sheet s m := by
  intro setup w
  have hw : Reachable setup w := .performAll setup unresolved
  have hrest : w.sheet.AtRest := by decide +kernel
  exact ⟨hw, hrest, correct_iff_of_load setup rfl Setup.evaluatesNumbers_onStack
    Setup.readsNumbers_onStack rfl hw hrest provided⟩

set_option maxRecDepth 100000 in
/-- Every result is right before. But the node that mentions the header keeps the result that it had
when there was no such node. -/
theorem not_correct_after_provided :
    let setup := Setup.onStack
    let w := empty.performAll setup unresolved
    let s := ((w.load setup provided false).1.settle setup 10).sheet
    w.sheet.AtRest ∧ w.sheet.Correct setup.environment ∧ s.AtRest ∧
      s.rows = [⟨"node-1", some "M", "X"⟩, ⟨"node-2", some "X", "5"⟩] ∧
        s.resultOf "node-2" = .number 5 ∧ s.resultOf "node-1" = .number 0 ∧
          ¬ s.Correct setup.environment := by
  intro setup w s
  have hrest : w.sheet.AtRest := by decide +kernel
  have hdirect : ∀ operation ∈ unresolved, operation.IsDirect := by
    simp [unresolved, Operation.IsDirect]
  have hw : History setup Operation.IsDirect [] w := .performAll setup hdirect
  have hcorrect := hw.correct_of_no_removals Setup.lawful_onStack hrest
  have hrows : s.rows = [⟨"node-1", some "M", "X"⟩, ⟨"node-2", some "X", "5"⟩] := by
    decide +kernel
  have hresult : s.resultOf "node-1" = .number 0 := by decide +kernel
  refine ⟨hrest, hcorrect, by decide +kernel, hrows, by decide +kernel, hresult, ?_⟩
  -- The same nodes come to what their table says if they are added one after the other.
  set operations : List Operation := [.add ⟨some "M", "X"⟩, .add ⟨some "X", "5"⟩, .settle 10]
    with hoperations
  have hdirect' : ∀ operation ∈ operations, operation.IsDirect := by
    simp [hoperations, Operation.IsDirect]
  have h : History setup Operation.IsDirect [] (empty.performAll setup operations) :=
    .performAll setup hdirect'
  refine h.not_correct_of_rows_eq Setup.lawful_onStack (by decide +kernel) (hrows.trans ?_)
    ⟨"node-1", some "M", "X"⟩ ?_ ?_
  · decide +kernel
  · decide +kernel
  · rw [hresult]
    decide +kernel

end Workspace

end LiveSheet
