import LiveSheet.Proofs.Rest

/-!
# What the evaluator is called for

The journal of a sheet says what has been evaluated, but not for which node. `Sheet.Call` adds the
node: the calls of a recalculation are what it enters into the journal, and those of a run of the
worker are the calls of its recalculations, in order.

A recalculation calls the evaluator once or not at all (`Coherent.calls_spec`), with the results
that its node reads then. It does not do so for a quiet node (`Coherent.calls_of_quiet`).
-/

namespace LiveSheet.Sheet

open Relation

variable {env : Environment} {s s' : Sheet} {id k : NodeId} {c c' : Calculator} {loud : Bool}

/-- A node whose expression is evaluated, and with which scope. -/
structure Call where
  node : NodeId
  expression : String
  scope : Scope

/-- What the journal says of a call. -/
def Call.entry (call : Call) : String × Scope :=
  (call.expression, call.scope)

/-- The calls of the recalculation of a node. -/
def calls (env : Environment) (s : Sheet) (id : NodeId) : List Call :=
  ((recalculate env s id).1.journal.evaluations.drop s.journal.evaluations.length).map
    fun (expression, scope) => ⟨id, expression, scope⟩

/-- The calls when some nodes are recalculated one after the other. -/
def callsOfEach (env : Environment) (s : Sheet) : List NodeId → List Call
  | [] => []
  | id :: ids => calls env s id ++ callsOfEach env (recalculate env s id).1 ids

/-- The calls of the worker's next step. -/
def callsOfStep (env : Environment) (s : Sheet) : List Call :=
  match s.agenda.queue with
  | task :: rest => callsOfEach env { s with agenda := { s.agenda with queue := rest } } task.ids
  | [] => []

/-- The calls of a run of the worker. -/
def callsOfRun (env : Environment) (limit : Option Int) : (steps : Nat) → Sheet → List Call
  | 0, _ => []
  | steps + 1, s =>
    match (worker env).step? limit s with
    | some s' => callsOfStep env s ++ callsOfRun env limit steps s'
    | none => []

/-! ### One recalculation -/

/-- Reading an expression again evaluates nothing. -/
theorem journal_updateDependencies (env : Environment) (s : Sheet) (id : NodeId) :
    (updateDependencies env s id).1.journal = s.journal := by
  unfold updateDependencies
  split
  · rfl
  · split
    · rfl
    · dsimp only
      split <;> rfl

/-- An error that is concluded without its value evaluates nothing. -/
theorem evaluations_concludeUnresolved (s : Sheet) (id : NodeId) (c : Calculator) (print : String)
    (kind : ErrorKind) : (s.concludeUnresolved id c print kind).journal.evaluations =
      s.journal.evaluations := by
  unfold concludeUnresolved
  split <;> rfl

/-- Unless one of the results that are gathered is an error kind, the evaluator is called. -/
theorem evaluations_reevaluate (env : Environment) (s : Sheet) (id : NodeId) (c : Calculator)
    (print : String) : (reevaluate env s id c print).1.journal.evaluations =
      s.journal.evaluations ++
        match gather s.graph .empty c.reads with
        | .error _ => []
        | .ok scope => [(c.expression, scope)] := by
  unfold reevaluate
  cases gather s.graph .empty c.reads with
  | error kind => exact (List.append_nil _).symm
  | ok scope =>
    dsimp only
    split <;> rfl

/-- A node for which the evaluator is called does not refer to itself, leads to no cycle, and has
kept no result that would do. -/
theorem Coherent.evaluations_recalculate (h : s.Coherent)
    (hnames : (env.references c.expression).Nodup) (hc : s.calculator? id = some c) :
    (Sheet.recalculate env s id).1.journal.evaluations = s.journal.evaluations ∨
    ∃ reads, reading? env s id c = some reads ∧
      ¬ (s.relink id c.reads reads).graph.LeadsToCycle id ∧
      (∀ kept, c.cached ≠ some (printOf c.expression (reads.map s.resultOf), kept)) ∧
      (Sheet.recalculate env s id).1.journal.evaluations =
        s.journal.evaluations ++ [(c.expression, scopeOf (reads.map s.seen))] := by
  have hjournal := journal_updateDependencies env s id
  have hnode : (s.graph.node? id).isNone = false := by
    obtain ⟨record, hrecord, -⟩ := h.shown id c hc
    rw [hrecord]
    rfl
  -- A node that refers to itself or leads to a cycle is concluded without an evaluation.
  have hunresolved : ∀ s₁ kind, updateDependencies env s id = (s₁, some kind) →
      (Sheet.recalculate env s id).1.journal.evaluations = s.journal.evaluations := by
    intro s₁ kind hupdate
    rw [hupdate] at hjournal
    rw [Sheet.recalculate, hc]
    simp only [hnode, Bool.false_eq_true, if_false, hupdate]
    rw [evaluations_concludeUnresolved, hjournal]
  cases hreading : reading? env s id c with
  | none => exact .inl (hunresolved _ _ (updateDependencies_of_none hc hreading))
  | some reads =>
    have hreads := (h.mem_reading hnames hreading).2.2
    have hupdate := updateDependencies_of_some hc hreading
    by_cases hreaches : (s.relink id c.reads reads).graph.reachesCycle id = true
    · rw [if_pos hreaches] at hupdate
      exact .inl (hunresolved _ _ hupdate)
    rw [if_neg hreaches] at hupdate
    obtain ⟨hkeep, hagain⟩ := h.recalculate_cached hc hreads hupdate
    -- Nor is one evaluated whose fingerprint is the one that was kept.
    by_cases hkept : ∃ result, c.cached =
        some (printOf c.expression (reads.map s.resultOf), result)
    · obtain ⟨result, hcached⟩ := hkept
      rw [hkeep result hcached]
      exact .inl rfl
    have hnew := not_exists.1 hkept
    rw [hagain hnew, evaluations_reevaluate, h.gather_relink hc hreads]
    cases firstFailure? (reads.map s.seen) with
    | some kind => exact .inl (List.append_nil _)
    | none =>
      refine .inr ⟨reads, rfl, fun hleads => hreaches ?_, hnew, rfl⟩
      exact (Graph.reachesCycle_eq_true_iff ..).2 hleads

/-- Whether the node of a call leads to no cycle, and what it was called with is what the node has
and reads now. -/
def Call.Current (s : Sheet) (call : Call) : Prop :=
  ¬ s.graph.LeadsToCycle call.node ∧ ∃ c, s.calculator? call.node = some c ∧
    call.expression = c.expression ∧ call.scope = scopeOf (c.reads.map s.seen)

/-- A recalculation calls the evaluator at most once, and what it is called with is current then. -/
theorem Coherent.calls_spec (henv : env.Answers) (h : s.Coherent) (id : NodeId) :
    (Sheet.recalculate env s id).1.journal.evaluations =
        s.journal.evaluations ++ (calls env s id).map Call.entry ∧
      (calls env s id = [] ∨ ∃ call, calls env s id = [call] ∧ call.node = id ∧
        call.Current (Sheet.recalculate env s id).1) := by
  -- The calls are what the journal has got more.
  have hnone : (Sheet.recalculate env s id).1.journal.evaluations = s.journal.evaluations →
      calls env s id = [] := by
    intro hsame
    unfold calls
    rw [hsame, List.drop_length, List.map_nil]
  cases hc : s.calculator? id with
  | none =>
    have hsame : (Sheet.recalculate env s id).1.journal.evaluations = s.journal.evaluations := by
      rw [recalculate_of_none hc]
    exact ⟨by rw [hnone hsame, List.map_nil, List.append_nil]; exact hsame, .inl (hnone hsame)⟩
  | some c =>
    have hnames := henv.nodup c.expression
    rcases h.evaluations_recalculate hnames hc with hsame | ⟨reads, hreading, hcycle, -, hmore⟩
    · exact ⟨by rw [hnone hsame, List.map_nil, List.append_nil]; exact hsame, .inl (hnone hsame)⟩
    have hcalls : calls env s id = [⟨id, c.expression, scopeOf (reads.map s.seen)⟩] := by
      unfold calls
      rw [hmore, List.drop_left, List.map_singleton]
    refine ⟨by rw [hcalls, hmore]; rfl, .inr ⟨_, hcalls, rfl, ?_⟩⟩
    obtain ⟨c', loud, heffect, hverdict⟩ := h.recalculate_spec hnames hc
    obtain ⟨hexpression, -, hreads⟩ := hverdict.spec
    rw [hreading, Option.getD_some] at hreads
    refine ⟨fun hleads => hcycle ?_, c', heffect.calculator_self, hexpression.symm, ?_⟩
    · rw [← hreads]
      exact (Graph.leadsToCycle_congr (heffect.reads_relink h hc) id).1 hleads
    · rw [hreads, heffect.map_seen h hnames hreading]

/-- The evaluator is not called for a quiet node, if its edges are in place. -/
theorem Coherent.calls_of_quiet (henv : env.Answers) (h : s.Coherent) (hplace : InPlace env s id)
    (hquiet : Quiet env s id) : calls env s id = [] := by
  cases hc : s.calculator? id with
  | none =>
    unfold calls
    rw [recalculate_of_none hc, List.drop_length, List.map_nil]
  | some c =>
    have hnames := henv.nodup c.expression
    rcases h.evaluations_recalculate hnames hc with hsame | ⟨reads, hreading, hcycle, hnew, -⟩
    · unfold calls
      rw [hsame, List.drop_length, List.map_nil]
    -- What would do is kept by a quiet node that leads to no cycle.
    · obtain ⟨c', loud, heffect, hverdict⟩ := h.recalculate_spec hnames hc
      have hreads := hverdict.spec.2.2
      rw [hreading, Option.getD_some] at hreads
      have hedges := heffect.reads_of_inPlace henv.nodup h hc hverdict hplace
      have hfree : ¬ s.graph.LeadsToCycle id := by
        rw [← Graph.leadsToCycle_congr hedges, Graph.leadsToCycle_congr (heffect.reads_relink h hc),
          hreads]
        exact hcycle
      rcases ((hquiet c hc).2 reads hreading).2 hfree with ⟨result, hkept⟩ | ⟨e, herror⟩
      · exact absurd hkept (hnew result)
      · exact absurd herror (henv.conclusion_ne_error _ _)

/-! ### The journal of a run -/

/-- The journal of several recalculations grows by the calls of each, in order. -/
theorem Coherent.evaluations_recalculateEach (henv : env.Answers) (h : s.Coherent)
    (ids : List NodeId) : (s.recalculateEach env ids).journal.evaluations =
      s.journal.evaluations ++ (callsOfEach env s ids).map Call.entry := by
  induction ids generalizing s with
  | nil => exact (List.append_nil _).symm
  | cons id ids ih =>
    have hfirst := (h.calls_spec henv id).1
    calc (s.recalculateEach env (id :: ids)).journal.evaluations
        = (Sheet.recalculate env s id).1.journal.evaluations ++
            (callsOfEach env (Sheet.recalculate env s id).1 ids).map Call.entry :=
          ih (h.recalculate henv.nodup id)
      _ = s.journal.evaluations ++ (callsOfEach env s (id :: ids)).map Call.entry := by
          rw [hfirst, callsOfEach, List.map_append, List.append_assoc]

/-- The journal grows in one step by the calls of the step. -/
theorem Coherent.evaluations_step (henv : env.Answers) (h : s.Coherent) {limit : Option Int}
    (hstep : (worker env).step? limit s = some s') : s'.journal.evaluations =
      s.journal.evaluations ++ (callsOfStep env s).map Call.entry := by
  unfold callsOfStep
  unfold Worker.step? at hstep
  simp only [worker] at hstep
  split at hstep
  · next task rest hqueue =>
    obtain rfl := Option.some.inj hstep
    rw [perform_eq, hqueue]
    have hpopped : ({ s with agenda := { s.agenda with queue := rest } } : Sheet).Coherent :=
      h.withAgenda h.timers
    exact hpopped.evaluations_recalculateEach henv task.ids
  · next hqueue =>
    rw [hqueue, List.map_nil, List.append_nil]
    split at hstep
    · split at hstep
      · obtain rfl := Option.some.inj hstep
        rfl
      · cases hstep
    · cases hstep

/-- A run enters its calls into the journal, and nothing else. -/
theorem Coherent.evaluations_run (henv : env.Answers) (h : s.Coherent) (limit : Option Int)
    (steps : Nat) : ((worker env).run limit steps s).journal.evaluations =
      s.journal.evaluations ++ (callsOfRun env limit steps s).map Call.entry := by
  induction steps generalizing s with
  | zero => exact (List.append_nil _).symm
  | succ steps ih =>
    rw [Worker.run, callsOfRun]
    cases hstep : (worker env).step? limit s with
    | none => exact (List.append_nil _).symm
    | some s' =>
      dsimp only
      rw [ih ((keeps_coherent henv.nodup).step h hstep), h.evaluations_step henv hstep,
        List.map_append, List.append_assoc]

end LiveSheet.Sheet
