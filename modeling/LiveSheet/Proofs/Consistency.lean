import LiveSheet.Proofs.Histories

/-!
# Consistency of workspaces

After any operations except for renamings and appended records, a workspace comes to rest, and its
reads and edges are what the headers and expressions say. Each node has come to what they say too,
unless it depends on a node that has the fingerprint which it had before the removal of a node,
although it reads other nodes now.

Such a collision does occur. An edit that is taken back may find that another node of the expression
has come; when the one that was read before goes, there are as many results in the fingerprint as
there were, and they may be the same.
-/

namespace LiveSheet

open Relation

/-- The operations but for renamings and appended records. -/
def Operation.IsDirect : Operation → Prop
  | .rename .. => False
  | .load _ replaces => replaces = true
  | _ => True

namespace Workspace

open Sheet (recalculateEach Accounted Progress Collided)

variable {setup : Setup} {w w' : Workspace} {past : List Sheet} {doubtful watched : NodeId → Prop}
  {todo : List NodeId}

/-- What there is to do is done. -/
theorem progress_recalculateEach (henv : setup.environment.Answers) {s : Sheet}
    (hcoherent : s.Coherent) (h : Progress setup.environment past doubtful watched s todo) :
    Progress setup.environment past doubtful watched
      (recalculateEach setup.environment s todo) [] :=
  ((Sheet.lasts_progress henv past doubtful watched).recalculateEach
    (by rw [List.append_nil]; exact ⟨hcoherent, h⟩)).2

/-- Progress with what an operation prepares, except for renamings and appended records. -/
theorem Prepares.progress (henv : setup.environment.Answers) (h : Sound setup w [])
    (hprogress : Progress setup.environment past doubtful watched w.sheet [])
    {operation : Operation} (hprepares : Prepares setup w operation w' todo)
    (hdirect : operation.IsDirect) :
    Progress setup.environment (w.beforeRemovals setup [operation] ++ past) doubtful watched
      w'.sheet todo := by
  have hcoherent := h.accounted.coherent
  cases hprepares with
  | add record hmention =>
    exact hprogress.withNode henv hcoherent h.nextId_new h.registered (by simp) (by simp)
      fun k c _ hk hname => List.mem_cons_of_mem _ (hmention k c hk hname)
  | setExpression =>
    exact hprogress.setExpression (hcoherent.rescheduled_cancel (by simp))
  | @edit id c hc expression =>
    rw [show (w.onSheet (·.withEdit id expression)).sheet = w.sheet.withEdit id expression from rfl,
      Sheet.withEdit_eq hc]
    exact hprogress.setExpression (hcoherent.rescheduled_debounce id c.delay)
  | rename => exact hdirect.elim
  | remove hc hdependents hmention =>
    exact hprogress.without henv h.accounted (hcoherent.registered hc)
      (fun k hk _ => hdependents k hk) hmention
  | clear => exact .cleared hcoherent
  | load =>
    obtain rfl := hdirect
    -- The workspace is empty when the records are created.
    refine h.clear.progress_createAll henv (.cleared hcoherent) (fun k _ hk => ?_) _
    rw [show w.clear.sheet = w.sheet.cleared from rfl, hcoherent.cleared_spec.1] at hk
    cases hk

/-- Progress after an operation, except for renamings and appended records. -/
theorem Sound.progress_perform (henv : setup.environment.Answers) (h : Sound setup w [])
    (hprogress : Progress setup.environment past doubtful watched w.sheet [])
    {operation : Operation} (hdirect : operation.IsDirect) :
    Progress setup.environment (w.beforeRemovals setup [operation] ++ past) doubtful watched
      (w.perform setup operation).sheet [] := by
  rcases h.perform_cases henv operation with ⟨w', todo, hprepares, hperform⟩ | ⟨s', hperform, hkept⟩
  · rw [hperform]
    exact progress_recalculateEach henv (hprepares.accounted h).1.coherent
      (hprepares.progress henv h hprogress hdirect)
  · rw [hperform]
    exact (hkept _ (Sheet.lasts_progress henv _ _ _).toKeeps
      ⟨h.accounted.coherent, hprogress⟩).2.mono (List.subset_append_right ..)

/-- At first nothing is doubtful, and every node can be watched. -/
theorem progress_empty (setup : Setup) :
    Progress setup.environment [] (fun _ => False) (fun _ => True) empty.sheet [] :=
  .cleared (s := Sheet.empty) Sheet.coherent_empty

/-- Progress after any history without renamings and appended records. -/
theorem History.progress (henv : setup.environment.Answers)
    (h : History setup Operation.IsDirect past w) :
    Progress setup.environment past (fun _ => False) (fun _ => True) w.sheet [] := by
  induction h with
  | empty => exact progress_empty setup
  | perform h hdirect ih =>
    exact ((h.reachable.sound henv).progress_perform henv ih hdirect).mono fun s hs =>
      List.mem_append.2 (List.mem_append.1 hs).symm
  | varies h hs ih =>
    have hcoherent := (h.reachable.sound henv).accounted.coherent
    exact ((Sheet.lasts_progress henv _ _ _).varies ⟨hcoherent, ih⟩ hs).2

/-- Where nothing is doubtful, nothing is wrong at rest but what depends on a collision. -/
theorem correctBut_of_atRest (henv : setup.environment.Lawful) {s : Sheet}
    (haccounted : Accounted setup.environment s [])
    (h : Progress setup.environment past (fun _ => False) (fun _ => True) s []) (hrest : s.AtRest) :
    s.CorrectBut setup.environment (Collided past s) :=
  (h.correctBut henv haccounted hrest (fun _ _ => trivial) fun _ hfalse => hfalse.elim).congr
    fun _ => iff_of_eq (false_or _)

/-- Without removals, whatever comes to rest is correct. -/
theorem History.correct_of_no_removals (henv : setup.environment.Lawful)
    (h : History setup Operation.IsDirect [] w) (hrest : w.sheet.AtRest) :
    w.sheet.Correct setup.environment := by
  have hsound := h.reachable.sound henv.toAnswers
  refine
    (correctBut_of_atRest henv hsound.accounted (h.progress henv.toAnswers) hrest).correct_iff.2
    ?_
  rintro m ⟨before, hmem, -⟩
  cases hmem

/-- A sheet is not correct, if one with the same table has come to rest without removals and shows
another result. -/
theorem History.not_correct_of_rows_eq (henv : setup.environment.Lawful)
    (h : History setup Operation.IsDirect [] w) (hrest : w.sheet.AtRest) {s : Sheet}
    (hrows : s.rows = w.sheet.rows) (row : Row) (hrow : row ∈ w.sheet.rows)
    (hresult : s.resultOf row.id ≠ w.sheet.resultOf row.id) : ¬ s.Correct setup.environment :=
  fun hcorrect => hresult ((h.correct_of_no_removals henv hrest).resultOf_eq hcorrect
    (h.reachable.sound henv.toAnswers).accounted.coherent hrows hrow)

/-- After any operations except for renamings and appended records, with anything in between that
may happen at any time, every run of the worker comes to rest with the reads and edges that the
headers and expressions say. Nothing is wrong then but what depends on a node with the fingerprint
that it had before some removal, although it reads other nodes now, or the same ones by other names.

It does not matter how expressions are evaluated, as long as the evaluator answers at once, with
something that depends on the text and on the numbers in the scope, and the precision may be any
whose power of ten is a number, so from 0 to 308. -/
theorem correct_iff_of_direct (setup : Setup) {factor : Float}
    (hreferences : setup.environment.references = setup.registry.references)
    (hevaluates : setup.environment.EvaluatesNumbers)
    (hreads : setup.environment.ReadsNumbers)
    (hscale : scaleFactor setup.environment.precision = .ok factor)
    (hw : History setup Operation.IsDirect past w) :
    w.sheet.Settles setup.environment fun s =>
      s.rows = w.sheet.rows ∧ s.Linked setup.environment ∧
        s.CorrectBut setup.environment (Collided past s) := by
  have henv := hevaluates.lawful hreads hreferences hscale
  have hsound := hw.reachable.sound henv.toAnswers
  have hprogress := hw.progress henv.toAnswers
  refine hsound.accounted.settles henv.toAnswers (Sheet.lasts_progress henv.toAnswers _ _ _)
    ⟨hsound.accounted.coherent, hprogress⟩ ?_
  rintro s hrest hrows haccounted ⟨hcoherent, hdone⟩
  exact ⟨hrows, hdone.linked_of_atRest henv.toAnswers hcoherent hrest fun _ => trivial,
    correctBut_of_atRest henv haccounted hdone hrest⟩

/-! ### An edit that is taken back -/

/-- A node reads another one; while its expression is being edited, a node comes that its old
expression mentions too; the edit is taken back, and the node that it has read is removed. -/
def editTakenBack : List Operation :=
  [.add ⟨some "A", "1"⟩, .add ⟨some "M", "A - B"⟩, .edit "node-2" "0", .add ⟨some "B", "1"⟩,
    .edit "node-2" "A - B", .remove "node-1"]

/-- An edit that is taken back leaves the fingerprint from before. -/
theorem correct_iff_after_editTakenBack :
    let setup := Setup.onStack
    let w := empty.performAll setup editTakenBack
    let past := empty.beforeRemovals setup editTakenBack
    History setup Operation.IsDirect past w ∧ w.sheet.Settles setup.environment fun s =>
      s.rows = w.sheet.rows ∧ s.Linked setup.environment ∧
        s.CorrectBut setup.environment (Collided past s) := by
  intro setup w past
  have hdirect : ∀ operation ∈ editTakenBack, operation.IsDirect := by
    simp [editTakenBack, Operation.IsDirect]
  have hw : History setup Operation.IsDirect past w := .performAll setup hdirect
  exact ⟨hw, correct_iff_of_direct setup rfl Setup.evaluatesNumbers_onStack
    Setup.readsNumbers_onStack rfl hw⟩

deriving instance DecidableEq for Result

/-- A sheet is at rest if two lists are empty. -/
instance (s : Sheet) : Decidable s.AtRest :=
  inferInstanceAs (Decidable (s.agenda.queue = [] ∧ s.agenda.timers = []))

set_option maxRecDepth 100000 in
/-- The node that has read `A` takes over the result that belongs to `A`, although it reads `B`. -/
theorem not_correct_after_editTakenBack :
    let setup := Setup.onStack
    let s := ((empty.performAll setup editTakenBack).settle setup 10).sheet
    s.AtRest ∧ s.rows = [⟨"node-2", some "M", "A - B"⟩, ⟨"node-3", some "B", "1"⟩] ∧
      s.resultOf "node-3" = .number 1 ∧ s.resultOf "node-2" = .number 1 ∧
        ¬ s.Correct setup.environment := by
  intro setup s
  have hrows : s.rows = [⟨"node-2", some "M", "A - B"⟩, ⟨"node-3", some "B", "1"⟩] := by
    decide +kernel
  have hresult : s.resultOf "node-2" = .number 1 := by decide +kernel
  refine ⟨by decide +kernel, hrows, by decide +kernel, hresult, ?_⟩
  -- By the same table without removals the node comes to another result.
  set operations : List Operation := [.add ⟨some "A", "1"⟩, .clear, .add ⟨some "M", "A - B"⟩,
    .add ⟨some "B", "1"⟩, .settle 10] with hoperations
  have hdirect : ∀ operation ∈ operations, operation.IsDirect := by
    simp [hoperations, Operation.IsDirect]
  have h : History setup Operation.IsDirect [] (empty.performAll setup operations) :=
    .performAll setup hdirect
  refine h.not_correct_of_rows_eq Setup.lawful_onStack (by decide +kernel) (hrows.trans ?_)
    ⟨"node-2", some "M", "A - B"⟩ ?_ ?_
  · decide +kernel
  · decide +kernel
  · rw [hresult]
    decide +kernel

end Workspace

end LiveSheet
