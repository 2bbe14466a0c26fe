import LiveSheet.Proofs.Consistency
import LiveSheet.Proofs.Sensible

/-!
# Removals while there is work to do

When nodes come and go and are given other expressions, and nothing has settled in between, a
workspace comes to rest with sensible results: each is what the results of its references say, or
the kind of a cycle. What may be wrong is whether there is a cycle, and with it what depends on
that; and this only where something depends on a node with the fingerprint that it had before some
removal, although it reads other nodes now.

This does occur. A node in a cycle comes into another cycle when its reference passes to another
node with the same header. It has published the kind of a cycle with the same fingerprint before, so
it publishes nothing, and what depends on it does not get to know of the new cycle.
-/

namespace LiveSheet

open Relation

/-- The operations by which nodes come, go and are given other expressions, and the passing of
time. -/
def Operation.IsPrompt : Operation → Prop
  | .add .. | .setExpression .. | .remove .. | .clear | .settle .. | .wait .. => True
  | _ => False

/-- A prompt operation does not leave a recalculation pending. -/
theorem Operation.IsPrompt.isDirect {operation : Operation} (h : operation.IsPrompt) :
    operation.IsDirect := by
  cases operation with
  | rename | load => exact h.elim
  | _ => trivial

namespace Workspace

open Sheet (recalculateEach Accounted Progress Collided Tenable)

variable {setup : Setup} {w w' : Workspace} {past : List Sheet} {doubtful watched : NodeId → Prop}
  {todo : List NodeId}

/-- Results are sensible when what there is to do is done. -/
theorem tenable_recalculateEach (henv : setup.environment.Lawful) (hwatched : ∀ k, watched k)
    {s : Sheet} (hcoherent : s.Coherent)
    (hprogress : Progress setup.environment past doubtful watched s todo)
    (h : Tenable setup.environment s todo) :
    Tenable setup.environment (recalculateEach setup.environment s todo) [] :=
  ((Sheet.lasts_tenable henv past doubtful hwatched).recalculateEach
    (by rw [List.append_nil]; exact ⟨⟨hcoherent, hprogress⟩, h⟩)).2

/-- Results are sensible with what a prompt operation prepares. -/
theorem Prepares.tenable (h : Sound setup w []) (htenable : Tenable setup.environment w.sheet [])
    {operation : Operation} (hprepares : Prepares setup w operation w' todo)
    (hprompt : operation.IsPrompt) : Tenable setup.environment w'.sheet todo := by
  have hcoherent := h.accounted.coherent
  cases hprepares with
  | add record hmention =>
    exact htenable.withNode hcoherent h.nextId_new h.registered (by simp)
      fun k c hk hname => List.mem_cons_of_mem _ (hmention k c hk hname)
  | setExpression hc expression =>
    exact htenable.setExpression hcoherent (hcoherent.rescheduled_cancel (by simp)) (by simp)
  | remove hc hdependents hmention => exact htenable.without hcoherent hmention
  | clear => exact Sheet.tenable_cleared ..
  | _ => exact hprompt.elim

/-- Every prompt operation keeps the results sensible. -/
theorem Sound.tenable_perform (henv : setup.environment.Lawful) (h : Sound setup w [])
    (hprogress : Progress setup.environment past doubtful watched w.sheet [])
    (hwatched : ∀ k, watched k) (htenable : Tenable setup.environment w.sheet [])
    {operation : Operation} (hprompt : operation.IsPrompt) :
    Tenable setup.environment (w.perform setup operation).sheet [] := by
  rcases h.perform_cases henv.toAnswers operation with
    ⟨w', todo, hprepares, hperform⟩ | ⟨s', hperform, hkept⟩
  · rw [hperform]
    exact tenable_recalculateEach henv hwatched (hprepares.accounted h).1.coherent
      (hprepares.progress henv.toAnswers h hprogress hprompt.isDirect)
      (hprepares.tenable h htenable hprompt)
  · rw [hperform]
    exact (hkept _ (Sheet.lasts_tenable henv past doubtful hwatched).toKeeps
      ⟨⟨h.accounted.coherent, hprogress⟩, htenable⟩).2

/-- Results are sensible after any history of prompt operations. -/
theorem History.tenable (henv : setup.environment.Lawful)
    (h : History setup Operation.IsPrompt past w) : Tenable setup.environment w.sheet [] := by
  induction h with
  | empty => exact Sheet.tenable_cleared _ Sheet.empty
  | perform h hprompt ih =>
    have hdirect := h.mono fun _ hprompt => hprompt.isDirect
    exact (h.reachable.sound henv.toAnswers).tenable_perform henv (hdirect.progress henv.toAnswers)
      (fun _ => trivial) ih hprompt
  | varies h hs ih =>
    have hcoherent := (h.reachable.sound henv.toAnswers).accounted.coherent
    have hdirect := h.mono fun _ hprompt => hprompt.isDirect
    exact ((Sheet.lasts_tenable henv _ _ fun _ => trivial).varies
      ⟨⟨hcoherent, hdirect.progress henv.toAnswers⟩, ih⟩ hs).2

/-- After nodes have come and gone and have been given other expressions, settled in between or not,
let a node be removed. Every run of the worker comes to rest with the nodes that are left and the
reads and edges that their headers and expressions say. Every result is what the results of its
references say, or else the kind of a cycle; nothing is wrong but what depends on a node with the
fingerprint that it had before some removal, although it reads other nodes now; and all of them are
right if and only if the kind of a cycle stands where one can be reached and nowhere else.

It does not matter how expressions are evaluated, as long as the evaluator answers at once, with
something that depends on the text and on the numbers in the scope, and the precision may be any
whose power of ten is a number, so from 0 to 308. -/
theorem sensible_of_remove (setup : Setup) {factor : Float}
    (hreferences : setup.environment.references = setup.registry.references)
    (hevaluates : setup.environment.EvaluatesNumbers)
    (hreads : setup.environment.ReadsNumbers)
    (hscale : scaleFactor setup.environment.precision = .ok factor)
    (hw : History setup Operation.IsPrompt past w) (id : NodeId) :
    (w.remove setup id).1.sheet.Settles setup.environment fun s =>
      s.rows = w.sheet.rows.filter (·.id ≠ id) ∧ s.Linked setup.environment ∧
        (∀ row ∈ s.rows, Rows.Sensible setup.environment s.rows s.resultOf row) ∧
        s.CorrectBut setup.environment (Collided (past ++ [w.sheet]) s) ∧
        (s.Correct setup.environment ↔ ∀ row ∈ s.rows,
          (s.resultOf row.id = .failed .circularDependency ↔
            Rows.LeadsToCycle setup.environment s.rows row.id)) := by
  have henv := hevaluates.lawful hreads hreferences hscale
  have hbefore := (hw.reachable.sound henv.toAnswers).accounted.coherent
  have hremoval : (Operation.remove id).IsPrompt := trivial
  have hremoved := hw.perform hremoval
  have hdirect := hremoved.mono fun _ hprompt => hprompt.isDirect
  have haccounted := (hremoved.reachable.sound henv.toAnswers).accounted
  refine haccounted.settles henv.toAnswers (Sheet.lasts_tenable henv _ _ fun _ => trivial)
    ⟨⟨haccounted.coherent, hdirect.progress henv.toAnswers⟩, hremoved.tenable henv⟩ ?_
  rintro s hrest hrows haccounted' ⟨⟨hcoherent, hdone⟩, hright⟩
  have hsensible := hright.sensible_of_atRest hcoherent hrest
  exact ⟨hrows.trans (rows_remove henv.toAnswers hbefore id),
    hdone.linked_of_atRest henv.toAnswers hcoherent hrest fun _ => trivial, hsensible,
    correctBut_of_atRest henv haccounted' hdone hrest,
    Rows.comes_iff_of_sensible hcoherent.nodup_ids hsensible⟩

/-! ### A cycle that passes to another node -/

/-- Two nodes refer to each other, a second node comes with the header of one of them, and that one
leaves the cycle. Another node reads the other one of them and a node that refers to itself. -/
def secondHolder : List Operation :=
  [.add ⟨some "E", "E"⟩, .add ⟨some "A", "N"⟩, .add ⟨some "N", "A"⟩, .setExpression "node-3" "A",
    .add ⟨some "A", "N"⟩, .setExpression "node-2" "0", .add ⟨some "K", "E + N"⟩]

/-- Removing the first of two holders of a header, with a reader that is settled before and
after. -/
theorem sensible_after_secondHolder :
    let setup := Setup.onStack
    let w := empty.performAll setup secondHolder
    let past := empty.beforeRemovals setup secondHolder
    History setup Operation.IsPrompt past w ∧
      (w.remove setup "node-2").1.sheet.Settles setup.environment fun s =>
        s.rows = w.sheet.rows.filter (·.id ≠ "node-2") ∧ s.Linked setup.environment ∧
          (∀ row ∈ s.rows, Rows.Sensible setup.environment s.rows s.resultOf row) ∧
          s.CorrectBut setup.environment (Collided (past ++ [w.sheet]) s) ∧
          (s.Correct setup.environment ↔ ∀ row ∈ s.rows,
            (s.resultOf row.id = .failed .circularDependency ↔
              Rows.LeadsToCycle setup.environment s.rows row.id)) := by
  intro setup w past
  have hprompt : ∀ operation ∈ secondHolder, operation.IsPrompt := by
    simp [secondHolder, Operation.IsPrompt]
  have hw : History setup Operation.IsPrompt past w := .performAll setup hprompt
  exact ⟨hw, sensible_of_remove setup rfl Setup.evaluatesNumbers_onStack
    Setup.readsNumbers_onStack rfl hw "node-2"⟩

set_option maxRecDepth 100000 in
/-- When the node that has left the cycle is removed, the other one reads the second node, and the
two of them are a cycle. But the fingerprint of the other one is that of the first cycle, so it
publishes nothing, and the node that reads it does not get to know of the second. -/
theorem not_correct_after_secondHolder :
    let setup := Setup.onStack
    let w := empty.performAll setup secondHolder
    let s := ((w.remove setup "node-2").1.settle setup 20).sheet
    s.AtRest ∧
      s.rows = [⟨"node-1", some "E", "E"⟩, ⟨"node-3", some "N", "A"⟩, ⟨"node-4", some "A", "N"⟩,
        ⟨"node-5", some "K", "E + N"⟩] ∧
      s.resultOf "node-5" = .failed .selfReference ∧ ¬ s.Correct setup.environment := by
  intro setup w s
  have hrows : s.rows = [⟨"node-1", some "E", "E"⟩, ⟨"node-3", some "N", "A"⟩,
      ⟨"node-4", some "A", "N"⟩, ⟨"node-5", some "K", "E + N"⟩] := by decide +kernel
  have hresult : s.resultOf "node-5" = .failed .selfReference := by decide +kernel
  refine ⟨by decide +kernel, hrows, hresult, fun hcorrect => ?_⟩
  have hcomes : Rows.Comes setup.environment s.rows "node-5" (.failed .selfReference) :=
    hresult ▸ hcorrect ⟨"node-5", some "K", "E + N"⟩ (by rw [hrows]; decide)
  rw [hrows] at hcomes
  set rows : List Row := [⟨"node-1", some "E", "E"⟩, ⟨"node-3", some "N", "A"⟩,
    ⟨"node-4", some "A", "N"⟩, ⟨"node-5", some "K", "E + N"⟩] with hrowsDef
  -- By the rows it is a cycle: the two read each other, and the last one reads the first of them.
  have hthrough : Rows.Depends setup.environment rows "node-5" "node-3" :=
    ⟨⟨"node-5", some "K", "E + N"⟩, by decide, rfl, by decide +kernel⟩
  have hforth : Rows.Depends setup.environment rows "node-3" "node-4" :=
    ⟨⟨"node-3", some "N", "A"⟩, by decide, rfl, by decide +kernel⟩
  have hback : Rows.Depends setup.environment rows "node-4" "node-3" :=
    ⟨⟨"node-4", some "A", "N"⟩, by decide, rfl, by decide +kernel⟩
  have hleads : Rows.LeadsToCycle setup.environment rows "node-5" :=
    ⟨"node-3", .single hthrough, .head hforth (.single hback)⟩
  have hcircular : Rows.Comes setup.environment rows "node-5" (.failed .circularDependency) :=
    .circular ⟨"node-5", some "K", "E + N"⟩ (by decide) (by decide +kernel) hleads
  have hsame := hcomes.unique (by decide) hcircular
  cases hsame

end Workspace

end LiveSheet
