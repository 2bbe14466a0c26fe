import LiveSheet.Proofs.Consistency

/-!
# Renamings

When a node of a settled workspace has been renamed and everything has settled again, the results
are what the new headers and the same expressions say, unless something depends on a node that was
not up to date before, or on one whose fingerprint has stayed the same although it reads other nodes
now, or the same ones by other names. It does not take more than two references for that: in `A - B`
the node `A` may become `B`.
-/

namespace LiveSheet

open Relation

/-- The table in which a row has another header. -/
def Rows.withHeader (rows : List Row) (id : NodeId) (header : Option String) : List Row :=
  rows.map fun row => if row.id = id then { row with header } else row

/-- A rename keeps the nodes of the rows. -/
theorem Rows.ids_withHeader (rows : List Row) (id : NodeId) (header : Option String) :
    (Rows.withHeader rows id header).map (·.id) = rows.map (·.id) := by
  unfold Rows.withHeader
  rw [List.map_map]
  refine List.map_congr_left fun row _ => ?_
  simp only [Function.comp_apply]
  split <;> rfl

namespace Sheet

/-- The table of a sheet in which a node has another header. -/
theorem Coherent.rows_withHeader {s : Sheet} (h : s.Coherent) (id : NodeId)
    (header : Option String) :
    (s.withHeader id header).rows = Rows.withHeader s.rows id header := by
  rw [(h.withHeader id header).rows_eq, h.rows_eq, Rows.withHeader, List.map_map]
  refine List.map_congr_left fun k hk => ?_
  obtain ⟨c, hc⟩ := h.calculator_of_mem (h.keys ▸ hk)
  obtain ⟨record, hrecord, -⟩ := h.shown k c hc
  have hcalculator : (s.withHeader id header).calculator? k = s.calculator? k := rfl
  rw [hcalculator, Graph.headerOf, node?_withHeader, hrecord]
  by_cases heq : k = id
  · simp [heq]
  · simp [heq, Graph.headerOf, hrecord]

end Sheet

namespace Workspace

open Sheet (recalculateEach Progress Collides Stale)

variable {setup : Setup} {w : Workspace}

/-- What is owed after a renaming in a workspace at rest. -/
theorem Sound.progress_rename (henv : setup.environment.Answers) (h : Sound setup w [])
    (hrest : w.sheet.AtRest) (id : NodeId) (header : Option String) :
    Progress setup.environment [w.sheet] (Stale setup.environment w.sheet)
        (¬ Stale setup.environment w.sheet ·) (w.rename setup id header).1.sheet [] ∧
      (w.rename setup id header).1.sheet.rows = Rows.withHeader w.sheet.rows id header := by
  have hcoherent := h.accounted.coherent
  cases hc : w.sheet.calculator? id with
  | none =>
    rw [rename, calculatorOf_none hc]
    refine ⟨h.accounted.progress henv hrest _ fun _ hk => hk, ?_⟩
    -- There is no row to be changed.
    refine (List.map_congr_left fun row hrow => ?_).trans (List.map_id _) |>.symm
    refine if_neg fun heq => ?_
    obtain ⟨k, c, hk, rfl⟩ := hcoherent.mem_rows.1 hrow
    rw [show k = id from heq, hc] at hk
    cases hk
  | some c =>
    obtain ⟨todo, hrename, hmention⟩ := rename_spec henv hcoherent hc header
    have hcoherent' := hcoherent.withHeader id header
    rw [hrename]
    refine ⟨progress_recalculateEach henv hcoherent'
      (h.accounted.progress_withHeader henv hrest hmention), ?_⟩
    exact (hcoherent'.rows_recalculateEach henv todo).2.trans (hcoherent.rows_withHeader id header)

/-- After anything that may have happened, let a workspace be at rest. When a node has been renamed,
every run of the worker comes to rest again. By the new headers and the same expressions nothing is
wrong then but what depends on a node which was not up to date before, or which has the same
fingerprint as before, although it reads other nodes now, or the same ones by other names.

It does not matter how expressions are evaluated, as long as the evaluator answers at once, with
something that depends on the text and on the numbers in the scope, and the precision may be any
whose power of ten is a number, so from 0 to 308. -/
theorem correct_iff_of_rename (setup : Setup) {factor : Float}
    (hreferences : setup.environment.references = setup.registry.references)
    (hevaluates : setup.environment.EvaluatesNumbers)
    (hreads : setup.environment.ReadsNumbers)
    (hscale : scaleFactor setup.environment.precision = .ok factor)
    (hw : Reachable setup w) (hrest : w.sheet.AtRest) (id : NodeId) (header : Option String) :
    (w.rename setup id header).1.sheet.Settles setup.environment fun s =>
      s.rows = Rows.withHeader w.sheet.rows id header ∧
        s.CorrectBut setup.environment fun m =>
          Stale setup.environment w.sheet m ∨ Collides w.sheet s m := by
  have henv := hevaluates.lawful hreads hreferences hscale
  have hsound := hw.sound henv.toAnswers
  obtain ⟨hprogress, hrows⟩ := hsound.progress_rename henv.toAnswers hrest id header
  have hrenamed := (hsound.perform henv.toAnswers (.rename id header)).accounted
  refine hrenamed.settles henv.toAnswers (Sheet.lasts_progress henv.toAnswers _ _ _)
    ⟨hrenamed.coherent, hprogress⟩ ?_
  rintro s hrest' hrows' haccounted ⟨hcoherent, hprogress'⟩
  have htable := hrows'.trans hrows
  -- The nodes that can be wrong are those that were stale before, and those whose fingerprint did
  -- not tell the two headers apart.
  have hbut := hprogress'.correctBut henv haccounted hrest' (fun _ hk => hk) fun m hm => by
    rw [hcoherent.keys_eq_ids, htable, Rows.ids_withHeader,
      ← hsound.accounted.coherent.keys_eq_ids]
    exact hm.1
  exact ⟨htable, hbut.congr fun m => or_congr_right Sheet.collided_singleton⟩

/-! ### One reference for another -/

/-- A node reads another one, and its expression mentions a header that no node has. -/
def halfResolved : List Operation :=
  [.add ⟨some "A", "1"⟩, .add ⟨some "M", "A - B"⟩, .settle 10]

set_option maxRecDepth 100000 in
/-- A rename after which a node reads the results of another with the fingerprint of before. -/
theorem correct_iff_after_halfResolved :
    let setup := Setup.onStack
    let w := empty.performAll setup halfResolved
    Reachable setup w ∧ w.sheet.AtRest ∧
      (w.rename setup "node-1" (some "B")).1.sheet.Settles setup.environment fun s =>
        s.rows = Rows.withHeader w.sheet.rows "node-1" (some "B") ∧
          s.CorrectBut setup.environment fun m =>
            Stale setup.environment w.sheet m ∨ Collides w.sheet s m := by
  intro setup w
  have hw : Reachable setup w := .performAll setup halfResolved
  have hrest : w.sheet.AtRest := by decide +kernel
  exact ⟨hw, hrest, correct_iff_of_rename setup rfl Setup.evaluatesNumbers_onStack
    Setup.readsNumbers_onStack rfl hw hrest "node-1" (some "B")⟩

set_option maxRecDepth 100000 in
/-- Every result is right before the renaming. But the result of a node stays as it is when nothing
is subtracted from a node, and then the node from nothing. -/
theorem not_correct_after_rename :
    let setup := Setup.onStack
    let w := empty.performAll setup halfResolved
    let s := ((w.rename setup "node-1" (some "B")).1.settle setup 10).sheet
    w.sheet.AtRest ∧ w.sheet.Correct setup.environment ∧ s.AtRest ∧
      s.rows = [⟨"node-1", some "B", "1"⟩, ⟨"node-2", some "M", "A - B"⟩] ∧
        s.resultOf "node-1" = .number 1 ∧ s.resultOf "node-2" = .number 1 ∧
          ¬ s.Correct setup.environment := by
  intro setup w s
  have hrest : w.sheet.AtRest := by decide +kernel
  have hdirect : ∀ operation ∈ halfResolved, operation.IsDirect := by
    simp [halfResolved, Operation.IsDirect]
  have hw : History setup Operation.IsDirect [] w := .performAll setup hdirect
  have hcorrect := hw.correct_of_no_removals Setup.lawful_onStack hrest
  have hrows : s.rows = [⟨"node-1", some "B", "1"⟩, ⟨"node-2", some "M", "A - B"⟩] := by
    decide +kernel
  have hresult : s.resultOf "node-2" = .number 1 := by decide +kernel
  refine ⟨hrest, hcorrect, by decide +kernel, hrows, by decide +kernel, hresult, ?_⟩
  -- With the headers that there are now, the node comes to another result.
  set operations : List Operation :=
    [.add ⟨some "B", "1"⟩, .add ⟨some "M", "A - B"⟩, .settle 10] with hoperations
  have hdirect' : ∀ operation ∈ operations, operation.IsDirect := by
    simp [hoperations, Operation.IsDirect]
  have h : History setup Operation.IsDirect [] (empty.performAll setup operations) :=
    .performAll setup hdirect'
  refine h.not_correct_of_rows_eq Setup.lawful_onStack (by decide +kernel) (hrows.trans ?_)
    ⟨"node-2", some "M", "A - B"⟩ ?_ ?_
  · decide +kernel
  · decide +kernel
  · rw [hresult]
    decide +kernel

end Workspace

end LiveSheet
