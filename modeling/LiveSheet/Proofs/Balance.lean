import LiveSheet.Proofs.AnyOrder

/-!
# The books of a sheet

What the nodes of a sheet are, what they have come to and what they read is written down more than
once: by the calculators, by the records, and by both tables of edges. The books are balanced
(`Sheet.Balanced`) if all of them say the same.

A coherent sheet is balanced except for nodes that have read one which is not there any more. A
recalculation makes no such node, and its own node is none afterwards
(`Sheet.Coherent.readsMissing_of_recalculate`); and the nodes that read a removed one are all
recalculated before the removal is over. So the books of a workspace are balanced after every
operation, and as well after every single callback that has been waiting
(`Workspace.Reachable.balanced`).
-/

namespace LiveSheet

namespace Sheet

variable {env : Environment} {s : Sheet} {id k : NodeId}

/-- Whether all places say the same about the nodes and their edges. -/
structure Balanced (s : Sheet) : Prop where
  /-- There are calculators and records of the same nodes. -/
  ids : s.calculators.keys = s.graph.nodes.keys
  /-- The record of a node shows the result of its calculator. -/
  results : ∀ id record, s.graph.node? id = some record →
    ∃ c, s.calculator? id = some c ∧ record.result = c.result.toValue
  /-- A calculator lists what its node depends on, each node once. -/
  reads : ∀ id c, s.calculator? id = some c →
    c.reads.Nodup ∧ ∀ a, a ∈ s.graph.dependenciesOf id ↔ a ∈ c.reads
  /-- Every edge joins two registered nodes. -/
  edges : ∀ a b, b ∈ s.graph.dependenciesOf a →
    a ≠ b ∧ a ∈ s.graph.nodes.keys ∧ b ∈ s.graph.nodes.keys
  /-- Both tables hold the same edges. -/
  mirrored : ∀ a b, a ∈ s.graph.dependentsOf b ↔ b ∈ s.graph.dependenciesOf a

/-- A coherent sheet in which no node reads a missing one is balanced. -/
theorem Coherent.toBalanced (h : s.Coherent) (hreads : ∀ k, ¬ s.ReadsMissing k) : s.Balanced where
  ids := h.keys
  results id record hrecord := by
    have hid : id ∈ s.graph.nodes.keys := (Graph.isSome_node?_iff ..).1 (by rw [hrecord]; rfl)
    obtain ⟨c, hc⟩ := h.calculator_of_mem hid
    obtain ⟨record', hrecord', hresult, -⟩ := h.shown id c hc
    obtain rfl : record' = record := Option.some.inj (hrecord'.symm.trans hrecord)
    exact ⟨c, hc, hresult⟩
  reads id c hc := by
    refine ⟨h.distinct id c hc, fun a => (h.edges id a).trans ⟨?_, fun ha => ?_⟩⟩
    · rintro ⟨c', hc', ha, -⟩
      obtain rfl : c' = c := Option.some.inj (hc'.symm.trans hc)
      exact ha
    · -- What is read has an edge only if it is there.
      refine ⟨c, hc, ha, Classical.not_not.1 fun hmissing => ?_⟩
      exact hreads id ⟨c, hc, a, ha, hmissing⟩
  edges a b hb := by
    obtain ⟨c, hc, hread, hregistered⟩ := (h.edges a b).1 hb
    refine ⟨?_, h.registered hc, hregistered⟩
    rintro rfl
    exact h.irreflexive a c hc hread
  mirrored := h.mirrored

/-! ### Reads of what is not there -/

/-- A recalculated node reads nothing that is not there, and other nodes read what they read. -/
theorem Coherent.readsMissing_of_recalculate (h : s.Coherent)
    (hnames : ∀ e, (env.references e).Nodup)
    (hk : (Sheet.recalculate env s id).1.ReadsMissing k) :
    s.ReadsMissing k ∧ (k = id → s.calculator? id = none) := by
  cases hc : s.calculator? id with
  | none =>
    rw [recalculate_of_none hc] at hk
    exact ⟨hk, fun _ => rfl⟩
  | some c =>
    obtain ⟨c', loud, heffect, hverdict⟩ := h.recalculate_spec (hnames c.expression) hc
    obtain ⟨ck, hck, a, ha, hmissing⟩ := hk
    rw [heffect.nodeKeys] at hmissing
    by_cases hne : k = id
    · subst hne
      obtain rfl := heffect.eq_of_calculator hck
      rw [hverdict.spec.2.2] at ha
      exact absurd ((h.mem_getD_reading (hnames c.expression)).2 a ha) hmissing
    · -- Its calculator is the old one, and the same nodes are registered.
      rw [heffect.calculator_other hne] at hck
      exact ⟨⟨ck, hck, a, ha, hmissing⟩, fun heq => absurd heq hne⟩

/-- The worker leaves no node that reads what is not there, if there was none. -/
theorem keeps_registered (hnames : ∀ e, (env.references e).Nodup) :
    Keeps env fun s _ => s.Coherent ∧ ∀ k, ¬ s.ReadsMissing k where
  recalculate h := ⟨h.1.recalculate hnames _, fun k hk =>
    h.2 k (h.1.readsMissing_of_recalculate hnames hk).1⟩
  pop h _ := ⟨h.1.withAgenda h.1.timers, h.2⟩
  advance h _ := ⟨h.1.withAgenda fun t ht => h.1.timers t (List.mem_filter.1 ht).1, h.2⟩
  pause _ h := ⟨h.1.withAgenda h.1.timers, h.2⟩

end Sheet

namespace Workspace

variable {setup : Setup} {w : Workspace}

/-- In a sound workspace no node reads a missing one. -/
theorem Sound.not_readsMissing {todo : List NodeId} (h : Sound setup w todo) (k : NodeId) :
    ¬ w.sheet.ReadsMissing k := by
  rintro ⟨c, hc, a, ha, hmissing⟩
  exact hmissing (h.registered k c hc a ha)

/-- Whatever has been done to a workspace, its books are balanced: after every operation, and with
any tasks left in the queue after any callbacks that were waiting, of whatever nodes. It does not
matter how expressions are evaluated, as long as something comes of them, and the precision may be
any whose power of ten is a number, so from 0 to 308. -/
theorem Reachable.balanced (setup : Setup) {factor : Float}
    (hreferences : setup.environment.references = setup.registry.references)
    (hevaluates : setup.environment.EvaluatesNumbers)
    (hscale : scaleFactor setup.environment.precision = .ok factor) (hw : Reachable setup w) :
    w.sheet.Balanced ∧ ∀ (queue : List SheetTask) (callbacks : List NodeId),
      (Sheet.recalculateEach setup.environment
        { w.sheet with agenda := { w.sheet.agenda with queue } } callbacks).Balanced := by
  have henv : setup.environment.Answers := hevaluates.answers hreferences hscale
  have hsound := hw.sound henv
  have hcoherent := hsound.accounted.coherent
  have hreads := hsound.not_readsMissing
  refine ⟨hcoherent.toBalanced hreads, fun queue callbacks => ?_⟩
  set s : Sheet := { w.sheet with agenda := { w.sheet.agenda with queue } }
  have hs : s.Coherent ∧ ∀ k, ¬ s.ReadsMissing k :=
    ⟨hcoherent.withAgenda hcoherent.timers, hreads⟩
  obtain ⟨hcoherent', hreads'⟩ :=
    @Sheet.Keeps.recalculateEach _ s _ (Sheet.keeps_registered henv.nodup) callbacks [] hs
  exact hcoherent'.toBalanced hreads'

/-- Two nodes read each other and a third one, which changes before one of the two is removed. -/
def followersRemoved : List Operation :=
  [.add ⟨some "A", "1"⟩, .add ⟨some "B", "A + C"⟩, .add ⟨some "C", "B + A"⟩,
    .setExpression "node-1" "2", .remove "node-2"]

set_option maxRecDepth 100000 in
/-- The removed node is still called by what is left in the queue. -/
theorem balanced_followersRemoved :
    let setup := Setup.ofSettings .standard {}
    let w := empty.performAll setup followersRemoved
    setup.environment.EvaluatesNumbers ∧ w.sheet.graph.nodes.keys = ["node-1", "node-3"] ∧
      w.sheet.agenda.queue = [.follow ["node-3"], .follow ["node-3", "node-2"]] ∧
        w.sheet.Balanced ∧ (Sheet.recalculateEach setup.environment
          { w.sheet with agenda := { w.sheet.agenda with queue := [] } }
            ["node-3", "node-3", "node-2"]).Balanced := by
  intro setup w
  have hkeys : w.sheet.graph.nodes.keys = ["node-1", "node-3"] := by decide +kernel
  have hqueue : w.sheet.agenda.queue = [.follow ["node-3"], .follow ["node-3", "node-2"]] := by
    decide +kernel
  have hw : Reachable setup w := .performAll setup followersRemoved
  clear_value w
  have hevaluates : setup.environment.EvaluatesNumbers :=
    Environment.evaluatesNumbers_ofRegistry _ _ _
  obtain ⟨hbalanced, hcalled⟩ := hw.balanced setup rfl hevaluates rfl
  exact ⟨hevaluates, hkeys, hqueue, hbalanced, hcalled [] ["node-3", "node-3", "node-2"]⟩

end Workspace

end LiveSheet
