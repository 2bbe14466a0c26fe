import LiveSheet.Proofs.Changes
import LiveSheet.Proofs.Environments
import LiveSheet.Proofs.Rest

/-!
# At rest in any order

The sheets of a workspace come to rest also if, at any time, the edges get another order, time
passes before it has to or timers fire before they are due (`Sheet.Varies`). None of this leaves
more to do (`Varies.remaining_le`), and every step of the worker leaves less, so no run goes on for
ever (`Workspace.Reachable.rests_in_any_order`). It does not matter what evaluations come to, nor
how long the delays of edits are.
-/

namespace LiveSheet

open Relation

namespace Sheet

variable {env : Environment} {s s' : Sheet}

/-! ### Nothing more is left to do -/

/-- What takes effort depends on the nodes, the edges and the results. -/
theorem Resembles.effort_eq {todo : List NodeId} (h : s.Resembles s' todo) :
    effort env s' = effort env s := by
  have hkeys : s'.graph.nodes.keys = s.graph.nodes.keys := by rw [h.nodes]
  have hcycles := h.leadsToCycle
  have hplace : ∀ k, InPlace env s' k ↔ InPlace env s k := by
    intro k
    simp only [InPlace, h.calculator?, h.reading?]
  have hquiet : ∀ k, Quiet env s' k ↔ Quiet env s k := by
    intro k
    simp only [Quiet, h.calculator?, h.reading?, h.resultOf, h.seen, hcycles]
  have hrestless : ∀ k, Restless env s' k ↔ Restless env s k := fun k =>
    and_congr (hplace k) (and_congr (not_congr (hcycles k)) (not_congr (hquiet k)))
  unfold effort
  rw [nodesWith_congr hkeys fun k _ => not_congr (hplace k),
    nodesWith_congr hkeys fun k _ => hrestless k,
    Finset.sum_congr rfl fun k _ => weight_congr hkeys h.reads k,
    nodesWith_congr hkeys fun k _ => by rw [hcycles, h.resultOf],
    nodesWith_congr hkeys fun k _ => by rw [hcycles, hquiet]]

/-- A variation leaves no more to do. -/
theorem Varies.remaining_le (h : s.Varies s') : remaining env s' ≤ remaining env s := by
  cases h with
  | reordered h =>
    unfold remaining
    rw [h.resembles.effort_eq, h.timers, h.queue.length_eq]
  | later moment =>
    set pending := s.agenda.timers.filter (moment < ·.due) with hpending
    rcases (List.length_filter_le (moment < ·.due) s.agenda.timers).lt_or_eq with hlt | heq
    · exact (Prod.Lex.toLex_lt_toLex.2 (.inl hlt)).le
    -- No timer is due, so nothing comes into the queue.
    have hlater := List.length_filter_eq_length_iff.1 heq
    have hfired : s.agenda.timers.filter (·.due ≤ moment) = [] := by
      refine List.filter_eq_nil_iff.2 fun t ht hdue => ?_
      have := hlater t ht
      simp only [decide_eq_true_eq] at this hdue
      omega
    have hqueue : (s.agenda.advance moment).queue = s.agenda.queue := by
      simp [Agenda.advance, hfired]
    have htimers : (s.agenda.advance moment).timers = s.agenda.timers :=
      List.filter_eq_self.2 hlater
    unfold remaining
    simp only [hqueue, htimers]
    exact le_rfl
  | @fires t ht =>
    refine (Prod.Lex.toLex_lt_toLex.2 (.inl ?_)).le
    exact List.length_filter_lt_length_iff_exists.2 ⟨t, ht, by simp⟩

/-! ### Runs -/

/-- A turn keeps the sheet coherent and leaves less to do. -/
theorem Coherent.turn (hnames : ∀ e, (env.references e).Nodup) (h : s.Coherent)
    (hturn : Turn env s s') : s'.Coherent ∧ remaining env s' < remaining env s := by
  have hpath : ∀ {s s' : Sheet}, ReflTransGen Varies s s' → s.Coherent →
      s'.Coherent ∧ remaining env s' ≤ remaining env s := by
    intro s s' hpath hs
    induction hpath with
    | refl => exact ⟨hs, le_rfl⟩
    | tail _ hstep ih => exact ⟨hstep.coherent ih.1, hstep.remaining_le.trans ih.2⟩
  obtain ⟨before, after, hbefore, hstep, hafter⟩ := hturn
  obtain ⟨hcoherent, hle⟩ := hpath hbefore h
  obtain ⟨done, hdone, hshuffled⟩ := hstep.exists_step? hcoherent hnames
  have hlt := hcoherent.remaining_lt hnames hdone
  obtain ⟨hcoherent', hle'⟩ :=
    hpath (hshuffled.trans hafter) ((keeps_coherent hnames).step hcoherent hdone)
  exact ⟨hcoherent', hle'.trans_lt (hlt.trans_le hle)⟩

/-- No run goes on for ever. -/
theorem Coherent.exists_atRest_of_isRun (hnames : ∀ e, (env.references e).Nodup) (h : s.Coherent)
    {run : ℕ → Sheet} (hrun : IsRun env s run) : ∃ bound, ∀ n, bound ≤ n → (run n).AtRest := by
  have hcoherent : ∀ n, (run n).Coherent := fun n =>
    ((lasts_coherent hnames).isRun hnames h h hrun n).1
  have hsome : ∀ n : ℕ, ∃ m, (run m).AtRest := by
    intro n
    induction hremaining : remaining env (run n) using WellFoundedLT.induction generalizing n with
    | ind r ih =>
      subst hremaining
      by_cases hrest : (run n).AtRest
      · exact ⟨n, hrest⟩
      · exact ih _ ((hcoherent n).turn hnames (hrun.turn n hrest)).2 (n + 1) rfl
  obtain ⟨bound, hbound⟩ := hsome 0
  refine ⟨bound, fun n hn => ?_⟩
  induction n, hn using Nat.le_induction with
  | base => exact hbound
  | succ n _ ih => rwa [hrun.rest n ih]

end Sheet

namespace Workspace

variable {setup : Setup} {w : Workspace}

/-- Whatever the order of the edges and the passing of time, the worker comes to rest after finitely
many steps and stays at rest. Evaluations are functions of text and scope; they may come to any
values, or raise errors. A timer fires when it is due or at any other time, so a delay may be of any
length, and may as well never be over by itself. -/
theorem Reachable.rests_in_any_order (setup : Setup)
    (hreferences : setup.environment.references = setup.registry.references)
    (hw : Reachable setup w) :
    (w.sheet.IsRun setup.environment fun steps => (w.settle setup steps).sheet) ∧
      ∀ run, w.sheet.IsRun setup.environment run → ∃ bound, ∀ n, bound ≤ n → (run n).AtRest := by
  have hnames : ∀ e, (setup.environment.references e).Nodup := by
    rw [hreferences]
    exact fun e => nodup_referencesOf (setup.registry.tokens e)
  exact ⟨Sheet.isRun_settle setup.environment w.sheet,
    fun run => (hw.coherent hnames).exists_atRest_of_isRun hnames⟩

/-- Two nodes follow a third one, which has just been given another expression. -/
def followed : List Operation :=
  [.add ⟨some "A", "1"⟩, .add ⟨some "B", "A"⟩, .add ⟨some "C", "A + B"⟩, .add ⟨some "D", "A"⟩,
    .settle 10, .setExpression "node-1" "2"]

set_option maxRecDepth 100000 in
/-- The worker comes to rest also if the nodes follow in the opposite order. -/
theorem rests_in_opposite_order :
    let setup := Setup.onStack
    let w := empty.performAll setup followed
    w.sheet.agenda.queue = [.follow ["node-2", "node-3", "node-4"]] ∧
      let s := { w.sheet with
        agenda := { w.sheet.agenda with queue := [.follow ["node-4", "node-3", "node-2"]] } }
      setup.environment.references = setup.registry.references ∧
        Reachable setup { w with sheet := s } ∧
          (s.IsRun setup.environment fun steps => (Sheet.worker setup.environment).settle steps s) ∧
            ∀ run, s.IsRun setup.environment run → ∃ bound, ∀ n, bound ≤ n → (run n).AtRest := by
  intro setup w
  have hqueue : w.sheet.agenda.queue = [.follow ["node-2", "node-3", "node-4"]] := by decide +kernel
  have hw : Reachable setup w := .performAll setup followed
  refine ⟨hqueue, ?_⟩
  clear_value w
  intro s
  have hopposite : List.Forall₂ SheetTask.Reordered w.sheet.agenda.queue s.agenda.queue := by
    rw [hqueue]
    exact .cons (.follow (by decide)) .nil
  have hreordered : w.sheet.Reordered s := { Sheet.Reordered.refl w.sheet with queue := hopposite }
  have hreachable : Reachable setup { w with sheet := s } := hw.varies (.reordered hreordered)
  exact ⟨rfl, hreachable, hreachable.rests_in_any_order setup rfl⟩

end Workspace

end LiveSheet
