import LiveSheet.Proofs.Calls
import LiveSheet.Proofs.AnyOrder
import LiveSheet.Proofs.Consistency

/-!
# One pass for one edit

When a node of a sheet at rest gets another expression, everything that depends on it follows in one
task, in topological order (`Graph.pairwise_topologicalOrder`). So the nodes that lead to no cycle
are recalculated after all that they read, and come to what they come to in the end (`Sheet.Pass`).
Each of them that publishes a change schedules its own dependents once more, but these find what
they have kept (`Pass.recalculate_again`), so the evaluator is called at most once for each node
(`Workspace.setExpression_evaluates_once`). The nodes that lead to a cycle come and go in any order.
They are not evaluated, and nothing that is evaluated reads them.
-/

namespace LiveSheet

open Relation Search

namespace Graph

variable {γ : Type} {g : Graph γ} {id : NodeId}

/-- In topological order, no node that leads to no cycle reads a later one. -/
theorem pairwise_topologicalOrder (g : Graph γ) :
    g.topologicalOrder.Pairwise fun a b => ¬ g.LeadsToCycle a → ¬ g.Reads a b := by
  rw [List.pairwise_iff_forall_sublist]
  intro a b hsublist hfree hreads
  obtain ⟨front, back, horder, ha, hb⟩ := List.cons_sublist_iff.1 hsublist
  obtain ⟨before, after, rfl⟩ := List.append_of_mem ha
  rw [List.append_assoc, List.cons_append] at horder
  rcases finishOrder_ordered _ _ horder hreads with hearlier | hback
  · have hnodup := nodup_finishOrder g.dependencies g.nodes.keys
    rw [show finishOrder g.dependencies g.nodes.keys = _ from horder] at hnodup
    refine (List.disjoint_of_nodup_append hnodup) hearlier ?_
    exact List.mem_cons_of_mem a (List.mem_append_right _ (List.singleton_sublist.1 hb))
  · exact hfree ⟨a, .refl, .head' hreads hback⟩

/-- The callbacks of a wave are in the topological order, if every node is called by its own id. -/
theorem callbacks_sublist {g : Graph NodeId} (h : g.Mirrored)
    (hedges : ∀ a b, g.Reads a b → a ∈ g.nodes.keys)
    (hcallback : ∀ a record, g.node? a = some record → record.callback = some a) :
    (g.wave id).callbacks.Sublist g.topologicalOrder := by
  have hguard : (fun follower => (g.node? follower).bind (·.callback)) =
      Option.guard fun follower => (g.node? follower).isSome := by
    funext follower
    cases hnode : g.node? follower with
    | none => simp [Option.guard, hnode]
    | some record => simp [Option.guard, hnode, hcallback follower record hnode]
  -- Whatever follows a change reads something, so it is registered and in the order.
  have horder : g.propagationOrder id = g.topologicalOrder.filter (· ∈ g.closure id) := by
    unfold propagationOrder
    refine (congrArg _ (List.filter_eq_nil_iff.2 fun a ha => ?_)).trans (List.append_nil _)
    obtain ⟨b, hreads, -⟩ := TransGen.head'_iff.1 ((mem_closure h).1 ha).2
    have hmem : a ∈ g.topologicalOrder :=
      (mem_finishOrder g.dependencies g.nodes.keys a).2 ⟨a, hedges a b hreads, .refl⟩
    simpa using hmem
  unfold wave
  simp only [hguard, List.filterMap_eq_filter, horder]
  exact List.filter_sublist.trans List.filter_sublist

end Graph

namespace Sheet

variable {env : Environment} {s s' : Sheet} {id k : NodeId} {c c' : Calculator} {loud : Bool}
  {todo : List NodeId}

/-! ### One recalculation -/

/-- What is left of a change of a node while it passes through the nodes `todo`, if all edges are in
place: any other node that depends on the changed one and leads to no cycle is quiet, and reads none
of them. Nothing is on the agenda but nodes that depend on it. -/
structure Pass (env : Environment) (s : Sheet) (id : NodeId) (todo : List NodeId) : Prop where
  coherent : s.Coherent
  inPlace : ∀ k, InPlace env s k
  awaits : ∀ k, s.Awaits k → ReflTransGen s.graph.Reads k id
  quiet : ∀ k, ReflTransGen s.graph.Reads k id → ¬ s.graph.LeadsToCycle k → k ∉ todo →
    Quiet env s k
  above : ∀ k a, ¬ s.graph.LeadsToCycle k → s.graph.Reads k a → a ∈ todo → k ∈ todo

/-- What one sheet has kept of another one, apart from the nodes `todo`. -/
structure Kept (s s' : Sheet) (todo : List NodeId) : Prop where
  edges : s'.graph.Reads = s.graph.Reads
  current : ∀ call : Call, call.node ∉ todo → call.Current s → call.Current s'

/-- A call is still current after the recalculation of a node, if what its own node reads shows the
same afterwards. -/
theorem Call.Current.of_effect {call : Call} (hcurrent : call.Current s) (henv : env.Answers)
    (h : s.Coherent) (hplace : ∀ j, InPlace env s j) (hc : s.calculator? k = some c)
    (heffect : Effect s k c' loud s') (hverdict : Verdict env s s' k c c' loud)
    (hseen : ∀ a, s.graph.Reads call.node a → s'.seen a = s.seen a) : call.Current s' := by
  have hedges := heffect.reads_of_inPlace henv.nodup h hc hverdict (hplace k)
  obtain ⟨hfree, cj, hcj, hexpression, hscope⟩ := hcurrent
  -- The node has edges to all that it reads.
  have hshown : cj.reads.map s'.seen = cj.reads.map s.seen := by
    refine List.map_congr_left fun a ha => hseen a ?_
    have hregistered : a ∈ s.graph.nodes.keys := by
      rw [hplace _ cj hcj] at ha
      exact (h.mem_getD_reading (henv.nodup _)).2 a ha
    exact (h.edges _ a).2 ⟨cj, hcj, ha, hregistered⟩
  refine ⟨fun hleads => hfree ((Graph.leadsToCycle_congr hedges _).1 hleads), ?_⟩
  by_cases hne : call.node = k
  · rw [hne] at hcj ⊢
    obtain rfl := Option.some.inj (hc.symm.trans hcj)
    obtain ⟨hsame, -, hreads⟩ := hverdict.spec
    rw [← hplace k c hc] at hreads
    exact ⟨c', heffect.calculator_self, hexpression.trans hsame.symm,
      by rw [hscope, hreads, hshown]⟩
  · exact ⟨cj, (heffect.calculator_other hne).trans hcj, hexpression, by rw [hscope, hshown]⟩

/-- The pass goes on after the recalculation of a node, if all that read it show the same afterwards
or are still to come. -/
theorem Pass.of_effect (henv : env.Answers) (hpass : Pass env s id todo) {todo' : List NodeId}
    (hk : ReflTransGen s.graph.Reads k id) (hsubset : todo' ⊆ todo) (htodo : todo ⊆ k :: todo')
    (hfirst : ¬ s.graph.LeadsToCycle k → ∀ a ∈ todo', ¬ s.graph.Reads k a)
    (hc : s.calculator? k = some c) (heffect : Effect s k c' loud s')
    (hverdict : Verdict env s s' k c c' loud)
    (hsame : ∀ j, j ∉ todo' → ¬ s.graph.LeadsToCycle j → s.graph.Reads j k → s'.seen k = s.seen k) :
    Pass env s' id todo' ∧ Kept s s' todo' := by
  have h := hpass.coherent
  have hedges := heffect.reads_of_inPlace henv.nodup h hc hverdict (hpass.inPlace k)
  have hcycle := Graph.leadsToCycle_congr hedges
  have h' := heffect.coherent h (henv.nodup _) hc hverdict
  -- What other nodes that lead to no cycle see is the same.
  have hseen : ∀ j, j ∉ todo' → ¬ s.graph.LeadsToCycle j → ∀ a, s.graph.Reads j a →
      s'.seen a = s.seen a := by
    intro j hj hfree a hreads
    by_cases ha : a = k
    · subst ha
      exact hsame j hj hfree hreads
    · exact heffect.seen_other ha
  refine ⟨⟨h', fun j => ?_, fun j hj => ?_, fun j hj hfree hdone => ?_,
    fun j a hfree hreads ha => ?_⟩, ⟨hedges, fun call hdone hcurrent => ?_⟩⟩
  · exact (heffect.inPlace_iff henv.nodup h hverdict (hpass.inPlace k) j).2 (hpass.inPlace j)
  · rw [hedges]
    rcases heffect.of_awaits hj with hj | hj
    · exact hpass.awaits j hj
    · have hreach := ((Graph.mem_wave_callbacks h'.mirrored fun _ _ => h'.callback).1 hj).2.2
      exact (hedges ▸ hreach).to_reflTransGen.trans hk
  · rw [hedges] at hj
    rw [hcycle] at hfree
    by_cases hne : j = k
    · subst hne
      exact hverdict.quiet_self henv.nodup h heffect
    have hnot : j ∉ todo := fun hmem => (List.mem_cons.1 (htodo hmem)).elim hne hdone
    refine (heffect.quiet_other henv.nodup h hedges hne fun cj reads hcj hreading a ha => ?_).2
      (hpass.quiet j hj hfree hnot)
    exact congrArg Prod.snd (hseen j hdone hfree a
      ((hpass.inPlace j).reads henv.nodup h hcj hreading ha))
  · rw [hedges] at hreads
    rw [hcycle] at hfree
    rcases List.mem_cons.1 (htodo (hpass.above j a hfree hreads (hsubset ha))) with rfl | hmem
    · exact absurd hreads (hfirst hfree a ha)
    · exact hmem
  · exact hcurrent.of_effect henv h hpass.inPlace hc heffect hverdict
      (hseen call.node hdone hcurrent.1)

/-- A sheet keeps itself. -/
theorem Kept.refl (s : Sheet) (todo : List NodeId) : Kept s s todo :=
  ⟨rfl, fun _ _ hcurrent => hcurrent⟩

/-- What is kept for fewer nodes is kept for more. -/
theorem Kept.mono {todo' : List NodeId} (h : Kept s s' todo) (hsubset : todo ⊆ todo') :
    Kept s s' todo' :=
  ⟨h.edges, fun call hdone => h.current call fun hmem => hdone (hsubset hmem)⟩

/-- What is kept over two steps. -/
theorem Kept.trans {s'' : Sheet} (h : Kept s s' todo) (h' : Kept s' s'' todo) :
    Kept s s'' todo :=
  ⟨h'.edges.trans h.edges,
    fun call hdone hcall => h'.current call hdone (h.current call hdone hcall)⟩

/-- It does not matter when things are done, as long as nothing else is. -/
theorem Pass.withAgenda (hpass : Pass env s id todo) {agenda : Agenda NodeId SheetTask}
    (htimers : ∀ t ∈ agenda.timers, t.task = .recalculate t.key)
    (hawaits : ∀ k, ({ s with agenda } : Sheet).Awaits k → s.Awaits k) :
    Pass env { s with agenda } id todo :=
  { hpass with
    coherent := hpass.coherent.withAgenda htimers
    awaits := fun k hk => hpass.awaits k (hawaits k hk) }

/-- The first of the nodes that are still to come, if it reads none of the others. -/
theorem Pass.recalculate_first (henv : env.Answers) (hpass : Pass env s id (k :: todo))
    (hk : ReflTransGen s.graph.Reads k id)
    (hfirst : ¬ s.graph.LeadsToCycle k → ∀ a ∈ todo, ¬ s.graph.Reads k a) :
    Pass env (recalculate env s k).1 id todo ∧ Kept s (recalculate env s k).1 todo := by
  cases hc : s.calculator? k with
  | none =>
    rw [recalculate_of_none hc]
    refine ⟨{ hpass with
      quiet := fun j hj hfree hdone => ?_
      above := fun j a hfree hreads ha => ?_ }, .refl s _⟩
    · by_cases hne : j = k
      · subst hne
        intro cj hcj
        rw [hc] at hcj
        cases hcj
      · exact hpass.quiet j hj hfree fun hmem => (List.mem_cons.1 hmem).elim hne hdone
    · rcases List.mem_cons.1 (hpass.above j a hfree hreads (List.mem_cons_of_mem k ha)) with
        rfl | hmem
      · exact absurd hreads (hfirst hfree a ha)
      · exact hmem
  | some c =>
    obtain ⟨c', loud, heffect, hverdict⟩ :=
      hpass.coherent.recalculate_spec (henv.nodup c.expression) hc
    refine hpass.of_effect henv hk (List.subset_cons_self ..) (List.Subset.refl _) hfirst hc
      heffect hverdict fun j hdone hfree hreads => ?_
    rcases List.mem_cons.1 (hpass.above j k hfree hreads (List.mem_cons_self ..)) with rfl | hmem
    · obtain ⟨cj, hcj, hself, -⟩ := (hpass.coherent.edges j j).1 hreads
      exact absurd hself (hpass.coherent.irreflexive j cj hcj)
    · exact absurd hmem hdone

/-- A node that is recalculated again is quiet by now, or leads to a cycle. -/
theorem Pass.recalculate_again (henv : env.Answers) (hpass : Pass env s id [])
    (hk : ReflTransGen s.graph.Reads k id) :
    Pass env (recalculate env s k).1 id [] ∧ Kept s (recalculate env s k).1 [] ∧
      calls env s k = [] := by
  cases hc : s.calculator? k with
  | none =>
    rw [recalculate_of_none hc]
    refine ⟨hpass, .refl s _, hpass.coherent.calls_of_quiet henv (hpass.inPlace k) ?_⟩
    intro ck hck
    rw [hc] at hck
    cases hck
  | some c =>
    obtain ⟨c', loud, heffect, hverdict⟩ :=
      hpass.coherent.recalculate_spec (henv.nodup c.expression) hc
    have hedges := heffect.reads_of_inPlace henv.nodup hpass.coherent hc hverdict (hpass.inPlace k)
    have hcycle := Graph.leadsToCycle_congr hedges k
    refine and_assoc.1 ⟨hpass.of_effect henv hk (List.Subset.refl _) (List.nil_subset _)
      (fun _ _ ha => absurd ha (by simp)) hc heffect hverdict fun j _ hfree hreads => ?_, ?_⟩
    · -- If it led to a cycle, so would all that read it.
      have hquiet := hpass.quiet k hk
        (fun ⟨b, hreach, hback⟩ => hfree ⟨b, .head hreads hreach, hback⟩) (by simp)
      have hsilent := (hverdict.quiet_iff hc hcycle).1 hquiet
      exact heffect.seen_of_eq hc (hverdict.result_of_silent hpass.coherent hc hsilent) k
    · by_cases hfree : s.graph.LeadsToCycle k
      · rcases (hpass.coherent.calls_spec henv k).2 with hnone | ⟨call, -, rfl, hcurrent, -⟩
        · exact hnone
        · exact absurd (hcycle.2 hfree) hcurrent
      · exact hpass.coherent.calls_of_quiet henv (hpass.inPlace k)
          (hpass.quiet k hk hfree (by simp))

/-! ### The pass and what comes after it -/

/-- The pass itself: every node is evaluated at most once, with results that stay. -/
theorem Pass.recalculateEach (henv : env.Answers) (hpass : Pass env s id todo)
    (hfollows : ∀ k ∈ todo, ReflTransGen s.graph.Reads k id) (hnodup : todo.Nodup)
    (hordered : todo.Pairwise fun a b => ¬ s.graph.LeadsToCycle a → ¬ s.graph.Reads a b) :
    Pass env (s.recalculateEach env todo) id [] ∧ Kept s (s.recalculateEach env todo) todo ∧
      ((callsOfEach env s todo).map (·.node)).Sublist todo ∧
      ∀ call ∈ callsOfEach env s todo, call.Current (s.recalculateEach env todo) := by
  induction todo generalizing s with
  | nil => exact ⟨hpass, .refl s _, .slnil, by simp [callsOfEach]⟩
  | cons k todo ih =>
    obtain ⟨hk, hrest⟩ := List.forall_mem_cons.1 hfollows
    obtain ⟨hfirst, hordered⟩ := List.pairwise_cons.1 hordered
    obtain ⟨hnew, hnodup⟩ := List.nodup_cons.1 hnodup
    obtain ⟨hpass₁, hkept₁⟩ := hpass.recalculate_first henv hk fun hfree a ha => hfirst a ha hfree
    -- The recalculation moves no edges, so the rest is still in order.
    have hordered₁ : todo.Pairwise fun a b =>
        ¬ (recalculate env s k).1.graph.LeadsToCycle a →
          ¬ (recalculate env s k).1.graph.Reads a b := by
      refine hordered.imp fun {a b} hab hfree => ?_
      rw [Graph.leadsToCycle_congr hkept₁.edges] at hfree
      rw [hkept₁.edges]
      exact hab hfree
    obtain ⟨hpass₂, hkept₂, hsublist, hcurrent⟩ :=
      ih hpass₁ (hkept₁.edges ▸ hrest) hnodup hordered₁
    refine ⟨hpass₂, (hkept₁.trans hkept₂).mono (List.subset_cons_self ..), ?_, ?_⟩
    · rw [callsOfEach, List.map_append]
      rcases (hpass.coherent.calls_spec henv k).2 with hnone | ⟨call, hone, hnode, -⟩
      · rw [hnone]
        exact hsublist.cons k
      · rw [hone, List.map_singleton, hnode]
        exact hsublist.cons_cons k
    · rw [callsOfEach]
      refine List.forall_mem_append.2 ⟨fun call hcall => ?_, hcurrent⟩
      rcases (hpass.coherent.calls_spec henv k).2 with hnone | ⟨call', hone, hnode, hcurrent'⟩
      · rw [hnone] at hcall
        cases hcall
      · rw [hone] at hcall
        -- The first call stays current, since its node does not come again.
        obtain rfl := List.mem_singleton.1 hcall
        exact hkept₂.current call (hnode ▸ hnew) hcurrent'

/-- Whatever the worker does after the pass, it evaluates nothing more. -/
theorem keeps_pass (henv : env.Answers) (id : NodeId) (after : Sheet) :
    Keeps env fun s todo => Pass env s id [] ∧ (∀ k ∈ todo, ReflTransGen s.graph.Reads k id) ∧
      Kept after s [] ∧ s.journal.evaluations = after.journal.evaluations where
  recalculate h := by
    obtain ⟨hpass, hfollows, hkept, hjournal⟩ := h
    obtain ⟨hk, hrest⟩ := List.forall_mem_cons.1 hfollows
    obtain ⟨hpass', hkept', hnone⟩ := hpass.recalculate_again henv hk
    refine ⟨hpass', hkept'.edges ▸ hrest, hkept.trans hkept', ?_⟩
    rw [(hpass.coherent.calls_spec henv _).1, hnone, List.map_nil, List.append_nil, hjournal]
  pop h hqueue := by
    obtain ⟨hpass, -, hkept, hjournal⟩ := h
    exact ⟨hpass.withAgenda hpass.coherent.timers fun k hk => Awaits.of_pop hqueue (.inr hk),
      fun k hk => hpass.awaits k (Awaits.of_pop hqueue (.inl hk)), ⟨hkept.edges, hkept.current⟩,
      hjournal⟩
  advance {s due} h _ := by
    obtain ⟨hpass, hfollows, hkept, hjournal⟩ := h
    exact ⟨hpass.withAgenda
        (fun t ht => hpass.coherent.timers t (List.mem_filter.1 ht).1)
        fun k hk => (hpass.coherent.awaits_advance due k).1 hk,
      hfollows, ⟨hkept.edges, hkept.current⟩, hjournal⟩
  pause moment h := by
    obtain ⟨hpass, hfollows, hkept, hjournal⟩ := h
    exact ⟨hpass.withAgenda hpass.coherent.timers fun k hk => hk, hfollows,
      ⟨hkept.edges, hkept.current⟩, hjournal⟩

/-! ### An edit of a sheet at rest -/

/-- Nothing runs on a sheet at rest. -/
theorem run_of_atRest (env : Environment) (h : s.AtRest) (steps : Nat) :
    (worker env).run none steps s = s ∧ callsOfRun env none steps s = [] := by
  cases steps with
  | zero => exact ⟨rfl, rfl⟩
  | succ steps =>
    rw [Worker.run, callsOfRun, step?_of_atRest env h]
    exact ⟨rfl, rfl⟩

/-- What follows a change is registered. -/
theorem Coherent.registered_of_reads (h : s.Coherent) {a b : NodeId} (hreads : s.graph.Reads a b) :
    a ∈ s.graph.nodes.keys := by
  obtain ⟨c, hc, -⟩ := (h.edges a b).1 hreads
  exact h.registered hc

/-- The wave of the changed node is the pass. -/
theorem Effect.pass (heffect : Effect s id c' loud s') (henv : env.Answers) (h : s.Coherent)
    (hc : s.calculator? id = some c) (hverdict : Verdict env s s' id c c' loud)
    (hplace : ∀ k, k ≠ id → InPlace env s k) (hrest : s.AtRest) :
    Pass env s' id (s'.graph.wave id).callbacks := by
  have h' := heffect.coherent h (henv.nodup _) hc hverdict
  have hwave : ∀ k, k ∈ (s'.graph.wave id).callbacks ↔
      k ∈ s'.graph.nodes.keys ∧ k ≠ id ∧ TransGen s'.graph.Reads k id :=
    fun k => Graph.mem_wave_callbacks h'.mirrored fun _ _ => h'.callback
  refine ⟨h', fun k => ?_, fun k hk => ?_, fun k hk hfree hdone => ?_,
    fun k a hfree hreads ha => ?_⟩
  · by_cases hne : k = id
    · subst hne
      exact heffect.inPlace_self henv.nodup h hverdict
    · exact (heffect.inPlace_other henv.nodup h hne).2 (hplace k hne)
  · rcases heffect.of_awaits hk with hk | hk
    · exact absurd hk (hrest.not_awaits k)
    · exact ((hwave k).1 hk).2.2.to_reflTransGen
  -- Who is not on the wave does not follow the node, and was at rest before.
  · by_cases hne : k = id
    · subst hne
      exact hverdict.quiet_self henv.nodup h heffect
    · rcases reflTransGen_iff_eq_or_transGen.1 hk with heq | hreach
      · exact absurd heq.symm hne
      · obtain ⟨b, hreads, -⟩ := TransGen.head'_iff.1 hreach
        exact absurd ((hwave k).2 ⟨h'.registered_of_reads hreads, hne, hreach⟩) hdone
  · have hreach : TransGen s'.graph.Reads k id := .head hreads ((hwave a).1 ha).2.2
    refine (hwave k).2 ⟨h'.registered_of_reads hreads, ?_, hreach⟩
    rintro rfl
    exact hfree ⟨k, .refl, hreach⟩

/-- When the worker takes up the pass, it goes through it, and evaluates nothing more after it. -/
theorem Pass.calls_run (henv : env.Answers) {wave : List NodeId} (hpass : Pass env s id wave)
    (hqueue : s.agenda.queue = [.follow wave])
    (hfollows : ∀ k ∈ wave, ReflTransGen s.graph.Reads k id) (hnodup : wave.Nodup)
    (hordered : wave.Pairwise fun a b => ¬ s.graph.LeadsToCycle a → ¬ s.graph.Reads a b)
    (steps : Nat) :
    (∀ k, InPlace env ((worker env).run none (steps + 1) s) k) ∧
      Kept s ((worker env).run none (steps + 1) s) wave ∧
      ((callsOfRun env none (steps + 1) s).map (·.node)).Sublist wave ∧
      ∀ call ∈ callsOfRun env none (steps + 1) s,
        call.Current ((worker env).run none (steps + 1) s) := by
  let popped : Sheet := { s with agenda := { s.agenda with queue := [] } }
  have hpopped : Pass env popped id wave :=
    hpass.withAgenda hpass.coherent.timers fun k hk => Awaits.of_pop hqueue (.inr hk)
  obtain ⟨hpass', hkept, hsublist, hcurrent⟩ :=
    hpopped.recalculateEach henv hfollows hnodup hordered
  set after := popped.recalculateEach env wave with hafter
  have hstep : (worker env).step? none s = some after := by
    simp only [Worker.step?, worker, hqueue]
    rfl
  have hcalls : callsOfStep env s = callsOfEach env popped wave := by
    unfold callsOfStep
    rw [hqueue]
    rfl
  -- What the rest of the run enters into the journal is nothing.
  obtain ⟨hpass'', -, hkept', hjournal⟩ :=
    (keeps_pass henv id after).run ⟨hpass', by simp, .refl after [], rfl⟩ none steps
  have hnone : callsOfRun env none steps after = [] := by
    have hsame := hpass'.coherent.evaluations_run henv none steps
    rw [hjournal] at hsame
    exact List.map_eq_nil_iff.1 (List.append_right_eq_self.1 hsame.symm)
  rw [Worker.run, callsOfRun, hstep]
  dsimp only
  rw [hcalls, hnone, List.append_nil]
  exact ⟨hpass''.inPlace, ⟨hkept'.edges.trans hkept.edges, fun call hdone hcall =>
      hkept'.current call (by simp) (hkept.current call hdone hcall)⟩, hsublist,
    fun call hcall => hkept'.current call (by simp) (hcurrent call hcall)⟩

/-- What the wave of the changed node leads to until the sheet is at rest again. -/
theorem Effect.calls_run (heffect : Effect s id c' loud s') (henv : env.Answers) (h : s.Coherent)
    (hc : s.calculator? id = some c) (hverdict : Verdict env s s' id c c' loud)
    (hplace : ∀ k, k ≠ id → InPlace env s k) (hrest : s.AtRest) {steps : Nat}
    (hsettled : ((worker env).run none steps s').AtRest) :
    ∃ wave : List NodeId, wave.Nodup ∧
      (∀ k ∈ wave, k ≠ id ∧ ReflTransGen s'.graph.Reads k id) ∧
      (∀ k, InPlace env ((worker env).run none steps s') k) ∧
      Kept s' ((worker env).run none steps s') wave ∧
      ((callsOfRun env none steps s').map (·.node)).Sublist wave ∧
      ∀ call ∈ callsOfRun env none steps s', call.Current ((worker env).run none steps s') := by
  have hpass := heffect.pass henv h hc hverdict hplace hrest
  have h' := hpass.coherent
  set wave := (s'.graph.wave id).callbacks with hwave
  have hsublist : wave.Sublist s'.graph.topologicalOrder :=
    Graph.callbacks_sublist h'.mirrored (fun a b => h'.registered_of_reads) fun _ _ => h'.callback
  have hnodup : wave.Nodup := hsublist.nodup (nodup_finishOrder _ _)
  have hfollows : ∀ k ∈ wave, k ≠ id ∧ ReflTransGen s'.graph.Reads k id := by
    intro k hk
    obtain ⟨-, hne, hreach⟩ := (Graph.mem_wave_callbacks h'.mirrored fun _ _ => h'.callback).1 hk
    exact ⟨hne, hreach.to_reflTransGen⟩
  refine ⟨wave, hnodup, hfollows, ?_⟩
  -- Either nothing was announced, or the wave is all that the worker has to do.
  by_cases hsilent : s'.AtRest
  · obtain ⟨hrun, hnone⟩ := run_of_atRest env hsilent steps
    rw [hrun, hnone]
    exact ⟨hpass.inPlace, .refl s' wave, List.nil_sublist _, by simp⟩
  · have hqueue : s'.agenda.queue = [.follow wave] := by
      obtain ⟨htimers, -, hsame | ⟨-, hmore⟩⟩ := heffect.agenda_eq
      · exact absurd ⟨hsame.trans hrest.1, htimers.trans hrest.2⟩ hsilent
      · rw [hmore, hrest.1]
        rfl
    cases steps with
    | zero => exact absurd hsettled hsilent
    | succ steps =>
      exact hpass.calls_run henv hqueue (fun k hk => (hfollows k hk).2) hnodup
        ((Graph.pairwise_topologicalOrder _).sublist hsublist) steps

/-- The calls of a change of one node in a sheet at rest, from its recalculation until the sheet is
at rest again. -/
theorem Coherent.calls_until_atRest (henv : env.Answers) (h : s.Coherent) (hrest : s.AtRest)
    (hc : s.calculator? id = some c) (hplace : ∀ k, k ≠ id → InPlace env s k) {steps : Nat}
    (hsettled : ((worker env).run none steps (Sheet.recalculate env s id).1).AtRest) :
    let s' := (worker env).run none steps (Sheet.recalculate env s id).1
    let called := calls env s id ++ callsOfRun env none steps (Sheet.recalculate env s id).1
    (∀ k, InPlace env s' k) ∧ (called.map (·.node)).Nodup ∧
      ∀ call ∈ called, ReflTransGen s'.graph.Reads call.node id ∧ call.Current s' := by
  dsimp only
  obtain ⟨-, hfirst⟩ := h.calls_spec henv id
  obtain ⟨c', loud, heffect, hverdict⟩ := h.recalculate_spec (henv.nodup c.expression) hc
  obtain ⟨wave, hnodup, hfollows, hplace', hkept, hnodes, hcurrent⟩ :=
    heffect.calls_run henv h hc hverdict hplace hrest hsettled
  generalize (Sheet.recalculate env s id).1 = s₁ at *
  have hmem : ∀ call ∈ callsOfRun env none steps s₁, call.node ∈ wave :=
    fun call hcall => hnodes.subset (List.mem_map_of_mem hcall)
  rw [hkept.edges]
  have hlater : ∀ call ∈ callsOfRun env none steps s₁,
      ReflTransGen s₁.graph.Reads call.node id ∧ call.Current ((worker env).run none steps s₁) :=
    fun call hcall => ⟨(hfollows _ (hmem call hcall)).2, hcurrent call hcall⟩
  refine ⟨hplace', ?_⟩
  rcases hfirst with hnone | ⟨call, hone, rfl, hcall⟩
  · rw [hnone]
    exact ⟨hnodes.nodup hnodup, hlater⟩
  · -- The changed node itself does not follow the change.
    have hnew : call.node ∉ wave := fun hin => (hfollows _ hin).1 rfl
    rw [hone]
    exact ⟨List.nodup_cons.2 ⟨fun hin => hnew (hnodes.subset hin), hnodes.nodup hnodup⟩,
      List.forall_mem_cons.2 ⟨⟨.refl, hkept.current call hnew hcall⟩, hlater⟩⟩

end Sheet

namespace Workspace

open Sheet (Call)

/-- The calls while a node gets another expression, and then the workspace settles. -/
def callsOfSetExpression (setup : Setup) (steps : Nat) (w : Workspace) (id : NodeId)
    (expression : String) : List Call :=
  Sheet.calls setup.environment (w.sheet.withExpression id expression) id ++
    Sheet.callsOfRun setup.environment none steps
      (w.perform setup (.setExpression id expression)).sheet

/-- In a workspace at rest that has come of any operations except for renamings and appended
records, with anything in between that may happen at any time, a new expression for a node has the
evaluator called at most once for each node, only for the node itself and those that depend on it,
and with the results that they read in the end. The calls are all that the journal gets. It does not
matter how expressions are evaluated, as long as something comes of them, and the precision may be
any whose power of ten is a number. -/
theorem setExpression_evaluates_once (setup : Setup) {factor : Float}
    (hreferences : setup.environment.references = setup.registry.references)
    (hevaluates : setup.environment.EvaluatesNumbers)
    (hscale : scaleFactor setup.environment.precision = .ok factor) {past : List Sheet}
    {w : Workspace} (hw : History setup Operation.IsDirect past w) (hrest : w.sheet.AtRest)
    (id : NodeId) (hid : id ∈ w.ids) (expression : String) :
    ∃ bound, ∀ steps, bound ≤ steps →
      let s := ((w.perform setup (.setExpression id expression)).settle setup steps).sheet
      let calls := w.callsOfSetExpression setup steps id expression
      s.AtRest ∧ s.Linked setup.environment ∧
        s.journal.evaluations = w.sheet.journal.evaluations ++ calls.map Call.entry ∧
        (calls.map (·.node)).Nodup ∧
        ∀ call ∈ calls, ReflTransGen s.graph.Reads call.node id ∧
          ∃ c, s.calculator? call.node = some c ∧ call.expression = c.expression ∧
            call.scope = Sheet.scopeOf (c.reads.map s.seen) := by
  have henv : setup.environment.Answers := hevaluates.answers hreferences hscale
  have hsound := hw.reachable.sound henv
  have hprogress := hw.progress henv
  have hcoherent := hsound.accounted.coherent
  obtain ⟨c, hc⟩ := hcoherent.calculator_of_mem
    (hcoherent.keys ▸ show id ∈ w.sheet.calculators.keys from hid)
  set s₀ := w.sheet.withExpression id expression with hs₀
  have hcoherent₀ : s₀.Coherent := hcoherent.withExpression id expression
  have hcalculator : ∀ k, s₀.calculator? k =
      if k = id then (w.sheet.calculator? k).map fun c => { c with expression }
      else w.sheet.calculator? k :=
    Sheet.calculator?_setExpression _ id expression
  have hc₀ : s₀.calculator? id = some { c with expression } := by
    rw [hcalculator, if_pos rfl, hc]
    rfl
  have hrest₀ : s₀.AtRest := ⟨hrest.1, by
    change w.sheet.agenda.timers.filter _ = []
    rw [hrest.2, List.filter_nil]⟩
  -- The other nodes are in place, since the workspace was at rest.
  have hplace : ∀ k, k ≠ id → Sheet.InPlace setup.environment s₀ k := by
    intro k hne ck hck
    rw [hcalculator, if_neg hne] at hck
    exact hprogress.reads_eq hrest trivial hck
  have hperform : (w.perform setup (.setExpression id expression)).sheet =
      (Sheet.recalculate setup.environment s₀ id).1 := by
    obtain ⟨result, hset⟩ := setExpression_spec henv hcoherent hc expression
    rw [Workspace.perform, hset]
    rfl
  have hcoherent₁ := hcoherent₀.recalculate henv.nodup id
  obtain ⟨bound, hbound⟩ := hcoherent₁.exists_atRest_of_isRun henv.nodup
    (Sheet.isRun_settle setup.environment _)
  refine ⟨bound, fun steps hsteps => ?_⟩
  have hsettled := hbound steps hsteps
  obtain ⟨hplace', hnodup, hcalls⟩ :=
    hcoherent₀.calls_until_atRest henv hrest₀ hc₀ hplace hsettled
  have hjournal := hcoherent₁.evaluations_run henv none steps
  have hcoherent' := (Sheet.keeps_coherent henv.nodup).run hcoherent₁ none steps
  unfold callsOfSetExpression settle onSheet Worker.settle
  dsimp only
  rw [hperform]
  refine ⟨hsettled, hcoherent'.linked henv fun k ck hck => hplace' k ck hck, ?_, hnodup,
    fun call hcall => ⟨(hcalls call hcall).1, (hcalls call hcall).2.2⟩⟩
  rw [hjournal, (hcoherent₀.calls_spec henv id).1, List.map_append, List.append_assoc]
  rfl

/-- Two nodes read a third one, and a fourth one reads both. -/
def diamond : List Operation :=
  [.add ⟨some "A", "1"⟩, .add ⟨some "B", "A + 1"⟩, .add ⟨some "C", "A * 2"⟩,
    .add ⟨some "D", "B + C"⟩, .settle 10]

set_option maxRecDepth 100000 in
/-- Each corner is evaluated once, although the last one is recalculated three times. -/
theorem setExpression_evaluates_once_diamond :
    let setup := Setup.onStack
    let w := empty.performAll setup diamond
    let past := empty.beforeRemovals setup diamond
    History setup Operation.IsDirect past w ∧ setup.environment.EvaluatesNumbers ∧
      w.sheet.AtRest ∧ "node-1" ∈ w.ids ∧
      (w.callsOfSetExpression setup 10 "node-1" "5").map (·.node) =
        ["node-1", "node-2", "node-3", "node-4"] ∧
      ∃ bound, ∀ steps, bound ≤ steps →
        let s := ((w.perform setup (.setExpression "node-1" "5")).settle setup steps).sheet
        let calls := w.callsOfSetExpression setup steps "node-1" "5"
        s.AtRest ∧ s.Linked setup.environment ∧
          s.journal.evaluations = w.sheet.journal.evaluations ++ calls.map Call.entry ∧
          (calls.map (·.node)).Nodup ∧
          ∀ call ∈ calls, ReflTransGen s.graph.Reads call.node "node-1" ∧
            ∃ c, s.calculator? call.node = some c ∧ call.expression = c.expression ∧
              call.scope = Sheet.scopeOf (c.reads.map s.seen) := by
  intro setup w past
  have hdirect : ∀ operation ∈ diamond, operation.IsDirect := by
    simp [diamond, Operation.IsDirect]
  have hw : History setup Operation.IsDirect past w := .performAll setup hdirect
  have hrest : w.sheet.AtRest := by decide +kernel
  have hid : "node-1" ∈ w.ids := by decide +kernel
  exact ⟨hw, Setup.evaluatesNumbers_onStack, hrest, hid, by decide +kernel,
    setExpression_evaluates_once setup rfl Setup.evaluatesNumbers_onStack rfl hw hrest "node-1" hid
      "5"⟩

end Workspace

end LiveSheet
