import LiveSheet.Proofs.Work

/-!
# Edges in another order

The ids that depend on a node, and those that it depends on, are sets: nothing says in which order
they come. A graph is a reordered one of another if it has the same records and the same edges
(`Graph.Reordered`). Whether a cycle can be reached is the same in both, and a change sets off the
same callbacks in some order (`Graph.Reordered.callbacks_perm`).

So the order shows nowhere but in the tasks that wait: a recalculation on a reordered sheet comes to
the same results, publishes the same, and leaves a reordered sheet (`Sheet.Reordered.recalculate`).
-/

namespace LiveSheet

open Relation Search

/-! ### Ids in another order -/

namespace NodeId

variable {x : NodeId} {ids ids' : List NodeId}

/-- Ids in another order without one of them. -/
theorem erase_perm (h : ids.Perm ids') : (erase x ids).Perm (erase x ids') :=
  h.filter _

/-- An id is put among others, wherever that is. -/
theorem insert_perm_cons (hx : x ∉ ids) : (insert x ids).Perm (x :: ids) := by
  unfold insert
  rw [if_neg hx]
  exact List.perm_middle.trans (by rw [List.takeWhile_append_dropWhile])

/-- Ids in another order with one more. -/
theorem insert_perm (h : ids.Perm ids') : (insert x ids).Perm (insert x ids') := by
  by_cases hx : x ∈ ids
  · have hx' : x ∈ ids' := h.mem_iff.1 hx
    unfold insert
    rwa [if_pos hx, if_pos hx']
  · have hx' : x ∉ ids' := fun hmem => hx (h.mem_iff.2 hmem)
    exact (insert_perm_cons hx).trans ((h.cons x).trans (insert_perm_cons hx').symm)

/-- The ids of a set are distinct. -/
theorem nodup_ascending (ids : List NodeId) : (ascending ids).Nodup := by
  induction ids with
  | nil => exact List.nodup_nil
  | cons x ids ih => exact nodup_insert ih

end NodeId

/-! ### Graphs in another order -/

namespace Graph

variable {γ : Type} {g g' : Graph γ} {a b id : NodeId}

/-- The same records and the same edges, which may come in another order. -/
structure Reordered (g g' : Graph γ) : Prop where
  nodes : g'.nodes = g.nodes
  dependents : ∀ id, (g.dependentsOf id).Perm (g'.dependentsOf id)
  dependencies : ∀ id, (g.dependenciesOf id).Perm (g'.dependenciesOf id)

namespace Reordered

/-- A graph is a reordered one of itself. -/
theorem refl (g : Graph γ) : g.Reordered g :=
  ⟨rfl, fun _ => .rfl, fun _ => .rfl⟩

/-- Reordering goes both ways. -/
theorem symm (h : g.Reordered g') : g'.Reordered g :=
  ⟨h.nodes.symm, fun id => (h.dependents id).symm, fun id => (h.dependencies id).symm⟩

/-- The records are the same. -/
theorem node? (h : g.Reordered g') (id : NodeId) : g'.node? id = g.node? id := by
  rw [Graph.node?, Graph.node?, h.nodes]

/-- The edges are the same. -/
theorem reads (h : g.Reordered g') : g'.Reads = g.Reads := by
  funext a b
  exact propext (h.dependencies a).mem_iff.symm

/-- The two directions of the edges agree in both graphs. -/
theorem mirrored (h : g.Reordered g') (hg : g.Mirrored) : g'.Mirrored := by
  intro a b
  rw [← (h.dependents b).mem_iff, ← (h.dependencies a).mem_iff]
  exact hg a b

/-- A cycle is reached from the same nodes. -/
theorem reachesCycle (h : g.Reordered g') (id : NodeId) :
    g'.reachesCycle id = g.reachesCycle id := by
  rw [Bool.eq_iff_iff, reachesCycle_eq_true_iff, reachesCycle_eq_true_iff]
  exact leadsToCycle_congr h.reads id

/-! Operations on reordered graphs give reordered graphs. -/

/-- Changes of a record. -/
theorem update (h : g.Reordered g') (id : NodeId) (changes : List (Change γ)) :
    (g.update id changes).Reordered (g'.update id changes) where
  nodes := by simp only [Graph.update, h.nodes]
  dependents := h.dependents
  dependencies := h.dependencies

/-- A new edge. -/
theorem link (h : g.Reordered g') (dependent dependency : NodeId) :
    (g.link dependent dependency).Reordered (g'.link dependent dependency) where
  nodes := h.nodes
  dependents x := by
    simp only [Graph.link, dependentsOf, successors_insertAt]
    split
    · exact NodeId.insert_perm (h.dependents x)
    · exact h.dependents x
  dependencies x := by
    simp only [Graph.link, dependenciesOf, successors_insertAt]
    split
    · exact NodeId.insert_perm (h.dependencies x)
    · exact h.dependencies x

/-- An edge less. -/
theorem removeDependency (h : g.Reordered g') (dependent dependency : NodeId) :
    (g.removeDependency dependent dependency).Reordered
      (g'.removeDependency dependent dependency) where
  nodes := h.nodes
  dependents x := by
    simp only [Graph.removeDependency, dependentsOf, successors_modify_erase]
    split
    · exact NodeId.erase_perm (h.dependents x)
    · exact h.dependents x
  dependencies x := by
    simp only [Graph.removeDependency, dependenciesOf, successors_modify_erase]
    split
    · exact NodeId.erase_perm (h.dependencies x)
    · exact h.dependencies x

/-- Several new edges. -/
theorem linkAll (h : g.Reordered g') (id : NodeId) (now : List NodeId) :
    (now.foldl (·.link id ·) g).Reordered (now.foldl (·.link id ·) g') := by
  induction now generalizing g g' with
  | nil => exact h
  | cons x now ih => exact ih (h.link id x)

/-- Several edges less. -/
theorem removeAll (h : g.Reordered g') (id : NodeId) (before : List NodeId) :
    (before.foldl (·.removeDependency id ·) g).Reordered
      (before.foldl (·.removeDependency id ·) g') := by
  induction before generalizing g g' with
  | nil => exact h
  | cons x before ih => exact ih (h.removeDependency id x)

end Reordered

/-! ### What a change sets off -/

/-- Every node follows a change at most once. -/
theorem nodup_propagationOrder (g : Graph γ) (id : NodeId) : (g.propagationOrder id).Nodup := by
  unfold propagationOrder
  have horder : g.topologicalOrder.Nodup := nodup_finishOrder _ _
  have hclosure : (g.closure id).Nodup := NodeId.nodup_ascending _
  refine List.nodup_append.2 ⟨horder.filter _, hclosure.filter _, ?_⟩
  -- What the order does not name is not in it.
  rintro a ha b hb rfl
  have hout : a ∉ g.topologicalOrder := by simpa using (List.mem_filter.1 hb).2
  exact hout (List.mem_filter.1 ha).1

/-- The same callbacks are called, in some order. -/
theorem Reordered.callbacks_perm (h : g.Reordered g') (hg : g.Mirrored) (id : NodeId) :
    (g.wave id).callbacks.Perm (g'.wave id).callbacks := by
  have horder : (g.propagationOrder id).Perm (g'.propagationOrder id) := by
    refine (List.perm_ext_iff_of_nodup (nodup_propagationOrder g id)
      (nodup_propagationOrder g' id)).2 fun a => ?_
    rw [mem_propagationOrder hg, mem_propagationOrder (h.mirrored hg), h.reads]
  have hcallback : (fun follower => (g'.node? follower).bind (·.callback)) =
      fun follower => (g.node? follower).bind (·.callback) := by
    funext follower
    rw [h.node?]
  unfold wave
  simp only [hcallback]
  exact horder.filterMap _

end Graph

/-! ### Sheets in another order -/

/-- The same task, whose nodes may come in another order. -/
inductive SheetTask.Reordered : SheetTask → SheetTask → Prop
  | recalculate (id : NodeId) : Reordered (.recalculate id) (.recalculate id)
  | follow {ids ids' : List NodeId} (h : ids.Perm ids') : Reordered (.follow ids) (.follow ids')

/-- A task is a reordered one of itself. -/
theorem SheetTask.Reordered.refl : (task : SheetTask) → task.Reordered task
  | .recalculate id => .recalculate id
  | .follow _ => .follow .rfl

/-- Reordering of tasks goes both ways. -/
theorem SheetTask.Reordered.symm {task task' : SheetTask} (h : task.Reordered task') :
    task'.Reordered task := by
  cases h with
  | recalculate id => exact .recalculate id
  | follow h => exact .follow h.symm

namespace Sheet

/-- What names mean depends on the records only. -/
theorem resolve?_of_nodes_eq {g g' : Graph NodeId} (h : g'.nodes = g.nodes) (id : NodeId)
    (found : List NodeId) (names : List String) :
    resolve? g' id found names = resolve? g id found names := by
  have hfind : ∀ header, g'.findByHeader header = g.findByHeader header := by
    intro header
    rw [Graph.findByHeader, Graph.findByHeader, h]
  induction names generalizing found with
  | nil => rfl
  | cons name names ih => simp only [resolve?, hfind, ih]

/-- The same sheet, whose edges may come in another order, and the nodes of a task as well. -/
structure Reordered (s s' : Sheet) : Prop where
  graph : s.graph.Reordered s'.graph
  calculators : s'.calculators = s.calculators
  journal : s'.journal = s.journal
  now : s'.agenda.now = s.agenda.now
  queue : List.Forall₂ SheetTask.Reordered s.agenda.queue s'.agenda.queue
  timers : s'.agenda.timers = s.agenda.timers

variable {env : Environment} {s s' : Sheet} {id k : NodeId} {c : Calculator}

namespace Reordered

/-- A sheet is a reordered one of itself. -/
theorem refl (s : Sheet) : s.Reordered s :=
  ⟨.refl _, rfl, rfl, rfl, List.forall₂_same.2 fun task _ => .refl task, rfl⟩

/-- Reordering of sheets goes both ways. -/
theorem symm (h : s.Reordered s') : s'.Reordered s where
  graph := h.graph.symm
  calculators := h.calculators.symm
  journal := h.journal.symm
  now := h.now.symm
  queue := h.queue.flip.imp fun _ _ => SheetTask.Reordered.symm
  timers := h.timers.symm

/-- The calculators are the same. -/
theorem calculator? (h : s.Reordered s') (k : NodeId) : s'.calculator? k = s.calculator? k := by
  rw [Sheet.calculator?, Sheet.calculator?, h.calculators]

/-- The results are the same. -/
theorem resultOf (h : s.Reordered s') (k : NodeId) : s'.resultOf k = s.resultOf k := by
  rw [Sheet.resultOf, Sheet.resultOf, h.calculator?]

/-- Names mean the same. -/
theorem resolve? (h : s.Reordered s') (id : NodeId) (found : List NodeId) (names : List String) :
    Sheet.resolve? s'.graph id found names = Sheet.resolve? s.graph id found names :=
  resolve?_of_nodes_eq h.graph.nodes id found names

/-- The result seen of a node is the same. -/
theorem resultSeen (h : s.Reordered s') (id : NodeId) :
    Sheet.resultSeen s'.graph id = Sheet.resultSeen s.graph id := by
  rw [Sheet.resultSeen, Sheet.resultSeen, h.graph.node?]

/-- The fingerprints are the same. -/
theorem fingerprint (h : s.Reordered s') (c : Calculator) :
    Sheet.fingerprint s'.graph c = Sheet.fingerprint s.graph c := by
  rw [Sheet.fingerprint, Sheet.fingerprint, List.map_congr_left fun a _ => h.resultSeen a]

/-- The scopes that are gathered are the same. -/
theorem gather (h : s.Reordered s') (scope : Scope) (ids : List NodeId) :
    Sheet.gather s'.graph scope ids = Sheet.gather s.graph scope ids := by
  induction ids generalizing scope with
  | nil => rfl
  | cons id ids ih => simp only [Sheet.gather, h.graph.node?, ih]

/-! Changes of a reordered sheet give a reordered sheet. -/

/-- A changed calculator. -/
theorem modify (h : s.Reordered s') (id : NodeId) (f : Calculator → Calculator) :
    (s.modify id f).Reordered (s'.modify id f) :=
  { h with calculators := by simp only [Sheet.modify, h.calculators] }

/-- A new result. -/
theorem setResult (h : s.Reordered s') (id : NodeId) (result : Result) :
    (s.setResult id result).Reordered (s'.setResult id result) :=
  { h.modify id fun c => { c with result } with graph := h.graph.update id _ }

/-- Other dependencies. -/
theorem relink (h : s.Reordered s') (id : NodeId) (before now : List NodeId) :
    (s.relink id before now).Reordered (s'.relink id before now) :=
  { h.modify id fun c => { c with reads := now } with
    graph := (h.graph.removeAll id before).linkAll id now }

/-- A note in the journal. -/
theorem noteEvaluation (h : s.Reordered s') (expression : String) (scope : Scope) :
    (s.noteEvaluation expression scope).Reordered (s'.noteEvaluation expression scope) :=
  { h with journal := by simp only [Sheet.noteEvaluation, h.journal] }

/-- What is published is the same, and sets off the same tasks in some order. -/
theorem publish (h : s.Reordered s') (hs : s.graph.Mirrored) (id : NodeId) :
    (s.publish id).Reordered (s'.publish id) := by
  have hperm := h.graph.callbacks_perm hs id
  have hempty := hperm.isEmpty_eq
  have hjournal : (s'.publish id).journal = (s.publish id).journal := by
    simp only [Sheet.publish, h.journal, h.graph.node?]
  refine ⟨h.graph, h.calculators, hjournal, ?_, ?_, ?_⟩
  all_goals
    simp only [Sheet.publish, Wave.enqueue, ← hempty]
    split
  · exact h.now
  · exact h.now
  · exact h.queue
  · exact List.rel_append h.queue (.cons (.follow hperm) .nil)
  · exact h.timers
  · exact h.timers

/-- The end of an evaluation. -/
theorem conclude (h : s.Reordered s') (hs : s.graph.Mirrored) (id : NodeId) (print : String)
    (result : Result) : (s.conclude id print result).Reordered (s'.conclude id print result) :=
  ((h.modify id _).setResult id result).publish hs id

/-- The end of a recalculation that does not evaluate. -/
theorem concludeUnresolved (h : s.Reordered s') (hs : s.graph.Mirrored) (id : NodeId)
    (c : Calculator) (print : String) (kind : ErrorKind) :
    (s.concludeUnresolved id c print kind).Reordered (s'.concludeUnresolved id c print kind) := by
  unfold Sheet.concludeUnresolved
  split
  · exact h.modify id _
  · exact (h.modify id _).publish hs id

/-- The edges are set to the same, and the same nodes are unresolved. -/
theorem updateDependencies (env : Environment) (h : s.Reordered s') (hs : s.graph.Mirrored)
    (id : NodeId) :
    (Sheet.updateDependencies env s id).1.Reordered (Sheet.updateDependencies env s' id).1 ∧
      (Sheet.updateDependencies env s' id).2 = (Sheet.updateDependencies env s id).2 ∧
        (Sheet.updateDependencies env s id).1.graph.Mirrored := by
  unfold Sheet.updateDependencies
  rw [h.calculator?]
  cases s.calculator? id with
  | none => exact ⟨h, rfl, hs⟩
  | some c =>
    simp only [h.resolve?]
    have hmirrored : ∀ now, (s.relink id c.reads now).graph.Mirrored := fun now =>
      (hs.removeAll id c.reads).linkAll id now
    cases Sheet.resolve? s.graph id [] (env.references c.expression) with
    | none => exact ⟨(h.relink id c.reads []).setResult id _, rfl, hmirrored []⟩
    | some reads =>
      have hrelink := h.relink id c.reads reads
      simp only [hrelink.graph.reachesCycle]
      split
      · exact ⟨hrelink.setResult id _, rfl, hmirrored reads⟩
      · exact ⟨hrelink, rfl, hmirrored reads⟩

/-- A new evaluation comes to the same. -/
theorem reevaluate (h : s.Reordered s') (hs : s.graph.Mirrored) (id : NodeId) (c : Calculator)
    (print : String) :
    (Sheet.reevaluate env s id c print).1.Reordered (Sheet.reevaluate env s' id c print).1 ∧
      (Sheet.reevaluate env s' id c print).2 = (Sheet.reevaluate env s id c print).2 := by
  unfold Sheet.reevaluate
  simp only [h.gather]
  cases Sheet.gather s.graph .empty c.reads with
  | error kind => exact ⟨h.conclude hs id print _, rfl⟩
  | ok scope =>
    have hnoted := h.noteEvaluation c.expression scope
    dsimp only
    cases Sheet.evaluate env c.expression scope with
    | ok result => exact ⟨hnoted.conclude hs id print result, rfl⟩
    | error e => exact ⟨hnoted, rfl⟩

/-- The recalculation of a node comes to the same, whatever the order of the edges. -/
theorem recalculate (h : s.Reordered s') (hs : s.graph.Mirrored) (id : NodeId) :
    (Sheet.recalculate env s id).1.Reordered (Sheet.recalculate env s' id).1 ∧
      (Sheet.recalculate env s' id).2 = (Sheet.recalculate env s id).2 := by
  unfold Sheet.recalculate
  rw [h.calculator?]
  cases hc : s.calculator? id with
  | none => exact ⟨h, rfl⟩
  | some c =>
    simp only [h.graph.node?]
    split
    · exact ⟨h, rfl⟩
    obtain ⟨hupdate, hkind, hmirrored⟩ := h.updateDependencies env hs id
    generalize Sheet.updateDependencies env s id = updated at hupdate hkind hmirrored ⊢
    generalize Sheet.updateDependencies env s' id = updated' at hupdate hkind ⊢
    obtain ⟨s₁, unresolved⟩ := updated
    obtain ⟨s₁', unresolved'⟩ := updated'
    obtain rfl : unresolved' = unresolved := hkind
    simp only [hupdate.calculator?, hupdate.fingerprint] at hupdate hmirrored ⊢
    generalize (s₁.calculator? id).getD c = c'
    cases unresolved' with
    | some kind => exact ⟨hupdate.concludeUnresolved hmirrored id _ _ kind, rfl⟩
    | none =>
      cases c'.cached with
      | none => exact hupdate.reevaluate hmirrored id _ _
      | some entry =>
        dsimp only
        split
        · exact ⟨hupdate.modify id _, rfl⟩
        · exact hupdate.reevaluate hmirrored id _ _

/-! What is said of a sheet is said of a reordered one. -/

/-- A reordered sheet of a coherent one is coherent. -/
theorem coherent (h : s.Reordered s') (hs : s.Coherent) : s'.Coherent where
  keys := by rw [h.calculators, h.graph.nodes, hs.keys]
  nodup := by rw [h.graph.nodes]; exact hs.nodup
  shown id c hc := by
    rw [h.calculator?] at hc
    rw [h.graph.node?]
    exact hs.shown id c hc
  mirrored := h.graph.mirrored hs.mirrored
  edges a b := by
    rw [← (h.graph.dependencies a).mem_iff, h.graph.nodes, h.calculator?]
    exact hs.edges a b
  irreflexive id c hc := hs.irreflexive id c (h.calculator? id ▸ hc)
  distinct id c hc := hs.distinct id c (h.calculator? id ▸ hc)
  timers := by rw [h.timers]; exact hs.timers
  cached id c print result hc := hs.cached id c print result (h.calculator? id ▸ hc)
  published id c print kind hc := hs.published id c print kind (h.calculator? id ▸ hc)

/-- Each task that is queued is queued in the reordered sheet, in some order. -/
theorem mem_queue (h : s.Reordered s') {task : SheetTask} (htask : task ∈ s.agenda.queue) :
    ∃ task' ∈ s'.agenda.queue, task.Reordered task' := by
  obtain ⟨i, hi, rfl⟩ := List.getElem_of_mem htask
  have hi' : i < s'.agenda.queue.length := h.queue.length_eq ▸ hi
  exact ⟨s'.agenda.queue[i], List.getElem_mem hi', h.queue.get hi hi'⟩

/-- A node that waits in a sheet waits in the reordered one. -/
theorem waiting (h : s.Reordered s') (hk : s.Waiting k) : s'.Waiting k := by
  rcases hk with hqueue | htimer
  · obtain ⟨task, htask, hsame⟩ := h.mem_queue hqueue
    cases hsame
    exact .inl htask
  · exact .inr (h.timers ▸ htimer)

/-- A node that awaits its turn in a sheet awaits it in the reordered one. -/
theorem awaits (h : s.Reordered s') (hk : s.Awaits k) : s'.Awaits k := by
  rcases hk with hwaiting | ⟨ids, hqueue, hids⟩
  · exact .inl (h.waiting hwaiting)
  · obtain ⟨task, htask, hsame⟩ := h.mem_queue hqueue
    cases hsame with
    | follow hperm => exact .inr ⟨_, htask, hperm.mem_iff.1 hids⟩

/-! ### While several nodes are recalculated -/

/-- Recalculations one after another. -/
theorem recalculateEach (h : s.Reordered s') (hs : s.Coherent)
    (hnames : ∀ e, (env.references e).Nodup) (ids : List NodeId) :
    (s.recalculateEach env ids).Reordered (s'.recalculateEach env ids) := by
  induction ids generalizing s s' with
  | nil => exact h
  | cons id ids ih => exact ih (h.recalculate hs.mirrored id).1 (hs.recalculate hnames id)

end Reordered

/-- Some nodes are recalculated one after the other, and before each of them the edges may have got
another order. -/
inductive Shuffles (env : Environment) : Sheet → List NodeId → Sheet → Prop
  | nil {s s' : Sheet} (h : s.Reordered s') : Shuffles env s [] s'
  | cons {s s₁ s' : Sheet} {id : NodeId} {ids : List NodeId} (h : s.Reordered s₁)
      (hrest : Shuffles env (recalculate env s₁ id).1 ids s') : Shuffles env s (id :: ids) s'

/-- What gets another order while nodes are recalculated may as well get it afterwards. -/
theorem Shuffles.reordered {ids : List NodeId} (h : Shuffles env s ids s') (hs : s.Coherent)
    (hnames : ∀ e, (env.references e).Nodup) :
    ReflTransGen Reordered (s.recalculateEach env ids) s' := by
  induction h with
  | nil h => exact .single h
  | cons h _ ih =>
    exact .head (h.recalculateEach hs hnames _) (ih ((h.coherent hs).recalculate hnames _))

end Sheet

end LiveSheet
