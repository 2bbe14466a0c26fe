import LiveSheet.Proofs.Work
import LiveSheet.Workspace

/-!
# What operations do to a sheet

The sheets that an operation leaves before any node is recalculated: one with a new node, one in
which a node has another expression or header, and one without a node or without nodes. For each of
them it is said what other nodes notice of it. All of them are coherent.
-/

namespace LiveSheet.Sheet

variable {env : Environment} {s : Sheet} {id k : NodeId} {c : Calculator}

/-- The sheet without nodes is coherent. -/
theorem coherent_empty : Sheet.empty.Coherent := by
  refine ⟨rfl, List.nodup_nil, fun _ _ hc => (by cases hc), fun a b => ?_, fun a b => ?_,
    fun _ _ hc => (by cases hc), fun _ _ hc => (by cases hc), fun _ ht => (by cases ht),
    fun _ _ _ _ hc => (by cases hc), fun _ _ _ _ hc => (by cases hc)⟩
  · exact iff_of_false (fun ha => by cases ha) fun hb => by cases hb
  · refine iff_of_false (fun hb => by cases hb) ?_
    rintro ⟨c, hc, -⟩
    cases hc

/-! ### A new node -/

/-- The sheet with a node that has not been computed. -/
def withNode (s : Sheet) (id : NodeId) (header expression : String) (delay : Int) : Sheet :=
  (s.addCalculator id expression delay).register id (some header) true

section

variable (s) (id : NodeId) (header expression : String) (delay : Int)

/-- The calculators are those of before and a fresh one for the new node. -/
theorem calculator?_withNode (k : NodeId) :
    (s.withNode id header expression delay).calculator? k =
      if k = id then some { expression, delay } else s.calculator? k :=
  Table.get?_insert ..

/-- The records are those of before and one for the new node, with its header and its callback. -/
theorem node?_withNode (k : NodeId) : (s.withNode id header expression delay).graph.node? k =
    if k = id then some { header := some header, callback := some id } else s.graph.node? k :=
  Graph.node?_register ..

/-- No node reads anything else than before. -/
theorem dependenciesOf_withNode (a : NodeId) :
    (s.withNode id header expression delay).graph.dependenciesOf a = s.graph.dependenciesOf a :=
  Graph.dependenciesOf_register ..

variable {s id}

/-- A new node comes last in the graph. -/
theorem keys_withNode (hnew : id ∉ s.graph.nodes.keys) :
    (s.withNode id header expression delay).graph.nodes.keys = s.graph.nodes.keys ++ [id] :=
  (Table.keys_insert ..).trans (if_neg hnew)

/-- The calculator of a new node comes last. -/
theorem Coherent.calculatorKeys_withNode (h : s.Coherent) (hnew : id ∉ s.graph.nodes.keys) :
    (s.withNode id header expression delay).calculators.keys = s.calculators.keys ++ [id] :=
  (Table.keys_insert ..).trans (if_neg (h.keys ▸ hnew))

/-- A header that was held before keeps its holder; the new node only holds a free one. -/
theorem holder?_withNode (hnew : id ∉ s.graph.nodes.keys) (name : String) :
    (s.withNode id header expression delay).graph.holder? name =
      (s.graph.holder? name).or (if header = name then some id else none) := by
  refine (Graph.holder?_register s.graph _ hnew).trans ?_
  congr 1
  exact if_congr ⟨fun h => Option.some.inj h, fun h => congrArg some h⟩ rfl rfl

/-- A sheet with a new node is coherent, if no other node has read a node with its id. -/
theorem Coherent.withNode_of_not_read (h : s.Coherent) (hnew : id ∉ s.graph.nodes.keys)
    (hread : ∀ k c, s.calculator? k = some c → id ∉ c.reads) :
    (s.withNode id header expression delay).Coherent where
  keys := by
    rw [h.calculatorKeys_withNode header expression delay hnew, keys_withNode _ _ _ hnew, h.keys]
  nodup := by
    rw [keys_withNode _ _ _ hnew]
    exact List.nodup_append.2 ⟨h.nodup, List.nodup_singleton id, fun a ha b hb heq =>
      hnew (List.mem_singleton.1 hb ▸ heq ▸ ha)⟩
  shown k ck hck := by
    rw [calculator?_withNode] at hck
    rw [node?_withNode]
    split at hck
    · next heq =>
      obtain rfl := Option.some.inj hck
      rw [if_pos heq, heq]
      exact ⟨_, rfl, rfl, rfl⟩
    · next hne =>
      rw [if_neg hne]
      exact h.shown k ck hck
  mirrored := h.mirrored.register id _
  edges a b := by
    -- The new node reads nothing yet, and nothing has read it before.
    rw [dependenciesOf_withNode, calculator?_withNode, keys_withNode _ _ _ hnew, h.edges]
    by_cases ha : a = id
    · subst ha
      rw [if_pos rfl]
      constructor
      · rintro ⟨c, hc, -⟩
        exact absurd (h.registered hc) hnew
      · rintro ⟨c, hc, hb, -⟩
        obtain rfl := Option.some.inj hc
        cases hb
    · rw [if_neg ha]
      constructor
      · rintro ⟨c, hc, hb, hmem⟩
        exact ⟨c, hc, hb, List.mem_append_left _ hmem⟩
      · rintro ⟨c, hc, hb, hmem⟩
        refine ⟨c, hc, hb, (List.mem_append.1 hmem).resolve_right fun heq => ?_⟩
        exact hread a c hc (List.mem_singleton.1 heq ▸ hb)
  irreflexive k ck hck := by
    rw [calculator?_withNode] at hck
    split at hck
    · obtain rfl := Option.some.inj hck
      simp
    · exact h.irreflexive k ck hck
  distinct k ck hck := by
    rw [calculator?_withNode] at hck
    split at hck
    · obtain rfl := Option.some.inj hck
      exact List.nodup_nil
    · exact h.distinct k ck hck
  timers := h.timers
  cached k ck print result hck hcached := by
    rw [calculator?_withNode] at hck
    split at hck
    · obtain rfl := Option.some.inj hck
      cases hcached
    · exact h.cached k ck print result hck hcached
  published k ck print kind hck hpublished := by
    rw [calculator?_withNode] at hck
    split at hck
    · obtain rfl := Option.some.inj hck
      cases hpublished
    · exact h.published k ck print kind hck hpublished

/-- So it is, if no other node has lost a node that it read. -/
theorem Coherent.withNode (h : s.Coherent) (hnew : id ∉ s.graph.nodes.keys)
    (hregistered : ∀ k c, s.calculator? k = some c → ∀ a ∈ c.reads, a ∈ s.graph.nodes.keys) :
    (s.withNode id header expression delay).Coherent :=
  h.withNode_of_not_read header expression delay hnew fun k c hk hread =>
    hnew (hregistered k c hk id hread)

end

/-! ### Another expression -/

/-- Only the node itself gets the expression. -/
theorem calculator?_setExpression (s : Sheet) (id : NodeId) (expression : String) (k : NodeId) :
    (s.setExpression id expression).calculator? k =
      if k = id then (s.calculator? k).map fun c => { c with expression } else s.calculator? k :=
  calculator?_modify ..

/-- A calculator of another sheet with another expression at most. -/
theorem Coherent.setExpression (h : s.Coherent) (id : NodeId) (expression : String) :
    (s.setExpression id expression).Coherent := by
  -- Whatever a calculator has computed does not depend on its expression.
  have hsame : ∀ k c, (s.setExpression id expression).calculator? k = some c →
      ∃ c₀, s.calculator? k = some c₀ ∧ c.reads = c₀.reads ∧ c.result = c₀.result ∧
        c.cached = c₀.cached ∧ c.published = c₀.published := by
    intro k c hc
    rw [calculator?_setExpression] at hc
    split at hc
    · obtain ⟨c₀, hc₀, rfl⟩ := Option.map_eq_some_iff.1 hc
      exact ⟨c₀, hc₀, rfl, rfl, rfl, rfl⟩
    · exact ⟨c, hc, rfl, rfl, rfl, rfl⟩
  refine ⟨?_, h.nodup, fun k c hc => ?_, h.mirrored, fun a b => ?_, fun k c hc => ?_,
    fun k c hc => ?_, h.timers, fun k c print result hc hcached => ?_,
    fun k c print kind hc hpublished => ?_⟩
  · exact (calculatorKeys_modify s id _).trans h.keys
  · obtain ⟨c₀, hc₀, -, hresult, -⟩ := hsame k c hc
    rw [hresult]
    exact h.shown k c₀ hc₀
  · refine (h.edges a b).trans ?_
    constructor
    · rintro ⟨c, hc, hb⟩
      rw [calculator?_setExpression, hc]
      split
      · exact ⟨_, rfl, hb⟩
      · exact ⟨c, rfl, hb⟩
    · rintro ⟨c, hc, hb⟩
      obtain ⟨c₀, hc₀, hreads, -⟩ := hsame a c hc
      exact ⟨c₀, hc₀, hreads ▸ hb⟩
  · obtain ⟨c₀, hc₀, hreads, -⟩ := hsame k c hc
    rw [hreads]
    exact h.irreflexive k c₀ hc₀
  · obtain ⟨c₀, hc₀, hreads, -⟩ := hsame k c hc
    rw [hreads]
    exact h.distinct k c₀ hc₀
  · obtain ⟨c₀, hc₀, -, hresult, hsame, -⟩ := hsame k c hc
    rw [hresult]
    exact h.cached k c₀ print result hc₀ (hsame ▸ hcached)
  · obtain ⟨c₀, hc₀, -, hresult, hcached, hsame⟩ := hsame k c hc
    rw [hresult, hcached]
    exact h.published k c₀ print kind hc₀ (hsame ▸ hpublished)

/-- The sheet in which a node has another expression, and no edit of it waits. -/
def withExpression (s : Sheet) (id : NodeId) (expression : String) : Sheet :=
  { s with agenda := s.agenda.cancel id }.setExpression id expression

/-- The edited sheet is coherent before the node is recalculated. -/
theorem Coherent.withExpression (h : s.Coherent) (id : NodeId) (expression : String) :
    (s.withExpression id expression).Coherent :=
  (h.withAgenda fun t ht => h.timers t (List.mem_filter.1 ht).1).setExpression id expression

/-- The sheet in which an edit of a node waits for its time. -/
def withEdit (s : Sheet) (id : NodeId) (expression : String) : Sheet :=
  (s.setExpression id expression).debounce id

/-- An edit sets the expression and starts the delay of the node. -/
theorem withEdit_eq (hc : s.calculator? id = some c) (expression : String) :
    s.withEdit id expression =
      { s.setExpression id expression with
        agenda := s.agenda.debounce id c.delay (.recalculate id) } := by
  unfold withEdit debounce
  rw [calculator?_setExpression, if_pos rfl, hc]
  rfl

/-- The sheet with a pending edit is coherent. -/
theorem Coherent.withEdit (h : s.Coherent) (hc : s.calculator? id = some c) (expression : String) :
    (s.withEdit id expression).Coherent := by
  rw [withEdit_eq hc]
  refine (h.setExpression id expression).withAgenda fun t ht => ?_
  rcases List.mem_append.1 ht with ht | ht
  · exact h.timers t (List.mem_filter.1 ht).1
  · obtain rfl := List.mem_singleton.1 ht
    rfl

/-! ### Another header -/

/-- The sheet in which a node has another header. -/
def withHeader (s : Sheet) (id : NodeId) (header : Option String) : Sheet :=
  { s with graph := s.graph.update id [.header header] }

/-- Only the node itself gets the header. -/
theorem node?_withHeader (s : Sheet) (id : NodeId) (header : Option String) (k : NodeId) :
    (s.withHeader id header).graph.node? k =
      if k = id then (s.graph.node? k).map fun record => { record with header }
      else s.graph.node? k :=
  Graph.node?_update ..

/-- Renaming registers and removes nothing. -/
theorem keys_withHeader (s : Sheet) (id : NodeId) (header : Option String) :
    (s.withHeader id header).graph.nodes.keys = s.graph.nodes.keys :=
  Graph.keys_update ..

/-- The renamed sheet is coherent. -/
theorem Coherent.withHeader (h : s.Coherent) (id : NodeId) (header : Option String) :
    (s.withHeader id header).Coherent := by
  refine ⟨h.keys.trans (keys_withHeader ..).symm, (keys_withHeader ..).symm ▸ h.nodup,
    fun k c hc => ?_, h.mirrored, fun a b => ?_, h.irreflexive, h.distinct, h.timers, h.cached,
    h.published⟩
  · obtain ⟨record, hrecord, hresult, hcallback⟩ := h.shown k c hc
    rw [node?_withHeader, hrecord]
    split
    · exact ⟨_, rfl, hresult, hcallback⟩
    · exact ⟨record, rfl, hresult, hcallback⟩
  · rw [keys_withHeader]
    exact h.edges a b

/-! ### Without a node -/

/-- The sheet without a node. -/
def without (s : Sheet) (id : NodeId) : Sheet :=
  { s with
    agenda := s.agenda.cancel id
    graph := s.graph.unregister id
    calculators := s.calculators.erase id }

/-- The other nodes keep their calculators. -/
theorem calculator?_without (s : Sheet) (id k : NodeId) :
    (s.without id).calculator? k = if k = id then none else s.calculator? k :=
  Table.get?_erase ..

/-- The other nodes keep their records. -/
theorem node?_without (s : Sheet) (id k : NodeId) :
    (s.without id).graph.node? k = if k = id then none else s.graph.node? k :=
  Graph.node?_unregister ..

/-- The other nodes are the ones left. -/
theorem mem_keys_without :
    k ∈ (s.without id).graph.nodes.keys ↔ k ∈ s.graph.nodes.keys ∧ k ≠ id := by
  rw [show (s.without id).graph.nodes.keys = s.graph.nodes.keys.filter (· ≠ id) from
    Graph.keys_unregister ..]
  simp

/-- The edges left are those between other nodes. -/
theorem Coherent.reads_without (h : s.Coherent) (id a b : NodeId) :
    (s.without id).graph.Reads a b ↔ s.graph.Reads a b ∧ a ≠ id ∧ b ≠ id :=
  Graph.mem_dependenciesOf_unregister h.mirrored

/-- A sheet stays coherent when a node is removed. -/
theorem Coherent.without (h : s.Coherent) (id : NodeId) : (s.without id).Coherent where
  keys := (Table.keys_erase ..).trans (h.keys ▸ (Graph.keys_unregister ..).symm)
  nodup := (Graph.keys_unregister s.graph id).symm ▸ h.nodup.filter _
  shown k c hc := by
    rw [calculator?_without] at hc
    rw [node?_without]
    split at hc
    · cases hc
    · next hne =>
      rw [if_neg hne]
      exact h.shown k c hc
  mirrored := h.mirrored.unregister id
  edges a b := by
    refine (h.reads_without id a b).trans ?_
    -- Who read the removed node still has it among its reads, but there is no edge for that.
    rw [calculator?_without, mem_keys_without]
    by_cases ha : a = id
    · simp [ha]
    · rw [if_neg ha]
      have hedges : s.graph.Reads a b ↔ _ := h.edges a b
      rw [hedges]
      constructor
      · rintro ⟨⟨c, hc, hb, hmem⟩, -, hne⟩
        exact ⟨c, hc, hb, hmem, hne⟩
      · rintro ⟨c, hc, hb, hmem, hne⟩
        exact ⟨⟨c, hc, hb, hmem⟩, ha, hne⟩
  irreflexive k c hc := by
    rw [calculator?_without] at hc
    split at hc
    · cases hc
    · exact h.irreflexive k c hc
  distinct k c hc := by
    rw [calculator?_without] at hc
    split at hc
    · cases hc
    · exact h.distinct k c hc
  timers t ht := h.timers t (List.mem_filter.1 ht).1
  cached k c print result hc hcached := by
    rw [calculator?_without] at hc
    split at hc
    · cases hc
    · exact h.cached k c print result hc hcached
  published k c print kind hc hpublished := by
    rw [calculator?_without] at hc
    split at hc
    · cases hc
    · exact h.published k c print kind hc hpublished

/-! ### Without nodes -/

/-- The sheet without nodes, in which the tasks in the queue are left. -/
def cleared (s : Sheet) : Sheet :=
  { s with
    agenda := s.agenda.cancelAll
    graph := s.calculators.keys.foldl (·.unregister ·) s.graph
    calculators := .empty }

/-- Removing several nodes leaves the rest in its order. -/
theorem keys_unregisterAll (g : Graph NodeId) (ids : List NodeId) :
    (ids.foldl (·.unregister ·) g).nodes.keys = g.nodes.keys.filter (· ∉ ids) := by
  induction ids generalizing g with
  | nil => simp
  | cons id ids ih =>
    rw [List.foldl_cons, ih, Graph.keys_unregister, List.filter_filter]
    refine List.filter_congr fun k _ => ?_
    simp only [List.mem_cons, not_or, Bool.decide_and]
    rw [Bool.and_comm]

/-- What is left of the edges of a graph without some of its nodes. -/
theorem unregisterAll_spec {g : Graph NodeId} (hmirrored : g.Mirrored) (ids : List NodeId) :
    (ids.foldl (·.unregister ·) g).Mirrored ∧
      ∀ a b, b ∈ (ids.foldl (·.unregister ·) g).dependenciesOf a ↔
        b ∈ g.dependenciesOf a ∧ a ∉ ids ∧ b ∉ ids := by
  induction ids generalizing g with
  | nil => exact ⟨hmirrored, by simp⟩
  | cons id ids ih =>
    obtain ⟨hmirrored', hedges⟩ := ih (hmirrored.unregister id)
    refine ⟨hmirrored', fun a b => ?_⟩
    rw [List.foldl_cons, hedges, Graph.mem_dependenciesOf_unregister hmirrored]
    simp only [List.mem_cons, not_or]
    tauto

/-- Removing all nodes leaves none, if the calculators are of the nodes that are there. -/
theorem keys_cleared (hkeys : s.calculators.keys = s.graph.nodes.keys) :
    s.cleared.graph.nodes.keys = [] := by
  refine (keys_unregisterAll s.graph s.calculators.keys).trans ?_
  rw [hkeys]
  simp

/-- The cleared graph has no nodes, no edges and nothing amiss between its two directions. -/
theorem Coherent.cleared_spec (h : s.Coherent) :
    s.cleared.graph.nodes.keys = [] ∧ s.cleared.graph.Mirrored ∧
      ∀ a, s.cleared.graph.dependenciesOf a = [] := by
  obtain ⟨hmirrored, hedges⟩ := unregisterAll_spec h.mirrored s.calculators.keys
  refine ⟨keys_cleared h.keys, hmirrored, fun a => ?_⟩
  refine List.eq_nil_iff_forall_not_mem.2 fun b hb => ?_
  obtain ⟨hedge, hnot, -⟩ := (hedges a b).1 hb
  obtain ⟨c, hc, -⟩ := (h.edges a b).1 hedge
  exact hnot (h.keys ▸ h.registered hc)

/-- The cleared sheet is coherent. -/
theorem Coherent.cleared (h : s.Coherent) : s.cleared.Coherent := by
  obtain ⟨hkeys, hmirrored, hedges⟩ := h.cleared_spec
  refine ⟨hkeys.symm, hkeys ▸ List.nodup_nil, fun _ _ hc => (by cases hc), hmirrored,
    fun a b => ?_, fun _ _ hc => (by cases hc), fun _ _ hc => (by cases hc),
    fun _ ht => (by cases ht), fun _ _ _ _ hc => (by cases hc), fun _ _ _ _ hc => (by cases hc)⟩
  rw [hedges]
  constructor
  · intro hb
    cases hb
  · rintro ⟨c, hc, -⟩
    cases hc

end LiveSheet.Sheet
