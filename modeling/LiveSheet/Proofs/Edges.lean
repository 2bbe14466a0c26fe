import LiveSheet.Graph.Propagation
import LiveSheet.Proofs.Search

/-!
# Edges of a graph

What the operations of a graph do to its records and to its edges, as far as another operation can
tell: which record a node has, and which nodes a node depends on. The two tables of edges hold the
same edges (`Mirrored`), which every operation keeps, so all that is said about edges is said about
the dependencies of a node.

On mirrored edges the nodes that follow a change are those that depend on it, directly or through
others (`mem_propagationOrder`).
-/

namespace LiveSheet

open Relation Search

/-! ### Tables of edges -/

section

variable {edges : Table NodeId (List NodeId)} {x y id key : NodeId}

/-- An insertion changes the successors of its key. -/
theorem successors_insertAt (edges : Table NodeId (List NodeId)) (key id x : NodeId) :
    successors (Graph.insertAt edges key id) x =
      if x = key then NodeId.insert id (successors edges x) else successors edges x := by
  unfold Graph.insertAt
  rw [successors, Table.get?_insert]
  by_cases h : x = key
  · subst h
    rw [if_pos rfl, if_pos rfl, Option.getD_some]
  · rw [if_neg h, if_neg h, successors]

/-- The successors after an insertion are the new one and those from before. -/
theorem mem_successors_insertAt : y ∈ successors (Graph.insertAt edges key id) x ↔
    (x = key ∧ y = id) ∨ y ∈ successors edges x := by
  rw [successors_insertAt]
  by_cases h : x = key
  · simp [h, NodeId.mem_insert]
  · simp [h]

/-- A removal of an edge changes the successors of its key. -/
theorem successors_modify_erase (edges : Table NodeId (List NodeId)) (key id x : NodeId) :
    successors (edges.modify key (NodeId.erase id)) x =
      if x = key then NodeId.erase id (successors edges x) else successors edges x := by
  rw [successors, Table.get?_modify, successors]
  by_cases h : x = key
  · rw [if_pos h, if_pos h]
    cases edges.get? x <;> rfl
  · rw [if_neg h, if_neg h]

/-- The successors after a removal are those from before without the one. -/
theorem mem_successors_modify_erase : y ∈ successors (edges.modify key (NodeId.erase id)) x ↔
    y ∈ successors edges x ∧ ¬ (x = key ∧ y = id) := by
  rw [successors_modify_erase]
  by_cases h : x = key
  · simp [h, NodeId.mem_erase]
  · simp [h]

/-- An empty list of edges is as good as none. -/
theorem successors_insertIfNew_nil :
    successors (edges.insertIfNew id []) x = successors edges x := by
  unfold Table.insertIfNew Table.contains
  cases h : edges.get? id with
  | none =>
    rw [if_neg (by simp), successors, Table.get?_insert, successors]
    by_cases hx : x = id
    · simp [hx, h]
    · simp [hx]
  | some ids => rw [if_pos (by simp)]

/-- Without its key a node has no successors. -/
theorem mem_successors_erase :
    y ∈ successors (edges.erase id) x ↔ y ∈ successors edges x ∧ x ≠ id := by
  rw [successors, Table.get?_erase, successors]
  by_cases h : x = id
  · simp [h]
  · simp [h]

/-- The successors after a removal from several lists are those from before without the one in
each. -/
theorem mem_successors_eraseFrom {keys : List NodeId} :
    y ∈ successors (Graph.eraseFrom edges id keys) x ↔
      y ∈ successors edges x ∧ ¬ (x ∈ keys ∧ y = id) := by
  unfold Graph.eraseFrom
  induction keys generalizing edges with
  | nil => simp
  | cons key keys ih =>
    rw [List.foldl_cons, ih, mem_successors_modify_erase, List.mem_cons]
    tauto

end

namespace Graph

variable {γ : Type} {g : Graph γ} {a b id : NodeId}

/-- One step from a node to one that it depends on. -/
abbrev Reads (g : Graph γ) (a b : NodeId) : Prop :=
  Edge g.dependenciesOf a b

/-- Whether a node leads to a cycle of dependencies. -/
abbrev LeadsToCycle (g : Graph γ) (a : NodeId) : Prop :=
  Search.LeadsToCycle g.dependenciesOf a

/-- The cycles are in the edges. -/
theorem leadsToCycle_congr {g' : Graph γ} (h : g'.Reads = g.Reads) (a : NodeId) :
    g'.LeadsToCycle a ↔ g.LeadsToCycle a := by
  unfold LeadsToCycle Search.LeadsToCycle
  rw [show Edge g'.dependenciesOf = Edge g.dependenciesOf from h]

/-- Whether the two tables hold the same edges. -/
def Mirrored (g : Graph γ) : Prop :=
  ∀ a b, a ∈ g.dependentsOf b ↔ b ∈ g.dependenciesOf a

/-- A cycle is found exactly where one can be reached. -/
theorem reachesCycle_eq_true_iff (g : Graph γ) (a : NodeId) :
    g.reachesCycle a = true ↔ g.LeadsToCycle a :=
  Search.reachesCycle_iff g.dependencies a

/-! ### Records -/

/-- An update changes one record. -/
theorem node?_update (g : Graph γ) (id a : NodeId) (changes : List (Change γ)) :
    (g.update id changes).node? a =
      if a = id then (g.node? a).map (·.applyAll changes) else g.node? a :=
  Table.get?_modify ..

/-- An update changes no keys. -/
theorem keys_update (g : Graph γ) (id : NodeId) (changes : List (Change γ)) :
    (g.update id changes).nodes.keys = g.nodes.keys :=
  Table.keys_modify ..

/-- A registration makes one new record. -/
theorem node?_register (g : Graph γ) (id a : NodeId) (changes : List (Change γ)) :
    (g.register id changes).node? a =
      if a = id then some (NodeRecord.applyAll {} changes) else g.node? a :=
  Table.get?_insert ..

/-- And the end of one takes its record away. -/
theorem node?_unregister (g : Graph γ) (id a : NodeId) :
    (g.unregister id).node? a = if a = id then none else g.node? a :=
  Table.get?_erase ..

/-- The keys that are left are the others. -/
theorem keys_unregister (g : Graph γ) (id : NodeId) :
    (g.unregister id).nodes.keys = g.nodes.keys.filter (· ≠ id) :=
  Table.keys_erase ..

/-- The nodes with records are the keys. -/
theorem isSome_node?_iff (g : Graph γ) (a : NodeId) :
    (g.node? a).isSome = true ↔ a ∈ g.nodes.keys :=
  Table.contains_iff_mem_keys g.nodes a

/-! ### Dependencies after each operation -/

/-- The dependencies after a link are the new one and those from before. -/
theorem mem_dependenciesOf_link {dependent dependency : NodeId} :
    b ∈ (g.link dependent dependency).dependenciesOf a ↔
      (a = dependent ∧ b = dependency) ∨ b ∈ g.dependenciesOf a :=
  mem_successors_insertAt

/-- The dependencies after the end of a link are those from before without the one. -/
theorem mem_dependenciesOf_removeDependency {dependent dependency : NodeId} :
    b ∈ (g.removeDependency dependent dependency).dependenciesOf a ↔
      b ∈ g.dependenciesOf a ∧ ¬ (a = dependent ∧ b = dependency) :=
  mem_successors_modify_erase

/-- A registration changes no dependencies. -/
theorem dependenciesOf_register (g : Graph γ) (id a : NodeId) (changes : List (Change γ)) :
    (g.register id changes).dependenciesOf a = g.dependenciesOf a :=
  successors_insertIfNew_nil

/-- A node that is unregistered takes with it its edges in both directions. -/
theorem mem_dependenciesOf_unregister (h : g.Mirrored) :
    b ∈ (g.unregister id).dependenciesOf a ↔ b ∈ g.dependenciesOf a ∧ a ≠ id ∧ b ≠ id := by
  have hmirror : a ∈ g.dependentsOf id ↔ id ∈ g.dependenciesOf a := h a id
  have hunregister : b ∈ (g.unregister id).dependenciesOf a ↔
      (b ∈ g.dependenciesOf a ∧ ¬ (a ∈ g.dependentsOf id ∧ b = id)) ∧ a ≠ id :=
    mem_successors_erase.trans (and_congr_left' mem_successors_eraseFrom)
  rw [hunregister]
  constructor
  · rintro ⟨⟨hb, hnot⟩, ha⟩
    refine ⟨hb, ha, ?_⟩
    rintro rfl
    exact hnot ⟨hmirror.2 hb, rfl⟩
  · rintro ⟨hb, ha, hne⟩
    exact ⟨⟨hb, fun hnot => hne hnot.2⟩, ha⟩

/-! ### Both tables hold the same edges -/

/-- A link is made on both sides. -/
theorem Mirrored.link (h : g.Mirrored) (dependent dependency : NodeId) :
    (g.link dependent dependency).Mirrored := by
  intro a b
  have hdependents : a ∈ (g.link dependent dependency).dependentsOf b ↔
      (b = dependency ∧ a = dependent) ∨ a ∈ g.dependentsOf b := mem_successors_insertAt
  rw [hdependents, mem_dependenciesOf_link, h a b, and_comm]

/-- And it is taken away from both. -/
theorem Mirrored.removeDependency (h : g.Mirrored) (dependent dependency : NodeId) :
    (g.removeDependency dependent dependency).Mirrored := by
  intro a b
  have hdependents : a ∈ (g.removeDependency dependent dependency).dependentsOf b ↔
      a ∈ g.dependentsOf b ∧ ¬ (b = dependency ∧ a = dependent) := mem_successors_modify_erase
  rw [hdependents, mem_dependenciesOf_removeDependency, h a b, and_comm (a := b = dependency)]

/-- A registration keeps both sides in agreement. -/
theorem Mirrored.register (h : g.Mirrored) (id : NodeId) (changes : List (Change γ)) :
    (g.register id changes).Mirrored := by
  intro a b
  have hdependents : (g.register id changes).dependentsOf b = g.dependentsOf b :=
    successors_insertIfNew_nil
  rw [hdependents, dependenciesOf_register]
  exact h a b

/-- And so does the end of one. -/
theorem Mirrored.unregister (h : g.Mirrored) (id : NodeId) : (g.unregister id).Mirrored := by
  intro a b
  have hdependents : a ∈ (g.unregister id).dependentsOf b ↔
      (a ∈ g.dependentsOf b ∧ ¬ (b ∈ g.dependenciesOf id ∧ a = id)) ∧ b ≠ id :=
    mem_successors_erase.trans (and_congr_left' mem_successors_eraseFrom)
  rw [hdependents, mem_dependenciesOf_unregister h, h a b]
  constructor
  · rintro ⟨⟨hb, hnot⟩, hne⟩
    refine ⟨hb, ?_, hne⟩
    rintro rfl
    exact hnot ⟨hb, rfl⟩
  · rintro ⟨hb, ha, hne⟩
    exact ⟨⟨hb, fun hnot => ha hnot.2⟩, hne⟩

/-! ### Several edges of one node -/

/-- Removing edges of a node one after the other. -/
theorem mem_dependenciesOf_removeAll (before : List NodeId) :
    b ∈ (before.foldl (·.removeDependency id ·) g).dependenciesOf a ↔
      b ∈ g.dependenciesOf a ∧ ¬ (a = id ∧ b ∈ before) := by
  induction before generalizing g with
  | nil => simp
  | cons x before ih =>
    rw [List.foldl_cons, ih, mem_dependenciesOf_removeDependency, List.mem_cons]
    tauto

/-- The same for the end of several links. -/
theorem Mirrored.removeAll (h : g.Mirrored) (id : NodeId) (before : List NodeId) :
    (before.foldl (·.removeDependency id ·) g).Mirrored := by
  induction before generalizing g with
  | nil => exact h
  | cons x before ih => exact ih (h.removeDependency id x)

/-- No record changes with them. -/
theorem nodes_removeAll (g : Graph γ) (id : NodeId) (before : List NodeId) :
    (before.foldl (·.removeDependency id ·) g).nodes = g.nodes := by
  induction before generalizing g with
  | nil => rfl
  | cons x before ih => exact ih (g.removeDependency id x)

/-- Adding edges of a node one after the other. -/
theorem mem_dependenciesOf_linkAll (now : List NodeId) :
    b ∈ (now.foldl (·.link id ·) g).dependenciesOf a ↔
      (a = id ∧ b ∈ now) ∨ b ∈ g.dependenciesOf a := by
  induction now generalizing g with
  | nil => simp
  | cons x now ih =>
    rw [List.foldl_cons, ih, mem_dependenciesOf_link, List.mem_cons]
    tauto

/-- The same for several links. -/
theorem Mirrored.linkAll (h : g.Mirrored) (id : NodeId) (now : List NodeId) :
    (now.foldl (·.link id ·) g).Mirrored := by
  induction now generalizing g with
  | nil => exact h
  | cons x now ih => exact ih (h.link id x)

/-- No record changes with these either. -/
theorem nodes_linkAll (g : Graph γ) (id : NodeId) (now : List NodeId) :
    (now.foldl (·.link id ·) g).nodes = g.nodes := by
  induction now generalizing g with
  | nil => rfl
  | cons x now ih => exact ih (g.link id x)

/-! ### What follows a change -/

/-- Along dependents a node leads to those that depend on it. -/
theorem reflTransGen_dependentsOf_iff (h : g.Mirrored) :
    ReflTransGen (Edge g.dependentsOf) a b ↔ ReflTransGen g.Reads b a := by
  have hswap : Edge g.dependentsOf = Function.swap g.Reads := by
    funext x y
    exact propext (h y x)
  rw [hswap, reflTransGen_swap]

/-- The closure of a node holds what depends on it, without the node itself. -/
theorem mem_closure (h : g.Mirrored) : a ∈ g.closure id ↔ a ≠ id ∧ TransGen g.Reads a id := by
  have horder : a ∈ finishOrder g.dependents [id] ↔ ReflTransGen g.Reads a id := by
    rw [mem_finishOrder, ← reflTransGen_dependentsOf_iff h]
    simp only [List.mem_singleton, exists_eq_left]
    exact Iff.rfl
  unfold closure
  rw [NodeId.mem_ascending, List.mem_filter, horder]
  simp only [decide_eq_true_eq]
  constructor
  · rintro ⟨hreach, hne⟩
    rcases reflTransGen_iff_eq_or_transGen.1 hreach with heq | htrans
    · exact absurd heq.symm hne
    · exact ⟨hne, htrans⟩
  · rintro ⟨hne, htrans⟩
    exact ⟨htrans.to_reflTransGen, hne⟩

/-- The nodes that follow a change are those of the closure. -/
theorem mem_propagationOrder (h : g.Mirrored) :
    a ∈ g.propagationOrder id ↔ a ≠ id ∧ TransGen g.Reads a id := by
  rw [← mem_closure h]
  unfold propagationOrder
  simp only [List.mem_append, List.mem_filter, decide_eq_true_eq]
  tauto

/-- If every node is called by its own id, those that are called after a change are the registered
ones among those that follow it. -/
theorem mem_wave_callbacks {g : Graph NodeId} (h : g.Mirrored)
    (hcallback : ∀ a record, g.node? a = some record → record.callback = some a) :
    a ∈ (g.wave id).callbacks ↔ a ∈ g.nodes.keys ∧ a ≠ id ∧ TransGen g.Reads a id := by
  unfold wave
  simp only [List.mem_filterMap, mem_propagationOrder h]
  constructor
  · rintro ⟨follower, hfollower, hbind⟩
    obtain ⟨record, hrecord, hcall⟩ := Option.bind_eq_some_iff.1 hbind
    obtain rfl : follower = a := by simpa [hcallback follower record hrecord] using hcall
    exact ⟨(isSome_node?_iff g follower).1 (by simp [hrecord]), hfollower⟩
  · rintro ⟨hkey, hfollows⟩
    obtain ⟨record, hrecord⟩ := Option.isSome_iff_exists.1 ((isSome_node?_iff g a).2 hkey)
    exact ⟨a, hfollows, by simp [hrecord, hcallback a record hrecord]⟩

end Graph

end LiveSheet
