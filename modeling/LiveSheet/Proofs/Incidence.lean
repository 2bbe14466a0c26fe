import LiveSheet.Proofs.Edges

/-!
# The edges of a graph in use

A graph that nothing but its own operations has touched holds its edges in both tables, whatever the
ids are: nodes may be registered twice or never, and edges may be added again, removed when they are
not there, or join nodes that are long gone.

The edges that a list of operations leaves can be told without a graph (`edgesAfter`). That is what
both tables hold (`holds_performAll`), and so all that is said about one of them holds of the other.
-/

namespace LiveSheet

namespace Graph

/-- What can be asked of a graph. -/
inductive Operation (γ : Type) where
  | register (id : NodeId) (changes : List (Change γ))
  | unregister (id : NodeId)
  | update (id : NodeId) (changes : List (Change γ))
  | addDependency (dependent dependency : NodeId)
  | removeDependency (dependent dependency : NodeId)

variable {γ : Type} {g : Graph γ} {edges : NodeId → NodeId → Prop} {a b id : NodeId}

/-- The graph after an operation. What is refused leaves it as it was. -/
def perform (g : Graph γ) : Operation γ → Graph γ
  | .register id changes => g.register id changes
  | .unregister id => g.unregister id
  | .update id changes => g.update id changes
  | .addDependency dependent dependency =>
    match g.addDependency dependent dependency with
    | .ok g => g
    | .error _ => g
  | .removeDependency dependent dependency => g.removeDependency dependent dependency

/-- A new dependency is linked, unless a node would depend on itself. -/
theorem perform_addDependency (g : Graph γ) (dependent dependency : NodeId) :
    g.perform (.addDependency dependent dependency) =
      if dependent = dependency then g else g.link dependent dependency := by
  simp only [perform, addDependency]
  by_cases hself : dependent = dependency
  · rw [if_pos hself, if_pos hself]
  · rw [if_neg hself, if_neg hself]

/-- The graph after some operations. -/
def performAll (g : Graph γ) (operations : List (Operation γ)) : Graph γ :=
  operations.foldl perform g

/-- The edges after an operation, where `edges a b` says that `a` depends on `b`. -/
def Operation.edgesAfter (edges : NodeId → NodeId → Prop) :
    Operation γ → NodeId → NodeId → Prop
  | .register _ _ => edges
  | .unregister id => fun a b => edges a b ∧ a ≠ id ∧ b ≠ id
  | .update _ _ => edges
  | .addDependency dependent dependency =>
    fun a b => (a = dependent ∧ b = dependency ∧ a ≠ b) ∨ edges a b
  | .removeDependency dependent dependency =>
    fun a b => edges a b ∧ ¬ (a = dependent ∧ b = dependency)

/-- The edges after some operations, from none. -/
def edgesAfter (operations : List (Operation γ)) : NodeId → NodeId → Prop :=
  operations.foldl Operation.edgesAfter fun _ _ => False

/-- Whether both tables hold exactly these edges. -/
structure Holds (g : Graph γ) (edges : NodeId → NodeId → Prop) : Prop where
  dependencies : ∀ a b, b ∈ g.dependenciesOf a ↔ edges a b
  dependents : ∀ a b, a ∈ g.dependentsOf b ↔ edges a b

/-- A graph that holds some edges holds them on both sides. -/
theorem Holds.mirrored (h : g.Holds edges) : g.Mirrored :=
  fun a b => (h.dependents a b).trans (h.dependencies a b).symm

/-- In mirrored tables it is enough to look at one of them. -/
theorem Mirrored.holds (h : g.Mirrored) (hedges : ∀ a b, b ∈ g.dependenciesOf a ↔ edges a b) :
    g.Holds edges :=
  ⟨hedges, fun a b => (h a b).trans (hedges a b)⟩

/-- The empty graph holds no edges. -/
theorem holds_empty : (empty : Graph γ).Holds fun _ _ => False :=
  ⟨fun a b => by simp [dependenciesOf, Search.successors, empty, Table.get?, Table.empty],
    fun a b => by simp [dependentsOf, Search.successors, empty, Table.get?, Table.empty]⟩

/-! ### What one operation does to the edges -/

/-- What an operation does to the tables is what it does to the edges. -/
theorem Holds.perform (h : g.Holds edges) (operation : Operation γ) :
    (g.perform operation).Holds (operation.edgesAfter edges) := by
  cases operation with
  | register id changes =>
    refine (h.mirrored.register id changes).holds fun a b => ?_
    rw [dependenciesOf_register]
    exact h.dependencies a b
  | unregister id =>
    refine (h.mirrored.unregister id).holds fun a b => ?_
    rw [mem_dependenciesOf_unregister h.mirrored, h.dependencies a b]
    rfl
  | update id changes => exact ⟨h.dependencies, h.dependents⟩
  | addDependency dependent dependency =>
    rw [perform_addDependency]
    by_cases hself : dependent = dependency
    · -- The graph stays as it was, and no edge is added that joins two nodes.
      rw [if_pos hself]
      refine h.mirrored.holds fun a b => (h.dependencies a b).trans (or_iff_right ?_).symm
      rintro ⟨rfl, rfl, hne⟩
      exact hne hself
    · rw [if_neg hself]
      refine (h.mirrored.link dependent dependency).holds fun a b => ?_
      rw [mem_dependenciesOf_link, h.dependencies a b]
      refine or_congr_left ⟨?_, fun hadded => ⟨hadded.1, hadded.2.1⟩⟩
      rintro ⟨rfl, rfl⟩
      exact ⟨rfl, rfl, hself⟩
  | removeDependency dependent dependency =>
    refine (h.mirrored.removeDependency dependent dependency).holds fun a b => ?_
    rw [mem_dependenciesOf_removeDependency, h.dependencies a b]
    rfl

/-- No operation makes a node depend on itself. -/
theorem Operation.irreflexive_edgesAfter (operation : Operation γ) (h : ∀ a, ¬ edges a a) (a) :
    ¬ operation.edgesAfter edges a a := by
  cases operation with
  | register id changes => exact h a
  | unregister id => exact fun hedge => h a hedge.1
  | update id changes => exact h a
  | addDependency dependent dependency =>
    rintro (⟨-, -, hne⟩ | hedge)
    · exact hne rfl
    · exact h a hedge
  | removeDependency dependent dependency => exact fun hedge => h a hedge.1

/-! ### What all operations leave -/

/-- After all operations it holds the edges that they leave. -/
theorem Holds.performAll (h : g.Holds edges) (operations : List (Operation γ)) :
    (g.performAll operations).Holds (operations.foldl Operation.edgesAfter edges) := by
  induction operations generalizing g edges with
  | nil => exact h
  | cons operation rest ih => exact ih (h.perform operation)

/-- The tables hold the edges that have been added, and neither removed since nor lost with an
end. -/
theorem holds_performAll (operations : List (Operation γ)) :
    (empty.performAll operations).Holds (edgesAfter operations) :=
  holds_empty.performAll operations

/-- None of these leads from a node to itself. -/
theorem irreflexive_edgesAfter (operations : List (Operation γ)) (a : NodeId) :
    ¬ edgesAfter operations a a := by
  -- The induction is on the operations that are left, so the edges at hand are any.
  have hrun (edges : NodeId → NodeId → Prop) (h : ∀ a, ¬ edges a a) :
      ¬ operations.foldl Operation.edgesAfter edges a a := by
    induction operations generalizing edges with
    | nil => exact h a
    | cons operation rest ih => exact ih _ (operation.irreflexive_edgesAfter h)
  exact hrun _ fun _ => id

/-- What holds of the edges of a graph at all times, and what a next operation does to them. -/
structure KeepsEdges (g : Graph γ) : Prop where
  /-- Both tables hold the same edges. -/
  mirrored : ∀ a b, a ∈ g.dependentsOf b ↔ b ∈ g.dependenciesOf a
  /-- No node depends on itself. -/
  irreflexive : ∀ a, a ∉ g.dependenciesOf a ∧ a ∉ g.dependentsOf a
  /-- An edge from a node to itself is refused, and the graph stays as it was. -/
  refused : ∀ id, g.addDependency id id = .error (.selfDependency id) ∧
    g.perform (.addDependency id id) = g
  /-- Registering a node, also once more, changes no edge. -/
  register : ∀ id changes a, (g.register id changes).dependenciesOf a = g.dependenciesOf a ∧
    (g.register id changes).dependentsOf a = g.dependentsOf a
  /-- Changing a record changes no edge. -/
  update : ∀ id changes a, (g.update id changes).dependenciesOf a = g.dependenciesOf a ∧
    (g.update id changes).dependentsOf a = g.dependentsOf a
  /-- Unregistering a node leaves the edges that do not touch it, and no others. -/
  unregister : ∀ id a b,
    (b ∈ (g.unregister id).dependenciesOf a ↔ b ∈ g.dependenciesOf a ∧ a ≠ id ∧ b ≠ id) ∧
      (a ∈ (g.unregister id).dependentsOf b ↔ a ∈ g.dependentsOf b ∧ a ≠ id ∧ b ≠ id)

/-- Whatever a graph has been used for, its two tables hold the same edges, and these are the ones
that were added to it, without those that were removed since or lost with one of their ends. -/
theorem keepsEdges_performAll (operations : List (Operation γ)) :
    (empty.performAll operations).KeepsEdges ∧
      ∀ a b, b ∈ (empty.performAll operations).dependenciesOf a ↔ edgesAfter operations a b := by
  have hholds := holds_performAll operations
  have hmirrored := hholds.mirrored
  refine ⟨⟨hmirrored, fun a => ?_, fun id => ?_, fun id changes a => ⟨?_, ?_⟩,
    fun id changes a => ⟨rfl, rfl⟩, fun id a b => ⟨?_, ?_⟩⟩, hholds.dependencies⟩
  · rw [hholds.dependencies, hholds.dependents]
    exact ⟨irreflexive_edgesAfter operations a, irreflexive_edgesAfter operations a⟩
  · rw [perform_addDependency]
    exact ⟨if_pos rfl, if_pos rfl⟩
  · exact dependenciesOf_register ..
  · exact successors_insertIfNew_nil
  · exact mem_dependenciesOf_unregister hmirrored
  · -- Only the mirror says which lists of other nodes hold the id.
    rw [hmirrored.unregister id a b, mem_dependenciesOf_unregister hmirrored, hmirrored a b]

end Graph

end LiveSheet
