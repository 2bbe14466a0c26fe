import LiveSheet.Proofs.Trail

/-!
# Going through a graph step by step

The walk of `Search.visit` as a loop: a tour keeps the roots that it has not begun with and the path
to the node that it is at, each node with the successors that it has not looked at. What the
recursion does with a node is what the loop does from putting it on the path to taking it off
(`Tour.FollowsVisits`), so the loop ends with the order of the recursion
(`Tour.endsWith_finishOrder`).

On a graph with cycles too, that order holds what the registered nodes lead to, each once, and puts
a node after its dependencies, apart from those that depend on it themselves (`Graph.Arranges`). The
loop comes to such an order in whatever order it looks at the dependencies of each node.
-/

namespace LiveSheet.Search

open Relation

/-- A walk on its way: the roots it has not begun with, the node that it is at and the ones that led
there, each with the successors not looked at, and what it has entered and finished. -/
structure Tour (κ : Type) where
  roots : List κ
  path : List (κ × List κ)
  walk : Walk κ
deriving Repr, DecidableEq

namespace Tour

variable {κ : Type} {next : κ → List κ}

/-- The tour that begins with some roots. -/
def start (roots : List κ) : Tour κ :=
  ⟨roots, [], Walk.start⟩

variable [DecidableEq κ]

/-- One step of the tour: a successor that has not been entered is gone to, a node without further
successors is finished, and when the path is at its end the next root is begun with. -/
def step (next : κ → List κ) (t : Tour κ) : List κ ⊕ Tour κ :=
  match t.path with
  | [] =>
    match t.roots with
    | [] => .inl t.walk.finished.reverse
    | root :: roots =>
      if root ∈ t.walk.entered then .inr ⟨roots, [], t.walk⟩
      else .inr ⟨roots, [(root, next root)], t.walk.enter root⟩
  | (k, []) :: path => .inr ⟨t.roots, path, t.walk.finish k⟩
  | (k, child :: children) :: path =>
    if child ∈ t.walk.entered then .inr ⟨t.roots, (k, children) :: path, t.walk⟩
    else .inr ⟨t.roots, (child, next child) :: (k, children) :: path, t.walk.enter child⟩

/-! ### The loop does what the recursion does -/

/-- A node that has been entered is not visited again. -/
theorem visit_of_entered (depth : Nat) {w : Walk κ} {k : κ} (hk : k ∈ w.entered) :
    visit next depth w k = w := by
  cases depth with
  | zero => rfl
  | succ depth => rw [visit, if_pos hk]

/-- What was entered stays entered by a visit, however deep it may go. -/
theorem entered_visit (depth : Nat) (w : Walk κ) (k : κ) {x : κ} (hx : x ∈ w.entered) :
    x ∈ (visit next depth w k).entered := by
  induction depth generalizing w k with
  | zero => exact hx
  | succ depth ih =>
    by_cases hk : k ∈ w.entered
    · rwa [visit_of_entered _ hk]
    · rw [visit_of_fresh depth hk]
      have henter : x ∈ (w.enter k).entered := List.mem_cons_of_mem k hx
      exact List.foldlRecOn (motive := fun w => x ∈ w.entered) (next k) (visit next depth) henter
        fun w hw child _ => ih w child hw

/-- A visit leaves no more places to enter. -/
theorem fresh_visit_le (places : List κ) (depth : Nat) (w : Walk κ) (k : κ) :
    (visit next depth w k).fresh places ≤ w.fresh places :=
  Walk.fresh_le_of_subset places fun _ hx => entered_visit depth w k hx

/-- Whether the loop, from putting a node on the path to taking it off, does what a visit does that
may go so deep. -/
def FollowsVisits (next : κ → List κ) (places : List κ) (depth : Nat) : Prop :=
  ∀ roots path order w k, k ∉ w.entered → w.fresh places < depth →
    EndsWith (step next) ⟨roots, path, visit next depth w k⟩ order →
      EndsWith (step next) ⟨roots, (k, next k) :: path, w.enter k⟩ order

variable {places roots order : List κ} {path : List (κ × List κ)} {depth : Nat}

/-- The loop goes through the successors of a node one after the other, and then finishes it. -/
theorem FollowsVisits.foldl (hvisit : FollowsVisits next places depth) (k : κ) (children : List κ)
    (w : Walk κ) (hfresh : children ≠ [] → w.fresh places < depth)
    (hends : EndsWith (step next)
      ⟨roots, path, (children.foldl (visit next depth) w).finish k⟩ order) :
    EndsWith (step next) ⟨roots, (k, children) :: path, w⟩ order := by
  induction children generalizing w with
  | nil => exact endsWith_of_step rfl hends
  | cons child children ih =>
    have hlt := hfresh (List.cons_ne_nil _ _)
    have hrest : EndsWith (step next)
        ⟨roots, (k, children) :: path, visit next depth w child⟩ order :=
      ih _ (fun _ => (fresh_visit_le places depth w child).trans_lt hlt) hends
    by_cases hchild : child ∈ w.entered
    · rw [visit_of_entered depth hchild] at hrest
      exact endsWith_of_step (if_pos hchild) hrest
    · -- The path of the child's visit ends with the node itself, which goes on afterwards.
      exact endsWith_of_step (if_neg hchild) (hvisit _ _ _ w child hchild hlt hrest)

/-- The loop does what visits do that may go as deep as there are places left. -/
theorem followsVisits (hplaces : ∀ a b, b ∈ next a → a ∈ places) (depth : Nat) :
    FollowsVisits next places depth := by
  induction depth with
  | zero => exact fun _ _ _ _ _ _ hfresh => absurd hfresh (Nat.not_lt_zero _)
  | succ depth ih =>
    intro roots path order w k hk hfresh hends
    rw [visit_of_fresh depth hk] at hends
    refine ih.foldl k (next k) _ (fun hne => ?_) hends
    -- A node with successors is one of the places, so there is one less.
    obtain ⟨y, hy⟩ := List.exists_mem_of_ne_nil _ hne
    have := Walk.fresh_enter_lt (hplaces k y hy) hk
    omega

/-- The loop goes through the roots, each like a visit of its own. -/
theorem endsWith_of_roots (hplaces : ∀ a b, b ∈ next a → a ∈ places) (roots : List κ)
    (w : Walk κ) (hfresh : w.fresh places < depth) :
    EndsWith (step next) ⟨roots, [], w⟩ (roots.foldl (visit next depth) w).finished.reverse := by
  induction roots generalizing w with
  | nil => exact endsWith_of_stop rfl
  | cons root roots ih =>
    have hrest := ih (visit next depth w root)
      ((fresh_visit_le places depth w root).trans_lt hfresh)
    rw [List.foldl_cons]
    by_cases hroot : root ∈ w.entered
    · rw [visit_of_entered depth hroot] at hrest ⊢
      exact endsWith_of_step (if_pos hroot) hrest
    · exact endsWith_of_step (if_neg hroot)
        (followsVisits hplaces depth _ _ _ w root hroot hfresh hrest)

/-- The loop ends with the order in which the recursion finishes nodes. -/
theorem endsWith_finishOrder (edges : Table κ (List κ)) (roots : List κ) :
    EndsWith (step (successors edges)) (start roots) (finishOrder edges roots) := by
  have hplaces : ∀ a b, b ∈ successors edges a → a ∈ edges.keys ++ edges.values.flatten :=
    fun a b h => List.mem_append_left _ (mem_keys_of_mem_successors h)
  exact endsWith_of_roots hplaces roots Walk.start (Nat.lt_succ_of_le List.countP_le_length)

end Tour

/-- A table of the successors of some keys. -/
theorem successors_tabulate {κ : Type} [DecidableEq κ] (next : κ → List κ) (keys : List κ)
    (hkeys : ∀ a b, b ∈ next a → a ∈ keys) :
    successors ⟨keys.map fun k => (k, next k)⟩ = next := by
  funext a
  unfold successors Table.get?
  by_cases ha : a ∈ keys
  · rw [List.lookup_graph next ha, Option.getD_some]
  · have hnone : next a = [] := List.eq_nil_iff_forall_not_mem.2 fun b hb => ha (hkeys a b hb)
    have hlookup : (keys.map fun k => (k, next k)).lookup a = none := by
      rw [List.lookup_eq_none_iff]
      simp only [List.forall_mem_map, bne_iff_ne]
      rintro k hk rfl
      exact ha hk
    rw [hlookup, hnone, Option.getD_none]

end LiveSheet.Search

namespace LiveSheet.Graph

open Relation Search

variable {γ : Type}

/-- Whether ids are those of the registered nodes and of all that they depend on, each once, and a
node comes after its dependencies, apart from those that depend on it themselves. -/
structure Arranges (g : Graph γ) (ids : List NodeId) : Prop where
  nodup : ids.Nodup
  mem_iff : ∀ id, id ∈ ids ↔ ∃ root ∈ g.nodes.keys, ReflTransGen g.Reads root id
  ordered : ∀ before u after, ids = before ++ u :: after →
    ∀ v, g.Reads u v → v ∈ before ∨ TransGen g.Reads v u
  /-- Without cycles, a node comes after all its dependencies. -/
  acyclic : (∀ id, ¬ TransGen g.Reads id id) →
    ∀ before u after, ids = before ++ u :: after → ∀ v, g.Reads u v → v ∈ before

/-- A walk along the dependencies, in whatever order they are, arranges the nodes. -/
theorem arranges_finishOrder {g : Graph γ} {edges : Table NodeId (List NodeId)}
    (h : Edge (successors edges) = g.Reads) : g.Arranges (finishOrder edges g.nodes.keys) := by
  have hordered : ∀ before u after, finishOrder edges g.nodes.keys = before ++ u :: after →
      ∀ v, g.Reads u v → v ∈ before ∨ TransGen g.Reads v u := by
    intro before u after heq v hedge
    rw [← h] at hedge ⊢
    refine (finishOrder_ordered edges _ heq hedge).imp_right fun hback => ?_
    -- What leads back in no step is the node itself, which depends on itself then.
    rcases reflTransGen_iff_eq_or_transGen.1 hback with rfl | hback
    · exact .single hedge
    · exact hback
  refine ⟨nodup_finishOrder edges _, fun id => ?_, hordered,
    fun hacyclic before u after heq v hedge => ?_⟩
  · rw [← h]
    exact mem_finishOrder edges _ id
  · exact (hordered before u after heq v hedge).resolve_right fun hback =>
      hacyclic u (.head hedge hback)

/-- On every graph, and in whatever order it looks at the dependencies of a node, the loop ends with
an order that arranges the nodes; the topological order is one of them. -/
theorem arranges_topologicalOrder (g : Graph γ) {order : NodeId → List NodeId}
    (horder : ∀ a b, b ∈ order a ↔ b ∈ g.dependenciesOf a) :
    g.Arranges g.topologicalOrder ∧
      EndsWith (Tour.step g.dependenciesOf) (Tour.start g.nodes.keys) g.topologicalOrder ∧
        ∃ ids, EndsWith (Tour.step order) (Tour.start g.nodes.keys) ids ∧ g.Arranges ids := by
  -- The walk in another order is the walk on the table with the lists in that order.
  have htable : successors ⟨g.dependencies.keys.map fun k => (k, order k)⟩ = order :=
    successors_tabulate order g.dependencies.keys fun a b hb =>
      mem_keys_of_mem_successors ((horder a b).1 hb)
  have hedge : Edge order = g.Reads := funext fun a => funext fun b => propext (horder a b)
  refine ⟨arranges_finishOrder rfl, Tour.endsWith_finishOrder g.dependencies g.nodes.keys, _, ?_,
    arranges_finishOrder (htable ▸ hedge)⟩
  have hends := Tour.endsWith_finishOrder ⟨g.dependencies.keys.map fun k => (k, order k)⟩
    g.nodes.keys
  rwa [htable] at hends

/-- The dependencies of `knotted`, with only the node registered that leads to all others. -/
def knottedBelow : Graph Unit :=
  { knotted with nodes := ⟨[("a", {})]⟩ }

/-- The nodes that are not registered are arranged too, from both ends of the lists. -/
theorem arranges_knottedBelow :
    (∀ a b, b ∈ (knottedBelow.dependenciesOf a).reverse ↔ b ∈ knottedBelow.dependenciesOf a) ∧
      knottedBelow.Arranges ["b", "d", "c", "a"] ∧
        ∃ ids, EndsWith (Tour.step fun a => (knottedBelow.dependenciesOf a).reverse)
          (Tour.start ["a"]) ids ∧ knottedBelow.Arranges ids := by
  have hreverse : ∀ a b, b ∈ (knottedBelow.dependenciesOf a).reverse ↔
      b ∈ knottedBelow.dependenciesOf a := fun _ _ => List.mem_reverse
  have htopological : knottedBelow.topologicalOrder = ["b", "d", "c", "a"] := by decide
  obtain ⟨harranges, -, hreversed⟩ := arranges_topologicalOrder knottedBelow hreverse
  exact ⟨hreverse, htopological ▸ harranges, hreversed⟩

end LiveSheet.Graph
