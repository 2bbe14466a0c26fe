import LiveSheet.Proofs.Edges
import Mathlib.Algebra.BigOperators.Group.Finset.Basic

/-!
# Looking for a cycle step by step

A search for a cycle can be a loop instead of a recursion. The loop keeps its path, from the node
that it is at back to the one that it began with, and of each of them the successors that it has not
looked at. What is on the path is gray, and what is done with is black; a successor that is gray
closes a cycle.

The invariant of the loop is `Trail.Holds`: the gray nodes are those of the path, each of which
leads to those above it, and a black node comes after all its successors, so that it leads to no
cycle. What the loop has still to look at goes down with every step (`Trail.left`), so it ends, and
it says whether there is a cycle (`Trail.Holds.ends`). On a graph, and in whatever order it looks at
the dependencies of each node, that is the answer of `Graph.reachesCycle`.
-/

namespace LiveSheet.Search

open Relation

/-! ### Loops -/

section

variable {σ β : Type} {step : σ → β ⊕ σ} {s s' : σ} {answer : β}

/-- What a loop answers, if it does so within some steps. -/
def answer? (step : σ → β ⊕ σ) : (steps : Nat) → σ → Option β
  | 0, _ => none
  | steps + 1, s =>
    match step s with
    | .inl answer => some answer
    | .inr s' => answer? step steps s'

/-- Whether a loop ends with an answer. -/
def EndsWith (step : σ → β ⊕ σ) (s : σ) (answer : β) : Prop :=
  ∃ bound, ∀ steps ≥ bound, answer? step steps s = some answer

/-- A loop ends with the answer that its step gives. -/
theorem endsWith_of_stop (h : step s = .inl answer) : EndsWith step s answer := by
  refine ⟨1, fun steps hle => ?_⟩
  obtain ⟨more, rfl⟩ := Nat.exists_eq_add_of_le' hle
  rw [answer?, h]

/-- A loop ends as it does after a step. -/
theorem endsWith_of_step (h : step s = .inr s') (hends : EndsWith step s' answer) :
    EndsWith step s answer := by
  obtain ⟨bound, hbound⟩ := hends
  refine ⟨bound + 1, fun steps hle => ?_⟩
  obtain ⟨more, rfl⟩ := Nat.exists_eq_add_of_le' hle
  rw [← Nat.add_assoc, answer?, h]
  exact hbound _ (Nat.le_add_left ..)

end

variable {κ : Type}

/-- A search for a cycle on its way. -/
structure Trail (κ : Type) where
  /-- The node that it is at and the ones that led there, with the successors not looked at. -/
  path : List (κ × List κ)
  /-- The nodes that are on the path. -/
  gray : List κ
  /-- The nodes that are done with, the last one first. -/
  black : List κ
deriving Repr, DecidableEq

namespace Trail

/-- The search that begins at a node. -/
def start (next : κ → List κ) (k : κ) : Trail κ :=
  ⟨[(k, next k)], [k], []⟩

/-- One step of the search: a successor that is gray closes a cycle, one that is black is passed
over, and any other is gone to. A node without further successors is done with. -/
def step [DecidableEq κ] (next : κ → List κ) (t : Trail κ) : Bool ⊕ Trail κ :=
  match t.path with
  | [] => .inl false
  | (k, []) :: path => .inr ⟨path, t.gray.filter (· ≠ k), k :: t.black⟩
  | (k, child :: children) :: path =>
    if child ∈ t.gray then .inl true
    else if child ∈ t.black then .inr ⟨(k, children) :: path, t.gray, t.black⟩
    else .inr ⟨(child, next child) :: (k, children) :: path, child :: t.gray, t.black⟩

/-- The nodes on the path, the one that the search is at first. -/
def nodes (t : Trail κ) : List κ :=
  t.path.map (·.1)

/-- The nodes that the search has come to. -/
def seen (t : Trail κ) : List κ :=
  t.nodes ++ t.black

/-- Whether the successors of the nodes on a path have still to be looked at or are done with, apart
from those that the path goes on with. -/
def Passed (next : κ → List κ) (black : List κ) : (above : List κ) → List (κ × List κ) → Prop
  | _, [] => True
  | above, (k, children) :: path =>
    (∀ y ∈ next k, y ∈ children ∨ y ∈ black ∨ y ∈ above) ∧ Passed next black [k] path

/-- What holds of a search between two steps. -/
structure Holds (next : κ → List κ) (root : κ) (t : Trail κ) : Prop where
  /-- What is gray is on the path. -/
  gray_iff : ∀ x, x ∈ t.gray ↔ x ∈ t.nodes
  /-- No node is come to twice, and none that is done with is on the path. -/
  nodup : t.seen.Nodup
  /-- Each node of the path leads to those that the search has come to from it. -/
  leads : t.nodes.Pairwise fun x y => TransGen (Edge next) y x
  pending : ∀ f ∈ t.path, ∀ y ∈ f.2, y ∈ next f.1
  passed : Passed next t.black [] t.path
  /-- A black node comes after all its successors. -/
  ordered : ∀ later x earlier, t.black = later ++ x :: earlier → ∀ y ∈ next x, y ∈ earlier
  reached : ∀ x ∈ t.seen, ReflTransGen (Edge next) root x
  root_mem : root ∈ t.seen

variable {next : κ → List κ} {root k child : κ} {children gray black : List κ}
  {path : List (κ × List κ)}

/-- More nodes may be done with, those that a path goes on with among them. -/
theorem Passed.mono {black' above above' : List κ} (h : Passed next black above path)
    (hblack : ∀ x ∈ black, x ∈ black') (habove : ∀ x ∈ above, x ∈ black' ∨ x ∈ above') :
    Passed next black' above' path := by
  induction path generalizing above above' with
  | nil => trivial
  | cons f path ih =>
    obtain ⟨hnext, hpath⟩ := h
    refine ⟨fun y hy => ?_, ih hpath fun x hx => .inr hx⟩
    rcases hnext y hy with hy | hy | hy
    · exact .inl hy
    · exact .inr (.inl (hblack y hy))
    · exact .inr (habove y hy)

/-- The invariant holds at the root. -/
theorem holds_start (next : κ → List κ) (root : κ) : (start next root).Holds next root where
  gray_iff _ := Iff.rfl
  nodup := List.nodup_singleton root
  leads := List.pairwise_singleton ..
  pending := List.forall_mem_singleton.2 fun _ hy => hy
  passed := ⟨fun _ hy => .inl hy, trivial⟩
  ordered later x earlier heq := by simp [start] at heq
  reached := List.forall_mem_singleton.2 .refl
  root_mem := List.mem_singleton_self root

/-! ### What a step does -/

/-- The next node is a successor. -/
theorem Holds.edge (h : Holds next root ⟨(k, child :: children) :: path, gray, black⟩) :
    Edge next k child :=
  h.pending _ List.mem_cons_self child List.mem_cons_self

/-- The invariant on pending successors without the one that is looked at. -/
theorem Holds.pending_rest (h : Holds next root ⟨(k, child :: children) :: path, gray, black⟩) :
    ∀ f ∈ (k, children) :: path, ∀ y ∈ f.2, y ∈ next f.1 :=
  List.forall_mem_cons.2
    ⟨fun y hy => h.pending _ List.mem_cons_self y (List.mem_cons_of_mem child hy),
      fun f hf => h.pending f (List.mem_cons_of_mem _ hf)⟩

/-- A black successor is passed over. -/
theorem Holds.pass (h : Holds next root ⟨(k, child :: children) :: path, gray, black⟩)
    (hblack : child ∈ black) : Holds next root ⟨(k, children) :: path, gray, black⟩ where
  gray_iff := h.gray_iff
  nodup := h.nodup
  leads := h.leads
  pending := h.pending_rest
  passed := by
    refine ⟨fun y hy => ?_, h.passed.2⟩
    rcases h.passed.1 y hy with hy | hy
    · rcases List.mem_cons.1 hy with rfl | hy
      · exact .inr (.inl hblack)
      · exact .inl hy
    · exact .inr hy
  ordered := h.ordered
  reached := h.reached
  root_mem := h.root_mem

/-- A successor that the search has not come to is put on the path. -/
theorem Holds.go (h : Holds next root ⟨(k, child :: children) :: path, gray, black⟩)
    (hgray : child ∉ gray) (hblack : child ∉ black) :
    Holds next root ⟨(child, next child) :: (k, children) :: path, child :: gray, black⟩ where
  gray_iff x := by
    have hx := h.gray_iff x
    simp only [nodes, List.map_cons, List.mem_cons] at hx ⊢
    rw [hx]
  nodup := by
    refine List.nodup_cons.2 ⟨fun hmem => ?_, h.nodup⟩
    rcases List.mem_append.1 hmem with hmem | hmem
    · exact hgray ((h.gray_iff child).2 hmem)
    · exact hblack hmem
  leads := by
    refine List.pairwise_cons.2 ⟨fun x hx => ?_, h.leads⟩
    rcases List.mem_cons.1 hx with rfl | hx
    · exact .single h.edge
    · exact ((List.pairwise_cons.1 h.leads).1 x hx).tail h.edge
  pending := List.forall_mem_cons.2 ⟨fun _ hy => hy, h.pending_rest⟩
  passed := by
    refine ⟨fun y hy => .inl hy, fun y hy => ?_, h.passed.2⟩
    -- A successor that was passed before is still gray or black; the one that was gone to is the
    -- new top of the path.
    rcases h.passed.1 y hy with hy | hy | hy
    · rcases List.mem_cons.1 hy with rfl | hy
      · exact .inr (.inr List.mem_cons_self)
      · exact .inl hy
    · exact .inr (.inl hy)
    · exact absurd hy List.not_mem_nil
  ordered := h.ordered
  reached := List.forall_mem_cons.2 ⟨(h.reached k List.mem_cons_self).tail h.edge, h.reached⟩
  root_mem := List.mem_cons_of_mem child h.root_mem

/-- Being done with a node is not coming to a new one. -/
theorem seen_finish (gray' : List κ) :
    (seen ⟨path, gray', k :: black⟩).Perm (seen ⟨(k, []) :: path, gray, black⟩) :=
  List.perm_middle

/-- A gray successor closes a cycle. -/
theorem Holds.leadsToCycle (h : Holds next root ⟨(k, child :: children) :: path, gray, black⟩)
    (hgray : child ∈ gray) : LeadsToCycle next root := by
  refine ⟨k, h.reached k List.mem_cons_self, ?_⟩
  rcases List.mem_cons.1 ((h.gray_iff child).1 hgray) with rfl | hbelow
  · exact .single h.edge
  · exact .head h.edge ((List.pairwise_cons.1 h.leads).1 child hbelow)

/-- When the search has gone back all its path, there is no cycle. -/
theorem Holds.not_leadsToCycle (h : Holds next root ⟨[], gray, black⟩) :
    ¬ LeadsToCycle next root := by
  have hnodup : black.Nodup := h.nodup
  have hroot : root ∈ black := h.root_mem
  refine not_leadsToCycle_of_ordered (List.nodup_reverse.2 hnodup)
    (fun before a after heq b hb => ?_) (List.mem_reverse.2 hroot)
  have hblack : black = after.reverse ++ a :: before.reverse := by
    simpa using congrArg List.reverse heq
  exact List.mem_reverse.1 (h.ordered _ a _ hblack b hb)

variable [DecidableEq κ]

/-- A node without further successors is done with. -/
theorem Holds.finish (h : Holds next root ⟨(k, []) :: path, gray, black⟩) :
    Holds next root ⟨path, gray.filter (· ≠ k), k :: black⟩ where
  gray_iff x := by
    have hx := h.gray_iff x
    have hk : k ∉ path.map (·.1) := fun hmem =>
      (List.nodup_cons.1 h.nodup).1 (List.mem_append_left _ hmem)
    simp only [nodes, List.map_cons, List.mem_cons] at hx
    simp only [nodes, List.mem_filter, hx, decide_eq_true_eq]
    constructor
    · rintro ⟨rfl | hx, hne⟩
      · exact absurd rfl hne
      · exact hx
    · exact fun hx => ⟨.inr hx, fun heq => hk (heq ▸ hx)⟩
  nodup := (seen_finish _).nodup_iff.2 h.nodup
  leads := (List.pairwise_cons.1 h.leads).2
  pending f hf := h.pending f (List.mem_cons_of_mem _ hf)
  passed := h.passed.2.mono (fun x hx => List.mem_cons_of_mem k hx) fun x hx => .inl (by
    obtain rfl := List.mem_singleton.1 hx
    exact List.mem_cons_self)
  ordered later x earlier heq y hy := by
    rcases later with _ | ⟨z, later⟩
    · -- The path goes on with nothing here, so all successors are black.
      obtain ⟨rfl, rfl⟩ := List.cons.inj heq
      rcases h.passed.1 y hy with hy | hy | hy
      · exact absurd hy List.not_mem_nil
      · exact hy
      · exact absurd hy List.not_mem_nil
    · exact h.ordered later x earlier (List.cons.inj heq).2 y hy
  reached x hx := h.reached x ((seen_finish _).mem_iff.1 hx)
  root_mem := (seen_finish _).mem_iff.2 h.root_mem

/-! ### The end of the search -/

/-- How many steps are left at most: one for each successor that is not looked at and for each node
of the path, and as many for each place that the search has not come to. -/
def left (next : κ → List κ) (places : Finset κ) (t : Trail κ) : Nat :=
  (t.path.flatMap (·.2)).length + t.path.length +
    ∑ x ∈ places with x ∉ t.seen, ((next x).length + 1)

/-- A successor that is passed over leaves less to do. -/
theorem left_pass (places : Finset κ) :
    left next places ⟨(k, children) :: path, gray, black⟩ <
      left next places ⟨(k, child :: children) :: path, gray, black⟩ := by
  have hseen : seen ⟨(k, children) :: path, gray, black⟩ =
      seen ⟨(k, child :: children) :: path, gray, black⟩ := rfl
  simp only [left, hseen, List.flatMap_cons, List.length_append, List.length_cons]
  omega

/-- A node that is gone to is one of the places that are left. -/
theorem left_go {places : Finset κ} (hplace : child ∈ places)
    (hseen : child ∉ seen ⟨(k, child :: children) :: path, gray, black⟩) :
    left next places ⟨(child, next child) :: (k, children) :: path, child :: gray, black⟩ <
      left next places ⟨(k, child :: children) :: path, gray, black⟩ := by
  have hmem : child ∈ places.filter fun x =>
      x ∉ seen ⟨(k, child :: children) :: path, gray, black⟩ :=
    Finset.mem_filter.2 ⟨hplace, hseen⟩
  have herase : (places.filter fun x =>
      x ∉ seen ⟨(child, next child) :: (k, children) :: path, child :: gray, black⟩) =
        (places.filter fun x => x ∉ seen ⟨(k, child :: children) :: path, gray, black⟩).erase
          child := by
    ext x
    have hx : x ∈ seen ⟨(child, next child) :: (k, children) :: path, child :: gray, black⟩ ↔
        x = child ∨ x ∈ seen ⟨(k, child :: children) :: path, gray, black⟩ := List.mem_cons
    rw [Finset.mem_erase, Finset.mem_filter, Finset.mem_filter, hx]
    tauto
  have hsum := Finset.add_sum_erase _ (fun x => (next x).length + 1) hmem
  simp only [left, herase, ← hsum, List.flatMap_cons, List.length_append, List.length_cons]
  omega

/-- A node that is finished leaves less to do. -/
theorem left_finish (places : Finset κ) (gray' : List κ) :
    left next places ⟨path, gray', k :: black⟩ <
      left next places ⟨(k, []) :: path, gray, black⟩ := by
  have hseen : (places.filter fun x => x ∉ seen ⟨path, gray', k :: black⟩) =
      places.filter fun x => x ∉ seen ⟨(k, []) :: path, gray, black⟩ :=
    Finset.filter_congr fun x _ => not_congr (seen_finish _).mem_iff
  simp only [left, hseen, List.flatMap_cons, List.nil_append, List.length_cons]
  omega

/-- The search ends, and says whether it has begun at a node that leads to a cycle. -/
theorem Holds.ends {places : Finset κ} (hplaces : ∀ a b, b ∈ next a → b ∈ places) {t : Trail κ}
    (h : t.Holds next root) : ∃ found, EndsWith (step next) t found ∧
      (found = true ↔ LeadsToCycle next root) := by
  induction hleft : t.left next places using Nat.strong_induction_on generalizing t with
  | _ n ih =>
    subst hleft
    -- A step that leaves less ends as what it leads to.
    have hstep : ∀ t', step next t = .inr t' → t'.Holds next root →
        t'.left next places < t.left next places → ∃ found, EndsWith (step next) t found ∧
          (found = true ↔ LeadsToCycle next root) := by
      intro t' hmove h' hlt
      obtain ⟨found, hends, hfound⟩ := ih _ hlt h' rfl
      exact ⟨found, endsWith_of_step hmove hends, hfound⟩
    obtain ⟨path, gray, black⟩ := t
    -- The cases are those of a step, and each of them but the answers leaves less.
    match path with
    | [] =>
      exact ⟨false, endsWith_of_stop rfl, by simpa using h.not_leadsToCycle⟩
    | (k, []) :: path => exact hstep _ rfl h.finish (left_finish places _)
    | (k, child :: children) :: path =>
      by_cases hgray : child ∈ gray
      · exact ⟨true, endsWith_of_stop (if_pos hgray), by simpa using h.leadsToCycle hgray⟩
      · by_cases hblack : child ∈ black
        · exact hstep _ ((if_neg hgray).trans (if_pos hblack)) (h.pass hblack) (left_pass places)
        · have hgo := h.go hgray hblack
          exact hstep _ ((if_neg hgray).trans (if_neg hblack)) hgo
            (left_go (hplaces k child h.edge) (List.nodup_cons.1 hgo.nodup).1)

end Trail

end LiveSheet.Search

namespace LiveSheet.Graph

open Relation Search

variable {γ : Type}

/-- On every graph, and in whatever order it looks at the dependencies of a node, the search for a
cycle ends with the answer whether a cycle of dependencies can be reached. -/
theorem endsWith_reachesCycle (g : Graph γ) (id : NodeId) {order : NodeId → List NodeId}
    (horder : ∀ a b, b ∈ order a ↔ b ∈ g.dependenciesOf a) :
    EndsWith (Trail.step order) (Trail.start order id) (g.reachesCycle id) ∧
      (g.reachesCycle id = true ↔
        ∃ b, ReflTransGen g.Reads id b ∧ TransGen g.Reads b b) := by
  have hedge : Edge order = g.Reads := funext fun a => funext fun b => propext (horder a b)
  -- Only nodes with dependencies have any in the order, and the table has finitely many of them.
  have hplaces : ∀ a b, b ∈ order a → b ∈ (g.dependencies.keys.flatMap order).toFinset := by
    intro a b hb
    have ha : a ∈ g.dependencies.keys := mem_keys_of_mem_successors ((horder a b).1 hb)
    exact List.mem_toFinset.2 (List.mem_flatMap.2 ⟨a, ha, hb⟩)
  obtain ⟨found, hends, hfound⟩ := (Trail.holds_start order id).ends hplaces
  have hcycle : found = true ↔ g.LeadsToCycle id := by
    rw [hfound, Search.LeadsToCycle, hedge]
    exact Iff.rfl
  have hsame : found = g.reachesCycle id :=
    Bool.eq_iff_iff.2 (hcycle.trans (g.reachesCycle_eq_true_iff id).symm)
  exact ⟨hsame ▸ hends, g.reachesCycle_eq_true_iff id⟩

/-- Dependencies among nodes that are not registered: two of them in a cycle, which another one
leads to after one that is on none. -/
def knotted : Graph Unit :=
  { dependencies := ⟨[("a", ["b", "c"]), ("b", []), ("c", ["d"]), ("d", ["c"])]⟩ }

/-- The cycle is found from both ends of the lists of dependencies. -/
theorem endsWith_knotted :
    (∀ a b, b ∈ (knotted.dependenciesOf a).reverse ↔ b ∈ knotted.dependenciesOf a) ∧
      EndsWith (Trail.step fun a => (knotted.dependenciesOf a).reverse)
        (Trail.start (fun a => (knotted.dependenciesOf a).reverse) "a") true ∧
      EndsWith (Trail.step knotted.dependenciesOf) (Trail.start knotted.dependenciesOf "a") true ∧
        EndsWith (Trail.step knotted.dependenciesOf) (Trail.start knotted.dependenciesOf "b")
          false := by
  have hreverse : ∀ a b, b ∈ (knotted.dependenciesOf a).reverse ↔ b ∈ knotted.dependenciesOf a :=
    fun _ _ => List.mem_reverse
  have ha : knotted.reachesCycle "a" = true := by decide
  have hb : knotted.reachesCycle "b" = false := by decide
  refine ⟨hreverse, ?_, ?_, ?_⟩
  · exact ha ▸ (endsWith_reachesCycle knotted "a" hreverse).1
  · exact ha ▸ (endsWith_reachesCycle knotted "a" fun _ _ => Iff.rfl).1
  · exact hb ▸ (endsWith_reachesCycle knotted "b" fun _ _ => Iff.rfl).1

end LiveSheet.Graph
