import LiveSheet.Proofs.Incidence
import LiveSheet.Proofs.Reordering
import LiveSheet.Proofs.Tour

/-!
# How a change spreads step by step

What depends on a node can be found by a loop that keeps the nodes that it has come to and, of
these, the ones whose dependents it has not looked at (`Search.Spread`). In whatever order it looks
at the dependents of a node, it ends with all that the node leads to (`Spread.Holds.ends`).

The nodes that are found follow the change by their places in a topological order, which comes from
a tour in the other direction. Both the loop and the tour may look at edges in any order, and nodes
of the same place may come in any order, so there are several ways in which a change can spread
(`Graph.SpreadsIn`). In all of them every dependent follows once, and one that is on no cycle
follows after all that it depends on (`Graph.Follows`). What is called for them is what they had
when the change happened, whatever comes of the calls before (`callEach_noted`).
-/

namespace LiveSheet.Search

open Relation

/-- A loop has one answer. -/
theorem EndsWith.unique {σ β : Type} {step : σ → β ⊕ σ} {s : σ} {answer answer' : β}
    (h : EndsWith step s answer) (h' : EndsWith step s answer') : answer = answer' := by
  obtain ⟨bound, hbound⟩ := h
  obtain ⟨bound', hbound'⟩ := h'
  have hsome := hbound (max bound bound') (le_max_left ..)
  rw [hbound' _ (le_max_right ..)] at hsome
  exact (Option.some.inj hsome).symm

/-- A search for all that a node leads to on its way. -/
structure Spread (κ : Type) where
  /-- The nodes whose successors have not been looked at, the next one first. -/
  waiting : List κ
  /-- The nodes that the search has come to. -/
  reached : List κ
deriving Repr, DecidableEq

namespace Spread

variable {κ : Type}

/-- The search that begins at a node. -/
def start (k : κ) : Spread κ :=
  ⟨[k], []⟩

variable {next : κ → List κ} {root k x : κ} {s : Spread κ} {waiting reached : List κ}

/-- What holds of a search between two steps. -/
structure Holds (next : κ → List κ) (root : κ) (s : Spread κ) : Prop where
  nodup : s.reached.Nodup
  /-- The search comes only to what the root leads to. -/
  leads : ∀ x ∈ s.reached, TransGen (Edge next) root x
  waits : ∀ x ∈ s.waiting, x = root ∨ x ∈ s.reached
  /-- From a node that does not wait, the search has come to all successors. -/
  closed : ∀ x, x = root ∨ x ∈ s.reached → x ∉ s.waiting → ∀ y ∈ next x, y ∈ s.reached

/-- The invariant holds before anything is pending. -/
theorem holds_start (next : κ → List κ) (root : κ) : (start root).Holds next root where
  nodup := List.nodup_nil
  leads _ hx := absurd hx List.not_mem_nil
  waits _ hx := .inl (List.mem_singleton.1 hx)
  closed x hx hnot := by
    rcases hx with rfl | hx
    · exact absurd (List.mem_singleton_self x) hnot
    · exact absurd hx List.not_mem_nil

/-- When no node waits, the search has come to all that the root leads to. -/
theorem Holds.mem_iff (h : Holds next root ⟨[], reached⟩) :
    x ∈ reached ↔ TransGen (Edge next) root x := by
  refine ⟨h.leads x, fun hreach => ?_⟩
  induction hreach with
  | single hedge => exact h.closed root (.inl rfl) List.not_mem_nil _ hedge
  | tail _ hedge ih => exact h.closed _ (.inr ih) List.not_mem_nil _ hedge

variable [DecidableEq κ]

/-- Comes to a node, which has to wait if it is new. -/
def add (s : Spread κ) (x : κ) : Spread κ :=
  if x ∈ s.reached then s else ⟨x :: s.waiting, x :: s.reached⟩

/-- One step of the search: it comes to all successors of a node that waits. -/
def step (next : κ → List κ) (s : Spread κ) : List κ ⊕ Spread κ :=
  match s.waiting with
  | [] => .inl s.reached
  | k :: waiting => .inr ((next k).foldl add ⟨waiting, s.reached⟩)

/-! ### Coming to several nodes -/

/-- What is reached after several additions. -/
theorem mem_reached_foldl (xs : List κ) (s : Spread κ) :
    x ∈ (xs.foldl add s).reached ↔ x ∈ xs ∨ x ∈ s.reached := by
  induction xs generalizing s with
  | nil => simp
  | cons y xs ih =>
    rw [List.foldl_cons, ih, List.mem_cons, add]
    by_cases hy : y ∈ s.reached
    · rw [if_pos hy]
      have : x = y → x ∈ s.reached := fun heq => heq ▸ hy
      tauto
    · rw [if_neg hy, List.mem_cons]
      tauto

/-- Of the nodes that the search comes to, the new ones wait. -/
theorem mem_waiting_foldl (xs : List κ) (s : Spread κ) :
    x ∈ (xs.foldl add s).waiting ↔ (x ∈ xs ∧ x ∉ s.reached) ∨ x ∈ s.waiting := by
  induction xs generalizing s with
  | nil => simp
  | cons y xs ih =>
    rw [List.foldl_cons, ih, List.mem_cons, add]
    by_cases hy : y ∈ s.reached
    · rw [if_pos hy]
      have : x = y → x ∈ s.reached := fun heq => heq ▸ hy
      tauto
    · rw [if_neg hy]
      have : x = y → x ∉ s.reached := fun heq => heq ▸ hy
      simp only [List.mem_cons]
      tauto

/-- Nothing is reached twice. -/
theorem nodup_reached_foldl (xs : List κ) (h : s.reached.Nodup) :
    (xs.foldl add s).reached.Nodup := by
  induction xs generalizing s with
  | nil => exact h
  | cons y xs ih =>
    refine ih ?_
    unfold add
    split
    · exact h
    · next hy => exact List.nodup_cons.2 ⟨hy, h⟩

/-- How many steps are left at most: one for each node that waits, and one for each place that the
search has not come to. -/
def left (places : Finset κ) (s : Spread κ) : Nat :=
  s.waiting.length + (places.filter (· ∉ s.reached)).card

/-- A new node waits, but is no longer a place that the search has not come to. -/
theorem left_foldl {places : Finset κ} (xs : List κ) (hplaces : ∀ x ∈ xs, x ∈ places)
    (s : Spread κ) : (xs.foldl add s).left places = s.left places := by
  induction xs generalizing s with
  | nil => rfl
  | cons y xs ih =>
    obtain ⟨hy, hxs⟩ := List.forall_mem_cons.1 hplaces
    rw [List.foldl_cons, ih hxs, add]
    split
    · rfl
    · next hnew =>
      have hmem : y ∈ places.filter (· ∉ s.reached) := Finset.mem_filter.2 ⟨hy, hnew⟩
      have herase : places.filter (· ∉ y :: s.reached) =
          (places.filter (· ∉ s.reached)).erase y := by
        ext x
        simp only [Finset.mem_filter, Finset.mem_erase, List.mem_cons]
        tauto
      have hcard := Finset.card_erase_add_one hmem
      simp only [left, herase, List.length_cons]
      omega

/-! ### The end of the search -/

/-- A step keeps what holds of a search. -/
theorem Holds.step (h : Holds next root ⟨k :: waiting, reached⟩) :
    Holds next root ((next k).foldl add ⟨waiting, reached⟩) where
  nodup := nodup_reached_foldl _ h.nodup
  leads x hx := by
    rcases (mem_reached_foldl _ _).1 hx with hx | hx
    · rcases h.waits k List.mem_cons_self with rfl | hk
      · exact .single hx
      · exact (h.leads k hk).tail hx
    · exact h.leads x hx
  waits x hx := by
    rw [mem_reached_foldl]
    rcases (mem_waiting_foldl _ _).1 hx with hx | hx
    · exact .inr (.inl hx.1)
    · exact (h.waits x (List.mem_cons_of_mem k hx)).imp_right .inr
  closed x hx hnot y hy := by
    rw [mem_waiting_foldl, not_or, not_and_not_right] at hnot
    rw [mem_reached_foldl] at hx ⊢
    by_cases hk : x = k
    · exact .inl (hk ▸ hy)
    · -- A node that does not wait now did not wait before either, unless it is the one at hand.
      have hold : x = root ∨ x ∈ reached := by tauto
      have hwaits : x ∉ k :: waiting := by
        rw [List.mem_cons, not_or]
        exact ⟨hk, hnot.2⟩
      exact .inr (h.closed x hold hwaits y hy)

/-- The search ends with what the root leads to, each node once. -/
theorem Holds.ends {places : Finset κ} (hplaces : ∀ a b, b ∈ next a → b ∈ places)
    (h : s.Holds next root) : ∃ visited, EndsWith (Spread.step next) s visited ∧ visited.Nodup ∧
      ∀ x, x ∈ visited ↔ TransGen (Edge next) root x := by
  induction hleft : s.left places using Nat.strong_induction_on generalizing s with
  | _ n ih =>
    subst hleft
    obtain ⟨waiting, reached⟩ := s
    match waiting with
    | [] => exact ⟨reached, endsWith_of_stop rfl, h.nodup, fun _ => h.mem_iff⟩
    | k :: waiting =>
      have hlt : ((next k).foldl add ⟨waiting, reached⟩).left places <
          left places ⟨k :: waiting, reached⟩ := by
        rw [left_foldl _ (hplaces k)]
        simp only [left, List.length_cons]
        omega
      obtain ⟨visited, hends, hvisited⟩ := ih _ hlt h.step rfl
      exact ⟨visited, endsWith_of_step rfl hends, hvisited⟩

end Spread

end LiveSheet.Search

namespace LiveSheet

open Relation Search

/-! ### Calls -/

section

variable {γ σ ρ κ : Type}

/-- A call that is noted after those before it. -/
def noted (call : γ → σ → σ × ρ) (callback : γ) (s : σ × List γ) : (σ × List γ) × ρ :=
  (((call callback s.1).1, s.2 ++ [callback]), (call callback s.1).2)

/-- Each callback is called once and in order, whatever the calls do to the state and whatever comes
of them, and noting the calls changes nothing about them. -/
theorem callEach_noted (call : γ → σ → σ × ρ) (callbacks : List γ) (s : σ) (log : List γ) :
    callEach (noted call) callbacks (s, log) =
      (callEach call callbacks s, log ++ callbacks) := by
  unfold callEach
  induction callbacks generalizing s log with
  | nil => rw [List.append_nil]; rfl
  | cons callback callbacks ih =>
    rw [List.foldl_cons, List.foldl_cons, List.append_cons]
    exact ih _ _

/-- Does tasks one after the other, each of which is to call some callbacks. -/
def callAll (call : γ → σ → σ × ρ) (tasks : List (List γ)) (s : σ) : σ :=
  tasks.foldl (fun s callbacks => callEach call callbacks s) s

/-- A wave brings at most one task to an agenda, after those that wait already, and what it brings
is the calls of the wave. -/
theorem Wave.calls_enqueue (w : Wave γ) (a : Agenda κ (List γ)) :
    ∃ tasks, w.enqueue (fun callbacks => callbacks) a = { a with queue := a.queue ++ tasks } ∧
      tasks.length ≤ 1 ∧ ∀ (call : γ → σ → σ × ρ) (s : σ) (log : List γ),
        callAll (noted call) tasks (s, log) =
          (callEach call w.callbacks s, log ++ w.callbacks) := by
  unfold Wave.enqueue
  by_cases hempty : w.callbacks = []
  · refine ⟨[], by simp [hempty], Nat.zero_le 1, fun call s log => ?_⟩
    rw [hempty, List.append_nil]
    rfl
  · refine ⟨[w.callbacks], by simp [hempty, Agenda.schedule], le_rfl, fun call s log => ?_⟩
    exact callEach_noted call w.callbacks s log

end

namespace Graph

variable {γ : Type} {g : Graph γ} {id : NodeId} {reads dependents : NodeId → List NodeId}
  {ids followers : List NodeId}

/-- What some nodes set off, with the callbacks that they have now. -/
def waveAlong (g : Graph γ) (followers : List NodeId) : Wave γ :=
  ⟨followers, followers.filterMap fun follower => (g.node? follower).bind (·.callback)⟩

/-- Ids by their places in an order, those that it does not name last. -/
def byPlace (order ids : List NodeId) : List NodeId :=
  ids.mergeSort fun a b => order.idxOf a ≤ order.idxOf b

/-- Whether nodes may follow a change in this order, when the dependencies and the dependents of
each node are looked at in the given orders: what the loop finds is listed in some order, and then
put by the places that the tour gives. -/
def SpreadsIn (g : Graph γ) (reads dependents : NodeId → List NodeId) (id : NodeId)
    (followers : List NodeId) : Prop :=
  ∃ visited order listed, EndsWith (Spread.step dependents) (Spread.start id) visited ∧
    EndsWith (Tour.step reads) (Tour.start g.nodes.keys) order ∧
      (visited.filter (· ≠ id)).Perm listed ∧ followers = byPlace order listed

/-- Whether ids are those of the nodes that depend on a node, directly or through others, each once,
and one that is on no cycle comes after all of them that it depends on. -/
structure Follows (g : Graph γ) (id : NodeId) (ids : List NodeId) : Prop where
  nodup : ids.Nodup
  mem_iff : ∀ a, a ∈ ids ↔ a ≠ id ∧ TransGen g.Reads a id
  ordered : ∀ before a after, ids = before ++ a :: after → ¬ TransGen g.Reads a a →
    ∀ b ∈ ids, TransGen g.Reads a b → b ∈ before

/-! ### Places -/

/-- Sorting by place only reorders. -/
theorem perm_byPlace (order ids : List NodeId) : (byPlace order ids).Perm ids :=
  List.mergeSort_perm ids _

/-- What comes first has the smaller place, or the same. -/
theorem pairwise_byPlace (order ids : List NodeId) :
    (byPlace order ids).Pairwise fun a b => order.idxOf a ≤ order.idxOf b := by
  let le : NodeId → NodeId → Bool := fun a b => order.idxOf a ≤ order.idxOf b
  have htrans : ∀ a b c, le a b = true → le b c = true → le a c = true := by
    intro a b c hab hbc
    exact decide_eq_true ((of_decide_eq_true hab).trans (of_decide_eq_true hbc))
  have htotal : ∀ a b, (le a b || le b a) = true := by
    intro a b
    rw [Bool.or_eq_true]
    exact (Nat.le_total _ _).imp decide_eq_true decide_eq_true
  exact (List.pairwise_mergeSort htrans htotal ids).imp fun h => of_decide_eq_true h

/-- What stands by its places stays as it is. -/
theorem byPlace_eq_self {order : List NodeId}
    (h : ids.Pairwise fun a b => order.idxOf a ≤ order.idxOf b) : byPlace order ids = ids :=
  List.mergeSort_of_pairwise (h.imp fun hle => decide_eq_true hle)

/-- A part of an order stands by its places, and so it does with what the order does not name after
it. -/
theorem pairwise_idxOf {order front back : List NodeId} (hnodup : order.Nodup)
    (hfront : front.Sublist order) (hback : ∀ a ∈ back, a ∉ order) :
    (front ++ back).Pairwise fun a b => order.idxOf a ≤ order.idxOf b := by
  have hplaces : order.Pairwise fun a b => order.idxOf a ≤ order.idxOf b := by
    rw [List.pairwise_iff_getElem]
    intro i j hi hj hlt
    rw [hnodup.idxOf_getElem i hi, hnodup.idxOf_getElem j hj]
    exact hlt.le
  refine List.pairwise_append.2 ⟨hplaces.sublist hfront, ?_, fun a _ b hb => ?_⟩
  · exact List.pairwise_of_forall_mem_list fun a _ b hb => by
      rw [List.idxOf_eq_length (hback b hb)]
      exact List.idxOf_le_length
  · rw [List.idxOf_eq_length (hback b hb)]
    exact List.idxOf_le_length

/-! ### What follows a change -/

/-- Only nodes with dependents have any in the order that they are looked at, so the loop ends with
what depends on the node. -/
theorem exists_visited (h : g.Mirrored)
    (hdependents : ∀ a b, b ∈ dependents a ↔ b ∈ g.dependentsOf a) (id : NodeId) :
    ∃ visited, EndsWith (Spread.step dependents) (Spread.start id) visited ∧
      visited.Nodup ∧ ∀ a, a ∈ visited ↔ TransGen g.Reads a id := by
  have hplaces : ∀ a b, b ∈ dependents a → b ∈ (g.dependents.keys.flatMap dependents).toFinset := by
    intro a b hb
    have ha : a ∈ g.dependents.keys := mem_keys_of_mem_successors ((hdependents a b).1 hb)
    exact List.mem_toFinset.2 (List.mem_flatMap.2 ⟨a, ha, hb⟩)
  have hedge : Edge dependents = Function.swap g.Reads := by
    funext a b
    exact propext ((hdependents a b).trans (h b a))
  obtain ⟨visited, hends, hnodup, hmem⟩ := (Spread.holds_start dependents id).ends hplaces
  refine ⟨visited, hends, hnodup, fun a => ?_⟩
  rw [hmem, hedge, transGen_swap]

/-- The tour ends with the order of the recursion on the table with the dependencies in the order
that they are looked at. -/
theorem exists_order (g : Graph γ) (hreads : ∀ a b, b ∈ reads a ↔ b ∈ g.dependenciesOf a) :
    ∃ edges : Table NodeId (List NodeId), Edge (successors edges) = g.Reads ∧
      EndsWith (Tour.step reads) (Tour.start g.nodes.keys) (finishOrder edges g.nodes.keys) := by
  have htable : successors ⟨g.dependencies.keys.map fun k => (k, reads k)⟩ = reads :=
    successors_tabulate reads g.dependencies.keys fun a b hb =>
      mem_keys_of_mem_successors ((hreads a b).1 hb)
  have hends := Tour.endsWith_finishOrder ⟨g.dependencies.keys.map fun k => (k, reads k)⟩
    g.nodes.keys
  rw [htable] at hends
  refine ⟨_, ?_, hends⟩
  rw [htable]
  funext a b
  exact propext (hreads a b)

/-- In whatever way a change spreads, every dependent follows once, and a node on no cycle after all
that it depends on. -/
theorem follows_of_spreadsIn (h : g.Mirrored) (hregistered : ∀ a b, g.Reads a b → a ∈ g.nodes.keys)
    (hreads : ∀ a b, b ∈ reads a ↔ b ∈ g.dependenciesOf a)
    (hdependents : ∀ a b, b ∈ dependents a ↔ b ∈ g.dependentsOf a)
    (hspreads : g.SpreadsIn reads dependents id followers) : g.Follows id followers := by
  obtain ⟨visited, order, listed, hvisited, horder, hlisted, rfl⟩ := hspreads
  obtain ⟨visited', hvisited', hnodup, hmem⟩ := exists_visited h hdependents id
  obtain rfl := hvisited.unique hvisited'
  obtain ⟨edges, hedges, horder'⟩ := exists_order g hreads
  obtain rfl := horder.unique horder'
  have hperm := (perm_byPlace (finishOrder edges g.nodes.keys) listed).trans hlisted.symm
  have hfollows : ∀ a, a ∈ byPlace (finishOrder edges g.nodes.keys) listed ↔
      a ≠ id ∧ TransGen g.Reads a id := by
    intro a
    rw [hperm.mem_iff, List.mem_filter, hmem, decide_eq_true_eq, and_comm]
  refine ⟨hperm.nodup_iff.2 (hnodup.filter _), hfollows,
    fun before a after heq hfree b hb hreach => ?_⟩
  -- A node that follows is registered, so it has a place, and what it depends on comes before it.
  obtain ⟨c, hstep, -⟩ := TransGen.head'_iff.1 hreach
  have ha : a ∈ finishOrder edges g.nodes.keys :=
    (mem_finishOrder edges _ a).2 ⟨a, hregistered a c hstep, .refl⟩
  obtain ⟨front, back, hsplit⟩ := List.append_of_mem ha
  have hb' : b ∈ front :=
    mem_before_of_not_onCycle edges _ hsplit (hedges ▸ hfree) (hedges ▸ hreach)
  have hnot : a ∉ front := fun hfront =>
    List.disjoint_of_nodup_append (hsplit ▸ nodup_finishOrder edges _) hfront List.mem_cons_self
  have hlt : (finishOrder edges g.nodes.keys).idxOf b <
      (finishOrder edges g.nodes.keys).idxOf a := by
    rw [hsplit, List.idxOf_append_of_mem hb', List.idxOf_append_of_notMem hnot]
    exact (List.idxOf_lt_length_of_mem hb').trans_le (Nat.le_add_right ..)
  -- Were it not before the node in the order of places, its place would not be the smaller one.
  rw [heq] at hb
  rcases List.mem_append.1 hb with hb | hb
  · exact hb
  · rcases List.mem_cons.1 hb with rfl | hb
    · exact absurd hlt (lt_irrefl _)
    · have hpairwise := pairwise_byPlace (finishOrder edges g.nodes.keys) listed
      rw [heq] at hpairwise
      have hle := (List.pairwise_cons.1 (List.pairwise_append.1 hpairwise).2.1).1 b hb
      exact absurd hlt (not_lt.2 hle)

/-- The order of a wave is one in which the change may spread. -/
theorem spreadsIn_wave (h : g.Mirrored) (id : NodeId) :
    g.SpreadsIn g.dependenciesOf g.dependentsOf id (g.wave id).order := by
  obtain ⟨visited, hvisited, hnodup, hmem⟩ := exists_visited (g := g) h (fun _ _ => Iff.rfl) id
  refine ⟨visited, g.topologicalOrder, g.propagationOrder id, hvisited,
    Tour.endsWith_finishOrder g.dependencies g.nodes.keys, ?_, ?_⟩
  · have hnodup' := nodup_propagationOrder g id
    refine (List.perm_ext_iff_of_nodup (hnodup.filter _) hnodup').2 fun a => ?_
    rw [mem_propagationOrder h, List.mem_filter, hmem, decide_eq_true_eq, and_comm]
  · refine (byPlace_eq_self (pairwise_idxOf (nodup_finishOrder _ _) List.filter_sublist ?_)).symm
    exact fun a ha => of_decide_eq_true (List.mem_filter.1 ha).2

/-- On every graph with mirrored edges between registered nodes, with cycles or without, and in
whatever order it looks at edges and lists what it finds, a change spreads, and in every way in
which it does, exactly the nodes that depend on the changed one follow, each once, and one on no
cycle after all that it depends on. What then waits is at most one task, and doing it calls the
callbacks that these nodes had when the change happened, each once and in that order, whatever a
call does to the state and whatever comes of it. The wave of the change is one of these ways. -/
theorem spreadsIn_spec (h : g.Mirrored)
    (hregistered : ∀ a b, g.Reads a b → a ∈ g.nodes.keys ∧ b ∈ g.nodes.keys)
    (hreads : ∀ a b, b ∈ reads a ↔ b ∈ g.dependenciesOf a)
    (hdependents : ∀ a b, b ∈ dependents a ↔ b ∈ g.dependentsOf a) (id : NodeId) :
    (∃ followers, g.SpreadsIn reads dependents id followers) ∧
      (∀ followers, g.SpreadsIn reads dependents id followers → g.Follows id followers ∧
        ∀ {σ ρ κ : Type} (a : Agenda κ (List γ)), ∃ tasks,
          (g.waveAlong followers).enqueue (fun callbacks => callbacks) a =
              { a with queue := a.queue ++ tasks } ∧
            tasks.length ≤ 1 ∧ ∀ (call : γ → σ → σ × ρ) (s : σ),
              callAll (noted call) tasks (s, []) =
                (callEach call (g.waveAlong followers).callbacks s,
                  followers.filterMap fun a => (g.node? a).bind (·.callback))) ∧
      g.SpreadsIn g.dependenciesOf g.dependentsOf id (g.wave id).order ∧
        g.wave id = g.waveAlong (g.wave id).order := by
  refine ⟨?_, fun followers hspreads => ⟨?_, fun a => ?_⟩, spreadsIn_wave h id, rfl⟩
  · obtain ⟨visited, hvisited, -⟩ := exists_visited h hdependents id
    obtain ⟨edges, -, horder⟩ := exists_order g hreads
    exact ⟨_, visited, _, _, hvisited, horder, .rfl, rfl⟩
  · exact follows_of_spreadsIn h (fun a b hedge => (hregistered a b hedge).1) hreads hdependents
      hspreads
  · obtain ⟨tasks, henqueue, hlength, hcalls⟩ := (g.waveAlong followers).calls_enqueue a
    exact ⟨tasks, henqueue, hlength, fun call s => hcalls call s []⟩

/-- Two nodes that depend on each other, one of them on a third one, and a node behind them. -/
def looped : List (Operation String) :=
  [.register "d" [.callback (some "call d")], .register "a" [],
    .register "b" [.callback (some "call b")], .register "c" [.callback (some "call c")],
    .addDependency "b" "a", .addDependency "b" "c", .addDependency "c" "b", .addDependency "d" "c"]

/-- From both ends of the lists of edges, the node behind the cycle comes after it. -/
theorem spreadsIn_looped :
    let g := empty.performAll looped
    let reads := fun a => (g.dependenciesOf a).reverse
    let dependents := fun a => (g.dependentsOf a).reverse
    g.Mirrored ∧ (∀ a b, g.Reads a b → a ∈ g.nodes.keys ∧ b ∈ g.nodes.keys) ∧
      (∀ a b, b ∈ reads a ↔ b ∈ g.dependenciesOf a) ∧
      (∀ a b, b ∈ dependents a ↔ b ∈ g.dependentsOf a) ∧
      (g.wave "a").order = ["b", "c", "d"] ∧
      (g.wave "a").callbacks = ["call b", "call c", "call d"] ∧
      (∃ followers, g.SpreadsIn reads dependents "a" followers) ∧
      ∀ followers, g.SpreadsIn reads dependents "a" followers → g.Follows "a" followers := by
  intro g reads dependents
  have hmirrored : g.Mirrored := (holds_performAll looped).mirrored
  have hregistered : ∀ a b, g.Reads a b → a ∈ g.nodes.keys ∧ b ∈ g.nodes.keys := by
    intro a b hedge
    -- The edges are the four that the operations have drawn.
    have hkeys : g.nodes.keys = ["d", "a", "b", "c"] := by decide
    have hedges : edgesAfter looped a b := ((holds_performAll looped).dependencies a b).1 hedge
    simp only [edgesAfter, looped, Operation.edgesAfter, List.foldl_cons, List.foldl_nil,
      or_false] at hedges
    rw [hkeys]
    rcases hedges with ⟨rfl, rfl, -⟩ | ⟨rfl, rfl, -⟩ | ⟨rfl, rfl, -⟩ | ⟨rfl, rfl, -⟩
    all_goals decide
  have hreads : ∀ a b, b ∈ reads a ↔ b ∈ g.dependenciesOf a := fun _ _ => List.mem_reverse
  have hdependents : ∀ a b, b ∈ dependents a ↔ b ∈ g.dependentsOf a := fun _ _ => List.mem_reverse
  obtain ⟨hexists, hfollows, -⟩ := spreadsIn_spec hmirrored hregistered hreads hdependents "a"
  exact ⟨hmirrored, hregistered, hreads, hdependents, by decide, by decide, hexists,
    fun followers hspreads => (hfollows followers hspreads).1⟩

end Graph

end LiveSheet
