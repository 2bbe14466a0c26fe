import LiveSheet.Proofs.Work
import Mathlib.Algebra.BigOperators.Ring.Finset
import Mathlib.Algebra.Order.BigOperators.Group.Finset
import Mathlib.Data.Prod.Lex
import Mathlib.Tactic.Ring

/-!
# Every sheet comes to rest

A node is quiet if its recalculation would be silent. A loud recalculation makes its node quiet, and
disquiets only nodes that read it. So there are only finitely many loud ones: first nodes get their
edges, then the nodes that lead to no cycle come to rest, those below first, then the nodes that
lead to one get the kind of a cycle, and then these say so once more. `Sheet.effort` counts this in
lexicographic order (`Effect.effort_lt_or_eq`). A task all of whose recalculations are silent leaves
the queue shorter, so every step of the worker leaves less to do (`Coherent.remaining_lt`).

None of this depends on what evaluations come to, or whether they come to anything: one that raises
an error is silent, and raises the same error again for as long as the same results are read.
-/

namespace LiveSheet.Sheet

open Relation

variable {env : Environment} {s s' : Sheet} {id k : NodeId} {c c' : Calculator} {loud : Bool}

/-! ### Quiet nodes -/

/-- Whether a node reads what it should. -/
def InPlace (env : Environment) (s : Sheet) (k : NodeId) : Prop :=
  ∀ c, s.calculator? k = some c → c.reads = (reading? env s k c).getD []

/-- Whether a node has published or kept what it would come to, or comes to nothing because its
evaluation raises an error. -/
def Quiet (env : Environment) (s : Sheet) (k : NodeId) : Prop :=
  ∀ c, s.calculator? k = some c →
    (reading? env s k c = none →
      c.published = some (printOf c.expression [], .selfReference)) ∧
    ∀ reads, reading? env s k c = some reads →
      (s.graph.LeadsToCycle k → c.published =
        some (printOf c.expression (reads.map s.resultOf), .circularDependency)) ∧
      (¬ s.graph.LeadsToCycle k →
        (∃ result, c.cached = some (printOf c.expression (reads.map s.resultOf), result)) ∨
          ∃ e, conclusion env c.expression (reads.map s.seen) = .error e)

/-- A node is quiet after its recalculation. -/
theorem Verdict.quiet_self (hnames : ∀ e, (env.references e).Nodup) (h : s.Coherent)
    (heffect : Effect s id c' loud s') (hverdict : Verdict env s s' id c c' loud) :
    Quiet env s' id := by
  intro c₁ hc₁
  obtain rfl : c' = c₁ := Option.some.inj (heffect.calculator_self.symm.trans hc₁)
  have hreading : reading? env s' id c' = reading? env s id c := by
    have : reading? env s' id c = reading? env s id c := heffect.reading h id (hnames _)
    unfold reading? at this ⊢
    rw [hverdict.spec.1]
    exact this
  -- What it reads has the same results as before, since it does not read itself.
  have hother : ∀ reads, reading? env s id c = some reads → ∀ a ∈ reads, a ≠ id := by
    rintro reads hsome a ha rfl
    exact (h.mem_reading (hnames _) hsome).2.1 ha
  have hresults : ∀ reads, reading? env s id c = some reads →
      reads.map s'.resultOf = reads.map s.resultOf := fun reads hsome =>
    List.map_congr_left fun a ha => heffect.resultOf_other (hother reads hsome a ha)
  rw [hreading]
  cases hverdict with
  | unresolved reads kind cause =>
    rcases cause with ⟨hnone, rfl, rfl⟩ | ⟨hsome, hcycle, rfl⟩
    · exact ⟨fun _ => rfl, fun reads hreads => by rw [hnone] at hreads; cases hreads⟩
    · refine ⟨fun hreads => (by rw [hsome] at hreads; cases hreads), fun reads' hreads => ?_⟩
      obtain rfl := Option.some.inj (hsome.symm.trans hreads)
      rw [hresults reads hsome]
      exact ⟨fun _ => rfl, fun hnot => absurd hcycle hnot⟩
  | kept reads result hsome hcycle hcached =>
    refine ⟨fun hreads => (by rw [hsome] at hreads; cases hreads), fun reads' hreads => ?_⟩
    obtain rfl := Option.some.inj (hsome.symm.trans hreads)
    rw [hresults reads hsome]
    exact ⟨fun hleads => absurd hleads hcycle, fun _ => .inl ⟨result, hcached⟩⟩
  | concluded reads result hsome hcycle hnew hresult =>
    refine ⟨fun hreads => (by rw [hsome] at hreads; cases hreads), fun reads' hreads => ?_⟩
    obtain rfl := Option.some.inj (hsome.symm.trans hreads)
    rw [hresults reads hsome]
    exact ⟨fun hleads => absurd hleads hcycle, fun _ => .inl ⟨result, rfl⟩⟩
  | raised reads e hsome hcycle hresult =>
    refine ⟨fun hreads => (by rw [hsome] at hreads; cases hreads), fun reads' hreads => ?_⟩
    obtain rfl := Option.some.inj (hsome.symm.trans hreads)
    refine ⟨fun hleads => absurd hleads hcycle, fun _ => .inr ⟨e, ?_⟩⟩
    rw [← hresult, List.map_congr_left fun a ha => heffect.seen_other (hother reads hsome a ha)]

/-- A node whose edges are in place is silent if and only if it is quiet. -/
theorem Verdict.quiet_iff (hc : s.calculator? id = some c)
    (hverdict : Verdict env s s' id c c' loud)
    (hcycle : s'.graph.LeadsToCycle id ↔ s.graph.LeadsToCycle id) :
    Quiet env s id ↔ loud = false := by
  constructor
  · intro hquiet
    obtain ⟨hself, hsome⟩ := hquiet c hc
    cases hverdict with
    | unresolved reads kind cause =>
      rcases cause with ⟨hnone, rfl, rfl⟩ | ⟨hreads, hleads, rfl⟩
      · simpa using hself hnone
      · simpa using (hsome reads hreads).1 (hcycle.1 hleads)
    | kept => rfl
    | concluded reads result hreads hnot hnew hresult =>
      rcases (hsome reads hreads).2 fun hleads => hnot (hcycle.2 hleads) with
        ⟨kept, hkept⟩ | ⟨e, herror⟩
      · exact absurd hkept (hnew kept)
      · rw [hresult] at herror
        cases herror
    | raised => rfl
  · intro hsilent c₁ hc₁
    obtain rfl : c = c₁ := Option.some.inj (hc.symm.trans hc₁)
    cases hverdict with
    | unresolved reads kind cause =>
      -- It is silent only because this very print has been published with this kind.
      have hpublished : c.published =
          some (printOf c.expression (reads.map s.resultOf), kind) := by simpa using hsilent
      rcases cause with ⟨hnone, rfl, rfl⟩ | ⟨hsome, hleads, rfl⟩
      · exact ⟨fun _ => hpublished, fun reads hreads => by rw [hnone] at hreads; cases hreads⟩
      · refine ⟨fun hreads => (by rw [hsome] at hreads; cases hreads), fun reads' hreads => ?_⟩
        obtain rfl := Option.some.inj (hsome.symm.trans hreads)
        exact ⟨fun _ => hpublished, fun hnot => absurd (hcycle.1 hleads) hnot⟩
    | kept reads result hsome hnot hcached =>
      refine ⟨fun hreads => (by rw [hsome] at hreads; cases hreads), fun reads' hreads => ?_⟩
      obtain rfl := Option.some.inj (hsome.symm.trans hreads)
      exact ⟨fun hleads => absurd (hcycle.2 hleads) hnot, fun _ => .inl ⟨result, hcached⟩⟩
    | concluded => cases hsilent
    | raised reads e hsome hnot hresult =>
      refine ⟨fun hreads => (by rw [hsome] at hreads; cases hreads), fun reads' hreads => ?_⟩
      obtain rfl := Option.some.inj (hsome.symm.trans hreads)
      exact ⟨fun hleads => absurd (hcycle.2 hleads) hnot, fun _ => .inr ⟨e, hresult⟩⟩

/-- Another node stays quiet or unquiet, if the edges stay and what it reads shows the same
results. -/
theorem Effect.quiet_other (heffect : Effect s id c' loud s')
    (hnames : ∀ e, (env.references e).Nodup) (h : s.Coherent)
    (hedges : s'.graph.Reads = s.graph.Reads) (hk : k ≠ id)
    (hresults : ∀ c reads, s.calculator? k = some c → reading? env s k c = some reads →
      ∀ a ∈ reads, s'.resultOf a = s.resultOf a) :
    Quiet env s' k ↔ Quiet env s k := by
  have hcycle := Graph.leadsToCycle_congr hedges k
  unfold Quiet
  rw [heffect.calculator_other hk]
  refine forall_congr' fun c => forall_congr' fun hc => ?_
  rw [heffect.reading h k (hnames c.expression)]
  refine and_congr_right fun _ => forall_congr' fun reads => forall_congr' fun hreads => ?_
  have hsame := hresults c reads hc hreads
  have hseen : reads.map s'.seen = reads.map s.seen :=
    List.map_congr_left fun a ha => by rw [seen, seen, heffect.headerOf, hsame a ha]
  rw [List.map_congr_left hsame, hseen, hcycle]

/-! ### How much is left to do -/

open scoped Classical in
/-- The registered nodes with some property. -/
noncomputable def nodesWith (s : Sheet) (p : NodeId → Prop) : Finset NodeId :=
  s.graph.nodes.keys.toFinset.filter p

/-- The nodes with a property are registered and have it. -/
theorem mem_nodesWith {p : NodeId → Prop} :
    k ∈ s.nodesWith p ↔ k ∈ s.graph.nodes.keys ∧ p k := by
  simp [nodesWith]

/-- The nodes with a property are the same in sheets where the same have it. -/
theorem nodesWith_congr {p p' : NodeId → Prop} (hkeys : s'.graph.nodes.keys = s.graph.nodes.keys)
    (hp : ∀ k ∈ s.graph.nodes.keys, p' k ↔ p k) : s'.nodesWith p' = s.nodesWith p := by
  ext k
  rw [mem_nodesWith, mem_nodesWith, hkeys]
  exact and_congr_right (hp k)

/-- Fewer nodes have a property if one has lost it and none has got it. -/
theorem card_nodesWith_lt {p p' : NodeId → Prop} (hkeys : s'.graph.nodes.keys = s.graph.nodes.keys)
    (hp : ∀ k ∈ s.graph.nodes.keys, p' k → p k) (hid : id ∈ s.graph.nodes.keys) (hbefore : p id)
    (hafter : ¬ p' id) : (s'.nodesWith p').card < (s.nodesWith p).card := by
  have hsubset : s'.nodesWith p' ⊆ s.nodesWith p := by
    intro k hk
    rw [mem_nodesWith, hkeys] at hk
    exact mem_nodesWith.2 ⟨hk.1, hp k hk.1 hk.2⟩
  refine Finset.card_lt_card ((Finset.ssubset_iff_of_subset hsubset).2 ⟨id, ?_, ?_⟩)
  · exact mem_nodesWith.2 ⟨hid, hbefore⟩
  · exact fun hmem => hafter (mem_nodesWith.1 hmem).2

/-- The number of nodes that depend on a node. -/
noncomputable def height (s : Sheet) (k : NodeId) : ℕ :=
  (s.nodesWith fun a => TransGen s.graph.Reads a k).card

/-- What counts for a node that disquiets nodes of less height, as many as there are. -/
noncomputable def weight (s : Sheet) (k : NodeId) : ℕ :=
  ((s.nodesWith fun _ => True).card + 1) ^ s.height k

/-- Whether a node has its edges, leads to no cycle, and is not quiet. -/
def Restless (env : Environment) (s : Sheet) (k : NodeId) : Prop :=
  InPlace env s k ∧ ¬ s.graph.LeadsToCycle k ∧ ¬ Quiet env s k

/-- The nodes that lack their edges; the weight of those that are not quiet and lead to no cycle;
the nodes that lead to a cycle without showing it; and those of them that are not quiet. -/
noncomputable def effort (env : Environment) (s : Sheet) : ℕ ×ₗ ℕ ×ₗ ℕ ×ₗ ℕ :=
  toLex ((s.nodesWith fun k => ¬ InPlace env s k).card,
    toLex (∑ k ∈ s.nodesWith (Restless env s), s.weight k,
      toLex ((s.nodesWith fun k =>
          s.graph.LeadsToCycle k ∧ s.resultOf k ≠ .failed .circularDependency).card,
        (s.nodesWith fun k => s.graph.LeadsToCycle k ∧ ¬ Quiet env s k).card)))

/-- A sum of powers gets less when one of them is replaced by less than the base many of less
exponent. -/
theorem sum_pow_lt {α : Type} [DecidableEq α] {before after : Finset α} (fresh : Finset α)
    {h : α → ℕ} {x : α} {n : ℕ} (hx : x ∈ before) (hafter : after ⊆ before.erase x ∪ fresh)
    (hless : ∀ y ∈ fresh, h y < h x) (hcard : fresh.card ≤ n) :
    ∑ y ∈ after, (n + 1) ^ h y < ∑ y ∈ before, (n + 1) ^ h y := by
  have hfresh : (n + 1) * ∑ y ∈ fresh, (n + 1) ^ h y ≤ n * (n + 1) ^ h x := by
    calc (n + 1) * ∑ y ∈ fresh, (n + 1) ^ h y
        = ∑ y ∈ fresh, (n + 1) ^ (h y + 1) := by
          rw [Finset.mul_sum]
          exact Finset.sum_congr rfl fun y _ => by ring
      _ ≤ ∑ _y ∈ fresh, (n + 1) ^ h x :=
          Finset.sum_le_sum fun y hy => Nat.pow_le_pow_right (Nat.succ_pos n) (hless y hy)
      _ = fresh.card * (n + 1) ^ h x := by rw [Finset.sum_const, Nat.nsmul_eq_mul]
      _ ≤ n * (n + 1) ^ h x := Nat.mul_le_mul_right _ hcard
  have hpos : 0 < (n + 1) ^ h x := Nat.pow_pos (Nat.succ_pos n)
  -- If it were not less, `n + 1` times the sum would be more than `n` times the power.
  have hlt : ∑ y ∈ fresh, (n + 1) ^ h y < (n + 1) ^ h x := by
    by_contra hle
    have := Nat.mul_le_mul_left (n + 1) (Nat.le_of_not_lt hle)
    rw [Nat.succ_mul] at this
    omega
  calc ∑ y ∈ after, (n + 1) ^ h y
      ≤ ∑ y ∈ before.erase x ∪ fresh, (n + 1) ^ h y :=
        Finset.sum_le_sum_of_subset hafter
    _ ≤ ∑ y ∈ before.erase x, (n + 1) ^ h y + ∑ y ∈ fresh, (n + 1) ^ h y := by
        rw [← Finset.sum_union_inter]
        exact Nat.le_add_right _ _
    _ < ∑ y ∈ before.erase x, (n + 1) ^ h y + (n + 1) ^ h x := by omega
    _ = ∑ y ∈ before, (n + 1) ^ h y := Finset.sum_erase_add before _ hx

/-! ### Less effort after every loud recalculation -/

/-- The weight of a node depends on the nodes and the edges only. -/
theorem weight_congr (hkeys : s'.graph.nodes.keys = s.graph.nodes.keys)
    (hedges : s'.graph.Reads = s.graph.Reads) (k : NodeId) : s'.weight k = s.weight k := by
  unfold weight height
  rw [nodesWith_congr hkeys (p := fun _ => True) fun _ _ => Iff.rfl,
    nodesWith_congr hkeys fun a _ => by rw [hedges]]

/-- Whether another node has its edges does not change. -/
theorem Effect.inPlace_other (heffect : Effect s id c' loud s')
    (hnames : ∀ e, (env.references e).Nodup) (h : s.Coherent) (hk : k ≠ id) :
    InPlace env s' k ↔ InPlace env s k := by
  unfold InPlace
  rw [heffect.calculator_other hk]
  refine forall_congr' fun c => forall_congr' fun _ => ?_
  rw [heffect.reading h k (hnames c.expression)]

/-- The node has its edges after its recalculation. -/
theorem Effect.inPlace_self (heffect : Effect s id c' loud s')
    (hnames : ∀ e, (env.references e).Nodup) (h : s.Coherent)
    (hverdict : Verdict env s s' id c c' loud) : InPlace env s' id := by
  intro c₁ hc₁
  obtain rfl : c' = c₁ := Option.some.inj (heffect.calculator_self.symm.trans hc₁)
  obtain ⟨hexpression, -, hreads⟩ := hverdict.spec
  rw [heffect.reading h id (hnames _), hreads]
  unfold reading?
  rw [hexpression]

/-- A node with its edges in place that reads another one has an edge to it. -/
theorem InPlace.reads (hplace : InPlace env s k) (hnames : ∀ e, (env.references e).Nodup)
    (h : s.Coherent) {ck : Calculator} (hck : s.calculator? k = some ck) {reads : List NodeId}
    (hreads : reading? env s k ck = some reads) {a : NodeId} (ha : a ∈ reads) :
    s.graph.Reads k a := by
  have hedge := hplace ck hck
  rw [hreads, Option.getD_some] at hedge
  exact (h.edges k a).2 ⟨ck, hck, hedge ▸ ha, (h.mem_reading (hnames _) hreads).2.2 a ha⟩

/-- What depends on a node that leads to no cycle has less height, if it leads to none itself. -/
theorem height_lt (h : s.Coherent) {a b : NodeId} (hreads : s.graph.Reads a b)
    (hcycle : ¬ s.graph.LeadsToCycle a) : s.height a < s.height b := by
  have ha : a ∈ s.graph.nodes.keys := by
    obtain ⟨c, hc, -⟩ := (h.edges a b).1 hreads
    exact h.registered hc
  refine card_nodesWith_lt rfl (fun k _ hpath => hpath.tail hreads) ha (.single hreads)
    fun hself => ?_
  exact hcycle ⟨a, .refl, hself⟩

/-- A loud recalculation of a node that leads to no cycle moves the unrest to nodes of less
height. -/
theorem Effect.weight_lt (heffect : Effect s id c' loud s')
    (hnames : ∀ e, (env.references e).Nodup) (h : s.Coherent) (hid : id ∈ s.graph.nodes.keys)
    (hverdict : Verdict env s s' id c c' loud) (hedges : s'.graph.Reads = s.graph.Reads)
    (hrestless : Restless env s id) :
    ∑ k ∈ s'.nodesWith (Restless env s'), s'.weight k <
      ∑ k ∈ s.nodesWith (Restless env s), s.weight k := by
  -- The edges are the same, so every height is.
  have hweight : ∑ k ∈ s'.nodesWith (Restless env s'), s'.weight k =
      ∑ k ∈ s'.nodesWith (Restless env s'), s.weight k :=
    Finset.sum_congr rfl fun k _ => weight_congr heffect.nodeKeys hedges k
  rw [hweight]
  refine sum_pow_lt (x := id)
    (s.nodesWith fun k => s.graph.Reads k id ∧ ¬ s.graph.LeadsToCycle k)
    (mem_nodesWith.2 ⟨hid, hrestless⟩) (fun k hk => ?_) (fun k hk => ?_) ?_
  · obtain ⟨hkey, hplace, hcycle, hquiet⟩ := mem_nodesWith.1 hk
    rw [heffect.nodeKeys] at hkey
    have hne : k ≠ id := by
      rintro rfl
      exact hquiet (hverdict.quiet_self hnames h heffect)
    rw [heffect.inPlace_other hnames h hne] at hplace
    rw [Graph.leadsToCycle_congr hedges] at hcycle
    rw [Finset.mem_union, Finset.mem_erase, mem_nodesWith, mem_nodesWith]
    -- A node that does not read it sees nothing new, so it was restless before.
    by_cases hreads : s.graph.Reads k id
    · exact .inr ⟨hkey, hreads, hcycle⟩
    · refine .inl ⟨hne, hkey, hplace, hcycle, fun hbefore => hquiet ?_⟩
      refine (heffect.quiet_other hnames h hedges hne fun ck reads hck hsome a ha => ?_).2 hbefore
      refine heffect.resultOf_other ?_
      rintro rfl
      exact hreads (hplace.reads hnames h hck hsome ha)
  · obtain ⟨-, hreads, hcycle⟩ := mem_nodesWith.1 hk
    exact height_lt h hreads hcycle
  · exact Finset.card_le_card fun k hk => mem_nodesWith.2 ⟨(mem_nodesWith.1 hk).1, trivial⟩

/-- A node that leads to a cycle reads something. -/
theorem exists_reads_of_leadsToCycle (hcycle : s.graph.LeadsToCycle k) :
    ∃ a, s.graph.Reads k a := by
  obtain ⟨b, hreach, hback⟩ := hcycle
  rcases ReflTransGen.cases_head hreach with rfl | ⟨a, hreads, -⟩
  · obtain ⟨a, hreads, -⟩ := TransGen.head'_iff.1 hback
    exact ⟨a, hreads⟩
  · exact ⟨a, hreads⟩

/-- A node that leads to a cycle shows it after its recalculation. -/
theorem Verdict.result_of_leadsToCycle (heffect : Effect s id c' loud s')
    (hverdict : Verdict env s s' id c c' loud) (hcycle : s'.graph.LeadsToCycle id) :
    c'.result = .failed .circularDependency := by
  cases hverdict with
  | unresolved reads kind cause =>
    rcases cause with ⟨-, rfl, -⟩ | ⟨-, -, rfl⟩
    · obtain ⟨a, hreads⟩ := exists_reads_of_leadsToCycle hcycle
      have := (heffect.edges id a).1 hreads
      simp at this
    · rfl
  | kept reads result hsome hnot => exact absurd hcycle hnot
  | concluded reads result hsome hnot => exact absurd hcycle hnot
  | raised reads e hsome hnot => exact absurd hcycle hnot

/-- A recalculation of a node that leads to a cycle does not disquiet a node that leads to none. -/
theorem Effect.restless_iff (heffect : Effect s id c' loud s')
    (hnames : ∀ e, (env.references e).Nodup) (h : s.Coherent)
    (hedges : s'.graph.Reads = s.graph.Reads) (hcycle : s.graph.LeadsToCycle id) (k : NodeId) :
    Restless env s' k ↔ Restless env s k := by
  unfold Restless
  rw [Graph.leadsToCycle_congr hedges]
  by_cases hne : k = id
  · subst hne
    simp [hcycle]
  · rw [heffect.inPlace_other hnames h hne]
    refine and_congr_right fun hplace => and_congr_right fun hnot => not_congr ?_
    refine heffect.quiet_other hnames h hedges hne fun ck reads hck hsome a ha => ?_
    refine heffect.resultOf_other ?_
    rintro rfl
    obtain ⟨b, hreach, hback⟩ := hcycle
    exact hnot ⟨b, .head (hplace.reads hnames h hck hsome ha) hreach, hback⟩

/-- A recalculation puts the edges of its node in place. -/
theorem Effect.effort_lt_of_not_inPlace (heffect : Effect s id c' loud s')
    (hnames : ∀ e, (env.references e).Nodup) (h : s.Coherent) (hc : s.calculator? id = some c)
    (hverdict : Verdict env s s' id c c' loud) (hplace : ¬ InPlace env s id) :
    effort env s' < effort env s := by
  refine Prod.Lex.toLex_lt_toLex.2 (.inl ?_)
  refine card_nodesWith_lt heffect.nodeKeys (fun k _ hnot => ?_) (h.registered hc) hplace
    (not_not_intro (heffect.inPlace_self hnames h hverdict))
  by_cases hne : k = id
  · exact absurd (hne ▸ heffect.inPlace_self hnames h hverdict) hnot
  · rwa [heffect.inPlace_other hnames h hne] at hnot

/-- Edges that are in place stay. -/
theorem Effect.reads_of_inPlace (heffect : Effect s id c' loud s')
    (hnames : ∀ e, (env.references e).Nodup) (h : s.Coherent) (hc : s.calculator? id = some c)
    (hverdict : Verdict env s s' id c c' loud) (hplace : InPlace env s id) :
    s'.graph.Reads = s.graph.Reads := by
  obtain ⟨-, -, hreads⟩ := hverdict.spec
  refine heffect.reads_of_eq h hc (hreads.trans (hplace c hc).symm) ?_
  rw [hreads]
  exact (h.mem_getD_reading (hnames _)).2

/-- Nodes in place stay so when a node in place is recalculated. -/
theorem Effect.inPlace_iff (heffect : Effect s id c' loud s')
    (hnames : ∀ e, (env.references e).Nodup) (h : s.Coherent)
    (hverdict : Verdict env s s' id c c' loud) (hplace : InPlace env s id) (k : NodeId) :
    InPlace env s' k ↔ InPlace env s k := by
  by_cases hne : k = id
  · subst hne
    exact iff_of_true (heffect.inPlace_self hnames h hverdict) hplace
  · exact heffect.inPlace_other hnames h hne

/-- If the result of the node stays, so does everything about the other nodes. -/
theorem Effect.quiet_other_of_eq (heffect : Effect s id c' loud s')
    (hnames : ∀ e, (env.references e).Nodup) (h : s.Coherent)
    (hedges : s'.graph.Reads = s.graph.Reads) (hresults : ∀ k, s'.resultOf k = s.resultOf k)
    (hne : k ≠ id) : Quiet env s' k ↔ Quiet env s k :=
  heffect.quiet_other hnames h hedges hne fun _ _ _ _ a _ => hresults a

/-- A silent recalculation changes nothing that takes effort. -/
theorem Effect.effort_eq_of_silent (heffect : Effect s id c' loud s')
    (hnames : ∀ e, (env.references e).Nodup) (h : s.Coherent) (hc : s.calculator? id = some c)
    (hverdict : Verdict env s s' id c c' loud) (hplace : InPlace env s id) (hloud : loud = false) :
    effort env s' = effort env s := by
  have hkeys := heffect.nodeKeys
  have hedges := heffect.reads_of_inPlace hnames h hc hverdict hplace
  have hcycles := Graph.leadsToCycle_congr hedges
  have hresults : ∀ k, s'.resultOf k = s.resultOf k := fun k =>
    congrArg Prod.snd (heffect.seen_of_eq hc (hverdict.result_of_silent h hc hloud) k)
  have hquiet : ∀ k, Quiet env s' k ↔ Quiet env s k := by
    intro k
    by_cases hne : k = id
    · subst hne
      exact iff_of_true (hverdict.quiet_self hnames h heffect)
        ((hverdict.quiet_iff hc (hcycles k)).2 hloud)
    · exact heffect.quiet_other_of_eq hnames h hedges hresults hne
  have hstale : (s'.nodesWith fun k => ¬ InPlace env s' k) =
      s.nodesWith fun k => ¬ InPlace env s k :=
    nodesWith_congr hkeys fun k _ => not_congr (heffect.inPlace_iff hnames h hverdict hplace k)
  have hrestless : s'.nodesWith (Restless env s') = s.nodesWith (Restless env s) := by
    refine nodesWith_congr hkeys fun k _ => ?_
    unfold Restless
    rw [hcycles, hquiet, heffect.inPlace_iff hnames h hverdict hplace]
  -- All four measures are counted on what has stayed.
  unfold effort
  rw [hstale, hrestless, Finset.sum_congr rfl fun k _ => weight_congr hkeys hedges k,
    nodesWith_congr hkeys fun k _ => by rw [hcycles, hresults],
    nodesWith_congr hkeys fun k _ => by rw [hcycles, hquiet]]

/-- A recalculation of a node that leads to a cycle makes it show the cycle. -/
theorem Effect.resultOf_of_leadsToCycle (heffect : Effect s id c' loud s')
    (hverdict : Verdict env s s' id c c' loud) (hcycle : s'.graph.LeadsToCycle id) :
    s'.resultOf id = .failed .circularDependency := by
  rw [resultOf_eq heffect.calculator_self, hverdict.result_of_leadsToCycle heffect hcycle]

/-- A node that gets to show its cycle is one less that does not. -/
theorem Effect.unshown_lt (heffect : Effect s id c' loud s') (hid : id ∈ s.graph.nodes.keys)
    (hverdict : Verdict env s s' id c c' loud) (hedges : s'.graph.Reads = s.graph.Reads)
    (hcycle : s.graph.LeadsToCycle id) (hshown : s.resultOf id ≠ .failed .circularDependency) :
    (s'.nodesWith fun k =>
        s'.graph.LeadsToCycle k ∧ s'.resultOf k ≠ .failed .circularDependency).card <
      (s.nodesWith fun k =>
        s.graph.LeadsToCycle k ∧ s.resultOf k ≠ .failed .circularDependency).card := by
  have hcycles := Graph.leadsToCycle_congr hedges
  have hresult := heffect.resultOf_of_leadsToCycle hverdict ((hcycles id).2 hcycle)
  refine card_nodesWith_lt heffect.nodeKeys
    (fun k _ hk => ⟨(hcycles k).1 hk.1, fun hbefore => hk.2 ?_⟩) hid ⟨hcycle, hshown⟩
    fun hafter => hafter.2 hresult
  by_cases hne : k = id
  · exact hne ▸ hresult
  · rw [heffect.resultOf_other hne, hbefore]

/-- A node that falls quiet without a change of results is one less to recalculate. -/
theorem Effect.unquiet_lt (heffect : Effect s id c' loud s')
    (hnames : ∀ e, (env.references e).Nodup) (h : s.Coherent) (hid : id ∈ s.graph.nodes.keys)
    (hverdict : Verdict env s s' id c c' loud) (hedges : s'.graph.Reads = s.graph.Reads)
    (hcycle : s.graph.LeadsToCycle id) (hresults : ∀ k, s'.resultOf k = s.resultOf k)
    (hnot : ¬ Quiet env s id) :
    (s'.nodesWith fun k => s'.graph.LeadsToCycle k ∧ ¬ Quiet env s' k).card <
    (s.nodesWith fun k => s.graph.LeadsToCycle k ∧ ¬ Quiet env s k).card := by
  have hquiet := hverdict.quiet_self hnames h heffect
  have hcycles := Graph.leadsToCycle_congr hedges
  refine card_nodesWith_lt heffect.nodeKeys
    (fun k _ hk => ⟨(hcycles k).1 hk.1, fun hbefore => hk.2 ?_⟩) hid ⟨hcycle, hnot⟩
    fun hafter => hafter.2 hquiet
  by_cases hne : k = id
  · exact hne ▸ hquiet
  · exact (heffect.quiet_other_of_eq hnames h hedges hresults hne).2 hbefore

/-- A loud recalculation takes effort: its node comes to rest, or it shows its cycle, or it says so
once more. -/
theorem Effect.effort_lt_of_loud (heffect : Effect s id c' loud s')
    (hnames : ∀ e, (env.references e).Nodup) (h : s.Coherent) (hc : s.calculator? id = some c)
    (hverdict : Verdict env s s' id c c' loud) (hplace : InPlace env s id) (hloud : loud = true) :
    effort env s' < effort env s := by
  have hid := h.registered hc
  have hkeys := heffect.nodeKeys
  have hedges := heffect.reads_of_inPlace hnames h hc hverdict hplace
  have hcycles := Graph.leadsToCycle_congr hedges
  have hnot : ¬ Quiet env s id := by
    rw [hverdict.quiet_iff hc (hcycles id), hloud]
    simp
  have hstale : (s'.nodesWith fun k => ¬ InPlace env s' k) =
      s.nodesWith fun k => ¬ InPlace env s k :=
    nodesWith_congr hkeys fun k _ => not_congr (heffect.inPlace_iff hnames h hverdict hplace k)
  refine Prod.Lex.toLex_lt_toLex.2 (.inr ⟨congrArg Finset.card hstale, ?_⟩)
  -- As many nodes are in place as before. The restless nodes weigh less if this one leads to no
  -- cycle, and the same otherwise.
  by_cases hcycle : s.graph.LeadsToCycle id
  swap
  · exact Prod.Lex.toLex_lt_toLex.2
      (.inl (heffect.weight_lt hnames h hid hverdict hedges ⟨hplace, hcycle, hnot⟩))
  have hrestless : s'.nodesWith (Restless env s') = s.nodesWith (Restless env s) :=
    nodesWith_congr hkeys fun k _ => heffect.restless_iff hnames h hedges hcycle k
  refine Prod.Lex.toLex_lt_toLex.2 (.inr ⟨?_, ?_⟩)
  · simp only
    rw [hrestless]
    exact Finset.sum_congr rfl fun k _ => weight_congr hkeys hedges k
  -- One node more is quiet if this one showed its cycle before, and one more shows it otherwise.
  by_cases hshown : s.resultOf id = .failed .circularDependency
  · have hresult : c'.result = c.result := by
      rw [hverdict.result_of_leadsToCycle heffect ((hcycles id).2 hcycle), ← hshown,
        resultOf_eq hc]
    have hresults : ∀ k, s'.resultOf k = s.resultOf k := fun k =>
      congrArg Prod.snd (heffect.seen_of_eq hc hresult k)
    refine Prod.Lex.toLex_lt_toLex.2 (.inr ⟨?_, ?_⟩)
    · simp only
      rw [nodesWith_congr hkeys fun k _ => by rw [hcycles, hresults]]
    · exact heffect.unquiet_lt hnames h hid hverdict hedges hcycle hresults hnot
  · exact Prod.Lex.toLex_lt_toLex.2
      (.inl (heffect.unshown_lt hid hverdict hedges hcycle hshown))

/-- A recalculation takes effort, or it is silent and changes nothing that takes effort. -/
theorem Effect.effort_lt_or_eq (heffect : Effect s id c' loud s')
    (hnames : ∀ e, (env.references e).Nodup) (h : s.Coherent) (hc : s.calculator? id = some c)
    (hverdict : Verdict env s s' id c c' loud) :
    effort env s' < effort env s ∨ effort env s' = effort env s ∧ s'.agenda = s.agenda := by
  by_cases hplace : InPlace env s id
  · cases hloud : loud with
    | false =>
      exact .inr ⟨heffect.effort_eq_of_silent hnames h hc hverdict hplace hloud,
        heffect.silent hloud⟩
    | true => exact .inl (heffect.effort_lt_of_loud hnames h hc hverdict hplace hloud)
  · exact .inl (heffect.effort_lt_of_not_inPlace hnames h hc hverdict hplace)

/-! ### The worker comes to rest -/

/-- A task takes effort, or it changes nothing on the agenda. -/
theorem effort_recalculateEach (hnames : ∀ e, (env.references e).Nodup) (h : s.Coherent)
    (ids : List NodeId) :
    (s.recalculateEach env ids).agenda.timers = s.agenda.timers ∧
      (effort env (s.recalculateEach env ids) < effort env s ∨
        effort env (s.recalculateEach env ids) = effort env s ∧
          (s.recalculateEach env ids).agenda = s.agenda) := by
  induction ids generalizing s with
  | nil => exact ⟨rfl, .inr ⟨rfl, rfl⟩⟩
  | cons id ids ih =>
    have hfirst : (recalculate env s id).1.agenda.timers = s.agenda.timers ∧
        (effort env (recalculate env s id).1 < effort env s ∨
          effort env (recalculate env s id).1 = effort env s ∧
            (recalculate env s id).1.agenda = s.agenda) := by
      cases hc : s.calculator? id with
      | none =>
        rw [recalculate_of_none hc]
        exact ⟨rfl, .inr ⟨rfl, rfl⟩⟩
      | some c =>
        obtain ⟨c', loud, heffect, hverdict⟩ :=
          h.recalculate_spec (hnames c.expression) hc
        exact ⟨heffect.agenda_eq.1, heffect.effort_lt_or_eq hnames h hc hverdict⟩
    obtain ⟨htimers, heffort⟩ := hfirst
    obtain ⟨htimers', heffort'⟩ := ih (h.recalculate hnames id)
    refine ⟨htimers'.trans htimers, ?_⟩
    change effort env (recalculateEach env (recalculate env s id).1 ids) < _ ∨
      effort env (recalculateEach env (recalculate env s id).1 ids) = _ ∧
        (recalculateEach env (recalculate env s id).1 ids).agenda = _
    -- Only if none of them takes effort does the agenda stay.
    rcases heffort with hlt | ⟨heq, hagenda⟩
    · rcases heffort' with hlt' | ⟨heq', -⟩
      · exact .inl (hlt'.trans hlt)
      · exact .inl (heq' ▸ hlt)
    · rw [← heq, ← hagenda]
      exact heffort'

/-- What is left to do: the timers, the effort, and the tasks in the queue. -/
noncomputable def remaining (env : Environment) (s : Sheet) :
    ℕ ×ₗ (ℕ ×ₗ ℕ ×ₗ ℕ ×ₗ ℕ) ×ₗ ℕ :=
  toLex (s.agenda.timers.length, toLex (effort env s, s.agenda.queue.length))

/-- Every step of the worker leaves less to do. -/
theorem Coherent.remaining_lt (hnames : ∀ e, (env.references e).Nodup) (h : s.Coherent)
    {limit : Option Int} (hstep : (worker env).step? limit s = some s') :
    remaining env s' < remaining env s := by
  unfold Worker.step? at hstep
  simp only [worker] at hstep
  split at hstep
  · next task rest hqueue =>
    obtain rfl := Option.some.inj hstep
    rw [perform_eq]
    have hpopped : ({ s with agenda := { s.agenda with queue := rest } } : Sheet).Coherent :=
      h.withAgenda h.timers
    obtain ⟨htimers, heffort⟩ := effort_recalculateEach hnames hpopped task.ids
    refine Prod.Lex.toLex_lt_toLex.2 (.inr ⟨congrArg List.length htimers, ?_⟩)
    refine Prod.Lex.toLex_lt_toLex.2 (heffort.imp id fun hsame => ⟨hsame.1, ?_⟩)
    simp only [hsame.2, hqueue, List.length_cons, Nat.lt_succ_self]
  · split at hstep
    · next due hdue =>
      split at hstep
      · obtain rfl := Option.some.inj hstep
        refine Prod.Lex.toLex_lt_toLex.2 (.inl ?_)
        obtain ⟨t, ht, htdue⟩ := List.mem_map.1 (List.min?_mem hdue)
        refine List.length_filter_lt_length_iff_exists.2 ⟨t, ht, ?_⟩
        simp [htdue]
      · cases hstep
    · cases hstep

end LiveSheet.Sheet
