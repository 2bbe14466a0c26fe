import LiveSheet.Graph.Search
import Mathlib.Logic.Relation
import Mathlib.Data.List.Nodup

/-!
# What a depth-first search finds

A walk that goes deep enough finishes exactly the nodes that its roots lead to (`mem_finishOrder`),
each once (`nodup_finishOrder`), and each after its successors, apart from successors that lead back
to it (`finishOrder_ordered`). Hence the order leaves a node before one of its successors exactly if
a cycle can be reached (`reachesCycle_iff`), and a node on no cycle comes after all that it leads to
(`mem_before_of_not_onCycle`).

The invariant of a walk is `Walk.Good`. What a visit adds is described by `Walk.Grows`: the nodes
that it enters are those that it finishes, so the nodes that are entered but not finished, all of
which lead to the node that is visited, are the same before and after.
-/

namespace LiveSheet.Search

open Relation

variable {κ : Type}

/-- One step along an edge. -/
def Edge (next : κ → List κ) (a b : κ) : Prop :=
  b ∈ next a

/-- Whether a node leads to a cycle. -/
def LeadsToCycle (next : κ → List κ) (a : κ) : Prop :=
  ∃ b, ReflTransGen (Edge next) a b ∧ TransGen (Edge next) b b

/-- What holds of a walk between two visits. -/
structure Walk.Good (next : κ → List κ) (w : Walk κ) : Prop where
  nodup : w.finished.Nodup
  entered : ∀ x ∈ w.finished, x ∈ w.entered
  closed : ∀ x ∈ w.finished, ∀ y ∈ next x, y ∈ w.entered
  ordered : ∀ later x earlier, w.finished = later ++ x :: earlier →
    ∀ z ∈ x :: earlier, ∀ y ∈ next z, y ∈ earlier ∨ ReflTransGen (Edge next) y x

/-- What a walk comes to from some nodes on: it has entered and finished new nodes, the same ones,
that these nodes lead to. -/
def Walk.Grows (next : κ → List κ) (roots : List κ) (w w' : Walk κ) : Prop :=
  ∃ new, w'.finished = new ++ w.finished ∧ (∀ x, x ∈ w'.entered ↔ x ∈ new ∨ x ∈ w.entered) ∧
    ∀ x ∈ new, x ∉ w.entered ∧ ∃ k ∈ roots, ReflTransGen (Edge next) k x

/-- Whether every node that a walk has entered but not finished leads to a node. -/
def Walk.IsAbove (next : κ → List κ) (w : Walk κ) (k : κ) : Prop :=
  ∀ x ∈ w.entered, x ∉ w.finished → ReflTransGen (Edge next) x k

/-- A walk that enters a node. -/
def Walk.enter (w : Walk κ) (k : κ) : Walk κ :=
  ⟨k :: w.entered, w.finished⟩

/-- A walk that finishes a node. -/
def Walk.finish (w : Walk κ) (k : κ) : Walk κ :=
  ⟨w.entered, k :: w.finished⟩

/-- The number of places that a walk has not entered. -/
def Walk.fresh [DecidableEq κ] (places : List κ) (w : Walk κ) : Nat :=
  places.countP (· ∉ w.entered)

namespace Walk

variable {next : κ → List κ} {roots : List κ} {w w' w'' : Walk κ}

/-- A walk that stands still. -/
theorem Grows.refl (roots : List κ) (w : Walk κ) : Grows next roots w w :=
  ⟨[], by simp, by simp, by simp⟩

/-- What was entered stays entered. -/
theorem Grows.entered (h : Grows next roots w w') {x : κ} (hx : x ∈ w.entered) :
    x ∈ w'.entered := by
  obtain ⟨new, -, hentered, -⟩ := h
  exact (hentered x).2 (.inr hx)

/-- What is entered but not finished was so before. -/
theorem Grows.unfinished (h : Grows next roots w w') {x : κ} (hx : x ∈ w'.entered)
    (hunfinished : x ∉ w'.finished) : x ∈ w.entered ∧ x ∉ w.finished := by
  obtain ⟨new, hfinished, hentered, -⟩ := h
  rw [hfinished, List.mem_append, not_or] at hunfinished
  rcases (hentered x).1 hx with hnew | hold
  · exact absurd hnew hunfinished.1
  · exact ⟨hold, hunfinished.2⟩

/-- One growth after another. -/
theorem Grows.trans {roots' : List κ} (h : Grows next roots w w') (h' : Grows next roots' w' w'') :
    Grows next (roots ++ roots') w w'' := by
  obtain ⟨new, hfinished, hentered, hnew⟩ := h
  obtain ⟨new', hfinished', hentered', hnew'⟩ := h'
  refine ⟨new' ++ new, ?_, ?_, ?_⟩
  · rw [hfinished', hfinished, List.append_assoc]
  · intro x
    rw [hentered', hentered, List.mem_append, or_assoc]
  · intro x hx
    rcases List.mem_append.1 hx with hx | hx
    · obtain ⟨hfresh, k, hk, hreach⟩ := hnew' x hx
      exact ⟨fun hold => hfresh ((hentered x).2 (.inr hold)), k, List.mem_append_right _ hk, hreach⟩
    · obtain ⟨hfresh, k, hk, hreach⟩ := hnew x hx
      exact ⟨hfresh, k, List.mem_append_left _ hk, hreach⟩

/-- What is above a node stays above it. -/
theorem Grows.isAbove (h : Grows next roots w w') {k : κ} (habove : w.IsAbove next k) :
    w'.IsAbove next k := by
  intro x hx hunfinished
  obtain ⟨hold, hnot⟩ := h.unfinished hx hunfinished
  exact habove x hold hnot

variable [DecidableEq κ]

/-- A walk that has entered more has fewer places before it. -/
theorem fresh_le_of_subset (places : List κ) (h : ∀ x ∈ w.entered, x ∈ w'.entered) :
    w'.fresh places ≤ w.fresh places := by
  refine List.countP_mono_left fun x _ hx => ?_
  simp only [decide_eq_true_eq] at hx ⊢
  exact fun hold => hx (h x hold)

/-- Entering a place leaves one place less. -/
theorem fresh_enter_lt {places : List κ} {k : κ} (hk : k ∈ places) (hfresh : k ∉ w.entered) :
    (w.enter k).fresh places < w.fresh places := by
  obtain ⟨before, after, rfl⟩ := List.append_of_mem hk
  have hmono : ∀ x ∈ w.entered, x ∈ (w.enter k).entered := fun x hx => List.mem_cons_of_mem k hx
  have hbefore := fresh_le_of_subset before hmono
  have hafter := fresh_le_of_subset after hmono
  have henter : k ∈ (w.enter k).entered := List.mem_cons_self ..
  unfold Walk.fresh at *
  rw [List.countP_append, List.countP_append, List.countP_cons_of_neg (by simpa using henter),
    List.countP_cons_of_pos (by simpa using hfresh)]
  omega

end Walk

/-! ### A visit -/

/-- What a visit does if it may go as deep as there are places left. -/
def VisitsWell [DecidableEq κ] (next : κ → List κ) (places : List κ) (depth : Nat) : Prop :=
  ∀ w k, w.Good next → w.IsAbove next k → w.fresh places < depth →
    (visit next depth w k).Good next ∧ w.Grows next [k] (visit next depth w k) ∧
      k ∈ (visit next depth w k).entered

section

variable [DecidableEq κ] {next : κ → List κ} {places : List κ}

/-- Visits one after the other. -/
theorem VisitsWell.foldl {depth : Nat} (hvisit : VisitsWell next places depth) (ks : List κ)
    (w : Walk κ) (hgood : w.Good next) (habove : ∀ k ∈ ks, w.IsAbove next k)
    (hfresh : w.fresh places < depth) :
    (ks.foldl (visit next depth) w).Good next ∧
      w.Grows next ks (ks.foldl (visit next depth) w) ∧
      ∀ k ∈ ks, k ∈ (ks.foldl (visit next depth) w).entered := by
  induction ks generalizing w with
  | nil => exact ⟨hgood, .refl [] w, by simp⟩
  | cons k ks ih =>
    obtain ⟨hgood₁, hgrows₁, hk⟩ := hvisit w k hgood (habove k (by simp)) hfresh
    have hfresh₁ := Nat.lt_of_le_of_lt
      (Walk.fresh_le_of_subset places fun x => hgrows₁.entered) hfresh
    obtain ⟨hgood₂, hgrows₂, hks⟩ := ih (visit next depth w k) hgood₁
      (fun j hj => hgrows₁.isAbove (habove j (List.mem_cons_of_mem k hj))) hfresh₁
    refine ⟨hgood₂, hgrows₁.trans hgrows₂, fun j hj => ?_⟩
    rcases List.mem_cons.1 hj with rfl | hj
    · exact hgrows₂.entered hk
    · exact hks j hj

/-- A visit of a node that has not been entered goes through its successors between entering and
finishing it. -/
theorem visit_of_fresh (depth : Nat) {w : Walk κ} {k : κ} (hk : k ∉ w.entered) :
    visit next (depth + 1) w k =
      ((next k).foldl (visit next depth) (w.enter k)).finish k := by
  rw [visit, if_neg hk]
  rfl

/-- A node is finished well when its successors have been gone through. -/
theorem finish_spec {w w' : Walk κ} {k : κ} (hgood : w.Good next) (habove : w.IsAbove next k)
    (hk : k ∉ w.entered) (hgood' : w'.Good next) (hgrows : (w.enter k).Grows next (next k) w')
    (hnext : ∀ y ∈ next k, y ∈ w'.entered) :
    (w'.finish k).Good next ∧ w.Grows next [k] (w'.finish k) ∧ k ∈ (w'.finish k).entered := by
  obtain ⟨new, hfinished, hentered, hnew⟩ := hgrows
  have hkentered : k ∈ w'.entered := (hentered k).2 (.inr (List.mem_cons_self ..))
  have hkfinished : k ∉ w'.finished := by
    rw [hfinished, List.mem_append, not_or]
    exact ⟨fun h => (hnew k h).1 (List.mem_cons_self ..), fun h => hk (hgood.entered k h)⟩
  refine ⟨⟨List.nodup_cons.2 ⟨hkfinished, hgood'.nodup⟩, ?_, ?_, ?_⟩, ⟨k :: new, ?_, ?_, ?_⟩,
    hkentered⟩
  · intro x hx
    rcases List.mem_cons.1 hx with rfl | hx
    · exact hkentered
    · exact hgood'.entered x hx
  · intro x hx y hy
    rcases List.mem_cons.1 hx with rfl | hx
    · exact hnext y hy
    · exact hgood'.closed x hx y hy
  · intro later x earlier heq z hz y hy
    rcases later with _ | ⟨v, later⟩
    · obtain ⟨rfl, rfl⟩ := List.cons.inj heq
      have hyentered : y ∈ w'.entered := by
        rcases List.mem_cons.1 hz with rfl | hz
        · exact hnext y hy
        · exact hgood'.closed z hz y hy
      -- A successor that is entered but not finished leads to the node.
      by_cases hyfinished : y ∈ w'.finished
      · exact .inl hyfinished
      · obtain ⟨hyold, hyunfinished⟩ :=
          Walk.Grows.unfinished ⟨new, hfinished, hentered, hnew⟩ hyentered hyfinished
        rcases List.mem_cons.1 hyold with rfl | hyold
        · exact .inr .refl
        · exact .inr (habove y hyold hyunfinished)
    · obtain ⟨-, htail⟩ := List.cons.inj heq
      exact hgood'.ordered later x earlier htail z hz y hy
  · exact congrArg (k :: ·) hfinished
  · intro x
    have : x ∈ (w'.finish k).entered ↔ x ∈ new ∨ x ∈ k :: w.entered := hentered x
    rw [this, List.mem_cons, List.mem_cons]
    tauto
  · intro x hx
    rcases List.mem_cons.1 hx with rfl | hx
    · exact ⟨hk, x, by simp, .refl⟩
    · obtain ⟨hfreshx, y, hy, hreach⟩ := hnew x hx
      exact ⟨fun h => hfreshx (List.mem_cons_of_mem k h), k, by simp, .head hy hreach⟩

/-- A visit does well at every depth, if edges leave only from the places. -/
theorem visitsWell (hplaces : ∀ a b, b ∈ next a → a ∈ places) (depth : Nat) :
    VisitsWell next places depth := by
  induction depth with
  | zero => exact fun w k _ _ h => absurd h (Nat.not_lt_zero _)
  | succ depth ih =>
    intro w k hgood habove hfresh
    by_cases hk : k ∈ w.entered
    · rw [visit, if_pos hk]
      exact ⟨hgood, .refl [k] w, hk⟩
    have hgood₁ : (w.enter k).Good next :=
      ⟨hgood.nodup, fun x hx => List.mem_cons_of_mem k (hgood.entered x hx),
        fun x hx y hy => List.mem_cons_of_mem k (hgood.closed x hx y hy), hgood.ordered⟩
    -- All that is unfinished leads to the node, and the node leads to its successors.
    have habove₁ : ∀ y ∈ next k, (w.enter k).IsAbove next y := by
      intro y hy x hx hunfinished
      rcases List.mem_cons.1 hx with rfl | hx
      · exact .single hy
      · exact (habove x hx hunfinished).tail hy
    obtain ⟨hgood₂, hgrows, hnext⟩ : ((next k).foldl (visit next depth) (w.enter k)).Good next ∧
        (w.enter k).Grows next (next k) ((next k).foldl (visit next depth) (w.enter k)) ∧
        ∀ y ∈ next k, y ∈ ((next k).foldl (visit next depth) (w.enter k)).entered := by
      rcases hsuccessors : next k with _ | ⟨y, ys⟩
      · exact ⟨hgood₁, .refl [] (w.enter k), by simp⟩
      · have hplace : k ∈ places := hplaces k y (by simp [hsuccessors])
        -- Entering a place uses up one of those that are left, so the depth lasts.
        have := Walk.fresh_enter_lt hplace hk
        exact ih.foldl (y :: ys) (w.enter k) hgood₁ (fun z hz => habove₁ z (by rwa [hsuccessors]))
          (by omega)
    rw [visit_of_fresh depth hk]
    exact finish_spec hgood habove hk hgood₂ hgrows hnext

end

/-! ### The order in which nodes are finished -/

section

variable [DecidableEq κ] (edges : Table κ (List κ)) (roots : List κ)

/-- Edges leave only from the keys of a table. -/
theorem mem_keys_of_mem_successors {edges : Table κ (List κ)} {a b : κ}
    (h : b ∈ successors edges a) : a ∈ edges.keys := by
  rw [← Table.contains_iff_mem_keys]
  unfold successors at h
  unfold Table.contains
  cases hget : edges.get? a with
  | none => simp [hget] at h
  | some ids => rfl

/-- The whole walk from some roots. -/
theorem walk_spec :
    (roots.foldl (visit (successors edges) (depthBound edges)) Walk.start).Good (successors edges) ∧
      Walk.start.Grows (successors edges) roots
        (roots.foldl (visit (successors edges) (depthBound edges)) Walk.start) ∧
      ∀ k ∈ roots, k ∈
        (roots.foldl (visit (successors edges) (depthBound edges)) Walk.start).entered := by
  have hplaces : ∀ a b, b ∈ successors edges a → a ∈ edges.keys ++ edges.values.flatten :=
    fun a b h => List.mem_append_left _ (mem_keys_of_mem_successors h)
  refine (visitsWell hplaces (depthBound edges)).foldl roots Walk.start ⟨?_, ?_, ?_, ?_⟩ ?_ ?_
  · exact List.nodup_nil
  · simp [Walk.start]
  · simp [Walk.start]
  · simp [Walk.start]
  · intro k _ x hx
    simp [Walk.start] at hx
  · exact Nat.lt_succ_of_le List.countP_le_length

/-- The order holds each node once. -/
theorem nodup_finishOrder : (finishOrder edges roots).Nodup :=
  List.nodup_reverse.2 (walk_spec edges roots).1.nodup

/-- The order holds what the roots lead to. -/
theorem mem_finishOrder (x : κ) : x ∈ finishOrder edges roots ↔
    ∃ k ∈ roots, ReflTransGen (Edge (successors edges)) k x := by
  obtain ⟨hgood, ⟨new, hfinished, hentered, hnew⟩, hroots⟩ := walk_spec edges roots
  have hsame : ∀ y, y ∈ (roots.foldl (visit (successors edges) (depthBound edges))
      Walk.start).entered ↔ y ∈ finishOrder edges roots := by
    intro y
    unfold finishOrder
    rw [hentered, List.mem_reverse, hfinished]
    simp [Walk.start]
  constructor
  · intro hx
    unfold finishOrder at hx
    rw [List.mem_reverse, hfinished] at hx
    exact (hnew x (by simpa [Walk.start] using hx)).2
  · rintro ⟨k, hk, hreach⟩
    induction hreach with
    | refl => exact (hsame k).1 (hroots k hk)
    | tail _ hstep ih =>
      refine (hsame _).1 (hgood.closed _ ?_ _ hstep)
      exact List.mem_reverse.1 ih

/-- What a node or one before it leads to in one step comes before the node too, or leads back to
it. -/
theorem finishOrder_closed {before after : List κ} {a b c : κ}
    (horder : finishOrder edges roots = before ++ a :: after) (hc : c = a ∨ c ∈ before)
    (hedge : Edge (successors edges) c b) :
    b ∈ before ∨ ReflTransGen (Edge (successors edges)) b a := by
  have hfinished : (roots.foldl (visit (successors edges) (depthBound edges))
      Walk.start).finished = after.reverse ++ a :: before.reverse := by
    have := congrArg List.reverse horder
    unfold finishOrder at this
    simpa using this
  have hmem : c ∈ a :: before.reverse := by simpa using hc
  rcases (walk_spec edges roots).1.ordered _ _ _ hfinished c hmem b hedge with h | h
  · exact .inl (List.mem_reverse.1 h)
  · exact .inr h

/-- Each node comes after its successors, apart from those that lead back to it. -/
theorem finishOrder_ordered {before after : List κ} {a b : κ}
    (horder : finishOrder edges roots = before ++ a :: after)
    (hedge : Edge (successors edges) a b) :
    b ∈ before ∨ ReflTransGen (Edge (successors edges)) b a :=
  finishOrder_closed edges roots horder (.inl rfl) hedge

/-- A node on no cycle comes after all that it leads to, also through nodes on cycles. -/
theorem mem_before_of_not_onCycle {before after : List κ} {a b : κ}
    (horder : finishOrder edges roots = before ++ a :: after)
    (hfree : ¬ TransGen (Edge (successors edges)) a a)
    (hreach : TransGen (Edge (successors edges)) a b) : b ∈ before := by
  -- A node on the way that leads back would put the node on a cycle, so all of the way is before.
  induction hreach with
  | single hedge =>
    exact (finishOrder_ordered edges roots horder hedge).resolve_right fun hback =>
      hfree (TransGen.head' hedge hback)
  | tail hway hedge ih =>
    exact (finishOrder_closed edges roots horder (.inr ih) hedge).resolve_right fun hback =>
      hfree ((hway.tail hedge).trans_left hback)

end

/-! ### Cycles -/

/-- An order is one in which each node comes after all its successors. -/
theorem isOrdered_iff [DecidableEq κ] (next : κ → List κ) (passed ks : List κ) :
    isOrdered next passed ks = true ↔
      ∀ before a after, ks = before ++ a :: after → ∀ b ∈ next a, b ∈ before ∨ b ∈ passed := by
  induction ks generalizing passed with
  | nil => simp [isOrdered]
  | cons k ks ih =>
    rw [isOrdered, Bool.and_eq_true, ih, List.all_eq_true]
    constructor
    · rintro ⟨hk, hks⟩ before a after heq b hb
      -- The node in question is the first one, or it comes later.
      rcases before with _ | ⟨j, before⟩
      · obtain ⟨rfl, rfl⟩ := List.cons.inj heq
        exact .inr (by simpa using hk b hb)
      · obtain ⟨rfl, htail⟩ := List.cons.inj heq
        rcases hks before a after htail b hb with h | h
        · exact .inl (List.mem_cons_of_mem _ h)
        · rcases List.mem_cons.1 h with rfl | h
          · exact .inl (List.mem_cons_self ..)
          · exact .inr h
    · intro h
      refine ⟨fun b hb => ?_, fun before a after heq b hb => ?_⟩
      · simpa using h [] k ks rfl b hb
      · rcases h (k :: before) a after (by rw [heq]; rfl) b hb with hin | hin
        · rcases List.mem_cons.1 hin with rfl | hin
          · exact .inr (List.mem_cons_self ..)
          · exact .inl hin
        · exact .inr (List.mem_cons_of_mem _ hin)

/-- In an order in which each node comes after its successors, what a node leads to comes before
it. -/
theorem mem_before_of_transGen {next : κ → List κ} {order : List κ}
    (hordered : ∀ before a after, order = before ++ a :: after → ∀ b ∈ next a, b ∈ before)
    {a b : κ} (hreach : TransGen (Edge next) a b) :
    ∀ before after, order = before ++ a :: after → b ∈ before := by
  induction hreach using TransGen.head_induction_on with
  | single hedge => exact fun before after heq => hordered before _ after heq _ hedge
  | @head x y hedge _ ih =>
    intro before after heq
    obtain ⟨front, back, hsplit⟩ := List.append_of_mem (hordered before x after heq y hedge)
    have hb := ih front (back ++ x :: after) (by rw [heq, hsplit]; simp)
    rw [hsplit]
    exact List.mem_append_left _ hb

/-- What such an order holds leads to no cycle. -/
theorem not_leadsToCycle_of_ordered {next : κ → List κ} {order : List κ} (hnodup : order.Nodup)
    (hordered : ∀ before a after, order = before ++ a :: after → ∀ b ∈ next a, b ∈ before)
    {k : κ} (hk : k ∈ order) : ¬ LeadsToCycle next k := by
  rintro ⟨b, hreach, hcycle⟩
  have hb : b ∈ order := by
    rcases reflTransGen_iff_eq_or_transGen.1 hreach with rfl | hreach
    · exact hk
    · obtain ⟨before, after, rfl⟩ := List.append_of_mem hk
      exact List.mem_append_left _ (mem_before_of_transGen hordered hreach before after rfl)
  -- A node on a cycle would come before itself, but the order holds each node once.
  obtain ⟨before, after, rfl⟩ := List.append_of_mem hb
  have hbefore := mem_before_of_transGen hordered hcycle before after rfl
  exact List.disjoint_of_nodup_append hnodup hbefore (by simp)

/-- The search says whether a node leads to a cycle. -/
theorem reachesCycle_iff [DecidableEq κ] (edges : Table κ (List κ)) (k : κ) :
    reachesCycle edges k = true ↔ LeadsToCycle (successors edges) k := by
  have hk : k ∈ finishOrder edges [k] := (mem_finishOrder edges [k] k).2 ⟨k, by simp, .refl⟩
  unfold reachesCycle
  rw [Bool.not_eq_true', ← Bool.not_eq_true, isOrdered_iff]
  simp only [List.not_mem_nil, or_false]
  constructor
  · intro h
    by_contra hcycle
    refine h fun before a after heq b hb => ?_
    -- A successor that comes later leads back, and so closes a cycle.
    rcases finishOrder_ordered edges [k] heq hb with hbefore | hback
    · exact hbefore
    · have ha : a ∈ finishOrder edges [k] := by rw [heq]; simp
      obtain ⟨j, hj, hreach⟩ := (mem_finishOrder edges [k] a).1 ha
      obtain rfl := List.mem_singleton.1 hj
      exact absurd ⟨a, hreach, TransGen.head' hb hback⟩ hcycle
  · exact fun hcycle hordered =>
      not_leadsToCycle_of_ordered (nodup_finishOrder edges [k]) hordered hk hcycle

end LiveSheet.Search
