import LiveSheet.Proofs.Recalculation

/-!
# What a recalculation keeps

A recalculation keeps a sheet coherent, and leaves everything about the other nodes as it is, except
for what they see of the node: its result, and the cycles that it leads to. A node that does not
depend on it stays up to date therefore. The nodes that do depend on it follow, if it is loud; and a
recalculation that is silent changes nothing that any other node could see, if what the node has
kept is faithful (`Sheet.Faithful`).
-/

namespace LiveSheet

open Relation

/-- A path whose steps are those of another relation, except for those that leave certain nodes, is
a path of the other relation, or comes to such a node along one. -/
theorem transGen_or_reaches {α : Type} {R R' : α → α → Prop} {Z : α → Prop} {a b : α}
    (hsame : ∀ x y, ¬ Z x → R x y → R' x y) (h : TransGen R a b) :
    TransGen R' a b ∨ ∃ z, Z z ∧ ReflTransGen R' a z := by
  induction h using TransGen.head_induction_on with
  | @single x hstep =>
    by_cases hx : Z x
    · exact .inr ⟨x, hx, .refl⟩
    · exact .inl (.single (hsame x b hx hstep))
  | @head x y hstep _ ih =>
    by_cases hx : Z x
    · exact .inr ⟨x, hx, .refl⟩
    · have hstep' := hsame x y hx hstep
      rcases ih with hpath | ⟨z, hz, hreach⟩
      · exact .inl (.head hstep' hpath)
      · exact .inr ⟨z, hz, .head hstep' hreach⟩

/-- The same for a path that may be empty. -/
theorem reflTransGen_or_reaches {α : Type} {R R' : α → α → Prop} {Z : α → Prop} {a b : α}
    (hsame : ∀ x y, ¬ Z x → R x y → R' x y) (h : ReflTransGen R a b) :
    ReflTransGen R' a b ∨ ∃ z, Z z ∧ ReflTransGen R' a z := by
  rcases reflTransGen_iff_eq_or_transGen.1 h with rfl | hpath
  · exact .inl .refl
  · exact (transGen_or_reaches hsame hpath).imp_left TransGen.to_reflTransGen

/-- A cycle is reached along other steps too, or what the steps do not agree about is. -/
theorem leadsToCycle_or_reaches {α : Type} {R R' : α → α → Prop} {Z : α → Prop} {a : α}
    (hsame : ∀ x y, ¬ Z x → R x y → R' x y) (h : ∃ b, ReflTransGen R a b ∧ TransGen R b b) :
    (∃ b, ReflTransGen R' a b ∧ TransGen R' b b) ∨ ∃ z, Z z ∧ ReflTransGen R' a z := by
  obtain ⟨b, hreach, hcycle⟩ := h
  rcases reflTransGen_or_reaches hsame hreach with hreach' | hz
  · rcases transGen_or_reaches hsame hcycle with hcycle' | ⟨z, hz, hback⟩
    · exact .inl ⟨b, hreach', hcycle'⟩
    · exact .inr ⟨z, hz, hreach'.trans hback⟩
  · exact .inr hz

/-- A path from where a property holds that its steps hand on is one of another relation, if they
are steps of it wherever the property holds. -/
theorem reflTransGen_of_closed {α : Type} {R R' : α → α → Prop} {P : α → Prop} {a b : α}
    (hstep : ∀ x y, P x → R x y → R' x y ∧ P y) (ha : P a) (h : ReflTransGen R a b) :
    ReflTransGen R' a b ∧ P b := by
  induction h with
  | refl => exact ⟨.refl, ha⟩
  | tail _ hlast ih =>
    obtain ⟨hstep', hb⟩ := hstep _ _ ih.2 hlast
    exact ⟨ih.1.tail hstep', hb⟩

/-- So is a cycle that is reached from there. -/
theorem leadsToCycle_of_closed {α : Type} {R R' : α → α → Prop} {P : α → Prop} {a : α}
    (hstep : ∀ x y, P x → R x y → R' x y ∧ P y) (ha : P a)
    (h : ∃ b, ReflTransGen R a b ∧ TransGen R b b) :
    ∃ b, ReflTransGen R' a b ∧ TransGen R' b b := by
  obtain ⟨b, hreach, hcycle⟩ := h
  obtain ⟨hreach', hb⟩ := reflTransGen_of_closed hstep ha hreach
  obtain ⟨c, hfirst, hback⟩ := TransGen.head'_iff.1 hcycle
  obtain ⟨hfirst', hc⟩ := hstep _ _ hb hfirst
  exact ⟨b, hreach', .head' hfirst' (reflTransGen_of_closed hstep hc hback).1⟩

/-- Whether two scopes show the same number for every name, where a name that is not there counts as
0. -/
def Scope.SameNumbers (scope scope' : Scope) : Prop :=
  ∀ name, ((scope.get? name).getD .null).coerce = ((scope'.get? name).getD .null).coerce

/-- What a sheet relies on: an expression mentions each name once and never the empty one, and if
none of the results that it reads is an error kind, its evaluation comes to a result. -/
structure Environment.Answers (env : Environment) : Prop where
  nodup : ∀ expression, (env.references expression).Nodup
  named : ∀ expression, "" ∉ env.references expression
  total : ∀ expression read, Sheet.firstFailure? read = none →
    ∃ result, Sheet.evaluate env expression (Sheet.scopeOf read) = .ok result

/-- What makes results comparable: an evaluation depends on nothing but the numbers in its scope. -/
structure Environment.Lawful (env : Environment) : Prop extends env.Answers where
  congr : ∀ expression scope scope', Scope.SameNumbers scope scope' →
    env.evaluate expression scope = env.evaluate expression scope'

/-- What is lawful answers. -/
instance (env : Environment) : Coe env.Lawful env.Answers :=
  ⟨Environment.Lawful.toAnswers⟩

/-- An environment that answers concludes every expression with some result. -/
theorem Environment.Answers.conclusion {env : Environment} (h : env.Answers) (expression : String)
    (read : List (String × Result)) :
    ∃ result, Sheet.conclusion env expression read = .ok result := by
  unfold Sheet.conclusion
  cases hfailure : Sheet.firstFailure? read with
  | some kind => exact ⟨.failed kind, rfl⟩
  | none => exact h.total expression read hfailure

/-- So no conclusion of it fails. -/
theorem Environment.Answers.conclusion_ne_error {env : Environment} (h : env.Answers)
    (expression : String) (read : List (String × Result)) {e : NumberError} :
    Sheet.conclusion env expression read ≠ .error e := by
  obtain ⟨result, hresult⟩ := h.conclusion expression read
  rw [hresult]
  exact nofun

namespace Sheet

variable {env : Environment} {s s' : Sheet} {id k : NodeId} {c c' ck : Calculator} {loud : Bool}

/-! ### The sheet after a recalculation -/

/-- What is said of the calculator of a node after its recalculation. -/
theorem Verdict.spec (h : Verdict env s s' id c c' loud) :
    c'.expression = c.expression ∧ c'.delay = c.delay ∧
      c'.reads = (reading? env s id c).getD [] := by
  cases h with
  | unresolved reads kind cause =>
    rcases cause with ⟨hnone, rfl, -⟩ | ⟨hsome, -, -⟩
    · exact ⟨rfl, rfl, by rw [hnone]; rfl⟩
    · exact ⟨rfl, rfl, by rw [hsome]; rfl⟩
  | kept reads result hreads => exact ⟨rfl, rfl, by rw [hreads]; rfl⟩
  | concluded reads result hreads => exact ⟨rfl, rfl, by rw [hreads]; rfl⟩
  | raised reads e hreads => exact ⟨rfl, rfl, by rw [hreads]; rfl⟩

/-- What a node should read is registered and is not the node, also if it refers to itself. -/
theorem Coherent.mem_getD_reading (h : s.Coherent) (hnames : (env.references c.expression).Nodup) :
    id ∉ (reading? env s id c).getD [] ∧
      ∀ a ∈ (reading? env s id c).getD [], a ∈ s.graph.nodes.keys := by
  cases hreading : reading? env s id c with
  | none => simp
  | some reads => exact (h.mem_reading hnames hreading).2

/-- A node should read no node twice, for no two names mean the same node. -/
theorem Coherent.nodup_getD_reading (h : s.Coherent)
    (hnames : (env.references c.expression).Nodup) : ((reading? env s id c).getD []).Nodup := by
  cases hreading : reading? env s id c with
  | none => exact List.nodup_nil
  | some reads =>
    rw [Option.getD_some, (h.mem_reading hnames hreading).1]
    exact hnames.filterMap fun _ _ _ hheld hheld' => Graph.holder?_injective h.nodup hheld hheld'

/-- What a node should read is meant by a name in its expression. -/
theorem Coherent.exists_name (h : s.Coherent) (hnames : (env.references c.expression).Nodup)
    {a : NodeId} (ha : a ∈ (reading? env s id c).getD []) :
    ∃ name ∈ env.references c.expression, s.graph.holder? name = some a := by
  cases hreading : reading? env s id c with
  | none =>
    rw [hreading] at ha
    cases ha
  | some reads =>
    rw [hreading] at ha
    obtain ⟨hfilter, -, -⟩ := h.mem_reading hnames hreading
    rw [hfilter] at ha
    exact List.mem_filterMap.1 ha

/-- What a node should read depends on what the names in its expression mean. -/
theorem reading?_congr (h : s.graph.nodes.keys.Nodup) (h' : s'.graph.nodes.keys.Nodup)
    (hnames : (env.references ck.expression).Nodup)
    (hholder : ∀ name ∈ env.references ck.expression,
      s'.graph.holder? name = s.graph.holder? name) :
    reading? env s' k ck = reading? env s k ck := by
  unfold reading?
  rw [resolve?_eq h hnames, resolve?_eq h' hnames, List.filterMap_congr hholder]

/-- The node has the new calculator. -/
theorem Effect.calculator_self (heffect : Effect s id c' loud s') :
    s'.calculator? id = some c' := by
  rw [heffect.calculator, if_pos rfl]

/-- And it has no other one. -/
theorem Effect.eq_of_calculator (heffect : Effect s id c' loud s')
    (hck : s'.calculator? id = some ck) : c' = ck :=
  Option.some.inj (heffect.calculator_self.symm.trans hck)

/-- Other nodes keep their calculators. -/
theorem Effect.calculator_other (heffect : Effect s id c' loud s') (hk : k ≠ id) :
    s'.calculator? k = s.calculator? k := by
  rw [heffect.calculator, if_neg hk]

/-- All nodes keep their headers. -/
theorem Effect.headerOf (heffect : Effect s id c' loud s') (k : NodeId) :
    s'.graph.headerOf k = s.graph.headerOf k := by
  unfold Graph.headerOf
  rw [heffect.node]
  by_cases hk : k = id
  · rw [if_pos hk]
    cases s.graph.node? k <;> rfl
  · rw [if_neg hk]

/-- So every name keeps its holder. -/
theorem Effect.holder? (heffect : Effect s id c' loud s') (name : String) :
    s'.graph.holder? name = s.graph.holder? name := by
  rw [Graph.holder?_eq, Graph.holder?_eq, heffect.headings]

/-- Other nodes keep their results. -/
theorem Effect.resultOf_other (heffect : Effect s id c' loud s') (hk : k ≠ id) :
    s'.resultOf k = s.resultOf k := by
  unfold Sheet.resultOf
  rw [heffect.calculator_other hk]

/-- And what is seen of them stays the same. -/
theorem Effect.seen_other (heffect : Effect s id c' loud s') (hk : k ≠ id) :
    s'.seen k = s.seen k := by
  unfold Sheet.seen
  rw [heffect.resultOf_other hk, heffect.headerOf]

/-- What a node sees that does not refer to itself stays as it was. -/
theorem Effect.map_seen (heffect : Effect s id c' loud s') (h : s.Coherent)
    (hnames : (env.references c.expression).Nodup) {reads : List NodeId}
    (hreading : reading? env s id c = some reads) : reads.map s'.seen = reads.map s.seen := by
  refine List.map_congr_left fun a ha => heffect.seen_other ?_
  rintro rfl
  exact (h.mem_reading hnames hreading).2.1 ha

/-- Edges that leave other nodes stay. -/
theorem Effect.reads_other (heffect : Effect s id c' loud s') {a b : NodeId} (ha : a ≠ id) :
    s'.graph.Reads a b ↔ s.graph.Reads a b := by
  have := heffect.edges a b
  rwa [if_neg ha] at this

/-- Every node should read what it should have read before. -/
theorem Effect.reading (heffect : Effect s id c' loud s') (h : s.Coherent) (k : NodeId)
    (hnames : (env.references ck.expression).Nodup) :
    reading? env s' k ck = reading? env s k ck :=
  reading?_congr h.nodup (heffect.nodeKeys ▸ h.nodup) hnames fun name _ => heffect.holder? name

/-- A recalculation keeps a sheet coherent. -/
theorem Effect.coherent (heffect : Effect s id c' loud s') (h : s.Coherent)
    (hnames : (env.references c.expression).Nodup) (hc : s.calculator? id = some c)
    (hverdict : Verdict env s s' id c c' loud) : s'.Coherent where
  keys := by rw [heffect.calculatorKeys, heffect.nodeKeys, h.keys]
  nodup := heffect.nodeKeys ▸ h.nodup
  -- The node itself has become `c'`, of which the verdict tells; the other nodes are as before.
  shown k ck hck := by
    rw [heffect.node]
    by_cases hk : k = id
    · subst hk
      obtain rfl := heffect.eq_of_calculator hck
      obtain ⟨record, hrecord, -, hcallback⟩ := h.shown k c hc
      rw [if_pos rfl, hrecord]
      exact ⟨_, rfl, rfl, hcallback⟩
    · rw [if_neg hk]
      exact h.shown k ck (heffect.calculator_other hk ▸ hck)
  mirrored := heffect.mirrored
  edges a b := by
    rw [heffect.edges, heffect.nodeKeys]
    by_cases ha : a = id
    · subst ha
      rw [if_pos rfl, heffect.calculator_self]
      obtain ⟨-, -, hreads⟩ := hverdict.spec
      constructor
      · intro hb
        refine ⟨c', rfl, hb, ?_⟩
        rw [hreads] at hb
        exact (h.mem_getD_reading hnames).2 b hb
      · rintro ⟨c₁, hc₁, hb, -⟩
        obtain rfl := Option.some.inj hc₁
        exact hb
    · rw [if_neg ha, heffect.calculator_other ha]
      exact h.edges a b
  irreflexive k ck hck := by
    by_cases hk : k = id
    · subst hk
      obtain rfl := heffect.eq_of_calculator hck
      rw [hverdict.spec.2.2]
      exact (h.mem_getD_reading hnames).1
    · exact h.irreflexive k ck (heffect.calculator_other hk ▸ hck)
  distinct k ck hck := by
    by_cases hk : k = id
    · subst hk
      obtain rfl := heffect.eq_of_calculator hck
      rw [hverdict.spec.2.2]
      exact h.nodup_getD_reading hnames
    · exact h.distinct k ck (heffect.calculator_other hk ▸ hck)
  -- A loud recalculation adds to the queue only.
  timers t ht := by
    refine h.timers t ?_
    cases hloud : loud with
    | false => rwa [heffect.silent hloud] at ht
    | true =>
      rw [heffect.loud hloud] at ht
      split at ht <;> exact ht
  cached k ck print result hck hcached := by
    by_cases hk : k = id
    · subst hk
      obtain rfl := heffect.eq_of_calculator hck
      cases hverdict with
      | unresolved reads kind cause => cases hcached
      | kept reads result' hreads hcycle hkept =>
        rw [show c.cached = some (print, result) from hcached] at hkept
        exact (Prod.mk.inj (Option.some.inj hkept)).2.symm
      | concluded reads result' => exact (Prod.mk.inj (Option.some.inj hcached)).2
      | raised reads e => exact h.cached k c print result hc hcached
    · exact h.cached k ck print result (heffect.calculator_other hk ▸ hck) hcached
  published k ck print kind hck hpublished := by
    by_cases hk : k = id
    · subst hk
      obtain rfl := heffect.eq_of_calculator hck
      cases hverdict with
      | unresolved reads kind' cause =>
        obtain rfl := (Prod.mk.inj (Option.some.inj hpublished)).2
        exact ⟨rfl, rfl⟩
      | kept reads result hreads hcycle hkept =>
        have hnone := (h.published k c print kind hc hpublished).2
        rw [hkept] at hnone
        cases hnone
      | concluded reads result => cases hpublished
      | raised reads e => exact h.published k c print kind hc hpublished
    · exact h.published k ck print kind (heffect.calculator_other hk ▸ hck) hpublished

/-! ### What other nodes see -/

/-- What a node has kept is faithful if it belongs to what the node reads now: where a fingerprint
agrees with the present one, the node has read the same nodes before, and a result kept with it is
what its expression comes to. -/
structure Faithful (env : Environment) (s : Sheet) (id : NodeId) (c : Calculator) : Prop where
  published : ∀ kind, c.published = some (printOf c.expression
      (((reading? env s id c).getD []).map s.resultOf), kind) →
    c.reads = (reading? env s id c).getD []
  cached : ∀ reads result, reading? env s id c = some reads →
    c.cached = some (printOf c.expression (reads.map s.resultOf), result) →
    c.reads = reads ∧ conclusion env c.expression (reads.map s.seen) = .ok result

/-- A silent recalculation leaves the result of its node as it is. -/
theorem Verdict.result_of_silent (h : s.Coherent) (hc : s.calculator? id = some c)
    (hverdict : Verdict env s s' id c c' loud) (hsilent : loud = false) : c'.result = c.result := by
  cases hverdict with
  | unresolved reads kind cause =>
    have hpublished : c.published =
        some (printOf c.expression (reads.map s.resultOf), kind) := by simpa using hsilent
    exact (h.published id c _ kind hc hpublished).1.symm
  | kept reads result hreads hcycle hcached => exact (h.cached id c _ result hc hcached).symm
  | concluded => cases hsilent
  | raised => rfl

/-- If its node is faithful, it leaves the reads as they are too. -/
theorem Verdict.reads_of_silent (henv : env.Answers) (hfaithful : Faithful env s id c)
    (hverdict : Verdict env s s' id c c' loud) (hsilent : loud = false) : c'.reads = c.reads := by
  cases hverdict with
  | unresolved reads kind cause =>
    have hpublished : c.published =
        some (printOf c.expression (reads.map s.resultOf), kind) := by simpa using hsilent
    have hreads : (reading? env s id c).getD [] = reads := by
      rcases cause with ⟨hnone, rfl, -⟩ | ⟨hsome, -, -⟩
      · rw [hnone]
        rfl
      · rw [hsome]
        rfl
    have := hfaithful.published kind (hreads.symm ▸ hpublished)
    rw [this, hreads]
  | kept reads result hreads hcycle hcached =>
    exact (hfaithful.cached reads result hreads hcached).1.symm
  | concluded => cases hsilent
  | raised reads e hreads hcycle hresult =>
    exact absurd hresult (henv.conclusion_ne_error _ _)

/-- A node is up to date after its recalculation, if it is loud or the node is faithful. -/
theorem Effect.upToDate_self (henv : env.Answers) (heffect : Effect s id c' loud s')
    (h : s.Coherent) (hfaithful : loud = false → Faithful env s id c)
    (hverdict : Verdict env s s' id c c' loud) : UpToDate env s' id := by
  have hnames := henv.nodup c.expression
  obtain ⟨hexpression, -, hreads⟩ := hverdict.spec
  have hreading : reading? env s' id c' = reading? env s id c := by
    have : reading? env s' id c = reading? env s id c := heffect.reading h id hnames
    unfold reading? at this ⊢
    rw [hexpression]
    exact this
  refine ⟨c', heffect.calculator_self, by rw [hreading, hreads], ?_⟩
  unfold due
  rw [hreading, hexpression]
  have hnot : ¬ s'.graph.LeadsToCycle id → ¬ s'.graph.reachesCycle id = true :=
    mt (Graph.reachesCycle_eq_true_iff s'.graph id).1
  -- What is due is the kind of a missing or circular reference, or the conclusion from what the
  -- node sees; one verdict for each, and for a result that was kept.
  cases hverdict with
  | unresolved reads kind cause =>
    rcases cause with ⟨hnone, -, rfl⟩ | ⟨hsome, hcycle, rfl⟩
    · rw [hnone]
    · rw [hsome]
      simp only [(Graph.reachesCycle_eq_true_iff s'.graph id).2 hcycle, if_true]
  | kept reads result hsome hcycle hcached =>
    rw [hsome]
    simp only [if_neg (hnot hcycle), heffect.map_seen h hnames hsome]
    exact ((hfaithful rfl).cached reads result hsome hcached).2
  | concluded reads result hsome hcycle hnew hresult =>
    rw [hsome]
    simp only [if_neg (hnot hcycle), heffect.map_seen h hnames hsome]
    exact hresult
  | raised reads e hsome hcycle hresult =>
    exact absurd hresult (henv.conclusion_ne_error _ _)

/-- Whether a node leads to a cycle does not change if it does not come to the node. -/
theorem Effect.leadsToCycle_iff (heffect : Effect s id c' loud s')
    (hreach : ¬ ReflTransGen s'.graph.Reads k id) :
    s'.graph.LeadsToCycle k ↔ s.graph.LeadsToCycle k := by
  have hother : ∀ x, ¬ ReflTransGen s'.graph.Reads x id → x ≠ id := by
    rintro x hx rfl
    exact hx .refl
  constructor
  · refine leadsToCycle_of_closed (P := fun x => ¬ ReflTransGen s'.graph.Reads x id)
      (fun x y hx hstep => ?_) hreach
    exact ⟨(heffect.reads_other (hother x hx)).1 hstep, fun hback => hx (.head hstep hback)⟩
  · refine leadsToCycle_of_closed (P := fun x => ¬ ReflTransGen s'.graph.Reads x id)
      (fun x y hx hstep => ?_) hreach
    have hstep' := (heffect.reads_other (hother x hx)).2 hstep
    exact ⟨hstep', fun hback => hx (.head hstep' hback)⟩

/-- A node stays up to date as long as its reads are the same, lead to the same cycles and show the
same results. -/
theorem UpToDate.congr (hk : UpToDate env s k) (hcalculator : s'.calculator? k = s.calculator? k)
    (hreading : ∀ ck, s.calculator? k = some ck → reading? env s' k ck = reading? env s k ck)
    (hcycle : s'.graph.LeadsToCycle k ↔ s.graph.LeadsToCycle k)
    (hseen : ∀ ck, s.calculator? k = some ck → ∀ a ∈ ck.reads, s'.seen a = s.seen a) :
    UpToDate env s' k := by
  obtain ⟨ck, hck, hreads, hdue⟩ := hk
  refine ⟨ck, by rw [hcalculator, hck], by rw [hreading ck hck, hreads], ?_⟩
  rw [← hdue]
  unfold due
  rw [hreading ck hck]
  cases hsome : reading? env s k ck with
  | none => rfl
  | some reads =>
    have hreaches : s'.graph.reachesCycle k = s.graph.reachesCycle k := by
      rw [Bool.eq_iff_iff, Graph.reachesCycle_eq_true_iff, Graph.reachesCycle_eq_true_iff]
      exact hcycle
    have hsame : reads.map s'.seen = reads.map s.seen := by
      refine List.map_congr_left fun a ha => hseen ck hck a ?_
      rw [hreads, hsome]
      exact ha
    simp only [hreaches, hsame]

/-- A node that does not depend on the one that is recalculated stays up to date. -/
theorem Effect.upToDate_of_not_reaches (heffect : Effect s id c' loud s') (h : s.Coherent)
    (henv : env.Answers) (hne : k ≠ id)
    (hreach : ¬ TransGen s'.graph.Reads k id) (hk : UpToDate env s k) : UpToDate env s' k := by
  have hreach' : ¬ ReflTransGen s'.graph.Reads k id := by
    intro hpath
    rcases reflTransGen_iff_eq_or_transGen.1 hpath with heq | hpath
    · exact hne heq.symm
    · exact hreach hpath
  refine hk.congr (heffect.calculator_other hne) (fun ck _ => heffect.reading h k (henv.nodup _))
    (heffect.leadsToCycle_iff hreach') fun ck hck a ha => heffect.seen_other ?_
  -- A node that is read is read along an edge.
  rintro rfl
  obtain ⟨ck', hck', hreads, -⟩ := hk
  obtain rfl : ck = ck' := Option.some.inj (hck.symm.trans hck')
  have hregistered : a ∈ s.graph.nodes.keys := by
    rw [hreads] at ha
    exact (h.mem_getD_reading (henv.nodup _)).2 a ha
  exact hreach (.single ((heffect.reads_other hne).2 ((h.edges k a).2 ⟨ck, hck, ha, hregistered⟩)))

/-- If the reads of the node stay as they are, so do all edges. -/
theorem Effect.reads_of_eq (heffect : Effect s id c' loud s') (h : s.Coherent)
    (hc : s.calculator? id = some c) (hreads : c'.reads = c.reads)
    (hregistered : ∀ a ∈ c'.reads, a ∈ s.graph.nodes.keys) : s'.graph.Reads = s.graph.Reads := by
  funext a b
  refine propext ((heffect.edges a b).trans ?_)
  by_cases ha : a = id
  · subst ha
    rw [if_pos rfl]
    refine Iff.trans ?_ (h.edges a b).symm
    constructor
    · intro hb
      exact ⟨c, hc, hreads ▸ hb, hregistered b hb⟩
    · rintro ⟨c₁, hc₁, hb, -⟩
      obtain rfl : c = c₁ := Option.some.inj (hc.symm.trans hc₁)
      exact hreads ▸ hb
  · rw [if_neg ha]
    exact Iff.rfl

/-- If the result stays as it is, the node shows the same as before. -/
theorem Effect.seen_of_eq (heffect : Effect s id c' loud s') (hc : s.calculator? id = some c)
    (hresult : c'.result = c.result) (k : NodeId) : s'.seen k = s.seen k := by
  by_cases hk : k = id
  · subst hk
    unfold seen
    rw [heffect.headerOf, resultOf_eq heffect.calculator_self, resultOf_eq hc, hresult]
  · exact heffect.seen_other hk

/-- If reads and result of the node stay as they are, so does everything for the other nodes. -/
theorem Effect.upToDate_of_same (heffect : Effect s id c' loud s') (h : s.Coherent)
    (henv : env.Answers) (hc : s.calculator? id = some c)
    (hedges : s'.graph.Reads = s.graph.Reads) (hresult : c'.result = c.result) (hne : k ≠ id)
    (hk : UpToDate env s k) : UpToDate env s' k := by
  exact hk.congr (heffect.calculator_other hne) (fun ck _ => heffect.reading h k (henv.nodup _))
    (Graph.leadsToCycle_congr hedges k) fun ck _ a _ => heffect.seen_of_eq hc hresult a

end Sheet

end LiveSheet
