import LiveSheet.Proofs.Agreement
import LiveSheet.Proofs.Operations

/-!
# What operations leave to be done

Every operation changes a sheet at once, and names the nodes that are recalculated then. Accounts
are kept and progress is made with these nodes to do, if they are the ones that notice the change:
the new node and those that mention its header, the node with another expression, or those that read
the node that is gone or mention its header.
-/

namespace LiveSheet.Sheet

open Relation

variable {env : Environment} {s : Sheet} {id k : NodeId} {c : Calculator} {past : List Sheet}
  {doubtful watched : NodeId → Prop} {todo todo' : List NodeId} {header expression : String}
  {delay : Int}

/-- The accounts of the sheet without nodes. -/
theorem accounted_empty (env : Environment) : Accounted env Sheet.empty [] where
  coherent := coherent_empty
  registered _ _ hk := by cases hk
  current _ _ hk := by cases hk
  evaluated _ _ hk := by cases hk

/-! ### A new node -/

/-- A new node does not change the results of others. -/
theorem resultOf_withNode (hne : k ≠ id) :
    (s.withNode id header expression delay).resultOf k = s.resultOf k := by
  unfold resultOf
  rw [calculator?_withNode, if_neg hne]

/-- A new node does not change the headers of others. -/
theorem headerOf_withNode (hne : k ≠ id) :
    (s.withNode id header expression delay).graph.headerOf k = s.graph.headerOf k := by
  unfold Graph.headerOf
  rw [node?_withNode, if_neg hne]

/-- The accounts with a new node, which is to be recalculated. -/
theorem Accounted.withNode (h : Accounted env s todo) (hnew : id ∉ s.graph.nodes.keys)
    (hregistered : ∀ k c, s.calculator? k = some c → ∀ a ∈ c.reads, a ∈ s.graph.nodes.keys)
    (htodo : ∀ k ∈ todo, k ∈ todo') (hid : id ∈ todo') :
    Accounted env (s.withNode id header expression delay) todo' where
  coherent := h.coherent.withNode header expression delay hnew hregistered
  registered k c hk := by
    rw [calculator?_withNode] at hk
    rw [keys_withNode _ _ _ hnew]
    split at hk
    · next heq => exact .inl (heq ▸ hid)
    · exact .inr fun a ha => List.mem_append_left _ (hregistered k c hk a ha)
  current k c hk := by
    rw [calculator?_withNode] at hk
    split at hk
    · next heq => exact .inl (heq ▸ hid)
    · refine (h.current k c hk).imp (htodo k) (Or.imp_right fun hprint => hprint.trans ?_)
      -- No node has read the new one, so no result that a print is made of changes.
      have hsame : c.reads.map (s.withNode id header expression delay).resultOf =
          c.reads.map s.resultOf := by
        refine List.map_congr_left fun a ha => resultOf_withNode ?_
        rintro rfl
        exact hnew (hregistered k c hk a ha)
      rw [hsame]
  evaluated k c hk := by
    rw [calculator?_withNode] at hk
    split at hk
    · obtain rfl := Option.some.inj hk
      intro print result hcached
      cases hcached
    · exact h.evaluated k c hk

/-- Progress with a new node, if the watched nodes are recalculated that mention its header. -/
theorem Progress.withNode (henv : env.Answers) (hcoherent : s.Coherent)
    (h : Progress env past doubtful watched s todo) (hnew : id ∉ s.graph.nodes.keys)
    (hregistered : ∀ k c, s.calculator? k = some c → ∀ a ∈ c.reads, a ∈ s.graph.nodes.keys)
    (htodo : ∀ k ∈ todo, k ∈ todo') (hid : id ∈ todo')
    (hmention : ∀ k c, watched k → s.calculator? k = some c →
      header ∈ env.references c.expression → k ∈ todo') :
    Progress env past doubtful watched (s.withNode id header expression delay) todo' := by
  set s' := s.withNode id header expression delay with hs'
  have hcalculator : ∀ {k c}, s'.calculator? k = some c → k ≠ id → s.calculator? k = some c := by
    intro k c hk hne
    rwa [hs', calculator?_withNode, if_neg hne] at hk
  have hcoherent' : s'.Coherent := hcoherent.withNode header expression delay hnew hregistered
  have hholder : ∀ name a, s.graph.holder? name = some a → s'.graph.holder? name = some a := by
    intro name a hname
    rw [hs', holder?_withNode header expression delay hnew, hname]
    rfl
  have hne : ∀ {k c a}, s.calculator? k = some c → a ∈ c.reads → a ≠ id := by
    rintro k c a hk ha rfl
    exact hnew (hregistered k c hk a ha)
  have hcollided : ∀ m, Collided past s m → Collided past s' m := by
    intro m hm
    obtain ⟨cm, hcm⟩ := hm.calculator
    have hm' : m ≠ id := fun heq => hnew (heq ▸ hcoherent.registered hcm)
    have hcm' : s'.calculator? m = some cm := by rw [hs', calculator?_withNode, if_neg hm', hcm]
    exact hm.congr hcm hcm' rfl rfl fun a ha => headerOf_withNode (hne hcm ha)
  have hedges : s'.graph.Reads = s.graph.Reads := by
    funext a b
    exact congrArg (b ∈ ·) (dependenciesOf_withNode s id header expression delay a)
  -- A node that is not to be recalculated reads what it has read before.
  have hreading : ∀ k c, watched k → s.calculator? k = some c → k ∉ todo' →
      reading? env s' k c = reading? env s k c := by
    intro k c hwatched hk hnot
    refine reading?_congr hcoherent.nodup hcoherent'.nodup (henv.nodup _) fun name hname => ?_
    have hother : header ≠ name := by
      rintro rfl
      exact hnot (hmention k c hwatched hk hname)
    rw [hs', holder?_withNode header expression delay hnew, if_neg hother]
    simp
  refine ⟨fun k c hsure hk => ?_, fun k c hwatched hk => ?_, fun k hwatched hk => ?_⟩
  · by_cases heq : k = id
    · rw [hs', calculator?_withNode, if_pos heq] at hk
      obtain rfl := Option.some.inj hk
      exact .inl ⟨placed_new env _ expression delay, .inl (honest_new env _ expression delay)⟩
    · rcases h.kept k c hsure (hcalculator hk heq) with ⟨hplaced, hhonest⟩ | ⟨hmem, hsuspect⟩
      · exact .inl ⟨hplaced.mono fun name a _ => hholder name a,
          hhonest.imp (·.mono fun name a _ => hholder name a) (hcollided k)⟩
      · exact .inr ⟨htodo k hmem, hsuspect⟩
  · by_cases hmem : k ∈ todo'
    · exact .inl hmem
    have hk' := hcalculator hk fun heq => hmem (heq ▸ hid)
    rw [hreading k c hwatched hk' hmem]
    exact (h.linked k c hwatched hk').imp_left (htodo k)
  · by_cases hmem : k ∈ todo'
    · exact .inl hmem
    refine .inr ?_
    have hother : k ≠ id := fun heq => hmem (heq ▸ hid)
    have hk' : k ∈ s.graph.nodes.keys := by
      rw [hs', keys_withNode _ _ _ hnew] at hk
      exact (List.mem_append.1 hk).resolve_right fun heq => hother (List.mem_singleton.1 heq)
    rcases h.covered k hwatched hk' with htodo' | hcovered
    · exact absurd (htodo k htodo') hmem
    cases hcovered with
    | awaits hawaits => exact .awaits hawaits
    | upToDate hupToDate =>
      refine .upToDate (hupToDate.congr ?_ (fun ck hck => hreading k ck hwatched hck hmem)
        (Graph.leadsToCycle_congr hedges k) fun ck hck a ha => ?_)
      · rw [hs', calculator?_withNode, if_neg hother]
      · unfold seen
        rw [headerOf_withNode (hne hck ha), resultOf_withNode (hne hck ha)]
    | missing d hmissing =>
      obtain ⟨cd, hcd, a, ha, hnot⟩ := hmissing
      exact absurd (hregistered d cd hcd a ha) hnot
    | tainted m hm hreach => exact .tainted m (hm.imp_right (hcollided m)) (hedges ▸ hreach)

/-! ### Another expression -/

/-- What is on the agenda for a node with another expression, and for the other nodes. -/
structure Rescheduled (s : Sheet) (id : NodeId) (agenda : Agenda NodeId SheetTask)
    (todo : List NodeId) : Prop where
  timers : ∀ t ∈ agenda.timers, t.task = .recalculate t.key
  self : id ∈ todo ∨ ({ s with agenda } : Sheet).Waiting id
  waiting : ∀ k, k ≠ id → s.Waiting k → ({ s with agenda } : Sheet).Waiting k
  awaits : ∀ k, k ≠ id → s.Awaits k → ({ s with agenda } : Sheet).Awaits k

/-- A calculator of the sheet in which a node has another expression. -/
theorem of_calculator?_setExpression (hk : (s.setExpression id expression).calculator? k = some c) :
    ∃ c₀, s.calculator? k = some c₀ ∧ c.reads = c₀.reads ∧ c.result = c₀.result ∧
      c.cached = c₀.cached ∧ c.published = c₀.published ∧ (k ≠ id → c = c₀) := by
  rw [calculator?_setExpression] at hk
  split at hk
  · next heq =>
    obtain ⟨c₀, hc₀, rfl⟩ := Option.map_eq_some_iff.1 hk
    exact ⟨c₀, hc₀, rfl, rfl, rfl, rfl, fun hne => absurd heq hne⟩
  · exact ⟨c, hk, rfl, rfl, rfl, rfl, fun _ => rfl⟩

/-- An expression that is set does not change results before its node is recalculated. -/
theorem resultOf_setExpression (s : Sheet) (id : NodeId) (expression : String) (k : NodeId) :
    (s.setExpression id expression).resultOf k = s.resultOf k := by
  unfold resultOf
  rw [calculator?_setExpression]
  split
  · cases s.calculator? k <;> rfl
  · rfl

/-- The fingerprint that counts depends on what is kept and what is published only. -/
theorem print?_congr {c c₀ : Calculator} (hcached : c.cached = c₀.cached)
    (hpublished : c.published = c₀.published) : c.print? = c₀.print? := by
  unfold Calculator.print?
  rw [hcached, hpublished]

/-- The accounts with another expression, whose node is recalculated at once or waits. -/
theorem Accounted.setExpression (h : Accounted env s []) {agenda : Agenda NodeId SheetTask}
    (hagenda : s.Rescheduled id agenda todo) :
    Accounted env { s.setExpression id expression with agenda } todo where
  coherent := (h.coherent.setExpression id expression).withAgenda hagenda.timers
  registered k c hk := by
    obtain ⟨c₀, hc₀, hreads, -⟩ := of_calculator?_setExpression hk
    rw [hreads]
    exact .inr ((h.registered k c₀ hc₀).resolve_left (by simp))
  current k c hk := by
    obtain ⟨c₀, hc₀, hreads, -, hcached, hpublished, hother⟩ := of_calculator?_setExpression hk
    by_cases hne : k = id
    · subst hne
      exact hagenda.self.imp_right fun hwaiting => .inl (.inl hwaiting)
    · obtain rfl := hother hne
      rcases h.current k c hc₀ with hmem | hawaits | hprint
      · exact absurd hmem (by simp)
      · exact .inr (.inl (hagenda.awaits k hne hawaits))
      · refine .inr (.inr (hprint.trans ?_))
        -- Setting an expression leaves every result, so the prints of the others stay up to date.
        have hsame : c.reads.map ({ s.setExpression id expression with agenda } : Sheet).resultOf =
            c.reads.map s.resultOf :=
          List.map_congr_left fun a _ => resultOf_setExpression s id expression a
        rw [hsame]
  evaluated k c hk := by
    obtain ⟨c₀, hc₀, -, -, hcached, -⟩ := of_calculator?_setExpression hk
    intro print result hkept
    exact h.evaluated k c₀ hc₀ print result (hcached ▸ hkept)

/-- Progress with another expression, whose node is recalculated at once or waits. -/
theorem Progress.setExpression (h : Progress env past doubtful watched s [])
    {agenda : Agenda NodeId SheetTask} (hagenda : s.Rescheduled id agenda todo) :
    Progress env past doubtful watched { s.setExpression id expression with agenda } todo := by
  set s' : Sheet := { s.setExpression id expression with agenda } with hs'
  -- A collision is about the fingerprint that is kept, not about the expression.
  have hcollided : ∀ m, Collided past s m → Collided past s' m := by
    intro m hm
    obtain ⟨cm, hcm⟩ := hm.calculator
    have hcm' : s'.calculator? m = if m = id then (some cm).map fun c => { c with expression }
        else some cm := (calculator?_setExpression s id expression m).trans (by rw [hcm])
    split at hcm'
    · exact hm.congr hcm hcm' rfl rfl fun _ _ => rfl
    · exact hm.congr hcm hcm' rfl rfl fun _ _ => rfl
  refine ⟨fun k c hsure hk => ?_, fun k c hwatched hk => ?_, fun k hwatched hk => ?_⟩
  · obtain ⟨c₀, hc₀, hreads, -, hcached, hpublished, -⟩ := of_calculator?_setExpression hk
    obtain ⟨hplaced, hhonest⟩ := (h.kept k c₀ hsure hc₀).resolve_right fun hsuspect =>
      absurd hsuspect.1 (by simp)
    exact .inl ⟨hplaced.congr (print?_congr hcached hpublished) hreads,
      hhonest.imp (·.congr hreads hcached hpublished) (hcollided k)⟩
  · obtain ⟨c₀, hc₀, -, -, -, -, hother⟩ := of_calculator?_setExpression hk
    by_cases hne : k = id
    · subst hne
      exact hagenda.self.imp_right .inl
    · obtain rfl := hother hne
      rcases h.linked k c hwatched hc₀ with hmem | hwaiting | hreads
      · exact absurd hmem (by simp)
      · exact .inr (.inl (hagenda.waiting k hne hwaiting))
      · exact .inr (.inr hreads)
  · by_cases hne : k = id
    · subst hne
      exact hagenda.self.imp_right fun hwaiting => .awaits (.inl hwaiting)
    · refine .inr ?_
      cases (h.covered k hwatched hk).resolve_left (by simp) with
      | awaits hawaits => exact .awaits (hagenda.awaits k hne hawaits)
      | upToDate hupToDate =>
        refine .upToDate (hupToDate.congr ?_ (fun _ _ => rfl) Iff.rfl fun ck hck a ha => ?_)
        · exact (calculator?_setExpression s id expression k).trans (if_neg hne)
        · exact congrArg (Prod.mk _) (resultOf_setExpression s id expression a)
      | missing d hmissing hreach =>
        obtain ⟨cd, hcd, a, ha, hnot⟩ := hmissing
        refine .missing d ?_ hreach
        have hcd' : s'.calculator? d = if d = id then (some cd).map fun c => { c with expression }
            else some cd := (calculator?_setExpression s id expression d).trans (by rw [hcd])
        split at hcd'
        · exact ⟨_, hcd', a, ha, hnot⟩
        · exact ⟨_, hcd', a, ha, hnot⟩
      | tainted m hm hreach => exact .tainted m (hm.imp_right (hcollided m)) hreach

/-- A node that is recalculated at once does not wait any more. -/
theorem Coherent.rescheduled_cancel (h : s.Coherent) (hid : id ∈ todo) :
    s.Rescheduled id (s.agenda.cancel id) todo := by
  have hwaiting : ∀ k, k ≠ id → s.Waiting k →
      ({ s with agenda := s.agenda.cancel id } : Sheet).Waiting k := by
    rintro k hne (hqueue | ⟨t, ht, hkey⟩)
    · exact .inl hqueue
    · refine .inr ⟨t, List.mem_filter.2 ⟨ht, ?_⟩, hkey⟩
      simpa [hkey] using hne
  exact ⟨fun t ht => h.timers t (List.mem_filter.1 ht).1, .inl hid, hwaiting,
    fun k hne hawaits => hawaits.imp_left (hwaiting k hne)⟩

/-- A node that is edited waits. -/
theorem Coherent.rescheduled_debounce (h : s.Coherent) (id : NodeId) (delay : Int) :
    s.Rescheduled id (s.agenda.debounce id delay (.recalculate id)) [] := by
  have hcancel : s.Rescheduled id (s.agenda.cancel id) [id] := h.rescheduled_cancel (by simp)
  have hwaiting : ∀ k, k ≠ id → s.Waiting k →
      ({ s with agenda := s.agenda.debounce id delay (.recalculate id) } : Sheet).Waiting k := by
    intro k hne hwait
    refine (hcancel.waiting k hne hwait).imp_right fun ⟨t, ht, hkey⟩ => ?_
    exact ⟨t, List.mem_append_left _ ht, hkey⟩
  refine ⟨fun t ht => ?_, .inr (.inr ⟨_, List.mem_append_right _ (List.mem_singleton.2 rfl), rfl⟩),
    hwaiting, fun k hne hawaits => hawaits.imp_left (hwaiting k hne)⟩
  rcases List.mem_append.1 ht with ht | ht
  · exact hcancel.timers t ht
  · obtain rfl := List.mem_singleton.1 ht
    rfl

/-! ### Another header -/

/-- The accounts do not depend on headers. -/
theorem Accounted.withHeader (h : Accounted env s []) (id : NodeId) (header : Option String) :
    Accounted env (s.withHeader id header) todo where
  coherent := h.coherent.withHeader id header
  registered k c hk := by
    rw [keys_withHeader]
    exact .inr ((h.registered k c hk).resolve_left (by simp))
  current k c hk := .inr ((h.current k c hk).resolve_left (by simp))
  evaluated k c hk := h.evaluated k c hk

/-- A name means the same as before if it is neither the old header nor the new one. -/
theorem Coherent.holder?_withHeader (h : s.Coherent) {header : Option String} {name : String}
    (hname : ¬ (s.graph.headerOf id = some name ∨ header = some name)) :
    (s.withHeader id header).graph.holder? name = s.graph.holder? name :=
  Graph.holder?_update_header h.nodup (fun hold => hname (.inl hold)) fun hnew => hname (.inr hnew)

/-- Nodes that are read by names which mean the same as before have the same headers as before. -/
theorem Coherent.read_withHeader (h : s.Coherent) (henv : env.Answers) {header : Option String}
    (hreads : c.reads = (reading? env s k c).getD [])
    (hholder : ∀ name ∈ env.references c.expression,
      (s.withHeader id header).graph.holder? name = s.graph.holder? name) {a : NodeId}
    (ha : a ∈ c.reads) :
    (s.withHeader id header).graph.headerOf a = s.graph.headerOf a ∧
      ∀ name, s.graph.holder? name = some a →
        (s.withHeader id header).graph.holder? name = some a := by
  rw [hreads] at ha
  obtain ⟨name, hname, hmeans⟩ := h.exists_name (henv.nodup _) ha
  have hmeans' := (hholder name hname).trans hmeans
  have hheader := (Graph.headerOf_of_holder? h.nodup hmeans).2
  have hheader' := (Graph.headerOf_of_holder? (h.withHeader id header).nodup hmeans').2
  refine ⟨hheader'.trans hheader.symm, fun other hother => ?_⟩
  rw [(Graph.headerOf_of_holder? h.nodup hother).2] at hheader
  rwa [Option.some.inj hheader]

/-- Progress with another header, from a sheet at rest, if the nodes are recalculated that mention
the old header or the new one. -/
theorem Accounted.progress_withHeader (henv : env.Answers) (h : Accounted env s [])
    (hrest : s.AtRest) {header : Option String}
    (hmention : ∀ k c name, s.calculator? k = some c → name ∈ env.references c.expression →
      s.graph.headerOf id = some name ∨ header = some name → k ∈ todo) :
    Progress env [s] (Stale env s) (¬ Stale env s ·) (s.withHeader id header) todo := by
  have hcoherent := h.coherent
  -- The names of a node that is not to be recalculated mean what they have meant before.
  have hholder : ∀ k c, s.calculator? k = some c → k ∉ todo → ∀ name ∈ env.references c.expression,
      (s.withHeader id header).graph.holder? name = s.graph.holder? name :=
    fun k c hk hnot name hname => hcoherent.holder?_withHeader fun hheader =>
      hnot (hmention k c name hk hname hheader)
  have hreading : ∀ k c, s.calculator? k = some c → k ∉ todo →
      reading? env (s.withHeader id header) k c = reading? env s k c :=
    fun k c hk hnot => reading?_congr hcoherent.nodup (hcoherent.withHeader id header).nodup
      (henv.nodup _) (hholder k c hk hnot)
  have hupToDate : ∀ k c, ¬ Stale env s k → s.calculator? k = some c → UpToDate env s k :=
    fun k c hsure hk => upToDate_of_not_stale hsure (hcoherent.registered hk)
  have hreads : ∀ k c, ¬ Stale env s k → s.calculator? k = some c →
      c.reads = (reading? env s k c).getD [] := by
    intro k c hsure hk
    obtain ⟨c₁, hc₁, hreads, -⟩ := hupToDate k c hsure hk
    obtain rfl : c = c₁ := Option.some.inj (hk.symm.trans hc₁)
    exact hreads
  refine ⟨fun k c hsure hk => ?_, fun k c hsure hk => ?_, fun k hsure hk => ?_⟩
  · obtain ⟨hplaced, hhonest⟩ := h.honest henv hrest (hupToDate k c hsure hk) hk
    by_cases hmem : k ∈ todo
    · exact .inr ⟨hmem, s, List.mem_singleton.2 rfl, hcoherent, hk, .inl hhonest⟩
    · have hmono : ∀ name, ∀ a ∈ c.reads, s.graph.holder? name = some a →
          (s.withHeader id header).graph.holder? name = some a := fun name a ha =>
        (hcoherent.read_withHeader henv (hreads k c hsure hk) (hholder k c hk hmem) ha).2 name
      exact .inl ⟨hplaced.mono hmono, .inl (hhonest.mono hmono)⟩
  · by_cases hmem : k ∈ todo
    · exact .inl hmem
    · rw [hreading k c hk hmem]
      exact .inr (.inr (hreads k c hsure hk))
  · by_cases hmem : k ∈ todo
    · exact .inl hmem
    · rw [keys_withHeader] at hk
      refine .inr (.upToDate ((upToDate_of_not_stale hsure hk).congr rfl
        (fun ck hck => hreading k ck hck hmem) Iff.rfl fun ck hck a ha => ?_))
      unfold seen
      rw [(hcoherent.read_withHeader henv (hreads k ck hsure hck) (hholder k ck hck hmem) ha).1]
      rfl

/-! ### Without a node -/

/-- A removed node does not change the results of others. -/
theorem resultOf_without (hne : k ≠ id) : (s.without id).resultOf k = s.resultOf k := by
  unfold resultOf
  rw [calculator?_without, if_neg hne]

/-- A removed node does not change the headers of others. -/
theorem headerOf_without (hne : k ≠ id) :
    (s.without id).graph.headerOf k = s.graph.headerOf k := by
  unfold Graph.headerOf
  rw [node?_without, if_neg hne]

/-- The table without the node that is gone. -/
theorem Coherent.rows_without (h : s.Coherent) (id : NodeId) :
    (s.without id).rows = s.rows.filter (·.id ≠ id) := by
  have hkeys : (s.without id).calculators.keys = s.calculators.keys.filter (· ≠ id) :=
    Table.keys_erase ..
  rw [(h.without id).rows_eq, h.rows_eq, hkeys, List.filter_map]
  refine List.map_congr_left fun k hk => ?_
  have hne : k ≠ id := by simpa using (List.mem_filter.1 hk).2
  rw [headerOf_without hne, calculator?_without, if_neg hne]

/-- Other edits go on waiting when a node is removed. -/
theorem waiting_without (hne : k ≠ id) (hwaiting : s.Waiting k) : (s.without id).Waiting k := by
  refine hwaiting.imp_right fun ⟨t, ht, hkey⟩ => ⟨t, List.mem_filter.2 ⟨ht, ?_⟩, hkey⟩
  simpa [hkey] using hne

/-- A calculator that is left, and the nodes that it has read if it is not to be recalculated. -/
theorem Coherent.of_calculator?_without (h : s.Coherent)
    (hdependents : ∀ k ∈ s.graph.dependentsOf id, k ≠ id → k ∈ todo) (hid : id ∈ s.graph.nodes.keys)
    (hk : (s.without id).calculator? k = some c) :
    k ≠ id ∧ s.calculator? k = some c ∧ (k ∉ todo → id ∉ c.reads) := by
  rw [calculator?_without] at hk
  split at hk
  · cases hk
  · next hne =>
    refine ⟨hne, hk, fun hnot hread => hnot (hdependents k ?_ hne)⟩
    exact (h.mirrored k id).2 ((h.edges k id).2 ⟨c, hk, hread, hid⟩)

/-- The accounts without a node, if those that read it are to be recalculated. -/
theorem Accounted.without (h : Accounted env s []) (hid : id ∈ s.graph.nodes.keys)
    (hdependents : ∀ k ∈ s.graph.dependentsOf id, k ≠ id → k ∈ todo) :
    Accounted env (s.without id) todo where
  coherent := h.coherent.without id
  registered k c hk := by
    obtain ⟨-, hc, hreads⟩ := h.coherent.of_calculator?_without hdependents hid hk
    by_cases hmem : k ∈ todo
    · exact .inl hmem
    refine .inr fun a ha => mem_keys_without.2 ⟨?_, ?_⟩
    · exact (h.registered k c hc).resolve_left (by simp) a ha
    · rintro rfl
      exact hreads hmem ha
  current k c hk := by
    obtain ⟨hne, hc, hreads⟩ := h.coherent.of_calculator?_without hdependents hid hk
    by_cases hmem : k ∈ todo
    · exact .inl hmem
    refine .inr (((h.current k c hc).resolve_left (by simp)).imp (fun hawaits => ?_)
      fun hprint => hprint.trans ?_)
    · exact hawaits.imp_left (waiting_without hne)
    · have hsame : c.reads.map (s.without id).resultOf = c.reads.map s.resultOf := by
        refine List.map_congr_left fun a ha => resultOf_without ?_
        rintro rfl
        exact hreads hmem ha
      rw [hsame]
  evaluated k c hk := h.evaluated k c (h.coherent.of_calculator?_without hdependents hid hk).2.1

/-- A name means the same as before if it did not mean the node that is gone. -/
theorem holder?_without {name : String} (hname : s.graph.holder? name ≠ some id) :
    (s.without id).graph.holder? name = s.graph.holder? name :=
  Graph.holder?_unregister_of_ne hname

/-- Nothing comes to the node that is gone. -/
theorem Coherent.ne_of_reaches_without (h : s.Coherent) (hne : k ≠ id) {x : NodeId}
    (hpath : ReflTransGen (s.without id).graph.Reads k x) : x ≠ id := by
  rcases ReflTransGen.cases_tail hpath with heq | ⟨y, -, hstep⟩
  · exact heq ▸ hne
  · exact ((h.reads_without id y x).1 hstep).2.2

/-- A step stays, unless it leaves the node that is gone or one that has read it. -/
theorem Coherent.reads_without_of_reads (h : s.Coherent) (x y : NodeId)
    (hx : ¬ (x = id ∨ s.graph.Reads x id)) (hstep : s.graph.Reads x y) :
    (s.without id).graph.Reads x y := by
  refine (h.reads_without id x y).2 ⟨hstep, fun heq => hx (.inl heq), ?_⟩
  rintro rfl
  exact hx (.inr hstep)

/-- A collision lasts, if its node has not read the one that is gone. -/
theorem Collided.without (h : Collided past s k) (hne : k ≠ id) (hc : s.calculator? k = some c)
    (hread : id ∉ c.reads) : Collided past (s.without id) k := by
  have hc' : (s.without id).calculator? k = some c := by rw [calculator?_without, if_neg hne, hc]
  refine h.congr hc hc' rfl rfl fun a ha => headerOf_without ?_
  rintro rfl
  exact hread ha

/-- A node that is not to be recalculated is covered, if it comes to one that has read the node that
is gone. -/
theorem Covered.of_lost (h : s.Coherent) (hne : k ≠ id) (hmem : k ∉ todo)
    (hdependents : ∀ k ∈ s.graph.dependentsOf id, k ≠ id → k ∈ todo)
    (hlost : ∃ z, (z = id ∨ s.graph.Reads z id) ∧
      ReflTransGen (s.without id).graph.Reads k z) :
    Covered env past doubtful (s.without id) k := by
  obtain ⟨z, hz, hpath⟩ := hlost
  have hzid := h.ne_of_reaches_without hne hpath
  have hread : s.graph.Reads z id := hz.resolve_left hzid
  obtain ⟨c, hc, ha, -⟩ := (h.edges z id).1 hread
  rcases reflTransGen_iff_eq_or_transGen.1 hpath with heq | hpath
  · exact absurd (hdependents z ((h.mirrored z id).2 hread) hzid) (heq ▸ hmem)
  · refine .missing z ⟨c, ?_, id, ha, fun hnot => (mem_keys_without.1 hnot).2 rfl⟩ hpath
    rw [calculator?_without, if_neg hzid, hc]

/-- A node that is up to date stays so, if it comes to none that has read the node that is gone, and
should read what it should have read before. -/
theorem UpToDate.without (h : UpToDate env s k) (hcoherent : s.Coherent) (hne : k ≠ id)
    (hread : ∀ c, s.calculator? k = some c → id ∉ c.reads)
    (hreading : ∀ c, s.calculator? k = some c →
      reading? env (s.without id) k c = reading? env s k c)
    (hlost : ¬ ∃ z, (z = id ∨ s.graph.Reads z id) ∧
      ReflTransGen (s.without id).graph.Reads k z) : UpToDate env (s.without id) k := by
  have hcycle : (s.without id).graph.LeadsToCycle k ↔ s.graph.LeadsToCycle k := by
    constructor
    · rintro ⟨b, hpath, hback⟩
      have hfewer : ∀ x y, (s.without id).graph.Reads x y → s.graph.Reads x y :=
        fun x y hstep => ((hcoherent.reads_without id x y).1 hstep).1
      exact ⟨b, ReflTransGen.mono hfewer k b hpath, TransGen.mono hfewer b b hback⟩
    · intro hleads
      exact (leadsToCycle_or_reaches hcoherent.reads_without_of_reads hleads).resolve_right hlost
  refine h.congr ?_ hreading hcycle fun c hc a ha => ?_
  · rw [calculator?_without, if_neg hne]
  · have ha' : a ≠ id := fun heq => hread c hc (heq ▸ ha)
    unfold seen
    rw [headerOf_without ha', resultOf_without ha']

/-- What covers a node that is not to be recalculated goes on to cover it. -/
theorem Covered.without (h : Covered env past doubtful s k) (haccounted : Accounted env s [])
    (hid : id ∈ s.graph.nodes.keys) (hne : k ≠ id) (hmem : k ∉ todo)
    (hdependents : ∀ k ∈ s.graph.dependentsOf id, k ≠ id → k ∈ todo)
    (hreading : ∀ c, s.calculator? k = some c →
      reading? env (s.without id) k c = reading? env s k c) :
    Covered env past doubtful (s.without id) k := by
  have hcoherent := haccounted.coherent
  -- A node that leads to one that read the removed one is covered by that; any other path stays
  -- clear of it.
  by_cases hlost : ∃ z, (z = id ∨ s.graph.Reads z id) ∧ ReflTransGen (s.without id).graph.Reads k z
  · exact .of_lost hcoherent hne hmem hdependents hlost
  cases h with
  | awaits hawaits => exact .awaits (hawaits.imp_left (waiting_without hne))
  | upToDate hupToDate =>
    refine .upToDate (hupToDate.without hcoherent hne (fun c hc => ?_) hreading hlost)
    refine (hcoherent.of_calculator?_without hdependents hid (?_ : _ = some c)).2.2 hmem
    rw [calculator?_without, if_neg hne, hc]
  | missing d hmissing =>
    obtain ⟨cd, hcd, a, ha, hnot⟩ := hmissing
    exact absurd ((haccounted.registered d cd hcd).resolve_left (by simp) a ha) hnot
  | tainted m hm hpath =>
    have hpath' :=
      (reflTransGen_or_reaches hcoherent.reads_without_of_reads hpath).resolve_right hlost
    refine .tainted m (hm.imp_right fun hcollided => ?_) hpath'
    obtain ⟨cm, hcm⟩ := hcollided.calculator
    refine hcollided.without (hcoherent.ne_of_reaches_without hne hpath') hcm fun hread => ?_
    exact hlost ⟨m, .inr ((hcoherent.edges m id).2 ⟨cm, hcm, hread, hid⟩), hpath'⟩

/-- Progress without a node, if the nodes are recalculated that read it or mention its header. -/
theorem Progress.without (henv : env.Answers) (haccounted : Accounted env s [])
    (h : Progress env past doubtful watched s []) (hid : id ∈ s.graph.nodes.keys)
    (hdependents : ∀ k ∈ s.graph.dependentsOf id, k ≠ id → k ∈ todo)
    (hmention : ∀ k c name, s.calculator? k = some c → k ≠ id → name ∈ env.references c.expression →
      s.graph.headerOf id = some name → k ∈ todo) :
    Progress env (s :: past) doubtful watched (s.without id) todo := by
  have hcoherent := haccounted.coherent
  have hleft : ∀ {k c}, (s.without id).calculator? k = some c →
      k ≠ id ∧ s.calculator? k = some c ∧ (k ∉ todo → id ∉ c.reads) :=
    fun hk => hcoherent.of_calculator?_without hdependents hid hk
  have hreading : ∀ k c, s.calculator? k = some c → k ≠ id → k ∉ todo →
      reading? env (s.without id) k c = reading? env s k c := by
    intro k c hk hne hnot
    refine reading?_congr hcoherent.nodup (hcoherent.without id).nodup (henv.nodup _)
      fun name hname => holder?_without fun hmeans => hnot (hmention k c name hk hne hname ?_)
    exact (Graph.headerOf_of_holder? hcoherent.nodup hmeans).2
  refine ⟨fun k c hsure hk => ?_, fun k c hwatched hk => ?_, fun k hwatched hk => ?_⟩
  · obtain ⟨hne, hc, hreads⟩ := hleft hk
    obtain ⟨hplaced, hhonest⟩ := (h.kept k c hsure hc).resolve_right fun hsuspect =>
      absurd hsuspect.1 (by simp)
    by_cases hmem : k ∈ todo
    · exact .inr ⟨hmem, s, List.mem_cons_self .., hcoherent, hc,
        hhonest.imp_right (·.mono (List.subset_cons_self ..))⟩
    -- Who is not recalculated did not read the removed node, and its names mean what they meant.
    · have hmono : ∀ name, ∀ a ∈ c.reads, s.graph.holder? name = some a →
          (s.without id).graph.holder? name = some a := by
        intro name a ha hmeans
        rw [holder?_without, hmeans]
        rw [hmeans]
        rintro heq
        exact hreads hmem (Option.some.inj heq ▸ ha)
      exact .inl ⟨hplaced.mono hmono, hhonest.imp (·.mono hmono) fun hcollided =>
        (hcollided.without hne hc (hreads hmem)).mono (List.subset_cons_self ..)⟩
  · obtain ⟨hne, hc, -⟩ := hleft hk
    by_cases hmem : k ∈ todo
    · exact .inl hmem
    · rw [hreading k c hc hne hmem]
      exact .inr (((h.linked k c hwatched hc).resolve_left (by simp)).imp_left
        (waiting_without hne))
  · obtain ⟨hk', hne⟩ := mem_keys_without.1 hk
    by_cases hmem : k ∈ todo
    · exact .inl hmem
    · have hcovered := (h.covered k hwatched hk').resolve_left (by simp)
      exact .inr ((hcovered.without haccounted hid hne hmem hdependents
        fun c hc => hreading k c hc hne hmem).mono (List.subset_cons_self ..))

/-! ### Without nodes -/

/-- The accounts of a sheet without nodes. -/
theorem Accounted.cleared (h : Accounted env s []) : Accounted env s.cleared [] where
  coherent := h.coherent.cleared
  registered _ _ hk := by cases hk
  current _ _ hk := by cases hk
  evaluated _ _ hk := by cases hk

/-- A sheet without nodes has nothing left to do. -/
theorem Progress.cleared (h : s.Coherent) : Progress env past doubtful watched s.cleared [] where
  kept _ _ _ hk := by cases hk
  linked _ _ _ hk := by cases hk
  covered k _ hk := by
    rw [h.cleared_spec.1] at hk
    cases hk

end LiveSheet.Sheet
