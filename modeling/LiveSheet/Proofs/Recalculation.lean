import LiveSheet.Proofs.References

/-!
# What a recalculation does

A sheet is coherent (`Sheet.Coherent`) if its calculators and its graph speak of the same nodes and
agree on the result of each, and if the edges of a node are those to the registered ones among the
nodes that it reads. `Sheet.recalculate_spec` says once what the recalculation of a node does to a
coherent sheet: `Sheet.Effect` is what changes, which is the node and nothing else, and
`Sheet.Verdict` what the node comes to and whether its dependents hear of it. Everything that is
proved about recalculation is proved from these two.

`Sheet.due` is what a node should come to in a sheet as it is, and `Sheet.UpToDate` says that it
has.
-/

namespace LiveSheet

/-- The error kind of a result that is none. -/
def Result.failure? : Result → Option ErrorKind
  | number _ => none
  | failed kind => some kind

/-- The failure of a result is told from the value it is kept as. -/
theorem ErrorKind.ofValue?_toValue (result : Result) :
    ErrorKind.ofValue? result.toValue = result.failure? := by
  cases result with
  | number x => rfl
  | failed kind => exact ErrorKind.ofText?_text kind

namespace Sheet

/-! ### What is read and what it comes to -/

/-- The scope of some results by their headers. -/
def scopeOf (read : List (String × Result)) : Scope :=
  read.foldl (fun scope (name, result) => scope.insert name result.toValue) .empty

/-- The first error kind among some results. -/
def firstFailure? (read : List (String × Result)) : Option ErrorKind :=
  read.findSome? fun (_, result) => result.failure?

/-- What an expression comes to with the results that it reads: the first error kind among them, or
else what is evaluated. -/
def conclusion (env : Environment) (expression : String) (read : List (String × Result)) :
    Except NumberError Result :=
  match firstFailure? read with
  | some kind => .ok (.failed kind)
  | none => evaluate env expression (scopeOf read)

/-- The fingerprint of an expression with the results that it reads. -/
def printOf (expression : String) (results : List Result) : String :=
  fingerprintOf expression (results.map Result.toValue)

/-- The result of a node. -/
def resultOf (s : Sheet) (id : NodeId) : Result :=
  ((s.calculator? id).map (·.result)).getD default

/-- The header of a node and its result. -/
def seen (s : Sheet) (id : NodeId) : String × Result :=
  ((s.graph.headerOf id).getD "", s.resultOf id)

/-- The nodes that a calculator should read, unless its node refers to itself. -/
def reading? (env : Environment) (s : Sheet) (id : NodeId) (c : Calculator) :
    Option (List NodeId) :=
  resolve? s.graph id [] (env.references c.expression)

/-- What a node should come to in a sheet as it is. -/
def due (env : Environment) (s : Sheet) (id : NodeId) (c : Calculator) :
    Except NumberError Result :=
  match reading? env s id c with
  | none => .ok (.failed .selfReference)
  | some reads =>
    if s.graph.reachesCycle id then .ok (.failed .circularDependency)
    else conclusion env c.expression (reads.map s.seen)

/-- Whether a node reads what it should and has come to what it should. -/
def UpToDate (env : Environment) (s : Sheet) (id : NodeId) : Prop :=
  ∃ c, s.calculator? id = some c ∧ c.reads = (reading? env s id c).getD [] ∧
    due env s id c = .ok c.result

/-! ### Coherent sheets -/

/-- What the parts of a sheet say of each other, also while a task is being done. -/
structure Coherent (s : Sheet) : Prop where
  keys : s.calculators.keys = s.graph.nodes.keys
  nodup : s.graph.nodes.keys.Nodup
  shown : ∀ id c, s.calculator? id = some c → ∃ record, s.graph.node? id = some record ∧
    record.result = c.result.toValue ∧ record.callback = some id
  mirrored : s.graph.Mirrored
  edges : ∀ a b, b ∈ s.graph.dependenciesOf a ↔
    ∃ c, s.calculator? a = some c ∧ b ∈ c.reads ∧ b ∈ s.graph.nodes.keys
  irreflexive : ∀ id c, s.calculator? id = some c → id ∉ c.reads
  distinct : ∀ id c, s.calculator? id = some c → c.reads.Nodup
  timers : ∀ t ∈ s.agenda.timers, t.task = .recalculate t.key
  cached : ∀ id c print result, s.calculator? id = some c → c.cached = some (print, result) →
    c.result = result
  published : ∀ id c print kind, s.calculator? id = some c → c.published = some (print, kind) →
    c.result = .failed kind ∧ c.cached = none

variable {env : Environment} {s s' : Sheet} {id a b : NodeId} {c c' : Calculator}

/-- The nodes with a calculator are those that are registered. -/
theorem Coherent.exists_calculator_iff (h : s.Coherent) :
    (∃ c, s.calculator? id = some c) ↔ id ∈ s.graph.nodes.keys := by
  rw [← h.keys, ← Table.contains_iff_mem_keys, Table.contains, Option.isSome_iff_exists]
  exact Iff.rfl

/-- A node with a calculator is registered. -/
theorem Coherent.registered (h : s.Coherent) (hc : s.calculator? id = some c) :
    id ∈ s.graph.nodes.keys :=
  h.exists_calculator_iff.1 ⟨c, hc⟩

/-- A registered node has a calculator. -/
theorem Coherent.calculator_of_mem (h : s.Coherent) (hid : id ∈ s.graph.nodes.keys) :
    ∃ c, s.calculator? id = some c :=
  h.exists_calculator_iff.2 hid

/-- The result of a node is the one its calculator has. -/
theorem resultOf_eq (hc : s.calculator? id = some c) : s.resultOf id = c.result := by
  simp [resultOf, hc]

/-- The record of a registered node shows its result. -/
theorem Coherent.resultSeen_eq (h : s.Coherent) (hid : id ∈ s.graph.nodes.keys) :
    resultSeen s.graph id = (s.resultOf id).toValue := by
  obtain ⟨c, hc⟩ := h.calculator_of_mem hid
  obtain ⟨record, hrecord, hresult, -⟩ := h.shown id c hc
  rw [resultSeen, hrecord, resultOf_eq hc]
  exact hresult

/-- The callback of a record recalculates its own node. -/
theorem Coherent.callback (h : s.Coherent) {record : NodeRecord NodeId}
    (hrecord : s.graph.node? id = some record) : record.callback = some id := by
  obtain ⟨c, hc⟩ := h.calculator_of_mem
    ((Graph.isSome_node?_iff s.graph id).1 (by simp [hrecord]))
  obtain ⟨record', hrecord', -, hcallback⟩ := h.shown id c hc
  obtain rfl : record = record' := Option.some.inj (hrecord.symm.trans hrecord')
  exact hcallback

/-- What a node should read is registered and is not the node. -/
theorem Coherent.mem_reading (h : s.Coherent) (hnames : (env.references c.expression).Nodup)
    {reads : List NodeId} (hreads : reading? env s id c = some reads) :
    reads = (env.references c.expression).filterMap s.graph.holder? ∧ id ∉ reads ∧
      ∀ a ∈ reads, a ∈ s.graph.nodes.keys := by
  rw [reading?, resolve?_eq h.nodup hnames] at hreads
  split at hreads
  · cases hreads
  · next hid =>
    obtain rfl := Option.some.inj hreads
    refine ⟨rfl, hid, fun a ha => ?_⟩
    obtain ⟨name, -, hholder⟩ := List.mem_filterMap.1 ha
    exact (Graph.headerOf_of_holder? h.nodup hholder).1

/-- The results that are gathered are those of the calculators. -/
theorem Coherent.gather_eq (h : s.Coherent) {reads : List NodeId}
    (hreads : ∀ a ∈ reads, a ∈ s.graph.nodes.keys) (scope : Scope) :
    gather s.graph scope reads =
      match firstFailure? (reads.map s.seen) with
      | some kind => .error kind
      | none => .ok ((reads.map s.seen).foldl
        (fun scope (name, result) => scope.insert name result.toValue) scope) := by
  induction reads generalizing scope with
  | nil => rfl
  | cons a reads ih =>
    obtain ⟨c, hc⟩ := h.calculator_of_mem (hreads a (by simp))
    obtain ⟨record, hrecord, hresult, -⟩ := h.shown a c hc
    have hheader : s.graph.headerOf a = record.header := by simp [Graph.headerOf, hrecord]
    have hseen : s.seen a = (record.header.getD "", c.result) := by
      rw [seen, hheader, resultOf_eq hc]
    rw [gather, hrecord]
    simp only [hresult, ErrorKind.ofValue?_toValue, List.map_cons, hseen, firstFailure?,
      List.findSome?_cons, List.foldl_cons]
    cases c.result.failure? with
    | some kind => rfl
    | none => exact ih (fun b hb => hreads b (List.mem_cons_of_mem a hb)) _

/-! ### The effect of a recalculation -/

/-- What the recalculation of a node changes: its calculator, the result in its record and its
edges. If it is loud, the nodes that follow it are scheduled. -/
structure Effect (s : Sheet) (id : NodeId) (c' : Calculator) (loud : Bool) (s' : Sheet) : Prop where
  calculator : ∀ k, s'.calculator? k = if k = id then some c' else s.calculator? k
  calculatorKeys : s'.calculators.keys = s.calculators.keys
  node : ∀ k, s'.graph.node? k =
    if k = id then (s.graph.node? k).map fun record => { record with result := c'.result.toValue }
    else s.graph.node? k
  nodeKeys : s'.graph.nodes.keys = s.graph.nodes.keys
  headings : s'.graph.headings = s.graph.headings
  edges : ∀ a b, b ∈ s'.graph.dependenciesOf a ↔
    if a = id then b ∈ c'.reads else b ∈ s.graph.dependenciesOf a
  mirrored : s'.graph.Mirrored
  silent : loud = false → s'.agenda = s.agenda
  loud : loud = true → s'.agenda =
    if (s'.graph.wave id).callbacks.isEmpty then s.agenda
    else s.agenda.schedule (.follow (s'.graph.wave id).callbacks)

/-- What a node comes to, and whether it is loud. A node that refers to itself or leads to a cycle
is unresolved, and loud unless it has published the same before; a kept result is kept if its
fingerprint is the present one; otherwise there is a new result, or the evaluation raises. -/
inductive Verdict (env : Environment) (s s' : Sheet) (id : NodeId) (c : Calculator) :
    Calculator → Bool → Prop where
  | unresolved (reads : List NodeId) (kind : ErrorKind)
      (cause : (reading? env s id c = none ∧ reads = [] ∧ kind = .selfReference) ∨
        (reading? env s id c = some reads ∧ s'.graph.LeadsToCycle id ∧
          kind = .circularDependency)) :
      Verdict env s s' id c
        { c with
          reads, result := .failed kind, cached := none
          published := some (printOf c.expression (reads.map s.resultOf), kind) }
        (c.published ≠ some (printOf c.expression (reads.map s.resultOf), kind))
  | kept (reads : List NodeId) (result : Result) (hreads : reading? env s id c = some reads)
      (hcycle : ¬ s'.graph.LeadsToCycle id)
      (hcached : c.cached = some (printOf c.expression (reads.map s.resultOf), result)) :
      Verdict env s s' id c { c with reads, result } false
  | concluded (reads : List NodeId) (result : Result) (hreads : reading? env s id c = some reads)
      (hcycle : ¬ s'.graph.LeadsToCycle id)
      (hcached : ∀ kept, c.cached ≠ some (printOf c.expression (reads.map s.resultOf), kept))
      (hresult : conclusion env c.expression (reads.map s.seen) = .ok result) :
      Verdict env s s' id c
        { c with
          reads, result, published := none
          cached := some (printOf c.expression (reads.map s.resultOf), result) }
        true
  | raised (reads : List NodeId) (e : NumberError) (hreads : reading? env s id c = some reads)
      (hcycle : ¬ s'.graph.LeadsToCycle id)
      (hresult : conclusion env c.expression (reads.map s.seen) = .error e) :
      Verdict env s s' id c { c with reads } false

/-- Only the node itself is modified. -/
theorem calculator?_modify (s : Sheet) (id k : NodeId) (f : Calculator → Calculator) :
    (s.modify id f).calculator? k = if k = id then (s.calculator? k).map f else s.calculator? k :=
  Table.get?_modify ..

/-- A modification adds and removes no calculator. -/
theorem calculatorKeys_modify (s : Sheet) (id : NodeId) (f : Calculator → Calculator) :
    (s.modify id f).calculators.keys = s.calculators.keys :=
  Table.keys_modify ..

/-- New edges in place of those to what a node has read. -/
theorem Coherent.relink_graph (h : s.Coherent) (hc : s.calculator? id = some c)
    (now : List NodeId) :
    (s.relink id c.reads now).graph.nodes = s.graph.nodes ∧
      (s.relink id c.reads now).graph.Mirrored ∧
      ∀ a b, b ∈ (s.relink id c.reads now).graph.dependenciesOf a ↔
        if a = id then b ∈ now else b ∈ s.graph.dependenciesOf a := by
  refine ⟨?_, (h.mirrored.removeAll id c.reads).linkAll id now, fun a b => ?_⟩
  · exact (Graph.nodes_linkAll _ id now).trans (Graph.nodes_removeAll s.graph id c.reads)
  · refine (Graph.mem_dependenciesOf_linkAll now).trans ?_
    rw [Graph.mem_dependenciesOf_removeAll]
    by_cases ha : a = id
    · subst ha
      -- Every old edge of the node goes to something that it has read.
      have hold : b ∈ s.graph.dependenciesOf a → b ∈ c.reads := by
        intro hb
        obtain ⟨c₁, hc₁, hread, -⟩ := (h.edges a b).1 hb
        obtain rfl : c = c₁ := Option.some.inj (hc.symm.trans hc₁)
        exact hread
      simp only [true_and, if_true]
      tauto
    · simp [ha]

/-- The effect of new edges together with a new calculator. -/
theorem Coherent.effect_of_relink (h : s.Coherent) (hc : s.calculator? id = some c)
    {loud : Bool}
    (hcalculator : ∀ k, s'.calculator? k = if k = id then some c' else s.calculator? k)
    (hkeys : s'.calculators.keys = s.calculators.keys)
    (hgraph : (s'.graph = (s.relink id c.reads c'.reads).graph ∧ c'.result = c.result) ∨
      s'.graph = (s.relink id c.reads c'.reads).graph.update id [.result c'.result.toValue])
    (hsilent : loud = false → s'.agenda = s.agenda)
    (hloud : loud = true → s'.agenda =
      if (s'.graph.wave id).callbacks.isEmpty then s.agenda
      else s.agenda.schedule (.follow (s'.graph.wave id).callbacks)) :
    Effect s id c' loud s' := by
  obtain ⟨hnodes, hmirrored, hedges⟩ := h.relink_graph hc c'.reads
  obtain ⟨record, hrecord, hresult, -⟩ := h.shown id c hc
  have hnode : ∀ k, (s.relink id c.reads c'.reads).graph.node? k = s.graph.node? k := by
    intro k
    unfold Graph.node?
    rw [hnodes]
  -- The record of the node is updated, unless the result is the same as before.
  rcases hgraph with ⟨hgraph, hsame⟩ | hgraph
  · refine ⟨hcalculator, hkeys, fun k => ?_, ?_, ?_, ?_, ?_, hsilent, hloud⟩
    · rw [hgraph, hnode]
      by_cases hk : k = id
      · subst hk
        rw [if_pos rfl, hrecord, hsame, ← hresult]
        rfl
      · rw [if_neg hk]
    · rw [hgraph, hnodes]
    · rw [hgraph]
      exact Graph.headings_of_nodes_eq hnodes
    · rw [hgraph]
      exact hedges
    · rw [hgraph]
      exact hmirrored
  · refine ⟨hcalculator, hkeys, fun k => ?_, ?_, ?_, ?_, ?_, hsilent, hloud⟩
    · rw [hgraph, Graph.node?_update, hnode]
      rfl
    · rw [hgraph, Graph.keys_update, hnodes]
    · rw [hgraph, Graph.headings_update_result]
      exact Graph.headings_of_nodes_eq hnodes
    · rw [hgraph]
      exact hedges
    · rw [hgraph]
      exact hmirrored

/-- The agenda after a change of a node that is published. -/
def announced (s : Sheet) (id : NodeId) : Agenda NodeId SheetTask :=
  if (s.graph.wave id).callbacks.isEmpty then s.agenda
  else s.agenda.schedule (.follow (s.graph.wave id).callbacks)

/-- An unresolved node keeps nothing but what it has published. -/
theorem concludeUnresolved_spec (hc : s.calculator? id = some c) (print : String)
    (kind : ErrorKind) :
    (∀ k, (s.concludeUnresolved id c print kind).calculator? k =
      if k = id then some { c with cached := none, published := some (print, kind) }
      else s.calculator? k) ∧
    (s.concludeUnresolved id c print kind).calculators.keys = s.calculators.keys ∧
    (s.concludeUnresolved id c print kind).graph = s.graph ∧
    (s.concludeUnresolved id c print kind).agenda =
      if c.published = some (print, kind) then s.agenda else s.announced id := by
  unfold concludeUnresolved
  -- What has been published before is not announced again, and then the entry stays as it is.
  by_cases hpublished : c.published = some (print, kind)
  · rw [if_pos hpublished, if_pos hpublished]
    refine ⟨fun k => ?_, calculatorKeys_modify .., rfl, rfl⟩
    rw [calculator?_modify]
    by_cases hk : k = id
    · subst hk
      rw [if_pos rfl, if_pos rfl, hc, ← hpublished]
      rfl
    · rw [if_neg hk, if_neg hk]
  · rw [if_neg hpublished, if_neg hpublished]
    refine ⟨fun k => ?_, calculatorKeys_modify s id _, rfl, rfl⟩
    refine (calculator?_modify s id k _).trans ?_
    by_cases hk : k = id
    · subst hk
      rw [if_pos rfl, if_pos rfl, hc]
      rfl
    · rw [if_neg hk, if_neg hk]

/-- A result that is concluded is kept, shown and published. -/
theorem conclude_spec (hc : s.calculator? id = some c) (print : String) (result : Result) :
    (∀ k, (s.conclude id print result).calculator? k =
      if k = id then some { c with result, cached := some (print, result), published := none }
      else s.calculator? k) ∧
    (s.conclude id print result).calculators.keys = s.calculators.keys ∧
    (s.conclude id print result).graph = s.graph.update id [.result result.toValue] ∧
    (s.conclude id print result).agenda =
      { s with graph := s.graph.update id [.result result.toValue] : Sheet }.announced id := by
  refine ⟨fun k => ?_, ?_, rfl, rfl⟩
  · have hmodify : (s.conclude id print result).calculator? k =
        ((s.modify id fun c => { c with cached := some (print, result), published := none }).modify
          id fun c => { c with result }).calculator? k := rfl
    rw [hmodify, calculator?_modify, calculator?_modify]
    by_cases hk : k = id
    · subst hk
      rw [if_pos rfl, if_pos rfl, if_pos rfl, hc]
      rfl
    · rw [if_neg hk, if_neg hk, if_neg hk]
  · refine (calculatorKeys_modify _ id _).trans (calculatorKeys_modify s id _)

/-- New results elsewhere do not matter to the fingerprint of a node. -/
theorem Coherent.fingerprint_eq (h : s.Coherent) {g : Graph NodeId}
    (hreads : ∀ a ∈ c.reads, a ∈ s.graph.nodes.keys ∧ g.node? a = s.graph.node? a) :
    fingerprint g c = printOf c.expression (c.reads.map s.resultOf) := by
  unfold fingerprint printOf
  rw [List.map_map]
  congr 1
  refine List.map_congr_left fun a ha => ?_
  obtain ⟨hmem, hnode⟩ := hreads a ha
  unfold resultSeen
  rw [hnode]
  exact h.resultSeen_eq hmem

/-- Relinking changes what the node itself reads. -/
theorem calculator?_relink (s : Sheet) (id k : NodeId) (before now : List NodeId) :
    (s.relink id before now).calculator? k =
      if k = id then (s.calculator? k).map fun c => { c with reads := now }
      else s.calculator? k :=
  calculator?_modify s id k _

/-- Relinking adds and removes no calculator. -/
theorem calculatorKeys_relink (s : Sheet) (id : NodeId) (before now : List NodeId) :
    (s.relink id before now).calculators.keys = s.calculators.keys :=
  calculatorKeys_modify s id _

/-- Only the node itself gets the result. -/
theorem calculator?_setResult (s : Sheet) (id k : NodeId) (result : Result) :
    (s.setResult id result).calculator? k =
      if k = id then (s.calculator? k).map fun c => { c with result } else s.calculator? k :=
  calculator?_modify s id k _

/-- Linking changes no record. -/
theorem Coherent.node?_relink (h : s.Coherent) (hc : s.calculator? id = some c)
    (now : List NodeId) (k : NodeId) :
    (s.relink id c.reads now).graph.node? k = s.graph.node? k := by
  unfold Graph.node?
  rw [(h.relink_graph hc now).1]

/-- The recalculation of a node that cannot be resolved. -/
theorem Coherent.recalculate_unresolved (h : s.Coherent) (hc : s.calculator? id = some c)
    {reads : List NodeId} {kind : ErrorKind} (hid : id ∉ reads)
    (hreads : ∀ a ∈ reads, a ∈ s.graph.nodes.keys)
    (hupdate : updateDependencies env s id =
      ((s.relink id c.reads reads).setResult id (.failed kind), some kind)) :
    Effect s id
      { c with
        reads, result := .failed kind, cached := none
        published := some (printOf c.expression (reads.map s.resultOf), kind) }
      (c.published ≠ some (printOf c.expression (reads.map s.resultOf), kind))
      (recalculate env s id).1 := by
  set s₁ := (s.relink id c.reads reads).setResult id (.failed kind) with hs₁
  let c₁ : Calculator := { c with reads, result := .failed kind }
  have hc₁ : s₁.calculator? id = some c₁ := by
    rw [hs₁, calculator?_setResult, calculator?_relink, if_pos rfl, if_pos rfl, hc]
    rfl
  have hother : ∀ k, k ≠ id → s₁.calculator? k = s.calculator? k := by
    intro k hk
    rw [hs₁, calculator?_setResult, calculator?_relink, if_neg hk, if_neg hk]
  -- The node does not read itself, so its new result leaves the fingerprint alone.
  have hprint : fingerprint s₁.graph c₁ = printOf c.expression (reads.map s.resultOf) := by
    refine h.fingerprint_eq (c := c₁) fun a ha => ⟨hreads a ha, ?_⟩
    have hne : a ≠ id := fun heq => hid (heq ▸ ha)
    refine (Graph.node?_update _ id a _).trans ?_
    rw [if_neg hne, h.node?_relink hc]
  have hrun : (recalculate env s id).1 =
      s₁.concludeUnresolved id c₁ (printOf c.expression (reads.map s.resultOf)) kind := by
    have hnode : (s.graph.node? id).isNone = false := by
      obtain ⟨record, hrecord, -⟩ := h.shown id c hc
      rw [hrecord]
      rfl
    rw [recalculate, hc]
    simp only [hnode, Bool.false_eq_true, if_false, hupdate, hc₁, Option.getD_some, hprint]
  obtain ⟨hcalculator, hkeys, hgraph, hagenda⟩ :=
    concludeUnresolved_spec hc₁ (printOf c.expression (reads.map s.resultOf)) kind
  rw [hrun]
  refine h.effect_of_relink hc (fun k => ?_) ?_ (.inr ?_) (fun hsilent => ?_) fun hloud => ?_
  · rw [hcalculator k]
    by_cases hk : k = id
    · rw [if_pos hk, if_pos hk]
    · rw [if_neg hk, if_neg hk, hother k hk]
  · rw [hkeys]
    exact (calculatorKeys_modify _ id _).trans (calculatorKeys_relink s id _ _)
  · rw [hgraph]
    rfl
  · rw [hagenda, if_pos (by simpa using hsilent)]
    rfl
  · rw [hagenda, if_neg (by simpa using hloud), hgraph]
    rfl

/-- The calculator of a node whose edges have been set. -/
theorem calculator?_relink_self (hc : s.calculator? id = some c) (reads : List NodeId) :
    (s.relink id c.reads reads).calculator? id = some { c with reads } := by
  rw [calculator?_relink, if_pos rfl, hc]
  rfl

/-- What is gathered once the edges have been set. -/
theorem Coherent.gather_relink (h : s.Coherent) (hc : s.calculator? id = some c)
    {reads : List NodeId} (hreads : ∀ a ∈ reads, a ∈ s.graph.nodes.keys) :
    gather (s.relink id c.reads reads).graph .empty reads =
      match firstFailure? (reads.map s.seen) with
      | some kind => .error kind
      | none => .ok (scopeOf (reads.map s.seen)) := by
  have hnodes : ∀ (ks : List NodeId) (scope : Scope),
      gather (s.relink id c.reads reads).graph scope ks = gather s.graph scope ks := by
    intro ks
    induction ks with
    | nil => exact fun scope => rfl
    | cons k ks ih =>
      intro scope
      simp only [gather, h.node?_relink hc reads k, ih]
  exact (hnodes reads .empty).trans (h.gather_eq hreads .empty)

/-- The effect of a new result once the edges have been set. -/
theorem Coherent.effect_conclude (h : s.Coherent) (hc : s.calculator? id = some c)
    {reads : List NodeId} (s₁ : Sheet) (hgraph : s₁.graph = (s.relink id c.reads reads).graph)
    (hcalculators : s₁.calculators = (s.relink id c.reads reads).calculators)
    (hagenda : s₁.agenda = s.agenda) (print : String) (result : Result) :
    Effect s id { c with reads, result, published := none, cached := some (print, result) } true
      (s₁.conclude id print result) := by
  have hcalculator : ∀ k, s₁.calculator? k = (s.relink id c.reads reads).calculator? k := by
    intro k
    unfold calculator?
    rw [hcalculators]
  obtain ⟨hconcluded, hkeys, hshown, hannounced⟩ :=
    conclude_spec ((hcalculator id).trans (calculator?_relink_self hc reads)) print result
  refine h.effect_of_relink hc (fun k => ?_) ?_ (.inr ?_) (by simp) fun _ => ?_
  · rw [hconcluded k]
    by_cases hk : k = id
    · rw [if_pos hk, if_pos hk]
    · rw [if_neg hk, if_neg hk, hcalculator, calculator?_relink, if_neg hk]
  · rw [hkeys, hcalculators]
    exact calculatorKeys_relink s id _ _
  · rw [hshown, hgraph]
  · rw [hannounced, hshown]
    unfold announced
    rw [hagenda]

/-- The evaluation of a node once its edges have been set. -/
theorem Coherent.effect_reevaluate (h : s.Coherent) (hc : s.calculator? id = some c)
    {reads : List NodeId} (hreads : ∀ a ∈ reads, a ∈ s.graph.nodes.keys) (print : String) :
    (∃ result, conclusion env c.expression (reads.map s.seen) = .ok result ∧
      Effect s id { c with reads, result, published := none, cached := some (print, result) } true
        (reevaluate env (s.relink id c.reads reads) id { c with reads } print).1) ∨
    ∃ e, conclusion env c.expression (reads.map s.seen) = .error e ∧
      Effect s id { c with reads } false
        (reevaluate env (s.relink id c.reads reads) id { c with reads } print).1 := by
  unfold reevaluate conclusion
  simp only [h.gather_relink hc hreads]
  cases hfailure : firstFailure? (reads.map s.seen) with
  | some kind => exact .inl ⟨.failed kind, rfl, h.effect_conclude hc _ rfl rfl rfl print _⟩
  | none =>
    simp only
    cases hvalue : evaluate env c.expression (scopeOf (reads.map s.seen)) with
    | ok result =>
      exact .inl ⟨result, rfl, h.effect_conclude hc ((s.relink id c.reads reads).noteEvaluation
        c.expression (scopeOf (reads.map s.seen))) rfl rfl rfl print result⟩
    | error e =>
      refine .inr ⟨e, rfl, ?_⟩
      refine h.effect_of_relink hc (fun k => ?_) (calculatorKeys_relink s id c.reads reads)
        (.inl ⟨rfl, rfl⟩) (fun _ => rfl) (by simp)
      by_cases hk : k = id
      · subst hk
        rw [if_pos rfl]
        exact calculator?_relink_self hc reads
      · rw [if_neg hk]
        exact (calculator?_relink s id k c.reads reads).trans (if_neg hk)

/-- A node whose edges can be set is evaluated, unless it has kept a result with its present
fingerprint. -/
theorem Coherent.recalculate_cached (h : s.Coherent) (hc : s.calculator? id = some c)
    {reads : List NodeId} (hreads : ∀ a ∈ reads, a ∈ s.graph.nodes.keys)
    (hupdate : updateDependencies env s id = (s.relink id c.reads reads, none)) :
    (∀ result, c.cached = some (printOf c.expression (reads.map s.resultOf), result) →
      recalculate env s id =
        ((s.relink id c.reads reads).modify id fun c => { c with result }, .ok result)) ∧
    ((∀ kept, c.cached ≠ some (printOf c.expression (reads.map s.resultOf), kept)) →
      recalculate env s id = reevaluate env (s.relink id c.reads reads) id { c with reads }
        (printOf c.expression (reads.map s.resultOf))) := by
  -- The edges do not change the headers and results that the fingerprint is made of.
  have hprint : fingerprint (s.relink id c.reads reads).graph { c with reads } =
      printOf c.expression (reads.map s.resultOf) :=
    h.fingerprint_eq fun a ha => ⟨hreads a ha, h.node?_relink hc reads a⟩
  have hnode : (s.graph.node? id).isNone = false := by
    obtain ⟨record, hrecord, -⟩ := h.shown id c hc
    rw [hrecord]
    rfl
  rw [recalculate, hc]
  simp only [hnode, Bool.false_eq_true, if_false, hupdate, calculator?_relink_self hc reads,
    Option.getD_some, hprint]
  cases hcached : c.cached with
  | none => exact ⟨fun _ hkept => (by cases hkept), fun _ => rfl⟩
  | some entry =>
    refine ⟨fun result hkept => ?_, fun hnew => ?_⟩
    · obtain rfl := Option.some.inj hkept
      simp
    · have hlast : entry.1 ≠ printOf c.expression (reads.map s.resultOf) :=
        fun heq => hnew entry.2 (by rw [← heq])
      simp [hlast]

/-- The recalculation of a node whose edges can be set. -/
theorem Coherent.recalculate_resolved (h : s.Coherent) (hc : s.calculator? id = some c)
    {reads : List NodeId} (hreads : ∀ a ∈ reads, a ∈ s.graph.nodes.keys)
    (hupdate : updateDependencies env s id = (s.relink id c.reads reads, none)) :
    (∃ result, c.cached = some (printOf c.expression (reads.map s.resultOf), result) ∧
      Effect s id { c with reads, result } false (recalculate env s id).1) ∨
    ((∀ kept, c.cached ≠ some (printOf c.expression (reads.map s.resultOf), kept)) ∧
      ∃ result, conclusion env c.expression (reads.map s.seen) = .ok result ∧
        Effect s id
          { c with
            reads, result, published := none
            cached := some (printOf c.expression (reads.map s.resultOf), result) }
          true (recalculate env s id).1) ∨
    ∃ e, conclusion env c.expression (reads.map s.seen) = .error e ∧
      Effect s id { c with reads } false (recalculate env s id).1 := by
  obtain ⟨hkeep, hagain⟩ := h.recalculate_cached hc hreads hupdate
  set print := printOf c.expression (reads.map s.resultOf)
  set s₁ := s.relink id c.reads reads with hs₁
  by_cases hkept : ∃ result, c.cached = some (print, result)
  · obtain ⟨result, hcached⟩ := hkept
    refine .inl ⟨result, hcached, ?_⟩
    rw [hkeep result hcached]
    refine h.effect_of_relink hc (fun k => ?_) ?_ (.inl ⟨rfl, ?_⟩) (fun _ => rfl) (by simp)
    · rw [calculator?_modify, hs₁]
      by_cases hk : k = id
      · subst hk
        rw [if_pos rfl, if_pos rfl, calculator?_relink_self hc reads]
        rfl
      · rw [if_neg hk, if_neg hk, calculator?_relink, if_neg hk]
    · exact (calculatorKeys_modify _ id _).trans (calculatorKeys_relink s id _ _)
    · -- On a coherent sheet the result that is kept is the one that is shown.
      exact (h.cached id c print result hc hcached).symm
  · have hnew : ∀ kept, c.cached ≠ some (print, kept) := fun kept hcached => hkept ⟨kept, hcached⟩
    rw [hagain hnew]
    rcases h.effect_reevaluate hc hreads print with ⟨result, hresult, heffect⟩ | hraised
    · exact .inr (.inl ⟨hnew, result, hresult, heffect⟩)
    · exact .inr (.inr hraised)

/-- A node that refers to itself loses its edges. -/
theorem updateDependencies_of_none (hc : s.calculator? id = some c)
    (hreading : reading? env s id c = none) : updateDependencies env s id =
      ((s.relink id c.reads []).setResult id (.failed .selfReference), some .selfReference) := by
  rw [updateDependencies, hc]
  simp only [show resolve? s.graph id [] (env.references c.expression) = none from hreading]

/-- Any other node gets edges to what it refers to. -/
theorem updateDependencies_of_some (hc : s.calculator? id = some c) {reads : List NodeId}
    (hreading : reading? env s id c = some reads) : updateDependencies env s id =
      if (s.relink id c.reads reads).graph.reachesCycle id then
        ((s.relink id c.reads reads).setResult id (.failed .circularDependency),
          some .circularDependency)
      else (s.relink id c.reads reads, none) := by
  rw [updateDependencies, hc]
  simp only [show resolve? s.graph id [] (env.references c.expression) = some reads from hreading]

/-- The graph that is searched for a cycle has the edges that are left in the end. -/
theorem Effect.reads_relink {loud : Bool} (heffect : Effect s id c' loud s') (h : s.Coherent)
    (hc : s.calculator? id = some c) :
    s'.graph.Reads = (s.relink id c.reads c'.reads).graph.Reads := by
  funext a b
  exact propext ((heffect.edges a b).trans ((h.relink_graph hc c'.reads).2.2 a b).symm)

/-- What the recalculation of a node does to a coherent sheet. -/
theorem Coherent.recalculate_spec (h : s.Coherent) (hnames : (env.references c.expression).Nodup)
    (hc : s.calculator? id = some c) :
    ∃ c' loud, Effect s id c' loud (recalculate env s id).1 ∧
      Verdict env s (recalculate env s id).1 id c c' loud := by
  cases hreading : reading? env s id c with
  | none =>
    exact ⟨_, _, h.recalculate_unresolved hc (by simp) (by simp)
      (updateDependencies_of_none hc hreading),
      .unresolved [] .selfReference (.inl ⟨hreading, rfl, rfl⟩)⟩
  | some reads =>
    obtain ⟨-, hid, hregistered⟩ := h.mem_reading hnames hreading
    have hupdate := updateDependencies_of_some hc hreading
    -- Whether there is a cycle is asked once the edges are set, and nothing after that changes
    -- them.
    have hcycle : ∀ {c' loud}, c'.reads = reads → Effect s id c' loud (recalculate env s id).1 →
        ((recalculate env s id).1.graph.LeadsToCycle id ↔
          (s.relink id c.reads reads).graph.reachesCycle id = true) := by
      intro c' loud hreads heffect
      rw [Graph.reachesCycle_eq_true_iff, ← hreads]
      exact Graph.leadsToCycle_congr (heffect.reads_relink h hc) id
    by_cases hreaches : (s.relink id c.reads reads).graph.reachesCycle id = true
    · rw [if_pos hreaches] at hupdate
      have heffect := h.recalculate_unresolved hc hid hregistered hupdate
      exact ⟨_, _, heffect, .unresolved reads .circularDependency
        (.inr ⟨hreading, (hcycle rfl heffect).2 hreaches, rfl⟩)⟩
    · rw [if_neg hreaches] at hupdate
      rcases h.recalculate_resolved hc hregistered hupdate with
        ⟨result, hcached, heffect⟩ | ⟨hcached, result, hresult, heffect⟩ | ⟨e, hraised, heffect⟩
      · exact ⟨_, _, heffect, .kept reads result hreading
          (fun hleads => hreaches ((hcycle rfl heffect).1 hleads)) hcached⟩
      · exact ⟨_, _, heffect, .concluded reads result hreading
          (fun hleads => hreaches ((hcycle rfl heffect).1 hleads)) hcached hresult⟩
      · exact ⟨_, _, heffect, .raised reads e hreading
          (fun hleads => hreaches ((hcycle rfl heffect).1 hleads)) hraised⟩

end Sheet

end LiveSheet
