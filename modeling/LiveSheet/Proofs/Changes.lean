import LiveSheet.Proofs.Runs

/-!
# What lasts in a workspace

Operations may fail: an evaluation raises, and what is left of an operation is not done. Whatever is
kept by every single change of the nodes and by every recalculation is kept by all operations,
whether they fail or not, and by what may happen at any time (`Workspace.Keeps.perform`,
`Workspace.Keeps.reachable`).

What an operation does to the nodes is done before any of them is recalculated, and recalculating
leaves the ids, the expressions and the headers as they are (`Sheet.sameNodes_recalculate`). And
whatever has failed, the parts of a sheet say the same of each other (`Reachable.coherent`).
-/

namespace LiveSheet

/-! ### Nodes that stay as they are -/

namespace Sheet

variable {env : Environment} {s s' s'' : Sheet}

/-- The ids of the nodes with their expressions, in order of creation. -/
def outline (s : Sheet) : List (NodeId × String) :=
  s.calculators.entries.map fun (id, c) => (id, c.expression)

/-- The same nodes are there, with the same expressions and headers. -/
structure SameNodes (s s' : Sheet) : Prop where
  outline : s'.outline = s.outline
  nodeKeys : s'.graph.nodes.keys = s.graph.nodes.keys
  headerOf : ∀ k, s'.graph.headerOf k = s.graph.headerOf k

/-- A sheet has the same nodes as itself. -/
theorem SameNodes.refl (s : Sheet) : SameNodes s s :=
  ⟨rfl, rfl, fun _ => rfl⟩

/-- Sheets with the same nodes as a third one have the same nodes. -/
theorem SameNodes.trans (h : SameNodes s s') (h' : SameNodes s' s'') : SameNodes s s'' :=
  ⟨h'.outline.trans h.outline, h'.nodeKeys.trans h.nodeKeys,
    fun k => (h'.headerOf k).trans (h.headerOf k)⟩

/-- The rows of a sheet can be read off its outline. -/
theorem rows_eq_outline (s : Sheet) :
    s.rows = s.outline.map fun (id, expression) => ⟨id, s.graph.headerOf id, expression⟩ := by
  rw [rows, outline, List.map_map]
  rfl

/-- Sheets with the same nodes have the same rows. -/
theorem SameNodes.rows_eq (h : SameNodes s s') : s'.rows = s.rows := by
  rw [rows_eq_outline, rows_eq_outline, h.outline]
  simp only [h.headerOf]

/-- What does not touch calculators and records leaves the nodes as they are. -/
theorem SameNodes.of_eq (hcalculators : s'.calculators = s.calculators)
    (hnodes : s'.graph.nodes = s.graph.nodes) : SameNodes s s' := by
  refine ⟨by rw [Sheet.outline, hcalculators, Sheet.outline], by rw [hnodes], fun k => ?_⟩
  rw [Graph.headerOf, Graph.headerOf, Graph.node?, Graph.node?, hnodes]

/-- A change of a calculator that keeps the expression keeps the nodes. -/
theorem sameNodes_modify (s : Sheet) (id : NodeId) {f : Calculator → Calculator}
    (hf : ∀ c, (f c).expression = c.expression) : SameNodes s (s.modify id f) := by
  refine ⟨?_, rfl, fun _ => rfl⟩
  rw [outline, outline, modify, Table.modify, List.map_map]
  refine List.map_congr_left fun e _ => ?_
  by_cases h : e.1 = id <;> simp [h, hf]

/-- A change of edges keeps the nodes. -/
theorem sameNodes_relink (s : Sheet) (id : NodeId) (before now : List NodeId) :
    SameNodes s (s.relink id before now) := by
  have hmodify : SameNodes s (s.modify id fun c => { c with reads := now }) :=
    sameNodes_modify s id fun _ => rfl
  refine hmodify.trans (.of_eq rfl ?_)
  exact (Graph.nodes_linkAll _ id now).trans (Graph.nodes_removeAll _ id before)

/-- A new result keeps the nodes. -/
theorem sameNodes_setResult (s : Sheet) (id : NodeId) (result : Result) :
    SameNodes s (s.setResult id result) := by
  have hmodify : SameNodes s (s.modify id fun c => { c with result }) :=
    sameNodes_modify s id fun _ => rfl
  refine ⟨hmodify.outline, Graph.keys_update .., fun k => ?_⟩
  rw [Graph.headerOf, setResult, Graph.node?_update]
  split
  · rw [Graph.headerOf]
    cases s.graph.node? k <;> rfl
  · rfl

/-- A conclusion keeps the nodes. -/
theorem sameNodes_conclude (s : Sheet) (id : NodeId) (print : String) (result : Result) :
    SameNodes s (s.conclude id print result) := by
  have hmodify : SameNodes s (s.modify id fun c =>
      { c with cached := some (print, result), published := none }) :=
    sameNodes_modify s id fun _ => rfl
  exact (hmodify.trans (sameNodes_setResult _ id result)).trans (.of_eq rfl rfl)

/-- So does an error that is concluded without its value. -/
theorem sameNodes_concludeUnresolved (s : Sheet) (id : NodeId) (c : Calculator) (print : String)
    (kind : ErrorKind) : SameNodes s (s.concludeUnresolved id c print kind) := by
  unfold concludeUnresolved
  split
  · exact sameNodes_modify s id fun _ => rfl
  · have hmodify : SameNodes s (s.modify id fun c =>
        { c with cached := none, published := some (print, kind) }) :=
      sameNodes_modify s id fun _ => rfl
    exact hmodify.trans (.of_eq rfl rfl)

/-- Reading an expression again keeps the nodes. -/
theorem sameNodes_updateDependencies (env : Environment) (s : Sheet) (id : NodeId) :
    SameNodes s (updateDependencies env s id).1 := by
  unfold updateDependencies
  split
  · exact .refl s
  · split
    · exact (sameNodes_relink ..).trans (sameNodes_setResult ..)
    · simp only
      split
      · exact (sameNodes_relink ..).trans (sameNodes_setResult ..)
      · exact sameNodes_relink ..

/-- An evaluation keeps the nodes. -/
theorem sameNodes_reevaluate (env : Environment) (s : Sheet) (id : NodeId) (c : Calculator)
    (print : String) : SameNodes s (reevaluate env s id c print).1 := by
  unfold reevaluate
  split
  · exact sameNodes_conclude ..
  · next scope _ =>
    have hnote : SameNodes s (s.noteEvaluation c.expression scope) := .of_eq rfl rfl
    simp only
    split
    · exact hnote.trans (sameNodes_conclude ..)
    · exact hnote

/-- Bringing a node up to date leaves all nodes with the expressions and headers they have. -/
theorem sameNodes_recalculate (env : Environment) (s : Sheet) (id : NodeId) :
    SameNodes s (Sheet.recalculate env s id).1 := by
  unfold Sheet.recalculate
  split
  · exact .refl s
  · split
    · exact .refl s
    · have hupdate := sameNodes_updateDependencies env s id
      generalize updateDependencies env s id = updated at hupdate ⊢
      obtain ⟨s', unresolved⟩ := updated
      refine hupdate.trans ?_
      cases unresolved with
      | some kind => exact sameNodes_concludeUnresolved ..
      | none =>
        simp only
        split
        · next last result _ =>
          split
          · exact sameNodes_modify s' id (f := fun c => { c with result }) fun _ => rfl
          · exact sameNodes_reevaluate ..
        · exact sameNodes_reevaluate ..

/-- A pending edit changes nothing about the nodes. -/
theorem sameNodes_debounce (s : Sheet) (id : NodeId) : SameNodes s (s.debounce id) := by
  unfold debounce
  split
  · exact .of_eq rfl rfl
  · exact .refl s

/-- What the worker does leaves the nodes as they are too, and what may happen at any time. -/
theorem lasts_sameNodes (env : Environment) (s₀ : Sheet) : Lasts env fun s _ => SameNodes s₀ s where
  recalculate h := h.trans (sameNodes_recalculate ..)
  pop h _ := h.trans (.of_eq rfl rfl)
  advance h _ := h.trans (.of_eq rfl rfl)
  pause _ h := h.trans (.of_eq rfl rfl)
  varies h hvaries := by
    cases hvaries with
    | reordered hreordered => exact h.trans (.of_eq hreordered.calculators hreordered.graph.nodes)
    | later | fires => exact h.trans (.of_eq rfl rfl)

end Sheet

namespace Workspace

variable {setup : Setup} {w w' w'' : Workspace}

/-- Nothing has changed but what is computed. -/
structure SameNodes (w w' : Workspace) : Prop where
  created : w'.created = w.created
  sheet : w.sheet.SameNodes w'.sheet

/-- Workspaces with the same nodes as a third one have the same nodes. -/
theorem SameNodes.trans (h : SameNodes w w') (h' : SameNodes w' w'') : SameNodes w w'' :=
  ⟨h'.created.trans h.created, h.sheet.trans h'.sheet⟩

/-- A workspace has the same nodes as itself. -/
theorem SameNodes.refl (w : Workspace) : SameNodes w w :=
  ⟨rfl, .refl _⟩

/-- Workspaces with the same nodes have the same identifiers. -/
theorem SameNodes.ids_eq (h : SameNodes w w') : w'.ids = w.ids := by
  rw [ids, ids, ← Sheet.ids_rows, ← Sheet.ids_rows, h.sheet.rows_eq]

/-- A recalculation keeps the nodes of the workspace. -/
theorem sameNodes_recalculate (setup : Setup) (w : Workspace) (id : NodeId) :
    SameNodes w (w.recalculate setup id).1 :=
  ⟨rfl, Sheet.sameNodes_recalculate ..⟩

/-- So do several ones. -/
theorem sameNodes_recalculateAll (setup : Setup) (w : Workspace) (ids : List NodeId) :
    SameNodes w (w.recalculateAll setup ids).1 := by
  induction ids generalizing w with
  | nil => exact .refl w
  | cons id ids ih =>
    have hfirst := sameNodes_recalculate setup w id
    unfold recalculateAll
    split
    · exact ih w
    · split
      · next w' _ hw' =>
        rw [hw'] at hfirst
        exact hfirst.trans (ih w')
      · next w' _ hw' =>
        rw [hw'] at hfirst
        exact hfirst

/-! ### What operations keep -/

/-- What is kept by every change of the nodes, by every recalculation and by the worker. -/
structure Keeps (setup : Setup) (P : Workspace → Prop) : Prop where
  recalculate {w : Workspace} : P w → ∀ id, P (w.recalculate setup id).1
  work {w : Workspace} {s : Sheet} : P w →
    (∀ Q, Sheet.Lasts setup.environment Q → Q w.sheet [] → Q s []) → P { w with sheet := s }
  create {w : Workspace} : P w → ∀ record, P (w.create setup record).1
  clear {w : Workspace} : P w → P w.clear
  withExpression {w : Workspace} :
    P w → ∀ id expression, P (w.onSheet (·.withExpression id expression))
  withEdit {w : Workspace} {id : NodeId} {c : Calculator} : P w → w.sheet.calculator? id = some c →
    ∀ expression, P (w.onSheet (·.withEdit id expression))
  withHeader {w : Workspace} : P w → ∀ id header, P (w.onSheet (·.withHeader id header))
  without {w : Workspace} : P w → ∀ id, P (w.onSheet (·.without id))

variable {P : Workspace → Prop}

/-- What is kept by a recalculation is kept by several ones. -/
theorem Keeps.recalculateAll (hkeeps : Keeps setup P) (h : P w) (ids : List NodeId) :
    P (w.recalculateAll setup ids).1 := by
  induction ids generalizing w with
  | nil => exact h
  | cons id ids ih =>
    have hfirst := hkeeps.recalculate h id
    unfold Workspace.recalculateAll
    split
    · exact ih h
    · split
      · next hw' =>
        rw [hw'] at hfirst
        exact ih hfirst
      · next hw' =>
        rw [hw'] at hfirst
        exact hfirst

/-- And it is kept when the nodes that mention some headers are resolved again. -/
theorem Keeps.reresolve (hkeeps : Keeps setup P) (h : P w) (headers : List (Option String))
    (skip : Option NodeId) (first : List NodeId) : P (w.reresolve setup headers skip first).1 :=
  hkeeps.recalculateAll h _

/-- What is kept by one creation is kept by several ones. -/
theorem Keeps.createAll (hkeeps : Keeps setup P) (h : P w) (records : List Record) :
    P (w.createAll setup records).1 := by
  induction records generalizing w with
  | nil => exact h
  | cons record records ih => exact ih (hkeeps.create h record)

/-- What is kept by each part of loading records is kept by the whole. -/
theorem Keeps.load (hkeeps : Keeps setup P) (h : P w) (stored : Value) (replaces : Bool) :
    P (w.load setup stored replaces).1 := by
  unfold Workspace.load
  split
  · exact h
  · next records _ =>
    have hstart : P (if replaces then w.clear else w) := by
      split
      · exact hkeeps.clear h
      · exact h
    exact hkeeps.recalculateAll (hkeeps.createAll hstart records) _

/-- The same for adding a node. -/
theorem Keeps.add (hkeeps : Keeps setup P) (h : P w) (record : Record) :
    P (w.add setup record).1 := by
  have hfirst := hkeeps.recalculate (hkeeps.create h record) (w.create setup record).2
  unfold Workspace.add
  simp only
  split
  · next hw' =>
    rw [hw'] at hfirst
    exact hfirst
  · next hw' =>
    rw [hw'] at hfirst
    exact hkeeps.reresolve hfirst _ _ _

/-- The same for setting an expression. -/
theorem Keeps.setExpression (hkeeps : Keeps setup P) (h : P w) (id : NodeId)
    (expression : String) : P (w.setExpression setup id expression).1 := by
  unfold Workspace.setExpression
  split
  · exact h
  · exact hkeeps.recalculate (hkeeps.withExpression h id expression) id

/-- The same for an edit. -/
theorem Keeps.edit (hkeeps : Keeps setup P) (h : P w) (id : NodeId) (expression : String) :
    P (w.edit id expression).1 := by
  cases hc : w.sheet.calculator? id with
  | none =>
    rw [Workspace.edit, calculatorOf_none hc]
    exact h
  | some c =>
    rw [edit_spec hc]
    exact hkeeps.withEdit h hc expression

/-- The same for renaming a node. -/
theorem Keeps.rename (hkeeps : Keeps setup P) (h : P w) (id : NodeId) (header : Option String) :
    P (w.rename setup id header).1 := by
  unfold Workspace.rename
  split
  · exact h
  · exact hkeeps.reresolve (hkeeps.withHeader h id header) _ _ _

/-- The same for removing a node. -/
theorem Keeps.remove (hkeeps : Keeps setup P) (h : P w) (id : NodeId) :
    P (w.remove setup id).1 := by
  unfold Workspace.remove
  split
  · exact h
  · exact hkeeps.reresolve (hkeeps.without h id) _ _ _

/-- Every operation keeps it, also one that fails. -/
theorem Keeps.perform (hkeeps : Keeps setup P) (h : P w) (operation : Operation) :
    P (w.perform setup operation) := by
  cases operation with
  | add record => exact hkeeps.add h record
  | setExpression id expression => exact hkeeps.setExpression h id expression
  | edit id expression => exact hkeeps.edit h id expression
  | rename id header => exact hkeeps.rename h id header
  | remove id => exact hkeeps.remove h id
  | clear => exact hkeeps.clear h
  | load stored replaces => exact hkeeps.load h stored replaces
  | settle steps => exact hkeeps.work h fun Q hlasts hQ => hlasts.settle hQ steps
  | wait steps span => exact hkeeps.work h fun Q hlasts hQ => hlasts.wait hQ steps span

/-- What is kept by every change of the nodes, and does not depend on what is computed. -/
theorem Keeps.of_sameNodes (hsame : ∀ {w w'}, P w → SameNodes w w' → P w')
    (hcreate : ∀ {w}, P w → ∀ record, P (w.create setup record).1) (hclear : ∀ {w}, P w → P w.clear)
    (hset : ∀ {w}, P w → ∀ id expression, P (w.onSheet (·.setExpression id expression)))
    (hheader : ∀ {w}, P w → ∀ id header, P (w.onSheet (·.withHeader id header)))
    (hwithout : ∀ {w}, P w → ∀ id, P (w.onSheet (·.without id))) : Keeps setup P where
  recalculate h id := hsame h (sameNodes_recalculate setup _ id)
  work h hwork := hsame h ⟨rfl, hwork _ (Sheet.lasts_sameNodes _ _) (.refl _)⟩
  create := hcreate
  clear := hclear
  -- What is put on the agenda or taken off it is no part of the nodes.
  withExpression h id expression := hsame (hset h id expression) ⟨rfl, .of_eq rfl rfl⟩
  withEdit h _ expression := hsame (hset h _ expression) ⟨rfl, Sheet.sameNodes_debounce ..⟩
  withHeader := hheader
  without := hwithout

/-! ### What happens to a workspace -/

/-- The workspaces that come about by operations, with anything in between that may happen at any
time. What happens during an operation may as well happen after it (`Sheet.Shuffles.reordered`). -/
inductive Reachable (setup : Setup) : Workspace → Prop
  | empty : Reachable setup empty
  | perform {w : Workspace} (h : Reachable setup w) (operation : Operation) :
      Reachable setup (w.perform setup operation)
  | varies {w : Workspace} {s : Sheet} (h : Reachable setup w) (hs : w.sheet.Varies s) :
      Reachable setup { w with sheet := s }

/-- The operations alone reach a workspace, with nothing in between. -/
theorem Reachable.performAll (setup : Setup) (operations : List Operation) :
    Reachable setup (Workspace.empty.performAll setup operations) := by
  have hfrom : ∀ {w}, Reachable setup w → Reachable setup (w.performAll setup operations) := by
    induction operations with
    | nil => exact id
    | cons operation operations ih => exact fun h => ih (h.perform operation)
  exact hfrom .empty

/-- What every change keeps is kept by a variation. -/
theorem Keeps.varies (hkeeps : Keeps setup P) (h : P w) {s : Sheet} (hs : w.sheet.Varies s) :
    P { w with sheet := s } :=
  hkeeps.work h fun _ hlasts hQ => hlasts.varies hQ hs

/-- What is kept is true of every workspace, if it is true at first. -/
theorem Keeps.reachable (hkeeps : Keeps setup P) (hempty : P Workspace.empty)
    (h : Reachable setup w) : P w := by
  induction h with
  | empty => exact hempty
  | perform _ operation ih => exact hkeeps.perform ih operation
  | varies _ hs ih => exact hkeeps.varies ih hs

/-- One thing that happens to a workspace: an operation, or what may happen at any time. -/
inductive Next (setup : Setup) : Workspace → Workspace → Prop
  | perform (w : Workspace) (operation : Operation) : Next setup w (w.perform setup operation)
  | varies {w : Workspace} {s : Sheet} (hs : w.sheet.Varies s) : Next setup w { w with sheet := s }

/-- And it is kept by whatever happens next. -/
theorem Keeps.next (hkeeps : Keeps setup P) (h : P w) (hnext : Next setup w w') : P w' := by
  cases hnext with
  | perform operation => exact hkeeps.perform h operation
  | varies hs => exact hkeeps.varies h hs

/-- What happens next in a reachable workspace leads to a reachable one. -/
theorem Reachable.next (h : Reachable setup w) (hnext : Next setup w w') : Reachable setup w' := by
  cases hnext with
  | perform operation => exact h.perform operation
  | varies hs => exact h.varies hs

/-- Workspaces are sound if every evaluation comes to a result. -/
theorem Reachable.sound (henv : setup.environment.Answers) (h : Reachable setup w) :
    Sound setup w [] := by
  induction h with
  | empty => exact sound_empty setup
  | perform _ operation ih => exact ih.perform henv operation
  | varies _ hs ih =>
    refine .of_accounted ((Sheet.lasts_accounted henv).varies ih.accounted hs) fun n hn => ?_
    rw [(hs.resembles ih.accounted.coherent).nodes]
    exact ih.fresh n hn

/-! ### Coherent workspaces -/

/-- Whether a sheet is coherent, and all ids in it have numbers up to `n`. A node may have read
another one that is not there any more, if it was not recalculated because something else failed. -/
structure Numbered (n : Nat) (s : Sheet) : Prop where
  coherent : s.Coherent
  keys : ∀ k ∈ s.graph.nodes.keys, ∃ m ≤ n, k = idAt m
  reads : ∀ k c, s.calculator? k = some c → ∀ a ∈ c.reads, ∃ m ≤ n, a = idAt m

/-- A recalculation makes no new nodes. -/
theorem Numbered.recalculate {env : Environment} {n : Nat} {s : Sheet} (h : Numbered n s)
    (hnames : ∀ e, (env.references e).Nodup) (id : NodeId) :
    Numbered n (s.recalculate env id).1 := by
  cases hc : s.calculator? id with
  | none =>
    rw [Sheet.recalculate_of_none hc]
    exact h
  | some c =>
    have hcoherent := h.coherent.recalculate hnames id
    obtain ⟨c', loud, heffect, hverdict⟩ := h.coherent.recalculate_spec (hnames c.expression) hc
    refine ⟨hcoherent, fun k hk => h.keys k (heffect.nodeKeys ▸ hk), fun k ck hk a ha => ?_⟩
    by_cases hne : k = id
    · subst hne
      obtain rfl := heffect.eq_of_calculator hk
      rw [hverdict.spec.2.2] at ha
      exact h.keys a ((h.coherent.mem_getD_reading (hnames c.expression)).2 a ha)
    · rw [heffect.calculator_other hne] at hk
      exact h.reads k ck hk a ha

/-- So the numbers last, whatever the worker does. -/
theorem lasts_numbered {env : Environment} (hnames : ∀ e, (env.references e).Nodup) (n : Nat) :
    Sheet.Lasts env fun s _ => Numbered n s :=
  .of_resembles (·.coherent) (·.recalculate hnames _) fun h hsame hcoherent =>
    ⟨hcoherent, fun k hk => h.keys k (hsame.nodes ▸ hk),
      fun k c hk => h.reads k c (hsame.calculator? k ▸ hk)⟩

/-- A new node has a new number. -/
theorem Numbered.create (h : Numbered w.created w.sheet) (record : Record) :
    Numbered (w.create setup record).1.created (w.create setup record).1.sheet := by
  have hnew : ¬ ∃ m ≤ w.created, w.nextId = idAt m := by
    rintro ⟨m, hm, heq⟩
    have := idAt_injective ((nextId_eq w).symm.trans heq)
    omega
  have hkey : w.nextId ∉ w.sheet.graph.nodes.keys := fun hmem => hnew (h.keys _ hmem)
  have hread : ∀ k c, w.sheet.calculator? k = some c → w.nextId ∉ c.reads :=
    fun k c hk hmem => hnew (h.reads k c hk _ hmem)
  have hlater : ∀ {k}, (∃ m ≤ w.created, k = idAt m) → ∃ m ≤ w.created + 1, k = idAt m :=
    fun ⟨m, hm, heq⟩ => ⟨m, Nat.le_succ_of_le hm, heq⟩
  rw [show (w.create setup record).1.sheet = w.sheet.withNode w.nextId
    (record.header.getD w.nextHeader) record.expression setup.delay from rfl]
  refine ⟨h.coherent.withNode_of_not_read _ _ _ hkey hread, fun k hk => ?_, fun k c hk a ha => ?_⟩
  · rw [Sheet.keys_withNode _ _ _ hkey] at hk
    rcases List.mem_append.1 hk with hk | hk
    · exact hlater (h.keys k hk)
    · exact ⟨w.created + 1, le_rfl, List.mem_singleton.1 hk⟩
  · rw [Sheet.calculator?_withNode] at hk
    split at hk
    · obtain rfl := Option.some.inj hk
      cases ha
    · exact hlater (h.reads k c hk a ha)

/-- Another expression changes nothing that has a number. -/
theorem Numbered.of_setExpression {n : Nat} {s s' : Sheet} (h : Numbered n s) (id : NodeId)
    (expression : String) (hcoherent : s'.Coherent)
    (hkeys : s'.graph.nodes.keys = s.graph.nodes.keys)
    (hcalculator : ∀ k, s'.calculator? k = (s.setExpression id expression).calculator? k) :
    Numbered n s' := by
  refine ⟨hcoherent, fun k hk => h.keys k (hkeys ▸ hk), fun k c hk a ha => ?_⟩
  rw [hcalculator, Sheet.calculator?_setExpression] at hk
  split at hk
  · obtain ⟨c₀, hc₀, rfl⟩ := Option.map_eq_some_iff.1 hk
    exact h.reads k c₀ hc₀ a ha
  · exact h.reads k c hk a ha

/-- All changes of a workspace keep its nodes numbered by their creation. -/
theorem keeps_numbered (hnames : ∀ e, (setup.environment.references e).Nodup) :
    Keeps setup fun w => Numbered w.created w.sheet where
  recalculate h id := h.recalculate hnames id
  work h hwork := hwork _ (lasts_numbered hnames _) h
  create h record := h.create record
  clear {w} h := by
    refine ⟨h.coherent.cleared, fun k hk => ?_, fun _ _ hk => by cases hk⟩
    rw [show w.clear.sheet = w.sheet.cleared from rfl, h.coherent.cleared_spec.1] at hk
    cases hk
  withExpression h id expression :=
    h.of_setExpression id expression (h.coherent.withExpression id expression) rfl fun _ => rfl
  withEdit {w id c} h hc expression := by
    refine h.of_setExpression id expression (h.coherent.withEdit hc expression) ?_ fun k => ?_
    · exact congrArg (·.graph.nodes.keys) (Sheet.withEdit_eq hc expression)
    · exact congrArg (·.calculator? k) (Sheet.withEdit_eq hc expression)
  withHeader h id header :=
    ⟨h.coherent.withHeader id header, fun k hk => h.keys k (Sheet.keys_withHeader .. ▸ hk), h.reads⟩
  without h id := by
    refine ⟨h.coherent.without id, fun k hk => h.keys k (Sheet.mem_keys_without.1 hk).1,
      fun k c hk => h.reads k c ?_⟩
    rw [onSheet, Sheet.calculator?_without] at hk
    split at hk
    · cases hk
    · exact hk

/-- Whatever has been done to a workspace and whatever has failed, its sheet is coherent. -/
theorem Reachable.coherent (hnames : ∀ e, (setup.environment.references e).Nodup)
    (h : Reachable setup w) : w.sheet.Coherent :=
  ((keeps_numbered hnames).reachable (P := fun w => Numbered w.created w.sheet)
    ⟨Sheet.coherent_empty, nofun, nofun⟩ h).coherent

end Workspace

end LiveSheet
