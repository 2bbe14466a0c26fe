import LiveSheet.Proofs.Agreement
import LiveSheet.Proofs.Notation
import LiveSheet.Proofs.Upkeep

/-!
# Operations on a workspace

What the operations do to the sheet of a workspace: a change, followed by the recalculation of the
nodes that notice it (`Workspace.add_spec` and so on). None of them raises, if the environment is
lawful. After any operations the accounts of the sheet are kept, and no id has been given that is
still to come (`Workspace.Sound`).
-/

namespace LiveSheet

/-- What can be done to a workspace. -/
inductive Operation where
  | add (record : Record)
  | setExpression (id : NodeId) (expression : String)
  | edit (id : NodeId) (expression : String)
  | rename (id : NodeId) (header : Option String)
  | remove (id : NodeId)
  | clear
  | load (stored : Value) (replaces : Bool)
  | settle (steps : Nat)
  | wait (steps : Nat) (span : Int)

namespace Workspace

open Sheet (recalculateEach Accounted Keeps)

/-- The workspace after an operation, whether it succeeds or not. -/
def perform (setup : Setup) (w : Workspace) : Operation → Workspace
  | .add record => (w.add setup record).1
  | .setExpression id expression => (w.setExpression setup id expression).1
  | .edit id expression => (w.edit id expression).1
  | .rename id header => (w.rename setup id header).1
  | .remove id => (w.remove setup id).1
  | .clear => w.clear
  | .load stored replaces => (w.load setup stored replaces).1
  | .settle steps => w.settle setup steps
  | .wait steps span => w.wait setup steps span

/-- The workspace after some operations. -/
def performAll (setup : Setup) (w : Workspace) (operations : List Operation) : Workspace :=
  operations.foldl (perform setup) w

variable {setup : Setup} {w w' : Workspace} {id k : NodeId} {c : Calculator}

/-! ### Recalculating -/

/-- A recalculation of one node is the pass over it alone. -/
theorem recalculate_eq (henv : setup.environment.Answers) (h : w.sheet.Coherent) (id : NodeId) :
    ∃ result, w.recalculate setup id =
      (w.onSheet (recalculateEach setup.environment · [id]), .ok result) := by
  obtain ⟨result, hresult⟩ := h.recalculate_ok henv id
  refine ⟨result, ?_⟩
  rw [recalculate, show w.sheet.recalculate setup.environment id =
    ((w.sheet.recalculate setup.environment id).1, .ok result) from Prod.ext rfl hresult]
  rfl

/-- No recalculation of several nodes fails, and nodes that are not there make no difference. -/
theorem recalculateAll_eq (henv : setup.environment.Answers) (h : w.sheet.Coherent)
    (ids : List NodeId) : w.recalculateAll setup ids =
      (w.onSheet (recalculateEach setup.environment · ids), .ok ()) := by
  induction ids generalizing w with
  | nil => rfl
  | cons id ids ih =>
    rw [recalculateAll]
    split
    · next hnone =>
      rw [ih h]
      have hsame : recalculateEach setup.environment w.sheet (id :: ids) =
          recalculateEach setup.environment w.sheet ids := by
        unfold recalculateEach
        rw [List.foldl_cons, Sheet.recalculate_of_none (by simpa using hnone)]
      unfold onSheet
      simp only [hsame]
    · obtain ⟨result, hresult⟩ := recalculate_eq henv h id
      simp only [hresult]
      exact ih (h.recalculate henv.nodup id)

/-- The nodes found by a name are those whose expression mentions it. -/
theorem mem_mentioning (h : w.sheet.Coherent) {names : List String} {skip : Option NodeId} :
    k ∈ w.mentioning setup names skip ↔ ∃ c, w.sheet.calculator? k = some c ∧ some k ≠ skip ∧
      ∃ name ∈ setup.environment.references c.expression, name ∈ names := by
  unfold mentioning
  simp only [List.mem_map, List.mem_filter, decide_eq_true_eq, Bool.decide_and,
    Bool.and_eq_true, List.any_eq_true]
  constructor
  · rintro ⟨⟨id, c⟩, ⟨hmem, hskip, name, hname, hnames⟩, rfl⟩
    exact ⟨c, (Table.get?_eq_some_iff h.nodup_keys).2 hmem, hskip, name, hname, hnames⟩
  · rintro ⟨c, hc, hskip, name, hname, hnames⟩
    exact ⟨(k, c), ⟨(Table.get?_eq_some_iff h.nodup_keys).1 hc, hskip, name, hname, hnames⟩, rfl⟩

/-- Nodes are brought up to date, and with them all others that mention one of the headers. -/
theorem reresolve_eq (henv : setup.environment.Answers) (h : w.sheet.Coherent)
    (headers : List (Option String)) (skip : Option NodeId) (first : List NodeId) :
    ∃ todo, w.reresolve setup headers skip first =
        (w.onSheet (recalculateEach setup.environment · todo), .ok ()) ∧
      (∀ k ∈ first, k ∈ todo) ∧
      ∀ k c name, w.sheet.calculator? k = some c → some k ≠ skip →
        name ∈ setup.environment.references c.expression → some name ∈ headers → k ∈ todo := by
  unfold reresolve
  refine ⟨_, recalculateAll_eq henv h _, fun k hk => List.mem_append_left _ hk,
    fun k c name hc hskip hname hheader => ?_⟩
  by_cases hfirst : k ∈ first
  · exact List.mem_append_left _ hfirst
  refine List.mem_append_right _ (List.mem_filter.2 ⟨?_, by simpa using hfirst⟩)
  refine (mem_mentioning h).2 ⟨c, hc, hskip, name, hname, ?_⟩
  -- No expression mentions the empty name.
  have hnonempty : name ≠ "" := by
    rintro rfl
    exact henv.named c.expression hname
  refine List.mem_filterMap.2 ⟨some name, hheader, ?_⟩
  simp [Option.filter, hnonempty]

/-! ### Operations -/

/-- A node that exists has a calculator. -/
theorem calculatorOf_eq (hc : w.sheet.calculator? id = some c) : w.calculatorOf id = .ok c := by
  rw [calculatorOf, hc]

/-- A node that does not exist is unknown. -/
theorem calculatorOf_none (hc : w.sheet.calculator? id = none) :
    w.calculatorOf id = .error (.unknownNode id) := by
  rw [calculatorOf, hc]

/-- A new node is recalculated, and then the others that mention its header. -/
theorem add_spec (henv : setup.environment.Answers) (h : w.sheet.Coherent) (record : Record)
    (hnew : w.nextId ∉ w.sheet.graph.nodes.keys)
    (hregistered : ∀ k c, w.sheet.calculator? k = some c →
      ∀ a ∈ c.reads, a ∈ w.sheet.graph.nodes.keys) :
    ∃ todo, w.add setup record =
        (⟨recalculateEach setup.environment (w.sheet.withNode w.nextId
          (record.header.getD w.nextHeader) record.expression setup.delay) (w.nextId :: todo),
          w.created + 1⟩, .ok w.nextId) ∧
      ∀ k c, w.sheet.calculator? k = some c →
        record.header.getD w.nextHeader ∈ setup.environment.references c.expression →
          k ∈ todo := by
  set header := record.header.getD w.nextHeader with hheader
  set s := w.sheet.withNode w.nextId header record.expression setup.delay with hs
  have hcoherent : s.Coherent := h.withNode header record.expression setup.delay hnew hregistered
  have hcreate : w.create setup record = (⟨s, w.created + 1⟩, w.nextId) := rfl
  obtain ⟨result, hresult⟩ := recalculate_eq (w := ⟨s, w.created + 1⟩) henv hcoherent w.nextId
  set s₁ := recalculateEach setup.environment s [w.nextId] with hs₁
  have hfirst : onSheet ⟨s, w.created + 1⟩ (recalculateEach setup.environment · [w.nextId]) =
      ⟨s₁, w.created + 1⟩ := rfl
  rw [hfirst] at hresult
  obtain ⟨hcoherent₁, hrows⟩ : s₁.Coherent ∧ s₁.rows = s.rows :=
    hcoherent.rows_recalculateEach henv [w.nextId]
  have hself : s.calculator? w.nextId =
      some { expression := record.expression, delay := setup.delay } := by
    rw [hs, Sheet.calculator?_withNode, if_pos rfl]
  -- The recalculation of the new node has left its header.
  have hheaderOf : headerOf ⟨s₁, w.created + 1⟩ w.nextId = some header := by
    obtain ⟨-, -, -, hsame⟩ := hcoherent.of_rows_eq hcoherent₁ hrows hself
    refine Eq.trans hsame ?_
    unfold Graph.headerOf
    rw [hs, Sheet.node?_withNode, if_pos rfl]
    rfl
  obtain ⟨todo, hreresolve, -, hmention⟩ := reresolve_eq (w := ⟨s₁, w.created + 1⟩) henv
    hcoherent₁ [some header] (some w.nextId) []
  refine ⟨todo, ?_, fun k c hc hname => ?_⟩
  · rw [add, hcreate]
    simp only [hresult, hheaderOf, hreresolve]
    rfl
  · have hne : k ≠ w.nextId := fun heq => hnew (heq ▸ h.registered hc)
    have hc' : s.calculator? k = some c := by rw [hs, Sheet.calculator?_withNode, if_neg hne, hc]
    obtain ⟨c₁, hc₁, hexpression, -⟩ := hcoherent.of_rows_eq hcoherent₁ hrows hc'
    exact hmention k c₁ header hc₁ (by simpa using hne) (hexpression ▸ hname) (by simp)

/-- An expression that is set at once is recalculated at once. -/
theorem setExpression_spec (henv : setup.environment.Answers) (h : w.sheet.Coherent)
    (hc : w.sheet.calculator? id = some c) (expression : String) :
    ∃ result, w.setExpression setup id expression =
      (w.onSheet fun s => recalculateEach setup.environment (s.withExpression id expression) [id],
        .ok result) := by
  obtain ⟨result, hresult⟩ := recalculate_eq (w := w.onSheet (·.withExpression id expression)) henv
    (h.withExpression id expression) id
  refine ⟨result, ?_⟩
  rw [setExpression, calculatorOf_eq hc]
  exact hresult

/-- An edit succeeds and leaves the recalculation for later. -/
theorem edit_spec (hc : w.sheet.calculator? id = some c) (expression : String) :
    w.edit id expression = (w.onSheet (·.withEdit id expression), .ok ()) := by
  rw [edit, calculatorOf_eq hc]
  rfl

/-- After a node has got another header, those are recalculated that mention the old or the new
one. -/
theorem rename_spec (henv : setup.environment.Answers) (h : w.sheet.Coherent)
    (hc : w.sheet.calculator? id = some c) (header : Option String) :
    ∃ todo, w.rename setup id header =
        (w.onSheet fun s => recalculateEach setup.environment (s.withHeader id header) todo,
          .ok ()) ∧
      ∀ k c name, w.sheet.calculator? k = some c →
        name ∈ setup.environment.references c.expression →
          w.sheet.graph.headerOf id = some name ∨ header = some name → k ∈ todo := by
  obtain ⟨todo, hreresolve, -, hmention⟩ := reresolve_eq (w := w.onSheet (·.withHeader id header))
    henv (h.withHeader id header) [w.headerOf id, header] none []
  refine ⟨todo, ?_, fun k c name hk hname hheader => hmention k c name hk (by simp) hname ?_⟩
  · rw [rename, calculatorOf_eq hc]
    exact hreresolve
  · rcases hheader with hheader | hheader
    · exact List.mem_cons.2 (.inl hheader.symm)
    · exact List.mem_cons_of_mem _ (List.mem_singleton.2 hheader.symm)

/-- After a node is gone, those are recalculated that read it or mention its header. -/
theorem remove_spec (henv : setup.environment.Answers) (h : w.sheet.Coherent)
    (hc : w.sheet.calculator? id = some c) :
    ∃ todo, w.remove setup id =
        (w.onSheet fun s => recalculateEach setup.environment (s.without id) todo, .ok ()) ∧
      (∀ k ∈ w.sheet.graph.dependentsOf id, k ∈ todo) ∧
      ∀ k c name, w.sheet.calculator? k = some c → k ≠ id →
        name ∈ setup.environment.references c.expression →
          w.sheet.graph.headerOf id = some name → k ∈ todo := by
  obtain ⟨todo, hreresolve, hfirst, hmention⟩ := reresolve_eq (w := w.onSheet (·.without id)) henv
    (h.without id) [w.headerOf id] none (w.sheet.graph.dependentsOf id)
  refine ⟨todo, ?_, hfirst, fun k c name hk hne hname hheader =>
    hmention k c name ?_ (by simp) hname ?_⟩
  · rw [remove, calculatorOf_eq hc]
    exact hreresolve
  · exact (Sheet.calculator?_without w.sheet id k).trans ((if_neg hne).trans hk)
  · exact List.mem_singleton.2 hheader.symm

/-- The table of a workspace after the removal of a node. -/
theorem rows_remove (henv : setup.environment.Answers) (h : w.sheet.Coherent) (id : NodeId) :
    (w.perform setup (.remove id)).sheet.rows = w.sheet.rows.filter (·.id ≠ id) := by
  cases hc : w.sheet.calculator? id with
  | none =>
    rw [Workspace.perform, remove, calculatorOf_none hc]
    -- There is no row to be taken out.
    refine (List.filter_eq_self.2 fun row hrow => ?_).symm
    obtain ⟨k, c, hk, rfl⟩ := h.mem_rows.1 hrow
    refine decide_eq_true fun heq => ?_
    rw [show k = id from heq, hc] at hk
    cases hk
  | some c =>
    obtain ⟨todo, hremove, -⟩ := remove_spec henv h hc
    rw [Workspace.perform, hremove]
    exact ((h.without id).rows_recalculateEach henv todo).2.trans (h.rows_without id)

/-- What values that are no records leave as it is, and what records are created from. -/
theorem load_spec (henv : setup.environment.Answers) (stored : Value) (replaces : Bool)
    (hcoherent : ∀ records, Record.ofStored stored = .ok records →
      ((if replaces then w.clear else w).createAll setup records).1.sheet.Coherent) :
    (∃ e, Record.ofStored stored = .error e ∧
      w.load setup stored replaces = (w, .error (.records e))) ∨
    ∃ records, Record.ofStored stored = .ok records ∧
      w.load setup stored replaces =
        (((if replaces then w.clear else w).createAll setup records).1.onSheet
          (recalculateEach setup.environment ·
            ((if replaces then w.clear else w).createAll setup records).2),
          .ok ((if replaces then w.clear else w).createAll setup records).2) := by
  unfold load
  cases hstored : Record.ofStored stored with
  | error e => exact .inl ⟨e, rfl, rfl⟩
  | ok records =>
    refine .inr ⟨records, rfl, ?_⟩
    simp only [recalculateAll_eq henv (hcoherent records hstored)]
    rfl

/-! ### Soundness -/

/-- The id that the nodes get by their number. -/
def idAt (n : Nat) : NodeId :=
  "node-" ++ toString n

/-- The next id counts the nodes created so far. -/
theorem nextId_eq (w : Workspace) : w.nextId = idAt (w.created + 1) :=
  rfl

/-- Names that are numbered are different. -/
theorem numbered_injective (name : String) :
    Function.Injective fun n : Nat => name ++ toString n := by
  intro m n h
  have hdigits : Nat.toDigits 10 m = Nat.toDigits 10 n := by
    have := congrArg String.toList h
    simpa [String.toList_append, Nat.repr] using this
  have hvalue := congrArg (Nat.ofDigitChars 10 · 0) hdigits
  simpa [Nat.ofDigitChars_toDigits] using hvalue

/-- Ids with other numbers are other ids. -/
theorem idAt_injective : Function.Injective idAt :=
  numbered_injective "node-"

/-- What is true of a workspace after any operations, while the nodes `todo` are recalculated: the
accounts are kept, no node has read one that is not there, and the ids to come are new. -/
structure Sound (setup : Setup) (w : Workspace) (todo : List NodeId) : Prop where
  accounted : Accounted setup.environment w.sheet todo
  registered : ∀ k c, w.sheet.calculator? k = some c →
    ∀ a ∈ c.reads, a ∈ w.sheet.graph.nodes.keys
  fresh : ∀ n, w.created < n → idAt n ∉ w.sheet.graph.nodes.keys

/-- With nothing left to recalculate, the accounts say that nodes read nodes that are there. -/
theorem Sound.of_accounted (haccounted : Accounted setup.environment w.sheet [])
    (hfresh : ∀ n, w.created < n → idAt n ∉ w.sheet.graph.nodes.keys) : Sound setup w [] :=
  ⟨haccounted, fun k c hk => (haccounted.registered k c hk).resolve_left (by simp), hfresh⟩

/-- The empty workspace is sound. -/
theorem sound_empty (setup : Setup) : Sound setup empty [] :=
  .of_accounted (Sheet.accounted_empty setup.environment) fun _ _ hmem => by cases hmem

variable {todo todo' : List NodeId}

/-- A fresh id is not in use. -/
theorem Sound.nextId_new (h : Sound setup w todo) : w.nextId ∉ w.sheet.graph.nodes.keys :=
  h.fresh (w.created + 1) (Nat.lt_succ_self _)

/-- A new node is to be recalculated. -/
theorem Sound.create (h : Sound setup w todo) (record : Record) (htodo : ∀ k ∈ todo, k ∈ todo')
    (hid : w.nextId ∈ todo') : Sound setup (w.create setup record).1 todo' where
  accounted := h.accounted.withNode h.nextId_new h.registered htodo hid
  registered k c hk a ha := by
    rw [show (w.create setup record).1.sheet = w.sheet.withNode w.nextId _ _ _ from rfl] at hk ⊢
    rw [Sheet.calculator?_withNode] at hk
    rw [Sheet.keys_withNode _ _ _ h.nextId_new]
    split at hk
    · obtain rfl := Option.some.inj hk
      cases ha
    · exact List.mem_append_left _ (h.registered k c hk a ha)
  fresh n hn := by
    rw [show (w.create setup record).1.sheet = w.sheet.withNode w.nextId _ _ _ from rfl,
      Sheet.keys_withNode _ _ _ h.nextId_new, List.mem_append, List.mem_singleton, nextId_eq]
    have hlater : w.created + 1 < n := hn
    rintro (hmem | heq)
    · exact h.fresh n (by omega) hmem
    · have := idAt_injective heq
      omega

/-- So are several new nodes. -/
theorem Sound.createAll (h : Sound setup w todo) (records : List Record) :
    Sound setup (w.createAll setup records).1 (todo ++ (w.createAll setup records).2) := by
  induction records generalizing w todo with
  | nil =>
    rw [Workspace.createAll, List.append_nil]
    exact h
  | cons record records ih =>
    have hcreate : Sound setup (w.create setup record).1 (todo ++ [w.nextId]) :=
      h.create record (fun k hk => List.mem_append_left _ hk) (by simp)
    have hrest := ih hcreate
    rw [List.append_assoc] at hrest
    exact hrest

/-- Progress with several new nodes, if no other nodes are watched than those that are to be
recalculated. -/
theorem Sound.progress_createAll (henv : setup.environment.Answers) (h : Sound setup w todo)
    {past : List Sheet} {doubtful watched : NodeId → Prop}
    (hprogress : Sheet.Progress setup.environment past doubtful watched w.sheet todo)
    (hwatched : ∀ k, watched k → k ∈ w.sheet.graph.nodes.keys → k ∈ todo) (records : List Record) :
    Sheet.Progress setup.environment past doubtful watched (w.createAll setup records).1.sheet
      (todo ++ (w.createAll setup records).2) := by
  induction records generalizing w todo with
  | nil =>
    rw [Workspace.createAll, List.append_nil]
    exact hprogress
  | cons record records ih =>
    have hcreate : Sound setup (w.create setup record).1 (todo ++ [w.nextId]) :=
      h.create record (fun k hk => List.mem_append_left _ hk) (by simp)
    have hnode : Sheet.Progress setup.environment past doubtful watched
        (w.create setup record).1.sheet (todo ++ [w.nextId]) :=
      hprogress.withNode henv h.accounted.coherent h.nextId_new h.registered
        (fun k hk => List.mem_append_left _ hk) (by simp) fun k c hk hc _ =>
          List.mem_append_left _ (hwatched k hk (h.accounted.coherent.registered hc))
    have hrest := ih hcreate hnode fun k hk hmem => by
      rw [show (w.create setup record).1.sheet = w.sheet.withNode w.nextId _ _ _ from rfl,
        Sheet.keys_withNode _ _ _ h.nextId_new, List.mem_append] at hmem
      exact List.mem_append.2 (hmem.imp_left (hwatched k hk))
    rw [List.append_assoc] at hrest
    exact hrest

/-- Everything is sound when all is recalculated that is to be. -/
theorem Sound.recalculateEach (henv : setup.environment.Answers) {s : Sheet}
    (haccounted : Accounted setup.environment s todo)
    (hfresh : ∀ n, w.created < n → idAt n ∉ s.graph.nodes.keys) :
    Sound setup { w with sheet := recalculateEach setup.environment s todo } [] := by
  have haccounted' : Accounted setup.environment
      (Sheet.recalculateEach setup.environment s todo) [] :=
    (Sheet.lasts_accounted henv).recalculateEach (by rw [List.append_nil]; exact haccounted)
  obtain ⟨hcoherent, hrows⟩ := haccounted.coherent.rows_recalculateEach henv todo
  refine .of_accounted haccounted' fun n hn => ?_
  rw [Sheet.keys_of_rows_eq haccounted.coherent hcoherent hrows]
  exact hfresh n hn

/-- A sound workspace is sound without its nodes. -/
theorem Sound.clear (h : Sound setup w []) : Sound setup w.clear [] := by
  refine .of_accounted h.accounted.cleared fun n _ hmem => ?_
  rw [show w.clear.sheet = w.sheet.cleared from rfl, h.accounted.coherent.cleared_spec.1] at hmem
  cases hmem

/-- The worker keeps a workspace sound. -/
theorem Sound.work (h : Sound setup w []) {s' : Sheet}
    (haccounted : Accounted setup.environment s' []) (hrows : s'.rows = w.sheet.rows) :
    Sound setup { w with sheet := s' } [] := by
  refine .of_accounted haccounted fun n hn => ?_
  rw [Sheet.keys_of_rows_eq h.accounted.coherent haccounted.coherent hrows]
  exact h.fresh n hn

/-! ### Operations as changes -/

/-- What an operation does before any node is recalculated, and the nodes that are recalculated
then: all that have to do with the change. -/
inductive Prepares (setup : Setup) (w : Workspace) :
    Operation → Workspace → (todo : List NodeId) → Prop
  | add (record : Record) {todo : List NodeId}
    (hmention : ∀ k c, w.sheet.calculator? k = some c →
      record.header.getD w.nextHeader ∈ setup.environment.references c.expression → k ∈ todo) :
    Prepares setup w (.add record) (w.create setup record).1 (w.nextId :: todo)
  | setExpression {id : NodeId} {c : Calculator} (hc : w.sheet.calculator? id = some c)
    (expression : String) :
    Prepares setup w (.setExpression id expression) (w.onSheet (·.withExpression id expression))
      [id]
  | edit {id : NodeId} {c : Calculator} (hc : w.sheet.calculator? id = some c)
    (expression : String) :
    Prepares setup w (.edit id expression) (w.onSheet (·.withEdit id expression)) []
  | rename {id : NodeId} {c : Calculator} (hc : w.sheet.calculator? id = some c)
    (header : Option String) {todo : List NodeId}
    (hmention : ∀ k c name, w.sheet.calculator? k = some c →
      name ∈ setup.environment.references c.expression →
        w.sheet.graph.headerOf id = some name ∨ header = some name → k ∈ todo) :
    Prepares setup w (.rename id header) (w.onSheet (·.withHeader id header)) todo
  | remove {id : NodeId} {c : Calculator} (hc : w.sheet.calculator? id = some c)
    {todo : List NodeId} (hdependents : ∀ k ∈ w.sheet.graph.dependentsOf id, k ∈ todo)
    (hmention : ∀ k c name, w.sheet.calculator? k = some c → k ≠ id →
      name ∈ setup.environment.references c.expression →
        w.sheet.graph.headerOf id = some name → k ∈ todo) :
    Prepares setup w (.remove id) (w.onSheet (·.without id)) todo
  | clear : Prepares setup w .clear w.clear []
  | load {stored : Value} (replaces : Bool) {records : List Record}
    (hrecords : Record.ofStored stored = .ok records) :
    Prepares setup w (.load stored replaces)
      ((if replaces then w.clear else w).createAll setup records).1
      ((if replaces then w.clear else w).createAll setup records).2

/-- The nodes of a load are created in a sound workspace. -/
theorem Sound.createAll_start (h : Sound setup w []) (replaces : Bool) (records : List Record) :
    Sound setup ((if replaces then w.clear else w).createAll setup records).1
      ((if replaces then w.clear else w).createAll setup records).2 := by
  have hstart : Sound setup (if replaces then w.clear else w) [] := by
    split
    · exact h.clear
    · exact h
  exact hstart.createAll records

/-- Every operation comes to the recalculation of what it prepares, or to work that the worker could
have done, such as none at all. -/
theorem Sound.perform_cases (henv : setup.environment.Answers) (h : Sound setup w [])
    (operation : Operation) :
    (∃ w' todo, Prepares setup w operation w' todo ∧
      w.perform setup operation = w'.onSheet (Sheet.recalculateEach setup.environment · todo)) ∨
    ∃ s', w.perform setup operation = { w with sheet := s' } ∧
      ∀ P, Keeps setup.environment P → P w.sheet [] → P s' [] := by
  have hcoherent := h.accounted.coherent
  -- An operation on a node that is not there changes nothing, so what held before still holds.
  have hidle : ∀ {w'}, w' = w → ∃ s', w' = { w with sheet := s' } ∧
      ∀ P, Keeps setup.environment P → P w.sheet [] → P s' [] :=
    fun heq => ⟨w.sheet, heq, fun _ _ hP => hP⟩
  cases operation with
  | add record =>
    obtain ⟨todo, hadd, hmention⟩ := add_spec henv hcoherent record h.nextId_new h.registered
    exact .inl ⟨_, _, .add record hmention, congrArg Prod.fst hadd⟩
  | setExpression id expression =>
    cases hc : w.sheet.calculator? id with
    | none =>
      exact .inr (hidle (by
        rw [Workspace.perform, Workspace.setExpression, calculatorOf_none hc]))
    | some c =>
      obtain ⟨result, hset⟩ := setExpression_spec henv hcoherent hc expression
      exact .inl ⟨_, _, .setExpression hc expression, congrArg Prod.fst hset⟩
  | edit id expression =>
    cases hc : w.sheet.calculator? id with
    | none => exact .inr (hidle (by rw [Workspace.perform, Workspace.edit, calculatorOf_none hc]))
    | some c => exact .inl ⟨_, _, .edit hc expression, congrArg Prod.fst (edit_spec hc expression)⟩
  | rename id header =>
    cases hc : w.sheet.calculator? id with
    | none => exact .inr (hidle (by rw [Workspace.perform, Workspace.rename, calculatorOf_none hc]))
    | some c =>
      obtain ⟨todo, hrename, hmention⟩ := rename_spec henv hcoherent hc header
      exact .inl ⟨_, todo, .rename hc header hmention, congrArg Prod.fst hrename⟩
  | remove id =>
    cases hc : w.sheet.calculator? id with
    | none => exact .inr (hidle (by rw [Workspace.perform, Workspace.remove, calculatorOf_none hc]))
    | some c =>
      obtain ⟨todo, hremove, hdependents, hmention⟩ := remove_spec henv hcoherent hc
      exact .inl ⟨_, todo, .remove hc hdependents hmention, congrArg Prod.fst hremove⟩
  | clear => exact .inl ⟨_, _, .clear, rfl⟩
  | load stored replaces =>
    rcases load_spec henv stored replaces
        fun records _ => (h.createAll_start replaces records).accounted.coherent with
      ⟨e, -, hload⟩ | ⟨records, hrecords, hload⟩
    · exact .inr (hidle (congrArg Prod.fst hload))
    · exact .inl ⟨_, _, .load replaces hrecords, congrArg Prod.fst hload⟩
  | settle steps => exact .inr ⟨_, rfl, fun P hkeeps hP => hkeeps.settle hP steps⟩
  | wait steps span => exact .inr ⟨_, rfl, fun P hkeeps hP => hkeeps.wait hP steps span⟩

/-- The accounts are kept in what is prepared, and the ids to come are new to it. -/
theorem Prepares.accounted {operation : Operation} (hprepares : Prepares setup w operation w' todo)
    (h : Sound setup w []) : Accounted setup.environment w'.sheet todo ∧
      ∀ n, w'.created < n → idAt n ∉ w'.sheet.graph.nodes.keys := by
  have hcoherent := h.accounted.coherent
  cases hprepares with
  | @add record todo =>
    have hcreate : Sound setup (w.create setup record).1 (w.nextId :: todo) :=
      h.create record (by simp) (by simp)
    exact ⟨hcreate.accounted, hcreate.fresh⟩
  | setExpression hc expression =>
    exact ⟨h.accounted.setExpression (hcoherent.rescheduled_cancel (by simp)), h.fresh⟩
  | @edit id c hc expression =>
    -- An edit waits for its timer, and is the setting of an expression otherwise.
    rw [show (w.onSheet (·.withEdit id expression)).sheet = w.sheet.withEdit id expression from rfl,
      Sheet.withEdit_eq hc]
    exact ⟨h.accounted.setExpression (hcoherent.rescheduled_debounce id c.delay), h.fresh⟩
  | rename hc header =>
    refine ⟨h.accounted.withHeader _ header, fun n hn => ?_⟩
    exact (Sheet.keys_withHeader w.sheet _ header).symm ▸ h.fresh n hn
  | remove hc hdependents =>
    exact ⟨h.accounted.without (hcoherent.registered hc) fun k hk _ => hdependents k hk,
      fun n hn hmem => h.fresh n hn (Sheet.mem_keys_without.1 hmem).1⟩
  | clear => exact ⟨h.clear.accounted, h.clear.fresh⟩
  | load replaces hrecords =>
    have hcreate := h.createAll_start replaces
    exact ⟨(hcreate _).accounted, (hcreate _).fresh⟩

/-- Every operation keeps a workspace sound. -/
theorem Sound.perform (henv : setup.environment.Answers) (h : Sound setup w [])
    (operation : Operation) : Sound setup (w.perform setup operation) [] := by
  rcases h.perform_cases henv operation with ⟨w', todo, hprepares, hperform⟩ | ⟨s', hperform, hkept⟩
  · rw [hperform]
    obtain ⟨haccounted, hfresh⟩ := hprepares.accounted h
    exact Sound.recalculateEach henv haccounted hfresh
  -- Work keeps the rows, so all ids in use are still below the next one.
  · rw [hperform]
    exact h.work (hkept _ (Sheet.lasts_accounted henv).toKeeps h.accounted)
      (hkept _ (Sheet.lasts_rows henv _).toKeeps ⟨h.accounted.coherent, rfl⟩).2

/-- A workspace is sound after any operations. -/
theorem Sound.performAll (henv : setup.environment.Answers) (h : Sound setup w [])
    (operations : List Operation) : Sound setup (w.performAll setup operations) [] := by
  induction operations generalizing w with
  | nil => exact h
  | cons operation operations ih => exact ih (h.perform henv operation)

end Workspace

end LiveSheet
