import LiveSheet.Proofs.Edges
import LiveSheet.Sheet.Recalculation

/-!
# What references mean

A name means the first registered node that has it as its header (`Graph.holder?`), so it depends on
nothing but the headings of the graph: the ids with their headers, in order of registration. The
nodes that an expression reads are the holders of its references, in order of first mention
(`Sheet.resolve?_eq`).

Each operation changes the meaning of the names that it has to do with and of no other name: the
header of a node that comes, that goes, or that gets another one.
-/

namespace LiveSheet

/-- A table without repeated keys finds each of its entries. -/
theorem Table.get?_eq_some_iff {κ α : Type} [DecidableEq κ] {t : Table κ α} (h : t.keys.Nodup)
    {k : κ} {v : α} : t.get? k = some v ↔ (k, v) ∈ t.entries := by
  obtain ⟨es⟩ := t
  change (es.map (·.1)).Nodup at h
  change es.lookup k = some v ↔ (k, v) ∈ es
  induction es with
  | nil => simp
  | cons e es ih =>
    obtain ⟨k', v'⟩ := e
    obtain ⟨hnew, hnodup⟩ := List.nodup_cons.1 h
    rw [Table.lookup_cons_eq_ite, List.mem_cons, Prod.mk.injEq]
    by_cases hk : k = k'
    · subst hk
      have hnot : (k, v) ∉ es := fun hmem => hnew (List.mem_map.2 ⟨(k, v), hmem, rfl⟩)
      simp [hnot, eq_comm]
    · simp [hk, ih hnodup]

namespace Graph

variable {γ : Type} {g : Graph γ} {a b id : NodeId} {name : String}

/-- The ids of the nodes with their headers, in order of registration. -/
def headings (g : Graph γ) : List (NodeId × Option String) :=
  g.nodes.entries.map fun (id, record) => (id, record.header)

/-- The node that a name refers to. -/
def holder? (g : Graph γ) (name : String) : Option NodeId :=
  (g.findByHeader (some name)).map (·.1)

/-- The header of a node, if it has one. -/
def headerOf (g : Graph γ) (id : NodeId) : Option String :=
  (g.node? id).bind (·.header)

/-- The first node in a list of headings that has a name as its header. -/
def holderIn? (headings : List (NodeId × Option String)) (name : String) : Option NodeId :=
  (headings.find? (·.2 = some name)).map (·.1)

/-- The holder of a header depends on the headings of the graph only. -/
theorem holder?_eq (g : Graph γ) (name : String) : g.holder? name = holderIn? g.headings name := by
  unfold holder? findByHeader holderIn? headings
  rw [List.find?_map, Option.map_map]
  rfl

/-- Without repeated ids, a heading is what it says. -/
theorem mem_headings (h : g.nodes.keys.Nodup) {header : Option String} :
    (a, header) ∈ g.headings ↔ a ∈ g.nodes.keys ∧ g.headerOf a = header := by
  unfold headings headerOf
  simp only [List.mem_map, Prod.mk.injEq, Prod.exists]
  constructor
  · rintro ⟨k, record, hmem, rfl, rfl⟩
    have hget : g.node? k = some record := (Table.get?_eq_some_iff h).2 hmem
    exact ⟨(isSome_node?_iff g k).1 (by simp [hget]), by simp [hget]⟩
  · rintro ⟨hkey, hheader⟩
    obtain ⟨record, hrecord⟩ := Option.isSome_iff_exists.1 ((isSome_node?_iff g a).2 hkey)
    exact ⟨a, record, (Table.get?_eq_some_iff h).1 hrecord, rfl, by simpa [hrecord] using hheader⟩

/-- The holder of a name is registered and has this header. -/
theorem headerOf_of_holder? (h : g.nodes.keys.Nodup) (hholder : g.holder? name = some a) :
    a ∈ g.nodes.keys ∧ g.headerOf a = some name := by
  rw [holder?_eq, holderIn?] at hholder
  obtain ⟨⟨k, header⟩, hfind, rfl⟩ := Option.map_eq_some_iff.1 hholder
  have hheader : header = some name := by simpa using List.find?_some hfind
  exact (mem_headings h).1 (hheader ▸ List.mem_of_find?_eq_some hfind)

/-- A node holds at most one name. -/
theorem holder?_injective (h : g.nodes.keys.Nodup) {name' : String}
    (hholder : g.holder? name = some a) (hholder' : g.holder? name' = some a) : name = name' := by
  have hheader := (headerOf_of_holder? h hholder).2
  rw [(headerOf_of_holder? h hholder').2] at hheader
  exact (Option.some.inj hheader).symm

/-! ### Headings after each operation -/

/-- Graphs with the same nodes have the same headings. -/
theorem headings_of_nodes_eq {g' : Graph γ} (h : g'.nodes = g.nodes) :
    g'.headings = g.headings := by
  unfold headings
  rw [h]

/-- A change of a result leaves the headings as they are. -/
theorem headings_update_result (g : Graph γ) (id : NodeId) (v : Value) :
    (g.update id [.result v]).headings = g.headings := by
  unfold headings update Table.modify
  rw [List.map_map]
  refine List.map_congr_left fun e _ => ?_
  by_cases h : e.1 = id
  · simp [h, NodeRecord.applyAll, NodeRecord.apply]
  · simp [h]

/-- A new header takes the place of the old one. -/
theorem headings_update_header (g : Graph γ) (id : NodeId) (header : Option String) :
    (g.update id [.header header]).headings =
      g.headings.map fun (a, old) => (a, if a = id then header else old) := by
  unfold headings update Table.modify
  rw [List.map_map, List.map_map]
  refine List.map_congr_left fun e _ => ?_
  by_cases h : e.1 = id
  · simp [h, NodeRecord.applyAll, NodeRecord.apply]
  · simp [h]

/-- A new node comes last. -/
theorem headings_register (g : Graph γ) (changes : List (Change γ)) (h : id ∉ g.nodes.keys) :
    (g.register id changes).headings =
      g.headings ++ [(id, (NodeRecord.applyAll ({} : NodeRecord γ) changes).header)] := by
  unfold headings register Table.insert
  simp only
  rw [Table.insertEntry_of_new _ h, List.map_append]
  rfl

/-- What is left when a node goes. -/
theorem headings_unregister (g : Graph γ) (id : NodeId) :
    (g.unregister id).headings = g.headings.filter (·.1 ≠ id) := by
  unfold headings unregister Table.erase
  rw [List.filter_map]
  rfl

/-! ### Holders after each operation -/

/-- A name that has a holder keeps it when a node comes. -/
theorem holder?_register (g : Graph γ) (changes : List (Change γ)) (h : id ∉ g.nodes.keys) :
    (g.register id changes).holder? name =
      (g.holder? name).or (if (NodeRecord.applyAll ({} : NodeRecord γ) changes).header = some name
        then some id else none) := by
  rw [holder?_eq, holder?_eq, headings_register g changes h]
  unfold holderIn?
  rw [List.find?_append]
  cases g.headings.find? (·.2 = some name) with
  | none =>
    by_cases hname : (NodeRecord.applyAll ({} : NodeRecord γ) changes).header = some name
    · simp [hname]
    · simp [hname]
  | some e => simp

/-- A name that another node holds keeps its holder when a node goes. -/
theorem holder?_unregister_of_ne (h : g.holder? name ≠ some id) :
    (g.unregister id).holder? name = g.holder? name := by
  rw [holder?_eq, holder?_eq, headings_unregister] at *
  unfold holderIn? at *
  generalize g.headings = headings at *
  induction headings with
  | nil => rfl
  | cons e es ih =>
    by_cases hname : e.2 = some name
    · have hid : e.1 ≠ id := fun hid => h (by simp [hname, hid])
      rw [List.filter_cons_of_pos (by simpa using hid),
        List.find?_cons_of_pos (by simpa using hname),
        List.find?_cons_of_pos (by simpa using hname)]
    · rw [List.find?_cons_of_neg (by simpa using hname)] at h ⊢
      by_cases hid : e.1 = id
      · rw [List.filter_cons_of_neg (by simpa using hid)]
        exact ih h
      · rw [List.filter_cons_of_pos (by simpa using hid),
          List.find?_cons_of_neg (by simpa using hname)]
        exact ih h

/-- A name that is neither the old nor the new header of a node keeps its holder. -/
theorem holder?_update_header (h : g.nodes.keys.Nodup) {header : Option String}
    (hold : g.headerOf id ≠ some name) (hnew : header ≠ some name) :
    (g.update id [.header header]).holder? name = g.holder? name := by
  have hid : ∀ e ∈ g.headings, e.1 = id → e.2 ≠ some name := by
    rintro ⟨a, old⟩ he rfl
    rw [((mem_headings h).1 he).2] at hold
    exact hold
  rw [holder?_eq, holder?_eq, headings_update_header]
  unfold holderIn?
  generalize g.headings = headings at hid
  induction headings with
  | nil => rfl
  | cons e es ih =>
    have ih := ih fun e he => hid e (List.mem_cons_of_mem _ he)
    rw [List.map_cons]
    -- The entry of the node holds the name neither before nor after.
    by_cases heq : e.1 = id
    · rw [List.find?_cons_of_neg (by simpa [heq] using hnew),
        List.find?_cons_of_neg (by simpa using hid e (List.mem_cons_self ..) heq)]
      exact ih
    · by_cases hname : e.2 = some name
      · rw [List.find?_cons_of_pos (by simpa [heq] using hname),
          List.find?_cons_of_pos (by simpa using hname)]
        rfl
      · rw [List.find?_cons_of_neg (by simpa [heq] using hname),
          List.find?_cons_of_neg (by simpa using hname)]
        exact ih

end Graph

/-! ### The nodes that references mean -/

namespace Sheet

variable {g : Graph NodeId} {id : NodeId}

/-- The nodes that are found are the holders of the headers, those already found apart. -/
theorem resolve?_append (h : g.nodes.keys.Nodup) {found : List NodeId} {names : List String}
    (hnames : names.Nodup) (hfound : ∀ a ∈ found, ∀ name ∈ names, g.holder? name ≠ some a) :
    resolve? g id found names =
      if id ∈ names.filterMap g.holder? then none
      else some (found ++ names.filterMap g.holder?) := by
  induction names generalizing found with
  | nil => simp [resolve?]
  | cons name names ih =>
    obtain ⟨hname, hnodup⟩ := List.nodup_cons.1 hnames
    rw [resolve?]
    cases hfind : g.findByHeader (some name) with
    | none =>
      have hholder : g.holder? name = none := by simp [Graph.holder?, hfind]
      simp only
      rw [ih hnodup fun a ha n hn => hfound a ha n (List.mem_cons_of_mem _ hn),
        List.filterMap_cons_none hholder]
    | some entry =>
      obtain ⟨target, record⟩ := entry
      have hholder : g.holder? name = some target := by simp [Graph.holder?, hfind]
      have htarget : target ∉ found := fun hmem => hfound target hmem name (by simp) hholder
      simp only
      rw [List.filterMap_cons_some hholder, if_neg htarget]
      by_cases hid : target = id
      · simp [hid]
      · -- No node holds two names, so what is found now is not found again.
        have hothers : ∀ a ∈ found ++ [target], ∀ n ∈ names, g.holder? n ≠ some a := by
          intro a ha n hn hheld
          rcases List.mem_append.1 ha with ha | ha
          · exact hfound a ha n (List.mem_cons_of_mem _ hn) hheld
          · obtain rfl := List.mem_singleton.1 ha
            exact hname (Graph.holder?_injective h hholder hheld ▸ hn)
        rw [if_neg hid, ih hnodup hothers, List.append_assoc]
        simp [Ne.symm hid]

/-- An expression reads the holders of its references in order, unless one of them is the node that
it belongs to. -/
theorem resolve?_eq (h : g.nodes.keys.Nodup) {names : List String} (hnames : names.Nodup) :
    resolve? g id [] names =
      if id ∈ names.filterMap g.holder? then none else some (names.filterMap g.holder?) := by
  have hnone : ∀ a ∈ ([] : List NodeId), ∀ n ∈ names, g.holder? n ≠ some a := by simp
  simpa using resolve?_append h hnames hnone

end Sheet

end LiveSheet
