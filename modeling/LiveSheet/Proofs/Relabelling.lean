import LiveSheet.Proofs.Agreement

/-!
# Other ids

Ids are never shown, so it cannot matter which ids the nodes have. If two sheets have the same
headers and expressions in the same order, the table of one is that of the other with other ids
(`Row.relabel`); what refers to what, what depends on what and what leads to a cycle is then the
same but for the ids, and so is what each node comes to that is up to date in both sheets, together
with all that it depends on (`Sheet.Coherent.resultOf_relabel`). Nothing is assumed here of the
evaluator but that it answers, since both sheets hand it the same scopes.
-/

namespace LiveSheet

open Relation

/-- The row of a node that has another id. -/
def Row.relabel (f : NodeId → NodeId) (row : Row) : Row :=
  { row with id := f row.id }

namespace Rows

variable {env : Environment} {rows : List Row} {f g : NodeId → NodeId} {row : Row} {a b : NodeId}

/-- The nodes of relabelled rows are the relabelled nodes. -/
theorem ids_relabel (f : NodeId → NodeId) (rows : List Row) :
    (rows.map (Row.relabel f)).map (·.id) = (rows.map (·.id)).map f := by
  rw [List.map_map, List.map_map]
  rfl

/-- A name means the same node under its other id. -/
theorem holder?_relabel (f : NodeId → NodeId) (rows : List Row) (name : String) :
    holder? (rows.map (Row.relabel f)) name = (holder? rows name).map f := by
  unfold holder?
  rw [List.find?_map, Option.map_map, Option.map_map]
  rfl

/-- The references of a relabelled row go to the relabelled nodes. -/
theorem targets_relabel (f : NodeId → NodeId) (row : Row) :
    targets env (rows.map (Row.relabel f)) (row.relabel f) = (targets env rows row).map f := by
  unfold targets
  rw [List.map_filterMap]
  exact List.filterMap_congr fun name _ => holder?_relabel f rows name

/-- If different nodes have different ids again, the same rows refer to themselves. -/
theorem mem_targets_relabel (hinj : Set.InjOn f {a | a ∈ rows.map (·.id)}) (hrow : row ∈ rows) :
    f row.id ∈ targets env (rows.map (Row.relabel f)) (row.relabel f) ↔
      row.id ∈ targets env rows row := by
  rw [targets_relabel]
  refine ⟨fun h => ?_, List.mem_map_of_mem⟩
  obtain ⟨a, ha, heq⟩ := List.mem_map.1 h
  have hid : a = row.id := hinj (mem_ids_of_mem_targets ha) (List.mem_map_of_mem hrow) heq
  exact hid ▸ ha

/-- A relabelled row reads the relabelled nodes. -/
theorem readsOf_relabel (hinj : Set.InjOn f {a | a ∈ rows.map (·.id)}) (hrow : row ∈ rows) :
    readsOf env (rows.map (Row.relabel f)) (row.relabel f) = (readsOf env rows row).map f := by
  unfold readsOf
  by_cases hself : row.id ∈ targets env rows row
  · exact (if_pos ((mem_targets_relabel hinj hrow).2 hself)).trans (by rw [if_pos hself]; rfl)
  · have hself' : (row.relabel f).id ∉ targets env (rows.map (Row.relabel f)) (row.relabel f) :=
      fun h => hself ((mem_targets_relabel hinj hrow).1 h)
    rw [if_neg hself, if_neg hself', targets_relabel]

/-- Relabelled rows depend on each other as before. -/
theorem Depends.relabel (hinj : Set.InjOn f {a | a ∈ rows.map (·.id)}) (h : Depends env rows a b) :
    Depends env (rows.map (Row.relabel f)) (f a) (f b) := by
  obtain ⟨row, hrow, rfl, hb⟩ := h
  refine ⟨row.relabel f, List.mem_map_of_mem hrow, rfl, ?_⟩
  rw [readsOf_relabel hinj hrow]
  exact List.mem_map_of_mem hb

/-- A relabelled row leads to a cycle if the row does. -/
theorem LeadsToCycle.relabel (hinj : Set.InjOn f {a | a ∈ rows.map (·.id)})
    (h : LeadsToCycle env rows a) : LeadsToCycle env (rows.map (Row.relabel f)) (f a) := by
  obtain ⟨b, hreach, hcycle⟩ := h
  have hlift : ∀ x y, Depends env rows x y →
      Depends env (rows.map (Row.relabel f)) (f x) (f y) := fun _ _ hxy => hxy.relabel hinj
  exact ⟨f b, hreach.lift f hlift, hcycle.lift f hlift⟩

/-- Ids that are taken back leave the table as it was. -/
theorem relabel_relabel (hback : ∀ a ∈ rows.map (·.id), g (f a) = a) :
    (rows.map (Row.relabel f)).map (Row.relabel g) = rows := by
  rw [List.map_map]
  conv_rhs => rw [← List.map_id rows]
  refine List.map_congr_left fun row hrow => ?_
  have hid : g (f row.id) = row.id := hback row.id (List.mem_map_of_mem hrow)
  simp [Row.relabel, hid]

/-- The same nodes lead to cycles. -/
theorem leadsToCycle_relabel (hinj : Set.InjOn f {a | a ∈ rows.map (·.id)})
    (ha : a ∈ rows.map (·.id)) :
    LeadsToCycle env (rows.map (Row.relabel f)) (f a) ↔ LeadsToCycle env rows a := by
  refine ⟨fun h => ?_, fun h => h.relabel hinj⟩
  have hback : ∀ a ∈ rows.map (·.id), Function.invFunOn f {a | a ∈ rows.map (·.id)} (f a) = a :=
    fun a ha => hinj.leftInvOn_invFunOn ha
  set g := Function.invFunOn f {a | a ∈ rows.map (·.id)}
  have hinj' : Set.InjOn g {a | a ∈ (rows.map (Row.relabel f)).map (·.id)} := by
    rw [ids_relabel]
    intro x hx y hy hxy
    obtain ⟨x, hx', rfl⟩ := List.mem_map.1 hx
    obtain ⟨y, hy', rfl⟩ := List.mem_map.1 hy
    exact congrArg f ((hback x hx').symm.trans (hxy.trans (hback y hy')))
  have hleads := h.relabel hinj'
  rwa [relabel_relabel hback, hback a ha] at hleads

end Rows

namespace Sheet

variable {env : Environment} {s s' : Sheet} {k : NodeId} {c : Calculator} {f : NodeId → NodeId}
  {tainted : NodeId → Prop}

/-- A node of one sheet is one of any other sheet with the same table under other ids. -/
theorem Coherent.of_relabel (h : s.Coherent) (h' : s'.Coherent)
    (hrows : s'.rows = s.rows.map (Row.relabel f)) (hc : s.calculator? k = some c) :
    ∃ c', s'.calculator? (f k) = some c' ∧ s'.rowOf (f k) c' = (s.rowOf k c).relabel f := by
  have hmem : (s.rowOf k c).relabel f ∈ s'.rows :=
    hrows ▸ List.mem_map_of_mem (h.mem_rows.2 ⟨k, c, hc, rfl⟩)
  obtain ⟨k', c', hc', hrow⟩ := h'.mem_rows.1 hmem
  obtain rfl : f k = k' := congrArg Row.id hrow
  exact ⟨c', hc', hrow.symm⟩

/-- The ids of a table under other ids are all different, so no two nodes have got the same one. -/
theorem Coherent.injOn_of_relabel (h' : s'.Coherent)
    (hrows : s'.rows = s.rows.map (Row.relabel f)) :
    Set.InjOn f {a | a ∈ s.rows.map (·.id)} := by
  have hnodup := h'.nodup_ids
  rw [hrows, Rows.ids_relabel] at hnodup
  exact fun _ hx _ hy heq => List.inj_on_of_nodup_map hnodup hx hy heq

/-- Nodes come to the same results under other ids, if they are up to date and all is that they
depend on. -/
theorem Coherent.resultOf_relabel (h : s.Coherent) (h' : s'.Coherent) (henv : env.Answers)
    (hrows : s'.rows = s.rows.map (Row.relabel f))
    (hupToDate : ∀ k ∈ s.graph.nodes.keys, s.FreeOf tainted k → UpToDate env s k)
    (hupToDate' : ∀ k ∈ s'.graph.nodes.keys, UpToDate env s' k)
    (hk : k ∈ s.graph.nodes.keys) (hfree : s.FreeOf tainted k) :
    s'.resultOf (f k) = s.resultOf k := by
  have hinj := h'.injOn_of_relabel hrows
  -- A node comes to the same, if what it refers to comes to the same.
  have hnode : ∀ k c, s.calculator? k = some c → s.FreeOf tainted k →
      (k ∉ Rows.targets env s.rows (s.rowOf k c) → ¬ Rows.LeadsToCycle env s.rows k →
        ∀ a ∈ Rows.targets env s.rows (s.rowOf k c), s'.resultOf (f a) = s.resultOf a) →
      s'.resultOf (f k) = s.resultOf k := by
    intro k c hc hfree htargets
    obtain ⟨c', hc', hrow⟩ := h.of_relabel h' hrows hc
    have hmem : s.rowOf k c ∈ s.rows := h.mem_rows.2 ⟨k, c, hc, rfl⟩
    obtain ⟨c₁, hc₁, -, hdue⟩ := hupToDate k (h.registered hc) hfree
    obtain rfl := Option.some.inj (hc.symm.trans hc₁)
    obtain ⟨c₁', hc₁', -, hdue'⟩ := hupToDate' (f k) (h'.registered hc')
    obtain rfl := Option.some.inj (hc'.symm.trans hc₁')
    have hfree' : s'.FreeOf (fun _ => False) (f k) := fun _ hfalse => hfalse.elim
    obtain ⟨hself, hcycle, hother⟩ :=
      h.due_seen henv (hfree.leadsToCycle_iff h henv hupToDate) c
    obtain ⟨hself', hcycle', hother'⟩ :=
      h'.due_seen henv (hfree'.leadsToCycle_iff h' henv fun k hk _ => hupToDate' k hk) c'
    have hrefersIff : f k ∈ Rows.targets env s'.rows (s'.rowOf (f k) c') ↔
        k ∈ Rows.targets env s.rows (s.rowOf k c) := by
      rw [hrow, hrows]
      exact Rows.mem_targets_relabel hinj hmem
    have hleadsIff : Rows.LeadsToCycle env s'.rows (f k) ↔ Rows.LeadsToCycle env s.rows k := by
      rw [hrows]
      exact Rows.leadsToCycle_relabel hinj (List.mem_map_of_mem hmem)
    rw [hrefersIff] at hself' hcycle' hother'
    rw [hleadsIff] at hcycle' hother'
    have hsame : due env s' (f k) c' = due env s k c := by
      by_cases hrefers : k ∈ Rows.targets env s.rows (s.rowOf k c)
      · rw [hself hrefers, hself' hrefers]
      by_cases hleads : Rows.LeadsToCycle env s.rows k
      · rw [hcycle hrefers hleads, hcycle' hrefers hleads]
      have hexpression : c'.expression = c.expression := congrArg Row.expression hrow
      rw [hother hrefers hleads, hother' hrefers hleads, hrow, hrows, Rows.targets_relabel,
        hexpression, List.map_map]
      congr 1
      refine List.map_congr_left fun a ha => ?_
      obtain ⟨ca, hca⟩ := h.calculator_of_mem (h.mem_keys_of_mem_targets ha)
      obtain ⟨ca', -, hrowa⟩ := h.of_relabel h' hrows hca
      have hheader : s'.graph.headerOf (f a) = s.graph.headerOf a := congrArg Row.header hrowa
      have hresult := htargets hrefers hleads a ha
      simp [seen, hheader, hresult]
    rw [resultOf_eq hc, resultOf_eq hc']
    exact Except.ok.inj (hdue'.symm.trans (hsame.trans hdue))
  obtain ⟨c, hc⟩ := h.calculator_of_mem hk
  by_cases hleads : Rows.LeadsToCycle env s.rows k
  · exact hnode k c hc hfree fun _ hnot => absurd hleads hnot
  -- The nodes that lead to no cycle, each after those that it reads.
  · refine acyclic_induction (R := Rows.Depends env s.rows)
      (P := fun k => ∀ c, s.calculator? k = some c → s.FreeOf tainted k →
        s'.resultOf (f k) = s.resultOf k)
      (fun a b hab => hab.mem_ids.2) (fun k _ ih c hc hfree => ?_) hleads c hc hfree
    refine hnode k c hc hfree fun hrefers _ a ha => ?_
    have hdepends : Rows.Depends env s.rows k a :=
      ⟨s.rowOf k c, h.mem_rows.2 ⟨k, c, hc, rfl⟩, rfl, Rows.mem_readsOf.2 ⟨hrefers, ha⟩⟩
    have hreads : s.graph.Reads k a :=
      (h.edges_of_upToDate henv (fun hmem => hupToDate k hmem hfree) a).2 hdepends
    obtain ⟨ca, hca⟩ := h.calculator_of_mem (h.mem_keys_of_mem_targets ha)
    exact ih a hdepends ca hca (hfree.next hreads)

/-- So do nodes at rest, if what one sheet remembers of its past does not collide with anything that
they depend on, and the other one has no past. -/
theorem Progress.resultOf_relabel {past : List Sheet} (henv : env.Answers)
    (haccounted : Accounted env s []) (haccounted' : Accounted env s' [])
    (h : Progress env past (fun _ => False) (fun _ => True) s [])
    (h' : Progress env [] (fun _ => False) (fun _ => True) s' []) (hrest : s.AtRest)
    (hrest' : s'.AtRest) (hrows : s'.rows = s.rows.map (Row.relabel f))
    (hk : k ∈ s.graph.nodes.keys) (hfree : s.FreeOf (Collided past s) k) :
    s'.resultOf (f k) = s.resultOf k := by
  have hupToDate : ∀ m ∈ s.graph.nodes.keys, s.FreeOf (Collided past s) m → UpToDate env s m := by
    intro m hm hfree
    refine (h.upToDate haccounted hrest trivial hm).resolve_right ?_
    rintro ⟨d, hdoubt | hcollided, hreach⟩
    · exact hdoubt
    · exact hfree d hcollided hreach
  have hupToDate' : ∀ m ∈ s'.graph.nodes.keys, UpToDate env s' m := by
    intro m hm
    refine (h'.upToDate haccounted' hrest' trivial hm).resolve_right ?_
    rintro ⟨d, hdoubt | ⟨before, hmem, -⟩, -⟩
    · exact hdoubt
    · cases hmem
  exact haccounted.coherent.resultOf_relabel haccounted'.coherent henv hrows hupToDate hupToDate' hk
    hfree

end Sheet

end LiveSheet
