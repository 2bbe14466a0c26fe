import LiveSheet.Proofs.Agreement
import LiveSheet.Proofs.Upkeep

/-!
# Sensible results

A result is sensible (`Rows.Sensible`) if it is what the results of its references say, be they
right or wrong, or else the kind of a cycle, be there one or not. Sensible results can be wrong
about cycles only: all of them are right if and only if the kind of a cycle stands where one can be
reached and nowhere else (`Rows.comes_iff_of_sensible`).

The results of a sheet stay sensible while nodes come and go and are given other expressions
(`Sheet.Tenable`), although a kept result may be used for other references than it was made for.
Where that happens, its fingerprint has as many results as there are names now that mean a node.
When a node comes, names can only have begun to mean one, and when it goes, they can only have
ceased to, since all that mention its header are recalculated at once. So if their number is the
same, the names are (`Complete.reusable`), and the kept result is the one that they come to.
-/

namespace LiveSheet

open Relation

namespace Rows

variable {env : Environment} {rows rows' : List Row} {values values' : NodeId → Result} {row : Row}

/-- Whether the result of a row is what the results of its references say, or the kind of a
cycle. -/
structure Sensible (env : Environment) (rows : List Row) (values : NodeId → Result) (row : Row) :
    Prop where
  self : row.id ∈ targets env rows row → values row.id = .failed .selfReference
  other : row.id ∉ targets env rows row → values row.id = .failed .circularDependency ∨
    Sheet.conclusion env row.expression
      ((env.references row.expression).map (shown rows values)) = .ok (values row.id)

/-- A result stays sensible as long as it and what it is made of do. -/
theorem Sensible.congr (h : Sensible env rows values row)
    (hholder : ∀ name ∈ env.references row.expression, holder? rows' name = holder? rows name)
    (hresult : values' row.id = values row.id)
    (hvalues : ∀ a ∈ readsOf env rows row, values' a = values a) :
    Sensible env rows' values' row := by
  have htargets : targets env rows' row = targets env rows row := List.filterMap_congr hholder
  refine ⟨fun hself => ?_, fun hself => ?_⟩
  · rw [htargets] at hself
    exact hresult.trans (h.self hself)
  · rw [htargets] at hself
    have hshown : (env.references row.expression).map (shown rows' values') =
        (env.references row.expression).map (shown rows values) := by
      rw [← shown_congr fun a ha => hvalues a (mem_readsOf.2 ⟨hself, ha⟩)]
      refine List.map_congr_left fun name hname => ?_
      unfold shown
      rw [hholder name hname]
    rw [hshown, hresult]
    exact h.other hself

/-- Whether a result is sensible does not depend on the header of its own row. -/
theorem Sensible.withHeader {id : NodeId} {header : Option String} {expression : String}
    (h : Sensible env rows values ⟨id, header, expression⟩) (header' : Option String) :
    Sensible env rows values ⟨id, header', expression⟩ :=
  ⟨h.self, h.other⟩

/-- A row from which a cycle can be reached does not refer to itself, since it reads something. -/
theorem LeadsToCycle.not_mem_targets (hids : (rows.map (·.id)).Nodup) (hrow : row ∈ rows)
    (h : LeadsToCycle env rows row.id) : row.id ∉ targets env rows row := by
  obtain ⟨b, hreach, hcycle⟩ := h
  obtain ⟨a, ⟨row', hrow', hid, ha⟩, -⟩ := TransGen.head'_iff.1 (TransGen.trans_right hreach hcycle)
  obtain rfl := eq_of_id_eq hids hrow' hrow hid
  exact (mem_readsOf.1 ha).1

/-- Sensible results are right if and only if the kind of a cycle stands where one can be reached
and nowhere else. -/
theorem comes_iff_of_sensible (hids : (rows.map (·.id)).Nodup)
    (hsensible : ∀ row ∈ rows, Sensible env rows values row) :
    (∀ row ∈ rows, Comes env rows row.id (values row.id)) ↔ ∀ row ∈ rows,
      (values row.id = .failed .circularDependency ↔ LeadsToCycle env rows row.id) := by
  constructor
  · intro hcomes row hrow
    refine ⟨fun hcircular => (hcircular ▸ hcomes row hrow).leadsToCycle, fun hleads => ?_⟩
    exact (hcomes row hrow).unique hids
      (.circular row hrow (hleads.not_mem_targets hids hrow) hleads)
  · intro hcycles row hrow
    have hclosed : ∀ a b, True → Depends env rows a b → True := fun _ _ _ _ => trivial
    refine comes_of_closed hclosed (fun row hrow _ hself => (hsensible row hrow).self hself)
      (fun row hrow _ _ hleads => (hcycles row hrow).2 hleads)
      (fun row hrow _ hself hleads => ?_) hrow trivial
    refine ((hsensible row hrow).other hself).resolve_left fun hcircular => ?_
    exact hleads ((hcycles row hrow).1 hcircular)

end Rows

namespace Sheet

variable {env : Environment} {s s' : Sheet} {id k : NodeId} {c c' : Calculator} {loud : Bool}
  {past : List Sheet} {doubtful watched : NodeId → Prop} {todo : List NodeId}
  {holder holder' : String → Option NodeId}

/-! ### What is kept for the names that mean a node -/

/-- The names in an expression that mean a node. -/
def heldNames (env : Environment) (holder : String → Option NodeId) (expression : String) :
    List String :=
  (env.references expression).filter fun name => (holder name).isSome

/-- What a node reads, by the names that mean it. -/
theorem Coherent.map_seen_reading (h : s.Coherent) (hnames : (env.references c.expression).Nodup)
    {reads : List NodeId} (hreads : reading? env s id c = some reads) :
    reads.map s.seen =
        (heldNames env s.graph.holder? c.expression).zip (reads.map s.resultOf) ∧
      reads.length = (heldNames env s.graph.holder? c.expression).length := by
  have hheld : (reads.map s.seen).map (·.1) = heldNames env s.graph.holder? c.expression :=
    h.headers_reading hnames hreads
  refine ⟨List.zip_of_prod hheld ?_, ?_⟩
  · rw [List.map_map]
    rfl
  · rw [← hheld, List.length_map, List.length_map]

/-- Whether what a calculator has kept was made of its present expression, with a result for each
name that means a node now. -/
def Complete (env : Environment) (holder : String → Option NodeId) (c : Calculator) : Prop :=
  ∀ print result, c.cached = some (print, result) → ∃ results : List Result,
    print = printOf c.expression results ∧
      results.length = (heldNames env holder c.expression).length ∧
      conclusion env c.expression ((heldNames env holder c.expression).zip results) = .ok result

/-- Whether what a calculator has kept can be used where its fingerprint is found again. -/
def Reusable (env : Environment) (holder : String → Option NodeId) (c : Calculator) : Prop :=
  ∀ (results : List Result) result, c.cached = some (printOf c.expression results, result) →
    results.length = (heldNames env holder c.expression).length →
      conclusion env c.expression ((heldNames env holder c.expression).zip results) = .ok result

/-- What is complete can be used again, also for another expression and when names have come to mean
a node, or when names have ceased to. -/
theorem Complete.reusable (h : Complete env holder c) (hcached : c'.cached = c.cached)
    (hheld : (∀ name, (holder name).isSome → (holder' name).isSome) ∨
      ∀ name, (holder' name).isSome → (holder name).isSome) : Reusable env holder' c' := by
  intro results result hkept hlength
  obtain ⟨results', hprint, hlength', hresult⟩ := h _ result (hcached ▸ hkept)
  obtain ⟨hexpression, rfl⟩ := printOf_injective hprint
  rw [hexpression] at hlength ⊢
  -- One of the lists of names is a part of the other, and both have the same length.
  have hsame : heldNames env holder' c.expression = heldNames env holder c.expression := by
    rcases hheld with hmore | hfewer
    · exact ((List.monotone_filter_right _ hmore).eq_of_length (hlength'.symm.trans hlength)).symm
    · exact (List.monotone_filter_right _ hfewer).eq_of_length (hlength.symm.trans hlength')
  rwa [hsame]

/-- Completeness depends on the holders of the names in the expression only. -/
theorem Complete.congr (h : Complete env holder c)
    (hholder : ∀ name ∈ env.references c.expression, holder' name = holder name) :
    Complete env holder' c := by
  have hsame : heldNames env holder' c.expression = heldNames env holder c.expression :=
    List.filter_congr fun name hname => by rw [hholder name hname]
  unfold Complete
  rw [hsame]
  exact h

/-- A calculator without a fingerprint is complete. -/
theorem complete_of_cached_none (hcached : c.cached = none) : Complete env holder c := by
  intro print result hkept
  rw [hcached] at hkept
  cases hkept

/-- What a node comes to, if what it has kept can be used: it is unresolved and keeps nothing, or it
has come to what its reads say, and keeps that. -/
theorem Verdict.outcome (henv : env.Answers) (h : s.Coherent)
    (hreusable : Reusable env s.graph.holder? c) (hverdict : Verdict env s s' id c c' loud) :
    (reading? env s id c = none ∧ c'.result = .failed .selfReference ∧ c'.cached = none) ∨
    ∃ reads, reading? env s id c = some reads ∧
      ((c'.result = .failed .circularDependency ∧ c'.cached = none) ∨
        (conclusion env c.expression (reads.map s.seen) = .ok c'.result ∧
          c'.cached = some (printOf c.expression (reads.map s.resultOf), c'.result))) := by
  cases hverdict with
  | unresolved reads kind cause =>
    rcases cause with ⟨hnone, -, rfl⟩ | ⟨hsome, -, rfl⟩
    · exact .inl ⟨hnone, rfl, rfl⟩
    · exact .inr ⟨reads, hsome, .inl ⟨rfl, rfl⟩⟩
  | kept reads result hsome hcycle hcached =>
    refine .inr ⟨reads, hsome, .inr ⟨?_, hcached⟩⟩
    obtain ⟨hseen, hlength⟩ := h.map_seen_reading (henv.nodup _) hsome
    rw [hseen]
    exact hreusable _ result hcached (by rw [List.length_map, hlength])
  | concluded reads result hsome hcycle hnew hresult =>
    exact .inr ⟨reads, hsome, .inr ⟨hresult, rfl⟩⟩
  | raised reads e hsome hcycle hresult =>
    exact absurd hresult (henv.conclusion_ne_error _ _)

/-- What a node has kept after its recalculation is complete. -/
theorem Verdict.complete (henv : env.Answers) (h : s.Coherent)
    (hreusable : Reusable env s.graph.holder? c) (hverdict : Verdict env s s' id c c' loud) :
    Complete env s.graph.holder? c' := by
  rcases hverdict.outcome henv h hreusable with
    ⟨-, -, hnone⟩ | ⟨reads, hreads, ⟨-, hnone⟩ | ⟨hresult, hcached⟩⟩
  · exact complete_of_cached_none hnone
  · exact complete_of_cached_none hnone
  · intro print result hkept
    obtain ⟨rfl, rfl⟩ := Prod.mk.inj (Option.some.inj (hcached.symm.trans hkept))
    obtain ⟨hseen, hlength⟩ := h.map_seen_reading (henv.nodup _) hreads
    rw [hverdict.spec.1]
    exact ⟨reads.map s.resultOf, rfl, by rw [List.length_map, hlength], hseen ▸ hresult⟩

/-- The result of a node is sensible after its recalculation. -/
theorem Verdict.sensible (henv : env.Lawful) (h : s.Coherent) (h' : s'.Coherent)
    (hc : s.calculator? id = some c) (hreusable : Reusable env s.graph.holder? c)
    (heffect : Effect s id c' loud s') (hverdict : Verdict env s s' id c c' loud) :
    Rows.Sensible env s'.rows s'.resultOf (s'.rowOf id c') := by
  have hexpression := hverdict.spec.1
  have hrows := heffect.rows_eq h h' hc hexpression
  have hrow : s'.rowOf id c' = s.rowOf id c := by
    unfold rowOf
    rw [heffect.headerOf, hexpression]
  have hresult : s'.resultOf id = c'.result := resultOf_eq heffect.calculator_self
  have hreading := h.reading_eq henv.toAnswers id c
  rw [hrows, hrow]
  refine ⟨fun hself => hresult.trans ?_, fun hself => ?_⟩
  · rw [if_pos (show id ∈ _ from hself)] at hreading
    rcases hverdict.outcome henv h hreusable with ⟨-, hfailed, -⟩ | ⟨reads, hreads, -⟩
    · exact hfailed
    · rw [hreading] at hreads
      cases hreads
  · rw [if_neg (show id ∉ _ from hself)] at hreading
    rcases hverdict.outcome henv h hreusable with ⟨hnone, -⟩ | ⟨reads, hreads, hother⟩
    · rw [hreading] at hnone
      cases hnone
    refine hother.imp (fun hcircular => hresult.trans hcircular.1) fun ⟨hconclusion, _⟩ => ?_
    obtain rfl := Option.some.inj (hreading.symm.trans hreads)
    -- The node does not read itself, so what it reads is as before.
    have hothers : ∀ a ∈ Rows.targets env s.rows (s.rowOf id c), s'.resultOf a = s.resultOf a :=
      fun a ha => heffect.resultOf_other fun heq => hself (heq ▸ ha)
    rw [Rows.shown_congr hothers, conclusion_shown h henv, show (s.rowOf id c).id = id from rfl,
      hresult]
    rw [h.targets_eq] at hconclusion
    exact hconclusion

/-! ### Sensible results at work -/

/-- What is true of a sheet to which nodes have come, from which nodes have gone, and in which nodes
have been given other expressions, while the nodes `todo` are recalculated one after the other. -/
structure Tenable (env : Environment) (s : Sheet) (todo : List NodeId) : Prop where
  kept : ∀ k c, s.calculator? k = some c →
    Complete env s.graph.holder? c ∨ k ∈ todo ∧ Reusable env s.graph.holder? c
  sensible : ∀ k c, s.calculator? k = some c →
    k ∈ todo ∨ s.Awaits k ∨ Rows.Sensible env s.rows s.resultOf (s.rowOf k c)

/-- A result stays sensible when another node is recalculated, or its node follows. -/
theorem Effect.sensible_other (henv : env.Answers) (heffect : Effect s id c' loud s')
    (h : s.Coherent) (h' : s'.Coherent) (hc : s.calculator? id = some c)
    (hverdict : Verdict env s s' id c c' loud) {ck : Calculator} (hne : k ≠ id)
    (hck : s.calculator? k = some ck) (hreads : ck.reads = (reading? env s k ck).getD [])
    (hsensible : Rows.Sensible env s.rows s.resultOf (s.rowOf k ck)) :
    s'.Awaits k ∨ Rows.Sensible env s'.rows s'.resultOf (s'.rowOf k ck) := by
  have hrow : s'.rowOf k ck = s.rowOf k ck := by
    unfold rowOf
    rw [heffect.headerOf]
  rw [heffect.rows_eq h h' hc hverdict.spec.1, hrow]
  have hck' : s'.calculator? k = some ck := (heffect.calculator_other hne).trans hck
  cases hloud : loud with
  | false =>
    have hsame : ∀ a, s'.resultOf a = s.resultOf a := fun a =>
      congrArg Prod.snd (heffect.seen_of_eq hc (hverdict.result_of_silent h hc hloud) a)
    exact .inr (hsensible.congr (fun _ _ => rfl) (hsame k) fun a _ => hsame a)
  | true =>
    -- A node that reads this one is in its wave; no other one notices.
    by_cases hread : id ∈ Rows.readsOf env s.rows (s.rowOf k ck)
    · have hedge : s'.graph.Reads k id := by
        refine (h'.edges k id).2 ⟨ck, hck', ?_, h'.registered heffect.calculator_self⟩
        rw [hreads, h.getD_reading henv]
        exact hread
      exact .inl (heffect.awaits_of_reaches h' hloud (h'.registered hck') hne (.single hedge))
    · refine .inr (hsensible.congr (fun _ _ => rfl) (heffect.resultOf_other hne) fun a ha => ?_)
      exact heffect.resultOf_other fun heq => hread (heq ▸ ha)

/-- The recalculation of the first node that is to be recalculated. -/
theorem Tenable.recalculate (henv : env.Lawful) (hcoherent : s.Coherent)
    (h : Tenable env s (id :: todo))
    (hprogress : Progress env past doubtful watched s (id :: todo)) (hwatched : ∀ k, watched k) :
    Tenable env (recalculate env s id).1 todo := by
  cases hc : s.calculator? id with
  | none =>
    rw [recalculate_of_none hc]
    exact ⟨fun k c hk => (h.kept k c hk).imp_right (.imp_left (mem_of_calculator?_none hc hk)),
      fun k c hk => (h.sensible k c hk).imp_left (mem_of_calculator?_none hc hk)⟩
  | some c =>
    have hnames := henv.nodup c.expression
    obtain ⟨c', loud, heffect, hverdict⟩ := hcoherent.recalculate_spec hnames hc
    generalize (Sheet.recalculate env s id).1 = s' at heffect hverdict
    have hcoherent' := heffect.coherent hcoherent hnames hc hverdict
    -- Until its turn comes, what a node has kept need not be complete, but it can be used again.
    have hreusable : Reusable env s.graph.holder? c :=
      (h.kept id c hc).elim (·.reusable rfl (.inl fun _ hheld => hheld)) (·.2)
    have hholder : s'.graph.holder? = s.graph.holder? := funext heffect.holder?
    refine ⟨fun k ck hk => ?_, fun k ck hk => ?_⟩
    · rw [hholder]
      by_cases hne : k = id
      · subst hne
        obtain rfl := heffect.eq_of_calculator hk
        exact .inl (hverdict.complete henv hcoherent hreusable)
      · rw [heffect.calculator_other hne] at hk
        exact (h.kept k ck hk).imp_right fun hmem =>
          ⟨(List.mem_cons.1 hmem.1).resolve_left hne, hmem.2⟩
    · by_cases hne : k = id
      · subst hne
        obtain rfl := heffect.eq_of_calculator hk
        exact .inr (.inr (hverdict.sensible henv hcoherent hcoherent' hc hreusable heffect))
      · rw [heffect.calculator_other hne] at hk
        rcases h.sensible k ck hk with hmem | hawaits | hsensible
        · exact .inl ((List.mem_cons.1 hmem).resolve_left hne)
        · exact .inr (.inl (heffect.awaits hawaits))
        rcases hprogress.linked k ck (hwatched k) hk with hmem | hwaiting | hreads
        · exact .inl ((List.mem_cons.1 hmem).resolve_left hne)
        · exact .inr (.inl (heffect.awaits (.inl hwaiting)))
        · exact .inr (heffect.sensible_other henv hcoherent hcoherent' hc hverdict hne hk hreads
            hsensible)

/-- Results are sensible in all sheets with the same nodes, edges and things to do. -/
theorem Tenable.resembles (h : Tenable env s []) (hsame : s.Resembles s' todo) :
    Tenable env s' todo where
  kept k c hk := by
    rw [hsame.calculator?] at hk
    rw [hsame.holder?]
    exact .inl ((h.kept k c hk).resolve_right fun hmem => absurd hmem.1 (by simp))
  sensible k c hk := by
    rw [hsame.calculator?] at hk
    rw [hsame.rows, hsame.resultOf, rowOf, hsame.headerOf]
    rcases h.sensible k c hk with hmem | hwait | hsensible
    · exact absurd hmem (by simp)
    · exact (hsame.awaits k hwait).imp_right .inl
    · exact .inr (.inr hsensible)

/-- The worker keeps the results sensible. -/
theorem lasts_tenable (henv : env.Lawful) (past : List Sheet) (doubtful : NodeId → Prop)
    (hwatched : ∀ k, watched k) :
    Lasts env fun s todo =>
      (s.Coherent ∧ Progress env past doubtful watched s todo) ∧ Tenable env s todo :=
  .of_resembles (·.1.1)
    (fun h => ⟨(lasts_progress henv.toAnswers past doubtful watched).recalculate h.1,
      h.2.recalculate henv h.1.1 h.1.2 hwatched⟩)
    fun h hsame hcoherent => ⟨⟨hcoherent, h.1.2.resembles hsame⟩, h.2.resembles hsame⟩

/-- At rest every result is sensible. -/
theorem Tenable.sensible_of_atRest (h : Tenable env s []) (hcoherent : s.Coherent)
    (hrest : s.AtRest) : ∀ row ∈ s.rows, Rows.Sensible env s.rows s.resultOf row := by
  intro row hrow
  obtain ⟨k, c, hc, rfl⟩ := hcoherent.mem_rows.1 hrow
  rcases h.sensible k c hc with hmem | hawaits | hsensible
  · exact absurd hmem (by simp)
  · exact absurd hawaits (hrest.not_awaits k)
  · exact hsensible

/-! ### Sensible results after an operation -/

/-- A change after which some nodes are recalculated, if names only come to mean a node by it or
only cease to, and if nothing changes for the other nodes. -/
theorem Tenable.of_change (h : Tenable env s []) (hcoherent : s.Coherent) (hcoherent' : s'.Coherent)
    (hheld : (∀ name, (s.graph.holder? name).isSome → (s'.graph.holder? name).isSome) ∨
      ∀ name, (s'.graph.holder? name).isSome → (s.graph.holder? name).isSome)
    (hcached : ∀ k c', s'.calculator? k = some c' → c'.cached = none ∨
      ∃ c, s.calculator? k = some c ∧ c'.cached = c.cached)
    (hother : ∀ k c, s'.calculator? k = some c → k ∉ todo → s.calculator? k = some c ∧
      (s.Awaits k → s'.Awaits k) ∧ s'.resultOf k = s.resultOf k ∧
        ∀ name ∈ env.references c.expression, s'.graph.holder? name = s.graph.holder? name ∧
          ∀ a, s.graph.holder? name = some a → s'.resultOf a = s.resultOf a) :
    Tenable env s' todo := by
  have hcomplete : ∀ k c, s.calculator? k = some c → Complete env s.graph.holder? c :=
    fun k c hk => (h.kept k c hk).resolve_right fun hmem => absurd hmem.1 (by simp)
  refine ⟨fun k c hk => ?_, fun k c hk => ?_⟩
  · by_cases hmem : k ∈ todo
    · rcases hcached k c hk with hnone | ⟨c₀, hc₀, hsame⟩
      · exact .inl (complete_of_cached_none hnone)
      · exact .inr ⟨hmem, (hcomplete k c₀ hc₀).reusable hsame hheld⟩
    · obtain ⟨hk', -, -, hnames⟩ := hother k c hk hmem
      exact .inl ((hcomplete k c hk').congr fun name hname => (hnames name hname).1)
  · by_cases hmem : k ∈ todo
    · exact .inl hmem
    obtain ⟨hk', hawaits, hresult, hnames⟩ := hother k c hk hmem
    rcases h.sensible k c hk' with hnil | hwait | hsensible
    · exact absurd hnil (by simp)
    · exact .inr (.inl (hawaits hwait))
    · -- A row under another header is as sensible as before, so the rows may be compared under the
      -- old one.
      suffices hsame : Rows.Sensible env s'.rows s'.resultOf (s.rowOf k c) from
        .inr (.inr (hsame.withHeader _))
      refine hsensible.congr (fun name hname => ?_) hresult fun a ha => ?_
      · rw [hcoherent.holder?_rows, hcoherent'.holder?_rows]
        exact (hnames name hname).1
      · obtain ⟨name, hname, hholder⟩ := List.mem_filterMap.1 (Rows.mem_readsOf.1 ha).2
        rw [hcoherent.holder?_rows] at hholder
        exact (hnames name hname).2 a hholder

/-- A new node, if it is recalculated with those that mention its header. -/
theorem Tenable.withNode {header expression : String} {delay : Int} (h : Tenable env s [])
    (hcoherent : s.Coherent) (hnew : id ∉ s.graph.nodes.keys)
    (hregistered : ∀ k c, s.calculator? k = some c → ∀ a ∈ c.reads, a ∈ s.graph.nodes.keys)
    (hid : id ∈ todo)
    (hmention : ∀ k c, s.calculator? k = some c → header ∈ env.references c.expression →
      k ∈ todo) : Tenable env (s.withNode id header expression delay) todo := by
  have hholder := holder?_withNode (s := s) header expression delay hnew
  refine h.of_change hcoherent (hcoherent.withNode header expression delay hnew hregistered)
    (.inl fun name hheld => ?_) (fun k c hk => ?_) fun k c hk hmem => ?_
  · rw [hholder]
    simp [hheld]
  · rw [calculator?_withNode] at hk
    split at hk
    · obtain rfl := Option.some.inj hk
      exact .inl rfl
    · exact .inr ⟨c, hk, rfl⟩
  · have hne : k ≠ id := fun heq => hmem (heq ▸ hid)
    rw [calculator?_withNode, if_neg hne] at hk
    refine ⟨hk, fun hawaits => hawaits, resultOf_withNode hne,
      fun name hname => ⟨?_, fun a ha => ?_⟩⟩
    · have hother : header ≠ name := by
        rintro rfl
        exact hmem (hmention k c hk hname)
      rw [hholder, if_neg hother]
      simp
    · refine resultOf_withNode ?_
      rintro rfl
      exact hnew (Graph.headerOf_of_holder? hcoherent.nodup ha).1

/-- Another expression, if its node is recalculated. -/
theorem Tenable.setExpression {expression : String} (h : Tenable env s []) (hcoherent : s.Coherent)
    {agenda : Agenda NodeId SheetTask} (hagenda : s.Rescheduled id agenda todo) (hid : id ∈ todo) :
    Tenable env { s.setExpression id expression with agenda } todo := by
  refine h.of_change hcoherent
    ((hcoherent.setExpression id expression).withAgenda hagenda.timers) (.inl fun _ hheld => hheld)
    (fun k c hk => ?_) fun k c hk hmem => ?_
  · obtain ⟨c₀, hc₀, -, -, hcached, -⟩ := of_calculator?_setExpression hk
    exact .inr ⟨c₀, hc₀, hcached⟩
  · have hne : k ≠ id := fun heq => hmem (heq ▸ hid)
    obtain ⟨c₀, hc₀, -, -, -, -, hother⟩ := of_calculator?_setExpression hk
    obtain rfl := hother hne
    exact ⟨hc₀, hagenda.awaits k hne, resultOf_setExpression s id expression k,
      fun name _ => ⟨rfl, fun a _ => resultOf_setExpression s id expression a⟩⟩

/-- A node that goes, if those are recalculated that mention its header. -/
theorem Tenable.without (h : Tenable env s []) (hcoherent : s.Coherent)
    (hmention : ∀ k c name, s.calculator? k = some c → k ≠ id → name ∈ env.references c.expression →
      s.graph.headerOf id = some name → k ∈ todo) : Tenable env (s.without id) todo := by
  have hleft : ∀ {k c}, (s.without id).calculator? k = some c →
      k ≠ id ∧ s.calculator? k = some c := by
    intro k c hk
    rw [calculator?_without] at hk
    split at hk
    · cases hk
    · next hne => exact ⟨hne, hk⟩
  refine h.of_change hcoherent (hcoherent.without id) (.inr fun name hheld => ?_)
    (fun k c hk => .inr ⟨c, (hleft hk).2, rfl⟩) fun k c hk hmem => ?_
  · by_cases hname : s.graph.holder? name = some id
    · rw [hname]
      rfl
    · rwa [holder?_without hname] at hheld
  · obtain ⟨hne, hk'⟩ := hleft hk
    -- No name in the expression has meant the node that is gone.
    have hnot : ∀ name ∈ env.references c.expression, s.graph.holder? name ≠ some id :=
      fun name hname hmeans =>
        hmem (hmention k c name hk' hne hname (Graph.headerOf_of_holder? hcoherent.nodup hmeans).2)
    refine ⟨hk', fun hawaits => hawaits.imp_left (waiting_without hne), resultOf_without hne,
      fun name hname => ⟨holder?_without (hnot name hname), fun a ha => resultOf_without ?_⟩⟩
    rintro rfl
    exact hnot name hname ha

/-- A sheet without nodes is tenable. -/
theorem tenable_cleared (env : Environment) (s : Sheet) : Tenable env s.cleared [] where
  kept _ _ hk := by cases hk
  sensible _ _ hk := by cases hk

end Sheet

end LiveSheet
