import LiveSheet.Proofs.Meaning
import LiveSheet.Proofs.Progress
import LiveSheet.Proofs.Rest

/-!
# Sheets at rest

The worker leaves the table of a sheet as it is (`Sheet.lasts_rows`) and comes to rest. A sheet that
has come to rest has nothing wrong in it but what depends on a tainted node
(`Progress.correctBut`). Whatever a node has kept that is up to date belongs to what it reads
(`Accounted.honest`).
-/

namespace LiveSheet.Sheet

open Relation

variable {env : Environment} {s s' : Sheet} {id k : NodeId} {c c' : Calculator} {loud : Bool}
  {past : List Sheet} {doubtful watched : NodeId → Prop}

/-! ### The table at work -/

/-- Sheets that resemble each other have the same rows. -/
theorem Resembles.rows {todo : List NodeId} (h : s.Resembles s' todo) : s'.rows = s.rows := by
  simp only [Sheet.rows, h.calculators, h.headerOf]

/-- A recalculation leaves the table as it is. -/
theorem Effect.rows_eq (heffect : Effect s id c' loud s') (h : s.Coherent) (h' : s'.Coherent)
    (hc : s.calculator? id = some c) (hexpression : c'.expression = c.expression) :
    s'.rows = s.rows := by
  rw [h.rows_eq, h'.rows_eq, heffect.calculatorKeys]
  refine List.map_congr_left fun k _ => ?_
  rw [heffect.headerOf, heffect.calculator]
  by_cases hk : k = id
  · subst hk
    rw [if_pos rfl, hc]
    simp [hexpression]
  · rw [if_neg hk]

/-- So does the worker. -/
theorem lasts_rows (henv : env.Answers) (rows : List Row) :
    Lasts env fun s _ => s.Coherent ∧ s.rows = rows := by
  refine .of_resembles (·.1) (fun {s id _} h => ⟨h.1.recalculate henv.nodup id, ?_⟩)
    fun h hsame hcoherent => ⟨hcoherent, hsame.rows.trans h.2⟩
  cases hc : s.calculator? id with
  | none =>
    rw [recalculate_of_none hc]
    exact h.2
  | some c =>
    have hnames := henv.nodup c.expression
    obtain ⟨c', loud, heffect, hverdict⟩ := h.1.recalculate_spec hnames hc
    have hcoherent := heffect.coherent h.1 hnames hc hverdict
    exact (heffect.rows_eq h.1 hcoherent hc hverdict.spec.1).trans h.2

/-- Recalculating some nodes leaves the table as it is. -/
theorem Coherent.rows_recalculateEach (h : s.Coherent) (henv : env.Answers) (ids : List NodeId) :
    (recalculateEach env s ids).Coherent ∧ (recalculateEach env s ids).rows = s.rows := by
  have hkept : s.Coherent ∧ s.rows = s.rows := ⟨h, rfl⟩
  exact @Keeps.recalculateEach env s _ (lasts_rows henv s.rows).toKeeps ids [] hkept

/-- A node of one sheet is one of any other sheet with the same table. -/
theorem Coherent.of_rows_eq (h : s.Coherent) (h' : s'.Coherent) (hrows : s'.rows = s.rows)
    (hc : s.calculator? id = some c) : ∃ c', s'.calculator? id = some c' ∧
      c'.expression = c.expression ∧ s'.graph.headerOf id = s.graph.headerOf id := by
  have hmem := h.mem_rows.2 ⟨id, c, hc, rfl⟩
  rw [← hrows] at hmem
  obtain ⟨id', c', hc', hrow⟩ := h'.mem_rows.1 hmem
  obtain ⟨rfl, hheader, hexpression⟩ := Row.mk.inj hrow
  exact ⟨c', hc', hexpression.symm, hheader.symm⟩

/-- Coherent sheets with the same rows have the same nodes. -/
theorem keys_of_rows_eq (h : s.Coherent) (h' : s'.Coherent) (hrows : s'.rows = s.rows) :
    s'.graph.nodes.keys = s.graph.nodes.keys := by
  rw [h.keys_eq_ids, h'.keys_eq_ids, hrows]

/-! ### Right results at rest -/

/-- In a sheet that has come to rest nothing is wrong but what depends on a tainted node. -/
theorem Progress.correctBut (henv : env.Lawful) (haccounted : Accounted env s [])
    (h : Progress env past doubtful watched s []) (hrest : s.AtRest)
    (hwatched : ∀ k, ¬ doubtful k → watched k)
    (hdoubtful : ∀ k, doubtful k → k ∈ s.graph.nodes.keys) :
    s.CorrectBut env (Tainted past doubtful s) := by
  refine haccounted.coherent.correctBut henv (fun k hk hfree => ?_) fun m hm => ?_
  · have hsure : ¬ doubtful k := fun hdoubt => hfree k (.inl hdoubt) .refl
    refine (h.upToDate haccounted hrest (hwatched k hsure) hk).resolve_right ?_
    rintro ⟨m, hm, hreach⟩
    exact hfree m hm hreach
  · rcases hm with hm | hm
    · exact hdoubtful m hm
    · obtain ⟨c, hc⟩ := hm.calculator
      exact haccounted.coherent.registered hc

/-- If every node is watched, reads and edges are what the table says at rest. -/
theorem Progress.linked_of_atRest (henv : env.Answers) (hcoherent : s.Coherent)
    (h : Progress env past doubtful watched s []) (hrest : s.AtRest) (hwatched : ∀ k, watched k) :
    s.Linked env :=
  hcoherent.linked henv fun k _ hc => h.reads_eq hrest (hwatched k) hc

/-! ### What is kept by nodes that are up to date -/

/-- The first error kind depends on nothing but the results. -/
theorem firstFailure?_congr {read read' : List (String × Result)}
    (h : read.map (·.2) = read'.map (·.2)) : firstFailure? read = firstFailure? read' := by
  have hresults : ∀ read : List (String × Result),
      firstFailure? read = (read.map (·.2)).findSome? Result.failure? := by
    intro read
    rw [List.findSome?_map]
    rfl
  rw [hresults, hresults, h]

/-- The kind of a cycle is taken over from a result, whatever names the results have. -/
theorem conclusion_circular {expression : String} {read read' : List (String × Result)}
    (h : read.map (·.2) = read'.map (·.2))
    (hresult : conclusion env expression read = .ok (.failed .circularDependency)) :
    conclusion env expression read' = .ok (.failed .circularDependency) := by
  have hfirst := firstFailure?_congr h
  rcases Rows.failed_of_conclusion hresult with ⟨name, hmem⟩ | hkind
  · unfold conclusion at hresult ⊢
    rw [← hfirst]
    cases hfailure : firstFailure? read with
    | some kind =>
      rw [hfailure] at hresult
      exact hresult
    | none =>
      have := List.findSome?_eq_none_iff.1 hfailure _ hmem
      cases this
  · cases hkind

/-- The present fingerprint of a node that reads what it should is made of what it reads. -/
theorem Coherent.origin_present (henv : env.Answers) (h : s.Coherent)
    (hreads : c.reads = (reading? env s id c).getD []) :
    ∃ read, Origin env s.graph.holder? c.reads (printOf c.expression (c.reads.map s.resultOf))
      c.expression read ∧ read.map (·.2) = c.reads.map s.resultOf ∧
      (∀ reads, reading? env s id c = some reads → read = reads.map s.seen) := by
  cases hreading : reading? env s id c with
  | none =>
    rw [hreading] at hreads
    rw [hreads]
    exact ⟨[], ⟨rfl, by simp, by simp⟩, by simp, fun _ hsome => by cases hsome⟩
  | some reads =>
    rw [hreading] at hreads
    rw [hreads]
    refine ⟨reads.map s.seen, h.origin_reading (henv.nodup _) hreading, ?_, ?_⟩
    · rw [List.map_map]
      rfl
    · rintro _ hsome
      rw [Option.some.inj hsome]

/-- Whatever is kept at rest by a node that is up to date belongs to what it reads. -/
theorem Accounted.honest (henv : env.Answers) (h : Accounted env s []) (hrest : s.AtRest)
    (hupToDate : UpToDate env s k) (hc : s.calculator? k = some c) :
    Placed env s.graph.holder? c ∧ Honest env s.graph.holder? c := by
  have hprint : c.print? = some (printOf c.expression (c.reads.map s.resultOf)) := by
    rcases h.current k c hc with hmem | hawaits | hprint
    · exact absurd hmem (by simp)
    · exact absurd hawaits (hrest.not_awaits k)
    · exact hprint
  obtain ⟨c₁, hc₁, hreads, hdue⟩ := hupToDate
  obtain rfl : c = c₁ := Option.some.inj (hc.symm.trans hc₁)
  obtain ⟨read, horigin, hresults, hseen⟩ := h.coherent.origin_present henv hreads
  refine ⟨fun print hkept => ?_, fun print kind hkept => ?_, fun print result hkept => ?_⟩
  · obtain rfl := Option.some.inj (hkept.symm.trans hprint)
    refine ⟨c.expression, read.map (·.1), _, rfl, horigin.sublist, ?_, ?_⟩
    · rw [List.map_map]
      exact horigin.holders
    · rw [← hresults, List.length_map, List.length_map]
  · have hnone := (h.coherent.published k c print kind hc hkept).2
    unfold Calculator.print? at hprint
    rw [hnone, hkept] at hprint
    obtain rfl : print = _ := Option.some.inj hprint
    exact ⟨c.expression, read, horigin⟩
  · have hresult := h.coherent.cached k c print result hc hkept
    unfold Calculator.print? at hprint
    rw [hkept] at hprint
    obtain rfl : print = _ := Option.some.inj hprint
    refine ⟨c.expression, read, horigin, ?_⟩
    -- The evaluation belongs to the same results, though perhaps by other names.
    obtain ⟨expression, read', heq, hconclusion⟩ := h.evaluated k c hc _ result hkept
    obtain ⟨rfl, hresults'⟩ := printOf_injective heq
    unfold due at hdue
    cases hreading : reading? env s k c with
    | none =>
      rw [hreading] at hreads
      rw [hreads] at hresults hresults'
      obtain rfl : read = [] := by simpa using hresults
      obtain rfl : read' = [] := by simpa using hresults'.symm
      exact hconclusion
    | some reads =>
      rw [hreading] at hdue
      simp only at hdue
      split at hdue
      · rw [hresult] at hdue
        obtain rfl := Except.ok.inj hdue
        exact conclusion_circular (hresults'.symm.trans hresults.symm) hconclusion
      · rw [hseen reads hreading, hdue, hresult]

/-- Whether a node is there without being up to date. -/
def Stale (env : Environment) (s : Sheet) (k : NodeId) : Prop :=
  k ∈ s.graph.nodes.keys ∧ ¬ UpToDate env s k

/-- A registered node that is not stale is up to date. -/
theorem upToDate_of_not_stale (h : ¬ Stale env s k) (hk : k ∈ s.graph.nodes.keys) :
    UpToDate env s k := by
  by_contra hnot
  exact h ⟨hk, hnot⟩

/-- At rest nothing is owed to the nodes that are up to date. -/
theorem Accounted.progress (henv : env.Answers) (h : Accounted env s []) (hrest : s.AtRest)
    (past : List Sheet) (hwatched : ∀ k, watched k → ¬ Stale env s k) :
    Progress env past (Stale env s) watched s [] where
  kept k c hsure hc := by
    have hupToDate := upToDate_of_not_stale hsure (h.coherent.registered hc)
    obtain ⟨hplaced, hhonest⟩ := h.honest henv hrest hupToDate hc
    exact .inl ⟨hplaced, .inl hhonest⟩
  linked k c hk hc := by
    obtain ⟨c₁, hc₁, hreads, -⟩ :=
      upToDate_of_not_stale (hwatched k hk) (h.coherent.registered hc)
    obtain rfl : c = c₁ := Option.some.inj (hc.symm.trans hc₁)
    exact .inr (.inr hreads)
  covered k hk hmem := .inr (.upToDate (upToDate_of_not_stale (hwatched k hk) hmem))

end LiveSheet.Sheet
