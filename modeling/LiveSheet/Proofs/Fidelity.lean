import LiveSheet.Proofs.Bookkeeping
import LiveSheet.Proofs.Fingerprint

/-!
# What kept results belong to

A fingerprint does not say which nodes the results in it come from. A calculator is honest
(`Sheet.Honest`) if the nodes that it has read are those that the names of its kept fingerprint mean
now. What an honest calculator has kept is faithful (`Honest.faithful`), because expression and
results can be told from a fingerprint, so a recalculation that finds its fingerprint again finds
the nodes and the names again too. A recalculation of a faithful node makes its calculator honest,
and honesty lasts for as long as the names mean the same.
-/

namespace LiveSheet.Sheet

variable {env : Environment} {s s' : Sheet} {id k : NodeId} {c c' : Calculator} {loud : Bool}
  {holder : String → Option NodeId}

/-- The names with their results that a fingerprint was made of, where `holder` gives the nodes that
were read under these names. -/
structure Origin (env : Environment) (holder : String → Option NodeId) (reads : List NodeId)
    (print expression : String) (read : List (String × Result)) : Prop where
  print_eq : print = printOf expression (read.map (·.2))
  sublist : (read.map (·.1)).Sublist (env.references expression)
  holders : read.map (holder ·.1) = reads.map some

/-- Whether the nodes that a calculator has read are those that its kept fingerprint was made of, as
far as the names mean them now. -/
structure Honest (env : Environment) (holder : String → Option NodeId) (c : Calculator) : Prop where
  published : ∀ print kind, c.published = some (print, kind) →
    ∃ expression read, Origin env holder c.reads print expression read
  cached : ∀ print result, c.cached = some (print, result) →
    ∃ expression read, Origin env holder c.reads print expression read ∧
      conclusion env expression read = .ok result

/-- A calculator that has not computed anything is honest. -/
theorem honest_new (env : Environment) (holder : String → Option NodeId) (expression : String)
    (delay : Int) : Honest env holder { expression, delay } where
  published _ _ h := by cases h
  cached _ _ h := by cases h

/-- Honesty does not depend on the expression that is to be computed next. -/
theorem Honest.congr (h : Honest env holder c) (hreads : c'.reads = c.reads)
    (hcached : c'.cached = c.cached) (hpublished : c'.published = c.published) :
    Honest env holder c' where
  published print kind hkept := by
    rw [hreads]
    exact h.published print kind (hpublished ▸ hkept)
  cached print result hkept := by
    rw [hreads]
    exact h.cached print result (hcached ▸ hkept)

/-- An origin stays one as long as the nodes that have been read hold their names. -/
theorem Origin.congr {reads : List NodeId} {print expression : String}
    {read : List (String × Result)} (h : Origin env holder reads print expression read)
    {holder' : String → Option NodeId}
    (hsame : ∀ name, ∀ a ∈ reads, holder name = some a → holder' name = some a) :
    Origin env holder' reads print expression read where
  print_eq := h.print_eq
  sublist := h.sublist
  holders := by
    rw [← h.holders]
    refine List.map_congr_left fun entry hentry => ?_
    have hmem : holder entry.1 ∈ reads.map some := by
      rw [← h.holders]
      exact List.mem_map_of_mem hentry
    obtain ⟨a, ha, heq⟩ := List.mem_map.1 hmem
    rw [← heq]
    exact hsame entry.1 a ha heq.symm

/-- A calculator stays honest as long as the names of the nodes that it has read mean them. -/
theorem Honest.mono (h : Honest env holder c) {holder' : String → Option NodeId}
    (hsame : ∀ name, ∀ a ∈ c.reads, holder name = some a → holder' name = some a) :
    Honest env holder' c where
  published print kind hkept := by
    obtain ⟨expression, read, horigin⟩ := h.published print kind hkept
    exact ⟨expression, read, horigin.congr hsame⟩
  cached print result hkept := by
    obtain ⟨expression, read, horigin, hresult⟩ := h.cached print result hkept
    exact ⟨expression, read, horigin.congr hsame, hresult⟩

/-! ### Honest calculators are faithful -/

/-- The headers of what a node should read are the names in its expression that mean a node. -/
theorem Coherent.headers_reading (h : s.Coherent) (hnames : (env.references c.expression).Nodup)
    {reads : List NodeId} (hreads : reading? env s id c = some reads) :
    (reads.map s.seen).map (·.1) =
      (env.references c.expression).filter fun name => (s.graph.holder? name).isSome := by
  rw [List.map_map, (h.mem_reading hnames hreads).1]
  generalize env.references c.expression = names
  induction names with
  | nil => rfl
  | cons name names ih =>
    cases hholder : s.graph.holder? name with
    | none => rw [List.filterMap_cons_none hholder, List.filter_cons_of_neg (by simp [hholder]), ih]
    | some a =>
      have hheader : (s.seen a).1 = name := by
        unfold seen
        rw [(Graph.headerOf_of_holder? h.nodup hholder).2]
        rfl
      rw [List.filterMap_cons_some hholder, List.filter_cons_of_pos (by simp [hholder]),
        List.map_cons, ih]
      exact congrArg (· :: _) hheader

/-- The names that an expression reads, with the results that they show. -/
theorem Coherent.origin_reading (h : s.Coherent) (hnames : (env.references c.expression).Nodup)
    {reads : List NodeId} (hreads : reading? env s id c = some reads) :
    Origin env s.graph.holder? reads (printOf c.expression (reads.map s.resultOf)) c.expression
      (reads.map s.seen) := by
  refine ⟨?_, ?_, ?_⟩
  · rw [List.map_map]
    rfl
  · rw [h.headers_reading hnames hreads]
    exact List.filter_sublist
  · rw [List.map_map]
    refine List.map_congr_left fun a ha => ?_
    rw [(h.mem_reading hnames hreads).1] at ha
    obtain ⟨name, -, hholder⟩ := List.mem_filterMap.1 ha
    change s.graph.holder? (s.seen a).1 = some a
    unfold seen
    rw [(Graph.headerOf_of_holder? h.nodup hholder).2]
    exact hholder

/-- Nodes that are meant by some names are all that these names mean. -/
theorem eq_filterMap_of_map_eq {names : List String} {reads : List NodeId}
    (h : names.map holder = reads.map some) : reads = names.filterMap holder := by
  have hsome : reads = (reads.map some).filterMap id := by
    rw [List.filterMap_map]
    exact (List.filterMap_some).symm
  rw [hsome, ← h, List.filterMap_map]
  rfl

/-- The nodes that are read under the names of a fingerprint are those that the names mean. -/
theorem Origin.reads_eq {reads : List NodeId} {print expression : String}
    {read : List (String × Result)} (h : Origin env holder reads print expression read) :
    reads = (read.map (·.1)).filterMap holder := by
  refine eq_filterMap_of_map_eq ?_
  rw [List.map_map]
  exact h.holders

/-- What nodes show is determined by the names that mean them and by their results. -/
theorem Coherent.eq_map_seen (h : s.Coherent) {reads : List NodeId} {read : List (String × Result)}
    (hholders : read.map (s.graph.holder? ·.1) = reads.map some)
    (hresults : reads.map s.resultOf = read.map (·.2)) : read = reads.map s.seen := by
  induction reads generalizing read with
  | nil => simpa using hholders
  | cons a reads ih =>
    cases read with
    | nil => simp at hresults
    | cons entry read =>
      obtain ⟨hholder, hholders⟩ := List.cons.inj hholders
      obtain ⟨hresult, hresults⟩ := List.cons.inj hresults
      have hheader : (s.seen a).1 = entry.1 := by
        unfold seen
        rw [(Graph.headerOf_of_holder? h.nodup hholder).2]
        rfl
      rw [List.map_cons, ← ih hholders hresults]
      exact congrArg (· :: read) (Prod.ext hheader.symm hresult.symm)

/-- If the present fingerprint of a node was made before, it was made of what the node reads now. -/
theorem Origin.eq_reading (h : s.Coherent) (hnames : (env.references c.expression).Nodup)
    {reads before : List NodeId} {expression : String} {read : List (String × Result)}
    (hreads : reading? env s id c = some reads)
    (horigin : Origin env s.graph.holder? before (printOf c.expression (reads.map s.resultOf))
      expression read) :
    expression = c.expression ∧ before = reads ∧ read = reads.map s.seen := by
  obtain ⟨hexpression, hresults⟩ := printOf_injective horigin.print_eq
  obtain ⟨hfilter, -, -⟩ := h.mem_reading hnames hreads
  have hlength : read.length = reads.length := by
    have := congrArg List.length hresults
    simpa using this.symm
  -- The names of the fingerprint are all the names that mean a node.
  have hbefore : before = reads := by
    have hsublist : before.Sublist reads := by
      rw [horigin.reads_eq, hfilter, hexpression]
      exact horigin.sublist.filterMap s.graph.holder?
    refine hsublist.eq_of_length ?_
    have := congrArg List.length horigin.holders
    simp only [List.length_map] at this
    omega
  refine ⟨hexpression.symm, hbefore, ?_⟩
  subst hbefore
  exact h.eq_map_seen horigin.holders hresults

/-- What an honest calculator has kept is faithful. -/
theorem Honest.faithful (hhonest : Honest env s.graph.holder? c) (h : s.Coherent)
    (hnames : (env.references c.expression).Nodup) : Faithful env s id c where
  published kind hkept := by
    obtain ⟨expression, read, horigin⟩ := hhonest.published _ kind hkept
    cases hreads : reading? env s id c with
    | none =>
      rw [hreads] at horigin
      obtain ⟨-, hresults⟩ := printOf_injective horigin.print_eq
      have hnil : read = [] := List.map_eq_nil_iff.1 hresults.symm
      have := horigin.reads_eq
      rw [hnil] at this
      exact this
    | some reads =>
      rw [hreads] at horigin
      exact (horigin.eq_reading h hnames hreads).2.1
  cached reads result hreads hkept := by
    obtain ⟨expression, read, horigin, hresult⟩ := hhonest.cached _ result hkept
    obtain ⟨rfl, hbefore, rfl⟩ := horigin.eq_reading h hnames hreads
    exact ⟨hbefore, hresult⟩

/-! ### Recalculated nodes are honest -/

/-- A recalculation makes the calculator of its node honest, if it is loud or the node is
faithful. -/
theorem Verdict.honest (henv : env.Answers) (h : s.Coherent) (hc : s.calculator? id = some c)
    (hfaithful : loud = false → Faithful env s id c) (hverdict : Verdict env s s' id c c' loud) :
    Honest env s.graph.holder? c' := by
  have hnames := henv.nodup c.expression
  cases hverdict with
  | unresolved reads kind cause =>
    refine ⟨fun print kind' hkept => ?_, fun _ _ hkept => by cases hkept⟩
    obtain ⟨rfl, rfl⟩ := Prod.mk.inj (Option.some.inj hkept)
    rcases cause with ⟨-, rfl, -⟩ | ⟨hsome, -, -⟩
    · exact ⟨c.expression, [], rfl, by simp, by simp⟩
    · exact ⟨c.expression, reads.map s.seen, h.origin_reading hnames hsome⟩
  | kept reads result hsome hcycle hcached =>
    refine ⟨fun print kind hkept => ?_, fun print result' hkept => ?_⟩
    · -- With a result that was kept no kind is published.
      have hnone := (h.published id c print kind hc hkept).2
      rw [hcached] at hnone
      cases hnone
    · obtain ⟨rfl, rfl⟩ := Prod.mk.inj (Option.some.inj (hcached.symm.trans hkept))
      exact ⟨c.expression, reads.map s.seen, h.origin_reading hnames hsome,
        ((hfaithful rfl).cached reads result hsome hcached).2⟩
  | concluded reads result hsome hcycle hnew hresult =>
    refine ⟨fun _ _ hkept => (by cases hkept), fun print result' hkept => ?_⟩
    obtain ⟨rfl, rfl⟩ := Prod.mk.inj (Option.some.inj hkept)
    exact ⟨c.expression, reads.map s.seen, h.origin_reading hnames hsome, hresult⟩
  | raised reads e hsome hcycle hresult =>
    exact absurd hresult (henv.conclusion_ne_error _ _)

end LiveSheet.Sheet
