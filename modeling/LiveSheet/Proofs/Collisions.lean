import LiveSheet.Proofs.Fidelity
import LiveSheet.Proofs.Work

/-!
# Collisions of fingerprints

When the names in an expression come to mean other nodes, its fingerprint may stay the same: it
holds the results that are read, but neither the nodes that they come from nor the names that these
have. A node collides with what it was before (`Sheet.Collides`) if its kept fingerprint is still
the same although it reads other nodes, or the same ones by other names.

A silent recalculation is one of a faithful node, or else it makes the node collide
(`Verdict.faithful_or_collided`). There is no third way for a kept result to be wrong.
-/

namespace LiveSheet.Sheet

variable {env : Environment} {s s' before : Sheet} {id k : NodeId} {c c' : Calculator}
  {loud : Bool} {past : List Sheet} {holder holder' : String → Option NodeId}

/-- The nodes that a calculator has read, with their headers. -/
def namedReads (s : Sheet) (c : Calculator) : List (Option String × NodeId) :=
  c.reads.map fun a => (s.graph.headerOf a, a)

/-- Whether a node has kept the fingerprint that it had before, although it reads other nodes than
before, or the same ones by other names. -/
def Collides (before s : Sheet) (k : NodeId) : Prop :=
  ∃ c₀ c, before.calculator? k = some c₀ ∧ s.calculator? k = some c ∧
    c.print? = c₀.print? ∧ s.namedReads c ≠ before.namedReads c₀

/-- Whether a node collides with what it was in some earlier sheet. -/
def Collided (past : List Sheet) (s : Sheet) (k : NodeId) : Prop :=
  ∃ before ∈ past, Collides before s k

/-- With one sheet in the past, a node has collided if it collides with that sheet. -/
theorem collided_singleton : Collided [before] s k ↔ Collides before s k := by
  unfold Collided
  simp only [List.mem_singleton, exists_eq_left]

/-- A longer past has all collisions of a shorter one. -/
theorem Collided.mono {past' : List Sheet} (h : Collided past s k) (hpast : past ⊆ past') :
    Collided past' s k := by
  obtain ⟨before, hbefore, hcollides⟩ := h
  exact ⟨before, hpast hbefore, hcollides⟩

/-- Nodes that are read by the same names are the same nodes. -/
theorem reads_eq_of_namedReads_eq (h : s.namedReads c = s'.namedReads c') : c.reads = c'.reads := by
  have := congrArg (List.map Prod.snd) h
  simpa [namedReads, Function.comp_def] using this

/-- What has collided has a calculator. -/
theorem Collided.calculator (h : Collided past s k) : ∃ c, s.calculator? k = some c := by
  obtain ⟨-, -, -, c, -, hc, -⟩ := h
  exact ⟨c, hc⟩

/-- A collision lasts as long as fingerprint, reads and headers do. -/
theorem Collided.congr (h : Collided past s k) (hc : s.calculator? k = some c)
    (hc' : s'.calculator? k = some c') (hprint : c'.print? = c.print?) (hreads : c'.reads = c.reads)
    (hheader : ∀ a ∈ c.reads, s'.graph.headerOf a = s.graph.headerOf a) : Collided past s' k := by
  obtain ⟨before, hbefore, c₀, c₁, hc₀, hc₁, hprint₁, hnamed⟩ := h
  obtain rfl : c = c₁ := Option.some.inj (hc.symm.trans hc₁)
  refine ⟨before, hbefore, c₀, c', hc₀, hc', hprint.trans hprint₁, ?_⟩
  have hsame : s'.namedReads c' = s.namedReads c := by
    unfold namedReads
    rw [hreads]
    exact List.map_congr_left fun a ha => by rw [hheader a ha]
  rwa [hsame]

/-! ### Where fingerprints belong -/

/-- Whether the nodes that a calculator has read are meant by names in the expression of its kept
fingerprint, as many as there are results in it. -/
def Placed (env : Environment) (holder : String → Option NodeId) (c : Calculator) : Prop :=
  ∀ print, c.print? = some print →
    ∃ (expression : String) (names : List String) (results : List Result),
      print = printOf expression results ∧ names.Sublist (env.references expression) ∧
        names.map holder = c.reads.map some ∧ results.length = names.length

/-- Without a fingerprint there is nothing to place. -/
theorem placed_new (env : Environment) (holder : String → Option NodeId) (expression : String)
    (delay : Int) : Placed env holder { expression, delay } := by
  intro print hprint
  cases hprint

/-- What is placed depends on the fingerprint and on what has been read. -/
theorem Placed.congr (h : Placed env holder c) (hprint : c'.print? = c.print?)
    (hreads : c'.reads = c.reads) : Placed env holder c' := by
  intro print hkept
  rw [hreads]
  exact h print (hprint ▸ hkept)

/-- What has been read stays placed as long as its nodes hold their names. -/
theorem Placed.mono (h : Placed env holder c)
    (hsame : ∀ name, ∀ a ∈ c.reads, holder name = some a → holder' name = some a) :
    Placed env holder' c := by
  intro print hkept
  obtain ⟨expression, names, results, hprint, hsublist, hholders, hlength⟩ := h print hkept
  refine ⟨expression, names, results, hprint, hsublist, ?_, hlength⟩
  rw [← hholders]
  refine List.map_congr_left fun name hname => ?_
  have hmem : holder name ∈ c.reads.map some := by
    rw [← hholders]
    exact List.mem_map_of_mem hname
  obtain ⟨a, ha, heq⟩ := List.mem_map.1 hmem
  rw [← heq]
  exact hsame name a ha heq.symm

/-- If the present fingerprint of a node has been kept, the node has read what it should. -/
theorem Placed.reads_eq (h : Placed env s.graph.holder? c) (hcoherent : s.Coherent)
    (hnames : (env.references c.expression).Nodup)
    (hprint : c.print? =
      some (printOf c.expression (((reading? env s id c).getD []).map s.resultOf))) :
    c.reads = (reading? env s id c).getD [] := by
  obtain ⟨expression, names, results, heq, hsublist, hholders, hlength⟩ := h _ hprint
  obtain ⟨rfl, rfl⟩ := printOf_injective heq
  have hcount : c.reads.length = ((reading? env s id c).getD []).length := by
    have := congrArg List.length hholders
    simp only [List.length_map] at this hlength
    omega
  cases hreading : reading? env s id c with
  | none =>
    rw [hreading] at hcount
    exact List.eq_nil_of_length_eq_zero hcount
  | some reads =>
    rw [hreading] at hcount
    obtain ⟨hfilter, -, -⟩ := hcoherent.mem_reading hnames hreading
    refine List.Sublist.eq_of_length ?_ hcount
    rw [eq_filterMap_of_map_eq hholders]
    exact hfilter ▸ hsublist.filterMap s.graph.holder?

/-- What is recalculated has kept its present fingerprint, which is placed where it was made. -/
theorem Verdict.placed (henv : env.Answers) (h : s.Coherent) (hc : s.calculator? id = some c)
    (heffect : Effect s id c' loud s') (hverdict : Verdict env s s' id c c' loud) :
    Placed env s.graph.holder? c' := by
  intro print hkept
  have hprint := hverdict.print_self henv h hc heffect
  rw [hkept] at hprint
  obtain rfl := Option.some.inj hprint
  obtain ⟨hexpression, -, hreads⟩ := hverdict.spec
  cases hreading : reading? env s id c with
  | none =>
    rw [hreading] at hreads
    exact ⟨c'.expression, [], [], by rw [hreads]; rfl, by simp, by rw [hreads]; rfl, rfl⟩
  | some reads =>
    rw [hreading] at hreads
    have horigin := h.origin_reading (henv.nodup c.expression) hreading
    refine ⟨c'.expression, (reads.map s.seen).map (·.1), c'.reads.map s'.resultOf, rfl, ?_, ?_, ?_⟩
    · rw [hexpression]
      exact horigin.sublist
    · rw [hreads, List.map_map]
      exact horigin.holders
    · rw [hreads]
      simp

/-- A silent recalculation finds the present fingerprint kept, and keeps it. -/
theorem Verdict.print_of_silent (henv : env.Answers) (h : s.Coherent)
    (hc : s.calculator? id = some c) (hverdict : Verdict env s s' id c c' loud)
    (hsilent : loud = false) :
    c'.print? = c.print? ∧ c.print? =
      some (printOf c.expression (((reading? env s id c).getD []).map s.resultOf)) := by
  cases hverdict with
  | unresolved reads kind cause =>
    have hpublished : c.published =
        some (printOf c.expression (reads.map s.resultOf), kind) := by simpa using hsilent
    -- With a kind that was published no result is kept, so the fingerprint is the published one.
    have hnone := (h.published id c _ kind hc hpublished).2
    have hreads : (reading? env s id c).getD [] = reads := by
      rcases cause with ⟨hnone, rfl, -⟩ | ⟨hsome, -, -⟩
      · rw [hnone]
        rfl
      · rw [hsome]
        rfl
    unfold Calculator.print?
    rw [hreads, hpublished, hnone]
    exact ⟨rfl, rfl⟩
  | kept reads result hreads hcycle hcached =>
    unfold Calculator.print?
    rw [hreads, hcached]
    exact ⟨rfl, rfl⟩
  | concluded => cases hsilent
  | raised reads e hreads hcycle hresult =>
    exact absurd hresult (henv.conclusion_ne_error _ _)

/-! ### Faithful or colliding -/

/-- Whether a node has not been recalculated since some earlier sheet, in which its kept fingerprint
belonged to what it had read, or had collided before. -/
def Suspect (env : Environment) (past : List Sheet) (k : NodeId) (c : Calculator) : Prop :=
  ∃ before ∈ past, before.Coherent ∧ before.calculator? k = some c ∧
    (Honest env before.graph.holder? c ∨ Collided past before k)

/-- A name that a node should read by means the node whose header it is. -/
theorem Coherent.holder?_of_mem_reading (h : s.Coherent)
    (hnames : (env.references c.expression).Nodup) {a : NodeId} {name : String}
    (ha : a ∈ (reading? env s id c).getD []) (hheader : s.graph.headerOf a = some name) :
    s.graph.holder? name = some a := by
  obtain ⟨name', -, hholder⟩ := h.exists_name hnames ha
  have hheader' := (Graph.headerOf_of_holder? h.nodup hholder).2
  rw [hheader] at hheader'
  rw [Option.some.inj hheader']
  exact hholder

/-- A suspect that reads the same nodes by the same names is honest, if it was. -/
theorem Honest.of_namedReads_eq (hhonest : Honest env before.graph.holder? c)
    (hbefore : before.Coherent) (h : s.Coherent) (hnames : (env.references c.expression).Nodup)
    (hreads : c.reads = (reading? env s id c).getD [])
    (hnamed : s.namedReads c = before.namedReads c) : Honest env s.graph.holder? c := by
  refine hhonest.mono fun name a ha hholder => ?_
  have hheader : s.graph.headerOf a = before.graph.headerOf a := by
    have := List.map_inj_left.1 hnamed a ha
    exact congrArg Prod.fst this
  rw [(Graph.headerOf_of_holder? hbefore.nodup hholder).2] at hheader
  exact h.holder?_of_mem_reading hnames (hreads ▸ ha) hheader

/-- The recalculation of a node that is not faithful is loud, or makes the node collide. -/
theorem Verdict.faithful_or_collided (henv : env.Answers) (h : s.Coherent)
    (hc : s.calculator? id = some c) (heffect : Effect s id c' loud s')
    (hverdict : Verdict env s s' id c c' loud)
    (hkept : Placed env s.graph.holder? c ∧
        (Honest env s.graph.holder? c ∨ Collided past s id) ∨ Suspect env past id c)
    (hsilent : loud = false) : Faithful env s id c ∨ Collided past s' id := by
  have hnames := henv.nodup c.expression
  obtain ⟨hsame, hprint⟩ := hverdict.print_of_silent henv h hc hsilent
  obtain ⟨-, -, hreads⟩ := hverdict.spec
  -- Where the node reads what it should, it is honest or has collided before; otherwise its reads
  -- are those that some sheet had before a removal, and the fingerprint is the same.
  rcases hkept with ⟨hplaced, hhonest | hcollided⟩ | ⟨before, hpast, hbefore, hc₀, hkept⟩
  · exact .inl (hhonest.faithful h hnames)
  · have hreads' : c'.reads = c.reads := by rw [hreads, hplaced.reads_eq h hnames hprint]
    exact .inr (hcollided.congr hc heffect.calculator_self hsame hreads'
      fun a _ => heffect.headerOf a)
  · by_cases hnamed : s'.namedReads c' = before.namedReads c
    · have hreads' : c'.reads = c.reads := reads_eq_of_namedReads_eq hnamed
      have hnamed' : s.namedReads c = before.namedReads c := by
        rw [← hnamed]
        unfold namedReads
        rw [hreads']
        exact List.map_congr_left fun a _ => by rw [heffect.headerOf]
      rcases hkept with hhonest | hcollided
      · refine .inl (Honest.faithful ?_ h hnames)
        exact hhonest.of_namedReads_eq hbefore h hnames (hreads'.symm.trans hreads) hnamed'
      · obtain ⟨before', hpast', c₁, c₂, hc₁, hc₂, hprint₁, hdiffer⟩ := hcollided
        obtain rfl : c = c₂ := Option.some.inj (hc₀.symm.trans hc₂)
        exact .inr ⟨before', hpast', c₁, c', hc₁, heffect.calculator_self, hsame.trans hprint₁,
          hnamed ▸ hdiffer⟩
    · exact .inr ⟨before, hpast, c, c', hc₀, heffect.calculator_self, hsame, hnamed⟩

end LiveSheet.Sheet
