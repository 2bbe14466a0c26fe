import LiveSheet.Proofs.Bookkeeping

/-!
# The worker and its accounts

The worker does the tasks of the agenda one by one, and a task recalculates some nodes one after the
other. `Keeps` says what it takes for a property of sheets to last while the worker is at it, where
the nodes that are yet to be recalculated in the task at hand are listed apart.

Whatever has been done to a sheet, its accounts are kept (`Sheet.Accounted`): every node reads nodes
that are there, and has kept the fingerprint of what it reads, unless its recalculation is still to
come; and what is kept of an evaluation is what the evaluation came to.
-/

namespace LiveSheet

open Relation

/-- The fingerprint that a calculator has kept. -/
def Calculator.print? (c : Calculator) : Option String :=
  (c.cached.map (·.1)).or (c.published.map (·.1))

/-- The nodes that a task recalculates. -/
def SheetTask.ids : SheetTask → List NodeId
  | recalculate id => [id]
  | follow ids => ids

namespace Sheet

/-- Brings some nodes up to date, one after the other. -/
def recalculateEach (env : Environment) (s : Sheet) (ids : List NodeId) : Sheet :=
  ids.foldl (fun s id => (recalculate env s id).1) s

/-- A task recalculates its nodes. -/
theorem perform_eq (env : Environment) (task : SheetTask) (s : Sheet) :
    perform env task s = recalculateEach env s task.ids := by
  cases task <;> rfl

/-! ### What is on the agenda -/

/-- Whether an edit of a node waits for its time or in the queue. -/
def Waiting (s : Sheet) (k : NodeId) : Prop :=
  .recalculate k ∈ s.agenda.queue ∨ ∃ t ∈ s.agenda.timers, t.key = k

/-- Whether a node will be recalculated. -/
def Awaits (s : Sheet) (k : NodeId) : Prop :=
  s.Waiting k ∨ ∃ ids, .follow ids ∈ s.agenda.queue ∧ k ∈ ids

/-- Whether nothing is left to do. -/
def AtRest (s : Sheet) : Prop :=
  s.agenda.queue = [] ∧ s.agenda.timers = []

/-- Whether a node has read a node that is not there any more. -/
def ReadsMissing (s : Sheet) (k : NodeId) : Prop :=
  ∃ c, s.calculator? k = some c ∧ ∃ a ∈ c.reads, a ∉ s.graph.nodes.keys

variable {env : Environment} {s s' : Sheet} {id k : NodeId} {c c' : Calculator} {loud : Bool}

/-- At rest no node awaits a recalculation. -/
theorem AtRest.not_awaits (h : s.AtRest) (k : NodeId) : ¬ s.Awaits k := by
  unfold Awaits Waiting
  rw [h.1, h.2]
  simp

/-- A recalculation adds nothing to the agenda but the nodes that follow. -/
theorem Effect.agenda_eq (heffect : Effect s id c' loud s') :
    s'.agenda.timers = s.agenda.timers ∧ s'.agenda.now = s.agenda.now ∧
      (s'.agenda.queue = s.agenda.queue ∨
        loud = true ∧
          s'.agenda.queue = s.agenda.queue ++ [.follow (s'.graph.wave id).callbacks]) := by
  cases hloud : loud with
  | false =>
    rw [heffect.silent hloud]
    exact ⟨rfl, rfl, .inl rfl⟩
  | true =>
    rw [heffect.loud hloud]
    split
    · exact ⟨rfl, rfl, .inl rfl⟩
    · exact ⟨rfl, rfl, .inr ⟨rfl, rfl⟩⟩

/-- A recalculation starts and ends no edit. -/
theorem Effect.waiting_iff (heffect : Effect s id c' loud s') (k : NodeId) :
    s'.Waiting k ↔ s.Waiting k := by
  obtain ⟨htimers, -, hqueue⟩ := heffect.agenda_eq
  unfold Waiting
  rw [htimers]
  rcases hqueue with hqueue | ⟨-, hqueue⟩
  · rw [hqueue]
  · rw [hqueue]
    simp

/-- What awaits a recalculation goes on to when another node is recalculated. -/
theorem Effect.awaits (heffect : Effect s id c' loud s') (h : s.Awaits k) : s'.Awaits k := by
  rcases h with hwaiting | ⟨ids, hmem, hk⟩
  · exact .inl ((heffect.waiting_iff k).2 hwaiting)
  · refine .inr ⟨ids, ?_, hk⟩
    obtain ⟨-, -, hqueue | ⟨-, hqueue⟩⟩ := heffect.agenda_eq
    · rw [hqueue]
      exact hmem
    · rw [hqueue]
      exact List.mem_append_left _ hmem

/-- Nothing else is added to the agenda. -/
theorem Effect.of_awaits (heffect : Effect s id c' loud s') (h : s'.Awaits k) :
    s.Awaits k ∨ k ∈ (s'.graph.wave id).callbacks := by
  rcases h with hwaiting | ⟨ids, hmem, hk⟩
  · exact .inl (.inl ((heffect.waiting_iff k).1 hwaiting))
  · obtain ⟨-, -, hqueue | ⟨-, hqueue⟩⟩ := heffect.agenda_eq
    · exact .inl (.inr ⟨ids, hqueue ▸ hmem, hk⟩)
    · rw [hqueue] at hmem
      rcases List.mem_append.1 hmem with hmem | hmem
      · exact .inl (.inr ⟨ids, hmem, hk⟩)
      · obtain rfl := SheetTask.follow.inj (List.mem_singleton.1 hmem)
        exact .inr hk

/-- What depends on a node that is loud will be recalculated. -/
theorem Effect.awaits_of_reaches (heffect : Effect s id c' loud s') (h' : s'.Coherent)
    (hloud : loud = true) (hk : k ∈ s'.graph.nodes.keys) (hne : k ≠ id)
    (hreach : TransGen s'.graph.Reads k id) : s'.Awaits k := by
  have hmem : k ∈ (s'.graph.wave id).callbacks :=
    (Graph.mem_wave_callbacks h'.mirrored fun _ _ => h'.callback).2 ⟨hk, hne, hreach⟩
  refine .inr ⟨(s'.graph.wave id).callbacks, ?_, hmem⟩
  rw [heffect.loud hloud, if_neg (by simpa using List.ne_nil_of_mem hmem)]
  simp [Agenda.schedule]

/-! ### What the worker keeps -/

/-- What is said of a sheet and of the nodes that are yet to be recalculated in the task at hand, if
every step of the worker keeps it. -/
structure Keeps (env : Environment) (P : Sheet → List NodeId → Prop) : Prop where
  recalculate : ∀ {s id todo}, P s (id :: todo) → P (Sheet.recalculate env s id).1 todo
  pop : ∀ {s task rest}, P s [] → s.agenda.queue = task :: rest →
    P { s with agenda := { s.agenda with queue := rest } } task.ids
  advance : ∀ {s due}, P s [] → s.agenda.nextDue? = some due →
    P { s with agenda := s.agenda.advance due } []
  pause : ∀ {s} moment, P s [] → P { s with agenda := { s.agenda with now := moment } } []

section

variable {P : Sheet → List NodeId → Prop}

/-- Recalculations one after another keep it. -/
theorem Keeps.recalculateEach (hkeeps : Keeps env P) {ids todo : List NodeId}
    (h : P s (ids ++ todo)) : P (s.recalculateEach env ids) todo := by
  induction ids generalizing s with
  | nil => exact h
  | cons id ids ih => exact ih (hkeeps.recalculate h)

/-- Every step of the worker keeps it. -/
theorem Keeps.step (hkeeps : Keeps env P) (h : P s []) {limit : Option Int}
    (hstep : (worker env).step? limit s = some s') : P s' [] := by
  unfold Worker.step? at hstep
  simp only [worker] at hstep
  split at hstep
  · next task rest hqueue =>
    obtain rfl := Option.some.inj hstep
    rw [perform_eq]
    refine hkeeps.recalculateEach ?_
    rw [List.append_nil]
    exact hkeeps.pop h hqueue
  · split at hstep
    · next due hdue =>
      split at hstep
      · obtain rfl := Option.some.inj hstep
        exact hkeeps.advance h hdue
      · cases hstep
    · cases hstep

/-- So does every run of the worker. -/
theorem Keeps.run (hkeeps : Keeps env P) (h : P s []) (limit : Option Int) (steps : Nat) :
    P ((worker env).run limit steps s) [] := by
  induction steps generalizing s with
  | zero => exact h
  | succ steps ih =>
    unfold Worker.run
    split
    · next s' hstep => exact ih (hkeeps.step h hstep)
    · exact h

/-- Letting the worker settle keeps it. -/
theorem Keeps.settle (hkeeps : Keeps env P) (h : P s []) (steps : Nat) :
    P ((worker env).settle steps s) [] :=
  hkeeps.run h none steps

/-- Letting time pass keeps it. -/
theorem Keeps.wait (hkeeps : Keeps env P) (h : P s []) (steps : Nat) (span : Int) :
    P ((worker env).wait steps span s) [] :=
  hkeeps.pause _ (hkeeps.run h _ steps)

end

/-- What is on the agenda stays there when the time goes on. -/
theorem Coherent.waiting_advance (h : s.Coherent) (due : Int) (k : NodeId) :
    ({ s with agenda := s.agenda.advance due } : Sheet).Waiting k ↔ s.Waiting k := by
  unfold Waiting Agenda.advance
  simp only [List.mem_append, List.mem_map, List.mem_mergeSort, List.mem_filter, decide_eq_true_eq]
  constructor
  · rintro ((hqueue | ⟨t, ⟨ht, -⟩, htask⟩) | ⟨t, ⟨ht, -⟩, hkey⟩)
    · exact .inl hqueue
    · have := h.timers t ht
      rw [htask] at this
      exact .inr ⟨t, ht, (SheetTask.recalculate.inj this).symm⟩
    · exact .inr ⟨t, ht, hkey⟩
  · rintro (hqueue | ⟨t, ht, rfl⟩)
    · exact .inl (.inl hqueue)
    · rcases Int.lt_or_le due t.due with hlater | hnow
      · exact .inr ⟨t, ⟨ht, hlater⟩, rfl⟩
      · exact .inl (.inr ⟨t, ⟨ht, hnow⟩, h.timers t ht⟩)

/-- What leaves the queue is recalculated at once. -/
theorem Awaits.pop {task : SheetTask} {rest : List SheetTask}
    (hqueue : s.agenda.queue = task :: rest) :
    (s.Waiting k → k ∈ task.ids ∨
      ({ s with agenda := { s.agenda with queue := rest } } : Sheet).Waiting k) ∧
    (s.Awaits k → k ∈ task.ids ∨
      ({ s with agenda := { s.agenda with queue := rest } } : Sheet).Awaits k) := by
  have hwaiting : s.Waiting k → k ∈ task.ids ∨
      ({ s with agenda := { s.agenda with queue := rest } } : Sheet).Waiting k := by
    rintro (hmem | htimer)
    · rw [hqueue] at hmem
      rcases List.mem_cons.1 hmem with rfl | hmem
      · exact .inl (by simp [SheetTask.ids])
      · exact .inr (.inl hmem)
    · exact .inr (.inr htimer)
  refine ⟨hwaiting, ?_⟩
  rintro (hwait | ⟨ids, hmem, hk⟩)
  · exact (hwaiting hwait).imp_right .inl
  · rw [hqueue] at hmem
    rcases List.mem_cons.1 hmem with rfl | hmem
    · exact .inl hk
    · exact .inr (.inr ⟨ids, hmem, hk⟩)

/-- The same nodes await a recalculation when time goes on to the next timer. -/
theorem Coherent.awaits_advance (h : s.Coherent) (due : Int) (k : NodeId) :
    ({ s with agenda := s.agenda.advance due } : Sheet).Awaits k ↔ s.Awaits k := by
  refine or_congr (h.waiting_advance due k) (exists_congr fun ids => and_congr_left fun _ => ?_)
  refine List.mem_append.trans (or_iff_left fun hfired => ?_)
  -- A timer brings nothing into the queue but its own recalculation.
  obtain ⟨t, ht, htask⟩ := List.mem_map.1 hfired
  have := h.timers t (List.mem_filter.1 (List.mem_mergeSort.1 ht)).1
  rw [htask] at this
  cases this

/-- Nothing is recalculated at once, or left in the queue, that was not on the agenda. -/
theorem Awaits.of_pop {task : SheetTask} {rest : List SheetTask}
    (hqueue : s.agenda.queue = task :: rest)
    (h : k ∈ task.ids ∨
      ({ s with agenda := { s.agenda with queue := rest } } : Sheet).Awaits k) : s.Awaits k := by
  have hhead : task ∈ s.agenda.queue := hqueue ▸ List.mem_cons_self ..
  have htail : ∀ t ∈ rest, t ∈ s.agenda.queue := fun t ht => hqueue ▸ List.mem_cons_of_mem _ ht
  rcases h with hmem | (hwaiting | htimer) | ⟨ids, hmem, hk⟩
  · cases task with
    | recalculate id =>
      obtain rfl := List.mem_singleton.1 hmem
      exact .inl (.inl hhead)
    | follow ids => exact .inr ⟨ids, hhead, hmem⟩
  · exact .inl (.inl (htail _ hwaiting))
  · exact .inl (.inr htimer)
  · exact .inr ⟨ids, htail _ hmem, hk⟩

/-! ### Coherent sheets at work -/

/-- Coherence asks nothing of the agenda but that timers recalculate their nodes. -/
theorem Coherent.withAgenda (h : s.Coherent) {agenda : Agenda NodeId SheetTask}
    (htimers : ∀ t ∈ agenda.timers, t.task = .recalculate t.key) :
    ({ s with agenda } : Sheet).Coherent :=
  { h with timers := htimers }

/-- A recalculation of a node that is not there does nothing. -/
theorem recalculate_of_none (hc : s.calculator? id = none) : (recalculate env s id).1 = s := by
  rw [recalculate, hc]

/-- What remains to be recalculated without a node that is not there. -/
theorem mem_of_calculator?_none {todo : List NodeId} {ck : Calculator}
    (hc : s.calculator? id = none) (hk : s.calculator? k = some ck) (hmem : k ∈ id :: todo) :
    k ∈ todo := by
  rcases List.mem_cons.1 hmem with rfl | hmem
  · rw [hc] at hk
    cases hk
  · exact hmem

/-- A coherent sheet stays so when a node is recalculated. -/
theorem Coherent.recalculate (h : s.Coherent) (hnames : ∀ e, (env.references e).Nodup)
    (id : NodeId) : (recalculate env s id).1.Coherent := by
  cases hc : s.calculator? id with
  | none =>
    rw [recalculate_of_none hc]
    exact h
  | some c =>
    obtain ⟨c', loud, heffect, hverdict⟩ := h.recalculate_spec (hnames c.expression) hc
    exact heffect.coherent h (hnames c.expression) hc hverdict

/-- The evaluation of a node comes to a result. -/
theorem Coherent.reevaluate_ok (henv : env.Answers) (h : s.Coherent)
    (hc : s.calculator? id = some c) {reads : List NodeId}
    (hreads : ∀ a ∈ reads, a ∈ s.graph.nodes.keys) (print : String) :
    ∃ result, (reevaluate env (s.relink id c.reads reads) id { c with reads } print).2 =
      .ok result := by
  unfold reevaluate
  simp only [h.gather_relink hc hreads]
  cases hfailure : firstFailure? (reads.map s.seen) with
  | some kind => exact ⟨.failed kind, rfl⟩
  | none =>
    obtain ⟨result, hresult⟩ := henv.total c.expression _ hfailure
    refine ⟨result, ?_⟩
    simp only [hresult]

/-- A recalculation does not raise. -/
theorem Coherent.recalculate_ok (henv : env.Answers) (h : s.Coherent) (id : NodeId) :
    ∃ result, (Sheet.recalculate env s id).2 = .ok result := by
  cases hc : s.calculator? id with
  | none => exact ⟨default, by rw [Sheet.recalculate, hc]⟩
  | some c =>
    have hnode : (s.graph.node? id).isNone = false := by
      obtain ⟨record, hrecord, -⟩ := h.shown id c hc
      rw [hrecord]
      rfl
    rw [Sheet.recalculate, hc]
    simp only [hnode, Bool.false_eq_true, if_false]
    unfold updateDependencies
    rw [hc]
    cases hreading : reading? env s id c with
    | none =>
      simp only [show resolve? s.graph id [] (env.references c.expression) = none from hreading]
      exact ⟨_, rfl⟩
    | some reads =>
      have hreads := (h.mem_reading (henv.nodup _) hreading).2.2
      simp only [show resolve? s.graph id [] (env.references c.expression) = some reads
        from hreading]
      -- A cycle is a result too, and what is left is to evaluate or to take what is kept.
      by_cases hcycle : (s.relink id c.reads reads).graph.reachesCycle id = true
      · simp only [hcycle, if_true]
        exact ⟨_, rfl⟩
      · simp only [if_neg hcycle, calculator?_relink_self hc reads, Option.getD_some]
        split
        · split
          · exact ⟨_, rfl⟩
          · exact h.reevaluate_ok henv hc hreads _
        · exact h.reevaluate_ok henv hc hreads _

/-- The worker keeps a sheet coherent. -/
theorem keeps_coherent (hnames : ∀ e, (env.references e).Nodup) :
    Keeps env fun s _ => s.Coherent where
  recalculate h := h.recalculate hnames _
  pop h _ := h.withAgenda h.timers
  advance h _ := h.withAgenda fun t ht => h.timers t (List.mem_filter.1 ht).1
  pause _ h := h.withAgenda h.timers

/-! ### Accounts -/

/-- Whether what is kept of an evaluation is what the evaluation came to, under the names that it
had then. -/
def Evaluated (env : Environment) (c : Calculator) : Prop :=
  ∀ print result, c.cached = some (print, result) → ∃ expression read,
    print = printOf expression (read.map (·.2)) ∧ conclusion env expression read = .ok result

/-- What is true of every sheet, while the nodes `todo` are recalculated one after the other. -/
structure Accounted (env : Environment) (s : Sheet) (todo : List NodeId) : Prop where
  coherent : s.Coherent
  registered : ∀ k c, s.calculator? k = some c → k ∈ todo ∨ ∀ a ∈ c.reads, a ∈ s.graph.nodes.keys
  current : ∀ k c, s.calculator? k = some c → k ∈ todo ∨ s.Awaits k ∨
    c.print? = some (printOf c.expression (c.reads.map s.resultOf))
  evaluated : ∀ k c, s.calculator? k = some c → Evaluated env c

/-- A node has kept the fingerprint of what it reads after its recalculation. -/
theorem Verdict.print_self (henv : env.Answers) (h : s.Coherent) (hc : s.calculator? id = some c)
    (heffect : Effect s id c' loud s') (hverdict : Verdict env s s' id c c' loud) :
    c'.print? = some (printOf c'.expression (c'.reads.map s'.resultOf)) := by
  have hnames := henv.nodup c.expression
  have hresults : c'.reads.map s'.resultOf = c'.reads.map s.resultOf := by
    refine List.map_congr_left fun a ha => heffect.resultOf_other ?_
    rintro rfl
    rw [hverdict.spec.2.2] at ha
    exact (h.mem_getD_reading hnames).1 ha
  rw [hresults]
  cases hverdict with
  | unresolved reads kind cause => rfl
  | kept reads result hreads hcycle hcached =>
    unfold Calculator.print?
    rw [hcached]
    rfl
  | concluded reads result => rfl
  | raised reads e hreads hcycle hresult =>
    exact absurd hresult (henv.conclusion_ne_error _ _)

/-- What a node keeps is evaluated. -/
theorem Verdict.evaluated (hevaluated : Evaluated env c)
    (hverdict : Verdict env s s' id c c' loud) : Evaluated env c' := by
  cases hverdict with
  | unresolved reads kind cause => intro print result hcached; cases hcached
  | kept reads result hreads hcycle hcached => exact hevaluated
  | concluded reads result hreads hcycle hnew hresult =>
    intro print result' hcached
    obtain ⟨rfl, rfl⟩ := Prod.mk.inj (Option.some.inj hcached)
    refine ⟨c.expression, reads.map s.seen, ?_, hresult⟩
    rw [List.map_map]
    rfl
  | raised reads e hreads hcycle hresult => exact hevaluated

/-- What another node has kept stays current, or it will be recalculated. -/
theorem Effect.current_other (heffect : Effect s id c' loud s') (h : s.Coherent)
    (h' : s'.Coherent) (hc : s.calculator? id = some c)
    (hverdict : Verdict env s s' id c c' loud) {ck : Calculator} (hk : k ≠ id)
    (hck : s.calculator? k = some ck)
    (hprint : ck.print? = some (printOf ck.expression (ck.reads.map s.resultOf))) :
    s'.Awaits k ∨ ck.print? = some (printOf ck.expression (ck.reads.map s'.resultOf)) := by
  by_cases hreads : id ∈ ck.reads
  · cases hloud : loud with
    | true =>
      have hck' : s'.calculator? k = some ck := (heffect.calculator_other hk).trans hck
      have hedge : s'.graph.Reads k id := (h'.edges k id).2
        ⟨ck, hck', hreads, h'.registered heffect.calculator_self⟩
      exact .inl (heffect.awaits_of_reaches h' hloud (h'.registered hck') hk (.single hedge))
    | false =>
      refine .inr (hprint.trans ?_)
      have hsame : ∀ a, s'.resultOf a = s.resultOf a := fun a =>
        congrArg Prod.snd (heffect.seen_of_eq hc (hverdict.result_of_silent h hc hloud) a)
      rw [List.map_congr_left fun a _ => hsame a]
  · refine .inr (hprint.trans ?_)
    have hsame : ck.reads.map s'.resultOf = ck.reads.map s.resultOf := by
      refine List.map_congr_left fun a ha => heffect.resultOf_other ?_
      rintro rfl
      exact hreads ha
    rw [hsame]

/-- The accounts after the recalculation of the first node that is to be recalculated. -/
theorem Accounted.recalculate (henv : env.Answers) {todo : List NodeId}
    (h : Accounted env s (id :: todo)) : Accounted env (recalculate env s id).1 todo := by
  have hcoherent := h.coherent
  cases hc : s.calculator? id with
  | none =>
    rw [recalculate_of_none hc]
    exact ⟨hcoherent, fun k c hk => (h.registered k c hk).imp_left (mem_of_calculator?_none hc hk),
      fun k c hk => (h.current k c hk).imp_left (mem_of_calculator?_none hc hk), h.evaluated⟩
  | some c =>
    have hnames := henv.nodup c.expression
    obtain ⟨c', loud, heffect, hverdict⟩ := hcoherent.recalculate_spec hnames hc
    generalize (Sheet.recalculate env s id).1 = s' at heffect hverdict
    -- The node itself is settled by the verdict, and all others by what the effect leaves alone.
    have hcoherent' := heffect.coherent hcoherent hnames hc hverdict
    refine ⟨hcoherent', fun k ck hk => ?_, fun k ck hk => ?_, fun k ck hk => ?_⟩
    · rw [heffect.nodeKeys]
      by_cases hne : k = id
      · subst hne
        obtain rfl := heffect.eq_of_calculator hk
        rw [hverdict.spec.2.2]
        exact .inr (hcoherent.mem_getD_reading hnames).2
      · rw [heffect.calculator_other hne] at hk
        exact (h.registered k ck hk).imp_left fun hmem => (List.mem_cons.1 hmem).resolve_left hne
    · by_cases hne : k = id
      · subst hne
        obtain rfl := heffect.eq_of_calculator hk
        exact .inr (.inr (hverdict.print_self henv hcoherent hc heffect))
      · rw [heffect.calculator_other hne] at hk
        rcases h.current k ck hk with hmem | hawaits | hprint
        · exact .inl ((List.mem_cons.1 hmem).resolve_left hne)
        · exact .inr (.inl (heffect.awaits hawaits))
        · exact .inr (heffect.current_other hcoherent hcoherent' hc hverdict hne hk hprint)
    · by_cases hne : k = id
      · subst hne
        obtain rfl := heffect.eq_of_calculator hk
        exact hverdict.evaluated (h.evaluated k c hc)
      · rw [heffect.calculator_other hne] at hk
        exact h.evaluated k ck hk

end Sheet

end LiveSheet
