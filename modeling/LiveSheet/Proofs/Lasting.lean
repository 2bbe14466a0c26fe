import LiveSheet.Proofs.Reordering

/-!
# What lasts while the worker is at it

At any time the edges of a sheet may get another order, time may pass before it has to, and a timer
may fire before it is due (`Sheet.Varies`), so nothing depends on how long delays are. A run is a
sequence of steps of the worker with any of this in between (`Sheet.IsRun`). What is said of a sheet
lasts for a whole run if every recalculation keeps it, and if it does not depend on more than the
nodes, the edges and what is still on the agenda (`Sheet.Lasts.of_resembles`).
-/

namespace LiveSheet

open Relation

namespace Worker

variable {σ κ τ : Type}

/-- The last step of a run. -/
theorem run_succ (w : Worker σ κ τ) (limit : Option Int) (steps : Nat) (s : σ) :
    w.run limit (steps + 1) s =
      (w.step? limit (w.run limit steps s)).getD (w.run limit steps s) := by
  induction steps generalizing s with
  | zero =>
    rw [run]
    cases hstep : w.step? limit s <;> simp [run, hstep]
  | succ steps ih =>
    rw [run]
    cases hstep : w.step? limit s with
    | none => simp [run, hstep]
    | some s' =>
      simp only
      rw [ih s', run]
      simp [hstep]

end Worker

namespace Sheet

variable {env : Environment} {s s' : Sheet} {todo : List NodeId} {P : Sheet → List NodeId → Prop}

/-! ### The same nodes and edges -/

/-- A sheet with the same nodes and the same edges, where everything is on the agenda that was there
before, apart from some nodes that are recalculated at once. -/
structure Resembles (s s' : Sheet) (todo : List NodeId) : Prop where
  calculators : s'.calculators = s.calculators
  nodes : s'.graph.nodes = s.graph.nodes
  reads : s'.graph.Reads = s.graph.Reads
  waiting : ∀ k, s.Waiting k → k ∈ todo ∨ s'.Waiting k
  awaits : ∀ k, s.Awaits k → k ∈ todo ∨ s'.Awaits k
  of_awaits : ∀ k, k ∈ todo ∨ s'.Awaits k → s.Awaits k

namespace Resembles

variable (h : s.Resembles s' todo)

include h

/-- They have the same calculators. -/
theorem calculator? (k : NodeId) : s'.calculator? k = s.calculator? k := by
  rw [Sheet.calculator?, Sheet.calculator?, h.calculators]

/-- They have the same results. -/
theorem resultOf : s'.resultOf = s.resultOf := by
  funext k
  rw [Sheet.resultOf, Sheet.resultOf, h.calculator?]

/-- They have the same headers. -/
theorem headerOf (k : NodeId) : s'.graph.headerOf k = s.graph.headerOf k := by
  rw [Graph.headerOf, Graph.headerOf, Graph.node?, Graph.node?, h.nodes]

/-- So names have the same holders. -/
theorem holder? : s'.graph.holder? = s.graph.holder? := by
  funext name
  rw [Graph.holder?, Graph.holder?, Graph.findByHeader, Graph.findByHeader, h.nodes]

/-- So expressions read the same nodes. -/
theorem reading? (k : NodeId) (c : Calculator) :
    Sheet.reading? env s' k c = Sheet.reading? env s k c :=
  resolve?_of_nodes_eq h.nodes k [] (env.references c.expression)

/-- And the same is seen of all nodes. -/
theorem seen : s'.seen = s.seen := by
  funext a
  rw [Sheet.seen, Sheet.seen, h.headerOf, h.resultOf]

/-- The same cycles can be reached. -/
theorem leadsToCycle (k : NodeId) : s'.graph.LeadsToCycle k ↔ s.graph.LeadsToCycle k :=
  Graph.leadsToCycle_congr h.reads k

end Resembles

/-- A task that is taken from the queue is done at once. -/
theorem resembles_pop {task : SheetTask} {rest : List SheetTask}
    (hqueue : s.agenda.queue = task :: rest) :
    s.Resembles { s with agenda := { s.agenda with queue := rest } } task.ids where
  calculators := rfl
  nodes := rfl
  reads := rfl
  waiting _ := (Awaits.pop hqueue).1
  awaits _ := (Awaits.pop hqueue).2
  of_awaits _ := .of_pop hqueue

/-- What is due goes from the timers to the queue. -/
theorem Coherent.resembles_advance (h : s.Coherent) (moment : Int) :
    s.Resembles { s with agenda := s.agenda.advance moment } [] where
  calculators := rfl
  nodes := rfl
  reads := rfl
  waiting k hk := .inr ((h.waiting_advance moment k).2 hk)
  awaits k hk := .inr ((h.awaits_advance moment k).2 hk)
  of_awaits k hk := (h.awaits_advance moment k).1 (hk.resolve_left (by simp))

/-- A timer fires, whether it is due or not. -/
def fire (s : Sheet) (t : Timer NodeId SheetTask) : Sheet :=
  { s with agenda := (s.agenda.cancel t.key).schedule t.task }

/-- What a timer is set for goes to the queue. -/
theorem Coherent.resembles_fire (h : s.Coherent) {t : Timer NodeId SheetTask}
    (ht : t ∈ s.agenda.timers) : s.Resembles (s.fire t) [] := by
  have htask : t.task = .recalculate t.key := h.timers t ht
  have hqueue (task : SheetTask) :
      task ∈ (s.fire t).agenda.queue ↔ task ∈ s.agenda.queue ∨ task = .recalculate t.key := by
    rw [← htask]
    exact List.mem_append.trans (or_congr_right List.mem_singleton)
  have htimers (t' : Timer NodeId SheetTask) :
      t' ∈ (s.fire t).agenda.timers ↔ t' ∈ s.agenda.timers ∧ t'.key ≠ t.key :=
    List.mem_filter.trans (and_congr_right fun _ => decide_eq_true_iff)
  have hwaiting (k : NodeId) : (s.fire t).Waiting k ↔ s.Waiting k := by
    unfold Waiting
    simp only [hqueue, htimers]
    constructor
    · rintro ((hmem | hfired) | ⟨t', ⟨ht', -⟩, hkey⟩)
      · exact .inl hmem
      · exact .inr ⟨t, ht, (SheetTask.recalculate.inj hfired).symm⟩
      · exact .inr ⟨t', ht', hkey⟩
    · rintro (hmem | ⟨t', ht', rfl⟩)
      · exact .inl (.inl hmem)
      · by_cases hkey : t'.key = t.key
        · exact .inl (.inr (congrArg SheetTask.recalculate hkey))
        · exact .inr ⟨t', ⟨ht', hkey⟩, rfl⟩
  have hawaits (k : NodeId) : (s.fire t).Awaits k ↔ s.Awaits k := by
    unfold Awaits
    simp only [hwaiting, hqueue, reduceCtorEq, or_false]
  exact {
    calculators := rfl
    nodes := rfl
    reads := rfl
    waiting := fun k hk => .inr ((hwaiting k).2 hk)
    awaits := fun k hk => .inr ((hawaits k).2 hk)
    of_awaits := fun k hk => (hawaits k).1 (hk.resolve_left (by simp)) }

/-- A sheet resembles itself at another time. -/
theorem resembles_pause (s : Sheet) (moment : Int) :
    s.Resembles { s with agenda := { s.agenda with now := moment } } [] where
  calculators := rfl
  nodes := rfl
  reads := rfl
  waiting _ := .inr
  awaits _ := .inr
  of_awaits _ hk := hk.resolve_left (by simp)

/-- It resembles what has its edges in another order. -/
theorem Reordered.resembles (h : s.Reordered s') : s.Resembles s' [] where
  calculators := h.calculators
  nodes := h.graph.nodes
  reads := h.graph.reads
  waiting _ hk := .inr (h.waiting hk)
  awaits _ hk := .inr (h.awaits hk)
  of_awaits _ hk := h.symm.awaits (hk.resolve_left (by simp))

/-! ### What may happen at any time -/

/-- The edges get another order, time passes to a moment, or a timer fires, whether it is due or
not. -/
inductive Varies : Sheet → Sheet → Prop
  | reordered {s s' : Sheet} (h : s.Reordered s') : Varies s s'
  | later (s : Sheet) (moment : Int) : Varies s { s with agenda := s.agenda.advance moment }
  | fires {s : Sheet} {t : Timer NodeId SheetTask} (ht : t ∈ s.agenda.timers) : Varies s (s.fire t)

/-- A variation keeps a sheet coherent. -/
theorem Varies.coherent (h : s.Varies s') (hs : s.Coherent) : s'.Coherent := by
  cases h with
  | reordered h => exact h.coherent hs
  | later moment => exact hs.withAgenda fun t ht => hs.timers t (List.mem_filter.1 ht).1
  | fires => exact hs.withAgenda fun t ht => hs.timers t (List.mem_filter.1 ht).1

/-- And a coherent sheet resembles its variations. -/
theorem Varies.resembles (h : s.Varies s') (hs : s.Coherent) : s.Resembles s' [] := by
  cases h with
  | reordered h => exact h.resembles
  | later moment => exact hs.resembles_advance moment
  | fires ht => exact hs.resembles_fire ht

/-- What is said of a sheet and of the nodes that are yet to be recalculated in the task at hand, if
every step of the worker keeps it, and whatever may happen at any time. -/
structure Lasts (env : Environment) (P : Sheet → List NodeId → Prop) : Prop extends
    Keeps env P where
  varies : ∀ {s s'}, P s [] → s.Varies s' → P s' []

/-- What every recalculation keeps lasts, if it is said of all coherent sheets that have the same
nodes, edges and things to do. -/
theorem Lasts.of_resembles (hcoherent : ∀ {s todo}, P s todo → s.Coherent)
    (hrecalculate : ∀ {s id todo}, P s (id :: todo) → P (Sheet.recalculate env s id).1 todo)
    (hresembles : ∀ {s s' todo}, P s [] → s.Resembles s' todo → s'.Coherent → P s' todo) :
    Lasts env P where
  recalculate := hrecalculate
  pop h hqueue := hresembles h (resembles_pop hqueue)
    ((hcoherent h).withAgenda (hcoherent h).timers)
  advance {_ due} h _ := hresembles h ((hcoherent h).resembles_advance due)
    ((hcoherent h).withAgenda fun t ht => (hcoherent h).timers t (List.mem_filter.1 ht).1)
  pause moment h := hresembles h (resembles_pause _ moment)
    ((hcoherent h).withAgenda (hcoherent h).timers)
  varies h hvaries := hresembles h (hvaries.resembles (hcoherent h))
    (hvaries.coherent (hcoherent h))

/-- Two things that last do so together. -/
theorem Lasts.and {Q : Sheet → List NodeId → Prop} (h : Lasts env P) (h' : Lasts env Q) :
    Lasts env fun s todo => P s todo ∧ Q s todo where
  recalculate hs := ⟨h.recalculate hs.1, h'.recalculate hs.2⟩
  pop hs hqueue := ⟨h.pop hs.1 hqueue, h'.pop hs.2 hqueue⟩
  advance hs hdue := ⟨h.advance hs.1 hdue, h'.advance hs.2 hdue⟩
  pause moment hs := ⟨h.pause moment hs.1, h'.pause moment hs.2⟩
  varies hs hvaries := ⟨h.varies hs.1 hvaries, h'.varies hs.2 hvaries⟩

/-- Sheets stay coherent, whatever the worker does. -/
theorem lasts_coherent (hnames : ∀ e, (env.references e).Nodup) :
    Lasts env fun s _ => s.Coherent :=
  .of_resembles id (·.recalculate hnames _) fun _ _ hcoherent => hcoherent

/-- The accounts are the same in all sheets with the same nodes, edges and things to do. -/
theorem Accounted.resembles (h : Accounted env s []) (hsame : s.Resembles s' todo)
    (hcoherent : s'.Coherent) : Accounted env s' todo where
  coherent := hcoherent
  registered k c hk := by
    rw [hsame.calculator?] at hk
    rw [hsame.nodes]
    exact (h.registered k c hk).imp_left fun hmem => absurd hmem (by simp)
  current k c hk := by
    rw [hsame.calculator?] at hk
    rw [hsame.resultOf]
    rcases h.current k c hk with hmem | hwait | hprint
    · exact absurd hmem (by simp)
    · exact (hsame.awaits k hwait).imp_right .inl
    · exact .inr (.inr hprint)
  evaluated k c hk := h.evaluated k c (hsame.calculator? k ▸ hk)

/-- The worker keeps the accounts. -/
theorem lasts_accounted (henv : env.Answers) : Lasts env (Accounted env) :=
  .of_resembles (·.coherent) (·.recalculate henv) (·.resembles)

/-! ### Runs -/

/-- One step of the worker: the first task of the queue is done, while the edges may get another
order before each of its recalculations, or time passes to the next timer. -/
inductive Step (env : Environment) : Sheet → Sheet → Prop
  | task {s s' : Sheet} {task : SheetTask} {rest : List SheetTask}
      (hqueue : s.agenda.queue = task :: rest)
      (h : Shuffles env { s with agenda := { s.agenda with queue := rest } } task.ids s') :
      Step env s s'
  | timer {s : Sheet} {due : Int} (hqueue : s.agenda.queue = [])
      (hdue : s.agenda.nextDue? = some due) :
      Step env s { s with agenda := s.agenda.advance due }

/-- The worker takes one step, and before and after it anything may happen that may at any time. -/
def Turn (env : Environment) (s s' : Sheet) : Prop :=
  ∃ before after, ReflTransGen Varies s before ∧ Step env before after ∧
    ReflTransGen Varies after s'

/-- A sequence of turns that goes on for as long as anything is left to do. -/
structure IsRun (env : Environment) (s : Sheet) (run : ℕ → Sheet) : Prop where
  start : run 0 = s
  turn : ∀ n, ¬ (run n).AtRest → Turn env (run n) (run (n + 1))
  rest : ∀ n, (run n).AtRest → run (n + 1) = run n

/-- The worker's own step is one in which the edges stay as they are. -/
theorem step_of_step? (hstep : (worker env).step? none s = some s') : Step env s s' := by
  have hshuffles : ∀ (ids : List NodeId) (s : Sheet), Shuffles env s ids (recalculateEach env s ids)
      := by
    intro ids
    induction ids with
    | nil => exact fun s => .nil (.refl s)
    | cons id ids ih => exact fun s => .cons (.refl s) (ih _)
  unfold Worker.step? at hstep
  simp only [worker] at hstep
  split at hstep
  · next task rest hqueue =>
    obtain rfl := Option.some.inj hstep
    rw [perform_eq]
    exact .task hqueue (hshuffles _ _)
  · next hqueue =>
    split at hstep
    · next due hdue =>
      obtain rfl := Option.some.inj hstep
      exact .timer hqueue hdue
    · cases hstep

/-- Any other step is like it, but for the order that the edges get afterwards. -/
theorem Step.exists_step? (h : Step env s s') (hcoherent : s.Coherent)
    (hnames : ∀ e, (env.references e).Nodup) :
    ∃ after, (worker env).step? none s = some after ∧ ReflTransGen Varies after s' := by
  cases h with
  | @task _ task rest hqueue h =>
    have hpopped : ({ s with agenda := { s.agenda with queue := rest } } : Sheet).Coherent :=
      hcoherent.withAgenda hcoherent.timers
    refine ⟨recalculateEach env _ task.ids, ?_,
      (h.reordered hpopped hnames).lift id fun _ _ => Varies.reordered⟩
    simp only [Worker.step?, worker, hqueue, perform_eq]
  | timer hqueue hdue =>
    refine ⟨_, ?_, .refl⟩
    simp only [Worker.step?, worker, hqueue, hdue, Option.all_none, if_true]

/-- What lasts is kept by several variations. -/
theorem Lasts.path (hlasts : Lasts env P) (h : P s []) (hpath : ReflTransGen Varies s s') :
    P s' [] := by
  induction hpath with
  | refl => exact h
  | tail _ hvaries ih => exact hlasts.varies ih hvaries

/-- And it is kept by a turn. -/
theorem Lasts.turn (hlasts : Lasts env P) (hnames : ∀ e, (env.references e).Nodup)
    (hcoherent : s.Coherent) (h : P s []) (hturn : Turn env s s') : P s' [] := by
  obtain ⟨before, after, hbefore, hstep, hafter⟩ := hturn
  obtain ⟨done, hdone, hshuffled⟩ :=
    hstep.exists_step? ((lasts_coherent hnames).path hcoherent hbefore) hnames
  exact hlasts.path (hlasts.step (hlasts.path h hbefore) hdone) (hshuffled.trans hafter)

/-- What lasts is true at every point of a run. -/
theorem Lasts.isRun (hlasts : Lasts env P) (hnames : ∀ e, (env.references e).Nodup)
    (hcoherent : s.Coherent) (h : P s []) {run : ℕ → Sheet} (hrun : IsRun env s run) (n : ℕ) :
    (run n).Coherent ∧ P (run n) [] := by
  induction n with
  | zero => exact hrun.start ▸ ⟨hcoherent, h⟩
  | succ n ih =>
    by_cases hrest : (run n).AtRest
    · exact hrun.rest n hrest ▸ ih
    · have hturn := hrun.turn n hrest
      exact ⟨(lasts_coherent hnames).turn hnames ih.1 ih.1 hturn,
        hlasts.turn hnames ih.1 ih.2 hturn⟩

/-- At rest there is no step. -/
theorem step?_of_atRest (env : Environment) (h : s.AtRest) : (worker env).step? none s = none := by
  obtain ⟨hqueue, htimers⟩ := h
  simp only [Worker.step?, worker, Agenda.nextDue?, hqueue, htimers]
  rfl

/-- And without a step a sheet is at rest. -/
theorem atRest_of_step?_eq_none (hstep : (worker env).step? none s = none) : s.AtRest := by
  unfold Worker.step? at hstep
  simp only [worker] at hstep
  split at hstep
  · cases hstep
  · next hqueue =>
    split at hstep
    · simp at hstep
    · next hdue =>
      refine ⟨hqueue, ?_⟩
      simpa [Agenda.nextDue?] using hdue

/-- The worker's own steps are a run. -/
theorem isRun_settle (env : Environment) (s : Sheet) :
    IsRun env s fun steps => (worker env).settle steps s where
  start := rfl
  turn steps hbusy := by
    cases hstep : (worker env).step? none ((worker env).settle steps s) with
    | none => exact absurd (atRest_of_step?_eq_none hstep) hbusy
    | some after =>
      refine ⟨_, after, .refl, step_of_step? hstep, ?_⟩
      rw [show (worker env).settle (steps + 1) s = after by
        unfold Worker.settle at hstep ⊢
        rw [Worker.run_succ, hstep, Option.getD_some]]
  rest steps hrest := by
    have hstep := step?_of_atRest env hrest
    unfold Worker.settle at hstep ⊢
    rw [Worker.run_succ, hstep, Option.getD_none]

end Sheet

end LiveSheet
