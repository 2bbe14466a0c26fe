import LiveSheet.Agenda

/-!
# Working off an agenda

A worker has an agenda somewhere in its state, and doing a task changes the state, agenda included.
While tasks are in the queue, the first one is done; when none is left, the time comes to the next
timer. `settle` goes on until nothing is left to do, `wait` until a span of time has passed.

Tasks may schedule others without end, so both are given the number of steps that they may take.
-/

namespace LiveSheet

/-- How a state holds an agenda and how it changes by a task. -/
structure Worker (σ κ τ : Type) where
  agenda : σ → Agenda κ τ
  withAgenda : σ → Agenda κ τ → σ
  perform : τ → σ → σ

namespace Worker

variable {σ κ τ : Type} [DecidableEq κ]

/-- Does the first task, or lets the time come to the next timer if it is due by the limit. -/
def step? (w : Worker σ κ τ) (limit : Option Int) (s : σ) : Option σ :=
  let a := w.agenda s
  match a.queue with
  | task :: rest => some (w.perform task (w.withAgenda s { a with queue := rest }))
  | [] =>
    match a.nextDue? with
    | some due =>
      if limit.all (due ≤ ·) then some (w.withAgenda s (a.advance due)) else none
    | none => none

/-- Takes steps until none is left to take by the limit, but not more than so many. -/
def run (w : Worker σ κ τ) (limit : Option Int) : (steps : Nat) → σ → σ
  | 0, s => s
  | steps + 1, s =>
    match w.step? limit s with
    | some s => run w limit steps s
    | none => s

/-- Works until nothing is left to do. -/
def settle (w : Worker σ κ τ) (steps : Nat) (s : σ) : σ :=
  w.run none steps s

/-- Works while a span of time passes. -/
def wait (w : Worker σ κ τ) (steps : Nat) (span : Int) (s : σ) : σ :=
  let moment := (w.agenda s).now + max 0 span
  let s := w.run (some moment) steps s
  w.withAgenda s { w.agenda s with now := max (w.agenda s).now moment }

end Worker

end LiveSheet
