/-!
# Agendas

An agenda holds the tasks that wait to be done, first come first served, and timers that put a task
into the queue when they are due. Timers have keys, and setting a timer again replaces the one that
is pending. Time is counted in whole units, so that moments compare exactly.
-/

namespace LiveSheet

/-- A task that waits for its time. -/
structure Timer (κ τ : Type) where
  key : κ
  due : Int
  task : τ
deriving Repr, DecidableEq

/-- The time, the tasks that wait in line, and the pending timers in the order they were set. -/
structure Agenda (κ τ : Type) where
  now : Int := 0
  queue : List τ := []
  timers : List (Timer κ τ) := []
deriving Repr, DecidableEq

namespace Agenda

variable {κ τ : Type} [DecidableEq κ]

/-- Puts a task at the end of the queue. -/
def schedule (a : Agenda κ τ) (task : τ) : Agenda κ τ :=
  { a with queue := a.queue ++ [task] }

/-- Whether a timer of the key is pending. -/
def isSet (a : Agenda κ τ) (key : κ) : Bool :=
  a.timers.any (·.key = key)

/-- Drops the pending timer of a key. -/
def cancel (a : Agenda κ τ) (key : κ) : Agenda κ τ :=
  { a with timers := a.timers.filter (·.key ≠ key) }

/-- Drops every pending timer. -/
def cancelAll (a : Agenda κ τ) : Agenda κ τ :=
  { a with timers := [] }

/-- Sets the timer of a key to so many units from now, in place of the pending one. -/
def debounce (a : Agenda κ τ) (key : κ) (delay : Int) (task : τ) : Agenda κ τ :=
  { a.cancel key with timers := (a.cancel key).timers ++ [⟨key, a.now + delay, task⟩] }

/-- Whether there is anything left to do. -/
def isPending (a : Agenda κ τ) : Bool :=
  !a.queue.isEmpty || !a.timers.isEmpty

/-- The moment at which the next timer is due. -/
def nextDue? (a : Agenda κ τ) : Option Int :=
  (a.timers.map (·.due)).min?

/-- Lets the time come to a moment. Timers that are due by then fire in the order of their moments,
those of one moment in the order in which they were set. -/
def advance (a : Agenda κ τ) (moment : Int) : Agenda κ τ :=
  let fired := (a.timers.filter (·.due ≤ moment)).mergeSort (·.due ≤ ·.due)
  ⟨max a.now moment, a.queue ++ fired.map (·.task), a.timers.filter (moment < ·.due)⟩

end Agenda

end LiveSheet
