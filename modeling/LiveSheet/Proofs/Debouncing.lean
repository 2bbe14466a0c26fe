import LiveSheet.Proofs.Handles
import Mathlib.Data.List.Induction

/-!
# What debouncing comes to

Calls are told apart by their place in the sequence (`Agenda.numbered`), since the same task may be
given more than once. The task of a call that sets a timer is started once or never
(`Agenda.starts_eq`): once if the timer is left alone until the time comes to its moment
(`Agenda.Fires`). As long as it is left alone and the time has not come (`Agenda.Waits`), it is
pending (`Agenda.pending_eq`); afterwards nothing that is called brings it back
(`Agenda.debounces`).
-/

namespace LiveSheet.Agenda

variable {κ τ : Type} [DecidableEq κ]

/-! ### What a call does to a timer -/

/-- Whether a call leaves a timer of this key, due at this moment, pending. -/
def Call.spares (key : κ) (due : Int) : Call κ τ → Bool
  | .debounce other _ _ => other ≠ key
  | .cancel other => other ≠ key
  | .cancelAll => false
  | .advance moment => moment < due

/-- The timers that a call sets. -/
def sets (a : Agenda κ τ) : Call κ τ → List (Timer κ τ)
  | .debounce key delay task => [⟨key, a.now + delay, task⟩]
  | _ => []

/-- Whether a call lets the time come to the moment at which a timer is due. -/
def Call.reaches (due : Int) : Call κ τ → Bool
  | .advance moment => due ≤ moment
  | _ => false

/-- A call leaves the timers that it spares, and sets its own. -/
theorem timers_perform (a : Agenda κ τ) (c : Call κ τ) :
    (a.perform c).timers = a.timers.filter (fun t => c.spares t.key t.due) ++ a.sets c := by
  cases c with
  | debounce key delay task =>
    simp only [perform, debounce, cancel, sets, Call.spares, ne_comm]
  | cancel key => simp only [perform, cancel, sets, Call.spares, ne_comm, List.append_nil]
  | cancelAll => simp [perform, cancelAll, sets, Call.spares]
  | advance moment => simp only [perform, advance, sets, Call.spares, List.append_nil]

/-- A call queues the tasks of the timers that it reaches, in order of their moments. -/
theorem queue_perform (a : Agenda κ τ) (c : Call κ τ) :
    (a.perform c).queue = a.queue ++
      ((a.timers.filter fun t => c.reaches t.due).mergeSort (·.due ≤ ·.due)).map (·.task) := by
  cases c with
  | advance moment => rfl
  | _ => simp [perform, Call.reaches, debounce, cancel, cancelAll]

/-- The time does not go back. -/
theorem now_le_perform (a : Agenda κ τ) (c : Call κ τ) : a.now ≤ (a.perform c).now := by
  cases c with
  | advance moment => exact le_max_left _ _
  | _ => exact le_rfl

/-- Calls can be performed in two parts. -/
theorem performAll_append (a : Agenda κ τ) (calls later : List (Call κ τ)) :
    a.performAll (calls ++ later) = (a.performAll calls).performAll later :=
  List.foldl_append

/-- The last call is performed after the others. -/
theorem performAll_concat (a : Agenda κ τ) (calls : List (Call κ τ)) (c : Call κ τ) :
    a.performAll (calls ++ [c]) = (a.performAll calls).perform c :=
  performAll_append a calls [c]

/-- The time never goes back. -/
theorem now_le_performAll (a : Agenda κ τ) (calls : List (Call κ τ)) :
    a.now ≤ (a.performAll calls).now := by
  induction calls generalizing a with
  | nil => exact le_rfl
  | cons c calls ih => exact (now_le_perform a c).trans (ih (a.perform c))

/-- No key has two pending timers. -/
theorem nodup_keys_performAll (calls : List (Call κ τ)) :
    ((performAll {} calls).timers.map (·.key)).Nodup := by
  induction calls using List.reverseRecOn with
  | nil => exact List.nodup_nil
  | append_singleton calls c ih =>
    rw [performAll_concat, timers_perform, List.map_append, List.nodup_append]
    refine ⟨ih.sublist (List.filter_sublist.map _), ?_, ?_⟩
    · cases c <;> simp [sets]
    · -- A timer that stays pending has another key than the one that is set.
      intro key hkey other hother
      obtain ⟨t, ht, rfl⟩ := List.mem_map.1 hkey
      have hspares := (List.mem_filter.1 ht).2
      cases c with
      | debounce key delay task =>
        obtain rfl : other = key := by simpa [sets] using hother
        have hne : other ≠ t.key := by simpa [Call.spares] using hspares
        exact hne.symm
      | _ => simp [sets] at hother

/-! ### Calls by number -/

/-- The timer with its task changed. -/
def relabel {τ' : Type} (f : τ → τ') (t : Timer κ τ) : Timer κ τ' :=
  ⟨t.key, t.due, f t.task⟩

/-- The call with its task changed. -/
def Call.map {τ' : Type} (f : τ → τ') : Call κ τ → Call κ τ'
  | .debounce key delay task => .debounce key delay (f task)
  | .cancel key => .cancel key
  | .cancelAll => .cancelAll
  | .advance moment => .advance moment

/-- The agenda with its tasks changed. -/
def map {τ' : Type} (f : τ → τ') (a : Agenda κ τ) : Agenda κ τ' :=
  ⟨a.now, a.queue.map f, a.timers.map (relabel f)⟩

/-- The agenda after calls, where each task has the number of its call. -/
def numbered (calls : List (Call κ τ)) : Agenda κ (Nat × τ) :=
  performAll {} (calls.mapIdx fun n c => c.map (n, ·))

/-- What has been started of the call of a number. -/
def starts (calls : List (Call κ τ)) (n : Nat) : List (Nat × τ) :=
  (numbered calls).queue.filter (·.1 = n)

/-- The pending timers of the call of a number. -/
def pending (calls : List (Call κ τ)) (n : Nat) : List (Timer κ (Nat × τ)) :=
  (numbered calls).timers.filter (·.task.1 = n)

/-- What the tasks are makes no difference for the timers. -/
theorem perform_map {τ' : Type} (f : τ → τ') (a : Agenda κ τ) (c : Call κ τ) :
    (a.map f).perform (c.map f) = (a.perform c).map f := by
  have hspares : ∀ p : κ → Int → Bool, (a.timers.map (relabel f)).filter (fun t => p t.key t.due) =
      (a.timers.filter fun t => p t.key t.due).map (relabel f) := fun p => List.filter_map
  cases c with
  | debounce key delay task =>
    simp only [perform, debounce, cancel, map, Call.map, List.map_append]
    rw [hspares fun other _ => other ≠ key]
    rfl
  | cancel key =>
    simp only [perform, cancel, map, Call.map]
    rw [hspares fun other _ => other ≠ key]
  | cancelAll => rfl
  | advance moment =>
    simp only [perform, advance, map, Call.map, List.map_append]
    rw [hspares fun _ due => due ≤ moment, hspares fun _ due => moment < due]
    rw [← List.map_mergeSort (r := fun t u : Timer κ τ => t.due ≤ u.due) fun _ _ _ _ => rfl]
    simp only [List.map_map]
    rfl

/-- A further call gets the next number. -/
theorem numbered_concat (calls : List (Call κ τ)) (c : Call κ τ) :
    numbered (calls ++ [c]) = (numbered calls).perform (c.map (calls.length, ·)) := by
  rw [numbered, List.mapIdx_concat, performAll_concat]
  rfl

/-- The numbers change nothing of what happens. -/
theorem map_numbered (calls : List (Call κ τ)) :
    (numbered calls).map (·.2) = performAll {} calls := by
  induction calls using List.reverseRecOn with
  | nil => rfl
  | append_singleton calls c ih =>
    have hmap : (c.map (calls.length, ·)).map (·.2) = c := by cases c <;> rfl
    rw [numbered_concat, performAll_concat, ← ih, ← perform_map, hmap]

/-- What is in line or pending comes from the call of its number. -/
theorem origin (calls : List (Call κ τ)) :
    (∀ x ∈ (numbered calls).queue, ∃ key delay, calls[x.1]? = some (.debounce key delay x.2)) ∧
      ∀ t ∈ (numbered calls).timers,
        ∃ delay, calls[t.task.1]? = some (.debounce t.key delay t.task.2) := by
  induction calls using List.reverseRecOn with
  | nil => exact ⟨nofun, nofun⟩
  | append_singleton calls c ih =>
    obtain ⟨hqueue, htimers⟩ := ih
    -- The calls before keep their numbers.
    have hgrow : ∀ {n : Nat} {d}, calls[n]? = some d → (calls ++ [c])[n]? = some d := by
      intro n d h
      rw [List.getElem?_append_left (List.getElem?_eq_some_iff.1 h).1, h]
    rw [numbered_concat]
    constructor
    · intro x hx
      rw [queue_perform, List.mem_append, List.mem_map] at hx
      rcases hx with hx | ⟨t, ht, rfl⟩
      · obtain ⟨key, delay, h⟩ := hqueue x hx
        exact ⟨key, delay, hgrow h⟩
      · rw [List.mem_mergeSort] at ht
        obtain ⟨delay, h⟩ := htimers t (List.mem_of_mem_filter ht)
        exact ⟨t.key, delay, hgrow h⟩
    · intro t ht
      rw [timers_perform, List.mem_append] at ht
      rcases ht with ht | ht
      · obtain ⟨delay, h⟩ := htimers t (List.mem_of_mem_filter ht)
        exact ⟨delay, hgrow h⟩
      · cases c with
        | debounce key delay task =>
          obtain rfl := List.mem_singleton.1 ht
          exact ⟨delay, by simp⟩
        | _ => cases ht

/-- Of a call that is still to come, nothing is started or pending. -/
theorem fresh (calls : List (Call κ τ)) :
    starts calls calls.length = [] ∧ pending calls calls.length = [] := by
  obtain ⟨hqueue, htimers⟩ := origin calls
  have hne : ∀ {n : Nat} {c}, calls[n]? = some c → n ≠ calls.length := fun h =>
    (List.getElem?_eq_some_iff.1 h).1.ne
  constructor
  · refine List.filter_eq_nil_iff.2 fun x hx => ?_
    obtain ⟨_, _, h⟩ := hqueue x hx
    simpa using hne h
  · refine List.filter_eq_nil_iff.2 fun t ht => ?_
    obtain ⟨_, h⟩ := htimers t ht
    simpa using hne h

/-- After a further call those timers of a number are pending that it spares, and the ones it
sets. -/
theorem pending_concat (calls : List (Call κ τ)) (c : Call κ τ) (n : Nat) :
    pending (calls ++ [c]) n = (pending calls n).filter (fun t => c.spares t.key t.due) ++
      ((numbered calls).sets (c.map (calls.length, ·))).filter (·.task.1 = n) := by
  have hspares : ∀ key due, (c.map (calls.length, ·)).spares key due = c.spares key due := by
    cases c <;> exact fun _ _ => rfl
  rw [pending, numbered_concat, timers_perform, List.filter_append, pending, List.filter_comm]
  simp only [hspares]

/-- A further call starts the tasks of the pending timers that it reaches. -/
theorem starts_concat (calls : List (Call κ τ)) (c : Call κ τ) (n : Nat) :
    List.Perm (starts (calls ++ [c]) n)
      (starts calls n ++ ((pending calls n).filter fun t => c.reaches t.due).map (·.task)) := by
  have hreaches : ∀ due, (c.map (calls.length, ·)).reaches due = c.reaches due := by
    cases c <;> exact fun _ => rfl
  rw [starts, numbered_concat, queue_perform, List.filter_append, pending, List.filter_comm]
  simp only [hreaches]
  refine List.Perm.append_left _ ?_
  rw [List.filter_map]
  refine List.Perm.map _ ((List.mergeSort_perm _ _).filter _)

/-! ### The course of one timer -/

/-- Among the calls after a timer was set, the time comes to its moment, and all calls before that
leave it alone. -/
def Fires (key : κ) (due : Int) (after : List (Call κ τ)) : Prop :=
  ∃ before moment rest, after = before ++ .advance moment :: rest ∧ due ≤ moment ∧
    ∀ c ∈ before, c.spares key due

/-- All calls after a timer was set leave it alone, and the time does not come to its moment. -/
def Waits (key : κ) (due : Int) (after : List (Call κ τ)) : Prop :=
  ∀ c ∈ after, c.spares key due

/-- Without calls a timer waits. -/
theorem waits_nil (key : κ) (due : Int) : Waits key due ([] : List (Call κ τ)) :=
  nofun

/-- A timer waits through two lists of calls if it waits through each. -/
theorem waits_append_iff {key : κ} {due : Int} {after later : List (Call κ τ)} :
    Waits key due (after ++ later) ↔ Waits key due after ∧ Waits key due later := by
  simp only [Waits, List.forall_mem_append]

/-- A timer fires among two lists of calls if it fires among the first, or waits through it and
fires among the second. -/
theorem fires_append_iff {key : κ} {due : Int} {after later : List (Call κ τ)} :
    Fires key due (after ++ later) ↔
      Fires key due after ∨ (Waits key due after ∧ Fires key due later) := by
  constructor
  · rintro ⟨before, moment, rest, heq, hdue, hbefore⟩
    rcases List.append_eq_append_iff.1 heq with ⟨middle, rfl, hlater⟩ | ⟨middle, rfl, hmiddle⟩
    · rw [List.forall_mem_append] at hbefore
      exact .inr ⟨hbefore.1, middle, moment, rest, hlater, hdue, hbefore.2⟩
    · cases middle with
      | nil =>
        rw [List.append_nil]
        exact .inr ⟨hbefore, [], moment, rest, hmiddle.symm, hdue, nofun⟩
      | cons c middle =>
        obtain ⟨rfl, -⟩ := List.cons.inj hmiddle
        exact .inl ⟨before, moment, middle, rfl, hdue, hbefore⟩
  · rintro (⟨before, moment, rest, rfl, hdue, hbefore⟩ |
      ⟨hwaits, before, moment, rest, rfl, hdue, hbefore⟩)
    · exact ⟨before, moment, rest ++ later, by simp, hdue, hbefore⟩
    · refine ⟨after ++ before, moment, rest, by simp, hdue, ?_⟩
      exact List.forall_mem_append.2 ⟨hwaits, hbefore⟩

/-- A timer that waits does not fire. -/
theorem not_fires_of_waits {key : κ} {due : Int} {after : List (Call κ τ)}
    (h : Waits key due after) : ¬ Fires key due after := by
  rintro ⟨before, moment, rest, rfl, hdue, -⟩
  have hspares := h (.advance moment) (by simp)
  simp only [Call.spares, decide_eq_true_eq] at hspares
  omega

/-- A timer waits through one call if the call spares it. -/
theorem waits_singleton_iff {key : κ} {due : Int} {c : Call κ τ} :
    Waits key due [c] ↔ c.spares key due := by
  simp only [Waits, List.forall_mem_singleton]

/-- A timer fires at one call if the call reaches it. -/
theorem fires_singleton_iff {key : κ} {due : Int} {c : Call κ τ} :
    Fires key due [c] ↔ c.reaches due := by
  constructor
  · rintro ⟨before, moment, rest, heq, hdue, -⟩
    have hmem : Call.advance moment ∈ [c] := heq ▸ by simp
    rw [← List.mem_singleton.1 hmem]
    exact decide_eq_true hdue
  · intro h
    cases c with
    | advance moment => exact ⟨[], moment, [], rfl, by simpa [Call.reaches] using h, nofun⟩
    | _ => cases h

/-- When a timer fires, its moment has come. -/
theorem le_now_of_fires {key : κ} {due : Int} {after : List (Call κ τ)} (h : Fires key due after)
    (a : Agenda κ τ) : due ≤ (a.performAll after).now := by
  obtain ⟨before, moment, rest, rfl, hdue, -⟩ := h
  rw [performAll_append]
  calc due ≤ moment := hdue
    _ ≤ ((a.performAll before).perform (.advance moment)).now := le_max_right _ _
    _ ≤ ((a.performAll before).performAll (.advance moment :: rest)).now :=
      now_le_performAll _ rest

/-- While a timer waits, its moment is not over. -/
theorem now_le_of_waits {key : κ} {due : Int} {after : List (Call κ τ)} (h : Waits key due after)
    {a : Agenda κ τ} (ha : a.now ≤ due) : (a.performAll after).now ≤ due := by
  induction after generalizing a with
  | nil => exact ha
  | cons c after ih =>
    obtain ⟨hc, hafter⟩ := List.forall_mem_cons.1 h
    refine ih hafter ?_
    cases c with
    | advance moment => exact max_le ha (of_decide_eq_true hc).le
    | _ => exact ha

section Course

variable (before : List (Call κ τ)) (key : κ) (delay : Int) (task : τ)

/-- The timer that a call sets is pending then, and its task has not been started. -/
theorem set_last : pending (before ++ [.debounce key delay task]) before.length =
      [⟨key, (performAll {} before).now + delay, (before.length, task)⟩] ∧
    starts (before ++ [.debounce key delay task]) before.length = [] := by
  obtain ⟨hstarts, hpending⟩ := fresh before
  have hnow : (numbered before).now = (performAll {} before).now := by
    rw [← map_numbered]
    rfl
  have hperm := starts_concat before (.debounce key delay task) before.length
  rw [hstarts, hpending] at hperm
  refine ⟨?_, List.perm_nil.1 hperm⟩
  rw [pending_concat, hpending]
  simp [sets, Call.map, hnow]

/-- A later call sets no timer of that number. -/
theorem pending_later (after : List (Call κ τ)) (c : Call κ τ) :
    pending (before ++ .debounce key delay task :: (after ++ [c])) before.length =
      (pending (before ++ .debounce key delay task :: after) before.length).filter
        fun t => c.spares t.key t.due := by
  obtain ⟨old, hold⟩ : ∃ old, old = before ++ .debounce key delay task :: after := ⟨_, rfl⟩
  have hlength : old.length ≠ before.length := by simp [hold]
  have hset : ((numbered old).sets (c.map (old.length, ·))).filter
      (·.task.1 = before.length) = [] := by
    cases c <;> simp [sets, Call.map, hlength]
  rw [← List.cons_append, ← List.append_assoc, ← hold, pending_concat, hset, List.append_nil]

open Classical in
/-- The timer is pending as long as it waits. -/
theorem pending_eq (after : List (Call κ τ)) :
    pending (before ++ .debounce key delay task :: after) before.length =
      if Waits key ((performAll {} before).now + delay) after then
        [⟨key, (performAll {} before).now + delay, (before.length, task)⟩] else [] := by
  induction after using List.reverseRecOn with
  | nil => rw [if_pos (waits_nil key _), (set_last before key delay task).1]
  | append_singleton after c ih =>
    rw [pending_later, ih, waits_append_iff, waits_singleton_iff]
    by_cases hwaits : Waits key ((performAll {} before).now + delay) after
    · rw [if_pos hwaits, List.filter_singleton]
      cases c.spares key ((performAll {} before).now + delay) <;> simp [hwaits]
    · rw [if_neg hwaits, if_neg fun h => hwaits h.1, List.filter_nil]

open Classical in
/-- Its task has been started, and only once, when it has fired. -/
theorem starts_eq (after : List (Call κ τ)) :
    starts (before ++ .debounce key delay task :: after) before.length =
      if Fires key ((performAll {} before).now + delay) after then [(before.length, task)]
      else [] := by
  induction after using List.reverseRecOn with
  | nil => rw [if_neg (not_fires_of_waits (waits_nil key _)), (set_last before key delay task).2]
  | append_singleton after c ih =>
    have hperm := starts_concat (before ++ .debounce key delay task :: after) c before.length
    rw [ih, pending_eq, List.append_assoc, List.cons_append] at hperm
    rw [fires_append_iff, fires_singleton_iff]
    by_cases hwaits : Waits key ((performAll {} before).now + delay) after
    · -- It has not fired yet, so it does so with the call or does not.
      have hfires := not_fires_of_waits hwaits
      rw [if_neg hfires, if_pos hwaits, List.filter_singleton, List.nil_append] at hperm
      cases hreaches : c.reaches ((performAll {} before).now + delay) with
      | true =>
        rw [hreaches] at hperm
        simpa [hwaits] using List.perm_singleton.1 hperm
      | false =>
        rw [hreaches] at hperm
        simpa [hfires] using List.perm_nil.1 hperm
    · -- It is no longer pending, so the call cannot start its task.
      rw [if_neg hwaits, List.filter_nil, List.map_nil, List.append_nil] at hperm
      by_cases hfires : Fires key ((performAll {} before).now + delay) after
      · rw [if_pos hfires] at hperm
        rw [if_pos (.inl hfires), List.perm_singleton.1 hperm]
      · rw [if_neg hfires] at hperm
        rw [if_neg (by simp [hfires, hwaits]), List.perm_nil.1 hperm]

/-- Once a timer is no longer pending, nothing that is called makes a difference to it. -/
theorem starts_append_of_not_waits {after : List (Call κ τ)}
    (h : ¬ Waits key ((performAll {} before).now + delay) after) (later : List (Call κ τ)) :
    starts (before ++ .debounce key delay task :: after ++ later) before.length =
      starts (before ++ .debounce key delay task :: after) before.length := by
  classical
  have hfires : Fires key ((performAll {} before).now + delay) (after ++ later) ↔
      Fires key ((performAll {} before).now + delay) after := by simp [fires_append_iff, h]
  rw [List.append_assoc, List.cons_append, starts_eq, starts_eq]
  exact if_congr hfires rfl rfl

end Course

/-! ### All timers of a sequence of calls -/

/-- What becomes of the timer that the call of number `n` sets, when other calls come after it. -/
structure RunsOnce (calls : List (Call κ τ)) (n : Nat) (key : κ) (due : Int) (task : τ)
    (after : List (Call κ τ)) : Prop where
  /-- It is pending while it waits, and only then. -/
  pending : Waits key due after → Agenda.pending calls n = [⟨key, due, (n, task)⟩]
  notPending : ¬ Waits key due after → Agenda.pending calls n = []
  /-- Its task is started once when it fires, and not before its moment. -/
  started : Fires key due after → starts calls n = [(n, task)]
  notEarly : starts calls n ≠ [] → due ≤ (performAll {} calls).now
  /-- When it does not fire, its task is not started. -/
  notStarted : ¬ Fires key due after → starts calls n = []
  /-- When its moment is over, it waits no longer. -/
  past : due < (performAll {} calls).now → ¬ Waits key due after
  /-- When it waits no longer, its task is never started from then on. -/
  final : ¬ Waits key due after → ∀ later, starts (calls ++ later) n = starts calls n

/-- What holds at the end of a sequence of calls, and so after each of them. -/
structure Debounces (calls : List (Call κ τ)) : Prop where
  /-- The event loop with its handles has the queue and the pending timers of the agenda. -/
  loop : (Loop.performAll {} calls).agenda = performAll {} calls
  /-- Cancelling tells whether a timer of the key is pending. -/
  answer : ∀ key, ((Loop.performAll {} calls).cancel key).2 = true ↔
    ∃ t ∈ (performAll {} calls).timers, t.key = key
  /-- No key has two pending timers. -/
  keys : ((performAll {} calls).timers.map (·.key)).Nodup
  /-- The timers of a key are left alone by what is done with other keys. -/
  apart : ∀ key other, other ≠ key → ∀ c, (c = .cancel other ∨ ∃ delay task,
    c = .debounce other delay task) →
      ((performAll {} (calls ++ [c])).timers.filter fun t => t.key = key) =
        (performAll {} calls).timers.filter fun t => t.key = key
  /-- Numbering the calls changes nothing of what happens. -/
  numbered : (Agenda.numbered calls).map (·.2) = performAll {} calls
  /-- Nothing is started but tasks of the calls that set timers. -/
  origin : ∀ x ∈ (Agenda.numbered calls).queue, ∃ key delay,
    calls[x.1]? = some (.debounce key delay x.2)
  /-- Each of these is started once or never. -/
  once : ∀ before key delay task after, calls = before ++ .debounce key delay task :: after →
    RunsOnce calls before.length key ((performAll {} before).now + delay) task after

/-- The timers of a key are not those of another one. -/
theorem timers_of_other {calls : List (Call κ τ)} {key other : κ} (hother : other ≠ key)
    {c : Call κ τ} (hc : c = .cancel other ∨ ∃ delay task, c = .debounce other delay task) :
    ((performAll {} (calls ++ [c])).timers.filter fun t => t.key = key) =
      (performAll {} calls).timers.filter fun t => t.key = key := by
  rw [performAll_concat, timers_perform, List.filter_append, List.filter_comm]
  have hset : ((performAll {} calls).sets c).filter (fun t => t.key = key) = [] := by
    obtain rfl | ⟨delay, task, rfl⟩ := hc <;> simp [sets, hother]
  rw [hset, List.append_nil, List.filter_eq_self]
  intro t ht
  obtain rfl : t.key = key := by simpa using (List.mem_filter.1 ht).2
  obtain rfl | ⟨delay, task, rfl⟩ := hc <;> exact decide_eq_true hother

/-- What becomes of a timer is said by whether it waits and whether it fires. -/
theorem runsOnce (before : List (Call κ τ)) (key : κ) {delay : Int} (hdelay : 0 ≤ delay) (task : τ)
    (after : List (Call κ τ)) :
    RunsOnce (before ++ .debounce key delay task :: after) before.length key
      ((performAll {} before).now + delay) task after := by
  have hpending := pending_eq before key delay task after
  have hstarts := starts_eq before key delay task after
  constructor
  case pending => exact fun hwaits => hpending.trans (if_pos hwaits)
  case notPending => exact fun hwaits => hpending.trans (if_neg hwaits)
  case started => exact fun hfires => hstarts.trans (if_pos hfires)
  case notEarly =>
    intro hstarted
    -- A task that is started has fired, and then its moment has come.
    have hfires : Fires key ((performAll {} before).now + delay) after := by
      by_contra hnot
      exact hstarted (hstarts.trans (if_neg hnot))
    rw [performAll_append]
    exact le_now_of_fires hfires _
  case notStarted => exact fun hfires => hstarts.trans (if_neg hfires)
  case past =>
    intro hover hwaits
    have hle := now_le_of_waits hwaits
      (a := (performAll {} before).perform (.debounce key delay task))
      (Int.le_add_of_nonneg_right hdelay)
    rw [performAll_append] at hover
    exact hle.not_gt hover
  case final => exact starts_append_of_not_waits before key delay task

/-- Debouncing runs the last call of each burst, and no other. -/
theorem debounces (calls : List (Call κ τ))
    (hdelays : ∀ key delay task, .debounce key delay task ∈ calls → 0 ≤ delay) :
    Debounces calls := by
  obtain ⟨hloop, hanswer⟩ := Loop.performAll_agenda calls
  constructor
  case loop => exact hloop
  case answer =>
    intro key
    rw [hanswer, isSet, List.any_eq_true]
    simp
  case keys => exact nodup_keys_performAll calls
  case apart => exact fun key other hother c hc => timers_of_other hother hc
  case numbered => exact map_numbered calls
  case origin => exact (Agenda.origin calls).1
  case once =>
    rintro before key delay task after rfl
    exact runsOnce before key (hdelays key delay task (by simp)) task after

/-- Of three timers of one key, the second takes the place of the first and fires, and the third is
set again after that and given up with all others. -/
def burst : List (Call String String) :=
  [.debounce "a" 10 "first", .debounce "b" 5 "other", .advance 4, .debounce "a" 10 "second",
    .cancel "b", .advance 14, .debounce "a" 3 "third", .cancelAll, .debounce "c" 0 "last",
    .advance 30]

/-- So only the second task and the last one are started. -/
theorem debounces_burst :
    (∀ key delay task, .debounce key delay task ∈ burst → 0 ≤ delay) ∧ Debounces burst ∧
      (performAll {} burst).queue = ["second", "last"] := by
  have hdelays : ∀ key delay task, .debounce key delay task ∈ burst → 0 ≤ delay := by
    intro key delay task h
    simp only [burst, List.mem_cons, Call.debounce.injEq, reduceCtorEq, List.not_mem_nil, false_or,
      or_false] at h
    obtain ⟨-, rfl, -⟩ | ⟨-, rfl, -⟩ | ⟨-, rfl, -⟩ | ⟨-, rfl, -⟩ | ⟨-, rfl, -⟩ := h <;> decide
  exact ⟨hdelays, debounces burst hdelays, by decide +kernel⟩

end LiveSheet.Agenda
