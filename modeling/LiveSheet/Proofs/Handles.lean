import LiveSheet.Agenda
import LiveSheet.Table
import Mathlib.Data.List.Nodup
import Mathlib.Data.List.Sort

/-!
# Timers and the handles of an event loop

An agenda has one pending timer for each key. What it stands for has two parts that know of each
other by numbers only: the loop holds the handles of all timers that were ever set and have not come
up yet, those that are cancelled included, and a table says under which number the timer of a key
was set last (`Loop`). When a timer fires, it takes the entry of its key from the table, whichever
entry that is.

The two parts stay in step (`Loop.InStep`): the handles that are not cancelled are those that the
table has. So for whatever is called, the loop does what the agenda says, and it also answers as the
agenda does whether there was a timer to be cancelled (`Loop.performAll_agenda`).
-/

namespace LiveSheet

namespace Agenda

/-- What is done to an agenda, or the time coming to a moment. -/
inductive Call (κ τ : Type) where
  | debounce (key : κ) (delay : Int) (task : τ)
  | cancel (key : κ)
  | cancelAll
  | advance (moment : Int)
deriving Repr, DecidableEq

variable {κ τ : Type} [DecidableEq κ]

/-- The agenda after a call. -/
def perform (a : Agenda κ τ) : Call κ τ → Agenda κ τ
  | .debounce key delay task => a.debounce key delay task
  | .cancel key => a.cancel key
  | .cancelAll => a.cancelAll
  | .advance moment => a.advance moment

/-- The agenda after calls, one after the other. -/
def performAll (a : Agenda κ τ) (calls : List (Call κ τ)) : Agenda κ τ :=
  calls.foldl perform a

end Agenda

/-- A timer that an event loop holds, under the number that was given out for it. -/
structure Handle (κ τ : Type) where
  number : Nat
  timer : Timer κ τ
  cancelled : Bool := false
deriving Repr, DecidableEq

/-- An event loop with its handles, in the order they were made, and the table that says which of
them is the one of a key. -/
structure Loop (κ τ : Type) where
  now : Int := 0
  queue : List τ := []
  handles : List (Handle κ τ) := []
  table : Table κ Nat := {}
  made : Nat := 0

namespace Loop

variable {κ τ : Type} [DecidableEq κ] {l : Loop κ τ}

/-- Marks the handle of a number as cancelled. -/
def giveUp (l : Loop κ τ) (number : Nat) : Loop κ τ :=
  { l with handles := l.handles.map fun h =>
      if h.number = number then { h with cancelled := true } else h }

/-- Takes a key from the table and gives its handle up; says whether there was one. -/
def cancel (l : Loop κ τ) (key : κ) : Loop κ τ × Bool :=
  match l.table.get? key with
  | none => (l, false)
  | some number => ({ l.giveUp number with table := l.table.erase key }, true)

/-- Gives up every handle of the table, and empties the table. -/
def cancelAll (l : Loop κ τ) : Loop κ τ :=
  { l.table.values.foldl giveUp l with table := {} }

/-- Cancels the timer of a key and sets a new one. -/
def debounce (l : Loop κ τ) (key : κ) (delay : Int) (task : τ) : Loop κ τ :=
  let l := (l.cancel key).1
  { l with
    handles := l.handles ++ [⟨l.made, ⟨key, l.now + delay, task⟩, false⟩]
    table := l.table.insert key l.made
    made := l.made + 1 }

/-- A timer that comes up takes its key from the table and puts its task in line. -/
def fire (l : Loop κ τ) (h : Handle κ τ) : Loop κ τ :=
  { l with table := l.table.erase h.timer.key, queue := l.queue ++ [h.timer.task] }

/-- The handles that come up by a moment; one that is cancelled is dropped when it comes up. -/
def due (l : Loop κ τ) (moment : Int) : List (Handle κ τ) :=
  (l.handles.filter fun h => !h.cancelled && h.timer.due ≤ moment).mergeSort
    (·.timer.due ≤ ·.timer.due)

/-- Lets the time come to a moment, and one timer after the other come up. -/
def advance (l : Loop κ τ) (moment : Int) : Loop κ τ :=
  (l.due moment).foldl fire
    { l with now := max l.now moment, handles := l.handles.filter (moment < ·.timer.due) }

/-- The loop after a call. -/
def perform (l : Loop κ τ) : Agenda.Call κ τ → Loop κ τ
  | .debounce key delay task => l.debounce key delay task
  | .cancel key => (l.cancel key).1
  | .cancelAll => l.cancelAll
  | .advance moment => l.advance moment

/-- The loop after calls, one after the other. -/
def performAll (l : Loop κ τ) (calls : List (Agenda.Call κ τ)) : Loop κ τ :=
  calls.foldl perform l

/-- The agenda that a loop stands for. -/
def agenda (l : Loop κ τ) : Agenda κ τ :=
  ⟨l.now, l.queue, (l.handles.filter fun h => !h.cancelled).map (·.timer)⟩

/-! ### Table and handles in step -/

/-- The handles that are not cancelled are those that the table has. -/
structure InStep (l : Loop κ τ) : Prop where
  numbers : (l.handles.map (·.number)).Nodup
  number_lt : ∀ h ∈ l.handles, h.number < l.made
  listed : ∀ h ∈ l.handles, h.cancelled = false ↔ l.table.get? h.timer.key = some h.number
  held : ∀ key number, l.table.get? key = some number →
    ∃ h ∈ l.handles, h.number = number ∧ h.timer.key = key

/-- Of two handles that are not cancelled and have one key, there is only one. -/
theorem InStep.eq_of_key_eq (hl : l.InStep) {h k : Handle κ τ} (hh : h ∈ l.handles)
    (hk : k ∈ l.handles) (hhc : h.cancelled = false) (hkc : k.cancelled = false)
    (hkey : h.timer.key = k.timer.key) : h = k := by
  have hnumber : some h.number = some k.number := by
    rw [← (hl.listed h hh).1 hhc, ← (hl.listed k hk).1 hkc, hkey]
  exact List.inj_on_of_nodup_map hl.numbers hh hk (Option.some.inj hnumber)

/-- Without timers both are in step. -/
theorem inStep_empty : InStep ({} : Loop κ τ) :=
  ⟨List.nodup_nil, nofun, nofun, fun _ _ h => by cases h⟩

/-! ### Cancelling -/

/-- The handle that the table has for a key is the only one of that number, and the only one of that
key which is not cancelled. -/
theorem InStep.number_eq_iff (hl : l.InStep) {key : κ} {number : Nat}
    (hnumber : l.table.get? key = some number) {h : Handle κ τ} (hh : h ∈ l.handles) :
    h.number = number ↔ h.cancelled = false ∧ h.timer.key = key := by
  constructor
  · rintro rfl
    obtain ⟨k, hk, hkn, rfl⟩ := hl.held key _ hnumber
    obtain rfl := List.inj_on_of_nodup_map hl.numbers hk hh hkn
    exact ⟨(hl.listed k hk).2 hnumber, rfl⟩
  · rintro ⟨hactive, rfl⟩
    exact Option.some.inj (((hl.listed h hh).1 hactive).symm.trans hnumber)

omit [DecidableEq κ] in
/-- Giving up a handle leaves the other ones that count. -/
theorem filter_handles_giveUp (l : Loop κ τ) (number : Nat) :
    (l.giveUp number).handles.filter (fun h => !h.cancelled) =
      l.handles.filter fun h => !h.cancelled && h.number ≠ number := by
  rw [giveUp, List.filter_map]
  have hsame : ((fun h : Handle κ τ => !h.cancelled) ∘ fun h =>
      if h.number = number then { h with cancelled := true } else h) =
        fun h => !h.cancelled && h.number ≠ number := by
    funext h
    by_cases hn : h.number = number <;> simp [hn]
  rw [hsame]
  refine (List.map_congr_left fun h hh => ?_).trans (List.map_id _)
  obtain ⟨-, hn⟩ : _ ∧ h.number ≠ number := by simpa using (List.mem_filter.1 hh).2
  rw [if_neg hn, id]

/-- Cancelling on both sides comes to the same, and gives the same answer. -/
theorem InStep.cancel_agenda (hl : l.InStep) (key : κ) :
    (l.cancel key).1.agenda = l.agenda.cancel key ∧ (l.cancel key).2 = l.agenda.isSet key := by
  unfold cancel
  cases hnumber : l.table.get? key with
  | none =>
    -- Every active handle is listed under its key, so none has this one.
    have hother : ∀ t ∈ l.agenda.timers, t.key ≠ key := by
      intro t ht heq
      obtain ⟨h, hh, rfl⟩ := List.mem_map.1 ht
      obtain ⟨hmem, hactive⟩ := List.mem_filter.1 hh
      have hlisted := (hl.listed h hmem).1 (by simpa using hactive)
      rw [heq, hnumber] at hlisted
      cases hlisted
    constructor
    · have hfilter : l.agenda.timers.filter (·.key ≠ key) = l.agenda.timers :=
        List.filter_eq_self.2 fun t ht => decide_eq_true (hother t ht)
      simp only [Agenda.cancel, hfilter]
    · symm
      simpa [Agenda.isSet] using hother
  | some number =>
    constructor
    · -- The handle that is given up is the only active one of the key.
      have htimers : ((l.giveUp number).handles.filter fun h => !h.cancelled).map (·.timer) =
          l.agenda.timers.filter (·.key ≠ key) := by
        rw [filter_handles_giveUp, agenda, List.filter_map, List.filter_filter]
        congr 1
        refine List.filter_congr fun h hh => ?_
        have hiff := hl.number_eq_iff hnumber hh
        cases hc : h.cancelled
        · simp [hiff, hc]
        · simp
      simp only [agenda, Agenda.cancel] at htimers ⊢
      rw [htimers]
      rfl
    · obtain ⟨h, hh, hn, hkey⟩ := hl.held key number hnumber
      have hactive := ((hl.number_eq_iff hnumber hh).1 hn).1
      symm
      rw [Agenda.isSet, List.any_eq_true]
      refine ⟨h.timer, List.mem_map.2 ⟨h, List.mem_filter.2 ⟨hh, by simp [hactive]⟩, rfl⟩, ?_⟩
      exact decide_eq_true hkey

/-- Cancelling keeps both in step. -/
theorem InStep.cancel (hl : l.InStep) (key : κ) : (l.cancel key).1.InStep := by
  unfold Loop.cancel
  cases hnumber : l.table.get? key with
  | none => exact hl
  | some number =>
    have hiff := fun {h} => hl.number_eq_iff hnumber (h := h)
    constructor
    case numbers =>
      -- A handle that is given up stays in the loop and keeps its number.
      have hsame : (l.giveUp number).handles.map (·.number) = l.handles.map (·.number) := by
        rw [giveUp, List.map_map]
        refine List.map_congr_left fun h _ => ?_
        by_cases hn : h.number = number <;> simp [hn]
      exact hsame ▸ hl.numbers
    case number_lt =>
      intro h hh
      obtain ⟨k, hk, rfl⟩ := List.mem_map.1 hh
      have hlt := hl.number_lt k hk
      split <;> exact hlt
    case listed =>
      intro h hh
      obtain ⟨k, hk, rfl⟩ := List.mem_map.1 hh
      have hlisted := hl.listed k hk
      by_cases hn : k.number = number
      · obtain ⟨-, hkey⟩ := (hiff hk).1 hn
        simp [hn, hkey, Table.get?_erase]
      · have hkey : k.timer.key = key → k.cancelled ≠ false := fun hkey hactive =>
          hn ((hiff hk).2 ⟨hactive, hkey⟩)
        simp only [if_neg hn, Table.get?_erase]
        by_cases heq : k.timer.key = key
        · simp [heq, hkey heq]
        · rw [if_neg heq]
          exact hlisted
    case held =>
      intro key' number' hget
      rw [Table.get?_erase] at hget
      split at hget
      · cases hget
      · obtain ⟨h, hh, hn, hk⟩ := hl.held key' number' hget
        refine ⟨_, List.mem_map.2 ⟨h, hh, rfl⟩, ?_, ?_⟩
        · split <;> exact hn
        · split <;> exact hk

/-! ### Setting -/

/-- And the key has no handle after it. -/
theorem get?_table_cancel (l : Loop κ τ) (key : κ) : (l.cancel key).1.table.get? key = none := by
  unfold cancel
  cases hnumber : l.table.get? key with
  | none => exact hnumber
  | some number => simp [Table.get?_erase]

/-- Setting a timer keeps both in step, and does the same to the agenda. -/
theorem InStep.debounce (hl : l.InStep) (key : κ) (delay : Int) (task : τ) :
    (l.debounce key delay task).InStep ∧
      (l.debounce key delay task).agenda = l.agenda.debounce key delay task := by
  have hc := hl.cancel key
  have hnone := get?_table_cancel l key
  obtain ⟨hagenda, -⟩ := hl.cancel_agenda key
  have hnow : (l.cancel key).1.now = l.now := congrArg Agenda.now hagenda
  unfold Loop.debounce
  -- After the cancellation no handle of the key is active, so the new one is the only one.
  obtain ⟨l', hl'⟩ : ∃ l', l' = (l.cancel key).1 := ⟨_, rfl⟩
  rw [← hl'] at hc hnone hagenda hnow ⊢
  constructor
  · constructor
    case numbers =>
      rw [List.map_append, List.nodup_append]
      refine ⟨hc.numbers, List.nodup_singleton _, ?_⟩
      intro number hnumber other hother
      obtain ⟨h, hh, rfl⟩ := List.mem_map.1 hnumber
      obtain rfl := List.mem_singleton.1 hother
      exact (hc.number_lt h hh).ne
    case number_lt =>
      intro h hh
      rcases List.mem_append.1 hh with hh | hh
      · exact Nat.lt_succ_of_lt (hc.number_lt h hh)
      · obtain rfl := List.mem_singleton.1 hh
        exact Nat.lt_succ_self _
    case listed =>
      intro h hh
      rw [Table.get?_insert]
      rcases List.mem_append.1 hh with hh | hh
      · have hlisted := hc.listed h hh
        by_cases hkey : h.timer.key = key
        · have hne : l'.made ≠ h.number := (hc.number_lt h hh).ne'
          rw [hkey, hnone] at hlisted
          simp [hkey, hne, hlisted]
        · rw [if_neg hkey]
          exact hlisted
      · obtain rfl := List.mem_singleton.1 hh
        simp
    case held =>
      intro key' number hget
      rw [Table.get?_insert] at hget
      split at hget
      · next heq =>
        obtain rfl := Option.some.inj hget
        exact ⟨_, List.mem_append_right _ List.mem_cons_self, rfl, heq.symm⟩
      · obtain ⟨h, hh, hn, hk⟩ := hc.held key' number hget
        exact ⟨h, List.mem_append_left _ hh, hn, hk⟩
  · rw [Agenda.debounce, ← hagenda]
    simp only [agenda, List.filter_append, List.map_append, hnow]
    rfl

/-! ### Cancelling everything -/

omit [DecidableEq κ] in
/-- Giving up several handles marks each of them. -/
theorem foldl_giveUp (numbers : List Nat) (l : Loop κ τ) :
    numbers.foldl giveUp l = { l with handles := l.handles.map fun h =>
      if h.number ∈ numbers then { h with cancelled := true } else h } := by
  induction numbers generalizing l with
  | nil => simp
  | cons number numbers ih =>
    rw [List.foldl_cons, ih, giveUp]
    simp only [List.map_map]
    congr 1
    refine List.map_congr_left fun h _ => ?_
    by_cases hn : h.number = number <;> by_cases hns : h.number ∈ numbers <;> simp_all

/-- Cancelling all timers keeps both in step, and does the same to the agenda. -/
theorem InStep.cancelAll (hl : l.InStep) :
    l.cancelAll.InStep ∧ l.cancelAll.agenda = l.agenda.cancelAll := by
  -- Every active handle is listed, and all that are listed are given up.
  have hcancelled : ∀ h ∈ l.cancelAll.handles, h.cancelled = true := by
    intro h hh
    rw [Loop.cancelAll, foldl_giveUp] at hh
    obtain ⟨k, hk, rfl⟩ := List.mem_map.1 hh
    cases hc : k.cancelled with
    | true => split <;> simp [hc]
    | false =>
      have hentry := Table.mem_of_lookup ((hl.listed k hk).1 hc)
      have hvalue : k.number ∈ l.table.values := List.mem_map.2 ⟨_, hentry, rfl⟩
      rw [if_pos hvalue]
  have hnumbers : l.cancelAll.handles.map (·.number) = l.handles.map (·.number) := by
    rw [Loop.cancelAll, foldl_giveUp, List.map_map]
    refine List.map_congr_left fun h _ => ?_
    by_cases hn : h.number ∈ l.table.values <;> simp [hn]
  constructor
  · constructor
    case numbers => exact hnumbers ▸ hl.numbers
    case number_lt =>
      intro h hh
      obtain ⟨k, hk, hkn⟩ := List.mem_map.1 (hnumbers ▸ List.mem_map.2 ⟨h, hh, rfl⟩)
      rw [← hkn, Loop.cancelAll, foldl_giveUp]
      exact hl.number_lt k hk
    case listed =>
      intro h hh
      rw [hcancelled h hh]
      exact ⟨nofun, nofun⟩
    case held => exact fun _ _ h => by cases h
  · have htimers : l.cancelAll.handles.filter (fun h => !h.cancelled) = [] :=
      List.filter_eq_nil_iff.2 fun h hh => by simp [hcancelled h hh]
    rw [agenda, htimers, Loop.cancelAll, foldl_giveUp]
    rfl

/-! ### Coming up -/

/-- Timers that come up take their keys from the table and put their tasks in line. -/
theorem foldl_fire (hs : List (Handle κ τ)) (l : Loop κ τ) :
    ∃ table, (∀ key, table.get? key =
        if key ∈ hs.map (·.timer.key) then none else l.table.get? key) ∧
      hs.foldl fire l = { l with table := table, queue := l.queue ++ hs.map (·.timer.task) } := by
  induction hs generalizing l with
  | nil => exact ⟨l.table, by simp, by simp⟩
  | cons h hs ih =>
    obtain ⟨table, htable, hfold⟩ := ih (l.fire h)
    refine ⟨table, fun key => ?_, ?_⟩
    · rw [htable, fire, Table.get?_erase]
      by_cases hkey : key = h.timer.key <;> by_cases hmem : key ∈ hs.map (·.timer.key) <;>
        simp_all
    · rw [List.foldl_cons, hfold]
      simp [fire]

/-- So does the time that goes on. -/
theorem InStep.advance (hl : l.InStep) (moment : Int) :
    (l.advance moment).InStep ∧ (l.advance moment).agenda = l.agenda.advance moment := by
  have hdue : ∀ h, h ∈ l.due moment ↔
      h ∈ l.handles ∧ h.cancelled = false ∧ h.timer.due ≤ moment := fun h => by
    simp [due, List.mem_mergeSort]
  obtain ⟨table, htable, hfold⟩ := foldl_fire (l.due moment)
    { l with now := max l.now moment, handles := l.handles.filter (moment < ·.timer.due) }
  -- The key of a timer that has not come up is still in the table, since no other has that key.
  have hstays : ∀ h ∈ l.handles, h.cancelled = false → moment < h.timer.due →
      h.timer.key ∉ (l.due moment).map (·.timer.key) := by
    intro h hh hactive hlater hmem
    obtain ⟨k, hk, hkey⟩ := List.mem_map.1 hmem
    obtain ⟨hk, hkc, hkdue⟩ := (hdue k).1 hk
    obtain rfl := hl.eq_of_key_eq hk hh hkc hactive hkey
    omega
  rw [Loop.advance, hfold]
  constructor
  · constructor
    case numbers => exact hl.numbers.sublist (List.filter_sublist.map _)
    case number_lt => exact fun h hh => hl.number_lt h (List.mem_of_mem_filter hh)
    case listed =>
      intro h hh
      obtain ⟨hh, hlater⟩ := List.mem_filter.1 hh
      have hlisted := hl.listed h hh
      rw [htable]
      cases hc : h.cancelled with
      | false =>
        rw [if_neg (hstays h hh hc (by simpa using hlater))]
        exact hc ▸ hlisted
      | true =>
        rw [hc] at hlisted
        split
        · simp
        · exact hlisted
    case held =>
      intro key number hget
      rw [htable] at hget
      split at hget
      · cases hget
      · next hkey =>
        obtain ⟨h, hh, hn, hk⟩ := hl.held key number hget
        have hactive := ((hl.number_eq_iff hget hh).1 hn).1
        refine ⟨h, List.mem_filter.2 ⟨hh, ?_⟩, hn, hk⟩
        by_contra hlater
        have hcomes : h ∈ l.due moment := (hdue h).2 ⟨hh, hactive, by simpa using hlater⟩
        exact hkey (List.mem_map.2 ⟨h, hcomes, hk⟩)
  · have hfired : (l.due moment).map (·.timer) =
        (l.agenda.timers.filter (·.due ≤ moment)).mergeSort (·.due ≤ ·.due) := by
      rw [due, List.map_mergeSort (s := fun t u : Timer κ τ => t.due ≤ u.due) fun _ _ _ _ => rfl,
        agenda, List.filter_map, List.filter_filter]
      congr 3
      funext h
      simp [Bool.and_comm]
    have hlater : ((l.handles.filter (moment < ·.timer.due)).filter fun h => !h.cancelled).map
        (·.timer) = l.agenda.timers.filter (moment < ·.due) := by
      rw [agenda, List.filter_map, List.filter_filter, List.filter_filter]
      congr 2
      funext h
      simp [Bool.and_comm]
    simp only [Agenda.advance, ← hfired, ← hlater, List.map_map]
    rfl

/-! ### Whole runs -/

/-- And so does every call. -/
theorem InStep.perform (hl : l.InStep) (c : Agenda.Call κ τ) :
    (l.perform c).InStep ∧ (l.perform c).agenda = l.agenda.perform c := by
  cases c with
  | debounce key delay task => exact hl.debounce key delay task
  | cancel key => exact ⟨hl.cancel key, (hl.cancel_agenda key).1⟩
  | cancelAll => exact hl.cancelAll
  | advance moment => exact hl.advance moment

/-- Hence all calls do. -/
theorem InStep.performAll (hl : l.InStep) (calls : List (Agenda.Call κ τ)) :
    (l.performAll calls).InStep ∧ (l.performAll calls).agenda = l.agenda.performAll calls := by
  induction calls generalizing l with
  | nil => exact ⟨hl, rfl⟩
  | cons c calls ih =>
    obtain ⟨hstep, hagenda⟩ := hl.perform c
    obtain ⟨hrun, hrunAgenda⟩ := ih hstep
    exact ⟨hrun, hrunAgenda.trans (by rw [hagenda]; rfl)⟩

/-- The loop does what the agenda says, and answers as the agenda does whether there was a timer to
be cancelled. -/
theorem performAll_agenda (calls : List (Agenda.Call κ τ)) :
    (performAll {} calls).agenda = Agenda.performAll {} calls ∧
      ∀ key, ((performAll {} calls).cancel key).2 = (Agenda.performAll {} calls).isSet key := by
  have hempty : InStep ({} : Loop κ τ) := inStep_empty
  obtain ⟨hstep, hagenda⟩ := hempty.performAll calls
  refine ⟨hagenda, fun key => ?_⟩
  rw [(hstep.cancel_agenda key).2, hagenda]
  rfl

end Loop

end LiveSheet
