import LiveSheet.Proofs.AnyOrder

/-!
# Histories of workspaces

A workspace has come about by operations, with anything in between that may happen at any time.
Which nodes are wrong at rest depends on the sheets from which nodes were removed on the way, so a
history comes with these (`Workspace.History`). When nothing is done any more, every run of the
worker comes to rest, and what lasts is true there (`Sheet.Accounted.settles`).
-/

namespace LiveSheet

namespace Sheet

variable {env : Environment} {s : Sheet} {P : Sheet → Prop} {Q : Sheet → List NodeId → Prop}

/-- Whether every run from a sheet comes to rest, and `P` is true there. The worker's own steps are
one of these runs; in the others the edges get another order, time passes before it has to, or
timers fire before they are due. -/
def Settles (env : Environment) (s : Sheet) (P : Sheet → Prop) : Prop :=
  (IsRun env s fun steps => (worker env).settle steps s) ∧
    ∀ run, IsRun env s run → ∃ bound, ∀ n, bound ≤ n → (run n).AtRest ∧ P (run n)

/-- What settles with a property settles with a weaker one. -/
theorem Settles.mono {P' : Sheet → Prop} (h : s.Settles env P) (hP : ∀ s, P s → P' s) :
    s.Settles env P' := by
  refine ⟨h.1, fun run hrun => ?_⟩
  obtain ⟨bound, hbound⟩ := h.2 run hrun
  exact ⟨bound, fun n hn => (hbound n hn).imp_right (hP _)⟩

/-- What follows at rest from the table, the accounts and whatever lasts, is true when a sheet has
settled. -/
theorem Accounted.settles (henv : env.Answers) (h : Accounted env s []) (hlasts : Lasts env Q)
    (hQ : Q s [])
    (hP : ∀ s', s'.AtRest → s'.rows = s.rows → Accounted env s' [] → Q s' [] → P s') :
    s.Settles env P := by
  refine ⟨isRun_settle env s, fun run hrun => ?_⟩
  obtain ⟨bound, hbound⟩ := h.coherent.exists_atRest_of_isRun henv.nodup hrun
  refine ⟨bound, fun n hn => ⟨hbound n hn, hP _ (hbound n hn) ?_ ?_ ?_⟩⟩
  · exact ((lasts_rows henv s.rows).isRun henv.nodup h.coherent ⟨h.coherent, rfl⟩ hrun n).2.2
  · exact ((lasts_accounted henv).isRun henv.nodup h.coherent h hrun n).2
  · exact (hlasts.isRun henv.nodup h.coherent hQ hrun n).2

end Sheet

namespace Workspace

variable {setup : Setup} {allowed : Operation → Prop} {w : Workspace} {past : List Sheet}

/-- The sheets before the removals among some operations. -/
def beforeRemovals (setup : Setup) (w : Workspace) : List Operation → List Sheet
  | [] => []
  | .remove id :: rest => w.sheet :: beforeRemovals setup (w.perform setup (.remove id)) rest
  | operation :: rest => beforeRemovals setup (w.perform setup operation) rest

/-- The sheets before removals are those of the first operation and those of the others. -/
theorem beforeRemovals_cons (operation : Operation) (operations : List Operation) :
    w.beforeRemovals setup (operation :: operations) = w.beforeRemovals setup [operation] ++
      (w.perform setup operation).beforeRemovals setup operations := by
  cases operation <;> rfl

/-- The workspaces that come about by certain operations, with anything in between that may happen
at any time, and the sheets that there were before nodes were removed. -/
inductive History (setup : Setup) (allowed : Operation → Prop) : List Sheet → Workspace → Prop
  | empty : History setup allowed [] empty
  | perform {past : List Sheet} {w : Workspace} (h : History setup allowed past w)
      {operation : Operation} (hallowed : allowed operation) :
      History setup allowed (past ++ w.beforeRemovals setup [operation])
        (w.perform setup operation)
  | varies {past : List Sheet} {w : Workspace} {s : Sheet} (h : History setup allowed past w)
      (hs : w.sheet.Varies s) : History setup allowed past { w with sheet := s }

/-- Operations one after the other are a history in which nothing happens in between. -/
theorem History.performAll (setup : Setup) {operations : List Operation}
    (hallowed : ∀ operation ∈ operations, allowed operation) :
    History setup allowed (Workspace.empty.beforeRemovals setup operations)
      (Workspace.empty.performAll setup operations) := by
  have hfrom : ∀ {past w}, History setup allowed past w →
      History setup allowed (past ++ w.beforeRemovals setup operations)
        (w.performAll setup operations) := by
    induction operations with
    | nil => exact fun h => (List.append_nil _).symm ▸ h
    | cons operation operations ih =>
      intro past w h
      obtain ⟨hfirst, hrest⟩ := List.forall_mem_cons.1 hallowed
      rw [beforeRemovals_cons, ← List.append_assoc]
      exact ih hrest (h.perform hfirst)
  exact hfrom .empty

/-- A history ends in a reachable workspace. -/
theorem History.reachable (h : History setup allowed past w) : Reachable setup w := by
  induction h with
  | empty => exact .empty
  | perform _ _ ih => exact ih.perform _
  | varies _ hs ih => exact ih.varies hs

/-- A history stays one if more is allowed. -/
theorem History.mono {allowed' : Operation → Prop} (h : History setup allowed past w)
    (hallowed : ∀ operation, allowed operation → allowed' operation) :
    History setup allowed' past w := by
  induction h with
  | empty => exact .empty
  | perform _ hfirst ih => exact ih.perform (hallowed _ hfirst)
  | varies _ hs ih => exact ih.varies hs

end Workspace

end LiveSheet
