import LiveSheet.Proofs.Collisions
import LiveSheet.Proofs.Lasting

/-!
# What has been done and what remains to be done

While a sheet works off its agenda, every node that is watched is among the nodes `todo` that are
recalculated at once, or its recalculation is on the agenda, or it is up to date, or it depends on a
node that has lost one that it read, or on a tainted one: one that has been doubtful from the first,
or that collides with what it was in a sheet of the `past` (`Sheet.Progress`). Recalculating the
first of `todo` keeps this (`Progress.recalculate`), and so do the steps of the worker. When nothing
is left to do, every watched node that depends on nothing tainted is up to date
(`Progress.upToDate`).
-/

namespace LiveSheet.Sheet

open Relation

variable {env : Environment} {s s' : Sheet} {id k : NodeId} {c c' : Calculator} {loud : Bool}
  {past : List Sheet} {doubtful : NodeId → Prop}

/-! ### Progress -/

/-- Whether a node has been doubtful from the first, or collides with what it was. -/
def Tainted (past : List Sheet) (doubtful : NodeId → Prop) (s : Sheet) (k : NodeId) : Prop :=
  doubtful k ∨ Collided past s k

/-- Why a node need not be recalculated at once. -/
inductive Covered (env : Environment) (past : List Sheet) (doubtful : NodeId → Prop) (s : Sheet)
    (k : NodeId) : Prop where
  | awaits (h : s.Awaits k)
  | upToDate (h : UpToDate env s k)
  | missing (d : NodeId) (hmissing : s.ReadsMissing d) (hreach : TransGen s.graph.Reads k d)
  | tainted (m : NodeId) (htainted : Tainted past doubtful s m)
      (hreach : ReflTransGen s.graph.Reads k m)

/-- What a sheet owes to some watched nodes while the nodes `todo` are recalculated one after the
other. -/
structure Progress (env : Environment) (past : List Sheet) (doubtful watched : NodeId → Prop)
    (s : Sheet) (todo : List NodeId) : Prop where
  kept : ∀ k c, ¬ doubtful k → s.calculator? k = some c →
    Placed env s.graph.holder? c ∧ (Honest env s.graph.holder? c ∨ Collided past s k) ∨
      k ∈ todo ∧ Suspect env past k c
  linked : ∀ k c, watched k → s.calculator? k = some c →
    k ∈ todo ∨ s.Waiting k ∨ c.reads = (reading? env s k c).getD []
  covered : ∀ k, watched k → k ∈ s.graph.nodes.keys → k ∈ todo ∨ Covered env past doubtful s k

variable {watched : NodeId → Prop} {todo : List NodeId}

/-- A longer past taints no less. -/
theorem Tainted.mono {past' : List Sheet} (h : Tainted past doubtful s k) (hpast : past ⊆ past') :
    Tainted past' doubtful s k :=
  h.imp_right (·.mono hpast)

/-- A longer past covers no less. -/
theorem Covered.mono {past' : List Sheet} (h : Covered env past doubtful s k)
    (hpast : past ⊆ past') : Covered env past' doubtful s k := by
  cases h with
  | awaits hawaits => exact .awaits hawaits
  | upToDate hupToDate => exact .upToDate hupToDate
  | missing d hmissing hreach => exact .missing d hmissing hreach
  | tainted m htainted hreach => exact .tainted m (htainted.mono hpast) hreach

/-- More of the past may be remembered. -/
theorem Progress.mono {past' : List Sheet} (h : Progress env past doubtful watched s todo)
    (hpast : past ⊆ past') : Progress env past' doubtful watched s todo where
  kept k c hsure hk := by
    rcases h.kept k c hsure hk with
      ⟨hplaced, hhonest⟩ | ⟨hmem, before, hbefore, hcoherent, hc, hkept⟩
    · exact .inl ⟨hplaced, hhonest.imp_right (·.mono hpast)⟩
    · exact .inr ⟨hmem, before, hpast hbefore, hcoherent, hc, hkept.imp_right (·.mono hpast)⟩
  linked := h.linked
  covered k hwatched hk := (h.covered k hwatched hk).imp_right (·.mono hpast)

/-- A silent recalculation of a faithful node leaves the edges as they are. -/
theorem Effect.reads_of_silent (heffect : Effect s id c' loud s') (henv : env.Answers)
    (h : s.Coherent) (hc : s.calculator? id = some c) (hfaithful : Faithful env s id c)
    (hverdict : Verdict env s s' id c c' loud) (hsilent : loud = false) :
    s'.graph.Reads = s.graph.Reads := by
  refine heffect.reads_of_eq h hc (hverdict.reads_of_silent henv hfaithful hsilent) ?_
  rw [hverdict.spec.2.2]
  exact (h.mem_getD_reading (henv.nodup _)).2

/-- Another node that reads a missing one still does so. -/
theorem Effect.readsMissing_other (heffect : Effect s id c' loud s') (hne : k ≠ id)
    (h : s.ReadsMissing k) : s'.ReadsMissing k := by
  obtain ⟨ck, hck, a, ha, hmissing⟩ := h
  refine ⟨ck, (heffect.calculator_other hne).trans hck, a, ha, ?_⟩
  rw [heffect.nodeKeys]
  exact hmissing

/-- Another node that collides still does so. -/
theorem Effect.collided_other (heffect : Effect s id c' loud s') (hne : k ≠ id)
    (h : Collided past s k) : Collided past s' k := by
  obtain ⟨ck, hck⟩ := h.calculator
  exact h.congr hck ((heffect.calculator_other hne).trans hck) rfl rfl fun a _ => heffect.headerOf a

/-- Other nodes stay tainted when one is recalculated. -/
theorem Effect.tainted_other (heffect : Effect s id c' loud s') (hne : k ≠ id)
    (h : Tainted past doubtful s k) : Tainted past doubtful s' k :=
  h.imp_right (heffect.collided_other hne)

/-- After a loud recalculation, whatever was covered before is covered by what follows. -/
theorem Covered.of_loud (henv : env.Answers) (h : s.Coherent) (h' : s'.Coherent)
    (heffect : Effect s id c' loud s') (hloud : loud = true) (hne : k ≠ id)
    (hk : k ∈ s'.graph.nodes.keys) (hcovered : Covered env past doubtful s k) :
    Covered env past doubtful s' k := by
  have hfollows : ReflTransGen s'.graph.Reads k id → Covered env past doubtful s' k := by
    intro hreach
    rcases reflTransGen_iff_eq_or_transGen.1 hreach with heq | hreach
    · exact absurd heq.symm hne
    · exact .awaits (heffect.awaits_of_reaches h' hloud hk hne hreach)
  have hsame : ∀ x y, ¬ x = id → s.graph.Reads x y → s'.graph.Reads x y :=
    fun x y hx => (heffect.reads_other hx).2
  cases hcovered with
  | awaits hawaits => exact .awaits (heffect.awaits hawaits)
  | upToDate hupToDate =>
    by_cases hreach : TransGen s'.graph.Reads k id
    · exact hfollows hreach.to_reflTransGen
    · exact .upToDate (heffect.upToDate_of_not_reaches h henv hne hreach hupToDate)
  -- The way to such a node either stays or leads through the one that is recalculated.
  | missing d hmissing hpath =>
    rcases transGen_or_reaches hsame hpath with hpath' | ⟨z, rfl, hreach⟩
    · by_cases hd : d = id
      · exact hfollows (hd ▸ hpath'.to_reflTransGen)
      · exact .missing d (heffect.readsMissing_other hd hmissing) hpath'
    · exact hfollows hreach
  | tainted m htainted hpath =>
    rcases reflTransGen_or_reaches hsame hpath with hpath' | ⟨z, rfl, hreach⟩
    · by_cases hm : m = id
      · exact hfollows (hm ▸ hpath')
      · exact .tainted m (heffect.tainted_other hm htainted) hpath'
    · exact hfollows hreach

/-- A silent recalculation of a faithful node changes nothing that covers another one. -/
theorem Covered.of_faithful (henv : env.Answers) (h : s.Coherent) (hc : s.calculator? id = some c)
    (hfaithful : Faithful env s id c) (heffect : Effect s id c' loud s')
    (hverdict : Verdict env s s' id c c' loud) (hsilent : loud = false) (hne : k ≠ id)
    (hcovered : Covered env past doubtful s k) : Covered env past doubtful s' k := by
  have hedges := heffect.reads_of_silent henv h hc hfaithful hverdict hsilent
  have hreads := hverdict.reads_of_silent henv hfaithful hsilent
  cases hcovered with
  | awaits hawaits => exact .awaits (heffect.awaits hawaits)
  | upToDate hupToDate =>
    have hresult := hverdict.result_of_silent h hc hsilent
    exact .upToDate (heffect.upToDate_of_same h henv hc hedges hresult hne hupToDate)
  | missing d hmissing hpath =>
    -- What a faithful node reads is there, so the node that reads a missing one is another.
    have hd : d ≠ id := by
      rintro rfl
      obtain ⟨cd, hcd, a, ha, hnot⟩ := hmissing
      obtain rfl : c = cd := Option.some.inj (hc.symm.trans hcd)
      rw [← hreads, hverdict.spec.2.2] at ha
      exact hnot ((h.mem_getD_reading (henv.nodup c.expression)).2 a ha)
    exact .missing d (heffect.readsMissing_other hd hmissing) (hedges ▸ hpath)
  | tainted m htainted hpath =>
    refine .tainted m ?_ (hedges ▸ hpath)
    by_cases hm : m = id
    · subst hm
      exact htainted.imp_right fun hcollided => hcollided.congr hc heffect.calculator_self
        (hverdict.print_of_silent henv h hc hsilent).1 hreads fun a _ => heffect.headerOf a
    · exact heffect.tainted_other hm htainted

/-- If the node is tainted after a recalculation, this covers what depends on it, and for the others
nothing changes. -/
theorem Covered.of_tainted (henv : env.Answers) (h : s.Coherent)
    (heffect : Effect s id c' loud s') (hself : Tainted past doubtful s' id) (hne : k ≠ id)
    (hcovered : Covered env past doubtful s k) : Covered env past doubtful s' k := by
  by_cases hreach : ReflTransGen s'.graph.Reads k id
  · exact .tainted id hself hreach
  have hsame : ∀ x y, ¬ x = id → s.graph.Reads x y → s'.graph.Reads x y :=
    fun x y hx => (heffect.reads_other hx).2
  cases hcovered with
  | awaits hawaits => exact .awaits (heffect.awaits hawaits)
  | upToDate hupToDate =>
    exact .upToDate (heffect.upToDate_of_not_reaches h henv hne
      (fun hpath => hreach hpath.to_reflTransGen) hupToDate)
  | missing d hmissing hpath =>
    rcases transGen_or_reaches hsame hpath with hpath' | ⟨z, rfl, hback⟩
    · have hd : d ≠ id := fun hd => hreach (hd ▸ hpath'.to_reflTransGen)
      exact .missing d (heffect.readsMissing_other hd hmissing) hpath'
    · exact absurd hback hreach
  | tainted m htainted hpath =>
    rcases reflTransGen_or_reaches hsame hpath with hpath' | ⟨z, rfl, hback⟩
    · have hm : m ≠ id := fun hm => hreach (hm ▸ hpath')
      exact .tainted m (heffect.tainted_other hm htainted) hpath'
    · exact absurd hback hreach

/-- The recalculation of the first node that is to be recalculated. -/
theorem Progress.recalculate (henv : env.Answers) (hcoherent : s.Coherent)
    (h : Progress env past doubtful watched s (id :: todo)) :
    Progress env past doubtful watched (recalculate env s id).1 todo := by
  cases hc : s.calculator? id with
  | none =>
    rw [recalculate_of_none hc]
    refine ⟨fun k c hsure hk => ?_, fun k c hwatched hk => ?_, fun k hwatched hk => ?_⟩
    · exact (h.kept k c hsure hk).imp_right (.imp_left (mem_of_calculator?_none hc hk))
    · exact (h.linked k c hwatched hk).imp_left (mem_of_calculator?_none hc hk)
    · obtain ⟨ck, hck⟩ := hcoherent.calculator_of_mem hk
      exact (h.covered k hwatched hk).imp_left (mem_of_calculator?_none hc hck)
  | some c =>
    have hnames := henv.nodup c.expression
    obtain ⟨c', loud, heffect, hverdict⟩ := hcoherent.recalculate_spec hnames hc
    generalize (Sheet.recalculate env s id).1 = s' at heffect hverdict
    have hcoherent' := heffect.coherent hcoherent hnames hc hverdict
    -- When nobody is told, the node was already what it should be, or it bears a taint.
    have hturn : loud = false → Faithful env s id c ∨ Tainted past doubtful s' id := by
      intro hsilent
      by_cases hdoubt : doubtful id
      · exact .inr (.inl hdoubt)
      · exact (hverdict.faithful_or_collided henv hcoherent hc heffect
          ((h.kept id c hdoubt hc).imp_right fun hsuspect => hsuspect.2) hsilent).imp_right .inr
    have hholder : s'.graph.holder? = s.graph.holder? := funext heffect.holder?
    obtain ⟨hexpression, -, hreads⟩ := hverdict.spec
    refine ⟨fun k ck hsure hk => ?_, fun k ck hwatched hk => ?_, fun k hwatched hk => ?_⟩
    · rw [hholder]
      by_cases hne : k = id
      · subst hne
        obtain rfl := heffect.eq_of_calculator hk
        refine .inl ⟨hverdict.placed henv hcoherent hc heffect, ?_⟩
        by_cases hcollided : Collided past s' k
        · exact .inr hcollided
        · exact .inl (hverdict.honest henv hcoherent hc
            fun hsilent => (hturn hsilent).resolve_right (not_or.2 ⟨hsure, hcollided⟩))
      · rw [heffect.calculator_other hne] at hk
        rcases h.kept k ck hsure hk with ⟨hplaced, hhonest⟩ | ⟨hmem, hsuspect⟩
        · exact .inl ⟨hplaced, hhonest.imp_right (heffect.collided_other hne)⟩
        · exact .inr ⟨(List.mem_cons.1 hmem).resolve_left hne, hsuspect⟩
    · rw [heffect.reading hcoherent k (henv.nodup _), heffect.waiting_iff]
      by_cases hne : k = id
      · subst hne
        obtain rfl := heffect.eq_of_calculator hk
        refine .inr (.inr ?_)
        rw [hreads]
        unfold reading?
        rw [hexpression]
      · rw [heffect.calculator_other hne] at hk
        exact (h.linked k ck hwatched hk).imp_left fun hmem =>
          (List.mem_cons.1 hmem).resolve_left hne
    · by_cases hne : k = id
      · subst hne
        by_cases htainted : Tainted past doubtful s' k
        · exact .inr (.tainted k htainted .refl)
        · exact .inr (.upToDate (heffect.upToDate_self henv hcoherent
            (fun hsilent => (hturn hsilent).resolve_right htainted) hverdict))
      · rcases h.covered k hwatched (heffect.nodeKeys ▸ hk) with hmem | hcovered
        · exact .inl ((List.mem_cons.1 hmem).resolve_left hne)
        refine .inr ?_
        cases hloud : loud with
        | true => exact hcovered.of_loud henv hcoherent hcoherent' heffect hloud hne hk
        | false =>
          rcases hturn hloud with hfaithful | htainted
          · exact hcovered.of_faithful henv hcoherent hc hfaithful heffect hverdict hloud hne
          · exact hcovered.of_tainted henv hcoherent heffect htainted hne

/-! ### Progress at work -/

/-- A node that is up to date is up to date in every sheet that resembles this one. -/
theorem UpToDate.resembles (h : UpToDate env s k) (hsame : s.Resembles s' todo) :
    UpToDate env s' k :=
  h.congr (hsame.calculator? k) (fun c _ => hsame.reading? k c) (hsame.leadsToCycle k)
    fun _ _ a _ => congrFun hsame.seen a

/-- A node that has collided has collided in every sheet that resembles this one. -/
theorem Collided.resembles (h : Collided past s k) (hsame : s.Resembles s' todo) :
    Collided past s' k := by
  obtain ⟨c, hc⟩ := h.calculator
  exact h.congr hc ((hsame.calculator? k).trans hc) rfl rfl fun a _ => hsame.headerOf a

/-- A tainted node is tainted in every sheet that resembles this one. -/
theorem Tainted.resembles (h : Tainted past doubtful s k) (hsame : s.Resembles s' todo) :
    Tainted past doubtful s' k :=
  h.imp_right (·.resembles hsame)

/-- A node that misses a header misses it in every sheet that resembles this one. -/
theorem ReadsMissing.resembles (h : s.ReadsMissing k) (hsame : s.Resembles s' todo) :
    s'.ReadsMissing k := by
  obtain ⟨c, hc, a, ha, hmissing⟩ := h
  exact ⟨c, (hsame.calculator? k).trans hc, a, ha, hsame.nodes ▸ hmissing⟩

/-- What is owed is the same in all sheets with the same nodes, edges and things to do. -/
theorem Progress.resembles (h : Progress env past doubtful watched s [])
    (hsame : s.Resembles s' todo) : Progress env past doubtful watched s' todo where
  kept k c hsure hk := by
    rw [hsame.calculator?] at hk
    rw [hsame.holder?]
    obtain ⟨hplaced, hhonest⟩ := (h.kept k c hsure hk).resolve_right fun hsuspect =>
      absurd hsuspect.1 (by simp)
    exact .inl ⟨hplaced, hhonest.imp_right (·.resembles hsame)⟩
  linked k c hwatched hk := by
    rw [hsame.calculator?] at hk
    rw [hsame.reading?]
    rcases h.linked k c hwatched hk with hmem | hwait | hreads
    · exact absurd hmem (by simp)
    · exact (hsame.waiting k hwait).imp_right .inl
    · exact .inr (.inr hreads)
  covered k hwatched hk := by
    rw [hsame.nodes] at hk
    rcases h.covered k hwatched hk with hmem | hwait | hupToDate | ⟨d, hmissing, hreach⟩ |
      ⟨m, htainted, hreach⟩
    · exact absurd hmem (by simp)
    · exact (hsame.awaits k hwait).imp_right .awaits
    · exact .inr (.upToDate (hupToDate.resembles hsame))
    · exact .inr (.missing d (hmissing.resembles hsame) (hsame.reads ▸ hreach))
    · exact .inr (.tainted m (htainted.resembles hsame) (hsame.reads ▸ hreach))

/-- The worker goes on with what it has begun. -/
theorem lasts_progress (henv : env.Answers) (past : List Sheet)
    (doubtful watched : NodeId → Prop) :
    Lasts env fun s todo => s.Coherent ∧ Progress env past doubtful watched s todo :=
  .of_resembles (·.1)
    (fun h => ⟨h.1.recalculate henv.nodup _, h.2.recalculate henv h.1⟩)
    fun h hsame hcoherent => ⟨hcoherent, h.2.resembles hsame⟩

/-- When nothing is left to do, every watched node is up to date, or depends on a tainted one. -/
theorem Progress.upToDate (h : Progress env past doubtful watched s [])
    (haccounted : Accounted env s []) (hrest : s.AtRest) (hwatched : watched k)
    (hk : k ∈ s.graph.nodes.keys) :
    UpToDate env s k ∨ ∃ m, Tainted past doubtful s m ∧ ReflTransGen s.graph.Reads k m := by
  rcases h.covered k hwatched hk with
    hmem | hawaits | hupToDate | ⟨d, ⟨c, hc, a, ha, hmissing⟩, -⟩ | ⟨m, htainted, hreach⟩
  · exact absurd hmem (by simp)
  · exact absurd hawaits (hrest.not_awaits k)
  · exact .inl hupToDate
  · rcases haccounted.registered d c hc with hmem | hregistered
    · exact absurd hmem (by simp)
    · exact absurd (hregistered a ha) hmissing
  · exact .inr ⟨m, htainted, hreach⟩

/-- It reads what it should then. -/
theorem Progress.reads_eq (h : Progress env past doubtful watched s []) (hrest : s.AtRest)
    (hwatched : watched k) (hc : s.calculator? k = some c) :
    c.reads = (reading? env s k c).getD [] := by
  rcases h.linked k c hwatched hc with hmem | hwaiting | hreads
  · exact absurd hmem (by simp)
  · exact absurd (.inl hwaiting) (hrest.not_awaits k)
  · exact hreads

end LiveSheet.Sheet
