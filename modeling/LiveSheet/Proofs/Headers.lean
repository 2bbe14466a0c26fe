import LiveSheet.Proofs.Loading
import LiveSheet.Proofs.Trail
import Mathlib.Data.List.Perm.Subperm
import Mathlib.Order.Bounds.Defs

/-!
# Generated headers

A node without a header of its own gets a numbered one. The search for it begins above the number of
nodes and passes over every number whose header a node has (`Workspace.tryHeader`). Nothing bounds
it but the nodes themselves: numbered headers are different, so there are not enough nodes for all
the headers that come next (`Workspace.exists_firstFree`).

The nodes are counted by their calculators and looked up by their records. Every operation, also one
that raises, leaves both of the same nodes (`Workspace.keeps_paired`), and so does every node that
is created while records are loaded. So the search begins above the number of nodes that it may
find, and ends with the first header that none of them has (`Workspace.Reachable.findsHeader`).
-/

namespace LiveSheet

/-! ### Nodes in both tables -/

namespace Sheet

variable {s s' : Sheet}

/-- Whether calculators and records are of the same nodes, in the same order. -/
def Paired (s : Sheet) : Prop :=
  s.calculators.keys = s.graph.nodes.keys

/-- The outline has the nodes of the calculators. -/
theorem ids_outline (s : Sheet) : s.outline.map (·.1) = s.calculators.keys := by
  rw [outline, List.map_map]
  rfl

/-- Sheets with the same nodes are paired alike. -/
theorem Paired.of_sameNodes (h : s.Paired) (hsame : SameNodes s s') : s'.Paired := by
  rw [Paired, ← ids_outline, hsame.outline, ids_outline, hsame.nodeKeys]
  exact h

/-- A new node gets a calculator and a record. -/
theorem Paired.withNode (h : s.Paired) (id : NodeId) (header expression : String) (delay : Int) :
    (s.withNode id header expression delay).Paired := by
  refine (Table.keys_insert ..).trans ((Table.keys_insert ..).trans ?_).symm
  rw [h]
  rfl

/-- And a node loses both. -/
theorem Paired.without (h : s.Paired) (id : NodeId) : (s.without id).Paired :=
  (Table.keys_erase ..).trans (h ▸ (Graph.keys_unregister ..).symm)

end Sheet

namespace Workspace

variable {setup : Setup} {w w' : Workspace}

/-- Before anything is recalculated, an operation does the same to both tables. -/
theorem keeps_paired (setup : Setup) : Keeps setup fun w => w.sheet.Paired :=
  .of_sameNodes (fun h hsame => h.of_sameNodes hsame.sheet)
    (fun h record => h.withNode _ _ record.expression setup.delay)
    (fun h => (Sheet.keys_cleared h).symm)
    (fun h _ _ => (Sheet.calculatorKeys_modify ..).trans h)
    (fun h _ _ => h.trans (Sheet.keys_withHeader ..).symm)
    fun h id => h.without id

/-- Every reachable workspace is paired. -/
theorem Reachable.paired (h : Reachable setup w) : w.sheet.Paired :=
  (keeps_paired setup).reachable rfl h

/-! ### The first free header -/

/-- The header that is generated for a number. -/
def numberedHeader (n : Nat) : String :=
  "Node" ++ toString n

/-- Whether `m` is the least number from `n` on whose header is not taken. -/
def FirstFree (taken : List (Option String)) (n m : Nat) : Prop :=
  IsLeast {k | n ≤ k ∧ some (numberedHeader k) ∉ taken} m

variable {taken : List (Option String)} {n m : Nat}

/-- More headers than there are taken cannot all be taken. -/
theorem exists_firstFree (taken : List (Option String)) (n : Nat) :
    ∃ m ≤ n + taken.length, FirstFree taken n m := by
  obtain ⟨k, hle, hlt, hfree⟩ : ∃ k, n ≤ k ∧ k < n + (taken.length + 1) ∧
      some (numberedHeader k) ∉ taken := by
    by_contra! hall
    have hinjective : Function.Injective fun k => some (numberedHeader k) :=
      (Option.some_injective _).comp (numbered_injective "Node")
    have hnodup := (List.nodup_range' (s := n) (n := taken.length + 1)).map hinjective
    have hsubset : (List.range' n (taken.length + 1)).map (fun k => some (numberedHeader k)) ⊆
        taken := by
      intro header hheader
      obtain ⟨k, hk, rfl⟩ := List.mem_map.1 hheader
      obtain ⟨hle, hlt⟩ := List.mem_range'_1.1 hk
      exact hall k hle hlt
    have hlength := (List.subperm_of_subset hnodup hsubset).length_le
    rw [List.length_map, List.length_range'] at hlength
    omega
  have hexists : ∃ k, n ≤ k ∧ some (numberedHeader k) ∉ taken := ⟨k, hle, hfree⟩
  refine ⟨Nat.find hexists, ?_, Nat.find_spec hexists, fun k' hk' => Nat.find_min' hexists hk'⟩
  exact (Nat.find_min' hexists ⟨hle, hfree⟩).trans (by omega)

/-- The first free number is the one to be tried, or it comes later. -/
theorem FirstFree.eq_or_next (h : FirstFree taken n m) :
    (some (numberedHeader n) ∉ taken ∧ m = n) ∨
      (some (numberedHeader n) ∈ taken ∧ n < m ∧ FirstFree taken (n + 1) m) := by
  obtain ⟨⟨hle, hfree⟩, hleast⟩ := h
  by_cases hn : some (numberedHeader n) ∈ taken
  · have hlt : n < m := by
      refine lt_of_le_of_ne hle fun heq => ?_
      exact hfree (heq ▸ hn)
    exact .inr ⟨hn, hlt, ⟨hlt, hfree⟩, fun k hk => hleast ⟨(Nat.le_succ n).trans hk.1, hk.2⟩⟩
  · exact .inl ⟨hn, le_antisymm (hleast ⟨le_rfl, hn⟩) hle⟩

/-- The search finds the first free number, if it may go on for long enough. -/
theorem freshHeader_eq {tries : Nat} (h : FirstFree taken n m) (htries : m ≤ n + tries) :
    freshHeader taken tries n = numberedHeader m := by
  induction tries generalizing n with
  | zero =>
    obtain rfl : m = n := le_antisymm htries h.1.1
    rfl
  | succ tries ih =>
    rw [freshHeader]
    rcases h.eq_or_next with ⟨hfree, rfl⟩ | ⟨htaken, -, hnext⟩
    · exact if_neg hfree
    · exact (if_pos htaken).trans (ih hnext (by omega))

/-! ### The search -/

/-- One try of the search for a header: a number is passed over if a node has its header. -/
def tryHeader (g : Graph NodeId) (n : Nat) : String ⊕ Nat :=
  match g.findByHeader (some (numberedHeader n)) with
  | some _ => .inr (n + 1)
  | none => .inl (numberedHeader n)

/-- A header is not found exactly if no node has it. -/
theorem findByHeader_eq_none_iff (w : Workspace) (header : Option String) :
    w.sheet.graph.findByHeader header = none ↔ header ∉ w.headers := by
  simp [Graph.findByHeader, headers, Table.values, List.find?_eq_none]

/-- The search ends with the first free header, however many are taken before it. -/
theorem endsWith_tryHeader (h : FirstFree w.headers n m) :
    Search.EndsWith (tryHeader w.sheet.graph) n (numberedHeader m) := by
  obtain ⟨k, rfl⟩ := Nat.exists_eq_add_of_le h.1.1
  -- By how far the first free number is.
  induction k generalizing n with
  | zero =>
    have hnone : w.sheet.graph.findByHeader (some (numberedHeader n)) = none :=
      (findByHeader_eq_none_iff w _).2 h.1.2
    refine Search.endsWith_of_stop ?_
    rw [tryHeader, hnone]
    rfl
  | succ k ih =>
    rcases h.eq_or_next with ⟨-, heq⟩ | ⟨htaken, -, hnext⟩
    · omega
    · have hstep : tryHeader w.sheet.graph n = .inr (n + 1) := by
        unfold tryHeader
        split
        · rfl
        · next hnone => exact absurd htaken ((findByHeader_eq_none_iff w _).1 hnone)
      rw [show n + (k + 1) = n + 1 + k by omega] at hnext ⊢
      exact Search.endsWith_of_step hstep (ih hnext)

/-- What the search for a header comes to in a workspace. -/
structure FindsHeader (w : Workspace) : Prop where
  /-- The nodes that are counted are the ones that are looked up. -/
  paired : w.ids = w.sheet.graph.nodes.keys
  /-- The search from above the number of nodes ends. -/
  ends : Search.EndsWith (tryHeader w.sheet.graph) (w.ids.length + 1) w.nextHeader
  /-- It has found the least number there whose header no node has. -/
  least : ∃ n, w.nextHeader = numberedHeader n ∧
    IsLeast {k | w.ids.length + 1 ≤ k ∧ some (numberedHeader k) ∉ w.headers} n

/-- In a paired workspace the search for a header ends with the least free number. -/
theorem findsHeader_of_paired (h : w.sheet.Paired) : FindsHeader w := by
  obtain ⟨n, hle, hfirst⟩ := exists_firstFree w.headers (w.ids.length + 1)
  have hsize : w.sheet.calculators.size = w.ids.length := (List.length_map ..).symm
  have hheader : w.nextHeader = numberedHeader n := by
    rw [nextHeader, hsize]
    exact freshHeader_eq hfirst hle
  exact ⟨h, hheader ▸ endsWith_tryHeader hfirst, n, hheader, hfirst⟩

/-- Whatever headers the nodes of a workspace have, the next one that is generated is the first that
none of them has, also for each of the records that are loaded. -/
theorem Reachable.findsHeader (h : Reachable setup w) :
    FindsHeader w ∧ ∀ (replaces : Bool) (records : List Record),
      FindsHeader ((if replaces then w.clear else w).createAll setup records).1 := by
  refine ⟨findsHeader_of_paired h.paired, fun replaces records => ?_⟩
  have hkeeps := keeps_paired setup
  refine findsHeader_of_paired (hkeeps.createAll ?_ records)
  split
  · exact hkeeps.clear h.paired
  · exact h.paired

/-- Nodes with numbered headers of their own, two of them with the same one. -/
def crowded : List Operation :=
  [.add ⟨some "Node5", "1"⟩, .add ⟨some "Node4", "Node5"⟩, .add ⟨none, "2"⟩,
    .rename "node-3" (some "Node4")]

set_option maxRecDepth 100000 in
/-- Numbers that are taken are passed over, also those that have been taken by a record before. -/
theorem findsHeader_crowded :
    let setup := Setup.ofSettings .standard {}
    let w := empty.performAll setup crowded
    let loading := (w.createAll setup [⟨none, ""⟩, ⟨some "Node7", ""⟩]).1
    Reachable setup w ∧ w.headers = [some "Node5", some "Node4", some "Node4"] ∧
      w.nextHeader = "Node6" ∧ FindsHeader w ∧ loading.nextHeader = "Node8" ∧
        FindsHeader loading := by
  intro setup w loading
  have hw : Reachable setup w := .performAll setup crowded
  have hheaders : w.headers = [some "Node5", some "Node4", some "Node4"] := by decide +kernel
  have hnext : w.nextHeader = "Node6" := by decide +kernel
  have hloading : loading.nextHeader = "Node8" := by decide +kernel
  obtain ⟨hfinds, hfindsLoading⟩ := hw.findsHeader
  exact ⟨hw, hheaders, hnext, hfinds, hloading, hfindsLoading false _⟩

end Workspace

end LiveSheet
