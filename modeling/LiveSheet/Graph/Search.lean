import LiveSheet.Table

/-!
# Depth-first search

A walk enters a node, goes to the nodes behind its edges, and finishes it when it has finished all
of them. The order in which nodes are finished puts each after what it leads to, except along a
cycle, so a cycle can be reached exactly if that order leaves a node before one of its successors.

Edges are a table from nodes to lists of nodes, in any order and to nodes that have no entry
themselves. A node is entered only if it has not been before, hence the depth of a walk is at most
the number of places in the table.
-/

namespace LiveSheet.Search

variable {κ : Type} [DecidableEq κ]

/-- The state of a walk: the nodes it has entered, and those it has finished, the last one first. -/
structure Walk (κ : Type) where
  entered : List κ
  finished : List κ
deriving Repr, DecidableEq

/-- The walk that has not begun. -/
def Walk.start : Walk κ :=
  ⟨[], []⟩

/-- Goes through a node and what it leads to, unless it has been entered before. -/
def visit (next : κ → List κ) : (depth : Nat) → Walk κ → κ → Walk κ
  | 0, w, _ => w
  | depth + 1, w, k =>
    if k ∈ w.entered then w
    else
      let w := (next k).foldl (visit next depth) ⟨k :: w.entered, w.finished⟩
      ⟨w.entered, k :: w.finished⟩

/-- The nodes that a node leads to. -/
def successors (edges : Table κ (List κ)) (k : κ) : List κ :=
  (edges.get? k).getD []

/-- A number that no depth of a walk exceeds. -/
def depthBound (edges : Table κ (List κ)) : Nat :=
  (edges.keys ++ edges.values.flatten).length + 1

/-- The nodes that can be reached from some roots, in the order in which they are finished. -/
def finishOrder (edges : Table κ (List κ)) (roots : List κ) : List κ :=
  (roots.foldl (visit (successors edges) (depthBound edges)) Walk.start).finished.reverse

/-- Whether each node of a list comes after all its successors. -/
def isOrdered (next : κ → List κ) : (passed : List κ) → List κ → Bool
  | _, [] => true
  | passed, k :: ks => (next k).all (· ∈ passed) && isOrdered next (k :: passed) ks

/-- Whether a cycle can be reached from a node. -/
def reachesCycle (edges : Table κ (List κ)) (k : κ) : Bool :=
  !isOrdered (successors edges) [] (finishOrder edges [k])

end LiveSheet.Search
