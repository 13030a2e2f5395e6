import DocumentTree.Tree.Traversal
/-!
# Consistency

The links of an arena are redundant, and they are good for something only
while they agree. `Tree.Consistent` says that they do: no link leads out of
the arena, each child list reads the same both ways and holds exactly the
nodes that name its parent, a node outside every list has no siblings, and
no way up comes back to its start. It is said through the walks alone and
bounds nothing. Content has no part in it.
-/

namespace DocumentTree

namespace Tree

/-- The links of all nodes agree. -/
structure Consistent (t : Tree) : Prop where
  /-- No link leads out of the arena. -/
  links_mem : ∀ id l, t.links? id = some l → ∀ target ∈ l.targets, target ∈ t
  /-- A child list ends both ways, and reads backwards what it reads
  forwards. -/
  lists_agree : ∀ parent, ∃ l,
    (t.forwardWalk parent).Yields l ∧ (t.backwardWalk parent).Yields l.reverse
  /-- A node is in the list of the parent it names and in no other. -/
  listed_iff : ∀ parent child,
    (t.forwardWalk parent).Reaches child ↔ t.parent? child = some parent
  /-- A node without a parent has no siblings. -/
  orphan : ∀ id, t.parent? id = none → t.prevSibling? id = none ∧ t.nextSibling? id = none
  /-- No node is above itself. -/
  acyclic : ∀ id, ¬ (t.ancestorWalk id).Reaches id

end Tree

end DocumentTree
