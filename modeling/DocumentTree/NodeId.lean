/-!
# Node ids

A node is named by its slot in the arena that holds it. Ids outlive every
edit: a slot is never given up, so an id that named a node once names it
for the life of the tree.
-/

namespace DocumentTree

/-- The name of a node: the index of its slot. -/
structure NodeId where
  index : Nat
  deriving DecidableEq, Repr, Inhabited

namespace NodeId

/-- The document node, first in every tree. -/
def root : NodeId := ⟨0⟩

/-- An id in messages: a hash sign and the index. -/
def text (id : NodeId) : String := "#" ++ toString id.index

instance : ToString NodeId := ⟨text⟩

end NodeId

end DocumentTree
