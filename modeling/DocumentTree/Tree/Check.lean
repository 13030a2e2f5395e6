import DocumentTree.Tree.Traversal
/-!
# Checking the links

The edits of `Tree/Edit` keep the five links of every node in agreement.
`Tree.check` tests any arena for it, whatever its links, and names the first
defect it meets. It takes nothing for granted: links may lead out of the
arena, chains may loop, two parents may list one child.

It goes over the nodes twice. The first pass looks at each node by itself
and reads its child list both ways, noting for every listed child whose list
it was in. The second pass compares each parent link with that note and
looks for cycles.
-/

namespace DocumentTree

/-- How the links of an arena fail to agree. -/
inductive Defect where
  /-- A link leads out of the arena. -/
  | danglingLink (node target : NodeId)
  /-- The child list read forwards is not the list read backwards. -/
  | siblingMismatch (parent : NodeId)
  /-- A listed child names another parent, or none. -/
  | parentMismatch (parent child : NodeId)
  /-- A node names a parent whose list does not hold it. -/
  | unlisted (parent child : NodeId)
  /-- A node without a parent has a sibling. -/
  | orphanSibling (node : NodeId)
  | cycle (node : NodeId)
  /-- A scope marker carries data or attributes. -/
  | markerPayload (node : NodeId)
  deriving DecidableEq, Repr

namespace Defect

def message : Defect → String
  | danglingLink node target =>
    "node " ++ node.text ++ " links to " ++ target.text ++ ", which does not exist"
  | siblingMismatch parent =>
    "child list of " ++ parent.text ++ " is inconsistent between forward and backward walks"
  | parentMismatch parent child =>
    "node " ++ child.text ++ " is listed under " ++ parent.text ++ " but its parent link disagrees"
  | unlisted parent child =>
    "node " ++ child.text ++ " claims parent " ++ parent.text ++ " but is not among its children"
  | orphanSibling node => "node " ++ node.text ++ " has no parent but has sibling links"
  | cycle node => "node " ++ node.text ++ " is its own ancestor"
  | markerPayload node => "scope marker " ++ node.text ++ " carries data or attributes"

end Defect

namespace Tree

variable (t : Tree)

/-! ## One node by itself -/

/-- A link of the node leads out of the arena. -/
def danglingDefect? (id : NodeId) (l : Links) : Option Defect :=
  (l.targets.find? (· ∉ t)).map (.danglingLink id)

/-- The node is a scope marker, and not an empty one. -/
def payloadDefect? (id : NodeId) (c : Content) : Option Defect :=
  if c.kind = .scopeMarker ∧ ¬ (c.data = "" ∧ c.attributes = []) then some (.markerPayload id)
  else none

/-- The node has a sibling but no parent. -/
def orphanDefect? (id : NodeId) (l : Links) : Option Defect :=
  if l.parent = none ∧ ¬ l.isDetached then some (.orphanSibling id) else none

/-- What can be wrong with a node as its slot shows it. -/
def slotDefect? (id : NodeId) (n : Node) : Option Defect :=
  t.danglingDefect? id n.links <|> payloadDefect? id n.toContent <|> orphanDefect? id n.links

/-- The child list of a node, if both ways of reading it end within the size
of the arena and agree. -/
def childList? (parent : NodeId) : Option (List NodeId) := do
  let forward ← (t.forwardWalk parent).complete? t.size
  let backward ← (t.backwardWalk parent).complete? t.size
  if forward = backward.reverse then some forward else none

/-! ## The first pass -/

/-- For each node of a tree, the parent in whose child list it was found. -/
abbrev Listing (t : Tree) := Vector (Option NodeId) t.size

/-- Note a listed child, which has to name the parent as its own. -/
def listChild (parent : NodeId) (found : Listing t) (child : NodeId) :
    Except Defect (Listing t) :=
  if h : t.parent? child = some parent then
    .ok (found.set child.index (some parent) (mem_of_parent? h))
  else .error (.parentMismatch parent child)

/-- Test one node by itself and note the children it lists. -/
def listChildren (found : Listing t) (id : NodeId) : Except Defect (Listing t) :=
  match (t.get? id).bind (t.slotDefect? id) with
  | some d => .error d
  | none =>
    match t.childList? id with
    | none => .error (.siblingMismatch id)
    | some children => children.foldlM (t.listChild id) found

/-- The first pass, over all nodes. -/
def listing : Except Defect (Listing t) :=
  t.nodeIds.foldlM t.listChildren (Vector.replicate t.size none)

/-! ## The second pass -/

/-- The parent link leads to a list the node was not found in. -/
def unlistedDefect? (found : Listing t) (id : NodeId) : Option Defect :=
  (t.parent? id).bind fun parent =>
    if found[id.index]? = some (some parent) then none else some (.unlisted parent id)

/-- The way up from the node comes back to it. -/
def cycleDefect? (id : NodeId) : Option Defect :=
  if id ∈ (t.ancestorWalk id).take t.size then some (.cycle id) else none

/-- What can be wrong with the way up from a node. -/
def parentDefect? (found : Listing t) (id : NodeId) : Option Defect :=
  t.unlistedDefect? found id <|> t.cycleDefect? id

/-- Test that the links of all nodes agree, and name the first defect if
they do not. -/
def check : Except Defect Unit := do
  let found ← t.listing
  match t.nodeIds.findSome? (t.parentDefect? found) with
  | some d => .error d
  | none => .ok ()

end Tree

end DocumentTree
