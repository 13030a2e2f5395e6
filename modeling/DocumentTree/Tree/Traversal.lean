import DocumentTree.Ends
import DocumentTree.Tree.Basic
import DocumentTree.Walk
/-!
# Traversal

The walks over a tree: up through the ancestors, back through the preceding
siblings, along a child list from both ends, and down through the
descendants in tree order. They follow the links as they are, and on an
arena whose links do not agree a walk may go on forever. Each has a reading
that stops after `walkBound` nodes, which is all of a walk that ends.
-/

namespace DocumentTree

namespace Tree

variable (t : Tree)

/-- The most nodes that a walk which ends can pass. It passes no node
twice, and after an id outside the arena nothing follows. -/
def walkBound : Nat := t.size + 1

/-! ## Upwards and backwards -/

/-- From parent to parent. -/
def ancestorWalk (id : NodeId) : Walk := { start := t.parent? id, next := t.parent? }

/-- From the sibling just before to the first. -/
def precedingWalk (id : NodeId) : Walk := { start := t.prevSibling? id, next := t.prevSibling? }

/-- The ancestors of a node, nearest first. -/
def ancestors (id : NodeId) : List NodeId := (t.ancestorWalk id).take t.walkBound

/-- The siblings before a node, nearest first. -/
def precedingSiblings (id : NodeId) : List NodeId := (t.precedingWalk id).take t.walkBound

/-- Whether a node lies below another one, at any depth. -/
def isDescendantOf (id ancestor : NodeId) : Bool := (t.ancestors id).contains ancestor

/-! ## Along a child list -/

/-- From the first child by next siblings. -/
def forwardWalk (parent : NodeId) : Walk :=
  { start := t.firstChild? parent, next := t.nextSibling? }

/-- From the last child by previous siblings. -/
def backwardWalk (parent : NodeId) : Walk :=
  { start := t.lastChild? parent, next := t.prevSibling? }

end Tree

/-- A position in a child list read from both ends: the next child to give
from either end. The list is used up when the two ends have met. -/
structure ChildCursor where
  front : Option NodeId := none
  back : Option NodeId := none
  deriving DecidableEq, Repr, Inhabited

namespace ChildCursor

variable (t : Tree)

/-- The next child from the front and where that leaves the cursor. -/
def next? (c : ChildCursor) : Option (NodeId × ChildCursor) :=
  c.front.map fun id =>
    (id, if c.front = c.back then {} else { c with front := t.nextSibling? id })

/-- The next child from the back and where that leaves the cursor. -/
def nextBack? (c : ChildCursor) : Option (NodeId × ChildCursor) :=
  c.back.map fun id =>
    (id, if c.front = c.back then {} else { c with back := t.prevSibling? id })

/-- The next child from the given end. -/
def nextAt? (c : ChildCursor) : End → Option (NodeId × ChildCursor)
  | .front => c.next? t
  | .back => c.nextBack? t

/-- The first `n` children from the given end. -/
def take (c : ChildCursor) (e : End) : Nat → List NodeId
  | 0 => []
  | n + 1 =>
    match c.nextAt? t e with
    | none => []
    | some (id, c) => id :: c.take e n

/-- What the cursor answers to requests at its ends. -/
def readEnds (c : ChildCursor) : List End → List (Option NodeId)
  | [] => []
  | e :: requests =>
    match c.nextAt? t e with
    | none => none :: c.readEnds requests
    | some (id, c) => some id :: c.readEnds requests

end ChildCursor

namespace Tree

variable (t : Tree)

/-- The cursor over the whole child list of a node. -/
def childCursor (parent : NodeId) : ChildCursor :=
  { front := t.firstChild? parent, back := t.lastChild? parent }

/-- The children of a node, first to last. -/
def children (parent : NodeId) : List NodeId :=
  (t.childCursor parent).take t .front t.walkBound

/-- The children of a node, last to first. -/
def childrenRev (parent : NodeId) : List NodeId :=
  (t.childCursor parent).take t .back t.walkBound

def childCount (parent : NodeId) : Nat := (t.children parent).length

/-! ## Downwards -/

/-- The nodes a climb from `id` passes: itself and its ancestors, up to but
not including `top`. -/
def climb (top id : NodeId) : List NodeId := (id :: t.ancestors id).takeWhile (· ≠ top)

/-- What follows the subtree of `id` in tree order, below `top`: the next
sibling of the first node on the climb that has one. -/
def following? (top id : NodeId) : Option NodeId := (t.climb top id).findSome? t.nextSibling?

/-- Through the subtree of a node in tree order: to the first child, or
past the subtree where there is none. -/
def descendantWalk (top : NodeId) : Walk :=
  { start := t.firstChild? top
    next := fun id => t.firstChild? id <|> t.following? top id }

/-- The descendants of a node in tree order, without the node itself. -/
def descendants (id : NodeId) : List NodeId := (t.descendantWalk id).take t.walkBound

/-! ## Two landmarks of a document -/

/-- The document element: the first child of the document that is an
element. -/
def documentElement? : Option NodeId :=
  (t.children .root).find? fun id => t.satisfies id Content.isElement

/-- The body of the document: the first child of the document element that
is a `body` or a `frameset`. -/
def body? : Option NodeId := do
  let html ← t.documentElement?
  (t.children html).find? fun id => t.satisfies id (·.isHtmlElementOneOf [.body, .frameset])

end Tree

end DocumentTree
