import DocumentTree.Tree.Editing
import DocumentTree.Tree.Traversal
/-!
# Structural edits

Every edit first decides whether it is allowed and only then writes.
Refusals are tested in a fixed order, and the first one is the answer: the
ids in the order they are passed, each with what is required of it, and last
of all the test against cycles.
-/

namespace DocumentTree

namespace Tree

open Editing

variable (t : Tree)

/-! ## Inserting -/

def isDetached (id : NodeId) : Bool := (t.get? id).any Node.isDetached

/-- An insertion needs a parent in the arena, a detached child in the arena,
a reference (if any) that is a child of the parent, and a parent that is
neither the child nor below it. -/
def checkInsert (parent child : NodeId) (reference : Option NodeId) : Except EditError Unit := do
  require (parent ∈ t) (.unknownNode parent)
  require (child ∈ t) (.unknownNode child)
  require (t.isDetached child) (.alreadyAttached child)
  match reference with
  | none => pure ()
  | some id =>
    require (id ∈ t) (.unknownNode id)
    require (t.parent? id = some parent) (.notAChild parent id)
  require (child ≠ parent ∧ ¬ t.isDescendantOf parent child) (.hierarchyCycle parent child)

/-- Insert a detached node into the child list of `parent`, right before
`reference` or, without one, last. -/
def insertBefore (parent child : NodeId) (reference : Option NodeId) : Except Refusal Tree :=
  (·.2.tree) <$> t.edit do
    test (·.checkInsert parent child reference)
    write (·.link? parent child reference)

/-- Insert a detached node as the last child of `parent`. -/
def appendChild (parent child : NodeId) : Except Refusal Tree :=
  t.insertBefore parent child none

/-! ## Removing -/

/-- A removal needs both nodes in the arena and a child that names the
parent as its own. -/
def checkRemove (parent child : NodeId) : Except EditError Unit := do
  require (parent ∈ t) (.unknownNode parent)
  require (child ∈ t) (.unknownNode child)
  require (t.parent? child = some parent) (.notAChild parent child)

/-- Detach a child from its parent. It keeps its own subtree. -/
def removeChild (parent child : NodeId) : Except Refusal Tree :=
  (·.2.tree) <$> t.edit do
    test (·.checkRemove parent child)
    write (·.unlink? parent child)

/-- Detach a node from whatever parent it has. A node without one is left
alone. -/
def detach (id : NodeId) : Except Refusal Tree :=
  (·.2.tree) <$> t.edit do
    test fun t => require (id ∈ t) (.unknownNode id)
    match (← get).tree.parent? id with
    | none => pure ()
    | some parent => write (·.unlink? parent id)

/-! ## Moving all children -/

/-- Moving a node's children onto that node itself does nothing, and is
worth a warning. -/
def selfReparentWarning : Warning :=
  { component := "DOM", message := "reparenting a node's children onto itself is ignored" }

/-- Moving the children of one node to another needs both in the arena, and
a destination that is not below the source. -/
def checkReparent (destination source : NodeId) : Except EditError Unit := do
  require (destination ∈ t) (.unknownNode destination)
  require (source ∈ t) (.unknownNode source)
  require (destination = source ∨ ¬ t.isDescendantOf destination source)
    (.hierarchyCycle destination source)

/-- Move every child of `source` to the end of the child list of
`destination`, keeping their order. A list that can be emptied at all is
empty within `walkBound` moves. -/
def reparentChildren (destination source : NodeId) : Except Refusal (Tree × Option Warning) :=
  (fun (_, left) => (left.tree, left.warning?)) <$> t.edit do
    test (·.checkReparent destination source)
    if destination = source then
      warn selfReparentWarning
    else
      write fun t => t.moveChildren? destination source t.walkBound

/-! ## Copying and text -/

/-- Allocate a copy of a node, detached and without children. -/
def cloneNode (id : NodeId) : Except Refusal (NodeId × Tree) :=
  (fun (copy, left) => (copy, left.tree)) <$> t.edit do
    match (← get).tree.get? id with
    | none => throw (.unknownNode id)
    | some n => Editing.alloc n

/-- The last child of a node, if it is a text node. -/
def lastText? (parent : NodeId) : Option NodeId :=
  (t.lastChild? parent).filter fun id => t.satisfies id (·.kind = .text)

/-- Add text at the end of a node. A last child that is a text node takes it
in; otherwise a new text node is appended. The id is that of the node that
now holds the text. -/
def appendText (parent : NodeId) (s : String) : Except Refusal (NodeId × Tree) :=
  (fun (id, left) => (id, left.tree)) <$> t.edit do
    test fun t => require (parent ∈ t) (.unknownNode parent)
    test fun t => require (∀ last ∈ t.lastChild? parent, last ∈ t) .corruptLinks
    match (← get).tree.lastText? parent with
    | some last =>
      write (·.editContent? last (·.appendData s))
      pure last
    | none =>
      let id ← Editing.alloc (.detached (.text s))
      write (·.link? parent id none)
      pure id

end Tree

end DocumentTree
