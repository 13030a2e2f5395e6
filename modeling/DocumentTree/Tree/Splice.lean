import DocumentTree.Tree.Basic
/-!
# Splicing child lists

The link surgery under every structural edit: putting a child into a child
list (`link?`), taking one out (`unlink?`), and moving a whole list
(`moveChildren?`). Nothing is checked here. A splice touches the child, its
two neighbours and the parent, and the parent plays the missing neighbour
at either end of its list: what precedes the first child is the parent's
first-child link, and what follows the last child is its last-child link.

On links that agree with each other every id met is in the arena. Other
links a splice follows and writes just the same, and it gives `none` where
one of them leads out of the arena.
-/

namespace DocumentTree

namespace Tree

variable (t : Tree)

/-- Say what comes after `before` in the child list of `parent`; `none`
stands for the place in front of the list. -/
def setNextOf? (parent : NodeId) (before next : Option NodeId) : Option Tree :=
  match before with
  | some id => t.modifyLinks? id ({ · with nextSibling := next })
  | none => t.modifyLinks? parent ({ · with firstChild := next })

/-- Say what comes before `after` in the child list of `parent`; `none`
stands for the place behind the list. -/
def setPrevOf? (parent : NodeId) (after prev : Option NodeId) : Option Tree :=
  match after with
  | some id => t.modifyLinks? id ({ · with prevSibling := prev })
  | none => t.modifyLinks? parent ({ · with lastChild := prev })

/-- What comes before `after` in the child list of `parent`, with `none`
for the place behind the list. -/
def prevOf? (parent : NodeId) (after : Option NodeId) : Option (Option NodeId) :=
  match after with
  | some id => (t.links? id).map Links.prevSibling
  | none => (t.links? parent).map Links.lastChild

/-- Put `child` into the child list of `parent` right before `reference`,
or last. -/
def link? (parent child : NodeId) (reference : Option NodeId) : Option Tree := do
  let prev ← t.prevOf? parent reference
  let t ← t.modifyLinks? child
    ({ · with parent := some parent, prevSibling := prev, nextSibling := reference })
  let t ← t.setNextOf? parent prev (some child)
  t.setPrevOf? parent reference (some child)

/-- Take `child` out of the child list of `parent`. It keeps its own
children. -/
def unlink? (parent child : NodeId) : Option Tree := do
  let l ← t.links? child
  let t ← t.setNextOf? parent l.prevSibling l.nextSibling
  let t ← t.setPrevOf? parent l.nextSibling l.prevSibling
  t.modifyLinks? child ({ · with parent := none, prevSibling := none, nextSibling := none })

/-- Move every child of `source` to the end of the child list of
`destination`, always the one that is first by then, in at most `n` moves;
`none` if children are left after that. -/
def moveChildren? (t : Tree) (destination source : NodeId) : Nat → Option Tree
  | 0 => do
    let l ← t.links? source
    if l.firstChild = none then some t else none
  | n + 1 => do
    let l ← t.links? source
    match l.firstChild with
    | none => some t
    | some child =>
      let t ← t.unlink? source child
      let t ← t.link? destination child none
      t.moveChildren? destination source n

end Tree

end DocumentTree
