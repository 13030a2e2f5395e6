import DocumentTree.Node
/-!
# The tree

All nodes of a document live in one arena and refer to each other by id. A
node is never taken out: a detached node keeps its slot and its children
and can be attached again. The arena may hold several trees at once, one
per parentless node.

This file holds the arena itself: looking a node up, reading a link,
allocating, and writing to one slot. Nothing here promises that the links
agree with each other; `Tree/Edit` keeps them in agreement and `Tree/Check`
tests any arena for it.
-/

namespace DocumentTree

/-- An arena of nodes, and the scope marker if one has been allocated. -/
structure Tree where
  nodes : Array Node
  marker : Option NodeId := none
  deriving DecidableEq, Repr

namespace Tree

/-- A tree of a document node alone. -/
def new : Tree := { nodes := #[.detached .document] }

instance : Inhabited Tree := ⟨new⟩

variable (t : Tree)

/-! ## Looking up -/

/-- The number of nodes, attached or not. -/
def size : Nat := t.nodes.size

def isEmpty : Bool := t.nodes.isEmpty

/-- An id is in the tree when it names a slot of the arena. -/
instance : Membership NodeId Tree := ⟨fun t id => id.index < t.size⟩

instance (id : NodeId) : Decidable (id ∈ t) := inferInstanceAs (Decidable (id.index < t.size))

/-- The ids of all nodes, in the order of allocation. -/
def nodeIds : List NodeId := (List.range t.size).map NodeId.mk

def get? (id : NodeId) : Option Node := t.nodes[id.index]?

def links? (id : NodeId) : Option Links := (t.get? id).map Node.links

/-! An id outside the arena has no parent, no children and no siblings. -/

def parent? (id : NodeId) : Option NodeId := (t.links? id).bind Links.parent

def firstChild? (id : NodeId) : Option NodeId := (t.links? id).bind Links.firstChild

def lastChild? (id : NodeId) : Option NodeId := (t.links? id).bind Links.lastChild

def prevSibling? (id : NodeId) : Option NodeId := (t.links? id).bind Links.prevSibling

def nextSibling? (id : NodeId) : Option NodeId := (t.links? id).bind Links.nextSibling

/-- Whether a node is in the tree and its content passes a test. -/
def satisfies (id : NodeId) (p : Content → Bool) : Bool := (t.get? id).any fun n => p n.toContent

def isScopeMarker (id : NodeId) : Bool := t.satisfies id (·.kind = .scopeMarker)

/-- The content of a node, if it is an element. -/
def element? (id : NodeId) : Option Content :=
  ((t.get? id).map Node.toContent).filter Content.isElement

/-- The text of a node, if it is a text node. -/
def text? (id : NodeId) : Option String :=
  (((t.get? id).map Node.toContent).filter (·.kind = .text)).map Content.data

/-! ## Allocating -/

/-- Store a node and give its id. It is stored detached and childless,
whatever links the value carried. -/
def alloc (n : Node) : NodeId × Tree :=
  (⟨t.size⟩, { t with nodes := t.nodes.push (.detached n.toContent) })

/-- The scope marker of the tree. It is allocated at the first request and
the same node ever after, so that pushing markers does not grow the arena. -/
def scopeMarker : NodeId × Tree :=
  match t.marker with
  | some id => (id, t)
  | none =>
    let (id, t) := t.alloc (.detached .scopeMarker)
    (id, { t with marker := some id })

/-! ## Writing to one slot -/

/-- Change one node; nothing happens to an id outside the arena. -/
def modify (id : NodeId) (f : Node → Node) : Tree :=
  { t with nodes := t.nodes.modify id.index f }

/-- Change one node; `none` outside the arena. -/
def modify? (id : NodeId) (f : Node → Node) : Option Tree :=
  if id ∈ t then some (t.modify id f) else none

/-- Edit what a node is and says. Its links stay. -/
def editContent? (id : NodeId) (f : Content → Content) : Option Tree :=
  t.modify? id fun n => { n with toContent := f n.toContent }

/-- Replace a whole node, **links and all**. Nothing checks the links the
new value brings, nor those of the nodes that point to the slot. -/
def overwrite? (id : NodeId) (n : Node) : Option Tree := t.modify? id fun _ => n

/-- Change the links of a node; `none` outside the arena. -/
def modifyLinks? (id : NodeId) (f : Links → Links) : Option Tree :=
  t.modify? id fun n => { n with links := f n.links }

/-! ## What the arena operations do -/

variable {t} {id other p : NodeId} {n : Node} {f : Node → Node}

theorem mem_iff_get? : id ∈ t ↔ ∃ n, t.get? id = some n := by
  change id.index < t.nodes.size ↔ ∃ n, t.nodes[id.index]? = some n
  rw [← Option.isSome_iff_exists, isSome_getElem?]

/-- A node with a parent is in the tree. -/
theorem mem_of_parent? (h : t.parent? id = some p) : id ∈ t := by
  obtain ⟨l, hl, -⟩ := Option.bind_eq_some_iff.1 h
  obtain ⟨n, hn, -⟩ := Option.map_eq_some_iff.1 hl
  exact mem_iff_get?.2 ⟨n, hn⟩

/-- The new id is fresh, and every other one names what it named. -/
theorem get?_alloc :
    (t.alloc n).2.get? id =
      if id = (t.alloc n).1 then some (.detached n.toContent) else t.get? id := by
  obtain ⟨i⟩ := id
  simp [get?, alloc, size, Array.getElem?_push]

@[simp] theorem size_alloc : (t.alloc n).2.size = t.size + 1 := by
  simp [size, alloc]

/-- A write to one slot shows there and nowhere else. -/
theorem get?_modify :
    (t.modify id f).get? other = if id = other then (t.get? other).map f else t.get? other := by
  obtain ⟨i⟩ := id
  obtain ⟨j⟩ := other
  simp [get?, modify, Array.getElem?_modify]

@[simp] theorem size_modify : (t.modify id f).size = t.size := by
  simp [size, modify]

theorem modify?_eq_some_iff {t' : Tree} : t.modify? id f = some t' ↔ id ∈ t ∧ t.modify id f = t' := by
  simp [modify?]

end Tree

end DocumentTree
