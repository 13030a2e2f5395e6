import DocumentTree.Tree.Basic
import DocumentTree.Warning
/-!
# The stack of open elements

While a document is being parsed, the stack of open elements holds the path
from the root to the place where content goes next. Its entries are ids into
a tree the stack does not own: popping detaches nothing, and detaching pops
nothing. The same node can be open more than once after error recovery, and
then the innermost occurrence is the one that matters, so every search runs
from the current node down.

The entries are kept in that order, current node first. Positions are
counted the other way, from the first node pushed, so that a position stays
what it is while nodes are pushed and popped above it.
-/

namespace DocumentTree

/-- Calls a tree builder should never make. Finding nothing is not one of
them. -/
inductive StackError where
  | emptyStack
  | positionOutOfRange (position size : Nat)
  deriving DecidableEq, Repr

namespace StackError

def message : StackError → String
  | emptyStack => "pop from an empty stack of open elements"
  | positionOutOfRange position size =>
    "cannot insert at position " ++ toString position ++ " in a stack of " ++ toString size ++
      " elements"

end StackError

/-- Split a list right behind the first element that passes a test; `none`
if none does. -/
def splitThrough? {α : Type} (p : α → Bool) : List α → Option (List α × List α)
  | [] => none
  | a :: l =>
    if p a then some ([a], l)
    else (splitThrough? p l).map fun (taken, rest) => (a :: taken, rest)

/-- The first part of a split ends with the first element that passes. -/
theorem splitThrough?_eq_some_iff {α : Type} {p : α → Bool} {l taken rest : List α} :
    splitThrough? p l = some (taken, rest) ↔
      ∃ before a, l = before ++ a :: rest ∧ taken = before ++ [a] ∧ p a = true ∧
        ∀ b ∈ before, p b = false := by
  induction l generalizing taken with
  | nil => simp [splitThrough?]
  | cons x l ih =>
    rw [splitThrough?]
    split
    · next hx =>
      constructor
      · intro h
        obtain ⟨rfl, rfl⟩ := Prod.mk.inj (Option.some.inj h)
        exact ⟨[], x, rfl, rfl, hx, by simp⟩
      · rintro ⟨before, a, h, rfl, -, hb⟩
        cases before with
        | nil => simp_all
        | cons b before => simp_all
    · next hx =>
      constructor
      · intro h
        obtain ⟨⟨taken', rest'⟩, h', hr⟩ := Option.map_eq_some_iff.1 h
        obtain ⟨rfl, rfl⟩ := Prod.mk.inj hr
        obtain ⟨before, a, rfl, rfl, ha, hb⟩ := ih.1 h'
        exact ⟨x :: before, a, rfl, rfl, ha, by simp_all⟩
      · rintro ⟨before, a, h, rfl, ha, hb⟩
        cases before with
        | nil => simp_all
        | cons b before =>
          obtain ⟨rfl, rfl⟩ := List.cons.inj h
          rw [ih.2 ⟨before, a, rfl, rfl, ha, fun b' hm => hb b' (List.mem_cons_of_mem _ hm)⟩]
          rfl

/-- The open elements, current node first. -/
structure OpenElements where
  entries : List NodeId := []
  deriving DecidableEq, Repr, Inhabited

namespace OpenElements

variable (s : OpenElements) (t : Tree)

/-- A stack with nothing open. -/
def empty : OpenElements := {}

/-! ## Looking -/

def size : Nat := s.entries.length

def isEmpty : Bool := s.entries.isEmpty

/-- The entries in the order they were opened. -/
def bottomUp : List NodeId := s.entries.reverse

/-- The current node. -/
def top? : Option NodeId := s.entries.head?

/-- The first node opened. -/
def bottom? : Option NodeId := s.entries.getLast?

/-- The entry at a position, counted from the bottom. -/
def get? (position : Nat) : Option NodeId := s.bottomUp[position]?

instance : Membership NodeId OpenElements := ⟨fun s id => id ∈ s.entries⟩

instance (id : NodeId) : Decidable (id ∈ s) := inferInstanceAs (Decidable (id ∈ s.entries))

/-- The position of the innermost occurrence of a node. -/
def indexOf? (id : NodeId) : Option Nat :=
  (s.entries.idxOf? id).map fun depth => s.size - 1 - depth

/-- The innermost entry that is not a scope marker: where new content goes
while a marker is open. -/
def currentElement? : Option NodeId := s.entries.find? fun id => !t.isScopeMarker id

def hasMarker : Bool := s.entries.any t.isScopeMarker

/-! ## Opening and closing -/

/-- Open a node; it becomes the current node. -/
def push (id : NodeId) : OpenElements := { entries := id :: s.entries }

/-- Close the current node. -/
def pop : Except StackError (NodeId × OpenElements) :=
  match s.entries with
  | [] => .error .emptyStack
  | id :: rest => .ok (id, { entries := rest })

/-- Keep the first `size` entries from the bottom. -/
def truncate (size : Nat) : OpenElements := { entries := s.entries.drop (s.size - size) }

/-- Open a node at a position and shift what is above it up by one. -/
def insertAt (position : Nat) (id : NodeId) : Except StackError OpenElements :=
  if position ≤ s.size then
    .ok { entries := s.entries.insertIdx (s.size - position) id }
  else .error (.positionOutOfRange position s.size)

/-- Close the innermost occurrence of a node; `none` if it is not open. -/
def remove? (id : NodeId) : Option OpenElements :=
  if id ∈ s then some { entries := s.entries.erase id } else none

/-- Put another node in the place of the innermost occurrence of one; `none`
if it is not open. -/
def replace? (old new : NodeId) : Option OpenElements :=
  if old ∈ s then some { entries := s.entries.replace old new } else none

/-! ## Closing up to a landmark -/

/-- What closing several entries gave: the closed entries, current node
first, what is left open, and a warning if the landmark was not found. -/
structure Closed where
  ids : List NodeId
  rest : OpenElements
  warning : Option Warning := none
  deriving DecidableEq, Repr

/-- No element of the wanted tags was open. -/
def notOpenWarning (tags : List Tag) : Warning where
  component := "HTML"
  message :=
    "pop until <" ++ "|".intercalate (tags.map Tag.name) ++ "> found no such open element"

/-- Close entries until an HTML element with one of the tags has been
closed. Where none is open nothing is closed, which is worth a warning. -/
def popUntilOneOf (tags : List Tag) : Closed :=
  match splitThrough? (fun id => t.satisfies id (·.isHtmlElementOneOf tags)) s.entries with
  | some (ids, rest) => { ids := ids, rest := { entries := rest } }
  | none => { ids := [], rest := s, warning := some (notOpenWarning tags) }

/-- Close entries until an HTML element with the tag has been closed. -/
def popUntil (tag : Tag) : Closed := s.popUntilOneOf t [tag]

/-- Close entries until a scope marker has been closed, or everything where
there is none. -/
def clearToLastMarker : Closed :=
  match splitThrough? t.isScopeMarker s.entries with
  | some (ids, rest) => { ids := ids, rest := { entries := rest } }
  | none => { ids := s.entries, rest := empty }

/-! ## Markers -/

/-- Open the scope marker of the tree: its id, the stack and the tree, which
may have had to allocate it. -/
def pushMarker : NodeId × OpenElements × Tree :=
  let (id, t) := t.scopeMarker
  (id, s.push id, t)

end OpenElements

end DocumentTree
