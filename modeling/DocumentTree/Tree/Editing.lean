import DocumentTree.Tree.Splice
import DocumentTree.Warning
/-!
# Edits as programs

An edit works on a tree in place. It tests the tree as it is by now, writes
to it, and ends at the first test that fails. What has been written by then
stays written: a refused edit gives the tree it leaves with the reason
(`Refusal`), and whether that is the tree it was given depends on the order
in which it tests and writes.
-/

namespace DocumentTree

/-- Why a structural edit is refused. -/
inductive EditError where
  /-- The node to insert still has a parent or siblings. -/
  | alreadyAttached (child : NodeId)
  | notAChild (parent child : NodeId)
  /-- The edit would put `child` below itself. -/
  | hierarchyCycle (parent child : NodeId)
  | unknownNode (id : NodeId)
  /-- A link that had to be followed leads out of the arena, or the children
  to be moved never come to an end. Where links agree with each other this
  does not arise. -/
  | corruptLinks
  deriving DecidableEq, Repr

namespace EditError

def message : EditError → String
  | alreadyAttached child => "node " ++ child.text ++ " is already attached to a tree"
  | notAChild parent child => "node " ++ child.text ++ " is not a child of " ++ parent.text
  | hierarchyCycle parent child =>
    "node " ++ child.text ++ " is an inclusive ancestor of " ++ parent.text
  | unknownNode id => "node " ++ id.text ++ " does not exist in this tree"
  | corruptLinks => "the links of this tree do not agree"

end EditError

/-- Go on if `p` holds, refuse with `e` if not. -/
def require (p : Prop) [Decidable p] (e : EditError) : Except EditError Unit :=
  if p then .ok () else .error e

/-- What a splice gave, or the error that the links do not agree. -/
def orCorrupt {α : Type} : Option α → Except EditError α
  | some a => .ok a
  | none => .error .corruptLinks

theorem orCorrupt_eq_ok_iff {α : Type} {o : Option α} {a : α} :
    orCorrupt o = .ok a ↔ o = some a := by
  cases o <;> simp [orCorrupt]

/-- What an edit leaves: the tree, and the warning it has issued. -/
structure Edited where
  tree : Tree
  warning? : Option Warning := none

/-- A refused edit: the reason, and what the edit leaves all the same. -/
structure Refusal extends Edited where
  error : EditError

/-- An edit, or a part of one. The tree it has come to is there when it ends,
however it ends. -/
abbrev Editing (α : Type) := EStateM EditError Edited α

namespace Editing

/-- Test the tree as it is by now. -/
def test (ask : Tree → Except EditError Unit) : Editing Unit := fun s =>
  match ask s.tree with
  | .ok () => .ok () s
  | .error e => .error e s

/-- Write to the tree. A write that is led out of the arena is given up as a
whole. -/
def write (f : Tree → Option Tree) : Editing Unit := fun s =>
  match f s.tree with
  | some t => .ok () { s with tree := t }
  | none => .error .corruptLinks s

def alloc (n : Node) : Editing NodeId :=
  modifyGet fun s => ((s.tree.alloc n).1, { s with tree := (s.tree.alloc n).2 })

def warn (w : Warning) : Editing Unit := modify ({ · with warning? := some w })

end Editing

namespace Tree

variable (t : Tree) {α : Type}

/-- Make an edit: what it gives and what it leaves. -/
def edit (x : Editing α) : Except Refusal (α × Edited) :=
  match x.run { tree := t } with
  | .ok a left => .ok (a, left)
  | .error e left => .error { left with error := e }

/-- A failure that leaves the tree as it is. -/
def refusing (x : Except EditError α) : Except Refusal α :=
  x.mapError fun e => { tree := t, error := e }

/-! ## Step by step -/

variable {t}

@[simp] theorem refusing_ok (a : α) : t.refusing (.ok a) = .ok a := rfl

@[simp] theorem refusing_error (e : EditError) :
    t.refusing (.error e : Except EditError α) = .error { tree := t, error := e } := rfl

/-- **A test leaves the tree as it is**, whether it fails or not. -/
theorem edit_test_bind (ask : Tree → Except EditError Unit) (x : Editing α) :
    t.edit (do Editing.test ask; x) = (do t.refusing (ask t); t.edit x) := by
  simp only [edit, EStateM.run, bind, EStateM.bind, Editing.test]
  cases ask t <;> rfl

/-- **A write that is given up leaves the tree as it is.** -/
theorem edit_write_bind (f : Tree → Option Tree) (x : Editing α) :
    t.edit (do Editing.write f; x) = (do let t' ← t.refusing (orCorrupt (f t)); t'.edit x) := by
  simp only [edit, EStateM.run, bind, EStateM.bind, Editing.write]
  cases f t <;> rfl

theorem edit_write (f : Tree → Option Tree) : t.edit (Editing.write f) =
    (do let t' ← t.refusing (orCorrupt (f t)); pure ((), { tree := t' })) := by
  have hunit : (do Editing.write f; pure ()) = Editing.write f := bind_pure_unit
  rw [← hunit]
  exact edit_write_bind f (pure ())

theorem edit_get_bind (x : Edited → Editing α) :
    t.edit (do x (← get)) = t.edit (x { tree := t }) := rfl

theorem edit_alloc_bind (n : Node) (x : NodeId → Editing α) :
    t.edit (do x (← Editing.alloc n)) = (t.alloc n).2.edit (x (t.alloc n).1) := rfl

end Tree

end DocumentTree
