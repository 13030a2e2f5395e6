import DocumentTree.Tree.Edit
/-!
# Calls and sessions

Whatever a caller can ask of a tree, as data. `Edit` has the structural
edits, which a forest understands too; `Call` adds the operations that also
look at content. A session is a tree with the warnings issued so far, and a
run is any number of calls, refused ones included: it goes on with the tree
that the call leaves, whether the call is accepted or not.
-/

namespace DocumentTree

/-- A structural edit with its arguments, which may be any ids at all. -/
inductive Edit where
  | alloc (n : Node)
  | insertBefore (parent child : NodeId) (reference : Option NodeId)
  | appendChild (parent child : NodeId)
  | removeChild (parent child : NodeId)
  | detach (id : NodeId)
  | reparentChildren (destination source : NodeId)

/-- A call with its arguments. -/
inductive Call where
  | edit (e : Edit)
  | scopeMarker
  | cloneNode (id : NodeId)
  | appendText (parent : NodeId) (s : String)
  | editContent (id : NodeId) (f : Content → Content)

/-- What an accepted call gives back: what it leaves, and perhaps a node. -/
structure Outcome extends Edited where
  /-- The node the call answers with. -/
  id? : Option NodeId := none

/-- An answer of an id and a tree. -/
def Outcome.ofPair (a : NodeId × Tree) : Outcome := { tree := a.2, id? := some a.1 }

/-- Make an edit. -/
def Edit.attempt (t : Tree) : Edit → Except Refusal Outcome
  | .alloc n => .ok (.ofPair (t.alloc n))
  | .insertBefore p c r => (t.insertBefore p c r).map ({ tree := · })
  | .appendChild p c => (t.appendChild p c).map ({ tree := · })
  | .removeChild p c => (t.removeChild p c).map ({ tree := · })
  | .detach id => (t.detach id).map ({ tree := · })
  | .reparentChildren d s => (t.reparentChildren d s).map fun a => { tree := a.1, warning? := a.2 }

/-- Make a call. Content is edited through a look-up, which finds nothing
outside the arena and then edits nothing. -/
def Call.attempt (t : Tree) : Call → Except Refusal Outcome
  | .edit e => e.attempt t
  | .scopeMarker => .ok (.ofPair t.scopeMarker)
  | .cloneNode id => (t.cloneNode id).map .ofPair
  | .appendText p s => (t.appendText p s).map .ofPair
  | .editContent id f => .ok { tree := (t.editContent? id f).getD t }

section Map

variable {α β : Type} {x : Except Refusal α} {f : α → β}

/-- An accepted call gives back what the operation gave. -/
theorem exists_of_map {b : β} (h : x.map f = .ok b) : ∃ a, x = .ok a ∧ b = f a := by
  cases x with
  | error r => cases h
  | ok a => exact ⟨a, rfl, (Except.ok.inj h).symm⟩

/-- A refused one is refused as the operation was. -/
theorem map_eq_error_iff {r : Refusal} : x.map f = .error r ↔ x = .error r := by
  cases x <;> simp [Except.map]

end Map

/-- A tree in use, with the warnings issued so far: at first a new tree, and
none. -/
structure Session where
  tree : Tree := .new
  log : WarningLog := .empty

namespace Session

/-- Go on with what an edit leaves, and report what it warns of. -/
def take (s : Session) (left : Edited) : Session :=
  { tree := left.tree, log := (s.log.report? left.warning?).1 }

/-- After a call, accepted or refused. -/
def after (s : Session) (call : Call) : Session :=
  match call.attempt s.tree with
  | .ok o => s.take o.toEdited
  | .error r => s.take r.toEdited

/-- After any number of calls. -/
def run (s : Session) (calls : List Call) : Session := calls.foldl after s

variable {s : Session} {call : Call} {o : Outcome}

theorem tree_after_of_ok (h : call.attempt s.tree = .ok o) : (s.after call).tree = o.tree := by
  rw [after, h]
  rfl

/-- **What every call keeps, every run keeps.** -/
theorem run_induction {P : Session → Prop} (hstep : ∀ s call, P s → P (s.after call))
    (calls : List Call) (h : P s) : P (s.run calls) := by
  induction calls generalizing s with
  | nil => exact h
  | cons call calls ih => exact ih (hstep s call h)

end Session

end DocumentTree
