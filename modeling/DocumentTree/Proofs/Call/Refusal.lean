import DocumentTree.Proofs.Call.Basic
/-!
# What a refused call leaves

A refused edit could leave a tree that is half edited. It does not, on any
arena, whether the links agree or not: each operation makes its tests before
its first write, and a test writes nothing (`Tree.edit_test_bind`). Behind
the tests nothing but a link that leads out of the arena can stop it, so that
is the one refusal with anything written (`Call.toEdited_of_refused`).
-/

namespace DocumentTree

namespace Tree

variable {t t' : Tree} {α β : Type} {r : Refusal}

/-! ## Failures that leave the tree -/

theorem refusing_bind (x : Except EditError α) (f : α → Except EditError β) :
    t.refusing (x >>= f) = (do let a ← t.refusing x; t.refusing (f a)) := by
  cases x <;> rfl

theorem refusing_eq_ok_iff {x : Except EditError α} {a : α} : t.refusing x = .ok a ↔ x = .ok a := by
  cases x <;> simp

theorem refusing_orCorrupt_eq_ok_iff {o : Option α} {a : α} :
    t.refusing (orCorrupt o) = .ok a ↔ o = some a := by
  rw [refusing_eq_ok_iff, orCorrupt_eq_ok_iff]

theorem toEdited_of_refusing {x : Except EditError α} (h : t.refusing x = .error r) :
    r.toEdited = { tree := t } := by
  cases x with
  | error e => rw [← Except.error.inj h]
  | ok a => cases h

theorem error_of_orCorrupt {o : Option α} (h : t.refusing (orCorrupt o) = .error r) :
    r.error = .corruptLinks := by
  cases o with
  | none => rw [← Except.error.inj h]
  | some a => cases h

/-! ## Each edit, tests first -/

variable {p c d s id : NodeId} {reference : Option NodeId}

theorem tree_edit_test_write (ask : Tree → Except EditError Unit) (f : Tree → Option Tree) :
    (·.2.tree) <$> t.edit (do Editing.test ask; Editing.write f) =
      t.refusing (do ask t; orCorrupt (f t)) := by
  rw [edit_test_bind, edit_write, refusing_bind]
  cases ask t <;> cases f t <;> rfl

theorem insertBefore_eq : t.insertBefore p c reference =
    t.refusing (do t.checkInsert p c reference; orCorrupt (t.link? p c reference)) :=
  tree_edit_test_write ..

theorem removeChild_eq : t.removeChild p c =
    t.refusing (do t.checkRemove p c; orCorrupt (t.unlink? p c)) :=
  tree_edit_test_write ..

theorem detach_eq : t.detach id = t.refusing (do
    require (id ∈ t) (.unknownNode id)
    match t.parent? id with
    | none => pure t
    | some parent => orCorrupt (t.unlink? parent id)) := by
  rw [detach, edit_test_bind, edit_get_bind, refusing_bind]
  cases require (id ∈ t) (.unknownNode id) with
  | error e => rfl
  | ok =>
    cases t.parent? id with
    | none => rfl
    | some parent =>
      simp only [edit_write]
      cases t.unlink? parent id <;> rfl

theorem reparentChildren_eq : t.reparentChildren d s = t.refusing (do
    t.checkReparent d s
    if d = s then
      pure (t, some selfReparentWarning)
    else
      (·, none) <$> orCorrupt (t.moveChildren? d s t.walkBound)) := by
  rw [reparentChildren, edit_test_bind, refusing_bind]
  cases t.checkReparent d s with
  | error e => rfl
  | ok =>
    by_cases hds : d = s
    · rw [if_pos hds, if_pos hds]
      rfl
    · rw [if_neg hds, if_neg hds, edit_write]
      cases t.moveChildren? d s t.walkBound <;> rfl

theorem cloneNode_eq : t.cloneNode id = t.refusing (match t.get? id with
    | none => .error (.unknownNode id)
    | some n => .ok (t.alloc n)) := by
  rw [cloneNode, edit_get_bind]
  cases t.get? id <;> rfl

/-- Text finds its place before anything is written. Where a fresh node is to
take it in, the node is allocated before it is linked. -/
theorem appendText_eq {text : String} : t.appendText p text = (do
    t.refusing (require (p ∈ t) (.unknownNode p))
    t.refusing (require (∀ last ∈ t.lastChild? p, last ∈ t) .corruptLinks)
    match t.lastText? p with
    | some last => (last, ·) <$> t.refusing (orCorrupt (t.editContent? last (·.appendData text)))
    | none =>
      let (id, fresh) := t.alloc (.detached (.text text))
      (id, ·) <$> fresh.refusing (orCorrupt (fresh.link? p id none))) := by
  rw [appendText, edit_test_bind, edit_test_bind, edit_get_bind]
  cases require (p ∈ t) (.unknownNode p) with
  | error e => rfl
  | ok =>
    cases require (∀ last ∈ t.lastChild? p, last ∈ t) .corruptLinks with
    | error e => rfl
    | ok =>
      cases t.lastText? p with
      | some last =>
        simp only [edit_write_bind]
        cases t.editContent? last (·.appendData text) <;> rfl
      | none =>
        simp only [edit_alloc_bind, edit_write_bind]
        cases (t.alloc (.detached (.text text))).2.link? p (t.alloc (.detached (.text text))).1 none <;>
          rfl

theorem appendText_of_not_mem (hp : p ∉ t) (text : String) :
    t.appendText p text = .error { tree := t, error := .unknownNode p } := by
  rw [appendText_eq, require, if_neg hp]
  rfl

theorem appendText_of_mem (hp : p ∈ t) (hlast : ∀ last ∈ t.lastChild? p, last ∈ t)
    (text : String) : t.appendText p text =
      match t.lastText? p with
      | some last => (last, ·) <$> t.refusing (orCorrupt (t.editContent? last (·.appendData text)))
      | none =>
        let (id, fresh) := t.alloc (.detached (.text text))
        (id, ·) <$> fresh.refusing (orCorrupt (fresh.link? p id none)) := by
  rw [appendText_eq, require, if_pos hp, require, if_pos hlast]
  rfl

/-! ## The tree as it was -/

theorem toEdited_of_eq_refusing {x : Except Refusal α} {y : Except EditError α} {f : α → β}
    (hx : x = t.refusing y) (h : x.map f = .error r) : r.toEdited = { tree := t } :=
  toEdited_of_refusing (hx.symm.trans (map_eq_error_iff.1 h))

/-- Behind its tests an addition of text can only be led out of the arena, and
by then it may have allocated a node. -/
theorem toEdited_of_appendText {text : String} (h : t.appendText p text = .error r) :
    r.toEdited = { tree := t } ∨
      r.error = .corruptLinks ∧ ∃ n, r.toEdited = { tree := (t.alloc n).2 } := by
  by_cases hp : p ∈ t
  · by_cases hlast : ∀ last ∈ t.lastChild? p, last ∈ t
    · rw [appendText_of_mem hp hlast] at h
      split at h
      · exact .inl (toEdited_of_refusing (map_eq_error_iff.1 h))
      · have hwrite := map_eq_error_iff.1 h
        exact .inr ⟨error_of_orCorrupt hwrite, _, toEdited_of_refusing hwrite⟩
    · rw [appendText_eq, require, if_pos hp, require, if_neg hlast] at h
      exact .inl (by rw [← Except.error.inj h])
  · rw [appendText_of_not_mem hp] at h
    exact .inl (by rw [← Except.error.inj h])

end Tree

namespace Call

variable {t : Tree} {call : Call} {r : Refusal}

/-- **A refused call has written nothing and warned of nothing.** Only one
that was led out of the arena may have allocated a node. -/
theorem toEdited_of_refused (h : call.attempt t = .error r) :
    r.toEdited = { tree := t } ∨
      r.error = .corruptLinks ∧ ∃ n, r.toEdited = { tree := (t.alloc n).2 } := by
  cases call with
  | edit e =>
    cases e with
    | alloc n => cases h
    | insertBefore p c reference => exact .inl (Tree.toEdited_of_eq_refusing Tree.insertBefore_eq h)
    | appendChild p c => exact .inl (Tree.toEdited_of_eq_refusing Tree.insertBefore_eq h)
    | removeChild p c => exact .inl (Tree.toEdited_of_eq_refusing Tree.removeChild_eq h)
    | detach id => exact .inl (Tree.toEdited_of_eq_refusing Tree.detach_eq h)
    | reparentChildren d s =>
      exact .inl (Tree.toEdited_of_eq_refusing Tree.reparentChildren_eq h)
  | scopeMarker | editContent => cases h
  | cloneNode id => exact .inl (Tree.toEdited_of_eq_refusing Tree.cloneNode_eq h)
  | appendText p text => exact Tree.toEdited_of_appendText (map_eq_error_iff.1 h)

theorem warning?_of_refused (h : call.attempt t = .error r) : r.warning? = none := by
  rcases toEdited_of_refused h with hleft | ⟨-, n, hleft⟩ <;>
    exact congrArg Edited.warning? hleft

/-- What has failed a test has left the tree as it was. -/
theorem unchanged_of_refused (h : call.attempt t = .error r) (hlinks : r.error ≠ .corruptLinks) :
    r.toEdited = { tree := t } :=
  (toEdited_of_refused h).resolve_right fun ⟨he, _⟩ => hlinks he

end Call

/-- **A session goes on from a refused call as it was.** -/
theorem Session.after_eq_self {s : Session} {call : Call} {r : Refusal}
    (h : call.attempt s.tree = .error r) (hlinks : r.error ≠ .corruptLinks) : s.after call = s := by
  rw [after, h]
  change s.take r.toEdited = s
  rw [call.unchanged_of_refused h hlinks]
  rfl

end DocumentTree
