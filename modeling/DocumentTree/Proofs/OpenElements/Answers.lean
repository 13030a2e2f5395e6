import DocumentTree.OpenElements.Scope
import DocumentTree.Proofs.Call.Frame
import DocumentTree.Proofs.Call.Run
import Mathlib.Data.List.Find
/-!
# What the open elements answer

Every question put to the stack of open elements is put to the content of its
entries: what kind a node is and, of an element, its namespace, name and tag.
The links of the tree have no part in that, nor has text added to a text node,
so under calls that extend the tree every question is answered as before
(`OpenElements.same_answers_run`).
-/

namespace DocumentTree

/-! ## Questions about content -/

namespace Content

variable {tag : Tag} {tags : List Tag}

theorem steady_isHtmlElement : Steady (·.isHtmlElement tag) := by
  rintro c c' (rfl | ⟨-, text, rfl⟩) <;> rfl

theorem steady_isHtmlElementOneOf : Steady (·.isHtmlElementOneOf tags) := by
  rintro c c' (rfl | ⟨-, text, rfl⟩) <;> rfl

/-- A boundary may be one by its name, and then it is an element and not a
text node. -/
theorem steady_isBoundary (scope : Scope) : Steady scope.isBoundary := by
  rintro c c' (rfl | ⟨htext, text, rfl⟩)
  · rfl
  · simp [Scope.isBoundary, isElement, appendData, htext]

end Content

/-- A split depends on what the test says of the elements of the list. -/
theorem splitThrough?_congr {α : Type} {p q : α → Bool} {l : List α}
    (h : ∀ a ∈ l, p a = q a) : splitThrough? p l = splitThrough? q l := by
  induction l with
  | nil => rfl
  | cons a l ih =>
    obtain ⟨ha, hl⟩ := List.forall_mem_cons.1 h
    rw [splitThrough?, splitThrough?, ha, ih hl]

namespace OpenElements

variable {elements : OpenElements} {t t' : Tree}

/-- Whatever is asked of the open elements, they answer alike in two trees. -/
structure SameAnswers (elements : OpenElements) (t t' : Tree) : Prop where
  hasElementIn_eq : ∀ tag scope,
    elements.hasElementIn t' tag scope = elements.hasElementIn t tag scope
  hasNodeIn_eq : ∀ id scope, elements.hasNodeIn t' id scope = elements.hasNodeIn t id scope
  hasMarker_eq : elements.hasMarker t' = elements.hasMarker t
  currentElement?_eq : elements.currentElement? t' = elements.currentElement? t
  /-- The same entries would be closed, others left and the same warning given. -/
  popUntilOneOf_eq : ∀ tags, elements.popUntilOneOf t' tags = elements.popUntilOneOf t tags
  clearToLastMarker_eq : elements.clearToLastMarker t' = elements.clearToLastMarker t

/-! ## Trees that grow -/

section Extends

variable (h : t.Extends t') (hmem : ∀ id ∈ elements.entries, id ∈ t)

include h hmem

/-- An entry decides about a walk what it decided before, if what makes a
target is steady. -/
theorem verdict?_eq {isTarget : NodeId → Content → Bool} (scope : Scope)
    (htarget : ∀ id, Content.Steady (isTarget id)) {id : NodeId} (hid : id ∈ elements.entries) :
    scope.verdict? t' isTarget id = scope.verdict? t isTarget id := by
  obtain ⟨n, hn⟩ := Tree.mem_iff_get?.1 (hmem id hid)
  obtain ⟨c', hc', hext⟩ := h.content id n.toContent (by rw [Tree.content?, hn]; rfl)
  obtain ⟨n', hn', rfl⟩ := Option.map_eq_some_iff.1 hc'
  simp only [Scope.verdict?, hn, hn', Option.bind_some, htarget id hext,
    Content.steady_isBoundary scope hext]

/-- **A walk is decided as before**, entry by entry. -/
theorem hasTargetIn_eq {isTarget : NodeId → Content → Bool} (scope : Scope)
    (htarget : ∀ id, Content.Steady (isTarget id)) :
    elements.hasTargetIn t' scope isTarget = elements.hasTargetIn t scope isTarget := by
  have hverdicts : elements.entries.filterMap (scope.verdict? t' isTarget) =
      elements.entries.filterMap (scope.verdict? t isTarget) :=
    List.filterMap_congr fun id hid => verdict?_eq h hmem scope htarget hid
  rw [hasTargetIn, hasTargetIn, ← List.head?_filterMap, ← List.head?_filterMap, hverdicts]

/-- **Where a tree is extended, every question is answered as before.** -/
theorem sameAnswers_of_extends : elements.SameAnswers t t' := by
  have hmarker : ∀ id ∈ elements.entries, t'.isScopeMarker id = t.isScopeMarker id :=
    fun id hid => h.isScopeMarker_eq (hmem id hid)
  refine ⟨fun tag scope => ?_, fun target scope => ?_, ?_, ?_, fun tags => ?_, ?_⟩
  · exact hasTargetIn_eq h hmem scope fun _ => Content.steady_isHtmlElement
  · exact hasTargetIn_eq h hmem scope fun _ _ _ _ => rfl
  · rw [Bool.eq_iff_iff, hasMarker, hasMarker, List.any_eq_true, List.any_eq_true]
    exact exists_congr fun id => and_congr_right fun hid => by rw [hmarker id hid]
  · exact List.find?_congr fun id hid => by rw [hmarker id hid]
  · have hsplit := splitThrough?_congr (l := elements.entries) fun id hid =>
      h.satisfies_eq (p := (·.isHtmlElementOneOf tags)) Content.steady_isHtmlElementOneOf
        (hmem id hid)
    rw [popUntilOneOf, popUntilOneOf, hsplit]
  · rw [clearToLastMarker, clearToLastMarker, splitThrough?_congr hmarker]

end Extends

end OpenElements

/-! ## Runs of calls -/

namespace Session

variable {s : Session} {elements : OpenElements}

/-- A call that does not edit content extends the tree, and a refused one
leaves it as it was. -/
theorem extends_after (h : s.tree.Consistent) {call : Call}
    (hcall : ∀ id f, call ≠ .editContent id f) : s.tree.Extends (s.after call).tree := by
  obtain ⟨hF, hshows⟩ := Tree.consistent_iff.1 h
  cases ho : call.attempt s.tree with
  | ok o =>
    rw [tree_after_of_ok ho]
    exact hshows.extends_of_ok hF hcall ho
  | error r =>
    rw [after_of_refused h ho]
    exact .refl s.tree

/-- Any number of calls that do not edit content extend the tree. -/
theorem extends_run (h : s.tree.Consistent) {calls : List Call}
    (hcalls : ∀ call ∈ calls, ∀ id f, call ≠ .editContent id f) :
    s.tree.Extends (s.run calls).tree := by
  induction calls generalizing s with
  | nil => exact .refl s.tree
  | cons call calls ih =>
    obtain ⟨hcall, hcalls⟩ := List.forall_mem_cons.1 hcalls
    exact (extends_after h hcall).trans (ih (consistent_after h call) hcalls)

end Session

/-- **No structural edit of the tree changes what the open elements answer.**
Whatever calls are made under entries that are in a tree of links that agree,
accepted or refused, direct edits of content apart: every element and every
node is in each scope as before, the current element is the same, and so are
the entries that would be closed. -/
theorem OpenElements.same_answers_run {s : Session} {elements : OpenElements}
    (h : s.tree.Consistent) (hmem : ∀ id ∈ elements.entries, id ∈ s.tree) (calls : List Call)
    (hcalls : ∀ call ∈ calls, ∀ id f, call ≠ .editContent id f) :
    elements.SameAnswers s.tree (s.run calls).tree :=
  sameAnswers_of_extends (Session.extends_run h hcalls) hmem

/-- A text takes in more text and its paragraph leaves the document: both stay
open, and the paragraph in button scope. -/
theorem OpenElements.same_answers_run_sample :
    Tree.sample.Consistent ∧
      (∀ id ∈ ({ entries := [⟨3⟩, ⟨1⟩] } : OpenElements).entries, id ∈ Tree.sample) ∧
      (Session.run { tree := .sample }
          [.appendText ⟨1⟩ "u", .edit (.detach ⟨1⟩), .scopeMarker]).tree ≠ .sample ∧
      OpenElements.hasElementIn { entries := [⟨3⟩, ⟨1⟩] }
        (Session.run { tree := .sample }
          [.appendText ⟨1⟩ "u", .edit (.detach ⟨1⟩), .scopeMarker]).tree .p .button = true := by
  have hmem : ∀ id ∈ ({ entries := [⟨3⟩, ⟨1⟩] } : OpenElements).entries, id ∈ Tree.sample := by
    decide
  refine ⟨Tree.consistent_sample, hmem, by decide, ?_⟩
  rw [(OpenElements.same_answers_run (s := { tree := .sample }) Tree.consistent_sample hmem
    [.appendText ⟨1⟩ "u", .edit (.detach ⟨1⟩), .scopeMarker] (by simp)).hasElementIn_eq]
  decide

end DocumentTree
