import DocumentTree.Proofs.Call.Frame
import DocumentTree.Proofs.Call.Run
/-!
# Tree order

What calls do to the order in which the nodes are walked. The arena holds
one tree for each parentless node, and one after the other they list every
node once (`Session.listed_once`), whatever calls were made to get there. An
insertion puts the block of a subtree into the order below every node above
it, and a removal takes it out, and no other order changes
(`Tree.Consistent.descendants_edit`).
-/

namespace DocumentTree

namespace Tree

variable {t : Tree} {F : Forest}

/-- The nodes without a parent, in the order of their ids. -/
def roots (t : Tree) : List NodeId := t.nodeIds.filter fun id => (t.parent? id).isNone

/-- All nodes: one tree after the other, each in tree order. -/
def treeOrder (t : Tree) : List NodeId := t.roots.flatMap fun r => r :: t.descendants r

theorem nodup_nodeIds : t.nodeIds.Nodup :=
  List.nodup_range.map fun _ _ h => congrArg NodeId.index h

/-- **The trees of an arena hold every node once.** -/
theorem Shows.count_treeOrder (h : t.Shows F) (hF : F.WellFormed) (id : NodeId) :
    t.treeOrder.count id = if id ∈ t then 1 else 0 := by
  have hroots : ∀ r, r ∈ t.roots ↔ r.index < F.size ∧ F.parent r = none := by
    intro r
    rw [roots, List.mem_filter, mem_nodeIds, h.mem_iff, h.parent_eq, Option.isNone_iff_eq_none]
  have hnodup : t.roots.Nodup := nodup_nodeIds.filter _
  rw [treeOrder, funext (h.cons_descendants_eq hF), hF.count_flatMap_subtree hnodup hroots,
    ← h.size_eq]
  rfl

end Tree

/-- **No call loses a node or puts it in two places.** Where links agree the
trees of the parentless nodes, one after the other, list every node of the
arena once. So they do after any calls from a new tree, refused ones among
them, and then a node that was there at any time is still there. -/
theorem Session.listed_once :
    (∀ t : Tree, t.Consistent → ∀ id, t.treeOrder.count id = if id ∈ t then 1 else 0) ∧
      ∀ (calls later : List Call) (id : NodeId), id ∈ (Session.run {} calls).tree →
        (Session.run {} (calls ++ later)).tree.treeOrder.count id = 1 := by
  have hcount : ∀ t : Tree, t.Consistent → ∀ id,
      t.treeOrder.count id = if id ∈ t then 1 else 0 := by
    intro t h id
    obtain ⟨hF, hshows⟩ := Tree.consistent_iff.1 h
    exact hshows.count_treeOrder hF id
  refine ⟨hcount, fun calls later id hid => ?_⟩
  have hnew : (Session.run {} calls).tree.Consistent :=
    run_induction (P := fun s => s.tree.Consistent) (fun s call h => consistent_after h call) calls
      (Tree.shows_new.consistent Forest.wellFormed_new)
  -- what is kept over the later calls: links that agree, and the node
  obtain ⟨hlater, hmem⟩ := run_induction (s := Session.run {} calls)
    (P := fun s => s.tree.Consistent ∧ id ∈ s.tree)
    (fun s call h => ⟨consistent_after h.1 call, mem_after h.1 call h.2⟩) later ⟨hnew, hid⟩
  have hrun : Session.run {} (calls ++ later) = (Session.run {} calls).run later := by
    simp [run, List.foldl_append]
  rw [hrun, hcount _ hlater, if_pos hmem]

/-- The text is there once, below the element below the document, and stays
when the element is detached. -/
theorem Session.listed_once_sample :
    Tree.sample.Consistent ∧ Tree.sample.treeOrder.count ⟨3⟩ = 1 ∧
      (Session.run {} [.edit (.alloc (.detached (.text "a"))), .edit (.appendChild .root ⟨1⟩),
        .edit (.detach ⟨1⟩)]).tree.treeOrder.count ⟨1⟩ = 1 := by
  refine ⟨Tree.consistent_sample, ?_, ?_⟩
  · rw [Session.listed_once.1 .sample Tree.consistent_sample ⟨3⟩]
    rfl
  · exact Session.listed_once.2 [.edit (.alloc (.detached (.text "a")))]
      [.edit (.appendChild .root ⟨1⟩), .edit (.detach ⟨1⟩)] ⟨1⟩ (by decide)

namespace Tree

variable {t t' : Tree} {F G : Forest} {p c q : NodeId}

/-! ## Edits -/

/-- Below a node and every node above it the order has changed in this way,
and below no other node has it changed. -/
def ReordersAt (t : Tree) (p : NodeId) (t' : Tree)
    (change : NodeId → List NodeId → List NodeId → Prop) : Prop :=
  (∀ q, q = p ∨ q ∈ t.ancestors p → change q (t.descendants q) (t'.descendants q)) ∧
    ∀ x, x ≠ p → x ∉ t.ancestors p → t'.descendants x = t.descendants x

/-- **A change of one child list shows below the nodes above it and nowhere
else.** -/
theorem Shows.reordersAt (h : t.Shows F) (hF : F.WellFormed) (h' : t'.Shows G) (hG : G.WellFormed)
    (hsame : ∀ x ≠ p, G.children x = F.children x)
    {change : NodeId → List NodeId → List NodeId → Prop}
    (hchange : ∀ q, p ∈ F.subtree q → change q (F.preorder q) (G.preorder q)) :
    t.ReordersAt p t' change := by
  have habove : ∀ {q}, p ∈ F.subtree q ↔ q = p ∨ q ∈ t.ancestors p := by
    intro q
    rw [hF.mem_subtree_iff_below, h.mem_ancestors_iff hF]
  refine ⟨fun q hq => ?_, fun x hxp hx => ?_⟩
  · rw [h.descendants_eq hF, h'.descendants_eq hG]
    exact hchange q (habove.2 hq)
  · have hnot : p ∉ F.subtree x := fun hp => (habove.1 hp).elim hxp hx
    rw [h.descendants_eq hF, h'.descendants_eq hG]
    exact (List.cons.inj (hF.subtree_eq_of_not_mem hG hsame hnot)).2

/-- A removal, by either call, takes the child out of the forest. -/
theorem Shows.shows_of_removed (h : t.Shows F) (hF : F.WellFormed)
    (ht : t.removeChild p c = .ok t' ∨ t.parent? c = some p ∧ t.detach c = .ok t') :
    F.parent c = some p ∧ t'.Shows (F.remove p c) := by
  rcases ht with ht | ⟨hc, ht⟩
  · obtain ⟨hmet, -, h', -⟩ := (h.removeChild_decidedBy hF p c).of_eq_ok ht
    have hlisted : c ∈ F.children p := by
      simpa [Forest.listed] using hmet (F.listed p c) (by simp)
    exact ⟨(hF.mem_children p c).1 hlisted, h'⟩
  · obtain ⟨-, -, h', -⟩ := (h.detach_decidedBy hF c).of_eq_ok ht
    rw [h.parent_eq] at hc
    rw [Forest.edit, hc] at h'
    exact ⟨hc, h'⟩

/-- **Tree order under edits.** An insertion puts the subtree of the child,
in one piece, into the order below the parent and below every node above it:
right before the reference, or without one right behind the block of the
parent, which is the end of the order below the parent itself. A removal
takes the piece out again. Below every other node the order stays. -/
theorem Consistent.descendants_edit (h : t.Consistent) :
    (∀ p c r t', t.insertBefore p c r = .ok t' →
      t.ReordersAt p t' fun q old new => ∃ front back, old = front ++ back ∧
        new = front ++ (c :: t.descendants c) ++ back ∧
        (∀ x, r = some x → back.head? = some x) ∧
        (r = none → (p :: t.descendants p) <:+ (q :: front) ∧ (q = p → back = []))) ∧
    ∀ p c t', t.removeChild p c = .ok t' ∨ t.parent? c = some p ∧ t.detach c = .ok t' →
      t.ReordersAt p t' fun _ old new => ∃ front back,
        old = front ++ (c :: t.descendants c) ++ back ∧ new = front ++ back := by
  obtain ⟨hF, hshows⟩ := consistent_iff.1 h
  refine ⟨fun p c r t' ht => ?_, fun p c t' ht => ?_⟩
  · obtain ⟨hmet, hF', h', -⟩ := (hshows.insertBefore_decidedBy hF p c r).of_eq_ok ht
    obtain ⟨-, -, -, hr, -⟩ := Forest.met_insertDemands_iff.1 hmet
    refine hshows.reordersAt hF h' hF' (fun x hx => Forest.children_insert_of_ne hx) fun q hq => ?_
    rw [hshows.cons_descendants_eq hF, hshows.cons_descendants_eq hF]
    exact hF.preorder_insert hF' (fun x hx => (hF.mem_children p x).1 (hr x hx).2) hq
  · obtain ⟨hc, h'⟩ := hshows.shows_of_removed hF ht
    refine hshows.reordersAt hF h' (hF.remove hc) (fun x hx => Forest.children_remove_of_ne hx)
      fun q hq => ?_
    rw [hshows.cons_descendants_eq hF]
    exact hF.preorder_remove hc hq

/-- The element and its text are taken out of the order below the document,
and put back at its end. -/
theorem Consistent.descendants_edit_sample :
    sample.Consistent ∧ ∃ t t', sample.removeChild .root ⟨1⟩ = .ok t ∧
      (∃ front back, sample.descendants .root = front ++ [⟨1⟩, ⟨3⟩] ++ back ∧
        t.descendants .root = front ++ back) ∧
      t.Consistent ∧ t.insertBefore .root ⟨1⟩ none = .ok t' ∧
      t'.descendants .root = t.descendants .root ++ [⟨1⟩, ⟨3⟩] := by
  have hremove := (Consistent.descendants_edit consistent_sample).2 .root ⟨1⟩ _ (.inl rfl)
  have hcons := (consistent_sample.call_decidedBy (.edit (.removeChild .root ⟨1⟩))).holds rfl
  refine ⟨consistent_sample, _, _, rfl, hremove.1 .root (.inl rfl), hcons, rfl, ?_⟩
  obtain ⟨front, back, hold, hnew, -, hlast⟩ :=
    ((Consistent.descendants_edit hcons).1 .root ⟨1⟩ none _ rfl).1 .root (.inl rfl)
  obtain rfl := (hlast rfl).2 rfl
  rw [hold, hnew, List.append_nil, List.append_nil]
  rfl

end Tree

end DocumentTree
