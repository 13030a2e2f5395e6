import DocumentTree.Proofs.Forest.Subtree
import DocumentTree.Proofs.Tree.Shows
/-!
# Walks through a forest

Over links that agree every walk ends, and its bounded reading is all of it.
Upwards that is so because no way up comes back; downwards because the walk
through the subtree of a node, which keeps no stack and finds its way back
through the parents, passes the nodes below it in tree order
(`Shows.descendants_eq`). What is passed is the same both ways
(`Shows.isDescendantOf_iff`, `Shows.mem_descendants_iff`).
-/

namespace DocumentTree

namespace Tree

variable {t : Tree} {F : Forest} {p c id a top : NodeId}

/-! ## Upwards -/

theorem Shows.mem_of_below (h : t.Shows F) (hF : F.WellFormed) (hid : F.Below id a) : a ∈ t :=
  h.mem_iff.2 (hF.lt_of_below hid).2

/-- **The way up ends**, and the bounded reading is all of it. -/
theorem Shows.ancestorWalk_yields (h : t.Shows F) (hF : F.WellFormed) (id : NodeId) :
    (t.ancestorWalk id).Yields (t.ancestors id) := by
  have hmem : ∀ a, (t.ancestorWalk id).Reaches a → a ∈ t := fun a ha =>
    h.mem_of_below hF (h.reaches_ancestorWalk_iff.1 ha)
  obtain ⟨l, hl⟩ := Walk.exists_yields_of_acyclic t.ids (fun a ha => mem_ids.2 (hmem a ha))
    fun a _ hback => hF.acyclic a (h.reaches_ancestorWalk_iff.1 hback)
  have hlen : l.length ≤ t.walkBound :=
    (length_le_of_yields hl fun a ha => hmem a (hl.reaches_iff.2 ha)).trans (Nat.le_succ _)
  rw [ancestors, hl.take_eq hlen]
  exact hl

theorem Shows.mem_ancestors_iff (h : t.Shows F) (hF : F.WellFormed) :
    a ∈ t.ancestors id ↔ F.Below id a := by
  rw [← (h.ancestorWalk_yields hF id).reaches_iff, h.reaches_ancestorWalk_iff]

/-- **The cycle test looks up and finds what is below.** -/
theorem Shows.isDescendantOf_iff (h : t.Shows F) (hF : F.WellFormed) :
    t.isDescendantOf id a = true ↔ F.Below id a := by
  rw [isDescendantOf, List.contains_iff_mem, h.mem_ancestors_iff hF]

theorem Shows.not_below_of_isDescendantOf (h : t.Shows F) (hF : F.WellFormed)
    (hid : t.isDescendantOf id a = false) : ¬ F.Below id a := by
  rw [← h.isDescendantOf_iff hF, hid]
  exact Bool.false_ne_true

theorem Shows.ancestors_of_parent (h : t.Shows F) (hF : F.WellFormed)
    (hid : F.parent id = some p) : t.ancestors id = p :: t.ancestors p := by
  have hstep : (t.ancestorWalk id).Yields (p :: t.ancestors p) :=
    .step (by rw [ancestorWalk, h.parent_eq, hid]) (h.ancestorWalk_yields hF p)
  exact (h.ancestorWalk_yields hF id).unique hstep

/-- From a node of a subtree the way up comes to the top of it, and goes on
as from there. By induction from the top down. -/
theorem Shows.exists_ancestors_eq (h : t.Shows F) (hF : F.WellFormed) (ha : a ∈ F.subtree id) :
    ∃ front, a :: t.ancestors a = front ++ id :: t.ancestors id := by
  rw [hF.mem_subtree_iff] at ha
  induction ha using Relation.ReflTransGen.head_induction_on with
  | refl => exact ⟨[], rfl⟩
  | @head b p hp _ ih =>
    obtain ⟨front, hfront⟩ := ih
    exact ⟨b :: front, by rw [h.ancestors_of_parent hF hp, hfront, List.cons_append]⟩

/-- No node is passed twice on the way up, nor is the one it starts from. -/
theorem Shows.nodup_cons_ancestors (h : t.Shows F) (hF : F.WellFormed) (id : NodeId) :
    (id :: t.ancestors id).Nodup := by
  refine List.nodup_cons.2 ⟨?_, (h.ancestorWalk_yields hF id).nodup⟩
  rw [h.mem_ancestors_iff hF]
  exact hF.acyclic id

/-- **Nodes of which each is the parent of the one before are the way up**, if
the last one has no parent. -/
theorem Shows.ancestors_eq_of_isChain (h : t.Shows F) (hF : F.WellFormed) {l : List NodeId}
    (hl : (id :: l).IsChain fun c p => t.parent? c = some p)
    (hlast : ∀ r ∈ (id :: l).getLast?, t.parent? r = none) : t.ancestors id = l := by
  induction l generalizing id with
  | nil =>
    have hid : t.parent? id = none := hlast id rfl
    exact (h.ancestorWalk_yields hF id).unique (.done hid)
  | cons p l ih =>
    obtain ⟨hid, hl⟩ := List.isChain_cons_cons.1 hl
    rw [h.parent_eq] at hid
    rw [h.ancestors_of_parent hF hid, ih hl fun r hr => hlast r hr]

/-! ## Downwards -/

/-- Nothing follows the subtree that is walked. -/
@[simp] theorem following?_self : t.following? top top = none := by
  simp [following?, climb]

/-- **What follows a subtree is the next sibling of its root, or what
follows the subtree of its parent.** The climb is this recursion. -/
theorem Shows.following?_eq (h : t.Shows F) (hF : F.WellFormed) (hne : id ≠ top)
    (hp : F.parent id = some p) :
    t.following? top id = (t.nextSibling? id <|> t.following? top p) := by
  rw [following?, climb, List.takeWhile_cons_of_pos (by simpa using hne), List.findSome?_cons,
    h.ancestors_of_parent hF hp, following?, climb]
  cases t.nextSibling? id <;> rfl

/-- Where the walk goes from a node. -/
def stepBelow (t : Tree) (top id : NodeId) : Option NodeId :=
  t.firstChild? id <|> t.following? top id

/-- **From anywhere in a child list the walk passes the rest of the list,
each child with what is below it, and then goes on behind the parent.**
By induction from the children to the parent, and along the list from its
end. -/
theorem Shows.walkBelow_yields (h : t.Shows F) (hF : F.WellFormed) (hp : p = top ∨ F.Below p top)
    {front back rest : List NodeId} (hlist : F.children p = front ++ back)
    (hrest : Walk.Yields { start := t.following? top p, next := t.stepBelow top } rest) :
    Walk.Yields { start := back.head? <|> t.following? top p, next := t.stepBelow top }
      (back.flatMap (fun c => c :: F.preorder c) ++ rest) := by
  induction p using hF.wellFounded.induction generalizing front back rest with
  | _ p ih =>
    induction back generalizing front with
    | nil => exact hrest
    | cons c back ihback =>
      have hc : F.parent c = some p := (hF.mem_children p c).1 (by simp [hlist])
      have hbelow : F.Below c top := by
        rcases hp with rfl | hp
        · exact .single hc
        · exact .head hc hp
      have hne : c ≠ top := by
        rintro rfl
        exact hF.acyclic c hbelow
      have hcut : F.children p = (front ++ [c]) ++ back := by simp [hlist]
      have hfollow : t.following? top c = (back.head? <|> t.following? top p) := by
        rw [h.following?_eq hF hne hc, (h.chained hF p).next_eq c (by simp [hlist]), hlist,
          follower_of_cut (hlist ▸ hF.nodup_children p)]
      -- behind the subtree of `c` the walk is at the rest of the list
      have hbehind := ihback hcut
      rw [← hfollow] at hbehind
      have hgo := ih c hc (.inr hbelow) (List.nil_append _).symm hbehind
      have hstep : t.stepBelow top c = ((F.children c).head? <|> t.following? top c) := by
        rw [stepBelow, h.firstChild?_eq]
      rw [← hF.preorder_eq, ← hstep] at hgo
      rw [List.flatMap_cons, List.cons_append, List.cons_append, List.append_assoc]
      exact .step rfl hgo

/-- **The walk down passes the nodes below in tree order.** -/
theorem Shows.descendantWalk_yields (h : t.Shows F) (hF : F.WellFormed) (top : NodeId) :
    (t.descendantWalk top).Yields (F.preorder top) := by
  have hwalk := h.walkBelow_yields hF (.inl rfl) (List.nil_append (F.children top)).symm
    (.done following?_self)
  have hstart : ((F.children top).head? <|> none) = t.firstChild? top := by
    rw [h.firstChild?_eq]
    cases (F.children top).head? <;> rfl
  rw [following?_self, ← hF.preorder_eq, List.append_nil, hstart] at hwalk
  exact hwalk

/-- **The descendants are read in tree order, all of them.** -/
theorem Shows.descendants_eq (h : t.Shows F) (hF : F.WellFormed) (id : NodeId) :
    t.descendants id = F.preorder id := by
  have hlen := length_le_of_yields (h.descendantWalk_yields hF id) fun a ha =>
    h.mem_iff.2 (hF.lt_of_below (hF.mem_preorder_iff.1 ha)).1
  exact (h.descendantWalk_yields hF id).take_eq (hlen.trans (Nat.le_succ _))

/-- A node and its descendants are its subtree. -/
theorem Shows.cons_descendants_eq (h : t.Shows F) (hF : F.WellFormed) (id : NodeId) :
    id :: t.descendants id = F.subtree id := by
  rw [h.descendants_eq hF, Forest.subtree]

theorem Shows.mem_descendants_iff (h : t.Shows F) (hF : F.WellFormed) :
    a ∈ t.descendants id ↔ F.Below a id := by
  rw [h.descendants_eq hF, hF.mem_preorder_iff]

end Tree

end DocumentTree
