import DocumentTree.Proofs.Tree.Check
import DocumentTree.Proofs.Tree.Traversal
/-!
# The way down, loop by loop

The walk through the descendants of a node keeps no stack. From a node
without children it climbs: past each node that has no next sibling to its
parent, until there is a sibling or the climb is back where the walk began.
Neither loop has a bound, and over links that do not agree both can go on
forever, which `Tree.climb` and `Tree.descendants` hide by reading ancestors
and descendants only so far. Here the two loops are said step by step and
without a bound (`Tree.Climbs`, `Tree.Descends`). Over links that agree each
climb ends, the walk ends, and what it has passed by then is the subtree in
tree order (`Tree.Consistent.descends_iff`). The way up reads other links and
agrees with it (`Tree.Consistent.isDescendantOf_iff_mem_descendants`).
-/

namespace DocumentTree

namespace Tree

variable {t : Tree} {F : Forest} {top id p : NodeId} {l l' : List NodeId}
variable {start next out out' : Option NodeId}

/-! ## The loops -/

/-- The climb from a node, in a walk that began at `top`, ends, and this is
where it goes on. -/
inductive Climbs (t : Tree) (top : NodeId) : NodeId → Option NodeId → Prop
  /-- Back at the top there is nowhere to go. -/
  | home : Climbs t top top none
  | across {id next : NodeId} (hid : id ≠ top) (h : t.nextSibling? id = some next) :
      Climbs t top id (some next)
  | up {id p : NodeId} {out : Option NodeId} (hid : id ≠ top) (h : t.nextSibling? id = none)
      (hp : t.parent? id = some p) (rest : Climbs t top p out) : Climbs t top id out
  /-- Without a parent the climb has missed the top. -/
  | adrift {id : NodeId} (hid : id ≠ top) (h : t.nextSibling? id = none)
      (hp : t.parent? id = none) : Climbs t top id none

/-- The walk below `top` ends, and passes exactly these nodes: from each to
its first child, or without one to where the climb goes on. -/
inductive Descends (t : Tree) (top : NodeId) : Option NodeId → List NodeId → Prop
  | done : Descends t top none []
  | down {id c : NodeId} {l : List NodeId} (h : t.firstChild? id = some c)
      (rest : Descends t top (some c) l) : Descends t top (some id) (id :: l)
  | past {id : NodeId} {out : Option NodeId} {l : List NodeId} (h : t.firstChild? id = none)
      (climb : t.Climbs top id out) (rest : Descends t top out l) :
      Descends t top (some id) (id :: l)

/-- A climb ends in one way. -/
theorem Climbs.unique (h : t.Climbs top id out) (h' : t.Climbs top id out') : out = out' := by
  induction h with
  | home =>
    cases h' with
    | home => rfl
    | across hid | up hid | adrift hid => exact absurd rfl hid
  | across hid h =>
    cases h' with
    | home => exact absurd rfl hid
    | across _ h' => exact h.symm.trans h'
    | up _ h' | adrift _ h' => simp [h] at h'
  | up hid h hp _ ih =>
    cases h' with
    | home => exact absurd rfl hid
    | across _ h' => simp [h] at h'
    | up _ _ hp' rest =>
      obtain rfl := Option.some.inj (hp.symm.trans hp')
      exact ih rest
    | adrift _ _ hp' => simp [hp] at hp'
  | adrift hid h hp =>
    cases h' with
    | home => rfl
    | across _ h' => simp [h] at h'
    | up _ _ hp' => simp [hp] at hp'
    | adrift => rfl

/-- A walk reads one list. -/
theorem Descends.unique (h : t.Descends top start l) (h' : t.Descends top start l') : l = l' := by
  induction h generalizing l' with
  | done =>
    cases h'
    rfl
  | down h _ ih =>
    cases h' with
    | down h' rest =>
      obtain rfl := Option.some.inj (h.symm.trans h')
      rw [ih rest]
    | past h' => simp [h] at h'
  | past h climb _ ih =>
    cases h' with
    | down h' => simp [h] at h'
    | past _ climb' rest =>
      obtain rfl := climb.unique climb'
      rw [ih rest]

/-! ## Ending -/

/-- **Every climb ends**, where the bounded climb says. By induction on the
ancestors that are left: each step leaves one fewer. -/
theorem Shows.climbs (h : t.Shows F) (hF : F.WellFormed) (top id : NodeId) :
    t.Climbs top id (t.following? top id) := by
  induction hl : t.ancestors id generalizing id with
  | nil =>
    rcases eq_or_ne id top with rfl | hid
    · rw [following?_self]
      exact .home
    -- without a parent there is no sibling either: the climb has missed the top
    have hp : F.parent id = none := by
      rw [Option.eq_none_iff_forall_ne_some]
      intro p hp
      simp [h.ancestors_of_parent hF hp] at hl
    have hnext : t.nextSibling? id = none :=
      (congrFun h.next_eq (.entry id)).trans (Forest.neighbour_entry_of_orphan hp)
    have hfollow : t.following? top id = none := by
      simp [following?, climb, hl, hid, hnext]
    rw [hfollow]
    exact .adrift hid hnext (by rw [h.parent_eq, hp])
  | cons a l ih =>
    rcases eq_or_ne id top with rfl | hid
    · rw [following?_self]
      exact .home
    obtain ⟨p, hp⟩ : ∃ p, F.parent id = some p := by
      have ha : a ∈ t.ancestors id := by simp [hl]
      obtain ⟨p, hp, -⟩ := Relation.TransGen.head'_iff.1 ((h.mem_ancestors_iff hF).1 ha)
      exact ⟨p, hp⟩
    rw [h.ancestors_of_parent hF hp, List.cons.injEq] at hl
    rw [h.following?_eq hF hid hp]
    cases hnext : t.nextSibling? id with
    | some next => exact .across hid hnext
    | none => exact .up hid hnext (by rw [h.parent_eq, hp]) (ih p hl.2)

/-- Where every climb ends, the walk is its two loops. -/
theorem descends_of_yields (hclimb : ∀ id, t.Climbs top id (t.following? top id))
    (h : Walk.Yields { start := start, next := t.stepBelow top } l) : t.Descends top start l := by
  generalize hw : ({ start := start, next := t.stepBelow top } : Walk) = w at h
  induction h generalizing start with
  | done hs =>
    subst hw
    obtain rfl : start = none := hs
    exact .done
  | @step _ id _ hs _ ih =>
    subst hw
    obtain rfl : start = some id := hs
    have hrest : t.Descends top (t.firstChild? id <|> t.following? top id) _ := ih rfl
    cases hfirst : t.firstChild? id with
    | some c =>
      rw [hfirst] at hrest
      exact .down hfirst hrest
    | none =>
      rw [hfirst] at hrest
      exact .past hfirst (hclimb id) hrest

/-- **The walk below a node ends, loops and all**, and passes its
descendants. -/
theorem Shows.descends (h : t.Shows F) (hF : F.WellFormed) (id : NodeId) :
    t.Descends id (t.firstChild? id) (t.descendants id) := by
  rw [h.descendants_eq hF]
  exact descends_of_yields (h.climbs hF id) (h.descendantWalk_yields hF id)

/-! ## Tree order -/

/-- **The way down is the subtree in tree order.** The walk ends with the
descendants and in no other way. They are, for one child after the other,
the child and its own descendants; none is there twice; a node is among them
exactly if its way up leads here, so that the walk does not get into the
siblings of the node it began at; each comes right before its own
descendants, which stand in one piece; and outside the arena there are
none. -/
theorem Consistent.descends_iff (h : t.Consistent) (id : NodeId) :
    (∀ l, t.Descends id (t.firstChild? id) l ↔ l = t.descendants id) ∧
      t.descendants id = (t.children id).flatMap (fun c => c :: t.descendants c) ∧
      (t.descendants id).Nodup ∧
      (∀ a, a ∈ t.descendants id ↔ (t.ancestorWalk a).Reaches id) ∧
      (∀ a ∈ t.descendants id, (a :: t.descendants a) <:+: t.descendants id) ∧
      (id ∉ t → t.descendants id = []) := by
  obtain ⟨hF, hshows⟩ := consistent_iff.1 h
  have horder : t.descendants = t.forest.preorder := funext (hshows.descendants_eq hF)
  have hdescends := hshows.descends hF id
  refine ⟨fun l => ⟨fun hl => hl.unique hdescends, ?_⟩, ?_, ?_, fun a => ?_, fun a ha => ?_,
    fun hid => ?_⟩
  · rintro rfl
    exact hdescends
  · rw [horder]
    exact hF.preorder_eq id
  · rw [horder]
    exact hF.nodup_preorder id
  · rw [hshows.mem_descendants_iff hF, hshows.reaches_ancestorWalk_iff]
  · rw [horder] at ha ⊢
    exact hF.infix_preorder ha
  · have hwalk := hshows.descendantWalk_yields hF id
    -- the walk has nowhere to start
    have hstart : t.firstChild? id = none := by
      rw [firstChild?, links?_eq_none_of_not_mem hid, Option.bind_none]
    rw [horder]
    exact hwalk.unique (.done hstart)

/-- The element has a sibling after it, and its text is all there is below
it. -/
theorem Consistent.descends_iff_sample :
    sample.Consistent ∧ sample.Descends ⟨1⟩ (some ⟨3⟩) [⟨3⟩] :=
  ⟨consistent_sample, ((Consistent.descends_iff consistent_sample ⟨1⟩).1 [⟨3⟩]).2 (by decide)⟩

/-! ## Down and up -/

/-- **The way down and the way up find the same.** The walk below a node ends
and so does the walk up from one, each with what is read of it, and one node
is on the way up from another exactly if that one is among its descendants.
A way up passes no node twice, does not come back to where it began, and
ends at a node without a parent. So no node is below itself, and what is
below a node is below all that the node is below. -/
theorem Consistent.isDescendantOf_iff_mem_descendants (h : t.Consistent) :
    (∀ a b, t.isDescendantOf a b = true ↔ a ∈ t.descendants b) ∧
      (∀ b, t.Descends b (t.firstChild? b) (t.descendants b)) ∧
      (∀ a, (t.ancestorWalk a).Yields (t.ancestors a) ∧ (t.ancestors a).Nodup ∧
        a ∉ t.ancestors a ∧ ∀ r, (t.ancestors a).getLast? = some r → t.parent? r = none) ∧
      (∀ a, t.isDescendantOf a a = false) ∧
      ∀ a b c, t.isDescendantOf a b = true → t.isDescendantOf b c = true →
        t.isDescendantOf a c = true := by
  obtain ⟨hF, hshows⟩ := consistent_iff.1 h
  have hbelow : ∀ a b, t.isDescendantOf a b = true ↔ t.forest.Below a b := fun _ _ =>
    hshows.isDescendantOf_iff hF
  refine ⟨fun a b => ?_, hshows.descends hF, fun a => ?_, fun a => ?_, fun a b c hab hbc => ?_⟩
  · rw [hbelow, hshows.mem_descendants_iff hF]
  · have hup := hshows.ancestorWalk_yields hF a
    obtain ⟨hself, hnodup⟩ := List.nodup_cons.1 (hshows.nodup_cons_ancestors hF a)
    exact ⟨hup, hnodup, hself, fun r hr => hup.next_getLast? hr⟩
  · rw [Bool.eq_false_iff, ne_eq, hbelow]
    exact hF.acyclic a
  · rw [hbelow] at hab hbc ⊢
    exact hab.trans hbc

/-- The text is below the element and so below the document, but not below
the comment, and the way up from it ends at the document. -/
theorem Consistent.isDescendantOf_iff_mem_descendants_sample :
    sample.Consistent ∧ (⟨3⟩ : NodeId) ∈ sample.descendants .root ∧
      (⟨3⟩ : NodeId) ∉ sample.descendants ⟨2⟩ ∧ sample.parent? .root = none := by
  obtain ⟨hiff, -, hup, -, htrans⟩ :=
    Consistent.isDescendantOf_iff_mem_descendants consistent_sample
  have hroot := htrans ⟨3⟩ ⟨1⟩ .root (by decide) (by decide)
  exact ⟨consistent_sample, (hiff ⟨3⟩ .root).1 hroot, fun hmem =>
    absurd ((hiff ⟨3⟩ ⟨2⟩).2 hmem) (by decide), (hup ⟨3⟩).2.2.2 .root (by decide)⟩

end Tree

end DocumentTree
