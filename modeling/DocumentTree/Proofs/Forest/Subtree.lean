import DocumentTree.Proofs.Forest.Edit
import DocumentTree.Proofs.Forest.Preorder
/-!
# Subtrees in tree order

A node with all that is below it stands in tree order as one block
(`Forest.subtree`), and the block is determined by the child lists of its
own nodes (`Forest.WellFormed.subtree_congr`). So a change inside one subtree
shows in an enclosing one as the new block in the place of the old
(`Forest.WellFormed.exists_context`), and one more child as one more block
(`Forest.WellFormed.exists_splice`). That is what an insertion and a removal do
to the order (`Forest.WellFormed.preorder_insert`,
`Forest.WellFormed.preorder_remove`). The blocks of the parentless nodes are
the whole forest, each node in one of them
(`Forest.WellFormed.count_flatMap_subtree`).
-/

namespace DocumentTree

namespace Forest

variable {F G : Forest} {p q c d id x : NodeId} {r : Option NodeId} {front back : List NodeId}

/-- A node with all that is below it, in tree order. -/
def subtree (F : Forest) (id : NodeId) : List NodeId := id :: F.preorder id

theorem mem_subtree_self : id ∈ F.subtree id := List.mem_cons_self

namespace WellFormed

/-- What is below a node is the subtrees of its children. -/
theorem preorder_eq_flatMap (hF : F.WellFormed) (id : NodeId) :
    F.preorder id = (F.children id).flatMap F.subtree :=
  hF.preorder_eq id

theorem subtree_eq (hF : F.WellFormed) (id : NodeId) :
    F.subtree id = id :: (F.children id).flatMap F.subtree :=
  congrArg (id :: ·) (hF.preorder_eq_flatMap id)

theorem mem_subtree_iff (hF : F.WellFormed) :
    x ∈ F.subtree id ↔ Relation.ReflTransGen (fun c q => F.parent c = some q) x id :=
  hF.mem_cons_preorder_iff

/-- What is in a subtree is its top or below it. -/
theorem mem_subtree_iff_below (hF : F.WellFormed) :
    x ∈ F.subtree id ↔ id = x ∨ F.Below x id := by
  rw [subtree, List.mem_cons, hF.mem_preorder_iff, eq_comm]

theorem mem_subtree_trans (hF : F.WellFormed) (hx : x ∈ F.subtree c) (hc : c ∈ F.subtree id) :
    x ∈ F.subtree id := by
  rw [hF.mem_subtree_iff] at hx hc ⊢
  exact hx.trans hc

theorem mem_subtree_of_mem_children (hF : F.WellFormed) (hc : c ∈ F.children id) :
    c ∈ F.subtree id :=
  hF.mem_subtree_iff.2 (.single ((hF.mem_children id c).1 hc))

/-- A parent is not in the subtree of its child. -/
theorem not_mem_subtree_of_mem_children (hF : F.WellFormed) (hc : c ∈ F.children p) :
    p ∉ F.subtree c := by
  intro hp
  have hcp := (hF.mem_children p c).1 hc
  exact hF.acyclic p (Relation.TransGen.tail' (hF.mem_subtree_iff.1 hp) hcp)

/-- A parentless node is in no subtree but its own. -/
theorem eq_of_mem_subtree_of_root (hF : F.WellFormed) (hroot : F.parent x = none)
    (hx : x ∈ F.subtree id) : x = id := by
  rcases (hF.mem_subtree_iff.1 hx).cases_head with rfl | ⟨p, hp, -⟩
  · rfl
  · simp [hroot] at hp

/-- The subtrees of different children of a node have nothing in common. -/
theorem eq_of_mem_subtree (hF : F.WellFormed) (hc : c ∈ F.children p) (hd : d ∈ F.children p)
    (hxc : x ∈ F.subtree c) (hxd : x ∈ F.subtree d) : c = d :=
  hF.eq_of_siblings ((hF.mem_children p c).1 hc) ((hF.mem_children p d).1 hd)
    (hF.mem_subtree_iff.1 hxc) (hF.mem_subtree_iff.1 hxd)

/-! ## What a subtree depends on -/

/-- **A subtree is determined by the child lists of its own nodes.** By
induction from the children to the node. -/
theorem subtree_congr (hF : F.WellFormed) (hG : G.WellFormed)
    (h : ∀ x ∈ F.subtree id, G.children x = F.children x) : G.subtree id = F.subtree id := by
  induction id using hF.wellFounded.induction with
  | _ id ih =>
    rw [hG.subtree_eq, hF.subtree_eq, h id mem_subtree_self]
    refine congrArg (id :: ·) (List.flatMap_congr fun c hc => ?_)
    refine ih c ((hF.mem_children id c).1 hc) fun x hx => ?_
    exact h x (hF.mem_subtree_trans hx (hF.mem_subtree_of_mem_children hc))

/-- The subtrees of a list of nodes, none of which has a changed node in
it. -/
theorem flatMap_subtree_congr (hF : F.WellFormed) (hG : G.WellFormed) {l : List NodeId}
    (h : ∀ c ∈ l, ∀ x ∈ F.subtree c, G.children x = F.children x) :
    l.flatMap G.subtree = l.flatMap F.subtree :=
  List.flatMap_congr fun c hc => hF.subtree_congr hG (h c hc)

/-- **A change inside one subtree stays inside its block.** Two forests whose
child lists agree in the subtree of `q` but perhaps in that of `p` list the
same around the block of `p`. By induction from `p` up to `q`: the siblings
that are passed on the way have no node in common with the changed
subtree. -/
theorem exists_context (hF : F.WellFormed) (hG : G.WellFormed) (hp : p ∈ F.subtree q)
    (h : ∀ x ∈ F.subtree q, x ∉ F.subtree p → G.children x = F.children x) :
    ∃ front back, F.subtree q = front ++ F.subtree p ++ back ∧
      G.subtree q = front ++ G.subtree p ++ back := by
  induction q using hF.wellFounded.induction with
  | _ q ih =>
    rcases eq_or_ne p q with rfl | hpq
    · exact ⟨[], [], by simp, by simp⟩
    -- the child of `q` whose subtree has `p` in it
    obtain ⟨c, hc, hpc⟩ : ∃ c ∈ F.children q, p ∈ F.subtree c := by
      rw [hF.subtree_eq, List.mem_cons, List.mem_flatMap] at hp
      exact hp.resolve_left hpq
    have hup : ∀ {d x}, d ∈ F.children q → x ∈ F.subtree d → x ∈ F.subtree q := fun hd hx =>
      hF.mem_subtree_trans hx (hF.mem_subtree_of_mem_children hd)
    obtain ⟨front, back, hcF, hcG⟩ :=
      ih c ((hF.mem_children q c).1 hc) hpc fun x hx => h x (hup hc hx)
    obtain ⟨before, after, hlist⟩ := List.append_of_mem hc
    have hnd := hF.nodup_children q
    rw [hlist, List.nodup_middle, List.nodup_cons, List.mem_append] at hnd
    have hother : ∀ d ∈ F.children q, d ≠ c → ∀ x ∈ F.subtree d, G.children x = F.children x := by
      intro d hd hdc x hx
      refine h x (hup hd hx) fun hxp => hdc ?_
      exact hF.eq_of_mem_subtree hd hc hx (hF.mem_subtree_trans hxp hpc)
    have hbefore : before.flatMap G.subtree = before.flatMap F.subtree :=
      hF.flatMap_subtree_congr hG fun d hd =>
        hother d (by simp [hlist, hd]) fun he => hnd.1 (.inl (he ▸ hd))
    have hafter : after.flatMap G.subtree = after.flatMap F.subtree :=
      hF.flatMap_subtree_congr hG fun d hd =>
        hother d (by simp [hlist, hd]) fun he => hnd.1 (.inr (he ▸ hd))
    have hq : G.children q = F.children q :=
      h q mem_subtree_self fun hqp =>
        hF.not_mem_subtree_of_mem_children hc (hF.mem_subtree_trans hqp hpc)
    refine ⟨q :: before.flatMap F.subtree ++ front, back ++ after.flatMap F.subtree, ?_, ?_⟩
    · rw [hF.subtree_eq q, hlist, List.flatMap_append, List.flatMap_cons, hcF]
      simp
    · rw [hG.subtree_eq q, hq, hlist, List.flatMap_append, List.flatMap_cons, hcG, hbefore, hafter]
      simp

/-! ## One child more -/

section Splice

variable (hF : F.WellFormed) (hG : G.WellFormed) (h : ∀ x ≠ p, G.children x = F.children x)
include hF hG h

/-- Subtrees that the changed list is not part of are as they were. -/
theorem subtree_eq_of_not_mem (hx : p ∉ F.subtree x) : G.subtree x = F.subtree x := by
  refine hF.subtree_congr hG fun y hy => h y ?_
  rintro rfl
  exact hx hy

theorem mem_subtree_congr : p ∈ G.subtree q ↔ p ∈ F.subtree q := by
  constructor
  · intro hp
    by_contra hnot
    rw [hF.subtree_eq_of_not_mem hG h hnot] at hp
    exact hnot hp
  · intro hp
    by_contra hnot
    rw [hG.subtree_eq_of_not_mem hF (fun x hx => (h x hx).symm) hnot] at hp
    exact hnot hp

/-- **One child more is one block more.** Where `G` has `c` at a cut of the
list of `p`, and all other lists are the same, every subtree around `p` has
the block of `c` at a cut: right behind `p` with the subtrees of the
children before `c`, and right before those of the children after it. -/
theorem exists_splice (hcut : F.children p = front ++ back)
    (hcut' : G.children p = front ++ c :: back) (hq : p ∈ F.subtree q) :
    ∃ before after, F.preorder q = before ++ after ∧
      G.preorder q = before ++ F.subtree c ++ after ∧
      (p :: front.flatMap F.subtree) <:+ (q :: before) ∧ back.flatMap F.subtree <+: after := by
  have hsame : ∀ d ∈ G.children p, G.subtree d = F.subtree d := by
    intro d hd
    have hd' : p ∉ G.subtree d := hG.not_mem_subtree_of_mem_children hd
    exact (hG.subtree_eq_of_not_mem hF (fun x hx => (h x hx).symm) hd').symm
  have hsubF : F.subtree p = p :: front.flatMap F.subtree ++ back.flatMap F.subtree := by
    rw [hF.subtree_eq, hcut, List.flatMap_append, List.cons_append]
  have hsubG : G.subtree p =
      p :: front.flatMap F.subtree ++ (F.subtree c ++ back.flatMap F.subtree) := by
    rw [hG.subtree_eq, List.flatMap_congr hsame, hcut', List.flatMap_append, List.flatMap_cons,
      List.cons_append]
  obtain ⟨outer, rest, hqF, hqG⟩ := hF.exists_context hG hq fun x _ hx => h x <| by
    rintro rfl
    exact hx mem_subtree_self
  rw [hsubF] at hqF
  rw [hsubG] at hqG
  -- the order around `p` begins with `q`, which is not part of what is below `q`
  obtain ⟨before, hbefore⟩ : ∃ before, outer ++ p :: front.flatMap F.subtree = q :: before := by
    cases outer with
    | nil =>
      have hpq : q = p := (List.cons.inj hqF).1
      exact ⟨front.flatMap F.subtree, by rw [hpq, List.nil_append]⟩
    | cons y outer =>
      have hyq : q = y := (List.cons.inj hqF).1
      exact ⟨_, by rw [hyq, List.cons_append]⟩
  refine ⟨before, back.flatMap F.subtree ++ rest, ?_, ?_, ⟨outer, hbefore⟩,
    List.prefix_append _ _⟩
  · have hlist : q :: F.preorder q = q :: before ++ (back.flatMap F.subtree ++ rest) := by
      rw [← hbefore, ← subtree, hqF]
      simp
    exact (List.cons.inj hlist).2
  · have hlist : q :: G.preorder q =
        q :: before ++ F.subtree c ++ (back.flatMap F.subtree ++ rest) := by
      rw [← hbefore, ← subtree, hqG]
      simp
    exact (List.cons.inj hlist).2

end Splice

/-- **An insertion puts the block of the child in**, right before the
reference or, without one, right behind the block of the parent. -/
theorem preorder_insert (hF : F.WellFormed) (hG : (F.insert p c r).WellFormed)
    (hr : ∀ x ∈ r, F.parent x = some p) (hq : p ∈ F.subtree q) :
    ∃ before after, F.preorder q = before ++ after ∧
      (F.insert p c r).preorder q = before ++ F.subtree c ++ after ∧
      (∀ x, r = some x → after.head? = some x) ∧
      (r = none → F.subtree p <:+ (q :: before) ∧ (q = p → after = [])) := by
  obtain ⟨front, back, hcut, hback, hins⟩ :=
    exists_insertBefore_eq c fun x hx => (hF.mem_children p x).2 (hr x hx)
  have hcut' : (F.insert p c r).children p = front ++ c :: back := by simp [Forest.insert, hins]
  obtain ⟨before, after, hqF, hqG, hfront, hafter⟩ :=
    hF.exists_splice hG (fun x hx => children_insert_of_ne hx) hcut hcut' hq
  refine ⟨before, after, hqF, hqG, fun x hx => ?_, fun hnone => ?_⟩
  · obtain ⟨back, rfl⟩ := List.head?_eq_some_iff.1 (hback.trans hx)
    obtain ⟨rest, rfl⟩ := hafter
    rfl
  · obtain rfl := List.head?_eq_none_iff.1 (hback.trans hnone)
    rw [List.append_nil] at hcut
    rw [← hcut, ← hF.subtree_eq] at hfront
    refine ⟨hfront, ?_⟩
    rintro rfl
    -- below `q` itself the block of `q` is all there is
    have hlen := hfront.length_le
    have hsplit := congrArg List.length hqF
    rw [List.length_append] at hsplit
    rw [subtree, List.length_cons, List.length_cons] at hlen
    exact List.length_eq_zero_iff.1 (by omega)

/-- **A removal takes the block of the child out.** It is the insertion read
backwards. -/
theorem preorder_remove (hF : F.WellFormed) (hc : F.parent c = some p) (hq : p ∈ F.subtree q) :
    ∃ before after, F.preorder q = before ++ F.subtree c ++ after ∧
      (F.remove p c).preorder q = before ++ after := by
  have hG := hF.remove hc
  obtain ⟨front, back, hcut, herase, -, -⟩ := hF.exists_cut hc
  have hcut' : (F.remove p c).children p = front ++ back := by simp [Forest.remove, herase]
  have hsame : ∀ x ≠ p, F.children x = (F.remove p c).children x := fun x hx =>
    (children_remove_of_ne hx).symm
  have hsub : (F.remove p c).subtree c = F.subtree c :=
    hF.subtree_eq_of_not_mem hG (fun x hx => (hsame x hx).symm)
      (hF.not_mem_subtree_of_mem_children ((hF.mem_children p c).2 hc))
  obtain ⟨before, after, hqG, hqF, -, -⟩ :=
    hG.exists_splice hF hsame hcut' hcut ((hG.mem_subtree_congr hF hsame).1 hq)
  rw [hsub] at hqF
  exact ⟨before, after, hqF, hqG⟩

/-! ## The whole forest -/

theorem nodup_subtree (hF : F.WellFormed) (id : NodeId) : (F.subtree id).Nodup := by
  refine List.nodup_cons.2 ⟨?_, hF.nodup_preorder id⟩
  rw [hF.mem_preorder_iff]
  exact hF.acyclic id

/-- **Every node is in the subtree of a parentless one.** By induction from
the parent to the child, which has fewer nodes below it. -/
theorem exists_root (hF : F.WellFormed) (hid : id.index < F.size) :
    ∃ r, r.index < F.size ∧ F.parent r = none ∧ id ∈ F.subtree r := by
  induction hn : F.size - F.rank id using Nat.strong_induction_on generalizing id with
  | _ n ih =>
    cases hp : F.parent id with
    | none => exact ⟨id, hid, hp, mem_subtree_self⟩
    | some p =>
      have hlt := hF.rank_lt hp
      have hle : F.rank p ≤ F.size := rank_le_size
      obtain ⟨r, hr, hroot, hmem⟩ := ih _ (by omega) (hF.parent_lt id p hp).2 rfl
      have hidp : id ∈ F.subtree p :=
        hF.mem_subtree_of_mem_children ((hF.mem_children p id).2 hp)
      exact ⟨r, hr, hroot, hF.mem_subtree_trans hidp hmem⟩

/-- **A node is below one root only.** Of two nodes above it one is above the
other. -/
theorem eq_of_roots (hF : F.WellFormed) {r r' : NodeId} (hr : F.parent r = none) (hr' : F.parent r' = none)
    (hx : x ∈ F.subtree r) (hx' : x ∈ F.subtree r') : r = r' := by
  rw [hF.mem_subtree_iff] at hx hx'
  rcases Relation.ReflTransGen.total_of_right_unique parent_rightUnique hx hx' with hup | hup
  · exact hF.eq_of_mem_subtree_of_root hr (hF.mem_subtree_iff.2 hup)
  · exact (hF.eq_of_mem_subtree_of_root hr' (hF.mem_subtree_iff.2 hup)).symm

/-- **The subtrees of the parentless nodes hold every node once.** -/
theorem count_flatMap_subtree (hF : F.WellFormed) {roots : List NodeId} (hnd : roots.Nodup)
    (hroots : ∀ r, r ∈ roots ↔ r.index < F.size ∧ F.parent r = none) (id : NodeId) :
    (roots.flatMap F.subtree).count id = if id.index < F.size then 1 else 0 := by
  have hall : (roots.flatMap F.subtree).Nodup := by
    refine List.nodup_flatMap.2 ⟨fun r _ => hF.nodup_subtree r, ?_⟩
    refine hnd.imp_of_mem ?_
    intro r r' hr hr' hne x hx hx'
    exact hne (hF.eq_of_roots ((hroots r).1 hr).2 ((hroots r').1 hr').2 hx hx')
  have hmem : id ∈ roots.flatMap F.subtree ↔ id.index < F.size := by
    rw [List.mem_flatMap]
    constructor
    · rintro ⟨r, hr, hid⟩
      rcases hF.mem_subtree_iff_below.1 hid with rfl | hbelow
      · exact ((hroots r).1 hr).1
      · exact (hF.lt_of_below hbelow).1
    · intro hid
      obtain ⟨r, hr, hroot, hmem⟩ := hF.exists_root hid
      exact ⟨r, (hroots r).2 ⟨hr, hroot⟩, hmem⟩
  by_cases hid : id.index < F.size
  · rw [if_pos hid, List.count_eq_one_of_mem hall (hmem.2 hid)]
  · rw [if_neg hid, List.count_eq_zero_of_not_mem (mt hmem.1 hid)]

end WellFormed

end Forest

end DocumentTree
