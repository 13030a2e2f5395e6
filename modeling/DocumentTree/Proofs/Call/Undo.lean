import DocumentTree.Proofs.Call.Run
/-!
# Edits undone

What an edit did to links that agree another one takes back, and then each
node of the arena has the links and the content it had. For an arena is its
content and the forest it shows (`Tree.Shows.eq_of_relinks`), and on a forest
the edits cancel as list operations do. What has to be seen besides is that
the second call is accepted where the first has led: a child that is taken
out can go back where it was (`Tree.Consistent.removal_insertion_undone`),
and a childless node can give back a child list it has taken over
(`Tree.Consistent.reparentChildren_undone`).
-/

namespace DocumentTree

namespace Forest

variable {F : Forest} {p c d s : NodeId} {r : Option NodeId}

/-! ## Edits of a forest that cancel -/

namespace WellFormed

/-- The sibling behind a child that is taken out stays in the list. -/
theorem parent_next_remove (hF : F.WellFormed) (hc : F.parent c = some p) :
    ∀ x ∈ F.next (.entry c), (F.remove p c).parent x = some p := by
  intro x hx
  obtain ⟨front, back, -, herase, -, hnext⟩ := hF.exists_cut hc
  rw [← (hF.remove hc).mem_children, children_remove, Function.update_self, herase]
  exact List.mem_append_right _ (List.mem_of_head? (hnext ▸ hx))

/-- **A child put back where it was taken from.** -/
theorem insert_remove (hF : F.WellFormed) (hc : F.parent c = some p) :
    (F.remove p c).insert p c (F.next (.entry c)) = F := by
  obtain ⟨front, back, hcut, herase, -, hnext⟩ := hF.exists_cut hc
  have hnd : (front ++ back).Nodup := herase ▸ (hF.nodup_children p).erase c
  have hlist : insertBefore c (F.next (.entry c)) ((F.remove p c).children p) = F.children p := by
    rw [children_remove, Function.update_self, herase, hnext, insertBefore_of_cut hnd, hcut]
  ext1
  · rfl
  · rw [children_insert, hlist, children_remove, Function.update_idem, Function.update_eq_self]
  · rw [parent_insert, parent_remove, Function.update_idem, ← hc, Function.update_eq_self]

/-- **A child taken out from where it was put.** -/
theorem remove_insert (hF : F.WellFormed) (hc : F.parent c = none) :
    (F.insert p c r).remove p c = F := by
  have hlist : ((F.insert p c r).children p).erase c = F.children p := by
    rw [children_insert, Function.update_self,
      erase_insertBefore (hF.not_mem_children_of_root hc p)]
  ext1
  · rfl
  · rw [children_remove, hlist, children_insert, Function.update_idem, Function.update_eq_self]
  · rw [parent_remove, parent_insert, Function.update_idem, ← hc, Function.update_eq_self]

/-- **A child list moved to a childless node and back.** -/
theorem moveAll_moveAll (hF : F.WellFormed) (hds : d ≠ s) (hd : F.children d = []) :
    (F.moveAll d s).moveAll s d = F := by
  have hdest := children_moveAll_to hds hd
  ext1
  · rfl
  · funext q
    rw [moveAll, children_moveAll_from, hdest, List.nil_append]
    rcases eq_or_ne q d with rfl | hqd
    · simp [hd]
    · rcases eq_or_ne q s with rfl | hqs
      · simp [hqd]
      · simp [moveAll, hqd, hqs]
  · funext x
    have hparent : ((F.moveAll d s).moveAll s d).parent x =
        if x ∈ (F.moveAll d s).children d then some s else (F.moveAll d s).parent x := rfl
    rw [hparent, hdest]
    split
    · next hx => exact ((hF.mem_children s x).1 hx).symm
    · next hx => exact if_neg hx

end WellFormed

end Forest

namespace Tree

variable {t t' : Tree} {F : Forest} {p c d s : NodeId} {r : Option NodeId}

/-! ## One child -/

/-- **A removal is undone by an insertion** right before the sibling that the
child had behind it. The parent is not below the child: it was above it. -/
theorem Shows.insertBefore_of_removed (h : t.Shows F) (hF : F.WellFormed)
    (hc : F.parent c = some p) :
    ∃ t', t.removeChild p c = .ok t' ∧ t'.insertBefore p c (t.nextSibling? c) = .ok t := by
  have hnext : t.nextSibling? c = F.next (.entry c) := congrFun h.next_eq (.entry c)
  have hp : p ∈ t := h.mem_iff.2 (hF.parent_lt c p hc).2
  have hpc : p ≠ c := by
    rintro rfl
    exact hF.acyclic p (.single hc)
  have hbelow : ¬ F.Below p c := fun hpc => hF.acyclic p (hpc.tail hc)
  obtain ⟨t₁, t₂, ht₁, ht₂, -, h₂, hsame⟩ :=
    h.exists_moveTo hF hc hp (hF.parent_next_remove hc) hpc hbelow
  rw [hF.insert_remove hc] at h₂
  rw [h.eq_of_relinks h₂ hsame] at ht₂
  exact ⟨t₁, ht₁, hnext ▸ ht₂⟩

/-- **An insertion is undone by a removal.** -/
theorem Shows.removeChild_of_inserted (h : t.Shows F) (hF : F.WellFormed)
    (ht : t.insertBefore p c r = .ok t') : t'.removeChild p c = .ok t := by
  obtain ⟨ha, hF', h', hsame⟩ := h.of_insertBefore hF ht
  obtain ⟨t₂, ht₂, -, h₂, hsame₂⟩ := h'.exists_removeChild hF' Forest.parent_insert_self
  rw [hF.remove_insert ha.root] at h₂
  rwa [h.eq_of_relinks h₂ (hsame.trans hsame₂)] at ht₂

/-- **Removal and insertion undo each other.** A child can be taken out and
put back right before the sibling it had behind it, if any, and what was put
into a list can be taken out; either way the arena is the one there was. -/
theorem Consistent.removal_insertion_undone (h : t.Consistent) :
    (∀ p, ∀ c ∈ t.children p, ∃ t', t.removeChild p c = .ok t' ∧
        t'.insertBefore p c (t.nextSibling? c) = .ok t) ∧
      ∀ p c r t', t.insertBefore p c r = .ok t' → t'.removeChild p c = .ok t := by
  obtain ⟨hF, hshows⟩ := consistent_iff.1 h
  exact ⟨fun p c hc => hshows.insertBefore_of_removed hF ((hF.mem_children p c).1 hc),
    fun p c r t' ht => hshows.removeChild_of_inserted hF ht⟩

/-- The element goes back before the comment; and put behind it, it can be
taken out again. -/
theorem Consistent.removal_insertion_undone_sample :
    sample.Consistent ∧ (⟨1⟩ : NodeId) ∈ sample.children .root ∧
      ∃ t t', sample.removeChild .root ⟨1⟩ = .ok t ∧
        t.insertBefore .root ⟨1⟩ (some ⟨2⟩) = .ok sample ∧ t.Consistent ∧
        t.insertBefore .root ⟨1⟩ none = .ok t' ∧ t'.removeChild .root ⟨1⟩ = .ok t := by
  have hmem : (⟨1⟩ : NodeId) ∈ sample.children .root := by decide
  have hcons := (consistent_sample.call_decidedBy (.edit (.removeChild .root ⟨1⟩))).holds rfl
  obtain ⟨t, ht, hback⟩ := (Consistent.removal_insertion_undone consistent_sample).1 .root ⟨1⟩ hmem
  obtain rfl := Except.ok.inj ht
  exact ⟨consistent_sample, hmem, _, _, rfl, hback, hcons, rfl,
    (Consistent.removal_insertion_undone hcons).2 .root ⟨1⟩ none _ rfl⟩

/-! ## All children -/

/-- **A childless node gives back the children it has taken over**, all of
them and in their order: in between it has the whole list, and the other node
has none. What they were taken from is not below it: it would have to be
below one of them. -/
theorem Consistent.reparentChildren_undone (h : t.Consistent) (hd : d ∈ t) (hs : s ∈ t)
    (hds : d ≠ s) (hnone : t.children d = []) (hbelow : t.isDescendantOf d s = false) :
    ∃ t', t.reparentChildren d s = .ok (t', none) ∧ t'.children d = t.children s ∧
      t'.children s = [] ∧ t'.reparentChildren s d = .ok (t, none) := by
  obtain ⟨hF, hshows⟩ := consistent_iff.1 h
  have hnot := hshows.not_below_of_isDescendantOf hF hbelow
  obtain ⟨t₁, ht₁, -, hF₁, h₁, hsame₁⟩ := hshows.exists_reparentChildren hF hd hs hds hnot
  obtain ⟨t₂, ht₂, -, -, h₂, hsame₂⟩ := h₁.exists_reparentChildren hF₁ (hsame₁.mem_iff.2 hs)
    (hsame₁.mem_iff.2 hd) hds.symm (hF.not_below_moveAll hnone)
  rw [hF.moveAll_moveAll hds hnone] at h₂
  rw [hshows.eq_of_relinks h₂ (hsame₁.trans hsame₂)] at ht₂
  refine ⟨t₁, ht₁, ?_, ?_, ht₂⟩
  · rw [h₁.children_eq hF₁]
    exact Forest.children_moveAll_to hds hnone
  · rw [h₁.children_eq hF₁, Forest.children_moveAll_from]

/-- A fresh element takes all that is in the document, the text below the
first child with it, and gives it back. -/
theorem Consistent.reparentChildren_undone_sample :
    ∃ t, sample.alloc (.detached (.element "div")) = (⟨4⟩, t) ∧ t.Consistent ∧
      t.children ⟨4⟩ = [] ∧ t.isDescendantOf ⟨4⟩ .root = false ∧
      ∃ t', t.reparentChildren ⟨4⟩ .root = .ok (t', none) ∧ t'.children ⟨4⟩ = [⟨1⟩, ⟨2⟩] ∧
        t'.children .root = [] ∧ t'.reparentChildren .root ⟨4⟩ = .ok (t, none) := by
  have hcons := (consistent_sample.call_decidedBy
    (.edit (.alloc (.detached (.element "div"))))).holds rfl
  obtain ⟨t', hmoved, htaken, hleft, hback⟩ := Consistent.reparentChildren_undone hcons
    (d := ⟨4⟩) (s := .root) (by decide) (by decide) (by decide) (by decide) (by decide)
  exact ⟨_, rfl, hcons, by decide, by decide, t', hmoved, htaken, hleft, hback⟩

end Tree

end DocumentTree
