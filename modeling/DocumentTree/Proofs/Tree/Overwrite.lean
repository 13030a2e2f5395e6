import DocumentTree.Proofs.Call.Bounds
import DocumentTree.Proofs.Forest.Redundancy
/-!
# Writing a whole node

An edit of content has no way to reach a link. Replacing a whole node has:
the new value brings the links it carried, whether it has just been built or
is a copy of a node that stands somewhere else, in this tree or in another.
The links that the other nodes have settle what the replaced ones must have
been, so a replacement leaves the links in agreement exactly when it changes
none (`Tree.Consistent.write_iff`). Nothing makes it do so, and after one
that does not an edit can be led out of the arena
(`Tree.overwrite_leads_out`).
-/

namespace DocumentTree

namespace Tree

variable {t t' : Tree} {F G : Forest} {id : NodeId} {n : Node} {l l' : Links}

/-! ## Links settled by the others -/

/-- Arenas with the same links at all nodes but one show forests that agree
beside it. -/
theorem Shows.agreeBeside (h : t.Shows F) (h' : t'.Shows G)
    (hlinks : ∀ other ≠ id, t.links? other = t'.links? other) : F.AgreeBeside G id where
  parent_eq other hother := by
    rw [← h.parent_eq, ← h'.parent_eq, parent?, hlinks other hother, parent?]
  next_eq place hplace := by
    rw [← h.next_eq, ← h'.next_eq]
    cases place with
    | edge p => simp only [next?, firstChild?, hlinks p hplace]
    | entry a => simp only [next?, nextSibling?, hlinks a hplace]
  prev_eq place hplace := by
    rw [← h.prev_eq, ← h'.prev_eq]
    cases place with
    | edge p => simp only [prev?, lastChild?, hlinks p hplace]
    | entry a => simp only [prev?, prevSibling?, hlinks a hplace]

/-- **Where links agree, those of one node follow from the others.** -/
theorem Consistent.links_eq (h : t.Consistent) (h' : t'.Consistent)
    (hlinks : ∀ other ≠ id, t.links? other = t'.links? other) (hl : t.links? id = some l)
    (hl' : t'.links? id = some l') : l = l' := by
  obtain ⟨F, hF, hshows⟩ := h.exists_shows
  obtain ⟨G, hG, hshows'⟩ := h'.exists_shows
  obtain ⟨hparent, hnext, hprev⟩ := (hshows.agreeBeside hshows' hlinks).links_eq hF hG
  refine links_eq_of_reads hl hl' ?_ ?_ ?_
  · rw [hshows.parent_eq, hparent, hshows'.parent_eq]
  · rw [hshows.next_eq, hnext, hshows'.next_eq]
  · rw [hshows.prev_eq, hprev, hshows'.prev_eq]

/-! ## Writes -/

/-- A replaced node has the links it was given, and every other one those it
had. -/
theorem links?_overwrite (ht : t.overwrite? id n = some t') (other : NodeId) :
    t'.links? other = if id = other then some n.links else t.links? other := by
  obtain ⟨hid, rfl⟩ := modify?_eq_some_iff.1 ht
  obtain ⟨old, hold⟩ := mem_iff_get?.1 hid
  rw [links?, get?_modify]
  split
  · next he =>
    subst he
    rw [hold]
    rfl
  · rfl

theorem links?_overwrite_eq_iff (ht : t.overwrite? id n = some t') :
    t'.links? = t.links? ↔ t.links? id = some n.links := by
  constructor
  · intro hlinks
    rw [← hlinks, links?_overwrite ht, if_pos rfl]
  · intro hl
    funext other
    rw [links?_overwrite ht]
    split
    · next he => rw [← he, hl]
    · rfl

/-- **A replacement leaves links that agree only if it leaves the links.** -/
theorem Consistent.consistent_overwrite_iff (h : t.Consistent)
    (ht : t.overwrite? id n = some t') : t'.Consistent ↔ t.links? id = some n.links := by
  constructor
  · intro h'
    obtain ⟨hid, -⟩ := modify?_eq_some_iff.1 ht
    obtain ⟨l, hl⟩ := exists_links?_of_mem hid
    -- the arenas differ at `id` alone, and that is settled by the rest of them
    have hother : ∀ other ≠ id, t.links? other = t'.links? other := by
      intro other hne
      rw [links?_overwrite ht, if_neg hne.symm]
    have hn : t'.links? id = some n.links := by rw [links?_overwrite ht, if_pos rfl]
    rw [hl, h.links_eq h' hother hl hn]
  · intro hl
    obtain ⟨F, hF, hshows⟩ := h.exists_shows
    obtain ⟨-, rfl⟩ := modify?_eq_some_iff.1 ht
    exact (hshows.of_links? size_modify ((links?_overwrite_eq_iff ht).2 hl)).consistent hF

/-- **What can be written without touching a link.** An edit of the content
of a node leaves every link of the arena as it is and so all links in
agreement, and no call made after it is led out of the arena. A replacement
of the whole node does so in one case only, that the new value has the links
the node has; in every other case some link has changed and the links do not
agree any more. -/
theorem Consistent.write_iff (h : t.Consistent) (hid : id ∈ t) :
    (∀ f : Content → Content, ∃ t', t.editContent? id f = some t' ∧
        t'.links? = t.links? ∧ t'.Consistent ∧
          ∀ (call : Call) (r : Refusal), call.attempt t' = .error r → r.error ≠ .corruptLinks) ∧
      ∀ n : Node, ∃ t', t.overwrite? id n = some t' ∧
        (t'.links? = t.links? ↔ t.links? id = some n.links) ∧
          (t'.Consistent ↔ t.links? id = some n.links) := by
  refine ⟨fun f => ?_, fun n => ?_⟩
  · obtain ⟨F, hF, hshows⟩ := h.exists_shows
    have ht : t.editContent? id f = some _ := modify?_eq_some_iff.2 ⟨hid, rfl⟩
    have h' := (hshows.editContent? ht).consistent hF
    exact ⟨_, ht, links?_modify_content f, h', fun _ _ hr => h'.error_ne_corruptLinks hr⟩
  · have ht : t.overwrite? id n = some _ := modify?_eq_some_iff.2 ⟨hid, rfl⟩
    exact ⟨_, ht, links?_overwrite_eq_iff ht, h.consistent_overwrite_iff ht⟩

/-- A comment built anew has no links, and the element it replaces has. -/
theorem Consistent.write_iff_sample :
    sample.Consistent ∧ (⟨1⟩ : NodeId) ∈ sample ∧
      ∃ t', sample.overwrite? ⟨1⟩ (.detached (.comment "c")) = some t' ∧
        t'.links? ≠ sample.links? ∧ ¬ t'.Consistent := by
  have hid : (⟨1⟩ : NodeId) ∈ sample := by decide
  obtain ⟨t', ht, hlinks, hconsistent⟩ :=
    (Consistent.write_iff consistent_sample hid).2 (.detached (.comment "c"))
  exact ⟨consistent_sample, hid, t', ht, mt hlinks.1 (by decide), mt hconsistent.1 (by decide)⟩

/-- **A copy can lead out of the arena.** The document node of one tree,
written over that of a smaller one, links to nodes that are not there, which
the check reports first of all and the next edit follows. -/
theorem overwrite_leads_out :
    Tree.new.Consistent ∧ sample.Consistent ∧
      ∃ n t', sample.get? .root = some n ∧ Tree.new.overwrite? .root n = some t' ∧
        t'.links? ≠ Tree.new.links? ∧ ¬ t'.Consistent ∧
        t'.check = .error (.danglingLink .root ⟨1⟩) ∧
        (Call.appendText .root "t").attempt t' = .error { tree := t', error := .corruptLinks } := by
  have hnew : Tree.new.Consistent := shows_new.consistent Forest.wellFormed_new
  refine ⟨hnew, consistent_sample, _, _, rfl, rfl, fun hlinks => ?_, fun h => ?_, by decide, rfl⟩
  · exact absurd (congrFun hlinks .root) (by decide)
  · obtain ⟨id, hid⟩ :=
      h.eq_markerPayload (d := .danglingLink .root ⟨1⟩) (holds_of_check (by decide))
    cases hid

end Tree

end DocumentTree
