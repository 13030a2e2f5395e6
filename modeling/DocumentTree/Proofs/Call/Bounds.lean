import DocumentTree.Proofs.Call.Run
/-!
# Calls stay within bounds

A splice follows links without looking whether they lead out of the arena,
the cycle tests climb without a limit, and the loop that moves a child list
goes on for as long as it finds a first child. On links that agree none of
this goes wrong. No call meets a link that leads out of the arena
(`Tree.Consistent.error_ne_corruptLinks`), a climb passes fewer nodes than
there are (`Tree.Shows.length_ancestors_lt`), and the loop makes one round for
each child it finds at the start (`Tree.Consistent.moves_iff`).
-/

namespace DocumentTree

variable {t : Tree} {F : Forest} {d s id : NodeId}

/-! ## Climbs -/

/-- **A climb passes fewer nodes than there are**: with the node it starts
from, which it does not come back to, it would pass them all. -/
theorem Tree.Shows.length_ancestors_lt (h : t.Shows F) (hF : F.WellFormed) (hid : id ∈ t) :
    (t.ancestors id).length < t.size := by
  have hclimb : Walk.Yields { start := some id, next := t.parent? } (id :: t.ancestors id) :=
    .step rfl (h.ancestorWalk_yields hF id)
  have hmem : ∀ a ∈ id :: t.ancestors id, a ∈ t := by
    intro a ha
    rcases List.mem_cons.1 ha with rfl | ha
    · exact hid
    · exact h.mem_of_below hF ((h.mem_ancestors_iff hF).1 ha)
  have hlen := Tree.length_le_of_yields hclimb hmem
  rw [List.length_cons] at hlen
  omega

/-! ## Rounds -/

/-- **The loop that moves a child list makes one round for each child there
is**, and the call gives the arena it ends with. -/
theorem Tree.Consistent.moves_iff (h : t.Consistent) (hcheck : t.checkReparent d s = .ok ())
    (hds : d ≠ s) :
    ∃ t', t.reparentChildren d s = .ok (t', none) ∧
      ∀ n t'', t.Moves d s n t'' ↔ n = t.childCount s ∧ t'' = t' := by
  obtain ⟨hF, hshows⟩ := Tree.consistent_iff.1 h
  rw [hshows.checkReparent_eq hF, requireAll_eq_ok_iff] at hcheck
  obtain ⟨hd, hs, hbelow⟩ := hshows.of_met_reparent hF hcheck hds
  obtain ⟨t', ht', hmoves, -⟩ := hshows.exists_reparentChildren hF hd hs hds hbelow
  have hcount : t.childCount s = (t.forest.children s).length := rfl
  refine ⟨t', ht', fun n t'' => ⟨fun hn => ?_, ?_⟩⟩
  · obtain ⟨rfl, rfl⟩ := hn.unique hmoves
    exact ⟨rfl, rfl⟩
  · rintro ⟨rfl, rfl⟩
    exact hmoves

/-- **On links that agree every call stays within bounds.** It follows no
link out of the arena, and neither does it run out of moves; the way up from
any node of the arena, which is where the cycle tests start, ends after fewer
steps than there are nodes; and where moving all children gets to its loop,
the loop makes as many rounds as the source had children, no more and no
fewer. -/
theorem Tree.Consistent.call_within_bounds (h : t.Consistent) :
    (∀ (call : Call) (r : Refusal), call.attempt t = .error r → r.error ≠ .corruptLinks) ∧
      (∀ id ∈ t, ∃ l, (t.ancestorWalk id).Yields l ∧ l.length < t.size) ∧
      ∀ d s, t.checkReparent d s = .ok () → d ≠ s →
        ∃ t', t.reparentChildren d s = .ok (t', none) ∧
          ∀ n t'', t.Moves d s n t'' ↔ n = t.childCount s ∧ t'' = t' := by
  refine ⟨fun _ _ hr => h.error_ne_corruptLinks hr, fun id hid => ?_, fun d s hcheck hds => ?_⟩
  · obtain ⟨hF, hshows⟩ := Tree.consistent_iff.1 h
    exact ⟨_, hshows.ancestorWalk_yields hF id, hshows.length_ancestors_lt hF hid⟩
  · exact h.moves_iff hcheck hds

/-- The one child of the element goes to the comment in one round. -/
theorem Tree.Consistent.call_within_bounds_sample :
    Tree.sample.Consistent ∧ Tree.sample.checkReparent ⟨2⟩ ⟨1⟩ = .ok () ∧
      ∃ t', Tree.sample.reparentChildren ⟨2⟩ ⟨1⟩ = .ok (t', none) ∧
        Tree.sample.Moves ⟨2⟩ ⟨1⟩ 1 t' := by
  have hcheck : Tree.sample.checkReparent ⟨2⟩ ⟨1⟩ = .ok () := by decide
  obtain ⟨t', ht', hmoves⟩ := (Tree.Consistent.call_within_bounds Tree.consistent_sample).2.2
    ⟨2⟩ ⟨1⟩ hcheck (by decide)
  exact ⟨Tree.consistent_sample, hcheck, t', ht', (hmoves 1 t').2 ⟨by decide, rfl⟩⟩

end DocumentTree
