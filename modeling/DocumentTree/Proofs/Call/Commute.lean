import DocumentTree.Proofs.Call.Run
/-!
# Insertions in either order

Two insertions may share the parent, meet at neighbouring places, or put one child
below the other, and still it makes no difference which comes first. What a forest
asks of an insertion (`Forest.Accepts`) is kept when another one is put in front of
it or taken away from there: of the two together none leads up in a circle that the
other order would not lead up in too. The one thing that may be missing is a
reference, where the second child goes before the first. And where both go to the
same place the later one comes last, so there the order shows
(`Tree.Consistent.insertions_commute_iff`).
-/

namespace DocumentTree

namespace Forest

variable {F : Forest} {p c q d : NodeId} {r s : Option NodeId}

namespace Accepts

/-- What is inserted second has no parent, as what was inserted first has by then. -/
theorem child_ne (h' : (F.insert p c r).Accepts q d s) : d ≠ c := by
  rintro rfl
  have hroot := h'.root
  rw [parent_insert_self] at hroot
  cases hroot

/-- What is inserted is no reference, for it has no parent yet. -/
theorem reference_ne (h : F.Accepts p c r) (h' : F.Accepts q d s) : r ≠ some d := by
  rintro rfl
  have hparent := h.reference d rfl
  rw [h'.root] at hparent
  cases hparent

/-- **The second insertion does not need the first**, unless it goes before what was
inserted. -/
theorem of_insert (h : F.Accepts p c r) (h' : (F.insert p c r).Accepts q d s)
    (hs : s ≠ some c) : F.Accepts q d s where
  parent_lt := h'.parent_lt
  child_lt := h'.child_lt
  root := by
    rw [← h'.root, parent_insert, Function.update_of_ne h'.child_ne]
  reference x hx := by
    have hxc : x ≠ c := fun hxc => hs (hxc ▸ hx)
    rw [← h'.reference x hx, parent_insert, Function.update_of_ne hxc]
  ne := h'.ne
  not_below hbelow := h'.not_below (below_insert_of_root h.root hbelow)

/-- **The first insertion does not mind the second.** If the second closed the way up from
`p` to `c`, that way would pass from `d` to `q`; so `p` would be at or below `d` and
`q` at or below `c`, and after the first insertion `q` would be below `d`. -/
theorem insert (h : F.Accepts p c r) (h' : (F.insert p c r).Accepts q d s)
    (hd : F.parent d = none) : (F.insert q d s).Accepts p c r where
  parent_lt := h.parent_lt
  child_lt := h.child_lt
  root := by
    rw [parent_insert, Function.update_of_ne h'.child_ne.symm, h.root]
  reference x hx := by
    have hxd : x ≠ d := by
      rintro rfl
      simp [h.reference x hx] at hd
    rw [parent_insert, Function.update_of_ne hxd, h.reference x hx]
  ne := h.ne
  not_below hbelow := by
    rcases below_insert hbelow with hpc | ⟨hpd, hcq⟩
    · exact h.not_below hpc
    · have hcd : (F.insert p c r).Below c d := by
        rcases hpd with rfl | hpd
        · exact .single parent_insert_self
        · exact .head parent_insert_self (below_insert_of_root h.root hpd)
      rcases hcq with rfl | hqc
      · exact h'.not_below hcd
      · exact h'.not_below ((below_insert_of_root h.root hqc).trans hcd)

/-- **At different places the order does not matter.** -/
theorem insert_comm (h : F.Accepts p c r) (h' : F.Accepts q d s) (hF : F.WellFormed)
    (hcd : c ≠ d) (hplace : ¬ (p = q ∧ r = s)) :
    (F.insert p c r).insert q d s = (F.insert q d s).insert p c r := by
  ext1
  · rfl
  · rcases eq_or_ne p q with rfl | hpq
    · have hlist : insertBefore d s (insertBefore c r (F.children p)) =
          insertBefore c r (insertBefore d s (F.children p)) :=
        insertBefore_comm (fun x hx => (hF.mem_children p x).2 (h.reference x hx))
          (fun x hx => (hF.mem_children p x).2 (h'.reference x hx)) (fun hrs => hplace ⟨rfl, hrs⟩)
          (h.reference_ne h') (h'.reference_ne h)
      simp only [children_insert, Function.update_self, Function.update_idem, hlist]
    · simp only [children_insert, Function.update_of_ne hpq, Function.update_of_ne hpq.symm]
      rw [Function.update_comm hpq]
  · simp only [parent_insert]
    rw [Function.update_comm hcd]

/-- **At one place it does**: what stands before the place is what was inserted
last. -/
theorem insert_ne (h : F.Accepts p c r) (h' : F.Accepts p d r)
    (hd : (F.insert p c r).Accepts p d r) (hF : F.WellFormed) :
    (F.insert p c r).insert p d r ≠ (F.insert p d r).insert p c r := by
  have hc : (F.insert p d r).Accepts p c r := h.insert hd h'.root
  intro heq
  have hprev := congrArg (fun G => G.prev (.of p r)) heq
  simp only [(hF.insert h).prev_insert hd.root hd.reference,
    (hF.insert h').prev_insert hc.root hc.reference, Function.update_self] at hprev
  exact hd.child_ne (Option.some.inj hprev)

end Accepts

end Forest

namespace Tree

variable {t t₁ t₂ : Tree} {p₁ c₁ p₂ c₂ : NodeId} {r₁ r₂ : Option NodeId}

/-- **Insertions commute, and only where they are independent.** Of two accepted
insertions the second can be made first, and then leads with the other one to the
same arena, exactly if it does not go before what the other one inserts and the two
do not go to one place. -/
theorem Consistent.insertions_commute_iff (h : t.Consistent)
    (ht₁ : t.insertBefore p₁ c₁ r₁ = .ok t₁) (ht₂ : t₁.insertBefore p₂ c₂ r₂ = .ok t₂) :
    (∃ t', t.insertBefore p₂ c₂ r₂ = .ok t' ∧ t'.insertBefore p₁ c₁ r₁ = .ok t₂) ↔
      r₂ ≠ some c₁ ∧ ¬ (p₁ = p₂ ∧ r₁ = r₂) := by
  obtain ⟨hF, hshows⟩ := consistent_iff.1 h
  obtain ⟨hfirst, hF₁, hshows₁, hsame₁⟩ := hshows.of_insertBefore hF ht₁
  obtain ⟨hthen, hF₂, hshows₂, hsame₂⟩ := hshows₁.of_insertBefore hF₁ ht₂
  constructor
  · rintro ⟨t', ht', hback⟩
    obtain ⟨hsecond, hF', hshows', -⟩ := hshows.of_insertBefore hF ht'
    obtain ⟨-, hF₂', hshows₂', -⟩ := hshows'.of_insertBefore hF' hback
    refine ⟨hsecond.reference_ne hfirst, ?_⟩
    rintro ⟨rfl, rfl⟩
    -- one arena shows one forest, and the two orders give two
    have hone := (hshows₂.forest_eq hF₂).symm.trans (hshows₂'.forest_eq hF₂')
    exact hfirst.insert_ne hsecond hthen hF hone
  · rintro ⟨hr, hplace⟩
    have hsecond := hfirst.of_insert hthen hr
    have hlast := hfirst.insert hthen hsecond.root
    obtain ⟨t', ht', hF', hshows', hsame'⟩ := hshows.exists_insertBefore hF hsecond
    obtain ⟨t₂', hback, -, hshows₂', hsame₂'⟩ := hshows'.exists_insertBefore hF' hlast
    rw [hfirst.insert_comm hsecond hF hthen.child_ne.symm hplace] at hshows₂
    have hsame : t₂.Relinks t₂' := (hsame₁.trans hsame₂).symm.trans (hsame'.trans hsame₂')
    rw [hshows₂.eq_of_relinks hshows₂' hsame] at hback
    exact ⟨t', ht', hback⟩

/-- The paragraph goes back before the comment, and a fresh element before the text
in the paragraph: the same if the element goes there first. -/
theorem Consistent.insertions_commute_iff_sample :
    ∃ t t₁ t₂, (sample.alloc (.detached (.element "b"))).2.removeChild .root ⟨1⟩ = .ok t ∧
      t.Consistent ∧ t.insertBefore .root ⟨1⟩ (some ⟨2⟩) = .ok t₁ ∧
      t₁.insertBefore ⟨1⟩ ⟨4⟩ (some ⟨3⟩) = .ok t₂ ∧
      ∃ t', t.insertBefore ⟨1⟩ ⟨4⟩ (some ⟨3⟩) = .ok t' ∧
        t'.insertBefore .root ⟨1⟩ (some ⟨2⟩) = .ok t₂ := by
  have halloc := (consistent_sample.call_decidedBy
    (.edit (.alloc (.detached (.element "b"))))).holds rfl
  have hcons := (halloc.call_decidedBy (.edit (.removeChild .root ⟨1⟩))).holds rfl
  exact ⟨_, _, _, rfl, hcons, rfl, rfl,
    (Consistent.insertions_commute_iff hcons rfl rfl).2 ⟨by decide, by decide⟩⟩

end Tree

end DocumentTree
