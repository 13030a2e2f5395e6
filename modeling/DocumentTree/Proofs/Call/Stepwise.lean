import DocumentTree.Proofs.Call.Run
/-!
# Moving a child list by public calls

Moving all children tests for a cycle once and then splices without looking.
A caller can do the same with the two calls that look each time: take the
first child out, put it last into the other list, and go on until no child is
left (`Tree.MovesByCalls`). Each round of the splicing loop is a round of this
one. What is not below the source is not below any of its children either,
and moving one of them does not put it there (`Forest.not_below_child`,
`Forest.WellFormed.move`), so the one test stands for all the later ones and
no call is refused (`Tree.Consistent.reparentChildren_iff_movesByCalls`).
-/

namespace DocumentTree

namespace Tree

variable {t t' : Tree} {F : Forest} {c d s : NodeId} {n : Nat} {out out' : Except Refusal Tree}

/-- Move one child of `s` to the end of the list of `d`, by two calls. -/
def moveChild (t : Tree) (d s c : NodeId) : Except Refusal Tree := do
  let t ← t.removeChild s c
  t.appendChild d c

/-- The loop over these calls comes to an end, and this is what it gives: the
arena in which `s` has no child left, or the refusal of the first call that
is refused. -/
inductive MovesByCalls (d s : NodeId) : Tree → Except Refusal Tree → Prop
  | done {t : Tree} (h : t.firstChild? s = none) : MovesByCalls d s t (.ok t)
  | refused {t : Tree} {c : NodeId} {r : Refusal} (h : t.firstChild? s = some c)
      (hr : t.moveChild d s c = .error r) : MovesByCalls d s t (.error r)
  | round {t t' : Tree} {c : NodeId} {out : Except Refusal Tree} (h : t.firstChild? s = some c)
      (ht : t.moveChild d s c = .ok t') (rest : MovesByCalls d s t' out) : MovesByCalls d s t out

/-- The loop comes to one end. -/
theorem MovesByCalls.unique (h : t.MovesByCalls d s out) (h' : t.MovesByCalls d s out') :
    out = out' := by
  induction h with
  | done h =>
    cases h' with
    | done => rfl
    | refused h' | round h' => simp [h] at h'
  | refused h he =>
    cases h' with
    | done h' => simp [h] at h'
    | refused h' he' =>
      obtain rfl := Option.some.inj (h.symm.trans h')
      exact he.symm.trans he'
    | round h' ht' =>
      obtain rfl := Option.some.inj (h.symm.trans h')
      cases he.symm.trans ht'
  | round h ht _ ih =>
    cases h' with
    | done h' => simp [h] at h'
    | refused h' he' =>
      obtain rfl := Option.some.inj (h.symm.trans h')
      cases ht.symm.trans he'
    | round h' ht' rest =>
      obtain rfl := Option.some.inj (h.symm.trans h')
      obtain rfl := Except.ok.inj (ht.symm.trans ht')
      exact ih rest

/-- **One round of splices is one round of calls**: both calls are accepted,
and do what the splices do. -/
theorem Shows.exists_moveChild (h : t.Shows F) (hF : F.WellFormed) (hd : d ∈ t)
    (hbelow : ¬ F.Below d s) (hc : F.parent c = some s) :
    ∃ t₁ t₂, t.unlink? s c = some t₁ ∧ t₁.link? d c none = some t₂ ∧
      t.moveChild d s c = .ok t₂ ∧ t₂.Shows ((F.remove s c).insert d c none) ∧ t.Relinks t₂ := by
  obtain ⟨hdc, hnot⟩ := Forest.not_below_child hbelow hc
  obtain ⟨t₁, t₂, ht₁, ht₂, -, h₂, hsame⟩ :=
    h.exists_moveTo hF hc hd (r := none) (by simp) hdc hnot
  have hmove : t.moveChild d s c = .ok t₂ := by
    rw [moveChild, ht₁]
    exact ht₂
  exact ⟨t₁, t₂, unlink?_of_removeChild ht₁, link?_of_insertBefore ht₂, hmove, h₂, hsame⟩

/-- **A run of the splicing loop is a run of the calls.** By induction on its
rounds; a round leaves the destination where it has to be for the next. -/
theorem Moves.byCalls (hmoves : t.Moves d s n t') (h : t.Shows F) (hF : F.WellFormed)
    (hd : d ∈ t) (hbelow : ¬ F.Below d s) : t.MovesByCalls d s (.ok t') := by
  induction hmoves generalizing F with
  | done hl hfirst => exact .done ((firstChild?_of_links? hl).trans hfirst)
  | round hl hfirst h₁ h₂ _ ih =>
    have hfirst' := (firstChild?_of_links? hl).trans hfirst
    have hc := (hF.mem_children s _).1 (List.mem_of_head? ((h.firstChild?_eq s).symm.trans hfirst'))
    obtain ⟨t₁, t₂, h₁', h₂', hmove, hshows, hsame⟩ := h.exists_moveChild hF hd hbelow hc
    obtain rfl := Option.some.inj (h₁.symm.trans h₁')
    obtain rfl := Option.some.inj (h₂.symm.trans h₂')
    obtain ⟨hwf, hbelow'⟩ := hF.move (h.mem_iff.1 hd) hbelow hc
    exact .round hfirst' hmove (ih hshows hwf (hsame.mem_iff.2 hd) hbelow')

/-- **Moving all children is moving them one by one.** For a destination in
the arena that is not the source and not below it the call is accepted, and
the loop over calls comes to the arena it gives and to nothing else: it ends,
and none of its calls is refused. -/
theorem Consistent.reparentChildren_iff_movesByCalls (h : t.Consistent) (hd : d ∈ t) (hs : s ∈ t)
    (hds : d ≠ s) (hbelow : t.isDescendantOf d s = false) :
    ∃ t', t.reparentChildren d s = .ok (t', none) ∧
      ∀ out, t.MovesByCalls d s out ↔ out = .ok t' := by
  obtain ⟨hF, hshows⟩ := consistent_iff.1 h
  have hnot := hshows.not_below_of_isDescendantOf hF hbelow
  obtain ⟨t', ht', hmoves, -⟩ := hshows.exists_reparentChildren hF hd hs hds hnot
  have hcalls := hmoves.byCalls hshows hF hd hnot
  refine ⟨t', ht', fun out => ⟨fun hout => hout.unique hcalls, ?_⟩⟩
  rintro rfl
  exact hcalls

/-- The document takes the text of its own first child, which is the source
below the destination. -/
theorem Consistent.reparentChildren_iff_movesByCalls_sample :
    sample.Consistent ∧ sample.isDescendantOf ⟨1⟩ .root = true ∧
      sample.isDescendantOf .root ⟨1⟩ = false ∧
      ∃ t', sample.reparentChildren .root ⟨1⟩ = .ok (t', none) ∧
        sample.MovesByCalls .root ⟨1⟩ (.ok t') := by
  have hbelow : sample.isDescendantOf .root ⟨1⟩ = false := by decide
  obtain ⟨t', ht', hcalls⟩ := Consistent.reparentChildren_iff_movesByCalls consistent_sample
    (d := .root) (s := ⟨1⟩) (by decide) (by decide) (by decide) hbelow
  exact ⟨consistent_sample, by decide, hbelow, t', ht', (hcalls _).2 rfl⟩

end Tree

end DocumentTree
