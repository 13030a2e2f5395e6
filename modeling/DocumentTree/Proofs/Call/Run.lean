import DocumentTree.Proofs.Call.Spec
import DocumentTree.Proofs.Tree.Check
/-!
# Runs

What the calls of `Spec` come to over a session. Each call is decided by its
demands, and a refused one leaves the session as it was; each leaves links
that agree, so no run from a new tree loses that; and a run of edits is the
run of a forest, edit by edit. What one call keeps carries over to runs by
`Session.run_induction` or by induction on the edits.
-/

namespace DocumentTree

variable {t : Tree} {F : Forest}

/-! ## Decision -/

/-- The demands as the traversals of the arena itself read them. -/
theorem Tree.Consistent.call_decidedBy (h : t.Consistent) (call : Call) :
    DecidedBy (call.attempt t) (call.demands t.forest t.descendants) fun o =>
      o.tree.Consistent := by
  obtain ⟨hF, hshows⟩ := Tree.consistent_iff.1 h
  rw [funext (hshows.descendants_eq hF)]
  exact hshows.call_decidedBy hF call

/-- **A call is accepted when all it asks for is the case, and otherwise
refused for the first thing that is not.** A refused one leaves the tree it
was given and warns of nothing, so tree, marker and log are as they were. -/
theorem Tree.call_decided (h : t.Consistent) (call : Call) :
    ((∃ o, call.attempt t = .ok o) ↔
        ∀ d ∈ call.demands t.forest t.descendants, d.met = true) ∧
      (∀ e, (∃ r, call.attempt t = .error r ∧ r.error = e) ↔
        firstRefusal (call.demands t.forest t.descendants) = some e) ∧
      (∀ r, call.attempt t = .error r → r.tree = t ∧ r.warning? = none) ∧
      ∀ s : Session, s.tree = t → (∃ r, call.attempt t = .error r) → s.after call = s := by
  have hdecided := h.call_decidedBy call
  refine ⟨hdecided.ok_iff, fun e => hdecided.error_iff, fun r hr => ?_, ?_⟩
  · have hleft := call.unchanged_of_refused hr (h.error_ne_corruptLinks hr)
    exact ⟨congrArg Edited.tree hleft, congrArg Edited.warning? hleft⟩
  · rintro s rfl ⟨r, hr⟩
    exact Session.after_of_refused h hr

/-- The document cannot go below its own grandchild, and stays where it is. -/
theorem Tree.call_decided_sample :
    Tree.sample.Consistent ∧
      ∃ r, (Call.edit (.appendChild ⟨3⟩ .root)).attempt .sample = .error r ∧
        r.error = .hierarchyCycle ⟨3⟩ .root ∧ r.tree = .sample := by
  obtain ⟨-, herror, hleft, -⟩ :=
    Tree.call_decided Tree.consistent_sample (.edit (.appendChild ⟨3⟩ .root))
  obtain ⟨r, hr, he⟩ := (herror (.hierarchyCycle ⟨3⟩ .root)).2 (by decide)
  exact ⟨Tree.consistent_sample, r, hr, he, (hleft r hr).1⟩

/-! ## Agreement -/

/-- A new tree shows a document node alone: its links are all absent, like
those of an id outside the arena. -/
theorem Tree.shows_new : Tree.new.Shows .new := by
  have hlink : ∀ (g : Links → Option NodeId), g {} = none →
      ∀ id, (Tree.new.links? id).bind g = none := by
    rintro g hg ⟨_ | i⟩
    · exact hg
    · rfl
  refine ⟨rfl, funext fun id => hlink _ rfl id, funext fun place => ?_, funext fun place => ?_⟩
  · cases place <;> exact hlink _ rfl _
  · cases place <;> exact hlink _ rfl _

theorem Session.consistent_after {s : Session} (h : s.tree.Consistent) (call : Call) :
    (s.after call).tree.Consistent := by
  cases hcall : call.attempt s.tree with
  | ok o =>
    rw [tree_after_of_ok hcall]
    exact (h.call_decidedBy call).holds hcall
  | error r => rwa [after_of_refused h hcall]

/-- **No call, accepted or refused, brings the links out of agreement**, so
on every tree that calls make from a new one the check finds nothing wrong
but the payload of a marker. -/
theorem Session.consistent_run :
    (∀ (s : Session) (call : Call), s.tree.Consistent → (s.after call).tree.Consistent) ∧
      ∀ calls : List Call, (Session.run {} calls).tree.check = .ok () ∨
        ∃ id, (Session.run {} calls).tree.check = .error (.markerPayload id) := by
  refine ⟨fun s call h => consistent_after h call, fun calls => Tree.Consistent.check_eq ?_⟩
  exact run_induction (P := fun s => s.tree.Consistent) (fun s call h => consistent_after h call)
    calls (Tree.shows_new.consistent Forest.wellFormed_new)

/-- Detaching the element leaves a tree and a detached subtree. -/
theorem Session.consistent_run_sample :
    Tree.sample.Consistent ∧
      (Session.after { tree := .sample } (.edit (.detach ⟨1⟩))).tree.Consistent :=
  ⟨Tree.consistent_sample,
    Session.consistent_run.1 { tree := .sample } (.edit (.detach ⟨1⟩)) Tree.consistent_sample⟩

/-! ## Refinement -/

/-- **One edit is one edit of the forest**, refused or not. -/
theorem Session.shows_after {s : Session} (h : s.tree.Shows F) (hF : F.WellFormed) (e : Edit) :
    (F.perform e).WellFormed ∧ (s.after (.edit e)).tree.Shows (F.perform e) := by
  have hdecided : DecidedBy ((Call.edit e).attempt s.tree) (e.demands F F.preorder) _ :=
    h.edit_decidedBy hF e
  rw [Forest.perform]
  cases hf : firstRefusal (e.demands F F.preorder) with
  | none =>
    obtain ⟨o, ho, hedits⟩ := hdecided.accepted hf
    rw [if_pos rfl, tree_after_of_ok ho]
    exact ⟨hedits.wellFormed, hedits.shows⟩
  | some err =>
    obtain ⟨r, hr, -⟩ := hdecided.refused err hf
    rw [if_neg (by simp), after_of_refused (h.consistent hF) hr]
    exact ⟨hF, h⟩

/-- A run of edits is a run of the forest. -/
theorem Session.shows_run {s : Session} (h : s.tree.Shows F) (hF : F.WellFormed) (es : List Edit) :
    (F.run es).WellFormed ∧ (s.run (es.map .edit)).tree.Shows (F.run es) := by
  induction es generalizing s F with
  | nil => exact ⟨hF, h⟩
  | cons e es ih =>
    obtain ⟨hF', h'⟩ := shows_after h hF e
    exact ih h' hF'

/-- **The arena refines the forest.** An accepted edit of links that agree
makes of the forest that the traversals read what it makes of a forest, and
touches no content; and after any edits from a new tree, refused ones among
them, the traversals read both ways what the same edits make of a forest. -/
theorem Session.refines_forest :
    (∀ (t : Tree) (e : Edit) (o : Outcome), t.Consistent → e.attempt t = .ok o →
      o.tree.forest = t.forest.edit e ∧
        (∀ id, o.tree.childrenRev id = (o.tree.children id).reverse) ∧
        (∀ d s, e = .reparentChildren d s →
          ∀ c ∈ t.children s, o.tree.children c = t.children c) ∧
        ((∀ n, e ≠ .alloc n) → t.Relinks o.tree)) ∧
      ∀ es : List Edit, (Session.run {} (es.map .edit)).tree.forest = Forest.new.run es ∧
        ∀ id, (Session.run {} (es.map .edit)).tree.childrenRev id =
          ((Forest.new.run es).children id).reverse := by
  refine ⟨fun t e o h ho => ?_, fun es => ?_⟩
  · obtain ⟨hF, hshows⟩ := Tree.consistent_iff.1 h
    have hdecided := hshows.edit_decidedBy hF e
    obtain ⟨hF', hshows', hsame⟩ := hdecided.holds ho
    refine ⟨hshows'.forest_eq hF', fun id => ?_, ?_, hsame⟩
    · rw [hshows'.childrenRev_eq hF', hshows'.children_eq hF']
    · rintro d s rfl c hc
      rw [hshows'.children_eq hF', Forest.edit]
      split
      · rfl
      · next hds =>
        have hmet := hdecided.ok_iff.1 ⟨o, ho⟩
          (demand (d = s ∨ d ∉ t.forest.preorder s) (.hierarchyCycle d s)) (by simp [Edit.demands])
        rw [met_demand, hF.mem_preorder_iff] at hmet
        exact hF.children_moveAll (hmet.resolve_left hds) hc
  · obtain ⟨hF, hshows⟩ := shows_run (s := {}) Tree.shows_new Forest.wellFormed_new es
    exact ⟨hshows.forest_eq hF, hshows.childrenRev_eq hF⟩

/-- The text moves from the element to the comment. -/
theorem Session.refines_forest_sample :
    Tree.sample.Consistent ∧ ∃ o, (Edit.reparentChildren ⟨2⟩ ⟨1⟩).attempt .sample = .ok o ∧
      o.tree.forest = Tree.sample.forest.edit (.reparentChildren ⟨2⟩ ⟨1⟩) :=
  ⟨Tree.consistent_sample, _, rfl,
    (Session.refines_forest.1 .sample _ _ Tree.consistent_sample rfl).1⟩

end DocumentTree
