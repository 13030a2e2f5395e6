import DocumentTree.Proofs.Forest.Basic
import Mathlib.Data.Finset.Card
import Mathlib.Data.List.Nodup
/-!
# Tree order

The nodes below a node in tree order: each child with all that is below it,
one child after the other. A forest is no inductive type, and what makes the
recursion end is that a child has fewer nodes below it than its parent
(`Forest.rank_lt`). The same count gives induction from the children of a
node to the node (`Forest.WellFormed.wellFounded`). In the order no node
stands twice (`Forest.WellFormed.nodup_preorder`), and a subtree stands in
one piece (`Forest.WellFormed.infix_preorder`).
-/

namespace DocumentTree

namespace Forest

variable {F : Forest} {p c id a : NodeId}

open Classical in
/-- How many nodes are below a node. -/
noncomputable def rank (F : Forest) (id : NodeId) : Nat :=
  ((Finset.range F.size).filter fun i => F.Below ⟨i⟩ id).card

theorem rank_le_size : F.rank id ≤ F.size := by
  classical
  exact (Finset.card_filter_le _ _).trans (Finset.card_range F.size).le

/-- There are fewer nodes below a node than there are, itself for one. -/
theorem WellFormed.rank_lt_size (hF : F.WellFormed) (hid : id.index < F.size) :
    F.rank id < F.size := by
  classical
  refine (Finset.card_lt_card ?_).trans_le (Finset.card_range F.size).le
  refine Finset.filter_ssubset.2 ⟨id.index, Finset.mem_range.2 hid, ?_⟩
  exact hF.acyclic id

/-- **A child has fewer nodes below it than its parent**, itself for one. -/
theorem WellFormed.rank_lt (hF : F.WellFormed) (hc : F.parent c = some p) :
    F.rank c < F.rank p := by
  classical
  refine Finset.card_lt_card ⟨fun i hi => ?_, fun h => ?_⟩
  · rw [Finset.mem_filter] at hi ⊢
    exact ⟨hi.1, hi.2.tail hc⟩
  · have hmem : c.index ∈ (Finset.range F.size).filter fun i => F.Below ⟨i⟩ p :=
      Finset.mem_filter.2 ⟨Finset.mem_range.2 (hF.parent_lt c p hc).1, .single hc⟩
    exact hF.acyclic c (Finset.mem_filter.1 (h hmem)).2

/-- Induction from the children to the parent. -/
theorem WellFormed.wellFounded (hF : F.WellFormed) :
    WellFounded fun c p => F.parent c = some p :=
  Subrelation.wf hF.rank_lt (measure F.rank).wf

/-! ## The order -/

/-- The nodes below a node in tree order, down to some levels. -/
def belowUpTo (F : Forest) : Nat → NodeId → List NodeId
  | 0, _ => []
  | levels + 1, id => (F.children id).flatMap fun c => c :: F.belowUpTo levels c

/-- The nodes below a node in tree order. There are no more levels than
nodes. -/
def preorder (F : Forest) (id : NodeId) : List NodeId := F.belowUpTo F.size id

/-- Levels past the last make no difference. -/
theorem WellFormed.belowUpTo_succ (hF : F.WellFormed) {n : Nat} (hn : F.rank id ≤ n) :
    F.belowUpTo (n + 1) id = F.belowUpTo n id := by
  induction n generalizing id with
  | zero =>
    have hnil : F.children id = [] := by
      refine List.eq_nil_iff_forall_not_mem.2 fun c hc => ?_
      have := hF.rank_lt ((hF.mem_children id c).1 hc)
      omega
    simp [belowUpTo, hnil]
  | succ n ih =>
    rw [belowUpTo, belowUpTo]
    refine List.flatMap_congr fun c hc => ?_
    have hlt := hF.rank_lt ((hF.mem_children id c).1 hc)
    rw [ih (by omega)]

/-- **Tree order, by recursion over the children.** -/
theorem WellFormed.preorder_eq (hF : F.WellFormed) (id : NodeId) :
    F.preorder id = (F.children id).flatMap fun c => c :: F.preorder c := by
  rw [preorder, ← hF.belowUpTo_succ rank_le_size]
  rfl

/-- **What is listed in tree order is what is below.** -/
theorem WellFormed.mem_preorder_iff (hF : F.WellFormed) :
    a ∈ F.preorder id ↔ F.Below a id := by
  induction id using hF.wellFounded.induction with
  | _ id ih =>
    rw [hF.preorder_eq, List.mem_flatMap, Below, Relation.TransGen.tail'_iff]
    refine exists_congr fun c => ?_
    rw [hF.mem_children, and_comm, Relation.reflTransGen_iff_eq_or_transGen, List.mem_cons]
    refine and_congr_left fun hc => ?_
    rw [ih c hc, eq_comm]
    rfl

/-! ## Subtrees in the order -/

/-- There is one way up from a node. -/
theorem parent_rightUnique : Relator.RightUnique fun c q => F.parent c = some q := fun _ _ _ h h' =>
  Option.some.inj (h.symm.trans h')

/-- **Siblings have no node in common.** What is at or below both has one way
up, so one of them is at or below the other, and it would be below itself. -/
theorem WellFormed.eq_of_siblings (hF : F.WellFormed) {b x : NodeId} (ha : F.parent a = some p)
    (hb : F.parent b = some p)
    (hxa : Relation.ReflTransGen (fun c q => F.parent c = some q) x a)
    (hxb : Relation.ReflTransGen (fun c q => F.parent c = some q) x b) : a = b := by
  -- a sibling above another one is above their parent, and so above itself
  have habove : ∀ {c d}, F.parent c = some p → F.parent d = some p →
      Relation.ReflTransGen (fun c q => F.parent c = some q) c d → c = d := by
    intro c d hc hd hcd
    rcases hcd.cases_head with rfl | ⟨q, hq, hqd⟩
    · rfl
    · obtain rfl := parent_rightUnique hc hq
      have hself : F.Below d d := Relation.TransGen.head' hd hqd
      exact absurd hself (hF.acyclic d)
  rcases Relation.ReflTransGen.total_of_right_unique parent_rightUnique hxa hxb with h | h
  · exact habove ha hb h
  · exact (habove hb ha h).symm

/-- What is listed with a child is at or below it. -/
theorem WellFormed.mem_cons_preorder_iff (hF : F.WellFormed) :
    a ∈ c :: F.preorder c ↔ Relation.ReflTransGen (fun c q => F.parent c = some q) a c := by
  rw [List.mem_cons, hF.mem_preorder_iff, Relation.reflTransGen_iff_eq_or_transGen, eq_comm]
  rfl

/-- **Nothing is listed twice.** -/
theorem WellFormed.nodup_preorder (hF : F.WellFormed) (id : NodeId) : (F.preorder id).Nodup := by
  induction id using hF.wellFounded.induction with
  | _ id ih =>
    rw [hF.preorder_eq, List.nodup_flatMap]
    constructor
    · intro c hc
      have hcid := (hF.mem_children id c).1 hc
      have hnot : c ∉ F.preorder c := by
        rw [hF.mem_preorder_iff]
        exact hF.acyclic c
      exact List.nodup_cons.2 ⟨hnot, ih c hcid⟩
    · refine (hF.nodup_children id).imp_of_mem ?_
      intro a b ha hb hab x hxa hxb
      exact hab (hF.eq_of_siblings ((hF.mem_children id a).1 ha) ((hF.mem_children id b).1 hb)
        (hF.mem_cons_preorder_iff.1 hxa) (hF.mem_cons_preorder_iff.1 hxb))

/-- **A node and what is below it are listed in one piece**, the node
first. -/
theorem WellFormed.infix_preorder (hF : F.WellFormed) (ha : a ∈ F.preorder id) :
    (a :: F.preorder a) <:+: F.preorder id := by
  induction id using hF.wellFounded.induction with
  | _ id ih =>
    rw [hF.preorder_eq id, List.mem_flatMap] at ha
    obtain ⟨c, hc, hac⟩ := ha
    have hblock : (c :: F.preorder c) <:+: F.preorder id := by
      rw [hF.preorder_eq id]
      exact List.infix_flatMap_of_mem hc fun c => c :: F.preorder c
    rcases List.mem_cons.1 hac with rfl | hac
    · exact hblock
    · have hinner := ih c ((hF.mem_children id c).1 hc) hac
      exact (hinner.trans (List.suffix_cons c _).isInfix).trans hblock

end Forest

end DocumentTree
