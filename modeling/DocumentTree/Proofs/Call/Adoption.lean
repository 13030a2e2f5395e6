import DocumentTree.Proofs.Call.Frame
import DocumentTree.Proofs.Forest.Subtree
import DocumentTree.Proofs.Tree.Check
/-!
# Adoption

What a parser does about `<b>1<p>2</b>3</p>`, where an element is closed
while a later one in it is still open. The open one moves up behind the
closed one, and what it holds so far goes below a copy of the closed one
(`Tree.adopt`). Two things happen to the order. Moving the last child of a
node up behind it changes nothing (`Forest.WellFormed.subtree_lift`), and
putting a fresh node between a node and its children shows as that one node
(`Forest.WellFormed.exists_wrap`). So the nodes that were there are passed in
the order they were passed in before, with the same content
(`Tree.Consistent.adopt_keeps_order`).
-/

namespace DocumentTree

namespace Forest

variable {F : Forest} {a b f k q : NodeId} {front rest : List NodeId}

/-! ## A last child moved up -/

/-- `f` moves from the list of `b` to the end of the list of `a`. -/
def lift (F : Forest) (a b f : NodeId) : Forest := (F.remove b f).insert a f none

theorem children_lift_of_ne (hqa : q ≠ a) (hqb : q ≠ b) :
    (F.lift a b f).children q = F.children q := by
  rw [lift, children_insert_of_ne hqa, children_remove_of_ne hqb]

namespace WellFormed

theorem children_lift_self (hab : a ≠ b) (ha : F.children a = front ++ [b]) :
    (F.lift a b f).children a = front ++ [b, f] := by
  simp [lift, Forest.insert, Forest.remove, hab, ha]

theorem children_lift_from (hF : F.WellFormed) (hab : a ≠ b) (hb : F.children b = rest ++ [f]) :
    (F.lift a b f).children b = rest := by
  have hf : f ∉ rest := by
    have hnd := hF.nodup_children b
    rw [hb] at hnd
    exact fun hf => List.disjoint_of_nodup_append hnd hf List.mem_cons_self
  rw [lift, children_insert_of_ne hab.symm]
  simp [Forest.remove, hb, List.erase_append_right [f] hf]

/-- **A last child moved up behind its parent stays where it is in the
order.** Only the lists of `a` and `b` change, and the subtrees that these
two are made of have neither of them. -/
theorem subtree_lift (hF : F.WellFormed) (hG : (F.lift a b f).WellFormed)
    (ha : F.children a = front ++ [b]) (hb : F.children b = rest ++ [f]) :
    (F.lift a b f).subtree a = F.subtree a := by
  have hba : b ∈ F.children a := by simp [ha]
  have hab : a ≠ b := by
    rintro rfl
    exact hF.not_mem_subtree_of_mem_children hba mem_subtree_self
  have hkeep : ∀ {x}, a ∉ F.subtree x → b ∉ F.subtree x →
      (F.lift a b f).subtree x = F.subtree x := by
    intro x hxa hxb
    refine hF.subtree_congr hG fun y hy => children_lift_of_ne ?_ ?_ <;> rintro rfl
    · exact hxa hy
    · exact hxb hy
  have hinner : ∀ x ∈ F.children b, (F.lift a b f).subtree x = F.subtree x := by
    intro x hx
    have hxb := hF.not_mem_subtree_of_mem_children hx
    exact hkeep (fun hxa => hxb (hF.mem_subtree_trans (hF.mem_subtree_of_mem_children hba) hxa)) hxb
  have hfront : front.flatMap (F.lift a b f).subtree = front.flatMap F.subtree := by
    refine List.flatMap_congr fun x hx => ?_
    have hxa : x ∈ F.children a := by simp [ha, hx]
    refine hkeep (hF.not_mem_subtree_of_mem_children hxa) fun hbx => ?_
    have hnd := hF.nodup_children a
    rw [ha] at hnd
    obtain rfl := hF.eq_of_mem_subtree hxa hba hbx mem_subtree_self
    exact List.disjoint_of_nodup_append hnd hx List.mem_cons_self
  have hrest : rest.flatMap (F.lift a b f).subtree = rest.flatMap F.subtree :=
    List.flatMap_congr fun x hx => hinner x (by simp [hb, hx])
  have hf : (F.lift a b f).subtree f = F.subtree f := hinner f (by simp [hb])
  calc (F.lift a b f).subtree a
      = a :: (front.flatMap F.subtree ++ (b :: rest.flatMap F.subtree ++ F.subtree f)) := by
        rw [hG.subtree_eq, children_lift_self hab ha, List.flatMap_append, List.flatMap_cons,
          List.flatMap_singleton, hG.subtree_eq b, hF.children_lift_from hab hb, hfront, hrest, hf]
    _ = F.subtree a := by
        rw [hF.subtree_eq a, ha, List.flatMap_append, List.flatMap_singleton, hF.subtree_eq b, hb,
          List.flatMap_append, List.flatMap_singleton, List.cons_append]

end WellFormed

/-! ## A fresh node in between -/

/-- `k` goes between `f` and its children. -/
def wrap (F : Forest) (f k : NodeId) : Forest := (F.alloc.moveAll k f).insert f k none

theorem children_wrap_of_ne (hqf : q ≠ f) (hqk : q ≠ k) :
    (F.wrap f k).children q = F.children q := by
  rw [wrap, children_insert_of_ne hqf]
  simp [moveAll, alloc, hqf, hqk]

theorem children_wrap_self : (F.wrap f k).children f = [k] := by
  simp [wrap, insert, moveAll]

theorem children_wrap_new (hkf : k ≠ f) (hk : F.children k = []) :
    (F.wrap f k).children k = F.children f := by
  rw [wrap, children_insert_of_ne hkf]
  simp [moveAll, alloc, hkf, hk]

namespace WellFormed

/-- **A fresh node between a node and its children shows as one entry**,
right behind the node, in every subtree around it. -/
theorem exists_wrap (hF : F.WellFormed) (hG : (F.wrap f k).WellFormed) (hk : F.children k = [])
    (hkq : k ∉ F.subtree q) (hq : f ∈ F.subtree q) :
    ∃ before after, F.subtree q = before ++ f :: after ∧
      (F.wrap f k).subtree q = before ++ f :: k :: after := by
  have hkf : k ≠ f := by
    rintro rfl
    exact hkq hq
  have hinner : ∀ c ∈ F.children f, (F.wrap f k).subtree c = F.subtree c := by
    intro c hc
    have hcq := hF.mem_subtree_trans (hF.mem_subtree_of_mem_children hc) hq
    refine hF.subtree_congr hG fun y hy => children_wrap_of_ne ?_ ?_ <;> rintro rfl
    · exact hF.not_mem_subtree_of_mem_children hc hy
    · exact hkq (hF.mem_subtree_trans hy hcq)
  have hfG : (F.wrap f k).subtree f = f :: k :: F.preorder f := by
    rw [hG.subtree_eq f, children_wrap_self, List.flatMap_singleton, hG.subtree_eq k,
      children_wrap_new hkf hk, List.flatMap_congr hinner, hF.preorder_eq_flatMap]
  obtain ⟨before, after, hqF, hqG⟩ := hF.exists_context hG hq fun x hx hxf => by
    refine children_wrap_of_ne ?_ ?_ <;> rintro rfl
    · exact hxf mem_subtree_self
    · exact hkq hx
  refine ⟨before, F.preorder f ++ after, ?_, ?_⟩
  · rw [hqF, subtree]
    simp
  · rw [hqG, hfG]
    simp

/-- The fresh node has the children that `f` had before it was moved. -/
theorem children_adopt (hF : F.WellFormed) (hL : (F.lift a b f).WellFormed)
    (hb : F.parent b = some a) (hf : F.parent f = some b) (hk : F.size ≤ k.index) :
    ((F.lift a b f).wrap f k).children k = F.children f := by
  have hkf : k ≠ f := by
    rintro rfl
    exact Nat.not_lt.2 hk (hF.parent_lt k b hf).1
  rw [children_wrap_new hkf (hL.children_eq_nil_of_le hk)]
  refine children_lift_of_ne ?_ ?_ <;> rintro rfl
  · exact hF.acyclic f (.head hf (.single hb))
  · exact hF.acyclic f (.single hf)

/-- **Both together insert `k` behind `f`** in the order below `a` and below
every node above it. -/
theorem exists_adopt (hF : F.WellFormed) (hL : (F.lift a b f).WellFormed)
    (hG : ((F.lift a b f).wrap f k).WellFormed) (ha : F.children a = front ++ [b])
    (hb : F.children b = rest ++ [f]) (hk : F.size ≤ k.index) (hq : a ∈ F.subtree q) :
    ∃ before after, F.preorder q = before ++ f :: after ∧
      ((F.lift a b f).wrap f k).preorder q = before ++ f :: k :: after := by
  have hba : b ∈ F.children a := by simp [ha]
  have hfb : f ∈ F.children b := by simp [hb]
  have hbq : b ∈ F.subtree q := hF.mem_subtree_trans (hF.mem_subtree_of_mem_children hba) hq
  have hfq : f ∈ F.subtree q := hF.mem_subtree_trans (hF.mem_subtree_of_mem_children hfb) hbq
  have hsame : (F.lift a b f).subtree q = F.subtree q := by
    obtain ⟨before, after, hqF, hqL⟩ := hF.exists_context hL hq fun x _ hx => by
      refine children_lift_of_ne ?_ ?_ <;> rintro rfl
      · exact hx mem_subtree_self
      · exact hx (hF.mem_subtree_of_mem_children hba)
    rw [hqL, hF.subtree_lift hL ha hb, hqF]
  have hkL : (F.lift a b f).children k = [] := hL.children_eq_nil_of_le hk
  have hkq : k ∉ F.subtree q := by
    intro hkq
    -- then `q` is `k`, which has nothing below it
    obtain rfl := hF.eq_of_mem_subtree_of_root (hF.parent_eq_none_of_le hk) hkq
    have hka : a = k := by simpa [hF.subtree_eq, hF.children_eq_nil_of_le hk] using hq
    simp [hka, hF.children_eq_nil_of_le hk] at ha
  obtain ⟨before, after, hqL, hqG⟩ := hL.exists_wrap hG hkL (hsame ▸ hkq) (hsame ▸ hfq)
  rw [hsame] at hqL
  cases before with
  | nil =>
    -- `q` is above `f`, so it is not `f`
    obtain rfl : q = f := (List.cons.inj hqL).1
    exact absurd hbq (hF.not_mem_subtree_of_mem_children hfb)
  | cons x before =>
    exact ⟨before, after, (List.cons.inj hqL).2, (List.cons.inj hqG).2⟩

end WellFormed

end Forest

namespace Tree

variable {t : Tree} {F : Forest} {a b f : NodeId}

/-- Close `b` in `a` while `f` in it is still open. `f` moves up behind `b`,
and what it holds goes below a copy of `b`, whose id is given. -/
def adopt (t : Tree) (a b f : NodeId) : Except Refusal (NodeId × Tree) := do
  let t ← t.removeChild b f
  let t ← t.appendChild a f
  let (k, t) ← t.cloneNode b
  let (t, _) ← t.reparentChildren k f
  let t ← t.appendChild f k
  pure (k, t)

/-- A grandchild can be moved up. -/
theorem Shows.exists_lift (h : t.Shows F) (hF : F.WellFormed) (hb : F.parent b = some a)
    (hf : F.parent f = some b) :
    ∃ t₁ t₂, t.removeChild b f = .ok t₁ ∧ t₁.appendChild a f = .ok t₂ ∧
      (F.lift a b f).WellFormed ∧ t₂.Shows (F.lift a b f) ∧ t.Relinks t₂ := by
  have hfa : F.Below f a := .head hf (.single hb)
  have hne : a ≠ f := by
    rintro rfl
    exact hF.acyclic a hfa
  have hbelow : ¬ F.Below a f := fun haf => hF.acyclic f (hfa.trans haf)
  exact h.exists_moveTo hF hf (h.mem_of_below hF hfa) (by simp) hne hbelow

/-- A fresh node can be put between a node and its children. -/
theorem Shows.exists_wrap (h : t.Shows F) (hF : F.WellFormed) (n : Node) (hf : f ∈ t) :
    ∃ moved t', (t.alloc n).2.reparentChildren (t.alloc n).1 f = .ok (moved, none) ∧
      moved.appendChild f (t.alloc n).1 = .ok t' ∧ (F.wrap f (t.alloc n).1).WellFormed ∧
      t'.Shows (F.wrap f (t.alloc n).1) ∧ (t.alloc n).2.Relinks t' := by
  have hfresh : F.size ≤ (t.alloc n).1.index := h.size_le_alloc n
  have hne : (t.alloc n).1 ≠ f := (ne_alloc_of_mem hf n).symm
  have hroot : F.parent (t.alloc n).1 = none := hF.parent_eq_none_of_le hfresh
  have hbelow : ¬ F.Below (t.alloc n).1 f := fun hbelow =>
    hne (hF.eq_of_mem_subtree_of_root hroot (hF.mem_subtree_iff_below.2 (.inr hbelow)))
  obtain ⟨moved, hmoved, -, hF₁, h₁, hsame₁⟩ := (h.alloc n).exists_reparentChildren hF.alloc
    (mem_alloc n) (mem_alloc_of_mem hf n) hne hbelow
  -- taking the children of `f` gives the fresh node no parent, so it can go below `f`
  have hroot₁ : (F.alloc.moveAll (t.alloc n).1 f).parent (t.alloc n).1 = none := by
    have hnot : (t.alloc n).1 ∉ F.alloc.children f := hF.not_mem_children_of_root hroot f
    exact (if_neg hnot).trans hroot
  have ha : (F.alloc.moveAll (t.alloc n).1 f).Accepts f (t.alloc n).1 none := {
    parent_lt := (h.alloc n).mem_iff.1 (mem_alloc_of_mem hf n)
    child_lt := (h.alloc n).mem_iff.1 (mem_alloc n)
    root := hroot₁
    reference := by simp
    ne := hne.symm
    not_below := hF.alloc.not_below_moveAll (hF.children_eq_nil_of_le hfresh) }
  obtain ⟨t', ht', hF', h', hsame'⟩ := h₁.exists_insertBefore hF₁ ha
  exact ⟨moved, t', hmoved, ht', hF', h', hsame₁.trans hsame'⟩

/-- **Each step is accepted**, and what was there is left with the content it
had. -/
theorem Shows.exists_adopt (h : t.Shows F) (hF : F.WellFormed) (hb : F.parent b = some a)
    (hf : F.parent f = some b) :
    ∃ k t', t.adopt a b f = .ok (k, t') ∧ k.index = t.size ∧ (F.lift a b f).WellFormed ∧
      ((F.lift a b f).wrap f k).WellFormed ∧ t'.Shows ((F.lift a b f).wrap f k) ∧
      t'.content? k = t.content? b ∧ ∀ id ∈ t, t'.content? id = t.content? id := by
  obtain ⟨t₁, t₂, ht₁, ht₂, hF₂, h₂, hsame₂⟩ := h.exists_lift hF hb hf
  have hb₂ : b ∈ t₂ := hsame₂.mem_iff.2 (h.mem_iff.2 (hF.parent_lt b a hb).1)
  have hf₂ : f ∈ t₂ := hsame₂.mem_iff.2 (h.mem_iff.2 (hF.parent_lt f b hf).1)
  obtain ⟨n, hn, hclone⟩ := exists_cloneNode hb₂
  obtain ⟨moved, t', hmoved, ht', hF', h', hsame'⟩ := h₂.exists_wrap hF₂ n hf₂
  refine ⟨(t₂.alloc n).1, t', ?_, hsame₂.size_eq, hF₂, hF', h', ?_, fun id hid => ?_⟩
  · simp only [adopt, ht₁, ht₂, hclone, hmoved, ht', bind, Except.bind, pure, Except.pure]
  · rw [hsame'.content_eq, content?_alloc, if_pos rfl, ← hsame₂.content_eq, content?, hn]
    rfl
  · rw [hsame'.content_eq, content?_alloc_of_mem (hsame₂.mem_iff.2 hid), hsame₂.content_eq]

/-- **Adoption keeps the order.** Where `b` is the last child of `a` and `f`
the last child of `b`, each step is accepted. `f` then has a fresh copy of
`b` as its only child, and that one has the children of `f`. In the order
below `a` and below every node above it the copy is new, right behind `f`,
and but for it the order is the one there was, with the same content, text
included. -/
theorem Consistent.adopt_keeps_order (h : t.Consistent) (hb : t.lastChild? a = some b)
    (hf : t.lastChild? b = some f) :
    ∃ k t', t.adopt a b f = .ok (k, t') ∧ t'.Consistent ∧
      k ∉ t ∧ t'.content? k = t.content? b ∧
      t'.children f = [k] ∧ t'.children k = t.children f ∧
      (∀ q, q = a ∨ q ∈ t.ancestors a →
        (∃ front back, t.descendants q = front ++ f :: back ∧
          t'.descendants q = front ++ f :: k :: back) ∧
        (t'.descendants q).filter (· ∈ t) = t.descendants q) ∧
      ∀ id ∈ t, t'.content? id = t.content? id := by
  obtain ⟨hF, hshows⟩ := consistent_iff.1 h
  rw [hshows.lastChild?_eq, List.getLast?_eq_some_iff] at hb hf
  obtain ⟨front, ha⟩ := hb
  obtain ⟨rest, hb⟩ := hf
  have hba : t.forest.parent b = some a := (hF.mem_children a b).1 (by simp [ha])
  have hfb : t.forest.parent f = some b := (hF.mem_children b f).1 (by simp [hb])
  obtain ⟨k, t', hadopt, hk, hL, hG, h', hcopy, hcontent⟩ := hshows.exists_adopt hF hba hfb
  have hkt : k ∉ t := by
    rw [mem_iff_lt, hk]
    exact Nat.lt_irrefl _
  have hfresh : t.forest.size ≤ k.index := hk.ge
  refine ⟨k, t', hadopt, h'.consistent hG, hkt, hcopy, ?_, ?_, fun q hq => ?_, hcontent⟩
  · rw [h'.children_eq hG, Forest.children_wrap_self]
  · rw [h'.children_eq hG, hF.children_adopt hL hba hfb hfresh]
    rfl
  · have haq : a ∈ t.forest.subtree q := by
      rwa [hF.mem_subtree_iff_below, ← hshows.mem_ancestors_iff hF]
    obtain ⟨before, after, hold, hnew⟩ := hF.exists_adopt hL hG ha hb hfresh haq
    rw [← hshows.descendants_eq hF] at hold
    rw [← h'.descendants_eq hG] at hnew
    refine ⟨⟨before, after, hold, hnew⟩, ?_⟩
    have hmem : ∀ x ∈ t.descendants q, x ∈ t := fun x hx =>
      (hF.lt_of_below ((hshows.mem_descendants_iff hF).1 hx)).1
    calc (t'.descendants q).filter (· ∈ t)
        = (t.descendants q).filter (· ∈ t) := by simp [hnew, hold, List.filter_cons, hkt]
      _ = t.descendants q := List.filter_eq_self.2 fun x hx => decide_eq_true (hmem x hx)

/-- A document with `<body><b>1<p>2`, where `</b>` comes next. -/
def misnested : Tree where
  nodes := #[
    { Content.document with links := { firstChild := some ⟨1⟩, lastChild := some ⟨1⟩ } },
    { Content.element "body" with
      links := { parent := some ⟨0⟩, firstChild := some ⟨2⟩, lastChild := some ⟨2⟩ } },
    { Content.element "b" with
      links := { parent := some ⟨1⟩, firstChild := some ⟨3⟩, lastChild := some ⟨4⟩ } },
    { Content.text "1" with links := { parent := some ⟨2⟩, nextSibling := some ⟨4⟩ } },
    { Content.element "p" with
      links := { parent := some ⟨2⟩, firstChild := some ⟨5⟩, lastChild := some ⟨5⟩,
                 prevSibling := some ⟨3⟩ } },
    { Content.text "2" with links := { parent := some ⟨4⟩ } }]

/-- The `p` moves up, and its text below a new `b`. -/
theorem Consistent.adopt_keeps_order_misnested :
    misnested.Consistent ∧ misnested.lastChild? ⟨1⟩ = some ⟨2⟩ ∧
      misnested.lastChild? ⟨2⟩ = some ⟨4⟩ ∧
      ∃ k t', misnested.adopt ⟨1⟩ ⟨2⟩ ⟨4⟩ = .ok (k, t') ∧ t'.children ⟨4⟩ = [k] ∧
        t'.children k = [⟨5⟩] ∧
        (t'.descendants .root).filter (· ∈ misnested) = [⟨1⟩, ⟨2⟩, ⟨3⟩, ⟨4⟩, ⟨5⟩] := by
  have hcons : misnested.Consistent := (consistent_of_check (by decide)).1
  obtain ⟨k, t', hadopt, -, -, -, hf, hk, horder, -⟩ :=
    Consistent.adopt_keeps_order (a := ⟨1⟩) (b := ⟨2⟩) (f := ⟨4⟩) hcons rfl rfl
  exact ⟨hcons, rfl, rfl, k, t', hadopt, hf, hk, (horder .root (.inr (by decide))).2⟩

end Tree

end DocumentTree
