import DocumentTree.Proofs.Call.Demands
import DocumentTree.Proofs.Tree.Splice
import DocumentTree.Proofs.Tree.Traversal
/-!
# What each call does to the forest shown

One lemma for each operation: the checks are the demands, though they look
up where the demands look down, and an accepted call leaves an arena that
shows the edited forest. Everything else about calls and runs is read off
`Shows.edit_decidedBy` and `Shows.call_decidedBy`.
-/

namespace DocumentTree

namespace Tree

variable {t t' : Tree} {F : Forest} {p c d s id : NodeId} {r : Option NodeId}

/-! ## The checks are the demands -/

/-- A detached node is one without a parent: it has no siblings either. -/
theorem Shows.isDetached_iff (h : t.Shows F) (hc : c ∈ t) :
    t.isDetached c = true ↔ F.parent c = none := by
  obtain ⟨n, hn⟩ := mem_iff_get?.1 hc
  have hl : t.links? c = some n.links := by simp [links?, hn]
  have hprev : t.prevSibling? c = F.prev (.entry c) := congrFun h.prev_eq (.entry c)
  have hnext : t.nextSibling? c = F.next (.entry c) := congrFun h.next_eq (.entry c)
  have hiff : t.isDetached c = true ↔
      t.parent? c = none ∧ t.prevSibling? c = none ∧ t.nextSibling? c = none := by
    simp [isDetached, hn, Node.isDetached, Links.isDetached, parent?_of_links? hl,
      prevSibling?_of_links? hl, nextSibling?_of_links? hl, and_assoc]
  rw [hiff, h.parent_eq, hprev, hnext]
  exact ⟨fun hd => hd.1, fun hd => ⟨hd, Forest.neighbour_entry_of_orphan hd,
    Forest.neighbour_entry_of_orphan hd⟩⟩

/-- A node the forest knows is one of the arena. -/
theorem Shows.met_known_iff (h : t.Shows F) : (F.known id).met = true ↔ id ∈ t := by
  rw [Forest.known, met_demand, h.mem_iff]

/-- Where the arena is asked for nothing but a node, it decides by that. -/
theorem Shows.decidedBy_known {α : Type} {y : Except Refusal α} {g : α → Outcome}
    {Q : Outcome → Prop} (h : t.Shows F)
    (hunknown : id ∉ t → y = .error { tree := t, error := .unknownNode id })
    (hknown : id ∈ t → ∃ a, y = .ok a ∧ Q (g a)) : DecidedBy (y.map g) [F.known id] Q := by
  have hcheck : requireAll [F.known id] = require (id ∈ t) (.unknownNode id) := by
    rw [Forest.known, requireAll_singleton, ← h.size_eq]
    rfl
  refine .of_requireAll (t := t) (z := y) ?_ fun hmet => ?_
  · rw [hcheck]
    by_cases hid : id ∈ t
    · rw [require, if_pos hid]
      rfl
    · rw [require, if_neg hid, hunknown hid]
      rfl
  · exact hknown (h.met_known_iff.1 (hmet (F.known id) (by simp)))

theorem Shows.parent?_eq_iff (h : t.Shows F) (hF : F.WellFormed) :
    t.parent? c = some p ↔ c ∈ F.children p := by
  rw [h.parent_eq, hF.mem_children]

theorem Shows.not_isDescendantOf_iff (h : t.Shows F) (hF : F.WellFormed) :
    ¬ t.isDescendantOf id d = true ↔ id ∉ F.preorder d := by
  rw [h.isDescendantOf_iff hF, hF.mem_preorder_iff]

theorem Shows.checkInsert_eq (h : t.Shows F) (hF : F.WellFormed) :
    t.checkInsert p c r = requireAll (F.insertDemands F.preorder p c r) := by
  have hcycle : c ≠ p ∧ ¬ t.isDescendantOf p c = true ↔ p ≠ c ∧ p ∉ F.preorder c := by
    rw [h.not_isDescendantOf_iff hF, ne_comm]
  cases r with
  | none =>
    simp only [checkInsert, Forest.insertDemands, Forest.known, List.cons_append, List.nil_append,
      requireAll_cons]
    refine require_bind_congr h.mem_iff fun _ => ?_
    refine require_bind_congr h.mem_iff fun hc => ?_
    refine require_bind_congr (h.isDetached_iff hc) fun _ => ?_
    exact require_eq_bind hcycle
  | some x =>
    simp only [checkInsert, Forest.insertDemands, Forest.known, Forest.listed, List.cons_append,
      List.nil_append, requireAll_cons]
    refine require_bind_congr h.mem_iff fun _ => ?_
    refine require_bind_congr h.mem_iff fun hc => ?_
    refine require_bind_congr (h.isDetached_iff hc) fun _ => ?_
    refine require_bind_congr h.mem_iff fun _ => ?_
    refine require_bind_congr (h.parent?_eq_iff hF) fun _ => ?_
    exact require_eq_bind hcycle

theorem Shows.checkRemove_eq (h : t.Shows F) (hF : F.WellFormed) :
    t.checkRemove p c = requireAll [F.known p, F.known c, F.listed p c] := by
  simp only [checkRemove, Forest.known, Forest.listed, requireAll_cons]
  refine require_bind_congr h.mem_iff fun _ => ?_
  refine require_bind_congr h.mem_iff fun _ => ?_
  exact require_eq_bind (h.parent?_eq_iff hF)

theorem Shows.checkReparent_eq (h : t.Shows F) (hF : F.WellFormed) :
    t.checkReparent d s = requireAll
      [F.known d, F.known s, demand (d = s ∨ d ∉ F.preorder s) (.hierarchyCycle d s)] := by
  simp only [checkReparent, Forest.known, requireAll_cons]
  refine require_bind_congr h.mem_iff fun _ => ?_
  refine require_bind_congr h.mem_iff fun _ => ?_
  exact require_eq_bind (or_congr_right (h.not_isDescendantOf_iff hF))

/-! ## Fresh nodes and content -/

/-- A fresh node has no links, and neither has an id outside the arena, so
an allocation changes no link. -/
theorem bind_links?_alloc (n : Node) {g : Links → Option NodeId} (hg : g {} = none) (id : NodeId) :
    ((t.alloc n).2.links? id).bind g = (t.links? id).bind g := by
  rw [links?, get?_alloc]
  split
  · next hid =>
    have hget : t.get? id = none := by simp [hid, alloc, get?, size]
    simp [links?, hget, Node.detached, hg]
  · rfl

theorem Shows.alloc (h : t.Shows F) (n : Node) : (t.alloc n).2.Shows F.alloc where
  size_eq := by
    rw [size_alloc, h.size_eq]
    rfl
  parent_eq := (funext fun id => bind_links?_alloc n rfl id).trans h.parent_eq
  next_eq := by
    refine Eq.trans (funext fun place => ?_) h.next_eq
    cases place <;> exact bind_links?_alloc n rfl _
  prev_eq := by
    refine Eq.trans (funext fun place => ?_) h.prev_eq
    cases place <;> exact bind_links?_alloc n rfl _

theorem mem_alloc (n : Node) : (t.alloc n).1 ∈ (t.alloc n).2 := by
  rw [mem_iff_lt, size_alloc]
  exact Nat.lt_succ_self _

theorem mem_alloc_of_mem (h : id ∈ t) (n : Node) : id ∈ (t.alloc n).2 := by
  rw [mem_iff_lt, size_alloc]
  exact Nat.lt_succ_of_lt h

theorem ne_alloc_of_mem (h : id ∈ t) (n : Node) : id ≠ (t.alloc n).1 := by
  rintro rfl
  exact Nat.lt_irrefl _ (mem_iff_lt.1 h)

/-- What a tree shows is in the links of its slots. -/
theorem Shows.of_links? (h : t.Shows F) (hsize : t'.size = t.size) (hlinks : t'.links? = t.links?) :
    t'.Shows F where
  size_eq := hsize.trans h.size_eq
  parent_eq := by
    rw [← h.parent_eq]
    funext id
    rw [parent?, hlinks, parent?]
  next_eq := by
    rw [← h.next_eq]
    funext place
    cases place <;> simp only [next?, firstChild?, nextSibling?, hlinks]
  prev_eq := by
    rw [← h.prev_eq]
    funext place
    cases place <;> simp only [prev?, lastChild?, prevSibling?, hlinks]

/-- An edit of content reaches no link. -/
theorem links?_modify_content (f : Content → Content) :
    (t.modify id fun n => { n with toContent := f n.toContent }).links? = t.links? := by
  funext other
  rw [links?, get?_modify]
  split
  · simp [links?, Function.comp_def]
  · rfl

theorem Shows.editContent? (h : t.Shows F) {f : Content → Content}
    (ht : t.editContent? id f = some t') : t'.Shows F := by
  obtain ⟨-, rfl⟩ := modify?_eq_some_iff.1 ht
  exact h.of_links? size_modify (links?_modify_content f)

/-- Nothing is below a node that is not there yet. -/
theorem Shows.not_below_alloc (h : t.Shows F) (hF : F.WellFormed) (n : Node) (a : NodeId) :
    ¬ F.Below a (t.alloc n).1 := fun hbelow =>
  absurd (h.mem_of_below hF hbelow) (Nat.lt_irrefl t.size)

/-- The forest has no place for it either. -/
theorem Shows.size_le_alloc (h : t.Shows F) (n : Node) : F.size ≤ (t.alloc n).1.index :=
  h.size_eq.ge

/-! ## Edits -/

/-- What an accepted edit makes of an arena that shows `F`. Only an
allocation touches content, and it touches no content there is. -/
structure Edits (t : Tree) (e : Edit) (F : Forest) (t' : Tree) : Prop where
  wellFormed : (F.edit e).WellFormed
  shows : t'.Shows (F.edit e)
  relinks : (∀ n, e ≠ .alloc n) → t.Relinks t'

theorem Shows.insertBefore_decidedBy (h : t.Shows F) (hF : F.WellFormed) (p c : NodeId)
    (r : Option NodeId) :
    DecidedBy ((t.insertBefore p c r).map ({ tree := · })) (F.insertDemands F.preorder p c r)
      fun o => (F.insert p c r).WellFormed ∧ o.tree.Shows (F.insert p c r) ∧ t.Relinks o.tree := by
  have hx : t.insertBefore p c r = (do
      t.refusing (requireAll (F.insertDemands F.preorder p c r))
      t.refusing (orCorrupt (t.link? p c r))) := by
    rw [insertBefore_eq, h.checkInsert_eq hF, refusing_bind]
  refine .of_requireAll hx fun hmet => ?_
  have ha := hF.met_insertDemands_iff_accepts.1 hmet
  obtain ⟨t', ht', hsame, hshows⟩ := h.exists_link? hF (h.mem_iff.2 ha.parent_lt)
    (h.mem_iff.2 ha.child_lt) ha.root ha.reference
  exact ⟨t', refusing_orCorrupt_eq_ok_iff.2 ht', hF.insert ha, hshows, hsame⟩

/-- An insertion that the forest accepts is accepted. -/
theorem Shows.exists_insertBefore (h : t.Shows F) (hF : F.WellFormed) (ha : F.Accepts p c r) :
    ∃ t', t.insertBefore p c r = .ok t' ∧ (F.insert p c r).WellFormed ∧
      t'.Shows (F.insert p c r) ∧ t.Relinks t' :=
  (h.insertBefore_decidedBy hF p c r).exists_ok (hF.met_insertDemands_iff_accepts.2 ha)

/-- An accepted insertion is one that the forest accepts. -/
theorem Shows.of_insertBefore (h : t.Shows F) (hF : F.WellFormed)
    (ht : t.insertBefore p c r = .ok t') :
    F.Accepts p c r ∧ (F.insert p c r).WellFormed ∧ t'.Shows (F.insert p c r) ∧ t.Relinks t' := by
  obtain ⟨hmet, hedit⟩ := (h.insertBefore_decidedBy hF p c r).of_eq_ok ht
  exact ⟨hF.met_insertDemands_iff_accepts.1 hmet, hedit⟩

/-- **A fresh node can go last below any node**: it has no parent, and
nothing is below it. -/
theorem Shows.exists_appendChild_alloc (h : t.Shows F) (hF : F.WellFormed) (hp : p ∈ t) (n : Node) :
    ∃ t', (t.alloc n).2.appendChild p (t.alloc n).1 = .ok t' ∧
      (F.alloc.insert p (t.alloc n).1 none).WellFormed ∧
      t'.Shows (F.alloc.insert p (t.alloc n).1 none) ∧ (t.alloc n).2.Relinks t' := by
  refine (h.alloc n).exists_insertBefore hF.alloc ?_
  exact {
    parent_lt := (h.alloc n).mem_iff.1 (mem_alloc_of_mem hp n)
    child_lt := (h.alloc n).mem_iff.1 (mem_alloc n)
    root := hF.parent_eq_none_of_le (h.size_le_alloc n)
    reference := by simp
    ne := ne_alloc_of_mem hp n
    not_below := h.not_below_alloc hF n p }

/-- What was accepted was spliced. -/
theorem eq_some_of_tested {α : Type} {x : Except Refusal α} {test : Except EditError Unit}
    {o : Option α} {a : α} (hx : x = t.refusing (do test; orCorrupt o)) (ha : x = .ok a) :
    o = some a := by
  rw [hx, refusing_eq_ok_iff] at ha
  cases test with
  | error e => cases ha
  | ok => exact orCorrupt_eq_ok_iff.1 ha

theorem link?_of_insertBefore (ht : t.insertBefore p c r = .ok t') : t.link? p c r = some t' :=
  eq_some_of_tested insertBefore_eq ht

theorem unlink?_of_removeChild (ht : t.removeChild p c = .ok t') : t.unlink? p c = some t' :=
  eq_some_of_tested removeChild_eq ht

theorem Shows.removeChild_decidedBy (h : t.Shows F) (hF : F.WellFormed) (p c : NodeId) :
    DecidedBy ((t.removeChild p c).map ({ tree := · })) [F.known p, F.known c, F.listed p c]
      fun o => (F.remove p c).WellFormed ∧ o.tree.Shows (F.remove p c) ∧ t.Relinks o.tree := by
  have hx : t.removeChild p c = (do
      t.refusing (requireAll [F.known p, F.known c, F.listed p c])
      t.refusing (orCorrupt (t.unlink? p c))) := by
    rw [removeChild_eq, h.checkRemove_eq hF, refusing_bind]
  refine .of_requireAll hx fun hmet => ?_
  have hc : F.parent c = some p := by
    rw [← hF.mem_children]
    simpa [Forest.listed] using hmet (F.listed p c) (by simp)
  obtain ⟨t', ht', hsame, hshows⟩ := h.exists_unlink? hF hc
  exact ⟨t', refusing_orCorrupt_eq_ok_iff.2 ht', hF.remove hc, hshows, hsame⟩

/-- A child can be taken out. -/
theorem Shows.exists_removeChild (h : t.Shows F) (hF : F.WellFormed) (hc : F.parent c = some p) :
    ∃ t', t.removeChild p c = .ok t' ∧ (F.remove p c).WellFormed ∧ t'.Shows (F.remove p c) ∧
      t.Relinks t' := by
  refine (h.removeChild_decidedBy hF p c).exists_ok ?_
  obtain ⟨hc', hp'⟩ := hF.parent_lt c p hc
  simpa [Forest.known, Forest.listed] using ⟨hp', hc', (hF.mem_children p c).2 hc⟩

/-- **A child that is taken out can be put in anywhere that is not below
it.** -/
theorem Shows.exists_moveTo (h : t.Shows F) (hF : F.WellFormed) (hc : F.parent c = some s)
    (hp : p ∈ t) (hr : ∀ x ∈ r, (F.remove s c).parent x = some p) (hpc : p ≠ c)
    (hbelow : ¬ F.Below p c) :
    ∃ t₁ t₂, t.removeChild s c = .ok t₁ ∧ t₁.insertBefore p c r = .ok t₂ ∧
      ((F.remove s c).insert p c r).WellFormed ∧ t₂.Shows ((F.remove s c).insert p c r) ∧
      t.Relinks t₂ := by
  obtain ⟨t₁, ht₁, hF₁, h₁, hsame₁⟩ := h.exists_removeChild hF hc
  obtain ⟨t₂, ht₂, hF₂, h₂, hsame₂⟩ :=
    h₁.exists_insertBefore hF₁ (hF.accepts_remove hc (h.mem_iff.1 hp) hr hpc hbelow)
  exact ⟨t₁, t₂, ht₁, ht₂, hF₂, h₂, hsame₁.trans hsame₂⟩

theorem Shows.detach_decidedBy (h : t.Shows F) (hF : F.WellFormed) (id : NodeId) :
    DecidedBy ((t.detach id).map ({ tree := · })) [F.known id] fun o =>
      (F.edit (.detach id)).WellFormed ∧ o.tree.Shows (F.edit (.detach id)) ∧
        t.Relinks o.tree := by
  refine h.decidedBy_known (fun hid => ?_) fun hid => ?_
  · rw [detach_eq, require, if_neg hid]
    rfl
  · rw [Forest.edit, detach_eq, require, if_pos hid, h.parent_eq]
    cases hp : F.parent id with
    | none => exact ⟨t, rfl, hF, h, .refl t⟩
    | some p =>
      obtain ⟨t', ht', hsame, hshows⟩ := h.exists_unlink? hF hp
      exact ⟨t', refusing_orCorrupt_eq_ok_iff.2 ht', hF.remove hp, hshows, hsame⟩

/-- What the demands of moving all children come to, the idle move apart. -/
theorem Shows.of_met_reparent (h : t.Shows F) (hF : F.WellFormed)
    (hmet : ∀ m ∈ (Edit.reparentChildren d s).demands F F.preorder, m.met = true) (hds : d ≠ s) :
    d ∈ t ∧ s ∈ t ∧ ¬ F.Below d s := by
  refine ⟨h.met_known_iff.1 (hmet (F.known d) (by simp [Edit.demands])),
    h.met_known_iff.1 (hmet (F.known s) (by simp [Edit.demands])), ?_⟩
  have hlast := hmet (demand (d = s ∨ d ∉ F.preorder s) (.hierarchyCycle d s))
    (by simp [Edit.demands])
  rw [met_demand, hF.mem_preorder_iff] at hlast
  exact hlast.resolve_left hds

theorem Shows.reparentChildren_decidedBy (h : t.Shows F) (hF : F.WellFormed) (d s : NodeId) :
    DecidedBy ((t.reparentChildren d s).map fun a => { tree := a.1, warning? := a.2 })
      ((Edit.reparentChildren d s).demands F F.preorder) fun o =>
        (F.edit (.reparentChildren d s)).WellFormed ∧
          o.tree.Shows (F.edit (.reparentChildren d s)) ∧ t.Relinks o.tree := by
  rw [reparentChildren_eq, h.checkReparent_eq hF, refusing_bind]
  refine .of_requireAll rfl fun hmet => ?_
  rw [Forest.edit]
  by_cases hds : d = s
  · rw [if_pos hds, if_pos hds]
    exact ⟨_, rfl, hF, h, .refl t⟩
  · obtain ⟨hd, hs, hbelow⟩ := h.of_met_reparent hF hmet hds
    obtain ⟨t', ht', hsame, hF', hshows⟩ :=
      h.exists_moveChildren? hF hd hs hds hbelow (h.length_children_le hF s)
    rw [if_neg hds, if_neg hds, ht']
    exact ⟨_, rfl, hF', hshows, hsame⟩

/-- **All children can be moved to a node that is not below theirs**, in as
many rounds as there are children, and without a warning. -/
theorem Shows.exists_reparentChildren (h : t.Shows F) (hF : F.WellFormed) (hd : d ∈ t) (hs : s ∈ t)
    (hds : d ≠ s) (hbelow : ¬ F.Below d s) :
    ∃ t', t.reparentChildren d s = .ok (t', none) ∧ t.Moves d s (F.children s).length t' ∧
      (F.moveAll d s).WellFormed ∧ t'.Shows (F.moveAll d s) ∧ t.Relinks t' := by
  obtain ⟨t', hmoves, hsame, hwf, hshows⟩ := h.exists_moves hF hd hs hds hbelow
  have hmove : t.moveChildren? d s t.walkBound = some t' :=
    moveChildren?_eq_some_iff.2 ⟨_, h.length_children_le hF s, hmoves⟩
  have hcheck : t.checkReparent d s = .ok () := by
    rw [h.checkReparent_eq hF, requireAll_eq_ok_iff]
    rw [← hF.mem_preorder_iff] at hbelow
    simpa [Forest.known, hbelow] using ⟨h.mem_iff.1 hd, h.mem_iff.1 hs⟩
  refine ⟨t', ?_, hmoves, hwf, hshows, hsame⟩
  rw [reparentChildren_eq, hcheck, if_neg hds, hmove]
  rfl

/-- **An edit is decided by its demands, and makes of the arena what it
makes of the forest.** -/
theorem Shows.edit_decidedBy (h : t.Shows F) (hF : F.WellFormed) (e : Edit) :
    DecidedBy (e.attempt t) (e.demands F F.preorder) fun o => t.Edits e F o.tree := by
  have hother : ∀ {t'}, (F.edit e).WellFormed ∧ t'.Shows (F.edit e) ∧ t.Relinks t' →
      t.Edits e F t' := fun ⟨hwf, hshows, hsame⟩ => ⟨hwf, hshows, fun _ => hsame⟩
  cases e with
  | alloc n => exact .of_ok ⟨hF.alloc, h.alloc n, fun hn => absurd rfl (hn n)⟩
  | insertBefore p c r => exact (h.insertBefore_decidedBy hF p c r).mono fun _ => hother
  | appendChild p c => exact (h.insertBefore_decidedBy hF p c none).mono fun _ => hother
  | removeChild p c => exact (h.removeChild_decidedBy hF p c).mono fun _ => hother
  | detach id => exact (h.detach_decidedBy hF id).mono fun _ => hother
  | reparentChildren d s => exact (h.reparentChildren_decidedBy hF d s).mono fun _ => hother

/-! ## The other calls -/

theorem Shows.consistent_scopeMarker (h : t.Shows F) (hF : F.WellFormed) :
    t.scopeMarker.2.Consistent := by
  unfold scopeMarker
  split
  · exact h.consistent hF
  · refine Shows.consistent ?_ hF.alloc
    exact (h.alloc (.detached .scopeMarker)).of_links? rfl rfl

theorem exists_cloneNode (hid : id ∈ t) :
    ∃ n, t.get? id = some n ∧ t.cloneNode id = .ok (t.alloc n) := by
  obtain ⟨n, hn⟩ := mem_iff_get?.1 hid
  refine ⟨n, hn, ?_⟩
  rw [cloneNode_eq, hn]
  rfl

theorem Shows.cloneNode_decidedBy (h : t.Shows F) (hF : F.WellFormed) (id : NodeId) :
    DecidedBy ((t.cloneNode id).map .ofPair) [F.known id] fun o => o.tree.Consistent := by
  refine h.decidedBy_known (fun hid => ?_) fun hid => ?_
  · rw [cloneNode_eq, get?_eq_none_of_not_mem hid]
    rfl
  · obtain ⟨n, -, hclone⟩ := exists_cloneNode hid
    exact ⟨t.alloc n, hclone, (h.alloc n).consistent hF.alloc⟩

/-- **Text finds a place**: in the last child, which is in the arena, or in
a fresh node that goes last. -/
theorem Shows.appendText_cases (h : t.Shows F) (hF : F.WellFormed) (hp : p ∈ t) (text : String) :
    (∃ last t', t.lastText? p = some last ∧ t.editContent? last (·.appendData text) = some t' ∧
        t.appendText p text = .ok (last, t')) ∨
      ∃ t', t.lastText? p = none ∧
        (t.alloc (.detached (.text text))).2.appendChild p (t.alloc (.detached (.text text))).1 =
          .ok t' ∧
        t.appendText p text = .ok ((t.alloc (.detached (.text text))).1, t') := by
  have hlast : ∀ last ∈ t.lastChild? p, last ∈ t := by
    intro last hlast
    have hprev : F.prev (.edge p) = some last := (congrFun h.prev_eq (.edge p)).symm.trans hlast
    exact h.mem_iff.2 (hF.lt_of_prev hprev)
  rw [appendText_of_mem hp hlast]
  cases htext : t.lastText? p with
  | some last =>
    have hmem : last ∈ t := hlast last (Option.filter_eq_some_iff.1 htext).1
    obtain ⟨t', ht'⟩ : ∃ t', t.editContent? last (·.appendData text) = some t' :=
      ⟨_, modify?_eq_some_iff.2 ⟨hmem, rfl⟩⟩
    refine .inl ⟨last, t', rfl, ht', ?_⟩
    simp only [ht']
    rfl
  | none =>
    obtain ⟨t', ht', -⟩ := h.exists_appendChild_alloc hF hp (.detached (.text text))
    refine .inr ⟨t', rfl, ht', ?_⟩
    simp only [link?_of_insertBefore ht']
    rfl

theorem Shows.appendText_decidedBy (h : t.Shows F) (hF : F.WellFormed) (p : NodeId) (text : String) :
    DecidedBy ((t.appendText p text).map .ofPair) [F.known p] fun o => o.tree.Consistent := by
  refine h.decidedBy_known (appendText_of_not_mem · text) fun hp => ?_
  rcases h.appendText_cases hF hp text with ⟨last, t', -, ht', heq⟩ | ⟨t', -, ht', heq⟩
  · exact ⟨_, heq, (h.editContent? ht').consistent hF⟩
  · obtain ⟨-, hwf, hshows, -⟩ := (h.alloc _).of_insertBefore hF.alloc ht'
    exact ⟨_, heq, hshows.consistent hwf⟩

/-- **A call is decided by its demands, and leaves links that agree.** -/
theorem Shows.call_decidedBy (h : t.Shows F) (hF : F.WellFormed) (call : Call) :
    DecidedBy (call.attempt t) (call.demands F F.preorder) fun o => o.tree.Consistent := by
  cases call with
  | edit e => exact (h.edit_decidedBy hF e).mono fun o ho => ho.shows.consistent ho.wellFormed
  | scopeMarker => exact .of_ok (h.consistent_scopeMarker hF)
  | cloneNode id => exact h.cloneNode_decidedBy hF id
  | appendText p text => exact h.appendText_decidedBy hF p text
  | editContent id f =>
    refine .of_ok ?_
    cases ht : t.editContent? id f with
    | none => exact h.consistent hF
    | some t' => exact (h.editContent? ht).consistent hF

/-! ## Refusals -/

/-- **No call meets a link that leads out of the arena**, and none is left
with children to move. -/
theorem Consistent.error_ne_corruptLinks {call : Call} {refusal : Refusal} (h : t.Consistent)
    (hcall : call.attempt t = .error refusal) : refusal.error ≠ .corruptLinks := by
  obtain ⟨F, hF, hshows⟩ := h.exists_shows
  obtain ⟨m, hm, hrefusal⟩ :=
    exists_of_firstRefusal ((hshows.call_decidedBy hF call).firstRefusal_eq hcall)
  rw [← hrefusal]
  exact call.refusal_ne_corruptLinks _ _ m hm

end Tree

/-- **A refused call leaves all as it was**: it has failed a test, and before
its tests are done it has written nothing. -/
theorem Session.after_of_refused {s : Session} {call : Call} {refusal : Refusal}
    (h : s.tree.Consistent) (hcall : call.attempt s.tree = .error refusal) : s.after call = s :=
  after_eq_self hcall (h.error_ne_corruptLinks hcall)

end DocumentTree
