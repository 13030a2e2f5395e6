import DocumentTree.Proofs.Forest.Basic
import Mathlib.Logic.Function.Basic
/-!
# Edits of a forest

Each edit as a list operation, and what it does to the neighbours of a
place. An insertion or a removal changes what follows two places and what
precedes two, which are the links a splice has to write. It keeps a forest
well formed, and so does moving a whole child list, since that is moving one
child after the other (`Forest.moveAll_cons`).
-/

namespace DocumentTree

namespace Forest

variable {F : Forest} {p q c d s id a b : NodeId} {r : Option NodeId}

/-- One node more, apart from all others. -/
def alloc (F : Forest) : Forest := { F with size := F.size + 1 }

/-- `c` becomes a child of `p`, right before `r` or last. -/
def insert (F : Forest) (p c : NodeId) (r : Option NodeId) : Forest :=
  { F with
    children := Function.update F.children p (insertBefore c r (F.children p))
    parent := Function.update F.parent c (some p) }

/-- `c` leaves the list of `p`. -/
def remove (F : Forest) (p c : NodeId) : Forest :=
  { F with
    children := Function.update F.children p ((F.children p).erase c)
    parent := Function.update F.parent c none }

/-- All children of `s` go to the end of the list of `d`. -/
def moveAll (F : Forest) (d s : NodeId) : Forest :=
  { F with
    children :=
      Function.update (Function.update F.children d (F.children d ++ F.children s)) s []
    parent := fun id => if id ∈ F.children s then some d else F.parent id }

/-! An insertion or a removal changes one child list, and the parent of one
node. -/

theorem children_insert :
    (F.insert p c r).children = Function.update F.children p (insertBefore c r (F.children p)) :=
  rfl

theorem children_remove :
    (F.remove p c).children = Function.update F.children p ((F.children p).erase c) := rfl

theorem parent_insert : (F.insert p c r).parent = Function.update F.parent c (some p) := rfl

theorem parent_remove : (F.remove p c).parent = Function.update F.parent c none := rfl

@[simp] theorem parent_insert_self : (F.insert p c r).parent c = some p := Function.update_self ..

@[simp] theorem parent_remove_self : (F.remove p c).parent c = none := Function.update_self ..

theorem children_insert_of_ne (hq : q ≠ p) : (F.insert p c r).children q = F.children q :=
  Function.update_of_ne hq ..

theorem children_remove_of_ne (hq : q ≠ p) : (F.remove p c).children q = F.children q :=
  Function.update_of_ne hq ..

/-! ## What an edit does to neighbours -/

section Neighbour

variable {lists : NodeId → List NodeId} {parent : NodeId → Option NodeId}
variable {front back : List NodeId}

/-- Lists and parents still say the same after a splice. -/
theorem mem_insert_iff (hmem : ∀ p c, c ∈ lists p ↔ parent c = some p) (hc : parent c = none)
    (hp : lists p = front ++ back) (q x : NodeId) :
    x ∈ Function.update lists p (front ++ c :: back) q ↔
      Function.update parent c (some p) x = some q := by
  have hcl : c ∉ lists q := fun h => by simp [(hmem q c).1 h] at hc
  have hx := hmem q x
  rcases eq_or_ne q p with rfl | hq <;> rcases eq_or_ne x c with rfl | hxc
  · simp
  · rw [hp] at hx
    simpa [hxc] using hx
  · simpa [hq, hq.symm] using hcl
  · simpa [hq, hxc] using hx

/-- Lists and parents agree after a child has been taken out. -/
theorem mem_remove_iff (hmem : ∀ p c, c ∈ lists p ↔ parent c = some p)
    (hp : lists p = front ++ c :: back) (hnd : (lists p).Nodup) (q x : NodeId) :
    x ∈ Function.update lists p (front ++ back) q ↔
      Function.update parent c none x = some q := by
  have hcp : parent c = some p := (hmem p c).1 (by simp [hp])
  have hc : c ∉ front ++ back := (List.nodup_cons.1 (List.nodup_middle.1 (hp ▸ hnd))).1
  have hx := hmem q x
  rcases eq_or_ne q p with rfl | hq <;> rcases eq_or_ne x c with rfl | hxc
  · simpa using hc
  · rw [hp] at hx
    simpa [hxc] using hx
  · simpa [hq, hcp, hq.symm] using hx
  · simpa [hq, hxc] using hx

/-- **A splice rewrites two places**, the one before the cut and the one of
the new child. All other lists are as they were. -/
theorem neighbour_insert (hmem : ∀ p c, c ∈ lists p ↔ parent c = some p) (hc : parent c = none)
    (hp : lists p = front ++ back) (hnd : (lists p).Nodup) :
    neighbour (Function.update lists p (front ++ c :: back)) (Function.update parent c (some p)) =
      Function.update (Function.update (neighbour lists parent) (.entry c) back.head?)
        (.of p front.getLast?) (some c) := by
  have hcl : c ∉ front ++ back := fun h => by simp [(hmem p c).1 (hp ▸ h)] at hc
  have hnd' : (front ++ c :: back).Nodup :=
    List.nodup_middle.2 (List.nodup_cons.2 ⟨hcl, hp ▸ hnd⟩)
  have hfront : ∀ x ∈ front.getLast?, parent x = some p := fun x hx =>
    (hmem p x).1 (hp ▸ List.mem_append_left _ (List.mem_of_getLast? hx))
  have hlast : front.getLast? ≠ some c := fun h => by simp [hfront c h] at hc
  funext place
  rcases exists_eq_of_or_orphan (Function.update parent c (some p)) place with
    ⟨q, b, rfl, hb⟩ | ⟨id, rfl, hid⟩
  · rw [neighbour_of hb]
    have hb' : b ≠ some c → ∀ x ∈ b, parent x = some q := by
      intro hbc x hx
      have hxc : x ≠ c := by
        rintro rfl
        exact hbc hx
      rw [← hb x hx, Function.update_of_ne hxc]
    rcases eq_or_ne q p with rfl | hq
    · -- the spliced list
      rw [Function.update_self, nextIn_insert hnd']
      by_cases hbc : b = some c
      · simp [Function.update_apply, hbc, hlast.symm]
      · simp [Function.update_apply, hbc, neighbour_of (hb' hbc), hp]
    · -- another list, which neither place belongs to
      have hbc : b ≠ some c := by
        rintro rfl
        simp [hq.symm] at hb
      simp [hq, of_ne_of (hb' hbc) hfront hq, hbc, neighbour_of (hb' hbc)]
  · have hidc : id ≠ c := by
      rintro rfl
      simp at hid
    rw [Function.update_of_ne hidc] at hid
    have hne : Place.entry id ≠ .of p front.getLast? := by
      intro he
      have := hfront id (Place.of_eq_entry_iff.1 he.symm)
      simp [hid] at this
    rw [Function.update_of_ne hne, Function.update_of_ne (by simpa using hidc),
      neighbour_entry_of_orphan hid]
    exact neighbour_entry_of_orphan (by rw [Function.update_of_ne hidc, hid])

/-- **Taking a child out rewrites the two places that inserting it does.**
Putting it back is the splice of `neighbour_insert`. -/
theorem neighbour_remove (hmem : ∀ p c, c ∈ lists p ↔ parent c = some p)
    (hp : lists p = front ++ c :: back) (hnd : (lists p).Nodup) :
    neighbour (Function.update lists p (front ++ back)) (Function.update parent c none) =
      Function.update (Function.update (neighbour lists parent) (.of p front.getLast?) back.head?)
        (.entry c) none := by
  have hcp : parent c = some p := (hmem p c).1 (by simp [hp])
  have hnd' : (c :: (front ++ back)).Nodup := List.nodup_middle.1 (hp ▸ hnd)
  -- the forest with `c` put back is the one there was
  have hback := neighbour_insert (c := c) (p := p)
    (mem_remove_iff hmem hp hnd) (Function.update_self ..) (Function.update_self ..)
    (by rw [Function.update_self]; exact (List.nodup_cons.1 hnd').2)
  simp only [Function.update_idem] at hback
  rw [← hp, Function.update_eq_self, ← hcp, Function.update_eq_self] at hback
  have hlast : ∀ x ∈ front.getLast?, Function.update parent c none x = some p := by
    intro x hx
    refine (mem_remove_iff hmem hp hnd p x).1 ?_
    rw [Function.update_self]
    exact List.mem_append_left _ (List.mem_of_getLast? hx)
  have hcut : neighbour (Function.update lists p (front ++ back)) (Function.update parent c none)
      (.of p front.getLast?) = _ := neighbour_of hlast
  rw [Function.update_self, nextIn_getLast? (List.nodup_cons.1 hnd').2] at hcut
  rw [hback]
  funext place
  rcases eq_or_ne place (.entry c) with rfl | hplace
  · rw [Function.update_self]
    exact neighbour_entry_of_orphan (Function.update_self ..)
  · rw [Function.update_of_ne hplace, Function.update_idem]
    rcases eq_or_ne place (.of p front.getLast?) with rfl | hlastp
    · rw [Function.update_self, hcut]
    · rw [Function.update_of_ne hlastp, Function.update_of_ne hplace]

end Neighbour

theorem reverse_update {lists : NodeId → List NodeId} {l : List NodeId} :
    (fun q => (Function.update lists p l q).reverse) =
      Function.update (fun q => (lists q).reverse) p l.reverse :=
  Function.comp_update List.reverse lists p l

/-- **What an insertion writes forwards**: the link of the new child, and
the link to it. -/
theorem WellFormed.next_insert (hF : F.WellFormed) (hc : F.parent c = none)
    (hr : ∀ x ∈ r, F.parent x = some p) :
    (F.insert p c r).next =
      Function.update (Function.update F.next (.entry c) r) (.of p (F.prev (.of p r)))
        (some c) := by
  obtain ⟨front, back, hcut, rfl, hins⟩ :=
    exists_insertBefore_eq c fun x hx => (hF.mem_children p x).2 (hr x hx)
  rw [hF.prev_of_cut hcut, next, insert, hins]
  exact neighbour_insert hF.mem_children hc hcut (hF.nodup_children p)

/-- **What an insertion writes backwards.** -/
theorem WellFormed.prev_insert (hF : F.WellFormed) (hc : F.parent c = none)
    (hr : ∀ x ∈ r, F.parent x = some p) :
    (F.insert p c r).prev =
      Function.update (Function.update F.prev (.entry c) (F.prev (.of p r))) (.of p r)
        (some c) := by
  obtain ⟨front, back, hcut, rfl, hins⟩ :=
    exists_insertBefore_eq c fun x hx => (hF.mem_children p x).2 (hr x hx)
  have hcut' : (F.children p).reverse = back.reverse ++ front.reverse := by simp [hcut]
  have hsplice := neighbour_insert hF.mem_reverse_children hc hcut' (List.nodup_reverse.2 (hF.nodup_children p))
  simp only [List.head?_reverse, List.getLast?_reverse] at hsplice
  rw [hF.prev_of_cut hcut, prev, insert, hins, reverse_update, List.reverse_append,
    List.reverse_cons, List.append_assoc, List.singleton_append]
  exact hsplice

/-- **What a removal writes forwards**: the link past the child, and the
child's own. -/
theorem WellFormed.next_remove (hF : F.WellFormed) (hc : F.parent c = some p) :
    (F.remove p c).next =
      Function.update
        (Function.update F.next (.of p (F.prev (.entry c))) (F.next (.entry c)))
        (.entry c) none := by
  obtain ⟨front, back, hcut, herase, hprev, hnext⟩ := hF.exists_cut hc
  rw [hprev, hnext, next, remove, herase]
  exact neighbour_remove hF.mem_children hcut (hF.nodup_children p)

/-- **What a removal writes backwards.** -/
theorem WellFormed.prev_remove (hF : F.WellFormed) (hc : F.parent c = some p) :
    (F.remove p c).prev =
      Function.update
        (Function.update F.prev (.of p (F.next (.entry c))) (F.prev (.entry c)))
        (.entry c) none := by
  obtain ⟨front, back, hcut, herase, hprev, hnext⟩ := hF.exists_cut hc
  have hcut' : (F.children p).reverse = back.reverse ++ c :: front.reverse := by simp [hcut]
  have hsplice := neighbour_remove hF.mem_reverse_children hcut' (List.nodup_reverse.2 (hF.nodup_children p))
  simp only [List.head?_reverse, List.getLast?_reverse] at hsplice
  rw [hprev, hnext, prev, remove, herase, reverse_update, List.reverse_append]
  exact hsplice

/-! ## Well-formedness -/

theorem WellFormed.alloc (hF : F.WellFormed) : F.alloc.WellFormed where
  parent_lt c p h := by
    obtain ⟨hc, hp⟩ := hF.parent_lt c p h
    exact ⟨Nat.lt_succ_of_lt hc, Nat.lt_succ_of_lt hp⟩
  mem_children := hF.mem_children
  nodup_children := hF.nodup_children
  acyclic := hF.acyclic

/-- What an insertion puts below what: the way up may now lead from the new
child to its parent, and whatever else it passes it passed before. -/
theorem below_insert (h : (F.insert p c r).Below a b) :
    F.Below a b ∨ (a = c ∨ F.Below a c) ∧ (b = p ∨ F.Below p b) := by
  induction h with
  | @single b h =>
    rcases eq_or_ne a c with rfl | hac
    · exact .inr ⟨.inl rfl, .inl (by simpa [insert, eq_comm] using h)⟩
    · exact .inl (.single (by simpa [insert, hac] using h))
  | @tail b b' _ h ih =>
    rcases eq_or_ne b c with rfl | hbc
    · have hb' : b' = p := by simpa [insert, eq_comm] using h
      rcases ih with hab | ⟨hab, -⟩
      · exact .inr ⟨.inr hab, .inl hb'⟩
      · exact .inr ⟨hab, .inl hb'⟩
    · have hstep : F.parent b = some b' := by simpa [insert, hbc] using h
      rcases ih with hab | ⟨hac, rfl | hpb⟩
      · exact .inl (hab.tail hstep)
      · exact .inr ⟨hac, .inr (.single hstep)⟩
      · exact .inr ⟨hac, .inr (hpb.tail hstep)⟩

/-- A node without a parent can be inserted without taking anything from below
anything. -/
theorem below_insert_of_root (hc : F.parent c = none) (h : F.Below a b) :
    (F.insert p c r).Below a b := by
  refine Relation.TransGen.mono (fun x y hxy => ?_) a b h
  have hxc : x ≠ c := by
    rintro rfl
    simp [hc] at hxy
  rwa [parent_insert, Function.update_of_ne hxc]

/-- What an insertion asks for: both nodes exist, the child has no parent, the
reference is a child of the parent, and the parent is neither the child nor below
it. -/
structure Accepts (F : Forest) (p c : NodeId) (r : Option NodeId) : Prop where
  parent_lt : p.index < F.size
  child_lt : c.index < F.size
  root : F.parent c = none
  reference : ∀ x ∈ r, F.parent x = some p
  ne : p ≠ c
  not_below : ¬ F.Below p c

/-- **An insertion keeps a forest well formed** where the parent is not the
child and not below it. -/
theorem WellFormed.insert (hF : F.WellFormed) (h : F.Accepts p c r) :
    (F.insert p c r).WellFormed := by
  obtain ⟨hp, hcs, hc, hr, hpc, hbelow⟩ := h
  obtain ⟨front, back, hcut, -, hins⟩ :=
    exists_insertBefore_eq c fun x hx => (hF.mem_children p x).2 (hr x hx)
  have hnotin : c ∉ F.children p := hF.not_mem_children_of_root hc p
  refine ⟨fun x q hx => ?_, fun q x => ?_, fun q => ?_, fun id hid => ?_⟩
  · rcases eq_or_ne x c with rfl | hxc
    · obtain rfl : p = q := by simpa [Forest.insert] using hx
      exact ⟨hcs, hp⟩
    · exact hF.parent_lt x q (by simpa [Forest.insert, hxc] using hx)
  · rw [Forest.insert, hins]
    exact mem_insert_iff hF.mem_children hc hcut q x
  · have hnd := hF.nodup_children q
    rcases eq_or_ne q p with rfl | hq
    · rw [hcut] at hnd hnotin
      simpa [Forest.insert, hins] using List.nodup_middle.2 (List.nodup_cons.2 ⟨hnotin, hnd⟩)
    · simpa [Forest.insert, hq] using hnd
  · -- a cycle that was not there before would lead from `p` up to `c`
    rcases below_insert hid with h | ⟨rfl | hidc, rfl | hpid⟩
    · exact hF.acyclic id h
    · exact hpc rfl
    · exact hbelow hpid
    · exact hbelow hidc
    · exact hbelow (hpid.trans hidc)

/-- A removal puts nothing below anything. -/
theorem below_remove (h : (F.remove p c).Below a b) : F.Below a b := by
  refine Relation.TransGen.mono (fun x y hxy => ?_) a b h
  rcases eq_or_ne x c with rfl | hxc
  · simp [remove] at hxy
  · simpa [remove, hxc] using hxy

/-- **A removal keeps a forest well formed.** -/
theorem WellFormed.remove (hF : F.WellFormed) (hc : F.parent c = some p) :
    (F.remove p c).WellFormed := by
  obtain ⟨front, back, hcut, herase, -, -⟩ := hF.exists_cut hc
  refine ⟨fun x q hx => ?_, fun q x => ?_, fun q => ?_, fun id hid => ?_⟩
  · rcases eq_or_ne x c with rfl | hxc
    · simp [Forest.remove] at hx
    · exact hF.parent_lt x q (by simpa [Forest.remove, hxc] using hx)
  · rw [Forest.remove, herase]
    exact mem_remove_iff hF.mem_children hcut (hF.nodup_children p) q x
  · rcases eq_or_ne q p with rfl | hq
    · simpa [Forest.remove] using (hF.nodup_children q).erase c
    · simpa [Forest.remove, hq] using hF.nodup_children q
  · exact hF.acyclic id (below_remove hid)

/-- A child that is taken out can go anywhere that is not below it. -/
theorem WellFormed.accepts_remove (hF : F.WellFormed) (hc : F.parent c = some s)
    (hp : p.index < F.size) (hr : ∀ x ∈ r, (F.remove s c).parent x = some p) (hpc : p ≠ c)
    (hbelow : ¬ F.Below p c) : (F.remove s c).Accepts p c r where
  parent_lt := hp
  child_lt := (hF.parent_lt c s hc).1
  root := parent_remove_self
  reference := hr
  ne := hpc
  not_below h := hbelow (below_remove h)

/-! ## Moving all children, one by one -/

/-- **What is not below a node is not below its children**, nor one of them.
So a destination that is not below the source need not be tested again for
each child. -/
theorem not_below_child (hds : ¬ F.Below d s) (hc : F.parent c = some s) :
    d ≠ c ∧ ¬ F.Below d c := by
  constructor
  · rintro rfl
    exact hds (.single hc)
  · exact fun h => hds (h.tail hc)

/-- **One move keeps a forest well formed**, and leaves the destination where
it is: not below the source. -/
theorem WellFormed.move (hF : F.WellFormed) (hd : d.index < F.size) (hds : ¬ F.Below d s)
    (hc : F.parent c = some s) :
    ((F.remove s c).insert d c none).WellFormed ∧
      ¬ ((F.remove s c).insert d c none).Below d s := by
  obtain ⟨hdc, hnot⟩ := not_below_child hds hc
  refine ⟨(hF.remove hc).insert (hF.accepts_remove hc hd (by simp) hdc hnot), fun h => ?_⟩
  rcases below_insert h with h | ⟨hdc' | hdc', -⟩
  · exact hds (below_remove h)
  · exact hdc hdc'
  · exact hnot (below_remove hdc')

/-- A node whose children have moved has none left. -/
theorem children_moveAll_from : (F.moveAll d s).children s = [] := Function.update_self ..

/-- A childless node takes over the list as it is. -/
theorem children_moveAll_to (hds : d ≠ s) (hd : F.children d = []) :
    (F.moveAll d s).children d = F.children s := by
  simp [moveAll, hds, hd]

/-- With nothing to move nothing happens. -/
theorem moveAll_of_nil (hs : F.children s = []) : F.moveAll d s = F := by
  have hd : Function.update F.children d (F.children d ++ []) = F.children := by simp
  rw [moveAll, hs, hd, ← hs, Function.update_eq_self]
  simp [hs]

/-- **Moving all children is moving the first and then the rest.** -/
theorem moveAll_cons {rest : List NodeId} (hds : d ≠ s) (hs : F.children s = c :: rest) :
    ((F.remove s c).insert d c none).moveAll d s = F.moveAll d s := by
  have hsource : ((F.remove s c).insert d c none).children s = rest := by
    simp [insert, remove, hds.symm, hs]
  have hdest : ((F.remove s c).insert d c none).children d = F.children d ++ [c] := by
    simp [insert, remove, hds]
  ext1
  · rfl
  · funext q
    simp only [moveAll, hsource, hdest, hs]
    rcases eq_or_ne q s with rfl | hqs
    · simp
    · rcases eq_or_ne q d with rfl | hqd
      · simp [hqs]
      · simp [hqs, hqd, insert, remove]
  · funext id
    simp only [moveAll, hsource, hs]
    rcases eq_or_ne id c with rfl | hidc
    · simp [insert]
    · simp [insert, remove, hidc]

/-- The moved nodes keep their own children: the destination is not one of
them, and neither is the source. -/
theorem WellFormed.children_moveAll (hF : F.WellFormed)
    (hds : ¬ F.Below d s) (hc : c ∈ F.children s) : (F.moveAll d s).children c = F.children c := by
  have hcs : F.Below c s := .single ((hF.mem_children s c).1 hc)
  have hne : c ≠ s := by
    rintro rfl
    exact hF.acyclic c hcs
  have hne' : c ≠ d := by
    rintro rfl
    exact hds hcs
  simp [moveAll, hne, hne']

/-- **What a childless node takes over is below it, and was below the node
it was taken from.** By induction on the way up, from its end: the last step
is one of the moved links, and the others were there before or moved too. -/
theorem WellFormed.below_of_below_moveAll (hF : F.WellFormed) (hd : F.children d = [])
    (h : (F.moveAll d s).Below id d) : F.Below id s := by
  have hstep : ∀ {x y}, (F.moveAll d s).parent x = some y → F.parent x = some s ∨
      F.parent x = some y := by
    intro x y hxy
    simp only [moveAll] at hxy
    split at hxy
    · next hx => exact .inl ((hF.mem_children s x).1 hx)
    · exact .inr hxy
  induction h using Relation.TransGen.head_induction_on with
  | single h =>
    rcases hstep h with hs | hxd
    · exact .single hs
    · simp [← hF.mem_children, hd] at hxd
  | head h _ ih =>
    rcases hstep h with hs | hxy
    · exact .single hs
    · exact .head hxy ih

/-- A childless node that takes over a list does not have the node it was
taken from below it. -/
theorem WellFormed.not_below_moveAll (hF : F.WellFormed) (hd : F.children d = []) :
    ¬ (F.moveAll d s).Below s d := fun h => hF.acyclic s (hF.below_of_below_moveAll hd h)

end Forest

end DocumentTree
