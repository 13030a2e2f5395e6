import DocumentTree.Proofs.Tree.Check
/-!
# The check without its guards

`Tree.check` cannot go wrong by the way it is written. It keeps its notes in
a vector that has a place for every node, a note is written with a proof
that its place is there, and a child list is read by recursion on a bound.
`Tree.plainCheck` is the same check with none of this. Its notes are a plain
array, and a place that is not there stops it (`Halt.noPlace`). Its walks
are loops that go on while there is a next node, and nothing ends them but
the test whether too many have been collected; that this test is enough is
the argument by which `Walk.collect` is accepted at all. The two checks give
the same answer on every arena (`Tree.plainCheck_eq`), so the plain one never
stops for want of a place: by the time a child is noted its parent link has
been read, and only a node of the arena has one.
-/

namespace DocumentTree

/-- What stops a plain check: a defect, or a note that has no place. -/
inductive Halt where
  | defect (d : Defect)
  | noPlace (id : NodeId)

/-- A note for each node, as far as the array goes: the parent in whose
child list it was found. -/
abbrev Notes := Array (Option NodeId)

namespace Notes

/-- Write a note, if there is a place for it. -/
def write (notes : Notes) (id parent : NodeId) : Except Halt Notes :=
  if h : id.index < notes.size then .ok (notes.set id.index (some parent) h)
  else .error (.noPlace id)

/-- Read a note, if there is a place for it. -/
def read (notes : Notes) (id : NodeId) : Except Halt (Option NodeId) :=
  match notes[id.index]? with
  | some note => .ok note
  | none => .error (.noPlace id)

end Notes

namespace Walk

/-- Collect what a walk passes behind what has been collected before, and
give up where that is `limit` nodes and there is a next one. -/
def collect (limit : Nat) (w : Walk) (seen : List NodeId) : Option (List NodeId) :=
  match w.start with
  | none => some seen
  | some id => if limit ≤ seen.length then none else collect limit (w.after id) (seen ++ [id])
termination_by limit - seen.length
decreasing_by
  rw [List.length_append, List.length_singleton]
  omega

/-- **The loop reads what the bounded walk reads.** What it has collected
counts against the bound. -/
theorem collect_eq {limit n : Nat} {w : Walk} {seen : List NodeId} (hn : seen.length + n = limit) :
    w.collect limit seen = (w.complete? n).map (seen ++ ·) := by
  induction n generalizing w seen with
  | zero =>
    -- the bound is used up, so both give up at a next node
    rw [collect, complete?]
    cases hs : w.start with
    | none => simp
    | some id =>
      have hle : limit ≤ seen.length := by omega
      simp [hle]
  | succ n ih =>
    rw [collect, complete?]
    cases hs : w.start with
    | none => simp
    | some id =>
      have hlt : ¬ limit ≤ seen.length := by omega
      have hn' : (seen ++ [id]).length + n = limit := by
        rw [List.length_append, List.length_singleton]
        omega
      simp only [if_neg hlt, ih hn', Option.map_map]
      congr 1
      funext l
      simp

end Walk

namespace Tree

variable (t : Tree)

/-! ## The plain check -/

/-- Read the child list of a node both ways, with a loop each. -/
def collectChildren (parent : NodeId) : Except Halt (List NodeId) :=
  match (t.forwardWalk parent).collect t.size [], (t.backwardWalk parent).collect t.size [] with
  | some forward, some backward =>
    if forward = backward.reverse then .ok forward
    else .error (.defect (.siblingMismatch parent))
  | _, _ => .error (.defect (.siblingMismatch parent))

/-- Note a listed child, which has to name the parent as its own. -/
def noteChild (parent : NodeId) (notes : Notes) (child : NodeId) : Except Halt Notes :=
  if t.parent? child = some parent then notes.write child parent
  else .error (.defect (.parentMismatch parent child))

/-- Test one node by itself and note the children it lists. -/
def noteChildren (notes : Notes) (id : NodeId) : Except Halt Notes := do
  match (t.get? id).bind (t.slotDefect? id) with
  | some d => .error (.defect d)
  | none =>
    let children ← t.collectChildren id
    children.foldlM (t.noteChild id) notes

/-- Compare the parent link of a node with its note. -/
def testListed (notes : Notes) (id : NodeId) : Except Halt Unit :=
  match t.parent? id with
  | none => .ok ()
  | some parent => do
    let note ← notes.read id
    if note = some parent then .ok () else .error (.defect (.unlisted parent id))

/-- Look for the node among its ancestors. -/
def testCycle (id : NodeId) : Except Halt Unit :=
  if id ∈ (t.ancestorWalk id).take t.size then .error (.defect (.cycle id)) else .ok ()

/-- Test the way up from a node. -/
def testParent (notes : Notes) (id : NodeId) : Except Halt Unit := do
  t.testListed notes id
  t.testCycle id

/-- Test that the links of all nodes agree, over plain notes. -/
def plainCheck : Except Halt Unit := do
  let notes ← t.nodeIds.foldlM t.noteChildren (Array.replicate t.size none)
  forM t.nodeIds (t.testParent notes)

variable {t} {p c id : NodeId} {found : Listing t}

/-! ## The first pass -/

/-- What the guarded first pass comes to, said with plain notes. -/
def plainly : Except Defect (Listing t) → Except Halt Notes
  | .ok found => .ok found.toArray
  | .error d => .error (.defect d)

/-- Passes that take the same steps come to the same. -/
theorem foldlM_plainly {α : Type} {f : Listing t → α → Except Defect (Listing t)}
    {g : Notes → α → Except Halt Notes} (h : ∀ found a, g found.toArray a = plainly (f found a))
    (l : List α) (found : Listing t) :
    l.foldlM g found.toArray = plainly (l.foldlM f found) := by
  induction l generalizing found with
  | nil => rfl
  | cons a l ih =>
    rw [List.foldlM_cons, List.foldlM_cons, h]
    cases hstep : f found a with
    | error d => rfl
    | ok found' => exact ih found'

/-- **A note is written where there is a place for it.** A child that names
a parent is in the arena, and every node of the arena has a place. -/
theorem noteChild_eq (p : NodeId) (found : Listing t) (c : NodeId) :
    t.noteChild p found.toArray c = plainly (t.listChild p found c) := by
  by_cases hc : t.parent? c = some p
  · -- `c` names a parent, so it is in the arena, and the notes are as long as that
    have hplace : c.index < found.toArray.size := by
      rw [Vector.size_toArray]
      exact mem_of_parent? hc
    rw [noteChild, if_pos hc, Notes.write, dif_pos hplace, listChild_of_parent hc, plainly,
      Vector.toArray_set]
  · rw [noteChild, if_neg hc, listChild, dif_neg hc, plainly]

theorem collectChildren_eq (p : NodeId) :
    t.collectChildren p =
      match t.childList? p with
      | some children => .ok children
      | none => .error (.defect (.siblingMismatch p)) := by
  have hcollect : ∀ w : Walk, w.collect t.size [] = w.complete? t.size := by
    intro w
    rw [Walk.collect_eq (Nat.zero_add t.size)]
    simp
  rw [collectChildren, childList?, hcollect, hcollect]
  cases (t.forwardWalk p).complete? t.size with
  | none => rfl
  | some forward =>
    cases (t.backwardWalk p).complete? t.size with
    | none => rfl
    | some backward => by_cases h : forward = backward.reverse <;> simp [h]

theorem noteChildren_eq (found : Listing t) (id : NodeId) :
    t.noteChildren found.toArray id = plainly (t.listChildren found id) := by
  rw [noteChildren, listChildren]
  cases (t.get? id).bind (t.slotDefect? id) with
  | some d => rfl
  | none =>
    rw [collectChildren_eq]
    cases t.childList? id with
    | none => rfl
    | some children => exact foldlM_plainly (noteChild_eq id) children found

/-! ## The second pass -/

/-- Stop where a defect has been found. -/
def stopAt : Option Defect → Except Halt Unit
  | some d => .error (.defect d)
  | none => .ok ()

/-- **A note is read where there is one**, that of a node of the arena. -/
theorem testListed_eq (hid : id ∈ t) :
    t.testListed found.toArray id = stopAt (t.unlistedDefect? found id) := by
  rw [testListed, unlistedDefect?]
  cases t.parent? id with
  | none => rfl
  | some p =>
    obtain ⟨note, hplace⟩ : ∃ note, found[id.index]? = some note :=
      ⟨_, Vector.getElem?_eq_getElem hid⟩
    have hread : Notes.read found.toArray id = .ok note := by
      rw [Notes.read, Vector.getElem?_toArray, hplace]
    rw [hread, hplace]
    by_cases hnote : note = some p <;> simp [hnote, bind, Except.bind, stopAt]

theorem testCycle_eq (id : NodeId) : t.testCycle id = stopAt (t.cycleDefect? id) := by
  rw [testCycle, cycleDefect?]
  by_cases hmem : id ∈ (t.ancestorWalk id).take t.size <;> simp [hmem, stopAt]

theorem testParent_eq (hid : id ∈ t) :
    t.testParent found.toArray id = stopAt (t.parentDefect? found id) := by
  rw [testParent, testListed_eq hid, testCycle_eq, parentDefect?]
  cases t.unlistedDefect? found id with
  | some d => rfl
  | none => rfl

/-- The second pass stops where the guarded one finds a defect first. -/
theorem forM_testParent_eq (found : Listing t) {ids : List NodeId} (hids : ∀ id ∈ ids, id ∈ t) :
    forM ids (t.testParent found.toArray) = stopAt (ids.findSome? (t.parentDefect? found)) := by
  induction ids with
  | nil => rfl
  | cons id ids ih =>
    rw [List.forM_cons, testParent_eq (hids id (List.mem_cons_self ..)), List.findSome?_cons]
    cases t.parentDefect? found id with
    | some d => rfl
    | none => exact ih fun id' hid' => hids id' (List.mem_cons_of_mem _ hid')

/-! ## Both passes -/

/-- **Without its guards the check gives the same answer.** -/
theorem plainCheck_eq : t.plainCheck = t.check.mapError .defect := by
  have hfirst : t.nodeIds.foldlM t.noteChildren (Array.replicate t.size none) =
      plainly t.listing := by
    rw [← Vector.toArray_replicate]
    exact foldlM_plainly noteChildren_eq t.nodeIds _
  rw [plainCheck, check, hfirst]
  cases t.listing with
  | error d => rfl
  | ok found =>
    have hsecond := forM_testParent_eq found fun id hid => mem_nodeIds.1 hid
    simp only [plainly, bind, Except.bind, hsecond]
    cases t.nodeIds.findSome? (t.parentDefect? found) <;> rfl

/-- **The check is sound on every arena.** Whatever the links, the plain
check comes to an end, with the answer of the guarded one; it never looks
for a note that has no place; and a defect it names is there, said of walks
that nothing bounds. -/
theorem plainCheck_sound (t : Tree) :
    (t.plainCheck = .ok () ∧ t.check = .ok ()) ∨
      ∃ d : Defect, t.plainCheck = .error (.defect d) ∧ t.check = .error d ∧ d.Holds t := by
  rw [plainCheck_eq]
  cases hcheck : t.check with
  | ok u => exact .inl ⟨rfl, rfl⟩
  | error d => exact .inr ⟨d, rfl, rfl, holds_of_check hcheck⟩

end Tree

end DocumentTree
