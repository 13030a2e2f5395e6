import DocumentTree.Proofs.Tree.Check
import DocumentTree.Proofs.Tree.Splice
import DocumentTree.Proofs.Tree.Traversal
import DocumentTree.Tree.Outline
/-!
# Outlines and walks

An outline is written by recursion along the child lists, and the depth of a
line is handed down from the line above. On links that agree the recursion
ends, and what it writes can be read off two other walks: the walk down says
which lines there are and in what order, and the way up from a node says how
far its line is indented (`Tree.Consistent.outline_eq`).
-/

namespace DocumentTree

namespace Tree

variable {t : Tree} {F : Forest} {depth levels : Nat} {id a c top : NodeId}
variable {front back part : List NodeId}

/-! ## The recursion -/

mutual

/-- The outline of the subtree under a node is written in the end, and is
this text. Nothing bounds the recursion. -/
inductive Writes (t : Tree) : Nat → NodeId → String → Prop
  | outside {depth : Nat} {id : NodeId} (h : t.get? id = none) : Writes t depth id ""
  | node {depth : Nat} {id : NodeId} {n : Node} {below : String} (h : t.get? id = some n)
      (rest : WritesEach t (depth + 1) (t.childCursor id) below) :
      Writes t depth id (indent depth ++ n.outline ++ "\n" ++ below)

/-- The outlines of the children a cursor still has to give, one behind the
other. -/
inductive WritesEach (t : Tree) : Nat → ChildCursor → String → Prop
  | done {depth : Nat} {cursor : ChildCursor} (h : cursor.next? t = none) :
      WritesEach t depth cursor ""
  | child {depth : Nat} {cursor rest : ChildCursor} {id : NodeId} {text below : String}
      (h : cursor.next? t = some (id, rest)) (first : Writes t depth id text)
      (others : WritesEach t depth rest below) : WritesEach t depth cursor (text ++ below)

end

mutual

/-- An outline is written in one way. -/
theorem Writes.unique {depth : Nat} {id : NodeId} {text text' : String} :
    t.Writes depth id text → t.Writes depth id text' → text = text'
  | .outside _, .outside _ => rfl
  | .outside hid, .node hid' _ => by simp [hid] at hid'
  | .node hid _, .outside hid' => by simp [hid] at hid'
  | .node hid rest, .node hid' rest' => by
    have hn := Option.some.inj (hid.symm.trans hid')
    have hbelow := WritesEach.unique rest rest'
    rw [hn, hbelow]

/-- The outlines of a list of children are written in one way. -/
theorem WritesEach.unique {depth : Nat} {cursor : ChildCursor} {text text' : String} :
    t.WritesEach depth cursor text → t.WritesEach depth cursor text' → text = text'
  | .done _, .done _ => rfl
  | .done hnext, .child hnext' _ _ => by simp [hnext] at hnext'
  | .child hnext _ _, .done hnext' => by simp [hnext] at hnext'
  | .child hnext first others, .child hnext' first' others' => by
    obtain ⟨rfl, rfl⟩ := Prod.mk.inj (Option.some.inj (hnext.symm.trans hnext'))
    rw [Writes.unique first first', WritesEach.unique others others']

end

/-- What is written of a list of children is what is written of each. By
induction along the part the cursor still has to give. -/
theorem writesEach_spanning {texts : NodeId → String} (hlist : t.Chained (front ++ part ++ back))
    (htexts : ∀ c ∈ part, t.Writes depth c (texts c)) :
    t.WritesEach depth (.spanning part) (String.join (part.map texts)) := by
  induction part generalizing front with
  | nil => exact .done rfl
  | cons c part ih =>
    obtain ⟨hfirst, hothers⟩ := List.forall_mem_cons.1 htexts
    have hrest : t.Chained ((front ++ [c]) ++ part ++ back) := by simpa using hlist
    rw [List.map_cons, String.join_cons]
    exact .child (ChildCursor.next?_spanning_cons hlist) hfirst (ih hrest hothers)

/-! ## The lines -/

/-- How many ancestors a node has up to and including `top`: the place of
`top` on the way up that starts with the node itself. -/
def depthBelow (t : Tree) (top id : NodeId) : Nat := (id :: t.ancestors id).idxOf top

/-- The line of a node at a depth. Of the node only the content is read. -/
def lineAt (t : Tree) (depth : Nat) (id : NodeId) : String :=
  indent depth ++ (t.content? id).elim "" Content.outline ++ "\n"

/-- The lines of a subtree, in the order of the walk down, indented from
`depth` on by the ways up. -/
def linesFrom (t : Tree) (depth : Nat) (id : NodeId) : List String :=
  (id :: t.descendants id).map fun a => t.lineAt (depth + t.depthBelow id a) a

theorem lineAt_of_get? {n : Node} (h : t.get? id = some n) :
    t.lineAt depth id = indent depth ++ n.outline ++ "\n" := by
  simp [lineAt, content?, h]

/-- The depth is read at the cut. -/
theorem Shows.depthBelow_eq (h : t.Shows F) (hF : F.WellFormed)
    (hup : a :: t.ancestors a = front ++ top :: back) : t.depthBelow top a = front.length := by
  have hnd := h.nodup_cons_ancestors hF a
  rw [hup, List.nodup_middle, List.nodup_cons, List.mem_append] at hnd
  rw [depthBelow, hup, List.idxOf_append_of_notMem fun hmem => hnd.1 (.inl hmem),
    List.idxOf_cons_self, Nat.add_zero]

/-- **Below a child every node is one level deeper below the parent.** -/
theorem Shows.depthBelow_child (h : t.Shows F) (hF : F.WellFormed) (hc : F.parent c = some top)
    (ha : a ∈ F.subtree c) : t.depthBelow top a = t.depthBelow c a + 1 := by
  obtain ⟨front, hup⟩ := h.exists_ancestors_eq hF ha
  have hup' : a :: t.ancestors a = (front ++ [c]) ++ top :: t.ancestors top := by
    rw [hup, h.ancestors_of_parent hF hc, List.append_assoc, List.singleton_append]
  rw [h.depthBelow_eq hF hup, h.depthBelow_eq hF hup', List.length_append, List.length_singleton]

/-- **The lines of a subtree are that of its top and those of the subtrees of
its children**, a level deeper. -/
theorem Shows.linesFrom_eq (h : t.Shows F) (hF : F.WellFormed) (depth : Nat) (id : NodeId) :
    t.linesFrom depth id =
      t.lineAt depth id :: (F.children id).flatMap (t.linesFrom (depth + 1)) := by
  have htop : t.depthBelow id id = 0 := h.depthBelow_eq hF (List.nil_append _).symm
  rw [linesFrom, h.cons_descendants_eq hF, hF.subtree_eq, List.map_cons, htop, Nat.add_zero,
    List.map_flatMap]
  refine congrArg (t.lineAt depth id :: ·) (List.flatMap_congr fun c hc => ?_)
  rw [linesFrom, h.cons_descendants_eq hF]
  refine List.map_congr_left fun a ha => ?_
  rw [h.depthBelow_child hF ((hF.mem_children id c).1 hc) ha, Nat.add_assoc, Nat.add_comm 1]

/-- Texts one behind the other, each in parts. -/
theorem join_flatMap {α : Type} (l : List α) (parts : α → List String) :
    String.join (l.flatMap parts) = String.join (l.map fun x => String.join (parts x)) := by
  induction l with
  | nil => rfl
  | cons x l ih => rw [List.flatMap_cons, String.join_append, ih, List.map_cons, String.join_cons]

/-! ## What is written -/

/-- **The bounded recursion writes the lines**, if there are more levels than
nodes below. -/
theorem Shows.outlineBelow_eq (h : t.Shows F) (hF : F.WellFormed) (hid : id ∈ t)
    (hlevels : F.rank id < levels) :
    t.outlineBelow depth id levels = String.join (t.linesFrom depth id) := by
  induction levels generalizing depth id with
  | zero => omega
  | succ levels ih =>
    obtain ⟨n, hn⟩ := mem_iff_get?.1 hid
    have hbelow : ∀ c ∈ F.children id,
        t.outlineBelow (depth + 1) c levels = String.join (t.linesFrom (depth + 1) c) := by
      intro c hc
      have hlt := hF.rank_lt ((hF.mem_children id c).1 hc)
      exact ih (h.mem_of_mem_children hF hc) (by omega)
    rw [outlineBelow, hn, h.children_eq hF, List.map_congr_left hbelow, h.linesFrom_eq hF,
      String.join_cons, join_flatMap, lineAt_of_get? hn]

/-- **The recursion that nothing bounds writes the same lines.** By induction
from the children to the node. -/
theorem Shows.writes (h : t.Shows F) (hF : F.WellFormed) (depth : Nat) (hid : id ∈ t) :
    t.Writes depth id (String.join (t.linesFrom depth id)) := by
  induction id using hF.wellFounded.induction generalizing depth with
  | _ id ih =>
    obtain ⟨n, hn⟩ := mem_iff_get?.1 hid
    have hbelow := writesEach_spanning (h.chained hF id).whole fun c hc =>
      ih c ((hF.mem_children id c).1 hc) (depth + 1) (h.mem_of_mem_children hF hc)
    rw [← h.childCursor_eq] at hbelow
    rw [h.linesFrom_eq hF, String.join_cons, join_flatMap, lineAt_of_get? hn]
    exact .node hn hbelow

/-- One level for each node is enough, as no node is below itself. -/
theorem Shows.outline_eq_join (h : t.Shows F) (hF : F.WellFormed) (hid : id ∈ t) :
    t.outline id = String.join (t.linesFrom 0 id) := by
  have hlt := hF.rank_lt_size (h.mem_iff.1 hid)
  rw [← h.size_eq] at hlt
  exact h.outlineBelow_eq hF hid hlt

/-- Outside the arena there is nothing to write. -/
theorem outline_of_not_mem (hid : id ∉ t) : t.outline id = "" := by
  rw [outline]
  cases t.size with
  | zero => rfl
  | succ levels => rw [outlineBelow, get?_eq_none_of_not_mem hid]

/-- **An outline is the walk down with the ways up for its margin.** Where
links agree the recursion that writes an outline ends, and there is one text
it writes. For a node of the arena that text is the lines of the node and of
its descendants, in the order of the walk down; each line is indented two
spaces for every ancestor of its node up to and including the node the
outline is of, and what else it says is said by the content of its node.
Outside the arena the text is empty. -/
theorem Consistent.outline_eq (h : t.Consistent) (id : NodeId) :
    (∀ text, t.Writes 0 id text ↔ text = t.outline id) ∧
      (id ∈ t → (t.descendantWalk id).Yields (t.descendants id) ∧
        (∀ a ∈ id :: t.descendants id, a ∈ t ∧ (t.ancestorWalk a).Yields (t.ancestors a) ∧
          id ∈ a :: t.ancestors a) ∧
        t.outline id =
          String.join ((id :: t.descendants id).map fun a => t.lineAt (t.depthBelow id a) a)) ∧
      (id ∉ t → t.outline id = "") := by
  obtain ⟨F, hF, hshows⟩ := h.exists_shows
  have hwrites : t.Writes 0 id (t.outline id) := by
    by_cases hid : id ∈ t
    · rw [hshows.outline_eq_join hF hid]
      exact hshows.writes hF 0 hid
    · rw [outline_of_not_mem hid]
      exact .outside (get?_eq_none_of_not_mem hid)
  refine ⟨fun text => ⟨fun htext => htext.unique hwrites, fun htext => htext ▸ hwrites⟩,
    fun hid => ⟨?_, fun a ha => ⟨?_, hshows.ancestorWalk_yields hF a, ?_⟩, ?_⟩, outline_of_not_mem⟩
  · rw [hshows.descendants_eq hF]
    exact hshows.descendantWalk_yields hF id
  · rw [hshows.cons_descendants_eq hF, hF.mem_subtree_iff_below] at ha
    rcases ha with rfl | hbelow
    · exact hid
    · exact hshows.mem_iff.2 (hF.lt_of_below hbelow).1
  · rw [hshows.cons_descendants_eq hF] at ha
    obtain ⟨front, hup⟩ := hshows.exists_ancestors_eq hF ha
    rw [hup]
    exact List.mem_append_right _ List.mem_cons_self
  · rw [hshows.outline_eq_join hF hid, linesFrom]
    simp only [Nat.zero_add]

/-- The text is two levels deep, the element that holds it and the comment
behind it one. -/
theorem Consistent.outline_eq_sample :
    sample.Consistent ∧ NodeId.root ∈ sample ∧ ⟨4⟩ ∉ sample ∧
      sample.Writes 0 .root (sample.outline .root) ∧
      sample.outline .root = "Document\n  <p>\n    \"t\"\n  <!-- c -->\n" ∧
      sample.outline ⟨4⟩ = "" := by
  obtain ⟨hwrites, hlines, -⟩ := consistent_sample.outline_eq .root
  obtain ⟨-, -, houtside⟩ := consistent_sample.outline_eq ⟨4⟩
  refine ⟨consistent_sample, by decide, by decide, (hwrites _).2 rfl, ?_, houtside (by decide)⟩
  rw [(hlines (by decide)).2.2]
  decide +kernel

end Tree

end DocumentTree
