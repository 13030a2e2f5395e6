import DocumentTree.OpenElements.Basic
import DocumentTree.Proofs.Call.Frame
/-!
# Markers as brackets

Opening the marker and clearing to the last one are a pair of brackets, although
every marker on the stack is the same node and a clearing looks for the innermost
only. Between the two, nodes may be opened and further pairs put
(`Parse.Balanced`). Such moves leave open what they opened outside of inner pairs
(`Parse.Balanced.exists_run`), so the clearing closes just that and the marker,
whatever was open before (`Parse.brackets_balance`).
-/

namespace DocumentTree

namespace Tree

variable {t : Tree} {m : NodeId}

/-- A tree with a marker is left as it is. -/
theorem scopeMarker_of_marker (h : t.marker = some m) : t.scopeMarker = (m, t) := by
  rw [scopeMarker, h]

theorem size_scopeMarker :
    t.scopeMarker.2.size = t.size + if t.marker = none then 1 else 0 := by
  cases h : t.marker with
  | none =>
    rw [scopeMarker, h, if_pos rfl]
    exact size_alloc
  | some m =>
    rw [scopeMarker_of_marker h, if_neg (by simp)]
    rfl

/-- What a tree gives as its marker is one, if a marker it already had is. -/
theorem isScopeMarker_scopeMarker (h : ∀ m, t.marker = some m → t.isScopeMarker m = true) :
    t.scopeMarker.2.isScopeMarker t.scopeMarker.1 = true := by
  rcases (Grows.scopeMarker t).new_marker _ marker_scopeMarker with hold | hnew
  · rw [(Extends.scopeMarker t).isScopeMarker_eq (mem_of_isScopeMarker (h _ hold))]
    exact h _ hold
  · exact hnew

end Tree

/-- The clearing finds the marker behind what is none. -/
theorem OpenElements.clearToLastMarker_append {s : OpenElements} {t : Tree} {ids : List NodeId}
    {m : NodeId} (hids : ∀ id ∈ ids, t.isScopeMarker id = false) (hm : t.isScopeMarker m = true) :
    clearToLastMarker { entries := ids ++ m :: s.entries } t =
      { ids := ids ++ [m], rest := s } := by
  have hsplit : splitThrough? t.isScopeMarker (ids ++ m :: s.entries) =
      some (ids ++ [m], s.entries) :=
    splitThrough?_eq_some_iff.2 ⟨ids, m, rfl, rfl, hm, hids⟩
  rw [clearToLastMarker, hsplit]

/-- A parse under way: what is open, and the tree it is looked up in. -/
structure Parse where
  elements : OpenElements := .empty
  tree : Tree := .new

namespace Parse

/-! ## Moves -/

/-- What may be done between brackets, and the brackets. -/
inductive Move where
  | push (id : NodeId)
  | pushMarker
  | clearToLastMarker

/-- What a move answers: nothing, the marker it opened, or the entries it
closed, the current node first. -/
inductive Answer where
  | done
  | marker (id : NodeId)
  | closed (ids : List NodeId)
  deriving DecidableEq

/-- Make a move. To open the marker the tree may have to allocate it. -/
def move (x : Parse) : Move → Answer × Parse
  | .push id => (.done, { x with elements := x.elements.push id })
  | .pushMarker =>
    let (id, elements, tree) := x.elements.pushMarker x.tree
    (.marker id, { elements := elements, tree := tree })
  | .clearToLastMarker =>
    let closed := x.elements.clearToLastMarker x.tree
    (.closed closed.ids, { x with elements := closed.rest })

/-- Make moves in order: an answer to each, and where they lead. -/
def run (x : Parse) : List Move → List Answer × Parse
  | [] => ([], x)
  | move :: moves =>
    let later := (x.move move).2.run moves
    ((x.move move).1 :: later.1, later.2)

/-- Moves between a pair of brackets in a tree: nodes are opened that are no scope
markers in it, and inner pairs of brackets put. The second list has the nodes
opened outside of inner pairs, in order. -/
inductive Balanced (t : Tree) : List Move → List NodeId → Prop
  | nil : Balanced t [] []
  | push {id : NodeId} {moves : List Move} {opened : List NodeId}
      (hid : t.isScopeMarker id = false) (rest : Balanced t moves opened) :
      Balanced t (.push id :: moves) (id :: opened)
  | bracket {inner moves : List Move} {closed opened : List NodeId}
      (between : Balanced t inner closed) (rest : Balanced t moves opened) :
      Balanced t (.pushMarker :: inner ++ .clearToLastMarker :: moves) opened

variable {x y : Parse} {t : Tree} {m : NodeId} {moves moves' : List Move}
variable {opened : List NodeId} {answer : Answer} {answers : List Answer}

theorem run_cons {move : Move} (h : x.move move = (answer, y)) :
    x.run (move :: moves) = (answer :: (y.run moves).1, (y.run moves).2) := by
  rw [run, h]

/-- Moves go on from where those before them have led. -/
theorem run_append (h : x.run moves = (answers, y)) :
    x.run (moves ++ moves') = (answers ++ (y.run moves').1, (y.run moves').2) := by
  induction moves generalizing x answers with
  | nil =>
    obtain ⟨rfl, rfl⟩ := Prod.mk.inj h
    rfl
  | cons move moves ih =>
    obtain ⟨rfl, rfl⟩ := Prod.mk.inj h
    rw [List.cons_append, run, ih rfl]
    rfl

/-! ## Balance -/

namespace Balanced

theorem not_isScopeMarker (h : Balanced t moves opened) :
    ∀ id ∈ opened, t.isScopeMarker id = false := by
  induction h with
  | nil => simp
  | push hid _ ih => exact List.forall_mem_cons.2 ⟨hid, ih⟩
  | bracket _ _ _ ih => exact ih

/-- A clearing closes what balanced moves have left open, and the marker below
that. -/
theorem move_clear (h : Balanced t moves opened) (hm : t.isScopeMarker m = true)
    (s : OpenElements) :
    move { elements := { entries := opened.reverse ++ (s.push m).entries }, tree := t }
        .clearToLastMarker =
      (.closed (opened.reverse ++ [m]), { elements := s, tree := t }) := by
  have hopened : ∀ id ∈ opened.reverse, t.isScopeMarker id = false := fun id hid =>
    h.not_isScopeMarker id (List.mem_reverse.1 hid)
  rw [move, OpenElements.push, OpenElements.clearToLastMarker_append hopened hm]

/-- **Balanced moves leave open what they opened**, on top of what was open, and
the tree as it was. Each marker they opened is the one the tree has. -/
theorem exists_run (h : Balanced t moves opened) (hmarker : t.marker = some m)
    (hm : t.isScopeMarker m = true) (s : OpenElements) :
    ∃ answers, run { elements := s, tree := t } moves =
        (answers, { elements := { entries := opened.reverse ++ s.entries }, tree := t }) ∧
      ∀ id, .marker id ∈ answers → id = m := by
  induction h generalizing s with
  | nil => exact ⟨[], rfl, by simp⟩
  | @push id moves opened _ _ ih =>
    obtain ⟨answers, hrun, hanswers⟩ := ih (s.push id)
    refine ⟨.done :: answers, ?_, fun id hid => hanswers id (by simpa using hid)⟩
    rw [run_cons rfl, hrun]
    simp [OpenElements.push]
  | @bracket inner moves closed opened between _ ihinner ih =>
    obtain ⟨inside, hinside, hmarkers⟩ := ihinner (s.push m)
    obtain ⟨behind, hbehind, hmarkers'⟩ := ih s
    have hopen : move { elements := s, tree := t } .pushMarker =
        (.marker m, { elements := s.push m, tree := t }) := by
      rw [move, OpenElements.pushMarker, Tree.scopeMarker_of_marker hmarker]
    refine ⟨.marker m :: inside ++ .closed (closed.reverse ++ [m]) :: behind, ?_, fun id hid => ?_⟩
    · rw [List.cons_append, run_cons hopen, run_append hinside, run_cons (between.move_clear hm s),
        hbehind]
      rfl
    · have hcases : id = m ∨ .marker id ∈ inside ∨ .marker id ∈ behind := by simpa using hid
      rcases hcases with rfl | hid | hid
      · rfl
      · exact hmarkers id hid
      · exact hmarkers' id hid

end Balanced

/-- **Markers balance like brackets.** Take any tree whose marker, if it has one,
is a scope marker, and anything open. Open the marker, make balanced moves and
clear to the last marker: closed are the nodes opened outside of inner pairs, the
last one first, and then the marker, and what was open before is open again. The
marker opened is the same each time, and the tree grows by it at most, when it had
none. -/
theorem brackets_balance (x : Parse)
    (hmarker : ∀ m, x.tree.marker = some m → x.tree.isScopeMarker m = true)
    (h : Balanced x.tree.scopeMarker.2 moves opened) :
    ∃ answers, x.run (.pushMarker :: moves ++ [.clearToLastMarker]) =
        (.marker x.tree.scopeMarker.1 :: answers ++
            [.closed (opened.reverse ++ [x.tree.scopeMarker.1])],
          { x with tree := x.tree.scopeMarker.2 }) ∧
      (∀ id, .marker id ∈ answers → id = x.tree.scopeMarker.1) ∧
      x.tree.scopeMarker.2.size = x.tree.size + if x.tree.marker = none then 1 else 0 := by
  have hm := Tree.isScopeMarker_scopeMarker hmarker
  obtain ⟨answers, hrun, hanswers⟩ :=
    h.exists_run Tree.marker_scopeMarker hm (x.elements.push x.tree.scopeMarker.1)
  refine ⟨answers, ?_, hanswers, Tree.size_scopeMarker⟩
  rw [List.cons_append, run_cons rfl, OpenElements.pushMarker, run_append hrun,
    run_cons (h.move_clear hm x.elements)]
  rfl

/-- An inner pair of brackets, in a tree that has no marker yet. The node that is
going to be its marker is open already, and so is an id that is unknown. -/
theorem brackets_balance_nested :
    ∃ answers : List Answer,
      run { elements := { entries := [⟨1⟩, ⟨7⟩] }, tree := .new }
          (.pushMarker :: [.push .root, .pushMarker, .push ⟨9⟩, .clearToLastMarker, .push ⟨5⟩] ++
            [.clearToLastMarker]) =
        (.marker ⟨1⟩ :: answers ++ [.closed [⟨5⟩, .root, ⟨1⟩]],
          { elements := { entries := [⟨1⟩, ⟨7⟩] }, tree := (Tree.scopeMarker .new).2 }) ∧
      (∀ id, .marker id ∈ answers → id = ⟨1⟩) ∧ (Tree.scopeMarker .new).2.size = 1 + 1 := by
  have hinner : Balanced (Tree.scopeMarker .new).2 [.push ⟨9⟩] [⟨9⟩] := .push (by decide) .nil
  have hmoves : Balanced (Tree.scopeMarker .new).2
      [.push .root, .pushMarker, .push ⟨9⟩, .clearToLastMarker, .push ⟨5⟩] [.root, ⟨5⟩] :=
    .push (by decide) (.bracket hinner (.push (by decide) .nil))
  exact brackets_balance { elements := { entries := [⟨1⟩, ⟨7⟩] }, tree := .new } (by decide) hmoves

end Parse

end DocumentTree
