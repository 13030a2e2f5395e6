import DocumentTree.Proofs.Forest.Neighbours
import DocumentTree.Tree.Traversal
import Mathlib.Data.List.Induction
/-!
# Cursors over child lists

A cursor holds two ids and no list. What it still has to give is the part of
the child list between them (`ChildCursor.spanning`), and each request takes one
child off that part, at its own end. The two ends meet on the last child, and
that is the only time their ids are the same, for nothing is listed twice.
-/

namespace DocumentTree

/-- Each node of a list is linked to its neighbours in it. -/
structure Tree.Chained (t : Tree) (l : List NodeId) : Prop where
  nodup : l.Nodup
  next_eq : ∀ id ∈ l, t.nextSibling? id = follower id l
  prev_eq : ∀ id ∈ l, t.prevSibling? id = follower id l.reverse

/-- A list is the part of it that has nothing before or after it. -/
theorem Tree.Chained.whole {t : Tree} {l : List NodeId} (h : t.Chained l) :
    t.Chained ([] ++ l ++ []) := by
  simpa using h

namespace ChildCursor

variable {t : Tree} {front back part : List NodeId} {x : NodeId} {e : End} {n : Nat}

/-- The cursor that still has this part of a child list to give. -/
def spanning (part : List NodeId) : ChildCursor :=
  { front := part.head?, back := part.getLast? }

/-- A used-up cursor answers nothing. -/
@[simp] theorem nextAt?_spanning_nil : (spanning []).nextAt? t e = none := by
  cases e <;> rfl

/-- **A request at the front takes the first child off.** -/
theorem next?_spanning_cons (h : t.Chained (front ++ x :: part ++ back)) :
    (spanning (x :: part)).next? t = some (x, spanning part) := by
  cases part with
  | nil => simp [next?, spanning]
  | cons y part =>
    have hne : x ≠ (y :: part).getLast (by simp) := by
      intro he
      have hmem : x ∈ y :: part := he ▸ List.getLast_mem _
      have hnd := (List.nodup_append.1 (List.nodup_append.1 h.nodup).1).2.1
      exact (List.nodup_cons.1 hnd).1 hmem
    have hnext : t.nextSibling? x = some y := by
      have hcut : front ++ x :: y :: part ++ back = front ++ x :: (y :: part ++ back) := by simp
      rw [h.next_eq x (by simp), hcut, follower_of_cut (hcut ▸ h.nodup)]
      rfl
    simp [next?, spanning, hnext, List.getLast?_eq_some_getLast, hne]

/-- **A request at the back takes the last child off.** -/
theorem nextBack?_spanning_concat (h : t.Chained (front ++ (part ++ [x]) ++ back)) :
    (spanning (part ++ [x])).nextBack? t = some (x, spanning part) := by
  cases part using List.reverseRecOn with
  | nil => simp [nextBack?, spanning]
  | append_singleton part y =>
    have hhead : (part ++ [y] ++ [x]).head? = (part ++ [y]).head? := by
      simp [List.head?_append]
    have hne : (part ++ [y]).head? ≠ some x := by
      intro he
      have hnd := (List.nodup_append.1 (List.nodup_append.1 h.nodup).1).2.1
      exact (List.nodup_append.1 hnd).2.2 x (List.mem_of_head? he) x (by simp) rfl
    have hprev : t.prevSibling? x = some y := by
      have hcut : (front ++ (part ++ [y] ++ [x]) ++ back).reverse =
          back.reverse ++ x :: (y :: part.reverse ++ front.reverse) := by simp
      rw [h.prev_eq x (by simp), hcut, follower_of_cut (hcut ▸ List.nodup_reverse.2 h.nodup)]
      rfl
    rw [nextBack?, spanning, hhead, List.getLast?_concat, Option.map_some, if_neg hne, hprev,
      spanning, List.getLast?_concat]

/-- Read from the front, the cursor gives its part in order. -/
theorem take_front_spanning (h : t.Chained (front ++ part ++ back)) (hn : part.length ≤ n) :
    (spanning part).take t .front n = part := by
  induction part generalizing front n with
  | nil => cases n <;> simp [take]
  | cons x part ih =>
    obtain _ | n := n
    · simp at hn
    · have hrest : t.Chained ((front ++ [x]) ++ part ++ back) := by simpa using h
      rw [take, nextAt?, next?_spanning_cons h]
      simp [ih hrest (Nat.le_of_succ_le_succ hn)]

/-- Read from the back, in reverse. -/
theorem take_back_spanning (h : t.Chained (front ++ part ++ back)) (hn : part.length ≤ n) :
    (spanning part).take t .back n = part.reverse := by
  induction part using List.reverseRecOn generalizing back n with
  | nil => cases n <;> simp [take]
  | append_singleton part x ih =>
    obtain _ | n := n
    · simp at hn
    · have hrest : t.Chained (front ++ part ++ (x :: back)) := by simpa using h
      rw [take, nextAt?, nextBack?_spanning_concat h]
      simp [ih hrest (by simpa using hn)]

/-- **The cursor answers what the list would**, from whichever ends it is read. -/
theorem readEnds_spanning (h : t.Chained (front ++ part ++ back)) (requests : List End) :
    (spanning part).readEnds t requests = DocumentTree.readEnds part requests := by
  induction requests generalizing front part back with
  | nil => rfl
  | cons e requests ih =>
    rw [readEnds]
    cases e with
    | front =>
      cases part with
      | nil =>
        rw [nextAt?_spanning_nil]
        exact congrArg (none :: ·) (ih h)
      | cons x part =>
        have hrest : t.Chained ((front ++ [x]) ++ part ++ back) := by simpa using h
        rw [nextAt?, next?_spanning_cons h]
        exact congrArg (some x :: ·) (ih hrest)
    | back =>
      cases part using List.reverseRecOn with
      | nil =>
        rw [nextAt?_spanning_nil]
        exact congrArg (none :: ·) (ih h)
      | append_singleton part x =>
        have hrest : t.Chained (front ++ part ++ (x :: back)) := by simpa using h
        rw [nextAt?, nextBack?_spanning_concat h, DocumentTree.readEnds, List.getLast?_concat,
          List.dropLast_concat]
        exact congrArg (some x :: ·) (ih hrest)

end ChildCursor

end DocumentTree
