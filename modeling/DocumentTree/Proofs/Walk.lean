import DocumentTree.Walk
import DocumentTree.Proofs.Forest.Neighbours
import Mathlib.Data.Finset.Card
import Mathlib.Logic.Relation
/-!
# Walks that stay inside a finite set

Two facts turn bounded readings into facts about unbounded walks. A walk
inside a finite set that never comes back to a node it has passed ends
(`Walk.exists_yields_of_acyclic`). And a walk inside a finite set reaches
what it reaches at all within as many steps as the set has members, loops
or not (`Walk.mem_take_of_reaches`): a loop on the way can be cut out.
-/

namespace DocumentTree

namespace Walk

variable {w : Walk} {l : List NodeId}

/-- Walking on from a node reaches what comes after it: the transitive
closure of the walk's step. -/
theorem reaches_iff_transGen {next : NodeId → Option NodeId} {id target : NodeId} :
    Reaches { start := next id, next := next } target ↔
      Relation.TransGen (fun a b => next a = some b) id target := by
  constructor
  · intro h
    generalize hw : ({ start := next id, next := next } : Walk) = w at h
    induction h generalizing id with
    | here hs =>
      subst hw
      exact .single hs
    | later hs _ ih =>
      subst hw
      exact .head hs (ih rfl)
  · intro h
    induction h using Relation.TransGen.head_induction_on with
    | single h => exact .here h
    | head h _ ih => exact .later h ih

/-! ## Walks along a list -/

/-- A walk that ends starts with the first node it passes. -/
theorem Yields.start_eq (h : w.Yields l) : w.start = l.head? := by
  cases h with
  | done h => exact h
  | step h _ => exact h

/-- From each node a walk goes on to the next. -/
theorem Yields.next_eq (h : w.Yields l) {id : NodeId} (hid : id ∈ l) :
    w.next id = follower id l := by
  obtain ⟨front, back, rfl⟩ := List.append_of_mem hid
  exact h.after.start_eq.trans (follower_of_cut h.nodup).symm

/-- From its last node a walk goes nowhere. -/
theorem Yields.next_getLast? (h : w.Yields l) {id : NodeId} (hid : l.getLast? = some id) :
    w.next id = none := by
  obtain ⟨front, rfl⟩ := List.getLast?_eq_some_iff.1 hid
  exact h.after.start_eq

/-- **Where each node of a list is followed by the next one, a walk passes
the list and ends.** -/
theorem yields_of_follower {next : NodeId → Option NodeId} (hnd : l.Nodup)
    (h : ∀ id ∈ l, next id = follower id l) :
    Yields { start := l.head?, next := next } l := by
  -- every rest of the list is passed, the shortest first
  have hrest : ∀ back front, l = front ++ back →
      Yields { start := back.head?, next := next } back := by
    intro back
    induction back with
    | nil => exact fun _ _ => .done rfl
    | cons id back ih =>
      intro front hl
      have hcut : l = (front ++ [id]) ++ back := by simp [hl]
      have hnext : next id = back.head? := by
        rw [h id (by simp [hl]), hl]
        exact follower_of_cut (hl ▸ hnd)
      refine .step rfl ?_
      have hgo := ih (front ++ [id]) hcut
      rw [← hnext] at hgo
      exact hgo
  exact hrest l [] rfl

/-! ## Ending -/

/-- **A walk inside a finite set that never comes back ends.** -/
theorem exists_yields_of_acyclic (S : Finset NodeId) (hS : ∀ id, w.Reaches id → id ∈ S)
    (hac : ∀ id, w.Reaches id → ¬ (w.after id).Reaches id) : ∃ l, w.Yields l := by
  induction hn : S.card generalizing S w with
  | zero =>
    cases hs : w.start with
    | none => exact ⟨[], .done hs⟩
    | some id =>
      have hmem := hS id (.here hs)
      rw [Finset.card_eq_zero.1 hn] at hmem
      simp at hmem
  | succ n ih =>
    cases hs : w.start with
    | none => exact ⟨[], .done hs⟩
    | some id =>
      have hid : id ∈ S := hS id (.here hs)
      -- the rest of the walk avoids `id`, so it stays inside a smaller set
      have hrest : ∀ id', (w.after id).Reaches id' → id' ∈ S.erase id := by
        intro id' hr
        refine Finset.mem_erase.2 ⟨?_, hS id' (.later hs hr)⟩
        rintro rfl
        exact hac id' (.here hs) hr
      have hcard : (S.erase id).card = n := by
        rw [Finset.card_erase_of_mem hid]
        omega
      obtain ⟨l, hl⟩ := ih (S.erase id) hrest (fun id' hr => hac id' (.later hs hr)) hcard
      exact ⟨id :: l, .step hs hl⟩

/-- Where a walk that ends stays inside a finite set, its length is bounded
by the size of the set. -/
theorem Yields.length_le_card (h : w.Yields l) {S : Finset NodeId} (hS : ∀ id ∈ l, id ∈ S) :
    l.length ≤ S.card := by
  rw [← List.toFinset_card_of_nodup h.nodup]
  exact Finset.card_le_card fun id hid => hS id (List.mem_toFinset.1 hid)

/-! ## Loops -/

/-- The walk starts by passing these nodes, and may go on after them. -/
def Passes (w : Walk) : List NodeId → Prop
  | [] => True
  | id :: l => w.start = some id ∧ (w.after id).Passes l

theorem Passes.of_append {front back : List NodeId} (h : w.Passes (front ++ back)) :
    w.Passes front := by
  induction front generalizing w with
  | nil => trivial
  | cons _ _ ih => exact ⟨h.1, ih h.2⟩

/-- What a walk passes after a node does not depend on what it passed
before. -/
theorem Passes.after {front back : List NodeId} {id : NodeId}
    (h : w.Passes (front ++ id :: back)) : (w.after id).Passes back := by
  induction front generalizing w with
  | nil => exact h.2
  | cons x _ ih => exact ih (w := w.after x) h.2

theorem Passes.reaches (h : w.Passes l) {id : NodeId} (hid : id ∈ l) : w.Reaches id := by
  induction l generalizing w with
  | nil => simp at hid
  | cons x l ih =>
    rcases List.mem_cons.1 hid with rfl | hid
    · exact .here h.1
    · exact .later h.1 (ih h.2 hid)

/-- As many steps as there are nodes read them all. -/
theorem Passes.mem_take (h : w.Passes l) {id : NodeId} (hid : id ∈ l) {n : Nat}
    (hn : l.length ≤ n) : id ∈ w.take n := by
  induction l generalizing w n with
  | nil => simp at hid
  | cons x l ih =>
    obtain _ | n := n
    · simp at hn
    · rw [take, h.1]
      rcases List.mem_cons.1 hid with rfl | hid
      · exact List.mem_cons_self ..
      · exact List.mem_cons_of_mem _ (ih h.2 hid (Nat.le_of_succ_le_succ hn))

/-- **What a walk reaches it reaches without passing any node twice.** A
second visit to a node closes a loop, and the target is on the loop or
behind it. -/
theorem Reaches.exists_passes {target : NodeId} (h : w.Reaches target) :
    ∃ l, w.Passes l ∧ l.Nodup ∧ target ∈ l := by
  induction h with
  | @here w id hs =>
    exact ⟨[id], ⟨hs, trivial⟩, List.nodup_singleton _, List.mem_singleton_self _⟩
  | @later w id target hs _ ih =>
    obtain ⟨l, hl, hnd, htarget⟩ := ih
    by_cases hid : id ∈ l
    · -- the walk comes back to `id`, and what is between the visits can be cut out
      obtain ⟨front, back, rfl⟩ := List.append_of_mem hid
      obtain ⟨hfront, hback, hdisj⟩ := List.nodup_append.1 hnd
      have hnotin : id ∉ front := fun hmem => hdisj id hmem id (List.mem_cons_self ..) rfl
      rcases List.mem_append.1 htarget with htarget | htarget
      · exact ⟨id :: front, ⟨hs, hl.of_append⟩, List.nodup_cons.2 ⟨hnotin, hfront⟩,
          List.mem_cons_of_mem _ htarget⟩
      · exact ⟨id :: back, ⟨hs, hl.after⟩, hback, htarget⟩
    · exact ⟨id :: l, ⟨hs, hl⟩, List.nodup_cons.2 ⟨hid, hnd⟩, List.mem_cons_of_mem _ htarget⟩

/-- **A bounded reading misses nothing.** What a walk inside a finite set
reaches is among its first nodes, one for each member of the set. -/
theorem mem_take_of_reaches {S : Finset NodeId} (hS : ∀ id, w.Reaches id → id ∈ S)
    {target : NodeId} (h : w.Reaches target) {n : Nat} (hn : S.card ≤ n) :
    target ∈ w.take n := by
  obtain ⟨l, hl, hnd, htarget⟩ := h.exists_passes
  have hlen : l.length ≤ S.card := by
    rw [← List.toFinset_card_of_nodup hnd]
    exact Finset.card_le_card fun id hid => hS id (hl.reaches (List.mem_toFinset.1 hid))
  exact hl.mem_take htarget (hlen.trans hn)

/-- What a bounded reading reads is reached. -/
theorem reaches_of_mem_take {target : NodeId} {n : Nat} (h : target ∈ w.take n) :
    w.Reaches target := by
  induction n generalizing w with
  | zero => simp [take] at h
  | succ n ih =>
    rw [take] at h
    split at h
    · simp at h
    · next id hs =>
      rcases List.mem_cons.1 h with rfl | h
      · exact .here hs
      · exact .later hs (ih h)

end Walk

end DocumentTree
