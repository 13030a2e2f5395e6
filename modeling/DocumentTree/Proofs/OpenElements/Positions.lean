import DocumentTree.Proofs.OpenElements.Closing
/-!
# Edits by id and by position

A node that is open more than once is found where it was opened last. So to remove a node,
or to put another one in its place, is to edit one position, that of the innermost
occurrence (`OpenElements.indexOf?_eq_some_iff`), and what was done by id can be done and
undone by position. The other way round this fails where the node is open further up: then
a removal does not find the node that was inserted. The entries it leaves are the ones there
were only if all from the one to the other are that node
(`OpenElements.edits_by_id_and_position`).

Positions are turned into cuts, `above ++ below`, with as many entries below as the position
says, and an edit is what it makes of the two parts.
-/

namespace DocumentTree

/-- A list is the same with an element at either end when it has no other. -/
theorem concat_eq_cons_iff {α : Type} {l : List α} {a : α} :
    l ++ [a] = a :: l ↔ ∀ b ∈ l, b = a := by
  induction l with
  | nil => simp
  | cons b l ih =>
    rw [List.cons_append, List.cons.injEq, List.forall_mem_cons, ← ih]
    exact and_congr_right fun hb => by rw [hb]

namespace OpenElements

variable {s s' : OpenElements} {x : NodeId} {above between below : List NodeId} {i j k p : Nat}

/-- Open elements are their entries. -/
theorem eq_iff_entries_eq : s = s' ↔ s.entries = s'.entries := by
  cases s
  cases s'
  rw [mk.injEq]

/-! ## Cuts at a position -/

/-- Every position can be cut at. -/
theorem exists_entries_eq (hp : p ≤ s.size) :
    ∃ above below, s.entries = above ++ below ∧ below.length = p := by
  refine ⟨s.entries.take (s.size - p), s.entries.drop (s.size - p),
    (List.take_append_drop ..).symm, ?_⟩
  rw [size] at hp ⊢
  rw [List.length_drop]
  omega

/-- What is open above a cut is counted from there. -/
theorem get?_add_length (h : s.entries = above ++ below) :
    s.get? (below.length + k) = above.reverse[k]? := by
  rw [get?, bottomUp, h, List.reverse_append,
    List.getElem?_append_right (by rw [List.length_reverse]; omega), List.length_reverse,
    Nat.add_sub_cancel_left]

/-- A node is open above a cut where it is open at a position from there on. -/
theorem mem_above_iff (h : s.entries = above ++ below) :
    x ∈ above ↔ ∃ j, below.length ≤ j ∧ s.get? j = some x := by
  rw [← List.mem_reverse, List.mem_iff_getElem?]
  constructor
  · rintro ⟨k, hk⟩
    exact ⟨below.length + k, by omega, (get?_add_length h).trans hk⟩
  · rintro ⟨j, hj, hx⟩
    obtain ⟨k, rfl⟩ := Nat.exists_eq_add_of_le hj
    exact ⟨k, (get?_add_length h).symm.trans hx⟩

/-- Of the entries between two cuts all are one node when it is open at every position
between them. -/
theorem forall_get?_iff (h : s.entries = above ++ (between ++ below)) :
    (∀ j, below.length ≤ j → j < (between ++ below).length → s.get? j = some x) ↔
      ∀ a ∈ between, a = x := by
  have hentries : s.entries = (above ++ between) ++ below := by rw [h, List.append_assoc]
  have hat : ∀ k (hk : k < between.reverse.length),
      s.get? (below.length + k) = some between.reverse[k] := fun k hk => by
    rw [get?_add_length hentries, List.reverse_append, List.getElem?_append_left hk,
      List.getElem?_eq_getElem hk]
  have hall : (∀ a ∈ between, a = x) ↔ ∀ k (hk : k < between.reverse.length),
      between.reverse[k] = x := by
    rw [← List.forall_mem_iff_getElem (p := (· = x))]
    simp only [List.mem_reverse]
  have hlength : (between ++ below).length = below.length + between.reverse.length := by
    rw [List.length_append, List.length_reverse, Nat.add_comm]
  rw [hall, hlength]
  constructor
  · intro hx k hk
    exact Option.some.inj ((hat k hk).symm.trans (hx _ (by omega) (by omega)))
  · intro hx j hj hlt
    obtain ⟨k, rfl⟩ := Nat.exists_eq_add_of_le hj
    rw [hat k (by omega), hx]

/-- An insertion puts the node into the cut. -/
theorem insertAt_of_entries_eq (h : s.entries = above ++ below) (y : NodeId) :
    s.insertAt below.length y = .ok { entries := above ++ y :: below } := by
  have hsize : s.size = above.length + below.length := by rw [size, h, List.length_append]
  have hinsert : (above ++ below).insertIdx above.length y = above ++ y :: below :=
    List.modifyTailIdx_add _ 0 above below
  rw [insertAt, if_pos (by omega), hsize, Nat.add_sub_cancel, h, hinsert]

/-! ## The innermost occurrence -/

/-- The innermost occurrence of a node is at a position. -/
structure InnermostAt (s : OpenElements) (x : NodeId) (position : Nat) : Prop where
  get?_eq : s.get? position = some x
  not_above : ∀ j, position < j → s.get? j ≠ some x

theorem exists_cutAt_of_mem (hx : x ∈ s) : ∃ above below, s.CutAt (· = x) above x below := by
  obtain ⟨above, found, below, hcut⟩ := exists_cutAt (s := s) (p := (· = x)) ⟨x, hx, rfl⟩
  obtain rfl := hcut.passes
  exact ⟨above, below, hcut⟩

namespace CutAt

variable (h : s.CutAt (· = x) above x below)

include h

theorem not_mem_above : x ∉ above := fun hmem => h.above_fail x hmem rfl

theorem mem : x ∈ s := by
  have hmem : x ∈ s.entries := by simp [h.entries_eq]
  exact hmem

/-- The position of the innermost occurrence counts the entries below it. -/
theorem indexOf?_eq : s.indexOf? x = some below.length := by
  have hdepth : s.entries.idxOf? x = some above.length := by
    rw [h.entries_eq]
    refine List.idxOf?_eq_some_iff.2 ⟨by simp, by simp, fun j hj hx => h.not_mem_above ?_⟩
    rw [List.getElem_append_left hj] at hx
    exact hx ▸ List.getElem_mem hj
  have hsize : s.size - 1 - above.length = below.length := by
    rw [size, h.entries_eq, List.length_append, List.length_cons]
    omega
  rw [indexOf?, hdepth, Option.map_some, hsize]

/-- A node is removed where it is innermost. -/
theorem remove?_eq : s.remove? x = some { entries := above ++ below } := by
  rw [remove?, if_pos h.mem, h.entries_eq, List.erase_append_right _ h.not_mem_above,
    List.erase_cons_head]

/-- A node is replaced where it is innermost. -/
theorem replace?_eq (y : NodeId) : s.replace? x y = some { entries := above ++ y :: below } := by
  rw [replace?, if_pos h.mem, h.entries_eq, List.replace_append_right h.not_mem_above,
    List.replace_cons_self]

theorem innermostAt : s.InnermostAt x below.length := by
  have hentries : s.entries = (above ++ [x]) ++ below := by simp [h.entries_eq]
  refine ⟨?_, fun j hj hx => h.not_mem_above ?_⟩
  · exact (get?_add_length (k := 0) hentries).trans (by simp)
  · have hcut : s.entries = above ++ (x :: below) := h.entries_eq
    exact (mem_above_iff hcut).2 ⟨j, hj, hx⟩

end CutAt

theorem InnermostAt.exists_cutAt (h : s.InnermostAt x i) :
    ∃ above below, s.CutAt (· = x) above x below ∧ below.length = i := by
  have hx : x ∈ s := List.mem_reverse.1 (List.mem_iff_getElem?.2 ⟨i, h.get?_eq⟩)
  obtain ⟨above, below, hcut⟩ := exists_cutAt_of_mem hx
  refine ⟨above, below, hcut, ?_⟩
  -- neither of two innermost positions is above the other
  rcases Nat.lt_trichotomy below.length i with hlt | heq | hgt
  · exact absurd h.get?_eq (hcut.innermostAt.not_above i hlt)
  · exact heq
  · exact absurd hcut.innermostAt.get?_eq (h.not_above _ hgt)

/-- **The index of a node is the position of its innermost occurrence.** -/
theorem indexOf?_eq_some_iff : s.indexOf? x = some i ↔ s.InnermostAt x i := by
  constructor
  · intro h
    have hx : x ∈ s := by
      by_contra hnot
      have hnone : s.entries.idxOf? x = none := List.idxOf?_eq_none_iff.2 hnot
      rw [indexOf?, hnone] at h
      cases h
    obtain ⟨above, below, hcut⟩ := exists_cutAt_of_mem hx
    obtain rfl := Option.some.inj (hcut.indexOf?_eq.symm.trans h)
    exact hcut.innermostAt
  · intro h
    obtain ⟨above, below, hcut, rfl⟩ := h.exists_cutAt
    exact hcut.indexOf?_eq

/-- A node is innermost at one position. -/
theorem innermostAt_iff_eq (h : s.indexOf? x = some i) : s.InnermostAt x j ↔ j = i := by
  rw [← indexOf?_eq_some_iff, h, Option.some.injEq, eq_comm]

/-! ## Removing what was inserted -/

/-- From a position up to the innermost occurrence of a node all entries are that node.
This says nothing where the node is not open from there on. -/
def OnlyFrom (s : OpenElements) (x : NodeId) (position : Nat) : Prop :=
  ∀ top, s.InnermostAt x top → ∀ j, position ≤ j → j ≤ top → s.get? j = some x

theorem onlyFrom_of_not_mem (h : s.entries = above ++ below) (hx : x ∉ above) :
    s.OnlyFrom x below.length := fun top htop _ hj hle =>
  absurd ((mem_above_iff h).2 ⟨top, hj.trans hle, htop.get?_eq⟩) hx

theorem CutAt.onlyFrom_iff (h : s.CutAt (· = x) above x (between ++ below)) :
    s.OnlyFrom x below.length ↔ ∀ a ∈ between, a = x := by
  have hentries : s.entries = above ++ ((x :: between) ++ below) := h.entries_eq
  have hbetween : (∀ a ∈ between, a = x) ↔ ∀ a ∈ x :: between, a = x := by simp
  rw [hbetween, ← forall_get?_iff hentries, OnlyFrom]
  simp only [innermostAt_iff_eq h.indexOf?_eq, forall_eq, List.cons_append, List.length_cons, Nat.lt_succ_iff]

/-- **A removal takes back an insertion unless it finds another occurrence.** It finds the
inserted one where the node is not open above. Where it is, the innermost one is removed,
and what was below that moved up by one: into the places of their own kind or not. -/
theorem exists_remove?_of_insert (h : s.entries = above ++ below) (x : NodeId) :
    ∃ s'', remove? { entries := above ++ x :: below } x = some s'' ∧
      (s'' = s ↔ s.OnlyFrom x below.length) := by
  by_cases hx : x ∈ above
  · obtain ⟨above, between, rfl, hnot⟩ := List.eq_append_cons_of_mem hx
    have habove : ∀ id ∈ above, ¬ id = x := fun id hid heq => hnot (heq ▸ hid)
    have hold : s.CutAt (· = x) above x (between ++ below) := ⟨by simp [h], rfl, habove⟩
    have hnew : CutAt { entries := (above ++ x :: between) ++ x :: below } (· = x) above x
        (between ++ x :: below) := ⟨by simp, rfl, habove⟩
    refine ⟨_, hnew.remove?_eq, ?_⟩
    rw [hold.onlyFrom_iff, ← concat_eq_cons_iff, eq_iff_entries_eq, h, List.append_assoc,
      List.append_right_inj, List.append_cons, List.append_left_inj]
  · have hnew : CutAt { entries := above ++ x :: below } (· = x) above x below :=
      ⟨rfl, rfl, fun id hid heq => hx (heq ▸ hid)⟩
    exact ⟨_, hnew.remove?_eq,
      iff_of_true (eq_iff_entries_eq.2 h.symm) (onlyFrom_of_not_mem h hx)⟩

/-- **Edits by id are edits by position.** Where a node is open, removing it and putting it
back at its index restores the open elements, and putting another node there is what
replacing it does. And removing a node that was just inserted restores them exactly when
from there up to the innermost occurrence of the node all entries are that node; where it
is not open from there on, it always does. -/
theorem edits_by_id_and_position (s : OpenElements) (x y : NodeId) :
    (∀ i, s.indexOf? x = some i → ∃ s' s'', s.remove? x = some s' ∧ s'.insertAt i x = .ok s ∧
        s.replace? x y = some s'' ∧ s'.insertAt i y = .ok s'') ∧
      ∀ p ≤ s.size, ∃ s' s'', s.insertAt p x = .ok s' ∧ s'.remove? x = some s'' ∧
        (s'' = s ↔ s.OnlyFrom x p) := by
  constructor
  · intro i hi
    obtain ⟨above, below, hcut, rfl⟩ := (indexOf?_eq_some_iff.1 hi).exists_cutAt
    refine ⟨_, _, hcut.remove?_eq, ?_, hcut.replace?_eq y, insertAt_of_entries_eq rfl y⟩
    rw [insertAt_of_entries_eq rfl x, ← hcut.entries_eq]
  · intro p hp
    obtain ⟨above, below, hentries, rfl⟩ := exists_entries_eq hp
    obtain ⟨s'', hremove, hiff⟩ := exists_remove?_of_insert hentries x
    exact ⟨_, s'', insertAt_of_entries_eq hentries x, hremove, hiff⟩

/-- Node 1 is open twice in a row. Its upper entry is the one that is removed, put back and
replaced. Inserted right below the lower one it can be removed again, as all from there to
the upper one are node 1; inserted at the bottom it cannot, as node 0 is between. -/
theorem edits_by_id_and_position_repeated :
    let s : OpenElements := { entries := [⟨2⟩, ⟨1⟩, ⟨1⟩, ⟨0⟩] }
    s.indexOf? ⟨1⟩ = some 2 ∧ 1 ≤ s.size ∧ 0 ≤ s.size ∧
      (∃ s', s.remove? ⟨1⟩ = some s' ∧ s'.insertAt 2 ⟨1⟩ = .ok s ∧
        s'.insertAt 2 ⟨3⟩ = .ok { entries := [⟨2⟩, ⟨3⟩, ⟨1⟩, ⟨0⟩] }) ∧
      (∃ s', s.insertAt 1 ⟨1⟩ = .ok s' ∧ s'.remove? ⟨1⟩ = some s) ∧
      ∃ s', s.insertAt 0 ⟨1⟩ = .ok s' ∧ s'.remove? ⟨1⟩ ≠ some s := by
  intro s
  obtain ⟨hid, hposition⟩ := edits_by_id_and_position s ⟨1⟩ ⟨3⟩
  have hindex : s.indexOf? ⟨1⟩ = some 2 := by decide
  refine ⟨hindex, by decide, by decide, ?_, ?_, ?_⟩
  · obtain ⟨s', s'', hremove, hback, hreplace, hother⟩ := hid 2 hindex
    obtain rfl := Option.some.inj hreplace
    exact ⟨s', hremove, hback, hother⟩
  · obtain ⟨s', s'', hinsert, hremove, hiff⟩ := hposition 1 (by decide)
    have honly : s.OnlyFrom ⟨1⟩ 1 := fun top ht j hj hle => by
      obtain rfl := (innermostAt_iff_eq hindex).1 ht
      obtain rfl | rfl : j = 1 ∨ j = 2 := by omega
      all_goals rfl
    exact ⟨s', hinsert, hremove.trans (congrArg some (hiff.2 honly))⟩
  · obtain ⟨s', s'', hinsert, hremove, hiff⟩ := hposition 0 (by decide)
    refine ⟨s', hinsert, fun h => ?_⟩
    have honly := hiff.1 (Option.some.inj (hremove.symm.trans h))
    have hbottom := honly 2 ((innermostAt_iff_eq hindex).2 rfl) 0 (by decide) (by decide)
    exact absurd hbottom (by decide)

end OpenElements

end DocumentTree
