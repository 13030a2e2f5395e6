import DocumentTree.NodeId
/-!
# Walks

A walk follows links: it starts at some node, or at none, and each node
says which one comes next, if any. Nothing makes the links of an arbitrary
arena end, so a walk may go on forever. `Walk.Yields` says that a walk ends
and what it passed; `Walk.take` and `Walk.complete?` are its bounded
readings. A walk that ends passes no node twice (`Yields.nodup`), which is
what makes a bound by the size of the arena enough.
-/

namespace DocumentTree

/-- Where a walk starts, and what follows each node. -/
structure Walk where
  start : Option NodeId
  next : NodeId → Option NodeId

namespace Walk

variable {w : Walk} {l l' : List NodeId}

/-- The walk from what follows a node. -/
def after (w : Walk) (id : NodeId) : Walk := { w with start := w.next id }

/-- The walk ends, and passes exactly these nodes. -/
inductive Yields : Walk → List NodeId → Prop
  | done {w : Walk} (h : w.start = none) : Yields w []
  | step {w : Walk} {id : NodeId} {l : List NodeId} (h : w.start = some id)
      (rest : Yields (w.after id) l) : Yields w (id :: l)

/-- The walk passes a node, whether or not it ends. -/
inductive Reaches : Walk → NodeId → Prop
  | here {w : Walk} {id : NodeId} (h : w.start = some id) : Reaches w id
  | later {w : Walk} {id target : NodeId} (h : w.start = some id)
      (rest : Reaches (w.after id) target) : Reaches w target

/-- The first `n` nodes of a walk, or all of them if it is shorter. -/
def take (w : Walk) : Nat → List NodeId
  | 0 => []
  | n + 1 =>
    match w.start with
    | none => []
    | some id => id :: (w.after id).take n

/-- All nodes of a walk that passes at most `n`, and `none` of a longer
one. -/
def complete? (w : Walk) : Nat → Option (List NodeId)
  | 0 => if w.start = none then some [] else none
  | n + 1 =>
    match w.start with
    | none => some []
    | some id => ((w.after id).complete? n).map (id :: ·)

/-! ## What the readings say -/

/-- A walk ends in one way. -/
theorem Yields.unique (h : w.Yields l) (h' : w.Yields l') : l = l' := by
  induction h generalizing l' with
  | done h =>
    cases h' with
    | done => rfl
    | step h' _ => simp [h] at h'
  | step h _ ih =>
    cases h' with
    | done h' => simp [h] at h'
    | step h' rest =>
      obtain rfl := Option.some.inj (h.symm.trans h')
      rw [ih rest]

/-- The rest of a walk that ends depends on the node it goes on from, and
not on the way there. -/
theorem Yields.after {front back : List NodeId} {id : NodeId}
    (h : w.Yields (front ++ id :: back)) : (w.after id).Yields back := by
  induction front generalizing w with
  | nil =>
    cases h with
    | step _ rest => exact rest
  | cons _ _ ih =>
    cases h with
    | step _ rest =>
      have := ih rest
      exact this

/-- **A walk that ends passes no node twice.** From a second visit it would
go on as from the first, and there would be no last one. -/
theorem Yields.nodup (h : w.Yields l) : l.Nodup := by
  induction h with
  | done => exact List.nodup_nil
  | @step w id l _ rest ih =>
    refine List.nodup_cons.2 ⟨fun hmem => ?_, ih⟩
    obtain ⟨front, back, rfl⟩ := List.append_of_mem hmem
    have hlen := congrArg List.length (rest.after.unique rest)
    simp at hlen
    omega

/-- A walk that ends reaches the nodes it passes and no others. -/
theorem Yields.reaches_iff (h : w.Yields l) {id : NodeId} : w.Reaches id ↔ id ∈ l := by
  constructor
  · intro hr
    induction hr generalizing l with
    | here hs =>
      cases h with
      | done h => simp [h] at hs
      | step h _ => simp [Option.some.inj (h.symm.trans hs)]
    | later hs _ ih =>
      cases h with
      | done h => simp [h] at hs
      | step h rest =>
        obtain rfl := Option.some.inj (h.symm.trans hs)
        exact List.mem_cons_of_mem _ (ih rest)
  · intro hm
    induction h with
    | done => simp at hm
    | step h _ ih =>
      rcases List.mem_cons.1 hm with rfl | hm
      · exact .here h
      · exact .later h (ih hm)

/-- Enough steps read the whole of a walk that ends. -/
theorem Yields.take_eq (h : w.Yields l) {n : Nat} (hn : l.length ≤ n) : w.take n = l := by
  induction h generalizing n with
  | done h => cases n <;> simp [take, h]
  | step h _ ih =>
    obtain _ | n := n
    · simp at hn
    · simp [take, h, ih (Nat.le_of_succ_le_succ hn)]

/-- **The bounded reading is exact.** It finds precisely the walks that end
within the bound. -/
theorem complete?_eq_some_iff {n : Nat} :
    w.complete? n = some l ↔ w.Yields l ∧ l.length ≤ n := by
  induction n generalizing w l with
  | zero =>
    constructor
    · intro h
      simp only [complete?] at h
      split at h
      · next hs => obtain rfl := Option.some.inj h; exact ⟨.done hs, Nat.le_refl _⟩
      · simp at h
    · rintro ⟨h, hl⟩
      cases h with
      | done h => simp [complete?, h]
      | step => simp at hl
  | succ n ih =>
    constructor
    · intro h
      simp only [complete?] at h
      split at h
      · next hs => obtain rfl := Option.some.inj h; exact ⟨.done hs, Nat.zero_le _⟩
      · next id hs =>
        obtain ⟨l, hl, rfl⟩ := Option.map_eq_some_iff.1 h
        obtain ⟨hy, hn⟩ := ih.1 hl
        exact ⟨.step hs hy, Nat.succ_le_succ hn⟩
    · rintro ⟨h, hl⟩
      cases h with
      | done h => simp [complete?, h]
      | step h rest => simp [complete?, h, ih.2 ⟨rest, Nat.le_of_succ_le_succ hl⟩]

end Walk

end DocumentTree
