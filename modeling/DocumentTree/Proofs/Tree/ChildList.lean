import DocumentTree.Proofs.Tree.Check
/-!
# Child lists read from both ends

Requests at the two ends of a list are answered from the outside in: what has been
given at the front is the first part of the list, what has been given at the back
the last part in reverse, and nothing is refused while something is left between
the two (`Reads`). A list that is held answers like this (`reads_readEnds`), and so
does the cursor over the children of a node, which has the links only
(`Tree.Consistent.childCursor_reads`).
-/

namespace DocumentTree

variable {α : Type} {l : List α} {x : α} {e e' : End} {requests : List End}
variable {answers : List (Option α)}

/-! ## Answers at the ends of a list -/

/-- What the requests at one end were given, in order. -/
def givenAt (e : End) (requests : List End) (answers : List (Option α)) : List α :=
  (requests.zip answers).filterMap fun (e', a) => if e' = e then a else none

/-- The answers take a list apart from its ends, and stop when it is used up. -/
structure Reads (l : List α) (requests : List End) (answers : List (Option α)) : Prop where
  length_eq : answers.length = requests.length
  parts : ∃ rest,
    l = givenAt .front requests answers ++ rest ++ (givenAt .back requests answers).reverse ∧
      (none ∈ answers → rest = [])
  used_up : ∀ before after, answers = before ++ none :: after → ∀ a ∈ after, a = none

theorem givenAt_cons_some :
    givenAt e (e' :: requests) (some x :: answers) =
      if e' = e then x :: givenAt e requests answers else givenAt e requests answers := by
  by_cases h : e' = e <;> simp [givenAt, h]

/-- Where all is refused nothing is given. -/
theorem givenAt_eq_nil (h : ∀ a ∈ answers, a = none) : givenAt e requests answers = [] := by
  refine List.filterMap_eq_nil_iff.2 fun (e', a) hmem => ?_
  obtain rfl := h a (List.of_mem_zip hmem).2
  exact ite_self none

/-- A refusal does not come between an answer and the ones after it. -/
theorem Reads.used_up_cons_some (h : Reads l requests answers) (before after : List (Option α))
    (hcut : some x :: answers = before ++ none :: after) : ∀ a ∈ after, a = none := by
  cases before with
  | nil => cases (List.cons.inj hcut).1
  | cons _ before => exact h.used_up before after (List.cons.inj hcut).2

/-- From a list that is used up come refusals only. -/
theorem reads_nil (h : answers.length = requests.length) (hnone : ∀ a ∈ answers, a = none) :
    Reads ([] : List α) requests answers where
  length_eq := h
  parts := ⟨[], by simp [givenAt_eq_nil hnone], fun _ => rfl⟩
  used_up before after hcut a ha := hnone a (by simp [hcut, ha])

/-- A request at the front is answered with the first element, and those after it take the
rest of the list apart. -/
theorem Reads.cons_front (h : Reads l requests answers) :
    Reads (x :: l) (.front :: requests) (some x :: answers) where
  length_eq := congrArg (· + 1) h.length_eq
  parts := by
    obtain ⟨rest, hl, hrest⟩ := h.parts
    refine ⟨rest, ?_, fun hnone => hrest (by simpa using hnone)⟩
    rw [givenAt_cons_some, givenAt_cons_some, if_pos rfl, if_neg (by decide)]
    simpa using hl
  used_up := h.used_up_cons_some

/-- A request at the back is answered with the last element, and those after it take apart
what is in front of it. -/
theorem Reads.cons_back (h : Reads l requests answers) :
    Reads (l ++ [x]) (.back :: requests) (some x :: answers) where
  length_eq := congrArg (· + 1) h.length_eq
  parts := by
    obtain ⟨rest, hl, hrest⟩ := h.parts
    refine ⟨rest, ?_, fun hnone => hrest (by simpa using hnone)⟩
    rw [givenAt_cons_some, givenAt_cons_some, if_pos rfl, if_neg (by decide), List.reverse_cons,
      ← List.append_assoc, ← hl]
  used_up := h.used_up_cons_some

theorem readEnds_nil : readEnds ([] : List α) requests = .replicate requests.length none := by
  induction requests with
  | nil => rfl
  | cons e requests ih => cases e <;> exact congrArg (none :: ·) ih

/-- **A list is read from the outside in**, whichever ends are asked. -/
theorem reads_readEnds (l : List α) (requests : List End) :
    Reads l requests (readEnds l requests) := by
  induction requests generalizing l with
  | nil => exact ⟨rfl, ⟨l, by simp [givenAt, readEnds]⟩, by simp [readEnds]⟩
  | cons e requests ih =>
    by_cases hl : l = []
    · subst hl
      rw [readEnds_nil]
      exact reads_nil List.length_replicate fun a ha => List.eq_of_mem_replicate ha
    · cases e with
      | front =>
        obtain ⟨x, l, rfl⟩ := List.exists_cons_of_ne_nil hl
        exact (ih l).cons_front
      | back =>
        obtain ⟨l, x, rfl⟩ := (List.eq_nil_or_concat' l).resolve_left hl
        rw [readEnds, List.getLast?_concat, List.dropLast_concat]
        exact (ih l).cons_back

/-! ## Children -/

namespace Tree

variable {t : Tree} {F : Forest} {p x : NodeId} {front back : List NodeId}

/-- Back from a child go the ones before it, nearest first. -/
theorem Shows.preceding (h : t.Shows F) (hF : F.WellFormed)
    (hcut : F.children p = front ++ x :: back) : (t.precedingWalk x).Yields front.reverse := by
  have hwalk := h.backward hF p
  have hrev : (F.children p).reverse = back.reverse ++ x :: front.reverse := by simp [hcut]
  rw [hrev] at hwalk
  exact hwalk.after

/-- **The children of a node can be read from both ends.** Where links agree there
is one list of the nodes whose parent a node is, in order and each of them once. In
whatever order requests at its two ends are made, the cursor over the children takes
this list apart: given are a first and a last part of it, the two together all of it
once a request is refused, and every request after that is refused too. And the
siblings before one of the children are those before it in the list, nearest
first. -/
theorem Consistent.childCursor_reads (h : t.Consistent) (p : NodeId) :
    ∃ l, (t.forwardWalk p).Yields l ∧ l.Nodup ∧ (∀ c, c ∈ l ↔ t.parent? c = some p) ∧
      (∀ requests, Reads l requests ((t.childCursor p).readEnds t requests)) ∧
      ∀ front x back, l = front ++ x :: back →
        (t.precedingWalk x).Yields front.reverse ∧ t.precedingSiblings x = front.reverse := by
  obtain ⟨F, hF, hshows⟩ := h.exists_shows
  refine ⟨F.children p, hshows.forward hF p, hF.nodup_children p, fun c => ?_, fun requests => ?_,
    fun front x back hcut => ?_⟩
  · rw [hF.mem_children, hshows.parent_eq]
  · rw [hshows.childCursor_eq, ChildCursor.readEnds_spanning (hshows.chained hF p).whole]
    exact reads_readEnds _ _
  · have hwalk := hshows.preceding hF hcut
    have hlen : front.reverse.length ≤ t.walkBound := by
      have := hshows.length_children_le hF p
      rw [hcut, List.length_append] at this
      rw [List.length_reverse]
      omega
    exact ⟨hwalk, hwalk.take_eq hlen⟩

/-- Two children, read from the back and then from the front until there are none
left. -/
theorem Consistent.childCursor_reads_sample :
    sample.Consistent ∧
      (sample.childCursor .root).readEnds sample [.back, .front, .front] =
        [some ⟨2⟩, some ⟨1⟩, none] ∧
      Reads [⟨1⟩, ⟨2⟩] [.back, .front, .front] [some (⟨2⟩ : NodeId), some ⟨1⟩, none] ∧
      sample.precedingSiblings ⟨2⟩ = [⟨1⟩] := by
  obtain ⟨l, hl, -, -, hreads, hbefore⟩ := consistent_sample.childCursor_reads .root
  obtain rfl : l = [⟨1⟩, ⟨2⟩] := hl.unique (.step rfl (.step rfl (.done rfl)))
  exact ⟨consistent_sample, rfl, hreads [.back, .front, .front], (hbefore [⟨1⟩] ⟨2⟩ [] rfl).2⟩

end Tree

end DocumentTree
