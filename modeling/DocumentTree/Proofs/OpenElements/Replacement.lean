import DocumentTree.Proofs.Call.Frame
import DocumentTree.Proofs.OpenElements.Positions
/-!
# A clone in the place of an open element

Scope walks and closings ask an entry for its content and for nothing else
(`OpenElements.contents`), links and ids included. So two stacks whose entries hold the
same contents, each in its tree, answer alike, and close equally many entries. A clone
holds what its original holds: put in the place of an open element it changes one id
among those that a closing gives back, and no answer
(`OpenElements.replace_clone_unnoticed`).
-/

namespace DocumentTree

/-- A split depends on what the test says of the elements of the list, one after the
other, and not on what they are. -/
theorem splitThrough?_of_map_eq {α β : Type} {p : α → Bool} {q : β → Bool} {l : List α}
    {l' : List β} (h : l'.map q = l.map p) :
    splitThrough? q l' = (splitThrough? p l).map fun (taken, _) =>
      (l'.take taken.length, l'.drop taken.length) := by
  induction l generalizing l' with
  | nil =>
    obtain rfl := List.map_eq_nil_iff.1 h
    rfl
  | cons a l ih =>
    obtain ⟨b, l', rfl, hb, hl⟩ := List.map_eq_cons_iff.1 h
    rw [splitThrough?, splitThrough?, hb, ih hl]
    cases p a with
    | true => rfl
    | false => cases splitThrough? p l <;> rfl

namespace OpenElements

variable {s s' : OpenElements} {t t' : Tree}

/-- What the entries hold, the current node first: nothing for an id that is not in the
tree. -/
def contents (s : OpenElements) (t : Tree) : List (Option Content) := s.entries.map t.content?

/-! ## Stacks that hold the same -/

section SameContents

variable (h : s'.contents t' = s.contents t)

include h

/-- Tests of content come out alike on two stacks that hold the same. -/
theorem map_satisfies_eq (p : Content → Bool) :
    s'.entries.map (t'.satisfies · p) = s.entries.map (t.satisfies · p) := by
  have hread : ∀ (s : OpenElements) (t : Tree),
      s.entries.map (t.satisfies · p) = (s.contents t).map (Option.any p) := fun s t => by
    rw [contents, List.map_map]
    exact List.map_congr_left fun id _ => Tree.satisfies_eq p
  rw [hread, hread, h]

/-- **Walks for an element end alike.** -/
theorem hasElementIn_of_contents_eq (tag : Tag) (scope : Scope) :
    s'.hasElementIn t' tag scope = s.hasElementIn t tag scope := by
  let verdict (c : Content) : Option Bool :=
    if c.isHtmlElement tag then some true else if scope.isBoundary c then some false else none
  have hread : ∀ (s : OpenElements) (t : Tree),
      s.hasElementIn t tag scope = ((s.contents t).findSome? (·.bind verdict)).getD false := by
    intro s t
    have hverdict : (·.bind verdict) ∘ t.content? =
        scope.verdict? t fun _ c => c.isHtmlElement tag := by
      funext id
      rw [Function.comp_apply, Tree.content?, Scope.verdict?]
      cases t.get? id <;> rfl
    rw [hasElementIn, hasTargetIn, contents, List.findSome?_map, hverdict]
  rw [hread, hread, h]

theorem hasMarker_of_contents_eq : s'.hasMarker t' = s.hasMarker t := by
  have hmarkers := congrArg (List.any · id) (map_satisfies_eq h (·.kind = .scopeMarker))
  simp only [List.any_map] at hmarkers
  exact hmarkers

/-- **Equally many entries are closed up to an element.** -/
theorem popUntilOneOf_ids_of_contents_eq (tags : List Tag) :
    (s'.popUntilOneOf t' tags).ids =
      s'.entries.take (s.popUntilOneOf t tags).ids.length := by
  have hsplit := splitThrough?_of_map_eq (map_satisfies_eq h (·.isHtmlElementOneOf tags))
  rw [popUntilOneOf, hsplit, popUntilOneOf]
  cases splitThrough? (fun id => t.satisfies id (·.isHtmlElementOneOf tags)) s.entries <;> rfl

/-- Equally many are closed up to the last marker. -/
theorem clearToLastMarker_ids_of_contents_eq :
    (s'.clearToLastMarker t').ids = s'.entries.take (s.clearToLastMarker t).ids.length := by
  have hsplit := splitThrough?_of_map_eq (p := t.isScopeMarker) (q := t'.isScopeMarker)
    (map_satisfies_eq h (·.kind = .scopeMarker))
  have hlength : s'.entries.length = s.entries.length := by
    simpa [contents] using congrArg List.length h
  rw [clearToLastMarker, hsplit, clearToLastMarker]
  cases splitThrough? t.isScopeMarker s.entries with
  | none => exact (List.take_of_length_le hlength.le).symm
  | some parts => rfl

end SameContents

/-! ## One entry replaced -/

/-- The entry at a depth is another one and holds the same: no answer differs, and what
is closed differs at that depth, if the closing gets there. -/
structure Unnoticed (s : OpenElements) (t : Tree) (s' : OpenElements) (t' : Tree) (depth : Nat)
    (c : NodeId) : Prop where
  hasElementIn_eq : ∀ tag scope, s'.hasElementIn t' tag scope = s.hasElementIn t tag scope
  hasMarker_eq : s'.hasMarker t' = s.hasMarker t
  popUntilOneOf_ids_eq : ∀ tags,
    (s'.popUntilOneOf t' tags).ids = (s.popUntilOneOf t tags).ids.set depth c
  clearToLastMarker_ids_eq : (s'.clearToLastMarker t').ids = (s.clearToLastMarker t).ids.set depth c

theorem unnoticed_of_contents_eq {depth : Nat} {c : NodeId} (h : s'.contents t' = s.contents t)
    (hentries : s'.entries = s.entries.set depth c) : s.Unnoticed t s' t' depth c where
  hasElementIn_eq := hasElementIn_of_contents_eq h
  hasMarker_eq := hasMarker_of_contents_eq h
  popUntilOneOf_ids_eq tags := by
    rw [popUntilOneOf_ids_of_contents_eq h, hentries, List.take_set,
      ← popUntilOneOf_ids_of_contents_eq rfl]
  clearToLastMarker_ids_eq := by
    rw [clearToLastMarker_ids_of_contents_eq h, hentries, List.take_set,
      ← clearToLastMarker_ids_of_contents_eq rfl]

/-- An entry that is replaced is the innermost one of its id. -/
theorem exists_replace? {x : NodeId} (hx : x ∈ s) (c : NodeId) :
    ∃ above below, s.entries = above ++ x :: below ∧ x ∉ above ∧
      s.replace? x c = some { entries := above ++ c :: below } := by
  obtain ⟨above, below, hcut⟩ := exists_cutAt_of_mem hx
  exact ⟨above, below, hcut.entries_eq, hcut.not_mem_above, hcut.replace?_eq c⟩

/-- **A clone takes the place of an open element unnoticed.** Clone any entry of a stack
whose entries are all in the tree, and replace it by the clone: that succeeds, the clone
is a node the tree did not have, and the innermost occurrence of the entry is the one
replaced. Then an element is in a scope as before, and a marker is open if one was. As
many entries are closed up to an element of any tags, and up to the last marker, and they
are the same but for the clone. -/
theorem replace_clone_unnoticed {x : NodeId} (hmem : ∀ id ∈ s, id ∈ t) (hx : x ∈ s) :
    ∃ c t' above below, t.cloneNode x = .ok (c, t') ∧ c ∉ t ∧ s.entries = above ++ x :: below ∧
      x ∉ above ∧ s.replace? x c = some { entries := above ++ c :: below } ∧
      s.Unnoticed t { entries := above ++ c :: below } t' above.length c := by
  obtain ⟨n, hn, hclone⟩ := Tree.exists_cloneNode (hmem x hx)
  obtain ⟨above, below, hentries, hnot, hreplace⟩ := exists_replace? hx (t.alloc n).1
  have hset : above ++ (t.alloc n).1 :: below = s.entries.set above.length (t.alloc n).1 := by
    simp [hentries]
  -- the others hold what they held, and the clone what its original holds
  have hold : s.entries.map (t.alloc n).2.content? = s.entries.map t.content? :=
    List.map_congr_left fun id hid => Tree.content?_alloc_of_mem (hmem id hid) n
  have hnew : (t.alloc n).2.content? (t.alloc n).1 = (t.alloc n).2.content? x := by
    rw [Tree.content?_alloc_of_mem (hmem x hx), Tree.content?_alloc, if_pos rfl, Tree.content?, hn,
      Option.map_some]
  have hcontents : contents { entries := above ++ (t.alloc n).1 :: below } (t.alloc n).2 =
      s.contents t := by
    rw [contents, contents, ← hold, hentries, List.map_append, List.map_append, List.map_cons,
      List.map_cons, hnew]
  exact ⟨_, _, above, below, hclone, fun hc => Tree.ne_alloc_of_mem hc n rfl, hentries, hnot,
    hreplace, unnoticed_of_contents_eq hcontents hset⟩

/-- A `b` is open twice, and above the marker once: there the clone takes its place, and is
closed with the `p` below it and with the marker. -/
theorem replace_clone_unnoticed_innermost :
    let t : Tree := { nodes := #[.detached (.element "b"), .detached (.element "p"),
      .detached .scopeMarker] }
    let s : OpenElements := { entries := [⟨0⟩, ⟨1⟩, ⟨2⟩, ⟨0⟩] }
    (∀ id ∈ s, id ∈ t) ∧ ⟨0⟩ ∈ s ∧ ∃ t', t.cloneNode ⟨0⟩ = .ok (⟨3⟩, t') ∧
      s.replace? ⟨0⟩ ⟨3⟩ = some { entries := [⟨3⟩, ⟨1⟩, ⟨2⟩, ⟨0⟩] } ∧
      hasElementIn { entries := [⟨3⟩, ⟨1⟩, ⟨2⟩, ⟨0⟩] } t' .b .default = true ∧
      (popUntil { entries := [⟨3⟩, ⟨1⟩, ⟨2⟩, ⟨0⟩] } t' .p).ids = [⟨3⟩, ⟨1⟩] ∧
      (clearToLastMarker { entries := [⟨3⟩, ⟨1⟩, ⟨2⟩, ⟨0⟩] } t').ids = [⟨3⟩, ⟨1⟩, ⟨2⟩] := by
  intro t s
  have hmem : ∀ id ∈ s, id ∈ t := by decide
  have hx : (⟨0⟩ : NodeId) ∈ s := by decide
  obtain ⟨c, t', above, below, hclone, -, hentries, hnot, hreplace, hsame⟩ :=
    replace_clone_unnoticed hmem hx
  obtain ⟨rfl, rfl⟩ := Prod.mk.inj (Except.ok.inj hclone)
  obtain rfl : above = [] := by
    cases above with
    | nil => rfl
    | cons a above =>
      obtain rfl : ⟨0⟩ = a := (List.cons.inj hentries).1
      simp at hnot
  obtain rfl : [⟨1⟩, ⟨2⟩, ⟨0⟩] = below := (List.cons.inj hentries).2
  refine ⟨hmem, hx, _, hclone, hreplace, ?_, ?_, ?_⟩
  · exact (hsame.hasElementIn_eq .b .default).trans (by decide)
  · exact (hsame.popUntilOneOf_ids_eq [.p]).trans (by decide)
  · exact hsame.clearToLastMarker_ids_eq.trans (by decide)

end OpenElements

end DocumentTree
