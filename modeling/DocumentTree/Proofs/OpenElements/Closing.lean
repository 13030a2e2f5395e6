import DocumentTree.Proofs.OpenElements.Scope
import Mathlib.Data.List.Infix
/-!
# Closing up to an element

What is closed up to an element of some tags is the entries down to the innermost
such element, and with several tags that is what the nearest of them would have
closed alone (`OpenElements.popUntilOneOf_closesTo`). The search has no eye for the
boundaries of a scope. But where the element was found to be in scope first, the two
walks end at the same entry, and nothing that bounds the scope is closed above it
(`OpenElements.hasElementIn_iff_popUntil`).
-/

namespace DocumentTree

/-- A node is in the tree and an HTML element with one of the tags. -/
def Tree.HasTagIn (t : Tree) (tags : List Tag) (id : NodeId) : Prop :=
  ∃ tag ∈ tags, t.satisfies id (·.isHtmlElement tag) = true

namespace Tree

variable {t : Tree} {tag : Tag} {tags : List Tag} {id : NodeId}

theorem satisfies_isHtmlElementOneOf_iff :
    t.satisfies id (·.isHtmlElementOneOf tags) = true ↔ t.HasTagIn tags id := by
  simp only [HasTagIn, satisfies, Option.any_eq_true, Content.isHtmlElementOneOf, List.any_eq_true]
  constructor
  · rintro ⟨n, hn, tag, htag, helement⟩
    exact ⟨tag, htag, n, hn, helement⟩
  · rintro ⟨tag, htag, n, hn, helement⟩
    exact ⟨n, hn, tag, htag, helement⟩

theorem satisfies_isHtmlElementOneOf_eq_false_iff :
    t.satisfies id (·.isHtmlElementOneOf tags) = false ↔ ¬ t.HasTagIn tags id := by
  rw [← satisfies_isHtmlElementOneOf_iff, Bool.not_eq_true]

theorem hasTagIn_singleton_iff :
    t.HasTagIn [tag] id ↔ t.satisfies id (·.isHtmlElement tag) = true := by
  simp [HasTagIn]

/-- The order of the tags does not matter, nor whether one is repeated. -/
theorem hasTagIn_congr {tags' : List Tag} (h : ∀ tag, tag ∈ tags' ↔ tag ∈ tags) :
    t.HasTagIn tags' id ↔ t.HasTagIn tags id := by
  simp only [HasTagIn, h]

end Tree

namespace OpenElements

variable {s : OpenElements} {t : Tree} {tag : Tag} {tags tags' : List Tag} {scope : Scope}
variable {above below : List NodeId} {found id : NodeId}
variable {isTarget : NodeId → Content → Bool}

/-! ## Cutting at the innermost element -/

/-- The entries are cut at the innermost one that passes a test. -/
structure CutAt (s : OpenElements) (p : NodeId → Prop) (above : List NodeId) (found : NodeId)
    (below : List NodeId) : Prop where
  entries_eq : s.entries = above ++ found :: below
  passes : p found
  above_fail : ∀ id ∈ above, ¬ p id

/-- Where some entry passes a test there is an innermost one. -/
theorem exists_cutAt {p : NodeId → Prop} (h : ∃ id ∈ s, p id) :
    ∃ above found below, s.CutAt p above found below := by
  classical
  obtain ⟨id, hid, hp⟩ := h
  obtain ⟨found, hfind⟩ : ∃ found, s.entries.find? (decide <| p ·) = some found :=
    Option.isSome_iff_exists.1 (List.find?_isSome.2 ⟨id, hid, decide_eq_true hp⟩)
  obtain ⟨hfound, above, below, hentries, habove⟩ := List.find?_eq_some_iff_append.1 hfind
  exact ⟨above, found, below, hentries, of_decide_eq_true hfound, fun id hid => by
    simpa using habove id hid⟩

theorem CutAt.congr {p q : NodeId → Prop} (h : s.CutAt p above found below)
    (hpq : ∀ id, p id ↔ q id) : s.CutAt q above found below :=
  ⟨h.entries_eq, (hpq found).1 h.passes, fun id hid => mt (hpq id).2 (h.above_fail id hid)⟩

/-- **Down to the innermost element of the tags the entries are closed.** -/
theorem CutAt.popUntilOneOf_eq (h : s.CutAt (t.HasTagIn tags) above found below) :
    s.popUntilOneOf t tags = { ids := above ++ [found], rest := { entries := below } } := by
  have hsplit : splitThrough? (fun id => t.satisfies id (·.isHtmlElementOneOf tags)) s.entries =
      some (above ++ [found], below) :=
    splitThrough?_eq_some_iff.2 ⟨above, found, h.entries_eq, rfl,
      Tree.satisfies_isHtmlElementOneOf_iff.2 h.passes,
      fun id hid => Tree.satisfies_isHtmlElementOneOf_eq_false_iff.2 (h.above_fail id hid)⟩
  rw [popUntilOneOf, hsplit]

/-- Where no element of the tags is open, nothing is closed. -/
theorem popUntilOneOf_of_not_open (h : ¬ ∃ id ∈ s, t.HasTagIn tags id) :
    s.popUntilOneOf t tags = { ids := [], rest := s, warning := some (notOpenWarning tags) } := by
  rw [popUntilOneOf]
  split
  · next hsplit =>
    obtain ⟨before, a, hentries, -, ha, -⟩ := splitThrough?_eq_some_iff.1 hsplit
    have hmem : a ∈ s.entries := by simp [hentries]
    exact absurd ⟨a, hmem, Tree.satisfies_isHtmlElementOneOf_iff.1 ha⟩ h
  · rfl

/-- What is closed is closed down to an element of the tags. -/
theorem exists_cutAt_of_ids_ne_nil (h : (s.popUntilOneOf t tags).ids ≠ []) :
    ∃ above found below, s.CutAt (t.HasTagIn tags) above found below := by
  refine exists_cutAt ?_
  by_contra hnone
  rw [popUntilOneOf_of_not_open hnone] at h
  exact h rfl

/-- What is closed and what is left depend on which tags there are in the list. -/
theorem popUntilOneOf_congr (h : ∀ tag, tag ∈ tags' ↔ tag ∈ tags) :
    (s.popUntilOneOf t tags').ids = (s.popUntilOneOf t tags).ids ∧
      (s.popUntilOneOf t tags').rest = (s.popUntilOneOf t tags).rest := by
  have hsame : ∀ id, t.HasTagIn tags id ↔ t.HasTagIn tags' id := fun id =>
    (Tree.hasTagIn_congr h).symm
  by_cases hopen : ∃ id ∈ s, t.HasTagIn tags id
  · obtain ⟨above, found, below, hcut⟩ := exists_cutAt hopen
    rw [hcut.popUntilOneOf_eq, (hcut.congr hsame).popUntilOneOf_eq]
    exact ⟨rfl, rfl⟩
  · have hopen' : ¬ ∃ id ∈ s, t.HasTagIn tags' id := by simpa only [hsame] using hopen
    rw [popUntilOneOf_of_not_open hopen, popUntilOneOf_of_not_open hopen']
    exact ⟨rfl, rfl⟩

/-! ## Several tags and one -/

/-- The nearest of the tags alone would have closed the same. -/
theorem CutAt.exists_popUntil_eq (h : s.CutAt (t.HasTagIn tags) above found below) :
    ∃ tag ∈ tags, (s.popUntil t tag).ids = above ++ [found] := by
  obtain ⟨tag, htag, hfound⟩ := h.passes
  have hcut : s.CutAt (t.HasTagIn [tag]) above found below := by
    refine ⟨h.entries_eq, Tree.hasTagIn_singleton_iff.2 hfound, fun id hid htagged => ?_⟩
    exact h.above_fail id hid ⟨tag, htag, Tree.hasTagIn_singleton_iff.1 htagged⟩
  exact ⟨tag, htag, by rw [popUntil, hcut.popUntilOneOf_eq]⟩

/-- **None of the tags alone would have closed less**: what it closes ends with an element
of the tags, and so not above the innermost one. -/
theorem CutAt.prefix_popUntil (h : s.CutAt (t.HasTagIn tags) above found below)
    (htag : tag ∈ tags) (hne : (s.popUntil t tag).ids ≠ []) :
    above ++ [found] <+: (s.popUntil t tag).ids := by
  obtain ⟨above', found', below', hcut⟩ := exists_cutAt_of_ids_ne_nil hne
  rw [popUntil, hcut.popUntilOneOf_eq]
  have hfound' : t.HasTagIn tags found' :=
    ⟨tag, htag, Tree.hasTagIn_singleton_iff.1 hcut.passes⟩
  -- of two first parts of the entries the shorter one is a first part of the longer one
  have hfirst : above ++ [found] <+: s.entries := ⟨below, by simp [h.entries_eq]⟩
  have hfirst' : above' ++ [found'] <+: s.entries := ⟨below', by simp [hcut.entries_eq]⟩
  rcases List.prefix_or_prefix_of_prefix hfirst hfirst' with hle | hle
  · exact hle
  · rcases List.prefix_concat_iff.1 hle with heq | habove
    · rw [heq]
    · exact absurd hfound' (h.above_fail found' (habove.subset (by simp)))

/-- What is closed up to an element of some tags. -/
structure ClosesTo (s : OpenElements) (t : Tree) (tags : List Tag) (closed : Closed) : Prop where
  /-- No entry is lost: what is left is below what was closed, the current node last. -/
  bottomUp_eq : s.bottomUp = closed.rest.bottomUp ++ closed.ids.reverse
  /-- Of the closed entries just the last one is such an element. -/
  ends_with : (∃ id ∈ s, t.HasTagIn tags id) → ∃ above found,
    closed.ids = above ++ [found] ∧ t.HasTagIn tags found ∧ ∀ id ∈ above, ¬ t.HasTagIn tags id
  /-- Where one is open there is nothing to print. -/
  silent : (∃ id ∈ s, t.HasTagIn tags id) → closed.warning = none
  /-- One of the tags alone would close the same. -/
  attained : (∃ id ∈ s, t.HasTagIn tags id) → ∃ tag ∈ tags, (s.popUntil t tag).ids = closed.ids
  /-- None of the tags alone would close less, if anything. -/
  shortest : ∀ tag ∈ tags, (s.popUntil t tag).ids ≠ [] →
    closed.ids.length ≤ (s.popUntil t tag).ids.length
  /-- Where no such element is open nothing is closed, which is worth a warning. -/
  unchanged : (¬ ∃ id ∈ s, t.HasTagIn tags id) →
    closed = { ids := [], rest := s, warning := some (notOpenWarning tags) }

/-- **Closing splits the open elements at the innermost element of the tags.** Whatever
is open, unknown ids and repeated ones among it, and whatever tags are given: the
entries are parted and none is lost; the last one closed is an HTML element with one
of the tags, the others are not, and none of the tags alone would have closed less;
and without such an element nothing is closed. The tags may be given in any order and
as often as one likes. -/
theorem popUntilOneOf_closesTo (s : OpenElements) (t : Tree) (tags : List Tag) :
    s.ClosesTo t tags (s.popUntilOneOf t tags) ∧
      ∀ tags', (∀ tag, tag ∈ tags' ↔ tag ∈ tags) →
        (s.popUntilOneOf t tags').ids = (s.popUntilOneOf t tags).ids ∧
          (s.popUntilOneOf t tags').rest = (s.popUntilOneOf t tags).rest := by
  refine ⟨?_, fun tags' => popUntilOneOf_congr⟩
  by_cases hopen : ∃ id ∈ s, t.HasTagIn tags id
  · obtain ⟨above, found, below, hcut⟩ := exists_cutAt hopen
    rw [hcut.popUntilOneOf_eq]
    exact {
      bottomUp_eq := by simp [bottomUp, hcut.entries_eq]
      ends_with := fun _ => ⟨above, found, rfl, hcut.passes, hcut.above_fail⟩
      silent := fun _ => rfl
      attained := fun _ => hcut.exists_popUntil_eq
      shortest := fun tag htag hne => (hcut.prefix_popUntil htag hne).length_le
      unchanged := fun hnone => absurd hopen hnone }
  · rw [popUntilOneOf_of_not_open hopen]
    exact {
      bottomUp_eq := by simp
      ends_with := fun h => absurd h hopen
      silent := fun h => absurd h hopen
      attained := fun h => absurd h hopen
      shortest := fun _ _ _ => Nat.zero_le _
      unchanged := fun _ => rfl }

/-- An `h2` and an unknown id are closed above an `h1` that stays open; that there is a
second `h2` further down makes no difference, nor that `h2` is asked for twice. -/
theorem popUntilOneOf_closesTo_nearest :
    let t : Tree := { nodes := #[.detached (.element "h1"), .detached (.element "h2")] }
    let s : OpenElements := { entries := [⟨9⟩, ⟨1⟩, ⟨0⟩, ⟨1⟩] }
    (∃ id ∈ s, t.HasTagIn [.h1, .h2] id) ∧ (s.popUntilOneOf t [.h1, .h2]).warning = none ∧
      (∃ tag ∈ [Tag.h1, .h2], (s.popUntil t tag).ids = [⟨9⟩, ⟨1⟩]) ∧
      (s.popUntilOneOf t [.h2, .h1, .h2]).ids = [⟨9⟩, ⟨1⟩] := by
  intro t s
  obtain ⟨hcloses, hset⟩ := popUntilOneOf_closesTo s t [.h1, .h2]
  have hopen : ∃ id ∈ s, t.HasTagIn [.h1, .h2] id := ⟨⟨1⟩, by decide, .h2, by decide, by decide⟩
  have hids : (s.popUntilOneOf t [.h1, .h2]).ids = [⟨9⟩, ⟨1⟩] := by decide
  refine ⟨hopen, hcloses.silent hopen, ?_, ?_⟩
  · rw [← hids]
    exact hcloses.attained hopen
  · rw [(hset [.h2, .h1, .h2] (by simp [or_comm])).1, hids]

/-! ## Closing what is in scope -/

/-- An entry that passes the test is the innermost one when it is opened. -/
theorem cutAt_push_self {p : NodeId → Prop} (hid : p id) : (s.push id).CutAt p [] id s.entries :=
  ⟨rfl, hid, by simp⟩

/-- One that does not is above it. -/
theorem cutAt_push_iff {p : NodeId → Prop} (hid : ¬ p id) :
    (s.push id).CutAt p above found below ↔
      ∃ above', above = id :: above' ∧ s.CutAt p above' found below := by
  constructor
  · rintro ⟨hentries, hfound, habove⟩
    cases above with
    | nil =>
      obtain rfl : id = found := (List.cons.inj hentries).1
      exact absurd hfound hid
    | cons x above =>
      obtain ⟨rfl, hrest⟩ : id = x ∧ s.entries = above ++ found :: below :=
        List.cons.inj hentries
      exact ⟨above, rfl, hrest, hfound, (List.forall_mem_cons.1 habove).2⟩
  · rintro ⟨above, rfl, hentries, hfound, habove⟩
    exact ⟨congrArg (id :: ·) hentries, hfound, List.forall_mem_cons.2 ⟨hid, habove⟩⟩

/-- **A target is in scope where nothing that bounds the scope is open above the
innermost one.** By induction on the entries, which are the steps of the walk. -/
theorem hasTargetIn_iff_cutAt : s.hasTargetIn t scope isTarget = true ↔
    ∃ above found below,
      s.CutAt (fun id => t.satisfies id (isTarget id) = true) above found below ∧
        ∀ id ∈ above, t.satisfies id scope.isBoundary = false := by
  obtain ⟨entries⟩ := s
  induction entries with
  | nil =>
    constructor
    · intro h
      simp [hasTargetIn] at h
    · rintro ⟨above, found, below, hcut, -⟩
      simpa using hcut.entries_eq
  | cons top rest ih =>
    change (push ⟨rest⟩ top).hasTargetIn t scope isTarget = true ↔
      ∃ above found below,
        (push ⟨rest⟩ top).CutAt (fun id => t.satisfies id (isTarget id) = true) above found below ∧
          ∀ id ∈ above, t.satisfies id scope.isBoundary = false
    rw [hasTargetIn_push]
    by_cases htop : t.satisfies top (isTarget top) = true
    · rw [htop, Bool.true_or]
      exact iff_of_true rfl ⟨[], top, rest, cutAt_push_self htop, by simp⟩
    · rw [Bool.eq_false_iff.2 htop, Bool.false_or, Bool.and_eq_true, ih, Bool.not_eq_true']
      constructor
      · rintro ⟨hbound, above, found, below, hcut, hclear⟩
        exact ⟨top :: above, found, below, (cutAt_push_iff htop).2 ⟨above, rfl, hcut⟩,
          List.forall_mem_cons.2 ⟨hbound, hclear⟩⟩
      · rintro ⟨above, found, below, hcut, hclear⟩
        obtain ⟨above', rfl, hrest⟩ := (cutAt_push_iff htop).1 hcut
        obtain ⟨hbound, hclear⟩ := List.forall_mem_cons.1 hclear
        exact ⟨hbound, above', found, below, hrest, hclear⟩

/-- A scope marker bounds every scope. -/
theorem not_isScopeMarker_of_not_isBoundary (h : t.satisfies id scope.isBoundary = false) :
    t.isScopeMarker id = false := by
  refine Tree.satisfies_eq_false_of_imp (fun c hc => ?_) h
  exact Bool.or_eq_true_iff.2 (.inl hc)

/-- A scope marker is no element. -/
theorem not_isScopeMarker_of_isHtmlElement (h : t.satisfies id (·.isHtmlElement tag) = true) :
    t.isScopeMarker id = false := by
  obtain ⟨n, hn, helement⟩ := (Option.any_eq_true ..).1 h
  have hkind : n.kind = .element := by
    simp only [Content.isHtmlElement, Bool.and_eq_true, decide_eq_true_eq] at helement
    exact helement.1.1
  simp [Tree.isScopeMarker, Tree.satisfies, hn, hkind]

/-- **A guarded pop does not cross a boundary.** An element of a tag is in scope exactly
when closing up to one closes, above the element found, nothing that bounds the scope.
Then there is nothing to warn of, and as scope markers bound every scope, none of them
is closed and as many are open as before. -/
theorem hasElementIn_iff_popUntil (s : OpenElements) (t : Tree) (tag : Tag) (scope : Scope) :
    (s.hasElementIn t tag scope = true ↔ ∃ above found, (s.popUntil t tag).ids = above ++ [found] ∧
        t.satisfies found (·.isHtmlElement tag) = true ∧
        ∀ id ∈ above, t.satisfies id scope.isBoundary = false ∧
          t.satisfies id (·.isHtmlElement tag) = false) ∧
      (s.hasElementIn t tag scope = true → (s.popUntil t tag).warning = none ∧
        (∀ id ∈ (s.popUntil t tag).ids, t.isScopeMarker id = false) ∧
        (s.popUntil t tag).rest.entries.countP t.isScopeMarker =
          s.entries.countP t.isScopeMarker) := by
  have htag : ∀ id, t.satisfies id (·.isHtmlElement tag) = true ↔ t.HasTagIn [tag] id :=
    fun id => Tree.hasTagIn_singleton_iff.symm
  have hguard : s.hasElementIn t tag scope = true ↔ ∃ above found below,
      s.CutAt (fun id => t.satisfies id (·.isHtmlElement tag) = true) above found below ∧
        ∀ id ∈ above, t.satisfies id scope.isBoundary = false :=
    hasTargetIn_iff_cutAt
  refine ⟨hguard.trans ⟨?_, ?_⟩, fun h => ?_⟩
  · rintro ⟨above, found, below, hcut, hclear⟩
    refine ⟨above, found, ?_, hcut.passes, fun id hid => ⟨hclear id hid, ?_⟩⟩
    · rw [popUntil, (hcut.congr htag).popUntilOneOf_eq]
    · exact Bool.eq_false_iff.2 (hcut.above_fail id hid)
  · rintro ⟨above, found, hids, -, habove⟩
    have hne : (s.popUntil t tag).ids ≠ [] := by simp [hids]
    obtain ⟨above', found', below, hcut⟩ := exists_cutAt_of_ids_ne_nil hne
    rw [popUntil, hcut.popUntilOneOf_eq] at hids
    obtain ⟨rfl, -⟩ := List.append_inj' hids rfl
    exact ⟨above', found', below, hcut.congr fun id => (htag id).symm,
      fun id hid => (habove id hid).1⟩
  · obtain ⟨above, found, below, hcut, hclear⟩ := hguard.1 h
    have hnone : ∀ id ∈ above ++ [found], t.isScopeMarker id = false := by
      intro id hid
      rcases List.mem_append.1 hid with hid | hid
      · exact not_isScopeMarker_of_not_isBoundary (hclear id hid)
      · obtain rfl := List.mem_singleton.1 hid
        exact not_isScopeMarker_of_isHtmlElement hcut.passes
    have hcount : (above ++ [found]).countP t.isScopeMarker = 0 :=
      List.countP_eq_zero.2 fun id hid => by simp [hnone id hid]
    have hentries : s.entries = (above ++ [found]) ++ below := by simp [hcut.entries_eq]
    rw [popUntil, (hcut.congr htag).popUntilOneOf_eq, hentries, List.countP_append, hcount,
      Nat.zero_add]
    exact ⟨rfl, hnone, rfl⟩

/-- A table is in table scope though it bounds the scope itself. A `b` and an unknown id
are closed with it, and the marker and the table below that stay open. -/
theorem hasElementIn_iff_popUntil_table :
    let t : Tree := { nodes := #[.detached (.element "table"), .detached (.element "b"),
      .detached .scopeMarker] }
    let s : OpenElements := { entries := [⟨1⟩, ⟨9⟩, ⟨0⟩, ⟨2⟩, ⟨0⟩] }
    s.hasElementIn t .table .table = true ∧
      (∃ above found, (s.popUntil t .table).ids = above ++ [found] ∧
        t.satisfies found (·.isHtmlElement .table) = true ∧
        ∀ id ∈ above, t.satisfies id (Scope.isBoundary .table) = false ∧
          t.satisfies id (·.isHtmlElement .table) = false) ∧
      (s.popUntil t .table).rest.entries.countP t.isScopeMarker = 1 := by
  intro t s
  obtain ⟨hguard, hmarkers⟩ := hasElementIn_iff_popUntil s t .table .table
  have hin : s.hasElementIn t .table .table = true := by decide
  refine ⟨hin, hguard.1 hin, ?_⟩
  rw [(hmarkers hin).2.2]
  decide

end OpenElements

end DocumentTree
