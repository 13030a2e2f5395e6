import DocumentTree.Proofs.Tree.Shows
import DocumentTree.Tree.Check
/-!
# What the check finds

The check reads walks that are cut off at the size of the arena, keeps one
note per node, and stops at the first defect. None of that costs it
anything: a defect it names is one of the unbounded walks
(`Tree.holds_of_check`), and where it names none the links agree
(`Tree.consistent_of_check`). The notes can be overwritten only by a second
parent listing the same child, and that parent is refused.
-/

namespace DocumentTree

/-- What a defect says of an arena, in terms of unbounded walks. -/
def Defect.Holds (t : Tree) : Defect → Prop
  | .danglingLink n target => (∃ l, t.links? n = some l ∧ target ∈ l.targets) ∧ target ∉ t
  | .siblingMismatch p =>
    ¬ ∃ l, (t.forwardWalk p).Yields l ∧ (t.backwardWalk p).Yields l.reverse
  | .parentMismatch p c => (t.forwardWalk p).Reaches c ∧ t.parent? c ≠ some p
  | .unlisted p c => t.parent? c = some p ∧ ¬ (t.forwardWalk p).Reaches c
  | .orphanSibling n =>
    t.parent? n = none ∧ ¬ (t.prevSibling? n = none ∧ t.nextSibling? n = none)
  | .cycle n => (t.ancestorWalk n).Reaches n
  | .markerPayload n =>
    ∃ node, t.get? n = some node ∧ node.kind = .scopeMarker ∧
      ¬ (node.data = "" ∧ node.attributes = [])

namespace Tree

variable {t : Tree} {p c id : NodeId} {l : List NodeId} {n : Node} {d : Defect}

/-! ## One node by itself -/

/-- The slot of a node passes: its links stay in the arena, it is no marker
with a payload, and it has siblings only with a parent. -/
structure SlotPasses (t : Tree) (id : NodeId) (n : Node) : Prop where
  links_mem : ∀ target ∈ n.links.targets, target ∈ t
  payload : n.kind = .scopeMarker → n.data = "" ∧ n.attributes = []
  orphan : n.links.parent = none → n.links.prevSibling = none ∧ n.links.nextSibling = none

theorem links?_of_get? (h : t.get? id = some n) : t.links? id = some n.links := by
  rw [links?, h, Option.map_some]

theorem slotPasses_of_slotDefect? (h : t.slotDefect? id n = none) : t.SlotPasses id n := by
  rw [slotDefect?, Option.orElse_eq_none, Option.orElse_eq_none] at h
  obtain ⟨hdangling, hpayload, horphan⟩ := h
  refine ⟨fun target htarget => ?_, fun hkind => ?_, fun hparent => ?_⟩
  · simpa using List.find?_eq_none.1 (Option.map_eq_none_iff.1 hdangling) target htarget
  · by_contra hne
    simp [payloadDefect?, hkind, hne] at hpayload
  · by_contra hne
    have hlinked : ¬ n.links.isDetached = true := by
      simpa [Links.isDetached, hparent, and_assoc] using hne
    simp [orphanDefect?, hparent, hlinked] at horphan

theorem holds_of_slotDefect? (hn : t.get? id = some n) (h : t.slotDefect? id n = some d) :
    d.Holds t := by
  have hl := links?_of_get? hn
  rw [slotDefect?, Option.orElse_eq_some, Option.orElse_eq_some] at h
  rcases h with h | ⟨-, h | ⟨-, h⟩⟩
  · obtain ⟨target, hfind, rfl⟩ := Option.map_eq_some_iff.1 h
    have hout : target ∉ t := by simpa using List.find?_some hfind
    exact ⟨⟨n.links, hl, List.mem_of_find?_eq_some hfind⟩, hout⟩
  · rw [payloadDefect?, Option.ite_none_right_eq_some] at h
    obtain ⟨hpayload, hd⟩ := h
    obtain rfl := Option.some.inj hd
    exact ⟨n, hn, hpayload⟩
  · rw [orphanDefect?, Option.ite_none_right_eq_some] at h
    obtain ⟨⟨hparent, hlinked⟩, hd⟩ := h
    obtain rfl := Option.some.inj hd
    refine ⟨(parent?_of_links? hl).trans hparent, ?_⟩
    rw [prevSibling?_of_links? hl, nextSibling?_of_links? hl]
    simpa [Links.isDetached, hparent, and_assoc] using hlinked

/-! ## Child lists -/

/-- The child list of a node as the check reads it. -/
def listed (t : Tree) (p : NodeId) : List NodeId := (t.childList? p).getD []

theorem childList?_eq_some_iff :
    t.childList? p = some l ↔
      (t.forwardWalk p).Yields l ∧ (t.backwardWalk p).Yields l.reverse ∧ l.length ≤ t.size := by
  constructor
  · intro h
    obtain ⟨forward, hforward, h⟩ := Option.bind_eq_some_iff.1 h
    obtain ⟨backward, hbackward, h⟩ := Option.bind_eq_some_iff.1 h
    obtain ⟨rfl, hl⟩ := Option.ite_none_right_eq_some.1 h
    obtain rfl := Option.some.inj hl
    obtain ⟨hf, hlen⟩ := Walk.complete?_eq_some_iff.1 hforward
    rw [List.reverse_reverse]
    exact ⟨hf, (Walk.complete?_eq_some_iff.1 hbackward).1, hlen⟩
  · rintro ⟨hf, hb, hlen⟩
    have hforward := Walk.complete?_eq_some_iff.2 ⟨hf, hlen⟩
    have hbackward : (t.backwardWalk p).complete? t.size = some l.reverse :=
      Walk.complete?_eq_some_iff.2 ⟨hb, by rwa [List.length_reverse]⟩
    simp [childList?, hforward, hbackward]

/-- **The bound rejects no good list.** A list that reads the same both ways
stays in the arena: past an id outside nothing follows, so it would be the
last child. -/
theorem childList?_of_yields (hn : t.get? p = some n) (hslot : t.SlotPasses p n)
    (hf : (t.forwardWalk p).Yields l) (hb : (t.backwardWalk p).Yields l.reverse) :
    t.childList? p = some l := by
  refine childList?_eq_some_iff.2 ⟨hf, hb, length_le_of_yields hf fun x hx => ?_⟩
  by_contra hout
  have hnext : t.nextSibling? x = none := by
    rw [nextSibling?, links?_eq_none_of_not_mem hout, Option.bind_none]
  have hlast : t.lastChild? p = some x := by
    rw [← getLast?_of_follower_eq_none hf.nodup hx ((hf.next_eq hx).symm.trans hnext),
      ← List.head?_reverse]
    exact hb.start_eq
  rw [lastChild?_of_links? (links?_of_get? hn)] at hlast
  exact hout (hslot.links_mem x (mem_targets_iff.2 (.inr (.inr (.inl hlast)))))

/-! ## The first pass -/

/-- What the first pass asks of a node: its slot, a list that reads the same
both ways, and children that name it. -/
structure Passes (t : Tree) (p : NodeId) : Prop where
  slot : ∀ n, t.get? p = some n → t.SlotPasses p n
  list : t.childList? p = some (t.listed p)
  parent_eq : ∀ c ∈ t.listed p, t.parent? c = some p

variable {found found' : Listing t}

theorem listChild_of_parent (h : t.parent? c = some p) :
    t.listChild p found c = .ok (found.set c.index (some p) (mem_of_parent? h)) := by
  rw [listChild, dif_pos h]

/-- Listing notes the parent at each child and nowhere else. -/
theorem note_of_foldlM (h : l.foldlM (t.listChild p) found = .ok found') :
    (∀ c ∈ l, t.parent? c = some p) ∧ ∀ id : NodeId,
      found'[id.index]? = if id ∈ l then some (some p) else found[id.index]? := by
  induction l generalizing found with
  | nil =>
    obtain rfl := Except.ok.inj h
    simp
  | cons c l ih =>
    rw [List.foldlM_cons] at h
    by_cases hc : t.parent? c = some p
    · rw [listChild_of_parent hc] at h
      obtain ⟨hl, hnote⟩ := ih h
      refine ⟨List.forall_mem_cons.2 ⟨hc, hl⟩, fun id => ?_⟩
      rw [hnote, Vector.getElem?_set]
      obtain ⟨i⟩ := id
      obtain ⟨j⟩ := c
      by_cases hij : j = i
      · simp [hij]
      · simp [hij, Ne.symm hij]
    · rw [listChild, dif_neg hc] at h
      cases h

theorem mismatch_of_foldlM (h : l.foldlM (t.listChild p) found = .error d) :
    ∃ c ∈ l, t.parent? c ≠ some p ∧ d = .parentMismatch p c := by
  induction l generalizing found with
  | nil => cases h
  | cons c l ih =>
    rw [List.foldlM_cons] at h
    by_cases hc : t.parent? c = some p
    · rw [listChild_of_parent hc] at h
      obtain ⟨c', hc', hne⟩ := ih h
      exact ⟨c', List.mem_cons_of_mem _ hc', hne⟩
    · rw [listChild, dif_neg hc] at h
      exact ⟨c, List.mem_cons_self .., hc, (Except.error.inj h).symm⟩

theorem passes_of_listChildren (h : t.listChildren found p = .ok found') :
    t.Passes p ∧ ∀ id : NodeId,
      found'[id.index]? = if id ∈ t.listed p then some (some p) else found[id.index]? := by
  rw [listChildren] at h
  split at h
  · cases h
  · next hslot =>
    split at h
    · cases h
    · next l hl =>
      have hlist : t.listed p = l := by rw [listed, hl, Option.getD_some]
      obtain ⟨hparent, hnote⟩ := note_of_foldlM h
      rw [hlist]
      refine ⟨⟨fun n hn => slotPasses_of_slotDefect? ?_, by rw [hlist, hl], by rwa [hlist]⟩, hnote⟩
      rwa [hn, Option.bind_some] at hslot

theorem holds_of_listChildren (hp : p ∈ t) (h : t.listChildren found p = .error d) :
    d.Holds t := by
  obtain ⟨n, hn⟩ := mem_iff_get?.1 hp
  rw [listChildren, hn, Option.bind_some] at h
  split at h
  · next hslot =>
    obtain rfl := Except.error.inj h
    exact holds_of_slotDefect? hn hslot
  · next hslot =>
    split at h
    · next hlist =>
      obtain rfl := Except.error.inj h
      rintro ⟨l, hf, hb⟩
      rw [childList?_of_yields hn (slotPasses_of_slotDefect? hslot) hf hb] at hlist
      cases hlist
    · next l hlist =>
      obtain ⟨c, hc, hparent, rfl⟩ := mismatch_of_foldlM h
      exact ⟨(childList?_eq_some_iff.1 hlist).1.reaches_iff.2 hc, hparent⟩

/-- The notes taken over some nodes. A node is noted under the parent it
names exactly if that parent was among them and lists it. -/
def Noted (t : Tree) (found : Listing t) (ps : List NodeId) : Prop :=
  ∀ id p, t.parent? id = some p → (found[id.index]? = some (some p) ↔ p ∈ ps ∧ id ∈ t.listed p)

/-- **No note is lost**: what would overwrite it is another parent listing
the same child, and the child names only one. -/
theorem noted_of_foldlM {ids done : List NodeId} (hd : t.Noted found done)
    (h : ids.foldlM t.listChildren found = .ok found') :
    (∀ p ∈ ids, t.Passes p) ∧ t.Noted found' (done ++ ids) := by
  induction ids generalizing found done with
  | nil =>
    obtain rfl := Except.ok.inj h
    simpa using hd
  | cons q ids ih =>
    rw [List.foldlM_cons] at h
    cases hq : t.listChildren found q with
    | error d =>
      rw [hq] at h
      cases h
    | ok mid =>
      rw [hq] at h
      obtain ⟨hpass, hnote⟩ := passes_of_listChildren hq
      have hmid : t.Noted mid (done ++ [q]) := by
        intro id p hp
        rw [hnote]
        by_cases hid : id ∈ t.listed q
        · -- what `q` lists names `q`, so no other parent has noted it
          obtain rfl : q = p := Option.some.inj ((hpass.parent_eq id hid).symm.trans hp)
          simp [hid]
        · have hpq : id ∈ t.listed p → p ≠ q := fun hmem he => hid (he ▸ hmem)
          rw [if_neg hid, hd id p hp, List.mem_append, List.mem_singleton]
          exact ⟨fun ⟨hmem, hl⟩ => ⟨.inl hmem, hl⟩,
            fun ⟨hmem, hl⟩ => ⟨hmem.resolve_right (hpq hl), hl⟩⟩
      obtain ⟨hrest, hnoted⟩ := ih hmid h
      rw [List.append_assoc, List.singleton_append] at hnoted
      exact ⟨List.forall_mem_cons.2 ⟨hpass, hrest⟩, hnoted⟩

theorem exists_of_foldlM_eq_error {ids : List NodeId}
    (h : ids.foldlM t.listChildren found = .error d) :
    ∃ p ∈ ids, ∃ found, t.listChildren found p = .error d := by
  induction ids generalizing found with
  | nil => cases h
  | cons p ids ih =>
    rw [List.foldlM_cons] at h
    cases hp : t.listChildren found p with
    | error d' =>
      rw [hp] at h
      obtain rfl := Except.error.inj h
      exact ⟨p, List.mem_cons_self .., found, hp⟩
    | ok mid =>
      rw [hp] at h
      obtain ⟨q, hq, hd⟩ := ih h
      exact ⟨q, List.mem_cons_of_mem _ hq, hd⟩

@[simp] theorem mem_nodeIds : id ∈ t.nodeIds ↔ id ∈ t := by
  obtain ⟨i⟩ := id
  simp [nodeIds, mem_iff_lt]

theorem noted_of_listing (h : t.listing = .ok found) :
    (∀ p ∈ t, t.Passes p) ∧ t.Noted found t.nodeIds := by
  have hnone : t.Noted (Vector.replicate t.size none) [] := by
    intro id p _
    simp [Vector.getElem?_replicate]
  obtain ⟨hpass, hnoted⟩ := noted_of_foldlM hnone h
  exact ⟨fun p hp => hpass p (mem_nodeIds.2 hp), hnoted⟩

theorem holds_of_listing (h : t.listing = .error d) : d.Holds t := by
  obtain ⟨p, hp, found, hd⟩ := exists_of_foldlM_eq_error h
  exact holds_of_listChildren (mem_nodeIds.1 hp) hd

theorem Passes.forward (h : t.Passes p) : (t.forwardWalk p).Yields (t.listed p) :=
  (childList?_eq_some_iff.1 h.list).1

/-- A node outside the arena has an empty list, which reads the same both
ways. -/
theorem yields_nil_of_not_mem (hp : p ∉ t) :
    (t.forwardWalk p).Yields [] ∧ (t.backwardWalk p).Yields [] := by
  have hl := links?_eq_none_of_not_mem hp
  exact ⟨.done (by simp [forwardWalk, firstChild?, hl]),
    .done (by simp [backwardWalk, lastChild?, hl])⟩

/-- A node outside the arena lists nothing. -/
theorem mem_of_reaches_forwardWalk (h : (t.forwardWalk p).Reaches c) : p ∈ t := by
  by_contra hp
  simpa using (yields_nil_of_not_mem hp).1.reaches_iff.1 h

/-- **After the first pass a note says that the parent lists the node.** -/
theorem noted_iff_reaches (h : t.listing = .ok found) (hp : t.parent? id = some p) :
    found[id.index]? = some (some p) ↔ (t.forwardWalk p).Reaches id := by
  obtain ⟨hpass, hnoted⟩ := noted_of_listing h
  rw [hnoted id p hp, mem_nodeIds]
  constructor
  · rintro ⟨hpt, hid⟩
    exact (hpass p hpt).forward.reaches_iff.2 hid
  · intro hr
    have hpt := mem_of_reaches_forwardWalk hr
    exact ⟨hpt, (hpass p hpt).forward.reaches_iff.1 hr⟩

/-! ## The second pass -/

/-- **A defect that is named is there.** -/
theorem holds_of_check (h : t.check = .error d) : d.Holds t := by
  unfold check at h
  cases hlisting : t.listing with
  | error d' =>
    rw [hlisting] at h
    obtain rfl := Except.error.inj h
    exact holds_of_listing hlisting
  | ok found =>
    simp only [hlisting, bind, Except.bind] at h
    split at h
    · next d' hfind =>
      obtain rfl := Except.error.inj h
      obtain ⟨id, -, hd⟩ := List.exists_of_findSome?_eq_some hfind
      rw [parentDefect?, Option.orElse_eq_some] at hd
      rcases hd with hd | ⟨-, hd⟩
      · obtain ⟨p, hp, hd⟩ := Option.bind_eq_some_iff.1 hd
        rw [Option.ite_none_left_eq_some, noted_iff_reaches hlisting hp] at hd
        obtain ⟨hnot, hd⟩ := hd
        obtain rfl := Option.some.inj hd
        exact ⟨hp, hnot⟩
      · rw [cycleDefect?, Option.ite_none_right_eq_some] at hd
        obtain ⟨hmem, hd⟩ := hd
        obtain rfl := Option.some.inj hd
        exact Walk.reaches_of_mem_take hmem
    · cases h

/-- What is left when no defect has been named. -/
theorem passes_of_check (h : t.check = .ok ()) :
    (∀ p ∈ t, t.Passes p) ∧
      (∀ id p, t.parent? id = some p → (t.forwardWalk p).Reaches id) ∧
        ∀ id ∈ t, id ∉ (t.ancestorWalk id).take t.size := by
  unfold check at h
  cases hlisting : t.listing with
  | error d =>
    rw [hlisting] at h
    cases h
  | ok found =>
    simp only [hlisting, bind, Except.bind] at h
    split at h
    · cases h
    · next hfind =>
      have hnone : ∀ id ∈ t, t.unlistedDefect? found id = none ∧ t.cycleDefect? id = none := by
        intro id hid
        rw [← Option.orElse_eq_none]
        exact List.findSome?_eq_none_iff.1 hfind id (mem_nodeIds.2 hid)
      refine ⟨(noted_of_listing hlisting).1, fun id p hp => ?_, fun id hid hmem => ?_⟩
      · obtain ⟨hunlisted, -⟩ := hnone id (mem_of_parent? hp)
        by_contra hnot
        rw [unlistedDefect?, hp, Option.bind_some,
          if_neg (mt (noted_iff_reaches hlisting hp).1 hnot)] at hunlisted
        cases hunlisted
      · obtain ⟨-, hcycle⟩ := hnone id hid
        simp [cycleDefect?, hmem] at hcycle

/-! ## Agreement -/

/-- No scope marker carries data or attributes. -/
def MarkersEmpty (t : Tree) : Prop :=
  ∀ id n, t.get? id = some n → n.kind = .scopeMarker → n.data = "" ∧ n.attributes = []

/-- **Where no defect is named the links agree.** A way up that comes back
does so within as many steps as there are nodes, whatever loops it meets on
the way. -/
theorem consistent_of_check (h : t.check = .ok ()) : t.Consistent ∧ t.MarkersEmpty := by
  obtain ⟨hpass, hlisted, hcycle⟩ := passes_of_check h
  have hslot : ∀ id n, t.get? id = some n → t.SlotPasses id n := fun id n hn =>
    (hpass id (mem_iff_get?.2 ⟨n, hn⟩)).slot n hn
  have hmem : ∀ id l, t.links? id = some l → ∀ target ∈ l.targets, target ∈ t := by
    intro id l hl
    obtain ⟨n, hn, rfl⟩ := Option.map_eq_some_iff.1 hl
    exact (hslot id n hn).links_mem
  refine ⟨⟨hmem, fun p => ?_, fun p c => ⟨fun hr => ?_, hlisted c p⟩, fun id hid => ?_,
    fun id hr => ?_⟩, fun id n hn => (hslot id n hn).payload⟩
  · by_cases hp : p ∈ t
    · obtain ⟨hf, hb, -⟩ := childList?_eq_some_iff.1 (hpass p hp).list
      exact ⟨t.listed p, hf, hb⟩
    · exact ⟨[], yields_nil_of_not_mem hp⟩
  · have hp := hpass p (mem_of_reaches_forwardWalk hr)
    exact hp.parent_eq c (hp.forward.reaches_iff.1 hr)
  · by_cases hidt : id ∈ t
    · obtain ⟨n, hn⟩ := mem_iff_get?.1 hidt
      have hl := links?_of_get? hn
      rw [prevSibling?_of_links? hl, nextSibling?_of_links? hl]
      rw [parent?_of_links? hl] at hid
      exact (hslot id n hn).orphan hid
    · have hl := links?_eq_none_of_not_mem hidt
      simp [prevSibling?, nextSibling?, hl]
  · -- the way up stays in the arena, where `t.size` steps show whatever it reaches
    have hparent : ∀ a, (t.ancestorWalk id).Reaches a → a ∈ t := by
      intro a ha
      obtain ⟨b, -, hb⟩ := Relation.TransGen.tail'_iff.1 (Walk.reaches_iff_transGen.1 ha)
      exact parent_mem hmem hb
    exact hcycle id (hparent id hr)
      (Walk.mem_take_of_reaches (fun a ha => mem_ids.2 (hparent a ha)) hr card_ids.le)

/-- A defect of links that agree is one of content. -/
theorem Consistent.eq_markerPayload (h : t.Consistent) (hd : d.Holds t) :
    ∃ id, d = .markerPayload id := by
  cases d with
  | danglingLink n target =>
    obtain ⟨⟨l, hl, htarget⟩, hout⟩ := hd
    exact absurd (h.links_mem n l hl target htarget) hout
  | siblingMismatch p => exact absurd (h.lists_agree p) hd
  | parentMismatch p c => exact absurd ((h.listed_iff p c).1 hd.1) hd.2
  | unlisted p c => exact absurd ((h.listed_iff p c).2 hd.1) hd.2
  | orphanSibling n => exact absurd (h.orphan n hd.1) hd.2
  | cycle n => exact absurd hd (h.acyclic n)
  | markerPayload n => exact ⟨n, rfl⟩

/-- **Where the links agree, nothing but the payload of a marker is found
wrong.** -/
theorem Consistent.check_eq (h : t.Consistent) :
    t.check = .ok () ∨ ∃ id, t.check = .error (.markerPayload id) := by
  cases hcheck : t.check with
  | ok u => exact .inl rfl
  | error d =>
    obtain ⟨id, rfl⟩ := h.eq_markerPayload (holds_of_check hcheck)
    exact .inr ⟨id, rfl⟩

/-- **The check passes exactly the arenas whose links agree and whose
markers are empty.** -/
theorem check_eq_ok_iff_consistent : t.check = .ok () ↔ t.Consistent ∧ t.MarkersEmpty := by
  refine ⟨consistent_of_check, fun ⟨h, hmarkers⟩ => ?_⟩
  rcases h.check_eq with hok | ⟨id, herror⟩
  · exact hok
  · obtain ⟨n, hn, hkind, hpayload⟩ := holds_of_check herror
    exact absurd (hmarkers id n hn hkind) hpayload

/-! ## A sample -/

/-- A document with an element, which holds a text, and a comment. -/
def sample : Tree where
  nodes := #[
    { Content.document with links := { firstChild := some ⟨1⟩, lastChild := some ⟨2⟩ } },
    { Content.element "p" with
      links := { parent := some ⟨0⟩, firstChild := some ⟨3⟩, lastChild := some ⟨3⟩,
                 nextSibling := some ⟨2⟩ } },
    { Content.comment "c" with links := { parent := some ⟨0⟩, prevSibling := some ⟨1⟩ } },
    { Content.text "t" with links := { parent := some ⟨1⟩ } }]

theorem consistent_sample : sample.Consistent :=
  (consistent_of_check (by decide)).1

end Tree

end DocumentTree
