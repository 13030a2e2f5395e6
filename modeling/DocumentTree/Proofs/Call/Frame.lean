import DocumentTree.Proofs.Call.Spec
/-!
# What calls leave alone

The structural calls write links, and of the content that is there they
touch one thing: text may be put at the end of a text node. No node goes
away, and the scope marker stays the one it is (`Tree.Extends`). All but the
direct edits of content are of this kind (`Tree.Shows.extends_of_ok`); those
keep every node too (`Session.mem_after`). What a parser adds moves nothing
either (`Tree.Grows`).
-/

namespace DocumentTree

/-- Content as it was, but for more text at the end of a text node. -/
def Content.Extends (c c' : Content) : Prop := c' = c ∨ c.kind = .text ∧ ∃ s, c' = c.appendData s

theorem Content.Extends.kind_eq {c c' : Content} (h : c.Extends c') : c'.kind = c.kind := by
  rcases h with rfl | ⟨-, s, rfl⟩ <;> rfl

theorem Content.Extends.trans {c c' c'' : Content} (h : c.Extends c') (h' : c'.Extends c'') :
    c.Extends c'' := by
  rcases h with rfl | ⟨hkind, s, rfl⟩
  · exact h'
  · rcases h' with rfl | ⟨-, s', rfl⟩
    · exact .inr ⟨hkind, s, rfl⟩
    · exact .inr ⟨hkind, s ++ s', by simp [appendData, String.append_assoc]⟩

/-- A reading of content that text added to a text node does not show in. -/
def Content.Steady {β : Type} (f : Content → β) : Prop :=
  ∀ {c c' : Content}, c.Extends c' → f c' = f c

namespace Tree

variable {t t' t'' : Tree} {F : Forest} {id : NodeId}

/-! ## Content and slots -/

theorem mem_iff_content? : id ∈ t ↔ ∃ c, t.content? id = some c := by
  simp [mem_iff_get?, content?]

theorem satisfies_eq (p : Content → Bool) : t.satisfies id p = (t.content? id).any p := by
  rw [satisfies, content?]
  cases t.get? id <;> rfl

theorem isScopeMarker_iff :
    t.isScopeMarker id = true ↔ ∃ c, t.content? id = some c ∧ c.kind = .scopeMarker := by
  simp [isScopeMarker, satisfies_eq, Option.any_eq_true]

theorem mem_of_isScopeMarker (h : t.isScopeMarker id = true) : id ∈ t := by
  obtain ⟨c, hc, -⟩ := isScopeMarker_iff.1 h
  exact mem_iff_content?.2 ⟨c, hc⟩

/-- What a fresh node holds, and what the others hold. -/
theorem content?_alloc (n : Node) :
    (t.alloc n).2.content? id =
      if id = (t.alloc n).1 then some n.toContent else t.content? id := by
  rw [content?, get?_alloc]
  split <;> rfl

theorem content?_alloc_of_mem (hid : id ∈ t) (n : Node) :
    (t.alloc n).2.content? id = t.content? id := by
  rw [content?_alloc, if_neg (ne_alloc_of_mem hid n)]

theorem isScopeMarker_alloc (n : Node) :
    (t.alloc n).2.isScopeMarker (t.alloc n).1 = decide (n.kind = .scopeMarker) := by
  simp [isScopeMarker, satisfies_eq, content?_alloc]

/-- The marker asked for is the one the tree has from then on. -/
theorem marker_scopeMarker : t.scopeMarker.2.marker = some t.scopeMarker.1 := by
  unfold scopeMarker
  split
  · assumption
  · rfl

/-- What an edit of content leaves in a slot. -/
theorem content?_editContent? {f : Content → Content} {other : NodeId}
    (ht : t.editContent? id f = some t') :
    t'.content? other =
      if id = other then (t.content? other).map f else t.content? other := by
  obtain ⟨-, rfl⟩ := modify?_eq_some_iff.1 ht
  rw [content?, get?_modify]
  split
  · simp [content?, Function.comp_def]
  · rfl

/-! ## Extension -/

/-- Nothing is lost: every node keeps its content, text at the end of a text
node apart, and the tree its marker. -/
structure Extends (t t' : Tree) : Prop where
  content : ∀ id c, t.content? id = some c → ∃ c', t'.content? id = some c' ∧ c.Extends c'
  marker : ∀ m, t.marker = some m → t'.marker = some m

namespace Extends

theorem refl (t : Tree) : t.Extends t := ⟨fun _ c hc => ⟨c, hc, .inl rfl⟩, fun _ hm => hm⟩

theorem trans (h : t.Extends t') (h' : t'.Extends t'') : t.Extends t'' where
  content id c hc := by
    obtain ⟨c', hc', hext⟩ := h.content id c hc
    obtain ⟨c'', hc'', hext'⟩ := h'.content id c' hc'
    exact ⟨c'', hc'', hext.trans hext'⟩
  marker m hm := h'.marker m (h.marker m hm)

theorem mem (h : t.Extends t') (hid : id ∈ t) : id ∈ t' := by
  obtain ⟨c, hc⟩ := mem_iff_content?.1 hid
  obtain ⟨c', hc', -⟩ := h.content id c hc
  exact mem_iff_content?.2 ⟨c', hc'⟩

/-- A steady test says of a node after what it said before. -/
theorem satisfies_eq (h : t.Extends t') {p : Content → Bool} (hp : Content.Steady p)
    (hid : id ∈ t) : t'.satisfies id p = t.satisfies id p := by
  obtain ⟨c, hc⟩ := mem_iff_content?.1 hid
  obtain ⟨c', hc', hext⟩ := h.content id c hc
  rw [Tree.satisfies_eq, Tree.satisfies_eq, hc, hc', Option.any_some, Option.any_some, hp hext]

theorem isScopeMarker_eq (h : t.Extends t') (hid : id ∈ t) :
    t'.isScopeMarker id = t.isScopeMarker id :=
  h.satisfies_eq (fun hext => by rw [hext.kind_eq]) hid

theorem alloc (t : Tree) (n : Node) : t.Extends (t.alloc n).2 where
  content id c hc := by
    refine ⟨c, ?_, .inl rfl⟩
    rw [content?_alloc_of_mem (mem_iff_content?.2 ⟨c, hc⟩), hc]
  marker _ hm := hm

theorem scopeMarker (t : Tree) : t.Extends t.scopeMarker.2 := by
  unfold Tree.scopeMarker
  split
  · exact .refl t
  · next hnone =>
    exact ⟨(alloc t (.detached .scopeMarker)).content, fun m hm => by simp [hnone] at hm⟩

end Extends

theorem Relinks.extends (h : t.Relinks t') : t.Extends t' where
  content _ c hc := ⟨c, by rw [h.content_eq, hc], .inl rfl⟩
  marker _ hm := h.marker_eq.trans hm

/-- More text at the end of a text node is an extension. -/
theorem extends_appendData {last : NodeId} {s : String}
    (hkind : t.satisfies last (·.kind = .text))
    (ht : t.editContent? last (·.appendData s) = some t') : t.Extends t' where
  content id c hc := by
    rcases eq_or_ne last id with rfl | hne
    · have htext : c.kind = .text := by simpa [satisfies_eq, hc] using hkind
      exact ⟨c.appendData s, by simp [content?_editContent? ht, hc], .inr ⟨htext, s, rfl⟩⟩
    · exact ⟨c, by simp [content?_editContent? ht, hne, hc], .inl rfl⟩
  marker m hm := by
    obtain ⟨-, rfl⟩ := modify?_eq_some_iff.1 ht
    exact hm

/-! ## Growth -/

/-- An extension in which nothing moves: every node keeps its parent, and a
marker the tree did not have is a scope marker. -/
structure Grows (t t' : Tree) : Prop extends t.Extends t' where
  parent_eq : ∀ id ∈ t, t'.parent? id = t.parent? id
  new_marker : ∀ m, t'.marker = some m → t.marker = some m ∨ t'.isScopeMarker m = true

namespace Grows

theorem scopeMarker (t : Tree) : t.Grows t.scopeMarker.2 where
  toExtends := .scopeMarker t
  parent_eq id _ := by
    unfold Tree.scopeMarker
    split
    · rfl
    · exact bind_links?_alloc (.detached .scopeMarker) rfl id
  new_marker m hm := by
    unfold Tree.scopeMarker at hm ⊢
    split at hm
    · exact .inl hm
    · next hnone =>
      obtain rfl := Option.some.inj hm
      exact .inr (isScopeMarker_alloc (.detached .scopeMarker))

end Grows

/-- Text can be added below a node of the arena only. -/
theorem mem_of_appendText {p id : NodeId} {s : String} (ht : t.appendText p s = .ok (id, t')) :
    p ∈ t := by
  by_contra hp
  rw [appendText_of_not_mem hp] at ht
  cases ht

/-- An accepted copy is that of a node of the arena. -/
theorem exists_of_cloneNode {id' : NodeId} (ht : t.cloneNode id = .ok (id', t')) :
    ∃ n, t.get? id = some n ∧ t' = (t.alloc n).2 := by
  rw [cloneNode_eq, refusing_eq_ok_iff] at ht
  split at ht
  · cases ht
  · next n hn =>
    obtain ⟨-, rfl⟩ := Prod.mk.inj (Except.ok.inj ht)
    exact ⟨n, hn, rfl⟩

/-- **A fresh node put last moves nothing else.** -/
theorem Shows.grows_appendChild_alloc {p : NodeId} (h : t.Shows F) (hF : F.WellFormed) (n : Node)
    (ht : (t.alloc n).2.appendChild p (t.alloc n).1 = .ok t') :
    t.Grows t' ∧ t'.parent? (t.alloc n).1 = some p ∧
      t'.content? (t.alloc n).1 = some n.toContent := by
  obtain ⟨-, -, h', hsame⟩ := (h.alloc n).of_insertBefore hF.alloc ht
  refine ⟨⟨(Extends.alloc t n).trans hsame.extends, fun id hid => ?_, fun m hm => ?_⟩, ?_, ?_⟩
  · rw [h'.parent_eq, h.parent_eq]
    exact Function.update_of_ne (ne_alloc_of_mem hid n) ..
  · exact .inl (hsame.marker_eq ▸ hm)
  · rw [h'.parent_eq]
    exact Function.update_self ..
  · rw [hsame.content_eq, content?_alloc, if_pos rfl]

/-- **Text that is added moves nothing.** -/
theorem Shows.grows_appendText (h : t.Shows F) (hF : F.WellFormed) {p id : NodeId} {s : String}
    (ht : t.appendText p s = .ok (id, t')) : t.Grows t' := by
  rcases h.appendText_cases hF (mem_of_appendText ht) s with ⟨last, t₁, hlast, ht₁, heq⟩ | ⟨t₁, -, ht₁, heq⟩
  · obtain ⟨rfl, rfl⟩ := Prod.mk.inj (Except.ok.inj (ht.symm.trans heq))
    refine ⟨extends_appendData (Option.filter_eq_some_iff.1 hlast).2 ht₁, fun x _ => ?_, ?_⟩
    · rw [(h.editContent? ht₁).parent_eq, h.parent_eq]
    · obtain ⟨-, rfl⟩ := modify?_eq_some_iff.1 ht₁
      exact fun m hm => .inl hm
  · obtain ⟨rfl, rfl⟩ := Prod.mk.inj (Except.ok.inj (ht.symm.trans heq))
    exact (h.grows_appendChild_alloc hF _ ht₁).1

/-- **Calls extend the tree**, unless they edit content. -/
theorem Shows.extends_of_ok (h : t.Shows F) (hF : F.WellFormed) {call : Call} {o : Outcome}
    (hcall : ∀ id f, call ≠ .editContent id f) (ho : call.attempt t = .ok o) :
    t.Extends o.tree := by
  cases call with
  | edit e =>
    have hedits := (h.edit_decidedBy hF e).holds ho
    cases e with
    | alloc n =>
      obtain rfl := Except.ok.inj ho
      exact .alloc t n
    | _ => exact (hedits.relinks (by simp)).extends
  | scopeMarker =>
    obtain rfl := Except.ok.inj ho
    exact .scopeMarker t
  | cloneNode id =>
    obtain ⟨⟨id', t'⟩, ht, rfl⟩ := exists_of_map ho
    obtain ⟨n, -, rfl⟩ := exists_of_cloneNode ht
    exact .alloc t n
  | appendText p s =>
    obtain ⟨⟨id', t'⟩, ht, rfl⟩ := exists_of_map ho
    exact (h.grows_appendText hF ht).toExtends
  | editContent id f => exact absurd rfl (hcall id f)

end Tree

namespace Session

variable {s : Session} {id : NodeId}

/-- **No call takes a node out of the arena.** -/
theorem mem_after (h : s.tree.Consistent) (call : Call) (hid : id ∈ s.tree) :
    id ∈ (s.after call).tree := by
  obtain ⟨hF, hshows⟩ := Tree.consistent_iff.1 h
  cases ho : call.attempt s.tree with
  | error r => rwa [after_of_refused h ho]
  | ok o =>
    rw [tree_after_of_ok ho]
    cases call with
    | editContent other f =>
      obtain rfl := Except.ok.inj ho
      cases ht : s.tree.editContent? other f with
      | none => exact hid
      | some t' =>
        obtain ⟨c, hc⟩ := Tree.mem_iff_content?.1 hid
        rw [Option.getD_some, Tree.mem_iff_content?, Tree.content?_editContent? ht, hc]
        split <;> simp
    | _ => exact (hshows.extends_of_ok hF (by simp) ho).mem hid

end Session

end DocumentTree
