import DocumentTree.Proofs.Call.Frame
import DocumentTree.Proofs.Call.Run
/-!
# Adding text

Text added below a node goes into the last child where that is a text node, and
otherwise into a fresh last child. Where it goes, and what forest that leaves, does
not depend on the text (`Tree.Shows.exists_appendText`), and from then on the node
that took it in is a last child that is a text node. So two pieces of text end up as
one text does that is both of them, whichever of the two the first one found
(`Tree.Consistent.appendText_append`).
-/

namespace DocumentTree

/-- Text is added piece by piece as it is added at once. -/
theorem Content.appendData_appendData (c : Content) (a b : String) :
    (c.appendData a).appendData b = c.appendData (a ++ b) := by
  simp [appendData, String.append_assoc]

namespace Tree

variable {t t' : Tree} {F : Forest} {p last id : NodeId} {n : Node} {text : String}

/-- The last child of `p` is `last`, and that is the text node `n`. -/
structure EndsInText (t : Tree) (p last : NodeId) (n : Node) : Prop where
  last_eq : (t.children p).getLast? = some last
  get?_eq : t.get? last = some n
  kind_eq : n.kind = .text

theorem Shows.lastText?_eq_some_iff (h : t.Shows F) (hF : F.WellFormed) :
    t.lastText? p = some last ↔ ∃ n, t.EndsInText p last n := by
  rw [lastText?, h.lastChild?_eq, ← h.children_eq hF, Option.filter_eq_some_iff, satisfies,
    Option.any_eq_true]
  constructor
  · rintro ⟨hlast, n, hn, hkind⟩
    exact ⟨n, hlast, hn, by simpa using hkind⟩
  · rintro ⟨n, hlast, hn, hkind⟩
    exact ⟨hlast, n, hn, by simpa using hkind⟩

/-- A node written is its content written. -/
theorem content?_of_get? (h : t'.get? = Function.update t.get? id (some n)) :
    t'.content? = Function.update t.content? id (some n.toContent) := by
  funext other
  rw [content?, h, Function.update_apply, Function.update_apply]
  split <;> rfl

/-! ## Where text goes -/

/-- **A text node that is the last child takes the text in**, and nothing else
changes. -/
theorem Shows.appendText_of_endsInText (h : t.Shows F) (hF : F.WellFormed) (hp : p ∈ t)
    (hend : t.EndsInText p last n) (text : String) :
    ∃ t', t.appendText p text = .ok (last, t') ∧ t'.Shows F ∧ t'.marker = t.marker ∧
      t'.get? = Function.update t.get? last (some { n with data := n.data ++ text }) := by
  have hlast := (h.lastText?_eq_some_iff hF).2 ⟨n, hend⟩
  rcases h.appendText_cases hF hp text with ⟨last', t', hlast', ht', heq⟩ | ⟨_, hnone, -, -⟩
  · obtain rfl := Option.some.inj (hlast.symm.trans hlast')
    refine ⟨t', heq, h.editContent? ht', ?_⟩
    obtain ⟨-, rfl⟩ := modify?_eq_some_iff.1 ht'
    refine ⟨rfl, funext fun id => ?_⟩
    rw [get?_modify, Function.update_apply]
    rcases eq_or_ne last id with rfl | hne
    · simp [hend.get?_eq, Content.appendData]
    · simp [hne, hne.symm]
  · simp [hlast] at hnone

/-- **Where no text node is the last child a fresh one is appended**, as two calls would
do it. -/
theorem Shows.appendText_of_not_endsInText (h : t.Shows F) (hF : F.WellFormed) (hp : p ∈ t)
    (hend : ¬ ∃ last n, t.EndsInText p last n) (text : String) :
    ∃ t', (t.alloc (.detached (.text text))).2.appendChild p (t.alloc (.detached (.text text))).1 =
        .ok t' ∧ t.appendText p text = .ok ((t.alloc (.detached (.text text))).1, t') := by
  rcases h.appendText_cases hF hp text with ⟨last, _, hlast, -, -⟩ | ⟨t', -, ht', heq⟩
  · exact absurd ⟨last, (h.lastText?_eq_some_iff hF).1 hlast⟩ hend
  · exact ⟨t', ht', heq⟩

/-- **Where text goes does not depend on the text.** There is one node that takes it
in, behind the text it has or as the first text of a new node, and it is a text node
and the last child in one forest. -/
theorem Shows.exists_appendText (h : t.Shows F) (hF : F.WellFormed) (hp : p ∈ t) :
    ∃ (id : NodeId) (c : Content) (G : Forest), c.kind = .text ∧
      (t.content? id = some c ∨ id ∉ t ∧ c = .text "") ∧ G.WellFormed ∧
      (G.children p).getLast? = some id ∧
      ∀ text, ∃ t', t.appendText p text = .ok (id, t') ∧ t'.Shows G ∧ t'.marker = t.marker ∧
        t'.content? = Function.update t.content? id (some (c.appendData text)) := by
  by_cases hend : ∃ last n, t.EndsInText p last n
  · obtain ⟨last, n, hend⟩ := hend
    have hold : t.content? last = some n.toContent := by rw [content?, hend.get?_eq, Option.map_some]
    refine ⟨last, n.toContent, F, hend.kind_eq, .inl hold, hF, h.children_eq hF p ▸ hend.last_eq,
      fun text => ?_⟩
    obtain ⟨t', ht', h', hmarker, hget⟩ := h.appendText_of_endsInText hF hp hend text
    exact ⟨t', ht', h', hmarker, content?_of_get? hget⟩
  · obtain ⟨-, -, hG, -, -⟩ := h.exists_appendChild_alloc hF hp (.detached (.text ""))
    have hfresh : (⟨t.size⟩ : NodeId) ∉ t := Nat.lt_irrefl t.size
    refine ⟨⟨t.size⟩, .text "", F.alloc.insert p ⟨t.size⟩ none, rfl, .inr ⟨hfresh, rfl⟩, hG, ?_,
      fun text => ?_⟩
    · rw [Forest.children_insert, Function.update_self, insertBefore_none, List.getLast?_concat]
    · obtain ⟨t', ht', heq⟩ := h.appendText_of_not_endsInText hF hp hend text
      obtain ⟨t'', ht'', -, h', hsame⟩ := h.exists_appendChild_alloc hF hp (.detached (.text text))
      obtain rfl := Except.ok.inj (ht'.symm.trans ht'')
      refine ⟨t', heq, h', hsame.marker_eq, funext fun id => ?_⟩
      rw [hsame.content_eq, content?_alloc, Function.update_apply]
      rfl

/-! ## One text in two pieces -/

/-- **Text added in two pieces is text added at once**: to the same node, and the
same arena is left. What a single addition does is to put the text behind that of the
last child, where this is a text node, and to change nothing else; otherwise it is
the allocation of a text node followed by an accepted insertion. -/
theorem Consistent.appendText_append (h : t.Consistent) (hp : p ∈ t) (a b : String) :
    (∃ id t₁ t₂, t.appendText p a = .ok (id, t₁) ∧ t₁.appendText p b = .ok (id, t₂) ∧
        t.appendText p (a ++ b) = .ok (id, t₂)) ∧
      (∀ last n, t.EndsInText p last n → ∃ t', t.appendText p a = .ok (last, t') ∧
        t'.marker = t.marker ∧
        t'.get? = Function.update t.get? last (some { n with data := n.data ++ a })) ∧
      ((¬ ∃ last n, t.EndsInText p last n) → ∃ t',
        (t.alloc (.detached (.text a))).2.appendChild p (t.alloc (.detached (.text a))).1 = .ok t' ∧
          t.appendText p a = .ok ((t.alloc (.detached (.text a))).1, t')) := by
  obtain ⟨hF, hshows⟩ := consistent_iff.1 h
  refine ⟨?_, fun last n hend => ?_, fun hend => hshows.appendText_of_not_endsInText hF hp hend a⟩
  · obtain ⟨id, c, G, hkind, -, hG, hlast, hadd⟩ := hshows.exists_appendText hF hp
    obtain ⟨t₁, ht₁, h₁, hmarker₁, hcontent₁⟩ := hadd a
    obtain ⟨t', ht', h', hmarker', hcontent'⟩ := hadd (a ++ b)
    -- the second piece finds the node that the first has gone into
    obtain ⟨n, hn, hnc⟩ : ∃ n, t₁.get? id = some n ∧ n.toContent = c.appendData a :=
      Option.map_eq_some_iff.1 ((congrFun hcontent₁ id).trans (Function.update_self ..))
    have hend : t₁.EndsInText p id n :=
      ⟨h₁.children_eq hG p ▸ hlast, hn, by rw [hnc]; exact hkind⟩
    have hp₁ : p ∈ t₁ :=
      h₁.mem_iff.2 (hG.parent_lt id p ((hG.mem_children p id).1 (List.mem_of_getLast? hlast))).2
    obtain ⟨t₂, ht₂, h₂, hmarker₂, hget₂⟩ := h₁.appendText_of_endsInText hG hp₁ hend b
    have hcontent₂ : t₂.content? = t'.content? := by
      rw [content?_of_get? hget₂, hcontent₁, Function.update_idem, hcontent',
        ← Content.appendData_appendData, ← hnc]
      rfl
    have hsame : t'.Relinks t₂ :=
      ⟨h₂.size_eq.trans h'.size_eq.symm, hcontent₂,
        hmarker₂.trans (hmarker₁.trans hmarker'.symm)⟩
    rw [← h'.eq_of_relinks h₂ hsame] at ht'
    exact ⟨id, t₁, t₂, ht₁, ht₂, ht'⟩
  · obtain ⟨t', ht', -, hrest⟩ := hshows.appendText_of_endsInText hF hp hend a
    exact ⟨t', ht', hrest⟩

/-- The document ends in a comment, and its paragraph in a text. -/
theorem Consistent.appendText_append_sample :
    sample.Consistent ∧ .root ∈ sample ∧ (⟨1⟩ : NodeId) ∈ sample ∧
      (∃ id t₁ t₂, sample.appendText .root "a" = .ok (id, t₁) ∧
        t₁.appendText .root "b" = .ok (id, t₂) ∧
        sample.appendText .root ("a" ++ "b") = .ok (id, t₂)) ∧
      ∃ t', sample.appendText ⟨1⟩ "a" = .ok (⟨3⟩, t') ∧ t'.marker = none := by
  have hroot : .root ∈ sample := by decide
  have hmem : (⟨1⟩ : NodeId) ∈ sample := by decide
  have hend : sample.EndsInText ⟨1⟩ ⟨3⟩ _ := ⟨by decide, rfl, rfl⟩
  obtain ⟨t', ht', hmarker, -⟩ :=
    (Consistent.appendText_append consistent_sample hmem "a" "b").2.1 _ _ hend
  exact ⟨consistent_sample, hroot, hmem,
    (Consistent.appendText_append consistent_sample hroot "a" "b").1, t', ht', hmarker⟩

end Tree

end DocumentTree
