import DocumentTree.Proofs.Call.Frame
import DocumentTree.Proofs.Call.Run
/-!
# Tags in step with names

An element keeps the tag its name was resolved to, and queries trust the tag. A direct
write to the name, the namespace, the kind or the tag can part the two; building a node,
renaming it and editing its attributes cannot (`Content.InStep`). What is in the arena
after a call was there before, with more text in a text node perhaps, or the call edited
it or brought it along (`Tree.Shows.content_of_ok`). So where nothing else was ever done
each tag is that of the name (`Tree.Made.tag_eq`).
-/

namespace DocumentTree

/-! ## Content -/

namespace Content

variable {c c' : Content} {f : Content → Content} {tag : Tag}

/-- The tag of an element is the one its name resolves to in its namespace. -/
def InStep (c : Content) : Prop := c.kind = .element → c.tag = tagFor c.ns c.data

/-- What is built with the constructors and given attributes. -/
inductive Built : Content → Prop
  | document : Built .document
  | doctype (name : String) : Built (.doctype name)
  | element (name : String) (ns : Namespace) : Built (.element name ns)
  | text (data : String) : Built (.text data)
  | comment (data : String) : Built (.comment data)
  | scopeMarker : Built .scopeMarker
  | error (message : String) : Built (.error message)
  | addAttribute {c : Content} (h : Built c) (a : Attribute) : Built (c.addAttribute a)
  | addAttributes {c : Content} (h : Built c) (as : List Attribute) : Built (c.addAttributes as)

/-- The supported edits: a new name, and whatever is done to attributes. -/
inductive Supported : (Content → Content) → Prop
  | rename (ns : Namespace) (name : String) : Supported (·.rename ns name)
  | addAttribute (a : Attribute) : Supported (·.addAttribute a)
  | addAttributeIfMissing (a : Attribute) : Supported fun c => (c.addAttributeIfMissing a).2
  | setAttributeValue (position : Nat) (value : String) :
      Supported fun c => (c.setAttributeValue? position value).getD c
  | clearAttributes : Supported clearAttributes
  /-- Any other write to the attributes. -/
  | attributes (g : List Attribute → List Attribute) :
      Supported fun c => { c with attributes := g c.attributes }

theorem Built.inStep (h : Built c) : c.InStep := by
  induction h with
  | element name ns => exact fun _ => rfl
  | addAttribute _ _ ih => exact ih
  | addAttributes _ _ ih => exact ih
  | _ => exact fun hkind => by cases hkind

theorem Supported.inStep (hf : Supported f) (h : c.InStep) : (f c).InStep := by
  cases hf with
  | rename ns name => exact fun _ => rfl
  | addAttributeIfMissing a =>
    simp only [Content.addAttributeIfMissing]
    split <;> exact h
  | setAttributeValue position value =>
    simp only [Content.setAttributeValue?]
    split <;> exact h
  | addAttribute | clearAttributes | attributes => exact h

/-- Text goes into text nodes, and they are no elements. -/
theorem Extends.inStep (hc : c.Extends c') (h : c.InStep) : c'.InStep := by
  rcases hc with rfl | ⟨hkind, s, rfl⟩
  · exact h
  · exact fun helement => by cases hkind.symm.trans helement

theorem tagFor_eq (ns : Namespace) (name : String) :
    tagFor ns name = if ns = .html then Tag.ofName? name else none := by
  simp only [tagFor, Namespace.isHtml_iff]

/-- **Of a tag in step a query reads the name.** -/
theorem InStep.isHtmlElement_iff (h : c.InStep) :
    c.isHtmlElement tag = true ↔
      c.kind = .element ∧ c.ns = .html ∧ Tag.ofName? c.data = some tag := by
  simp only [isHtmlElement, Bool.and_eq_true, decide_eq_true_eq, Namespace.isHtml_iff, and_assoc]
  refine and_congr_right fun hkind => and_congr_right fun hhtml => ?_
  rw [h hkind, tagFor_eq, if_pos hhtml]

end Content

/-! ## Where content comes from -/

/-- The content of the node a call puts into the arena, if it puts one there. -/
def Call.Brings (t : Tree) : Call → Content → Prop
  | .edit (.alloc n), c => c = n.toContent
  | .scopeMarker, c => c = .scopeMarker
  | .cloneNode id, c => t.content? id = some c
  | .appendText _ s, c => c = .text s
  | _, _ => False

/-- What a call makes of content that is there: more text in a text node at most, or
what the edit makes of it. -/
def Call.Leaves (c c' : Content) : Call → Prop
  | .editContent _ f => c' = c ∨ c' = f c
  | _ => c.Extends c'

namespace Tree

variable {t t' : Tree} {F : Forest} {call : Call} {o : Outcome} {id : NodeId} {c' : Content}

/-- A fresh node brings its content. -/
theorem content_of_alloc {n : Node} (hc : (t.alloc n).2.content? id = some c') :
    (∃ c, t.content? id = some c ∧ c.Extends c') ∨ c' = n.toContent := by
  rw [content?_alloc] at hc
  split at hc
  · exact .inr (Option.some.inj hc).symm
  · exact .inl ⟨c', hc, .inl rfl⟩

/-- An edit changes the content of one node. -/
theorem content_of_editContent? {other : NodeId} {f : Content → Content}
    (ht : t.editContent? other f = some t') (hc : t'.content? id = some c') :
    ∃ c, t.content? id = some c ∧ (c' = c ∨ other = id ∧ c' = f c) := by
  rw [content?_editContent? ht] at hc
  split at hc
  · next heq =>
    obtain ⟨c, hold, rfl⟩ := Option.map_eq_some_iff.1 hc
    exact ⟨c, hold, .inr ⟨heq, rfl⟩⟩
  · exact ⟨c', hc, .inl rfl⟩

/-- **There is no content but what was there, more or less, and what the call brought.** -/
theorem Shows.content_of_ok (h : t.Shows F) (hF : F.WellFormed) (ho : call.attempt t = .ok o)
    (hc : o.tree.content? id = some c') :
    (∃ c, t.content? id = some c ∧ call.Leaves c c') ∨ call.Brings t c' := by
  cases call with
  | edit e =>
    have hedits := (h.edit_decidedBy hF e).holds ho
    cases e with
    | alloc n =>
      obtain rfl := Except.ok.inj ho
      exact content_of_alloc hc
    | _ =>
      rw [(hedits.relinks (by simp)).content_eq] at hc
      exact .inl ⟨c', hc, .inl rfl⟩
  | scopeMarker =>
    obtain rfl := Except.ok.inj ho
    change t.scopeMarker.2.content? id = some c' at hc
    unfold scopeMarker at hc
    split at hc
    · exact .inl ⟨c', hc, .inl rfl⟩
    · exact content_of_alloc (n := .detached .scopeMarker) hc
  | cloneNode other =>
    obtain ⟨⟨_, t'⟩, ht, rfl⟩ := exists_of_map ho
    obtain ⟨n, hn, rfl⟩ := exists_of_cloneNode ht
    refine (content_of_alloc hc).imp_right fun heq => ?_
    rw [Call.Brings, content?, hn, heq]
    rfl
  | appendText p s =>
    obtain ⟨⟨_, t'⟩, ht, rfl⟩ := exists_of_map ho
    rcases h.appendText_cases hF (mem_of_appendText ht) s with
      ⟨last, t₁, hlast, ht₁, heq⟩ | ⟨t₁, -, ht₁, heq⟩
    · obtain ⟨-, rfl⟩ := Prod.mk.inj (Except.ok.inj (ht.symm.trans heq))
      obtain ⟨c, hold, rfl | ⟨rfl, rfl⟩⟩ := content_of_editContent? ht₁ hc
      · exact .inl ⟨c', hold, .inl rfl⟩
      · have htext : c.kind = .text := by
          simpa [satisfies_eq, hold] using (Option.filter_eq_some_iff.1 hlast).2
        exact .inl ⟨c, hold, .inr ⟨htext, s, rfl⟩⟩
    · obtain ⟨-, rfl⟩ := Prod.mk.inj (Except.ok.inj (ht.symm.trans heq))
      obtain ⟨-, -, -, hsame⟩ := (h.alloc _).of_insertBefore hF.alloc ht₁
      refine content_of_alloc (n := .detached (.text s)) ?_
      rw [← hsame.content_eq]
      exact hc
  | editContent other f =>
    obtain rfl := Except.ok.inj ho
    refine .inl ?_
    cases ht : t.editContent? other f with
    | none =>
      rw [ht] at hc
      exact ⟨c', hc, .inl rfl⟩
    | some t' =>
      rw [ht] at hc
      obtain ⟨c, hold, hc'⟩ := content_of_editContent? ht hc
      exact ⟨c, hold, hc'.imp_right And.right⟩

end Tree

/-! ## Trees made with the supported operations -/

/-- The supported calls: what is stored is built, and edits of content are supported. -/
def Call.Supported : Call → Prop
  | .edit (.alloc n) => n.toContent.Built
  | .editContent _ f => Content.Supported f
  | _ => True

/-- The trees made from new ones with the supported calls, refused ones among them, and by
storing copies of nodes, of the same tree or of another one made so. -/
inductive Tree.Made : Tree → Prop
  | new : Made .new
  | call {s : Session} {call : Call} (h : Made s.tree) (hcall : call.Supported) :
      Made (s.after call).tree
  | copy {t source : Tree} {id : NodeId} {n : Node} (h : Made t) (hsource : Made source)
      (hn : source.get? id = some n) : Made (t.alloc n).2

/-- Every tag in the arena is in step. -/
def Tree.InStep (t : Tree) : Prop := ∀ id c, t.content? id = some c → c.InStep

/-- What a supported call brings is in step. -/
theorem Call.Supported.inStep_of_brings {t : Tree} {call : Call} {c : Content}
    (hcall : call.Supported) (h : t.InStep) (hc : call.Brings t c) : c.InStep := by
  cases call with
  | edit e =>
    cases e with
    | alloc n =>
      obtain rfl : c = n.toContent := hc
      exact Content.Built.inStep hcall
    | _ => exact False.elim hc
  | scopeMarker =>
    obtain rfl : c = .scopeMarker := hc
    exact Content.Built.scopeMarker.inStep
  | cloneNode id => exact h id c hc
  | appendText p s =>
    obtain rfl : c = .text s := hc
    exact (Content.Built.text s).inStep
  | editContent id f => exact False.elim hc

/-- What a supported call leaves of content in step is in step. -/
theorem Call.Supported.inStep_of_leaves {call : Call} {c c' : Content} (hcall : call.Supported)
    (h : c.InStep) (hc : call.Leaves c c') : c'.InStep := by
  cases call with
  | editContent id f =>
    rcases hc with rfl | rfl
    · exact h
    · exact Content.Supported.inStep hcall h
  | _ => exact Content.Extends.inStep hc h

/-- **A supported call keeps every tag in step.** -/
theorem Session.inStep_after {s : Session} {call : Call} (hs : s.tree.Consistent)
    (hcall : call.Supported) (h : s.tree.InStep) : (s.after call).tree.InStep := by
  obtain ⟨hF, hshows⟩ := Tree.consistent_iff.1 hs
  cases ho : call.attempt s.tree with
  | error r => rwa [after_of_refused hs ho]
  | ok o =>
    rw [tree_after_of_ok ho]
    intro id c' hc
    rcases hshows.content_of_ok hF ho hc with ⟨c, hold, hleaves⟩ | hbrings
    · exact hcall.inStep_of_leaves (h id c hold) hleaves
    · exact hcall.inStep_of_brings h hbrings

namespace Tree

variable {t : Tree}

theorem consistent_alloc (h : t.Consistent) (n : Node) : (t.alloc n).2.Consistent := by
  obtain ⟨hF, hshows⟩ := consistent_iff.1 h
  exact (hshows.alloc n).consistent hF.alloc

theorem Made.consistent (h : t.Made) : t.Consistent := by
  induction h with
  | new => exact shows_new.consistent Forest.wellFormed_new
  | call _ _ ih => exact Session.consistent_after ih _
  | copy _ _ _ ih => exact consistent_alloc ih _

/-- **Tags stay in step from the first call on.** -/
theorem Made.inStep (h : t.Made) : t.InStep := by
  induction h with
  | new =>
    rintro ⟨_ | i⟩ c hc
    · obtain rfl : Content.document = c := Option.some.inj hc
      exact Content.Built.document.inStep
    · cases hc
  | call hs hcall ih => exact Session.inStep_after hs.consistent hcall ih
  | copy _ _ hn ih ih' =>
    intro id c hc
    rcases content_of_alloc hc with ⟨c₀, hold, hext⟩ | rfl
    · exact hext.inStep (ih id c₀ hold)
    · exact ih' _ _ (by rw [content?, hn]; rfl)

/-- Any number of supported calls makes such a tree of one. -/
theorem Made.run {s : Session} (h : s.tree.Made) {calls : List Call}
    (hcalls : ∀ call ∈ calls, call.Supported) : (s.run calls).tree.Made := by
  induction calls generalizing s with
  | nil => exact h
  | cons call calls ih =>
    obtain ⟨hcall, hcalls⟩ := List.forall_mem_cons.1 hcalls
    exact ih (h.call hcall) hcalls

/-- **No tag goes stale.** Whatever trees are made with the supported calls, accepted or
refused, and with copies of their nodes: the tag of an element in HTML is the one its
name resolves to and an element elsewhere has none, so that being an HTML element of a
tag is being an element in HTML whose name resolves to the tag. -/
theorem Made.tag_eq (h : t.Made) {id : NodeId} {n : Node} (hn : t.get? id = some n) :
    (n.kind = .element → n.tag = if n.ns = .html then Tag.ofName? n.data else none) ∧
      ∀ tag, n.isHtmlElement tag = true ↔
        n.kind = .element ∧ n.ns = .html ∧ Tag.ofName? n.data = some tag := by
  have hstep : n.toContent.InStep := h.inStep id n.toContent (by rw [content?, hn]; rfl)
  refine ⟨fun hkind => ?_, fun tag => hstep.isHtmlElement_iff⟩
  rw [hstep hkind, Content.tagFor_eq]

/-- A `td` becomes a `TH`, and the copy of it a `title` in SVG. -/
theorem Made.tag_eq_renamed :
    let t := (Session.run {} [.edit (.alloc (.detached (.element "td"))),
      .editContent ⟨1⟩ (·.rename .html "TH"), .cloneNode ⟨1⟩,
      .editContent ⟨2⟩ (·.rename .svg "title")]).tree
    t.Made ∧ ∃ th title, t.get? ⟨1⟩ = some th ∧ t.get? ⟨2⟩ = some title ∧
      th.tag = some .th ∧ th.isHtmlElement .th = true ∧ title.tag = none := by
  intro t
  have hmade : t.Made := Made.run .new fun call hcall => by
    simp only [List.mem_cons, List.not_mem_nil, or_false] at hcall
    rcases hcall with rfl | rfl | rfl | rfl
    · exact .element "td" .html
    · exact .rename .html "TH"
    · trivial
    · exact .rename .svg "title"
  obtain ⟨htag, hquery⟩ := @Made.tag_eq t hmade ⟨1⟩ _ rfl
  have hresolved : Tag.ofName? "TH" = some .th := by decide +kernel
  refine ⟨hmade, _, _, rfl, rfl, ?_, (hquery .th).2 ⟨rfl, rfl, hresolved⟩,
    (@Made.tag_eq t hmade ⟨2⟩ _ rfl).1 rfl⟩
  exact (htag rfl).trans hresolved

end Tree

end DocumentTree
