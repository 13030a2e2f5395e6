import DocumentTree.Proofs.Call.Text
import DocumentTree.Proofs.OpenElements.Path
/-!
# Building a document

A parser at work: it puts elements and text where content goes, opens and
closes elements, and marks places up to which everything will be closed
(`TreeBuilder.Step`). One step from links that agree, with open elements that
follow the tree, is accepted and leaves such links and such open elements
(`TreeBuilder.exists_step`), and so is a run of any steps from a new tree
(`TreeBuilder.run_follows`).
-/

namespace DocumentTree

/-- A document being built: its tree, the warnings so far, and the open
elements. At first nothing is open. -/
structure TreeBuilder extends Session where
  elements : OpenElements := .empty

namespace TreeBuilder

/-- What a parser does to build a document. -/
inductive Step where
  /-- Put an element where content goes, and open it. -/
  | start (element : { n : Node // n.kind = .element })
  /-- Put text where content goes. -/
  | text (data : String)
  /-- Close elements until one with one of the tags has been closed. -/
  | close (tags : List Tag)
  | pushMarker
  | clearToLastMarker

/-- Make a step. -/
def step (b : TreeBuilder) : Step → Except Refusal TreeBuilder
  | .start element => do
    let (id, tree) := b.tree.alloc element
    let tree ← tree.appendChild (b.elements.place b.tree) id
    pure { b with tree := tree, elements := b.elements.push id }
  | .text data => do
    let (_, tree) ← b.tree.appendText (b.elements.place b.tree) data
    pure { b with tree := tree }
  | .close tags =>
    let closed := b.elements.popUntilOneOf b.tree tags
    pure { b with elements := closed.rest, log := (b.log.report? closed.warning).1 }
  | .pushMarker =>
    let (_, elements, tree) := b.elements.pushMarker b.tree
    pure { b with tree := tree, elements := elements }
  | .clearToLastMarker => pure { b with elements := (b.elements.clearToLastMarker b.tree).rest }

/-- Make any number of steps, up to the first that is refused. -/
def run (b : TreeBuilder) (steps : List Step) : Except Refusal TreeBuilder := steps.foldlM step b

/-- Links agree, and the open elements follow the tree. -/
structure Sound (b : TreeBuilder) : Prop where
  consistent : b.tree.Consistent
  follows : b.elements.Follows b.tree

variable {b : TreeBuilder}

/-! ## One step -/

/-- **An element that is put in place is fresh, and open in front of those that
were.** -/
theorem Sound.exists_start (h : b.Sound) (element : { n : Node // n.kind = .element }) :
    ∃ b', b.step (.start element) = .ok b' ∧ b'.Sound ∧
      ∃ id, id ∉ b.tree ∧ b'.tree.content? id = some element.1.toContent ∧
        b'.elements.path b'.tree = id :: b.elements.path b.tree := by
  obtain ⟨hF, hshows⟩ := Tree.consistent_iff.1 h.consistent
  obtain ⟨t', ht', hF', h', -⟩ :=
    hshows.exists_appendChild_alloc hF h.follows.place_mem element.1
  obtain ⟨hg, hparent, hcontent⟩ := hshows.grows_appendChild_alloc hF element.1 ht'
  have hkind : t'.isScopeMarker (b.tree.alloc element.1).1 = false := by
    simp [Tree.isScopeMarker, Tree.satisfies_eq, hcontent, element.2]
  -- content still goes where it went before the tree grew
  rw [← h.follows.place_eq hg.toExtends] at hparent
  refine ⟨{ b with tree := t', elements := b.elements.push (b.tree.alloc element.1).1 }, ?_,
    ⟨h'.consistent hF', (h.follows.grow hg).push hkind hparent⟩, _,
    fun hmem => Tree.ne_alloc_of_mem hmem element.1 rfl, hcontent, ?_⟩
  · simp only [step, ht', bind, Except.bind, pure, Except.pure]
  · rw [OpenElements.path_push hkind, h.follows.path_eq hg.toExtends]

/-- **Text that is put in place is at the end of the last node there**, which is a text
node that was there or a new one. Nothing else says anything new, and nothing is opened
or closed. -/
theorem Sound.exists_text (h : b.Sound) (data : String) :
    ∃ b', b.step (.text data) = .ok b' ∧ b'.Sound ∧ b'.elements = b.elements ∧
      b'.elements.path b'.tree = b.elements.path b.tree ∧
      ∃ id c, (b'.tree.children (b.elements.place b.tree)).getLast? = some id ∧
        c.kind = .text ∧ (b.tree.content? id = some c ∨ id ∉ b.tree ∧ c = .text "") ∧
        b'.tree.content? = Function.update b.tree.content? id (some (c.appendData data)) := by
  obtain ⟨hF, hshows⟩ := Tree.consistent_iff.1 h.consistent
  obtain ⟨id, c, G, hkind, hold, hG, hlast, hadd⟩ :=
    hshows.exists_appendText hF h.follows.place_mem
  obtain ⟨t', ht', h', -, hcontent⟩ := hadd data
  have hg := hshows.grows_appendText hF ht'
  refine ⟨{ b with tree := t' }, ?_, ⟨h'.consistent hG, h.follows.grow hg⟩, rfl,
    h.follows.path_eq hg.toExtends, id, c, ?_, hkind, hold, hcontent⟩
  · simp only [step, ht', bind, Except.bind, pure, Except.pure]
  · rwa [h'.children_eq hG]

theorem Sound.exists_pushMarker (h : b.Sound) :
    ∃ b', b.step .pushMarker = .ok b' ∧ b'.Sound := by
  obtain ⟨hF, hshows⟩ := Tree.consistent_iff.1 h.consistent
  have hfollows := h.follows.grow (.scopeMarker b.tree)
  exact ⟨_, rfl, hshows.consistent_scopeMarker hF,
    hfollows.push_marker (hfollows.marker _ Tree.marker_scopeMarker)⟩

/-- **No step is refused**, and each leaves links that agree and open elements
that follow the tree. -/
theorem Sound.exists_step (h : b.Sound) (step : Step) :
    ∃ b', b.step step = .ok b' ∧ b'.Sound := by
  cases step with
  | start element =>
    obtain ⟨b', hstep, h', -⟩ := h.exists_start element
    exact ⟨b', hstep, h'⟩
  | text data =>
    obtain ⟨b', hstep, h', -⟩ := h.exists_text data
    exact ⟨b', hstep, h'⟩
  | close tags =>
    exact ⟨_, rfl, h.consistent, h.follows.of_suffix (OpenElements.popUntilOneOf_suffix tags)⟩
  | pushMarker => exact h.exists_pushMarker
  | clearToLastMarker =>
    exact ⟨_, rfl, h.consistent, h.follows.of_suffix OpenElements.clearToLastMarker_suffix⟩

/-! ## Any number of steps -/

theorem Sound.exists_run (h : b.Sound) (steps : List Step) :
    ∃ b', b.run steps = .ok b' ∧ b'.Sound := by
  induction steps generalizing b with
  | nil => exact ⟨b, rfl, h⟩
  | cons step steps ih =>
    obtain ⟨b₁, hstep, h₁⟩ := h.exists_step step
    obtain ⟨b', hrun, h'⟩ := ih h₁
    refine ⟨b', ?_, h'⟩
    rw [run, List.foldlM_cons, hstep]
    exact hrun

/-- One step more. -/
theorem run_concat (steps : List Step) (step : Step) :
    b.run (steps ++ [step]) = (b.run steps >>= fun b' => b'.step step) := by
  simp [run, List.foldlM_append]

theorem sound_empty : Sound {} where
  consistent := Tree.shows_new.consistent Forest.wellFormed_new
  follows := .empty_new

/-- **A document can be built in any steps.** From a new tree with nothing
open no step is refused. After any of them links agree, no element is open
twice, and above the current element are the other open ones, inner before
outer, and then the document. An element put in place after that is fresh and
comes before all of them. Text put in place leaves them as they are: it goes
to the end of the text node that is last where content goes, or of a new one,
and changes nothing else that a node says. -/
theorem run_follows (steps : List Step) :
    ∃ b, run {} steps = .ok b ∧ b.tree.Consistent ∧ (b.elements.path b.tree).Nodup ∧
      (∀ id, b.elements.currentElement? b.tree = some id →
        ∃ others, b.elements.path b.tree = id :: others ∧
          b.tree.ancestors id = others ++ [.root]) ∧
      (∀ element, ∃ b' id, run {} (steps ++ [.start element]) = .ok b' ∧ id ∉ b.tree ∧
        b'.tree.content? id = some element.1.toContent ∧
        b'.elements.path b'.tree = id :: b.elements.path b.tree) ∧
      ∀ data, ∃ b' id c, run {} (steps ++ [.text data]) = .ok b' ∧ b'.elements = b.elements ∧
        b'.elements.path b'.tree = b.elements.path b.tree ∧
        (b'.tree.children (b.elements.place b.tree)).getLast? = some id ∧
        c.kind = .text ∧ (b.tree.content? id = some c ∨ id ∉ b.tree ∧ c = .text "") ∧
        b'.tree.content? = Function.update b.tree.content? id (some (c.appendData data)) := by
  obtain ⟨b, hb, h⟩ := sound_empty.exists_run steps
  refine ⟨b, hb, h.consistent, h.follows.nodup_path h.consistent, fun id hid => ?_,
    fun element => ?_, fun data => ?_⟩
  · rw [← OpenElements.head?_path, List.head?_eq_some_iff] at hid
    obtain ⟨others, hpath⟩ := hid
    exact ⟨others, hpath, h.follows.ancestors_eq h.consistent hpath⟩
  · obtain ⟨b', hstep, -, id, hfresh, hcontent, hpath⟩ := h.exists_start element
    refine ⟨b', id, ?_, hfresh, hcontent, hpath⟩
    rw [run_concat, hb]
    exact hstep
  · obtain ⟨b', hstep, -, helements, hpath, id, c, hadded⟩ := h.exists_text data
    refine ⟨b', id, c, ?_, helements, hpath, hadded⟩
    rw [run_concat, hb]
    exact hstep

/-- A paragraph in a body with a marker in between, which is in the tree but
on no path. -/
theorem run_follows_past_marker :
    ∃ b, run {} [.start ⟨.detached (.element "body"), rfl⟩, .pushMarker,
        .start ⟨.detached (.element "p"), rfl⟩, .text "1"] = .ok b ∧
      b.elements.currentElement? b.tree = some ⟨3⟩ ∧
      b.elements.path b.tree = [⟨3⟩, ⟨1⟩] ∧ b.tree.ancestors ⟨3⟩ = [⟨1⟩, .root] := by
  obtain ⟨b, hb, -, -, hup, -⟩ := run_follows [.start ⟨.detached (.element "body"), rfl⟩, .pushMarker,
    .start ⟨.detached (.element "p"), rfl⟩, .text "1"]
  have hrun := hb
  obtain rfl := Except.ok.inj hb
  obtain ⟨others, hpath, hancestors⟩ := hup ⟨3⟩ rfl
  obtain rfl : [⟨1⟩] = others := (List.cons.inj hpath).2
  exact ⟨_, hrun, rfl, hpath, hancestors⟩

end TreeBuilder

end DocumentTree
