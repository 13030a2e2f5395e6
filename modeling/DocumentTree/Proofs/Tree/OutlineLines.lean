import DocumentTree.Proofs.Tree.Outline
/-!
# Lines of an outline

An outline ends the line of every node with a line break, and there are others in it
only where content has brought its own. The data of a text node does not, as its line
breaks are escaped; every other text of a node is shown as it is (`Content.plainTexts`).
So an outline has one line for each node exactly when none of those has a line break
(`Tree.Consistent.outline_lines`), and a comment of two lines takes two
(`Tree.outline_two_line_comment`).
-/

namespace DocumentTree

/-! ## Line breaks -/

/-- How many line breaks a text has. -/
def lineBreaks (s : String) : Nat := s.toList.count '\n'

/-- A text cut at its line breaks. -/
def linesOf (s : String) : List String := (s.split '\n').toList.map (·.copy)

variable {s s' : String} {l : List String}

@[simp] theorem lineBreaks_append : lineBreaks (s ++ s') = lineBreaks s + lineBreaks s' := by
  simp [lineBreaks]

theorem lineBreaks_eq_zero_iff : lineBreaks s = 0 ↔ '\n' ∉ s.toList := List.count_eq_zero

/-- Texts one behind the other have no line break when none of them has. -/
theorem lineBreaks_join_eq_zero_iff :
    lineBreaks (String.join l) = 0 ↔ ∀ s ∈ l, '\n' ∉ s.toList := by
  simp [lineBreaks_eq_zero_iff]

theorem lineBreaks_join_congr {α : Type} {f g : α → String} {l : List α}
    (h : ∀ x, lineBreaks (f x) = lineBreaks (g x)) :
    lineBreaks (String.join (l.map f)) = lineBreaks (String.join (l.map g)) := by
  induction l with
  | nil => rfl
  | cons x l ih =>
    rw [List.map_cons, List.map_cons, String.join_cons, String.join_cons, lineBreaks_append,
      lineBreaks_append, h, ih]

/-- Escaping leaves no line break. -/
@[simp] theorem lineBreaks_escapeLineBreaks : lineBreaks (escapeLineBreaks s) = 0 := by
  rw [lineBreaks_eq_zero_iff, escapeLineBreaks, String.toList_ofList, List.mem_flatMap]
  rintro ⟨c, -, hc⟩
  split at hc
  · simp at hc
  · next hne => exact hne (List.mem_singleton.1 hc).symm

@[simp] theorem lineBreaks_indent (depth : Nat) : lineBreaks (Tree.indent depth) = 0 := by
  simp [lineBreaks_eq_zero_iff, Tree.indent]

/-- Texts that are ended one by one have a break each, besides those within. -/
theorem lineBreaks_join_ended (l : List String) :
    lineBreaks (String.join (l.map (· ++ "\n"))) = l.length + lineBreaks (String.join l) := by
  have hend : lineBreaks "\n" = 1 := rfl
  induction l with
  | nil => rfl
  | cons s l ih =>
    simp only [List.map_cons, String.join_cons, lineBreaks_append, ih, hend, List.length_cons]
    omega

/-- Texts that end in line breaks are separated by them, with nothing behind the last
one. -/
theorem join_ended (l : List String) :
    String.join (l.map (· ++ "\n")) = "\n".intercalate (l ++ [""]) := by
  induction l with
  | nil => simp
  | cons s l ih =>
    rw [List.map_cons, String.join_cons, ih, List.cons_append,
      String.intercalate_cons_of_ne_nil (by simp)]

/-- **Texts with no line break within are cut where they end.** -/
theorem linesOf_join_ended (h : ∀ s ∈ l, '\n' ∉ s.toList) :
    linesOf (String.join (l.map (· ++ "\n"))) = l ++ [""] := by
  have hplain : ∀ s ∈ l ++ [""], '\n' ∉ s.toList := by
    intro s hs
    rcases List.mem_append.1 hs with hs | hs
    · exact h s hs
    · obtain rfl := List.mem_singleton.1 hs
      simp
  have hcut := String.toList_split_intercalate hplain
  rw [if_neg (by simp)] at hcut
  rw [join_ended]
  exact hcut

/-! ## What content brings -/

/-- The texts of a namespace that the line of an element shows. -/
def Namespace.plainTexts : Namespace → List String
  | other uri => [uri]
  | _ => []

def Attribute.plainTexts (a : Attribute) : List String := [a.ns, a.name, a.value]

/-- The texts that the line of a node shows as they are. -/
def Content.plainTexts (c : Content) : List String :=
  match c.kind with
  | .document | .text | .scopeMarker => []
  | .doctype | .comment | .error => [c.data]
  | .element => c.ns.plainTexts ++ c.data :: c.attributes.flatMap Attribute.plainTexts

theorem Namespace.lineBreaks_outlineLabel (ns : Namespace) :
    lineBreaks ns.outlineLabel = lineBreaks (String.join ns.plainTexts) := by
  cases ns <;> simp [outlineLabel, plainTexts, lineBreaks]

theorem Attribute.lineBreaks_outline (a : Attribute) :
    lineBreaks a.outline = lineBreaks (String.join a.plainTexts) := by
  have hns : lineBreaks (if a.ns = "" then "" else "\x7b" ++ a.ns ++ "\x7d") = lineBreaks a.ns := by
    split
    · next h => rw [h]
    · simp [lineBreaks]
  have hvalue : lineBreaks (if a.value = "" then "" else "=\"" ++ a.value ++ "\"") =
      lineBreaks a.value := by
    split
    · next h => rw [h]
    · simp [lineBreaks]
  simp [Attribute.outline, plainTexts, hns, hvalue, Nat.add_assoc]

/-- **The line of a node has the line breaks of the texts shown as they are.** -/
theorem Content.lineBreaks_outline (c : Content) :
    lineBreaks c.outline = lineBreaks (String.join c.plainTexts) := by
  rw [Content.outline, Content.plainTexts]
  cases c.kind with
  | element =>
    have hopen : lineBreaks "<" = 0 := rfl
    have hclose : lineBreaks ">" = 0 := rfl
    have hattributes : lineBreaks (String.join (c.attributes.map fun a => " " ++ a.outline)) =
        lineBreaks (String.join (c.attributes.flatMap Attribute.plainTexts)) := by
      rw [Tree.join_flatMap]
      refine lineBreaks_join_congr fun a => ?_
      rw [lineBreaks_append, a.lineBreaks_outline]
      exact Nat.zero_add _
    simp only [lineBreaks_append, String.join_append, String.join_cons,
      c.ns.lineBreaks_outlineLabel, hattributes]
    omega
  | text =>
    have hquote : lineBreaks "\"" = 0 := rfl
    rw [lineBreaks_append, lineBreaks_append, lineBreaks_escapeLineBreaks, hquote]
    rfl
  | error | scopeMarker => simp [lineBreaks, NodeKind.name]
  | document | comment | doctype => simp [lineBreaks]

namespace Tree

variable {t : Tree} {F : Forest} {id top : NodeId}

/-- The texts that the line of a node shows as they are, none outside the arena. -/
def plainTexts (t : Tree) (id : NodeId) : List String :=
  (t.content? id).elim [] Content.plainTexts

/-- What stands on the line of a node in the outline of `top`. -/
def lineText (t : Tree) (top id : NodeId) : String :=
  indent (t.depthBelow top id) ++ (t.content? id).elim "" Content.outline

theorem lineBreaks_lineText :
    lineBreaks (t.lineText top id) = lineBreaks (String.join (t.plainTexts id)) := by
  rw [lineText, lineBreaks_append, lineBreaks_indent, Nat.zero_add, plainTexts]
  cases t.content? id with
  | none => rfl
  | some c => exact c.lineBreaks_outline

/-! ## The lines -/

/-- An outline is the lines of its nodes, each ended by a line break. -/
theorem Shows.outline_eq_join_ended (h : t.Shows F) (hF : F.WellFormed) (hid : id ∈ t) :
    t.outline id =
      String.join (((id :: t.descendants id).map (t.lineText id)).map (· ++ "\n")) := by
  rw [h.outline_eq_join hF hid, linesFrom, List.map_map]
  refine congrArg String.join (List.map_congr_left fun a _ => ?_)
  rw [lineAt, Nat.zero_add]
  rfl

/-- **One line for each node, where content brings no others.** Where links agree, the
outline of a node of the arena has a line break for the node, one for each of its
descendants, and those of the texts that are shown as they are. That is one for each
node exactly when none of these texts has any; and then, cut at its line breaks, the
outline is the lines of the node and of its descendants in the order of the walk down,
with nothing behind the last break. -/
theorem Consistent.outline_lines (h : t.Consistent) (hid : id ∈ t) :
    lineBreaks (t.outline id) = 1 + (t.descendants id).length +
        lineBreaks (String.join ((id :: t.descendants id).flatMap t.plainTexts)) ∧
      (lineBreaks (t.outline id) = 1 + (t.descendants id).length ↔
        ∀ a ∈ id :: t.descendants id, ∀ s ∈ t.plainTexts a, '\n' ∉ s.toList) ∧
      ((∀ a ∈ id :: t.descendants id, ∀ s ∈ t.plainTexts a, '\n' ∉ s.toList) →
        linesOf (t.outline id) = (id :: t.descendants id).map (t.lineText id) ++ [""]) := by
  obtain ⟨F, hF, hshows⟩ := h.exists_shows
  have houtline := hshows.outline_eq_join_ended hF hid
  have hcount : lineBreaks (t.outline id) = 1 + (t.descendants id).length +
      lineBreaks (String.join ((id :: t.descendants id).flatMap t.plainTexts)) := by
    rw [houtline, lineBreaks_join_ended, join_flatMap,
      lineBreaks_join_congr fun a => lineBreaks_lineText, List.length_map, List.length_cons,
      Nat.add_comm 1]
  refine ⟨hcount, ?_, fun hplain => ?_⟩
  · rw [hcount, Nat.add_eq_left, lineBreaks_join_eq_zero_iff]
    simp only [List.mem_flatMap, forall_exists_index, and_imp]
    exact ⟨fun hall a ha s hs => hall s a ha hs, fun hall s a ha hs => hall a ha s hs⟩
  · rw [houtline]
    refine linesOf_join_ended fun s hs => ?_
    obtain ⟨a, ha, rfl⟩ := List.mem_map.1 hs
    rw [← lineBreaks_eq_zero_iff, lineBreaks_lineText, lineBreaks_join_eq_zero_iff]
    exact hplain a ha

/-- A document with one child. -/
def documentWith (c : Content) : Tree where
  nodes := #[
    { Content.document with links := { firstChild := some ⟨1⟩, lastChild := some ⟨1⟩ } },
    { c with links := { parent := some .root } }]

/-- A text of two lines takes one line of the outline. -/
theorem Consistent.outline_lines_text :
    (documentWith (.text "a\nb")).Consistent ∧ NodeId.root ∈ documentWith (.text "a\nb") ∧
      lineBreaks ((documentWith (.text "a\nb")).outline .root) = 2 ∧
      linesOf ((documentWith (.text "a\nb")).outline .root) =
        ["Document", "  \"a\\nb\"", ""] := by
  have h : (documentWith (.text "a\nb")).Consistent := (consistent_of_check (by decide)).1
  have hid : NodeId.root ∈ documentWith (.text "a\nb") := by decide
  have hplain : ∀ a ∈ NodeId.root :: (documentWith (.text "a\nb")).descendants .root,
      ∀ s ∈ (documentWith (.text "a\nb")).plainTexts a, '\n' ∉ s.toList := by decide
  obtain ⟨-, hiff, hlines⟩ := Consistent.outline_lines h hid
  refine ⟨h, hid, hiff.2 hplain, ?_⟩
  rw [hlines hplain]
  decide +kernel

/-- **A comment of two lines takes two lines**, so that there are three of them for two
nodes. -/
theorem outline_two_line_comment :
    (documentWith (.comment "a\nb")).Consistent ∧ NodeId.root ∈ documentWith (.comment "a\nb") ∧
      (documentWith (.comment "a\nb")).outline .root = "Document\n  <!-- a\nb -->\n" ∧
      lineBreaks ((documentWith (.comment "a\nb")).outline .root) = 3 ∧
      1 + ((documentWith (.comment "a\nb")).descendants .root).length = 2 := by
  have houtline : (documentWith (.comment "a\nb")).outline .root =
      "Document\n  <!-- a\nb -->\n" := by
    decide +kernel
  refine ⟨(consistent_of_check (by decide)).1, by decide, houtline, ?_, by decide⟩
  rw [houtline]
  rfl

end Tree

end DocumentTree
