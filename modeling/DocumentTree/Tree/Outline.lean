import DocumentTree.Tree.Traversal
/-!
# Outlines

A subtree as indented text, one line per node. An outline is for reading: it
is not markup, and only the line breaks of text nodes are escaped.
-/

namespace DocumentTree

/-- A text with each line break written as a backslash and an `n`. -/
def escapeLineBreaks (s : String) : String :=
  String.ofList (s.toList.flatMap fun c => if c = '\n' then ['\\', 'n'] else [c])

/-- What an outline puts before the name of an element: nothing in HTML, a
short name in SVG and MathML, the URI in braces elsewhere. -/
def Namespace.outlineLabel : Namespace → String
  | html => ""
  | svg => "svg "
  | mathMl => "math "
  | other uri => "\x7b" ++ uri ++ "\x7d "

/-- An attribute in an outline. An empty value is left out. -/
def Attribute.outline (a : Attribute) : String :=
  (if a.ns = "" then "" else "\x7b" ++ a.ns ++ "\x7d") ++ a.name ++
    (if a.value = "" then "" else "=\"" ++ a.value ++ "\"")

/-- The line of a node in an outline, without indentation. -/
def Content.outline (c : Content) : String :=
  match c.kind with
  | .document => "Document"
  | .doctype => "<!DOCTYPE " ++ c.data ++ ">"
  | .element =>
    "<" ++ c.ns.outlineLabel ++ c.data ++
      String.join (c.attributes.map fun a => " " ++ a.outline) ++ ">"
  | .text => "\"" ++ escapeLineBreaks c.data ++ "\""
  | .comment => "<!-- " ++ c.data ++ " -->"
  | .scopeMarker => "#" ++ NodeKind.scopeMarker.name
  | .error => "#" ++ NodeKind.error.name ++ " " ++ c.data

namespace Tree

variable (t : Tree)

/-- Two spaces a level. -/
def indent (depth : Nat) : String := String.ofList (List.replicate (2 * depth) ' ')

/-- The lines of a subtree down to `levels` levels, indented from `depth`
on. -/
def outlineBelow (depth : Nat) (id : NodeId) : Nat → String
  | 0 => ""
  | levels + 1 =>
    match t.get? id with
    | none => ""
    | some n =>
      indent depth ++ n.outline ++ "\n" ++
        String.join ((t.children id).map fun child => outlineBelow (depth + 1) child levels)

/-- The outline of the subtree under a node, empty outside the arena. A
chain of children that ends has at most one level per slot. -/
def outline (id : NodeId) : String := t.outlineBelow 0 id t.size

end Tree

end DocumentTree
