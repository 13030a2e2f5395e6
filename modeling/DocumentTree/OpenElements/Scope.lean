import DocumentTree.OpenElements.Basic
/-!
# Scopes

"Has an element in scope" asks whether an element is open with nothing in
between that shuts it out. A scope is the set of nodes that shut out what
is open below them. The walk runs from the current node down; a target wins
where it stands even if it is a boundary itself, and an entry that is not in
the tree is passed over.
-/

namespace DocumentTree

/-- The five scopes of tree construction. -/
inductive Scope where
  | default
  /-- The default scope, and `ol` and `ul`. -/
  | listItem
  /-- The default scope, and `button`. -/
  | button
  /-- `html`, `table` and `template` only. -/
  | table
  /-- Every element but `optgroup` and `option`. -/
  | select
  deriving DecidableEq, Repr, Inhabited

namespace Content

/-- The elements that bound the default scope: those of HTML by their tag,
and by their name the MathML text integration points, `annotation-xml` and
the three SVG elements that hold HTML content. -/
def isDefaultBoundary (c : Content) : Bool :=
  match c.ns with
  | .html =>
    c.isHtmlElementOneOf
      [.applet, .caption, .html, .table, .td, .th, .marquee, .object, .template]
  | .mathMl => ["mi", "mo", "mn", "ms", "mtext", "annotation-xml"].contains c.data
  | .svg => ["foreignObject", "desc", "title"].contains c.data
  | .other _ => false

end Content

namespace Scope

/-- Whether a node ends a walk in this scope. Scope markers always do, and
otherwise only elements. -/
def isBoundary (scope : Scope) (c : Content) : Bool :=
  c.kind = .scopeMarker ||
    c.isElement &&
      match scope with
      | .default => c.isDefaultBoundary
      | .listItem => c.isDefaultBoundary || c.isHtmlElementOneOf [.ol, .ul]
      | .button => c.isDefaultBoundary || c.isHtmlElement .button
      | .table => c.isHtmlElementOneOf [.html, .table, .template]
      | .select => !c.isHtmlElementOneOf [.optgroup, .option]

end Scope

/-! ## The walk -/

/-- What an entry decides about a walk. A target wins, and a boundary that is
no target loses; any other entry decides nothing, nor does an id that is not
in the tree. -/
def Scope.verdict? (scope : Scope) (t : Tree) (isTarget : NodeId → Content → Bool)
    (id : NodeId) : Option Bool :=
  (t.get? id).bind fun n =>
    if isTarget id n.toContent then some true
    else if scope.isBoundary n.toContent then some false
    else none

namespace OpenElements

variable (s : OpenElements) (t : Tree)

/-- Whether a target is open in the scope: the first entry from the current
node down that decides anything decides it. -/
def hasTargetIn (scope : Scope) (isTarget : NodeId → Content → Bool) : Bool :=
  (s.entries.findSome? (scope.verdict? t isTarget)).getD false

/-- Whether an HTML element with the tag is open in the scope. -/
def hasElementIn (tag : Tag) (scope : Scope) : Bool :=
  s.hasTargetIn t scope fun _ c => c.isHtmlElement tag

/-- Whether this very node is open in the scope. -/
def hasNodeIn (target : NodeId) (scope : Scope) : Bool :=
  s.hasTargetIn t scope fun id _ => id = target

end OpenElements

end DocumentTree
