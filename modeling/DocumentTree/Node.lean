import DocumentTree.NodeId
import DocumentTree.Namespace
import DocumentTree.Tag
/-!
# Nodes

A node is its content and its links. The content is what the node is and
says: kind, text, namespace, attributes and tag. The links are where it
stands in the tree, and only the tree's own operations write them. An edit
of the content is a function `Content → Content`, so it has no way to reach
a link.
-/

namespace DocumentTree

/-- What a node is. Besides the five kinds of the document object model,
`error` stands in for content that could not be built, and `scopeMarker` is
the sentinel that stops scope walks on the stack of open elements. -/
inductive NodeKind where
  | error | text | document | element | comment | doctype | scopeMarker
  deriving DecidableEq, Repr, Inhabited

/-- The name of a kind. -/
def NodeKind.name : NodeKind → String
  | .error => "error"
  | .text => "text"
  | .document => "document"
  | .element => "element"
  | .comment => "comment"
  | .doctype => "doctype"
  | .scopeMarker => "scope-marker"

/-- An attribute of an element. An empty `ns` means no namespace, which is
what every attribute outside foreign content has. -/
structure Attribute where
  ns : String := ""
  name : String
  value : String
  deriving DecidableEq, Repr, Inhabited

/-- Two attributes compete for one place when they agree on namespace and
name. -/
def Attribute.sameName (a b : Attribute) : Bool := a.ns = b.ns && a.name = b.name

/-- What a node is and says. -/
structure Content where
  kind : NodeKind
  /-- The text of a text or comment node, the local name of an element, the
  name of a doctype, the message of an error node. -/
  data : String := ""
  /-- The namespace of an element; HTML for everything else. -/
  ns : Namespace := .html
  /-- In source order; repeated names are allowed. -/
  attributes : List Attribute := []
  /-- The known tag an HTML element's name was resolved to. Queries trust it
  and not the name, and a direct write to `data` or `ns` leaves it as it
  was: `rename` is the edit that keeps the three in step. -/
  tag : Option Tag := none
  deriving DecidableEq, Repr, Inhabited

namespace Content

/-! ## Building -/

/-- The tag a name resolves to in a namespace. Only HTML names have one: an
SVG `title` is not an HTML `title`. -/
def tagFor (ns : Namespace) (name : String) : Option Tag :=
  if ns.isHtml then Tag.ofName? name else none

def document : Content := { kind := .document }

def doctype (name : String) : Content := { kind := .doctype, data := name }

/-- An element, in HTML unless said otherwise. -/
def element (name : String) (ns : Namespace := .html) : Content :=
  { kind := .element, data := name, ns := ns, tag := tagFor ns name }

def text (data : String) : Content := { kind := .text, data := data }

def comment (data : String) : Content := { kind := .comment, data := data }

def scopeMarker : Content := { kind := .scopeMarker }

/-- A stand-in for what could not be built, with the reason. -/
def error (message : String) : Content := { kind := .error, data := message }

/-! ## Asking -/

def isElement (c : Content) : Bool := c.kind = .element

/-- Whether this is an HTML element with the given tag. -/
def isHtmlElement (c : Content) (tag : Tag) : Bool :=
  c.kind = .element && c.ns.isHtml && c.tag = some tag

/-- Whether this is an HTML element with one of the given tags. -/
def isHtmlElementOneOf (c : Content) (tags : List Tag) : Bool := tags.any c.isHtmlElement

/-- Whether this is an element of that name in that namespace. Names are
compared as they are, case included. -/
def isElementNamed (c : Content) (ns : Namespace) (name : String) : Bool :=
  c.kind = .element && c.ns = ns && c.data = name

/-- The value of the first attribute of that name in no namespace. -/
def attribute? (c : Content) (name : String) : Option String :=
  (c.attributes.find? fun a => a.ns = "" && a.name = name).map Attribute.value

def hasAttribute (c : Content) (name : String) : Bool := (c.attribute? name).isSome

/-! ## Editing -/

/-- Give the node a new namespace and local name, and the tag they resolve
to. -/
def rename (c : Content) (ns : Namespace) (name : String) : Content :=
  { c with data := name, ns := ns, tag := tagFor ns name }

/-- Append an attribute, whether or not one of that name is there. -/
def addAttribute (c : Content) (a : Attribute) : Content :=
  { c with attributes := c.attributes ++ [a] }

/-- Append several attributes in order. -/
def addAttributes (c : Content) (as : List Attribute) : Content :=
  { c with attributes := c.attributes ++ as }

/-- Whether an attribute of that namespace and name is there. -/
def hasSameName (c : Content) (a : Attribute) : Bool := c.attributes.any (Attribute.sameName · a)

/-- Append an attribute unless one of its namespace and name is there.
Whether it was appended, and the content after that. -/
def addAttributeIfMissing (c : Content) (a : Attribute) : Bool × Content :=
  if c.hasSameName a then (false, c) else (true, c.addAttribute a)

/-- Write the value of the attribute at a position; `none` when there is no
such attribute. -/
def setAttributeValue? (c : Content) (position : Nat) (value : String) : Option Content :=
  if position < c.attributes.length then
    some { c with attributes := c.attributes.modify position ({ · with value := value }) }
  else none

def clearAttributes (c : Content) : Content := { c with attributes := [] }

/-- Append to the text. The tag stays as it was. -/
def appendData (c : Content) (s : String) : Content := { c with data := c.data ++ s }

end Content

/-! ## Links -/

/-- Where a node stands: five links, each to another node or absent. They
are redundant on purpose, so that every step in any direction is one
look-up. -/
structure Links where
  parent : Option NodeId := none
  firstChild : Option NodeId := none
  lastChild : Option NodeId := none
  prevSibling : Option NodeId := none
  nextSibling : Option NodeId := none
  deriving DecidableEq, Repr, Inhabited

namespace Links

/-- No parent and no siblings. A detached node may have children. -/
def isDetached (l : Links) : Bool :=
  l.parent.isNone && l.prevSibling.isNone && l.nextSibling.isNone

/-- The nodes linked to: parent, first and last child, previous and next
sibling, in this order. -/
def targets (l : Links) : List NodeId :=
  [l.parent, l.firstChild, l.lastChild, l.prevSibling, l.nextSibling].filterMap id

end Links

/-- A node: its content, and where it stands. -/
structure Node extends Content where
  links : Links := {}
  deriving DecidableEq, Repr, Inhabited

namespace Node

/-- A node with no links. -/
def detached (c : Content) : Node := { toContent := c }

def isDetached (n : Node) : Bool := n.links.isDetached

end Node

end DocumentTree
