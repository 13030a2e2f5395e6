/-!
# Element namespaces

The three namespaces an HTML document mixes, and every other one by its
URI. A namespace is read from its URI or from a short name
(`Namespace.ofUri`) and written as its URI (`Namespace.uri`).
-/

namespace DocumentTree

/-- The namespace an element lives in. -/
inductive Namespace where
  | html
  | mathMl
  | svg
  /-- A namespace known by its URI only. It is a namespace of its own even
  where the URI is one that `Namespace.ofUri` reads as another. -/
  | other (uri : String)
  deriving DecidableEq, Repr, Inhabited

namespace Namespace

def htmlUri : String := "http://www.w3.org/1999/xhtml"

def mathMlUri : String := "http://www.w3.org/1998/Math/MathML"

def svgUri : String := "http://www.w3.org/2000/svg"

/-- The namespace a text names: by URI, by one of the short names `html`,
`math` and `svg`, or, for HTML, by nothing at all. Case matters, and any
other text is kept as it is. -/
def ofUri (uri : String) : Namespace :=
  if uri = "" ∨ uri = "html" ∨ uri = htmlUri then html
  else if uri = "math" ∨ uri = mathMlUri then mathMl
  else if uri = "svg" ∨ uri = svgUri then svg
  else other uri

/-- The full URI. -/
def uri : Namespace → String
  | html => htmlUri
  | mathMl => mathMlUri
  | svg => svgUri
  | other uri => uri

instance : ToString Namespace := ⟨uri⟩

def isHtml : Namespace → Bool
  | html => true
  | _ => false

theorem isHtml_iff {ns : Namespace} : ns.isHtml = true ↔ ns = html := by
  cases ns <;> simp [isHtml]

end Namespace

end DocumentTree
