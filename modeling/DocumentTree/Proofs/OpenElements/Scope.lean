import DocumentTree.OpenElements.Scope
import Mathlib.Data.List.Basic
/-!
# What is in scope

The walk down the open elements looks at one entry after the other, and at each for a
target first and for a boundary second. What it answers can be said of positions and
without a walk (`OpenElements.inScope_iff`): a target is open at some position, and
above that nothing bounds the scope. So of two scopes the one with fewer boundaries
has more in it, and the five of tree construction are ordered
(`OpenElements.scopes_widen`), each strictly narrower than the next
(`OpenElements.scopes_widen_strictly`).
-/

namespace DocumentTree

/-! ## Boundaries -/

namespace Content

variable {c : Content} {tags tags' : List Tag}

theorem isHtmlElementOneOf_iff : c.isHtmlElementOneOf tags = true ↔
    c.kind = .element ∧ c.ns = .html ∧ ∃ tag ∈ tags, c.tag = some tag := by
  simp only [isHtmlElementOneOf, isHtmlElement, List.any_eq_true, Bool.and_eq_true,
    decide_eq_true_eq, Namespace.isHtml_iff]
  constructor
  · rintro ⟨tag, htag, ⟨hkind, hhtml⟩, hctag⟩
    exact ⟨hkind, hhtml, tag, htag, hctag⟩
  · rintro ⟨hkind, hhtml, tag, htag, hctag⟩
    exact ⟨tag, htag, ⟨hkind, hhtml⟩, hctag⟩

/-- An element has one tag. -/
theorem not_isHtmlElementOneOf (h : c.isHtmlElementOneOf tags = true)
    (hdisj : ∀ tag ∈ tags, tag ∉ tags') : c.isHtmlElementOneOf tags' = false := by
  obtain ⟨-, -, tag, htag, hctag⟩ := isHtmlElementOneOf_iff.1 h
  refine Bool.eq_false_iff.2 fun h' => ?_
  obtain ⟨-, -, tag', htag', hctag'⟩ := isHtmlElementOneOf_iff.1 h'
  obtain rfl := Option.some.inj (hctag.symm.trans hctag')
  exact hdisj tag htag htag'

/-- The elements that bound table scope bound the default scope. -/
theorem isDefaultBoundary_of_table (h : c.isHtmlElementOneOf [.html, .table, .template] = true) :
    c.isDefaultBoundary = true := by
  obtain ⟨hkind, hns, tag, htag, hctag⟩ := isHtmlElementOneOf_iff.1 h
  have hmem : ∀ tag ∈ [Tag.html, .table, .template], tag ∈
      [Tag.applet, .caption, .html, .table, .td, .th, .marquee, .object, .template] := by decide
  rw [isDefaultBoundary, hns]
  exact isHtmlElementOneOf_iff.2 ⟨hkind, hns, tag, hmem tag htag, hctag⟩

/-- What bounds the default scope is no `optgroup` and no `option`: it is of another
tag, or of another namespace. -/
theorem not_option_of_isDefaultBoundary (h : c.isDefaultBoundary = true) :
    c.isHtmlElementOneOf [.optgroup, .option] = false := by
  rw [isDefaultBoundary] at h
  split at h
  · exact not_isHtmlElementOneOf h (by decide)
  all_goals
    next hns =>
      refine Bool.eq_false_iff.2 fun h' => ?_
      rw [(isHtmlElementOneOf_iff.1 h').2.1] at hns
      cases hns

/-- Select scope is bounded by all that bounds the default scope and by elements of any
tags but `optgroup` and `option`. -/
theorem isSelectBoundary_of_or (h : (c.isDefaultBoundary || c.isHtmlElementOneOf tags) = true)
    (htags : ∀ tag ∈ tags, tag ∉ [Tag.optgroup, Tag.option]) :
    (!c.isHtmlElementOneOf [.optgroup, .option]) = true := by
  rw [Bool.not_eq_true']
  rcases Bool.or_eq_true_iff.1 h with h | h
  · exact not_option_of_isDefaultBoundary h
  · exact not_isHtmlElementOneOf h htags

end Content

namespace Scope

/-- Every boundary of the wider scope is one of the narrower, too. -/
def Within (narrower wider : Scope) : Prop :=
  ∀ c, wider.isBoundary c = true → narrower.isBoundary c = true

/-- Scope markers bound every scope, and else only elements bound one: it is these that
two scopes differ in. -/
theorem isBoundary_mono {c : Content} {p q : Bool} (h : p = true → q = true) :
    (c.kind = .scopeMarker || c.isElement && p) = true →
      (c.kind = .scopeMarker || c.isElement && q) = true := by
  simp only [Bool.or_eq_true, Bool.and_eq_true]
  exact Or.imp_right (And.imp_right h)

theorem default_within_table : default.Within table :=
  fun _ => isBoundary_mono Content.isDefaultBoundary_of_table

theorem button_within_default : button.Within default :=
  fun _ => isBoundary_mono fun h => Bool.or_eq_true_iff.2 (.inl h)

theorem listItem_within_default : listItem.Within default :=
  fun _ => isBoundary_mono fun h => Bool.or_eq_true_iff.2 (.inl h)

theorem select_within_button : select.Within button := by
  refine fun c => isBoundary_mono fun h => ?_
  have hone : c.isHtmlElementOneOf [.button] = c.isHtmlElement .button := Bool.or_false _
  rw [← hone] at h
  exact Content.isSelectBoundary_of_or h (by decide)

theorem select_within_listItem : select.Within listItem :=
  fun _ => isBoundary_mono fun h => Content.isSelectBoundary_of_or h (by decide)

/-- What holds in a scope holds in the wider ones. -/
structure Widens (inScope : Scope → Bool) : Prop where
  button_of_select : inScope .select = true → inScope .button = true
  listItem_of_select : inScope .select = true → inScope .listItem = true
  default_of_button : inScope .button = true → inScope .default = true
  default_of_listItem : inScope .listItem = true → inScope .default = true
  table_of_default : inScope .default = true → inScope .table = true

end Scope

/-- What a node does not pass it does not pass in a stronger form. -/
theorem Tree.satisfies_eq_false_of_imp {t : Tree} {id : NodeId} {p q : Content → Bool}
    (hpq : ∀ c, p c = true → q c = true) (h : t.satisfies id q = false) :
    t.satisfies id p = false := by
  rw [Tree.satisfies, Option.any_eq_false] at h ⊢
  exact fun n hn => Bool.eq_false_iff.2 fun hp =>
    Bool.eq_false_iff.1 (h n hn) (hpq n.toContent hp)

namespace OpenElements

variable {s : OpenElements} {t : Tree} {scope wider : Scope} {id : NodeId} {i : Nat}
variable {isTarget : NodeId → Content → Bool}

/-! ## Positions -/

/-- No entry above a position bounds the scope. An id that is not in the tree bounds
nothing. -/
def ClearAbove (s : OpenElements) (t : Tree) (scope : Scope) (i : Nat) : Prop :=
  ∀ j > i, ∀ id ∈ s.get? j, t.satisfies id scope.isBoundary = false

theorem lt_size_of_get? (h : s.get? i = some id) : i < s.size := by
  have hlt := (List.getElem?_eq_some_iff.1 h).1
  rwa [bottomUp, List.length_reverse] at hlt

/-- What is opened stands above the entries there were, and they stay where they
are. -/
theorem get?_push : (s.push id).get? i = if i = s.size then some id else s.get? i := by
  have hup : (s.push id).bottomUp = s.bottomUp ++ [id] := List.reverse_cons
  have hsize : s.bottomUp.length = s.size := List.length_reverse
  rw [get?, get?, hup]
  rcases Nat.lt_trichotomy i s.size with hlt | rfl | hgt
  · rw [if_neg (Nat.ne_of_lt hlt), List.getElem?_append_left (hsize ▸ hlt)]
  · rw [if_pos rfl, ← hsize, List.getElem?_concat_length]
  · have hlong : (s.bottomUp ++ [id]).length ≤ i := by
      rw [List.length_append, hsize]
      exact hgt
    rw [if_neg (Nat.ne_of_gt hgt), List.getElem?_eq_none hlong,
      List.getElem?_eq_none (hsize ▸ Nat.le_of_lt hgt)]

/-- An entry on top may bound the scope for the positions below it. -/
theorem clearAbove_push : (s.push id).ClearAbove t scope i ↔
    (i < s.size → t.satisfies id scope.isBoundary = false) ∧ s.ClearAbove t scope i := by
  constructor
  · intro h
    refine ⟨fun hi => h s.size hi id (by rw [get?_push, if_pos rfl]; rfl), fun j hj x hx => ?_⟩
    exact h j hj x (by rwa [get?_push, if_neg (Nat.ne_of_lt (lt_size_of_get? hx))])
  · rintro ⟨htop, hrest⟩ j hj x hx
    rw [get?_push] at hx
    split at hx
    · next hsize =>
      obtain rfl := Option.some.inj hx
      exact htop (hsize ▸ hj)
    · exact hrest j hj x hx

/-! ## The walk, entry by entry -/

/-- A target on top is in scope. Else a boundary on top shuts out all that is open
below it, and any other entry is passed over. -/
theorem hasTargetIn_push : (s.push id).hasTargetIn t scope isTarget =
    (t.satisfies id (isTarget id) ||
      !t.satisfies id scope.isBoundary && s.hasTargetIn t scope isTarget) := by
  rw [hasTargetIn, push, List.findSome?_cons, Scope.verdict?, Tree.satisfies, Tree.satisfies]
  cases t.get? id with
  | none => rfl
  | some n =>
    rw [Option.bind_some, Option.any_some, Option.any_some]
    cases isTarget id n.toContent with
    | true => rfl
    | false => cases scope.isBoundary n.toContent <;> rfl

/-- **A target is in scope where it stands at a position that is clear above.** By
induction on the entries, which are the steps of the walk: the entry on top is found
itself, or what is found below it has to be clear of it too. -/
theorem hasTargetIn_iff : s.hasTargetIn t scope isTarget = true ↔
    ∃ i id, s.get? i = some id ∧ t.satisfies id (isTarget id) = true ∧
      s.ClearAbove t scope i := by
  obtain ⟨entries⟩ := s
  induction entries with
  | nil => simp [hasTargetIn, get?, bottomUp]
  | cons top rest ih =>
    change (push ⟨rest⟩ top).hasTargetIn t scope isTarget = true ↔
      ∃ i id, (push ⟨rest⟩ top).get? i = some id ∧ t.satisfies id (isTarget id) = true ∧
        (push ⟨rest⟩ top).ClearAbove t scope i
    rw [hasTargetIn_push, Bool.or_eq_true, Bool.and_eq_true, ih, Bool.not_eq_true']
    constructor
    · rintro (htarget | ⟨hbound, i, id, hid, htarget, hclear⟩)
      · refine ⟨size ⟨rest⟩, top, by rw [get?_push, if_pos rfl], htarget, clearAbove_push.2 ?_⟩
        exact ⟨fun h => absurd h (Nat.lt_irrefl _), fun j hj x hx =>
          absurd (lt_size_of_get? hx) (Nat.lt_asymm hj)⟩
      · refine ⟨i, id, ?_, htarget, clearAbove_push.2 ⟨fun _ => hbound, hclear⟩⟩
        rwa [get?_push, if_neg (Nat.ne_of_lt (lt_size_of_get? hid))]
    · rintro ⟨i, id, hid, htarget, hclear⟩
      obtain ⟨htop, hclear⟩ := clearAbove_push.1 hclear
      rw [get?_push] at hid
      split at hid
      · obtain rfl := Option.some.inj hid
        exact .inl htarget
      · exact .inr ⟨htop (lt_size_of_get? hid), i, id, hid, htarget, hclear⟩

/-- **What is in scope, by position.** An element of a tag is in scope when an HTML
element of that tag is open at some position above which no entry bounds the scope,
and a node when it is in the tree and open at such a position. Whether the entry at
the position is a boundary itself has no part in it. -/
theorem inScope_iff (s : OpenElements) (t : Tree) (scope : Scope) :
    (∀ tag, s.hasElementIn t tag scope = true ↔
        ∃ i id, s.get? i = some id ∧ t.satisfies id (·.isHtmlElement tag) = true ∧
          s.ClearAbove t scope i) ∧
      ∀ target, s.hasNodeIn t target scope = true ↔
        target ∈ t ∧ ∃ i, s.get? i = some target ∧ s.ClearAbove t scope i := by
  refine ⟨fun tag => hasTargetIn_iff, fun target => ?_⟩
  have hsame : ∀ id, t.satisfies id (fun _ => id = target) = true ↔ target ∈ t ∧ id = target := by
    intro id
    rw [Tree.satisfies, Option.any_eq_true, Tree.mem_iff_get?]
    constructor
    · rintro ⟨n, hn, hid⟩
      obtain rfl := of_decide_eq_true hid
      exact ⟨⟨n, hn⟩, rfl⟩
    · rintro ⟨⟨n, hn⟩, rfl⟩
      exact ⟨n, hn, decide_eq_true rfl⟩
  rw [hasNodeIn, hasTargetIn_iff]
  constructor
  · rintro ⟨i, id, hid, htarget, hclear⟩
    obtain ⟨hmem, rfl⟩ := (hsame id).1 htarget
    exact ⟨hmem, i, hid, hclear⟩
  · rintro ⟨hmem, i, hi, hclear⟩
    exact ⟨i, target, hi, (hsame target).2 ⟨hmem, rfl⟩, hclear⟩

/-! ## Wider scopes -/

/-- What is clear of boundaries in a scope is clear of them in a wider one. -/
theorem ClearAbove.mono (h : s.ClearAbove t scope i) (hwide : scope.Within wider) :
    s.ClearAbove t wider i :=
  fun j hj id hid => Tree.satisfies_eq_false_of_imp hwide (h j hj id hid)

/-- **A wider scope has more in it.** -/
theorem hasTargetIn_mono (hwide : scope.Within wider)
    (h : s.hasTargetIn t scope isTarget = true) : s.hasTargetIn t wider isTarget = true := by
  obtain ⟨i, id, hid, htarget, hclear⟩ := hasTargetIn_iff.1 h
  exact hasTargetIn_iff.2 ⟨i, id, hid, htarget, hclear.mono hwide⟩

/-- What is looked for in the five scopes is found from the narrowest on. -/
theorem widens_hasTargetIn (s : OpenElements) (t : Tree) (isTarget : NodeId → Content → Bool) :
    Scope.Widens fun scope => s.hasTargetIn t scope isTarget where
  button_of_select := hasTargetIn_mono Scope.select_within_button
  listItem_of_select := hasTargetIn_mono Scope.select_within_listItem
  default_of_button := hasTargetIn_mono Scope.button_within_default
  default_of_listItem := hasTargetIn_mono Scope.listItem_within_default
  table_of_default := hasTargetIn_mono Scope.default_within_table

/-- **The scopes are ordered.** An element of any tag, or a node, that is in select
scope is in button scope and in list item scope; what is in one of these is in the
default scope, and what is in that is in table scope. -/
theorem scopes_widen (s : OpenElements) (t : Tree) :
    (∀ tag, Scope.Widens (s.hasElementIn t tag)) ∧ ∀ target, Scope.Widens (s.hasNodeIn t target) :=
  ⟨fun tag => widens_hasTargetIn s t fun _ c => c.isHtmlElement tag,
    fun target => widens_hasTargetIn s t fun id _ => id = target⟩

/-- What bounds one scope and not another one tells them apart: a `p` around it is in
the other one only. -/
theorem exists_hasElementIn_ne {c : Content} (hbound : scope.isBoundary c = true)
    (hfree : wider.isBoundary c = false) (hc : c.isHtmlElement .p = false) :
    ∃ (s : OpenElements) (t : Tree),
      s.hasElementIn t .p scope = false ∧ s.hasElementIn t .p wider = true := by
  let t : Tree := { nodes := #[.detached (.element "p"), .detached c] }
  have hopen : ∀ scope, (push ⟨[⟨0⟩]⟩ ⟨1⟩).hasElementIn t .p scope = !scope.isBoundary c := by
    intro scope
    have hinner : ∀ p : Content → Bool, t.satisfies ⟨1⟩ p = p c := fun _ => rfl
    have houter : hasElementIn ⟨[⟨0⟩]⟩ t .p scope = true := rfl
    rw [hasElementIn, hasTargetIn_push, hinner, hinner, hc, Bool.false_or]
    exact (congrArg _ houter).trans (Bool.and_true _)
  exact ⟨_, t, by rw [hopen, hbound]; rfl, by rw [hopen, hfree]; rfl⟩

/-- **Each scope is strictly narrower than the next**: for every step of the order there
are open elements among which a `p` is in the wider scope and not in the narrower. -/
theorem scopes_widen_strictly :
    ∀ step ∈ [(Scope.select, Scope.button), (.select, .listItem), (.button, .default),
        (.listItem, .default), (.default, .table)],
      ∃ (s : OpenElements) (t : Tree),
        s.hasElementIn t .p step.1 = false ∧ s.hasElementIn t .p step.2 = true := by
  simp only [List.forall_mem_cons, List.not_mem_nil, false_imp_iff, implies_true, and_true]
  exact ⟨exists_hasElementIn_ne (c := .element "div") (by decide) (by decide) (by decide),
    exists_hasElementIn_ne (c := .element "div") (by decide) (by decide) (by decide),
    exists_hasElementIn_ne (c := .element "button") (by decide) (by decide) (by decide),
    exists_hasElementIn_ne (c := .element "ul") (by decide) (by decide) (by decide),
    exists_hasElementIn_ne (c := .element "object") (by decide) (by decide) (by decide)⟩

end OpenElements

end DocumentTree
