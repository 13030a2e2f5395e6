import DocumentTree.OpenElements.Basic
import DocumentTree.Proofs.Call.Frame
import Mathlib.Data.List.Chain
/-!
# The path of the open elements

Stack and tree know nothing of each other, and yet they agree while a document
is built: markers left out, the open elements are the way up from the current
one to the document (`OpenElements.Follows`). Growth of the tree, opening a
child of the current element, opening a marker and closing any number of
entries keep it so, and as long as it is so the current element has the other
open elements above it (`OpenElements.Follows.ancestors_eq`).
-/

namespace DocumentTree

/-- What is behind a split is the end of the list. -/
theorem suffix_of_splitThrough? {α : Type} {p : α → Bool} {l taken rest : List α}
    (h : splitThrough? p l = some (taken, rest)) : rest <:+ l := by
  obtain ⟨before, a, rfl, -⟩ := splitThrough?_eq_some_iff.1 h
  exact (List.suffix_cons a rest).trans (List.suffix_append before _)

namespace OpenElements

variable {s s' : OpenElements} {t t' : Tree} {id m p : NodeId}

/-- The open elements without the markers, current one first. -/
def path (s : OpenElements) (t : Tree) : List NodeId :=
  s.entries.filter fun id => !t.isScopeMarker id

/-- Where content goes: the current element, or the document if there is
none. -/
def place (s : OpenElements) (t : Tree) : NodeId := (s.currentElement? t).getD .root

theorem head?_path : (s.path t).head? = s.currentElement? t := List.head?_filter ..

/-- An element that is opened is on the path. -/
theorem path_push (hid : t.isScopeMarker id = false) : (s.push id).path t = id :: s.path t :=
  List.filter_cons_of_pos (by simp [hid])

/-- A marker that is pushed is not on the path. -/
theorem path_push_marker (hm : t.isScopeMarker m = true) : (s.push m).path t = s.path t :=
  List.filter_cons_of_neg (by simp [hm])

/-- The path and the document above it begin where content goes. -/
theorem head?_path_append_root : (s.path t ++ [NodeId.root]).head? = some (s.place t) := by
  rw [List.head?_append, head?_path, place]
  cases s.currentElement? t <;> rfl

/-! ## Closing -/

theorem popUntilOneOf_suffix (tags : List Tag) :
    (s.popUntilOneOf t tags).rest.entries <:+ s.entries := by
  unfold popUntilOneOf
  split
  · next hsplit => exact suffix_of_splitThrough? hsplit
  · exact List.suffix_rfl

theorem clearToLastMarker_suffix : (s.clearToLastMarker t).rest.entries <:+ s.entries := by
  unfold clearToLastMarker
  split
  · next hsplit => exact suffix_of_splitThrough? hsplit
  · exact List.nil_suffix

/-! ## Following the tree -/

/-- The path leads up to the document, each entry below the next, and a
marker of the tree is a scope marker. -/
structure Follows (s : OpenElements) (t : Tree) : Prop where
  root_mem : NodeId.root ∈ t
  root_parent : t.parent? .root = none
  marker : ∀ m, t.marker = some m → t.isScopeMarker m = true
  chain : (s.path t ++ [NodeId.root]).IsChain fun c p => t.parent? c = some p

namespace Follows

theorem empty_new : empty.Follows .new where
  root_mem := by decide
  root_parent := rfl
  marker _ hm := by cases hm
  chain := .singleton _

/-- Every entry is in the tree: a marker by what it is, and any other as one
that has a parent. -/
theorem mem (h : s.Follows t) (hid : id ∈ s.entries) : id ∈ t := by
  cases hmarker : t.isScopeMarker id with
  | true => exact Tree.mem_of_isScopeMarker hmarker
  | false =>
    have hpath : id ∈ s.path t := List.mem_filter.2 ⟨hid, by simp [hmarker]⟩
    -- behind it the path goes on, at least to the document
    obtain ⟨front, back, hcut⟩ := List.append_of_mem hpath
    have hchain : (id :: (back ++ [NodeId.root])).IsChain fun c p => t.parent? c = some p :=
      h.chain.suffix ⟨front, by simp [hcut]⟩
    obtain ⟨p, hp⟩ : ∃ p, (back ++ [NodeId.root]).head? = some p := by cases back <;> simp
    exact Tree.mem_of_parent? (hchain.rel_head? hp)

theorem place_mem (h : s.Follows t) : s.place t ∈ t := by
  rw [place]
  cases hcur : s.currentElement? t with
  | none => exact h.root_mem
  | some id => exact h.mem (List.mem_of_find?_eq_some hcur)

/-! ### What keeps it -/

theorem path_eq (h : s.Follows t) (hext : t.Extends t') : s.path t' = s.path t :=
  List.filter_congr fun id hid => by rw [hext.isScopeMarker_eq (h.mem hid)]

theorem place_eq (h : s.Follows t) (hext : t.Extends t') : s.place t' = s.place t := by
  rw [place, place, ← head?_path, ← head?_path, h.path_eq hext]

/-- **A tree that grows is followed as before**: no entry changes its kind,
and none its parent. -/
theorem grow (h : s.Follows t) (hg : t.Grows t') : s.Follows t' where
  root_mem := hg.mem h.root_mem
  root_parent := (hg.parent_eq _ h.root_mem).trans h.root_parent
  marker m hm := by
    rcases hg.new_marker m hm with hold | hnew
    · have hmarker := h.marker m hold
      rwa [hg.isScopeMarker_eq (Tree.mem_of_isScopeMarker hmarker)]
    · exact hnew
  chain := by
    rw [h.path_eq hg.toExtends]
    exact h.chain.imp fun c p hp => (hg.parent_eq c (Tree.mem_of_parent? hp)).trans hp

/-- **A child of the current element can be opened.** -/
theorem push (h : s.Follows t) (hid : t.isScopeMarker id = false)
    (hp : t.parent? id = some (s.place t)) : (s.push id).Follows t where
  __ := h
  chain := by
    rw [path_push hid]
    refine h.chain.cons fun p hhead => ?_
    rw [head?_path_append_root] at hhead
    rw [hp, hhead]

/-- **A marker can be pushed**: it is no part of the path. -/
theorem push_marker (h : s.Follows t) (hm : t.isScopeMarker m = true) : (s.push m).Follows t where
  __ := h
  chain := by
    rw [path_push_marker hm]
    exact h.chain

/-- **Any number of entries can be closed.** -/
theorem of_suffix (h : s.Follows t) (hs : s'.entries <:+ s.entries) : s'.Follows t where
  __ := h
  chain := by
    obtain ⟨closed, hclosed⟩ : s'.path t <:+ s.path t := hs.filter _
    refine h.chain.suffix ⟨closed, ?_⟩
    rw [← hclosed, List.append_assoc]

/-! ### What it comes to -/

/-- **Above the current element are the other open elements**, and then the
document. -/
theorem ancestors_eq (h : s.Follows t) (hc : t.Consistent) {others : List NodeId}
    (hpath : s.path t = id :: others) : t.ancestors id = others ++ [.root] := by
  obtain ⟨hF, hshows⟩ := Tree.consistent_iff.1 hc
  have hchain := h.chain
  rw [hpath] at hchain
  refine hshows.ancestors_eq_of_isChain hF hchain fun r hr => ?_
  rw [← List.cons_append, List.getLast?_concat] at hr
  obtain rfl := Option.some.inj hr
  exact h.root_parent

/-- **No element is open twice.** -/
theorem nodup_path (h : s.Follows t) (hc : t.Consistent) : (s.path t).Nodup := by
  obtain ⟨hF, hshows⟩ := Tree.consistent_iff.1 hc
  cases hpath : s.path t with
  | nil => exact List.nodup_nil
  | cons id others =>
    have hnd := hshows.nodup_cons_ancestors hF id
    rw [h.ancestors_eq hc hpath] at hnd
    exact (List.sublist_append_left (id :: others) [.root]).nodup hnd

end Follows

end OpenElements

end DocumentTree
