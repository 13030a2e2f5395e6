import DocumentTree.Node
import Mathlib.Data.List.Nodup
/-!
# Merging attributes

A start tag for an element that is open already brings attributes along. They are merged
into those of the element one after the other, each only if none of its namespace and name
is there, and that is asked anew for each: an attribute of the tag can stand in the way of
a later one. What comes of it can be said of the two lists as they were. Behind the
attributes of the element stand those of the tag that are the first of their qualified
name (`Attribute.firsts`). Every fact about a merge (`Content.mergeAttributes_merged`) is
one about a single attribute, carried along the list.
-/

namespace DocumentTree

namespace Attribute

variable {known as : List Attribute} {a b : Attribute} {i : Nat}

/-- What attributes compete by. -/
def qualifiedName (a : Attribute) : String × String := (a.ns, a.name)

/-- The qualified names of attributes, in order and with repetitions. -/
def names (as : List Attribute) : List (String × String) := as.map qualifiedName

/-- The attribute at a position of `as` is the first of its qualified name: none of `known`
has it, and none in front of the position. -/
def IsFirst (known as : List Attribute) (position : Nat) (a : Attribute) : Prop :=
  a.qualifiedName ∉ names (known ++ as.take position)

instance (position : Nat) : Decidable (IsFirst known as position a) :=
  inferInstanceAs (Decidable (_ ∉ names _))

/-- For each attribute of `as`, whether it is the first of its qualified name. -/
def firstFlags (known as : List Attribute) : List Bool :=
  as.zipIdx.map fun (a, i) => decide (IsFirst known as i a)

/-- The attributes of `as` that are the first of their qualified name. -/
def firsts (known as : List Attribute) : List Attribute :=
  ((as.zip (firstFlags known as)).filter Prod.snd).map Prod.fst

/-- The value of the first attribute of a name in no namespace. -/
def valueOf? (as : List Attribute) (name : String) : Option String :=
  (as.find? fun a => a.ns = "" && a.name = name).map Attribute.value

theorem sameName_iff : a.sameName b = true ↔ a.qualifiedName = b.qualifiedName := by
  simp [sameName, qualifiedName]

/-- A lookup finds nothing where the name in no namespace is not there. -/
theorem valueOf?_eq_none_iff {name : String} : valueOf? as name = none ↔ ("", name) ∉ names as := by
  simp only [valueOf?, Option.map_eq_none_iff, List.find?_eq_none, names, List.mem_map,
    qualifiedName, Prod.mk.injEq, Bool.and_eq_true, decide_eq_true_eq, not_exists, not_and]

theorem valueOf?_append {name : String} :
    valueOf? (known ++ as) name = (valueOf? known name).or (valueOf? as name) := by
  rw [valueOf?, List.find?_append, Option.map_or, valueOf?, valueOf?]

theorem names_cons : names (a :: as) = a.qualifiedName :: names as := rfl

theorem mem_names_concat {n : String × String} :
    n ∈ names (known ++ [a]) ↔ n ∈ names known ∨ n = a.qualifiedName := by
  simp [names]

/-- For the rest of a list the head counts as one in front. -/
theorem isFirst_cons_succ :
    IsFirst known (a :: as) (i + 1) b ↔ IsFirst (known ++ [a]) as i b := by
  rw [IsFirst, IsFirst, List.take_succ_cons, List.append_assoc, List.singleton_append]

/-- An attribute of a known name stands in no other's way. -/
theorem isFirst_concat_of_known (h : a.qualifiedName ∈ names known) :
    IsFirst (known ++ [a]) as i b ↔ IsFirst known as i b := by
  have hb : b.qualifiedName = a.qualifiedName → b.qualifiedName ∈ names known := fun heq => heq ▸ h
  simp only [IsFirst, names, List.map_append, List.mem_append, List.map_cons, List.map_nil,
    List.mem_singleton] at hb ⊢
  tauto

theorem firstFlags_cons : firstFlags known (a :: as) =
    decide (a.qualifiedName ∉ names known) :: firstFlags (known ++ [a]) as := by
  rw [firstFlags, List.zipIdx_cons', List.map_cons, List.map_map]
  congr 1
  · simp [IsFirst]
  · exact List.map_congr_left fun (b, i) _ => decide_eq_decide.2 isFirst_cons_succ

theorem firstFlags_concat_of_known (h : a.qualifiedName ∈ names known) :
    firstFlags (known ++ [a]) as = firstFlags known as :=
  List.map_congr_left fun (_, _) _ => decide_eq_decide.2 (isFirst_concat_of_known h)

theorem firsts_cons_of_known (h : a.qualifiedName ∈ names known) :
    firsts known (a :: as) = firsts known as := by
  rw [firsts, firstFlags_cons, firstFlags_concat_of_known h, List.zip_cons_cons,
    List.filter_cons_of_neg (by simpa using h), firsts]

theorem firsts_cons_of_new (h : a.qualifiedName ∉ names known) :
    firsts known (a :: as) = a :: firsts (known ++ [a]) as := by
  rw [firsts, firstFlags_cons, List.zip_cons_cons, List.filter_cons_of_pos (by simpa using h),
    List.map_cons, firsts]

end Attribute

namespace Content

variable {c : Content} {a : Attribute} {as : List Attribute} {n : String × String} {name : String}

/-- Merge attributes, one after the other: which of them were appended, and the content
after that. -/
def mergeAttributes (c : Content) : List Attribute → List Bool × Content
  | [] => ([], c)
  | a :: as =>
    let (added, c) := c.addAttributeIfMissing a
    let (rest, c) := c.mergeAttributes as
    (added :: rest, c)

/-! ## One attribute -/

theorem hasSameName_iff :
    c.hasSameName a = true ↔ a.qualifiedName ∈ Attribute.names c.attributes := by
  simp only [hasSameName, List.any_eq_true, Attribute.sameName_iff, Attribute.names, List.mem_map]

/-- An attribute of a name that is there is left out. -/
theorem addAttributeIfMissing_of_known (h : a.qualifiedName ∈ Attribute.names c.attributes) :
    c.addAttributeIfMissing a = (false, c) := by
  rw [addAttributeIfMissing, if_pos (hasSameName_iff.2 h)]

/-- An attribute of a new name is appended. -/
theorem addAttributeIfMissing_of_new (h : a.qualifiedName ∉ Attribute.names c.attributes) :
    c.addAttributeIfMissing a = (true, c.addAttribute a) := by
  rw [addAttributeIfMissing, if_neg (mt hasSameName_iff.1 h)]

/-- After an attribute has been added or left out its name is there, and no other one is
new. -/
theorem mem_names_addAttributeIfMissing :
    n ∈ Attribute.names (c.addAttributeIfMissing a).2.attributes ↔
      n ∈ Attribute.names c.attributes ∨ n = a.qualifiedName := by
  by_cases h : a.qualifiedName ∈ Attribute.names c.attributes
  · rw [addAttributeIfMissing_of_known h]
    exact ⟨.inl, fun hn => hn.elim id fun heq => heq ▸ h⟩
  · rw [addAttributeIfMissing_of_new h]
    exact Attribute.mem_names_concat

/-- Adding an attribute repeats no name. -/
theorem nodup_addAttributeIfMissing (h : (Attribute.names c.attributes).Nodup) :
    (Attribute.names (c.addAttributeIfMissing a).2.attributes).Nodup := by
  by_cases ha : a.qualifiedName ∈ Attribute.names c.attributes
  · rwa [addAttributeIfMissing_of_known ha]
  · rw [addAttributeIfMissing_of_new ha, addAttribute, Attribute.names, List.map_append]
    exact h.append (List.nodup_singleton _) (by simpa [List.disjoint_singleton] using ha)

/-- A lookup finds what it found, and where it found nothing it finds the attribute, if
that is asked for. One that is left out is not missed: another of its name is there. -/
theorem attribute?_addAttributeIfMissing :
    (c.addAttributeIfMissing a).2.attribute? name =
      (c.attribute? name).or (Attribute.valueOf? [a] name) := by
  by_cases ha : a.qualifiedName ∈ Attribute.names c.attributes
  · rw [addAttributeIfMissing_of_known ha]
    cases hfound : c.attribute? name with
    | some value => rfl
    | none =>
      have hnot : ("", name) ∉ Attribute.names c.attributes :=
        Attribute.valueOf?_eq_none_iff.1 hfound
      have hother : ("", name) ∉ Attribute.names [a] := fun hmem => by
        rw [List.mem_singleton.1 hmem] at hnot
        exact hnot ha
      exact (Attribute.valueOf?_eq_none_iff.2 hother).symm
  · rw [addAttributeIfMissing_of_new ha]
    exact Attribute.valueOf?_append

/-! ## One after the other -/

theorem mergeAttributes_cons : c.mergeAttributes (a :: as) =
    ((c.addAttributeIfMissing a).1 :: ((c.addAttributeIfMissing a).2.mergeAttributes as).1,
      ((c.addAttributeIfMissing a).2.mergeAttributes as).2) := rfl

/-- **The first of their qualified name are appended**, and the answers say which these
are. By induction on the attributes to merge: once the head has had its turn it is one
of those in front of the rest. -/
theorem mergeAttributes_eq : c.mergeAttributes as = (Attribute.firstFlags c.attributes as,
    { c with attributes := c.attributes ++ Attribute.firsts c.attributes as }) := by
  induction as generalizing c with
  | nil => simp [mergeAttributes, Attribute.firstFlags, Attribute.firsts]
  | cons a as ih =>
    rw [mergeAttributes_cons, Attribute.firstFlags_cons]
    by_cases h : a.qualifiedName ∈ Attribute.names c.attributes
    · rw [addAttributeIfMissing_of_known h, ih, Attribute.firstFlags_concat_of_known h,
        Attribute.firsts_cons_of_known h, decide_eq_false (not_not.2 h)]
    · rw [addAttributeIfMissing_of_new h, ih, Attribute.firsts_cons_of_new h, decide_eq_true h,
        addAttribute, List.append_assoc, List.singleton_append]

/-- All the names are there in the end. -/
theorem mem_names_mergeAttributes :
    n ∈ Attribute.names (c.mergeAttributes as).2.attributes ↔
      n ∈ Attribute.names c.attributes ∨ n ∈ Attribute.names as := by
  induction as generalizing c with
  | nil => simp [mergeAttributes, Attribute.names]
  | cons a as ih =>
    rw [mergeAttributes_cons, ih, mem_names_addAttributeIfMissing, or_assoc, Attribute.names_cons,
      List.mem_cons]

/-- Where all the names are there already nothing is appended. -/
theorem mergeAttributes_of_known
    (h : ∀ a ∈ as, a.qualifiedName ∈ Attribute.names c.attributes) :
    c.mergeAttributes as = (List.replicate as.length false, c) := by
  induction as with
  | nil => rfl
  | cons a as ih =>
    obtain ⟨ha, has⟩ := List.forall_mem_cons.1 h
    rw [mergeAttributes_cons, addAttributeIfMissing_of_known ha, ih has, List.length_cons,
      List.replicate_succ]

theorem nodup_mergeAttributes (h : (Attribute.names c.attributes).Nodup) :
    (Attribute.names (c.mergeAttributes as).2.attributes).Nodup := by
  induction as generalizing c with
  | nil => exact h
  | cons a as ih => exact ih (nodup_addAttributeIfMissing h)

/-- **A lookup prefers what was there**, and of the rest what was merged first. -/
theorem attribute?_mergeAttributes : (c.mergeAttributes as).2.attribute? name =
    (c.attribute? name).or (Attribute.valueOf? as name) := by
  induction as generalizing c with
  | nil => exact Option.or_none.symm
  | cons a as ih =>
    rw [mergeAttributes_cons, ih, attribute?_addAttributeIfMissing, Option.or_assoc,
      ← Attribute.valueOf?_append, List.singleton_append]

/-- What merging attributes into content comes to. -/
structure Merged (c : Content) (as : List Attribute) (answers : List Bool) (c' : Content) :
    Prop where
  /-- Behind the attributes that were there stand, in order, those that are the first of
  their qualified name. Nothing else is changed. -/
  content_eq : c' = { c with attributes := c.attributes ++ Attribute.firsts c.attributes as }
  /-- For these the answer was yes, and for the others no. -/
  answers_eq : answers = Attribute.firstFlags c.attributes as
  /-- A second time nothing is appended. -/
  again : c'.mergeAttributes as = (List.replicate as.length false, c')
  /-- No qualified name is repeated, if none was. -/
  unrepeated : (Attribute.names c.attributes).Nodup → (Attribute.names c'.attributes).Nodup
  /-- A lookup finds what it found, and else the first of the merged attributes that has
  the name and no namespace. -/
  attribute?_eq : ∀ name, c'.attribute? name =
    (c.attribute? name).or (Attribute.valueOf? as name)

/-- **A merge appends the first attribute of each new name.** Whatever attributes there
are and whatever attributes are merged, repeated names and names in several namespaces
among both: an attribute is appended exactly when neither those that were there nor those
merged before it have its namespace and name. So merging the same again changes nothing,
no name is repeated that was not, and an attribute that was found is found with the value
it had. -/
theorem mergeAttributes_merged (c : Content) (as : List Attribute) :
    c.Merged as (c.mergeAttributes as).1 (c.mergeAttributes as).2 where
  content_eq := congrArg Prod.snd mergeAttributes_eq
  answers_eq := congrArg Prod.fst mergeAttributes_eq
  again := mergeAttributes_of_known fun _ ha =>
    mem_names_mergeAttributes.2 (.inr (List.mem_map_of_mem ha))
  unrepeated := nodup_mergeAttributes
  attribute?_eq _ := attribute?_mergeAttributes

/-- The `href` in no namespace is new beside the one that is there in another, and its
second value is not. -/
theorem mergeAttributes_merged_href :
    let c : Content := (Content.element "a").addAttributes
      [⟨"", "class", "x"⟩, ⟨"xlink", "href", "1"⟩]
    let as : List Attribute := [⟨"", "class", "y"⟩, ⟨"", "href", "2"⟩, ⟨"", "href", "3"⟩]
    (Attribute.names c.attributes).Nodup ∧ (c.mergeAttributes as).1 = [false, true, false] ∧
      (Attribute.names (c.mergeAttributes as).2.attributes).Nodup ∧
      (c.mergeAttributes as).2.attribute? "class" = some "x" ∧
      (c.mergeAttributes as).2.attribute? "href" = some "2" := by
  intro c as
  have hmerged := mergeAttributes_merged c as
  have hnames : (Attribute.names c.attributes).Nodup := by decide
  exact ⟨hnames, hmerged.answers_eq.trans (by decide), hmerged.unrepeated hnames,
    (hmerged.attribute?_eq "class").trans (by decide),
    (hmerged.attribute?_eq "href").trans (by decide)⟩

end Content

end DocumentTree
