import DocumentTree.Tag
import Mathlib
/-!
# Tag names

A tag is declared under an identifier and spelled like it in lower case, and a text
is looked up by comparing it with the spellings letter by letter, ASCII case aside
(`Tag.Derived`). This leaves one spelling and one lookup, `Tag.name` and `Tag.ofName?`:
in lower case the identifiers are the names (`Tag.foldCase_identifier`); these are in
strict alphabetical order, so no two tags share one, and they are made of small ASCII
letters and digits, so folding the case of a text is all it takes to find its tag
(`Tag.lookup_folds_ascii_only`).
-/

namespace DocumentTree

/-! ## Letters and case -/

/-- The same character, or a capital ASCII letter and the small one of it. -/
def SameLetter (c c' : Char) : Prop :=
  c = c' ∨ c.isUpper = true ∧ c'.toNat = c.toNat + 32 ∨
    c'.isUpper = true ∧ c.toNat = c'.toNat + 32

/-- The same text but for the case of ASCII letters. -/
def SameLetters (s s' : String) : Prop := List.Forall₂ SameLetter s.toList s'.toList

theorem isUpper_iff {c : Char} : c.isUpper = true ↔ 65 ≤ c.toNat ∧ c.toNat ≤ 90 := by
  simp [Char.isUpper, UInt32.le_iff_toNat_le, ← Char.toNat_val]

theorem isLower_iff {c : Char} : c.isLower = true ↔ 97 ≤ c.toNat ∧ c.toNat ≤ 122 := by
  simp [Char.isLower, UInt32.le_iff_toNat_le, ← Char.toNat_val]

/-- The small letters stand 32 behind the capital ones. -/
theorem toNat_toLower (c : Char) :
    c.toLower.toNat = if c.isUpper = true then c.toNat + 32 else c.toNat := by
  split
  · next h =>
    have hle := isUpper_iff.1 h
    rw [Char.toLower_eq_of_isUpper h, Char.toNat_ofNat, if_pos (.inl (by omega))]
  · next h => rw [Char.toLower_eq_of_not_isUpper h]

/-- **Letters are the same when they fold to the same.** -/
theorem sameLetter_iff {c c' : Char} : SameLetter c c' ↔ c.toLower = c'.toLower := by
  rw [SameLetter, ← Char.toNat_inj, ← Char.toNat_inj, toNat_toLower, toNat_toLower]
  simp only [isUpper_iff]
  split <;> split <;> omega

namespace Tag

variable {s s' : String} {tag tag' : Tag} {c : Char}

theorem toList_foldCase : (foldCase s).toList = s.toList.map Char.toLower := String.toList_ofList

/-- Texts have the same letters when they fold to the same. -/
theorem sameLetters_iff : SameLetters s s' ↔ foldCase s = foldCase s' := by
  have hletter : SameLetter = fun c c' => c.toLower = c'.toLower :=
    funext₂ fun _ _ => propext sameLetter_iff
  rw [← String.toList_inj, toList_foldCase, toList_foldCase, ← List.forall₂_eq_eq_eq,
    List.forall₂_map_left_iff, List.forall₂_map_right_iff, SameLetters, hletter]

/-! ## The names -/

/-- The names go up strictly, in the order in which the tags are listed. -/
theorem pairwise_names : (all.map name).Pairwise (· < ·) :=
  List.isChain_iff_pairwise.1 (by decide +kernel)

/-- **No two tags have one name.** -/
theorem name_injective (h : tag.name = tag'.name) : tag = tag' := by
  have hnodup : (all.map name).Nodup := by
    apply pairwise_names.imp
    rintro a b hlt rfl
    exact String.lt_irrefl a hlt
  exact List.inj_on_of_nodup_map hnodup (mem_all tag) (mem_all tag') h

theorem name_ne_empty (tag : Tag) : tag.name ≠ "" := by
  have hall : ∀ tag ∈ all, tag.name ≠ "" := by decide +kernel
  exact hall tag (mem_all tag)

/-- A name is made of small letters and digits. -/
theorem isLower_or_isDigit (h : c ∈ tag.name.toList) : c.isLower = true ∨ c.isDigit = true := by
  have hall : (all.all fun tag => tag.name.toList.all fun c => c.isLower || c.isDigit) = true := by
    decide +kernel
  have hname := List.all_eq_true.1 hall tag (mem_all tag)
  exact Bool.or_eq_true_iff.1 (List.all_eq_true.1 hname c h)

theorem toNat_of_mem_name (h : c ∈ tag.name.toList) :
    97 ≤ c.toNat ∧ c.toNat ≤ 122 ∨ 48 ≤ c.toNat ∧ c.toNat ≤ 57 :=
  (isLower_or_isDigit h).imp isLower_iff.1 Char.isDigit_iff_toNat.1

theorem foldCase_name (tag : Tag) : foldCase tag.name = tag.name := by
  rw [← String.toList_inj, toList_foldCase, List.map_congr_left (g := id), List.map_id]
  intro c hc
  refine Char.toLower_eq_of_not_isUpper fun hupper => ?_
  have hle := isUpper_iff.1 hupper
  have hname := toNat_of_mem_name hc
  omega

/-! ## The lookup -/

/-- **A text is the name of a tag once its case is folded**, or of no tag. -/
theorem ofName?_eq_some_iff : ofName? s = some tag ↔ foldCase s = tag.name := by
  refine ⟨fun h => (name_eq_of_ofName? h).symm, fun h => ?_⟩
  obtain ⟨found, hfound⟩ : ∃ found, ofName? s = some found :=
    Option.isSome_iff_exists.1 (List.find?_isSome.2 ⟨tag, mem_all tag, by simpa using h.symm⟩)
  rw [hfound, name_injective ((name_eq_of_ofName? hfound).trans h)]

theorem ofName?_name (tag : Tag) : ofName? tag.name = some tag :=
  ofName?_eq_some_iff.2 (foldCase_name tag)

/-- A text is found when it has the letters of a name. -/
theorem ofName?_eq_some_iff_sameLetters : ofName? s = some tag ↔ SameLetters s tag.name := by
  rw [ofName?_eq_some_iff, sameLetters_iff, foldCase_name]

/-- A text that is found is in ASCII. -/
theorem ofName?_eq_none_of_mem (hc : c ∈ s.toList) (h : 128 ≤ c.toNat) : ofName? s = none := by
  refine Option.eq_none_iff_forall_not_mem.2 fun tag htag => ?_
  have hsmall : c.toLower = c := Char.toLower_eq_of_not_isUpper fun hupper => by
    have := isUpper_iff.1 hupper
    omega
  have hmem : c ∈ tag.name.toList := by
    rw [name_eq_of_ofName? htag, toList_foldCase, ← hsmall]
    exact List.mem_map_of_mem hc
  have hname := toNat_of_mem_name hmem
  omega

/-! ## Spelling and lookup by declaration -/

/-- What a tag is declared under. -/
def identifier : Tag → String
  | .a => "A"
  | .abbr => "Abbr"
  | .address => "Address"
  | .applet => "Applet"
  | .area => "Area"
  | .article => "Article"
  | .aside => "Aside"
  | .audio => "Audio"
  | .b => "B"
  | .base => "Base"
  | .basefont => "Basefont"
  | .bdi => "Bdi"
  | .bdo => "Bdo"
  | .bgsound => "Bgsound"
  | .big => "Big"
  | .blockquote => "Blockquote"
  | .body => "Body"
  | .br => "Br"
  | .button => "Button"
  | .canvas => "Canvas"
  | .caption => "Caption"
  | .center => "Center"
  | .cite => "Cite"
  | .code => "Code"
  | .col => "Col"
  | .colgroup => "Colgroup"
  | .data => "Data"
  | .datalist => "Datalist"
  | .dd => "Dd"
  | .del => "Del"
  | .details => "Details"
  | .dfn => "Dfn"
  | .dialog => "Dialog"
  | .dir => "Dir"
  | .div => "Div"
  | .dl => "Dl"
  | .dt => "Dt"
  | .em => "Em"
  | .embed => "Embed"
  | .fieldset => "Fieldset"
  | .figcaption => "Figcaption"
  | .figure => "Figure"
  | .font => "Font"
  | .footer => "Footer"
  | .form => "Form"
  | .frame => "Frame"
  | .frameset => "Frameset"
  | .h1 => "H1"
  | .h2 => "H2"
  | .h3 => "H3"
  | .h4 => "H4"
  | .h5 => "H5"
  | .h6 => "H6"
  | .head => "Head"
  | .header => "Header"
  | .hgroup => "Hgroup"
  | .hr => "Hr"
  | .html => "Html"
  | .i => "I"
  | .iframe => "Iframe"
  | .image => "Image"
  | .img => "Img"
  | .input => "Input"
  | .ins => "Ins"
  | .kbd => "Kbd"
  | .keygen => "Keygen"
  | .label => "Label"
  | .legend => "Legend"
  | .li => "Li"
  | .link => "Link"
  | .listing => "Listing"
  | .main => "Main"
  | .map => "Map"
  | .mark => "Mark"
  | .marquee => "Marquee"
  | .menu => "Menu"
  | .«meta» => "Meta"
  | .meter => "Meter"
  | .nav => "Nav"
  | .nobr => "Nobr"
  | .noembed => "Noembed"
  | .noframes => "Noframes"
  | .noscript => "Noscript"
  | .object => "Object"
  | .ol => "Ol"
  | .optgroup => "Optgroup"
  | .option => "Option"
  | .output => "Output"
  | .p => "P"
  | .param => "Param"
  | .picture => "Picture"
  | .plaintext => "Plaintext"
  | .pre => "Pre"
  | .progress => "Progress"
  | .q => "Q"
  | .rb => "Rb"
  | .rp => "Rp"
  | .rt => "Rt"
  | .rtc => "Rtc"
  | .ruby => "Ruby"
  | .s => "S"
  | .samp => "Samp"
  | .script => "Script"
  | .search => "Search"
  | .«section» => "Section"
  | .select => "Select"
  | .slot => "Slot"
  | .small => "Small"
  | .source => "Source"
  | .span => "Span"
  | .strike => "Strike"
  | .strong => "Strong"
  | .style => "Style"
  | .sub => "Sub"
  | .summary => "Summary"
  | .sup => "Sup"
  | .table => "Table"
  | .tbody => "Tbody"
  | .td => "Td"
  | .template => "Template"
  | .textarea => "Textarea"
  | .tfoot => "Tfoot"
  | .th => "Th"
  | .thead => "Thead"
  | .time => "Time"
  | .title => "Title"
  | .tr => "Tr"
  | .track => "Track"
  | .tt => "Tt"
  | .u => "U"
  | .ul => "Ul"
  | .var => "Var"
  | .video => "Video"
  | .wbr => "Wbr"
  | .xmp => "Xmp"

/-- What is derived from the declarations: a tag is spelled like its identifier in
lower case, and a text stands for a tag when it is the spelling but for the case of ASCII
letters, and for nothing when it is no such spelling. -/
structure Derived (spelling : Tag → String) (lookup? : String → Option Tag) : Prop where
  spelling_eq : ∀ tag, spelling tag = foldCase tag.identifier
  same_of_some : ∀ s tag, lookup? s = some tag → SameLetters s (spelling tag)
  not_same_of_none : ∀ s, lookup? s = none → ∀ tag, ¬ SameLetters s (spelling tag)

/-- In lower case the identifiers are the names. -/
theorem foldCase_identifier (tag : Tag) : foldCase tag.identifier = tag.name := by
  have hall : ∀ tag ∈ all, foldCase tag.identifier = tag.name := by decide +kernel
  exact hall tag (mem_all tag)

/-- **There is one way to derive both.** -/
theorem derived_iff {spelling : Tag → String} {lookup? : String → Option Tag} :
    Derived spelling lookup? ↔ spelling = name ∧ lookup? = ofName? := by
  constructor
  · intro h
    obtain rfl : spelling = name :=
      funext fun tag => (h.spelling_eq tag).trans (foldCase_identifier tag)
    refine ⟨rfl, funext fun s => ?_⟩
    cases hs : lookup? s with
    | some tag => exact (ofName?_eq_some_iff_sameLetters.2 (h.same_of_some s tag hs)).symm
    | none =>
      refine (Option.eq_none_iff_forall_not_mem.2 fun tag htag => ?_).symm
      exact h.not_same_of_none s hs tag (ofName?_eq_some_iff_sameLetters.1 htag)
  · rintro ⟨rfl, rfl⟩
    refine ⟨fun tag => (foldCase_identifier tag).symm,
      fun s tag => ofName?_eq_some_iff_sameLetters.1, fun s hs tag hsame => ?_⟩
    rw [ofName?_eq_some_iff_sameLetters.2 hsame] at hs
    cases hs

/-- **A lookup folds the case of ASCII letters and of nothing else.** The declarations
leave one spelling and one lookup, `name` and `ofName?`. A text stands for a tag exactly
when folding its case gives the name. So the case of ASCII letters makes no difference;
the name of a tag stands for it, and a text that does has the letters of the name; no text
has the letters of two names; and a text with a character beyond ASCII stands for none,
whatever letter the character looks like. -/
theorem lookup_folds_ascii_only :
    (∀ spelling lookup?, Derived spelling lookup? ↔ spelling = name ∧ lookup? = ofName?) ∧
      (∀ s tag, ofName? s = some tag ↔ foldCase s = tag.name) ∧
      (∀ s s', SameLetters s s' → ofName? s = ofName? s') ∧
      (∀ tag, ofName? tag.name = some tag) ∧
      (∀ s tag, ofName? s = some tag → SameLetters s tag.name) ∧
      (∀ s (tag tag' : Tag), SameLetters s tag.name → SameLetters s tag'.name → tag = tag') ∧
      ∀ s, (∃ c ∈ s.toList, 128 ≤ c.toNat) → ofName? s = none := by
  refine ⟨fun _ _ => derived_iff, fun s tag => ofName?_eq_some_iff, fun s s' h => ?_,
    ofName?_name, fun s tag => ofName?_eq_some_iff_sameLetters.1, fun s tag tag' h h' => ?_, ?_⟩
  · rw [ofName?, ofName?, sameLetters_iff.1 h]
  · rw [← ofName?_eq_some_iff_sameLetters] at h h'
    exact Option.some.inj (h.symm.trans h')
  · rintro s ⟨c, hc, h⟩
    exact ofName?_eq_none_of_mem hc h

/-- A name in mixed case is found, and one with the Kelvin sign for a `k` or the long
`s` for an `s` is not. -/
theorem lookup_folds_ascii_only_kelvin :
    Derived name ofName? ∧ SameLetters "BlockQuote" "blockquote" ∧
      ofName? "BlockQuote" = some .blockquote ∧
      ofName? "lin\u212a" = none ∧ ofName? "\u017fpan" = none := by
  obtain ⟨hderived, hfound, -, -, hsame, -, hbeyond⟩ := lookup_folds_ascii_only
  have hquote : ofName? "BlockQuote" = some .blockquote := (hfound _ _).2 (by decide +kernel)
  exact ⟨(hderived _ _).2 ⟨rfl, rfl⟩, hsame _ _ hquote, hquote,
    hbeyond _ ⟨'\u212a', by decide +kernel, by decide⟩,
    hbeyond _ ⟨'\u017f', by decide +kernel, by decide⟩⟩

end Tag

end DocumentTree
