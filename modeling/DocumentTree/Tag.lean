/-!
# Known HTML tags

The tag names tree construction asks about. An element keeps the tag its
name resolves to, so that "is this a `td` or a `th`" is a comparison of
tags and not of texts. A name is looked up with ASCII letters folded to
lower case and every other character as it is (`Tag.ofName?`), and a tag is
written in lower case (`Tag.name`).
-/

namespace DocumentTree

/-- A known HTML tag. -/
inductive Tag where
  | a | abbr | address | applet | area | article | aside | audio | b | base | basefont | bdi
  | bdo | bgsound | big | blockquote | body | br | button | canvas | caption | center | cite
  | code | col | colgroup | data | datalist | dd | del | details | dfn | dialog | dir | div
  | dl | dt | em | embed | fieldset | figcaption | figure | font | footer | form | frame
  | frameset | h1 | h2 | h3 | h4 | h5 | h6 | head | header | hgroup | hr | html | i | iframe
  | image | img | input | ins | kbd | keygen | label | legend | li | link | listing | main
  | map | mark | marquee | menu | «meta» | meter | nav | nobr | noembed | noframes | noscript
  | object | ol | optgroup | option | output | p | param | picture | plaintext | pre | progress
  | q | rb | rp | rt | rtc | ruby | s | samp | script | search | «section» | select | slot
  | small | source | span | strike | strong | style | sub | summary | sup | table | tbody | td
  | template | textarea | tfoot | th | thead | time | title | tr | track | tt | u | ul | var
  | video | wbr | xmp
  deriving DecidableEq, Repr, Inhabited

namespace Tag

/-- Every known tag, in alphabetical order. -/
def all : List Tag :=
  [.a, .abbr, .address, .applet, .area, .article, .aside, .audio, .b, .base, .basefont, .bdi,
    .bdo, .bgsound, .big, .blockquote, .body, .br, .button, .canvas, .caption, .center, .cite,
    .code, .col, .colgroup, .data, .datalist, .dd, .del, .details, .dfn, .dialog, .dir, .div,
    .dl, .dt, .em, .embed, .fieldset, .figcaption, .figure, .font, .footer, .form, .frame,
    .frameset, .h1, .h2, .h3, .h4, .h5, .h6, .head, .header, .hgroup, .hr, .html, .i, .iframe,
    .image, .img, .input, .ins, .kbd, .keygen, .label, .legend, .li, .link, .listing, .main,
    .map, .mark, .marquee, .menu, .«meta», .meter, .nav, .nobr, .noembed, .noframes, .noscript,
    .object, .ol, .optgroup, .option, .output, .p, .param, .picture, .plaintext, .pre,
    .progress, .q, .rb, .rp, .rt, .rtc, .ruby, .s, .samp, .script, .search, .«section»,
    .select, .slot, .small, .source, .span, .strike, .strong, .style, .sub, .summary, .sup,
    .table, .tbody, .td, .template, .textarea, .tfoot, .th, .thead, .time, .title, .tr, .track,
    .tt, .u, .ul, .var, .video, .wbr, .xmp]

/-- The name of a tag, as markup spells it in lower case. -/
def name : Tag → String
  | .a => "a"
  | .abbr => "abbr"
  | .address => "address"
  | .applet => "applet"
  | .area => "area"
  | .article => "article"
  | .aside => "aside"
  | .audio => "audio"
  | .b => "b"
  | .base => "base"
  | .basefont => "basefont"
  | .bdi => "bdi"
  | .bdo => "bdo"
  | .bgsound => "bgsound"
  | .big => "big"
  | .blockquote => "blockquote"
  | .body => "body"
  | .br => "br"
  | .button => "button"
  | .canvas => "canvas"
  | .caption => "caption"
  | .center => "center"
  | .cite => "cite"
  | .code => "code"
  | .col => "col"
  | .colgroup => "colgroup"
  | .data => "data"
  | .datalist => "datalist"
  | .dd => "dd"
  | .del => "del"
  | .details => "details"
  | .dfn => "dfn"
  | .dialog => "dialog"
  | .dir => "dir"
  | .div => "div"
  | .dl => "dl"
  | .dt => "dt"
  | .em => "em"
  | .embed => "embed"
  | .fieldset => "fieldset"
  | .figcaption => "figcaption"
  | .figure => "figure"
  | .font => "font"
  | .footer => "footer"
  | .form => "form"
  | .frame => "frame"
  | .frameset => "frameset"
  | .h1 => "h1"
  | .h2 => "h2"
  | .h3 => "h3"
  | .h4 => "h4"
  | .h5 => "h5"
  | .h6 => "h6"
  | .head => "head"
  | .header => "header"
  | .hgroup => "hgroup"
  | .hr => "hr"
  | .html => "html"
  | .i => "i"
  | .iframe => "iframe"
  | .image => "image"
  | .img => "img"
  | .input => "input"
  | .ins => "ins"
  | .kbd => "kbd"
  | .keygen => "keygen"
  | .label => "label"
  | .legend => "legend"
  | .li => "li"
  | .link => "link"
  | .listing => "listing"
  | .main => "main"
  | .map => "map"
  | .mark => "mark"
  | .marquee => "marquee"
  | .menu => "menu"
  | .«meta» => "meta"
  | .meter => "meter"
  | .nav => "nav"
  | .nobr => "nobr"
  | .noembed => "noembed"
  | .noframes => "noframes"
  | .noscript => "noscript"
  | .object => "object"
  | .ol => "ol"
  | .optgroup => "optgroup"
  | .option => "option"
  | .output => "output"
  | .p => "p"
  | .param => "param"
  | .picture => "picture"
  | .plaintext => "plaintext"
  | .pre => "pre"
  | .progress => "progress"
  | .q => "q"
  | .rb => "rb"
  | .rp => "rp"
  | .rt => "rt"
  | .rtc => "rtc"
  | .ruby => "ruby"
  | .s => "s"
  | .samp => "samp"
  | .script => "script"
  | .search => "search"
  | .«section» => "section"
  | .select => "select"
  | .slot => "slot"
  | .small => "small"
  | .source => "source"
  | .span => "span"
  | .strike => "strike"
  | .strong => "strong"
  | .style => "style"
  | .sub => "sub"
  | .summary => "summary"
  | .sup => "sup"
  | .table => "table"
  | .tbody => "tbody"
  | .td => "td"
  | .template => "template"
  | .textarea => "textarea"
  | .tfoot => "tfoot"
  | .th => "th"
  | .thead => "thead"
  | .time => "time"
  | .title => "title"
  | .tr => "tr"
  | .track => "track"
  | .tt => "tt"
  | .u => "u"
  | .ul => "ul"
  | .var => "var"
  | .video => "video"
  | .wbr => "wbr"
  | .xmp => "xmp"

instance : ToString Tag := ⟨name⟩

/-- The position of a tag among all tags. -/
def index (tag : Tag) : Nat := all.idxOf tag

/-- A text with `A` to `Z` in lower case and every other character left
alone. -/
def foldCase (s : String) : String := String.ofList (s.toList.map Char.toLower)

/-- The tag with a given name, whatever the case of its ASCII letters. -/
def ofName? (s : String) : Option Tag := all.find? fun tag => tag.name = foldCase s

/-- The tags that end up in the list of active formatting elements. -/
def isFormatting : Tag → Bool
  | .a | .b | .big | .code | .em | .font | .i | .nobr | .s | .small | .strike | .strong | .tt
  | .u => true
  | _ => false

/-- The HTML tags of the special category, at which end-tag recovery and
the adoption agency stop walking the open elements. -/
def isSpecial : Tag → Bool
  | .address | .applet | .area | .article | .aside | .base | .basefont | .bgsound | .blockquote
  | .body | .br | .button | .caption | .center | .col | .colgroup | .dd | .details | .dir
  | .div | .dl | .dt | .embed | .fieldset | .figcaption | .figure | .footer | .form | .frame
  | .frameset | .h1 | .h2 | .h3 | .h4 | .h5 | .h6 | .head | .header | .hgroup | .hr | .html
  | .iframe | .img | .input | .keygen | .li | .link | .listing | .main | .marquee | .menu
  | .«meta» | .nav | .noembed | .noframes | .noscript | .object | .ol | .p | .param
  | .plaintext | .pre | .script | .search | .«section» | .select | .source | .style | .summary
  | .table | .tbody | .td | .template | .textarea | .tfoot | .th | .thead | .title | .tr
  | .track | .ul | .wbr | .xmp => true
  | _ => false

/-- Every tag is listed. -/
theorem mem_all (tag : Tag) : tag ∈ all := by
  cases tag <;> decide

/-- A tag is found under its own name only, up to ASCII case. -/
theorem name_eq_of_ofName? {s : String} {tag : Tag} (h : ofName? s = some tag) :
    tag.name = foldCase s := by
  simpa using List.find?_some h

end Tag

end DocumentTree
