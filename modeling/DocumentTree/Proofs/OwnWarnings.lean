import DocumentTree.Proofs.Call.Refusal
import DocumentTree.Proofs.OpenElements.Closing
import DocumentTree.Proofs.TagName
import DocumentTree.Proofs.Tree.OutlineLines
import DocumentTree.Proofs.WarningLog
import Mathlib.Logic.Function.Basic
/-!
# Warnings of the library's own

Two things are warned of: that no element to close up to is open, and that the
children of a node were to be moved onto that node. All trees and stacks there are
report to one log, which keeps the text of a warning and nothing else. That is enough:
the text of the first tells which tags were asked for, in which order
(`OpenElements.notOpenWarning_injective`), and it is no text of the second. So of two
warnings that are not the same neither keeps the other from being printed, and the
operations of a run alone tell what is printed (`Workspace.printed_once`).
-/

namespace DocumentTree

/-! ## Texts -/

theorem Warning.lineBreaks_line (w : Warning) :
    lineBreaks w.line = lineBreaks w.component + lineBreaks w.message + 1 := by
  have hparts : lineBreaks "\x1b[33m[arbor " = 0 ∧ lineBreaks "] ⚠ " = 0 ∧
      lineBreaks "\x1b[39m\n" = 1 := by decide
  obtain ⟨hopen, hbetween, hend⟩ := hparts
  delta line
  simp only [lineBreaks_append, hopen, hbetween, hend]
  omega

theorem Tree.plain_selfReparentWarning : selfReparentWarning.Plain := by decide

theorem Tree.lineBreaks_selfReparentWarning : lineBreaks selfReparentWarning.line = 1 := by
  rw [Warning.lineBreaks_line]
  decide

namespace OpenElements

variable {tags tags' : List Tag}

/-- Names put together come apart again, as none of them holds the sign between them.
Those of no tag at all make an empty text, which comes apart as one name. -/
theorem split_names (tags : List Tag) :
    (("|".intercalate (tags.map Tag.name)).split '|').toList.map (·.copy) =
      if tags = [] then [""] else tags.map Tag.name := by
  have hfree : ∀ name ∈ tags.map Tag.name, '|' ∉ name.toList := by
    intro name hname hmem
    obtain ⟨tag, -, rfl⟩ := List.mem_map.1 hname
    exact absurd (Tag.isLower_or_isDigit hmem) (by decide)
  have hsplit := String.toList_split_intercalate hfree
  simp only [List.map_eq_nil_iff] at hsplit
  exact hsplit

/-- No tag has the empty text for its name. -/
theorem map_name_ne (tags : List Tag) : tags.map Tag.name ≠ [""] := by
  intro h
  have hempty : "" ∈ tags.map Tag.name := by simp [h]
  obtain ⟨tag, -, hname⟩ := List.mem_map.1 hempty
  exact tag.name_ne_empty hname

/-- **A warning tells which tags were asked for**, in which order. -/
theorem notOpenWarning_injective (h : notOpenWarning tags = notOpenWarning tags') :
    tags = tags' := by
  have hmessage := congrArg Warning.message h
  simp only [notOpenWarning, String.append_left_inj, String.append_right_inj] at hmessage
  have hnames : (if tags = [] then [""] else tags.map Tag.name) =
      if tags' = [] then [""] else tags'.map Tag.name := by
    rw [← split_names, hmessage, split_names]
  split_ifs at hnames with hnil hnil' hnil'
  · rw [hnil, hnil']
  · exact absurd hnames.symm (map_name_ne tags')
  · exact absurd hnames (map_name_ne tags)
  · exact (List.map_inj_right fun _ _ => Tag.name_injective).1 hnames

/-- The warning of a search is not taken for that of moving children, as it is of another
component. -/
theorem notOpenWarning_ne (tags : List Tag) : notOpenWarning tags ≠ Tree.selfReparentWarning := by
  intro h
  have hcomponent : "HTML" ≠ "DOM" := by decide
  exact hcomponent (congrArg Warning.component h)

theorem plain_notOpenWarning (tags : List Tag) : (notOpenWarning tags).Plain := by
  have hcomponent : ¬ [']', ' '] <:+: "HTML".toList := by decide
  exact hcomponent

theorem lineBreaks_names (tags : List Tag) :
    lineBreaks ("|".intercalate (tags.map Tag.name)) = 0 := by
  have hname : ∀ tag : Tag, lineBreaks tag.name = 0 := fun tag =>
    lineBreaks_eq_zero_iff.2 fun hmem => absurd (Tag.isLower_or_isDigit hmem) (by decide)
  induction tags with
  | nil => rfl
  | cons tag tags ih =>
    rw [List.map_cons]
    by_cases hnil : tags.map Tag.name = []
    · rw [hnil, String.intercalate_singleton, hname]
    · rw [String.intercalate_cons_of_ne_nil hnil, lineBreaks_append, lineBreaks_append, hname, ih]
      rfl

theorem lineBreaks_notOpenWarning (tags : List Tag) :
    lineBreaks (notOpenWarning tags).line = 1 := by
  have hparts : lineBreaks "HTML" = 0 ∧ lineBreaks "pop until <" = 0 ∧
      lineBreaks "> found no such open element" = 0 := by decide
  obtain ⟨hcomponent, hbefore, hbehind⟩ := hparts
  rw [Warning.lineBreaks_line, notOpenWarning, lineBreaks_append, lineBreaks_append,
    lineBreaks_names, hcomponent, hbefore, hbehind]

end OpenElements

/-! ## Calls on a tree -/

namespace Tree

variable {t : Tree} {d s id : NodeId} {a : Tree × Option Warning} {w : Warning}

/-- Moving the children of a node onto that node is warned of. -/
theorem reparentChildren_self : t.reparentChildren id id =
    if id ∈ t then .ok (t, some selfReparentWarning)
    else .error { tree := t, error := .unknownNode id } := by
  by_cases hid : id ∈ t
  · simp [reparentChildren_eq, checkReparent, require, hid, bind, Except.bind, pure, Except.pure]
  · simp [reparentChildren_eq, checkReparent, require, hid, bind, Except.bind]

/-- Moving the children of a node onto another one is not warned of. -/
theorem reparentChildren_of_ne (hne : d ≠ s) (ha : t.reparentChildren d s = .ok a) :
    a.2 = none := by
  rw [reparentChildren_eq, if_neg hne, refusing_eq_ok_iff] at ha
  cases hcheck : t.checkReparent d s with
  | error e =>
    rw [hcheck] at ha
    cases ha
  | ok =>
    rw [hcheck] at ha
    cases hmove : t.moveChildren? d s t.walkBound with
    | none =>
      rw [hmove] at ha
      cases ha
    | some t' =>
      rw [hmove] at ha
      rw [← Except.ok.inj ha]

theorem warning_of_reparentChildren (ha : t.reparentChildren d s = .ok a) (hw : a.2 = some w) :
    d ∈ t ∧ d = s ∧ w = selfReparentWarning := by
  by_cases hds : d = s
  · subst hds
    rw [reparentChildren_self] at ha
    split at ha
    · next hd =>
      obtain rfl := Except.ok.inj ha
      exact ⟨hd, rfl, (Option.some.inj hw).symm⟩
    · cases ha
  · cases (reparentChildren_of_ne hds ha).symm.trans hw

end Tree

namespace Call

variable {t : Tree} {call : Call} {o : Outcome} {w : Warning}

theorem of_warns (ho : call.attempt t = .ok o) (hw : o.warning? = some w) :
    w = Tree.selfReparentWarning ∧ ∃ id ∈ t, call = .edit (.reparentChildren id id) := by
  cases call with
  | edit e =>
    cases e with
    | alloc n =>
      obtain rfl := Except.ok.inj ho
      cases hw
    | reparentChildren d s =>
      obtain ⟨a, ha, rfl⟩ := exists_of_map ho
      obtain ⟨hd, rfl, rfl⟩ := Tree.warning_of_reparentChildren ha hw
      exact ⟨rfl, d, hd, rfl⟩
    | _ =>
      obtain ⟨a, -, rfl⟩ := exists_of_map ho
      cases hw
  | scopeMarker | editContent =>
    obtain rfl := Except.ok.inj ho
    cases hw
  | cloneNode | appendText =>
    obtain ⟨a, -, rfl⟩ := exists_of_map ho
    cases hw

/-- **Of the calls on a tree just that is warned of.** -/
theorem warns_iff : (∃ o, call.attempt t = .ok o ∧ o.warning? = some w) ↔
    w = Tree.selfReparentWarning ∧ ∃ id ∈ t, call = .edit (.reparentChildren id id) := by
  constructor
  · rintro ⟨o, ho, hw⟩
    exact of_warns ho hw
  · rintro ⟨rfl, id, hid, rfl⟩
    refine ⟨{ tree := t, warning? := some Tree.selfReparentWarning }, ?_, rfl⟩
    rw [attempt, Edit.attempt, Tree.reparentChildren_self, if_pos hid]
    rfl

end Call

/-! ## Calls on a stack -/

namespace OpenElements

variable {s : OpenElements} {t : Tree} {tags : List Tag} {w : Warning}

/-- **A search that finds nothing is warned of.** -/
theorem popUntilOneOf_warns_iff : (s.popUntilOneOf t tags).warning = some w ↔
    (¬ ∃ id ∈ s, t.HasTagIn tags id) ∧ w = notOpenWarning tags := by
  by_cases hopen : ∃ id ∈ s, t.HasTagIn tags id
  · obtain ⟨above, found, below, hcut⟩ := exists_cutAt hopen
    rw [hcut.popUntilOneOf_eq]
    simp [hopen]
  · rw [popUntilOneOf_of_not_open hopen]
    simp [hopen, eq_comm]

theorem clearToLastMarker_warning : (s.clearToLastMarker t).warning = none := by
  rw [clearToLastMarker]
  split <;> rfl

end OpenElements

/-- What can be done to a stack, with the arguments. -/
inductive StackCall where
  | push (id : NodeId)
  | pop
  | truncate (size : Nat)
  | insertAt (position : Nat) (id : NodeId)
  | remove (id : NodeId)
  | replace (old new : NodeId)
  | popUntil (tag : Tag)
  | popUntilOneOf (tags : List Tag)
  | clearToLastMarker

namespace StackCall

/-- Make a call on a stack, with a tree to look the entries up in: the stack it leaves,
and what it warns of. A refused call leaves the stack as it was, and so does one that
looks for a node that is not open. -/
def make (s : OpenElements) (t : Tree) : StackCall → OpenElements × Option Warning
  | .push id => (s.push id, none)
  | .pop => (s.pop.toOption.elim s Prod.snd, none)
  | .truncate size => (s.truncate size, none)
  | .insertAt position id => ((s.insertAt position id).toOption.getD s, none)
  | .remove id => ((s.remove? id).getD s, none)
  | .replace old new => ((s.replace? old new).getD s, none)
  | .popUntil tag => ((s.popUntil t tag).rest, (s.popUntil t tag).warning)
  | .popUntilOneOf tags => ((s.popUntilOneOf t tags).rest, (s.popUntilOneOf t tags).warning)
  | .clearToLastMarker => ((s.clearToLastMarker t).rest, (s.clearToLastMarker t).warning)

/-- The tags that a call looks for an element of, in the order they are given. -/
def tags? : StackCall → Option (List Tag)
  | .popUntil tag => some [tag]
  | .popUntilOneOf tags => some tags
  | _ => none

/-- **Of the calls on a stack a search is warned of**, when it finds nothing. -/
theorem make_warns_iff {s : OpenElements} {t : Tree} {call : StackCall} {w : Warning} :
    (call.make s t).2 = some w ↔ ∃ tags,
      (call.tags? = some tags ∧ ¬ ∃ id ∈ s, t.HasTagIn tags id) ∧
        w = OpenElements.notOpenWarning tags := by
  cases call with
  | popUntil tag =>
    rw [make, OpenElements.popUntil, OpenElements.popUntilOneOf_warns_iff]
    simp [tags?]
  | popUntilOneOf tags =>
    rw [make, OpenElements.popUntilOneOf_warns_iff]
    simp [tags?]
  | clearToLastMarker => simp [make, tags?, OpenElements.clearToLastMarker_warning]
  | _ => simp [make, tags?]

end StackCall

/-! ## Trees and stacks in use -/

/-- What can be done with trees and stacks that go by number. Any stack can be used with
any tree. What only looks at a tree or a stack is left out, as it answers with what it
finds and has no warning to give. The optional tracing of mutations, which prints a line
for every one of them past any log, is taken to be off. -/
inductive Operation where
  | call (tree : Nat) (call : Call)
  | stackCall (stack tree : Nat) (call : StackCall)
  | pushMarker (stack tree : Nat)
  /-- Put any tree in the place of one: a new one, a copy of another, one with a whole node
  written over, or what is left where an edit was led out of the arena. -/
  | putTree (tree : Nat) (t : Tree)
  /-- Put any stack in the place of one. -/
  | putStack (stack : Nat) (s : OpenElements)
  | clearWarnings

/-- Any number of trees and stacks and the one log of them all: at first the trees are
new, the stacks empty, and nothing has been reported. -/
structure Workspace where
  tree : Nat → Tree := fun _ => .new
  stack : Nat → OpenElements := fun _ => .empty
  log : WarningLog := .empty

namespace Workspace

def setTree (x : Workspace) (i : Nat) (t : Tree) : Workspace :=
  { x with tree := Function.update x.tree i t }

def setStack (x : Workspace) (k : Nat) (s : OpenElements) : Workspace :=
  { x with stack := Function.update x.stack k s }

/-- What an operation makes of trees, stacks and log, and what it warns of. A refused call
is gone on from with the tree that it leaves. -/
def perform (x : Workspace) : Operation → Workspace × Option Warning
  | .call i call =>
    match call.attempt (x.tree i) with
    | .ok o => (x.setTree i o.tree, o.warning?)
    | .error r => (x.setTree i r.tree, r.warning?)
  | .stackCall k i call =>
    let (s, warning?) := call.make (x.stack k) (x.tree i)
    (x.setStack k s, warning?)
  | .pushMarker k i =>
    let (_, s, t) := (x.stack k).pushMarker (x.tree i)
    ((x.setStack k s).setTree i t, none)
  | .putTree i t => (x.setTree i t, none)
  | .putStack k s => (x.setStack k s, none)
  | .clearWarnings => ({ x with log := .empty }, none)

/-- Perform an operation and report what it warns of: what is there afterwards, and the
line that is printed, if one is. -/
def step (x : Workspace) (op : Operation) : Workspace × Option String :=
  let (y, warning?) := x.perform op
  let (log, line?) := y.log.report? warning?
  ({ y with log := log }, line?)

def after (x : Workspace) (op : Operation) : Workspace := (x.step op).1

def printed (x : Workspace) (op : Operation) : Option String := (x.step op).2

/-- What is there after any operations. -/
def run (ops : List Operation) : Workspace := ops.foldl after {}

/-- The operation closes up to an element of just these tags, and none is open. -/
def Misses (x : Workspace) (tags : List Tag) (op : Operation) : Prop :=
  ∃ k i call, op = .stackCall k i call ∧ call.tags? = some tags ∧
    ¬ ∃ id ∈ x.stack k, (x.tree i).HasTagIn tags id

/-- The operation moves the children of a node onto that node. -/
def MovesOntoItself (x : Workspace) (op : Operation) : Prop :=
  ∃ i, ∃ id ∈ x.tree i, op = .call i (.edit (.reparentChildren id id))

variable {x : Workspace} {op : Operation} {ops : List Operation} {tags : List Tag} {w : Warning}

/-! ## One operation -/

theorem misses_stackCall_iff {k i : Nat} {call : StackCall} :
    x.Misses tags (.stackCall k i call) ↔
      call.tags? = some tags ∧ ¬ ∃ id ∈ x.stack k, (x.tree i).HasTagIn tags id := by
  constructor
  · rintro ⟨_, _, _, ⟨⟩, htags, hnone⟩
    exact ⟨htags, hnone⟩
  · rintro ⟨htags, hnone⟩
    exact ⟨k, i, call, rfl, htags, hnone⟩

theorem perform_call_warns_iff {i : Nat} {call : Call} :
    (x.perform (.call i call)).2 = some w ↔
      ∃ o, call.attempt (x.tree i) = .ok o ∧ o.warning? = some w := by
  rw [perform]
  split
  · next ho => simp [ho]
  · next hr => simp [hr, Call.warning?_of_refused hr]

/-- **An operation warns when it misses or moves children onto their parent.** -/
theorem perform_warns_iff : (x.perform op).2 = some w ↔
    (∃ tags, x.Misses tags op ∧ w = OpenElements.notOpenWarning tags) ∨
      x.MovesOntoItself op ∧ w = Tree.selfReparentWarning := by
  cases op with
  | call i call =>
    rw [perform_call_warns_iff, Call.warns_iff]
    simp [Misses, MovesOntoItself, and_comm]
  | stackCall k i call =>
    have honto : ¬ x.MovesOntoItself (.stackCall k i call) := by
      rintro ⟨i, id, -, h⟩
      cases h
    rw [perform, StackCall.make_warns_iff]
    simp only [misses_stackCall_iff, honto, false_and, or_false]
  | _ => simp [perform, Misses, MovesOntoItself]

/-- The warning of a search names the tags it looked for. -/
theorem perform_warns_notOpen_iff :
    (x.perform op).2 = some (OpenElements.notOpenWarning tags) ↔ x.Misses tags op := by
  rw [perform_warns_iff]
  constructor
  · rintro (⟨tags', hmisses, h⟩ | ⟨-, h⟩)
    · rwa [OpenElements.notOpenWarning_injective h]
    · exact absurd h (OpenElements.notOpenWarning_ne tags)
  · exact fun hmisses => .inl ⟨tags, hmisses, rfl⟩

/-- The other warning is of nothing but children moved onto their parent. -/
theorem perform_warns_selfReparent_iff :
    (x.perform op).2 = some Tree.selfReparentWarning ↔ x.MovesOntoItself op := by
  rw [perform_warns_iff]
  constructor
  · rintro (⟨tags, -, h⟩ | ⟨honto, -⟩)
    · exact absurd h.symm (OpenElements.notOpenWarning_ne tags)
    · exact honto
  · exact fun honto => .inr ⟨honto, rfl⟩

theorem plain_of_warns (hw : (x.perform op).2 = some w) : w.Plain := by
  rcases perform_warns_iff.1 hw with ⟨tags, -, rfl⟩ | ⟨-, rfl⟩
  · exact OpenElements.plain_notOpenWarning tags
  · exact Tree.plain_selfReparentWarning

theorem lineBreaks_of_warns (hw : (x.perform op).2 = some w) : lineBreaks w.line = 1 := by
  rcases perform_warns_iff.1 hw with ⟨tags, -, rfl⟩ | ⟨-, rfl⟩
  · exact OpenElements.lineBreaks_notOpenWarning tags
  · exact Tree.lineBreaks_selfReparentWarning

theorem log_after : (x.after op).log = ((x.perform op).1.log.report? (x.perform op).2).1 := rfl

/-- No operation but one takes anything from the log. -/
theorem log_perform (hop : op ≠ .clearWarnings) : (x.perform op).1.log = x.log := by
  cases op with
  | clearWarnings => exact absurd rfl hop
  | call i call =>
    rw [perform]
    split <;> rfl
  | _ => rfl

theorem hasReported_after (hop : op ≠ .clearWarnings) :
    (x.after op).log.hasReported w = true ↔
      x.log.hasReported w = true ∨ ∃ w', (x.perform op).2 = some w' ∧ w'.key = w.key := by
  rw [log_after, log_perform hop]
  cases (x.perform op).2 with
  | none => simp [WarningLog.report?]
  | some w' => simp [WarningLog.report?, WarningLog.hasReported_report]

/-- What an operation warns of is printed unless it has been reported. -/
theorem printed_eq : x.printed op =
    (x.perform op).2.bind fun w => if x.log.hasReported w then none else some w.line := by
  change ((x.perform op).1.log.report? (x.perform op).2).2 = _
  cases hw : (x.perform op).2 with
  | none => rfl
  | some w =>
    have hop : op ≠ .clearWarnings := by
      rintro rfl
      cases hw
    rw [log_perform hop]
    exact WarningLog.report_snd

/-! ## Runs -/

theorem run_concat : run (ops ++ [op]) = (run ops).after op := by simp [run]

/-- **What the log has after a run has been warned of** since it was cleared, in these
words. -/
theorem hasReported_run_iff : (run ops).log.hasReported w = true ↔
    SinceLast .clearWarnings
      (fun before op => ∃ w', ((run before).perform op).2 = some w' ∧ w'.key = w.key) ops := by
  induction ops using List.reverseRecOn with
  | nil => simp [run, WarningLog.empty, WarningLog.hasReported, not_sinceLast_nil]
  | append_singleton ops op ih =>
    rw [run_concat, sinceLast_concat]
    by_cases hop : op = .clearWarnings
    · subst hop
      simp [log_after, perform, WarningLog.report?, WarningLog.empty, WarningLog.hasReported]
    · rw [hasReported_after hop, ih, or_comm]
      simp [hop]

/-- No warning there is can be taken for another one. -/
theorem hasReported_run_iff_of_plain (hw : w.Plain) : (run ops).log.hasReported w = true ↔
    SinceLast .clearWarnings (fun before op => ((run before).perform op).2 = some w) ops := by
  rw [hasReported_run_iff]
  refine sinceLast_congr fun before op => ?_
  constructor
  · rintro ⟨w', hw', hkey⟩
    rwa [← ((plain_of_warns hw').readsLike_iff hw).1 (Warning.key_eq_iff.1 hkey)]
  · exact fun h => ⟨w, h, rfl⟩

/-- After some operations a line is printed for another one unless one of the same kind
came before it, and the log has not been cleared since. -/
structure PrintsOnce (P : Workspace → Operation → Prop) (line : String) (ops : List Operation)
    (op : Operation) : Prop where
  printed_iff : (run ops).printed op = some line ↔
    ¬ SinceLast .clearWarnings (fun before op => P (run before) op) ops
  silent_iff : (run ops).printed op = none ↔
    SinceLast .clearWarnings (fun before op => P (run before) op) ops

/-- The operations of a kind are those that give one warning. -/
theorem printsOnce_of_warns {P : Workspace → Operation → Prop} (hw : w.Plain)
    (hP : ∀ x op, (x.perform op).2 = some w ↔ P x op) (hop : P (run ops) op) :
    PrintsOnce P w.line ops op := by
  have hlog : (run ops).log.hasReported w = true ↔
      SinceLast .clearWarnings (fun before op => P (run before) op) ops := by
    rw [hasReported_run_iff_of_plain hw]
    exact sinceLast_congr fun before op => hP (run before) op
  have hprinted : (run ops).printed op =
      if (run ops).log.hasReported w then none else some w.line := by
    rw [printed_eq, (hP (run ops) op).2 hop]
    rfl
  constructor
  · rw [hprinted, ← hlog]
    simp
  · rw [hprinted, ← hlog]
    simp

/-- **No warning is kept back for another one.** After any operations on any trees and
stacks: what closes up to an element of some tags and finds none prints its line unless
since the last clearing this happened before with just these tags in this order, on
whatever stack; what moves the children of a node onto that node prints its line unless
since then this happened before, in whatever tree; and nothing else prints anything. What
is printed is one line. -/
theorem printed_once (ops : List Operation) (op : Operation) :
    (∀ tags, (run ops).Misses tags op →
        PrintsOnce (·.Misses tags ·) (OpenElements.notOpenWarning tags).line ops op) ∧
      ((run ops).MovesOntoItself op →
        PrintsOnce MovesOntoItself Tree.selfReparentWarning.line ops op) ∧
      ((∀ tags, ¬ (run ops).Misses tags op) → ¬ (run ops).MovesOntoItself op →
        (run ops).printed op = none) ∧
      ∀ line, (run ops).printed op = some line → lineBreaks line = 1 := by
  refine ⟨fun tags hmisses => ?_, fun honto => ?_, fun hmisses honto => ?_, fun line hline => ?_⟩
  · exact printsOnce_of_warns (OpenElements.plain_notOpenWarning tags)
      (fun _ _ => perform_warns_notOpen_iff) hmisses
  · exact printsOnce_of_warns Tree.plain_selfReparentWarning
      (fun _ _ => perform_warns_selfReparent_iff) honto
  · have hnone : ((run ops).perform op).2 = none := by
      refine Option.eq_none_iff_forall_ne_some.2 fun w hw => ?_
      rcases perform_warns_iff.1 hw with ⟨tags, hmissed, -⟩ | ⟨hmoved, -⟩
      · exact hmisses tags hmissed
      · exact honto hmoved
    rw [printed_eq, hnone]
    rfl
  · rw [printed_eq] at hline
    obtain ⟨w, hw, hprinted⟩ := Option.bind_eq_some_iff.1 hline
    split at hprinted
    · cases hprinted
    · rw [← Option.some.inj hprinted]
      exact lineBreaks_of_warns hw

/-- With a `p` open no heading is found. The same headings asked for in the other order
are warned of again, on an empty stack too, and in the same order they are not; and moving
the children of a document node onto it is warned of besides. -/
theorem printed_once_headings :
    let ops : List Operation := [.call 0 (.edit (.alloc (.detached (.element "p")))),
      .stackCall 0 0 (.push ⟨1⟩), .stackCall 0 0 (.popUntilOneOf [.h1, .h2])]
    let other : Operation := .stackCall 1 0 (.popUntilOneOf [.h2, .h1])
    let again : Operation := .stackCall 1 0 (.popUntilOneOf [.h1, .h2])
    let move : Operation := .call 1 (.edit (.reparentChildren .root .root))
    (run ops).Misses [.h2, .h1] other ∧ (run ops).Misses [.h1, .h2] again ∧
      (run ops).MovesOntoItself move ∧
      (run ops).printed other = some (OpenElements.notOpenWarning [.h2, .h1]).line ∧
      (run ops).printed again = none ∧
      (run ops).printed move = some Tree.selfReparentWarning.line ∧
      (run ops).printed .clearWarnings = none := by
  intro ops other again move
  have hnothing : ∀ tags, ¬ ∃ id ∈ (run ops).stack 1, ((run ops).tree 0).HasTagIn tags id := by
    rintro tags ⟨id, hid, -⟩
    have hempty : (run ops).stack 1 = .empty := rfl
    rw [hempty] at hid
    cases hid
  have hother : (run ops).Misses [.h2, .h1] other := ⟨1, 0, _, rfl, rfl, hnothing _⟩
  have hagain : (run ops).Misses [.h1, .h2] again := ⟨1, 0, _, rfl, rfl, hnothing _⟩
  have hmove : (run ops).MovesOntoItself move := ⟨1, .root, by decide, rfl⟩
  refine ⟨hother, hagain, hmove, ?_, ?_, ?_, ?_⟩
  · refine ((printed_once ops other).1 _ hother).printed_iff.2 ?_
    rintro ⟨before, op, later, h, ⟨k, i, call, rfl, htags, -⟩, -⟩
    have hmem : Operation.stackCall k i call ∈ ops := by simp [h]
    simp only [ops, List.mem_cons, List.not_mem_nil, or_false] at hmem
    rcases hmem with hcall | hcall | hcall
    · cases hcall
    · cases hcall
      cases htags
    · cases hcall
      cases htags
  · refine ((printed_once ops again).1 _ hagain).silent_iff.2 ?_
    refine ⟨ops.take 2, _, [], rfl, ⟨0, 0, _, rfl, rfl, ?_⟩, by simp⟩
    rintro ⟨id, hid, tag, htag, helement⟩
    obtain rfl := List.mem_singleton.1 hid
    have hp : ∀ tag ∈ [Tag.h1, .h2],
        ¬ ((run (ops.take 2)).tree 0).satisfies ⟨1⟩ (·.isHtmlElement tag) = true := by
      decide +kernel
    exact hp tag htag helement
  · refine ((printed_once ops move).2.1 hmove).printed_iff.2 ?_
    rintro ⟨before, op, later, h, ⟨i, id, -, rfl⟩, -⟩
    have hmem : Operation.call i (.edit (.reparentChildren id id)) ∈ ops := by simp [h]
    simp [ops] at hmem
  · refine (printed_once ops .clearWarnings).2.2.1 ?_ ?_
    · rintro tags ⟨k, i, call, h, -⟩
      cases h
    · rintro ⟨i, id, -, h⟩
      cases h

end Workspace

end DocumentTree
