import DocumentTree.Warning
import Mathlib.Data.List.Induction
/-!
# Warnings reported once

The log remembers of a warning the text it is rendered to, and no longer where in
that text the component ends and the message begins. So it takes two warnings for
the same when they read the same: `Warning.ReadsLike` says when they do
(`Warning.key_eq_iff`). A warning is printed unless one that reads like it has been
reported since the log was cleared (`WarningLog.reported_once`). For components that
hold no closing bracket of their own this is once for each warning, and for others
it need not be (`WarningLog.reported_as_another`).
-/

namespace DocumentTree

namespace Warning

variable {w w' : Warning}

/-! ## Reading the same -/

/-- A part of the message of the first warning is in the second one part of the
component. -/
def Shifts (w w' : Warning) : Prop :=
  ∃ part, w'.component = w.component ++ "] " ++ part ∧ w.message = part ++ "] " ++ w'.message

/-- The same warning, or one that is cut differently into component and
message. -/
def ReadsLike (w w' : Warning) : Prop := w = w' ∨ w.Shifts w' ∨ w'.Shifts w

/-- No bracket in the component can be taken for the one that ends it. -/
def Plain (w : Warning) : Prop := ¬ [']', ' '] <:+: w.component.toList

instance : DecidablePred Plain := fun w =>
  inferInstanceAs (Decidable ¬ [']', ' '] <:+: w.component.toList)

theorem toList_key :
    w.key.toList = '[' :: (w.component.toList ++ ']' :: ' ' :: w.message.toList) := by
  simp [key]

/-- A bracket that closes a longer text as well stands at its end or inside it. -/
theorem cases_of_close {more m m' : List Char}
    (h : ']' :: ' ' :: m = more ++ ']' :: ' ' :: m') :
    more = [] ∧ m = m' ∨ ∃ part, more = ']' :: ' ' :: part ∧ m = part ++ ']' :: ' ' :: m' := by
  match more with
  | [] => exact .inl ⟨rfl, by simpa using h⟩
  | [_] => simp at h
  | _ :: _ :: part =>
    obtain ⟨rfl, rfl, rfl⟩ : ']' = _ ∧ ' ' = _ ∧ m = _ := by simpa using h
    exact .inr ⟨part, rfl, rfl⟩

/-- **A key that can be cut behind a longer component too** has a part between the
two cuts that belongs to a message and to a component. -/
theorem eq_or_shifts {more : List Char} (hmore : w'.component.toList = w.component.toList ++ more)
    (h : w.key = w'.key) : w = w' ∨ w.Shifts w' := by
  rw [← String.toList_inj, toList_key, toList_key, hmore, List.append_assoc] at h
  have hclose := List.append_cancel_left (List.cons.inj h).2
  rcases cases_of_close hclose with ⟨rfl, hm⟩ | ⟨part, rfl, hm⟩
  · refine .inl ?_
    cases w
    cases w'
    simp_all [String.toList_inj]
  · refine .inr ⟨.ofList part, ?_, ?_⟩
    · simp [← String.toList_inj, hmore]
    · simp [← String.toList_inj, hm]

theorem Shifts.key_eq (h : w.Shifts w') : w.key = w'.key := by
  obtain ⟨part, hcomponent, hmessage⟩ := h
  simp only [key, hcomponent, hmessage, String.append_assoc]

/-- **Two warnings have one key when they read the same.** -/
theorem key_eq_iff : w.key = w'.key ↔ w.ReadsLike w' := by
  constructor
  · intro h
    have hlists := congrArg String.toList h
    rw [toList_key, toList_key] at hlists
    have hbehind := List.append_eq_append_iff.1 (List.cons.inj hlists).2
    -- one of the components goes on where the other ends
    rcases hbehind with ⟨more, hmore, -⟩ | ⟨more, hmore, -⟩
    · rcases eq_or_shifts hmore h with heq | hshifts
      · exact .inl heq
      · exact .inr (.inl hshifts)
    · rcases eq_or_shifts hmore h.symm with heq | hshifts
      · exact .inl heq.symm
      · exact .inr (.inr hshifts)
  · rintro (rfl | h | h)
    · rfl
    · exact h.key_eq
    · exact h.key_eq.symm

/-- What reads like a plain warning and is plain is that warning. -/
theorem Plain.readsLike_iff (h : w.Plain) (h' : w'.Plain) : w.ReadsLike w' ↔ w = w' := by
  refine ⟨?_, .inl⟩
  rintro (heq | ⟨part, hcomponent, -⟩ | ⟨part, hcomponent, -⟩)
  · exact heq
  · refine absurd ⟨w.component.toList, part.toList, ?_⟩ h'
    simp [hcomponent]
  · refine absurd ⟨w'.component.toList, part.toList, ?_⟩ h
    simp [hcomponent]

end Warning

/-! ## Since the last reset -/

/-- In a list of things done one after the other: since the last reset, or from the start,
one was done that was a `P` after those before it. -/
def SinceLast {α : Type} (reset : α) (P : List α → α → Prop) (l : List α) : Prop :=
  ∃ before a later, l = before ++ a :: later ∧ P before a ∧ reset ∉ later

section SinceLast

variable {α : Type} {reset last : α} {P Q : List α → α → Prop} {l : List α}

theorem not_sinceLast_nil : ¬ SinceLast reset P [] := by
  rintro ⟨before, a, later, h, -⟩
  simp at h

/-- What has been done since the last reset is the last thing done, or the last one is no
reset and it was done before that. -/
theorem sinceLast_concat :
    SinceLast reset P (l ++ [last]) ↔ P l last ∨ last ≠ reset ∧ SinceLast reset P l := by
  constructor
  · rintro ⟨before, a, later, h, ha, hreset⟩
    cases later using List.reverseRecOn with
    | nil =>
      obtain ⟨rfl, hlast⟩ := List.append_inj' h rfl
      obtain rfl := (List.cons.inj hlast).1
      exact .inl ha
    | append_singleton later last' =>
      rw [← List.cons_append, ← List.append_assoc] at h
      obtain ⟨rfl, hlast⟩ := List.append_inj' h rfl
      obtain rfl := (List.cons.inj hlast).1
      have hparts : last ≠ reset ∧ reset ∉ later := by simpa [and_comm, eq_comm] using hreset
      exact .inr ⟨hparts.1, before, a, later, rfl, ha, hparts.2⟩
  · rintro (hlast | ⟨hlast, before, a, later, rfl, ha, hreset⟩)
    · exact ⟨l, last, [], rfl, hlast, by simp⟩
    · exact ⟨before, a, later ++ [last], by simp, ha, by simp [hreset, hlast.symm]⟩

theorem sinceLast_congr (h : ∀ before a, P before a ↔ Q before a) :
    SinceLast reset P l ↔ SinceLast reset Q l := by
  simp only [SinceLast, h]

end SinceLast

namespace WarningLog

/-! ## Reports and clearings -/

/-- What is done with a log. -/
inductive Event where
  | report (w : Warning)
  | clear

variable {log : WarningLog} {events : List Event} {w w' : Warning}

/-- The log after an event. -/
def after (log : WarningLog) : Event → WarningLog
  | .report w => (log.report w).1
  | .clear => .empty

/-- The log after any events, at first with nothing reported. -/
def afterAll (events : List Event) : WarningLog := events.foldl after .empty

/-- A warning is among those reported since the last clearing. -/
def ReportedIn (events : List Event) (w : Warning) : Prop :=
  ∃ before later, events = before ++ .report w :: later ∧ .clear ∉ later

theorem afterAll_concat (event : Event) :
    afterAll (events ++ [event]) = (afterAll events).after event := by
  simp [afterAll]

theorem reportedIn_iff :
    ReportedIn events w ↔ SinceLast .clear (fun _ event => event = .report w) events := by
  constructor
  · rintro ⟨before, later, h, hclear⟩
    exact ⟨before, _, later, h, rfl, hclear⟩
  · rintro ⟨before, _, later, h, rfl, hclear⟩
    exact ⟨before, later, h, hclear⟩

theorem not_reportedIn_nil : ¬ ReportedIn [] w := fun h => not_sinceLast_nil (reportedIn_iff.1 h)

/-- The last event is the report itself, or one that takes nothing away. -/
theorem reportedIn_concat {event : Event} :
    ReportedIn (events ++ [event]) w ↔
      event = .report w ∨ event ≠ .clear ∧ ReportedIn events w := by
  rw [reportedIn_iff, reportedIn_iff, sinceLast_concat]

/-- A report comes on top of those there were. -/
theorem reportedIn_concat_report :
    ReportedIn (events ++ [.report w']) w ↔ ReportedIn events w ∨ w' = w := by
  rw [reportedIn_concat, or_comm]
  simp

/-- A clearing takes all reports away. -/
theorem not_reportedIn_concat_clear : ¬ ReportedIn (events ++ [.clear]) w := by
  rw [reportedIn_concat]
  simp

theorem hasReported_report :
    (log.report w').1.hasReported w = true ↔ log.hasReported w = true ∨ w'.key = w.key := by
  rw [report]
  split
  case isTrue hold =>
    -- a report that comes to nothing is of a key the log has
    refine ⟨.inl, ?_⟩
    rintro (h | hkey)
    · exact h
    · rwa [hasReported, ← hkey]
  case isFalse =>
    rw [hasReported, List.contains_cons, Bool.or_eq_true, beq_iff_eq, or_comm, hasReported,
      @eq_comm _ w.key]

theorem report_snd : (log.report w).2 = if log.hasReported w then none else some w.line := by
  rw [report]
  split <;> rfl

/-- **The log has reported what reads like a warning reported** since it was
cleared. -/
theorem hasReported_afterAll_iff :
    (afterAll events).hasReported w = true ↔ ∃ w', ReportedIn events w' ∧ w'.ReadsLike w := by
  induction events using List.reverseRecOn with
  | nil => simp [afterAll, empty, hasReported, not_reportedIn_nil]
  | append_singleton events event ih =>
    rw [afterAll_concat]
    cases event with
    | report w₀ =>
      rw [after, hasReported_report, ih, Warning.key_eq_iff]
      simp only [reportedIn_concat_report, or_and_right, exists_or, exists_eq_left']
    | clear =>
      simp [after, empty, hasReported, not_reportedIn_concat_clear]

/-- Of plain warnings the log has just those reported. -/
theorem hasReported_afterAll_iff_of_plain (hw : w.Plain)
    (hevents : ∀ w', ReportedIn events w' → w'.Plain) :
    (afterAll events).hasReported w = true ↔ ReportedIn events w := by
  rw [hasReported_afterAll_iff]
  constructor
  · rintro ⟨w', hreported, hreads⟩
    rwa [← ((hevents w' hreported).readsLike_iff hw).1 hreads]
  · exact fun h => ⟨w, h, .inl rfl⟩

/-- **A warning is reported once.** Whatever has been reported and cleared, the log
answers that it has reported a warning exactly when one that reads like it was
reported since the last clearing; and reporting the warning prints its line exactly
when none was. If the components hold no bracket that could be taken for their end,
the one that reads like it is the warning itself. -/
theorem reported_once (events : List Event) (w : Warning) :
    ((afterAll events).hasReported w = true ↔ ∃ w', ReportedIn events w' ∧ w'.ReadsLike w) ∧
      (((afterAll events).report w).2 = some w.line ↔
        ¬ ∃ w', ReportedIn events w' ∧ w'.ReadsLike w) ∧
      (((afterAll events).report w).2 = none ↔ ∃ w', ReportedIn events w' ∧ w'.ReadsLike w) ∧
      (w.Plain → (∀ w', ReportedIn events w' → w'.Plain) →
        ((∃ w', ReportedIn events w' ∧ w'.ReadsLike w) ↔ ReportedIn events w)) := by
  refine ⟨hasReported_afterAll_iff, ?_, ?_, fun hw hevents => ?_⟩
  · rw [report_snd, ← hasReported_afterAll_iff]
    simp
  · rw [report_snd, ← hasReported_afterAll_iff]
    simp
  · rw [← hasReported_afterAll_iff, hasReported_afterAll_iff_of_plain hw hevents]

/-- A message is printed for another component too, which may hold a bracket as
long as no blank follows it. -/
theorem reported_once_plain :
    (⟨"HTML[0]", "ignored"⟩ : Warning).Plain ∧
      (∀ w', ReportedIn [.report ⟨"DOM", "ignored"⟩] w' → w'.Plain) ∧
      ((afterAll [.report ⟨"DOM", "ignored"⟩]).report ⟨"HTML[0]", "ignored"⟩).2 =
        some (Warning.line ⟨"HTML[0]", "ignored"⟩) := by
  have honly : ∀ w', ReportedIn [.report ⟨"DOM", "ignored"⟩] w' → ⟨"DOM", "ignored"⟩ = w' :=
    fun w' h => ((@reportedIn_concat_report [] _ _).1 h).resolve_left not_reportedIn_nil
  have hplain : (⟨"HTML[0]", "ignored"⟩ : Warning).Plain := by decide +kernel
  have hplains : ∀ w', ReportedIn [.report ⟨"DOM", "ignored"⟩] w' → w'.Plain := fun w' h => by
    rw [← honly w' h]
    decide +kernel
  obtain ⟨-, hprinted, -, hitself⟩ :=
    reported_once [.report ⟨"DOM", "ignored"⟩] ⟨"HTML[0]", "ignored"⟩
  refine ⟨hplain, hplains, hprinted.2 fun h => ?_⟩
  have heq := honly _ ((hitself hplain hplains).1 h)
  simp at heq

/-- **A warning can be silenced by another**, whose component goes on with the
first words of its message. -/
theorem reported_as_another :
    ¬ ReportedIn [.report ⟨"a] b", "c"⟩] ⟨"a", "b] c"⟩ ∧
      (afterAll [.report ⟨"a] b", "c"⟩]).hasReported ⟨"a", "b] c"⟩ = true ∧
      ((afterAll [.report ⟨"a] b", "c"⟩]).report ⟨"a", "b] c"⟩).2 = none := by
  have hshifts : (⟨"a", "b] c"⟩ : Warning).Shifts ⟨"a] b", "c"⟩ := ⟨"b", rfl, rfl⟩
  have hold : (afterAll [.report ⟨"a] b", "c"⟩]).hasReported ⟨"a", "b] c"⟩ = true :=
    hasReported_afterAll_iff.2 ⟨⟨"a] b", "c"⟩, ⟨[], [], rfl, by simp⟩, .inr (.inr hshifts)⟩
  refine ⟨fun h => ?_, hold, by rw [report_snd, if_pos hold]⟩
  rcases (@reportedIn_concat_report [] _ _).1 h with h | h
  · exact not_reportedIn_nil h
  · simp at h

end WarningLog

end DocumentTree
