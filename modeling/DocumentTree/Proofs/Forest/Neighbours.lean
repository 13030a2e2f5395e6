import Mathlib.Data.List.Nodup
/-!
# Neighbours in a list

What follows an entry of a list and what precedes it, and how an insertion
or a removal changes that. A list without repetitions is cut in two at a
place, `front ++ back`, and everything is said about the cut: the entries at
either side of it are `front.getLast?` and `back.head?`, with `none` for the
end of the list that has been reached.
-/

namespace DocumentTree

variable {α : Type} [DecidableEq α] {l front back : List α} {a c : α} {b r : Option α}

/-- What follows the first occurrence of an entry. -/
def follower (a : α) : List α → Option α
  | [] => none
  | x :: l => if x = a then l.head? else follower a l

/-- What follows a place in a list. `none` is the place in front of it. -/
def nextIn (l : List α) : Option α → Option α
  | none => l.head?
  | some a => follower a l

/-- Put an entry right before another one, or last. -/
def insertBefore (c : α) (r : Option α) : List α → List α
  | [] => [c]
  | x :: l => if r = some x then c :: x :: l else x :: insertBefore c r l

theorem mem_of_follower (h : follower a l = some c) : a ∈ l ∧ c ∈ l := by
  induction l with
  | nil => simp [follower] at h
  | cons x l ih =>
    rw [follower] at h
    split at h
    · next hx => exact ⟨by simp [hx], List.mem_cons_of_mem _ (List.mem_of_head? h)⟩
    · exact ⟨List.mem_cons_of_mem _ (ih h).1, List.mem_cons_of_mem _ (ih h).2⟩

/-- Past the first entry, what follows a place is what follows it in the
rest. -/
theorem nextIn_cons {x : α} (h : b ≠ none) (hx : b ≠ some x) :
    nextIn (x :: l) b = nextIn l b := by
  cases b with
  | none => exact absurd rfl h
  | some a =>
    have hne : x ≠ a := fun he => hx (by rw [he])
    simp [nextIn, follower, hne]

/-- What follows the last entry before a cut is the first one behind it. -/
theorem nextIn_getLast? (h : (front ++ back).Nodup) :
    nextIn (front ++ back) front.getLast? = back.head? := by
  induction front with
  | nil => rfl
  | cons x front ih =>
    rw [List.cons_append, List.nodup_cons] at h
    cases front with
    | nil => simp [nextIn, follower]
    | cons y front =>
      have hlast : (x :: y :: front).getLast? = (y :: front).getLast? := rfl
      have hne : (y :: front).getLast? ≠ some x := fun he =>
        h.1 (List.mem_append_left _ (List.mem_of_getLast? he))
      rw [hlast, List.cons_append, nextIn_cons (by simp) hne]
      exact ih h.2

/-- What follows an entry is what stands behind it. -/
theorem follower_of_cut (h : (front ++ a :: back).Nodup) :
    follower a (front ++ a :: back) = back.head? := by
  have hcut : front ++ a :: back = (front ++ [a]) ++ back := by simp
  have hnext := nextIn_getLast? (hcut ▸ h)
  rw [List.getLast?_concat, ← hcut] at hnext
  exact hnext

/-- An entry that nothing follows is the last one. -/
theorem getLast?_of_follower_eq_none (hnd : l.Nodup) (ha : a ∈ l) (h : follower a l = none) :
    l.getLast? = some a := by
  obtain ⟨front, back, rfl⟩ := List.append_of_mem ha
  rw [follower_of_cut hnd, List.head?_eq_none_iff] at h
  simp [h]

/-- **An insertion changes what follows two places**: the one before the cut
and the one put there. -/
theorem nextIn_insert (h : (front ++ c :: back).Nodup) :
    nextIn (front ++ c :: back) b =
      if b = some c then back.head?
      else if b = front.getLast? then some c
      else nextIn (front ++ back) b := by
  induction front with
  | nil => cases b <;> simp [nextIn, follower, eq_comm]
  | cons x front ih =>
    rw [List.cons_append, List.nodup_cons] at h
    have hxc : x ≠ c := by
      rintro rfl
      exact h.1 (by simp)
    rcases eq_or_ne b none with rfl | hb
    · simp [nextIn, List.getLast?_cons]
    rcases eq_or_ne b (some x) with rfl | hbx
    · cases front with
      | nil => simp [nextIn, follower, hxc]
      | cons y front =>
        have hne : some x ≠ (y :: front).getLast? := fun he =>
          h.1 (List.mem_append_left _ (List.mem_of_getLast? he.symm))
        have hlast : (x :: y :: front).getLast? = (y :: front).getLast? := rfl
        rw [hlast, if_neg (by simpa using hxc), if_neg hne]
        simp [nextIn, follower]
    · rw [List.cons_append, nextIn_cons hb hbx, List.cons_append, nextIn_cons hb hbx, ih h.2]
      cases front with
      | nil => simp [hb, hbx]
      | cons y front => rfl

@[simp] theorem insertBefore_none : insertBefore c none l = l ++ [c] := by
  induction l with
  | nil => rfl
  | cons x l ih => simp [insertBefore, ih]

/-! ## Cuts -/

/-- An insertion cuts the list right before the reference. -/
theorem exists_insertBefore_eq (c : α) (hr : ∀ x ∈ r, x ∈ l) :
    ∃ front back, l = front ++ back ∧ back.head? = r ∧
      insertBefore c r l = front ++ c :: back := by
  induction l with
  | nil =>
    cases r with
    | none => exact ⟨[], [], rfl, rfl, rfl⟩
    | some x => simp at hr
  | cons x l ih =>
    by_cases hx : r = some x
    · exact ⟨[], x :: l, rfl, hx.symm, by simp [insertBefore, hx]⟩
    · have hr' : ∀ y ∈ r, y ∈ l := by
        intro y hy
        rcases List.mem_cons.1 (hr y hy) with rfl | hmem
        · exact absurd hy hx
        · exact hmem
      obtain ⟨front, back, rfl, hback, hins⟩ := ih hr'
      exact ⟨x :: front, back, rfl, hback, by simp [insertBefore, hx, hins]⟩

/-- At a cut the reference is the first entry behind it. -/
theorem insertBefore_of_cut (h : (front ++ back).Nodup) :
    insertBefore c back.head? (front ++ back) = front ++ c :: back := by
  induction front with
  | nil => cases back <;> simp [insertBefore]
  | cons x front ih =>
    rw [List.cons_append, List.nodup_cons] at h
    have hx : back.head? ≠ some x := fun he =>
      h.1 (List.mem_append_right _ (List.mem_of_head? he))
    rw [List.cons_append, insertBefore, if_neg hx, ih h.2, List.cons_append]

/-- An entry put into a list and taken out again leaves the list. -/
theorem erase_insertBefore (hc : c ∉ l) : (insertBefore c r l).erase c = l := by
  induction l with
  | nil => simp [insertBefore]
  | cons x l ih =>
    obtain ⟨hcx, hcl⟩ := not_or.1 (mt List.mem_cons.2 hc)
    rw [insertBefore]
    split
    · exact List.erase_cons_head ..
    · rw [List.erase_cons_tail (by simpa using Ne.symm hcx), ih hcl]

/-- **Entries put before different references may be put in either order**, as long
as neither is the reference of the other. -/
theorem insertBefore_comm {d : α} {s : Option α} (hr : ∀ x ∈ r, x ∈ l) (hs : ∀ x ∈ s, x ∈ l)
    (hrs : r ≠ s) (hrd : r ≠ some d) (hsc : s ≠ some c) :
    insertBefore d s (insertBefore c r l) = insertBefore c r (insertBefore d s l) := by
  induction l with
  | nil =>
    have hnone : ∀ {q : Option α}, (∀ x ∈ q, x ∈ ([] : List α)) → q = none := fun hq =>
      Option.eq_none_iff_forall_not_mem.2 fun x hx => List.not_mem_nil (hq x hx)
    exact absurd ((hnone hr).trans (hnone hs).symm) hrs
  | cons x l ih =>
    have hrest : ∀ {q : Option α}, q ≠ some x → (∀ y ∈ q, y ∈ x :: l) → ∀ y ∈ q, y ∈ l :=
      fun hqx hq y hy => (List.mem_cons.1 (hq y hy)).resolve_left fun hyx => hqx (hyx ▸ hy)
    by_cases hrx : r = some x
    · have hsx : s ≠ some x := hrx ▸ hrs.symm
      simp [insertBefore, hrx, hsc, hsx]
    · by_cases hsx : s = some x
      · simp [insertBefore, hsx, hrd, hrx]
      · simp [insertBefore, hrx, hsx, ih (hrest hrx hr) (hrest hsx hs)]

/-- A follower stands right behind a cut. -/
theorem exists_cut_of_follower (h : follower a l = some c) :
    ∃ front back, l = front ++ c :: back ∧ front.getLast? = some a := by
  induction l with
  | nil => simp [follower] at h
  | cons x l ih =>
    rw [follower] at h
    split at h
    · next hx =>
      obtain ⟨back, rfl⟩ := List.head?_eq_some_iff.1 h
      exact ⟨[x], back, rfl, by simp [hx]⟩
    · obtain ⟨front, back, rfl, hlast⟩ := ih h
      exact ⟨x :: front, back, rfl, by simp [List.getLast?_cons, hlast]⟩

/-- Read the other way round, the follower is followed by the entry. -/
theorem follower_reverse (hnd : l.Nodup) (h : follower a l = some c) :
    follower c l.reverse = some a := by
  obtain ⟨front, back, rfl, hlast⟩ := exists_cut_of_follower h
  have hrev : (front ++ c :: back).reverse = back.reverse ++ c :: front.reverse := by simp
  rw [hrev, follower_of_cut (hrev ▸ List.nodup_reverse.2 hnd), List.head?_reverse, hlast]

theorem follower_reverse_iff (hnd : l.Nodup) :
    follower c l.reverse = some a ↔ follower a l = some c := by
  refine ⟨fun h => ?_, follower_reverse hnd⟩
  have hback := follower_reverse (List.nodup_reverse.2 hnd) h
  rwa [List.reverse_reverse] at hback

end DocumentTree
