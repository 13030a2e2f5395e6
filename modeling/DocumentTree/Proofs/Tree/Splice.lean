import DocumentTree.Proofs.Forest.Edit
import DocumentTree.Proofs.Tree.Shows
import DocumentTree.Tree.Splice
/-!
# What a splice does to the forest shown

`link?` and `unlink?` write a handful of links. Said place by place, that is
an update of the parent of one node, of what follows two places and of what
precedes two; and it is the update that an insertion into a child list, or a
removal from one, asks for. So a splice of links that agree is a list
operation on the forest they show, and the loop that moves a child list is
one append (`Shows.exists_moves`). A splice leaves content alone (`Relinks`),
so splices that lead to one forest lead to one arena (`Shows.eq_of_relinks`).
-/

namespace DocumentTree

namespace Tree

variable {t t' t'' : Tree} {F : Forest} {p c d s id : NodeId} {r before after : Option NodeId}
variable {next prev : Option NodeId} {l : Links}

/-- The content of a node. -/
def content? (t : Tree) (id : NodeId) : Option Content := (t.get? id).map Node.toContent

/-- A node is its content and its links. -/
theorem get?_eq_of_content_links (t : Tree) (id : NodeId) :
    t.get? id = (t.content? id).bind fun c =>
      (t.links? id).map fun l => ({ toContent := c, links := l } : Node) := by
  rw [content?, links?]
  cases t.get? id <;> rfl

/-- Two arenas that differ in their links alone. -/
structure Relinks (t t' : Tree) : Prop where
  size_eq : t'.size = t.size
  content_eq : t'.content? = t.content?
  marker_eq : t'.marker = t.marker

namespace Relinks

theorem refl (t : Tree) : t.Relinks t := ⟨rfl, rfl, rfl⟩

theorem trans (h : t.Relinks t') (h' : t'.Relinks t'') : t.Relinks t'' :=
  ⟨h'.size_eq.trans h.size_eq, h'.content_eq.trans h.content_eq, h'.marker_eq.trans h.marker_eq⟩

theorem symm (h : t.Relinks t') : t'.Relinks t :=
  ⟨h.size_eq.symm, h.content_eq.symm, h.marker_eq.symm⟩

theorem mem_iff (h : t.Relinks t') : id ∈ t' ↔ id ∈ t := by
  rw [mem_iff_lt, mem_iff_lt, h.size_eq]

/-- Where the links are the same too nothing differs. -/
theorem eq_of_links? (h : t.Relinks t') (hlinks : t'.links? = t.links?) : t' = t := by
  have hnode : ∀ id, t'.get? id = t.get? id := fun id => by
    rw [get?_eq_of_content_links, h.content_eq, hlinks, ← get?_eq_of_content_links]
  obtain ⟨nodes, marker⟩ := t
  obtain ⟨nodes', marker'⟩ := t'
  obtain rfl : marker' = marker := h.marker_eq
  congr 1
  exact Array.ext_getElem? fun i => hnode ⟨i⟩

end Relinks

/-! ## Writing links -/

/-- A link read after a write to the links of one node. -/
theorem bind_links?_modify (hl : t.links? id = some l) (f : Links → Links)
    (g : Links → Option NodeId) (other : NodeId) :
    ((t.modify id fun n => { n with links := f n.links }).links? other).bind g =
      if other = id then g (f l) else (t.links? other).bind g := by
  rw [links?, get?_modify]
  rcases eq_or_ne id other with rfl | hne
  · obtain ⟨n, hn, rfl⟩ := Option.map_eq_some_iff.1 hl
    simp [hn]
  · simp [hne, hne.symm, links?]

/-- **A write to the links of one node, place by place.** -/
theorem exists_modifyLinks? (hl : t.links? id = some l) (f : Links → Links) :
    ∃ t', t.modifyLinks? id f = some t' ∧ t.Relinks t' ∧
      t'.parent? = Function.update t.parent? id (f l).parent ∧
      t'.next? = Function.update (Function.update t.next? (.edge id) (f l).firstChild)
        (.entry id) (f l).nextSibling ∧
      t'.prev? = Function.update (Function.update t.prev? (.edge id) (f l).lastChild)
        (.entry id) (f l).prevSibling := by
  have hid : id ∈ t := by
    obtain ⟨n, hn, -⟩ := Option.map_eq_some_iff.1 hl
    exact mem_iff_get?.2 ⟨n, hn⟩
  refine ⟨_, by rw [modifyLinks?, modify?, if_pos hid], ⟨size_modify, ?_, rfl⟩, ?_, ?_, ?_⟩
  · funext other
    rw [content?, get?_modify]
    split
    · cases h : t.get? other <;> simp [content?, h]
    · rfl
  · funext other
    rw [parent?, bind_links?_modify hl, Function.update_apply, parent?]
  · funext place
    cases place with
    | edge other =>
      rw [next?, firstChild?, bind_links?_modify hl]
      simp [Function.update_apply, next?, firstChild?]
    | entry other =>
      rw [next?, nextSibling?, bind_links?_modify hl]
      simp [Function.update_apply, next?, nextSibling?]
  · funext place
    cases place with
    | edge other =>
      rw [prev?, lastChild?, bind_links?_modify hl]
      simp [Function.update_apply, prev?, lastChild?]
    | entry other =>
      rw [prev?, prevSibling?, bind_links?_modify hl]
      simp [Function.update_apply, prev?, prevSibling?]

/-- What the links of a slot are, place by place. -/
theorem places_of_links? (hl : t.links? id = some l) :
    t.parent? id = l.parent ∧ t.next? (.edge id) = l.firstChild ∧
      t.next? (.entry id) = l.nextSibling ∧ t.prev? (.edge id) = l.lastChild ∧
      t.prev? (.entry id) = l.prevSibling :=
  ⟨parent?_of_links? hl, firstChild?_of_links? hl, nextSibling?_of_links? hl,
    lastChild?_of_links? hl, prevSibling?_of_links? hl⟩

/-- **Writing what follows a place writes nothing else.** -/
theorem exists_setNextOf? (hp : p ∈ t) (hb : ∀ x ∈ before, x ∈ t) (next : Option NodeId) :
    ∃ t', t.setNextOf? p before next = some t' ∧ t.Relinks t' ∧ t'.parent? = t.parent? ∧
      t'.next? = Function.update t.next? (.of p before) next ∧ t'.prev? = t.prev? := by
  cases before with
  | none =>
    obtain ⟨l, hl⟩ := exists_links?_of_mem hp
    obtain ⟨hparent, -, hn, hedge, hprev⟩ := places_of_links? hl
    obtain ⟨t', h, hsame, hparent', hnext', hprev'⟩ :=
      exists_modifyLinks? hl ({ · with firstChild := next })
    refine ⟨t', h, hsame, ?_, ?_, ?_⟩
    · rw [hparent', ← hparent, Function.update_eq_self]
    · rw [hnext', Function.update_comm (by simp), ← hn, Function.update_eq_self, Place.of]
    · rw [hprev', ← hedge, Function.update_eq_self, ← hprev, Function.update_eq_self]
  | some x =>
    obtain ⟨l, hl⟩ := exists_links?_of_mem (hb x rfl)
    obtain ⟨hparent, hedge', -, hedge, hprev⟩ := places_of_links? hl
    obtain ⟨t', h, hsame, hparent', hnext', hprev'⟩ :=
      exists_modifyLinks? hl ({ · with nextSibling := next })
    refine ⟨t', h, hsame, ?_, ?_, ?_⟩
    · rw [hparent', ← hparent, Function.update_eq_self]
    · rw [hnext', ← hedge', Function.update_eq_self, Place.of]
    · rw [hprev', ← hedge, Function.update_eq_self, ← hprev, Function.update_eq_self]

/-- **Writing what precedes a place writes nothing else.** -/
theorem exists_setPrevOf? (hp : p ∈ t) (ha : ∀ x ∈ after, x ∈ t) (prev : Option NodeId) :
    ∃ t', t.setPrevOf? p after prev = some t' ∧ t.Relinks t' ∧ t'.parent? = t.parent? ∧
      t'.next? = t.next? ∧ t'.prev? = Function.update t.prev? (.of p after) prev := by
  cases after with
  | none =>
    obtain ⟨l, hl⟩ := exists_links?_of_mem hp
    obtain ⟨hparent, hedge, hnext, -, hn⟩ := places_of_links? hl
    obtain ⟨t', h, hsame, hparent', hnext', hprev'⟩ :=
      exists_modifyLinks? hl ({ · with lastChild := prev })
    refine ⟨t', h, hsame, ?_, ?_, ?_⟩
    · rw [hparent', ← hparent, Function.update_eq_self]
    · rw [hnext', ← hedge, Function.update_eq_self, ← hnext, Function.update_eq_self]
    · rw [hprev', Function.update_comm (by simp), ← hn, Function.update_eq_self, Place.of]
  | some x =>
    obtain ⟨l, hl⟩ := exists_links?_of_mem (ha x rfl)
    obtain ⟨hparent, hedge, hnext, hedge', -⟩ := places_of_links? hl
    obtain ⟨t', h, hsame, hparent', hnext', hprev'⟩ :=
      exists_modifyLinks? hl ({ · with prevSibling := prev })
    refine ⟨t', h, hsame, ?_, ?_, ?_⟩
    · rw [hparent', ← hparent, Function.update_eq_self]
    · rw [hnext', ← hedge, Function.update_eq_self, ← hnext, Function.update_eq_self]
    · rw [hprev', ← hedge', Function.update_eq_self, Place.of]

theorem prevOf?_eq (hp : p ∈ t) (ha : ∀ x ∈ after, x ∈ t) :
    t.prevOf? p after = some (t.prev? (.of p after)) := by
  cases after with
  | none =>
    obtain ⟨l, hl⟩ := exists_links?_of_mem hp
    simp [prevOf?, hl, Place.of, prev?, lastChild?]
  | some x =>
    obtain ⟨l, hl⟩ := exists_links?_of_mem (ha x rfl)
    simp [prevOf?, hl, Place.of, prev?, prevSibling?]

/-! ## Splices -/

/-- **What `link?` writes**, where the nodes it meets are in the arena. -/
theorem exists_link? (hp : p ∈ t) (hc : c ∈ t) (hr : ∀ x ∈ r, x ∈ t)
    (hprev : ∀ x ∈ t.prev? (.of p r), x ∈ t) :
    ∃ t', t.link? p c r = some t' ∧ t.Relinks t' ∧
      t'.parent? = Function.update t.parent? c (some p) ∧
      t'.next? = Function.update (Function.update t.next? (.entry c) r)
        (.of p (t.prev? (.of p r))) (some c) ∧
      t'.prev? = Function.update (Function.update t.prev? (.entry c) (t.prev? (.of p r)))
        (.of p r) (some c) := by
  obtain ⟨l, hl⟩ := exists_links?_of_mem hc
  obtain ⟨-, hedge, -, hedge', -⟩ := places_of_links? hl
  obtain ⟨t₁, h₁, hsame₁, hparent₁, hnext₁, hprev₁⟩ := exists_modifyLinks? hl
    ({ · with parent := some p, prevSibling := t.prev? (.of p r), nextSibling := r })
  rw [← hedge, Function.update_eq_self] at hnext₁
  rw [← hedge', Function.update_eq_self] at hprev₁
  obtain ⟨t₂, h₂, hsame₂, hparent₂, hnext₂, hprev₂⟩ := exists_setNextOf?
    (hsame₁.mem_iff.2 hp) (fun x hx => hsame₁.mem_iff.2 (hprev x hx)) (some c)
  have hsame := hsame₁.trans hsame₂
  obtain ⟨t₃, h₃, hsame₃, hparent₃, hnext₃, hprev₃⟩ := exists_setPrevOf?
    (hsame.mem_iff.2 hp) (fun x hx => hsame.mem_iff.2 (hr x hx)) (some c)
  refine ⟨t₃, ?_, hsame.trans hsame₃, ?_, ?_, ?_⟩
  · simp [link?, prevOf?_eq hp hr, h₁, h₂, h₃]
  · rw [hparent₃, hparent₂, hparent₁]
  · rw [hnext₃, hnext₂, hnext₁]
  · rw [hprev₃, hprev₂, hprev₁]

/-- **What `unlink?` writes.** -/
theorem exists_unlink? (hp : p ∈ t) (hc : c ∈ t) (hnext : ∀ x ∈ t.next? (.entry c), x ∈ t)
    (hprev : ∀ x ∈ t.prev? (.entry c), x ∈ t) :
    ∃ t', t.unlink? p c = some t' ∧ t.Relinks t' ∧
      t'.parent? = Function.update t.parent? c none ∧
      t'.next? = Function.update (Function.update t.next? (.of p (t.prev? (.entry c)))
        (t.next? (.entry c))) (.entry c) none ∧
      t'.prev? = Function.update (Function.update t.prev? (.of p (t.next? (.entry c)))
        (t.prev? (.entry c))) (.entry c) none := by
  obtain ⟨l, hl⟩ := exists_links?_of_mem hc
  obtain ⟨-, -, hn, -, hpr⟩ := places_of_links? hl
  obtain ⟨t₁, h₁, hsame₁, hparent₁, hnext₁, hprev₁⟩ :=
    exists_setNextOf? hp hprev (t.next? (.entry c))
  obtain ⟨t₂, h₂, hsame₂, hparent₂, hnext₂, hprev₂⟩ := exists_setPrevOf?
    (hsame₁.mem_iff.2 hp) (fun x hx => hsame₁.mem_iff.2 (hnext x hx)) (t.prev? (.entry c))
  have hsame := hsame₁.trans hsame₂
  obtain ⟨l₂, hl₂⟩ := exists_links?_of_mem (hsame.mem_iff.2 hc)
  obtain ⟨-, hedge, -, hedge', -⟩ := places_of_links? hl₂
  obtain ⟨t₃, h₃, hsame₃, hparent₃, hnext₃, hprev₃⟩ := exists_modifyLinks? hl₂
    ({ · with parent := none, prevSibling := none, nextSibling := none })
  rw [← hedge, Function.update_eq_self] at hnext₃
  rw [← hedge', Function.update_eq_self] at hprev₃
  rw [hn, hpr] at h₁ h₂
  refine ⟨t₃, ?_, hsame.trans hsame₃, ?_, ?_, ?_⟩
  · simp [unlink?, hl, h₁, h₂, h₃]
  · rw [hparent₃, hparent₂, hparent₁]
  · rw [hnext₃, hnext₂, hnext₁]
  · rw [hprev₃, hprev₂, hprev₁]

/-! ## Splices of what is shown -/

/-- **`link?` inserts into a child list.** -/
theorem Shows.exists_link? (h : t.Shows F) (hF : F.WellFormed) (hp : p ∈ t) (hc : c ∈ t)
    (hcp : F.parent c = none) (hr : ∀ x ∈ r, F.parent x = some p) :
    ∃ t', t.link? p c r = some t' ∧ t.Relinks t' ∧ t'.Shows (F.insert p c r) := by
  have hrt : ∀ x ∈ r, x ∈ t := fun x hx => h.mem_iff.2 (hF.parent_lt x p (hr x hx)).1
  have hprevt : ∀ x ∈ t.prev? (.of p r), x ∈ t := fun x hx =>
    h.mem_iff.2 (hF.lt_of_prev (h.prev_eq ▸ hx))
  obtain ⟨t', ht', hsame, hparent, hnext, hprev⟩ := Tree.exists_link? hp hc hrt hprevt
  refine ⟨t', ht', hsame, ?_, ?_, ?_, ?_⟩
  · exact hsame.size_eq.trans h.size_eq
  · rw [hparent, h.parent_eq]
    rfl
  · rw [hnext, h.next_eq, h.prev_eq, hF.next_insert hcp hr]
  · rw [hprev, h.prev_eq, hF.prev_insert hcp hr]

/-- **`unlink?` takes a child out of its list.** -/
theorem Shows.exists_unlink? (h : t.Shows F) (hF : F.WellFormed) (hc : F.parent c = some p) :
    ∃ t', t.unlink? p c = some t' ∧ t.Relinks t' ∧ t'.Shows (F.remove p c) := by
  obtain ⟨hct, hpt⟩ := hF.parent_lt c p hc
  have hnextt : ∀ x ∈ t.next? (.entry c), x ∈ t := fun x hx =>
    h.mem_iff.2 (hF.lt_of_next (h.next_eq ▸ hx))
  have hprevt : ∀ x ∈ t.prev? (.entry c), x ∈ t := fun x hx =>
    h.mem_iff.2 (hF.lt_of_prev (h.prev_eq ▸ hx))
  obtain ⟨t', ht', hsame, hparent, hnext, hprev⟩ :=
    Tree.exists_unlink? (h.mem_iff.2 hpt) (h.mem_iff.2 hct) hnextt hprevt
  refine ⟨t', ht', hsame, ?_, ?_, ?_, ?_⟩
  · exact hsame.size_eq.trans h.size_eq
  · rw [hparent, h.parent_eq]
    rfl
  · rw [hnext, h.next_eq, h.prev_eq, hF.next_remove hc]
  · rw [hprev, h.next_eq, h.prev_eq, hF.prev_remove hc]

/-- **Arenas that differ in their links alone and show one forest do not
differ.** -/
theorem Shows.eq_of_relinks (h : t.Shows F) (h' : t'.Shows F) (hsame : t.Relinks t') : t' = t :=
  hsame.eq_of_links? (h.links?_eq h')

/-! ## The loop that moves a child list -/

/-- The loop makes `n` rounds and is done: each takes the child of `s` that
is first by then, and puts it last into the list of `d`. -/
inductive Moves (d s : NodeId) : Tree → Nat → Tree → Prop
  | done {t : Tree} {l : Links} (hl : t.links? s = some l) (h : l.firstChild = none) :
      Moves d s t 0 t
  | round {t t₁ t₂ t' : Tree} {l : Links} {c : NodeId} {n : Nat} (hl : t.links? s = some l)
      (h : l.firstChild = some c) (h₁ : t.unlink? s c = some t₁)
      (h₂ : t₁.link? d c none = some t₂) (rest : Moves d s t₂ n t') : Moves d s t (n + 1) t'

/-- The loop is done in one way. -/
theorem Moves.unique {n m : Nat} (h : t.Moves d s n t') (h' : t.Moves d s m t'') :
    n = m ∧ t' = t'' := by
  induction h generalizing m with
  | done hl h =>
    cases h' with
    | done => exact ⟨rfl, rfl⟩
    | round hl' h' =>
      obtain rfl := Option.some.inj (hl.symm.trans hl')
      simp [h] at h'
  | round hl h h₁ h₂ _ ih =>
    cases h' with
    | done hl' h' =>
      obtain rfl := Option.some.inj (hl.symm.trans hl')
      simp [h] at h'
    | round hl' h' h₁' h₂' rest =>
      obtain rfl := Option.some.inj (hl.symm.trans hl')
      obtain rfl := Option.some.inj (h.symm.trans h')
      obtain rfl := Option.some.inj (h₁.symm.trans h₁')
      obtain rfl := Option.some.inj (h₂.symm.trans h₂')
      obtain ⟨rfl, rfl⟩ := ih rest
      exact ⟨rfl, rfl⟩

/-- **The bounded loop is exact.** It finds precisely the runs that are done
within the bound. -/
theorem moveChildren?_eq_some_iff {n : Nat} :
    t.moveChildren? d s n = some t' ↔ ∃ k ≤ n, t.Moves d s k t' := by
  induction n generalizing t with
  | zero =>
    constructor
    · intro h
      obtain ⟨l, hl, h⟩ := Option.bind_eq_some_iff.1 h
      obtain ⟨hfirst, h⟩ := Option.ite_none_right_eq_some.1 h
      obtain rfl := Option.some.inj h
      exact ⟨0, Nat.le_refl 0, .done hl hfirst⟩
    · rintro ⟨k, hk, h⟩
      cases h with
      | done hl hfirst => simp [moveChildren?, hl, hfirst]
      | round => omega
  | succ n ih =>
    constructor
    · intro h
      obtain ⟨l, hl, h⟩ := Option.bind_eq_some_iff.1 h
      split at h
      · next hfirst =>
        obtain rfl := Option.some.inj h
        exact ⟨0, Nat.zero_le _, .done hl hfirst⟩
      · next c hfirst =>
        obtain ⟨t₁, h₁, h⟩ := Option.bind_eq_some_iff.1 h
        obtain ⟨t₂, h₂, h⟩ := Option.bind_eq_some_iff.1 h
        obtain ⟨k, hk, hrest⟩ := ih.1 h
        exact ⟨k + 1, Nat.succ_le_succ hk, .round hl hfirst h₁ h₂ hrest⟩
    · rintro ⟨k, hk, h⟩
      cases h with
      | done hl hfirst => simp [moveChildren?, hl, hfirst]
      | round hl hfirst h₁ h₂ hrest =>
        have hmove := ih.2 ⟨_, Nat.le_of_succ_le_succ hk, hrest⟩
        simp [moveChildren?, hl, hfirst, h₁, h₂, hmove]

/-- **The loop empties one list into another**, in exactly as many rounds as
there are children to move. Each round meets a forest that is well formed
and whose destination is not below the source. By induction on the list that
is left of the source. -/
theorem Shows.exists_moves (h : t.Shows F) (hF : F.WellFormed) (hd : d ∈ t) (hs : s ∈ t)
    (hds : d ≠ s) (hbelow : ¬ F.Below d s) :
    ∃ t', t.Moves d s (F.children s).length t' ∧ t.Relinks t' ∧ (F.moveAll d s).WellFormed ∧
      t'.Shows (F.moveAll d s) := by
  induction hlist : F.children s generalizing t F with
  | nil =>
    obtain ⟨l, hl⟩ := exists_links?_of_mem hs
    have hfirst : l.firstChild = none := by
      rw [← firstChild?_of_links? hl, h.firstChild?_eq, hlist, List.head?_nil]
    rw [Forest.moveAll_of_nil hlist]
    exact ⟨t, .done hl hfirst, .refl t, hF, h⟩
  | cons c rest ih =>
    obtain ⟨l, hl⟩ := exists_links?_of_mem hs
    have hfirst : l.firstChild = some c := by
      rw [← firstChild?_of_links? hl, h.firstChild?_eq, hlist, List.head?_cons]
    have hc : F.parent c = some s := (hF.mem_children s c).1 (by simp [hlist])
    -- one round: `c` leaves the list of `s` and goes to the end of that of `d`
    obtain ⟨t₁, h₁, hsame₁, hshows₁⟩ := h.exists_unlink? hF hc
    obtain ⟨t₂, h₂, hsame₂, hshows₂⟩ := hshows₁.exists_link? (hF.remove hc)
      (hsame₁.mem_iff.2 hd) (hsame₁.mem_iff.2 (h.mem_iff.2 (hF.parent_lt c s hc).1))
      Forest.parent_remove_self (r := none) (by simp)
    obtain ⟨hF₂, hbelow₂⟩ := hF.move (h.mem_iff.1 hd) hbelow hc
    have hsame := hsame₁.trans hsame₂
    have hrest : ((F.remove s c).insert d c none).children s = rest := by
      simp [Forest.insert, Forest.remove, hds.symm, hlist]
    obtain ⟨t₃, hmoves, hsame₃, hwf, hshows⟩ :=
      ih hshows₂ hF₂ (hsame.mem_iff.2 hd) (hsame.mem_iff.2 hs) hbelow₂ hrest
    rw [Forest.moveAll_cons hds hlist] at hwf hshows
    exact ⟨t₃, .round hl hfirst h₁ h₂ hmoves, hsame.trans hsame₃, hwf, hshows⟩

/-- A bound on the moves that is no less than the number of children is
enough. -/
theorem Shows.exists_moveChildren? {n : Nat} (h : t.Shows F) (hF : F.WellFormed) (hd : d ∈ t)
    (hs : s ∈ t) (hds : d ≠ s) (hbelow : ¬ F.Below d s) (hn : (F.children s).length ≤ n) :
    ∃ t', t.moveChildren? d s n = some t' ∧ t.Relinks t' ∧ (F.moveAll d s).WellFormed ∧
      t'.Shows (F.moveAll d s) := by
  obtain ⟨t', hmoves, hrest⟩ := h.exists_moves hF hd hs hds hbelow
  exact ⟨t', moveChildren?_eq_some_iff.2 ⟨_, hn, hmoves⟩, hrest⟩

end Tree

end DocumentTree
