import DocumentTree.Proofs.Call.Refusal
import DocumentTree.Proofs.Forest.Edit
import DocumentTree.Proofs.Forest.Preorder
/-!
# What calls ask for

The law that decides a call is read downwards: from child lists and from
what lies below a node in tree order. It is a list of demands, each with the
refusal it earns, and the first demand not met is the answer. The forest
that edits are measured against decides by the same list, so it needs no
arena to tell it which edits count (`Forest.perform`).
-/

namespace DocumentTree

/-- A condition on a call, and the refusal where it fails. -/
structure Demand where
  met : Bool
  refusal : EditError

def demand (p : Prop) [Decidable p] (e : EditError) : Demand := ⟨decide p, e⟩

/-- The refusal of the first demand that is not met. -/
def firstRefusal : List Demand → Option EditError
  | [] => none
  | d :: ds => if d.met then firstRefusal ds else some d.refusal

/-- Go through the demands in order, and stop at the first that is not
met. -/
def requireAll (ds : List Demand) : Except EditError Unit := ds.forM fun d => require d.met d.refusal

section Demands

variable {p q : Prop} [Decidable p] [Decidable q] {d : Demand} {ds : List Demand} {e : EditError}

@[simp] theorem met_demand : (demand p e).met = true ↔ p := by
  simp [demand]

theorem requireAll_cons :
    requireAll (demand p e :: ds) = (do require p e; requireAll ds) := by
  by_cases hp : p <;> simp [requireAll, demand, require, hp]

theorem firstRefusal_eq_none_iff : firstRefusal ds = none ↔ ∀ d ∈ ds, d.met = true := by
  induction ds with
  | nil => simp [firstRefusal]
  | cons d ds ih => by_cases hd : d.met <;> simp [firstRefusal, hd, ih]

/-- **Going through the demands gives the first refusal.** -/
theorem requireAll_eq :
    requireAll ds = match firstRefusal ds with | none => .ok () | some e => .error e := by
  induction ds with
  | nil => rfl
  | cons d ds ih =>
    obtain ⟨met, refusal⟩ := d
    cases met
    · rfl
    · exact ih

theorem requireAll_eq_ok_iff : requireAll ds = .ok () ↔ ∀ d ∈ ds, d.met = true := by
  rw [requireAll_eq, ← firstRefusal_eq_none_iff]
  cases firstRefusal ds <;> simp

/-- A refusal is that of a demand. -/
theorem exists_of_firstRefusal (h : firstRefusal ds = some e) : ∃ d ∈ ds, d.refusal = e := by
  induction ds with
  | nil => cases h
  | cons d ds ih =>
    rw [firstRefusal] at h
    split at h
    · obtain ⟨d', hd', he⟩ := ih h
      exact ⟨d', List.mem_cons_of_mem _ hd', he⟩
    · exact ⟨d, List.mem_cons_self .., Option.some.inj h⟩

/-- A demand tested one way may be stated another, as long as the two agree
where it comes to the test. -/
theorem require_bind_congr {α : Type} {k k' : Except EditError α} (h : p ↔ q) (hk : p → k = k') :
    (do require p e; k) = (do require q e; k') := by
  by_cases hp : p
  · simp [require, hp, h.1 hp, hk hp]
  · simp [require, hp, mt h.2 hp, bind, Except.bind]

@[simp] theorem requireAll_singleton : requireAll [demand p e] = require p e := by
  by_cases hp : p <;> simp [requireAll, demand, require, hp]

/-- The last test has nothing behind it. -/
theorem require_eq_bind (h : p ↔ q) : require p e = (do require q e; requireAll []) := by
  by_cases hp : p
  · simp [require, hp, h.1 hp, requireAll]
  · simp [require, hp, mt h.2 hp, bind, Except.bind]

end Demands

/-! ## Deciding by demands -/

/-- The demands decide: the first that is not met is the refusal, and where
all are met there is an outcome, and `Q` holds of it. -/
structure DecidedBy (x : Except Refusal Outcome) (ds : List Demand) (Q : Outcome → Prop) :
    Prop where
  refused : ∀ e, firstRefusal ds = some e → ∃ r, x = .error r ∧ r.error = e
  accepted : firstRefusal ds = none → ∃ o, x = .ok o ∧ Q o

namespace DecidedBy

variable {x : Except Refusal Outcome} {ds : List Demand} {Q : Outcome → Prop} {o : Outcome}
variable {e : EditError} {r : Refusal} {α : Type} {y : Except Refusal α} {g : α → Outcome}

/-- What tests all demands first is decided by them. -/
theorem of_requireAll {t : Tree} {z : Except Refusal α}
    (hy : y = do t.refusing (requireAll ds); z)
    (hz : (∀ d ∈ ds, d.met = true) → ∃ a, z = .ok a ∧ Q (g a)) : DecidedBy (y.map g) ds Q where
  refused e he := by
    rw [hy, requireAll_eq, he]
    exact ⟨_, rfl, rfl⟩
  accepted hnone := by
    obtain ⟨a, rfl, ha⟩ := hz (firstRefusal_eq_none_iff.1 hnone)
    rw [hy, requireAll_eq, hnone]
    exact ⟨g a, rfl, ha⟩

/-- What demands nothing is accepted. -/
theorem of_ok (h : Q o) : DecidedBy (.ok o) [] Q where
  refused e he := by simp [firstRefusal] at he
  accepted _ := ⟨o, rfl, h⟩

theorem firstRefusal_eq (h : DecidedBy x ds Q) (hr : x = .error r) :
    firstRefusal ds = some r.error := by
  cases hf : firstRefusal ds with
  | some e =>
    obtain ⟨r', hr', rfl⟩ := h.refused e hf
    rw [Except.error.inj (hr.symm.trans hr')]
  | none =>
    obtain ⟨o, ho, -⟩ := h.accepted hf
    cases hr.symm.trans ho

theorem error_iff (h : DecidedBy x ds Q) :
    (∃ r, x = .error r ∧ r.error = e) ↔ firstRefusal ds = some e := by
  constructor
  · rintro ⟨r, hr, rfl⟩
    exact h.firstRefusal_eq hr
  · exact h.refused e

theorem ok_iff (h : DecidedBy x ds Q) : (∃ o, x = .ok o) ↔ ∀ d ∈ ds, d.met = true := by
  rw [← firstRefusal_eq_none_iff]
  constructor
  · rintro ⟨o, rfl⟩
    cases hf : firstRefusal ds with
    | none => rfl
    | some e =>
      obtain ⟨r, hr, -⟩ := h.refused e hf
      cases hr
  · intro hf
    obtain ⟨o, ho, -⟩ := h.accepted hf
    exact ⟨o, ho⟩

theorem holds (h : DecidedBy x ds Q) (ho : x = .ok o) : Q o := by
  obtain ⟨o', ho', hq⟩ := h.accepted (firstRefusal_eq_none_iff.2 (h.ok_iff.1 ⟨o, ho⟩))
  rw [Except.ok.inj (ho.symm.trans ho')]
  exact hq

/-- Where all is met, what the outcome is made of is there. -/
theorem exists_ok (h : DecidedBy (y.map g) ds Q) (hmet : ∀ d ∈ ds, d.met = true) :
    ∃ a, y = .ok a ∧ Q (g a) := by
  obtain ⟨o, ho, hq⟩ := h.accepted (firstRefusal_eq_none_iff.2 hmet)
  obtain ⟨a, ha, rfl⟩ := exists_of_map ho
  exact ⟨a, ha, hq⟩

/-- Where what the outcome is made of is there, all was met. -/
theorem of_eq_ok {a : α} (h : DecidedBy (y.map g) ds Q) (ha : y = .ok a) :
    (∀ d ∈ ds, d.met = true) ∧ Q (g a) := by
  have hx : y.map g = .ok (g a) := by
    rw [ha]
    rfl
  exact ⟨h.ok_iff.1 ⟨g a, hx⟩, h.holds hx⟩

theorem mono {Q' : Outcome → Prop} (h : DecidedBy x ds Q) (hq : ∀ o, Q o → Q' o) :
    DecidedBy x ds Q' where
  refused := h.refused
  accepted hf := by
    obtain ⟨o, ho, hqo⟩ := h.accepted hf
    exact ⟨o, ho, hq o hqo⟩

end DecidedBy

/-! ## The demands of a call -/

namespace Forest

variable (F : Forest) (descendants : NodeId → List NodeId)

def known (id : NodeId) : Demand := demand (id.index < F.size) (.unknownNode id)

def listed (p c : NodeId) : Demand := demand (c ∈ F.children p) (.notAChild p c)

/-- Both nodes exist, the child has no parent, the reference, if there is
one, is a child of the parent, and the parent is neither the child nor below
it. -/
def insertDemands (p c : NodeId) (r : Option NodeId) : List Demand :=
  [F.known p, F.known c, demand (F.parent c = none) (.alreadyAttached c)] ++
    (match r with
      | none => []
      | some x => [F.known x, F.listed p x]) ++
    [demand (p ≠ c ∧ p ∉ descendants c) (.hierarchyCycle p c)]

end Forest

theorem Forest.met_insertDemands_iff {F : Forest} {descendants : NodeId → List NodeId}
    {p c : NodeId} {r : Option NodeId} :
    (∀ d ∈ F.insertDemands descendants p c r, d.met = true) ↔
      p.index < F.size ∧ c.index < F.size ∧ F.parent c = none ∧
        (∀ x ∈ r, x.index < F.size ∧ x ∈ F.children p) ∧ p ≠ c ∧ p ∉ descendants c := by
  cases r <;> simp [insertDemands, known, listed, and_assoc]

/-- The demands of an insertion are met where the forest accepts it. -/
theorem Forest.WellFormed.met_insertDemands_iff_accepts {F : Forest} {p c : NodeId}
    {r : Option NodeId} (hF : F.WellFormed) :
    (∀ d ∈ F.insertDemands F.preorder p c r, d.met = true) ↔ F.Accepts p c r := by
  rw [met_insertDemands_iff, hF.mem_preorder_iff]
  constructor
  · rintro ⟨hp, hc, hroot, hr, hpc, hbelow⟩
    exact ⟨hp, hc, hroot, fun x hx => (hF.mem_children p x).1 (hr x hx).2, hpc, hbelow⟩
  · rintro ⟨hp, hc, hroot, hr, hpc, hbelow⟩
    exact ⟨hp, hc, hroot, fun x hx => ⟨(hF.parent_lt x p (hr x hx)).1,
      (hF.mem_children p x).2 (hr x hx)⟩, hpc, hbelow⟩

/-- What an edit asks for, in the order it is tested. -/
def Edit.demands (F : Forest) (descendants : NodeId → List NodeId) : Edit → List Demand
  | .alloc _ => []
  | .insertBefore p c r => F.insertDemands descendants p c r
  | .appendChild p c => F.insertDemands descendants p c none
  | .removeChild p c => [F.known p, F.known c, F.listed p c]
  | .detach id => [F.known id]
  | .reparentChildren d s =>
    [F.known d, F.known s, demand (d = s ∨ d ∉ descendants s) (.hierarchyCycle d s)]

/-- What a call asks for. -/
def Call.demands (F : Forest) (descendants : NodeId → List NodeId) : Call → List Demand
  | .edit e => e.demands F descendants
  | .scopeMarker => []
  | .cloneNode id => [F.known id]
  | .appendText p _ => [F.known p]
  | .editContent _ _ => []

/-- Nothing that a call asks for is about corrupt links. -/
theorem Call.refusal_ne_corruptLinks (call : Call) (F : Forest)
    (descendants : NodeId → List NodeId) :
    ∀ m ∈ call.demands F descendants, m.refusal ≠ .corruptLinks := by
  cases call with
  | edit e =>
    cases e with
    | insertBefore p c r =>
      -- a reference makes two demands more
      cases r <;>
        simp [demands, Edit.demands, Forest.insertDemands, Forest.known, Forest.listed, demand]
    | _ =>
      simp [demands, Edit.demands, Forest.insertDemands, Forest.known, Forest.listed, demand]
  | _ => simp [demands, Forest.known, demand]

/-! ## Edits of a forest -/

namespace Forest

/-- What an accepted edit makes of a forest. -/
def edit (F : Forest) : Edit → Forest
  | .alloc _ => F.alloc
  | .insertBefore p c r => F.insert p c r
  | .appendChild p c => F.insert p c none
  | .removeChild p c => F.remove p c
  | .detach id =>
    match F.parent id with
    | none => F
    | some p => F.remove p id
  | .reparentChildren d s => if d = s then F else F.moveAll d s

/-- Make an edit if all it asks for is the case. -/
def perform (F : Forest) (e : Edit) : Forest :=
  if firstRefusal (e.demands F F.preorder) = none then F.edit e else F

/-- Make the edits of a list in order. -/
def run (F : Forest) (es : List Edit) : Forest := es.foldl perform F

end Forest

end DocumentTree
