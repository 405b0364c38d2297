import TableGateway.Proofs.GuardedWrites

/-!
# The items of a transaction

An action in a transaction asks for what it asks for by itself, less what only the answer to a single
update can hold. The items are those of the actions that are not missing, in order, unless there are too
many of these, which is found before any of them is looked at.
-/
namespace TableGateway

namespace TransactAction

def toValue : TransactAction → Value
  | create p => .record .create [p.table, p.item, p.conditions]
  | update p =>
    .record .update [p.table, p.key, p.values, p.remove, p.atomic, p.conditions, p.returnUpdated]
  | delete p => .record .delete [p.table, p.key, p.conditions]
  | validate p => .record .validate [p.table, p.key, p.conditions]

theorem ofValue?_eq_some {v : Value} {a : TransactAction} : ofValue? v = some a ↔ v = a.toValue := by
  constructor
  · intro h
    unfold ofValue? at h
    split at h <;> cases h <;> rfl
  · rintro rfl
    cases a <;> rfl

/-- What an action asks for by itself. There is no request of a validation alone: it is its condition
beside the table and the key. -/
def single (make : SetMaker) : TransactAction → Result Fields
  | create p => p.request
  | update p => do return (← p.requestWith make).filter fun e => e.1 ≠ "ReturnValues"
  | delete p => p.request
  | validate p => do
    let key ← p.key.toMap
    let condition ← conditionClause p.conditions
    return ([("TableName", p.table), ("Key", .map key)] : Fields)
      ++ clauseFields condition "ConditionExpression"

theorem envelopeWith_eq (make : SetMaker) (a : TransactAction) :
    a.envelopeWith make = do return .map [(a.kind, .map (← a.single make))] := by
  cases a with
  | create p => rfl
  | update p => rw [envelopeWith, single]; cases p.requestWith make <;> rfl
  | delete p => rfl
  | validate p => rfl

end TransactAction

namespace Transaction

variable {make : SetMaker} {v item : Value} {f : Fault}

/-- An action and its item, which is what it asks for by itself under the name of its kind. -/
inductive Enveloped (make : SetMaker) : Value → Value → Prop where
  | intro {a : TransactAction} {body : Fields} (asks : a.single make = .ok body) :
    Enveloped make a.toValue (.map [(a.kind, .map body)])

/-- The fault of what is no item: its own, or that it is not an action. -/
inductive Fails (make : SetMaker) : Value → Fault → Prop where
  | own {a : TransactAction} {f : Fault} (asks : a.single make = .error f) : Fails make a.toValue f
  | unknown {v : Value} (other : ∀ a : TransactAction, v ≠ a.toValue) :
    Fails make v (.refused (.unknownAction v.typeName))

theorem envelopeOf_toValue (make : SetMaker) (a : TransactAction) :
    TransactAction.envelopeOf make a.toValue = do return .map [(a.kind, .map (← a.single make))] := by
  rw [TransactAction.envelopeOf, TransactAction.ofValue?_eq_some.mpr rfl]
  exact a.envelopeWith_eq make

theorem envelopeOf_other (make : SetMaker) (h : ∀ a : TransactAction, v ≠ a.toValue) :
    TransactAction.envelopeOf make v = .error (.refused (.unknownAction v.typeName)) := by
  have hnone : TransactAction.ofValue? v = none :=
    Option.eq_none_iff_forall_ne_some.mpr fun a ha => h a (TransactAction.ofValue?_eq_some.mp ha)
  rw [TransactAction.envelopeOf, hnone]
  rfl

theorem envelopeOf_eq_ok : TransactAction.envelopeOf make v = .ok item ↔ Enveloped make v item := by
  constructor
  · intro h
    by_cases hv : ∃ a : TransactAction, v = a.toValue
    · obtain ⟨a, rfl⟩ := hv
      rw [envelopeOf_toValue] at h
      obtain ⟨body, hbody, h⟩ := Result.bind_eq_ok.mp h
      obtain rfl := Except.ok.inj h
      exact .intro hbody
    · rw [envelopeOf_other make (not_exists.mp hv)] at h
      cases h
  · rintro ⟨asks⟩
    rw [envelopeOf_toValue, asks]
    rfl

theorem envelopeOf_eq_error : TransactAction.envelopeOf make v = .error f ↔ Fails make v f := by
  constructor
  · intro h
    by_cases hv : ∃ a : TransactAction, v = a.toValue
    · obtain ⟨a, rfl⟩ := hv
      rw [envelopeOf_toValue] at h
      cases hsingle : a.single make with
      | ok body => rw [hsingle] at h; cases h
      | error f' =>
        rw [hsingle] at h
        obtain rfl := Except.error.inj h
        exact .own hsingle
    · rw [envelopeOf_other make (not_exists.mp hv)] at h
      obtain rfl := Except.error.inj h
      exact .unknown (not_exists.mp hv)
  · rintro (asks | other)
    · rw [envelopeOf_toValue, asks]
      rfl
    · exact envelopeOf_other make other

/-- The entries of a row that are not missing. -/
def present (vs : List Value) : List Value := vs.filter fun v => !v.isNull

/-- Is this what comes of a row of actions, each by itself? -/
structure OfSingles (make : SetMaker) (vs : List Value) (outcome : Result (List Value)) : Prop where
  tooMany : 100 < (present vs).length →
    outcome = .error (.transactionTooLarge (.int (present vs).length) (.int 100))
  made : (present vs).length ≤ 100 →
    ((∃ items, outcome = .ok items) ↔ ∀ v ∈ present vs, ∃ item, Enveloped make v item)
  inOrder : ∀ items, outcome = .ok items → List.Forall₂ (Enveloped make) (present vs) items
  firstFault : (present vs).length ≤ 100 → ∀ f, outcome = .error f ↔
    ∃ before v after, present vs = before ++ v :: after ∧
      (∀ u ∈ before, ∃ item, Enveloped make u item) ∧ Fails make v f

theorem items_of_large {vs : List Value} (h : 100 < (present vs).length) :
    items make vs = .error (.transactionTooLarge (.int (present vs).length) (.int 100)) :=
  if_pos h

theorem items_of_small {vs : List Value} (h : (present vs).length ≤ 100) :
    items make vs = (present vs).mapM (TransactAction.envelopeOf make) :=
  if_neg (Nat.not_lt.mpr h)

theorem items_ofSingles (make : SetMaker) (vs : List Value) : OfSingles make vs (items make vs) where
  tooMany := items_of_large
  made hsize := by
    simp only [items_of_small hsize, ← envelopeOf_eq_ok]
    exact ⟨fun ⟨_, hitems⟩ => Result.ok_of_mapM hitems, Result.exists_mapM⟩
  inOrder found hitems := by
    by_cases hsize : (present vs).length ≤ 100
    · rw [items_of_small hsize] at hitems
      exact (Result.forall₂_of_mapM hitems).imp fun v item => envelopeOf_eq_ok.mp
    · rw [items_of_large (Nat.lt_of_not_le hsize)] at hitems
      cases hitems
  firstFault hsize f := by
    simp only [items_of_small hsize, Result.mapM_eq_error, envelopeOf_eq_ok, envelopeOf_eq_error]

/-! Actions that are generated. -/

/-- What was generated for one thing, as a row. -/
def yielded : Value → List Value
  | .list vs | .tuple vs => vs
  | v => [v]

theorem present_idem (vs : List Value) : present (present vs) = present vs := by
  simp [present]

theorem generated_eq (v : Value) : generated v = present (yielded v) := by
  cases v <;> rfl

theorem present_collect (rows : List Value) :
    present (collect rows) = present (rows.flatMap yielded) := by
  induction rows with
  | nil => rfl
  | cons row rows ih =>
    have hrow : present (generated row) = present (yielded row) := by
      rw [generated_eq, present_idem]
    simp only [collect, List.flatMap_cons, present, List.filter_append] at hrow ih ⊢
    rw [hrow, ih]

theorem buildWith_congr {vs ws : List Value} (h : present vs = present ws) :
    buildWith make (.list vs) = buildWith make (.list ws) := by
  have hitems : items make vs = items make ws := by
    by_cases hsize : (present vs).length ≤ 100
    · rw [items_of_small hsize, items_of_small (h ▸ hsize), h]
    · have hlarge := Nat.lt_of_not_le hsize
      rw [items_of_large hlarge, items_of_large (h ▸ hlarge), h]
  exact hitems

/-- A transaction is its single actions in order, however they are generated. -/
theorem transaction_of_singles {α : Type} (make : SetMaker) :
    (∀ actions vs, actions.elements = .ok vs → OfSingles make vs (buildWith make actions)) ∧
      ∀ (things : List α) (generate : α → Value),
        buildWith make (.list (collect (things.map generate))) =
          buildWith make (.list (things.flatMap fun x => yielded (generate x))) := by
  constructor
  · intro actions vs hvs
    rw [buildWith, hvs]
    exact items_ofSingles make vs
  · intro things generate
    rw [← List.flatMap_map]
    exact buildWith_congr (present_collect (things.map generate))

/-- One action of each kind. -/
def mixed : List Value :=
  let key : Value := .map [("id", .text "a")]
  [(TransactAction.create ⟨.text "t", key, .null⟩).toValue, .null,
    (TransactAction.update
      ⟨.text "t", key, .map [("n", .int 1)], .null, .null, .null, .bool true⟩).toValue,
    (TransactAction.delete ⟨.text "t", key, .null⟩).toValue,
    (TransactAction.validate
      ⟨.text "t", key, .list [Condition.toValue ⟨.text "n", .compare .lowerThan (.int 9), .and⟩]⟩).toValue]

theorem transaction_of_singles_mixed :
    let make := SetShape.set.build
    ((Value.list mixed).elements = .ok mixed ∧ ∃ items, buildWith make (.list mixed) = .ok items ∧
        List.Forall₂ (Enveloped make) (present mixed) items) ∧
      buildWith make (.list (mixed ++ List.replicate 97 (.text "t"))) =
        .error (.transactionTooLarge (.int 101) (.int 100)) ∧
      buildWith make (.list (mixed ++ [.text "t", .null, .bool true])) =
        .error (.refused (.unknownAction "str")) ∧
      buildWith make (.list (collect ([0, 1, 2].map fun n => .list (mixed.take n)))) =
        buildWith make (.list ([0, 1, 2].flatMap fun n => yielded (.list (mixed.take n)))) := by
  intro make
  obtain ⟨hsingles, hgenerated⟩ := transaction_of_singles (α := Nat) make
  have hmixed := hsingles (.list mixed) mixed rfl
  obtain ⟨items, hitems⟩ :=
    Result.exists_of_isOk (x := buildWith make (.list mixed)) (by decide +kernel)
  have hbuilt : ∀ v ∈ present mixed, ∃ item, Enveloped make v item :=
    (hmixed.made (by decide)).mp ⟨items, hitems⟩
  refine ⟨⟨rfl, items, hitems, hmixed.inOrder items hitems⟩, ?_, ?_, hgenerated _ _⟩
  · exact (hsingles (.list _) _ rfl).tooMany (by decide)
  · refine ((hsingles (.list _) _ rfl).firstFault (by decide) _).mpr
      ⟨present mixed, .text "t", [.bool true], rfl, hbuilt, .unknown fun a => ?_⟩
    cases a <;> exact nofun

end Transaction

end TableGateway
