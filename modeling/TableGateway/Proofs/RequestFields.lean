import TableGateway.Proofs.Entries
import TableGateway.Proofs.Outcomes
import TableGateway.Request.Query
import TableGateway.Request.Transaction

/-!
# The parts of requests for many items

A request has fields that its clauses fill in, fields of its own, and at its end the key after which to
go on. A token has a part in that last field only. The key of a query is asked for by an equality and, if
it has a second attribute, by a test of that one.
-/
namespace TableGateway

open Entries TableGateway.Tree

/-- The fields of a request that are expressions. -/
def expressionFields : List Text :=
  ["ConditionExpression", "UpdateExpression", "KeyConditionExpression", "FilterExpression",
    "ProjectionExpression"]

/-- The fields of a request that its clauses fill in. -/
def clauseFieldNames : List Text :=
  expressionFields ++ (["ExpressionAttributeNames", "ExpressionAttributeValues"] : List Text)

section Fields

variable {name field : Text}

theorem get?_expressionField (c : Option Clause) :
    get? (expressionField name c) field =
      if name = field then c.map fun c => .text c.expression else none := by
  cases c <;> simp [expressionField]

theorem get?_nameFields (b : Bindings) :
    get? b.nameFields field =
      if "ExpressionAttributeNames" = field ∧ b.names ≠ [] then some (.map b.names) else none := by
  rw [Bindings.nameFields]
  cases b.names <;> simp

theorem get?_valueFields (b : Bindings) :
    get? b.valueFields field =
      if "ExpressionAttributeValues" = field ∧ b.values ≠ [] then some (.map b.values) else none := by
  rw [Bindings.valueFields]
  cases b.values <;> simp

theorem get?_nameFields_of_ne (h : field ≠ "ExpressionAttributeNames") (b : Bindings) :
    get? b.nameFields field = none := by
  rw [get?_nameFields, if_neg fun hfield => h hfield.1.symm]

theorem get?_valueFields_of_ne (h : field ≠ "ExpressionAttributeValues") (b : Bindings) :
    get? b.valueFields field = none := by
  rw [get?_valueFields, if_neg fun hfield => h hfield.1.symm]

end Fields

namespace Request

theorem ne_of_mem_expressionFields {field : Text} (h : field ∈ expressionFields) :
    field ≠ "ExpressionAttributeNames" ∧ field ≠ "ExpressionAttributeValues" := by
  constructor <;> rintro rfl <;> simp [expressionFields] at h

/-- Has a request none of the fields of clauses? -/
def Bare (base : Fields) : Prop := ∀ f ∈ clauseFieldNames, get? base f = none

section Bare

variable {es fs : Fields} {k : Text}

theorem bare_nil : Bare [] := fun _ _ => rfl

theorem Bare.cons {v : Value} (hk : k ∉ clauseFieldNames) (h : Bare es) : Bare ((k, v) :: es) := by
  intro f hf
  rw [get?_cons, if_neg (ne_of_mem_of_not_mem hf hk).symm, h f hf]

theorem bare_one {v : Value} (hk : k ∉ clauseFieldNames) : Bare [(k, v)] := .cons hk bare_nil

theorem Bare.append (hes : Bare es) (hfs : Bare fs) : Bare (es ++ fs) := by
  intro f hf
  rw [get?_append, hes f hf, hfs f hf, Option.or_none]

/-- Fields that are there under a condition. -/
theorem Bare.ite {c : Prop} [Decidable c] (hes : Bare es) (hfs : Bare fs) :
    Bare (if c then es else fs) := by
  split
  · exact hes
  · exact hfs

theorem bare_optional (hk : k ∉ clauseFieldNames) (v : Value) : Bare (optionalField k v) :=
  .ite (bare_one hk) bare_nil

theorem bare_start {token : Value} {start : Fields} (h : startField token = .ok start) :
    Bare start := by
  rw [startField] at h
  split at h
  · obtain ⟨key, -, h⟩ := Result.bind_eq_ok.mp h
    obtain rfl := Except.ok.inj h
    exact bare_one (by decide)
  · obtain rfl := Except.ok.inj h
    exact bare_nil

end Bare

end Request

/-- A write with a clause of its own: what it is about, and the clause. -/
theorem conditioned_inv {table subject conditions : Value} {name : Text} {req : Fields}
    (h : (do
      let fields ← subject.toMap
      let condition ← conditionClause conditions
      return ([("TableName", table), (name, .map fields)] : Fields)
        ++ clauseFields condition "ConditionExpression") = (.ok req : Result Fields)) :
    ∃ fields condition, subject.toMap = .ok fields ∧ conditionClause conditions = .ok condition ∧
      req = ([("TableName", table), (name, .map fields)] : Fields)
        ++ clauseFields condition "ConditionExpression" := by
  obtain ⟨fields, hfields, h⟩ := Result.bind_eq_ok.mp h
  obtain ⟨condition, hcondition, h⟩ := Result.bind_eq_ok.mp h
  exact ⟨fields, condition, hfields, hcondition, (Except.ok.inj h).symm⟩

/-- A transaction has an envelope for each action that is given. -/
theorem Transaction.build_inv {shape : SetShape} {actions : Value} {items : List Value}
    (h : Transaction.build shape actions = .ok items) :
    ∃ vs, actions.elements = .ok vs ∧ List.Forall₂ (fun v item =>
      ∃ a, TransactAction.ofValue? v = some a ∧ a.envelope shape = .ok item)
        (vs.filter fun v => !v.isNull) items := by
  obtain ⟨vs, hvs, h⟩ := Result.bind_eq_ok.mp h
  rw [Transaction.items] at h
  split at h
  · cases h
  · refine ⟨vs, hvs, (Result.forall₂_of_mapM h).imp fun v item henvelope => ?_⟩
    rw [TransactAction.envelopeOf] at henvelope
    split at henvelope
    · rename_i a ha
      exact ⟨a, ha, henvelope⟩
    · cases henvelope

namespace Condition

theorem readExistence_eq {op : Operation} {test t : Test} {value low high : Value}
    {values : Option (List Value)} (h : readExistence op test value values low high = .ok t) :
    t = test := by
  rw [readExistence] at h
  split at h
  · cases h
  · exact (Except.ok.inj h).symm

theorem readList_eq {op : Operation} {test : List Value → Test} {t : Test} {value low high : Value}
    {values : Option (List Value)} (h : readList op test value values low high = .ok t) :
    ∃ vs, t = test vs := by
  cases values with
  | none => cases h
  | some vs =>
    rw [readList] at h
    split at h
    · cases h
    · exact ⟨vs, (Except.ok.inj h).symm⟩

theorem readBetween_eq {t : Test} {value low high : Value} {values : Option (List Value)}
    (h : readBetween value values low high = .ok t) : t = .between low high := by
  rw [readBetween] at h
  split at h
  · cases h
  · split at h
    · cases h
    · exact (Except.ok.inj h).symm

theorem readComparison_eq {how : Comparison} {t : Test} {value low high : Value}
    {values : Option (List Value)} (h : readComparison how value values low high = .ok t) :
    t = .compare how value := by
  rw [readComparison] at h
  split at h
  · cases h
  · split at h
    · cases h
    · exact (Except.ok.inj h).symm

/-- A test is that of the operation that was asked for. -/
theorem readTest_operation {op : Operation} {value low high : Value} {values : Option (List Value)}
    {t : Test} (h : readTest op value values low high = .ok t) : t.operation = op := by
  match op, h with
  | .exists, h | .notExists, h => rw [readExistence_eq h]; rfl
  | .oneOf, h | .noneOf, h =>
    obtain ⟨vs, rfl⟩ := readList_eq h
    rfl
  | .between, h => rw [readBetween_eq h]; rfl
  | .equal, h | .notEqual, h | .lowerThan, h | .lowerOrEqualThan, h | .biggerThan, h
  | .biggerOrEqualThan, h | .beginsWith, h | .contains, h | .notContains, h =>
    rw [readComparison_eq h]; rfl

theorem ofFields_inv {property value values low high join : Value} {op : Operation} {c : Condition}
    (h : ofFields property (.text op.name) value values low high join = .ok c) :
    c.property = property ∧ c.test.operation = op := by
  rw [ofFields] at h
  split at h
  · cases h
  · simp only [readOperation_text, Result.ok_bind] at h
    obtain ⟨j, -, h⟩ := Result.bind_eq_ok.mp h
    obtain ⟨operands, -, h⟩ := Result.bind_eq_ok.mp h
    obtain ⟨test, htest, h⟩ := Result.bind_eq_ok.mp h
    obtain rfl := Except.ok.inj h
    exact ⟨rfl, readTest_operation htest⟩

end Condition

/-- A test asks for one value, or for those between two, if its operation is one for sort keys. -/
theorem Test.compare_or_between {t : Test} (h : t.operation.onRangeKey = true) :
    (∃ how v, t = .compare how v) ∨ ∃ low high, t = .between low high := by
  cases t with
  | compare how v => exact .inl ⟨how, v, rfl⟩
  | between low high => exact .inr ⟨low, high, rfl⟩
  | _ => simp [operation, Operation.onRangeKey] at h

namespace RangeKey

theorem onRangeKey_of_ofRecord {v : Value} {k : RangeKey} (h : ofRecord v = .ok k) :
    k.operation.onRangeKey = true := by
  rw [ofRecord.eq_def] at h
  split at h
  · rw [ofFields] at h
    obtain ⟨op, -, h⟩ := Result.bind_eq_ok.mp h
    split at h
    · rename_i hop
      obtain rfl := Except.ok.inj h
      exact hop
    · cases h
  · cases h

theorem condition_inv {k : RangeKey} {c : Condition} (h : k.condition = .ok c) :
    c.property = k.name ∧ c.test.operation = k.operation := by
  rw [condition] at h
  split at h
  · exact Condition.ofFields_inv h
  · exact Condition.ofFields_inv h

end RangeKey

namespace QueryParams

theorem partition_test {p : QueryParams} {partition : Condition}
    (h : p.partitionCondition = .ok partition) : ∃ v, partition.test = .compare .equal v := by
  rw [partitionCondition] at h
  split at h
  · obtain ⟨-, hop⟩ := Condition.ofFields_inv h
    rcases Test.compare_or_between (t := partition.test) (by rw [hop]; rfl) with
      ⟨how, v, htest⟩ | ⟨low, high, htest⟩
    · rw [htest] at hop
      cases how <;> first | exact ⟨v, htest⟩ | cases hop
    · rw [htest] at hop
      cases hop
  · cases h

/-- The conditions of a key: one on the partition key, and one on the sort key where there is one. -/
theorem leaves_keyConditions {p : QueryParams} {ts : List Tree} (h : p.keyConditions = .ok ts) :
    ∃ partition more, (∃ v, partition.test = .compare .equal v) ∧
      leavesAll ts = partition :: more ∧
      (RangeKey.ofRecord p.rangeKey = .error .noSuchPart ∧ more = [] ∨
        ∃ k c, RangeKey.ofRecord p.rangeKey = .ok k ∧ more = [c] ∧ c.property = k.name ∧
          c.test.operation = k.operation ∧ k.operation.onRangeKey = true) := by
  obtain ⟨partition, hpartition, h⟩ := Result.bind_eq_ok.mp h
  split at h
  · rename_i hnull
    obtain rfl := Except.ok.inj h
    have hrange : p.rangeKey = .null := by
      cases hvalue : p.rangeKey with
      | null => rfl
      | _ => simp [hvalue, Value.isNull] at hnull
    refine ⟨partition, [], partition_test hpartition, rfl, .inl ⟨?_, rfl⟩⟩
    rw [hrange]
    rfl
  · obtain ⟨k, hk, h⟩ := Result.bind_eq_ok.mp h
    obtain ⟨c, hc, h⟩ := Result.bind_eq_ok.mp h
    obtain rfl := Except.ok.inj h
    obtain ⟨hproperty, hoperation⟩ := RangeKey.condition_inv hc
    exact ⟨partition, [c], partition_test hpartition, rfl, .inr ⟨k, c, hk, rfl, hproperty,
      hoperation, RangeKey.onRangeKey_of_ofRecord hk⟩⟩

/-- The fields of a request beside the key to go on after. -/
def fieldsOf (p : QueryParams) (key : Clause) (bindings : Bindings) (filter : Option Clause) :
    Fields :=
  ([("TableName", p.table), ("KeyConditionExpression", .text key.expression)] : Fields)
    ++ bindings.nameFields ++ ([("ExpressionAttributeValues", .map bindings.values)] : Fields)
    ++ ([("ScanIndexForward", .bool (p.order.text? = some ("ASC" : Text)))] : Fields)
    ++ optionalField "IndexName" p.index
    ++ expressionField "FilterExpression" filter

/-- A request has such fields, and a token adds the key that it stands for to their end. -/
theorem request_inv {p : QueryParams} {base : Fields}
    (h : ({ p with token := .null } : QueryParams).request = .ok base) :
    (∃ key bindings filter, base = p.fieldsOf key bindings filter) ∧
      ∀ token, ({ p with token := token } : QueryParams).request =
        (startField token).map (base ++ ·) := by
  have hnull : startField .null = .ok [] := rfl
  have hconditions : ∀ token, ({ p with token := token } : QueryParams).keyConditions =
      ({ p with token := .null } : QueryParams).keyConditions := fun _ => rfl
  rw [request, hnull] at h
  obtain ⟨trees, hkeys, h⟩ := Result.bind_eq_ok.mp h
  obtain ⟨key, hkey, h⟩ := Result.bind_eq_ok.mp h
  obtain ⟨filter, hfilter, h⟩ := Result.bind_eq_ok.mp h
  obtain ⟨bindings, hbindings, h⟩ := Result.bind_eq_ok.mp h
  simp only [Result.ok_bind, Result.pure_eq, Except.ok.injEq, List.append_nil] at h
  subst h
  refine ⟨⟨key, bindings, filter, rfl⟩, fun token => ?_⟩
  simp only [request, hconditions, hkeys, hkey, hfilter, hbindings, Result.ok_bind]
  cases startField token <;> rfl

theorem get?_fieldsOf (p : QueryParams) (key : Clause) (bindings : Bindings) (filter : Option Clause)
    {field : Text} (hf : field = "ExclusiveStartKey" ∨ field = "Limit") :
    get? (p.fieldsOf key bindings filter) field = none := by
  have hnames : get? bindings.nameFields field = none := by
    cases h : bindings.names.isEmpty <;> rcases hf with rfl | rfl <;> simp [Bindings.nameFields, h]
  have hindex : get? (optionalField "IndexName" p.index) field = none := by
    cases h : p.index.truthy <;> rcases hf with rfl | rfl <;> simp [optionalField, h]
  have hfilter : get? (expressionField "FilterExpression" filter) field = none := by
    cases filter <;> rcases hf with rfl | rfl <;> simp [expressionField]
  simp only [fieldsOf, get?_append, hnames, hindex, hfilter]
  rcases hf with rfl | rfl <;> simp

/-- What the clauses of a request have in its fields. -/
theorem get?_clauseField (p : QueryParams) (key : Clause) (bindings : Bindings)
    (filter : Option Clause) {token : Value} {start : Fields} (hstart : startField token = .ok start)
    {f : Text} (hf : f ∈ clauseFieldNames) :
    get? (p.fieldsOf key bindings filter ++ start) f =
      (((get? [("KeyConditionExpression", .text key.expression)] f).or
        (get? bindings.nameFields f)).or (get? [("ExpressionAttributeValues", .map bindings.values)] f)).or
          (get? (expressionField "FilterExpression" filter) f) := by
  have htable : Request.Bare [("TableName", p.table)] := Request.bare_one (by decide)
  have horder : Request.Bare [("ScanIndexForward", .bool (p.order.text? = some ("ASC" : Text)))] :=
    Request.bare_one (by decide)
  have hindex : Request.Bare (optionalField "IndexName" p.index) := Request.bare_optional (by decide) _
  have hhead : ([("TableName", p.table), ("KeyConditionExpression", .text key.expression)] : Fields) =
      ([("TableName", p.table)] : Fields)
        ++ ([("KeyConditionExpression", .text key.expression)] : Fields) := rfl
  rw [fieldsOf, hhead, get?_append, get?_append, get?_append, get?_append, get?_append, get?_append,
    get?_append, htable f hf, horder f hf, hindex f hf, Request.bare_start hstart f hf]
  simp only [Option.none_or, Option.or_none]

end QueryParams

namespace ListOptions

/-- The fields of a request beside the key to go on after. -/
def fieldsOf (table : Value) (o : ListOptions) (bindings : Bindings)
    (filter projection : Option Clause) : Fields :=
  ([("TableName", table)] : Fields)
    ++ optionalField "IndexName" o.index
    ++ (if o.limit.isNull then ([] : Fields) else [("Limit", o.limit)])
    ++ (if o.consistentRead.truthy then ([("ConsistentRead", .bool true)] : Fields) else [])
    ++ (if o.totalSegments.isNull then ([] : Fields)
      else [("Segment", o.segment), ("TotalSegments", o.totalSegments)])
    ++ bindings.nameFields ++ bindings.valueFields
    ++ expressionField "FilterExpression" filter
    ++ expressionField "ProjectionExpression" projection

/-- A request has such fields, and a token adds the key that it stands for to their end. -/
theorem request_inv {table : Value} {o : ListOptions} {base : Fields}
    (h : ({ o with token := .null } : ListOptions).request table = .ok base) :
    (∃ bindings filter projection, base = o.fieldsOf table bindings filter projection) ∧
      ∀ token, ({ o with token := token } : ListOptions).request table =
        (startField token).map (base ++ ·) := by
  have hnull : startField .null = .ok [] := rfl
  rw [request, hnull] at h
  obtain ⟨filter, hfilter, h⟩ := Result.bind_eq_ok.mp h
  obtain ⟨filtered, hfiltered, h⟩ := Result.bind_eq_ok.mp h
  obtain ⟨projection, hprojection, h⟩ := Result.bind_eq_ok.mp h
  obtain ⟨bindings, hbindings, h⟩ := Result.bind_eq_ok.mp h
  simp only [Result.ok_bind, Result.pure_eq, Except.ok.injEq, List.append_nil] at h
  subst h
  refine ⟨⟨bindings, filter, projection, rfl⟩, fun token => ?_⟩
  simp only [request, hfilter, hfiltered, hprojection, hbindings, Result.ok_bind]
  cases startField token <;> rfl

theorem get?_start (table : Value) (o : ListOptions) (bindings : Bindings)
    (filter projection : Option Clause) :
    get? (o.fieldsOf table bindings filter projection) "ExclusiveStartKey" = none := by
  have hindex : get? (optionalField "IndexName" o.index) "ExclusiveStartKey" = none := by
    cases h : o.index.truthy <;> simp [optionalField, h]
  have hlimit : get? (if o.limit.isNull then ([] : Fields) else [("Limit", o.limit)])
      "ExclusiveStartKey" = none := by
    split <;> simp
  have hread : get? (if o.consistentRead.truthy then ([("ConsistentRead", .bool true)] : Fields) else [])
      "ExclusiveStartKey" = none := by
    split <;> simp
  have hsegment : get? (if o.totalSegments.isNull then ([] : Fields)
      else [("Segment", o.segment), ("TotalSegments", o.totalSegments)]) "ExclusiveStartKey" =
      none := by
    split <;> simp
  simp only [fieldsOf, get?_append, hindex, hlimit, hread, hsegment, get?_nameFields, get?_valueFields,
    get?_expressionField]
  simp

/-- What the clauses of a request have in its fields. -/
theorem get?_clauseField (table : Value) (o : ListOptions) (bindings : Bindings)
    (filter projection : Option Clause) {token : Value} {start : Fields}
    (hstart : startField token = .ok start) {f : Text} (hf : f ∈ clauseFieldNames) :
    get? (o.fieldsOf table bindings filter projection ++ start) f =
      (((get? bindings.nameFields f).or (get? bindings.valueFields f)).or
        (get? (expressionField "FilterExpression" filter) f)).or
          (get? (expressionField "ProjectionExpression" projection) f) := by
  have hbare : Request.Bare (([("TableName", table)] : Fields) ++ optionalField "IndexName" o.index
      ++ (if o.limit.isNull then ([] : Fields) else [("Limit", o.limit)])
      ++ (if o.consistentRead.truthy then ([("ConsistentRead", .bool true)] : Fields) else [])
      ++ (if o.totalSegments.isNull then ([] : Fields)
        else [("Segment", o.segment), ("TotalSegments", o.totalSegments)])) := by
    refine ((((Request.bare_one (by decide)).append (Request.bare_optional (by decide) _)).append
      (.ite Request.bare_nil (Request.bare_one (by decide)))).append
        (.ite (Request.bare_one (by decide)) Request.bare_nil)).append ?_
    exact .ite Request.bare_nil (.cons (by decide) (Request.bare_one (by decide)))
  rw [fieldsOf, get?_append, get?_append, get?_append, get?_append, get?_append, hbare f hf,
    Request.bare_start hstart f hf, Option.none_or, Option.or_none]

end ListOptions

end TableGateway
