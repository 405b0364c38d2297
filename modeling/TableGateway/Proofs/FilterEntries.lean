import TableGateway.Filter
import TableGateway.Proofs.Entries
import TableGateway.Proofs.Outcomes

/-!
# Entries of filter maps

A description says its operation, the operands in the places of that operation, the join and what is
nested in it. A description is purged of everything else, and of missing members in its row; it is
dropped if that leaves it without an operand. What is left is read like the description itself.
-/
namespace TableGateway

/-- The places in which operations have their operands. -/
inductive Operation.Place where
  | nowhere
  | row
  | bounds
  | single
  deriving DecidableEq, Repr

def Operation.place : Operation → Operation.Place
  | .exists | .notExists => .nowhere
  | .oneOf | .noneOf => .row
  | .between => .bounds
  | _ => .single

theorem Value.isNull_eq_true {v : Value} : v.isNull = true ↔ v = .null := by
  cases v <;> simp [isNull]

theorem Value.isNull_eq_false {v : Value} : v.isNull = false ↔ v ≠ .null := by
  cases v <;> simp [isNull]

/-- What has members is empty just where it has none. -/
theorem Value.truthy_of_elements {v : Value} {vs : List Value} (h : v.elements = .ok vs) :
    v.truthy = !vs.isEmpty := by
  rw [elements] at h
  cases v with
  | text s =>
    obtain rfl := Except.ok.inj h
    by_cases hs : s = "" <;> simp [truthy, hs]
  | blob b =>
    cases hb : b.wrapped with
    | false =>
      simp only [elements?, hb] at h
      obtain rfl := Except.ok.inj h
      simp [truthy, hb]
    | true => simp [elements?, hb] at h
  | list xs | tuple xs | set frozen xs | map es =>
    obtain rfl := Except.ok.inj h
    simp [truthy]
  | _ => simp [elements?] at h

theorem Value.elementsOrNone_of_elements {v : Value} {vs : List Value} (h : v.elements = .ok vs) :
    v.elementsOrNone = .ok vs := by
  rw [elementsOrNone, truthy_of_elements h]
  cases vs with
  | nil => rfl
  | cons x xs => exact h

/-- A value either has members or is of the wrong type. -/
theorem Value.elements_cases (v : Value) :
    (∃ vs, v.elements = .ok vs) ∨ v.elements = .error .wrongType := by
  rw [elements]
  cases v.elements? with
  | none => exact .inr rfl
  | some vs => exact .inl ⟨vs, rfl⟩

namespace Condition

/-- Are the operands in the places of an operation, and nowhere else? -/
def Filled (place : Operation.Place) (value : Value) (row : Option (List Value))
    (low high : Value) : Prop :=
  match place with
  | .nowhere => value = .null ∧ row = none ∧ low = .null ∧ high = .null
  | .row => value = .null ∧ row ≠ none ∧ low = .null ∧ high = .null
  | .bounds => value = .null ∧ row = none ∧ low ≠ .null ∧ high ≠ .null
  | .single => value ≠ .null ∧ row = none ∧ low = .null ∧ high = .null

section Filled

variable {place : Operation.Place} {value low high : Value} {row : Option (List Value)}

theorem Filled.value_eq (h : Filled place value row low high) (hplace : place ≠ .single) :
    value = .null := by
  cases place <;> simp_all [Filled]

theorem Filled.low_eq (h : Filled place value row low high) (hplace : place ≠ .bounds) :
    low = .null := by
  cases place <;> simp_all [Filled]

theorem Filled.high_eq (h : Filled place value row low high) (hplace : place ≠ .bounds) :
    high = .null := by
  cases place <;> simp_all [Filled]

theorem Filled.row_ne (h : Filled place value row low high) : row ≠ none ↔ place = .row := by
  cases place <;> simp_all [Filled]

end Filled

section Tests

variable {op : Operation} {value low high : Value} {row : Option (List Value)}

theorem isOk_readExistence (test : Test) :
    (readExistence op test value row low high).isOk = true ↔
      Filled .nowhere value row low high := by
  cases row <;> by_cases hvalue : value = .null <;> by_cases hlow : low = .null <;>
    by_cases hhigh : high = .null <;>
    simp_all [readExistence, Filled, Value.isNull, Except.isOk, Except.toBool, refuse]

theorem isOk_readList (test : List Value → Test) :
    (readList op test value row low high).isOk = true ↔ Filled .row value row low high := by
  cases row <;> by_cases hvalue : value = .null <;> by_cases hlow : low = .null <;>
    by_cases hhigh : high = .null <;>
    simp_all [readList, Filled, Value.isNull, Except.isOk, Except.toBool, refuse]

theorem isOk_readBetween :
    (readBetween value row low high).isOk = true ↔ Filled .bounds value row low high := by
  cases row <;> by_cases hvalue : value = .null <;> by_cases hlow : low = .null <;>
    by_cases hhigh : high = .null <;>
    simp_all [readBetween, Filled, Value.isNull, Except.isOk, Except.toBool, refuse]

theorem isOk_readComparison (how : Comparison) :
    (readComparison how value row low high).isOk = true ↔ Filled .single value row low high := by
  cases row <;> by_cases hvalue : value = .null <;> by_cases hlow : low = .null <;>
    by_cases hhigh : high = .null <;>
    simp_all [readComparison, Filled, Value.isNull, Except.isOk, Except.toBool, refuse]

/-- A test can be read just where its operation finds its operands in their places. -/
theorem isOk_readTest :
    (readTest op value row low high).isOk = true ↔ Filled op.place value row low high := by
  match op with
  | .exists | .notExists => exact isOk_readExistence _
  | .oneOf | .noneOf => exact isOk_readList _
  | .between => exact isOk_readBetween
  | .equal | .notEqual | .lowerThan | .lowerOrEqualThan | .biggerThan | .biggerOrEqualThan
  | .beginsWith | .contains | .notContains => exact isOk_readComparison _

end Tests

/-- The row of a description in the form in which it is checked. -/
def givenRow (values : Value) : Result Value :=
  if values.isNull then .ok .null else .tuple <$> values.elements

/-- A condition with its operands in any places, and what is nested in it. -/
def readParts (property : Text) (op : Operation) (value row low high join nested : Value) :
    Result Value := do
  let head ← ofFields (.text property) (.text op.name) value row low high (join.orElse (.text "and"))
  return nestValue head (← parseMembers nested)

/-- What is nested is read from its entry. -/
theorem parseNested_eq (es : Fields) : parseNested es = parseMembers (Value.entry es "nested") := by
  induction es with
  | nil => simp [parseNested, Value.entry, parseMembers, Value.truthy]
  | cons e es ih =>
    obtain ⟨k, v⟩ := e
    rw [parseNested]
    split
    · rename_i h
      simp [Value.entry, h]
    · rename_i h
      simpa [Value.entry, h] using ih

/-- Only the name of an operation is read as one. -/
theorem readOperation_eq_ok {v : Value} {op : Operation} :
    readOperation v = .ok op ↔ v = .text op.name := by
  constructor
  · intro h
    rw [readOperation] at h
    split at h
    · rename_i found hfound
      obtain rfl := Except.ok.inj h
      obtain ⟨s, hs, hname⟩ := Option.bind_eq_some_iff.mp hfound
      have hv : v = .text s := by
        cases v <;> simp_all [Value.text?]
      have hs : found.name = s := by
        simpa using List.find?_some hname
      rw [hv, hs]
    · cases h
  · rintro rfl
    exact readOperation_text op

theorem orElse_operation (op : Operation) (w : Value) :
    (Value.text op.name).orElse w = .text op.name := by
  cases op <;> rfl

/-- A description that can be read has a known operation. -/
theorem operation_of_orElse {v : Value} {op : Operation}
    (h : readOperation (v.orElse (.text "")) = .ok op) : v = .text op.name := by
  by_cases hv : v.truthy = true
  · rw [Value.orElse, if_pos hv] at h
    exact readOperation_eq_ok.mp h
  · rw [Value.orElse, if_neg hv] at h
    have hname : "" = op.name := Value.text.inj (readOperation_eq_ok.mp h)
    cases op <;> simp [Operation.name] at hname

theorem entry_put {es : Fields} {key other : Text} (h : key ≠ other) (v : Value) :
    Value.entry (Entries.put es key v) other = Value.entry es other := by
  simp [Value.entry, Entries.get?_put, h]

theorem entryOr_put {es : Fields} {key other second : Text} (h : key ≠ other) (h' : key ≠ second)
    (v : Value) :
    Value.entryOr (Entries.put es key v) other second = Value.entryOr es other second := by
  simp [Value.entryOr, Entries.get?_put, h, entry_put h']

/-- A condition is made of its fields where the join and the row can be read and the operands are in
their places. -/
theorem exists_ofFields_iff {property : Text} (hp : property ≠ "") {op : Operation}
    {value row low high join : Value} :
    (∃ c, ofFields (.text property) (.text op.name) value row low high join = .ok c) ↔
      (∃ j, readJoin join = .ok j) ∧
        ∃ operands, readOperands op row = .ok operands ∧ Filled op.place value operands low high := by
  have htruthy : (Value.text property).truthy = true := by simp [Value.truthy, hp]
  constructor
  · rintro ⟨c, h⟩
    simp only [ofFields, htruthy, readOperation_text, Result.ok_bind] at h
    obtain ⟨j, hj, h⟩ := Result.bind_eq_ok.mp h
    obtain ⟨operands, hoperands, h⟩ := Result.bind_eq_ok.mp h
    obtain ⟨test, htest, -⟩ := Result.bind_eq_ok.mp h
    refine ⟨⟨j, hj⟩, operands, hoperands, isOk_readTest.mp ?_⟩
    rw [htest]
    rfl
  · rintro ⟨⟨j, hj⟩, operands, hoperands, hfilled⟩
    obtain ⟨test, htest⟩ := Result.exists_of_isOk (isOk_readTest.mpr hfilled)
    refine ⟨⟨.text property, test, j⟩, ?_⟩
    simp only [ofFields, htruthy, readOperation_text, Result.ok_bind, hj, hoperands, htest]
    rfl

theorem givenRow_inv {v row : Value} (h : givenRow v = .ok row) :
    v = .null ∧ row = .null ∨ v ≠ .null ∧ ∃ vs, v.elements = .ok vs ∧ row = .tuple vs := by
  rw [givenRow] at h
  split at h
  · rename_i hnull
    exact .inl ⟨Value.isNull_eq_true.mp hnull, (Except.ok.inj h).symm⟩
  · rename_i hnull
    obtain ⟨vs, hvs, hrow⟩ := Result.map_eq_ok.mp h
    exact .inr ⟨fun hv => hnull (Value.isNull_eq_true.mpr hv), vs, hvs, hrow.symm⟩

@[simp] theorem readOperands_null (op : Operation) : readOperands op .null = .ok none := rfl

@[simp] theorem readOperands_tuple (op : Operation) (vs : List Value) :
    readOperands op (.tuple vs) = .ok (some vs) := rfl

theorem parseMembers_row {v : Value} {vs members : List Value} (hvs : v.elements? = some vs)
    (htruthy : v.truthy = !vs.isEmpty) (h : parseAll vs = .ok members) :
    v.truthy = false ∧ members = [] ∨
      v.truthy = true ∧ ∃ vs, v.elements = .ok vs ∧ parseMembers (.list vs) = .ok members := by
  cases vs with
  | nil => exact .inl ⟨htruthy, (Except.ok.inj h).symm⟩
  | cons u us => exact .inr ⟨htruthy, u :: us, by rw [Value.elements, hvs], h⟩

/-- What is nested can be read if it is empty or a row whose members can be. -/
theorem parseMembers_inv {v : Value} {members : List Value} (h : parseMembers v = .ok members) :
    v.truthy = false ∧ members = [] ∨
      v.truthy = true ∧ ∃ vs, v.elements = .ok vs ∧ parseMembers (.list vs) = .ok members := by
  cases v with
  | list vs | tuple vs | set _ vs => exact parseMembers_row rfl rfl h
  | text s =>
    by_cases hs : s = ""
    · simp_all [parseMembers, Value.truthy]
    · simp [parseMembers, hs, refuse] at h
  | map es =>
    cases es with
    | nil => simp_all [parseMembers, Value.truthy]
    | cons e es => simp [parseMembers, refuse] at h
  | blob b =>
    cases hb : b.wrapped with
    | true => simp [parseMembers, hb] at h
    | false => cases hbytes : b.bytes <;> simp_all [parseMembers, Value.truthy, refuse]
  | bool b => cases b <;> simp_all [parseMembers, Value.truthy]
  | number n => cases hn : n.isZero <;> simp_all [parseMembers, Value.truthy]
  | _ => simp_all [parseMembers, Value.truthy]

end Condition

namespace Filter

/-- The members of the row of a description. -/
def rowOf (d : Fields) : List Value := (Value.entry d "values").elementsOrNone.toOption.getD []

def lowOf (d : Fields) : Value := Value.entryOr d "low" "start"

def highOf (d : Fields) : Value := Value.entryOr d "high" "end"

def joinOf (d : Fields) : Value := Value.entryOr d "join_as" "joinAs"

def nestedOf (d : Fields) : Value := Value.entry d "nested"

/-- Has a description with such an operation an operand for it? -/
def carries (op : Operation) (d : Fields) : Bool :=
  match op.place with
  | .nowhere => true
  | .row => (rowOf d).any fun v => !v.isNull
  | .bounds => !(lowOf d).isNull && !(highOf d).isNull
  | .single => !(Value.entry d "value").isNull

/-- The operands that a purge leaves. -/
def operandsOf (op : Operation) (d : Fields) : Fields :=
  match op.place with
  | .nowhere => []
  | .row => [("values", .list (present (rowOf d)))]
  | .bounds => [("low", lowOf d), ("high", highOf d)]
  | .single => [("value", Value.entry d "value")]

def linksOf (d : Fields) : Fields :=
  (if (joinOf d).isNull then [] else [("join_as", joinOf d)] : Fields)
    ++ (if (nestedOf d).truthy then
      [("nested", .list ((nestedOf d).elementsOrNone.toOption.getD []))] else [] : Fields)

/-- What a purge leaves of a description. -/
def keptOf (op : Operation) (d : Fields) : Fields :=
  ("operation", .text op.name) :: (operandsOf op d ++ linksOf d)

theorem purge_map (es : Fields) : purge (.map es) = purgeEntries es := by
  cases es <;> rfl

theorem isEmpty_present (vs : List Value) :
    (present vs).isEmpty = !(vs.any fun v => !v.isNull) := by
  rw [Bool.eq_iff_iff]
  simp [present, List.isEmpty_iff, List.filter_eq_nil_iff]

/-- A purge keeps the operands of an operation, or drops the description. -/
theorem purgeOperands_eq {op : Operation} {d : Fields}
    (hop : Value.entry d "operation" = .text op.name)
    (hrow : op.place = .row → ∃ vs, (Value.entry d "values").elementsOrNone = .ok vs) :
    purgeOperands d =
      .ok (if carries op d then some (("operation", .text op.name) :: operandsOf op d) else none) := by
  rw [purgeOperands, hop, Condition.readOperation_text]
  match op with
  | .exists | .notExists => rfl
  | .oneOf | .noneOf =>
    obtain ⟨vs, hvs⟩ := hrow rfl
    simp only [Result.ok_bind, hvs, carries, operandsOf, Operation.place, rowOf, Except.toOption,
      Option.getD_some, isEmpty_present]
    cases vs.any fun v => !v.isNull <;> rfl
  | .between =>
    by_cases hlow : (lowOf d).isNull = true <;> by_cases hhigh : (highOf d).isNull = true <;>
      simp_all [carries, operandsOf, Operation.place, lowOf, highOf]
  | .equal | .notEqual | .lowerThan | .lowerOrEqualThan | .biggerThan | .biggerOrEqualThan
  | .beginsWith | .contains | .notContains =>
    by_cases hvalue : (Value.entry d "value").isNull = true <;>
      simp [carries, operandsOf, Operation.place, hvalue]

/-- A purge keeps the join and what is nested, where that is a row. -/
theorem linkage_eq (d : Fields) :
    linkage d =
      if (nestedOf d).elementsOrNone.isOk then .ok (linksOf d) else .error .wrongType := by
  have helements : (∃ vs, (nestedOf d).elementsOrNone = .ok vs) ∨
      (nestedOf d).elementsOrNone = .error .wrongType := by
    rw [Value.elementsOrNone]
    split
    · exact Value.elements_cases _
    · exact .inl ⟨[], rfl⟩
  rw [linkage, linksOf]
  rcases helements with ⟨vs, hvs⟩ | hfault
  · simp only [nestedOf] at hvs ⊢
    simp [hvs, joinOf, Except.isOk, Except.toBool, Except.toOption]
    rfl
  · simp only [nestedOf] at hfault ⊢
    simp [hfault, Except.isOk, Except.toBool]

/-- What a purge makes of a description with a known operation. -/
theorem purgeDescription_eq {op : Operation} {d : Fields}
    (hop : Value.entry d "operation" = .text op.name)
    (hrow : op.place = .row → ∃ vs, (Value.entry d "values").elementsOrNone = .ok vs) :
    purgeDescription d =
      if carries op d then
        if (nestedOf d).elementsOrNone.isOk then .ok (some (keptOf op d)) else .error .wrongType
      else .ok none := by
  rw [purgeDescription, purgeOperands_eq hop hrow, linkage_eq]
  cases carries op d with
  | false => rfl
  | true => cases (nestedOf d).elementsOrNone.isOk <;> rfl

section Kept

variable (op : Operation) (d : Fields)

theorem get?_linksOf (key : Text) :
    Entries.get? (linksOf d) key =
      if key = "join_as" ∧ (joinOf d).isNull = false then some (joinOf d)
      else if key = "nested" ∧ (nestedOf d).truthy = true then
        some (.list ((nestedOf d).elementsOrNone.toOption.getD []))
      else none := by
  rw [linksOf, Entries.get?_append]
  cases hjoin : (joinOf d).isNull <;> cases hnested : (nestedOf d).truthy <;>
    by_cases hkey : key = "join_as" <;> simp [hkey, eq_comm]

theorem get?_keptOf (key : Text) :
    Entries.get? (keptOf op d) key =
      if "operation" = key then some (.text op.name)
      else (Entries.get? (operandsOf op d) key).or (Entries.get? (linksOf d) key) := by
  rw [keptOf, Entries.get?_cons, Entries.get?_append]

@[simp] theorem entry_operation_keptOf :
    Value.entry (keptOf op d) "operation" = .text op.name := by
  simp [Value.entry, get?_keptOf]

theorem entry_value_keptOf : Value.entry (keptOf op d) "value" =
    if op.place = .single then Value.entry d "value" else .null := by
  cases h : op.place <;> simp [Value.entry, get?_keptOf, get?_linksOf, operandsOf, h]

theorem entry_values_keptOf : Value.entry (keptOf op d) "values" =
    if op.place = .row then .list (present (rowOf d)) else .null := by
  cases h : op.place <;> simp [Value.entry, get?_keptOf, get?_linksOf, operandsOf, h]

theorem lowOf_keptOf :
    lowOf (keptOf op d) = if op.place = .bounds then lowOf d else .null := by
  cases h : op.place <;>
    simp [lowOf, Value.entryOr, Value.entry, get?_keptOf, get?_linksOf, operandsOf, h]

theorem highOf_keptOf :
    highOf (keptOf op d) = if op.place = .bounds then highOf d else .null := by
  cases h : op.place <;>
    simp [highOf, Value.entryOr, Value.entry, get?_keptOf, get?_linksOf, operandsOf, h]

@[simp] theorem joinOf_keptOf : joinOf (keptOf op d) = joinOf d := by
  have hoperands : ∀ key, key = "join_as" ∨ key = "joinAs" →
      Entries.get? (operandsOf op d) key = none := by
    intro key hkey
    cases h : op.place <;> rcases hkey with rfl | rfl <;> simp [operandsOf, h]
  rw [joinOf, Value.entryOr, Value.entry, get?_keptOf, get?_keptOf, hoperands _ (.inl rfl),
    hoperands _ (.inr rfl), get?_linksOf, get?_linksOf]
  by_cases hjoin : joinOf d = .null
  · simp [hjoin, Value.isNull]
  · simp [Value.isNull_eq_false.mpr hjoin]

theorem nestedOf_keptOf : nestedOf (keptOf op d) =
    if (nestedOf d).truthy then .list ((nestedOf d).elementsOrNone.toOption.getD []) else .null := by
  have hoperands : Entries.get? (operandsOf op d) "nested" = none := by
    cases h : op.place <;> simp [operandsOf, h]
  rw [nestedOf, Value.entry, get?_keptOf, hoperands, get?_linksOf]
  cases (nestedOf d).truthy <;> simp

theorem present_present (vs : List Value) : present (present vs) = present vs := by
  simp [present]

theorem rowOf_keptOf (h : op.place = .row) : rowOf (keptOf op d) = present (rowOf d) := by
  rw [rowOf, entry_values_keptOf, if_pos h, Value.elementsOrNone_list]
  rfl

theorem carries_keptOf : carries op (keptOf op d) = carries op d := by
  cases h : op.place with
  | nowhere => simp [carries, h]
  | row => simp [carries, h, rowOf_keptOf, present]
  | bounds => simp [carries, h, lowOf_keptOf, highOf_keptOf]
  | single => simp [carries, h, entry_value_keptOf]

theorem operandsOf_keptOf : operandsOf op (keptOf op d) = operandsOf op d := by
  cases h : op.place with
  | nowhere => simp [operandsOf, h]
  | row => simp [operandsOf, h, rowOf_keptOf, present_present]
  | bounds => simp [operandsOf, h, lowOf_keptOf, highOf_keptOf]
  | single => simp [operandsOf, h, entry_value_keptOf]

variable {d}

/-- What is nested in a description with members stays there. -/
theorem linksOf_keptOf (h : (nestedOf d).elementsOrNone.isOk = true) :
    linksOf (keptOf op d) = linksOf d := by
  obtain ⟨vs, hvs⟩ := Result.exists_of_isOk h
  by_cases hnested : (nestedOf d).truthy = true
  · have hne : vs ≠ [] := by
      rw [Value.elementsOrNone, if_pos hnested] at hvs
      simpa [hnested] using Value.truthy_of_elements hvs
    have hkept : nestedOf (keptOf op d) = .list vs := by
      rw [nestedOf_keptOf, if_pos hnested, hvs]
      rfl
    have htruthy : (Value.list vs).truthy = true := by
      simpa [Value.truthy] using hne
    rw [linksOf, linksOf, joinOf_keptOf, hkept, Value.elementsOrNone_list, hvs, if_pos hnested,
      if_pos htruthy]
  · have hkept : nestedOf (keptOf op d) = .null := by
      rw [nestedOf_keptOf, if_neg hnested]
    rw [linksOf, linksOf, joinOf_keptOf, hkept, if_neg hnested]
    rfl

theorem keptOf_keptOf (h : (nestedOf d).elementsOrNone.isOk = true) :
    keptOf op (keptOf op d) = keptOf op d := by
  rw [keptOf, operandsOf_keptOf, linksOf_keptOf op h, keptOf]

end Kept

theorem entry_equals {v w : Value} (h : Entry.ofValue v = .equals w) : v = w ∧ v ≠ .null := by
  cases v with
  | map es =>
    rw [Entry.ofValue] at h
    split at h
    · cases h
    · exact ⟨Entry.equals.inj h, by simp⟩
  | _ => cases h <;> simp

theorem entry_kept (op : Operation) (d : Fields) :
    Entry.ofValue (.map (keptOf op d)) = .described (keptOf op d) := by
  have hoperation : Entries.has (keptOf op d) "operation" = true := by
    simp [Entries.has, get?_keptOf]
  rw [Entry.ofValue, if_pos hoperation]

/-- A plain value is tested for equality. -/
theorem conditionOf_equals {property : Text} (hp : property ≠ "") {v : Value}
    (hv : Entry.ofValue v = .equals v) :
    conditionOf property v =
      .ok (Condition.toValue ⟨.text property, .compare .equal v, .and⟩) := by
  have hproperty : (Value.text property).truthy = true := by simp [Value.truthy, hp]
  have hpresent := Value.isNull_eq_false.mpr (entry_equals hv).2
  have hnull : Value.null.isNull = true := rfl
  simp only [conditionOf, hv, Condition.ofFields, hproperty, Condition.readOperation_text,
    Result.ok_bind, Condition.readOperands_null]
  simp [Condition.readJoin, Value.text?, Condition.readTest, Condition.readComparison, hpresent, hnull]

theorem conditionOf_list {property : Text} (hp : property ≠ "") (vs : List Value) :
    conditionOf property (.list vs) = .ok (Condition.toValue ⟨.text property, .oneOf vs, .and⟩) := by
  have hproperty : (Value.text property).truthy = true := by simp [Value.truthy, hp]
  have hentry : Entry.ofValue (.list vs) = .member vs := rfl
  simp only [conditionOf, hentry, Condition.ofFields, hproperty, Condition.readOperation_text,
    Result.ok_bind, Condition.readOperands_tuple]
  simp [Condition.readJoin, Value.text?, Condition.readTest, Condition.readList, Value.isNull]

theorem conditionOf_keptOf (property : Text) (op : Operation) (d : Fields) :
    conditionOf property (.map (keptOf op d)) =
      Condition.parse (.map (Entries.put (keptOf op d) "property" (.text property))) := by
  rw [conditionOf, entry_kept]

open Condition in
/-- What the description of a property is read as. -/
theorem parse_description {property : Text} (hp : property ≠ "") {op : Operation} {d : Fields}
    (hop : Value.entry d "operation" = .text op.name) :
    parse (.map (Entries.put d "property" (.text property))) =
      givenRow (Value.entry d "values") >>= fun row =>
        readParts property op (Value.entry d "value") row (lowOf d) (highOf d) (joinOf d)
          (nestedOf d) := by
  have hproperty : Value.entry (Entries.put d "property" (.text property)) "property" =
      .text property := by
    simp [Value.entry, Entries.get?_put]
  have hshown : ((Value.text property).orElse (.text "")).shown = .ok property := by
    simp [Value.orElse, Value.truthy, hp, Value.shown, Value.hasDisplay, Value.display]
  rw [parse, ofMap, parseNested_eq, hproperty, hshown, entry_put (by decide), hop, orElse_operation,
    readOperation_text, entry_put (by decide), entry_put (by decide), entry_put (by decide),
    entryOr_put (by decide) (by decide), entryOr_put (by decide) (by decide),
    entryOr_put (by decide) (by decide), Result.ok_bind, Result.ok_bind]
  by_cases hnull : (Value.entry d "values").isNull = true
  · simp only [givenRow, hnull, if_true]
    rfl
  · cases hvalues : (Value.entry d "values").elements <;> simp only [givenRow, hnull, hvalues] <;> rfl

end Filter
end TableGateway
