import TableGateway.Proofs.FilterConditions
import TableGateway.Proofs.RequestFields

/-!
# Conditions described by maps

A condition with what is nested in it can be given as a map in many spellings: its bounds go by two
names each, its join too, which may be left out where it is "and", and what is nested may itself be
given as maps or as conditions. All of them are read as one and the same tree, the one that is made of
the conditions themselves.
-/
namespace TableGateway

open Entries

namespace Test

/-! The operands of a test in the four places of a condition. -/

def value : Test → Value
  | .compare _ v => v
  | _ => .null

def row : Test → Value
  | .oneOf vs | .noneOf vs => .tuple vs
  | _ => .null

def low : Test → Value
  | .between low _ => low
  | _ => .null

def high : Test → Value
  | .between _ high => high
  | _ => .null

/-- The four places of a record, read off the test. -/
theorem operandFields_eq (t : Test) : t.operandFields = [t.value, t.row, t.low, t.high] := by
  cases t <;> rfl

/-- Are the operands of a test there? Members of a row may be missing. -/
def Full : Test → Prop
  | .compare _ v => v ≠ .null
  | .between low high => low ≠ .null ∧ high ≠ .null
  | _ => True

end Test

namespace Condition

theorem full_of_readTest {op : Operation} {value low high : Value} {values : Option (List Value)}
    {t : Test} (h : readTest op value values low high = .ok t) : t.Full := by
  have hcomparison {how : Comparison} (h : readComparison how value values low high = .ok t) :
      t.Full := by
    obtain rfl := readComparison_eq h
    rintro rfl
    simp [readComparison, Value.isNull, refuse] at h
  cases op with
  | «exists» | notExists =>
    rw [readExistence_eq h]
    trivial
  | oneOf | noneOf =>
    obtain ⟨vs, rfl⟩ := readList_eq h
    trivial
  | between =>
    obtain rfl := readBetween_eq h
    constructor <;> rintro rfl <;> simp [readTest, readBetween, Value.isNull, refuse] at h
  | equal | notEqual | lowerThan | lowerOrEqualThan | biggerThan | biggerOrEqualThan | beginsWith
  | contains | notContains => exact hcomparison h

/-- A condition can be made again of its own parts. -/
theorem ofFields_own {property : Text} (hp : property ≠ "") {t : Test} (ht : t.Full) (j : Join) :
    ofFields (.text property) (.text t.operation.name) t.value t.row t.low t.high (.text j.name) =
      .ok ⟨.text property, t, j⟩ := by
  have htruthy : (Value.text property).truthy = true := by simp [Value.truthy, hp]
  have hjoin : readJoin (.text j.name) = .ok j := by simp [readJoin, Value.text?]
  have hnull : Value.null.isNull = true := rfl
  have htest : (readOperands t.operation t.row >>= fun operands =>
      readTest t.operation t.value operands t.low t.high) = .ok t := by
    cases t with
    | compare how v =>
      have hv : v.isNull = false := Value.isNull_eq_false.mpr ht
      cases how <;>
        simp [Test.row, Test.value, Test.low, Test.high, Test.operation, Comparison.operation,
          readTest, readComparison, hv, hnull]
    | between low high =>
      have hlow : low.isNull = false := Value.isNull_eq_false.mpr ht.1
      have hhigh : high.isNull = false := Value.isNull_eq_false.mpr ht.2
      simp [Test.row, Test.value, Test.low, Test.high, Test.operation, readTest, readBetween, hlow,
        hhigh, hnull]
    | _ => rfl
  obtain ⟨operands, hoperands, htest⟩ := Result.bind_eq_ok.mp htest
  simp only [ofFields, htruthy, readOperation_text, hjoin, hoperands, htest, Result.ok_bind]
  rfl

end Condition

/-- Can the condition be made, with a text for its property? -/
def Condition.Made (c : Condition) : Prop :=
  ∃ property operation value values low high join,
    Condition.ofFields (.text property) operation value values low high join = .ok c

theorem Condition.Made.parts {c : Condition} (h : c.Made) :
    ∃ property : Text, property ≠ "" ∧ c.property = .text property ∧ c.test.Full := by
  obtain ⟨property, operation, value, values, low, high, join, h⟩ := h
  rw [ofFields] at h
  split at h
  · cases h
  · next htruthy =>
    obtain ⟨op, -, h⟩ := Result.bind_eq_ok.mp h
    obtain ⟨j, -, h⟩ := Result.bind_eq_ok.mp h
    obtain ⟨operands, -, h⟩ := Result.bind_eq_ok.mp h
    obtain ⟨test, htest, h⟩ := Result.bind_eq_ok.mp h
    obtain rfl := Except.ok.inj h
    exact ⟨property, by simpa [Value.truthy] using htruthy, rfl, full_of_readTest htest⟩

/-- A condition that can be made is made of its own parts. -/
theorem Condition.Made.ofFields_eq {c : Condition} (h : c.Made) :
    ofFields c.property (.text c.test.operation.name) c.test.value c.test.row c.test.low c.test.high
      (.text c.join.name) = .ok c := by
  obtain ⟨property, hp, hproperty, hfull⟩ := h.parts
  rw [hproperty, ofFields_own hp hfull, ← hproperty]

/-- A tree that is made of conditions with others nested in them. -/
inductive Tree.Built : Tree → Prop where
  | nest {head : Condition} (made : head.Made) {members : List Tree}
    (built : ∀ t ∈ members, Built t) : Built (Tree.nest head members)

theorem Tree.Built.leaf {c : Condition} (h : c.Made) : Built (.leaf c) :=
  @Built.nest c h [] (by simp)

/-- How a condition is written as a map, where there is a choice. -/
structure Spelling where
  startForLow : Bool
  endForHigh : Bool
  joinAsInOne : Bool
  andLeftOut : Bool
  valuesAsTuple : Bool
  nestedAsTuple : Bool
  emptyNestedLeftOut : Bool
  deriving DecidableEq, Repr

namespace Spelling

def row (asTuple : Bool) (vs : List Value) : Value := if asTuple then .tuple vs else .list vs

variable (s : Spelling)

def operands : Test → Fields
  | .compare _ v => [("value", v)]
  | .present | .absent => []
  | .oneOf vs | .noneOf vs => [("values", row s.valuesAsTuple vs)]
  | .between low high =>
    [(if s.startForLow then "start" else "low", low), (if s.endForHigh then "end" else "high", high)]

def join (j : Join) : Fields :=
  if s.andLeftOut ∧ j = .and then []
  else [(if s.joinAsInOne then "joinAs" else "join_as", .text j.name)]

def nested (members : List Value) : Fields :=
  if s.emptyNestedLeftOut ∧ members = [] then [] else [("nested", row s.nestedAsTuple members)]

def heading (c : Condition) : Fields :=
  [("property", c.property), ("operation", .text c.test.operation.name)]

/-- The entries of a map that describes a condition and what is nested in it. -/
def entries (c : Condition) (members : List Value) : Fields :=
  heading c ++ (s.operands c.test ++ (s.join c.join ++ s.nested members))

/-- The keys that the parts of such a map can have. -/
def headingKeys : List Text := ["property", "operation"]

def operandKeys : List Text := ["value", "values", "low", "start", "high", "end"]

def joinKeys : List Text := ["join_as", "joinAs"]

def nestedKeys : List Text := ["nested"]

theorem keys_operands (t : Test) :
    (keys (s.operands t)).Sublist operandKeys := by
  cases t with
  | between low high =>
    have hkeys : keys (s.operands (.between low high)) =
        ([if s.startForLow then "start" else "low", if s.endForHigh then "end" else "high"] :
          List Text) := rfl
    rw [hkeys]
    cases s.startForLow <;> cases s.endForHigh <;> decide
  | _ => simp [operands, operandKeys, keys]

theorem keys_join (j : Join) : (keys (s.join j)).Sublist joinKeys := by
  rw [join]
  split
  · simp [keys]
  · cases s.joinAsInOne <;> simp [joinKeys, keys]

theorem keys_nested (members : List Value) : (keys (s.nested members)).Sublist nestedKeys := by
  rw [nested]
  split <;> simp [nestedKeys, keys]

/-- No spelling uses a key twice. -/
theorem nodup_keys_entries (c : Condition) (members : List Value) :
    (keys (s.entries c members)).Nodup := by
  have hsub : (keys (s.entries c members)).Sublist
      (headingKeys ++ (operandKeys ++ (joinKeys ++ nestedKeys))) := by
    simp only [entries, keys, List.map_append]
    exact (List.Sublist.refl _).append ((s.keys_operands c.test).append
      ((s.keys_join c.join).append (s.keys_nested members)))
  exact hsub.nodup (by decide)

/-- A look-up passes over a part that has no such key. -/
theorem get?_skip {part rest : Fields} {names : List Text} (h : (keys part).Sublist names)
    {key : Text} (hkey : key ∉ names) : get? (part ++ rest) key = get? rest key := by
  have hnone := (get?_eq_none part key).mpr fun hmem => hkey (h.subset hmem)
  rw [get?_append, hnone, Option.none_or]

/-- A look-up does not go on to a part that has no such key. -/
theorem get?_stop {part rest : Fields} {names : List Text} (h : (keys rest).Sublist names)
    {key : Text} (hkey : key ∉ names) : get? (part ++ rest) key = get? part key := by
  have hnone := (get?_eq_none rest key).mpr fun hmem => hkey (h.subset hmem)
  rw [get?_append, hnone, Option.or_none]

section LookUps

variable (c : Condition) (members : List Value)

theorem entry_property : Value.entry (s.entries c members) "property" = c.property := rfl

theorem entry_operation :
    Value.entry (s.entries c members) "operation" = .text c.test.operation.name := rfl

theorem keys_heading : (keys (heading c)).Sublist headingKeys := .refl _

theorem keys_links : (keys (s.join c.join ++ s.nested members)).Sublist
    (joinKeys ++ nestedKeys) := by
  rw [keys, List.map_append]
  exact (s.keys_join c.join).append (s.keys_nested members)

theorem get?_operand {key : Text} (h : key ∈ operandKeys) :
    get? (s.entries c members) key = get? (s.operands c.test) key := by
  have hother : ∀ key ∈ operandKeys,
      key ∉ headingKeys ∧ key ∉ joinKeys ++ nestedKeys := by decide
  rw [entries, get?_skip (keys_heading c) (hother key h).1,
    get?_stop (s.keys_links c members) (hother key h).2]

theorem get?_joinKey {key : Text} (h : key ∈ joinKeys) :
    get? (s.entries c members) key = get? (s.join c.join) key := by
  have hother : ∀ key ∈ joinKeys, key ∉ headingKeys ∧
      key ∉ operandKeys ∧ key ∉ nestedKeys := by decide
  obtain ⟨hheading, hoperands, hnested⟩ := hother key h
  rw [entries, get?_skip (keys_heading c) hheading, get?_skip (s.keys_operands c.test) hoperands,
    get?_stop (s.keys_nested members) hnested]

theorem entry_nested : Value.entry (s.entries c members) "nested" =
    Value.entry (s.nested members) "nested" := by
  rw [Value.entry, Value.entry, entries, get?_skip (keys_heading c) (by decide),
    get?_skip (s.keys_operands c.test) (by decide), get?_skip (s.keys_join c.join) (by decide)]

/-- The join that is read is that of the condition, whatever it is called, and "and" where it is left
out. -/
theorem join_read : (Value.entryOr (s.entries c members) "join_as" "joinAs").orElse (.text "and") =
    .text c.join.name := by
  rw [Value.entryOr, Value.entry, get?_joinKey s c members (by decide),
    get?_joinKey s c members (by decide), join]
  split
  · next homitted =>
    rw [homitted.2]
    rfl
  · cases s.joinAsInOne <;> cases c.join <;> rfl

theorem value_read : Value.entry (s.entries c members) "value" = c.test.value := by
  rw [Value.entry, get?_operand s c members (by decide)]
  cases c.test with
  | between low high =>
    cases hstart : s.startForLow <;> cases hend : s.endForHigh <;>
      simp [operands, Test.value, hstart, hend]
  | _ => rfl

theorem row_read :
    Condition.givenRow (Value.entry (s.entries c members) "values") = .ok c.test.row := by
  rw [Value.entry, get?_operand s c members (by decide)]
  cases c.test with
  | between low high =>
    cases hstart : s.startForLow <;> cases hend : s.endForHigh <;>
      simp [operands, Test.row, hstart, hend] <;> rfl
  | oneOf vs | noneOf vs =>
    cases hvalues : s.valuesAsTuple <;> simp [operands, row, hvalues] <;> rfl
  | _ => rfl

theorem low_read : Value.entryOr (s.entries c members) "low" "start" = c.test.low := by
  rw [Value.entryOr, Value.entry, get?_operand s c members (by decide),
    get?_operand s c members (by decide)]
  cases c.test with
  | between low high =>
    cases hstart : s.startForLow <;> cases hend : s.endForHigh <;>
      simp [operands, Test.low, hstart, hend]
  | _ => rfl

theorem high_read : Value.entryOr (s.entries c members) "high" "end" = c.test.high := by
  rw [Value.entryOr, Value.entry, get?_operand s c members (by decide),
    get?_operand s c members (by decide)]
  cases c.test with
  | between low high =>
    cases hstart : s.startForLow <;> cases hend : s.endForHigh <;>
      simp [operands, Test.high, hstart, hend]
  | _ => rfl

theorem parseMembers_nested :
    Condition.parseMembers (Value.entry (s.nested members) "nested") = Condition.parseAll members := by
  rw [nested]
  split
  · next hempty =>
    rw [hempty.2]
    rfl
  · cases hnested : s.nestedAsTuple <;> simp [Value.entry, row, Condition.parseMembers]

end LookUps

end Spelling

namespace Condition

/-- What a map is read as whose property, operation and row can be read. -/
theorem parse_map_eq {es : Fields} {property : Text} {op : Operation} {row : Value}
    (hproperty : ((Value.entry es "property").orElse (.text "")).shown = .ok property)
    (hop : readOperation ((Value.entry es "operation").orElse (.text "")) = .ok op)
    (hrow : givenRow (Value.entry es "values") = .ok row) :
    parse (.map es) =
      ofFields (.text property) (.text op.name) (Value.entry es "value") row
          (Value.entryOr es "low" "start") (Value.entryOr es "high" "end")
          ((Value.entryOr es "join_as" "joinAs").orElse (.text "and")) >>= fun head =>
        nestValue head <$> parseMembers (Value.entry es "nested") := by
  rw [parse, ofMap, parseNested_eq, hproperty, hop, Result.ok_bind, Result.ok_bind]
  rw [givenRow] at hrow
  split at hrow
  · next hnull =>
    obtain rfl := Except.ok.inj hrow
    simp only [hnull, if_true]
    rfl
  · next hnull =>
    simp only [hnull, hrow]
    rfl

/-- A map in any spelling and order is read as the condition with what its members are read as. -/
theorem parse_spelled (s : Spelling) {c : Condition} (hmade : c.Made) {es : Fields}
    {members : List Value} (hes : es.Perm (s.entries c members)) :
    parse (.map es) = nestValue c <$> parseAll members := by
  have hget := get?_of_perm (s.nodup_keys_entries c members) hes
  have hentry (key : Text) : Value.entry es key = Value.entry (s.entries c members) key := by
    rw [Value.entry, Value.entry, hget]
  have hentryOr (key second : Text) :
      Value.entryOr es key second = Value.entryOr (s.entries c members) key second := by
    rw [Value.entryOr, Value.entryOr, hget, hentry]
  obtain ⟨property, hp, hproperty, -⟩ := hmade.parts
  have hshown : ((Value.entry es "property").orElse (.text "")).shown = .ok property := by
    have htruthy : (Value.text property).truthy = true := by simp [Value.truthy, hp]
    rw [hentry, s.entry_property, hproperty, Value.orElse, if_pos htruthy]
    rfl
  have hoperation :
      readOperation ((Value.entry es "operation").orElse (.text "")) = .ok c.test.operation := by
    rw [hentry, s.entry_operation, orElse_operation, readOperation_text]
  have hrow : givenRow (Value.entry es "values") = .ok c.test.row := by
    rw [hentry, s.row_read]
  rw [parse_map_eq hshown hoperation hrow, hentry, hentryOr, hentryOr, hentryOr, s.value_read,
    s.low_read, s.high_read, s.join_read, ← hproperty, hmade.ofFields_eq, Result.ok_bind, hentry,
    s.entry_nested, s.parseMembers_nested]

end Condition

/-- Does a value describe a tree? It may be the tree itself, or a map in some spelling, with its entries
in any order, of the condition at the head of the tree and of descriptions of what is nested. -/
inductive Describes : Value → Tree → Prop where
  | object {t : Tree} (built : t.Built) : Describes t.toValue t
  | mapping (s : Spelling) {head : Condition} (made : head.Made) {es : Fields} {members : List Value}
    {ts : List Tree} (size : members.length = ts.length)
    (described : ∀ p ∈ members.zip ts, Describes p.1 p.2)
    (entries : es.Perm (s.entries head members)) : Describes (.map es) (Tree.nest head ts)

namespace Tree

theorem toValue_nest (head : Condition) (ts : List Tree) :
    (nest head ts).toValue = Condition.nestValue head (toValues ts) := by
  cases ts <;> rfl

/-- A record is read as itself. -/
theorem parse_toValue (t : Tree) : Condition.parse t.toValue = .ok t.toValue := by
  cases t <;> rfl

end Tree

theorem Condition.parseAll_of_parsed {members : List Value} {ts : List Tree}
    (h : List.Forall₂ (fun v t => parse v = .ok (Tree.toValue t)) members ts) :
    parseAll members = .ok (Tree.toValues ts) := by
  induction h with
  | nil => rfl
  | cons hfirst _ ih =>
    rw [parseAll, hfirst, Result.ok_bind, ih]
    rfl

/-- A description is read as the tree that it describes. -/
theorem Describes.parse_eq {d : Value} {t : Tree} (h : Describes d t) :
    Condition.parse d = .ok t.toValue := by
  induction h with
  | object => exact Tree.parse_toValue _
  | mapping s made size described entries ih =>
    have hmembers := Condition.parseAll_of_parsed (List.forall₂_iff_zip.mpr ⟨size, ih _⟩)
    rw [Condition.parse_spelled s made entries, hmembers, Tree.toValue_nest]
    rfl

theorem Describes.built {d : Value} {t : Tree} (h : Describes d t) : t.Built := by
  induction h with
  | object built => exact built
  | mapping s made size described entries ih =>
    have hmembers := List.forall₂_iff_zip.mpr ⟨size, @fun v t hp => ih (v, t) hp⟩
    refine .nest made fun t ht => ?_
    obtain ⟨v, -, hbuilt⟩ := Result.exists_left_of_forall₂ hmembers ht
    exact hbuilt

/-- Every tree that is built of conditions has a description as a map, in every spelling. -/
theorem Tree.Built.exists_map {t : Tree} (h : t.Built) (s : Spelling) :
    ∃ es, Describes (.map es) t := by
  induction h with
  | @nest head made ts built ih =>
    have hmembers : ∃ members : List Value, List.Forall₂ Describes members ts := by
      clear built
      induction ts with
      | nil => exact ⟨[], .nil⟩
      | cons t ts ihts =>
        obtain ⟨es, hes⟩ := ih t List.mem_cons_self
        obtain ⟨members, hmembers⟩ := ihts fun u hu => ih u (List.mem_cons_of_mem _ hu)
        exact ⟨.map es :: members, .cons hes hmembers⟩
    obtain ⟨members, hmembers⟩ := hmembers
    obtain ⟨hsize, hdescribed⟩ := List.forall₂_iff_zip.mp hmembers
    exact ⟨s.entries head members, .mapping s made hsize (fun p hp => hdescribed hp) (.refl _)⟩

namespace Forest

theorem readTree_leaf {c : Condition} (hmade : c.Made) :
    readTree c.toValue = (some (.leaf c), false) := by
  have hrecord : Condition.ofRecord? (c.property :: .text c.test.operation.name ::
      c.test.operandFields ++ [.text c.join.name]) = some c := by
    rw [c.test.operandFields_eq]
    simp [Condition.ofRecord?, hmade.ofFields_eq, Except.toOption]
  rw [Condition.toValue, readTree, hrecord]

theorem readTrees_toValues {ts : List Tree} (h : ∀ t ∈ ts, readTree t.toValue = (some t, false)) :
    readTrees (Tree.toValues ts) = (ts, false) := by
  induction ts with
  | nil => rfl
  | cons t ts ih =>
    obtain ⟨ht, hts⟩ := List.forall_mem_cons.mp h
    rw [Tree.toValues, readTrees, ht, ih hts]
    rfl

/-- The records of a tree that is built of conditions are that tree. -/
theorem readTree_toValue {t : Tree} (h : t.Built) : readTree t.toValue = (some t, false) := by
  induction h with
  | @nest head made ts built ih =>
    cases ts with
    | nil => exact readTree_leaf made
    | cons t ts =>
      have hmembers : readTrees (Tree.toValues (.leaf head :: t :: ts)) =
          (.leaf head :: t :: ts, false) :=
        readTrees_toValues (List.forall_mem_cons.mpr ⟨readTree_leaf made, ih⟩)
      rw [Tree.nest, Tree.toValue, readTree, hmembers]
      · simp [Value.text?]
      · simp

/-- A row of descriptions is read as the forest of what they describe. -/
theorem read_described {ds : List Value} {ts : List Tree} (h : List.Forall₂ Describes ds ts) :
    Forest.read (.list ds) = .ok ⟨ts, false⟩ := by
  have hbuilt : ∀ t ∈ ts, readTree t.toValue = (some t, false) := by
    intro t ht
    obtain ⟨d, -, hd⟩ := Result.exists_left_of_forall₂ h ht
    exact readTree_toValue hd.built
  have helements : (Value.list ds).elements = .ok ds := rfl
  have hparse := Condition.parseAll_of_parsed (h.imp fun _ _ hd => hd.parse_eq)
  rw [Forest.read, helements, Result.ok_bind, hparse, Result.ok_bind, ofRecords,
    readTrees_toValues hbuilt]
  rfl

end Forest

/-- Two rows of descriptions of which the one can stand for the other. -/
structure SameConditions (ds cs : List Value) : Prop where
  expression : ∀ e, (Forest.read (.list ds) >>= Forest.expression e) =
    (Forest.read (.list cs) >>= Forest.expression e)
  compiled : ∀ e, (Forest.read (.list ds) >>= Forest.compile e) =
    (Forest.read (.list cs) >>= Forest.compile e)
  properties : (Forest.read (.list ds) >>= Forest.properties) =
    (Forest.read (.list cs) >>= Forest.properties)

/-- A description in whatever spelling is read as the tree that it describes, and a row of descriptions
has the expression, the clause and the properties of the trees themselves. -/
theorem descriptions_read_alike :
    (∀ d t, Describes d t → Condition.parse d = .ok t.toValue) ∧
      ∀ (ds : List Value) (ts : List Tree), List.Forall₂ Describes ds ts →
        Forest.read (.list (ts.map Tree.toValue)) = .ok ⟨ts, false⟩ ∧
          SameConditions ds (ts.map Tree.toValue) := by
  refine ⟨fun d t h => h.parse_eq, fun ds ts h => ?_⟩
  have hbuilt : ∀ t ∈ ts, t.Built := by
    intro t ht
    obtain ⟨d, -, hd⟩ := Result.exists_left_of_forall₂ h ht
    exact hd.built
  have hobjects : Forest.read (.list (ts.map Tree.toValue)) = .ok ⟨ts, false⟩ := by
    refine Forest.read_described (List.forall₂_map_left_iff.mpr (List.forall₂_same.mpr fun t ht => ?_))
    exact .object (hbuilt t ht)
  refine ⟨hobjects, fun e => ?_, fun e => ?_, ?_⟩ <;> rw [Forest.read_described h, hobjects]

def presentPair : Tree :=
  .nest ⟨.text "r", .present, .and⟩ [.leaf ⟨.text "s", .compare .equal (.int 0), .or⟩]

/-- Bounds in which a row of values and a pair of conditions are nested. -/
def nestedBounds : Tree :=
  .nest ⟨.text "p", .between (.int 1) (.int 2), .or⟩
    [.nest ⟨.text "q", .oneOf [.int 1, .null], .and⟩ [], presentPair]

def rowMap : Fields :=
  [("property", .text "q"), ("operation", .text "in"), ("values", .tuple [.int 1, .null])]

/-- The same in the other names and backwards, with the pair as it is. -/
def nestedBoundsMap : Fields :=
  [("nested", .tuple [.map rowMap, presentPair.toValue]), ("joinAs", .text "or"), ("end", .int 2),
    ("start", .int 1), ("operation", .text "between"), ("property", .text "p")]

theorem descriptions_read_alike_backwards :
    Describes (.map nestedBoundsMap) nestedBounds ∧
      Condition.parse (.map nestedBoundsMap) = .ok nestedBounds.toValue ∧
      SameConditions [.map nestedBoundsMap] [nestedBounds.toValue] := by
  let other : Spelling := ⟨true, true, true, true, true, true, true⟩
  have hbounds : Condition.Made ⟨.text "p", .between (.int 1) (.int 2), .or⟩ :=
    ⟨"p", .text "between", .null, .null, .int 1, .int 2, .text "or", rfl⟩
  have hrow : Condition.Made ⟨.text "q", .oneOf [.int 1, .null], .and⟩ :=
    ⟨"q", .text "in", .null, .list [.int 1, .null], .null, .null, .text "and", rfl⟩
  have hpresent : Condition.Made ⟨.text "r", .present, .and⟩ :=
    ⟨"r", .text "exists", .null, .null, .null, .null, .text "and", rfl⟩
  have hequal : Condition.Made ⟨.text "s", .compare .equal (.int 0), .or⟩ :=
    ⟨"s", .text "equal", .int 0, .null, .null, .null, .text "or", rfl⟩
  have hpair : presentPair.Built := .nest hpresent (by simpa using Tree.Built.leaf hequal)
  have hmember : Describes (.map rowMap) (.nest ⟨.text "q", .oneOf [.int 1, .null], .and⟩ []) :=
    .mapping other hrow List.length_nil (by simp) (.refl _)
  have hmembers : ∀ p ∈ [Value.map rowMap, presentPair.toValue].zip
      [.nest ⟨.text "q", .oneOf [.int 1, .null], .and⟩ [], presentPair], Describes p.1 p.2 := by
    simpa using ⟨hmember, Describes.object hpair⟩
  have hdescribed : Describes (.map nestedBoundsMap) nestedBounds :=
    .mapping other hbounds rfl hmembers (List.reverse_perm _).symm
  obtain ⟨-, hsame⟩ := descriptions_read_alike.2 [_] [nestedBounds] (.cons hdescribed .nil)
  exact ⟨hdescribed, descriptions_read_alike.1 _ _ hdescribed, hsame⟩

end TableGateway
