import TableGateway.Proofs.FilterEntries

/-!
# Filters as conditions

A filter map whose entries all ask for something is compiled like the conditions that they stand for:
an equality for each plain value, then each description as it is read with its property, then a
membership for each list. Purging takes nothing away from such entries, and a purged description is read
like the one it comes from.
-/
namespace TableGateway.Filter

open Condition

theorem operation_of_parse {property : Text} {d : Fields} {c : Value}
    (h : parse (.map (Entries.put d "property" (.text property))) = .ok c) :
    ∃ op : Operation, Value.entry d "operation" = .text op.name := by
  rw [parse] at h
  obtain ⟨head, hhead, -⟩ := Result.bind_eq_ok.mp h
  obtain ⟨shown, -, hhead⟩ := Result.bind_eq_ok.mp hhead
  obtain ⟨op, hop, -⟩ := Result.bind_eq_ok.mp hhead
  rw [entry_put (by decide)] at hop
  exact ⟨op, operation_of_orElse hop⟩

/-- Are the members of a row all there, and at least one? -/
def Full (vs : List Value) : Prop := vs ≠ [] ∧ ∀ v ∈ vs, v ≠ .null

theorem Full.present {vs : List Value} (h : Full vs) : Filter.present vs = vs := by
  rw [Filter.present, List.filter_eq_self]
  intro v hv
  simpa using Value.isNull_eq_false.mpr (h.2 v hv)

theorem Full.any {vs : List Value} (h : Full vs) : (vs.any fun v => !v.isNull) = true := by
  have hempty := isEmpty_present vs
  rw [h.present, List.isEmpty_eq_false_iff.mpr h.1] at hempty
  simpa using hempty

variable {property : Text} {d : Fields} {c : Value}

/-- What is nested in a description that is read stays as it is in a purge. -/
theorem parseMembers_keptOf (op : Operation) {members : List Value}
    (h : parseMembers (nestedOf d) = .ok members) :
    (nestedOf d).elementsOrNone.isOk = true ∧
      parseMembers (nestedOf (keptOf op d)) = .ok members := by
  rw [nestedOf_keptOf]
  rcases parseMembers_inv h with ⟨hempty, rfl⟩ | ⟨hnested, vs, hvs, hread⟩
  · rw [Value.elementsOrNone, hempty]
    exact ⟨rfl, rfl⟩
  · rw [Value.elementsOrNone_of_elements hvs, hnested]
    exact ⟨rfl, hread⟩

section Operands

variable {op : Operation} {row : Value} {operands : Option (List Value)}
  (hfilled : Filled op.place (Value.entry d "value") operands (lowOf d) (highOf d))

include hfilled

/-- A purge takes away no operand from where its operation has it. -/
theorem operands_keptOf :
    Value.entry (keptOf op d) "value" = Value.entry d "value" ∧
      lowOf (keptOf op d) = lowOf d ∧ highOf (keptOf op d) = highOf d := by
  rw [entry_value_keptOf, lowOf_keptOf, highOf_keptOf]
  refine ⟨?_, ?_, ?_⟩
  · by_cases hplace : op.place = .single
    · rw [if_pos hplace]
    · rw [if_neg hplace, hfilled.value_eq hplace]
  · by_cases hplace : op.place = .bounds
    · rw [if_pos hplace]
    · rw [if_neg hplace, hfilled.low_eq hplace]
  · by_cases hplace : op.place = .bounds
    · rw [if_pos hplace]
    · rw [if_neg hplace, hfilled.high_eq hplace]

/-- A full row stays as it is. -/
theorem row_keptOf (hfull : ∀ vs, (Value.entry d "values").elements = .ok vs → Full vs)
    (hgiven : givenRow (Value.entry d "values") = .ok row)
    (hoperands : readOperands op row = .ok operands) :
    (op.place = .row →
      Full (rowOf d) ∧ ∃ vs, (Value.entry d "values").elementsOrNone = .ok vs) ∧
      givenRow (Value.entry (keptOf op d) "values") = .ok row := by
  rw [entry_values_keptOf]
  rcases givenRow_inv hgiven with ⟨-, rfl⟩ | ⟨-, vs, hvs, rfl⟩
  · obtain rfl := Except.ok.inj hoperands
    have hplace : op.place ≠ .row := fun hplace => hfilled.row_ne.mpr hplace rfl
    rw [if_neg hplace]
    exact ⟨fun h => absurd h hplace, rfl⟩
  · obtain rfl := Except.ok.inj hoperands
    have hplace := hfilled.row_ne.mp (by simp)
    have helements := Value.elementsOrNone_of_elements hvs
    have hrow : rowOf d = vs := by
      rw [rowOf, helements]
      rfl
    have hall := hfull vs hvs
    rw [if_pos hplace, hrow, hall.present]
    exact ⟨fun _ => ⟨hall, vs, helements⟩, rfl⟩

theorem carries_of_filled (hrow : op.place = .row → Full (rowOf d)) : carries op d = true := by
  rw [carries]
  cases hplace : op.place with
  | nowhere => rfl
  | row => exact (hrow hplace).any
  | bounds =>
    rw [hplace] at hfilled
    obtain ⟨-, -, hlow, hhigh⟩ := hfilled
    simp [Value.isNull_eq_false.mpr hlow, Value.isNull_eq_false.mpr hhigh]
  | single =>
    rw [hplace] at hfilled
    simp [Value.isNull_eq_false.mpr hfilled.1]

end Operands

/-- A description that is read as a condition has an operand, and is read alike after a purge. -/
theorem parse_keptOf (hp : property ≠ "") {op : Operation}
    (hop : Value.entry d "operation" = .text op.name)
    (hfull : ∀ vs, (Value.entry d "values").elements = .ok vs → Full vs)
    (h : parse (.map (Entries.put d "property" (.text property))) = .ok c) :
    purgeDescription d = .ok (some (keptOf op d)) ∧
      parse (.map (Entries.put (keptOf op d) "property" (.text property))) = .ok c := by
  rw [parse_description hp hop] at h
  obtain ⟨row, hgiven, h⟩ := Result.bind_eq_ok.mp h
  obtain ⟨head, hhead, h⟩ := Result.bind_eq_ok.mp h
  obtain ⟨members, hmembers, h⟩ := Result.bind_eq_ok.mp h
  obtain ⟨-, operands, hoperands, hfilled⟩ := (exists_ofFields_iff hp).mp ⟨head, hhead⟩
  obtain ⟨hnested, hmembers⟩ := parseMembers_keptOf op hmembers
  obtain ⟨hvalue, hlow, hhigh⟩ := operands_keptOf hfilled
  obtain ⟨hrow, hgiven⟩ := row_keptOf hfilled hfull hgiven hoperands
  have hcarries := carries_of_filled hfilled fun hplace => (hrow hplace).1
  constructor
  · rw [purgeDescription_eq hop fun hplace => (hrow hplace).2, if_pos hcarries, if_pos hnested]
  · rw [parse_description hp (entry_operation_keptOf op d), hgiven, hvalue, hlow, hhigh,
      joinOf_keptOf, Result.ok_bind, readParts, hhead, Result.ok_bind, hmembers]
    exact h

/-- What an entry asks for that stands for a condition on its property. -/
def Asks (property : Text) : Entry → Prop
  | .nothing => False
  | .equals _ => True
  | .member vs => Full vs
  | .described d =>
    (∃ c, parse (.map (Entries.put d "property" (.text property))) = .ok c) ∧
      ∀ vs, (Value.entry d "values").elements = .ok vs → Full vs

/-- The equalities of a filter map. -/
def equalities (es : Fields) : List Value :=
  es.filterMap fun e =>
    match Entry.ofValue e.2 with
    | .equals v => some (toValue ⟨.text e.1, .compare .equal v, .and⟩)
    | _ => none

/-- The descriptions of a filter map, each with its property in it. -/
def descriptions (es : Fields) : List Value :=
  es.filterMap fun e =>
    match Entry.ofValue e.2 with
    | .described d => some (.map (Entries.put d "property" (.text e.1)))
    | _ => none

/-- The memberships of a filter map. -/
def memberships (es : Fields) : List Value :=
  es.filterMap fun e =>
    match Entry.ofValue e.2 with
    | .member vs => some (toValue ⟨.text e.1, .oneOf vs, .and⟩)
    | _ => none

/-- The entries of a map that all ask for something are sorted into their conditions. -/
theorem exists_sorted (es : Fields) (h : ∀ e ∈ es, e.1 ≠ "" ∧ Asks e.1 (Entry.ofValue e.2)) :
    ∃ kept described, purgeEntries es = .ok kept ∧ parseAll (descriptions es) = .ok described ∧
      sortEntries kept = .ok ⟨equalities es, described, memberships es⟩ := by
  induction es with
  | nil => exact ⟨[], [], rfl, rfl, rfl⟩
  | cons e es ih =>
    obtain ⟨property, v⟩ := e
    obtain ⟨kept, described, hpurge, hparse, hsort⟩ := ih fun e he => h e (by simp [he])
    obtain ⟨hp, hasks⟩ := h (property, v) (by simp)
    cases hv : Entry.ofValue v with
    | nothing => simp [hv, Asks] at hasks
    | equals w =>
      obtain ⟨rfl, -⟩ := entry_equals hv
      refine ⟨(property, v) :: kept, described, ?_, ?_, ?_⟩
      · simp [purgeEntries, purgeEntry, hv, hpurge]
      · simpa [descriptions, hv] using hparse
      · simp [sortEntries, conditionOf_equals hp hv, hsort, Sorted.add, hv, equalities, memberships]
    | member vs =>
      rw [hv] at hasks
      refine ⟨(property, .list vs) :: kept, described, ?_, ?_, ?_⟩
      · simp [purgeEntries, purgeEntry, hv, hasks.present, hasks.1, hpurge]
      · simpa [descriptions, hv] using hparse
      · have hlist : Entry.ofValue (.list vs) = .member vs := rfl
        simp [sortEntries, conditionOf_list hp, hsort, Sorted.add, hlist, hv, equalities, memberships]
    | described d =>
      rw [hv] at hasks
      obtain ⟨⟨c, hc⟩, hfull⟩ := hasks
      obtain ⟨op, hop⟩ := operation_of_parse hc
      obtain ⟨hkept, hread⟩ := parse_keptOf hp hop hfull hc
      refine ⟨(property, .map (keptOf op d)) :: kept, c :: described, ?_, ?_, ?_⟩
      · simp [purgeEntries, purgeEntry, hv, hkept, hpurge]
      · have hcons : descriptions ((property, v) :: es) =
            .map (Entries.put d "property" (.text property)) :: descriptions es := by
          simp [descriptions, hv]
        rw [hcons, parseAll, hc, hparse]
        rfl
      · simp [sortEntries, conditionOf_keptOf, hread, hsort, Sorted.add, entry_kept, equalities,
          memberships, hv]

theorem parseAll_eq (vs : List Value) : parseAll vs = vs.mapM parse := by
  induction vs with
  | nil => rfl
  | cons v vs ih =>
    rw [parseAll, List.mapM_cons, ih]

/-- What is read is a record, which is read as itself. -/
theorem parse_parsed {v record : Value} (h : parse v = .ok record) : parse record = .ok record := by
  cases v with
  | record kind fields =>
    cases kind with
    | condition | group =>
      obtain rfl := Except.ok.inj h
      rfl
    | _ => cases h
  | map es =>
    rw [parse] at h
    obtain ⟨head, -, h⟩ := Result.bind_eq_ok.mp h
    obtain ⟨members, -, h⟩ := Result.bind_eq_ok.mp h
    obtain rfl := Except.ok.inj h
    cases members <;> rfl
  | _ => cases h

theorem parseAll_self {records : List Value} (h : ∀ r ∈ records, parse r = .ok r) :
    parseAll records = .ok records := by
  induction records with
  | nil => rfl
  | cons r rs ih =>
    rw [parseAll, h r (by simp), ih fun r hr => h r (by simp [hr])]
    rfl

theorem read_records {records : List Value} (h : ∀ r ∈ records, parse r = .ok r) :
    Forest.read (.list records) = .ok (Forest.ofRecords records) := by
  have helements : (Value.list records).elements = .ok records := rfl
  rw [Forest.read, helements, Result.ok_bind, parseAll_self h]
  rfl

theorem length_sorted {es : Fields} (h : ∀ e ∈ es, e.1 ≠ "" ∧ Asks e.1 (Entry.ofValue e.2)) :
    (equalities es ++ descriptions es ++ memberships es).length = es.length := by
  induction es with
  | nil => rfl
  | cons e es ih =>
    obtain ⟨-, hasks⟩ := h e (by simp)
    have hrest := ih fun e he => h e (by simp [he])
    simp only [List.length_append] at hrest
    cases hv : Entry.ofValue e.2 with
    | nothing => simp [hv, Asks] at hasks
    | _ =>
      simp only [equalities, descriptions, memberships, List.filterMap_cons, hv, List.length_append,
        List.length_cons] at hrest ⊢
      omega

theorem parse_equalities {es : Fields} {r : Value} (hr : r ∈ equalities es) : parse r = .ok r := by
  obtain ⟨e, -, he⟩ := List.mem_filterMap.mp hr
  cases hv : Entry.ofValue e.2 with
  | equals v =>
    simp only [hv] at he
    obtain rfl := Option.some.inj he
    rfl
  | _ => simp [hv] at he

theorem parse_memberships {es : Fields} {r : Value} (hr : r ∈ memberships es) :
    parse r = .ok r := by
  obtain ⟨e, -, he⟩ := List.mem_filterMap.mp hr
  cases hv : Entry.ofValue e.2 with
  | member vs =>
    simp only [hv] at he
    obtain rfl := Option.some.inj he
    rfl
  | _ => simp [hv] at he

/-- A filter map is compiled as the conditions that it stands for. -/
theorem clause_eq_compile (es : Fields) (hes : es ≠ [])
    (h : ∀ e ∈ es, e.1 ≠ "" ∧ Asks e.1 (Entry.ofValue e.2)) :
    ∃ described, parseAll (descriptions es) = .ok described ∧
      clause (.map es) = some <$>
        (Forest.read (.list (equalities es ++ described ++ memberships es)) >>= fun f =>
          f.compile .ofFilter) := by
  obtain ⟨kept, described, hpurge, hparse, hsort⟩ := exists_sorted es h
  have hmapM := hparse
  rw [parseAll_eq] at hmapM
  have hrecords : ∀ r ∈ equalities es ++ described ++ memberships es, parse r = .ok r := by
    intro r hr
    simp only [List.mem_append] at hr
    rcases hr with (hr | hr) | hr
    · exact parse_equalities hr
    · obtain ⟨d, -, hd⟩ := Result.exists_source_of_mapM hmapM r hr
      exact parse_parsed hd
    · exact parse_memberships hr
  have hlength : (equalities es ++ described ++ memberships es).length = es.length := by
    have hdescribed := (Result.forall₂_of_mapM hmapM).length_eq
    rw [← length_sorted h]
    simp only [List.length_append, hdescribed]
  have hsome : (equalities es ++ described ++ memberships es).isEmpty = false := by
    rw [List.isEmpty_eq_false_iff, ← List.length_pos_iff, hlength]
    exact List.length_pos_of_ne_nil hes
  have hconditions : conditions (.map es) = .ok (equalities es ++ described ++ memberships es) := by
    rw [conditions, purge_map, hpurge, Result.ok_bind, hsort]
    rfl
  refine ⟨described, hparse, ?_⟩
  rw [clause, hconditions, Result.ok_bind, hsome, read_records hrecords]
  rfl

/-- A range with a group nested in it. -/
def nestedRange : Fields :=
  [("operation", .text "between"), ("start", .int 1), ("end", .int 9), ("joinAs", .text "or"),
    ("nested", .tuple [.map [("property", .text "tag"), ("operation", .text "in"),
      ("values", .list [.text "x"]),
      ("nested", .list [.map [("property", .text "size"), ("operation", .text "exists")]])]])]

/-- The range, a number, a map without an operation, and a row. -/
def mingled : Fields :=
  [("age", .map nestedRange), ("count", .int 0), ("meta", .map [("kind", .text "operation")]),
    ("name", .list [.text "a", .text "b"])]

theorem clause_eq_compile_mingled :
    equalities mingled = [toValue ⟨.text "count", .compare .equal (.int 0), .and⟩,
      toValue ⟨.text "meta", .compare .equal (.map [("kind", .text "operation")]), .and⟩] ∧
    descriptions mingled = [.map (nestedRange ++ [(("property" : Text), .text "age")])] ∧
    memberships mingled = [toValue ⟨.text "name", .oneOf [.text "a", .text "b"], .and⟩] ∧
    ∃ described, parseAll (descriptions mingled) = .ok described ∧
      clause (.map mingled) = some <$>
        (Forest.read (.list (equalities mingled ++ described ++ memberships mingled)) >>= fun f =>
          f.compile .ofFilter) := by
  refine ⟨rfl, rfl, rfl, clause_eq_compile mingled (by simp [mingled]) ?_⟩
  intro e he
  simp only [mingled, List.mem_cons, List.not_mem_nil, or_false] at he
  rcases he with rfl | rfl | rfl | rfl
  · refine ⟨by decide, Result.exists_of_isOk (by decide +kernel), ?_⟩
    intro vs hvs
    cases hvs
  · exact ⟨by decide, trivial⟩
  · exact ⟨by decide, trivial⟩
  · exact ⟨by decide, by simp, by simp⟩

end TableGateway.Filter
