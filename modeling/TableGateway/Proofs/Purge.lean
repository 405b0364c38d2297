import TableGateway.Proofs.FilterEntries

/-!
# Purged filters

A purge keeps the entries that carry an operand, in their order, and takes nothing but missing members
from them; so what is purged stays as it is, and compiles like the map it comes from. It goes through
unless such an entry nests something that has no members.
-/
namespace TableGateway.Filter

open Condition

def operationOf? (d : Fields) : Option Operation :=
  (Value.entry d "operation").text?.bind Operation.ofName?

theorem operationOf?_eq {d : Fields} {op : Operation}
    (hop : Value.entry d "operation" = .text op.name) : operationOf? d = some op := by
  simp [operationOf?, hop, Value.text?]

namespace Entry

/-- Does an entry of a filter map ask for anything? -/
def carriesOperand : Entry → Bool
  | .nothing => false
  | .member vs => vs.any fun v => !v.isNull
  | .described d => (operationOf? d).any fun op => carries op d
  | .equals _ => true

/-- What a purge leaves of an entry that carries an operand. -/
def remains : Entry → Value
  | .nothing => .null
  | .member vs => .list (present vs)
  | .described d => .map (((operationOf? d).map fun op => keptOf op d).getD d)
  | .equals v => v

/-- Has what an entry nests members, if it is not empty? -/
def nestsMembers : Entry → Bool
  | .described d => (nestedOf d).elementsOrNone.isOk
  | _ => true

/-- Has an entry a known operation, and a row where that takes one, if it has a description? -/
def Known : Entry → Prop
  | .described d => ∃ op : Operation, Value.entry d "operation" = .text op.name ∧
    (op.place = .row → ∃ vs, (Value.entry d "values").elementsOrNone = .ok vs)
  | _ => True

theorem carriesOperand_described {d : Fields} {op : Operation}
    (hop : Value.entry d "operation" = .text op.name) :
    (described d).carriesOperand = carries op d := by
  simp [carriesOperand, operationOf?_eq hop]

theorem remains_described {d : Fields} {op : Operation}
    (hop : Value.entry d "operation" = .text op.name) : (described d).remains = .map (keptOf op d) := by
  simp [remains, operationOf?_eq hop]

end Entry

theorem purgeEntry_eq {v : Value} (h : (Entry.ofValue v).Known) :
    purgeEntry v =
      if (Entry.ofValue v).carriesOperand then
        if (Entry.ofValue v).nestsMembers then .ok (some (Entry.ofValue v).remains)
        else .error .wrongType
      else .ok none := by
  rw [purgeEntry]
  cases hv : Entry.ofValue v with
  | nothing | equals w => rfl
  | member vs =>
    have hany : (Entry.member vs).carriesOperand = !(present vs).isEmpty := by
      rw [Entry.carriesOperand, isEmpty_present, Bool.not_not]
    rw [hany]
    cases hempty : (present vs).isEmpty <;> simp [hempty, Entry.nestsMembers, Entry.remains]
  | described d =>
    rw [hv] at h
    obtain ⟨op, hop, hrow⟩ := h
    simp only [Entry.carriesOperand_described hop, Entry.remains_described hop,
      purgeDescription_eq hop hrow, Entry.nestsMembers]
    cases carries op d with
    | false => rfl
    | true => cases (nestedOf d).elementsOrNone.isOk <;> rfl

/-- What remains of an entry is not changed by another purge. -/
theorem purgeEntry_remains {v : Value} (h : (Entry.ofValue v).Known)
    (hcarries : (Entry.ofValue v).carriesOperand = true)
    (hmembers : (Entry.ofValue v).nestsMembers = true) :
    purgeEntry (Entry.ofValue v).remains = .ok (some (Entry.ofValue v).remains) := by
  cases hv : Entry.ofValue v with
  | nothing => simp [hv, Entry.carriesOperand] at hcarries
  | equals w =>
    obtain ⟨rfl, -⟩ := entry_equals hv
    rw [Entry.remains, purgeEntry, hv]
  | member vs =>
    have hentry : Entry.ofValue (.list (present vs)) = .member (present vs) := rfl
    have hnonempty : (present vs).isEmpty = false := by
      rw [isEmpty_present]
      simpa [hv, Entry.carriesOperand] using hcarries
    rw [Entry.remains, purgeEntry, hentry]
    simp [present_present, hnonempty]
  | described d =>
    rw [hv] at h hcarries hmembers
    obtain ⟨op, hop, hrow⟩ := h
    rw [Entry.carriesOperand_described hop] at hcarries
    have hknown : (Entry.ofValue (.map (keptOf op d))).Known := by
      rw [entry_kept]
      refine ⟨op, entry_operation_keptOf op d, fun hplace => ⟨present (rowOf d), ?_⟩⟩
      rw [entry_values_keptOf, if_pos hplace, Value.elementsOrNone_list]
    have hnested : (nestedOf (keptOf op d)).elementsOrNone.isOk = true := by
      rw [nestedOf_keptOf]
      split
      · rw [Value.elementsOrNone_list]
        rfl
      · rfl
    have hoperation := entry_operation_keptOf op d
    rw [Entry.remains_described hop, purgeEntry_eq hknown, entry_kept,
      Entry.carriesOperand_described hoperation, carries_keptOf, hcarries, Entry.nestsMembers, hnested,
      Entry.remains_described hoperation, keptOf_keptOf op hmembers]
    rfl

/-- The entries of a filter map that a purge keeps, each as it leaves them. -/
def kept (es : Fields) : Fields :=
  (es.filter fun e => (Entry.ofValue e.2).carriesOperand).map fun e =>
    (e.1, (Entry.ofValue e.2).remains)

section Purge

variable {es : Fields} (hknown : ∀ e ∈ es, (Entry.ofValue e.2).Known)

include hknown

theorem purgeEntries_eq (hmembers : ∀ e ∈ es, (Entry.ofValue e.2).carriesOperand = true →
    (Entry.ofValue e.2).nestsMembers = true) : purgeEntries es = .ok (kept es) := by
  induction es with
  | nil => rfl
  | cons e es ih =>
    have hrest := ih (fun e he => hknown e (by simp [he])) fun e he => hmembers e (by simp [he])
    rw [purgeEntries, purgeEntry_eq (hknown e (by simp)), hrest]
    by_cases hcarries : (Entry.ofValue e.2).carriesOperand = true
    · rw [if_pos hcarries, if_pos (hmembers e (by simp) hcarries)]
      simp [kept, hcarries]
    · rw [if_neg hcarries]
      simp [kept, hcarries]

/-- What is nested without having members stops a purge. -/
theorem purgeEntries_fault (hstray : ∃ e ∈ es, (Entry.ofValue e.2).carriesOperand = true ∧
    (Entry.ofValue e.2).nestsMembers = false) : purgeEntries es = .error .wrongType := by
  induction es with
  | nil => simp at hstray
  | cons e es ih =>
    rw [purgeEntries, purgeEntry_eq (hknown e (by simp))]
    by_cases hhead : (Entry.ofValue e.2).carriesOperand = true ∧
      (Entry.ofValue e.2).nestsMembers = false
    · simp [hhead]
    · have hrest : purgeEntries es = .error .wrongType := by
        apply ih fun e he => hknown e (by simp [he])
        obtain ⟨d, hd, hstray⟩ := hstray
        rcases List.mem_cons.mp hd with rfl | hd
        · exact absurd hstray hhead
        · exact ⟨d, hd, hstray⟩
      rw [hrest]
      split
      · rename_i hcarries
        have hnests : (Entry.ofValue e.2).nestsMembers = true := by simpa [hcarries] using hhead
        simp [hnests]
      · rfl

/-- Entries that ask for nothing make no difference. -/
theorem purgeEntries_filter :
    purgeEntries (es.filter fun e => (Entry.ofValue e.2).carriesOperand) = purgeEntries es := by
  induction es with
  | nil => rfl
  | cons e es ih =>
    have hrest := ih fun e he => hknown e (by simp [he])
    by_cases hcarries : (Entry.ofValue e.2).carriesOperand = true
    · rw [List.filter_cons, if_pos hcarries, purgeEntries, purgeEntries, hrest]
    · rw [List.filter_cons, if_neg hcarries, hrest, purgeEntries, purgeEntry_eq (hknown e (by simp)),
        if_neg hcarries]
      cases purgeEntries es <;> rfl

/-- What a purge leaves is left by another one. -/
theorem purgeEntries_kept (hmembers : ∀ e ∈ es, (Entry.ofValue e.2).carriesOperand = true →
    (Entry.ofValue e.2).nestsMembers = true) : purgeEntries (kept es) = .ok (kept es) := by
  induction es with
  | nil => rfl
  | cons e es ih =>
    have hrest := ih (fun e he => hknown e (by simp [he])) fun e he => hmembers e (by simp [he])
    by_cases hcarries : (Entry.ofValue e.2).carriesOperand = true
    · have hkept : kept (e :: es) = (e.1, (Entry.ofValue e.2).remains) :: kept es := by
        simp [kept, hcarries]
      have hagain := purgeEntry_remains (hknown e (by simp)) hcarries (hmembers e (by simp) hcarries)
      rw [hkept, purgeEntries, hagain, hrest]
      rfl
    · have hkept : kept (e :: es) = kept es := by simp [kept, hcarries]
      rw [hkept, hrest]

end Purge

theorem clause_congr {a b : Value} (h : purge a = purge b) : clause a = clause b := by
  rw [clause, clause, conditions, conditions, h]

/-- A description that carries an operand has its operands in their places after a purge. -/
theorem filled_keptOf {op : Operation} {d : Fields} (hcarries : carries op d = true) :
    ∃ row operands, givenRow (Value.entry (keptOf op d) "values") = .ok row ∧
      readOperands op row = .ok operands ∧
      Filled op.place (Value.entry (keptOf op d) "value") operands (lowOf (keptOf op d))
        (highOf (keptOf op d)) := by
  rw [entry_values_keptOf, entry_value_keptOf, lowOf_keptOf, highOf_keptOf]
  cases hplace : op.place with
  | nowhere => exact ⟨.null, none, rfl, rfl, rfl, rfl, rfl, rfl⟩
  | row => exact ⟨.tuple (present (rowOf d)), _, rfl, rfl, rfl, by simp, rfl, rfl⟩
  | bounds =>
    simp only [carries, hplace, Bool.and_eq_true, Bool.not_eq_true', Value.isNull_eq_false] at hcarries
    exact ⟨.null, none, rfl, rfl, rfl, rfl, hcarries.1, hcarries.2⟩
  | single =>
    simp only [carries, hplace, Bool.not_eq_true', Value.isNull_eq_false] at hcarries
    exact ⟨.null, none, rfl, rfl, hcarries, rfl, rfl, rfl⟩

/-- Is the join of an entry, if it says one, a join, and is nothing nested in it? -/
def Entry.Unnested : Entry → Prop
  | .described d => ((joinOf d).truthy = false ∨ ∃ j : Join, joinOf d = .text j.name) ∧
    (nestedOf d).truthy = false
  | _ => True

theorem exists_readJoin {v : Value} (h : v.truthy = false ∨ ∃ j : Join, v = .text j.name) :
    ∃ j, readJoin (v.orElse (.text "and")) = .ok j := by
  rcases h with hempty | ⟨j, rfl⟩
  · rw [Value.orElse, hempty]
    exact ⟨.and, rfl⟩
  · exact ⟨j, by cases j <;> rfl⟩

theorem exists_conditionOf {property : Text} (hp : property ≠ "") {v : Value}
    (hknown : (Entry.ofValue v).Known) (hcarries : (Entry.ofValue v).carriesOperand = true)
    (hunnested : (Entry.ofValue v).Unnested) :
    ∃ c, conditionOf property (Entry.ofValue v).remains = .ok c := by
  cases hv : Entry.ofValue v with
  | nothing => simp [hv, Entry.carriesOperand] at hcarries
  | equals w =>
    obtain ⟨rfl, -⟩ := entry_equals hv
    exact ⟨_, conditionOf_equals hp hv⟩
  | member vs => exact ⟨_, conditionOf_list hp (present vs)⟩
  | described d =>
    rw [hv] at hknown hcarries hunnested
    obtain ⟨op, hop, -⟩ := hknown
    obtain ⟨hjoin, hnested⟩ := hunnested
    rw [Entry.carriesOperand_described hop] at hcarries
    obtain ⟨row, operands, hgiven, hoperands, hfilled⟩ := filled_keptOf hcarries
    obtain ⟨head, hhead⟩ :=
      (exists_ofFields_iff hp).mpr ⟨exists_readJoin hjoin, operands, hoperands, hfilled⟩
    rw [Entry.remains_described hop, conditionOf_keptOf,
      parse_description hp (entry_operation_keptOf op d), hgiven, Result.ok_bind, joinOf_keptOf,
      nestedOf_keptOf, hnested, readParts, hhead]
    exact ⟨_, rfl⟩

theorem exists_sortEntries {es : Fields} (h : ∀ e ∈ es, ∃ c, conditionOf e.1 e.2 = .ok c) :
    ∃ s, sortEntries es = .ok s := by
  induction es with
  | nil => exact ⟨_, rfl⟩
  | cons e es ih =>
    obtain ⟨c, hc⟩ := h e (by simp)
    obtain ⟨s, hs⟩ := ih fun e he => h e (by simp [he])
    exact ⟨s.add e.2 c, by rw [sortEntries, hc, Result.ok_bind, hs]; rfl⟩

/-- A purge keeps the entries that carry an operand and is done once: what it leaves is compiled like
the whole map, and so is the map without the other entries. It goes through unless such an entry nests
something without members; and without nesting all filters can be read as conditions. -/
theorem purge_keeps_operands (es : Fields) (hknown : ∀ e ∈ es, (Entry.ofValue e.2).Known) :
    ((∀ e ∈ es, (Entry.ofValue e.2).carriesOperand = true →
        (Entry.ofValue e.2).nestsMembers = true) →
      purge (.map es) = .ok (kept es) ∧ purge (.map (kept es)) = .ok (kept es) ∧
        clause (.map (kept es)) = clause (.map es)) ∧
    ((∃ e ∈ es, (Entry.ofValue e.2).carriesOperand = true ∧
        (Entry.ofValue e.2).nestsMembers = false) → purge (.map es) = .error .wrongType) ∧
    clause (.map (es.filter fun e => (Entry.ofValue e.2).carriesOperand)) = clause (.map es) ∧
    ((∀ e ∈ es, e.1 ≠ "" ∧ (Entry.ofValue e.2).Unnested) → ∃ cs, conditions (.map es) = .ok cs) := by
  refine ⟨?_, ?_, ?_, ?_⟩
  · intro hmembers
    have hpurge := purgeEntries_eq hknown hmembers
    have hagain := purgeEntries_kept hknown hmembers
    rw [← purge_map] at hpurge hagain
    exact ⟨hpurge, hagain, clause_congr (hagain.trans hpurge.symm)⟩
  · intro hstray
    rw [purge_map]
    exact purgeEntries_fault hknown hstray
  · apply clause_congr
    rw [purge_map, purge_map]
    exact purgeEntries_filter hknown
  · intro hunnested
    have hmembers : ∀ e ∈ es, (Entry.ofValue e.2).carriesOperand = true →
        (Entry.ofValue e.2).nestsMembers = true := by
      intro e he _
      have he := (hunnested e he).2
      cases hv : Entry.ofValue e.2 with
      | described d =>
        rw [hv] at he
        rw [Entry.nestsMembers, Value.elementsOrNone, he.2]
        rfl
      | _ => rfl
    have hconditions : ∀ e ∈ kept es, ∃ c, conditionOf e.1 e.2 = .ok c := by
      intro e he
      obtain ⟨d, hd, rfl⟩ := List.mem_map.mp he
      obtain ⟨hd, hcarries⟩ := List.mem_filter.mp hd
      exact exists_conditionOf (hunnested d hd).1 (hknown d hd) hcarries (hunnested d hd).2
    obtain ⟨s, hs⟩ := exists_sortEntries hconditions
    refine ⟨s.all, ?_⟩
    rw [conditions, purge_map, purgeEntries_eq hknown hmembers, Result.ok_bind, hs]
    rfl

/-- Filters some of which have no operand. -/
def strewn : Fields :=
  [("a", .null), ("b", .int 0), ("c", .list [.null, .text "x", .null]), ("d", .tuple [.null]),
    ("e", .map [("operation", .text "between"), ("start", .int 1)]),
    ("f", .map [("operation", .text "not_in"), ("values", .tuple [.null, .int 2]),
      ("joinAs", .text "or")]),
    ("g", .map [("operation", .text "exists"), ("value", .int 3)])]

/-- An entry that nests a number. -/
def nestingNumber : Fields := [("p", .map [("operation", .text "exists"), ("nested", .int 5)])]

theorem known_nestingNumber : ∀ e ∈ nestingNumber, (Entry.ofValue e.2).Known := by
  intro e he
  obtain rfl := List.mem_singleton.mp he
  exact ⟨.exists, rfl, by simp [Operation.place]⟩

theorem purge_keeps_operands_strewn :
    (kept strewn = ([("b", .int 0), ("c", .list [.text "x"]),
        ("f", .map [("operation", .text "not_in"), ("values", .list [.int 2]),
          ("join_as", .text "or")]), ("g", .map [("operation", .text "exists")])] : Fields) ∧
      purge (.map strewn) = .ok (kept strewn) ∧ purge (.map (kept strewn)) = .ok (kept strewn) ∧
      clause (.map (kept strewn)) = clause (.map strewn) ∧
      clause (.map (strewn.filter fun e => (Entry.ofValue e.2).carriesOperand)) =
        clause (.map strewn) ∧
      ∃ cs, conditions (.map strewn) = .ok cs) ∧
    purge (.map nestingNumber) = .error .wrongType := by
  have hknown : ∀ e ∈ strewn, (Entry.ofValue e.2).Known := by
    intro e he
    simp only [strewn, List.mem_cons, List.not_mem_nil, or_false] at he
    rcases he with rfl | rfl | rfl | rfl | rfl | rfl | rfl
    · trivial
    · trivial
    · trivial
    · trivial
    · exact ⟨.between, rfl, by simp [Operation.place]⟩
    · exact ⟨.noneOf, rfl, fun _ => ⟨_, rfl⟩⟩
    · exact ⟨.exists, rfl, by simp [Operation.place]⟩
  have hmembers : ∀ e ∈ strewn, (Entry.ofValue e.2).carriesOperand = true →
      (Entry.ofValue e.2).nestsMembers = true := by
    intro e he _
    simp only [strewn, List.mem_cons, List.not_mem_nil, or_false] at he
    rcases he with rfl | rfl | rfl | rfl | rfl | rfl | rfl <;> rfl
  have hunnested : ∀ e ∈ strewn, e.1 ≠ "" ∧ (Entry.ofValue e.2).Unnested := by
    intro e he
    simp only [strewn, List.mem_cons, List.not_mem_nil, or_false] at he
    rcases he with rfl | rfl | rfl | rfl | rfl | rfl | rfl
    · exact ⟨by decide, trivial⟩
    · exact ⟨by decide, trivial⟩
    · exact ⟨by decide, trivial⟩
    · exact ⟨by decide, trivial⟩
    · exact ⟨by decide, .inl rfl, rfl⟩
    · exact ⟨by decide, .inr ⟨.or, rfl⟩, rfl⟩
    · exact ⟨by decide, .inl rfl, rfl⟩
  obtain ⟨hkept, -, hfilter, hconditions⟩ := purge_keeps_operands strewn hknown
  obtain ⟨-, hfault, -, -⟩ := purge_keeps_operands nestingNumber known_nestingNumber
  obtain ⟨hpurge, hagain, hclause⟩ := hkept hmembers
  exact ⟨⟨rfl, hpurge, hagain, hclause, hfilter, hconditions hunnested⟩,
    hfault ⟨_, List.mem_singleton.mpr rfl, rfl, rfl⟩⟩

/-- A map with known operations need not get through a purge. -/
theorem not_purge_keeps_operands :
    ¬ ∀ es : Fields, (∀ e ∈ es, (Entry.ofValue e.2).Known) → purge (.map es) = .ok (kept es) := by
  intro h
  have hpurge := h nestingNumber known_nestingNumber
  have hfault : purge (.map nestingNumber) = .error .wrongType := rfl
  rw [hfault] at hpurge
  cases hpurge

end TableGateway.Filter
