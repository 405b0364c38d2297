import TableGateway.Proofs.RequestFields
import TableGateway.Proofs.UpdateTokens
import TableGateway.Request.Transaction
import TableGateway.Session.BatchGet

/-!
# Requests complete in their tokens

A request is complete when the tokens in its expressions are just the keys of its two maps. Each of
its clauses is complete on its own, and the maps of a request are those of its clauses together, so
that no clause can be left without a token and none can leave a token over.
-/
namespace TableGateway

open Entries Grammar

namespace Request

/-- The tokens in a field; none where it is no text. -/
def textTokens (m : Letter) : Option Value → List Text
  | some (.text s) => tokensOf m s.toList
  | _ => []

/-- The tokens in all expressions of a request together. -/
def tokensIn (m : Letter) (req : Fields) : List Text :=
  expressionFields.flatMap fun field => textTokens m (get? req field)

/-- The keys of a field that is a map; none where it is missing. -/
def keysIn (req : Fields) (field : Text) : List Text :=
  match get? req field with
  | some (.map es) => keys es
  | _ => []

/-- Does a request define just the tokens that its expressions use? -/
structure Complete (req : Fields) : Prop where
  texts : ∀ field ∈ expressionFields, ∀ v, get? req field = some v → ∃ s, v = .text s
  names : ∀ token, token ∈ tokensIn '#' req ↔ token ∈ keysIn req "ExpressionAttributeNames"
  values : ∀ token, token ∈ tokensIn ':' req ↔ token ∈ keysIn req "ExpressionAttributeValues"
  present : (∃ v, get? req "ExpressionAttributeValues" = some v) ↔ ∃ token, token ∈ tokensIn ':' req

end Request

/-- Are the tokens of a clause just the keys of its two maps? -/
structure Clause.Complete (c : Clause) : Prop where
  names : ∀ token, token ∈ tokensOf '#' c.expression.toList ↔ token ∈ keys c.names
  values : ∀ token, token ∈ tokensOf ':' c.expression.toList ↔ token ∈ keys c.values

namespace Request

/-- A request of clauses: each expression is that of a clause, the maps are those of all of them, and
operands are there if some clause has one. -/
structure Holds (req : Fields) (parts : Entries Clause) : Prop where
  fields : (keys parts).Sublist expressionFields
  texts : ∀ field ∈ expressionFields,
    get? req field = (get? parts field).map fun c => .text c.expression
  names : ∀ token, token ∈ keysIn req "ExpressionAttributeNames" ↔
    ∃ p ∈ parts, token ∈ keys p.2.names
  values : ∀ token, token ∈ keysIn req "ExpressionAttributeValues" ↔
    ∃ p ∈ parts, token ∈ keys p.2.values
  present : (∃ v, get? req "ExpressionAttributeValues" = some v) ↔ ∃ p ∈ parts, p.2.values ≠ []

theorem Holds.mem_tokensIn {req : Fields} {parts : Entries Clause} (h : Holds req parts) (m : Letter)
    (token : Text) :
    token ∈ tokensIn m req ↔ ∃ p ∈ parts, token ∈ tokensOf m p.2.expression.toList := by
  have hdistinct : (keys parts).Nodup := h.fields.nodup (by decide)
  simp only [tokensIn, List.mem_flatMap]
  constructor
  · rintro ⟨field, hfield, htoken⟩
    rw [h.texts field hfield] at htoken
    cases hc : get? parts field with
    | none => simp [hc, textTokens] at htoken
    | some c => exact ⟨(field, c), mem_of_get? hc, by simpa [hc, textTokens] using htoken⟩
  · rintro ⟨p, hp, htoken⟩
    have hfield : p.1 ∈ expressionFields := h.fields.subset (List.mem_map_of_mem hp)
    refine ⟨p.1, hfield, ?_⟩
    rw [h.texts p.1 hfield, get?_of_mem hdistinct hp]
    simpa [textTokens] using htoken

/-- What clauses a request has is in the fields that clauses fill in. -/
theorem Holds.congr {req req' : Fields} {parts : Entries Clause} (h : Holds req parts)
    (heq : ∀ f ∈ clauseFieldNames, get? req' f = get? req f) : Holds req' parts where
  fields := h.fields
  texts f hf := (heq f (List.mem_append_left _ hf)).trans (h.texts f hf)
  names token := by rw [keysIn, heq _ (by decide), ← h.names, keysIn]
  values token := by rw [keysIn, heq _ (by decide), ← h.values, keysIn]
  present := by rw [heq _ (by decide), h.present]

/-- A request of complete clauses is complete. -/
theorem Holds.complete {req : Fields} {parts : Entries Clause} (h : Holds req parts)
    (hparts : ∀ p ∈ parts, p.2.Complete) : Complete req where
  texts field hfield v hv := by
    rw [h.texts field hfield] at hv
    obtain ⟨c, -, rfl⟩ := Option.map_eq_some_iff.mp hv
    exact ⟨c.expression, rfl⟩
  names token := by
    rw [h.mem_tokensIn, h.names]
    exact exists_congr fun p => and_congr_right fun hp => (hparts p hp).names token
  values token := by
    rw [h.mem_tokensIn, h.values]
    exact exists_congr fun p => and_congr_right fun hp => (hparts p hp).values token
  present := by
    rw [h.present]
    constructor
    · rintro ⟨p, hp, hne⟩
      obtain ⟨b, bs, hb⟩ := List.exists_cons_of_ne_nil hne
      refine ⟨b.1, (h.mem_tokensIn ':' b.1).mpr ⟨p, hp, ?_⟩⟩
      rw [(hparts p hp).values, hb]
      simp [keys]
    · rintro ⟨token, htoken⟩
      obtain ⟨p, hp, htoken⟩ := (h.mem_tokensIn ':' token).mp htoken
      refine ⟨p, hp, fun hnil => ?_⟩
      rw [(hparts p hp).values, hnil] at htoken
      simp [keys] at htoken

end Request

open TableGateway.Tree

section Clauses

theorem plain_withStem {stem property : Text} (hs : Plain stem) (h : Plain property) :
    Plain ((Encoder.withStem stem).token property) :=
  plain_append hs h

theorem Forest.complete_of_compile {e : Encoder} {f : Forest} {c : Clause}
    (h : f.compile e = .ok c) (hplain : f.PlainTokens e) : c.Complete := by
  obtain ⟨-, htext, hnames, hvalues⟩ := compile_inv h
  refine ⟨fun token => ?_, fun token => ?_⟩
  · rw [htext, name_tokens hplain, Placeholder.mem_keys_bindAll hnames]
    simp [keys]
  · rw [htext, value_tokens hplain, Placeholder.mem_keys_bindAll hvalues]
    simp [keys]

theorem Placeholder.hasDisplay_of_bindNames {e : Encoder} {target m : Fields} {names : List Value}
    (h : bindNames e target names = .ok m) : names.all Value.hasDisplay := by
  induction names generalizing target with
  | nil => rfl
  | cons n names ih =>
    obtain ⟨next, hn, h⟩ := Result.bind_eq_ok.mp h
    obtain ⟨shown, hshown, -⟩ := Result.bind_eq_ok.mp hn
    have hdisplay : n.hasDisplay := by
      rw [Value.shown] at hshown
      split at hshown
      · assumption
      · cases hshown
    simp [hdisplay, ih h]

theorem Projection.complete_of_clause {properties : List Value} {c : Clause}
    (h : Projection.clause properties = .ok c) (hplain : ∀ v ∈ properties, Plain v.display) :
    c.Complete := by
  obtain ⟨names, hnames, h⟩ := Result.bind_eq_ok.mp h
  obtain rfl := Except.ok.inj h
  have hstem : Plain "__projection_" := by simp [Plain, isMark]
  have htoken : ∀ v ∈ properties, Plain (Encoder.ofProjection.token v.display) :=
    fun v hv => plain_withStem hstem (hplain v hv)
  have htokens {m : Letter} (hm : m ∉ (", " : Text).toList) :
      tokensOf m (Projection.text properties).toList =
        properties.flatMap fun v => tokensOf m (Encoder.ofProjection.name v.display).toList := by
    rw [Projection.text, tokensOf_row (by simp [Marked, isMark]) (by simp) hm, List.flatMap_map]
  refine ⟨fun token => ?_, fun token => ?_⟩
  · rw [Placeholder.bindNames_eq _ _ (Placeholder.hasDisplay_of_bindNames hnames)] at hnames
    rw [htokens (by simp), Placeholder.mem_keys_bindAll hnames,
      List.flatMap_congr fun v hv => Encoder.name_tokens (htoken v hv)]
    simp [keys, eq_comm]
  · rw [htokens (by simp), List.flatMap_congr fun v hv => Encoder.name_no_values (htoken v hv)]
    simp [keys]

end Clauses

/-- Have all conditions plain names? -/
def PlainConditions (conditions : Value) : Prop :=
  ∀ f, Forest.read conditions = .ok f → ∀ l ∈ leavesAll f.trees, Plain l.property.display

/-- Have all conditions of a filter map plain names? -/
def PlainFilters (filters : Value) : Prop :=
  ∀ cs, Filter.conditions filters = .ok cs →
    ∀ l ∈ leavesAll (Forest.ofRecords cs).trees, Plain l.property.display

/-- Are all names of a row plain? -/
def PlainRow (properties : Value) : Prop :=
  ∀ vs, properties.elements = .ok vs → ∀ v ∈ vs, Plain v.display

theorem complete_conditionClause {conditions : Value} (hplain : PlainConditions conditions)
    {c : Option Clause} (h : conditionClause conditions = .ok c) : ∀ k ∈ c, k.Complete := by
  rw [conditionClause] at h
  split at h
  · obtain ⟨f, hf, h⟩ := Result.bind_eq_ok.mp h
    obtain ⟨k, hk, rfl⟩ := Result.map_eq_ok.mp h
    have hstem : Plain "__condition_" := by simp [Plain, isMark]
    have htokens : f.PlainTokens .ofCondition := fun l hl => plain_withStem hstem (hplain f hf l hl)
    simpa using Forest.complete_of_compile hk htokens
  · obtain rfl := Except.ok.inj h
    simp

theorem complete_filterClause {filters : Value} (hplain : PlainFilters filters)
    {c : Option Clause} (h : Filter.clause filters = .ok c) : ∀ k ∈ c, k.Complete := by
  obtain ⟨cs, hcs, h⟩ := Result.bind_eq_ok.mp h
  split at h
  · obtain rfl := Except.ok.inj h
    simp
  · obtain ⟨k, hk, rfl⟩ := Result.map_eq_ok.mp h
    have hstem : Plain "__filter_" := by simp [Plain, isMark]
    have htokens : (Forest.ofRecords cs).PlainTokens .ofFilter :=
      fun l hl => plain_withStem hstem (hplain cs hcs l hl)
    simpa using Forest.complete_of_compile hk htokens

theorem complete_projection {properties : Value} (hplain : PlainRow properties)
    {c : Option Clause} (h : Projection.read properties = .ok c) : ∀ k ∈ c, k.Complete := by
  rw [Projection.read] at h
  split at h
  · obtain ⟨vs, hvs, h⟩ := Result.bind_eq_ok.mp h
    obtain ⟨k, hk, rfl⟩ := Result.map_eq_ok.mp h
    simpa using Projection.complete_of_clause hk (hplain vs hvs)
  · obtain rfl := Except.ok.inj h
    simp

namespace Request

/-- The one clause that a request may have. -/
def partOf (field : Text) (c : Option Clause) : Entries Clause := c.toList.map (field, ·)

end Request

section Fields

variable {name field : Text}

theorem get?_expressionField_partOf (c : Option Clause) :
    get? (expressionField name c) field =
      (get? (Request.partOf name c) field).map fun c => .text c.expression := by
  cases c <;> simp [expressionField, Request.partOf]

theorem get?_fields (c : Clause) (field f : Text) :
    get? (c.fields field) f =
      if field = f then some (.text c.expression)
      else if "ExpressionAttributeNames" = f then some (.map c.names)
      else get? (Bindings.valueFields ⟨c.names, c.values⟩) f := by
  rw [← get?_cons, ← get?_cons]
  rfl

end Fields

namespace Request

/-- A request that has fields for at most one clause. -/
theorem holds_clauseFields {base : Fields} {field : Text} (hfield : field ∈ expressionFields)
    (hbase : Bare base) (c : Option Clause) :
    Holds (base ++ clauseFields c field) (partOf field c) := by
  obtain ⟨hnames, hvalues⟩ := ne_of_mem_expressionFields hfield
  have hbaseNames := hbase "ExpressionAttributeNames" (by decide)
  have hbaseValues := hbase "ExpressionAttributeValues" (by decide)
  cases c with
  | none =>
    refine ⟨by simp [partOf, keys], fun f hf => ?_, ?_, ?_, ?_⟩
    · simp [clauseFields, partOf, hbase f (List.mem_append_left _ hf)]
    all_goals simp [clauseFields, partOf, keysIn, hbaseNames, hbaseValues]
  | some c =>
    have hget : ∀ f ∈ clauseFieldNames, get? (base ++ clauseFields (some c) field) f =
        get? (c.fields field) f := by
      intro f hf
      rw [get?_append, hbase f hf, Option.none_or, clauseFields]
    have hgetValues : get? (base ++ clauseFields (some c) field) "ExpressionAttributeValues" =
        get? (Bindings.valueFields ⟨c.names, c.values⟩) "ExpressionAttributeValues" := by
      rw [hget _ (by decide), get?_fields, if_neg hvalues, if_neg (by decide)]
    refine ⟨?_, fun f hf => ?_, ?_, ?_, ?_⟩
    · simpa [partOf, keys] using hfield
    · obtain ⟨hf1, hf2⟩ := ne_of_mem_expressionFields hf
      rw [hget f (List.mem_append_left _ hf), get?_fields, if_neg hf1.symm, get?_valueFields_of_ne hf2,
        ← get?_expressionField_partOf, get?_expressionField]
      rfl
    · rw [keysIn, hget _ (by decide), get?_fields, if_neg hnames, if_pos rfl]
      simp [partOf]
    · rw [keysIn, hgetValues, get?_valueFields]
      cases hempty : c.values with
      | nil => simp [partOf, hempty, keys]
      | cons b bs => simp [partOf, hempty]
    · rw [hgetValues, get?_valueFields]
      cases hempty : c.values <;> simp [partOf, hempty]

theorem keys_merge {first second m : Fields} (h : Placeholder.merge [first, second] = .ok m)
    (token : Text) : token ∈ keys m ↔ token ∈ keys first ∨ token ∈ keys second := by
  rw [Placeholder.mem_keys_bindAll h]
  simp [keys]

theorem keys_add {b b' : Bindings} {c : Option Clause} (h : b.add c = .ok b') (token : Text) :
    (token ∈ keys b'.names ↔ token ∈ keys b.names ∨ ∃ k ∈ c, token ∈ keys k.names) ∧
      (token ∈ keys b'.values ↔ token ∈ keys b.values ∨ ∃ k ∈ c, token ∈ keys k.values) := by
  cases c with
  | none =>
    obtain rfl := Except.ok.inj h
    simp
  | some c =>
    obtain ⟨names, hnames, h⟩ := Result.bind_eq_ok.mp h
    obtain ⟨values, hvalues, h⟩ := Result.bind_eq_ok.mp h
    obtain rfl := Except.ok.inj h
    simp [keys_merge hnames, keys_merge hvalues]

theorem ne_nil_iff {es : Fields} : es ≠ [] ↔ ∃ token, token ∈ keys es := by
  cases es with
  | nil => simp [keys]
  | cons e es => simp [keys]

/-- Have the maps for a request just the keys of those of its clauses? -/
def Merges (b : Bindings) (parts : Entries Clause) : Prop :=
  ∀ token, (token ∈ keys b.names ↔ ∃ p ∈ parts, token ∈ keys p.2.names) ∧
    (token ∈ keys b.values ↔ ∃ p ∈ parts, token ∈ keys p.2.values)

/-- A request whose two maps are merged from those of its clauses. -/
theorem holds_of_merges {req : Fields} {parts : Entries Clause} {b : Bindings}
    (hfields : (keys parts).Sublist expressionFields)
    (htexts : ∀ field ∈ expressionFields,
      get? req field = (get? parts field).map fun c => .text c.expression)
    (hnames : keysIn req "ExpressionAttributeNames" = keys b.names)
    (hvalues : keysIn req "ExpressionAttributeValues" = keys b.values)
    (hpresent : (∃ v, get? req "ExpressionAttributeValues" = some v) ↔ b.values ≠ [])
    (hmerges : Merges b parts) : Holds req parts where
  fields := hfields
  texts := htexts
  names token := by rw [hnames, (hmerges token).1]
  values token := by rw [hvalues, (hmerges token).2]
  present := by
    rw [hpresent, ne_nil_iff]
    simp_rw [ne_nil_iff, (hmerges _).2]
    constructor
    · rintro ⟨token, p, hp, htoken⟩
      exact ⟨p, hp, token, htoken⟩
    · rintro ⟨p, hp, token, htoken⟩
      exact ⟨token, p, hp, htoken⟩

end Request

namespace QueryParams

/-- The condition on the partition key has an operand. -/
theorem key_values {p : QueryParams} {ts : List Tree} {key : Clause}
    (hts : p.keyConditions = .ok ts) (hkey : Tree.compile .plain ts = .ok key) : key.values ≠ [] := by
  obtain ⟨partition, more, ⟨v, hv⟩, hleaves, -⟩ := leaves_keyConditions hts
  have hleaf : partition ∈ leavesAll ts := by rw [hleaves]; exact List.mem_cons_self
  obtain ⟨-, -, -, hvalues⟩ := Forest.compile_inv (Forest.compile_trees hkey)
  have hbinding : (Encoder.plain.value partition.property.display, v) ∈ valueBindings .plain ts := by
    refine List.mem_flatMap.mpr ⟨partition, hleaf, ?_⟩
    simp [Condition.valueBindings, hv]
  refine Request.ne_nil_iff.mpr ⟨Encoder.plain.value partition.property.display, ?_⟩
  exact (Placeholder.mem_keys_bindAll hvalues _).mpr (.inr (List.mem_map_of_mem hbinding))

theorem holds_request {p : QueryParams} {req : Fields} (h : p.request = .ok req) :
    ∃ ts key filter, p.keyConditions = .ok ts ∧ Tree.compile .plain ts = .ok key ∧
      Filter.clause p.filters = .ok filter ∧
      Request.Holds req
        (("KeyConditionExpression", key) :: Request.partOf "FilterExpression" filter) := by
  obtain ⟨ts, hts, h⟩ := Result.bind_eq_ok.mp h
  obtain ⟨key, hkey, h⟩ := Result.bind_eq_ok.mp h
  obtain ⟨filter, hfilter, h⟩ := Result.bind_eq_ok.mp h
  obtain ⟨bindings, hbindings, h⟩ := Result.bind_eq_ok.mp h
  obtain ⟨start, hstart, h⟩ := Result.bind_eq_ok.mp h
  have hmerges : Request.Merges bindings
      (("KeyConditionExpression", key) :: Request.partOf "FilterExpression" filter) := by
    intro token
    rw [(Request.keys_add hbindings token).1, (Request.keys_add hbindings token).2]
    simp [Request.partOf, Bindings.ofClause]
  have hne : bindings.values ≠ [] := by
    obtain ⟨token, htoken⟩ := Request.ne_nil_iff.mp (key_values hts hkey)
    exact Request.ne_nil_iff.mpr ⟨token, (hmerges token).2.mpr ⟨_, List.mem_cons_self, htoken⟩⟩
  have hreq : p.fieldsOf key bindings filter ++ start = req := Except.ok.inj h
  have hget : ∀ f ∈ clauseFieldNames, get? req f =
      (((get? [("KeyConditionExpression", .text key.expression)] f).or
        (get? bindings.nameFields f)).or (get? [("ExpressionAttributeValues", .map bindings.values)] f)).or
          (get? (expressionField "FilterExpression" filter) f) := fun f hf => by
    rw [← hreq, get?_clauseField p key bindings filter hstart hf]
  refine ⟨ts, key, filter, hts, hkey, hfilter,
    Request.holds_of_merges ?_ (fun f hf => ?_) ?_ ?_ ?_ hmerges⟩
  · cases filter with
    | none => simp [Request.partOf, keys, expressionFields]
    | some c =>
      show (["KeyConditionExpression", "FilterExpression"] : List Text).Sublist expressionFields
      decide
  · obtain ⟨hnames, hvalues⟩ := Request.ne_of_mem_expressionFields hf
    rw [hget f (List.mem_append_left _ hf), get?_nameFields_of_ne hnames, get?_cons, get?_cons,
      get?_cons, if_neg hvalues.symm, get?_expressionField_partOf]
    split <;> simp
  · rw [Request.keysIn, hget _ (by decide), get?_nameFields, get?_expressionField]
    cases bindings.names <;> simp [keys]
  · rw [Request.keysIn, hget _ (by decide), get?_nameFields, get?_expressionField]
    simp
  · rw [hget _ (by decide), get?_nameFields, get?_expressionField]
    simp [hne]

end QueryParams

namespace ListOptions

theorem holds_request {table : Value} {o : ListOptions} {req : Fields}
    (h : o.request table = .ok req) :
    ∃ filter projection, Filter.clause o.filters = .ok filter ∧
      Projection.read o.properties = .ok projection ∧
      Request.Holds req (Request.partOf "FilterExpression" filter
        ++ Request.partOf "ProjectionExpression" projection) := by
  obtain ⟨filter, hfilter, h⟩ := Result.bind_eq_ok.mp h
  obtain ⟨filtered, hfiltered, h⟩ := Result.bind_eq_ok.mp h
  obtain ⟨projection, hprojection, h⟩ := Result.bind_eq_ok.mp h
  obtain ⟨bindings, hbindings, h⟩ := Result.bind_eq_ok.mp h
  obtain ⟨start, hstart, h⟩ := Result.bind_eq_ok.mp h
  have hreq : o.fieldsOf table bindings filter projection ++ start = req := Except.ok.inj h
  have hmerges : Request.Merges bindings (Request.partOf "FilterExpression" filter
      ++ Request.partOf "ProjectionExpression" projection) := by
    intro token
    rw [(Request.keys_add hbindings token).1, (Request.keys_add hbindings token).2,
      (Request.keys_add hfiltered token).1, (Request.keys_add hfiltered token).2]
    simp [Request.partOf, Bindings.empty, keys, or_and_right, exists_or]
  have hget : ∀ f ∈ clauseFieldNames, get? req f =
      (((get? bindings.nameFields f).or (get? bindings.valueFields f)).or
        (get? (expressionField "FilterExpression" filter) f)).or
          (get? (expressionField "ProjectionExpression" projection) f) := fun f hf => by
    rw [← hreq, get?_clauseField table o bindings filter projection hstart hf]
  have hgetNames : get? req "ExpressionAttributeNames" =
      get? bindings.nameFields "ExpressionAttributeNames" := by
    rw [hget _ (by decide)]
    simp [get?_valueFields, get?_expressionField]
  have hgetValues : get? req "ExpressionAttributeValues" =
      get? bindings.valueFields "ExpressionAttributeValues" := by
    rw [hget _ (by decide)]
    simp [get?_nameFields, get?_expressionField]
  refine ⟨filter, projection, hfilter, hprojection,
    Request.holds_of_merges ?_ (fun f hf => ?_) ?_ ?_ ?_ hmerges⟩
  · have hparts : (["FilterExpression", "ProjectionExpression"] : List Text).Sublist
        expressionFields := by decide
    refine List.Sublist.trans ?_ hparts
    cases filter <;> cases projection <;> simp [Request.partOf, keys]
  · obtain ⟨hnames, hvalues⟩ := Request.ne_of_mem_expressionFields hf
    rw [hget f (List.mem_append_left _ hf), get?_nameFields_of_ne hnames,
      get?_valueFields_of_ne hvalues, Option.none_or, Option.none_or, get?_append, Option.map_or,
      get?_expressionField_partOf, get?_expressionField_partOf]
  · rw [Request.keysIn, hgetNames, get?_nameFields]
    cases bindings.names <;> simp [keys]
  · rw [Request.keysIn, hgetValues, get?_valueFields]
    cases bindings.values <;> simp [keys]
  · rw [hgetValues, get?_valueFields]
    cases bindings.values <;> simp

end ListOptions

namespace UpdateParams

/-- The expression of an update with the maps that go with it, before those of its conditions. -/
theorem update_clause {create : SetMaker} {p : UpdateParams} (hp : p.PlainNames)
    {updateNames updateValues : Fields} {text : Text} (hvalidate : p.validate = .ok ())
    (hnames : Update.names p.values p.remove p.atomic = .ok updateNames)
    (hvalues : Update.valuesWith create p.values p.atomic = .ok updateValues)
    (htext : Update.expression p.values p.remove p.atomic = .ok text) :
    (Clause.mk text updateNames updateValues).Complete := by
  obtain ⟨touched, htouched⟩ := Update.touched_of_validate hvalidate
  obtain ⟨parts, hoperands⟩ := exists_parts hp htouched hvalues
  obtain rfl := Update.expression_ok parts.assigned parts.taken parts.operated parts.display htext
  rw [Update.names_eq parts.assigned parts.taken parts.operated parts.display] at hnames
  have hops : ∀ o ∈ parts.given.map Prod.fst, o.PlainNames := by
    intro o ho
    obtain ⟨g, hg, rfl⟩ := List.mem_map.mp ho
    exact parts.plainGiven g hg
  refine ⟨fun token => ?_, fun token => ?_⟩
  · rw [Update.mem_name_tokens parts.plainSets hops parts.plainRemoved,
      Placeholder.mem_keys_bindAll hnames]
    simp [keys]
  · rw [Update.mem_value_tokens parts.plainSets hops parts.plainRemoved,
      Placeholder.mem_keys_bindAll hoperands, parts.keys_operands]
    simp [keys, AtomicOperation.value, Value.display, Encoder.value]

theorem holds_request {create : SetMaker} {p : UpdateParams} (hp : p.PlainNames) {req : Fields}
    (h : p.requestWith create = .ok req) :
    ∃ condition update, conditionClause p.conditions = .ok condition ∧ update.Complete ∧
      Request.Holds req (Request.partOf "ConditionExpression" condition
        ++ ([("UpdateExpression", update)] : Entries Clause)) := by
  rw [requestWith] at h
  obtain ⟨_, hvalidate, h⟩ := Result.bind_eq_ok.mp h
  obtain ⟨condition, hcondition, h⟩ := Result.bind_eq_ok.mp h
  obtain ⟨updateNames, hnames, h⟩ := Result.bind_eq_ok.mp h
  obtain ⟨names, hmergeNames, h⟩ := Result.bind_eq_ok.mp h
  obtain ⟨updateValues, hvalues, h⟩ := Result.bind_eq_ok.mp h
  obtain ⟨values, hmergeValues, h⟩ := Result.bind_eq_ok.mp h
  obtain ⟨key, -, h⟩ := Result.bind_eq_ok.mp h
  obtain ⟨text, htext, h⟩ := Result.bind_eq_ok.mp h
  have hreq : ([("TableName", p.table), ("Key", .map key)] : Fields)
      ++ ([("UpdateExpression", .text text), ("ExpressionAttributeNames", .map names)] : Fields)
        ++ Bindings.valueFields ⟨names, values⟩
        ++ expressionField "ConditionExpression" condition
        ++ (if p.returnUpdated.truthy then ([("ReturnValues", .text "UPDATED_NEW")] : Fields)
          else []) = req :=
    Except.ok.inj h
  have hget : ∀ f ∈ clauseFieldNames, get? req f =
      if "UpdateExpression" = f then some (.text text)
      else if "ExpressionAttributeNames" = f then some (.map names)
      else (get? (Bindings.valueFields ⟨names, values⟩) f).or
        (get? (expressionField "ConditionExpression" condition) f) := by
    intro f hf
    have hkey : Request.Bare [("TableName", p.table), ("Key", .map key)] :=
      .cons (by decide) (Request.bare_one (by decide))
    have hreturn : Request.Bare
        (if p.returnUpdated.truthy then [("ReturnValues", .text "UPDATED_NEW")] else []) :=
      .ite (Request.bare_one (by decide)) Request.bare_nil
    rw [← hreq, get?_append, get?_append, get?_append, get?_append, hkey f hf, hreturn f hf,
      Option.none_or, Option.or_none, get?_cons, get?_cons, get?_nil]
    split
    · rfl
    · split <;> simp
  refine ⟨condition, ⟨text, updateNames, updateValues⟩, hcondition,
    update_clause hp hvalidate hnames hvalues htext, ?_⟩
  have hgetNames : get? req "ExpressionAttributeNames" = some (.map names) := by
    rw [hget _ (by decide)]
    simp
  have hgetValues : get? req "ExpressionAttributeValues" =
      get? (Bindings.valueFields ⟨names, values⟩) "ExpressionAttributeValues" := by
    rw [hget _ (by decide)]
    simp [get?_expressionField]
  have hmerges : Request.Merges ⟨names, values⟩ (Request.partOf "ConditionExpression" condition
      ++ ([("UpdateExpression", ⟨text, updateNames, updateValues⟩)] : Entries Clause)) := by
    intro token
    rw [Placeholder.mem_keys_bindAll hmergeNames, Placeholder.mem_keys_bindAll hmergeValues]
    cases condition <;> simp [Request.partOf, keys, or_comm]
  refine Request.holds_of_merges ?_ (fun f hf => ?_) ?_ ?_ ?_ hmerges
  · cases condition <;> simp [Request.partOf, keys, expressionFields]
  · obtain ⟨hnames, hvalues⟩ := Request.ne_of_mem_expressionFields hf
    rw [hget f (List.mem_append_left _ hf), get?_append, Option.map_or,
      ← get?_expressionField_partOf]
    by_cases hupdate : "UpdateExpression" = f
    · subst hupdate
      simp [get?_expressionField]
    · rw [if_neg hupdate, if_neg hnames.symm, get?_valueFields_of_ne hvalues, Option.none_or,
        get?_cons, if_neg hupdate, get?_nil, Option.map_none, Option.or_none]
  · rw [Request.keysIn, hgetNames]
  · rw [Request.keysIn, hgetValues, get?_valueFields]
    cases values <;> simp [keys]
  · rw [hgetValues, get?_valueFields]
    cases values <;> simp

end UpdateParams

end TableGateway
