import TableGateway.Proofs.Batch
import TableGateway.Proofs.LowLevel
import TableGateway.Proofs.RequestFields
import TableGateway.Proofs.Tokens
import TableGateway.Proofs.UpdateRequest
import TableGateway.Session.Provider

/-!
# Requests with normal values

Where the attribute values among its arguments are normal, a request has normal values only: its keys
and items are the arguments, and what its tokens stand for is among the operands. The key after which
to go on is normal since it is what a token stands for.
-/
namespace TableGateway

open Entries Marshalling TableGateway.Tree

/-- Has a map that is given as a value normal values only? -/
def NormalItem (v : Value) : Prop := ∀ es, v.toMap = .ok es → ∀ e ∈ es, e.2.Normal

/-- Are the operands of all conditions normal? -/
def NormalConditions (conditions : Value) : Prop :=
  ∀ f, Forest.read conditions = .ok f → ∀ l ∈ leavesAll f.trees, ∀ v ∈ l.test.operands, v.Normal

/-- Are the operands in a filter map normal? -/
def NormalFilters (filters : Value) : Prop :=
  ∀ cs, Filter.conditions filters = .ok cs →
    ∀ l ∈ leavesAll (Forest.ofRecords cs).trees, ∀ v ∈ l.test.operands, v.Normal

/-- Is a token empty or one that was made of a key? -/
def IssuedOrEmpty (token : Value) : Prop :=
  token.truthy = false ∨ ∃ s, token = .text s ∧ Token.Issued s

/-- Has a clause normal operands only? -/
def Clause.Normal (c : Clause) : Prop := ∀ e ∈ c.values, e.2.Normal

section Clauses

/-- A clause binds operands of its conditions only. -/
theorem Forest.normal_of_compile {e : Encoder} {f : Forest} {c : Clause} (h : f.compile e = .ok c)
    (hnormal : ∀ l ∈ leavesAll f.trees, ∀ v ∈ l.test.operands, v.Normal) : c.Normal := by
  obtain ⟨-, -, -, hvalues⟩ := compile_inv h
  intro b hb
  rcases Placeholder.mem_bindAll hvalues b hb with hb | hb
  · simp at hb
  · obtain ⟨l, hl, hb⟩ := List.mem_flatMap.mp hb
    exact hnormal l hl b.2 (Condition.operand_of_mem_valueBindings hb)

theorem normal_conditionClause {conditions : Value} (hnormal : NormalConditions conditions)
    {c : Option Clause} (h : conditionClause conditions = .ok c) : ∀ k ∈ c, k.Normal := by
  rw [conditionClause] at h
  split at h
  · obtain ⟨f, hf, h⟩ := Result.bind_eq_ok.mp h
    obtain ⟨k, hk, rfl⟩ := Result.map_eq_ok.mp h
    simpa using Forest.normal_of_compile hk (hnormal f hf)
  · obtain rfl := Except.ok.inj h
    simp

theorem normal_filterClause {filters : Value} (hnormal : NormalFilters filters)
    {c : Option Clause} (h : Filter.clause filters = .ok c) : ∀ k ∈ c, k.Normal := by
  obtain ⟨cs, hcs, h⟩ := Result.bind_eq_ok.mp h
  split at h
  · obtain rfl := Except.ok.inj h
    simp
  · obtain ⟨k, hk, rfl⟩ := Result.map_eq_ok.mp h
    simpa using Forest.normal_of_compile hk (hnormal cs hcs)

theorem normal_projection {properties : Value} {c : Option Clause}
    (h : Projection.read properties = .ok c) : ∀ k ∈ c, k.Normal := by
  rw [Projection.read] at h
  split at h
  · obtain ⟨vs, -, h⟩ := Result.bind_eq_ok.mp h
    obtain ⟨k, hk, rfl⟩ := Result.map_eq_ok.mp h
    obtain ⟨names, -, hk⟩ := Result.bind_eq_ok.mp hk
    obtain rfl := Except.ok.inj hk
    simp [Clause.Normal]
  · obtain rfl := Except.ok.inj h
    simp

/-- Merged maps hold what was in them. -/
theorem normal_merge {first m : Fields} {rest : List Fields}
    (h : Placeholder.merge (first :: rest) = .ok m) (hfirst : ∀ e ∈ first, e.2.Normal)
    (hrest : ∀ es ∈ rest, ∀ e ∈ es, e.2.Normal) : ∀ e ∈ m, e.2.Normal := by
  intro e he
  rcases Placeholder.mem_bindAll h e he with he | he
  · simp at he
  · obtain ⟨es, hes, he⟩ := List.mem_flatten.mp he
    rcases List.mem_cons.mp hes with heq | hes
    · exact hfirst e (heq ▸ he)
    · exact hrest es hes e he

theorem normal_add {b b' : Bindings} {c : Option Clause} (h : b.add c = .ok b')
    (hb : ∀ e ∈ b.values, e.2.Normal) (hc : ∀ k ∈ c, k.Normal) : ∀ e ∈ b'.values, e.2.Normal := by
  cases c with
  | none =>
    obtain rfl := Except.ok.inj h
    exact hb
  | some c =>
    obtain ⟨names, -, h⟩ := Result.bind_eq_ok.mp h
    obtain ⟨values, hvalues, h⟩ := Result.bind_eq_ok.mp h
    obtain rfl := Except.ok.inj h
    exact normal_merge hvalues hb (by simpa [Clause.Normal] using hc)

end Clauses

namespace Marshalling

section Fields

variable {es fs : Fields} {k : Text}

theorem NormalFields.append (hes : NormalFields es) (hfs : NormalFields fs) :
    NormalFields (es ++ fs) :=
  fun e he => (List.mem_append.mp he).elim (hes e) (hfs e)

theorem NormalFields.request (h : NormalFields es) : NormalRequest es :=
  fun e he => ⟨(h e he).1, fun hk => absurd hk (h e he).2⟩

theorem normalField_other {v : Value} (h : k ∉ requestOrder) : NormalField (k, v) where
  values hk := absurd (List.mem_append_left _ hk) h
  tables hk := by
    obtain rfl : k = "RequestItems" := hk
    exact absurd h (by decide)

theorem normalFields_nil : NormalFields [] := fun e he => by simp at he

/-- A field that holds no attribute values before others. -/
theorem NormalFields.cons {v : Value} (hk : k ∉ requestOrder) (h : NormalFields es) :
    NormalFields ((k, v) :: es) := by
  intro e he
  rcases List.mem_cons.mp he with rfl | he
  · refine ⟨normalField_other hk, ?_⟩
    rintro rfl
    exact absurd hk (by decide)
  · exact h e he

theorem normalFields_one {v : Value} (hk : k ∉ requestOrder) : NormalFields [(k, v)] :=
  .cons hk normalFields_nil

/-- Fields that are there under a condition. -/
theorem NormalFields.ite {c : Prop} [Decidable c] (hes : NormalFields es) (hfs : NormalFields fs) :
    NormalFields (if c then es else fs) := by
  split
  · exact hes
  · exact hfs

theorem normalFields_values (hk : k ∈ valueMaps) (h : ∀ e ∈ fs, e.2.Normal) :
    NormalFields [(k, .map fs)] := by
  intro e he
  obtain rfl := List.mem_singleton.mp he
  refine ⟨⟨fun _ => ⟨fs, rfl, h⟩, ?_⟩, ?_⟩
  · rintro rfl
    exact absurd hk (by decide)
  · rintro rfl
    exact absurd hk (by decide)

theorem normalFields_clause {c : Option Clause} (hk : k ∉ requestOrder)
    (hc : ∀ k ∈ c, k.Normal) : NormalFields (clauseFields c k) := by
  cases c with
  | none => exact normalFields_nil
  | some c =>
    refine .append (.cons hk (normalFields_one (by decide))) ?_
    exact .ite normalFields_nil (normalFields_values (by decide) (hc c rfl))

theorem normalFields_optional (hk : k ∉ requestOrder) (v : Value) :
    NormalFields (optionalField k v) :=
  .ite (normalFields_one hk) normalFields_nil

theorem normalFields_expression (hk : k ∉ requestOrder) (c : Option Clause) :
    NormalFields (expressionField k c) := by
  cases c with
  | none => exact normalFields_nil
  | some c => exact normalFields_one hk

theorem normalFields_names (b : Bindings) : NormalFields b.nameFields :=
  .ite normalFields_nil (normalFields_one (by decide))

theorem normalFields_bound {b : Bindings} (h : ∀ e ∈ b.values, e.2.Normal) :
    NormalFields b.valueFields :=
  .ite normalFields_nil (normalFields_values (by decide) h)

theorem NormalRequest.put {r : Fields} (h : NormalRequest r) {v : Value} (hk : k ∉ requestOrder) :
    NormalRequest (Entries.put r k v) := by
  intro e he
  rcases mem_put he with he | rfl
  · exact h e he
  · refine ⟨normalField_other hk, ?_⟩
    rintro rfl
    exact absurd hk (by decide)

end Fields

end Marshalling

section Items

theorem normalFields_table (table : Value) : NormalFields [("TableName", table)] :=
  normalFields_one (by decide)

theorem GetParams.normal_request {p : GetParams} (hkey : NormalItem p.key) {req : Fields}
    (h : p.request = .ok req) : NormalFields req := by
  obtain ⟨key, hk, h⟩ := Result.bind_eq_ok.mp h
  obtain ⟨projection, hprojection, h⟩ := Result.bind_eq_ok.mp h
  obtain rfl := Except.ok.inj h
  refine (((normalFields_table p.table).append
    (normalFields_values (k := "Key") (by decide) (hkey key hk))).append ?_).append
      (normalFields_clause (by decide) (normal_projection hprojection))
  exact .ite (normalFields_one (by decide)) normalFields_nil

/-- A request with a key or an item, under conditions. -/
theorem normalFields_conditioned {table item conditions : Value} {field : Text}
    (hfield : field ∈ valueMaps) (hitem : NormalItem item) (hconditions : NormalConditions conditions)
    {es : Fields} (hes : item.toMap = .ok es) {c : Option Clause}
    (hc : conditionClause conditions = .ok c) :
    NormalFields (([("TableName", table), (field, .map es)] : Fields)
      ++ clauseFields c "ConditionExpression") :=
  ((normalFields_table table).append (normalFields_values hfield (hitem es hes))).append
    (normalFields_clause (by decide) (normal_conditionClause hconditions hc))

theorem CreateParams.normal_request {p : CreateParams} (hitem : NormalItem p.item)
    (hconditions : NormalConditions p.conditions) {req : Fields} (h : p.request = .ok req) :
    NormalFields req := by
  obtain ⟨item, condition, hi, hcondition, rfl⟩ := conditioned_inv h
  exact normalFields_conditioned (by decide) hitem hconditions hi hcondition

theorem DeleteParams.normal_request {p : DeleteParams} (hkey : NormalItem p.key)
    (hconditions : NormalConditions p.conditions) {req : Fields} (h : p.request = .ok req) :
    NormalFields req := by
  obtain ⟨key, condition, hk, hcondition, rfl⟩ := conditioned_inv h
  exact normalFields_conditioned (by decide) hkey hconditions hk hcondition

theorem ValidateParams.normal_request {p : ValidateParams} (hkey : NormalItem p.key)
    (hconditions : NormalConditions p.conditions) {req : Fields} (h : p.request = .ok req) :
    NormalFields req := by
  obtain ⟨key, condition, hk, hcondition, rfl⟩ := conditioned_inv h
  exact normalFields_conditioned (by decide) hkey hconditions hk hcondition

namespace UpdateParams

/-- Are the values in the arguments of an update normal: its key, what it sets, the operands of its
operations as they are handed over, and those of its conditions? -/
structure NormalValues (create : SetMaker) (p : UpdateParams) : Prop where
  key : NormalItem p.key
  set : ∀ es, p.values.entriesOrNone = .ok es → ∀ e ∈ es, e.2.isNull = false → e.2.Normal
  changed : ∀ ops, Update.operations p.atomic = .ok ops → ∀ o ∈ ops, ∀ v,
    o.handedOver create = .ok v → v.Normal
  conditions : NormalConditions p.conditions

/-- The operands of an update are values that it sets and operands of its operations. -/
theorem normal_values {create : SetMaker} {p : UpdateParams} (hp : p.NormalValues create)
    (hvalidate : p.validate = .ok ()) {values : Fields}
    (hvalues : Update.valuesWith create p.values p.atomic = .ok values) :
    ∀ e ∈ values, e.2.Normal := by
  obtain ⟨touched, htouched⟩ := Update.touched_of_validate hvalidate
  obtain ⟨sets, hsets, htouched⟩ := Result.bind_eq_ok.mp htouched
  obtain ⟨removed, -, htouched⟩ := Result.bind_eq_ok.mp htouched
  obtain ⟨ops, hops, -⟩ := Result.bind_eq_ok.mp htouched
  obtain ⟨given, hgiven, -, hbind⟩ := Update.values_ok hsets hops hvalues
  intro e he
  rcases Placeholder.mem_bindAll hbind e he with he | he
  · simp at he
  rcases List.mem_append.mp he with he | he
  · obtain ⟨s, hs, rfl⟩ := List.mem_map.mp he
    obtain ⟨entries, hentries, hfilter⟩ := Result.bind_eq_ok.mp hsets
    obtain rfl := Except.ok.inj hfilter
    obtain ⟨hs, hnull⟩ := List.mem_filter.mp hs
    exact hp.set entries hentries s hs (by simpa using hnull)
  · obtain ⟨g, hg, rfl⟩ := List.mem_map.mp he
    obtain ⟨o, ho, hmeant⟩ := Result.exists_source_of_mapM hgiven g hg
    obtain ⟨v, hv, heq⟩ := Result.bind_eq_ok.mp hmeant
    obtain rfl := Except.ok.inj heq
    exact hp.changed ops hops o ho v (by rwa [AtomicOperation.handedOver_eq])

theorem normal_request {create : SetMaker} {p : UpdateParams} (hp : p.NormalValues create)
    {req : Fields} (h : p.requestWith create = .ok req) : NormalFields req := by
  rw [requestWith] at h
  obtain ⟨_, hvalidate, h⟩ := Result.bind_eq_ok.mp h
  obtain ⟨condition, hcondition, h⟩ := Result.bind_eq_ok.mp h
  obtain ⟨updateNames, -, h⟩ := Result.bind_eq_ok.mp h
  obtain ⟨names, -, h⟩ := Result.bind_eq_ok.mp h
  obtain ⟨updateValues, hvalues, h⟩ := Result.bind_eq_ok.mp h
  obtain ⟨values, hmerge, h⟩ := Result.bind_eq_ok.mp h
  obtain ⟨key, hkey, h⟩ := Result.bind_eq_ok.mp h
  obtain ⟨text, -, h⟩ := Result.bind_eq_ok.mp h
  obtain rfl := Except.ok.inj h
  have hclause := normal_conditionClause hp.conditions hcondition
  have hnormal : ∀ e ∈ values, e.2.Normal := by
    refine normal_merge hmerge (normal_values hp hvalidate hvalues) fun es hes => ?_
    obtain ⟨c, hc, rfl⟩ := Option.map_eq_some_iff.mp (Option.mem_toList.mp hes)
    exact hclause c hc
  have hhead : NormalFields (([("TableName", p.table), ("Key", .map key)] : Fields)
      ++ ([("UpdateExpression", .text text), ("ExpressionAttributeNames", .map names)] : Fields)) :=
    ((normalFields_table p.table).append
      (normalFields_values (k := "Key") (by decide) (hp.key key hkey))).append
        (.cons (by decide) (normalFields_one (by decide)))
  refine ((hhead.append ?_).append ?_).append ?_
  · exact .ite normalFields_nil (normalFields_values (by decide) hnormal)
  · exact normalFields_expression (by decide) condition
  · exact .ite (normalFields_one (by decide)) normalFields_nil

end UpdateParams

end Items

section Rows

theorem normalFields_start {token : Value} (htoken : IssuedOrEmpty token) {start : Fields}
    (h : startField token = .ok start) : NormalFields start := by
  rw [startField] at h
  rcases htoken with hempty | ⟨s, rfl, hissued⟩
  · rw [hempty] at h
    obtain rfl := Except.ok.inj h
    exact normalFields_nil
  · split at h
    · obtain ⟨key, hkey, h⟩ := Result.bind_eq_ok.mp h
      obtain rfl := Except.ok.inj h
      obtain ⟨key', hkey', hnormal⟩ := hissued.decode
      obtain rfl := Except.ok.inj (hkey.symm.trans hkey')
      exact normalFields_values (by decide) hnormal
    · obtain rfl := Except.ok.inj h
      exact normalFields_nil

/-- Are the values in the arguments of a query normal: the operands on its keys and in its filters,
and those that its token stands for? -/
structure QueryParams.NormalValues (p : QueryParams) : Prop where
  key : ∀ ts, p.keyConditions = .ok ts → ∀ l ∈ leavesAll ts, ∀ v ∈ l.test.operands, v.Normal
  filters : NormalFilters p.filters
  token : IssuedOrEmpty p.token

theorem QueryParams.normal_request {p : QueryParams} (hp : p.NormalValues) {req : Fields}
    (h : p.request = .ok req) : NormalFields req := by
  obtain ⟨ts, hts, h⟩ := Result.bind_eq_ok.mp h
  obtain ⟨key, hkey, h⟩ := Result.bind_eq_ok.mp h
  obtain ⟨filter, hfilter, h⟩ := Result.bind_eq_ok.mp h
  obtain ⟨bindings, hbindings, h⟩ := Result.bind_eq_ok.mp h
  obtain ⟨start, hstart, h⟩ := Result.bind_eq_ok.mp h
  obtain rfl := Except.ok.inj h
  have hfilterNormal := normal_filterClause hp.filters hfilter
  have hkeyNormal : key.Normal := Forest.normal_of_compile (Forest.compile_trees hkey) (hp.key ts hts)
  have hnormal := normal_add hbindings hkeyNormal hfilterNormal
  refine ((((((NormalFields.append ?_ ?_).append (normalFields_values (by decide) hnormal)).append
    ?_).append ?_).append ?_).append (normalFields_start hp.token hstart))
  · exact (normalFields_table p.table).append (normalFields_one (by decide))
  · exact normalFields_names bindings
  · exact normalFields_one (by decide)
  · exact normalFields_optional (by decide) p.index
  · exact normalFields_expression (by decide) filter

/-- Are the values in the options of a scan normal? -/
structure ListOptions.NormalValues (o : ListOptions) : Prop where
  filters : NormalFilters o.filters
  token : IssuedOrEmpty o.token

theorem ListOptions.normal_request {table : Value} {o : ListOptions} (ho : o.NormalValues)
    {req : Fields} (h : o.request table = .ok req) : NormalFields req := by
  obtain ⟨filter, hfilter, h⟩ := Result.bind_eq_ok.mp h
  obtain ⟨filtered, hfiltered, h⟩ := Result.bind_eq_ok.mp h
  obtain ⟨projection, hprojection, h⟩ := Result.bind_eq_ok.mp h
  obtain ⟨bindings, hbindings, h⟩ := Result.bind_eq_ok.mp h
  obtain ⟨start, hstart, h⟩ := Result.bind_eq_ok.mp h
  obtain rfl := Except.ok.inj h
  have hfilterNormal := normal_filterClause ho.filters hfilter
  have hfilteredNormal := normal_add hfiltered (by simp [Bindings.empty]) hfilterNormal
  have hnormal := normal_add hbindings hfilteredNormal (normal_projection hprojection)
  refine (((((((((normalFields_table table).append ?_).append ?_).append ?_).append ?_).append
    (normalFields_names bindings)).append (normalFields_bound hnormal)).append ?_).append ?_).append
      (normalFields_start ho.token hstart)
  · exact normalFields_optional (by decide) o.index
  · exact .ite normalFields_nil (normalFields_one (by decide))
  · exact .ite (normalFields_one (by decide)) normalFields_nil
  · exact .ite normalFields_nil (.cons (by decide) (normalFields_one (by decide)))
  · exact normalFields_expression (by decide) filter
  · exact normalFields_expression (by decide) projection

end Rows

namespace TransactAction

/-- Are the values in an action of a transaction normal? -/
def NormalValues (create : SetMaker) : TransactAction → Prop
  | .create p => NormalItem p.item ∧ NormalConditions p.conditions
  | .update p => p.NormalValues create
  | .delete p => NormalItem p.key ∧ NormalConditions p.conditions
  | .validate p => NormalItem p.key ∧ NormalConditions p.conditions

/-- The body of each action is in normal form. -/
theorem normal_envelope {shape : SetShape} {a : TransactAction} (ha : a.NormalValues shape.build)
    {v : Value} (h : a.envelope shape = .ok v) : NormalAction v := by
  have hone : ∀ kind body, NormalFields body → NormalAction (.map [(kind, .map body)]) := by
    refine fun kind body hbody => ⟨_, rfl, fun e he => ⟨body, ?_, hbody⟩⟩
    obtain rfl := List.mem_singleton.mp he
    rfl
  cases a with
  | create p =>
    obtain ⟨body, hbody, h⟩ := Result.bind_eq_ok.mp h
    obtain rfl := Except.ok.inj h
    exact hone _ _ (p.normal_request ha.1 ha.2 hbody)
  | update p =>
    obtain ⟨req, hreq, h⟩ := Result.bind_eq_ok.mp h
    obtain rfl := Except.ok.inj h
    exact hone _ _ fun e he => p.normal_request ha hreq e (List.mem_of_mem_filter he)
  | delete p =>
    obtain ⟨body, hbody, h⟩ := Result.bind_eq_ok.mp h
    obtain rfl := Except.ok.inj h
    exact hone _ _ (p.normal_request ha.1 ha.2 hbody)
  | validate p =>
    obtain ⟨body, hbody, h⟩ := Result.bind_eq_ok.mp h
    obtain rfl := Except.ok.inj h
    exact hone _ _ (p.normal_request ha.1 ha.2 hbody)

end TransactAction

/-- Are the values in all actions of a row normal? -/
def NormalActions (create : SetMaker) (actions : Value) : Prop :=
  ∀ vs, actions.elements = .ok vs → ∀ v ∈ vs, ∀ a, TransactAction.ofValue? v = some a →
    a.NormalValues create

theorem Transaction.normal_request {shape : SetShape} {actions : Value}
    (hactions : NormalActions shape.build actions) {items : List Value}
    (h : build shape actions = .ok items) : NormalRequest [(actionsField, .list items)] := by
  obtain ⟨vs, hvs, hitems⟩ := build_inv h
  intro e he
  obtain rfl := List.mem_singleton.mp he
  refine ⟨⟨fun hk => absurd hk (by simp [valueMaps, actionsField]),
    fun hk => absurd hk (by simp [actionsField])⟩, fun _ => ⟨items, rfl, fun v hv => ?_⟩⟩
  obtain ⟨action, haction, a, ha, henvelope⟩ := Result.exists_left_of_forall₂ hitems hv
  exact a.normal_envelope (hactions vs hvs action (List.mem_of_mem_filter haction) a ha) henvelope

/-- Are the keys of a batch maps of normal values? -/
def NormalKeys (keys : Value) : Prop := ∀ ks, keys.elements = .ok ks → ∀ k ∈ ks, k.NormalMap

/-- Slices hold keys that were asked for. -/
theorem NormalKeys.slices {keys : Value} (h : NormalKeys keys) {ks : List Value}
    (hks : keys.elements = .ok ks) :
    ∀ slice ∈ BatchGet.chunks BatchGet.maxKeys ks, ∀ k ∈ slice, k.NormalMap := by
  intro slice hslice k hk
  refine h ks hks k ?_
  rw [← BatchGet.chunks_flatten BatchGet.maxKeys ks]
  exact List.mem_flatten.mpr ⟨slice, hslice, hk⟩

/-- Are the keys that a page still asks for maps of normal values? -/
def BatchGet.Progress.Normal (s : BatchGet.Progress) : Prop := ∀ k ∈ s.pending, k.NormalMap

theorem BatchGet.normal_request {base : Fields} (hbase : has base keysField = false) (table : Text)
    {ks : List Value} (hks : ∀ k ∈ ks, k.NormalMap) : NormalRequest (request table base ks) := by
  intro e he
  obtain rfl := List.mem_singleton.mp he
  refine ⟨⟨fun hk => absurd hk (by simp [valueMaps]), fun _ => ⟨_, rfl, fun part hpart => ?_⟩⟩,
    fun hk => absurd hk (by simp [actionsField])⟩
  obtain rfl := List.mem_singleton.mp hpart
  have hnone : get? base keysField = none := by simpa [has] using hbase
  refine ⟨_, _, rfl, ?_, ks, rfl, hks⟩
  rw [get?_append, hnone]
  simp [keysField]

end TableGateway
