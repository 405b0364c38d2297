import TableGateway.Proofs.Complete
import TableGateway.Proofs.Exchange

/-!
# All requests are complete

Requests for one item, queries and scans, the bodies of a transaction and the parts of a batch by table
are complete in their tokens where all names are plain. A batch makes its requests as it goes, so
for it the requests are those that stand in the record of a run.
-/
namespace TableGateway

open Entries

namespace Request

/-- A request with at most one clause is complete if that clause is. -/
theorem complete_clauseFields {base : Fields} {field : Text} (hfield : field ∈ expressionFields)
    (hbase : Bare base) {c : Option Clause} (hc : ∀ k ∈ c, k.Complete) :
    Complete (base ++ clauseFields c field) := by
  refine (holds_clauseFields hfield hbase c).complete fun p hp => ?_
  obtain ⟨k, hk, rfl⟩ := List.mem_map.mp hp
  exact hc k (Option.mem_toList.mp hk)

/-- A request for an item by its key, or to write one, under conditions. -/
theorem complete_conditioned {table : Value} {field : Text} {item : Fields}
    (hfield : field ∉ clauseFieldNames) {conditions : Value} (hplain : PlainConditions conditions)
    {c : Option Clause} (hc : conditionClause conditions = .ok c) :
    Complete (([("TableName", table), (field, .map item)] : Fields)
      ++ clauseFields c "ConditionExpression") :=
  complete_clauseFields (by decide) (.cons (by decide) (bare_one hfield))
    (complete_conditionClause hplain hc)

end Request

open Request

theorem GetParams.complete_request {p : GetParams} (hplain : PlainRow p.properties) {req : Fields}
    (h : p.request = .ok req) : Complete req := by
  obtain ⟨key, -, h⟩ := Result.bind_eq_ok.mp h
  obtain ⟨projection, hprojection, h⟩ := Result.bind_eq_ok.mp h
  obtain rfl := Except.ok.inj h
  refine complete_clauseFields (by decide) ?_ (complete_projection hplain hprojection)
  exact .append (.cons (by decide) (bare_one (by decide))) (.ite (bare_one (by decide)) bare_nil)

theorem CreateParams.complete_request {p : CreateParams} (hplain : PlainConditions p.conditions)
    {req : Fields} (h : p.request = .ok req) : Complete req := by
  obtain ⟨item, condition, -, hcondition, rfl⟩ := conditioned_inv h
  exact complete_conditioned (by decide) hplain hcondition

theorem DeleteParams.complete_request {p : DeleteParams} (hplain : PlainConditions p.conditions)
    {req : Fields} (h : p.request = .ok req) : Complete req := by
  obtain ⟨key, condition, -, hcondition, rfl⟩ := conditioned_inv h
  exact complete_conditioned (by decide) hplain hcondition

theorem ValidateParams.complete_request {p : ValidateParams}
    (hplain : PlainConditions p.conditions) {req : Fields} (h : p.request = .ok req) :
    Complete req := by
  obtain ⟨key, condition, -, hcondition, rfl⟩ := conditioned_inv h
  exact complete_conditioned (by decide) hplain hcondition

/-- An update is complete with other fields beside those of its clauses, or without them. -/
theorem UpdateParams.complete_request {create : SetMaker} {p : UpdateParams} (hp : p.PlainNames)
    (hplain : PlainConditions p.conditions) {req req' : Fields}
    (h : p.requestWith create = .ok req)
    (heq : ∀ f ∈ clauseFieldNames, get? req' f = get? req f) : Complete req' := by
  obtain ⟨condition, update, hcondition, hupdate, hholds⟩ := holds_request hp h
  refine (hholds.congr heq).complete fun part hpart => ?_
  rcases List.mem_append.mp hpart with hpart | hpart
  · obtain ⟨k, hk, rfl⟩ := List.mem_map.mp hpart
    exact complete_conditionClause hplain hcondition k (Option.mem_toList.mp hk)
  · obtain rfl := List.mem_singleton.mp hpart
    exact hupdate

/-- Are the names of both keys of a query and those in its filters plain? -/
structure QueryParams.PlainNames (p : QueryParams) : Prop where
  key : ∀ ts, p.keyConditions = .ok ts → ∀ l ∈ Tree.leavesAll ts, Grammar.Plain l.property.display
  filters : PlainFilters p.filters

/-- A query names the tokens of its key conditions and of its filters, and no others. -/
theorem QueryParams.complete_request {p : QueryParams} (hp : p.PlainNames) {req : Fields}
    (h : p.request = .ok req) : Complete req := by
  obtain ⟨ts, key, filter, hts, hkey, hfilter, hholds⟩ := holds_request h
  refine hholds.complete fun part hpart => ?_
  rcases List.mem_cons.mp hpart with rfl | hpart
  · have hstem : Grammar.Plain "" := by simp [Grammar.Plain]
    have htokens : Forest.PlainTokens .plain ⟨ts, false⟩ := fun l hl =>
      plain_withStem hstem (hp.key ts hts l hl)
    exact Forest.complete_of_compile (Forest.compile_trees hkey) htokens
  · obtain ⟨k, hk, rfl⟩ := List.mem_map.mp hpart
    exact complete_filterClause hp.filters hfilter k (Option.mem_toList.mp hk)

/-- A scan names the tokens of its filters and of its projection, and no others. -/
theorem ListOptions.complete_request {table : Value} {o : ListOptions}
    (hfilters : PlainFilters o.filters) (hproperties : PlainRow o.properties) {req : Fields}
    (h : o.request table = .ok req) : Complete req := by
  obtain ⟨filter, projection, hfilter, hprojection, hholds⟩ := holds_request h
  refine hholds.complete fun part hpart => ?_
  rcases List.mem_append.mp hpart with hpart | hpart <;>
    obtain ⟨k, hk, rfl⟩ := List.mem_map.mp hpart
  · exact complete_filterClause hfilters hfilter k (Option.mem_toList.mp hk)
  · exact complete_projection hproperties hprojection k (Option.mem_toList.mp hk)

namespace TransactAction

/-- Are the names in an action of a transaction plain? -/
def PlainNames : TransactAction → Prop
  | create p => PlainConditions p.conditions
  | update p => p.PlainNames ∧ PlainConditions p.conditions
  | delete p => PlainConditions p.conditions
  | validate p => PlainConditions p.conditions

/-- The body of each action is complete. -/
theorem complete_envelope {shape : SetShape} {a : TransactAction} (hplain : a.PlainNames) {v : Value}
    (h : a.envelope shape = .ok v) : ∃ kind body, v = .map [(kind, .map body)] ∧ Complete body := by
  cases a with
  | create p =>
    obtain ⟨body, hbody, h⟩ := Result.bind_eq_ok.mp h
    exact ⟨_, body, (Except.ok.inj h).symm, p.complete_request hplain hbody⟩
  | update p =>
    obtain ⟨req, hreq, h⟩ := Result.bind_eq_ok.mp h
    refine ⟨_, _, (Except.ok.inj h).symm, p.complete_request hplain.1 hplain.2 hreq ?_⟩
    intro f hf
    have hne : f ≠ "ReturnValues" := by
      rintro rfl
      exact absurd hf (by decide)
    exact get?_erase_of_ne req hne
  | delete p =>
    obtain ⟨body, hbody, h⟩ := Result.bind_eq_ok.mp h
    exact ⟨_, body, (Except.ok.inj h).symm, p.complete_request hplain hbody⟩
  | validate p =>
    obtain ⟨body, hbody, h⟩ := Result.bind_eq_ok.mp h
    exact ⟨_, body, (Except.ok.inj h).symm, p.complete_request hplain hbody⟩

end TransactAction

/-- Are the names in all actions of a row plain? -/
def PlainActions (actions : Value) : Prop :=
  ∀ vs, actions.elements = .ok vs → ∀ v ∈ vs, ∀ a, TransactAction.ofValue? v = some a → a.PlainNames

theorem Transaction.complete_build {shape : SetShape} {actions : Value}
    (hplain : PlainActions actions) {items : List Value} (h : build shape actions = .ok items) :
    ∀ v ∈ items, ∃ kind body, v = .map [(kind, .map body)] ∧ Complete body := by
  obtain ⟨vs, hvs, hitems⟩ := build_inv h
  intro v hv
  obtain ⟨action, haction, a, ha, henvelope⟩ := Result.exists_left_of_forall₂ hitems hv
  exact a.complete_envelope (hplain vs hvs action (List.mem_of_mem_filter haction) a ha) henvelope

namespace BatchGet

variable {σ α β : Type} {Allowed : Fields → Prop}

/-- Does a session put only requests of a kind on record? -/
def RecordsOnly (Allowed : Fields → Prop) (x : Session (σ × List Exchange) α) : Prop :=
  ∀ w, ∃ more, (x w).2.client.2 = w.client.2 ++ more ∧ ∀ e ∈ more, Allowed e.request

namespace RecordsOnly

theorem bind {x : Session (σ × List Exchange) α} {f : α → Session (σ × List Exchange) β}
    (h : RecordsOnly Allowed x) (hf : ∀ a, RecordsOnly Allowed (f a)) :
    RecordsOnly Allowed (x >>= f) := by
  intro w
  obtain ⟨first, hfirst, hallowed⟩ := h w
  rw [Session.bind_apply]
  revert hfirst
  rcases x w with ⟨r, w'⟩
  intro hfirst
  cases r with
  | error e => exact ⟨first, hfirst, hallowed⟩
  | ok a =>
    obtain ⟨more, hmore, hmoreAllowed⟩ := hf a w'
    refine ⟨first ++ more, ?_, fun e he => ?_⟩
    · rw [hmore, hfirst, List.append_assoc]
    · exact (List.mem_append.mp he).elim (hallowed e) (hmoreAllowed e)

/-- A session that leaves the client alone records nothing. -/
theorem of_unchanged {x : Session (σ × List Exchange) α}
    (h : ∀ w, (x w).2.client = w.client) : RecordsOnly Allowed x := by
  intro w
  exact ⟨[], by simp [h w], by simp⟩

theorem pure (a : α) : RecordsOnly (σ := σ) Allowed (Pure.pure a) := of_unchanged fun _ => rfl

theorem lift (r : Result α) : RecordsOnly (σ := σ) Allowed (Session.lift r) :=
  of_unchanged fun _ => rfl

theorem lift_bind {r : Result α} {f : α → Session (σ × List Exchange) β}
    (hf : ∀ a, r = .ok a → RecordsOnly Allowed (f a)) :
    RecordsOnly Allowed (Session.lift r >>= f) := by
  cases r with
  | ok a => exact hf a rfl
  | error e => exact of_unchanged fun _ => rfl

theorem outcome {x : Session (σ × List Exchange) α} (h : RecordsOnly Allowed x) :
    RecordsOnly Allowed (Session.outcome x) := fun w => h w

theorem send (sender : Sender σ) {request : Fields} (h : Allowed request) :
    RecordsOnly Allowed (sender.recorded.send request) :=
  fun w => ⟨[⟨request, (sender.send request (unrecorded w)).1, w.waits⟩], rfl, by simpa using h⟩

theorem log (level : Level) (source : Source) (message : Text) :
    RecordsOnly (σ := σ) Allowed (Session.log level source message) := of_unchanged fun _ => rfl

theorem pause (sender : Sender (σ × List Exchange)) (attempt : Nat) :
    RecordsOnly Allowed (BatchGet.pause sender attempt) := by
  rw [BatchGet.pause]
  split
  · exact bind (lift _) fun _ => of_unchanged fun _ => rfl
  · exact pure _

section Pages

variable {table : Text} {base : Fields} (sender : Sender σ) (p : BatchGetParams)
  (hallowed : ∀ keys, Allowed (request table base keys))

include hallowed

theorem page (left : Nat) (s : Progress) :
    RecordsOnly Allowed (BatchGet.page sender.recorded p table base left s) := by
  induction left generalizing s with
  | zero =>
    rw [BatchGet.page]
    refine bind (send sender (hallowed _)) fun reply => bind (lift _) fun s' => ?_
    split
    · exact pure _
    · refine bind (log _ _ _) fun _ => ?_
      split
      · exact of_unchanged fun _ => rfl
      · exact pure _
  | succ left ih =>
    rw [BatchGet.page]
    refine bind (send sender (hallowed _)) fun reply => bind (lift _) fun s' => ?_
    split
    · exact pure _
    · exact bind (log _ _ _) fun _ => bind (pause _ _) fun _ => ih s'

theorem pages (left : Nat) (slices : List (List Value)) :
    RecordsOnly Allowed (BatchGet.pages sender.recorded p table base left slices) := by
  induction slices with
  | nil => exact pure _
  | cons keys rest ih =>
    rw [BatchGet.pages]
    exact bind (outcome (page sender p hallowed _ _)) fun r => bind ih fun rs => pure _

end Pages

end RecordsOnly

/-- Is a request one for a table, with a part that is complete? -/
def AsksCompletely (req : Fields) : Prop :=
  ∃ table entry, req = ([("RequestItems", .map [(table, .map entry)])] : Fields) ∧ Complete entry

theorem asksCompletely_request {p : BatchGetParams} (hplain : PlainRow p.properties) {base : Fields}
    (hbase : baseFields p = .ok base) (table : Text) (keys : List Value) :
    AsksCompletely (request table base keys) := by
  refine ⟨table, base ++ ([("Keys", .list keys)] : Fields), rfl, ?_⟩
  obtain ⟨projection, hprojection, hbase⟩ := Result.bind_eq_ok.mp hbase
  obtain rfl := Except.ok.inj hbase
  have hbare : Bare [("ConsistentRead", p.consistentRead)] := bare_one (by decide)
  have hfield : ("ProjectionExpression" : Text) ∈ expressionFields := by decide
  have hholds := holds_clauseFields hfield hbare projection
  refine (hholds.congr fun f hf => ?_).complete ?_
  · have hne : "Keys" ≠ f := by
      rintro rfl
      exact absurd hf (by decide)
    rw [get?_append]
    simp [hne]
  · intro part hpart
    obtain ⟨k, hk, rfl⟩ := List.mem_map.mp hpart
    exact complete_projection hplain hprojection k (Option.mem_toList.mp hk)

/-- All that a batch sends is complete, however often it asks again. -/
theorem run_asksCompletely {p : BatchGetParams} (hplain : PlainRow p.properties) (sender : Sender σ)
    (workers : Value) : RecordsOnly AsksCompletely (run sender.recorded workers p) := by
  rw [run]
  refine .bind (.lift _) fun _ => ?_
  split
  · exact .pure _
  · refine .lift_bind fun base hbase => .bind (.lift _) fun keys => .bind (.lift _) fun table => ?_
    exact .bind (.pages sender p (asksCompletely_request hplain hbase table) _ _) fun outcomes =>
      .lift _

end BatchGet

open BatchGet in
/-- The expressions of a request use just the tokens that its maps define, and it has a map of operands
just where they use some: this holds of requests for one item, of queries and scans, of the bodies of
a transaction, and of the part for the table in every request that a batch makes. -/
theorem requests_complete :
    (∀ (p : GetParams) (req : Fields), PlainRow p.properties → p.request = .ok req → Complete req) ∧
    (∀ (p : CreateParams) (req : Fields), PlainConditions p.conditions →
      p.request = .ok req → Complete req) ∧
    (∀ (p : DeleteParams) (req : Fields), PlainConditions p.conditions →
      p.request = .ok req → Complete req) ∧
    (∀ (shape : SetShape) (p : UpdateParams) (req : Fields), p.PlainNames →
      PlainConditions p.conditions → p.request shape = .ok req → Complete req) ∧
    (∀ (p : QueryParams) (req : Fields), p.PlainNames → p.request = .ok req → Complete req) ∧
    (∀ (table : Value) (o : ListOptions) (req : Fields), PlainFilters o.filters →
      PlainRow o.properties → o.request table = .ok req → Complete req) ∧
    (∀ (shape : SetShape) (actions : Value) (items : List Value), PlainActions actions →
      Transaction.build shape actions = .ok items →
        ∀ v ∈ items, ∃ kind body, v = .map [(kind, .map body)] ∧ Complete body) ∧
    ∀ {σ : Type} (sender : Sender σ) (workers : Value) (p : BatchGetParams) (w : World σ),
      PlainRow p.properties → ∀ e ∈ (run sender.recorded workers p (withRecord w)).2.client.2,
        ∃ table entry, e.request = ([("RequestItems", .map [(table, .map entry)])] : Fields) ∧
          Complete entry := by
  refine ⟨fun p req hplain h => p.complete_request hplain h,
    fun p req hplain h => p.complete_request hplain h,
    fun p req hplain h => p.complete_request hplain h,
    fun shape p req hp hplain h => p.complete_request hp hplain h fun _ _ => rfl,
    fun p req hp h => p.complete_request hp h,
    fun table o req hfilters hproperties h => o.complete_request hfilters hproperties h,
    fun shape actions items hplain h => Transaction.complete_build hplain h,
    fun sender workers p w hplain e he => ?_⟩
  obtain ⟨more, hmore, hcomplete⟩ := run_asksCompletely hplain sender workers (withRecord w)
  rw [hmore] at he
  exact hcomplete e (by simpa [withRecord] using he)

/-- Options with a filter of each form and a row of names, one of which is filtered too. -/
def choosy : ListOptions :=
  { ListOptions.default with
    filters := .map [("name", .text "x"), ("count", .map [("operation", .text "between"),
      ("low", .int 1), ("high", .int 9)]), ("tag", .list [.text "a", .null, .text "b"])]
    properties := .tuple [.text "name", .text "size"] }

theorem plain_of_all {ls : List Condition}
    (h : (ls.all fun l => l.property.display.toList.all fun c => !Grammar.isMark c) = true) :
    ∀ l ∈ ls, Grammar.Plain l.property.display := by
  intro l hl c hc
  simpa using List.all_eq_true.mp (List.all_eq_true.mp h l hl) c hc

theorem requests_complete_choosy :
    (∃ req, choosy.request (.text "t") = .ok req ∧ Complete req) ∧
      ∃ req, UpdateParams.manifold.request .set = .ok req ∧ Complete req := by
  obtain ⟨-, -, -, hupdate, -, hlist, -, -⟩ := requests_complete
  constructor
  · obtain ⟨req, hreq⟩ := Result.exists_of_isOk (x := choosy.request (.text "t")) (by decide +kernel)
    refine ⟨req, hreq, hlist _ _ req (fun cs hcs => ?_) (fun vs hvs => ?_) hreq⟩
    · obtain rfl := Except.ok.inj hcs
      exact plain_of_all (by decide +kernel)
    · obtain rfl := Except.ok.inj hvs
      simp [Value.display, Grammar.Plain, Grammar.isMark]
  · obtain ⟨req, hreq⟩ := Result.exists_of_isOk (x := UpdateParams.manifold.request .set)
      (by decide +kernel)
    refine ⟨req, hreq, hupdate _ _ req UpdateParams.manifold_plainNames (fun f hf => ?_) hreq⟩
    obtain rfl := Except.ok.inj hf
    exact plain_of_all (by decide +kernel)

end TableGateway
