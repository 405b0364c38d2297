import Mathlib.Data.List.Nodup
import TableGateway.Proofs.Bindings
import TableGateway.Proofs.Projection
import TableGateway.Proofs.UpdateText
import TableGateway.Request.Item

/-!
# Update requests

The expression of an update request, read with the two maps of the request, says what the update asks
for. Tokens of the update are bound before those of its conditions, so a token of a name stands for
that name, and that of an operand for the operand of the one part that changes its property.
-/
namespace TableGateway

open Entries Grammar

namespace Update

/-- What the token of a name is bound to. -/
def nameBinding (n : Value) : Text × Value := (Encoder.plain.name n.display, n)

/-- What the token of the operand of an operation is bound to. -/
def operandBinding (g : AtomicOperation × Value) : Text × Value :=
  (Encoder.plain.value g.1.property.display, g.2)

theorem bindOperationNames_eq {raws : List Value} {ops : List AtomicOperation}
    (h : raws.mapM AtomicOperation.parse = .ok ops) (hops : ∀ o ∈ ops, o.names.all Value.hasDisplay)
    (target : Fields) :
    bindOperationNames target raws =
      Placeholder.bindAll target ((ops.flatMap (·.names)).map nameBinding) := by
  induction raws generalizing ops target with
  | nil =>
    obtain rfl : [] = ops := by simpa using h
    rfl
  | cons raw raws ih =>
    rw [List.mapM_cons] at h
    obtain ⟨o, ho, h⟩ := Result.bind_eq_ok.mp h
    obtain ⟨ops, hraws, h⟩ := Result.bind_eq_ok.mp h
    obtain rfl := Except.ok.inj h
    rw [bindOperationNames, ho, Result.ok_bind, List.flatMap_cons, List.map_append,
      Placeholder.bindAll_append, Placeholder.bindNames_eq _ _ (hops o (by simp))]
    refine congrArg (Except.bind _) (funext fun m => ?_)
    exact ih hraws (fun o ho => hops o (by simp [ho])) m

/-- Operations with their operands. -/
def withOperands (create : SetMaker) (ops : List AtomicOperation) :
    Result (List (AtomicOperation × Value)) :=
  ops.mapM fun o => do return (o, ← o.meant create)

theorem bindOperands_ok {create : SetMaker} {raws : List Value} {ops : List AtomicOperation}
    (h : raws.mapM AtomicOperation.parse = .ok ops) {target m : Fields}
    (hm : bindOperands create target raws = .ok m) :
    ∃ given, withOperands create ops = .ok given ∧ given.map Prod.fst = ops ∧
      Placeholder.bindAll target (given.map operandBinding) = .ok m := by
  induction raws generalizing ops target with
  | nil =>
    obtain rfl : [] = ops := by simpa using h
    exact ⟨[], rfl, rfl, hm⟩
  | cons raw raws ih =>
    rw [List.mapM_cons] at h
    obtain ⟨o, ho, h⟩ := Result.bind_eq_ok.mp h
    obtain ⟨ops, hraws, h⟩ := Result.bind_eq_ok.mp h
    obtain rfl := Except.ok.inj h
    rw [bindOperands, ho, Result.ok_bind, AtomicOperation.handedOver_eq] at hm
    obtain ⟨v, hv, hm⟩ := Result.bind_eq_ok.mp hm
    obtain ⟨property, hproperty, hm⟩ := Result.bind_eq_ok.mp hm
    obtain ⟨next, hnext, hm⟩ := Result.bind_eq_ok.mp hm
    obtain ⟨given, hgiven, hfst, hbind⟩ := ih hraws hm
    obtain rfl : o.property.display = property := by
      rw [Value.shown] at hproperty
      split at hproperty
      · exact Except.ok.inj hproperty
      · cases hproperty
    refine ⟨(o, v) :: given, ?_, by rw [List.map_cons, hfst], ?_⟩
    · rw [withOperands] at hgiven ⊢
      rw [List.mapM_cons, hv, hgiven]
      rfl
    · rw [List.map_cons, operandBinding, Placeholder.bindAll, hnext, Result.ok_bind, hbind]

/-- Where an expression can be written it is that of the operations, all of which have texts. -/
theorem mapM_writable {raws : List Value} {ops : List AtomicOperation}
    (h : raws.mapM AtomicOperation.parse = .ok ops)
    (hops : ∀ o ∈ ops, o.names.all Value.hasDisplay) :
    raws.mapM AtomicOperation.writable = .ok ops := by
  induction raws generalizing ops with
  | nil => exact h
  | cons raw raws ih =>
    rw [List.mapM_cons] at h
    obtain ⟨o, ho, h⟩ := Result.bind_eq_ok.mp h
    obtain ⟨ops, hraws, h⟩ := Result.bind_eq_ok.mp h
    obtain rfl := Except.ok.inj h
    rw [List.mapM_cons, AtomicOperation.writable, ho, Result.ok_bind, if_pos (hops o (by simp)),
      ih hraws fun o ho => hops o (by simp [ho])]
    rfl

/-- The names that are looked up by an update: what it sets, what it removes and what operations name. -/
def namesOf (sets : Fields) (removed : List Value) (ops : List AtomicOperation) : List Value :=
  (keys sets).map .text ++ removed ++ ops.flatMap (·.names)

theorem names_eq {values remove atomic : Value} {sets : Fields} {removed : List Value}
    {ops : List AtomicOperation} (hsets : assignments values = .ok sets)
    (hremoved : removals remove = .ok removed) (hops : operations atomic = .ok ops)
    (hdisplay : (namesOf sets removed ops).all Value.hasDisplay) :
    names values remove atomic =
      Placeholder.bindAll [] ((namesOf sets removed ops).map nameBinding) := by
  rw [operations] at hops
  obtain ⟨raws, hraws, hops⟩ := Result.bind_eq_ok.mp hops
  simp only [namesOf, List.all_append, Bool.and_eq_true, List.all_flatMap] at hdisplay
  obtain ⟨⟨hkeys, hremove⟩, hnames⟩ := hdisplay
  rw [names, hsets, Result.ok_bind, Placeholder.bindNames_eq _ _ hkeys, hremoved, namesOf,
    List.map_append, List.map_append, Placeholder.bindAll_append, Placeholder.bindAll_append,
    bind_assoc]
  refine congrArg (Except.bind _) (funext fun m => ?_)
  rw [Result.ok_bind, Placeholder.bindNames_eq _ _ hremove]
  refine congrArg (Except.bind _) (funext fun m => ?_)
  rw [hraws, Result.ok_bind]
  exact bindOperationNames_eq hops (List.all_eq_true.mp hnames) m

theorem values_ok {create : SetMaker} {values atomic : Value} {sets : Fields}
    {ops : List AtomicOperation} {m : Fields} (hsets : assignments values = .ok sets)
    (hops : operations atomic = .ok ops) (h : Update.valuesWith create values atomic = .ok m) :
    ∃ given, withOperands create ops = .ok given ∧ given.map Prod.fst = ops ∧
      Placeholder.bindAll [] (sets.map (fun e => (Encoder.plain.value e.1, e.2))
        ++ given.map operandBinding) = .ok m := by
  rw [operations] at hops
  obtain ⟨raws, hraws, hops⟩ := Result.bind_eq_ok.mp hops
  rw [Update.valuesWith, hsets, Result.ok_bind] at h
  obtain ⟨bound, hbound, h⟩ := Result.bind_eq_ok.mp h
  rw [hraws, Result.ok_bind] at h
  obtain ⟨given, hgiven, hfst, hbind⟩ := bindOperands_ok hops h
  exact ⟨given, hgiven, hfst, by rw [Placeholder.bindAll_append, hbound, Result.ok_bind, hbind]⟩

theorem expression_eq {values remove atomic : Value} {sets : Fields} {removed : List Value}
    {ops : List AtomicOperation} (hsets : assignments values = .ok sets)
    (hremoved : removals remove = .ok removed) (hops : operations atomic = .ok ops)
    (hdisplay : (namesOf sets removed ops).all Value.hasDisplay) :
    expression values remove atomic = .ok (clauses sets ops removed).text := by
  rw [operations] at hops
  obtain ⟨raws, hraws, hops⟩ := Result.bind_eq_ok.mp hops
  simp only [namesOf, List.all_append, Bool.and_eq_true, List.all_flatMap] at hdisplay
  obtain ⟨⟨-, hremove⟩, hnames⟩ := hdisplay
  rw [expression, hsets, Result.ok_bind, hraws, Result.ok_bind,
    mapM_writable hops (List.all_eq_true.mp hnames), Result.ok_bind, hremoved, Result.ok_bind,
    if_pos hremove]
  rfl

theorem expression_ok {values remove atomic : Value} {sets : Fields} {removed : List Value}
    {ops : List AtomicOperation} {text : Text} (hsets : assignments values = .ok sets)
    (hremoved : removals remove = .ok removed) (hops : operations atomic = .ok ops)
    (hdisplay : (namesOf sets removed ops).all Value.hasDisplay)
    (h : expression values remove atomic = .ok text) : text = (clauses sets ops removed).text := by
  rw [expression_eq hsets hremoved hops hdisplay] at h
  exact (Except.ok.inj h).symm

theorem anyM_contains_eq (key : Fields) {vs : List Value} (h : ∀ v ∈ vs, v.hashable) :
    vs.anyM (Value.map key).contains = .ok (vs.any fun v => v.text?.any (has key)) := by
  induction vs with
  | nil => rfl
  | cons v vs ih =>
    obtain ⟨hv, hvs⟩ := List.forall_mem_cons.mp h
    have hfirst : (Value.map key).contains v = .ok (v.text?.any (has key)) := if_pos hv
    rw [List.anyM, hfirst, Result.ok_bind, ih hvs, List.any_cons]
    cases v.text?.any (has key) <;> rfl

theorem any_has_iff (key : Fields) (vs : List Value) :
    (vs.any fun v => v.text?.any (has key)) ↔ ∃ name ∈ keys key, .text name ∈ vs := by
  simp only [List.any_eq_true, Option.any_eq_true, has_iff_mem_keys]
  constructor
  · rintro ⟨v, hv, name, hname, hkey⟩
    cases v <;> simp [Value.text?] at hname
    exact ⟨name, hkey, hname ▸ hv⟩
  · rintro ⟨name, hkey, hname⟩
    exact ⟨.text name, hname, name, rfl, hkey⟩

theorem anyM_contains {key : Fields} {names : List Value} (htexts : ∀ n ∈ names, PlainText n)
    (h : names.anyM (Value.map key).contains = .ok false) :
    ∀ n ∈ names, ∃ s, n = .text s ∧ s ∉ keys key := by
  intro n hn
  obtain ⟨s, rfl, -⟩ := htexts n hn
  have hhashable : ∀ v ∈ names, v.hashable := by
    intro v hv
    obtain ⟨t, rfl, -⟩ := htexts v hv
    rfl
  rw [anyM_contains_eq key hhashable] at h
  refine ⟨s, rfl, fun hs => ?_⟩
  have hany := (any_has_iff key names).mpr ⟨s, hs, hn⟩
  exact absurd (hany.symm.trans (Except.ok.inj h)) (by simp)

theorem nodup_of_hasRepeats {names : List Value} (htexts : ∀ n ∈ names, ∃ s, n = .text s)
    (h : hasRepeats names = false) : names.Nodup := by
  induction names with
  | nil => simp
  | cons n names ih =>
    rw [hasRepeats, Bool.or_eq_false_iff] at h
    refine List.nodup_cons.mpr ⟨fun hn => ?_, ih (fun n hn => htexts n (by simp [hn])) h.2⟩
    obtain ⟨s, rfl⟩ := htexts n (by simp)
    have hsame := List.any_eq_false.mp h.1 _ hn
    exact hsame (by simp [Value.same])

/-- A rule that is kept lets the check go on. -/
theorem kept_of_ok {c : Prop} [Decidable c] {flaw : UpdateFlaw} {go : Unit → Result Unit}
    (h : (if c then (do let r ← refuseFlaw flaw; go r) else go ()) = .ok ()) :
    ¬c ∧ go () = .ok () := by
  split at h
  · cases h
  · rename_i hc
    exact ⟨hc, h⟩

theorem touched_of_validate {key values remove atomic conditions : Value}
    (h : validate key values remove atomic conditions = .ok ()) :
    ∃ names, touched values remove atomic = .ok names := by
  rw [validate] at h
  obtain ⟨count, -, h⟩ := Result.bind_eq_ok.mp h
  obtain ⟨-, h⟩ := kept_of_ok h
  obtain ⟨names, hnames, -⟩ := Result.bind_eq_ok.mp h
  exact ⟨names, hnames⟩

/-- What a validated update touches. -/
theorem validate_ok {key : Fields} {values remove atomic conditions : Value}
    (h : validate (.map key) values remove atomic conditions = .ok ()) :
    ∃ names, touched values remove atomic = .ok names ∧ names ≠ [] ∧
      names.anyM (Value.map key).contains = .ok false ∧ repeats names = .ok false := by
  rw [validate] at h
  obtain ⟨count, -, h⟩ := Result.bind_eq_ok.mp h
  obtain ⟨-, h⟩ := kept_of_ok h
  obtain ⟨names, hnames, h⟩ := Result.bind_eq_ok.mp h
  obtain ⟨hne, h⟩ := kept_of_ok h
  obtain ⟨inKey, hkey, h⟩ := Result.bind_eq_ok.mp h
  obtain ⟨hinKey, h⟩ := kept_of_ok h
  obtain ⟨repeated, hrepeats, h⟩ := Result.bind_eq_ok.mp h
  obtain ⟨hrepeated, -⟩ := kept_of_ok h
  refine ⟨names, hnames, by simpa using hne, ?_, ?_⟩
  · rw [hkey, eq_false_of_ne_true hinKey]
  · rw [hrepeats, eq_false_of_ne_true hrepeated]

end Update

namespace UpdateParams

/-- The properties and references of an update are texts that are plain. -/
structure PlainNames (p : UpdateParams) : Prop where
  set : ∀ es, p.values.entriesOrNone = .ok es → ∀ e ∈ es, e.2.isNull = false → Plain e.1
  changed : ∀ ops, Update.operations p.atomic = .ok ops → ∀ o ∈ ops, o.PlainNames
  removed : ∀ vs, p.remove.elementsOrNone = .ok vs → ∀ n ∈ vs, PlainText n

/-- What a field of a request says of a token. -/
def lookUp (req : Fields) (field token : Text) : Option Value :=
  match get? req field with
  | some (.map es) => get? es token
  | _ => none

/-- The attribute that the token of a name stands for in a request. -/
def nameIn (req : Fields) (n : PlainName) : Option Value :=
  lookUp req "ExpressionAttributeNames" ("#" ++ n.text)

/-- The operand that a token stands for in a request. -/
def valueIn (req : Fields) (v : PlainName) : Option Value :=
  lookUp req "ExpressionAttributeValues" (":" ++ v.text)

/-- The steps of a request that is made. -/
theorem request_ok {create : SetMaker} {p : UpdateParams} {req : Fields}
    (h : p.requestWith create = .ok req) :
    ∃ updateNames moreNames updateValues moreValues names values text,
      p.validate = .ok () ∧
      Update.names p.values p.remove p.atomic = .ok updateNames ∧
      Placeholder.merge (updateNames :: moreNames) = .ok names ∧
      Update.valuesWith create p.values p.atomic = .ok updateValues ∧
      Placeholder.merge (updateValues :: moreValues) = .ok values ∧
      Update.expression p.values p.remove p.atomic = .ok text ∧
      get? req "UpdateExpression" = some (.text text) ∧
      (∀ token, lookUp req "ExpressionAttributeNames" token = get? names token) ∧
      (∀ token, lookUp req "ExpressionAttributeValues" token = get? values token) := by
  rw [requestWith] at h
  obtain ⟨_, hvalidate, h⟩ := Result.bind_eq_ok.mp h
  obtain ⟨condition, -, h⟩ := Result.bind_eq_ok.mp h
  obtain ⟨updateNames, hnames, h⟩ := Result.bind_eq_ok.mp h
  obtain ⟨names, hmergeNames, h⟩ := Result.bind_eq_ok.mp h
  obtain ⟨updateValues, hvalues, h⟩ := Result.bind_eq_ok.mp h
  obtain ⟨values, hmergeValues, h⟩ := Result.bind_eq_ok.mp h
  obtain ⟨key, -, h⟩ := Result.bind_eq_ok.mp h
  obtain ⟨text, htext, h⟩ := Result.bind_eq_ok.mp h
  obtain rfl := Except.ok.inj h
  refine ⟨_, _, _, _, names, values, text, hvalidate, hnames, hmergeNames, hvalues, hmergeValues,
    htext, by simp, by simp [lookUp], fun token => ?_⟩
  cases values with
  | cons e es => simp [lookUp]
  | nil =>
    cases condition <;> by_cases hr : p.returnUpdated.truthy <;> simp [lookUp, hr]

theorem text_of {s : Text} (h : Plain s) : (PlainName.of s).text = s :=
  Text.toList_inj.mp (chars_of h)

theorem get?_merge {bs first m : Fields} {rest : List Fields}
    (hfirst : Placeholder.bindAll [] bs = .ok first)
    (hm : Placeholder.merge (first :: rest) = .ok m) {token : Text} {v : Value}
    (hv : get? bs token = some v) : get? m token = some v := by
  rw [Placeholder.get?_bindAll hm, List.nil_append, List.flatten_cons, get?_append,
    Placeholder.get?_bindAll hfirst, List.nil_append, hv, Option.some_or]

/-- A token of a name stands for that name wherever it is bound. -/
theorem get?_nameBindings {names : List Value} (htexts : ∀ n ∈ names, PlainText n) {s : Text}
    (hs : .text s ∈ names) :
    get? (names.map Update.nameBinding) (Encoder.plain.name s) = some (.text s) := by
  induction names with
  | nil => simp at hs
  | cons n names ih =>
    obtain ⟨t, rfl, -⟩ := htexts n (by simp)
    rw [List.map_cons, Update.nameBinding, get?_cons]
    split
    · rename_i heq
      exact congrArg (some <| Value.text ·) (Encoder.withStem_name_inj heq)
    · rename_i hne
      rcases List.mem_cons.mp hs with heq | hs
      · obtain rfl := Value.text.inj heq
        exact absurd rfl hne
      · exact ih (fun n hn => htexts n (by simp [hn])) hs

/-- Properties that differ have operand tokens that differ. -/
theorem nodup_operandTokens {properties : List Value} (htexts : ∀ n ∈ properties, ∃ s, n = .text s)
    (h : properties.Nodup) :
    (properties.map fun n => Encoder.plain.value n.display).Nodup := by
  refine List.Nodup.map_on (fun n hn m hm heq => ?_) h
  obtain ⟨s, rfl⟩ := htexts n hn
  obtain ⟨t, rfl⟩ := htexts m hm
  have hlist := congrArg Text.toList heq
  simpa [Encoder.plain, Encoder.value, Encoder.withStem, Encoder.token, Value.display,
    Text.toList_inj] using hlist

theorem plain_name (s : Text) : Encoder.plain.name s = "#" ++ s := by
  simp [Encoder.plain]

theorem plain_value (s : Text) : Encoder.plain.value s = ":" ++ s := by
  simp [Encoder.plain, Encoder.value, Encoder.withStem, Encoder.token]

theorem hasDisplay_of_text {n : Value} (h : ∃ s, n = .text s) : n.hasDisplay := by
  obtain ⟨s, rfl⟩ := h
  rfl

/-- The parts of an update with plain names: what it sets, the operations, their operands and what it
removes. -/
structure Parts (create : SetMaker) (p : UpdateParams) where
  sets : Fields
  given : List (AtomicOperation × Value)
  removed : List Value
  assigned : Update.assignments p.values = .ok sets
  operated : Update.operations p.atomic = .ok (given.map Prod.fst)
  taken : Update.removals p.remove = .ok removed
  completed : Update.withOperands create (given.map Prod.fst) = .ok given
  plainSets : ∀ e ∈ sets, Plain e.1
  plainGiven : ∀ g ∈ given, g.1.PlainNames
  plainRemoved : ∀ n ∈ removed, PlainText n

namespace Parts

variable {create : SetMaker} {p : UpdateParams} (parts : Parts create p)

def touched : List Value :=
  (keys parts.sets).map .text ++ parts.removed ++ parts.given.map fun g => g.1.property

def names : List Value := Update.namesOf parts.sets parts.removed (parts.given.map Prod.fst)

def operands : Fields :=
  parts.sets.map (fun e => (Encoder.plain.value e.1, e.2)) ++ parts.given.map Update.operandBinding

theorem touched_eq : Update.touched p.values p.remove p.atomic = .ok parts.touched := by
  rw [Update.touched, parts.assigned, Result.ok_bind, parts.taken, Result.ok_bind, parts.operated,
    Result.ok_bind, touched]
  simp

theorem plain_keys : ∀ n ∈ (keys parts.sets).map Value.text, PlainText n := by
  intro n hn
  obtain ⟨s, hs, rfl⟩ := List.mem_map.mp hn
  obtain ⟨e, he, rfl⟩ := List.mem_map.mp hs
  exact ⟨e.1, rfl, parts.plainSets e he⟩

theorem plain_touched : ∀ n ∈ parts.touched, PlainText n := by
  intro n hn
  rcases List.mem_append.mp hn with hn | hn
  · rcases List.mem_append.mp hn with hn | hn
    · exact parts.plain_keys n hn
    · exact parts.plainRemoved n hn
  · obtain ⟨g, hg, rfl⟩ := List.mem_map.mp hn
    exact (parts.plainGiven g hg).property

theorem plain_names : ∀ n ∈ parts.names, PlainText n := by
  intro n hn
  rcases List.mem_append.mp hn with hn | hn
  · rcases List.mem_append.mp hn with hn | hn
    · exact parts.plain_keys n hn
    · exact parts.plainRemoved n hn
  · obtain ⟨o, ho, hn⟩ := List.mem_flatMap.mp hn
    obtain ⟨g, hg, rfl⟩ := List.mem_map.mp ho
    exact parts.plainGiven g hg n hn

theorem display : parts.names.all Value.hasDisplay :=
  List.all_eq_true.mpr fun n hn => hasDisplay_of_text (parts.plain_names n hn).text

theorem asked_eq : Update.asked create p.values p.remove p.atomic =
    .ok (Update.sections parts.sets parts.given parts.removed) := by
  obtain ⟨entries, hentries, hsets⟩ := Result.bind_eq_ok.mp parts.assigned
  have htaken : p.remove.elementsOrNone = .ok parts.removed := parts.taken
  have hcompleted : (parts.given.map Prod.fst).mapM (fun o => do return (o, ← o.meant create)) =
      .ok parts.given := parts.completed
  rw [Update.asked, hentries, Result.ok_bind, parts.operated, Result.ok_bind, hcompleted,
    Result.ok_bind, htaken, ← Except.ok.inj hsets]
  rfl

theorem keys_operands : keys parts.operands =
    ((keys parts.sets).map Value.text ++ parts.given.map fun g => g.1.property).map fun n =>
      Encoder.plain.value n.display := by
  simp [operands, keys, Update.operandBinding, Function.comp_def, Value.display]

/-- Where nothing is touched twice no token has two operands. -/
theorem nodup_operands (h : parts.touched.Nodup) : (keys parts.operands).Nodup := by
  rw [keys_operands]
  have hsub : ((keys parts.sets).map Value.text ++ parts.given.map fun g => g.1.property).Sublist
      parts.touched := (List.sublist_append_left _ _).append (.refl _)
  exact nodup_operandTokens (fun n hn => (parts.plain_touched n (hsub.subset hn)).text) (h.sublist hsub)

end Parts

/-- An update with plain names of which a request is made has its parts. -/
theorem exists_parts {create : SetMaker} {p : UpdateParams} (hp : p.PlainNames) {names : List Value}
    (hnames : Update.touched p.values p.remove p.atomic = .ok names) {values : Fields}
    (hvalues : Update.valuesWith create p.values p.atomic = .ok values) :
    ∃ parts : Parts create p, Placeholder.bindAll [] parts.operands = .ok values := by
  rw [Update.touched] at hnames
  obtain ⟨sets, hsets, hnames⟩ := Result.bind_eq_ok.mp hnames
  obtain ⟨removed, hremoved, hnames⟩ := Result.bind_eq_ok.mp hnames
  obtain ⟨ops, hops, -⟩ := Result.bind_eq_ok.mp hnames
  obtain ⟨given, hgiven, rfl, hbind⟩ := Update.values_ok hsets hops hvalues
  refine ⟨⟨sets, given, removed, hsets, hops, hremoved, hgiven, fun e he => ?_, fun g hg => ?_,
    hp.removed removed hremoved⟩, hbind⟩
  · obtain ⟨entries, hentries, hfilter⟩ := Result.bind_eq_ok.mp hsets
    obtain rfl := Except.ok.inj hfilter
    obtain ⟨he, hnull⟩ := List.mem_filter.mp he
    exact hp.set entries hentries e he (by simpa using hnull)
  · exact hp.changed _ hops g.1 (List.mem_map.mpr ⟨g, hg, rfl⟩)

/-- What the expression of an update says in terms of tokens. -/
def Parts.tokens {create : SetMaker} {p : UpdateParams} (parts : Parts create p) :
    List (Section PlainName PlainName) :=
  (Update.sections parts.sets parts.given parts.removed).map (Section.map nameBody operandBody)

section Resolution

variable {create : SetMaker} {p : UpdateParams} (parts : Parts create p) {req names values : Fields}

theorem nameIn_of_mem
    (hreq : ∀ token, lookUp req "ExpressionAttributeNames" token = get? names token)
    (hbound : ∀ {token v}, get? (parts.names.map Update.nameBinding) token = some v →
      get? names token = some v) {n : Value} (hn : n ∈ parts.names) :
    nameIn req (nameBody n) = some n := by
  obtain ⟨s, rfl, hs⟩ := parts.plain_names n hn
  have hbinding := get?_nameBindings parts.plain_names hn
  have htext : (nameBody (.text s)).text = s := text_of hs
  rw [nameIn, htext, hreq, ← plain_name, hbound hbinding]

theorem valueIn_of_mem (hnodup : parts.touched.Nodup)
    (hreq : ∀ token, lookUp req "ExpressionAttributeValues" token = get? values token)
    (hbound : ∀ {token v}, get? parts.operands token = some v → get? values token = some v)
    {n v : Value} (hn : PlainText n) (hv : (Encoder.plain.value n.display, v) ∈ parts.operands) :
    valueIn req (operandBody ⟨n, v⟩) = some v := by
  obtain ⟨s, rfl, hs⟩ := hn
  have hbinding := get?_of_mem (parts.nodup_operands hnodup) hv
  have htext : (operandBody ⟨.text s, v⟩).text = s := text_of hs
  rw [valueIn, htext, hreq, ← plain_value]
  exact hbound hbinding

/-- The tokens of the parts stand for the names and the operands. -/
theorem tokens_resolved
    (hname : ∀ n ∈ parts.names, nameIn req (nameBody n) = some n)
    (hvalue : ∀ {n v}, PlainText n → (Encoder.plain.value n.display, v) ∈ parts.operands →
      valueIn req (operandBody ⟨n, v⟩) = some v) :
    parts.tokens.map (Section.map (nameIn req) (valueIn req)) =
      (Update.sections parts.sets parts.given parts.removed).map
        (Section.map some fun o => some o.value) := by
  rw [Parts.tokens, List.map_map]
  simp only [Function.comp_def, Section.map_map]
  refine sections_congr (fun e he => ⟨?_, ?_⟩) (fun g hg => ⟨?_, fun hc => ?_, ?_⟩) fun n hn => ?_
  · refine hname _ (List.mem_append_left _ (List.mem_append_left _ ?_))
    exact List.mem_map.mpr ⟨e.1, List.mem_map.mpr ⟨e, he, rfl⟩, rfl⟩
  · refine hvalue ⟨e.1, rfl, parts.plainSets e he⟩ (List.mem_append_left _ ?_)
    exact List.mem_map.mpr ⟨e, he, rfl⟩
  · refine hname _ (List.mem_append_right _ ?_)
    exact List.mem_flatMap.mpr ⟨g.1, List.mem_map.mpr ⟨g, hg, rfl⟩, by simp [AtomicOperation.names]⟩
  · refine hname _ (List.mem_append_right _ ?_)
    refine List.mem_flatMap.mpr ⟨g.1, List.mem_map.mpr ⟨g, hg, rfl⟩, ?_⟩
    rw [← AtomicOperation.reference_eq hc, AtomicOperation.names, AtomicOperation.reference]
    cases g.1.otherSource? <;> simp
  · refine hvalue (parts.plainGiven g hg).property (List.mem_append_right _ ?_)
    exact List.mem_map.mpr ⟨g, hg, rfl⟩
  · exact hname n (List.mem_append_left _ (List.mem_append_right _ hn))

end Resolution

theorem map_keyword {ν ω ν' ω' : Type} (f : ν → ν') (g : ω → ω') (ss : List (Section ν ω)) :
    (ss.map (Section.map f g)).map Section.keyword = ss.map Section.keyword := by
  rw [List.map_map]
  refine List.map_congr_left fun s _ => ?_
  cases s <;> rfl

theorem sectionsChars_ne_nil {ss : List (Section PlainName PlainName)} (h : ss ≠ []) :
    sectionsChars ss ≠ [] := by
  cases ss with
  | nil => exact absurd rfl h
  | cons s ss => exact section_ne_nil s _

/-- The expression of an update request is not empty and has one reading, as sections of four kinds in
their order, each at most once. Read with the two maps of the request it says what the update asks
for, in which no attribute is changed twice and none that is in the key. -/
theorem request_says_what_is_asked {create : SetMaker} {p : UpdateParams} {key req : Fields}
    (hkey : p.key = .map key) (hp : p.PlainNames) (h : p.requestWith create = .ok req) :
    ∃ text parse asked,
      get? req "UpdateExpression" = some (.text text) ∧ text ≠ "" ∧
      sectionsChars parse = text.toList ∧ (∀ q, sectionsChars q = text.toList → q = parse) ∧
      (parse.map Section.keyword).Sublist ["SET", "ADD", "DELETE", "REMOVE"] ∧
      Update.asked create p.values p.remove p.atomic = .ok asked ∧
      parse.map (Section.map (nameIn req) (valueIn req)) =
        asked.map (Section.map some fun o => some o.value) ∧
      (asked.flatMap Section.targets).Nodup ∧
      ∀ n ∈ asked.flatMap Section.targets, ∃ s, n = .text s ∧ s ∉ keys key := by
  obtain ⟨updateNames, moreNames, updateValues, moreValues, names, values, text, hvalidate, hnames,
    hmergeNames, hvalues, hmergeValues, htext, hfield, hreqNames, hreqValues⟩ := request_ok h
  rw [validate, hkey] at hvalidate
  obtain ⟨touched, htouched, hne, hinKey, hrepeats⟩ := Update.validate_ok hvalidate
  obtain ⟨parts, hoperands⟩ := exists_parts hp htouched hvalues
  obtain rfl : parts.touched = touched := Except.ok.inj (parts.touched_eq.symm.trans htouched)
  have hnodup : parts.touched.Nodup := by
    rw [Update.repeats] at hrepeats
    split at hrepeats
    · exact Update.nodup_of_hasRepeats (fun n hn => (parts.plain_touched n hn).text)
        (Except.ok.inj hrepeats)
    · cases hrepeats
  -- The maps of the condition are merged in behind those of the update and change nothing in them.
  have hnamesBound : Placeholder.bindAll [] (parts.names.map Update.nameBinding) = .ok updateNames :=
    (Update.names_eq parts.assigned parts.taken parts.operated parts.display).symm.trans hnames
  have hresolved := tokens_resolved parts
    (fun n hn => nameIn_of_mem parts hreqNames (get?_merge hnamesBound hmergeNames) hn)
    (fun hn hv => valueIn_of_mem parts hnodup hreqValues (get?_merge hoperands hmergeValues) hn hv)
  have hchars := clauses_chars parts.plainSets parts.plainGiven parts.plainRemoved
  obtain rfl := Update.expression_ok parts.assigned parts.taken parts.operated parts.display htext
  have htargets := sections_targets parts.sets parts.given parts.removed
  have hempty : parts.tokens ≠ [] := by
    intro hnil
    rw [Parts.tokens, List.map_eq_nil_iff] at hnil
    rw [hnil] at htargets
    exact hne htargets.nil_eq.symm
  refine ⟨_, parts.tokens, _, hfield, fun hblank => ?_, hchars.symm,
    fun q hq => sections_unique (hq.trans hchars), ?_, parts.asked_eq, hresolved,
    htargets.nodup_iff.mpr hnodup, fun n hn => ?_⟩
  · rw [hblank] at hchars
    exact sectionsChars_ne_nil hempty hchars.symm
  · rw [Parts.tokens, map_keyword]
    exact sections_keywords parts.sets parts.given parts.removed
  · exact Update.anyM_contains parts.plain_touched hinKey n (htargets.mem_iff.mp hn)

/-- An update with all kinds of changes and a condition. -/
def manifold : UpdateParams where
  table := .text "t"
  key := .map [("id", .text "1")]
  values := .map [("name", .text "x"), ("gone", .null), ("count", .int 0)]
  remove := .list [.text "old"]
  atomic := .list [
    .record .atomicOperation [.text "sum", .text "sum", .int 2, .text "not read"],
    .record .atomicOperation [.text "first", .text "set_if_not_exists", .int 1, .text "second"],
    .record .atomicOperation [.text "tags", .text "add_to_set", .list [.text "a", .text "b"], .null],
    .record .atomicOperation [.text "marks", .text "remove_from_set", .text "m", .null],
    .map [("property", .text "left"), ("type", .text "subtract"), ("value", .int 3)]]
  conditions := .list [.record .condition
    [.text "name", .text "exists", .null, .null, .null, .null, .text "and"]]
  returnUpdated := .bool true

theorem manifold_operations : Update.operations manifold.atomic = .ok [
    ⟨.text "sum", .sum, .int 2, .text "not read"⟩,
    ⟨.text "first", .setIfNotExists, .int 1, .text "second"⟩,
    ⟨.text "tags", .addToSet, .list [.text "a", .text "b"], .null⟩,
    ⟨.text "marks", .removeFromSet, .text "m", .null⟩,
    ⟨.text "left", .subtract, .int 3, .null⟩] := by
  rfl

theorem manifold_plainNames : manifold.PlainNames where
  set es hes := by
    obtain rfl := Except.ok.inj hes
    simp only [List.forall_mem_cons]
    simp [Plain, isMark]
  changed ops hops := by
    obtain rfl := Except.ok.inj (manifold_operations.symm.trans hops)
    simp [AtomicOperation.PlainNames, AtomicOperation.names, AtomicOperation.otherSource?,
      Value.truthy, PlainText, Plain, isMark]
  removed vs hvs := by
    obtain rfl := Except.ok.inj hvs
    simp [PlainText, Plain, isMark]

/-- The operands of its request: what is added to a set and taken from one is a set each. -/
def manifoldOperands : Fields := [
  (":name", .text "x"), (":count", .int 0), (":sum", .int 2), (":first", .int 1),
  (":tags", .set false [.text "a", .text "b"]), (":marks", .set false [.text "m"]),
  (":left", .int 3)]

theorem manifold_operands : (get? · "ExpressionAttributeValues") <$>
    manifold.requestWith SetShape.set.build = .ok (some (.map manifoldOperands)) := by
  rfl

theorem request_says_what_is_asked_manifold : manifold.key = .map [("id", .text "1")] ∧
    manifold.PlainNames ∧ ∃ req, manifold.requestWith SetShape.set.build = .ok req ∧
    get? req "ExpressionAttributeValues" = some (.map manifoldOperands) ∧ ∃ text parse asked,
      get? req "UpdateExpression" = some (.text text) ∧ text ≠ "" ∧
      sectionsChars parse = text.toList ∧ (∀ q, sectionsChars q = text.toList → q = parse) ∧
      Update.asked SetShape.set.build manifold.values manifold.remove manifold.atomic = .ok asked ∧
      parse.map (Section.map (nameIn req) (valueIn req)) =
        asked.map (Section.map some fun o => some o.value) ∧
      (asked.flatMap Section.targets).Nodup := by
  have hoperands := manifold_operands
  cases hreq : manifold.requestWith SetShape.set.build with
  | error fault => simp [hreq] at hoperands
  | ok req =>
    obtain ⟨text, parse, asked, hfield, hne, hparse, honly, -, hasked, hresolved, hnodup, -⟩ :=
      request_says_what_is_asked rfl manifold_plainNames hreq
    exact ⟨rfl, manifold_plainNames, req, rfl, by simpa [hreq] using hoperands, text, parse, asked,
      hfield, hne, hparse, honly, hasked, hresolved, hnodup⟩

end UpdateParams

end TableGateway
