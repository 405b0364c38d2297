import TableGateway.Proofs.Complete
import TableGateway.Proofs.DisjointClauses

/-!
# Clauses side by side

A request in which several clauses come together says of each token what the clause of the token says.
An update has plain tokens and its condition those of a stem; the same goes for the key of a query and
its filters. There the bounds of a sort key that is called like the stem, but for its last character,
are an exception: their endings complete the stem.
-/
namespace TableGateway

open Entries TableGateway.Tree

namespace Request

/-- The map in a field of a request; empty where there is none. -/
def mapIn (req : Fields) (field : Text) : Fields :=
  match get? req field with
  | some (.map es) => es
  | _ => []

/-- Do the two maps of a request hold the bindings of two clauses, which have no token in common? -/
structure SideBySide (req : Fields) (first second : Bindings) : Prop where
  names : DisjointUnion (mapIn req "ExpressionAttributeNames") first.names second.names
  values : DisjointUnion (mapIn req "ExpressionAttributeValues") first.values second.values

theorem SideBySide.of_apart {req : Fields} {first second : Bindings} (h : first.Apart second)
    (hnames : mapIn req "ExpressionAttributeNames" = first.names ++ second.names)
    (hvalues : mapIn req "ExpressionAttributeValues" = first.values ++ second.values) :
    SideBySide req first second where
  names := hnames ▸ .of_apart h.names
  values := hvalues ▸ .of_apart h.values

theorem mapIn_of_get? {req m : Fields} {field : Text} (h : get? req field = some (.map m)) :
    mapIn req field = m := by
  rw [mapIn, h]

/-- A map that is left out when it is empty. -/
theorem mapIn_of_unless {req m : Fields} {field : Text}
    (h : get? req field = if m ≠ [] then some (.map m) else none) : mapIn req field = m := by
  rw [mapIn, h]
  cases m <;> simp

end Request

/-- Is a value a text that does not begin with a stem? -/
def OutsideText (stem : Text) (v : Value) : Prop := ∃ s, v = .text s ∧ ¬ Begins stem s

namespace UpdateParams

/-- The properties that an update sets, changes, removes or refers to do not begin with a stem. -/
structure Outside (stem : Text) (p : UpdateParams) : Prop where
  set : ∀ es, p.values.entriesOrNone = .ok es → ∀ e ∈ es, e.2.isNull = false → ¬ Begins stem e.1
  changed : ∀ ops, Update.operations p.atomic = .ok ops → ∀ o ∈ ops, ∀ n ∈ o.names, OutsideText stem n
  removed : ∀ vs, p.remove.elementsOrNone = .ok vs → ∀ n ∈ vs, OutsideText stem n

/-- Can all elements of sets that an update adds or deletes be members of a set? -/
def SetsHashable (p : UpdateParams) : Prop :=
  ∀ ops, Update.operations p.atomic = .ok ops → ∀ o ∈ ops, o.change.takesSet →
    Value.allHashable (AtomicOperation.elements o.operand)

end UpdateParams

namespace Update

variable {create : SetMaker} {sets : Fields} {removed : List Value} {ops : List AtomicOperation}

/-- Operations whose sets can be made have their operands. -/
theorem exists_withOperands (h : ∀ o ∈ ops, ∃ v, o.meant create = .ok v) :
    ∃ given, withOperands create ops = .ok given ∧ given.map Prod.fst = ops := by
  induction ops with
  | nil => exact ⟨[], rfl, rfl⟩
  | cons o ops ih =>
    obtain ⟨v, hv⟩ := h o (by simp)
    obtain ⟨given, hgiven, hfst⟩ := ih fun o ho => h o (by simp [ho])
    refine ⟨(o, v) :: given, ?_, by rw [List.map_cons, hfst]⟩
    rw [withOperands] at hgiven ⊢
    rw [List.mapM_cons, hv, hgiven]
    rfl

theorem exists_meant {o : AtomicOperation}
    (hcreate : ∀ vs, Value.allHashable vs → ∃ s, create vs = .ok s)
    (h : o.change.takesSet → Value.allHashable (AtomicOperation.elements o.operand)) :
    ∃ v, o.meant create = .ok v := by
  rw [← AtomicOperation.handedOver_eq, AtomicOperation.handedOver]
  by_cases hset : o.change.takesSet
  · rw [if_pos hset]
    exact hcreate _ (h hset)
  · exact ⟨o.operand, by rw [if_neg hset]⟩

theorem bindOperands_eq {raws : List Value} (h : raws.mapM AtomicOperation.parse = .ok ops)
    {given : List (AtomicOperation × Value)} (hgiven : withOperands create ops = .ok given)
    (hdisplay : ∀ o ∈ ops, o.property.hasDisplay) (target : Fields) :
    bindOperands create target raws = Placeholder.bindAll target (given.map operandBinding) := by
  induction raws generalizing ops given target with
  | nil =>
    obtain rfl : [] = ops := by simpa using h
    obtain rfl : [] = given := by simpa [withOperands] using hgiven
    rfl
  | cons raw raws ih =>
    rw [List.mapM_cons] at h
    obtain ⟨o, ho, h⟩ := Result.bind_eq_ok.mp h
    obtain ⟨ops, hraws, h⟩ := Result.bind_eq_ok.mp h
    obtain rfl := Except.ok.inj h
    rw [withOperands, List.mapM_cons] at hgiven
    obtain ⟨g, hg, hgiven⟩ := Result.bind_eq_ok.mp hgiven
    obtain ⟨v, hv, hg⟩ := Result.bind_eq_ok.mp hg
    obtain rfl := Except.ok.inj hg
    obtain ⟨given, hrest, hgiven⟩ := Result.bind_eq_ok.mp hgiven
    obtain rfl := Except.ok.inj hgiven
    rw [bindOperands, ho, Result.ok_bind, AtomicOperation.handedOver_eq, hv, Result.ok_bind,
      Value.shown, if_pos (hdisplay o (by simp)), Result.ok_bind, List.map_cons, operandBinding,
      Placeholder.bindAll]
    refine congrArg (Except.bind _) (funext fun m => ?_)
    exact ih hraws hrest (fun o ho => hdisplay o (by simp [ho])) m

/-- Names that are texts are bound, each text to its token. -/
theorem exists_names {values remove atomic : Value} (hsets : assignments values = .ok sets)
    (hremoved : removals remove = .ok removed) (hops : operations atomic = .ok ops)
    (htexts : ∀ n ∈ namesOf sets removed ops, ∃ s, n = .text s) :
    ∃ m, names values remove atomic = .ok m ∧ (keys m).Nodup ∧
      ∀ token ∈ keys m, ∃ s, .text s ∈ namesOf sets removed ops ∧ token = Encoder.plain.name s := by
  have hdisplay : (namesOf sets removed ops).all Value.hasDisplay :=
    List.all_eq_true.mpr fun n hn => UpdateParams.hasDisplay_of_text (htexts n hn)
  have hcompatible : ((namesOf sets removed ops).map nameBinding).Pairwise Placeholder.Compatible := by
    refine List.pairwise_map.mpr (List.pairwise_of_forall_mem_list fun n hn n' hn' htoken => ?_)
    obtain ⟨s, rfl⟩ := htexts n hn
    obtain ⟨t, rfl⟩ := htexts n' hn'
    obtain rfl := Encoder.withStem_name_inj htoken
    exact Placeholder.equals_text _
  obtain ⟨m, hbound⟩ := Placeholder.bindAll_ok_of_compatible hcompatible
  refine ⟨m, (names_eq hsets hremoved hops hdisplay).trans hbound,
    Placeholder.nodup_of_bindAll_nil hbound, fun token htoken => ?_⟩
  rw [Placeholder.mem_keys_bindAll hbound] at htoken
  simp only [keys, List.map_nil, List.not_mem_nil, false_or, List.map_map, List.mem_map] at htoken
  obtain ⟨n, hn, rfl⟩ := htoken
  obtain ⟨s, rfl⟩ := htexts n hn
  exact ⟨s, hn, rfl⟩

/-- Operands of properties that differ are bound, each to the token of its property. -/
theorem exists_values {values atomic : Value} (hsets : assignments values = .ok sets)
    (hops : operations atomic = .ok ops) {given : List (AtomicOperation × Value)}
    (hgiven : withOperands create ops = .ok given) (hfst : given.map Prod.fst = ops)
    (htexts : ∀ n ∈ (keys sets).map Value.text ++ ops.map (·.property), ∃ s, n = .text s)
    (hnodup : ((keys sets).map Value.text ++ ops.map (·.property)).Nodup) :
    ∃ m, valuesWith create values atomic = .ok m ∧ (keys m).Nodup ∧
      ∀ token ∈ keys m, ∃ s, .text s ∈ (keys sets).map Value.text ++ ops.map (·.property) ∧
        token = Encoder.plain.value s := by
  let assigned : Fields := sets.map fun e => (Encoder.plain.value e.1, e.2)
  have hkeys : keys (assigned ++ given.map operandBinding) =
      ((keys sets).map Value.text ++ ops.map (·.property)).map fun n =>
        Encoder.plain.value n.display := by
    simp [assigned, ← hfst, keys, operandBinding, Function.comp_def, Value.display]
  have hdistinct : (keys (assigned ++ given.map operandBinding)).Nodup := by
    rw [hkeys]
    exact UpdateParams.nodup_operandTokens htexts hnodup
  have hfirst : (keys assigned).Nodup := by
    rw [keys, List.map_append] at hdistinct
    exact hdistinct.of_append_left
  have hassigned : Placeholder.bindAll [] assigned = .ok assigned :=
    @Placeholder.bindAll_of_nodup [] _ hfirst
  refine ⟨assigned ++ given.map operandBinding, ?_, hdistinct, fun token htoken => ?_⟩
  · obtain ⟨raws, hraws, hparsed⟩ := Result.bind_eq_ok.mp hops
    have hdisplay : ∀ o ∈ ops, o.property.hasDisplay := fun o ho =>
      UpdateParams.hasDisplay_of_text
        (htexts _ (List.mem_append_right _ (List.mem_map_of_mem ho)))
    rw [valuesWith, hsets, Result.ok_bind, hassigned, Result.ok_bind, hraws, Result.ok_bind,
      bindOperands_eq hparsed hgiven hdisplay]
    exact Placeholder.bindAll_of_nodup hdistinct
  · rw [hkeys] at htoken
    obtain ⟨n, hn, rfl⟩ := List.mem_map.mp htoken
    obtain ⟨s, rfl⟩ := htexts n hn
    exact ⟨s, hn, rfl⟩

end Update

namespace UpdateParams

/-- What an update with texts for names is made of, where its sets can be made and its rules are kept. -/
theorem parts_of_validate {create : SetMaker} {p : UpdateParams} {key : Fields} {stem : Text}
    (hkey : p.key = .map key) (hp : p.Outside stem)
    (hcreate : ∀ vs, Value.allHashable vs → ∃ s, create vs = .ok s) (hsets : p.SetsHashable)
    (hvalidate : p.validate = .ok ()) :
    ∃ sets removed given, Update.assignments p.values = .ok sets ∧
      Update.removals p.remove = .ok removed ∧ Update.operations p.atomic = .ok (given.map Prod.fst) ∧
      Update.withOperands create (given.map Prod.fst) = .ok given ∧
      (∀ n ∈ Update.namesOf sets removed (given.map Prod.fst), OutsideText stem n) ∧
      ((keys sets).map Value.text ++ (given.map Prod.fst).map (·.property)).Nodup := by
  rw [validate, hkey] at hvalidate
  obtain ⟨touched, htouched, -, -, hrepeats⟩ := Update.validate_ok hvalidate
  obtain ⟨sets, hassigned, htouched⟩ := Result.bind_eq_ok.mp htouched
  obtain ⟨removed, hremoved, htouched⟩ := Result.bind_eq_ok.mp htouched
  obtain ⟨ops, hops, htouched⟩ := Result.bind_eq_ok.mp htouched
  obtain ⟨given, hgiven, rfl⟩ := Update.exists_withOperands fun o ho =>
    Update.exists_meant hcreate (hsets ops hops o ho)
  have hnames : ∀ n ∈ Update.namesOf sets removed (given.map Prod.fst), OutsideText stem n := by
    intro n hn
    rcases List.mem_append.mp hn with hn | hn
    · rcases List.mem_append.mp hn with hn | hn
      · obtain ⟨s, hs, rfl⟩ := List.mem_map.mp hn
        obtain ⟨e, he, rfl⟩ := List.mem_map.mp hs
        obtain ⟨entries, hentries, hfilter⟩ := Result.bind_eq_ok.mp hassigned
        obtain rfl := Except.ok.inj hfilter
        obtain ⟨he, hnull⟩ := List.mem_filter.mp he
        exact ⟨e.1, rfl, hp.set entries hentries e he (by simpa using hnull)⟩
      · exact hp.removed removed hremoved n hn
    · obtain ⟨o, ho, hn⟩ := List.mem_flatMap.mp hn
      exact hp.changed _ hops o ho n hn
  refine ⟨sets, removed, given, hassigned, hremoved, hops, hgiven, hnames, ?_⟩
  have hdistinct : touched.Nodup := by
    rw [Update.repeats] at hrepeats
    split at hrepeats
    · refine Update.nodup_of_hasRepeats (fun n hn => ?_) (Except.ok.inj hrepeats)
      obtain rfl := Except.ok.inj htouched
      have hnamed : n ∈ Update.namesOf sets removed (given.map Prod.fst) := by
        rcases List.mem_append.mp hn with hn | hn
        · exact List.mem_append_left _ hn
        · obtain ⟨o, ho, rfl⟩ := List.mem_map.mp hn
          refine List.mem_append_right _ (List.mem_flatMap.mpr ⟨o, ho, ?_⟩)
          exact List.mem_cons_self
      obtain ⟨s, hs, -⟩ := hnames n hnamed
      exact ⟨s, hs⟩
    · cases hrepeats
  obtain rfl := Except.ok.inj htouched
  exact hdistinct.sublist ((List.sublist_append_left _ _).append (.refl _))

/-- The update and its condition share no token where no property begins with the stem of conditions,
and the request says of every token what its clause says. -/
theorem request_sideBySide {create : SetMaker} {p : UpdateParams} {key : Fields}
    {condition : Option Clause} (hkey : p.key = .map key) (hp : p.Outside "__condition_")
    (hcreate : ∀ vs, Value.allHashable vs → ∃ s, create vs = .ok s) (hsets : p.SetsHashable)
    (hvalidate : p.validate = .ok ()) (hcondition : conditionClause p.conditions = .ok condition) :
    ∃ names values req, Update.names p.values p.remove p.atomic = .ok names ∧
      Update.valuesWith create p.values p.atomic = .ok values ∧ p.requestWith create = .ok req ∧
      Request.SideBySide req ⟨names, values⟩ (.ofOption condition) := by
  obtain ⟨sets, removed, given, hassigned, hremoved, hops, hgiven, hnames, hdistinct⟩ :=
    parts_of_validate hkey hp hcreate hsets hvalidate
  have htexts : ∀ n ∈ Update.namesOf sets removed (given.map Prod.fst), ∃ s, n = .text s := by
    intro n hn
    obtain ⟨s, hs, -⟩ := hnames n hn
    exact ⟨s, hs⟩
  have hchanged : ∀ n ∈ (keys sets).map Value.text ++ (given.map Prod.fst).map (·.property),
      n ∈ Update.namesOf sets removed (given.map Prod.fst) := by
    intro n hn
    rcases List.mem_append.mp hn with hn | hn
    · exact List.mem_append_left _ (List.mem_append_left _ hn)
    · obtain ⟨o, ho, rfl⟩ := List.mem_map.mp hn
      exact List.mem_append_right _ (List.mem_flatMap.mpr ⟨o, ho, List.mem_cons_self⟩)
  have houtside : ∀ s, .text s ∈ Update.namesOf sets removed (given.map Prod.fst) →
      ¬ Begins "__condition_" s := by
    intro s hs
    obtain ⟨t, ht, hbegins⟩ := hnames _ hs
    obtain rfl := Value.text.inj ht
    exact hbegins
  obtain ⟨names, hmade, hnamesDistinct, hnameTokens⟩ :=
    Update.exists_names hassigned hremoved hops htexts
  obtain ⟨values, hvalues, hvaluesDistinct, hvalueTokens⟩ := Update.exists_values hassigned hops hgiven
    rfl (fun n hn => htexts n (hchanged n hn)) hdistinct
  have hstemmed := stemmed_conditionClause hcondition
  have happart : Bindings.Apart ⟨names, values⟩ (.ofOption condition) := by
    refine hstemmed.apart (fun token htoken => ?_) (fun token htoken => ?_)
    · obtain ⟨s, hs, rfl⟩ := hnameTokens token htoken
      exact ⟨s, rfl, houtside s hs⟩
    · obtain ⟨s, hs, rfl⟩ := hvalueTokens token htoken
      exact ⟨s, rfl, houtside s (hchanged _ hs)⟩
  have hmergeNames := Placeholder.merge_toList (·.names) hnamesDistinct
    (Bindings.ofOption_names condition ▸ hstemmed.names)
    (Bindings.ofOption_names condition ▸ happart.names)
  have hmergeValues := Placeholder.merge_toList (·.values) hvaluesDistinct
    (Bindings.ofOption_values condition ▸ hstemmed.values)
    (Bindings.ofOption_values condition ▸ happart.values)
  have htext := Update.expression_eq hassigned hremoved hops
    (List.all_eq_true.mpr fun n hn => hasDisplay_of_text (htexts n hn))
  have hmap : p.key.toMap = .ok key := by
    rw [hkey]
    rfl
  rw [requestWith, hvalidate, Result.ok_bind, hcondition, Result.ok_bind, hmade, Result.ok_bind,
    hmergeNames, Result.ok_bind, hvalues, Result.ok_bind, hmergeValues, Result.ok_bind, hmap,
    Result.ok_bind, htext, Result.ok_bind]
  refine ⟨names, values, _, rfl, rfl, rfl, .of_apart happart ?_ ?_⟩
  · rw [Bindings.ofOption_names]
    exact Request.mapIn_of_get? (by simp)
  · rw [Bindings.ofOption_values]
    refine Request.mapIn_of_unless ?_
    have hcondition : get? (condition.map fun c =>
        (("ConditionExpression" : Text), Value.text c.expression)).toList
          "ExpressionAttributeValues" = none := by
      cases condition <;> simp
    have hreturned : get? (if p.returnUpdated.truthy then
        ([("ReturnValues", .text "UPDATED_NEW")] : Fields) else []) "ExpressionAttributeValues" =
          none := by
      split <;> simp
    rw [get?_append, get?_append, get?_append, hcondition, hreturned]
    cases values ++ condition.elim [] (·.values) <;> simp

end UpdateParams

namespace Projection

/-- Texts are projected to under tokens of their own. -/
theorem exists_clause_of_texts (names : List Text) :
    ∃ c, clause (names.map .text) = .ok c ∧ (Bindings.ofClause c).Stemmed "__projection_" := by
  have hdisplay : (names.map Value.text).all Value.hasDisplay := by
    simp [Value.hasDisplay]
  obtain ⟨m, hm⟩ := Placeholder.bindNames_texts (Placeholder.namesTexts_nil Encoder.ofProjection) names
  have hbound := hm
  rw [Placeholder.bindNames_eq _ _ hdisplay] at hbound
  refine ⟨⟨text (names.map .text), m, []⟩, ?_, ⟨Placeholder.nodup_of_bindAll_nil hbound, .nil⟩, ?_, ?_⟩
  · rw [clause, Encoder.ofProjection, hm]
    rfl
  · intro token htoken
    rw [Bindings.ofClause, Placeholder.mem_keys_bindAll hbound] at htoken
    simp only [keys, List.map_nil, List.not_mem_nil, false_or, List.map_map, List.mem_map] at htoken
    obtain ⟨s, -, rfl⟩ := htoken
    exact Encoder.begins_name "__projection_" _
  · simp [Bindings.ofClause, keys]

theorem exists_read_of_texts {properties : Value} {names : List Text}
    (h : properties.elementsOrNone = .ok (names.map .text)) :
    ∃ c, read properties = .ok c ∧ (Bindings.ofOption c).Stemmed "__projection_" := by
  rw [Value.elementsOrNone] at h
  rw [read]
  by_cases htruthy : properties.truthy
  · rw [if_pos htruthy] at h ⊢
    obtain ⟨c, hc, hstemmed⟩ := exists_clause_of_texts names
    exact ⟨some c, by rw [h, Result.ok_bind, hc]; rfl, hstemmed⟩
  · rw [if_neg htruthy]
    exact ⟨none, rfl, Bindings.stemmed_empty _⟩

end Projection

namespace ListOptions

/-- The filters and the projection of a scan share no token, whatever the properties are called. -/
theorem request_sideBySide {table : Value} {o : ListOptions} {filter : Option Clause}
    {names : List Text} (hfilter : Filter.clause o.filters = .ok filter)
    (hnames : o.properties.elementsOrNone = .ok (names.map .text))
    (htoken : ∃ start, startField o.token = .ok start) :
    ∃ projection req, Projection.read o.properties = .ok projection ∧ o.request table = .ok req ∧
      Request.SideBySide req (.ofOption filter) (.ofOption projection) := by
  obtain ⟨start, hstart⟩ := htoken
  obtain ⟨projection, hprojection, hprojected⟩ := Projection.exists_read_of_texts hnames
  have hfiltered := stemmed_filterClause hfilter
  have happart := hfiltered.apart_of_stems hprojected (by decide) (by decide)
  let bindings : Bindings := ⟨(Bindings.ofOption filter).names ++ (Bindings.ofOption projection).names,
    (Bindings.ofOption filter).values ++ (Bindings.ofOption projection).values⟩
  have hfirst : Bindings.empty.add filter = .ok (.ofOption filter) :=
    Bindings.add_of_apart Bindings.distinct_empty hfiltered.toDistinct (Bindings.empty_apart _)
  have hboth : (Bindings.ofOption filter).add projection = .ok bindings :=
    Bindings.add_of_apart hfiltered.toDistinct hprojected.toDistinct happart
  have hreq : o.request table = .ok (o.fieldsOf table bindings filter projection ++ start) := by
    rw [request, hfilter, Result.ok_bind, hfirst, Result.ok_bind, hprojection, Result.ok_bind, hboth,
      Result.ok_bind, hstart]
    rfl
  refine ⟨projection, _, hprojection, hreq, .of_apart happart ?_ ?_⟩
  · refine Request.mapIn_of_unless ?_
    rw [get?_clauseField table o bindings filter projection hstart (by decide)]
    simp [get?_nameFields, get?_valueFields, get?_expressionField, bindings]
  · refine Request.mapIn_of_unless ?_
    rw [get?_clauseField table o bindings filter projection hstart (by decide)]
    simp [get?_nameFields, get?_valueFields, get?_expressionField, bindings]

end ListOptions

/-- Where two rows agree that have a separator, the last one of the one row is that of the other or stands
further on. -/
theorem cut_or_begins {α : Type} {a : α} {p q x y : List α} (hx : a ∉ x)
    (h : p ++ a :: x = q ++ a :: y) : q ++ [a] <+: p ∨ p = q ∧ x = y := by
  rcases List.append_eq_append_iff.mp h with ⟨r, rfl, hr⟩ | ⟨r, rfl, hr⟩ <;> cases r <;> simp_all

/-- An operand has a plain token in front of which the stem of filters stands only where it is a bound
of an attribute `__filter`, and then it has the token of a single operand of a filter. -/
theorem bound_meets {c d : Condition} {ending ending' : Text}
    (hc : c.test.operation.onRangeKey = true) (hname : ¬ Begins "__filter_" c.property.display)
    (hending : ending ∈ c.test.endings) (hending' : ending' ∈ d.test.endings)
    (h : Encoder.plain.value c.property.display ++ ending =
      Encoder.ofFilter.value d.property.display ++ ending') :
    c.test.operation = .between ∧ c.property.display = "__filter" ∧
      (∃ how v, d.test = .compare how v) ∧
      (d.property.display = "start" ∨ d.property.display = "end") := by
  have hlist : c.property.display.toList ++ ending.toList =
      ("__filter" : Text).toList ++ .char '_' :: (d.property.display.toList ++ ending'.toList) := by
    have hchars := congrArg Text.toList h
    simpa [Encoder.value, Encoder.token, Encoder.plain, Encoder.ofFilter, Encoder.withStem] using hchars
  rcases Test.compare_or_between hc with ⟨how, v, hcompare⟩ | ⟨low, high, hbetween⟩
  · obtain rfl : ending = "" := by simpa [hcompare, Test.endings] using hending
    refine absurd ?_ hname
    exact ⟨d.property.display.toList ++ ending'.toList, by simpa using hlist.symm⟩
  · obtain ⟨body, hbody, hunderscore⟩ : ∃ body : Text, (body = "start" ∨ body = "end") ∧
        ending.toList = .char '_' :: body.toList := by
      simp only [hbetween, Test.endings, List.mem_cons, List.not_mem_nil, or_false] at hending
      rcases hending with rfl | rfl
      · exact ⟨"start", .inl rfl, rfl⟩
      · exact ⟨"end", .inr rfl, rfl⟩
    have hfree : Letter.char '_' ∉ body.toList := by
      rcases hbody with rfl | rfl <;> simp
    rw [hunderscore] at hlist
    rcases cut_or_begins hfree hlist with hbegins | ⟨hfilter, hrest⟩
    · exact absurd hbegins hname
    · refine ⟨by rw [hbetween]; rfl, Text.toList_inj.mp hfilter, ?_⟩
      rcases Test.ending_cases hending' with ⟨how, v, hcompare, rfl⟩ | ⟨more, -, hmore⟩
      · have hproperty : body = d.property.display := Text.toList_inj.mp (by simpa using hrest)
        exact ⟨⟨how, v, hcompare⟩, hproperty ▸ hbody⟩
      · rw [hrest, hmore] at hfree
        simp at hfree

namespace QueryParams

/-- Is the sort key called `__filter` and asked for between two bounds, while the filters ask with a
single operand for a property `start` or `end`? -/
def BoundsMeetFilters (p : QueryParams) : Prop :=
  (∃ k, RangeKey.ofRecord p.rangeKey = .ok k ∧ k.operation = .between ∧ k.name.display = "__filter") ∧
    ∃ cs, Filter.conditions p.filters = .ok cs ∧ ∃ d ∈ leavesAll (Forest.ofRecords cs).trees,
      (∃ how v, d.test = .compare how v) ∧
        (d.property.display = "start" ∨ d.property.display = "end")

section SideBySide

variable {p : QueryParams} {ts : List Tree} {key : Clause} {filter : Option Clause}

theorem boundsMeet_of_shared (hts : p.keyConditions = .ok ts) (hkey : Tree.compile .plain ts = .ok key)
    (hfilter : Filter.clause p.filters = .ok filter)
    (hnames : ∀ n ∈ propertiesAll ts, ¬ Begins "__filter_" n.display) {token : Text}
    (hleft : token ∈ keys key.values) (hright : token ∈ keys (Bindings.ofOption filter).values) :
    p.BoundsMeetFilters := by
  obtain ⟨c, hc, ending, hending, rfl⟩ :=
    (Forest.mem_values_of_compile (Forest.compile_trees hkey)).mp hleft
  obtain ⟨cs, hcs, ⟨-, rfl⟩ | ⟨clause, rfl, hclause⟩⟩ := Filter.clause_cases hfilter
  · simp [Bindings.ofOption, Bindings.empty, keys] at hright
  · obtain ⟨d, hd, ending', hending', htoken⟩ := (Forest.mem_values_of_compile hclause).mp hright
    obtain ⟨partition, more, ⟨v, hv⟩, hleaves, hmore⟩ := leaves_keyConditions hts
    have hname := hnames c.property (List.mem_map_of_mem hc)
    rw [hleaves] at hc
    rcases List.mem_cons.mp hc with rfl | hc
    · have hbound := bound_meets (by rw [hv]; rfl) hname hending hending' htoken
      rw [hv] at hbound
      cases hbound.1
    · obtain ⟨-, rfl⟩ | ⟨k, c', hk, rfl, hproperty, hoperation, hsort⟩ := hmore
      · cases hc
      · obtain rfl := List.mem_singleton.mp hc
        obtain ⟨hbetween, hstem, hsingle, hmet⟩ :=
          bound_meets (by rw [hoperation, hsort]) hname hending hending' htoken
        refine ⟨⟨k, hk, hoperation ▸ hbetween, hproperty ▸ hstem⟩, cs, hcs, d, hd, hsingle, hmet⟩

theorem shared_of_boundsMeet (hts : p.keyConditions = .ok ts) (hkey : Tree.compile .plain ts = .ok key)
    (hfilter : Filter.clause p.filters = .ok filter) (h : p.BoundsMeetFilters) :
    ∃ token ∈ keys key.values, token ∈ keys (Bindings.ofOption filter).values := by
  obtain ⟨⟨k, hk, hbetween, hstem⟩, cs, hcs, d, hd, ⟨how, v, hsingle⟩, hmet⟩ := h
  obtain ⟨partition, more, -, hleaves, ⟨hnone, -⟩ | ⟨k', c, hk', rfl, hproperty, hoperation, -⟩⟩ :=
    leaves_keyConditions hts
  · rw [hk] at hnone
    cases hnone
  obtain rfl : k = k' := Except.ok.inj (hk.symm.trans hk')
  have hname : c.property.display = "__filter" := by rw [hproperty, hstem]
  have hendings : c.test.endings = ["_start", "_end"] := by
    rcases Test.compare_or_between (t := c.test) (by rw [hoperation, hbetween]; rfl) with
      ⟨how', w, hc⟩ | ⟨low, high, hc⟩
    · rw [hc, hbetween] at hoperation
      cases how' <;> cases hoperation
    · rw [hc]
      rfl
  obtain ⟨cs', hcs', ⟨rfl, -⟩ | ⟨clause, rfl, hclause⟩⟩ := Filter.clause_cases hfilter
  · obtain rfl := Except.ok.inj (hcs.symm.trans hcs')
    simp [Forest.ofRecords, Forest.readTrees, leavesAll] at hd
  obtain rfl := Except.ok.inj (hcs.symm.trans hcs')
  have hleaf : c ∈ leavesAll ts := by simp [hleaves]
  refine ⟨Encoder.ofFilter.value d.property.display,
    (Forest.mem_values_of_compile (Forest.compile_trees hkey)).mpr ?_,
    (Forest.mem_values_of_compile hclause).mpr ⟨d, hd, "", by simp [hsingle, Test.endings], by simp⟩⟩
  rcases hmet with hmet | hmet
  · exact ⟨c, hleaf, "_start", by simp [hendings], by rw [hname, hmet]; rfl⟩
  · exact ⟨c, hleaf, "_end", by simp [hendings], by rw [hname, hmet]; rfl⟩

/-- The key and the filters of a query share no token, unless the bounds of a sort key are taken for
operands of filters. -/
theorem request_sideBySide_iff (hts : p.keyConditions = .ok ts)
    (hkey : Tree.compile .plain ts = .ok key) (hfilter : Filter.clause p.filters = .ok filter)
    (hnames : ∀ n ∈ propertiesAll ts, ¬ Begins "__filter_" n.display)
    (htoken : ∃ start, startField p.token = .ok start) :
    (∃ req, p.request = .ok req ∧ Request.SideBySide req (.ofClause key) (.ofOption filter)) ↔
      ¬ p.BoundsMeetFilters := by
  constructor
  · rintro ⟨req, -, hside⟩ hmeet
    obtain ⟨token, hleft, hright⟩ := shared_of_boundsMeet hts hkey hfilter hmeet
    exact hside.values.apart token hleft hright
  · intro hmeet
    obtain ⟨start, hstart⟩ := htoken
    have hfiltered := stemmed_filterClause hfilter
    have happart : (Bindings.ofClause key).Apart (.ofOption filter) := by
      refine ⟨fun token hleft hright => ?_, fun token hleft hright => ?_⟩
      · obtain ⟨c, hc, rfl⟩ := Forest.mem_names_of_compile (Forest.compile_trees hkey) hleft
        exact hnames c.property (List.mem_map_of_mem hc)
          (Encoder.begins_plain_name.mp (hfiltered.namesBegin _ hright))
      · exact hmeet (boundsMeet_of_shared hts hkey hfilter hnames hleft hright)
    let bindings : Bindings := ⟨key.names ++ (Bindings.ofOption filter).names,
      key.values ++ (Bindings.ofOption filter).values⟩
    have hbindings : (Bindings.ofClause key).add filter = .ok bindings :=
      Bindings.add_of_apart (Forest.distinct_of_compile (Forest.compile_trees hkey))
        hfiltered.toDistinct happart
    have hreq : p.request = .ok (p.fieldsOf key bindings filter ++ start) := by
      rw [request, hts, Result.ok_bind, hkey, Result.ok_bind, hfilter, Result.ok_bind, hbindings,
        Result.ok_bind, hstart]
      rfl
    refine ⟨_, hreq, .of_apart happart ?_ ?_⟩
    · refine Request.mapIn_of_unless ?_
      rw [get?_clauseField p key bindings filter hstart (by decide)]
      simp [get?_nameFields, get?_expressionField, bindings, Bindings.ofClause]
    · refine Request.mapIn_of_get? ?_
      rw [get?_clauseField p key bindings filter hstart (by decide)]
      simp [get?_nameFields, bindings, Bindings.ofClause]

end SideBySide

end QueryParams

theorem exists_start {token : Value} (h : token.truthy → ∃ key, Token.decode token = .ok key) :
    ∃ start, startField token = .ok start := by
  rw [startField]
  split
  · rename_i htruthy
    obtain ⟨key, hkey⟩ := h htruthy
    exact ⟨_, by rw [hkey]; rfl⟩
  · exact ⟨[], rfl⟩

/-- An update that keeps its rules and its condition, of which no property begins with the stem of
conditions, make a request in which they stand side by side. So do the key of a query and its filters,
where no attribute of the key begins with the stem of filters, but for one case: the bounds of an
attribute `__filter` and single operands for `start` or `end`. The filters and the projection of a scan
always do. -/
theorem clauses_side_by_side :
    (∀ (create : SetMaker) (p : UpdateParams) (key : Fields) (condition : Option Clause),
      p.key = .map key → p.Outside "__condition_" →
      (∀ vs, Value.allHashable vs → ∃ s, create vs = .ok s) → p.SetsHashable →
      p.validate = .ok () → conditionClause p.conditions = .ok condition →
      ∃ names values req, Update.names p.values p.remove p.atomic = .ok names ∧
        Update.valuesWith create p.values p.atomic = .ok values ∧ p.requestWith create = .ok req ∧
        Request.SideBySide req ⟨names, values⟩ (.ofOption condition)) ∧
    (∀ (p : QueryParams) (ts : List Tree) (key : Clause) (filter : Option Clause),
      p.keyConditions = .ok ts → Tree.compile .plain ts = .ok key →
      Filter.clause p.filters = .ok filter →
      (∀ n ∈ propertiesAll ts, ¬ Begins "__filter_" n.display) →
      (p.token.truthy → ∃ k, Token.decode p.token = .ok k) →
      ((∃ req, p.request = .ok req ∧
        Request.SideBySide req (.ofClause key) (.ofOption filter)) ↔ ¬ p.BoundsMeetFilters)) ∧
    ∀ (table : Value) (o : ListOptions) (filter : Option Clause) (names : List Text),
      Filter.clause o.filters = .ok filter → o.properties.elementsOrNone = .ok (names.map .text) →
      (o.token.truthy → ∃ k, Token.decode o.token = .ok k) →
      ∃ projection req, Projection.read o.properties = .ok projection ∧ o.request table = .ok req ∧
        Request.SideBySide req (.ofOption filter) (.ofOption projection) := by
  refine ⟨fun create p key condition hkey hp hcreate hsets hvalidate hcondition => ?_,
    fun p ts key filter hts hkey hfilter hnames htoken => ?_,
    fun table o filter names hfilter hnames htoken => ?_⟩
  · exact UpdateParams.request_sideBySide hkey hp hcreate hsets hvalidate hcondition
  · exact QueryParams.request_sideBySide_iff hts hkey hfilter hnames (exists_start htoken)
  · exact ListOptions.request_sideBySide hfilter hnames (exists_start htoken)

/-- A query between two bounds of an attribute `__filter`, with a filter on `start`. -/
def crossed : QueryParams where
  table := .text "t"
  partitionKey := .record .partitionKey [.text "id", .text "a"]
  rangeKey := .record .rangeKey
    [.text "__filter", .text "between", .null, .int 1, .int 2]
  index := .null
  order := .text "ASC"
  token := .null
  limit := .null
  fullRetrieval := .bool true
  filters := .map [("start", .int 5)]

theorem crossed_collides :
    crossed.request = .error (.refused (.collision ":__filter_start")) ∧
      ¬ ∀ (p : QueryParams) (ts : List Tree) (key : Clause) (filter : Option Clause),
        p.keyConditions = .ok ts → Tree.compile .plain ts = .ok key →
        Filter.clause p.filters = .ok filter →
        (∀ n ∈ propertiesAll ts, ¬ Begins "__filter_" n.display) →
        (p.token.truthy → ∃ k, Token.decode p.token = .ok k) →
        ∃ req, p.request = .ok req ∧
          Request.SideBySide req (.ofClause key) (.ofOption filter) := by
  have hcollides : crossed.request = .error (.refused (.collision ":__filter_start")) := by rfl
  refine ⟨hcollides, fun h => ?_⟩
  obtain ⟨key, hkey⟩ := Result.exists_of_isOk
    (x := crossed.keyConditions >>= Tree.compile .plain) (by decide +kernel)
  obtain ⟨ts, hts, hkey⟩ := Result.bind_eq_ok.mp hkey
  obtain ⟨filter, hfilter⟩ := Result.exists_of_isOk (x := Filter.clause crossed.filters)
    (by decide +kernel)
  have hnames : ∀ n ∈ propertiesAll ts, ¬ Begins "__filter_" n.display := by
    obtain rfl := Except.ok.inj hts
    decide
  obtain ⟨req, hreq, -⟩ := h crossed ts key filter hts hkey hfilter hnames fun htoken => nomatch htoken
  rw [hcollides] at hreq
  cases hreq

namespace UpdateParams

theorem manifold_outside : manifold.Outside "__condition_" where
  set es hes := by
    obtain rfl := Except.ok.inj hes
    decide
  changed ops hops := by
    obtain rfl := Except.ok.inj (manifold_operations.symm.trans hops)
    simp only [List.forall_mem_cons]
    simp [AtomicOperation.names, AtomicOperation.otherSource?, Value.truthy, OutsideText]
    decide
  removed vs hvs := by
    obtain rfl := Except.ok.inj hvs
    simp [OutsideText]
    decide

theorem manifold_setsHashable : manifold.SetsHashable := by
  intro ops hops
  obtain rfl := Except.ok.inj (manifold_operations.symm.trans hops)
  decide

end UpdateParams

/-- The same bounds with a filter for which the token of a bound would need a further ending. -/
def uncrossed : QueryParams := { crossed with filters := .map [("start", .list [.int 5])] }

theorem uncrossed_apart : ¬ uncrossed.BoundsMeetFilters := by
  rintro ⟨-, cs, hcs, d, hd, ⟨how, v, hsingle⟩, -⟩
  have hmembers : ∀ d ∈ leavesAll (Forest.ofRecords cs).trees, d.test.operation = .oneOf := by
    obtain rfl := Except.ok.inj hcs
    decide +kernel
  have hoperation := hmembers d hd
  rw [hsingle] at hoperation
  cases how <;> cases hoperation

/-- A filter and a projection with the same property. -/
def both : ListOptions :=
  { ListOptions.default with
    filters := .map [("name", .text "x")]
    properties := .list [.text "name", .text "__filter_name"] }

theorem clauses_side_by_side_samples :
    (∃ names values req, Update.names UpdateParams.manifold.values UpdateParams.manifold.remove
        UpdateParams.manifold.atomic = .ok names ∧
      Update.valuesWith SetShape.set.build UpdateParams.manifold.values
        UpdateParams.manifold.atomic = .ok values ∧
      UpdateParams.manifold.requestWith SetShape.set.build = .ok req ∧
      ∃ condition, conditionClause UpdateParams.manifold.conditions = .ok condition ∧
        Request.SideBySide req ⟨names, values⟩ (.ofOption condition)) ∧
    (∃ key filter req, uncrossed.request = .ok req ∧
      Request.SideBySide req (.ofClause key) (.ofOption filter)) ∧
    ∃ filter projection req, both.request (.text "t") = .ok req ∧
      Request.SideBySide req (.ofOption filter) (.ofOption projection) := by
  obtain ⟨hupdate, hquery, hscan⟩ := clauses_side_by_side
  refine ⟨?_, ?_, ?_⟩
  · obtain ⟨condition, hcondition⟩ := Result.exists_of_isOk
      (x := conditionClause UpdateParams.manifold.conditions) (by decide +kernel)
    obtain ⟨names, values, req, hnames, hvalues, hreq, hside⟩ := hupdate SetShape.set.build
      UpdateParams.manifold [("id", .text "1")] condition rfl UpdateParams.manifold_outside
      (fun vs hvs => ⟨_, if_pos hvs⟩) UpdateParams.manifold_setsHashable (by rfl) hcondition
    exact ⟨names, values, req, hnames, hvalues, hreq, condition, hcondition, hside⟩
  · obtain ⟨key, hkey⟩ := Result.exists_of_isOk
      (x := uncrossed.keyConditions >>= Tree.compile .plain) (by decide +kernel)
    obtain ⟨ts, hts, hkey⟩ := Result.bind_eq_ok.mp hkey
    obtain ⟨filter, hfilter⟩ := Result.exists_of_isOk (x := Filter.clause uncrossed.filters)
      (by decide +kernel)
    have hnames : ∀ n ∈ propertiesAll ts, ¬ Begins "__filter_" n.display := by
      obtain rfl := Except.ok.inj hts
      decide
    obtain ⟨req, hreq, hside⟩ := (hquery uncrossed ts key filter hts hkey hfilter hnames
      fun htoken => nomatch htoken).mpr uncrossed_apart
    exact ⟨key, filter, req, hreq, hside⟩
  · obtain ⟨filter, hfilter⟩ := Result.exists_of_isOk (x := Filter.clause both.filters)
      (by decide +kernel)
    obtain ⟨projection, req, -, hreq, hside⟩ := hscan (.text "t") both filter ["name", "__filter_name"]
      hfilter rfl fun htoken => nomatch htoken
    exact ⟨filter, projection, req, hreq, hside⟩

end TableGateway
