import TableGateway.Proofs.Exchange
import TableGateway.Proofs.Normal
import TableGateway.Session.Executor

/-!
# The low-level image of a client

The low-level image of a client takes requests in which attribute values are marshalled and answers in
the same form; in between it asks the client itself. An executor of the low-level target that asks the
image does what an executor of the other target does that asks the client, as long as attribute values
are normal. An answer comes back with a row of unprocessed keys even where it had none.
-/
namespace TableGateway

open Entries Marshalling

namespace Marshalling

/-- The fields of a request, each with its value read by its name. -/
def eachField (f : Text → Value → Result Value) : Fields → Result Fields
  | [] => .ok []
  | (k, v) :: es => do
    let w ← f k v
    return (k, w) :: (← eachField f es)

/-- A field of a marshalled request that is not its list of actions. -/
def unmarshalField (k : Text) (v : Value) : Result Value :=
  if valueMaps.contains k then unmarshalMap v
  else if k = "RequestItems" then unmarshalTables unmarshalTable v
  else .ok v

def unmarshalBody (v : Value) : Result Value := do
  return .map (← eachField unmarshalField (← v.entries))

def unmarshalAction (v : Value) : Result Value := do
  return .map (← mapEntries unmarshalBody (← v.entries))

def unmarshalActions (v : Value) : Result Value := do
  return .list (← (← v.elements).mapM unmarshalAction)

/-- The request that a marshalled one stands for. -/
def unmarshalRequest (r : Fields) : Result Fields :=
  eachField (fun k v => if k = actionsField then unmarshalActions v else unmarshalField k v) r

def marshalItems (v : Value) : Result Value := do
  return .list (← (← v.elements).mapM marshalMap)

/-- One table's part of the unprocessed keys, which need not say any. -/
def marshalPart (v : Value) : Result Value := do
  let es ← v.entries
  match get? es keysField with
  | none => return v
  | some keys => return .map (put es keysField (← marshalItems keys))

/-- The fields of an answer that are maps of attribute values. -/
def replyMaps : List Text := ["Item", "Attributes", "LastEvaluatedKey"]

/-- A field of an answer read by its name; an empty map and empty tables of keys stay as they are. -/
def readReplyField (map items tables left : Value → Result Value) (k : Text) (v : Value) :
    Result Value :=
  if replyMaps.contains k then if v.truthy then map v else .ok v
  else if k = "Items" then items v
  else if k = "Responses" then tables v
  else if k = "UnprocessedKeys" then if v.truthy then left v else .ok v
  else .ok v

/-- An answer in the form in which a low-level client gives it. -/
def marshalReply (r : Fields) : Result Fields :=
  eachField (readReplyField marshalMap marshalItems (unmarshalTables marshalItems)
    (unmarshalTables marshalPart)) r

end Marshalling

/-- The client that speaks the low-level form for another one. -/
def Client.lowLevel {σ : Type} (client : Client σ) : Client σ where
  answer call s :=
    match unmarshalRequest call.request with
    | .error f => (.error f, s)
    | .ok request =>
      let (reply, s') := client.answer ⟨call.method, request⟩ s
      (reply >>= marshalReply, s')

namespace Marshalling

section Back

/-- Where each field comes back from two readings, the fields do. -/
theorem eachField_back {f g : Text → Value → Result Value} {h : Text → Value → Value}
    {r : Fields} (hback : ∀ e ∈ r, (f e.1 e.2 >>= g e.1) = .ok (h e.1 e.2)) :
    (eachField f r >>= eachField g) = .ok (r.map fun e => (e.1, h e.1 e.2)) := by
  induction r with
  | nil => rfl
  | cons e r ih =>
    obtain ⟨k, v⟩ := e
    obtain ⟨w, hw, hgw⟩ := Result.bind_eq_ok.mp (hback (k, v) (by simp))
    obtain ⟨s, hs, hgs⟩ := Result.bind_eq_ok.mp (ih fun e he => hback e (by simp [he]))
    simp only at hw hgw
    simp [eachField, hw, hs, hgw, hgs]

theorem mapEntries_eq (f : Value → Result Value) (es : Fields) :
    mapEntries f es = eachField (fun _ => f) es := by
  induction es with
  | nil => rfl
  | cons e es ih => rw [mapEntries, eachField, ih]

theorem mapEntries_back {f g : Value → Result Value} {h : Value → Value} {es : Fields}
    (hback : ∀ e ∈ es, (f e.2 >>= g) = .ok (h e.2)) :
    (mapEntries f es >>= mapEntries g) = .ok (mapValues h es) := by
  have heq (k : Value → Result Value) : mapEntries k = eachField fun _ => k :=
    funext (mapEntries_eq k)
  rw [heq, heq]
  exact eachField_back (f := fun _ => f) (g := fun _ => g) (h := fun _ => h) hback

theorem tables_back {f g : Value → Result Value} {h : Value → Value} {es : Fields}
    (hback : ∀ e ∈ es, (f e.2 >>= g) = .ok (h e.2)) :
    (unmarshalTables f (.map es) >>= unmarshalTables g) = .ok (.map (mapValues h es)) := by
  obtain ⟨fs, hfs, hgs⟩ := Result.bind_eq_ok.mp (mapEntries_back hback)
  simp [unmarshalTables, Value.entries, hfs, hgs]

theorem items_back {v : Value} (h : v.NormalRow) : (marshalItems v >>= unmarshalAll) = .ok v := by
  obtain ⟨vs, rfl, hvs⟩ := h
  have hback := Result.mapM_back fun w hw => unmarshalMap_back (hvs w hw)
  obtain ⟨ms, hms, hback⟩ := Result.bind_eq_ok.mp hback
  simp only [marshalItems, unmarshalAll, Value.elements, Value.elements?, hms, hback, Result.ok_bind,
    Result.pure_eq, List.map_id']

end Back

section Requests

/-- One table's part of a request for many keys, all of them normal. -/
def NormalPart (v : Value) : Prop :=
  ∃ es keys, v = .map es ∧ get? es keysField = some keys ∧ keys.NormalRow

/-- Does a field of a request hold normal values, if it holds attribute values at all? -/
structure NormalField (e : Text × Value) : Prop where
  values : e.1 ∈ valueMaps → e.2.NormalMap
  tables : e.1 = "RequestItems" → ∃ es, e.2 = .map es ∧ ∀ part ∈ es, NormalPart part.2

/-- A request without actions, with normal values in its fields. -/
def NormalFields (r : Fields) : Prop := ∀ e ∈ r, NormalField e ∧ e.1 ≠ actionsField

/-- An action with normal values in the fields of its body. -/
def NormalAction (v : Value) : Prop :=
  ∃ es, v = .map es ∧ ∀ e ∈ es, ∃ body, e.2 = .map body ∧ NormalFields body

/-- A request with normal values in its fields and in those of its actions. -/
def NormalRequest (r : Fields) : Prop :=
  ∀ e ∈ r, NormalField e ∧
    (e.1 = actionsField → ∃ vs, e.2 = .list vs ∧ ∀ v ∈ vs, NormalAction v)

theorem part_back {v : Value} (h : NormalPart v) : (marshalTable v >>= unmarshalTable) = .ok v := by
  obtain ⟨es, _, rfl, hkeys, keys, rfl, hnormal⟩ := h
  obtain ⟨ms, hms, hback⟩ := Result.bind_eq_ok.mp
    (Result.mapM_back fun k hk => unmarshalMap_back (hnormal k hk))
  rw [List.map_id'] at hback
  rw [marshalTable, hkeys]
  simp only [Value.elements, Value.elements?, hms, Result.ok_bind, Result.pure_eq, unmarshalTable,
    Value.entries, get?_put, if_true, Option.getD_some, hback, put_put, put_of_get? hkeys]

theorem field_back {k : Text} {v : Value} (h : NormalField (k, v)) :
    (marshalField k v >>= unmarshalField k) = .ok v := by
  by_cases hvalues : k ∈ valueMaps
  · have hcontains : valueMaps.contains k = true := by simpa using hvalues
    have heq : unmarshalField k = unmarshalMap := by
      funext w
      rw [unmarshalField, if_pos hcontains]
    rw [marshalField, if_pos hcontains, heq]
    exact unmarshalMap_back (h.values hvalues)
  · have hcontains : ¬valueMaps.contains k = true := by simpa using hvalues
    by_cases htables : k = "RequestItems"
    · obtain ⟨es, hes, hparts⟩ := h.tables htables
      have heq : unmarshalField k = unmarshalTables unmarshalTable := by
        funext w
        rw [unmarshalField, if_neg hcontains, if_pos htables]
      have hmarshal : marshalTables v = unmarshalTables marshalTable v := rfl
      rw [marshalField, if_neg hcontains, if_pos htables, heq, hmarshal]
      obtain rfl : v = .map es := hes
      have hback := tables_back (h := id) fun e he => part_back (hparts e he)
      simpa [mapValues] using hback
    · rw [marshalField, if_neg hcontains, if_neg htables, Result.ok_bind, unmarshalField,
        if_neg hcontains, if_neg htables]

/-- A field of a request, which may be its list of actions. -/
def marshalAny (k : Text) (v : Value) : Result Value :=
  if k = actionsField then marshalActions v else marshalField k v

theorem marshalFields_eq (es : Fields) :
    marshalFields es = es.map fun e => (e.1, marshalAny e.1 e.2) := by
  induction es with
  | nil => rfl
  | cons e es ih => rw [marshalFields, ih, List.map_cons, marshalAny]

/-- Where all fields can be marshalled, they are. -/
theorem settle_eq {es : Fields} (h : ∀ e ∈ es, ∃ w, marshalAny e.1 e.2 = .ok w) :
    settle (marshalFields es) = eachField marshalAny es := by
  have hnone : requestOrder.findSome? (faultIn? (marshalFields es)) = none := by
    rw [List.findSome?_eq_none_iff]
    intro key _
    rw [faultIn?]
    split
    · rename_i f hf
      rw [marshalFields_eq] at hf
      obtain ⟨e, he, heq⟩ := List.mem_map.mp (mem_of_get? hf)
      obtain ⟨w, hw⟩ := h e he
      rw [hw] at heq
      cases heq
    · rfl
  rw [settle, hnone]
  clear hnone
  rw [marshalFields_eq]
  induction es with
  | nil => rfl
  | cons e es ih =>
    obtain ⟨w, hw⟩ := h e (by simp)
    have hes := ih fun f hf => h f (by simp [hf])
    simp only [List.map_cons, hw, List.filterMap_cons, Except.toOption, Option.map_some, eachField,
      Result.ok_bind, ← hes, Result.pure_eq]

/-- Where all fields come back, the request does. -/
theorem settle_back {g : Text → Value → Result Value} {es : Fields}
    (h : ∀ e ∈ es, (marshalAny e.1 e.2 >>= g e.1) = .ok e.2) :
    (settle (marshalFields es) >>= eachField g) = .ok es := by
  have hok : ∀ e ∈ es, ∃ w, marshalAny e.1 e.2 = .ok w := by
    intro e he
    obtain ⟨w, hw, -⟩ := Result.bind_eq_ok.mp (h e he)
    exact ⟨w, hw⟩
  rw [settle_eq hok]
  simpa using eachField_back (h := fun _ v => v) h

theorem body_back {es : Fields} (hes : NormalFields es) :
    (marshalBody (.map es) >>= unmarshalBody) = .ok (.map es) := by
  have hfields : ∀ e ∈ es, (marshalAny e.1 e.2 >>= unmarshalField e.1) = .ok e.2 := by
    intro e he
    rw [marshalAny, if_neg (hes e he).2]
    exact field_back (hes e he).1
  obtain ⟨fs, hfs, hback⟩ := Result.bind_eq_ok.mp (settle_back hfields)
  rw [marshalBody, hfs]
  simp [unmarshalBody, Value.entries, hback]

theorem marshalBodies_eq (es : Fields) : marshalBodies es = mapEntries marshalBody es := by
  induction es with
  | nil => rfl
  | cons e es ih => rw [marshalBodies, mapEntries, ih]

theorem action_back {v : Value} (h : NormalAction v) :
    (marshalAction v >>= unmarshalAction) = .ok v := by
  obtain ⟨es, rfl, hes⟩ := h
  have hbodies : ∀ e ∈ es, (marshalBody e.2 >>= unmarshalBody) = .ok e.2 := by
    intro e he
    obtain ⟨body, hbody, hfields⟩ := hes e he
    rw [hbody]
    exact body_back hfields
  obtain ⟨fs, hfs, hback⟩ := Result.bind_eq_ok.mp (mapEntries_back (h := id) hbodies)
  rw [marshalAction, marshalBodies_eq, hfs]
  simp [unmarshalAction, Value.entries, hback, mapValues]

theorem marshalAll_eq (vs : List Value) : marshalAll vs = vs.mapM marshalAction := by
  induction vs with
  | nil => rfl
  | cons v vs ih => rw [marshalAll, ih, List.mapM_cons]

theorem actions_back {vs : List Value} (h : ∀ v ∈ vs, NormalAction v) :
    (marshalActions (.list vs) >>= unmarshalActions) = .ok (.list vs) := by
  obtain ⟨ws, hws, hback⟩ := Result.bind_eq_ok.mp
    (Result.mapM_back (f := marshalAction) (h := id) fun v hv => action_back (h v hv))
  rw [marshalActions, marshalAll_eq, hws]
  simp [unmarshalActions, Value.elements, Value.elements?, hback]

/-- A request with normal values comes back from its marshalled form. -/
theorem request_back {r : Fields} (h : NormalRequest r) :
    (Marshalling.request r >>= unmarshalRequest) = .ok r := by
  refine settle_back fun e he => ?_
  obtain ⟨hfield, hactions⟩ := h e he
  by_cases hk : e.1 = actionsField
  · obtain ⟨vs, hvs, hnormal⟩ := hactions hk
    rw [marshalAny, if_pos hk, hvs]
    simp only [hk, if_true]
    exact actions_back hnormal
  · rw [marshalAny, if_neg hk]
    simp only [hk, if_false]
    exact field_back hfield

end Requests

section Replies

/-- A part of the unprocessed keys with normal keys, if it says any. -/
def NormalLeft (v : Value) : Prop :=
  ∃ es, v = .map es ∧ ∀ keys, get? es keysField = some keys → keys.NormalRow

/-- Does a field of an answer hold normal values, if it holds attribute values at all? -/
structure NormalReplyField (e : Text × Value) : Prop where
  map : e.1 ∈ replyMaps → e.2.truthy → e.2.NormalMap
  items : e.1 = "Items" → e.2.NormalRow
  responses : e.1 = "Responses" → ∃ es, e.2 = .map es ∧ ∀ part ∈ es, part.2.NormalRow
  unprocessed : e.1 = "UnprocessedKeys" → e.2.truthy →
    ∃ es, e.2 = .map es ∧ ∀ part ∈ es, NormalLeft part.2

namespace NormalReplyField

variable {v : Value}

theorem ofMap {field : Text} (hfield : field ∈ replyMaps) (hv : v.NormalMap) :
    NormalReplyField (field, v) := by
  refine ⟨fun _ _ => hv, ?_, ?_, ?_⟩ <;> rintro rfl <;> exact absurd hfield (by decide)

end NormalReplyField

/-- An answer with normal values in its fields, no two of one name. -/
structure NormalReply (r : Fields) : Prop where
  distinct : (keys r).Nodup
  fields : ∀ e ∈ r, NormalReplyField e

/-- A part of the unprocessed keys, with a row of keys even where it has none. -/
def withKeys : Value → Value
  | .map es => .map (put es keysField ((get? es keysField).getD (.list [])))
  | v => v

def tablesWithKeys : Value → Value
  | .map es => .map (mapValues withKeys es)
  | v => v

def filledField (k : Text) (v : Value) : Value :=
  if k = "UnprocessedKeys" then tablesWithKeys v else v

/-- An answer with a row in each part of its unprocessed keys. -/
def filled (r : Fields) : Fields := r.map fun e => (e.1, filledField e.1 e.2)

theorem left_back {v : Value} (h : NormalLeft v) :
    (marshalPart v >>= unmarshalTable) = .ok (withKeys v) := by
  obtain ⟨es, rfl, hes⟩ := h
  cases hkeys : get? es keysField with
  | none =>
    simp [marshalPart, unmarshalTable, Value.entries, hkeys, withKeys, Value.elements, Value.elements?]
  | some v =>
    obtain ⟨keys, rfl, hnormal⟩ := hes v hkeys
    obtain ⟨ms, hms, hback⟩ := Result.bind_eq_ok.mp
      (Result.mapM_back fun k hk => unmarshalMap_back (hnormal k hk))
    rw [List.map_id'] at hback
    simp only [marshalPart, marshalItems, Value.entries, Value.elements, Value.elements?, hkeys, hms,
      Result.ok_bind, Result.pure_eq, unmarshalTable, get?_put, if_true, Option.getD_some, hback,
      put_put, withKeys]

/-- A field that is there and passes a test, read by a reader. -/
def onField (key : Text) (wanted : Value → Bool) (f : Value → Result Value) (k : Text)
    (v : Value) : Result Value :=
  if k = key then if wanted v then f v else .ok v else .ok v

theorem eachField_of_notMem {key : Text} {es : Fields} (h : key ∉ keys es)
    (wanted : Value → Bool) (f : Value → Result Value) :
    eachField (onField key wanted f) es = .ok es := by
  induction es with
  | nil => rfl
  | cons e es ih =>
    obtain ⟨k, v⟩ := e
    simp only [keys, List.map_cons, List.mem_cons, not_or] at h
    rw [eachField, onField, if_neg (Ne.symm h.1), ih h.2]
    rfl

/-- Where no two fields have one name, replacing one of them is reading each by its name. -/
theorem replaced_eq {key : Text} {es : Fields} (h : (keys es).Nodup) (wanted : Value → Bool)
    (f : Value → Result Value) : replaced key wanted f es = eachField (onField key wanted f) es := by
  induction es with
  | nil => rfl
  | cons e es ih =>
    obtain ⟨k, v⟩ := e
    obtain ⟨hk, hes⟩ := List.nodup_cons.mp h
    by_cases hkey : k = key
    · subst hkey
      rw [eachField, eachField_of_notMem hk, onField, if_pos rfl, replaced, get?_cons, if_pos rfl]
      simp only
      cases wanted v with
      | true => cases f v <;> simp [put]
      | false => rfl
    · rw [eachField, ← ih hes, onField, if_neg hkey, replaced, replaced, get?_cons, if_neg hkey]
      cases get? es key with
      | none => rfl
      | some w =>
        simp only
        cases wanted w with
        | true => cases f w <;> simp [put, hkey]
        | false => rfl

theorem keys_eachField {f : Text → Value → Result Value} {es fs : Fields}
    (h : eachField f es = .ok fs) : keys fs = keys es := by
  induction es generalizing fs with
  | nil =>
    obtain rfl := Except.ok.inj h
    rfl
  | cons e es ih =>
    obtain ⟨w, -, h⟩ := Result.bind_eq_ok.mp h
    obtain ⟨fs, hfs, h⟩ := Result.bind_eq_ok.mp h
    obtain rfl := Except.ok.inj h
    have hkeys := ih hfs
    rw [keys] at hkeys ⊢
    rw [List.map_cons, hkeys]
    rfl

theorem eachField_eachField {f g : Text → Value → Result Value} {es fs : Fields}
    (h : eachField f es = .ok fs) :
    eachField g fs = eachField (fun k v => f k v >>= g k) es := by
  induction es generalizing fs with
  | nil =>
    obtain rfl := Except.ok.inj h
    rfl
  | cons e es ih =>
    obtain ⟨w, hw, h⟩ := Result.bind_eq_ok.mp h
    obtain ⟨fs, hfs, h⟩ := Result.bind_eq_ok.mp h
    obtain rfl := Except.ok.inj h
    simp only [eachField, hw, ih hfs, Result.ok_bind]

theorem source_of_eachField {f : Text → Value → Result Value} {es fs : Fields}
    (h : eachField f es = .ok fs) : ∀ e' ∈ fs, ∃ e ∈ es, e'.1 = e.1 ∧ f e.1 e.2 = .ok e'.2 := by
  induction es generalizing fs with
  | nil =>
    obtain rfl := Except.ok.inj h
    simp
  | cons e es ih =>
    obtain ⟨w, hw, h⟩ := Result.bind_eq_ok.mp h
    obtain ⟨fs, hfs, h⟩ := Result.bind_eq_ok.mp h
    obtain rfl := Except.ok.inj h
    intro e' he'
    rcases List.mem_cons.mp he' with rfl | he'
    · exact ⟨e, by simp, rfl, hw⟩
    · obtain ⟨e₀, he₀, hkey, hf⟩ := ih hfs e' he'
      exact ⟨e₀, by simp [he₀], hkey, hf⟩

theorem eachField_ok {f : Text → Value → Result Value} {es : Fields}
    (h : ∀ e ∈ es, ∃ w, f e.1 e.2 = .ok w) : ∃ fs, eachField f es = .ok fs := by
  induction es with
  | nil => exact ⟨[], rfl⟩
  | cons e es ih =>
    obtain ⟨w, hw⟩ := h e (by simp)
    obtain ⟨fs, hfs⟩ := ih fun f hf => h f (by simp [hf])
    exact ⟨(e.1, w) :: fs, by simp [eachField, hw, hfs]⟩

/-- A field of an answer with the test that it must pass and what is read from it. -/
structure Replacement where
  key : Text
  wanted : Value → Bool
  read : Value → Result Value

/-- The fields of an answer that are replaced, in their order. -/
def replacements : List Replacement :=
  [⟨"Item", Value.truthy, unmarshalMap⟩, ⟨"Attributes", Value.truthy, unmarshalMap⟩,
    ⟨"LastEvaluatedKey", Value.truthy, unmarshalMap⟩, ⟨"Items", fun _ => true, unmarshalAll⟩,
    ⟨"Responses", fun _ => true, unmarshalTables unmarshalAll⟩,
    ⟨"UnprocessedKeys", Value.truthy, unmarshalTables unmarshalTable⟩]

theorem answer_eq (r : Fields) :
    answer r = replacements.foldlM (fun r s => replaced s.key s.wanted s.read r) r := by
  simp only [answer, replacements, List.foldlM_cons, List.foldlM_nil, Result.pure_eq, Result.bind_ok]

/-- A field of an answer after all replacements. -/
def replacedField (steps : List Replacement) (k : Text) (v : Value) : Result Value :=
  steps.foldlM (fun v s => onField s.key s.wanted s.read k v) v

/-- Fields replaced one after another are read each by its name. -/
theorem foldlM_replaced (steps : List Replacement) {es : Fields} (hnodup : (keys es).Nodup)
    (h : ∀ e ∈ es, ∃ w, replacedField steps e.1 e.2 = .ok w) :
    steps.foldlM (fun r s => replaced s.key s.wanted s.read r) es =
      eachField (replacedField steps) es := by
  induction steps generalizing es with
  | nil =>
    clear h
    induction es with
    | nil => rfl
    | cons e es ih => rw [eachField, ← ih (List.nodup_cons.mp hnodup).2]; rfl
  | cons s steps ih =>
    have hfirst : ∀ e ∈ es, ∃ w, onField s.key s.wanted s.read e.1 e.2 = .ok w := by
      intro e he
      obtain ⟨w, hw⟩ := h e he
      obtain ⟨v, hv, -⟩ := Result.bind_eq_ok.mp hw
      exact ⟨v, hv⟩
    obtain ⟨fs, hfs⟩ := eachField_ok hfirst
    have hlast : ∀ e' ∈ fs, ∃ w, replacedField steps e'.1 e'.2 = .ok w := by
      intro e' he'
      obtain ⟨e, he, hkey, hread⟩ := source_of_eachField hfs e' he'
      obtain ⟨w, hw⟩ := h e he
      rw [replacedField, List.foldlM_cons, hread, Result.ok_bind, ← hkey] at hw
      exact ⟨w, hw⟩
    rw [List.foldlM_cons, replaced_eq hnodup, hfs, Result.ok_bind,
      ih (by rwa [keys_eachField hfs]) hlast, eachField_eachField hfs]
    rfl

theorem map_back {v : Value} (h : v.truthy → v.NormalMap) :
    ((if v.truthy then marshalMap v else .ok v) >>= fun m =>
      if m.truthy then unmarshalMap m else .ok m) = .ok v := by
  by_cases ht : v.truthy = true
  · obtain ⟨m, hm, htruthy, hback⟩ := marshalMap_back (h ht)
    simp [ht, hm, htruthy, hback]
  · simp [ht]

theorem truthy_unmarshalTables {f : Value → Result Value} {v w : Value}
    (h : unmarshalTables f v = .ok w) : w.truthy = v.truthy := by
  obtain ⟨es, hes, h⟩ := Result.bind_eq_ok.mp h
  obtain ⟨fs, hfs, h⟩ := Result.bind_eq_ok.mp h
  obtain rfl := Except.ok.inj h
  cases v with
  | map es' =>
    obtain rfl := Except.ok.inj hes
    rw [mapEntries_eq] at hfs
    have hkeys := keys_eachField hfs
    cases es' <;> cases fs <;> simp_all [Value.truthy, keys]
  | _ => simp [Value.entries] at hes

/-- A field of an answer is replaced once at most. -/
theorem replacedField_eq : replacedField replacements =
    readReplyField unmarshalMap unmarshalAll (unmarshalTables unmarshalAll)
      (unmarshalTables unmarshalTable) := by
  funext k v
  simp only [replacedField, replacements, List.foldlM_cons, List.foldlM_nil, Result.pure_eq,
    Result.bind_ok, onField, readReplyField, replyMaps, List.contains_iff_mem, List.mem_cons,
    List.not_mem_nil, or_false]
  by_cases hitem : k = "Item"
  · simp [hitem, Result.bind_ok]
  by_cases hattributes : k = "Attributes"
  · simp [hattributes, Result.bind_ok]
  by_cases hlast : k = "LastEvaluatedKey"
  · simp [hlast, Result.bind_ok]
  by_cases hitems : k = "Items"
  · simp [hitems, Result.bind_ok]
  by_cases hresponses : k = "Responses"
  · simp [hresponses, Result.bind_ok]
  · simp [hitem, hattributes, hlast, hitems, hresponses]

section Fields

variable {map items tables left : Value → Result Value}

theorem readReplyField_map {k : Text} (h : k ∈ replyMaps) :
    readReplyField map items tables left k = fun v => if v.truthy then map v else .ok v := by
  funext v
  rw [readReplyField, if_pos (by simpa using h)]

theorem readReplyField_items : readReplyField map items tables left "Items" = items := by
  funext v
  simp [readReplyField, replyMaps]

theorem readReplyField_tables : readReplyField map items tables left "Responses" = tables := by
  funext v
  simp [readReplyField, replyMaps]

theorem readReplyField_left : readReplyField map items tables left "UnprocessedKeys" =
    fun v => if v.truthy then left v else .ok v := by
  funext v
  simp [readReplyField, replyMaps]

theorem readReplyField_other {k : Text} (h : k ∉ replyMaps)
    (hother : k ∉ (["Items", "Responses", "UnprocessedKeys"] : List Text)) :
    readReplyField map items tables left k = .ok := by
  funext v
  simp only [List.mem_cons, List.not_mem_nil, or_false, not_or] at hother
  rw [readReplyField, if_neg (by simpa using h), if_neg hother.1, if_neg hother.2.1,
    if_neg hother.2.2]

end Fields

theorem filledField_of_ne {k : Text} (h : k ≠ "UnprocessedKeys") (v : Value) :
    filledField k v = v := by
  rw [filledField, if_neg h]

theorem filledField_of_falsy {v : Value} (h : ¬v.truthy = true) (k : Text) :
    filledField k v = v := by
  rw [filledField]
  split
  · cases v with
    | map es =>
      cases es with
      | nil => rfl
      | cons e es => simp [Value.truthy] at h
    | _ => rfl
  · rfl

theorem replyField_back {k : Text} {v : Value} (h : NormalReplyField (k, v)) :
    (readReplyField marshalMap marshalItems (unmarshalTables marshalItems)
        (unmarshalTables marshalPart) k v >>= replacedField replacements k) =
      .ok (filledField k v) := by
  rw [replacedField_eq]
  by_cases hmap : k ∈ replyMaps
  · have hne : k ≠ "UnprocessedKeys" := by
      rintro rfl
      exact absurd hmap (by decide)
    rw [readReplyField_map hmap, readReplyField_map hmap, filledField_of_ne hne]
    exact map_back (h.map hmap)
  by_cases hother : k ∉ (["Items", "Responses", "UnprocessedKeys"] : List Text)
  · have hne : k ≠ "UnprocessedKeys" := by
      rintro rfl
      simp at hother
    rw [readReplyField_other hmap hother, readReplyField_other hmap hother, filledField_of_ne hne]
    rfl
  simp only [not_not, List.mem_cons, List.not_mem_nil, or_false] at hother
  rcases hother with rfl | rfl | rfl
  · rw [readReplyField_items, readReplyField_items, filledField_of_ne (by decide)]
    exact items_back (h.items rfl)
  · obtain ⟨es, hes, hparts⟩ := h.responses rfl
    obtain rfl : v = .map es := hes
    rw [readReplyField_tables, readReplyField_tables, filledField_of_ne (by decide)]
    simpa [mapValues] using tables_back (h := id) fun e he => items_back (hparts e he)
  · rw [readReplyField_left, readReplyField_left]
    by_cases ht : v.truthy = true
    · obtain ⟨es, hes, hparts⟩ := h.unprocessed rfl ht
      obtain rfl : v = .map es := hes
      obtain ⟨m, hm, hback⟩ := Result.bind_eq_ok.mp
        (tables_back fun e he => left_back (hparts e he))
      have htruthy : m.truthy = true := (truthy_unmarshalTables hm).trans ht
      simp [ht, hm, htruthy, hback, filledField, tablesWithKeys]
    · simp [ht, filledField_of_falsy ht]

/-- An answer with normal values comes back from its low-level form, with all its rows of keys. -/
theorem reply_back {r : Fields} (h : NormalReply r) :
    (marshalReply r >>= answer) = .ok (filled r) := by
  have hback := eachField_back fun e he => replyField_back (h.fields e he)
  obtain ⟨s, hs, hfields⟩ := Result.bind_eq_ok.mp hback
  have hok : ∀ e' ∈ s, ∃ w, replacedField replacements e'.1 e'.2 = .ok w := by
    intro e' he'
    obtain ⟨e, he, hkey, hread⟩ := source_of_eachField hs e' he'
    have hfield := replyField_back (h.fields e he)
    rw [hread, Result.ok_bind, ← hkey] at hfield
    exact ⟨_, hfield⟩
  have hdistinct : (keys s).Nodup := by
    rw [keys_eachField hs]
    exact h.distinct
  rw [marshalReply, hs, Result.ok_bind, answer_eq, foldlM_replaced replacements hdistinct hok, hfields]
  rfl

end Replies

end Marshalling

variable {σ : Type}

/-- A client that gives answers with normal values to requests with normal values, if any. -/
def Client.AnswersNormally (client : Client σ) : Prop :=
  ∀ call s reply, NormalRequest call.request → (client.answer call s).1 = .ok reply →
    NormalReply reply

namespace Executor

/-- The executor that hands a client values as they are. -/
def native (client : Client σ) (logCalls : Value) : Executor σ := ⟨client, .resource, logCalls⟩

/-- The executor that speaks the low-level form to the low-level image of a client. -/
def lowLevel (client : Client σ) (logCalls : Value) : Executor σ :=
  ⟨client.lowLevel, .client, logCalls⟩

theorem send_native (client : Client σ) (logCalls : Value) (c : Call) (w : World σ) :
    (native client logCalls).send c w =
      ((client.answer c w.client).1, { w with client := (client.answer c w.client).2 }) := rfl

/-- What comes back through both forms is what the client answers, with all rows of keys. -/
theorem send_lowLevel {client : Client σ} (hclient : client.AnswersNormally) (logCalls : Value)
    {c : Call} (h : NormalRequest c.request) (w : World σ) :
    (lowLevel client logCalls).send c w =
      (filled <$> (client.answer c w.client).1,
        { w with client := (client.answer c w.client).2 }) := by
  obtain ⟨m, hm, hback⟩ := Result.bind_eq_ok.mp (request_back h)
  have hanswer : client.lowLevel.answer ⟨c.method, m⟩ w.client =
      ((client.answer c w.client).1 >>= marshalReply, (client.answer c w.client).2) := by
    simp only [Client.lowLevel, hback]
  rw [send, lowLevel]
  simp only [Session.bind_apply, Session.lift_apply, hm, Session.ask_apply, hanswer]
  cases hreply : (client.answer c w.client).1 with
  | error f => rfl
  | ok reply =>
    obtain ⟨low, hlow, hreplyBack⟩ :=
      Result.bind_eq_ok.mp (reply_back (hclient c w.client reply h hreply))
    simp [hlow, hreplyBack]

/-- A call ends in the same way and leaves the same world behind with either target. -/
theorem call_cases {client : Client σ} (hclient : client.AnswersNormally) (logCalls : Value)
    (method : Method) {request : Fields} (h : NormalRequest request) (w : World σ) :
    (∃ f w', (native client logCalls).call method request w = (.error f, w') ∧
      (lowLevel client logCalls).call method request w = (.error f, w')) ∨
    ∃ reply w', NormalReply reply ∧
      (native client logCalls).call method request w = (.ok reply, w') ∧
      (lowLevel client logCalls).call method request w = (.ok (filled reply), w') := by
  have hlog : (lowLevel client logCalls).logCall ⟨method, request⟩ =
      (native client logCalls).logCall ⟨method, request⟩ := rfl
  simp only [call, Session.bind_apply, hlog]
  rcases (native client logCalls).logCall ⟨method, request⟩ w with ⟨_ | _, w₁⟩
  · exact .inl ⟨_, _, rfl, rfl⟩
  · simp only [send_native, send_lowLevel hclient logCalls (c := ⟨method, request⟩) h]
    cases hreply : (client.answer ⟨method, request⟩ w₁.client).1 with
    | error f => exact .inl ⟨f, _, rfl, rfl⟩
    | ok reply => exact .inr ⟨reply, _, hclient _ _ reply h hreply, rfl, rfl⟩

end Executor

end TableGateway
