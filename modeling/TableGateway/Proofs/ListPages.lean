import TableGateway.Proofs.Cursor
import TableGateway.Proofs.LowLevel
import TableGateway.Proofs.RequestFields

/-!
# Scans page by page

All items of a table can be had at once, which goes on with the last keys as they come, or page by
page, where each last key goes through a token and the request is built anew. Of a store whose answer
is settled by the request the two ask the same, request by request, up to equality of the keys to go
on after.
-/
namespace TableGateway

open Entries

variable {σ : Type}

/-- The field of a request for the key to go on after. -/
def startName : Text := "ExclusiveStartKey"

section Requests

/-- Requests that are equal up to equality of the keys to go on after. -/
inductive SameAsk : Fields → Fields → Prop where
  | refl (request : Fields) : SameAsk request request
  | start (base : Fields) {key key' : Value} (h : key.same key') :
    SameAsk (base ++ [(startName, key)]) (base ++ [(startName, key')])

/-- Is a request the given one, with a key to go on after or without one? -/
def Extends (base request : Fields) : Prop :=
  request = base ∨ ∃ key, request = base ++ [(startName, key)]

namespace Marshalling

theorem settle_eq_ok {es : Entries (Result Value)} {fs : Fields} :
    settle es = .ok fs ↔ (∀ key ∈ requestOrder, faultIn? es key = none) ∧
      fs = es.filterMap fun e => e.2.toOption.map (e.1, ·) := by
  rw [← List.findSome?_eq_none_iff, settle]
  split
  · rename_i f hf
    simp [hf]
  · rename_i hnone
    simp [hnone, eq_comm]

/-- A field at the end of a request is marshalled by itself. -/
theorem request_append_eq_ok {base : Fields} {k : Text} (hk : k ∈ requestOrder)
    (hbase : get? base k = none) {v : Value} {sent : Fields} :
    request (base ++ [(k, v)]) = .ok sent ↔
      ∃ shared w, request base = .ok shared ∧ marshalAny k v = .ok w ∧ sent = shared ++ [(k, w)] := by
  have hfields : marshalFields (base ++ [(k, v)]) = marshalFields base ++ [(k, marshalAny k v)] := by
    simp [marshalFields_eq]
  have hnone : get? (marshalFields base) k = none := by
    have hkeys : keys (marshalFields base) = keys base := by simp [marshalFields_eq, keys]
    rw [get?_eq_none] at hbase ⊢
    rwa [hkeys]
  rw [request, request, hfields]
  cases hv : marshalAny k v with
  | error f =>
    have hfault : faultIn? (marshalFields base ++ [(k, .error f)]) k = some f := by
      simp [faultIn?, get?_append, hnone]
    constructor
    · intro h
      rw [(settle_eq_ok.mp h).1 k hk] at hfault
      cases hfault
    · rintro ⟨_, w, _, hw, _⟩
      cases hw
  | ok w =>
    have hfault : ∀ key, faultIn? (marshalFields base ++ [(k, .ok w)]) key =
        faultIn? (marshalFields base) key := by
      intro key
      rw [faultIn?, faultIn?, get?_append]
      cases get? (marshalFields base) key with
      | some r => rfl
      | none =>
        by_cases hkey : k = key <;> simp [hkey]
    constructor
    · intro h
      obtain ⟨hclear, rfl⟩ := settle_eq_ok.mp h
      refine ⟨_, w, settle_eq_ok.mpr ⟨fun key hkey => ?_, rfl⟩, rfl, ?_⟩
      · rw [← hfault]
        exact hclear key hkey
      · simp [Except.toOption]
    · rintro ⟨shared, w', hshared, hw, rfl⟩
      obtain ⟨hclear, rfl⟩ := settle_eq_ok.mp hshared
      obtain rfl := Except.ok.inj hw
      refine settle_eq_ok.mpr ⟨fun key hkey => ?_, ?_⟩
      · rw [hfault]
        exact hclear key hkey
      · simp [Except.toOption]

end Marshalling

namespace Executor

/-- A key to go on after, as the client is handed it. -/
def wireKey (x : Executor σ) (key : Value) : Result Value :=
  match x.target with
  | .resource => .ok key
  | .client => Marshalling.marshalMap key

theorem wire_start_eq_ok (x : Executor σ) {base : Fields} (hbase : get? base startName = none)
    {key : Value} {sent : Fields} :
    x.wire (base ++ [(startName, key)]) = .ok sent ↔
      ∃ shared key', x.wire base = .ok shared ∧ x.wireKey key = .ok key' ∧
        sent = shared ++ [(startName, key')] := by
  rw [wire, wire, wireKey]
  cases x.target with
  | resource => simp [eq_comm]
  | client => exact Marshalling.request_append_eq_ok (by decide) hbase

end Executor

namespace Row

theorem marshal_isKeyValue {v : Value} (ha : ∃ a, Attribute.ofValue v = .ok a) :
    Attribute.marshal v = .ok (Token.accepted v).toValue := by
  rw [Attribute.marshal, Token.ofValue_eq ha]
  rfl

/-- A number that came out of a token goes over to the same digits. -/
theorem marshal_handedBack_number {n : Number} (h : n.IsFinite) {d : Text}
    (hd : Attribute.digitsOfNumber n = .ok d) :
    Attribute.marshal (Token.handedBack (.number n)) = .ok (Attribute.number d).toValue := by
  obtain ⟨s, c, e, hdecimal, rfl, hstored⟩ := Attribute.digitsOfNumber_eq h hd
  have hdigits : Attribute.digitsOfNumber (.decimal (.finite s c e)) =
      .ok (Decimal.finite s c e).text := Attribute.digitsOfNumber_taken hstored trivial
  rw [handedBack_number h hd, hdecimal, Attribute.marshal, Attribute.ofValue, hdigits]
  rfl

/-- A value of a key has the same form in requests, settled, once it has gone through a token. -/
theorem marshal_handedBack {v : Value} (h : IsKeyValue v) (ha : ∃ a, Attribute.ofValue v = .ok a) :
    Attribute.marshal (Token.handedBack v) = .ok (Token.accepted v).toValue.settled ∧
      (Token.accepted v).toValue.same (Token.accepted v).toValue.settled := by
  cases v with
  | text s =>
    refine ⟨rfl, ?_⟩
    simp [Token.accepted, Attribute.ofValue, Except.toOption, Attribute.toValue, Attribute.tagged,
      Value.settled, Value.settledEntries, Token.sortKeys, Token.insertKey, Value.same,
      Value.sameEntries, has]
  | blob b =>
    refine ⟨rfl, ?_⟩
    simp [Token.accepted, Attribute.ofValue, Except.toOption, Attribute.toValue, Attribute.tagged,
      Attribute.blobValue, Value.settled, Value.settledEntries, Token.sortKeys, Token.insertKey,
      Value.same, Value.sameEntries, has]
  | number n =>
    have haccepted := Token.ofValue_eq ha
    obtain ⟨d, hd, haccepted⟩ := Result.map_eq_ok.mp haccepted
    rw [← haccepted]
    refine ⟨marshal_handedBack_number h hd, ?_⟩
    simp [Attribute.toValue, Attribute.tagged, Value.settled, Value.settledEntries, Token.sortKeys,
      Token.insertKey, Value.same, Value.sameEntries, has]
  | _ => exact h.elim

/-- A key after it has gone through a token. -/
def keyBack (r : Row) : Value := .map (mapValues Token.handedBack (Token.sortKeys r.key))

end Row

theorem Marshalling.marshalMap_mapValues {f g : Value → Value} {es : Fields}
    (h : ∀ e ∈ es, Attribute.marshal (f e.2) = .ok (g e.2)) :
    marshalMap (.map (mapValues f es)) = .ok (.map (mapValues g es)) := by
  have hentries : Attribute.toEntries <$> Attribute.ofEntries (mapValues f es) =
      .ok (mapValues g es) := by
    induction es with
    | nil => rfl
    | cons e es ih =>
      obtain ⟨a, ha, hvalue⟩ := Result.map_eq_ok.mp (h e (by simp))
      obtain ⟨as, has, hes⟩ := Result.map_eq_ok.mp (ih fun e he => h e (by simp [he]))
      rw [mapValues] at has
      rw [mapValues, List.map_cons, Attribute.ofEntries, ha, has]
      simp [Attribute.toEntries, hvalue, hes, mapValues]
  obtain ⟨as, has, hes⟩ := Result.map_eq_ok.mp hentries
  simp [marshalMap, Value.entries, has, hes]

/-- A client is handed the same key whether or not the key went through a token before. -/
theorem Executor.wireKey_keyBack (x : Executor σ) {r : Row} (h : r.Keyed) :
    ∃ key key', x.wireKey (.map r.key) = .ok key ∧ x.wireKey r.keyBack = .ok key' ∧
      key.same key' := by
  rw [wireKey, wireKey]
  cases x.target with
  | resource =>
    refine ⟨_, _, rfl, rfl, ?_⟩
    rw [Row.keyBack, same_map_handedBack h]
    exact same_key h
  | client =>
    have hsorted := Token.sortKeys_perm r.key
    have hraw : Marshalling.marshalMap (.map r.key) =
        .ok (.map (mapValues (fun v => (Token.accepted v).toValue) r.key)) := by
      have hid : mapValues id r.key = r.key := by simp [mapValues]
      have hmarshal := Marshalling.marshalMap_mapValues (f := id)
        (g := fun v => (Token.accepted v).toValue) fun e he =>
          Row.marshal_isKeyValue (h.accepted e he)
      rwa [hid] at hmarshal
    have hback : Marshalling.marshalMap r.keyBack = .ok (.map
        (mapValues (fun v => (Token.accepted v).toValue.settled) (Token.sortKeys r.key))) := by
      refine Marshalling.marshalMap_mapValues fun e he => ?_
      have he' := hsorted.mem_iff.mp he
      exact (Row.marshal_handedBack (h.values e he') (h.accepted e he')).1
    refine ⟨_, _, hraw, hback, ?_⟩
    refine Value.same_map (f := Value.settled) (by simpa using h.distinct) ?_ ?_
    · simp only [mapValues, List.map_map]
      exact hsorted.map _
    · intro e he
      obtain ⟨e', he', rfl⟩ := List.mem_map.mp he
      exact (Row.marshal_handedBack (h.values e' he') (h.accepted e' he')).2

end Requests

/-- The fields of options as the caller gives them. -/
def ListOptions.toValue (o : ListOptions) : Value :=
  .record .listOptions [o.filters, o.limit, o.consistentRead, o.properties, o.index, o.segment,
    o.totalSegments, o.token]

@[simp] theorem ListOptions.ofRecord_toValue (o : ListOptions) : ofRecord o.toValue = .ok o := rfl

/-- A request with a key to go on after is one without it that the key is added to. -/
theorem ListOptions.request_extends {table : Value} {o : ListOptions} {request : Fields}
    (h : o.request table = .ok request) : ∃ base, get? base startName = none ∧ Extends base request ∧
      ∀ token, ({ o with token := token } : ListOptions).request table =
        (startField token).map (base ++ ·) := by
  obtain ⟨base, hbase⟩ : ∃ base, ({ o with token := .null } : ListOptions).request table = .ok base := by
    rw [ListOptions.request] at h
    obtain ⟨filter, hfilter, h⟩ := Result.bind_eq_ok.mp h
    obtain ⟨filtered, hfiltered, h⟩ := Result.bind_eq_ok.mp h
    obtain ⟨projection, hprojection, h⟩ := Result.bind_eq_ok.mp h
    obtain ⟨bindings, hbindings, -⟩ := Result.bind_eq_ok.mp h
    have hnull : startField .null = .ok [] := rfl
    simp only [ListOptions.request, hfilter, hfiltered, hprojection, hbindings, hnull, Result.ok_bind]
    exact ⟨_, rfl⟩
  obtain ⟨⟨bindings, filter, projection, hfields⟩, htoken⟩ := ListOptions.request_inv hbase
  refine ⟨base, ?_, ?_, htoken⟩
  · rw [hfields]
    exact ListOptions.get?_start table o bindings filter projection
  · have hrequest : (startField o.token).map (base ++ ·) = .ok request := by
      rw [← htoken o.token]
      exact h
    rw [startField] at hrequest
    split at hrequest
    · cases hkey : Token.decode o.token with
      | error f => simp [hkey, Except.map] at hrequest
      | ok key =>
        rw [hkey] at hrequest
        exact .inr ⟨.map key, (Except.ok.inj hrequest).symm⟩
    · refine .inl ?_
      simpa [Except.map] using (Except.ok.inj hrequest).symm

namespace Executor

/-- Clients whose answer to a scan is settled by the request, in which keys to go on after count as
one if they are equal. -/
structure Settles (x : Executor σ) (answer : Fields → Result Fields) : Prop where
  answers : ∀ request s, (x.client.answer ⟨.scan, request⟩ s).1 = answer request
  alike : ∀ request request', SameAsk request request' → answer request = answer request'

/-- What comes of a scan if requests are answered so. -/
def scanned (x : Executor σ) (answer : Fields → Result Fields) (request : Fields) : Result Fields :=
  x.wire request >>= answer >>= x.taken

variable {x : Executor σ} {answer : Fields → Result Fields}

theorem recorded_scan (h : x.Settles answer) {request sent : Fields}
    (hsent : x.wire request = .ok sent) (w : World (σ × List Call)) :
    ∃ w', x.recorded.call .scan request w = (x.scanned answer request, w') ∧
      w'.client.2 = w.client.2 ++ [⟨.scan, sent⟩] := by
  obtain ⟨log, hcall⟩ := call_of_wire_ok (x := x.recorded) hsent .scan w
  have hrecord := recorded_call x .scan request w
  have hanswer : (x.recorded.client.answer ⟨.scan, sent⟩ w.client).1 = answer sent :=
    h.answers sent w.client.1
  refine ⟨(x.recorded.call .scan request w).2, ?_, ?_⟩
  · rw [hcall, hanswer, scanned, hsent]
    rfl
  · rw [hrecord, hsent]
    rfl

end Executor

namespace Provider

/-- Scans that come to their end, each last key in them being that of a row that can go through a
token: so many requests follow the given one. -/
inductive Ends (scan : Fields → Result Fields) : Nat → Fields → Prop where
  | last {more : Nat} {request reply : Fields} {items : List Value} (hreply : scan request = .ok reply)
    (hitems : itemsOf reply = .ok items) (hkey : (lastKeyOf reply).truthy = false) :
    Ends scan more request
  | further {more : Nat} {request reply : Fields} {items : List Value} {r : Row}
    (hreply : scan request = .ok reply) (hitems : itemsOf reply = .ok items) (hr : r.Keyed)
    (hu : r.Unbroken) (hkey : lastKeyOf reply = .map r.key)
    (hmore : Ends scan more (continued request (.map r.key))) : Ends scan (more + 1) request

/-- The pages of a scan: each goes on with the token of the one before it, as long as there is one. -/
def listPages (d : Provider σ) (table : Value) : (calls : Nat) → ListOptions → Session σ (List Page)
  | 0, _ => Session.fail .cutShort
  | calls + 1, o => do
    let page ← d.list table o.toValue
    match page.token with
    | none => return [page]
    | some token => return page :: (← listPages d table calls { o with token := .text token })

/-- Two runs that ask the same, with one request a page, in which requests differ in nothing but the
key to go on after. -/
structure InStep (base : Fields) (pages : List Page) (asked asked' : List Fields) : Prop where
  count : asked.length = pages.length
  alike : List.Forall₂ SameAsk asked asked'
  extend : ∀ request ∈ asked ++ asked', Extends base request

/-- Requests for the same page, with the last key of the page before as it came or out of a token. -/
inductive Paired (base : Fields) : Fields → Fields → Prop where
  | first {request : Fields} (h : Extends base request) : Paired base request request
  | later {r : Row} (h : r.Keyed) :
    Paired base (base ++ [(startName, .map r.key)]) (base ++ [(startName, r.keyBack)])

section Steps

variable {x : Executor σ} {base shared request request' sent : Fields}

theorem extends_wire (hbase : get? base startName = none) (hshared : x.wire base = .ok shared)
    (h : Extends base request) (hsent : x.wire request = .ok sent) : Extends shared sent := by
  rcases h with rfl | ⟨key, rfl⟩
  · exact .inl (Except.ok.inj (hsent.symm.trans hshared))
  · obtain ⟨shared', key', hshared', -, rfl⟩ := (x.wire_start_eq_ok hbase).mp hsent
    obtain rfl := Except.ok.inj (hshared.symm.trans hshared')
    exact .inr ⟨key', rfl⟩

theorem Paired.extends (h : Paired base request request') :
    Extends base request ∧ Extends base request' := by
  cases h with
  | first h => exact ⟨h, h⟩
  | later => exact ⟨.inr ⟨_, rfl⟩, .inr ⟨_, rfl⟩⟩

/-- A client is handed the same request on both sides, up to equality of the keys to go on after. -/
theorem Paired.wire (h : Paired base request request') (hbase : get? base startName = none)
    (hshared : x.wire base = .ok shared) (hsent : x.wire request = .ok sent) :
    ∃ sent', x.wire request' = .ok sent' ∧ SameAsk sent sent' := by
  cases h with
  | first => exact ⟨sent, hsent, .refl sent⟩
  | later hr =>
    obtain ⟨key, key', hkey, hkey', hsame⟩ := x.wireKey_keyBack hr
    have hraw := (x.wire_start_eq_ok hbase).mpr ⟨shared, key, hshared, hkey, rfl⟩
    have hback := (x.wire_start_eq_ok hbase).mpr ⟨shared, key', hshared, hkey', rfl⟩
    obtain rfl := Except.ok.inj (hsent.symm.trans hraw)
    exact ⟨_, hback, .start shared hsame⟩

/-- The request for what follows a row replaces the key to go on after. -/
theorem continued_extends (hbase : get? base startName = none) (h : Extends base request)
    (key : Value) : continued request key = base ++ [(startName, key)] := by
  have hfresh : startName ∉ keys base := (get?_eq_none base startName).mp hbase
  have hcontinued : continued request key = put request startName key := rfl
  rcases h with rfl | ⟨key', rfl⟩
  · rw [hcontinued, put_of_notMem hfresh]
  · rw [hcontinued, ← put_of_notMem hfresh, put_put, put_of_notMem hfresh]

end Steps

variable {d : Provider σ} {answer : Fields → Result Fields} {table : Value}

theorem list_eq {o : ListOptions} {request reply : Fields} {items : List Value}
    {token : Option Text} {w w' : World σ} (hrequest : o.request table = .ok request)
    (hcall : d.executor.call .scan request w = (.ok reply, w')) (hitems : itemsOf reply = .ok items)
    (htoken : Token.encode (lastKeyOf reply) = .ok token) :
    d.list table o.toValue w = (.ok ⟨items, token⟩, w') := by
  simp only [list, ListOptions.ofRecord_toValue, Result.ok_bind, hrequest, Session.bind_apply,
    Session.lift_apply, hcall, hitems, htoken, Session.pure_apply]

theorem encode_of_falsy {key : Value} (h : key.truthy = false) : Token.encode key = .ok none := by
  rw [Token.encode, if_neg (by simp [h])]

/-- Two scans of the same page: the same answer comes, and the record has what the client was asked. -/
theorem scan_pair (hserver : d.executor.Settles answer) {base shared request request' reply : Fields}
    (hbase : get? base startName = none) (hshared : d.executor.wire base = .ok shared)
    (hpair : Paired base request request') (hreply : d.executor.scanned answer request = .ok reply)
    (w w' : World (σ × List Call)) :
    ∃ sent sent' v v', d.recorded.executor.call .scan request w = (.ok reply, v) ∧
      d.recorded.executor.call .scan request' w' = (.ok reply, v') ∧
      v.client.2 = w.client.2 ++ [⟨.scan, sent⟩] ∧ v'.client.2 = w'.client.2 ++ [⟨.scan, sent'⟩] ∧
      SameAsk sent sent' ∧ Extends shared sent ∧ Extends shared sent' := by
  obtain ⟨mid, hmid, -⟩ := Result.bind_eq_ok.mp hreply
  obtain ⟨sent, hsent, -⟩ := Result.bind_eq_ok.mp hmid
  obtain ⟨sent', hsent', hsame⟩ := hpair.wire hbase hshared hsent
  have hreply' : d.executor.scanned answer request' = .ok reply := by
    rw [← hreply, Executor.scanned, Executor.scanned, hsent, hsent', Result.ok_bind, Result.ok_bind,
      hserver.alike sent sent' hsame]
  obtain ⟨v, hcall, hrecord⟩ := Executor.recorded_scan hserver hsent w
  obtain ⟨v', hcall', hrecord'⟩ := Executor.recorded_scan hserver hsent' w'
  rw [hreply] at hcall
  rw [hreply'] at hcall'
  exact ⟨sent, sent', v, v', hcall, hcall', hrecord, hrecord', hsame,
    extends_wire hbase hshared hpair.extends.1 hsent,
    extends_wire hbase hshared hpair.extends.2 hsent'⟩

/-- Both runs from one page on. The induction is on the requests that follow; before each page the
requests of the two runs are paired. -/
theorem runs_in_step (hserver : d.executor.Settles answer) {base shared : Fields}
    (hbase : get? base startName = none) (hshared : d.executor.wire base = .ok shared)
    {more : Nat} {request : Fields} (hends : Ends (d.executor.scanned answer) more request)
    (rounds calls : Nat) (hrounds : more < rounds) (hcalls : more < calls) (o : ListOptions)
    (hrequest : ∀ token, ({ o with token := token } : ListOptions).request table =
      (startField token).map (base ++ ·))
    (request' : Fields) (hon : o.request table = .ok request') (hpair : Paired base request request')
    (items : List Value) (w w' : World (σ × List Call)) :
    ∃ pages asked asked' v v',
      d.recorded.listFrom rounds request items w = (.ok (items ++ pages.flatMap Page.items), v) ∧
      d.recorded.listPages table calls o w' = (.ok pages, v') ∧
      v.client.2 = w.client.2 ++ asked.map (Call.mk .scan) ∧
      v'.client.2 = w'.client.2 ++ asked'.map (Call.mk .scan) ∧
      InStep shared pages asked asked' := by
  induction hends generalizing rounds calls o request' items w w' with
  | @last more request reply found hreply hitems hkey =>
    obtain ⟨rounds, rfl⟩ : ∃ n, rounds = n + 1 := ⟨rounds - 1, by omega⟩
    obtain ⟨calls, rfl⟩ : ∃ n, calls = n + 1 := ⟨calls - 1, by omega⟩
    obtain ⟨sent, sent', v, v', hcall, hcall', hrecord, hrecord', hsame, hsent, hsent'⟩ :=
      scan_pair hserver hbase hshared hpair hreply w w'
    refine ⟨[⟨found, none⟩], [sent], [sent'], v, v', ?_, ?_, hrecord, hrecord', ⟨rfl, ?_, ?_⟩⟩
    · rw [listFrom]
      simp [Session.bind_apply, hcall, hitems, hkey]
    · rw [listPages]
      simp [Session.bind_apply, list_eq hon hcall' hitems (encode_of_falsy hkey)]
    · exact .cons hsame .nil
    · simp [hsent, hsent']
  | @further more request reply found r hreply hitems hr hu hkey hmore ih =>
    obtain ⟨rounds, rfl⟩ : ∃ n, rounds = n + 1 := ⟨rounds - 1, by omega⟩
    obtain ⟨calls, rfl⟩ : ∃ n, calls = n + 1 := ⟨calls - 1, by omega⟩
    obtain ⟨sent, sent', v, v', hcall, hcall', hrecord, hrecord', hsame, hsent, hsent'⟩ :=
      scan_pair hserver hbase hshared hpair hreply w w'
    obtain ⟨token, hencode, hne, hdecode⟩ := Token.exists_token (hr.isKey hu)
    have htruthy : (Value.map r.key).truthy = true := by simpa [Value.truthy] using hr.nonempty
    have hnext : ({ o with token := .text token } : ListOptions).request table =
        .ok (base ++ [(startName, r.keyBack)]) := by
      rw [hrequest, startField, if_pos (by simp [Value.truthy, hne]), hdecode]
      rfl
    have hpair' : Paired base (continued request (.map r.key)) (base ++ [(startName, r.keyBack)]) := by
      rw [continued_extends hbase hpair.extends.1]
      exact .later hr
    rw [← hkey] at hencode
    obtain ⟨pages, asked, asked', u, u', hall, hpages, hasked, hasked', hstep⟩ :=
      ih rounds calls (by omega) (by omega) { o with token := .text token } hrequest _ hnext hpair'
        (items ++ found) v v'
    refine ⟨⟨found, some token⟩ :: pages, sent :: asked, sent' :: asked', u, u', ?_, ?_, ?_, ?_,
      ⟨congrArg (· + 1) hstep.count, .cons hsame hstep.alike, ?_⟩⟩
    · rw [listFrom]
      simp [Session.bind_apply, hcall, hitems, hkey, htruthy, hall]
    · rw [listPages]
      simp [Session.bind_apply, list_eq hon hcall' hitems hencode, hpages]
    · simp [hasked, hrecord]
    · simp [hasked', hrecord']
    · have hextend := hstep.extend
      simp only [List.mem_append, List.mem_cons] at hextend ⊢
      rintro q ((rfl | hq) | (rfl | hq))
      · exact hsent
      · exact hextend q (.inl hq)
      · exact hsent'
      · exact hextend q (.inr hq)

/-- All items at once are the items of the pages one after the other, and both ways ask the same,
with one request a page. Options of which no request can be made fail both ways with the same fault,
before anything is asked. -/
theorem listAll_eq_listPages (d : Provider σ) (table : Value) (o : ListOptions)
    (answer : Fields → Result Fields) (hserver : d.executor.Settles answer) (more : Nat)
    (hends : ∀ request sent, o.request table = .ok request → d.executor.wire request = .ok sent →
      Ends (d.executor.scanned answer) more request)
    (rounds calls : Nat) (hrounds : more < rounds) (hcalls : more < calls)
    (w : World (σ × List Call)) :
    (∀ f, (o.request table >>= d.executor.wire) = .error f →
      ∃ v v', d.recorded.listAll rounds table o.toValue w = (.error f, v) ∧
        d.recorded.listPages table calls o w = (.error f, v') ∧
        v.client = w.client ∧ v'.client = w.client) ∧
    ∀ sent, (o.request table >>= d.executor.wire) = .ok sent →
      ∃ base pages asked asked' v v',
        d.recorded.listAll rounds table o.toValue w = (.ok (pages.flatMap Page.items), v) ∧
        d.recorded.listPages table calls o w = (.ok pages, v') ∧
        v.client.2 = w.client.2 ++ asked.map (Call.mk .scan) ∧
        v'.client.2 = w.client.2 ++ asked'.map (Call.mk .scan) ∧
        InStep base pages asked asked' := by
  constructor
  · intro f hf
    obtain ⟨rounds, rfl⟩ : ∃ n, rounds = n + 1 := ⟨rounds - 1, by omega⟩
    obtain ⟨calls, rfl⟩ : ∃ n, calls = n + 1 := ⟨calls - 1, by omega⟩
    cases hrequest : o.request table with
    | error f' =>
      obtain rfl : f' = f := by simpa [hrequest] using hf
      refine ⟨w, w, ?_, ?_, rfl, rfl⟩
      · simp [listAll, hrequest]
      · simp [listPages, list, hrequest]
    | ok request =>
      have hwire : d.executor.wire request = .error f := by simpa [hrequest] using hf
      obtain ⟨log, hcall⟩ :=
        Executor.call_of_wire_error (x := d.recorded.executor) hwire .scan w
      refine ⟨{ w with log := log }, { w with log := log }, ?_, ?_, rfl, rfl⟩
      · simp [listAll, listFrom, hrequest, hcall]
      · simp [listPages, list, hrequest, hcall]
  · intro sent hsent
    obtain ⟨request, hrequest, hwire⟩ := Result.bind_eq_ok.mp hsent
    obtain ⟨base, hbase, hextends, htoken⟩ := ListOptions.request_extends hrequest
    obtain ⟨shared, hshared⟩ : ∃ shared, d.executor.wire base = .ok shared := by
      rcases hextends with rfl | ⟨key, rfl⟩
      · exact ⟨sent, hwire⟩
      · obtain ⟨shared, -, hshared, -⟩ := (d.executor.wire_start_eq_ok hbase).mp hwire
        exact ⟨shared, hshared⟩
    obtain ⟨pages, asked, asked', v, v', hall, hpages, hasked, hasked', hstep⟩ :=
      runs_in_step hserver hbase hshared (hends request sent hrequest hwire) rounds calls hrounds
        hcalls o htoken request hrequest (.first hextends) [] w w
    refine ⟨shared, pages, asked, asked', v, v', ?_, hpages, hasked, hasked', hstep⟩
    simpa [listAll, hrequest] using hall

/-- The answer of a store that examines one of two rows at a time, of which the first has the key. -/
def halves (key request : Fields) : Fields :=
  if has request startName then [("Items", .list [.text "second"])]
  else [("Items", .list [.text "first"]), ("LastEvaluatedKey", .map key)]

def halvesProvider (key : Fields) : Provider Unit :=
  ⟨⟨⟨fun call s => (.ok (halves key call.request), s)⟩, .resource, .null⟩, false, .null⟩

theorem settles_halves (key : Fields) :
    (halvesProvider key).executor.Settles fun request => .ok (halves key request) where
  answers _ _ := rfl
  alike := by
    rintro _ _ (request | ⟨base, hsame⟩)
    · rfl
    · simp [halves, has, get?_append]

def halvesKey : Fields := [("id", .text "a"), ("at", .number (.decimal (.finite false 15 (-1))))]

theorem listAll_eq_listPages_halves :
    ∃ base pages asked asked' v v',
      (halvesProvider halvesKey).recorded.listAll 2 (.text "events") ListOptions.default.toValue
        ⟨((), []), [], []⟩ = (.ok (pages.flatMap Page.items), v) ∧
      (halvesProvider halvesKey).recorded.listPages (.text "events") 2 .default ⟨((), []), [], []⟩ =
        (.ok pages, v') ∧
      v.client.2 = asked.map (Call.mk .scan) ∧ v'.client.2 = asked'.map (Call.mk .scan) ∧
      InStep base pages asked asked' := by
  have hends : ∀ request sent, ListOptions.default.request (.text "events") = .ok request →
      (halvesProvider halvesKey).executor.wire request = .ok sent →
      Ends ((halvesProvider halvesKey).executor.scanned fun request => .ok (halves halvesKey request))
        1 request := by
    intro request sent hrequest _
    obtain rfl : ([("TableName", .text "events")] : Fields) = request := Except.ok.inj hrequest
    refine .further (r := ⟨halvesKey, .null, true⟩) rfl rfl
      ⟨by simp [halvesKey], by simp [halvesKey, keys], ?_, ?_⟩ ?_ rfl (.last rfl rfl rfl)
    · intro e he
      simp only [halvesKey, List.mem_cons, List.not_mem_nil, or_false] at he
      rcases he with rfl | rfl <;> trivial
    · intro e he
      simp only [halvesKey, List.mem_cons, List.not_mem_nil, or_false] at he
      rcases he with rfl | rfl <;> exact ⟨_, rfl⟩
    · simp [halvesKey, Row.Unbroken, Value.Unbroken, Value.UnbrokenEntries]
  exact (listAll_eq_listPages (halvesProvider halvesKey) (.text "events") .default _
    (settles_halves halvesKey) 1 hends 2 2 (by decide) (by decide) ⟨((), []), [], []⟩).2 _ rfl

/-- After a key with half of a pair in its text all items at once go on, and the pages do not. -/
theorem not_listAll_eq_listPages :
    ¬∀ (d : Provider Unit) (answer : Fields → Result Fields), d.executor.Settles answer →
      (∀ request, ∃ reply, answer request = .ok reply ∧ (lastKeyOf reply = .null ∨
        ∃ r : Row, r.Keyed ∧ lastKeyOf reply = .map r.key)) →
      ∀ (rounds : Nat) (items : List Value) (w : World (Unit × List Call)),
        (d.recorded.listAll rounds (.text "events") ListOptions.default.toValue w).1 = .ok items →
          ∃ pages, (d.recorded.listPages (.text "events") rounds .default w).1 = .ok pages := by
  intro h
  let key : Fields := [("id", .text (.broken "" 0 ""))]
  have hkeyed : Row.Keyed ⟨key, .null, true⟩ :=
    ⟨by simp [key], by simp [key, keys], by simp [key, Row.IsKeyValue], by simpa [key] using ⟨_, rfl⟩⟩
  have hreplies : ∀ request, ∃ reply, (.ok (halves key request) : Result Fields) = .ok reply ∧
      (lastKeyOf reply = .null ∨ ∃ r : Row, r.Keyed ∧ lastKeyOf reply = .map r.key) := by
    refine fun request => ⟨_, rfl, ?_⟩
    rw [halves]
    split
    · exact .inl rfl
    · exact .inr ⟨_, hkeyed, rfl⟩
  obtain ⟨pages, hpages⟩ := h (halvesProvider key) _ (settles_halves key) hreplies 2
    [.text "first", .text "second"] ⟨((), []), [], []⟩ rfl
  have hfails : ((halvesProvider key).recorded.listPages (.text "events") 2 .default
      ⟨((), []), [], []⟩).1.isOk = false := by
    decide +kernel
  rw [hpages] at hfails
  cases hfails

end Provider

end TableGateway
