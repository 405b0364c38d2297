import TableGateway.Proofs.Calls
import TableGateway.Proofs.TokenRoundTrip

/-!
# Cursors over rows

A store that is asked for the rows after a key examines some of them, gives those that pass, and
names the last one examined while rows are left. A key that went through a token is found in the
same place as the key itself.
-/
namespace TableGateway

open TableGateway.Entries

/-- A row of the store: its key, the item that it gives, and whether a query lets it pass. -/
structure Row where
  key : Fields
  item : Value
  passes : Bool

namespace Row

/-- What can stand in a key: texts, bytes and finite numbers. -/
def IsKeyValue : Value → Prop
  | .text _ | .blob _ => True
  | .number n => n.IsFinite
  | _ => False

/-- A row whose key is one of the store. -/
structure Keyed (r : Row) : Prop where
  nonempty : r.key ≠ []
  distinct : (keys r.key).Nodup
  values : ∀ e ∈ r.key, IsKeyValue e.2
  accepted : ∀ e ∈ r.key, ∃ a, Attribute.ofValue e.2 = .ok a

/-- Is there no lone half in the key of a row? -/
def Unbroken (r : Row) : Prop := (Value.map r.key).Unbroken

theorem regular_of_isKeyValue {v : Value} (h : IsKeyValue v) : v.Regular := by
  cases v with
  | number n => exact h
  | text | blob => trivial
  | _ => exact h.elim

theorem Keyed.isKey {r : Row} (h : r.Keyed) (hu : r.Unbroken) : Token.IsKey r.key where
  nonempty := h.nonempty
  regular := ⟨h.distinct,
    (Value.regularEntries_iff r.key).mpr fun e he => regular_of_isKeyValue (h.values e he)⟩
  unbroken := hu
  accepted := h.accepted

theorem same_of_isKeyValue {v : Value} (h : IsKeyValue v) : v.same v := by
  cases v with
  | number n =>
    obtain ⟨x, hx⟩ : ∃ x, n.exactForm? = some x := by
      cases n with
      | int n => exact ⟨_, rfl⟩
      | float x => cases x <;> first | exact ⟨_, rfl⟩ | exact h.elim
      | decimal d => cases d <;> first | exact ⟨_, rfl⟩ | exact h.elim
    simp [Value.same, Value.sameNumber, Value.exactForm?, Value.number?, hx]
  | text s => simp [Value.same]
  | blob b => simp [Value.same]
  | _ => exact h.elim

end Row

/-- The rows after the one with a key, or all of them where there is none to go on after. -/
def remaining (rows : List Row) : Option Value → List Row
  | none => rows
  | some key => (rows.dropWhile fun r => !(Value.map r.key).same key).drop 1

/-- The items of the rows that pass. -/
def passing (rows : List Row) : List Value := (rows.filter Row.passes).map Row.item

/-- An answer to a request for rows of which these are left: some were examined, others not. -/
structure CursorReply (left : List Row) (request reply : Fields) (examined rest : List Row) :
    Prop where
  split : left = examined ++ rest
  progress : left ≠ [] → examined ≠ []
  within : ∀ n : Nat, 1 ≤ n → get? request "Limit" = some (.int n) → examined.length ≤ n
  items : get? reply "Items" = some (.list (passing examined)) ∨
    (get? reply "Items" = none ∧ passing examined = [])
  lastKey : (Provider.lastKeyOf reply = .null ∧ rest = []) ∨
    ∃ r, examined.getLast? = some r ∧ Provider.lastKeyOf reply = .map r.key

/-- Is a request the given one up to its limit and the key to go on after? -/
def Asks (base request : Fields) : Prop :=
  ∀ field : Text, field ≠ "ExclusiveStartKey" → field ≠ "Limit" → get? request field = get? base field

/-- Calls that are answered by a cursor over the rows, however many it examines at a time. -/
def IsCursor {σ : Type} (call : Fields → Session σ Fields) (base : Fields) (rows : List Row) :
    Prop :=
  ∀ request w, Asks base request → ∃ reply w' examined rest, call request w = (.ok reply, w') ∧
    CursorReply (remaining rows (get? request "ExclusiveStartKey")) request reply examined rest

/-- A client that is a cursor is one behind an executor that hands it values as they are. -/
theorem isCursor_of_client {σ : Type} {client : Client σ} {base : Fields} {rows : List Row}
    (h : ∀ request s, Asks base request → ∃ reply s' examined rest,
      client.answer ⟨.query, request⟩ s = (.ok reply, s') ∧
      CursorReply (remaining rows (get? request "ExclusiveStartKey")) request reply examined rest)
    (logCalls : Value) : IsCursor (Executor.call ⟨client, .resource, logCalls⟩ .query) base rows := by
  intro request w hasks
  obtain ⟨reply, s', examined, rest, hanswer, hreply⟩ := h request w.client hasks
  obtain ⟨log, hlog⟩ := logCall_apply ⟨client, .resource, logCalls⟩ ⟨.query, request⟩ w
  refine ⟨reply, ⟨s', w.waits, log⟩, examined, rest, ?_, hreply⟩
  simp only [Executor.call, Session.bind_apply, hlog, Executor.send, Session.ask_apply, hanswer]

/-- Keys of no two rows are the same. -/
def DistinctKeys (rows : List Row) : Prop :=
  rows.Pairwise fun r r' => ¬(Value.map r.key).same (.map r'.key)

theorem same_key {r : Row} (h : r.Keyed) : (Value.map r.key).same (.map r.key) := by
  have hid : mapValues id r.key = r.key := by simp [mapValues]
  refine Value.same_map (f := id) h.distinct (by rw [hid]) fun e he => ?_
  exact Row.same_of_isKeyValue (h.values e he)

theorem remaining_last {rows before examined rest : List Row} {r : Row} (hk : ∀ r ∈ rows, r.Keyed)
    (hd : DistinctKeys rows) (hrows : rows = before ++ (examined ++ rest))
    (hlast : examined.getLast? = some r) : remaining rows (some (.map r.key)) = rest := by
  obtain ⟨front, rfl⟩ : ∃ front, examined = front ++ [r] := by
    obtain ⟨front, h⟩ := List.getLast?_eq_some_iff.mp hlast
    exact ⟨front, h⟩
  have hsplit : rows = (before ++ front) ++ r :: rest := by simp [hrows]
  have hsame : (Value.map r.key).same (.map r.key) := same_key (hk r (by simp [hsplit]))
  have hfront : ∀ r' ∈ before ++ front, (!(Value.map r'.key).same (.map r.key)) = true := by
    intro r' hr'
    rw [DistinctKeys, hsplit, List.pairwise_append] at hd
    simpa using hd.2.2 r' hr' r (by simp)
  rw [remaining, hsplit, List.dropWhile_append_of_pos hfront,
    List.dropWhile_cons_of_neg (by simp [hsame])]
  rfl

theorem same_number {m n : Number} (h : m.exactForm? = n.exactForm?) (v : Value) :
    v.same (.number m) = v.same (.number n) := by
  cases v <;> simp [Value.same, Value.exactForm?, Value.number?, Value.isNull, h]

/-- A finite number comes out of a token as a decimal. -/
theorem handedBack_number {n : Number} (h : n.IsFinite) {d : Text}
    (hd : Attribute.digitsOfNumber n = .ok d) :
    Token.handedBack (.number n) = .number (.decimal (Attribute.decimalOf n)) := by
  rw [← Attribute.decimalValue_digits h hd]
  simp [Token.handedBack, Token.accepted, Attribute.ofValue, hd, Except.toOption, Attribute.value,
    Attribute.decimalValue, Value.settled]

/-- No value is told from a value that can stand in a key by its having gone through a token. -/
theorem same_handedBack {v : Value} (h : Row.IsKeyValue v) (ha : ∃ a, Attribute.ofValue v = .ok a)
    (w : Value) : w.same (Token.handedBack v) = w.same v := by
  cases v with
  | text s => rfl
  | blob b =>
    cases w <;> simp [Token.handedBack, Token.accepted, Attribute.ofValue, Except.toOption,
      Attribute.value, Value.settled, Value.same, Value.isNull, Value.exactForm?, Value.number?]
  | number n =>
    obtain ⟨a, ha⟩ := ha
    rw [Attribute.ofValue] at ha
    obtain ⟨d, hd, -⟩ := Result.map_eq_ok.mp ha
    rw [handedBack_number h hd]
    refine same_number ?_ w
    cases n with
    | int n => rfl
    | float x => simp [Attribute.digitsOfNumber] at hd
    | decimal d => rfl
  | _ => exact h.elim

theorem sameEntries_handedBack {r : Row} (h : r.Keyed) (es : Fields) :
    Value.sameEntries es (mapValues Token.handedBack (Token.sortKeys r.key)) =
      Value.sameEntries es r.key := by
  induction es with
  | nil => rfl
  | cons e es ih =>
    obtain ⟨k, v⟩ := e
    rw [Value.sameEntries, Value.sameEntries, ih, Token.get?_handedBack h.distinct]
    cases hw : get? r.key k with
    | none => rfl
    | some w =>
      have he := mem_of_get? hw
      simp only [Option.map_some, same_handedBack (h.values _ he) (h.accepted _ he)]

theorem same_map_handedBack {r : Row} (h : r.Keyed) (es : Fields) :
    (Value.map es).same (.map (mapValues Token.handedBack (Token.sortKeys r.key))) =
      (Value.map es).same (.map r.key) := by
  have hall : (mapValues Token.handedBack (Token.sortKeys r.key)).all (fun e => has es e.1) =
      r.key.all fun e => has es e.1 := by
    have hcomp : (fun e : Text × Value => has es e.1) ∘
        (fun e : Text × Value => (e.1, Token.handedBack e.2)) = fun e => has es e.1 := rfl
    rw [mapValues, List.all_map, hcomp]
    exact (Token.sortKeys_perm r.key).all_eq
  rw [Value.same, Value.same, sameEntries_handedBack h, hall]

/-- A key that went through a token is found in the same place. -/
theorem remaining_handedBack {r : Row} (h : r.Keyed) (rows : List Row) :
    remaining rows (some (.map (mapValues Token.handedBack (Token.sortKeys r.key)))) =
      remaining rows (some (.map r.key)) := by
  have hsame : (fun r' : Row => !(Value.map r'.key).same
      (.map (mapValues Token.handedBack (Token.sortKeys r.key)))) =
      fun r' => !(Value.map r'.key).same (.map r.key) := by
    funext r'
    rw [same_map_handedBack h]
  rw [remaining, remaining, hsame]

end TableGateway
