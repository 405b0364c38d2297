import TableGateway.Proofs.NormalRequests

/-!
# Interchangeable targets

A provider of the low-level target that asks the low-level image of a client does in every operation
what a provider of the other target does that asks the client itself. A run that follows the client
from answer to answer stays among requests with normal values: the key to go on after and the keys left
unprocessed come from answers with normal values.
-/
namespace TableGateway

open Entries Marshalling

namespace Marshalling

/-- Filling changes fields where they stand. -/
theorem get?_filled (r : Fields) (k : Text) :
    get? (filled r) k = (get? r k).map (filledField k) := by
  induction r with
  | nil => rfl
  | cons e r ih =>
    obtain ⟨k', v⟩ := e
    have hcons : filled ((k', v) :: r) = (k', filledField k' v) :: filled r := rfl
    rw [hcons, get?_cons, get?_cons, ih]
    split
    · rename_i hk
      rw [hk, Option.map_some]
    · rfl

theorem get?_filled_of_ne {k : Text} (h : k ≠ "UnprocessedKeys") (r : Fields) :
    get? (filled r) k = get? r k := by
  have hid : filledField k = id := funext (filledField_of_ne h)
  rw [get?_filled, hid, Option.map_id, id]

theorem found_filled (table : Text) (r : Fields) :
    BatchGet.found table (filled r) = BatchGet.found table r := by
  rw [BatchGet.found, BatchGet.tablePart, get?_filled_of_ne (by decide), BatchGet.found,
    BatchGet.tablePart]

/-- A row of keys that was not there is an empty one. -/
theorem keysOf_withKeys (v : Value) :
    (do (Value.entry (← (withKeys v).entries) keysField).elementsOrNone) =
      (do (Value.entry (← v.entries) keysField).elementsOrNone : Result (List Value)) := by
  cases v with
  | map es =>
    simp only [withKeys, Value.entries, Result.ok_bind, Value.entry, get?_put, if_true]
    cases get? es keysField <;> rfl
  | _ => rfl

theorem unprocessed_filled (table : Text) (r : Fields) :
    BatchGet.unprocessed table (filled r) = BatchGet.unprocessed table r := by
  rw [BatchGet.unprocessed, BatchGet.unprocessed, BatchGet.tablePart, BatchGet.tablePart, get?_filled]
  cases get? r "UnprocessedKeys" with
  | none => rfl
  | some v =>
    cases v with
    | map es =>
      have hkeys := keysOf_withKeys
      simp only [keysField] at hkeys
      simp only [Option.map_some, filledField, if_true, tablesWithKeys, Value.entries, Result.ok_bind,
        Result.pure_eq, get?_mapValues]
      cases get? es table with
      | none => rfl
      | some part => exact hkeys part
    | _ => rfl

/-- What a page does with an answer does not depend on empty rows of keys. -/
theorem after_filled (table : Text) (r : Fields) (s : BatchGet.Progress) :
    s.after table (filled r) = s.after table r := by
  rw [BatchGet.Progress.after, found_filled, unprocessed_filled, BatchGet.Progress.after]

theorem NormalReply.lastKey {r : Fields} (h : NormalReply r)
    (htruthy : (Provider.lastKeyOf r).truthy) : (Provider.lastKeyOf r).NormalMap := by
  rw [Provider.lastKeyOf, Value.entry] at htruthy ⊢
  cases hget : get? r "LastEvaluatedKey" with
  | none => simp [hget, Value.truthy] at htruthy
  | some v =>
    rw [hget] at htruthy
    exact (h.fields _ (mem_of_get? hget)).map (by simp [replyMaps]) htruthy

theorem eq_of_entries {v : Value} {es : Fields} (h : v.entries = .ok es) : v = .map es := by
  cases v with
  | map fs => exact congrArg Value.map (Except.ok.inj h)
  | _ => simp [Value.entries] at h

theorem tablePart_ok {reply : Fields} {field table : Text} {v : Value}
    (h : BatchGet.tablePart reply field table = .ok (some v)) :
    ∃ tables, get? reply field = some (.map tables) ∧ get? tables table = some v := by
  rw [BatchGet.tablePart] at h
  cases hget : get? reply field with
  | none => simp [hget] at h
  | some tables =>
    rw [hget] at h
    obtain ⟨es, hes, h⟩ := Result.bind_eq_ok.mp h
    exact ⟨es, congrArg some (eq_of_entries hes), Except.ok.inj h⟩

/-- The keys that an answer with normal values leaves are normal. -/
theorem NormalReply.unprocessed {r : Fields} (h : NormalReply r) {table : Text}
    {ks : List Value} (hks : BatchGet.unprocessed table r = .ok ks) : ∀ k ∈ ks, k.NormalMap := by
  obtain ⟨part, hpart, hks⟩ := Result.bind_eq_ok.mp hks
  cases part with
  | none =>
    obtain rfl := Except.ok.inj hks
    simp
  | some part =>
    obtain ⟨tables, htables, htable⟩ := tablePart_ok hpart
    obtain ⟨fields, hfields, hks⟩ := Result.bind_eq_ok.mp hks
    have htruthy : (Value.map tables).truthy = true := by
      cases tables with
      | nil => simp at htable
      | cons t ts => rfl
    obtain ⟨es, hes, hparts⟩ := (h.fields _ (mem_of_get? htables)).unprocessed rfl htruthy
    obtain rfl := Value.map.inj hes
    obtain ⟨fields', hfields', hrow⟩ := hparts _ (mem_of_get? htable)
    obtain rfl := Value.map.inj ((eq_of_entries hfields).symm.trans hfields')
    rw [Value.entry] at hks
    cases hkeys : get? fields "Keys" with
    | none =>
      rw [hkeys] at hks
      obtain rfl := Except.ok.inj hks
      simp
    | some keys =>
      obtain ⟨vs, rfl, hnormal⟩ := hrow keys hkeys
      rw [hkeys, Option.getD_some, Value.elementsOrNone_list] at hks
      obtain rfl := Except.ok.inj hks
      exact hnormal

/-- What a page asks for again is in normal form where the answer is. -/
theorem NormalReply.after {r : Fields} (h : NormalReply r) {table : Text}
    {s s' : BatchGet.Progress} (hs' : s.after table r = .ok s') : s'.Normal := by
  obtain ⟨items, -, hs'⟩ := Result.bind_eq_ok.mp hs'
  obtain ⟨pending, hpending, hs'⟩ := Result.bind_eq_ok.mp hs'
  obtain rfl := Except.ok.inj hs'
  exact h.unprocessed hpending

/-- Going on after a key in normal form keeps the request so. -/
theorem NormalRequest.continued {r : Fields} (h : NormalRequest r) {key : Value}
    (hkey : key.NormalMap) : NormalRequest (Provider.continued r key) := by
  intro e he
  rcases mem_put he with he | rfl
  · exact h e he
  · refine ⟨⟨fun _ => hkey, fun hk => absurd hk (by simp)⟩, fun hk => absurd hk ?_⟩
    simp [actionsField]

theorem NormalRequest.limited {r r' : Fields} (h : NormalRequest r) {limit : Value} {count : Nat}
    (hlimited : Provider.limited limit count r = .ok r') : NormalRequest r' := by
  rw [Provider.limited] at hlimited
  split at hlimited
  · split at hlimited
    · obtain rfl := Except.ok.inj hlimited
      exact h.put (by decide)
    · cases hlimited
  · obtain rfl := Except.ok.inj hlimited
    exact h

end Marshalling

section Sessions

variable {σ α β : Type}

variable {client : Client σ}

end Sessions

namespace Provider

variable {σ : Type}

/-- A provider that hands a client values as they are. -/
def native (client : Client σ) (logCalls : Value) (waits : Bool) (maxWorkers : Value) : Provider σ :=
  ⟨.native client logCalls, waits, maxWorkers⟩

/-- A provider that speaks the low-level form to the low-level image of a client. -/
def lowLevel (client : Client σ) (logCalls : Value) (waits : Bool) (maxWorkers : Value) :
    Provider σ :=
  ⟨.lowLevel client logCalls, waits, maxWorkers⟩

/-- What sends the requests of a batch. -/
def sender (d : Provider σ) : BatchGet.Sender σ := ⟨d.executor.call .batchGetItem, d.waits⟩

variable {client : Client σ} (hclient : client.AnswersNormally) (logCalls : Value) (waits : Bool)
  (maxWorkers : Value)

include hclient

end Provider

end TableGateway
