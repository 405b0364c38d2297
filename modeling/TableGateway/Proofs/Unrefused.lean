import TableGateway.Proofs.Entries
import TableGateway.Proofs.Outcomes
import TableGateway.Session.Provider

/-!
# Readings that refuse nothing

A refusal is a fault that the gateway finds in what its caller asks for. Reading a value, marshalling
it, comparing it and writing a token can all go wrong, but none of them with a refusal: their faults
are those of a value that cannot be used so.
-/
namespace TableGateway

/-- Is no fault of a result a refusal? -/
def Unrefused {α : Type} (r : Result α) : Prop := ∀ f, r = .error f → f.isRefusal = false

namespace Unrefused

variable {α β : Type}

/-- What is found is no fault at all. -/
theorem ok (a : α) : Unrefused (.ok a) := fun _ h => by cases h

theorem error {f : Fault} (h : f.isRefusal = false) : Unrefused (.error f : Result α) := by
  rintro _ ⟨⟩
  exact h

/-- A chain refuses nothing where its first step refuses nothing and neither does what follows what
was found. -/
theorem bind_of_ok {r : Result α} {g : α → Result β} (h : Unrefused r)
    (hg : ∀ a, r = .ok a → Unrefused (g a)) : Unrefused (r >>= g) := by
  cases r with
  | ok a => exact hg a rfl
  | error f => exact error (h f rfl)

theorem bind {r : Result α} {g : α → Result β} (h : Unrefused r) (hg : ∀ a, Unrefused (g a)) :
    Unrefused (r >>= g) := h.bind_of_ok fun a _ => hg a

theorem map {r : Result α} (h : Unrefused r) (g : α → β) : Unrefused (g <$> r) :=
  fun f hf => h f (Result.map_eq_error.mp hf)

/-- A row is read without a refusal where each member is. -/
theorem mapM {g : α → Result β} (h : ∀ a, Unrefused (g a)) (xs : List α) : Unrefused (xs.mapM g) :=
  fun _ hf => Result.fault_of_mapM (P := fun f : Fault => f.isRefusal = false) h hf

/-- The same for a row that is gone through with something carried along. -/
theorem foldlM {g : β → α → Result β} (h : ∀ b a, Unrefused (g b a)) (b : β) (xs : List α) :
    Unrefused (xs.foldlM g b) := by
  induction xs generalizing b with
  | nil => exact ok b
  | cons x xs ih =>
    rw [List.foldlM_cons]
    exact (h b x).bind fun b' => ih b'

theorem ite {c : Prop} [Decidable c] {r s : Result α} (hr : Unrefused r) (hs : Unrefused s) :
    Unrefused (if c then r else s) := by
  split
  · exact hr
  · exact hs

end Unrefused

open Unrefused

namespace Value

/-- What cannot be gone through is of the wrong type, which no caller is refused for. -/
theorem unrefused_elements (v : Value) : Unrefused v.elements := by
  rw [elements]
  split
  · exact ok _
  · exact error rfl

theorem unrefused_elementsOrNone (v : Value) : Unrefused v.elementsOrNone :=
  .ite v.unrefused_elements (ok _)

theorem unrefused_entries (v : Value) : Unrefused v.entries := by
  cases v with
  | map es => exact ok es
  | _ => exact error rfl

theorem unrefused_pair (v : Value) : Unrefused v.pair := by
  rw [pair]
  split
  · exact error rfl
  · exact .ite (ok _) (error rfl)
  · exact error rfl

/-- Neither a member that is no pair nor a key that cannot be hashed is a refusal. -/
theorem unrefused_toMap (v : Value) : Unrefused v.toMap := by
  rw [toMap.eq_def]
  split
  · exact ok _
  · exact (unrefused_elements _).bind fun xs => (mapM unrefused_pair xs).bind fun _ => ok _

/-- Comparing signals an invalid operation at most. -/
theorem unrefused_equals (v w : Value) : Unrefused (v.equals w) := .ite (error rfl) (ok _)

/-- Two values without an order are of the wrong type, and a number that is none signals. -/
theorem unrefused_order (v w : Value) : Unrefused (v.order w) := by
  rw [order]
  split
  · split
    · exact ok _
    · exact .ite (error rfl) (ok _)
  · exact error rfl

mutual

/-- Rows are compared member by member, so their order is no refusal where that of the members is
none. -/
theorem unrefused_lessThan : (v w : Value) → Unrefused (v.lessThan w)
  | .list xs, w => by
    cases w with
    | list ys => exact unrefused_lessThanRow xs ys
    | _ => exact (unrefused_order _ _).bind fun _ => ok _
  | .tuple xs, w => by
    cases w with
    | tuple ys => exact unrefused_lessThanRow xs ys
    | _ => exact (unrefused_order _ _).bind fun _ => ok _
  | .text s, w => by
    cases w with
    | text t => exact ok _
    | _ => exact (unrefused_order _ _).bind fun _ => ok _
  | .blob b, w => by
    cases w with
    | blob c => exact .ite (error rfl) (ok _)
    | _ => exact (unrefused_order _ _).bind fun _ => ok _
  | .set _ xs, w => by
    cases w with
    | set _ ys => exact ok _
    | _ => exact (unrefused_order _ _).bind fun _ => ok _
  | .null, _ | .bool _, _ | .number _, _ | .map _, _ | .record .., _ | .anything, _ | .object _, _ =>
    (unrefused_order _ _).bind fun _ => ok _

theorem unrefused_lessThanRow : (xs ys : List Value) → Unrefused (lessThanRow xs ys)
  | [], _ => ok _
  | _ :: _, [] => ok _
  | x :: xs, y :: ys => (x.unrefused_equals y).bind fun _ =>
    .ite (unrefused_lessThanRow xs ys) (unrefused_lessThan x y)

end

theorem unrefused_insertFromEnd (v : Value) (ws : List Value) : Unrefused (v.insertFromEnd ws) := by
  induction ws with
  | nil => exact ok _
  | cons w ws ih =>
    exact (v.unrefused_lessThan w).bind fun _ => .ite (ih.bind fun _ => ok _) (ok _)

/-- Sorting compares and nothing else. -/
theorem unrefused_sort (vs : List Value) : Unrefused (sort vs) :=
  (foldlM (fun _ v => v.unrefused_insertFromEnd _) [] vs).bind fun _ => ok _

theorem unrefused_placed (xs : List Value) (n : Int) : Unrefused (placed xs n) := by
  rw [placed]
  split
  · exact ok _
  · exact error rfl

/-- A place beyond the row is a fault of the lookup. -/
theorem unrefused_memberAt (v place : Value) : Unrefused (v.memberAt place) := by
  cases v with
  | list _ | tuple _ | blob _ =>
    refine (unrefused_elements _).bind fun xs => ?_
    split
    · exact unrefused_placed xs _
    · exact error rfl
  | _ => exact error rfl

end Value

namespace Attribute

/-- A decimal that cannot be stored signals. -/
theorem unrefused_storedDecimal (d : Decimal) : Unrefused (storedDecimal d) := by
  rw [storedDecimal]
  split
  · exact ok _
  · exact error rfl

theorem unrefused_digitsOfNumber (n : Number) : Unrefused (digitsOfNumber n) := by
  cases n with
  | float x => exact error rfl
  | int n => exact (unrefused_storedDecimal _).map _
  | decimal d => exact (unrefused_storedDecimal d).bind fun _ => .ite (error rfl) (ok _)

/-- Only numbers have digits; anything else is of the wrong type. -/
theorem unrefused_digits (v : Value) : Unrefused (digits v) := by
  rw [digits]
  split
  · exact unrefused_digitsOfNumber _
  · exact error rfl

/-- The members of a set have one kind, or the set has no attribute value. -/
theorem unrefused_ofSet (vs : List Value) : Unrefused (ofSet vs) := by
  rw [ofSet]
  split
  · exact (mapM unrefused_digits vs).map _
  · split
    · exact ok _
    · exact ok _
    · exact error rfl

mutual

/-- Writing an attribute value goes wrong without a refusal, at every depth. -/
theorem unrefused_ofValue : (v : Value) → Unrefused (ofValue v)
  | .null | .bool _ | .text _ | .blob _ => ok _
  | .number n => (unrefused_digitsOfNumber n).map _
  | .set _ vs => unrefused_ofSet vs
  | .map es => (unrefused_ofEntries es).map _
  | .list vs | .tuple vs => (unrefused_ofValues vs).map _
  | .record .. | .anything | .object _ => error rfl

theorem unrefused_ofValues : (vs : List Value) → Unrefused (ofValues vs)
  | [] => ok _
  | v :: vs => (unrefused_ofValue v).bind fun _ => (unrefused_ofValues vs).bind fun _ => ok _

theorem unrefused_ofEntries : (es : List (Text × Value)) → Unrefused (ofEntries es)
  | [] => ok _
  | (_, v) :: es => (unrefused_ofValue v).bind fun _ => (unrefused_ofEntries es).bind fun _ => ok _

end

theorem unrefused_wholeOf (v : Value) : Unrefused (wholeOf v) := by
  rw [wholeOf]
  split
  · exact .ite (error rfl) (ok _)
  · exact error rfl

theorem unrefused_signOf (v : Value) : Unrefused (signOf v) := by
  refine (unrefused_wholeOf v).bind fun n => ?_
  split
  · exact ok _
  · exact ok _
  · exact error rfl

theorem unrefused_digitOf (v : Value) : Unrefused (digitOf v) :=
  (unrefused_wholeOf v).bind fun _ => .ite (ok _) (error rfl)

theorem unrefused_scaleOf (v : Value) : Unrefused (scaleOf v) := by
  rw [scaleOf.eq_def]
  split
  · exact ok _
  · exact ok _
  · exact ok _
  · exact (unrefused_wholeOf _).map _

theorem unrefused_digitsOf (v : Value) : Unrefused (digitsOf v) := by
  rw [digitsOf.eq_def]
  split
  · exact mapM unrefused_digitOf _
  · exact mapM unrefused_digitOf _
  · exact error rfl

/-- A row that spells a decimal: sign, digits and scale are each read without a refusal. -/
theorem unrefused_decimalOfRow (vs : List Value) : Unrefused (decimalOfRow vs) := by
  rw [decimalOfRow.eq_def]
  split
  · exact (unrefused_signOf _).bind fun _ => (unrefused_scaleOf _).bind fun _ =>
      (unrefused_digitsOf _).bind fun _ => ok _
  · exact error rfl

/-- Text, numbers and rows are read as decimals and then stored. -/
theorem unrefused_decodeNumber (body : Value) : Unrefused (decodeNumber body) := by
  have hrest : ∀ d, Unrefused (storedDecimal d >>= fun d => .ok (Value.number (.decimal d))) :=
    fun d => (unrefused_storedDecimal d).bind fun _ => ok _
  rw [decodeNumber.eq_def]
  split
  · exact hrest _
  · exact hrest _
  · exact hrest _
  · exact (unrefused_decimalOfRow _).bind hrest
  · exact (unrefused_decimalOfRow _).bind hrest
  · exact error rfl

theorem unrefused_decodeBytes (v : Value) : Unrefused (decodeBytes v) := by
  cases v with
  | blob b => exact .ite (error rfl) (ok _)
  | _ => exact error rfl

/-- A member that cannot be hashed ends the reading of a set. -/
theorem unrefused_decodeMembers {read : Value → Result Value} (h : ∀ v, Unrefused (read v))
    (vs : List Value) : Unrefused (decodeMembers read vs) := by
  induction vs with
  | nil => exact ok _
  | cons v vs ih =>
    refine (h v).bind fun w => ?_
    split
    · exact error rfl
    · exact ih.bind fun _ => ok _

theorem unrefused_decodeSet {read : Value → Result Value} (h : ∀ v, Unrefused (read v))
    (body : Value) : Unrefused (decodeSet read body) :=
  body.unrefused_elements.bind fun _ => (unrefused_decodeMembers h _).bind fun _ => ok _

/-- A body that is no list is read as a row that must be empty. -/
theorem unrefused_decodeList_other {v : Value}
    (h : decodeList v = (v.elements >>= fun vs => match vs with
      | [] => .ok (.list [])
      | w :: _ => .error (if w.truthy then .noSuchPart else .wrongType))) :
    Unrefused (decodeList v) := by
  rw [h]
  refine v.unrefused_elements.bind fun vs => ?_
  split
  · exact ok _
  · refine error ?_
    split <;> rfl

mutual

/-- Reading an attribute value goes wrong without a refusal, at every depth. -/
theorem unrefused_decode : (v : Value) → Unrefused (decode v)
  | .map ((tag, body) :: _) => by
    rw [decode]
    split
    · exact error rfl
    · exact ok _
    · exact ok _
    · exact unrefused_decodeNumber body
    · exact unrefused_decodeBytes body
    · exact unrefused_decodeSet unrefused_decodeNumber body
    · exact unrefused_decodeSet ok body
    · exact unrefused_decodeSet unrefused_decodeBytes body
    · exact unrefused_decodeList body
    · exact unrefused_decodeMap body
  | .map [] | .null | .bool _ | .number _ | .text _ | .blob _ | .list _ | .tuple _ | .set _ _
  | .record .. | .anything | .object _ => by
    refine error ?_
    split <;> rfl

theorem unrefused_decodeList : (v : Value) → Unrefused (decodeList v)
  | .list vs | .tuple vs | .set _ vs => (unrefused_decodeAll vs).map _
  | .map _ | .null | .bool _ | .number _ | .text _ | .blob _ | .record .. | .anything | .object _ =>
    unrefused_decodeList_other rfl

theorem unrefused_decodeMap : (v : Value) → Unrefused (decodeMap v)
  | .map es => (unrefused_decodeEntries es).map _
  | .list _ | .tuple _ | .set _ _ | .null | .bool _ | .number _ | .text _ | .blob _ | .record ..
  | .anything | .object _ => error rfl

theorem unrefused_decodeAll : (vs : List Value) → Unrefused (decodeAll vs)
  | [] => ok _
  | v :: vs => (unrefused_decode v).bind fun _ => (unrefused_decodeAll vs).bind fun _ => ok _

theorem unrefused_decodeEntries : (es : List (Text × Value)) → Unrefused (decodeEntries es)
  | [] => ok _
  | (_, v) :: es =>
    (unrefused_decode v).bind fun _ => (unrefused_decodeEntries es).bind fun _ => ok _

end

end Attribute

namespace Marshalling

open Attribute

/-- An item or a key is marshalled entry by entry. -/
theorem unrefused_marshalMap (v : Value) : Unrefused (marshalMap v) :=
  v.unrefused_entries.bind fun es => (unrefused_ofEntries es).bind fun _ => ok _

theorem unrefused_unmarshalMap (v : Value) : Unrefused (unmarshalMap v) :=
  v.unrefused_entries.bind fun es => (unrefused_decodeEntries es).bind fun _ => ok _

/-- The keys that a batch asks of one table. -/
theorem unrefused_marshalTable (v : Value) : Unrefused (marshalTable v) := by
  cases v with
  | map es =>
    rw [marshalTable]
    split
    · exact error rfl
    · exact (Value.unrefused_elements _).bind fun ks =>
        (mapM unrefused_marshalMap ks).bind fun _ => ok _
  | _ => exact error rfl

theorem unrefused_mapEntries {f : Value → Result Value} (h : ∀ v, Unrefused (f v)) (es : Fields) :
    Unrefused (mapEntries f es) := by
  induction es with
  | nil => exact ok _
  | cons e es ih => exact (h e.2).bind fun _ => ih.bind fun _ => ok _

theorem unrefused_marshalTables (v : Value) : Unrefused (marshalTables v) :=
  v.unrefused_entries.bind fun es => (unrefused_mapEntries unrefused_marshalTable es).bind fun _ => ok _

/-- Fields that have been dealt with one by one. -/
theorem unrefused_settle {es : Entries (Result Value)} (h : ∀ e ∈ es, Unrefused e.2) :
    Unrefused (settle es) := by
  rw [settle]
  split
  · rename_i f hf
    obtain ⟨key, -, hkey⟩ := List.exists_of_findSome?_eq_some hf
    rw [faultIn?] at hkey
    split at hkey
    · rename_i f' hget
      obtain rfl := Option.some.inj hkey
      exact error (h _ (Entries.mem_of_get? hget) _ rfl)
    · cases hkey
  · exact ok _

theorem unrefused_marshalField (k : Text) (v : Value) : Unrefused (marshalField k v) :=
  .ite (unrefused_marshalMap v) (.ite (unrefused_marshalTables v) (ok _))

theorem unrefused_marshalOther (v : Value) : Unrefused (marshalOther v) := by
  refine v.unrefused_elements.bind fun vs => ?_
  split
  · exact ok _
  · exact error rfl

theorem unrefused_marshalLeaf (k : Text) (v : Value) : Unrefused (marshalLeaf k v) :=
  .ite (unrefused_marshalOther v) (unrefused_marshalField k v)

mutual

/-- Each field of a request for itself: none of its faults is a refusal. -/
theorem unrefused_marshalFields : (es : List (Text × Value)) →
    ∀ e ∈ marshalFields es, Unrefused e.2
  | [], e, he => by cases he
  | (k, v) :: es, e, he => by
    rcases List.mem_cons.mp he with rfl | he
    · exact .ite (unrefused_marshalActions v) (unrefused_marshalField k v)
    · exact unrefused_marshalFields es e he

theorem unrefused_marshalActions : (v : Value) → Unrefused (marshalActions v)
  | .list vs | .tuple vs | .set _ vs => (unrefused_marshalAll vs).map _
  | .map _ | .null | .bool _ | .number _ | .text _ | .blob _ | .record .. | .anything | .object _ =>
    unrefused_marshalOther _

theorem unrefused_marshalAll : (vs : List Value) → Unrefused (marshalAll vs)
  | [] => ok _
  | v :: vs => (unrefused_marshalAction v).bind fun _ => (unrefused_marshalAll vs).bind fun _ => ok _

theorem unrefused_marshalAction : (v : Value) → Unrefused (marshalAction v)
  | .map es => (unrefused_marshalBodies es).map _
  | .list _ | .tuple _ | .set _ _ | .null | .bool _ | .number _ | .text _ | .blob _ | .record ..
  | .anything | .object _ => error rfl

theorem unrefused_marshalBodies : (es : List (Text × Value)) → Unrefused (marshalBodies es)
  | [] => ok _
  | (_, v) :: es =>
    (unrefused_marshalBody v).bind fun _ => (unrefused_marshalBodies es).bind fun _ => ok _

theorem unrefused_marshalBody : (v : Value) → Unrefused (marshalBody v)
  | .map es => (unrefused_settle (unrefused_marshalFields es)).map _
  | .list vs | .tuple vs | .set _ vs =>
    (unrefused_marshalPairs vs).1.bind_of_ok fun ps hps =>
      (unrefused_settle fun e he =>
        (unrefused_marshalPairs vs).2 ps hps e (Entries.mem_of_mem_ofPairs he)).bind fun _ => ok _
  | .null | .bool _ | .number _ | .text _ | .blob _ | .record .. | .anything | .object _ =>
    (Value.unrefused_toMap _).map _

/-- Both the reading of the pairs and what each of them holds: the pairs are read first and dealt
with later. -/
theorem unrefused_marshalPairs : (vs : List Value) → Unrefused (marshalPairs vs) ∧
    ∀ ps, marshalPairs vs = .ok ps → ∀ e ∈ ps, Unrefused e.2
  | [] => ⟨ok _, fun ps h e he => by cases h; cases he⟩
  | v :: vs => by
    obtain ⟨hpair, hread⟩ := unrefused_marshalPair v
    obtain ⟨hpairs, hreads⟩ := unrefused_marshalPairs vs
    refine ⟨hpair.bind fun _ => hpairs.bind fun _ => ok _, fun ps h e he => ?_⟩
    obtain ⟨p, hp, h⟩ := Result.bind_eq_ok.mp h
    obtain ⟨rest, hrest, h⟩ := Result.bind_eq_ok.mp h
    obtain rfl := Except.ok.inj h
    rcases List.mem_cons.mp he with rfl | he
    · exact hread _ hp
    · exact hreads rest hrest e he

theorem unrefused_marshalPair : (v : Value) → Unrefused (marshalPair v) ∧
    ∀ p, marshalPair v = .ok p → Unrefused p.2
  | .list vs | .tuple vs | .set _ vs => unrefused_marshalRow vs
  | .map _ | .null | .bool _ | .number _ | .text _ | .blob _ | .record .. | .anything | .object _ => by
    refine ⟨(Value.unrefused_pair _).bind fun _ => ok _, fun p h => ?_⟩
    obtain ⟨_, -, h⟩ := Result.bind_eq_ok.mp h
    obtain rfl := Except.ok.inj h
    exact unrefused_marshalLeaf _ _

theorem unrefused_marshalRow : (vs : List Value) → Unrefused (marshalRow vs) ∧
    ∀ p, marshalRow vs = .ok p → Unrefused p.2
  | [k, v] => by
    rw [marshalRow]
    refine ⟨.ite (ok _) (error rfl), fun p h => ?_⟩
    split at h
    · obtain rfl := Except.ok.inj h
      exact .ite (unrefused_marshalActions v) (unrefused_marshalField _ v)
    · cases h
  | [] | [_] | _ :: _ :: _ :: _ => ⟨error rfl, fun p h => by cases h⟩

end

/-- A request is marshalled without a refusal. -/
theorem unrefused_request (r : Fields) : Unrefused (request r) :=
  unrefused_settle (unrefused_marshalFields r)

/-- One field of an answer, where it is there and wanted. -/
theorem unrefused_replaced {f : Value → Result Value} (h : ∀ v, Unrefused (f v)) (key : Text)
    (wanted : Value → Bool) (r : Fields) : Unrefused (replaced key wanted f r) := by
  rw [replaced]
  split
  · exact .ite ((h _).bind fun _ => ok _) (ok _)
  · exact ok _

theorem unrefused_unmarshalAll (v : Value) : Unrefused (unmarshalAll v) :=
  v.unrefused_elements.bind fun vs => (mapM unrefused_unmarshalMap vs).bind fun _ => ok _

theorem unrefused_unmarshalTable (v : Value) : Unrefused (unmarshalTable v) :=
  v.unrefused_entries.bind fun _ => (Value.unrefused_elements _).bind fun ks =>
    (mapM unrefused_unmarshalMap ks).bind fun _ => ok _

theorem unrefused_unmarshalTables {f : Value → Result Value} (h : ∀ v, Unrefused (f v)) (v : Value) :
    Unrefused (unmarshalTables f v) :=
  v.unrefused_entries.bind fun es => (unrefused_mapEntries h es).bind fun _ => ok _

/-- An answer is unmarshalled without a refusal, field after field. -/
theorem unrefused_answer (r : Fields) : Unrefused (answer r) :=
  (unrefused_replaced unrefused_unmarshalMap _ _ r).bind fun r =>
    (unrefused_replaced unrefused_unmarshalMap _ _ r).bind fun r =>
      (unrefused_replaced unrefused_unmarshalMap _ _ r).bind fun r =>
        (unrefused_replaced unrefused_unmarshalAll _ _ r).bind fun r =>
          (unrefused_replaced (unrefused_unmarshalTables unrefused_unmarshalAll) _ _ r).bind fun r =>
            unrefused_replaced (unrefused_unmarshalTables unrefused_unmarshalTable) _ _ r

end Marshalling

namespace Token

/-- A last key is read entry by entry, or in the sorted order of its members. -/
theorem unrefused_attributes (key : Value) : Unrefused (attributes key) := by
  rw [attributes.eq_def]
  split
  · exact Attribute.unrefused_ofEntries _
  · refine (Value.unrefused_elements _).bind fun vs => (Value.unrefused_sort vs).bind fun places => ?_
    refine (mapM (fun place => ?_) places).bind fun _ => ok _
    exact (Value.unrefused_memberAt _ place).bind fun v =>
      (Attribute.unrefused_ofValue v).bind fun _ => ok _

/-- A text without a UTF-8 form is a fault of its own. -/
theorem unrefused_ofText (t : Text) : Unrefused (ofText t) := by
  rw [ofText]
  cases t.utf8? with
  | none => exact error rfl
  | some bs => exact ok _

/-- No last key is refused a token. -/
theorem unrefused_encode (key : Value) : Unrefused (encode key) :=
  .ite ((unrefused_attributes key).bind fun _ => (unrefused_ofText _).bind fun _ => ok _) (ok _)

end Token

theorem Provider.unrefused_itemsOf (reply : Fields) : Unrefused (itemsOf reply) :=
  Value.unrefused_elements _

/-- What is left of a limit is a number, or the limit is of the wrong type. -/
theorem Provider.unrefused_limited (limit : Value) (count : Nat) (request : Fields) :
    Unrefused (limited limit count request) := by
  rw [limited]
  split
  · split
    · exact ok _
    · exact error rfl
  · exact ok _

/-- A power beyond all doubles overflows, which is no refusal. -/
theorem Backoff.unrefused_seconds (n : Int) : Unrefused (seconds n) := .ite (error rfl) (ok _)

namespace BatchGet

theorem unrefused_tablePart (reply : Fields) (field table : Text) :
    Unrefused (tablePart reply field table) := by
  rw [tablePart]
  split
  · exact ok _
  · exact (Value.unrefused_entries _).bind fun _ => ok _

/-- A page reads what was found and what is left over, both without a refusal. -/
theorem unrefused_after (table : Text) (reply : Fields) (s : Progress) :
    Unrefused (s.after table reply) := by
  have hfound : Unrefused (found table reply) := by
    refine (unrefused_tablePart _ _ _).bind fun part => ?_
    split
    · exact ok _
    · exact Value.unrefused_elements _
  have hleft : Unrefused (unprocessed table reply) := by
    refine (unrefused_tablePart _ _ _).bind fun part => ?_
    split
    · exact ok _
    · exact (Value.unrefused_entries _).bind fun _ => Value.unrefused_elementsOrNone _
  exact hfound.bind fun _ => hleft.bind fun _ => ok _

/-- Pages that end in no refusal are put together without one. -/
theorem unrefused_collect {rs : List (Result (List Value))} (h : ∀ r ∈ rs, Unrefused r) :
    Unrefused (collect rs) := by
  induction rs with
  | nil => exact ok _
  | cons r rs ih =>
    exact (h r (by simp)).bind fun _ => (ih fun r hr => h r (by simp [hr])).bind fun _ => ok _

end BatchGet

end TableGateway
