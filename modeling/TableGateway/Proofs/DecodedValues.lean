import TableGateway.Proofs.AttributeForm
import TableGateway.Proofs.TokenFaults

/-!
# What a token is read as

Whatever a token holds, no map in the key that it is read as has a key twice, all decimals in it are
held by the store, and the members of its sets can be such. Bodies that are kept as they are bring
in whole numbers of any size and doubles.
-/
namespace TableGateway

open Entries

namespace Value

mutual

/-- Values that a token can be read as. -/
def Decoded : Value → Prop
  | .null | .bool _ | .text _ | .number (.int _) | .number (.float _) => True
  | .number (.decimal d) => d.stored = .ok d
  | .blob b => b.wrapped
  | .list vs => DecodedAll vs
  | .set _ vs => allHashable vs ∧ DecodedAll vs
  | .map es => (keys es).Nodup ∧ DecodedEntries es
  | _ => False

def DecodedAll : List Value → Prop
  | [] => True
  | v :: vs => Decoded v ∧ DecodedAll vs

def DecodedEntries : List (Text × Value) → Prop
  | [] => True
  | (_, v) :: es => Decoded v ∧ DecodedEntries es

end

theorem decodedAll_iff (vs : List Value) : DecodedAll vs ↔ ∀ v ∈ vs, v.Decoded := by
  induction vs with
  | nil => simp [DecodedAll]
  | cons v vs ih => simp [DecodedAll, ih]

theorem decodedEntries_iff (es : Fields) : DecodedEntries es ↔ ∀ e ∈ es, e.2.Decoded := by
  induction es with
  | nil => simp [DecodedEntries]
  | cons e es ih => simp [DecodedEntries, ih]

theorem decoded_elements {v : Value} (h : v.Decoded) {vs : List Value} (hvs : v.elements = .ok vs) :
    ∀ w ∈ vs, w.Decoded := by
  cases v with
  | text s =>
    obtain rfl := Except.ok.inj hvs
    intro w hw
    obtain ⟨c, -, rfl⟩ := List.mem_map.mp hw
    trivial
  | blob b =>
    have hwrapped : b.wrapped = true := h
    simp [elements, elements?, hwrapped] at hvs
  | list ws =>
    obtain rfl := Except.ok.inj hvs
    exact (decodedAll_iff ws).mp h
  | set frozen ws =>
    obtain rfl := Except.ok.inj hvs
    exact (decodedAll_iff ws).mp h.2
  | map es =>
    obtain rfl := Except.ok.inj hvs
    intro w hw
    obtain ⟨e, -, rfl⟩ := List.mem_map.mp hw
    trivial
  | tuple => exact h.elim
  | _ => cases hvs

/-- Sets are made of members that can be such. -/
theorem decoded_ofMembers {vs : List Value} (hhash : ∀ v ∈ vs, v.hashable)
    (h : ∀ v ∈ vs, v.Decoded) : (ofMembers false vs).Decoded := by
  have hmem : ∀ v ∈ arrange (distinct vs), v ∈ vs :=
    fun v hv => mem_distinct v ((arrange_perm _).mem_iff.mp hv)
  refine ⟨(allHashable_iff _).mpr fun v hv => hhash v (hmem v hv), ?_⟩
  exact (decodedAll_iff _).mpr fun v hv => h v (hmem v hv)

end Value

namespace Json

theorem toValues_eq (js : List Json) : toValues js = js.map toValue := by
  induction js with
  | nil => rfl
  | cons j js ih => rw [toValues, ih, List.map_cons]

theorem toEntries_eq (es : List (Text × Json)) : toEntries es = mapValues toValue es := by
  induction es with
  | nil => rfl
  | cons e es ih => rw [toEntries, ih, mapValues, mapValues, List.map_cons]

theorem decoded_array {js : List Json} :
    (array js).toValue.Decoded ↔ ∀ j ∈ js, j.toValue.Decoded := by
  rw [toValue, Value.Decoded, toValues_eq, Value.decodedAll_iff, List.forall_mem_map]

theorem decoded_object {es : List (Text × Json)} :
    (object es).toValue.Decoded ↔ (keys es).Nodup ∧ ∀ e ∈ es, e.2.toValue.Decoded := by
  rw [toValue, Value.Decoded, toEntries_eq, keys_mapValues, Value.decodedEntries_iff, mapValues,
    List.forall_mem_map]

theorem decoded_readNumber {negative : Bool} {cs : List Letter} {j : Json} {rest : List Letter}
    (h : readNumber negative cs = some (j, rest)) : j.toValue.Decoded := by
  rw [readNumber] at h
  obtain ⟨⟨whole, rest'⟩, -, h⟩ := Option.bind_eq_some_iff.mp h
  simp only at h
  split at h
  · split at h
    · cases h
    · obtain ⟨rfl, -⟩ := Prod.mk.inj (Option.some.inj h)
      trivial
  · obtain ⟨rfl, -⟩ := Prod.mk.inj (Option.some.inj h)
    trivial

theorem decoded_readAtom {cs : List Letter} {j : Json} {rest : List Letter}
    (h : readAtom cs = some (j, rest)) : j.toValue.Decoded := by
  have hword : ∀ {i : Json} {o : Option (List Letter)}, i.toValue.Decoded → o.map (i, ·) = some (j, rest) →
      j.toValue.Decoded := by
    intro i o hi ho
    obtain ⟨_, -, heq⟩ := Option.map_eq_some_iff.mp ho
    obtain ⟨rfl, -⟩ := Prod.mk.inj heq
    exact hi
  rw [readAtom.eq_def] at h
  split at h
  case h_7 | h_8 => exact decoded_readNumber h
  all_goals
    refine hword ?_ h
    trivial

/-- Documents, items and entries as they are read. The induction is on the fuel. -/
theorem decoded_reads (fuel : Nat) :
    (∀ cs j rest, readValue fuel cs = some (j, rest) → j.toValue.Decoded) ∧
    (∀ cs js rest, readItems fuel cs = some (js, rest) → ∀ j ∈ js, j.toValue.Decoded) ∧
    ∀ cs es rest, readEntries fuel cs = some (es, rest) → ∀ e ∈ es, e.2.toValue.Decoded := by
  induction fuel with
  | zero => exact ⟨by simp [readValue], by simp [readItems], by simp [readEntries]⟩
  | succ fuel ih =>
    obtain ⟨ihValue, ihItems, ihEntries⟩ := ih
    refine ⟨fun cs j rest h => ?_, fun cs js rest h => ?_, fun cs es rest h => ?_⟩
    · rw [readValue.eq_def] at h
      simp only at h
      split at h
      · obtain ⟨p, -, h⟩ := Option.bind_eq_some_iff.mp h
        obtain ⟨rfl, -⟩ := Prod.mk.inj (Option.some.inj h)
        trivial
      · split at h
        · obtain ⟨rfl, -⟩ := Prod.mk.inj (Option.some.inj h)
          trivial
        · obtain ⟨p, hp, h⟩ := Option.bind_eq_some_iff.mp h
          obtain ⟨rfl, -⟩ := Prod.mk.inj (Option.some.inj h)
          exact decoded_array.mpr (ihItems _ _ _ hp)
      · split at h
        · obtain ⟨rfl, -⟩ := Prod.mk.inj (Option.some.inj h)
          exact decoded_object.mpr ⟨.nil, by simp⟩
        · obtain ⟨p, hp, h⟩ := Option.bind_eq_some_iff.mp h
          obtain ⟨rfl, -⟩ := Prod.mk.inj (Option.some.inj h)
          refine decoded_object.mpr ⟨nodup_keys_ofPairs p.1, fun e he => ?_⟩
          exact ihEntries _ _ _ hp e (mem_of_mem_ofPairs he)
      · exact decoded_readAtom h
    · rw [readItems] at h
      obtain ⟨⟨j, rest'⟩, hj, h⟩ := Option.bind_eq_some_iff.mp h
      simp only at h
      split at h
      · obtain ⟨rfl, -⟩ := Prod.mk.inj (Option.some.inj h)
        simpa using ihValue _ _ _ hj
      · obtain ⟨p, hp, h⟩ := Option.bind_eq_some_iff.mp h
        obtain ⟨rfl, -⟩ := Prod.mk.inj (Option.some.inj h)
        exact List.forall_mem_cons.mpr ⟨ihValue _ _ _ hj, ihItems _ _ _ hp⟩
      · cases h
    · rw [readEntries.eq_def] at h
      simp only at h
      split at h
      · obtain ⟨⟨key, rest'⟩, -, h⟩ := Option.bind_eq_some_iff.mp h
        simp only at h
        split at h
        · obtain ⟨⟨j, rest''⟩, hj, h⟩ := Option.bind_eq_some_iff.mp h
          simp only at h
          split at h
          · obtain ⟨rfl, -⟩ := Prod.mk.inj (Option.some.inj h)
            simpa using ihValue _ _ _ hj
          · obtain ⟨p, hp, h⟩ := Option.bind_eq_some_iff.mp h
            obtain ⟨rfl, -⟩ := Prod.mk.inj (Option.some.inj h)
            exact List.forall_mem_cons.mpr ⟨ihValue _ _ _ hj, ihEntries _ _ _ hp⟩
          · cases h
        · cases h
      · cases h

/-- A document that was read has doubles and whole numbers, and no key twice in a map. -/
theorem decoded_read {cs : List Letter} {j : Json} (h : read cs = some j) : j.toValue.Decoded := by
  obtain ⟨⟨i, rest⟩, hi, h⟩ := Option.bind_eq_some_iff.mp h
  simp only at h
  split at h
  · obtain rfl := Option.some.inj h
    exact (decoded_reads _).1 _ _ _ hi
  · cases h

end Json

namespace Attribute

/-- What the store holds it holds again as it is. -/
theorem stored_stored {d d' : Decimal} (h : d.stored = .ok d') : d'.stored = .ok d' := by
  cases d with
  | finite s c e =>
    obtain rfl := Decimal.eq_of_storedFinite h
    exact h
  | infinite s =>
    obtain rfl := Except.ok.inj h
    rfl
  | nan s signaling payload =>
    obtain rfl := Except.ok.inj h
    split
    · rename_i hpayload
      rw [Decimal.stored, if_pos hpayload]
    · rfl

/-- A number that was read is a decimal that the store holds. -/
theorem decoded_number {body v : Value} (h : decodeNumber body = .ok v) : v.Decoded := by
  have hstored : ∀ d, (do return Value.number (.decimal (← storedDecimal d)) : Result Value) = .ok v →
      v.Decoded := by
    intro d h
    obtain ⟨d', hd, h⟩ := Result.bind_eq_ok.mp h
    obtain rfl := Except.ok.inj h
    rw [storedDecimal.eq_def] at hd
    split at hd
    · rename_i hheld
      obtain rfl := Except.ok.inj hd
      exact stored_stored hheld
    · cases hd
  rw [decodeNumber.eq_def] at h
  split at h
  case h_6 => cases h
  all_goals
    obtain ⟨d, -, h⟩ := Result.bind_eq_ok.mp h
    exact hstored d h

theorem decoded_bytes {body v : Value} (h : decodeBytes body = .ok v) : v.Decoded := by
  rw [decodeBytes.eq_def] at h
  split at h
  · split at h
    · cases h
    · obtain rfl := Except.ok.inj h
      exact rfl
  · cases h

/-- A set that is read has decoded members if the reader of members gives such. -/
theorem decoded_set {read : Value → Result Value} {body v : Value} (h : decodeSet read body = .ok v)
    (hread : ∀ vs, body.elements = .ok vs → ∀ w ∈ vs, ∀ u, read w = .ok u → u.Decoded) :
    v.Decoded := by
  obtain ⟨vs, hvs, h⟩ := Result.bind_eq_ok.mp h
  obtain ⟨ws, hws, h⟩ := Result.bind_eq_ok.mp h
  obtain rfl := Except.ok.inj h
  rw [decodeMembers_mapM] at hws
  have hmember : ∀ w ∈ ws, w.hashable ∧ w.Decoded := by
    intro w hw
    obtain ⟨u, hu, hchecked⟩ := Result.exists_source_of_mapM hws w hw
    obtain ⟨hw, hhash⟩ := checked_eq_ok.mp hchecked
    exact ⟨hhash, hread vs hvs u hu w hw⟩
  exact Value.decoded_ofMembers (fun w hw => (hmember w hw).1) fun w hw => (hmember w hw).2

end Attribute

namespace Token

open Attribute (decoded_set decoded_number decoded_bytes)

/-- The members that are kept are some of those that were given. -/
theorem withLastNaN_subset (js : List Json) : withLastNaN js ⊆ js := by
  induction js with
  | nil => simp [withLastNaN]
  | cons j js ih =>
    rw [withLastNaN]
    split
    · exact fun _ hi => List.mem_cons_of_mem j (ih hi)
    · exact List.cons_subset_cons j ih

theorem decoded_textsBody {j : Json} (h : j.toValue.Decoded) : (textsBody j).Decoded := by
  rw [textsBody.eq_def]
  split
  · rename_i js
    exact Json.decoded_array.mpr fun i hi => Json.decoded_array.mp h i (withLastNaN_subset js hi)
  · exact h

/-- Is what a document without repeated keys is read as decoded? -/
def ReadsDecoded (j : Json) : Prop :=
  j.toValue.Decoded → ∀ v, (unpack j >>= Attribute.decode) = .ok v → v.Decoded

theorem decoded_items {body : Json} {v : Value} (hbody : body.toValue.Decoded)
    (ih : ∀ js, body = .array js → ∀ j ∈ js, ReadsDecoded j) {vs : List Value}
    (hvs : unpackItems body = .ok vs) (h : Attribute.decode (.map [("L", .list vs)]) = .ok v) :
    v.Decoded := by
  rw [Attribute.decode_list] at h
  obtain ⟨ws, hws, rfl⟩ := Result.map_eq_ok.mp h
  rw [Value.Decoded, Value.decodedAll_iff]
  obtain ⟨js, rfl, hjs⟩ | rfl := unpackItems_ok hvs
  · rw [Result.mapM_mapM hjs] at hws
    intro w hw
    obtain ⟨j, hj, hread⟩ := Result.exists_source_of_mapM hws w hw
    exact ih js rfl j hj (Json.decoded_array.mp hbody j hj) w hread
  · obtain rfl : [] = ws := by simpa using hws
    simp

/-- What entries are read as: the same keys, each with what its document is read as. -/
theorem readEntries_ok {es : List (Text × Json)} {fields : Fields}
    (h : readEntries es = .ok fields) : keys fields = keys es ∧
      ∀ f ∈ fields, ∃ e ∈ es, (unpack e.2 >>= Attribute.decode) = .ok f.2 := by
  induction es generalizing fields with
  | nil =>
    obtain rfl := Except.ok.inj h
    exact ⟨rfl, by simp⟩
  | cons e es ih =>
    rw [readEntries] at h
    obtain ⟨u, hu, h⟩ := Result.bind_eq_ok.mp h
    obtain ⟨v, hv, h⟩ := Result.bind_eq_ok.mp h
    obtain ⟨rest, hrest, h⟩ := Result.bind_eq_ok.mp h
    obtain rfl := Except.ok.inj h
    obtain ⟨hkeys, hvalues⟩ := ih hrest
    refine ⟨congrArg (e.1 :: ·) hkeys, List.forall_mem_cons.mpr ⟨⟨e, by simp, ?_⟩, fun f hf => ?_⟩⟩
    · exact Result.bind_eq_ok.mpr ⟨u, hu, hv⟩
    · obtain ⟨e', he', hread⟩ := hvalues f hf
      exact ⟨e', by simp [he'], hread⟩

theorem decoded_readEntries {es : List (Text × Json)} (hes : (Json.object es).toValue.Decoded)
    (ih : ∀ e ∈ es, ReadsDecoded e.2) {fields : Fields} (h : readEntries es = .ok fields) :
    (Value.map fields).Decoded := by
  obtain ⟨hkeys, hvalues⟩ := readEntries_ok h
  obtain ⟨hnodup, hdocuments⟩ := Json.decoded_object.mp hes
  refine ⟨hkeys ▸ hnodup, (Value.decodedEntries_iff fields).mpr fun f hf => ?_⟩
  obtain ⟨e, he, hread⟩ := hvalues f hf
  exact ih e he (hdocuments e he) f.2 hread

theorem decoded_entries {body : Json} {v : Value} (hbody : body.toValue.Decoded)
    (ih : ∀ es, body = .object es → ∀ e ∈ es, ReadsDecoded e.2) {fields : Fields}
    (hfields : unpackMap body = .ok fields)
    (h : Attribute.decode (.map [("M", .map fields)]) = .ok v) : v.Decoded := by
  cases body with
  | object es =>
    rw [Attribute.decode_map, readEntries_unpacked hfields] at h
    obtain ⟨fs, hfs, rfl⟩ := Result.map_eq_ok.mp h
    exact decoded_readEntries hbody (ih es rfl) hfs
  | _ => cases hfields

/-- Whatever is read from a form in a token is decoded, by the recursion of the form. -/
theorem readsDecoded (j : Json) : ReadsDecoded j := by
  induction j using Json.bodyInduction with
  | untagged j hj =>
    intro _ v h
    rw [unpack_untagged hj] at h
    cases h
  | tagged tag body ihItems ihEntries =>
    intro hdecoded v h
    have hbody : body.toValue.Decoded := (Json.decoded_object.mp hdecoded).2 (tag, body) (by simp)
    obtain ⟨u, hu, h⟩ := Result.bind_eq_ok.mp h
    rw [unpack.eq_def] at hu
    simp only at hu
    split at hu
    · obtain ⟨w, -, hu⟩ := Result.bind_eq_ok.mp hu
      obtain rfl := Except.ok.inj hu
      rw [Attribute.decode_bytes] at h
      exact decoded_bytes h
    · obtain ⟨js, -, hu⟩ := Result.bind_eq_ok.mp hu
      obtain ⟨ws, -, hu⟩ := Result.bind_eq_ok.mp hu
      obtain rfl := Except.ok.inj hu
      rw [Attribute.decode_byteRows] at h
      exact decoded_set h fun _ _ _ _ _ => decoded_bytes
    · obtain ⟨vs, hvs, hu⟩ := Result.bind_eq_ok.mp hu
      obtain rfl := Except.ok.inj hu
      exact decoded_items hbody ihItems hvs h
    · obtain ⟨fields, hfields, hu⟩ := Result.bind_eq_ok.mp hu
      obtain rfl := Except.ok.inj hu
      exact decoded_entries hbody ihEntries hfields h
    · obtain rfl := Except.ok.inj hu
      rw [Attribute.decode_texts] at h
      refine decoded_set h fun vs hvs w hw u hu => ?_
      obtain rfl := Except.ok.inj hu
      exact Value.decoded_elements (decoded_textsBody hbody) hvs w hw
    · obtain rfl := Except.ok.inj hu
      rw [Attribute.decode_text] at h
      obtain rfl := Except.ok.inj h
      exact hbody
    · obtain rfl := Except.ok.inj hu
      rw [Attribute.decode_number] at h
      exact decoded_number h
    · obtain rfl := Except.ok.inj hu
      rw [Attribute.decode_bool] at h
      obtain rfl := Except.ok.inj h
      exact hbody
    · obtain rfl := Except.ok.inj hu
      rw [Attribute.decode_null] at h
      obtain rfl := Except.ok.inj h
      trivial
    · obtain rfl := Except.ok.inj hu
      rw [Attribute.decode_numbers] at h
      exact decoded_set h fun _ _ _ _ _ => decoded_number
    · cases hu

/-- The key that a token stands for has an entry, and all of it is decoded. -/
theorem decoded_key {s : Text} {key : Fields} (h : decode (.text s) = .ok key) :
    key ≠ [] ∧ (Value.map key).Decoded := by
  rw [decode_eq] at h
  cases hes : lastKeyIn s with
  | none =>
    rw [hes] at h
    cases h
  | some es =>
    rw [hes] at h
    cases hread : readEntries es with
    | error f => simp [hread, Except.mapError] at h
    | ok fields =>
      obtain rfl : fields = key := by simpa [hread, Except.mapError] using h
      refine ⟨readEntries_ne_nil hread (lastKeyIn_ne_nil hes), ?_⟩
      obtain ⟨cs, -, hes⟩ := Option.bind_eq_some_iff.mp hes
      obtain ⟨t, -, hes⟩ := Option.bind_eq_some_iff.mp hes
      obtain ⟨j, hj, hlast⟩ := Option.bind_eq_some_iff.mp hes
      refine decoded_readEntries ?_ (fun e _ => readsDecoded e.2) hread
      have hdocument := Json.decoded_read hj
      rw [lastKey?.eq_def] at hlast
      split at hlast
      · rename_i members
        split at hlast
        · cases hlast
        · rename_i hmember
          obtain rfl := Option.some.inj hlast
          exact (Json.decoded_object.mp hdocument).2 _ (mem_of_get? hmember)
        · cases hlast
      · cases hlast

end Token

end TableGateway
