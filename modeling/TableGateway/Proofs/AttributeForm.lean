import TableGateway.Proofs.Base64
import TableGateway.Proofs.JsonText
import TableGateway.Proofs.Outcomes
import TableGateway.Proofs.Settled
import TableGateway.Proofs.Tags

/-!
# The forms of an attribute value

An attribute value has a form in requests, which is read back as a value, and a form in tokens,
which is unpacked to the form in requests of the settled attribute value. Writers and readers go by
kinds, so each fact is an induction with one case a kind.
-/
namespace TableGateway

/-- Decimals that are the same as themselves and that the check of digits lets through. The check
names the infinity above all numbers but not the one below them. -/
def Decimal.Taken : Decimal → Prop
  | .finite .. => True
  | .infinite negative => negative
  | .nan .. => False

namespace Attribute

open TableGateway.Entries

/-- Is a text the digits of a number that is taken and that the store can hold? -/
def Storable (digits : Text) : Prop :=
  ∃ d, digits.chars?.bind Decimal.read? = some d ∧ d.stored = .ok d ∧ d.Taken

mutual

/-- Is an attribute value one that a well made value goes over to? -/
def Sound : Attribute → Prop
  | .number d => Storable d
  | .numbers ds => ∀ d ∈ ds, Storable d
  | .byteRows rows => ∀ r ∈ rows, r.1 = false
  | .list as => SoundAll as
  | .map es => (keys es).Nodup ∧ SoundEntries es
  | _ => True

def SoundAll : List Attribute → Prop
  | [] => True
  | a :: as => Sound a ∧ SoundAll as

def SoundEntries : List (Text × Attribute) → Prop
  | [] => True
  | (_, a) :: es => Sound a ∧ SoundEntries es

end

/-- The number that digits stand for. -/
def decimalValue (digits : Text) : Value := .number (.decimal (decimalOfText digits))

mutual

/-- The value that an attribute value is read as. -/
def value : Attribute → Value
  | null => .null
  | bool b => .bool b
  | number d => decimalValue d
  | text s => .text s
  | bytes mutable bs => .blob ⟨bs, mutable, true⟩
  | numbers ds => .ofMembers false (ds.map decimalValue)
  | texts ss => .ofMembers false (ss.map .text)
  | byteRows rows => .ofMembers false (rows.map fun r => .blob ⟨r.2, r.1, true⟩)
  | list as => .list (values as)
  | map es => .map (valueEntries es)

def values : List Attribute → List Value
  | [] => []
  | a :: as => value a :: values as

def valueEntries : List (Text × Attribute) → Fields
  | [] => []
  | (k, a) :: es => (k, value a) :: valueEntries es

end

mutual

/-- An attribute value with its maps by key and its bytes in rows that cannot grow. -/
def settled : Attribute → Attribute
  | bytes _ bs => bytes false bs
  | byteRows rows => byteRows (rows.map fun r => (false, r.2))
  | list as => list (settledAll as)
  | map es => map (Token.sortKeys (settledEntries es))
  | a => a

def settledAll : List Attribute → List Attribute
  | [] => []
  | a :: as => settled a :: settledAll as

def settledEntries : List (Text × Attribute) → List (Text × Attribute)
  | [] => []
  | (k, a) :: es => (k, settled a) :: settledEntries es

end

theorem soundAll_iff (as : List Attribute) : SoundAll as ↔ ∀ a ∈ as, Sound a := by
  induction as with
  | nil => simp [SoundAll]
  | cons a as ih => simp [SoundAll, ih]

theorem soundEntries_iff (es : List (Text × Attribute)) :
    SoundEntries es ↔ ∀ e ∈ es, Sound e.2 := by
  induction es with
  | nil => simp [SoundEntries]
  | cons e es ih => simp [SoundEntries, ih]

theorem values_eq (as : List Attribute) : values as = as.map value := by
  induction as with
  | nil => rfl
  | cons a as ih => rw [values, ih, List.map_cons]

theorem valueEntries_eq (es : List (Text × Attribute)) :
    valueEntries es = mapValues value es := by
  induction es with
  | nil => rfl
  | cons e es ih => rw [valueEntries, ih, mapValues, mapValues, List.map_cons]

theorem settledAll_eq (as : List Attribute) : settledAll as = as.map settled := by
  induction as with
  | nil => rfl
  | cons a as ih => rw [settledAll, ih, List.map_cons]

theorem settledEntries_eq (es : List (Text × Attribute)) :
    settledEntries es = mapValues settled es := by
  induction es with
  | nil => rfl
  | cons e es ih => rw [settledEntries, ih, mapValues, mapValues, List.map_cons]

theorem toValues_eq (as : List Attribute) : toValues as = as.map toValue := by
  induction as with
  | nil => rfl
  | cons a as ih => rw [toValues, ih, List.map_cons]

theorem toEntries_eq (es : List (Text × Attribute)) : toEntries es = mapValues toValue es := by
  induction es with
  | nil => rfl
  | cons e es ih => rw [toEntries, ih, mapValues, mapValues, List.map_cons]

/-- The induction over attribute values, with all members of lists and maps at hand. -/
@[elab_as_elim]
theorem memberInduction {motive : Attribute → Prop} (null : motive .null)
    (bool : ∀ b, motive (.bool b)) (number : ∀ d, motive (.number d)) (text : ∀ s, motive (.text s))
    (bytes : ∀ mutable bs, motive (.bytes mutable bs)) (numbers : ∀ ds, motive (.numbers ds))
    (texts : ∀ ss, motive (.texts ss)) (byteRows : ∀ rows, motive (.byteRows rows))
    (list : ∀ as, (∀ a ∈ as, motive a) → motive (.list as))
    (map : ∀ es, (∀ e ∈ es, motive e.2) → motive (.map es)) (a : Attribute) : motive a := by
  refine @Attribute.rec motive (fun as => ∀ a ∈ as, motive a) (fun es => ∀ e ∈ es, motive e.2)
    (fun e => motive e.2) null bool number text bytes numbers texts byteRows list map ?_ ?_ ?_ ?_ ?_ a
  · simp
  · intro a as ha has b hb
    rcases List.mem_cons.mp hb with rfl | hb
    · exact ha
    · exact has b hb
  · simp
  · intro e es he hes f hf
    rcases List.mem_cons.mp hf with rfl | hf
    · exact he
    · exact hes f hf
  · intro k a ha
    exact ha

theorem exactForm_of_taken {d : Decimal} (h : d.Taken) :
    ∃ x, (Number.decimal d).exactForm? = some x := by
  cases d with
  | finite s c e => exact ⟨_, rfl⟩
  | infinite s => exact ⟨_, rfl⟩
  | nan => exact h.elim

/-- Digits that the store can hold are read as the number they show. -/
theorem decodeNumber_digits {d : Text} (h : Storable d) :
    decodeNumber (.text d) = .ok (decimalValue d) ∧ (decimalValue d).hashable ∧
      (decimalValue d).same (decimalValue d) := by
  obtain ⟨x, hread, hstored, htaken⟩ := h
  have hdecimal : decimalOfText d = x := by rw [decimalOfText, hread, Option.getD_some]
  refine ⟨?_, ?_, ?_⟩
  · simp [decodeNumber, decimalValue, hdecimal, storedDecimal, hstored]
  · rw [decimalValue, hdecimal]
    cases x with
    | nan => exact htaken.elim
    | _ => rfl
  · obtain ⟨y, hy⟩ := exactForm_of_taken htaken
    simp [decimalValue, hdecimal, Value.same, Value.sameNumber, Value.exactForm?, Value.number?, hy]

theorem decodeMembers_eq {read : Value → Result Value} {α : Type} {f g : α → Value} {xs : List α}
    (h : ∀ x ∈ xs, read (f x) = .ok (g x) ∧ (g x).hashable) :
    decodeMembers read (xs.map f) = .ok (xs.map g) := by
  induction xs with
  | nil => rfl
  | cons x xs ih =>
    obtain ⟨hread, hhash⟩ := h x (by simp)
    rw [List.map_cons, decodeMembers, hread, List.map_cons]
    simp [hhash, ih fun y hy => h y (by simp [hy])]

theorem decodeSet_eq {read : Value → Result Value} {α : Type} {f g : α → Value} {xs : List α}
    (h : ∀ x ∈ xs, read (f x) = .ok (g x) ∧ (g x).hashable) :
    decodeSet read (.list (xs.map f)) = .ok (.ofMembers false (xs.map g)) := by
  simp [decodeSet, Value.elements, Value.elements?, decodeMembers_eq h]

theorem decodeAll_eq {as : List Attribute} (h : ∀ a ∈ as, decode a.toValue = .ok a.value) :
    decodeAll (as.map toValue) = .ok (as.map value) := by
  induction as with
  | nil => rfl
  | cons a as ih =>
    rw [List.map_cons, decodeAll, h a (by simp), List.map_cons]
    simp [ih fun b hb => h b (by simp [hb])]

theorem decodeEntries_eq {es : List (Text × Attribute)}
    (h : ∀ e ∈ es, decode e.2.toValue = .ok e.2.value) :
    decodeEntries (mapValues toValue es) = .ok (mapValues value es) := by
  induction es with
  | nil => rfl
  | cons e es ih =>
    have hes := ih fun f hf => h f (by simp [hf])
    rw [mapValues] at hes
    rw [mapValues, List.map_cons, decodeEntries, h e (by simp)]
    simp [hes, mapValues]

/-- What was marshalled is read back as the value it stands for. -/
theorem decode_toValue {a : Attribute} (h : Sound a) : decode a.toValue = .ok a.value := by
  induction a using memberInduction with
  | null =>
    rw [toValue, tagged, decode_null]
    rfl
  | bool b =>
    rw [toValue, tagged, decode_bool]
    rfl
  | number d =>
    rw [toValue, tagged, decode_number]
    exact (decodeNumber_digits h).1
  | text s =>
    rw [toValue, tagged, decode_text]
    rfl
  | bytes mutable bs =>
    rw [toValue, tagged, decode_bytes]
    rfl
  | numbers ds =>
    rw [toValue, tagged, decode_numbers]
    refine decodeSet_eq fun d hd => ?_
    have hdigits := decodeNumber_digits (h d hd)
    exact ⟨hdigits.1, hdigits.2.1⟩
  | texts ss =>
    rw [toValue, tagged, decode_texts]
    exact decodeSet_eq fun s _ => ⟨rfl, rfl⟩
  | byteRows rows =>
    rw [toValue, tagged, decode_byteRows]
    refine decodeSet_eq fun r hr => ⟨rfl, ?_⟩
    simp [Value.hashable, h r hr]
  | list as ih =>
    have has := decodeAll_eq fun a ha => ih a ha ((soundAll_iff as).mp h a ha)
    rw [toValue, tagged, decode_listBody, decodeList, toValues_eq, has, value, values_eq]
    rfl
  | map es ih =>
    have hes := decodeEntries_eq fun e he => ih e he ((soundEntries_iff es).mp h.2 e he)
    rw [toValue, tagged, decode_mapBody, decodeMap, toEntries_eq, hes, value, valueEntries_eq]
    rfl

theorem formAll_eq (as : List Attribute) : Token.formAll as = as.map Token.form := by
  induction as with
  | nil => rfl
  | cons a as ih => rw [Token.formAll, ih, List.map_cons]

theorem formEntries_eq (es : List (Text × Attribute)) :
    Token.formEntries es = mapValues Token.form es := by
  induction es with
  | nil => rfl
  | cons e es ih => rw [Token.formEntries, ih, mapValues, mapValues, List.map_cons]

/-- Bytes come back from their text. -/
theorem readBytes_bytesText (bs : List UInt8) :
    Token.readBytes (Token.bytesText bs) = .ok (blobValue false bs) := by
  rw [Token.bytesText, Token.readBytes, Text.chars?_whole, String.toList_ofList, Option.bind_some,
    Base64.decode_encode]
  rfl

theorem toValues_texts (ss : List Text) : Json.toValues (ss.map .text) = ss.map .text := by
  induction ss with
  | nil => rfl
  | cons s ss ih => rw [List.map_cons, Json.toValues, ih, Json.toValue, List.map_cons]

theorem withLastNaN_texts (ss : List Text) :
    Token.withLastNaN (ss.map .text) = ss.map .text := by
  induction ss with
  | nil => rfl
  | cons s ss ih =>
    rw [List.map_cons, Token.withLastNaN, ih]
    simp [Token.isNaN]

theorem mapM_readBytes (rows : List (Bool × List UInt8)) :
    (rows.map fun r => Token.bytesText r.2).mapM Token.readBytes =
      .ok (rows.map fun r => blobValue false r.2) := by
  induction rows with
  | nil => rfl
  | cons r rows ih =>
    rw [List.map_cons, List.mapM_cons, readBytes_bytesText, ih]
    rfl

theorem unpackAll_eq {as : List Attribute}
    (h : ∀ a ∈ as, Token.unpack (Token.form a) = .ok a.settled.toValue) :
    Token.unpackAll (as.map Token.form) = .ok ((as.map settled).map toValue) := by
  induction as with
  | nil => rfl
  | cons a as ih =>
    rw [List.map_cons, Token.unpackAll, h a (by simp), ih fun b hb => h b (by simp [hb])]
    rfl

theorem unpackEntries_eq {es : List (Text × Attribute)}
    (h : ∀ e ∈ es, Token.unpack (Token.form e.2) = .ok e.2.settled.toValue) :
    Token.unpackEntries (mapValues Token.form es) =
      .ok (mapValues toValue (mapValues settled es)) := by
  induction es with
  | nil => rfl
  | cons e es ih =>
    have hes := ih fun f hf => h f (by simp [hf])
    rw [mapValues] at hes
    rw [mapValues, List.map_cons, Token.unpackEntries, h e (by simp), hes]
    rfl

/-- The form inside a token is unpacked to the form in requests of the settled attribute value. -/
theorem unpack_form (a : Attribute) : Token.unpack (Token.form a) = .ok a.settled.toValue := by
  induction a using memberInduction with
  | null => rfl
  | bool b => rfl
  | number d => rfl
  | text s => rfl
  | bytes mutable bs =>
    rw [Token.form, Token.tagged, Token.unpack, readBytes_bytesText]
    rfl
  | numbers ds =>
    rw [Token.form, Token.tagged, Token.unpack, Json.toValue, toValues_texts]
    rfl
  | texts ss =>
    rw [Token.form, Token.tagged, Token.unpack, Token.textsBody, withLastNaN_texts, Json.toValue,
      toValues_texts]
    rfl
  | byteRows rows =>
    have hrows := mapM_readBytes rows
    rw [Token.form, Token.tagged, Token.unpack, Token.items]
    simp only [hrows, Result.ok_bind, settled, toValue, List.map_map]
    rfl
  | list as ih =>
    rw [Token.form, Token.tagged, Token.unpack, formAll_eq, Token.unpackItems, unpackAll_eq ih,
      settled, settledAll_eq, toValue, toValues_eq]
    rfl
  | map es ih =>
    have hes := unpackEntries_eq fun e he => ih e ((Token.sortKeys_perm es).mem_iff.mp he)
    rw [Token.form, Token.tagged, Token.unpack, formEntries_eq, Token.sortKeys_mapValues,
      Token.unpackMap, hes, settled, settledEntries_eq, Token.sortKeys_mapValues, toValue, toEntries_eq]
    rfl

/-- Settling a value does not spoil it. -/
theorem sound_settled {a : Attribute} (h : Sound a) : Sound a.settled := by
  induction a using memberInduction with
  | null | bool | number | text | bytes | numbers | texts => exact h
  | byteRows rows =>
    rw [settled, Sound]
    simp
  | list as ih =>
    have has := (soundAll_iff as).mp h
    rw [settled, Sound, settledAll_eq, soundAll_iff]
    intro b hb
    obtain ⟨a, ha, rfl⟩ := List.mem_map.mp hb
    exact ih a ha (has a ha)
  | map es ih =>
    have hes := (soundEntries_iff es).mp h.2
    rw [settled, Sound, settledEntries_eq, soundEntries_iff]
    refine ⟨Token.nodup_keys_sortKeys (by simpa using h.1), ?_⟩
    intro f hf
    obtain ⟨e, he, rfl⟩ := List.mem_map.mp ((Token.sortKeys_perm _).mem_iff.mp hf)
    exact ih e he (hes e he)

/-- Rows of bytes that cannot grow are settled. -/
theorem rows_settled {rows : List (Bool × List UInt8)} (h : ∀ r ∈ rows, r.1 = false) :
    rows.map (fun r => (false, r.2)) = rows := by
  have hid : ∀ r ∈ rows, (fun r : Bool × List UInt8 => (false, r.2)) r = id r := by
    intro r hr
    exact Prod.ext (h r hr).symm rfl
  rw [List.map_congr_left hid, List.map_id]

/-- Settling before the reading is settling after it. -/
theorem value_settled {a : Attribute} (h : Sound a) : a.settled.value = a.value.settled := by
  induction a using memberInduction with
  | null | bool | number | text | bytes | numbers | texts => rfl
  | byteRows rows =>
    rw [settled, rows_settled h]
    rfl
  | list as ih =>
    have has := (soundAll_iff as).mp h
    have hmap : (as.map settled).map value = (as.map value).map Value.settled := by
      rw [List.map_map, List.map_map]
      exact List.map_congr_left fun a ha => ih a ha (has a ha)
    rw [settled, value, settledAll_eq, values_eq, hmap, value, values_eq, Value.settled,
      Value.settledAll_eq]
  | map es ih =>
    have hes := (soundEntries_iff es).mp h.2
    have hmap : mapValues value (mapValues settled es) =
        mapValues Value.settled (mapValues value es) := by
      simp only [mapValues, List.map_map]
      refine List.map_congr_left fun e he => ?_
      exact congrArg (Prod.mk e.1) (ih e he (hes e he))
    rw [settled, value, settledEntries_eq, valueEntries_eq, ← Token.sortKeys_mapValues, hmap, value,
      valueEntries_eq, Value.settled, Value.settledEntries_eq]

/-- No comparison tells a value that was read from the settled one. -/
theorem same_settled_value {a : Attribute} (h : Sound a) : a.value.same a.value.settled := by
  induction a using memberInduction with
  | null => rfl
  | bool b => cases b <;> rfl
  | number d => exact (decodeNumber_digits h).2.2
  | text s => simp [value, Value.settled, Value.same]
  | bytes mutable bs => simp [value, Value.settled, Value.same]
  | numbers ds =>
    refine Value.same_ofMembers fun v hv => ?_
    obtain ⟨d, hd, rfl⟩ := List.mem_map.mp hv
    exact (decodeNumber_digits (h d hd)).2.2
  | texts ss =>
    refine Value.same_ofMembers fun v hv => ?_
    obtain ⟨s, -, rfl⟩ := List.mem_map.mp hv
    simp [Value.same]
  | byteRows rows =>
    refine Value.same_ofMembers fun v hv => ?_
    obtain ⟨r, -, rfl⟩ := List.mem_map.mp hv
    simp [Value.same]
  | list as ih =>
    have has := (soundAll_iff as).mp h
    rw [value, values_eq, Value.settled, Value.settledAll_eq, Value.same]
    refine Value.sameRow_map fun v hv => ?_
    obtain ⟨a, ha, rfl⟩ := List.mem_map.mp hv
    exact ih a ha (has a ha)
  | map es ih =>
    have hes := (soundEntries_iff es).mp h.2
    rw [value, valueEntries_eq, Value.settled, Value.settledEntries_eq]
    refine Value.same_map (by simpa using h.1) (Token.sortKeys_perm _) fun f hf => ?_
    obtain ⟨e, he, rfl⟩ := List.mem_map.mp hf
    exact ih e he (hes e he)

mutual

/-- Does no map in an attribute value have a key twice? -/
def Keyed : Attribute → Prop
  | .list as => KeyedAll as
  | .map es => (keys es).Nodup ∧ KeyedEntries es
  | _ => True

def KeyedAll : List Attribute → Prop
  | [] => True
  | a :: as => Keyed a ∧ KeyedAll as

def KeyedEntries : List (Text × Attribute) → Prop
  | [] => True
  | (_, a) :: es => Keyed a ∧ KeyedEntries es

end

theorem keyedAll_iff (as : List Attribute) : KeyedAll as ↔ ∀ a ∈ as, Keyed a := by
  induction as with
  | nil => simp [KeyedAll]
  | cons a as ih => simp [KeyedAll, ih]

theorem keyedEntries_iff (es : List (Text × Attribute)) :
    KeyedEntries es ↔ ∀ e ∈ es, Keyed e.2 := by
  induction es with
  | nil => simp [KeyedEntries]
  | cons e es ih => simp [KeyedEntries, ih]

theorem Sound.keyed {a : Attribute} (h : Sound a) : Keyed a := by
  induction a using memberInduction with
  | list as ih =>
    have has := (soundAll_iff as).mp h
    exact (keyedAll_iff as).mpr fun a ha => ih a ha (has a ha)
  | map es ih =>
    have hes := (soundEntries_iff es).mp h.2
    exact ⟨h.1, (keyedEntries_iff es).mpr fun e he => ih e he (hes e he)⟩
  | _ => trivial

/-- The form inside a token is a document that is read back. -/
theorem Keyed.textual_form {a : Attribute} (h : Keyed a) : (Token.form a).Textual := by
  have hone : ∀ tag body, Json.Textual body → (Token.tagged tag body).Textual :=
    fun tag body hbody => ⟨by simp [keys], hbody, trivial⟩
  induction a using memberInduction with
  | null | bool | number | text | bytes => exact hone _ _ trivial
  | numbers ds =>
    refine hone _ _ ((Json.textualAll_iff _).mpr fun j hj => ?_)
    obtain ⟨d, -, rfl⟩ := List.mem_map.mp hj
    trivial
  | texts ss =>
    refine hone _ _ ((Json.textualAll_iff _).mpr fun j hj => ?_)
    obtain ⟨s, -, rfl⟩ := List.mem_map.mp hj
    trivial
  | byteRows rows =>
    refine hone _ _ ((Json.textualAll_iff _).mpr fun j hj => ?_)
    obtain ⟨r, -, rfl⟩ := List.mem_map.mp hj
    trivial
  | list as ih =>
    have has := (keyedAll_iff as).mp h
    rw [Token.form, formAll_eq]
    refine hone _ _ ((Json.textualAll_iff _).mpr fun j hj => ?_)
    obtain ⟨a, ha, rfl⟩ := List.mem_map.mp hj
    exact ih a ha (has a ha)
  | map es ih =>
    have hes := (keyedEntries_iff es).mp h.2
    rw [Token.form, formEntries_eq]
    refine hone _ _ ⟨Token.nodup_keys_sortKeys (by simpa using h.1),
      (Json.textualEntries_iff _).mpr fun f hf => ?_⟩
    obtain ⟨e, he, rfl⟩ := List.mem_map.mp ((Token.sortKeys_perm _).mem_iff.mp hf)
    exact ih e he (hes e he)

/-- A row that is read member by member is made of the things that the readings come from. -/
theorem exists_row_of_mapM {α β γ : Type} {f : α → Option β} {g : γ → α} {k : γ → β}
    (hf : ∀ x y, f x = some y → ∃ c, x = g c ∧ y = k c) {xs : List α} {ys : List β}
    (h : xs.mapM f = some ys) : ∃ cs : List γ, xs = cs.map g ∧ ys = cs.map k := by
  induction xs generalizing ys with
  | nil => exact ⟨[], rfl, by simpa using h.symm⟩
  | cons x xs ih =>
    obtain ⟨y, hx, zs, hxs, rfl⟩ :
        ∃ y, f x = some y ∧ ∃ zs, xs.mapM f = some zs ∧ y :: zs = ys := by
      simpa [Option.bind_eq_some_iff] using h
    obtain ⟨c, rfl, rfl⟩ := hf x y hx
    obtain ⟨cs, rfl, rfl⟩ := ih hxs
    exact ⟨c :: cs, rfl, rfl⟩

/-- What a set goes over to, by the kind of all of its members. -/
theorem ofSet_inv {vs : List Value} {a : Attribute} (h : ofSet vs = .ok a) :
    ((∀ v ∈ vs, v.number?.isSome) ∧ ∃ ds, a = .numbers ds ∧ vs.mapM digits = .ok ds) ∨
      (∃ v ∈ vs, v.number?.isSome = false) ∧
        ((∃ ss, a = .texts ss ∧ vs = ss.map .text) ∨
          ∃ bs : List Blob, a = .byteRows (bs.map fun b => (b.mutable, b.bytes)) ∧
            vs = bs.map .blob) := by
  rw [ofSet] at h
  split at h
  · next hnumbers =>
    obtain ⟨ds, hds, rfl⟩ := Result.map_eq_ok.mp h
    exact .inl ⟨by simpa using hnumbers, ds, rfl, hds⟩
  · next hother =>
    refine .inr ⟨by simpa using hother, ?_⟩
    split at h
    · next ss _ hss =>
      obtain rfl := Except.ok.inj h
      have htext : ∀ v s, Value.text? v = some s → ∃ t, v = .text t ∧ s = t := by
        intro v s hv
        cases v <;> simp_all [Value.text?]
      obtain ⟨ts, hts, rfl⟩ := exists_row_of_mapM htext hss
      exact .inl ⟨_, rfl, by simpa using hts⟩
    · next rows _ hrows =>
      obtain rfl := Except.ok.inj h
      have hblob : ∀ v r, bytesOf? v = some r → ∃ b : Blob, v = .blob b ∧ r = (b.mutable, b.bytes) := by
        intro v r hv
        cases v <;> simp_all [bytesOf?]
      obtain ⟨bs, hbs, rfl⟩ := exists_row_of_mapM hblob hrows
      exact .inr ⟨bs, rfl, hbs⟩
    · simp at h

end Attribute

end TableGateway
