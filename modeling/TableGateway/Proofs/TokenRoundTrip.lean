import TableGateway.Proofs.Storable
import TableGateway.Proofs.Unbroken

/-!
# Tokens read back

The token of a key stands for that key: what it is read as has under each name the value that the
store would hand back, settled. The pads at the end of a token and blanks around it play no part.
-/
namespace TableGateway.Token

open TableGateway.Entries

/-- The attribute value that an accepted value goes over to. -/
def accepted (v : Value) : Attribute := (Attribute.ofValue v).toOption.getD .null

/-- The value that the store hands back for an accepted one, settled. -/
def handedBack (v : Value) : Value := (accepted v).value.settled

theorem ofValue_eq {v : Value} (h : ∃ a, Attribute.ofValue v = .ok a) :
    Attribute.ofValue v = .ok (accepted v) := by
  obtain ⟨a, ha⟩ := h
  rw [accepted, ha]
  rfl

theorem ofEntries_eq {es : Fields} (h : ∀ e ∈ es, ∃ a, Attribute.ofValue e.2 = .ok a) :
    Attribute.ofEntries es = .ok (mapValues accepted es) := by
  induction es with
  | nil => rfl
  | cons e es ih =>
    have hes := ih fun f hf => h f (by simp [hf])
    rw [Attribute.ofEntries, ofValue_eq (h e (by simp)), hes]
    rfl

/-- A key without lone halves whose values are all well made and accepted by the store. -/
structure IsKey (es : Fields) : Prop where
  nonempty : es ≠ []
  regular : (Value.map es).Regular
  unbroken : (Value.map es).Unbroken
  accepted : ∀ e ∈ es, ∃ a, Attribute.ofValue e.2 = .ok a

theorem IsKey.sound {es : Fields} (h : IsKey es) {e : Text × Value} (he : e ∈ es) :
    (Token.accepted e.2).Sound :=
  Attribute.sound_ofValue e.2 ((Value.regularEntries_iff es).mp h.regular.2 e he) _
    (ofValue_eq (h.accepted e he))

/-- A key without lone halves whose values go over to attribute values that can be read back. -/
structure Sendable (es : Fields) : Prop where
  nonempty : es ≠ []
  distinct : (keys es).Nodup
  unbroken : (Value.map es).Unbroken
  accepted : ∀ e ∈ es, ∃ a, Attribute.ofValue e.2 = .ok a
  sound : ∀ e ∈ es, (Token.accepted e.2).Sound

theorem IsKey.sendable {es : Fields} (h : IsKey es) : Sendable es :=
  ⟨h.nonempty, h.regular.1, h.unbroken, h.accepted, fun _ he => h.sound he⟩

/-- The attribute values of a key, by name. -/
def keyAttributes (es : Fields) : List (Text × Attribute) := mapValues accepted (sortKeys es)

/-- The text inside the token of a key. -/
def keyText (es : Fields) : Text := .ofList (document (keyAttributes es)).write

/-- The token of a text without lone halves. -/
def tokenOf (s : String) : List Char := Base64.encode Base64.urlSafe s.toUTF8.data.toList

theorem readEntries_eq {as : List (Text × Attribute)} (h : ∀ a ∈ as, a.2.Sound) :
    readEntries (mapValues form as) = .ok (mapValues (fun a => a.value.settled) as) := by
  induction as with
  | nil => rfl
  | cons a as ih =>
    have has := ih fun b hb => h b (by simp [hb])
    have hread : Attribute.decode a.2.settled.toValue = .ok a.2.value.settled := by
      rw [Attribute.decode_toValue (Attribute.sound_settled (h a (by simp))),
        Attribute.value_settled (h a (by simp))]
    rw [mapValues] at has
    rw [mapValues, List.map_cons, readEntries, Attribute.unpack_form]
    simp only [hread, has, Result.ok_bind]
    rfl

namespace Sendable

variable {es : Fields}

theorem ofEntries_sorted (h : Sendable es) :
    Attribute.ofEntries (sortKeys es) = .ok (keyAttributes es) :=
  ofEntries_eq fun e he => h.accepted e ((sortKeys_perm es).mem_iff.mp he)

/-- The text inside the token has no lone half, as the key has none. -/
theorem exists_keyText (h : Sendable es) : ∃ s : String, keyText es = s := by
  have hsorted := (unbroken_sortKeys es).mpr h.unbroken
  exact (Text.unbroken_iff _).mp ((unbroken_document h.ofEntries_sorted).mpr hsorted)

theorem encode_eq (h : Sendable es) {s : String} (hs : keyText es = s) :
    encode (.map es) = .ok (some (.whole (String.ofList (tokenOf s)))) := by
  have htruthy : (Value.map es).truthy = true := by simpa [Value.truthy] using h.nonempty
  have hattributes : attributes (.map es) = .ok (keyAttributes es) := h.ofEntries_sorted
  rw [encode, if_pos htruthy, hattributes, Result.ok_bind, ← keyText, hs]
  rfl

theorem keyAttributes_sound (h : Sendable es) : ∀ a ∈ keyAttributes es, a.2.Sound := by
  intro a ha
  obtain ⟨e, he, rfl⟩ := List.mem_map.mp ha
  exact h.sound e ((sortKeys_perm es).mem_iff.mp he)

theorem read_keyText (h : Sendable es) :
    Json.read (keyText es).toList = some (document (keyAttributes es)) := by
  rw [keyText, Text.toList_ofList]
  refine Json.read_write ⟨by simp [keys], ⟨?_, ?_⟩, trivial⟩
  · rw [Attribute.formEntries_eq, keys_mapValues, keyAttributes, keys_mapValues]
    exact nodup_keys_sortKeys h.distinct
  · rw [Attribute.formEntries_eq, Json.textualEntries_iff]
    intro f hf
    obtain ⟨a, ha, rfl⟩ := List.mem_map.mp hf
    exact (h.keyAttributes_sound a ha).keyed.textual_form

theorem lastKey?_document (h : Sendable es) :
    lastKey? (document (keyAttributes es)) = some (mapValues form (keyAttributes es)) := by
  have hne : mapValues form (keyAttributes es) ≠ [] := by
    simpa [mapValues, keyAttributes] using sortKeys_ne_nil h.nonempty
  obtain ⟨e, es', he⟩ := List.exists_cons_of_ne_nil hne
  rw [document, Attribute.formEntries_eq, he]
  rfl

/-- The key text is read as the key in the form in which the store hands it back. -/
theorem decodeText_eq (h : Sendable es) {cs : List Char}
    (hcs : toText? cs = some (keyText es)) :
    decodeText cs = .ok (mapValues handedBack (sortKeys es)) := by
  have hvalues : mapValues (fun a => a.value.settled) (keyAttributes es) =
      mapValues handedBack (sortKeys es) := by
    simp [keyAttributes, mapValues, handedBack]
  have hread : readEntries (mapValues form (keyAttributes es)) =
      .ok (mapValues handedBack (sortKeys es)) := by
    rw [readEntries_eq h.keyAttributes_sound, hvalues]
  rw [decodeText, hcs]
  simp only [h.read_keyText, Option.bind_some, h.lastKey?_document, hread]
  rfl

end Sendable

/-- The characters of a URL-safe token, the pad apart. -/
def IsUrlSafe (c : Char) : Prop := c.isAlphanum ∨ c = '-' ∨ c = '_'

theorem digit_urlSafe {n : Nat} (h : n < 64) : IsUrlSafe (Base64.digit Base64.urlSafe n) := by
  have hall : ∀ n ∈ List.range 64, (Base64.digit Base64.urlSafe n).isAlphanum ∨
      Base64.digit Base64.urlSafe n = '-' ∨ Base64.digit Base64.urlSafe n = '_' := by decide
  exact hall n (List.mem_range.mpr h)

theorem digit_notBlank {n : Nat} (h : n < 64) :
    Text.isBlank (Base64.digit Base64.urlSafe n) = false := by
  have hall : ∀ n ∈ List.range 64, Text.isBlank (Base64.digit Base64.urlSafe n) = false := by decide
  exact hall n (List.mem_range.mpr h)

theorem dropWhile_blanks {front cs : List Char} (hfront : ∀ c ∈ front, Text.isBlank c)
    (hcs : ∀ c ∈ cs, Text.isBlank c = false) (hne : cs ≠ []) (back : List Char) :
    (front ++ (cs ++ back)).dropWhile Text.isBlank = cs ++ back := by
  obtain ⟨c, cs, rfl⟩ := List.exists_cons_of_ne_nil hne
  have hc : ¬Text.isBlank c = true := by simp [hcs c (by simp)]
  rw [List.dropWhile_append_of_pos hfront, List.cons_append, List.dropWhile_cons_of_neg hc]

theorem trim_blanks {front cs back : List Char} (hfront : ∀ c ∈ front, Text.isBlank c)
    (hback : ∀ c ∈ back, Text.isBlank c) (hcs : ∀ c ∈ cs, Text.isBlank c = false) (hne : cs ≠ []) :
    Text.trim (front ++ cs ++ back) = cs := by
  have hreverse : (back.reverse ++ (cs.reverse ++ [])).dropWhile Text.isBlank = cs.reverse ++ [] :=
    dropWhile_blanks (by simpa using hback) (by simpa using hcs) (by simpa using hne) []
  rw [Text.trim, List.append_assoc, dropWhile_blanks hfront hcs hne, List.reverse_append]
  rw [List.append_nil] at hreverse
  rw [hreverse, List.reverse_reverse]

theorem toText?_part {s : String} {core : List Char} {pads kept : Nat}
    (h : Base64.Padded Base64.urlSafe (tokenOf s) core pads) (hk : kept ≤ pads) :
    toText? (core ++ List.replicate kept '=') = some (.whole s) := by
  have hpad := h.pad hk
  simp only at hpad
  rw [toText?, hpad, tokenOf, Base64.decodeUrlSafe_encode]
  simp [String.fromUTF8?, String.toUTF8, s.isValidUTF8, String.fromUTF8]

/-- The token of a key without some of its pads and with blanks around it. -/
theorem Sendable.decode_part {es : Fields} (h : Sendable es) {s : String} (hs : keyText es = s)
    {core : List Char} {pads kept : Nat} (hpad : Base64.Padded Base64.urlSafe (tokenOf s) core pads)
    (hne : core ≠ []) (hk : kept ≤ pads) (front back : List Char) (hfront : ∀ c ∈ front, Text.isBlank c)
    (hback : ∀ c ∈ back, Text.isBlank c) :
    decode (.text (String.ofList (front ++ (core ++ List.replicate kept '=') ++ back))) =
      .ok (mapValues handedBack (sortKeys es)) := by
  have hnotBlank : ∀ c ∈ core ++ List.replicate kept '=', Text.isBlank c = false := by
    intro c hc
    rcases List.mem_append.mp hc with hc | hc
    · obtain ⟨n, hn, rfl⟩ := hpad.digits c hc
      exact digit_notBlank hn
    · rw [List.eq_of_mem_replicate hc]
      decide
  have hpart : core ++ List.replicate kept '=' ≠ [] := by simp [hne]
  have htrim := trim_blanks hfront hback hnotBlank hpart
  have htruthy : (Value.text (String.ofList
      (front ++ (core ++ List.replicate kept '=') ++ back))).truthy = true := by
    simp [Value.truthy, hne]
  rw [decode, Value.orElse, if_pos htruthy, Value.shown]
  simp only [Value.hasDisplay, if_true, Value.display, Result.ok_bind, Text.chars?_whole,
    String.toList_ofList, Option.map_some, htrim]
  obtain ⟨c, cs, hcs⟩ := List.exists_cons_of_ne_nil hpart
  have htext := toText?_part hpad hk
  rw [← hs] at htext
  rw [hcs] at htext ⊢
  exact h.decodeText_eq htext

theorem get?_handedBack {es : Fields} (h : (keys es).Nodup) (name : Text) :
    get? (mapValues handedBack (sortKeys es)) name = (get? es name).map handedBack := by
  rw [get?_mapValues, get?_sortKeys h]

theorem tokenOf_bytes_ne_nil {es : Fields} {s : String} (hs : keyText es = s) :
    s.toUTF8.data.toList ≠ [] := by
  intro hnil
  obtain rfl : s = "" := by
    rw [← String.toByteArray_inj]
    exact ByteArray.ext (Array.toList_inj.mp hnil)
  have hlist := congrArg Text.toList hs
  simp [keyText, document, Json.write] at hlist

/-- A key has a token that stands for it. -/
theorem Sendable.exists_token {es : Fields} (h : Sendable es) :
    ∃ token, encode (.map es) = .ok (some token) ∧ token ≠ "" ∧
      decode (.text token) = .ok (mapValues handedBack (sortKeys es)) := by
  obtain ⟨s, hs⟩ := h.exists_keyText
  obtain ⟨core, pads, hpad, hcore⟩ := Base64.encode_padded Base64.urlSafe s.toUTF8.data.toList
  have hne := hcore (tokenOf_bytes_ne_nil hs)
  have htoken := h.decode_part hs hpad hne (Nat.le_refl pads) [] [] (by simp) (by simp)
  simp only [List.nil_append, List.append_nil, ← hpad.eq] at htoken
  refine ⟨_, h.encode_eq hs, ?_, htoken⟩
  rw [tokenOf, hpad.eq]
  simp [hne]

theorem exists_token {es : Fields} (h : IsKey es) :
    ∃ token, encode (.map es) = .ok (some token) ∧ token ≠ "" ∧
      decode (.text token) = .ok (mapValues handedBack (sortKeys es)) := h.sendable.exists_token

/-- A key as the store would hand it back, under the same names. -/
structure HandedBack (es fields : Fields) : Prop where
  names : (keys fields).Perm (keys es)
  values : ∀ name v, get? es name = some v → ∃ a w, Attribute.marshal v = .ok a ∧
    Attribute.decode a = .ok w ∧ get? fields name = some w.settled ∧ w.same w.settled

theorem handedBack_key {es : Fields} (h : IsKey es) :
    HandedBack es (mapValues handedBack (sortKeys es)) where
  names := by
    rw [keys_mapValues]
    exact (sortKeys_perm es).map Prod.fst
  values := by
    intro name v hv
    have he := mem_of_get? hv
    have hsound := h.sound he
    refine ⟨(accepted v).toValue, (accepted v).value, ?_, Attribute.decode_toValue hsound, ?_,
      Attribute.same_settled_value hsound⟩
    · rw [Attribute.marshal, ofValue_eq (h.accepted _ he)]
      rfl
    · rw [get?_handedBack h.regular.1, hv]
      rfl

/-- A key without lone halves goes into a token and comes out of it as the store would hand it back.
The token is made of URL-safe characters and pads, of which some or all may be left out, and blanks may
stand around it. -/
theorem key_round_trip (es : Fields) (hne : es ≠ []) (hr : (Value.map es).Regular)
    (hu : (Value.map es).Unbroken) (ha : ∀ e ∈ es, ∃ a, Attribute.ofValue e.2 = .ok a) :
    ∃ core pads fields, encode (.map es) =
        .ok (some (.whole (String.ofList (core ++ List.replicate pads '=')))) ∧
      pads ≤ 2 ∧ (∀ c ∈ core, IsUrlSafe c) ∧ HandedBack es fields ∧
      ∀ kept ≤ pads, ∀ front back, (∀ c ∈ front, Text.isBlank c) → (∀ c ∈ back, Text.isBlank c) →
        decode (.text (String.ofList (front ++ (core ++ List.replicate kept '=') ++ back))) =
          .ok fields := by
  have h : IsKey es := ⟨hne, hr, hu, ha⟩
  obtain ⟨s, hs⟩ := h.sendable.exists_keyText
  obtain ⟨core, pads, hpad, hcore⟩ := Base64.encode_padded Base64.urlSafe s.toUTF8.data.toList
  refine ⟨core, pads, mapValues handedBack (sortKeys es), ?_, hpad.few, ?_, handedBack_key h, ?_⟩
  · rw [h.sendable.encode_eq hs, tokenOf, hpad.eq]
  · intro c hc
    obtain ⟨n, hn, rfl⟩ := hpad.digits c hc
    exact digit_urlSafe hn
  · intro kept hk front back hfront hback
    exact h.sendable.decode_part hs hpad (hcore (tokenOf_bytes_ne_nil hs)) hk front back hfront hback

/-- A key of a text, a decimal, bytes, a set and a nested map. -/
def sampleKey : Fields :=
  [("id", .text "user#1"), ("at", .number (.decimal (.finite true 1234567 (-9)))),
    ("raw", .blob ⟨[0, 255], true, false⟩), ("tags", .set false [.text "a", .text "b"]),
    ("more", .map [("z", .list [.null, .bool true]), ("a", .int 7)])]

theorem key_round_trip_sample :
    ∃ core pads fields, encode (.map sampleKey) =
        .ok (some (.whole (String.ofList (core ++ List.replicate pads '=')))) ∧
      pads ≤ 2 ∧ (∀ c ∈ core, IsUrlSafe c) ∧ HandedBack sampleKey fields ∧
      ∀ kept ≤ pads, ∀ front back, (∀ c ∈ front, Text.isBlank c) → (∀ c ∈ back, Text.isBlank c) →
        decode (.text (String.ofList (front ++ (core ++ List.replicate kept '=') ++ back))) =
          .ok fields := by
  refine key_round_trip sampleKey (by simp [sampleKey]) ?_ ?_ ?_
  · simp [sampleKey, Value.Regular, Value.RegularEntries, Value.RegularAll, Value.allHashable,
      Value.hashable, Value.int, Number.IsFinite, keys]
  · simp [sampleKey, Value.Unbroken, Value.UnbrokenEntries, Value.UnbrokenAll, Value.int]
  · intro e he
    simp only [sampleKey, List.mem_cons, List.not_mem_nil, or_false] at he
    rcases he with rfl | rfl | rfl | rfl | rfl <;> exact ⟨_, rfl⟩

/-- A key with half of a pair in its text is well made and accepted, and has no token. -/
theorem not_key_round_trip :
    ¬∀ es : Fields, es ≠ [] → (Value.map es).Regular → (∀ e ∈ es, e.1.Unbroken) →
      (∀ e ∈ es, ∃ a, Attribute.ofValue e.2 = .ok a) →
        ∃ token fields, encode (.map es) = .ok (some token) ∧ HandedBack es fields ∧
          decode (.text token) = .ok fields := by
  intro h
  obtain ⟨token, fields, hencode, -⟩ := h [("id", .text (.broken "" 0 ""))] (by simp)
    (by simp [Value.Regular, Value.RegularEntries, keys]) (by simp) (by simpa using ⟨_, rfl⟩)
  have herror : encode (.map [("id", .text (.broken "" 0 ""))]) = .error .notEncodable := rfl
  rw [herror] at hencode
  cases hencode

end TableGateway.Token
