import TableGateway.Attribute.Decoding

/-!
# Tags of attribute values

Each kind of attribute value is written under a tag of its own, and a body under that tag is read as
one of the kind.
-/
namespace TableGateway.Attribute

/-- The tags that are written, each with the kind it names. -/
def tags : List (String × Kind) :=
  [("NULL", .null), ("BOOL", .asIs), ("S", .asIs), ("N", .number), ("B", .bytes), ("NS", .numbers),
    ("SS", .texts), ("BS", .byteRows), ("L", .list), ("M", .map)]

/-- How a body of a kind is read. -/
def Kind.read : Kind → Value → Result Value
  | .null, _ => .ok .null
  | .asIs, body => .ok body
  | .number, body => decodeNumber body
  | .bytes, body => decodeBytes body
  | .numbers, body => decodeSet decodeNumber body
  | .texts, body => decodeSet .ok body
  | .byteRows, body => decodeSet decodeBytes body
  | .list, body => decodeList body
  | .map, body => decodeMap body

/-- Lowering a text is lowering its letters one by one. -/
theorem toLower_eq (s : String) : s.toLower = String.ofList (s.toList.map Char.toLower) := by
  apply String.toList_inj.mp
  rw [String.toList_ofList]
  exact String.toList_map

/-- The kind is found under the lowered tag, as the reader looks it up. -/
theorem ofTag?_toLower {t : String} {k : Kind} (h : (t, k) ∈ tags) :
    Kind.ofTag? (Text.whole t).toLower = some k := by
  rw [Text.toLower, toLower_eq]
  simp only [tags, List.mem_cons, Prod.mk.injEq, List.not_mem_nil, or_false] at h
  rcases h with h | h | h | h | h | h | h | h | h | h
  all_goals
    obtain ⟨rfl, rfl⟩ := h
    rfl

/-- Under the tag of its kind a body is read as one of that kind, whatever the body. -/
theorem decode_tagged {t : String} {k : Kind} (h : (t, k) ∈ tags) (body : Value) :
    decode (.map [(t, body)]) = k.read body := by
  rw [decode, ofTag?_toLower h]
  cases k <;> rfl

section Bodies

variable (body : Value)

theorem decode_null : decode (.map [("NULL", body)]) = .ok .null :=
  decode_tagged (k := .null) (by simp [tags]) body

theorem decode_bool : decode (.map [("BOOL", body)]) = .ok body :=
  decode_tagged (k := .asIs) (by simp [tags]) body

theorem decode_text : decode (.map [("S", body)]) = .ok body :=
  decode_tagged (k := .asIs) (by simp [tags]) body

theorem decode_number : decode (.map [("N", body)]) = decodeNumber body :=
  decode_tagged (k := .number) (by simp [tags]) body

theorem decode_bytes : decode (.map [("B", body)]) = decodeBytes body :=
  decode_tagged (k := .bytes) (by simp [tags]) body

theorem decode_numbers : decode (.map [("NS", body)]) = decodeSet decodeNumber body :=
  decode_tagged (k := .numbers) (by simp [tags]) body

theorem decode_texts : decode (.map [("SS", body)]) = decodeSet .ok body :=
  decode_tagged (k := .texts) (by simp [tags]) body

theorem decode_byteRows : decode (.map [("BS", body)]) = decodeSet decodeBytes body :=
  decode_tagged (k := .byteRows) (by simp [tags]) body

theorem decode_listBody : decode (.map [("L", body)]) = decodeList body :=
  decode_tagged (k := .list) (by simp [tags]) body

theorem decode_mapBody : decode (.map [("M", body)]) = decodeMap body :=
  decode_tagged (k := .map) (by simp [tags]) body

end Bodies

end TableGateway.Attribute
