import TableGateway.Proofs.AttributeForm
import TableGateway.Proofs.SortedKeys

/-!
# Texts without lone halves

What is written of a document has a lone half in it just where a text or a key of the document has one,
and the document of a value has the texts and the keys of the value. So a value without lone halves, at
whatever depth, is one whose document can be encoded.
-/
namespace TableGateway

/-- Is there no lone half in a text? -/
def Text.Unbroken (t : Text) : Prop := ∀ h, Letter.half h ∉ t.toList

namespace Text

@[simp] theorem unbroken_whole (s : String) : (whole s).Unbroken := by
  simp [Unbroken]

/-- A text without lone halves is one that has an encoding. -/
theorem unbroken_iff (t : Text) : t.Unbroken ↔ ∃ s : String, t = s := by
  cases t with
  | whole s => simp
  | broken s h rest =>
    have hbroken : ¬(broken s h rest).Unbroken := fun hall => hall h (by simp [toList])
    simp [hbroken]

end Text

namespace Value

mutual

/-- Has no text in a value a lone half in it, and no key of a map? -/
def Unbroken : Value → Prop
  | .text s => s.Unbroken
  | .list vs | .tuple vs | .set _ vs => UnbrokenAll vs
  | .map es => UnbrokenEntries es
  | _ => True

def UnbrokenAll : List Value → Prop
  | [] => True
  | v :: vs => Unbroken v ∧ UnbrokenAll vs

def UnbrokenEntries : List (Text × Value) → Prop
  | [] => True
  | (k, v) :: es => k.Unbroken ∧ Unbroken v ∧ UnbrokenEntries es

end

theorem unbrokenAll_iff (vs : List Value) : UnbrokenAll vs ↔ ∀ v ∈ vs, v.Unbroken := by
  induction vs with
  | nil => simp [UnbrokenAll]
  | cons v vs ih => simp [UnbrokenAll, ih]

theorem unbrokenEntries_iff (es : Fields) :
    UnbrokenEntries es ↔ ∀ e ∈ es, e.1.Unbroken ∧ e.2.Unbroken := by
  induction es with
  | nil => simp [UnbrokenEntries]
  | cons e es ih => simp [UnbrokenEntries, ih, and_assoc]

end Value

namespace Json

/-- Is there no lone half in what is written of a document? -/
def Unbroken (j : Json) : Prop := ∀ h, Letter.half h ∉ j.write

/-- Nothing that is escaped has a lone half in it, and a lone half is not escaped. -/
theorem half_mem_escapeLetter {h : Half} {c : Letter} :
    Letter.half h ∈ escapeLetter c ↔ c = .half h := by
  cases c with
  | char c =>
    unfold escapeLetter
    extract_lets n
    split_ifs <;> simp
  | half k =>
    have hn : 0xd800 ≤ (Letter.half k).toNat := Nat.le_add_right _ _
    have hwrite : escapeLetter (.half k) = [.half k] := by
      unfold escapeLetter
      extract_lets n
      simp only [reduceCtorEq, if_false]
      split_ifs <;> first | omega | rfl
    rw [hwrite]
    simp [eq_comm]

theorem unbroken_bool (b : Bool) : (bool b).Unbroken := by
  cases b <;> simp [Unbroken, write]

theorem half_mem_writeText {h : Half} {s : Text} :
    Letter.half h ∈ writeText s ↔ Letter.half h ∈ s.toList := by
  simp [writeText, half_mem_escapeLetter]

theorem unbroken_text (s : Text) : (text s).Unbroken ↔ s.Unbroken := by
  simp only [Unbroken, write, half_mem_writeText, Text.Unbroken]

theorem half_mem_writeItems {h : Half} (js : List Json) :
    Letter.half h ∈ writeItems js ↔ ∃ j ∈ js, Letter.half h ∈ j.write := by
  induction js with
  | nil => simp [writeItems]
  | cons j js ih =>
    cases js with
    | nil => simp [writeItems]
    | cons k ks => simp [writeItems, ih]

theorem half_mem_writeEntries {h : Half} (es : List (Text × Json)) :
    Letter.half h ∈ writeEntries es ↔
      ∃ e ∈ es, Letter.half h ∈ e.1.toList ∨ Letter.half h ∈ e.2.write := by
  induction es with
  | nil => simp [writeEntries]
  | cons e es ih =>
    cases es with
    | nil => simp [writeEntries, half_mem_writeText]
    | cons f fs => simp [writeEntries, half_mem_writeText, ih, or_assoc]

theorem unbroken_array (js : List Json) : (array js).Unbroken ↔ ∀ j ∈ js, j.Unbroken := by
  simp only [Unbroken, write, List.mem_cons, List.mem_append, half_mem_writeItems]
  grind

/-- An object is without lone halves where its keys and its values are. -/
theorem unbroken_object (es : List (Text × Json)) :
    (object es).Unbroken ↔ ∀ e ∈ es, e.1.Unbroken ∧ e.2.Unbroken := by
  simp only [Unbroken, Text.Unbroken, write, List.mem_cons, List.mem_append, half_mem_writeEntries]
  grind

end Json

namespace Attribute

/-- Digits are ASCII. -/
theorem unbroken_digitsOfNumber {n : Number} {d : Text} (h : digitsOfNumber n = .ok d) :
    d.Unbroken := by
  cases n with
  | float x => cases h
  | int n =>
    obtain ⟨x, -, rfl⟩ := Result.map_eq_ok.mp h
    exact Text.unbroken_whole _
  | decimal x =>
    obtain ⟨y, -, h⟩ := Result.bind_eq_ok.mp h
    simp only at h
    split at h
    · cases h
    · obtain rfl := Except.ok.inj h
      exact Text.unbroken_whole _

theorem unbroken_digits {v : Value} {d : Text} (h : digits v = .ok d) : d.Unbroken := by
  rw [digits] at h
  split at h
  · exact unbroken_digitsOfNumber h
  · cases h

theorem unbroken_tagged (tag : String) (body : Json) :
    (Token.tagged tag body).Unbroken ↔ body.Unbroken := by
  simp [Token.tagged, Json.unbroken_object]

theorem unbroken_bytesText (bs : List UInt8) : (Token.bytesText bs).Unbroken :=
  (Json.unbroken_text _).mpr (Text.unbroken_whole _)

theorem unbroken_texts (ss : List Text) :
    (Json.array (ss.map .text)).Unbroken ↔ ∀ s ∈ ss, s.Unbroken := by
  simp [Json.unbroken_array, Json.unbroken_text]

/-- The document of a set has lone halves where one of its members is a text that has some. -/
theorem unbroken_form_set {vs : List Value} {a : Attribute} (h : ofSet vs = .ok a) :
    (Token.form a).Unbroken ↔ Value.UnbrokenAll vs := by
  rw [Value.unbrokenAll_iff]
  obtain ⟨hnumbers, ds, rfl, hds⟩ | ⟨-, ⟨ss, rfl, rfl⟩ | ⟨bs, rfl, rfl⟩⟩ := ofSet_inv h
  · rw [Token.form, unbroken_tagged, unbroken_texts]
    -- Neither digits nor the numbers that they show can have a lone half.
    refine iff_of_true (fun d hd => ?_) fun v hv => ?_
    · obtain ⟨v, -, hv⟩ := Result.exists_source_of_mapM hds d hd
      exact unbroken_digits hv
    · have hnumber := hnumbers v hv
      cases v with
      | bool | number => trivial
      | _ => simp [Value.number?] at hnumber
  · rw [Token.form, unbroken_tagged, unbroken_texts, List.forall_mem_map]
    rfl
  · rw [Token.form, unbroken_tagged, Json.unbroken_array]
    exact iff_of_true (by simp [unbroken_bytesText]) (by simp [Value.Unbroken])

mutual

/-- What is written of the attribute value of a value has lone halves just where the value has some. -/
theorem unbroken_form : (v : Value) → ∀ {a : Attribute}, ofValue v = .ok a →
    ((Token.form a).Unbroken ↔ v.Unbroken)
  | .null, a, h | .bool _, a, h => by
    obtain rfl := Except.ok.inj h
    rw [Token.form, unbroken_tagged]
    exact iff_of_true (Json.unbroken_bool _) trivial
  | .number n, a, h => by
    obtain ⟨d, hd, rfl⟩ := Result.map_eq_ok.mp h
    rw [Token.form, unbroken_tagged, Json.unbroken_text]
    exact iff_of_true (unbroken_digitsOfNumber hd) trivial
  | .text s, a, h => by
    obtain rfl := Except.ok.inj h
    rw [Token.form, unbroken_tagged, Json.unbroken_text, Value.Unbroken]
  | .blob b, a, h => by
    obtain rfl := Except.ok.inj h
    rw [Token.form, unbroken_tagged]
    exact iff_of_true (unbroken_bytesText _) trivial
  | .set _ vs, a, h => unbroken_form_set h
  | .list vs, a, h => by
    obtain ⟨as, has, rfl⟩ := Result.map_eq_ok.mp h
    rw [Token.form, unbroken_tagged, Json.unbroken_array, Value.Unbroken, unbroken_formAll vs has]
  | .tuple vs, a, h => by
    obtain ⟨as, has, rfl⟩ := Result.map_eq_ok.mp h
    rw [Token.form, unbroken_tagged, Json.unbroken_array, Value.Unbroken, unbroken_formAll vs has]
  | .map es, a, h => by
    obtain ⟨as, has, rfl⟩ := Result.map_eq_ok.mp h
    rw [Token.form, unbroken_tagged, Json.unbroken_object, Value.Unbroken,
      ← unbroken_formEntries es has]
    simp only [(Token.sortKeys_perm _).mem_iff]
  | .anything, _, h | .object _, _, h | .record .., _, h => by cases h

theorem unbroken_formAll : (vs : List Value) → ∀ {as : List Attribute}, ofValues vs = .ok as →
    ((∀ j ∈ Token.formAll as, j.Unbroken) ↔ Value.UnbrokenAll vs)
  | [], as, h => by
    obtain rfl := Except.ok.inj h
    simp [Token.formAll, Value.UnbrokenAll]
  | v :: vs, as, h => by
    obtain ⟨b, hb, h⟩ := Result.bind_eq_ok.mp h
    obtain ⟨bs, hbs, h⟩ := Result.bind_eq_ok.mp h
    obtain rfl := Except.ok.inj h
    rw [Token.formAll, List.forall_mem_cons, unbroken_form v hb, unbroken_formAll vs hbs,
      Value.UnbrokenAll]

theorem unbroken_formEntries : (es : Fields) → ∀ {as : List (Text × Attribute)},
    ofEntries es = .ok as →
    ((∀ e ∈ Token.formEntries as, e.1.Unbroken ∧ e.2.Unbroken) ↔ Value.UnbrokenEntries es)
  | [], as, h => by
    obtain rfl := Except.ok.inj h
    simp [Token.formEntries, Value.UnbrokenEntries]
  | (k, v) :: es, as, h => by
    obtain ⟨b, hb, h⟩ := Result.bind_eq_ok.mp h
    obtain ⟨bs, hbs, h⟩ := Result.bind_eq_ok.mp h
    obtain rfl := Except.ok.inj h
    rw [Token.formEntries, List.forall_mem_cons, unbroken_form v hb, unbroken_formEntries es hbs,
      Value.UnbrokenEntries, and_assoc]

end

end Attribute

namespace Token

/-- A token holds a text exactly when the text has no lone half. -/
theorem exists_ofText_iff (t : Text) : (∃ token, ofText t = .ok token) ↔ t.Unbroken := by
  rw [Text.unbroken_iff]
  cases t with
  | whole s => simp [ofText]
  | broken s h rest => simp [ofText, Text.utf8?]

/-- What is written of the document of a key has lone halves just where the key has some. -/
theorem unbroken_document {es : Fields} {as : List (Text × Attribute)}
    (h : Attribute.ofEntries es = .ok as) :
    (Text.ofList (document as).write).Unbroken ↔ (Value.map es).Unbroken := by
  have hdocument : (Text.ofList (document as).write).Unbroken ↔ (document as).Unbroken := by
    simp [Text.Unbroken, Json.Unbroken]
  rw [hdocument, document, Json.unbroken_object, Value.Unbroken,
    ← Attribute.unbroken_formEntries es h]
  simp [Json.unbroken_object]

/-- Sorting a key by its names leaves its texts alone. -/
theorem unbroken_sortKeys (es : Fields) :
    (Value.map (sortKeys es)).Unbroken ↔ (Value.map es).Unbroken := by
  rw [Value.Unbroken, Value.Unbroken, Value.unbrokenEntries_iff, Value.unbrokenEntries_iff]
  simp only [(sortKeys_perm es).mem_iff]

/-- What a key that has a token went through. -/
theorem encode_inv {es : Fields} {token : Text} (h : encode (.map es) = .ok (some token)) :
    es ≠ [] ∧ ∃ as, Attribute.ofEntries (sortKeys es) = .ok as ∧
      ofText (.ofList (document as).write) = .ok token := by
  rw [encode] at h
  split at h
  · next htruthy =>
    obtain ⟨as, has, h⟩ := Result.bind_eq_ok.mp h
    obtain ⟨token', htoken, h⟩ := Result.bind_eq_ok.mp h
    obtain rfl := Option.some.inj (Except.ok.inj h)
    exact ⟨by simpa [Value.truthy] using htruthy, as, has, htoken⟩
  · cases h

/-- Only a key without lone halves has a token. -/
theorem unbroken_of_encode {es : Fields} {token : Text}
    (h : encode (.map es) = .ok (some token)) : (Value.map es).Unbroken := by
  obtain ⟨-, as, has, htoken⟩ := encode_inv h
  exact (unbroken_sortKeys es).mp ((unbroken_document has).mp ((exists_ofText_iff _).mp ⟨_, htoken⟩))

end Token

end TableGateway
