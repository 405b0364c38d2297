import TableGateway.Proofs.SetMembers
import TableGateway.Proofs.TokenRoundTrip
import TableGateway.Session.Marshalling

/-!
# Normal values

A value is normal if it is read back as it is from its form in requests. Maps of normal values pass a
low-level client unchanged. What is read from an attribute value is normal, and so are the values of
the key that a token stands for, whatever key it was made of.
-/
namespace TableGateway

open Entries

/-- Is a value read back as it is from its form in requests? -/
def Value.Normal (v : Value) : Prop := (Attribute.marshal v >>= Attribute.decode) = .ok v

namespace Value

theorem normal_iff (v : Value) :
    v.Normal ↔ ∃ a, Attribute.ofValue v = .ok a ∧ Attribute.decode a.toValue = .ok v := by
  rw [Normal, Result.bind_eq_ok]
  constructor
  · rintro ⟨w, hw, hdecode⟩
    obtain ⟨a, ha, rfl⟩ := Result.map_eq_ok.mp hw
    exact ⟨a, ha, hdecode⟩
  · rintro ⟨a, ha, hdecode⟩
    exact ⟨a.toValue, Result.map_eq_ok.mpr ⟨a, ha, rfl⟩, hdecode⟩

/-- A map with normal values only. -/
def NormalMap (v : Value) : Prop := ∃ es, v = .map es ∧ ∀ e ∈ es, e.2.Normal

/-- A row of maps with normal values only. -/
def NormalRow (v : Value) : Prop := ∃ vs, v = .list vs ∧ ∀ w ∈ vs, w.NormalMap

end Value

namespace Marshalling

theorem decodeEntries_back {es : Fields} (h : ∀ e ∈ es, e.2.Normal) :
    ∃ as, Attribute.ofEntries es = .ok as ∧
      Attribute.decodeEntries (Attribute.toEntries as) = .ok es := by
  induction es with
  | nil => exact ⟨[], rfl, rfl⟩
  | cons e es ih =>
    obtain ⟨a, ha, hdecode⟩ := (Value.normal_iff e.2).mp (h e (by simp))
    obtain ⟨as, has, hes⟩ := ih fun e he => h e (by simp [he])
    refine ⟨(e.1, a) :: as, ?_, ?_⟩
    · simp [Attribute.ofEntries, ha, has]
    · simp [Attribute.toEntries, Attribute.decodeEntries, hdecode, hes]

/-- A map of normal values goes over to a map that is as empty as it is and is read back. -/
theorem marshalMap_back {v : Value} (h : v.NormalMap) :
    ∃ m, marshalMap v = .ok m ∧ m.truthy = v.truthy ∧ unmarshalMap m = .ok v := by
  obtain ⟨es, rfl, hes⟩ := h
  obtain ⟨as, has, hback⟩ := decodeEntries_back hes
  refine ⟨.map (Attribute.toEntries as), ?_, ?_, ?_⟩
  · simp [marshalMap, Value.entries, has]
  · cases es with
    | nil =>
      obtain rfl := Except.ok.inj has
      rfl
    | cons e es =>
      cases as with
      | nil => simp [Attribute.toEntries, Attribute.decodeEntries] at hback
      | cons a as => simp [Value.truthy, Attribute.toEntries]
  · simp [unmarshalMap, Value.entries, hback]

theorem unmarshalMap_back {v : Value} (h : v.NormalMap) :
    (marshalMap v >>= unmarshalMap) = .ok v := by
  obtain ⟨m, hm, -, hback⟩ := marshalMap_back h
  rw [hm, Result.ok_bind, hback]

end Marshalling

/-- A row that is read member by member is a row of readings, which stand for its members. -/
theorem exists_reading {m : Type → Type} [Monad m] [LawfulMonad m] {α β : Type} {f : α → m β}
    {g : β → α} {p : β → Prop} {xs : List α} (h : ∀ x ∈ xs, ∃ y, f x = pure y ∧ g y = x ∧ p y) :
    ∃ ys, xs.mapM f = pure ys ∧ ys.map g = xs ∧ ∀ y ∈ ys, p y := by
  induction xs with
  | nil => exact ⟨[], by simp, rfl, by simp⟩
  | cons x xs ih =>
    obtain ⟨y, hy, rfl, hp⟩ := h x (by simp)
    obtain ⟨ys, hys, hmap, hps⟩ := ih fun z hz => h z (by simp [hz])
    exact ⟨y :: ys, by simp [hy, hys], by simp [hmap], by simpa using ⟨hp, hps⟩⟩

namespace Attribute

/-- Is an attribute value one that stands for a value and that it goes over to? -/
def StandsFor (b : Attribute) (v : Value) : Prop := ofValue v = .ok b ∧ Sound b ∧ b.value = v

theorem StandsFor.normal {b : Attribute} {v : Value} (h : b.StandsFor v) : v.Normal :=
  (Value.normal_iff v).mpr ⟨b, h.1, h.2.2 ▸ decode_toValue h.2.1⟩

/-- The number that digits are read as has digits of its own, which are read in the same way. -/
theorem digits_decimalValue {d : Text} (h : Storable d) :
    ∃ d', digits (decimalValue d) = .ok d' ∧ decimalValue d' = decimalValue d ∧ Storable d' := by
  obtain ⟨x, hread, hstored, htaken⟩ := h
  have hdecimal : decimalValue d = .number (.decimal x) := by
    rw [decimalValue, decimalOfText, hread, Option.getD_some]
  have hback : (Text.whole x.text).chars?.bind Decimal.read? = some x := read?_taken htaken
  refine ⟨x.text, ?_, ?_, x, hback, hstored, htaken⟩
  · rw [hdecimal]
    exact digitsOfNumber_taken hstored htaken
  · rw [hdecimal, decimalValue, decimalOfText, hback, Option.getD_some]

theorem ofValues_standsFor {vs : List Value} (h : ∀ v ∈ vs, ∃ b : Attribute, b.StandsFor v) :
    ∃ bs, ofValues vs = .ok bs ∧ values bs = vs ∧ SoundAll bs := by
  induction vs with
  | nil => exact ⟨[], rfl, rfl, trivial⟩
  | cons v vs ih =>
    obtain ⟨b, hb, hsound, rfl⟩ := h v (by simp)
    obtain ⟨bs, hbs, rfl, hsounds⟩ := ih fun w hw => h w (by simp [hw])
    exact ⟨b :: bs, by simp [ofValues, hb, hbs], rfl, hsound, hsounds⟩

theorem ofEntries_standsFor {es : Fields} (h : ∀ e ∈ es, ∃ b : Attribute, b.StandsFor e.2) :
    ∃ bs, ofEntries es = .ok bs ∧ valueEntries bs = es ∧ SoundEntries bs := by
  induction es with
  | nil => exact ⟨[], rfl, rfl, trivial⟩
  | cons e es ih =>
    obtain ⟨b, hb, hsound, hvalue⟩ := h e (by simp)
    obtain ⟨bs, hbs, rfl, hsounds⟩ := ih fun f hf => h f (by simp [hf])
    refine ⟨(e.1, b) :: bs, by simp [ofEntries, hb, hbs], ?_, hsound, hsounds⟩
    rw [valueEntries, hvalue]

section Sets

variable {vs : List Value}

theorem ofSet_numbers (h : ∀ v ∈ vs, ∃ d, digits v = .ok d ∧ decimalValue d = v ∧ Storable d) :
    ∃ ds, ofSet vs = .ok (numbers ds) ∧ ds.map decimalValue = vs ∧ ∀ d ∈ ds, Storable d := by
  obtain ⟨ds, hds, hmap, hstorable⟩ := exists_reading h
  have hall : vs.all (·.number?.isSome) = true := by
    rw [← hmap, List.all_map, List.all_eq_true]
    exact fun d _ => rfl
  refine ⟨ds, ?_, hmap, hstorable⟩
  rw [ofSet, if_pos hall, hds]
  rfl

theorem ofSet_texts (hne : vs ≠ []) (h : ∀ v ∈ vs, ∃ s, .text s = v) :
    ∃ ss, ofSet vs = .ok (texts ss) ∧ ss.map .text = vs := by
  have hread : ∀ v ∈ vs, ∃ s, v.text? = pure s ∧ .text s = v ∧ True := by
    intro v hv
    obtain ⟨s, rfl⟩ := h v hv
    exact ⟨s, rfl, rfl, trivial⟩
  obtain ⟨ss, hss, rfl, -⟩ := exists_reading hread
  refine ⟨ss, ?_, rfl⟩
  cases ss with
  | nil => exact absurd rfl hne
  | cons s ss =>
    rw [ofSet, hss]
    rfl

theorem ofSet_byteRows (hne : vs ≠ [])
    (h : ∀ v ∈ vs, ∃ r : Bool × List UInt8, .blob ⟨r.2, r.1, true⟩ = v ∧ r.1 = false) :
    ∃ rows, ofSet vs = .ok (byteRows rows) ∧
      (rows.map fun r => Value.blob ⟨r.2, r.1, true⟩) = vs ∧ ∀ r ∈ rows, r.1 = false := by
  have hread : ∀ v ∈ vs, ∃ r : Bool × List UInt8,
      bytesOf? v = pure r ∧ .blob ⟨r.2, r.1, true⟩ = v ∧ r.1 = false := by
    intro v hv
    obtain ⟨r, rfl, hr⟩ := h v hv
    exact ⟨r, rfl, rfl, hr⟩
  obtain ⟨rows, hrows, rfl, hfixed⟩ := exists_reading hread
  refine ⟨rows, ?_, rfl, hfixed⟩
  cases rows with
  | nil => exact absurd rfl hne
  | cons r rows =>
    rw [ofSet, hrows, List.map_cons, List.mapM_cons]
    rfl

/-- A set of such members, of which any row goes over to one that stands for it. -/
theorem exists_standsFor_ofMembers (hsymm : ∀ v ∈ vs, ∀ w ∈ vs, v.same w = w.same v)
    (h : ∀ ws : List Value, (∀ w ∈ ws, w ∈ vs) →
      ∃ b, ofSet ws = .ok b ∧ Sound b ∧ b.value = .ofMembers false ws) :
    ∃ b : Attribute, b.StandsFor (.ofMembers false vs) := by
  have hmem : ∀ w ∈ Value.arrange (Value.distinct vs), w ∈ vs :=
    fun w hw => Value.mem_distinct w ((Value.arrange_perm _).mem_iff.mp hw)
  obtain ⟨b, hb, hsound, hvalue⟩ := h _ hmem
  exact ⟨b, hb, hsound, hvalue.trans (Value.ofMembers_members false hsymm)⟩

theorem ofSet_empty : ∃ b, ofSet [] = .ok b ∧ Sound b ∧ b.value = .ofMembers false [] :=
  ⟨numbers [], rfl, by simp [Sound], rfl⟩

end Sets

/-- What an attribute value is read as goes over to one that is read as the same. -/
theorem exists_standsFor {a : Attribute} (h : Sound a) : ∃ b : Attribute, b.StandsFor a.value := by
  induction a using memberInduction with
  | null | bool | text | bytes => exact ⟨_, rfl, trivial, rfl⟩
  | number d =>
    obtain ⟨d', hdigits, hvalue, hstorable⟩ := digits_decimalValue h
    refine ⟨number d', ?_, hstorable, hvalue⟩
    rw [value, decimalValue, ofValue]
    exact congrArg (number <$> ·) hdigits
  | numbers ds =>
    refine exists_standsFor_ofMembers ?_ fun ws hws => ?_
    · intro v hv w hw
      obtain ⟨d, -, rfl⟩ := List.mem_map.mp hv
      obtain ⟨e, -, rfl⟩ := List.mem_map.mp hw
      exact Value.sameNumber_comm _ _
    · have hdigits : ∀ w ∈ ws, ∃ d, digits w = .ok d ∧ decimalValue d = w ∧ Storable d := by
        intro w hw
        obtain ⟨d, hd, rfl⟩ := List.mem_map.mp (hws w hw)
        exact digits_decimalValue (h d hd)
      obtain ⟨es, hes, rfl, hstorable⟩ := ofSet_numbers hdigits
      exact ⟨numbers es, hes, hstorable, rfl⟩
  | texts ss =>
    refine exists_standsFor_ofMembers ?_ fun ws hws => ?_
    · intro v hv w hw
      obtain ⟨s, -, rfl⟩ := List.mem_map.mp hv
      obtain ⟨t, -, rfl⟩ := List.mem_map.mp hw
      simp only [Value.same, eq_comm]
    · by_cases hne : ws = []
      · exact hne ▸ ofSet_empty
      have htexts : ∀ w ∈ ws, ∃ s, .text s = w := by
        intro w hw
        obtain ⟨s, -, hs⟩ := List.mem_map.mp (hws w hw)
        exact ⟨s, hs⟩
      obtain ⟨ts, hts, rfl⟩ := ofSet_texts hne htexts
      exact ⟨texts ts, hts, trivial, rfl⟩
  | byteRows rows =>
    refine exists_standsFor_ofMembers ?_ fun ws hws => ?_
    · intro v hv w hw
      obtain ⟨r, -, rfl⟩ := List.mem_map.mp hv
      obtain ⟨q, -, rfl⟩ := List.mem_map.mp hw
      simp only [Value.same, eq_comm]
    · by_cases hne : ws = []
      · exact hne ▸ ofSet_empty
      have hblobs : ∀ w ∈ ws, ∃ r : Bool × List UInt8,
          .blob ⟨r.2, r.1, true⟩ = w ∧ r.1 = false := by
        intro w hw
        obtain ⟨r, hr, hblob⟩ := List.mem_map.mp (hws w hw)
        exact ⟨r, hblob, h r hr⟩
      obtain ⟨qs, hqs, rfl, hfixed⟩ := ofSet_byteRows hne hblobs
      exact ⟨byteRows qs, hqs, hfixed, rfl⟩
  | list as ih =>
    have has := (soundAll_iff as).mp h
    have hmembers : ∀ v ∈ values as, ∃ b : Attribute, b.StandsFor v := by
      rw [values_eq]
      intro v hv
      obtain ⟨a, ha, rfl⟩ := List.mem_map.mp hv
      exact ih a ha (has a ha)
    obtain ⟨bs, hbs, hvalues, hsounds⟩ := ofValues_standsFor hmembers
    refine ⟨list bs, ?_, hsounds, ?_⟩
    · rw [value, ofValue, hbs]
      rfl
    · rw [value, hvalues, value]
  | map es ih =>
    have hes := (soundEntries_iff es).mp h.2
    have hmembers : ∀ f ∈ valueEntries es, ∃ b : Attribute, b.StandsFor f.2 := by
      rw [valueEntries_eq]
      intro f hf
      obtain ⟨e, he, rfl⟩ := List.mem_map.mp hf
      exact ih e he (hes e he)
    obtain ⟨bs, hbs, hvalues, hsounds⟩ := ofEntries_standsFor hmembers
    refine ⟨map bs, ?_, ⟨?_, hsounds⟩, ?_⟩
    · rw [value, ofValue, hbs]
      rfl
    · have hkeys := congrArg keys hvalues
      rw [valueEntries_eq, valueEntries_eq, keys_mapValues, keys_mapValues] at hkeys
      rw [hkeys]
      exact h.1
    · rw [value, hvalues, value]

end Attribute

namespace Token

/-- A token that was made of a key of well made values. -/
def Issued (token : Text) : Prop :=
  ∃ es, (Value.map es).Regular ∧ encode (.map es) = .ok (some token)

theorem ofEntries_ok {es : Fields} {as : List (Text × Attribute)}
    (h : Attribute.ofEntries es = .ok as) : ∀ e ∈ es, ∃ a, Attribute.ofValue e.2 = .ok a := by
  induction es generalizing as with
  | nil => simp
  | cons e es ih =>
    obtain ⟨a, ha, h⟩ := Result.bind_eq_ok.mp h
    obtain ⟨bs, hbs, -⟩ := Result.bind_eq_ok.mp h
    exact List.forall_mem_cons.mpr ⟨⟨a, ha⟩, ih hbs⟩

theorem accepted_of_encode {es : Fields} {token : Text}
    (h : encode (.map es) = .ok (some token)) : ∀ e ∈ es, ∃ a, Attribute.ofValue e.2 = .ok a := by
  obtain ⟨-, as, has, -⟩ := encode_inv h
  exact fun e he => ofEntries_ok has e ((sortKeys_perm es).mem_iff.mpr he)

/-- What is handed back is normal, whatever went in. -/
theorem IsKey.normal_handedBack {es : Fields} (h : IsKey es) {e : Text × Value} (he : e ∈ es) :
    (handedBack e.2).Normal := by
  have hsound := h.sound he
  rw [handedBack, ← Attribute.value_settled hsound]
  obtain ⟨b, hb⟩ := Attribute.exists_standsFor (Attribute.sound_settled hsound)
  exact hb.normal

theorem Issued.decode {token : Text} (h : Issued token) :
    ∃ key, Token.decode (.text token) = .ok key ∧ ∀ e ∈ key, e.2.Normal := by
  obtain ⟨es, hregular, hencode⟩ := h
  have hkey : IsKey es :=
    ⟨(encode_inv hencode).1, hregular, unbroken_of_encode hencode, accepted_of_encode hencode⟩
  obtain ⟨token', htoken', -, hdecode⟩ := exists_token hkey
  obtain rfl : token' = token := by
    rw [hencode] at htoken'
    exact (Option.some.inj (Except.ok.inj htoken')).symm
  refine ⟨_, hdecode, fun e he => ?_⟩
  obtain ⟨f, hf, rfl⟩ := List.mem_map.mp he
  exact hkey.normal_handedBack ((sortKeys_perm es).mem_iff.mp hf)

end Token

end TableGateway
