import TableGateway.Proofs.Storable
import TableGateway.Proofs.Tokens

/-!
# Operands that share a token

The store tells attribute values apart by their kinds, numbers of one kind by their exact values, and
sets and maps without regard to order. A token may be bound again to a content that is the same as the
first one, where a truth value is the same as the number 0 or 1. So what a token stands for cannot be
told apart from any operand with the token, unless somewhere in the two a truth value stands where the
other one has a number.
-/
namespace TableGateway

namespace Attribute

open Entries

/-- The exact value of the digits of a number. -/
def exactOfDigits? (digits : Text) : Option Exact :=
  (digits.chars?.bind Decimal.read?).bind Exact.ofDecimal?

/-- Are two texts one, or do they have one exact value? -/
def SameDigits (d d' : Text) : Prop :=
  d = d' ∨ ∃ x, exactOfDigits? d = some x ∧ exactOfDigits? d' = some x

/-- Can the store not tell two attribute values apart? -/
inductive Alike : Attribute → Attribute → Prop where
  | null : Alike .null .null
  | bool (b : Bool) : Alike (.bool b) (.bool b)
  | number {d d' : Text} (value : SameDigits d d') : Alike (.number d) (.number d')
  | text (s : Text) : Alike (.text s) (.text s)
  | bytes (mutable mutable' : Bool) (bs : List UInt8) :
    Alike (.bytes mutable bs) (.bytes mutable' bs)
  | numbers {ds ds' : List Text} (there : ∀ d ∈ ds, ∃ d' ∈ ds', SameDigits d d')
    (back : ∀ d' ∈ ds', ∃ d ∈ ds, SameDigits d d') : Alike (.numbers ds) (.numbers ds')
  | texts {ss ss' : List Text} (members : ∀ s, s ∈ ss ↔ s ∈ ss') : Alike (.texts ss) (.texts ss')
  | byteRows {rows rows' : List (Bool × List UInt8)}
    (members : ∀ bs, bs ∈ rows.map Prod.snd ↔ bs ∈ rows'.map Prod.snd) :
    Alike (.byteRows rows) (.byteRows rows')
  | list {as bs : List Attribute} (size : as.length = bs.length)
    (members : ∀ (i : Nat) a b, as[i]? = some a → bs[i]? = some b → Alike a b) : Alike (.list as) (.list bs)
  | map {es fs : Entries Attribute} (keys : ∀ key, key ∈ keys es ↔ key ∈ keys fs)
    (members : ∀ key a b, get? es key = some a → get? fs key = some b → Alike a b) :
    Alike (.map es) (.map fs)

/-- Does a truth value stand somewhere in one of two attribute values where the other has a number? -/
inductive Mixes : Attribute → Attribute → Prop where
  | truth (b : Bool) (d : Text) : Mixes (.bool b) (.number d)
  | number (d : Text) (b : Bool) : Mixes (.number d) (.bool b)
  | list {as bs : List Attribute} {i : Nat} {a b : Attribute} (left : as[i]? = some a)
    (right : bs[i]? = some b) (member : Mixes a b) : Mixes (.list as) (.list bs)
  | map {es fs : Entries Attribute} {key : Text} {a b : Attribute} (left : get? es key = some a)
    (right : get? fs key = some b) (member : Mixes a b) : Mixes (.map es) (.map fs)

theorem Alike.refl (a : Attribute) : Alike a a := by
  induction a using memberInduction with
  | null => exact .null
  | bool b => exact .bool b
  | number d => exact .number (.inl rfl)
  | text s => exact .text s
  | bytes mutable bs => exact .bytes mutable mutable bs
  | numbers ds => exact .numbers (fun d hd => ⟨d, hd, .inl rfl⟩) fun d hd => ⟨d, hd, .inl rfl⟩
  | texts ss => exact .texts fun s => Iff.rfl
  | byteRows rows => exact .byteRows fun bs => Iff.rfl
  | list as ih =>
    refine .list rfl fun i a b ha hb => ?_
    obtain rfl : a = b := Option.some.inj (ha.symm.trans hb)
    exact ih a (List.mem_of_getElem? ha)
  | map es ih =>
    refine .map (fun key => Iff.rfl) fun key a b ha hb => ?_
    obtain rfl : a = b := Option.some.inj (ha.symm.trans hb)
    exact ih (key, a) (mem_of_get? ha)

theorem Alike.not_mixes {a b : Attribute} (h : Alike a b) : ¬ Mixes a b := by
  induction h with
  | list size members ih =>
    rintro (_ | _ | ⟨left, right, member⟩)
    exact ih _ _ _ left right member
  | map keys members ih =>
    rintro (_ | _ | _ | ⟨left, right, member⟩)
    exact ih _ _ _ left right member
  | _ => rintro ⟨⟩

/-- The digits of a number are read as its exact value. -/
theorem exactOfDigits?_digits {n : Number} {d : Text} {x : Exact} (hd : digitsOfNumber n = .ok d)
    (hx : n.exactForm? = some x) : exactOfDigits? d = some x := by
  cases n with
  | int n =>
    obtain ⟨stored, hstored, rfl⟩ := Result.map_eq_ok.mp hd
    obtain ⟨rfl, -⟩ := storedFinite_of_storedDecimal hstored
    rw [exactOfDigits?, Text.chars?_whole, Option.bind_some, Decimal.read?_text]
    exact hx
  | float y => simp [digitsOfNumber] at hd
  | decimal decimal =>
    obtain ⟨stored, hstored, htext⟩ := Result.bind_eq_ok.mp hd
    obtain rfl : stored.text = d := by
      simp only at htext
      split at htext
      · simp at htext
      · simpa using htext
    cases decimal with
    | finite s c e =>
      obtain ⟨rfl, -⟩ := storedFinite_of_storedDecimal hstored
      rw [exactOfDigits?, Text.chars?_whole, Option.bind_some, Decimal.read?_text]
      exact hx
    | infinite s =>
      obtain rfl : .infinite s = stored := by simpa [storedDecimal, Decimal.stored] using hstored
      cases s with
      | false =>
        simp [digitsOfNumber, storedDecimal, Decimal.stored, Decimal.text, Decimal.signText] at hd
      | true =>
        have hread : Decimal.read? (Decimal.infinite true).text.toList = some (.infinite true) := by
          decide +kernel
        rw [exactOfDigits?, Text.chars?_whole, Option.bind_some, hread]
        exact hx
    | nan s signaling payload => simp [Number.exactForm?, Exact.ofDecimal?] at hx

theorem sameDigits_of_sameNumber {m n : Number} {d d' : Text}
    (h : Value.sameNumber m.exactForm? n.exactForm?) (hd : digitsOfNumber m = .ok d)
    (hd' : digitsOfNumber n = .ok d') : SameDigits d d' := by
  cases hm : m.exactForm? with
  | none => simp [hm, Value.sameNumber] at h
  | some x =>
    cases hn : n.exactForm? with
    | none => simp [hm, hn, Value.sameNumber] at h
    | some y =>
      obtain rfl : x = y := by simpa [hm, hn, Value.sameNumber] using h
      exact .inr ⟨x, exactOfDigits?_digits hd hm, exactOfDigits?_digits hd' hn⟩

end Attribute

namespace Value

theorem exists_of_sameWithin {vs ws : List Value} (h : sameWithin vs ws) :
    ∀ v ∈ vs, ∃ w ∈ ws, same v w := by
  induction vs with
  | nil => simp
  | cons v vs ih =>
    rw [sameWithin, Bool.and_eq_true] at h
    intro u hu
    rcases List.mem_cons.mp hu with rfl | hu
    · exact List.any_eq_true.mp h.1
    · exact ih h.2 u hu

theorem exists_of_sameAsSome {vs : List Value} {w : Value} (h : sameAsSome vs w) :
    ∃ v ∈ vs, same v w := by
  induction vs with
  | nil => simp [sameAsSome] at h
  | cons v vs ih =>
    rw [sameAsSome, Bool.or_eq_true] at h
    rcases h with h | h
    · exact ⟨v, by simp, h⟩
    · obtain ⟨u, hu, hs⟩ := ih h
      exact ⟨u, by simp [hu], hs⟩

/-- What is the same as a number is one. -/
theorem number?_of_same {v w : Value} (h : same v w) : v.number?.isSome = w.number?.isSome := by
  cases v <;> cases w <;> simp_all [same, number?, isNull, exactForm?, sameNumber]

theorem eq_of_same_text {v : Value} {s : Text} (h : same (.text s) v) : v = .text s := by
  cases v <;> simp_all [same]

theorem bytes_of_same_blob {v : Value} {b : Blob} (h : same (.blob b) v) :
    ∃ c : Blob, v = .blob c ∧ c.bytes = b.bytes := by
  cases v <;> simp_all [same]

end Value

namespace Attribute

open Entries

theorem sameDigits_of_same {v w : Value} {d d' : Text} (h : Value.same v w)
    (hd : digits v = .ok d) (hd' : digits w = .ok d') : SameDigits d d' := by
  cases hm : v.number? with
  | none => simp [digits, hm] at hd
  | some m =>
    cases hn : w.number? with
    | none => simp [digits, hn] at hd'
    | some n =>
      rw [digits, hm] at hd
      rw [digits, hn] at hd'
      refine sameDigits_of_sameNumber ?_ hd hd'
      cases v <;> simp_all [Value.number?, Value.same, Value.exactForm?]

/-- Two sets with the same members go over to attribute values that cannot be told apart. -/
theorem alike_ofSet {vs ws : List Value} (hthere : ∀ v ∈ vs, ∃ w ∈ ws, Value.same v w)
    (hback : ∀ w ∈ ws, ∃ v ∈ vs, Value.same v w) {a b : Attribute} (ha : ofSet vs = .ok a)
    (hb : ofSet ws = .ok b) : Alike a b := by
  rcases ofSet_inv ha with ⟨hvs, ds, rfl, hds⟩ | ⟨⟨v₀, hv₀, hkind⟩, hother⟩
  · rcases ofSet_inv hb with ⟨-, ds', rfl, hds'⟩ | ⟨⟨w₀, hw₀, hkind⟩, -⟩
    · refine .numbers (fun d hd => ?_) fun d' hd' => ?_
      · obtain ⟨v, hv, hdv⟩ := Result.exists_source_of_mapM hds d hd
        obtain ⟨w, hw, hsame⟩ := hthere v hv
        obtain ⟨d', hd', hdw⟩ := Result.exists_mem_of_mapM hds' w hw
        exact ⟨d', hd', sameDigits_of_same hsame hdv hdw⟩
      · obtain ⟨w, hw, hdw⟩ := Result.exists_source_of_mapM hds' d' hd'
        obtain ⟨v, hv, hsame⟩ := hback w hw
        obtain ⟨d, hd, hdv⟩ := Result.exists_mem_of_mapM hds v hv
        exact ⟨d, hd, sameDigits_of_same hsame hdv hdw⟩
    · obtain ⟨v, hv, hsame⟩ := hback w₀ hw₀
      rw [← Value.number?_of_same hsame, hvs v hv] at hkind
      simp at hkind
  · obtain ⟨w₀, hw₀, hsame₀⟩ := hthere v₀ hv₀
    rcases ofSet_inv hb with ⟨hws, -⟩ | ⟨-, hother'⟩
    · rw [Value.number?_of_same hsame₀, hws w₀ hw₀] at hkind
      simp at hkind
    · rcases hother with ⟨ss, rfl, rfl⟩ | ⟨bs, rfl, rfl⟩ <;>
        rcases hother' with ⟨ss', rfl, rfl⟩ | ⟨bs', rfl, rfl⟩
      · refine .texts fun s => ⟨fun hs => ?_, fun hs => ?_⟩
        · obtain ⟨w, hw, hsame⟩ := hthere (.text s) (by simpa using hs)
          rw [Value.eq_of_same_text hsame] at hw
          simpa using hw
        · obtain ⟨v, hv, hsame⟩ := hback (.text s) (by simpa using hs)
          obtain ⟨s', hs', rfl⟩ := List.mem_map.mp hv
          obtain rfl : s = s' := by simpa using Value.eq_of_same_text hsame
          exact hs'
      · obtain ⟨s, -, rfl⟩ := List.mem_map.mp hv₀
        obtain ⟨c, -, rfl⟩ := List.mem_map.mp hw₀
        simp [Value.same] at hsame₀
      · obtain ⟨b, -, rfl⟩ := List.mem_map.mp hv₀
        obtain ⟨s, -, rfl⟩ := List.mem_map.mp hw₀
        simp [Value.same] at hsame₀
      · refine .byteRows fun row => ?_
        simp only [List.map_map, List.mem_map, Function.comp_apply]
        refine ⟨?_, ?_⟩
        · rintro ⟨b, hb, rfl⟩
          obtain ⟨w, hw, hsame⟩ := hthere (.blob b) (by simpa using hb)
          obtain ⟨c, hc, rfl⟩ := List.mem_map.mp hw
          exact ⟨c, hc, by simpa [Value.same, eq_comm] using hsame⟩
        · rintro ⟨c, hc, rfl⟩
          obtain ⟨v, hv, hsame⟩ := hback (.blob c) (by simpa using hc)
          obtain ⟨b, hb, rfl⟩ := List.mem_map.mp hv
          exact ⟨b, hb, by simpa [Value.same] using hsame⟩

theorem get?_ofEntries {es : Fields} {as : Entries Attribute} (h : ofEntries es = .ok as)
    (key : Text) : (get? as key = none ∧ get? es key = none) ∨
      ∃ v a, get? es key = some v ∧ get? as key = some a ∧ ofValue v = .ok a := by
  induction es generalizing as with
  | nil =>
    obtain rfl := Except.ok.inj h
    simp
  | cons e es ih =>
    obtain ⟨k, v⟩ := e
    obtain ⟨a, hv, h⟩ := Result.bind_eq_ok.mp h
    obtain ⟨bs, hes, h⟩ := Result.bind_eq_ok.mp h
    obtain rfl := Except.ok.inj h
    by_cases hk : k = key
    · exact .inr ⟨v, a, by simp [hk], by simp [hk], hv⟩
    · simpa [hk] using ih hes

theorem mem_keys_ofEntries {es : Fields} {as : Entries Attribute} (h : ofEntries es = .ok as)
    (key : Text) : key ∈ keys as ↔ key ∈ keys es := by
  rw [← not_iff_not, ← get?_eq_none, ← get?_eq_none]
  rcases get?_ofEntries h key with ⟨has, hes⟩ | ⟨v, a, hes, has, -⟩
  · simp [has, hes]
  · simp [has, hes]

theorem keys_of_sameEntries {es fs : Fields} (h : Value.sameEntries es fs) :
    ∀ key ∈ keys es, key ∈ keys fs := by
  induction es with
  | nil => simp [keys]
  | cons e es ih =>
    obtain ⟨k, v⟩ := e
    rw [Value.sameEntries, Bool.and_eq_true] at h
    intro key hkey
    rcases List.mem_cons.mp hkey with rfl | hkey
    · by_contra hnone
      rw [← get?_eq_none] at hnone
      simp [hnone] at h
    · exact ih h.2 key hkey

mutual

/-- Values that are the same go over to attribute values that cannot be told apart, or somewhere in
the two a truth value meets a number. -/
theorem alike_or_mixes : ∀ (v w : Value), Value.same v w → ∀ a b, ofValue v = .ok a →
    ofValue w = .ok b → Alike a b ∨ Mixes a b
  | .null, w, h, a, b, ha, hb => by
    cases w <;> simp [Value.same, Value.isNull] at h
    obtain rfl := Except.ok.inj ha
    obtain rfl := Except.ok.inj hb
    exact .inl .null
  | .bool t, w, h, a, b, ha, hb => by
    obtain rfl := Except.ok.inj ha
    cases w with
    | bool u =>
      obtain rfl := Except.ok.inj hb
      obtain rfl : t = u := by
        revert h
        cases t <;> cases u <;> decide
      exact .inl (.bool t)
    | number n =>
      obtain ⟨d, -, rfl⟩ := Result.map_eq_ok.mp hb
      exact .inr (.truth t d)
    | _ => simpa [Value.number?] using Value.number?_of_same h
  | .number n, w, h, a, b, ha, hb => by
    obtain ⟨d, hd, rfl⟩ := Result.map_eq_ok.mp ha
    cases w with
    | bool u =>
      obtain rfl := Except.ok.inj hb
      exact .inr (.number d u)
    | number m =>
      obtain ⟨d', hd', rfl⟩ := Result.map_eq_ok.mp hb
      exact .inl (.number (sameDigits_of_same h hd hd'))
    | _ => simpa [Value.number?] using Value.number?_of_same h
  | .text s, w, h, a, b, ha, hb => by
    obtain rfl := Value.eq_of_same_text h
    obtain rfl := Except.ok.inj ha
    obtain rfl := Except.ok.inj hb
    exact .inl (.text s)
  | .blob c, w, h, a, b, ha, hb => by
    obtain ⟨c', rfl, hbytes⟩ := Value.bytes_of_same_blob h
    obtain rfl := Except.ok.inj ha
    obtain rfl := Except.ok.inj hb
    rw [hbytes]
    exact .inl (.bytes _ _ _)
  | .list vs, .list ws, h, a, b, ha, hb | .tuple vs, .tuple ws, h, a, b, ha, hb => by
    obtain ⟨as, has, rfl⟩ := Result.map_eq_ok.mp ha
    obtain ⟨bs, hbs, rfl⟩ := Result.map_eq_ok.mp hb
    obtain ⟨hsize, hmembers⟩ := alike_or_mixes_row vs ws h as bs has hbs
    by_cases hmixes : ∃ (i : Nat) (a b : Attribute), as[i]? = some a ∧ bs[i]? = some b ∧ Mixes a b
    · obtain ⟨i, a, b, ha, hb, hab⟩ := hmixes
      exact .inr (.list ha hb hab)
    · refine .inl (.list hsize fun i a b ha hb => ?_)
      exact (hmembers i a b ha hb).resolve_right fun hab => hmixes ⟨i, a, b, ha, hb, hab⟩
  | .set _ vs, .set _ ws, h, a, b, ha, hb => by
    rw [Value.same, Bool.and_eq_true, List.all_eq_true] at h
    exact .inl (alike_ofSet (Value.exists_of_sameWithin h.1)
      (fun w hw => Value.exists_of_sameAsSome (h.2 w hw)) ha hb)
  | .map es, .map fs, h, a, b, ha, hb => by
    obtain ⟨as, has, rfl⟩ := Result.map_eq_ok.mp ha
    obtain ⟨bs, hbs, rfl⟩ := Result.map_eq_ok.mp hb
    rw [Value.same, Bool.and_eq_true, List.all_eq_true] at h
    have hmembers := alike_or_mixes_entries es fs h.1 as bs has hbs
    by_cases hmixes : ∃ key a b, get? as key = some a ∧ get? bs key = some b ∧ Mixes a b
    · obtain ⟨key, a, b, ha, hb, hab⟩ := hmixes
      exact .inr (.map ha hb hab)
    · refine .inl (.map (fun key => ?_) fun key a b ha hb => ?_)
      · rw [mem_keys_ofEntries has, mem_keys_ofEntries hbs]
        refine ⟨keys_of_sameEntries h.1 key, fun hkey => ?_⟩
        obtain ⟨e, he, rfl⟩ := List.mem_map.mp hkey
        exact (has_iff_mem_keys _ _).mp (h.2 e he)
      · exact (hmembers key a b ha hb).resolve_right fun hab => hmixes ⟨key, a, b, ha, hb, hab⟩
  | .anything, _, _, a, _, ha, _ | .object _, _, _, a, _, ha, _ | .record .., _, _, a, _, ha, _ => by
    simp [ofValue] at ha

theorem alike_or_mixes_row : ∀ (vs ws : List Value), Value.sameRow vs ws → ∀ as bs,
    ofValues vs = .ok as → ofValues ws = .ok bs → as.length = bs.length ∧
      ∀ (i : Nat) a b, as[i]? = some a → bs[i]? = some b → Alike a b ∨ Mixes a b
  | [], [], _, as, bs, has, hbs => by
    obtain rfl := Except.ok.inj has
    obtain rfl := Except.ok.inj hbs
    simp
  | v :: vs, w :: ws, h, as, bs, has, hbs => by
    rw [Value.sameRow, Bool.and_eq_true] at h
    obtain ⟨a, ha, has⟩ := Result.bind_eq_ok.mp has
    obtain ⟨as, has', has⟩ := Result.bind_eq_ok.mp has
    obtain ⟨b, hb, hbs⟩ := Result.bind_eq_ok.mp hbs
    obtain ⟨bs, hbs', hbs⟩ := Result.bind_eq_ok.mp hbs
    obtain rfl := Except.ok.inj has
    obtain rfl := Except.ok.inj hbs
    obtain ⟨hsize, hmembers⟩ := alike_or_mixes_row vs ws h.2 as bs has' hbs'
    refine ⟨by simp [hsize], fun i a' b' ha' hb' => ?_⟩
    cases i with
    | zero =>
      obtain rfl : a = a' := by simpa using ha'
      obtain rfl : b = b' := by simpa using hb'
      exact alike_or_mixes v w h.1 a b ha hb
    | succ i => exact hmembers i a' b' (by simpa using ha') (by simpa using hb')
  | [], _ :: _, h, _, _, _, _ | _ :: _, [], h, _, _, _, _ => by simp [Value.sameRow] at h

theorem alike_or_mixes_entries : ∀ (es fs : List (Text × Value)), Value.sameEntries es fs →
    ∀ as bs, ofEntries es = .ok as → ofEntries fs = .ok bs →
      ∀ key a b, get? as key = some a → get? bs key = some b → Alike a b ∨ Mixes a b
  | [], _, _, as, _, has, _ => by
    obtain rfl := Except.ok.inj has
    simp
  | (k, v) :: es, fs, h, as, bs, has, hbs => by
    rw [Value.sameEntries, Bool.and_eq_true] at h
    obtain ⟨a, ha, has⟩ := Result.bind_eq_ok.mp has
    obtain ⟨as, has', has⟩ := Result.bind_eq_ok.mp has
    obtain rfl := Except.ok.inj has
    intro key a' b ha' hb
    by_cases hk : k = key
    · obtain rfl : a = a' := by simpa [hk] using ha'
      rcases get?_ofEntries hbs key with ⟨hnone, -⟩ | ⟨w, b', hw, hb', hwb⟩
      · simp [hnone] at hb
      · obtain rfl : b' = b := Option.some.inj (hb'.symm.trans hb)
        rw [hk, hw] at h
        exact alike_or_mixes v w h.1 a b' ha hwb
    · exact alike_or_mixes_entries es fs h.2 as bs has' hbs key a' b (by simpa [hk] using ha') hb

end

/-- Values that are the same go over to attribute values that cannot be told apart just where nowhere
a truth value meets a number. -/
theorem alike_iff_not_mixes {v w : Value} (h : v.Agrees w) {a b : Attribute} (ha : ofValue v = .ok a)
    (hb : ofValue w = .ok b) : Alike a b ↔ ¬ Mixes a b := by
  refine ⟨Alike.not_mixes, fun hmixes => ?_⟩
  rcases h with rfl | h
  · obtain rfl := Except.ok.inj (ha.symm.trans hb)
    exact .refl a
  · exact (alike_or_mixes v w h a b ha hb).resolve_right hmixes

end Attribute

namespace Forest

open Attribute Grammar TableGateway.Tree

/-- Where a forest compiles, and the store takes all its operands, a token cannot be told apart from
any of its operands by what it stands for, unless a truth value meets a number in the two. -/
theorem shared_operands_alike (e : Encoder) (f : Forest) (clause : Clause)
    (hcompile : f.compile e = .ok clause)
    (htaken : ∀ c ∈ leavesAll f.trees, ∀ v ∈ c.test.operands, ∃ a, ofValue v = .ok a) :
    ∀ c ∈ leavesAll f.trees, ∀ token v, (token, v) ∈ c.valueBindings e →
      ∃ bound a b, Entries.get? clause.values token = some bound ∧ ofValue bound = .ok a ∧
        ofValue v = .ok b ∧ (Alike a b ↔ ¬ Mixes a b) := by
  intro c hc token v hv
  obtain ⟨-, -, -, hvalues⟩ := compile_inv hcompile
  have htakenAll : ∀ b ∈ valueBindings e f.trees, ∃ a, ofValue b.2 = .ok a := by
    intro b hb
    obtain ⟨d, hd, hb⟩ := List.mem_flatMap.mp hb
    exact htaken d hd b.2 (Condition.operand_of_mem_valueBindings hb)
  have hmem : (token, v) ∈ valueBindings e f.trees := List.mem_flatMap.mpr ⟨c, hc, hv⟩
  obtain ⟨bound, hget, hagrees⟩ := Placeholder.stands_of_bindAll hvalues (token, v) hmem
  have hfirst : (token, bound) ∈ valueBindings e f.trees := by
    rw [Placeholder.get?_bindAll hvalues, List.nil_append] at hget
    exact Entries.mem_of_get? hget
  obtain ⟨a, ha⟩ := htakenAll _ hfirst
  obtain ⟨b, hb⟩ := htakenAll _ hmem
  exact ⟨bound, a, b, hget, ha, hb, alike_iff_not_mixes hagrees ha hb⟩

/-- A condition on a number, and one on the same property that takes the truth value. -/
def truthful : Forest where
  trees :=
    [.leaf ⟨.text "a", .compare .equal (.int 1), .and⟩,
      .leaf ⟨.text "a", .compare .equal (.bool true), .or⟩]
  broken := false

theorem truthful_taken :
    ∀ c ∈ leavesAll truthful.trees, ∀ v ∈ c.test.operands, ∃ a, ofValue v = .ok a := by
  have hone : ofValue (.int 1) = .ok (.number "1") := rfl
  have htrue : ofValue (.bool true) = .ok (.bool true) := rfl
  simp [truthful, leavesAll, leaves, Test.operands, hone, htrue]

theorem not_shared_operands_alike :
    ¬ ∀ (e : Encoder) (f : Forest) (clause : Clause), f.compile e = .ok clause →
      (∀ c ∈ leavesAll f.trees, ∀ v ∈ c.test.operands, ∃ a, ofValue v = .ok a) →
      ∀ c ∈ leavesAll f.trees, ∀ token v, (token, v) ∈ c.valueBindings e →
        ∃ bound a b, Entries.get? clause.values token = some bound ∧ ofValue bound = .ok a ∧
          ofValue v = .ok b ∧ Alike a b := by
  intro h
  have hcompile : truthful.compile .plain =
      .ok ⟨"(#a = :a) or (#a = :a)", [("#a", .text "a")], [(":a", .int 1)]⟩ := by
    rfl
  obtain ⟨bound, a, b, hget, ha, hb, halike⟩ := h .plain truthful _ hcompile truthful_taken
    ⟨.text "a", .compare .equal (.bool true), .or⟩ (by simp [truthful, leavesAll, leaves]) ":a"
    (.bool true) (by simp [Condition.valueBindings]; rfl)
  obtain rfl : .int 1 = bound := by simpa using hget
  obtain rfl := Except.ok.inj hb
  obtain ⟨d, -, rfl⟩ := Result.map_eq_ok.mp ha
  cases halike

/-- A row of operands, and conditions that share its tokens: with another form of the first number, and
with a map that has a truth value in the place of a number. -/
def lookalikes : Forest where
  trees :=
    [.leaf ⟨.text "a", .oneOf [.int 1, .map [("k", .int 0)]], .and⟩,
      .group [.leaf ⟨.text "a_0", .compare .equal (.number (.decimal (.finite false 10 (-1)))), .and⟩,
        .leaf ⟨.text "a_1", .compare .contains (.map [("k", .bool false)]), .or⟩] .or]
  broken := false

theorem shared_operands_alike_lookalikes :
    ∃ clause, lookalikes.compile .ofFilter = .ok clause ∧
      (∀ c ∈ leavesAll lookalikes.trees, ∀ v ∈ c.test.operands, ∃ a, ofValue v = .ok a) ∧
      ∀ c ∈ leavesAll lookalikes.trees, ∀ token v, (token, v) ∈ c.valueBindings .ofFilter →
        ∃ bound a b, Entries.get? clause.values token = some bound ∧ ofValue bound = .ok a ∧
          ofValue v = .ok b ∧ (Alike a b ↔ ¬ Mixes a b) := by
  have htaken : ∀ c ∈ leavesAll lookalikes.trees, ∀ v ∈ c.test.operands,
      ∃ a, ofValue v = .ok a := by
    have hone : ofValue (.int 1) = .ok (.number "1") := rfl
    have hdecimal : ofValue (.number (.decimal (.finite false 10 (-1)))) = .ok (.number "1.0") := rfl
    have hzero : ofValue (.map [("k", .int 0)]) = .ok (.map [("k", .number "0")]) := rfl
    have hfalse : ofValue (.map [("k", .bool false)]) = .ok (.map [("k", .bool false)]) := rfl
    simp [lookalikes, leavesAll, leaves, Test.operands, hone, hdecimal, hzero, hfalse]
  obtain ⟨clause, hcompile⟩ : ∃ clause, lookalikes.compile .ofFilter = .ok clause :=
    Result.exists_of_isOk (by decide +kernel)
  exact ⟨clause, hcompile, htaken,
    shared_operands_alike .ofFilter lookalikes clause hcompile htaken⟩

end Forest

end TableGateway
