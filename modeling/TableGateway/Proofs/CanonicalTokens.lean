import TableGateway.Proofs.Equality
import TableGateway.Proofs.Normal

/-!
# Canonical tokens

A token says which key it was made of up to the order of the entries of its maps, and that order plays
no part in it: the entries go by key into the document, which is written in one way only and read back
from the token. So two keys have one token just where their attribute values differ at most in the order
in which maps came, at whatever depth.
-/
namespace TableGateway

open Entries

namespace Attribute

/-- Do two attribute values differ at most in the order of the entries of their maps? Members of lists
and sets are compared place by place, and bytes without regard to whether their rows can grow. -/
inductive Reordered : Attribute → Attribute → Prop where
  | null : Reordered .null .null
  | bool (b : Bool) : Reordered (.bool b) (.bool b)
  | number (d : Text) : Reordered (.number d) (.number d)
  | text (s : Text) : Reordered (.text s) (.text s)
  | bytes (mutable mutable' : Bool) (bs : List UInt8) :
    Reordered (.bytes mutable bs) (.bytes mutable' bs)
  | numbers (ds : List Text) : Reordered (.numbers ds) (.numbers ds)
  | texts (ss : List Text) : Reordered (.texts ss) (.texts ss)
  | byteRows {rows rows' : List (Bool × List UInt8)} (bytes : rows.map Prod.snd = rows'.map Prod.snd) :
    Reordered (.byteRows rows) (.byteRows rows')
  | list {as bs : List Attribute} (size : as.length = bs.length)
    (members : ∀ (i : Nat) a b, as[i]? = some a → bs[i]? = some b → Reordered a b) :
    Reordered (.list as) (.list bs)
  | map {es fs : Entries Attribute} (keys : ∀ key, key ∈ keys es ↔ key ∈ keys fs)
    (members : ∀ key a b, get? es key = some a → get? fs key = some b → Reordered a b) :
    Reordered (.map es) (.map fs)

theorem bytesText_inj {bs bs' : List UInt8} (h : Token.bytesText bs = Token.bytesText bs') :
    bs = bs' := by
  have hchars : Base64.encode Base64.standard bs = Base64.encode Base64.standard bs' := by
    simpa [Token.bytesText, String.ofList_inj] using h
  have hread := Base64.decode_encode bs
  rw [hchars, Base64.decode_encode] at hread
  exact (Option.some.inj hread).symm

theorem text_map_inj {ss ss' : List Text} (h : ss.map Json.text = ss'.map Json.text) : ss = ss' :=
  List.map_injective_iff.mpr (fun _ _ heq => Json.text.inj heq) h

/-- A look-up in the sorted form of a map finds the form of what it finds in the map. -/
theorem get?_sortedForm {es : Entries Attribute} (h : (Entries.keys es).Nodup) (key : Text) :
    get? (Token.sortKeys (Token.formEntries es)) key = (get? es key).map Token.form := by
  rw [formEntries_eq, Token.get?_sortKeys (by simpa using h), get?_mapValues]

theorem reordered_list {as bs : List Attribute} (hforms : as.map Token.form = bs.map Token.form)
    (hmembers : ∀ a ∈ as, ∀ b ∈ bs, Token.form a = Token.form b → Reordered a b) :
    Reordered (.list as) (.list bs) := by
  refine .list (by simpa using congrArg List.length hforms) fun i a b ha hb => ?_
  apply hmembers a (List.mem_of_getElem? ha) b (List.mem_of_getElem? hb)
  simpa [ha, hb] using congrArg (·[i]?) hforms

theorem reordered_map {es fs : Entries Attribute} (hes : (Entries.keys es).Nodup)
    (hfs : (Entries.keys fs).Nodup)
    (hforms : Token.sortKeys (Token.formEntries es) = Token.sortKeys (Token.formEntries fs))
    (hmembers : ∀ e ∈ es, ∀ f ∈ fs, Token.form e.2 = Token.form f.2 → Reordered e.2 f.2) :
    Reordered (.map es) (.map fs) := by
  have hlookups (key : Text) : (get? es key).map Token.form = (get? fs key).map Token.form := by
    rw [← get?_sortedForm hes, ← get?_sortedForm hfs, hforms]
  refine .map (fun key => ?_) fun key a b ha hb => ?_
  · rw [← not_iff_not, ← get?_eq_none, ← get?_eq_none, ← Option.map_eq_none_iff (f := Token.form),
      hlookups key, Option.map_eq_none_iff]
  · apply hmembers (key, a) (mem_of_get? ha) (key, b) (mem_of_get? hb)
    simpa [ha, hb] using hlookups key

/-- The kind and the body of an attribute value are read off its form. -/
theorem reordered_of_form_eq {a b : Attribute} (ha : a.Keyed) (hb : b.Keyed)
    (h : Token.form a = Token.form b) : Reordered a b := by
  induction a using memberInduction generalizing b with
  | null =>
    cases b with
    | null => exact .null
    | _ => simp [Token.form, Token.tagged] at h
  | bool v =>
    cases b with
    | bool w =>
      obtain rfl : v = w := by simpa [Token.form, Token.tagged] using h
      exact .bool v
    | _ => simp [Token.form, Token.tagged] at h
  | number d =>
    cases b with
    | number d' =>
      obtain rfl : d = d' := by simpa [Token.form, Token.tagged] using h
      exact .number d
    | _ => simp [Token.form, Token.tagged] at h
  | text s =>
    cases b with
    | text s' =>
      obtain rfl : s = s' := by simpa [Token.form, Token.tagged] using h
      exact .text s
    | _ => simp [Token.form, Token.tagged] at h
  | bytes mutable bs =>
    cases b with
    | bytes mutable' bs' =>
      obtain rfl : bs = bs' := bytesText_inj (by simpa [Token.form, Token.tagged] using h)
      exact .bytes mutable mutable' bs
    | _ => simp [Token.form, Token.tagged] at h
  | numbers ds =>
    cases b with
    | numbers ds' =>
      obtain rfl : ds = ds' := text_map_inj (by simpa [Token.form, Token.tagged] using h)
      exact .numbers ds
    | _ => simp [Token.form, Token.tagged] at h
  | texts ss =>
    cases b with
    | texts ss' =>
      obtain rfl : ss = ss' := text_map_inj (by simpa [Token.form, Token.tagged] using h)
      exact .texts ss
    | _ => simp [Token.form, Token.tagged] at h
  | byteRows rows =>
    cases b with
    | byteRows rows' =>
      have hrows : (rows.map Prod.snd).map Token.bytesText = (rows'.map Prod.snd).map Token.bytesText := by
        simpa [Token.form, Token.tagged, Function.comp_def] using h
      exact .byteRows (List.map_injective_iff.mpr (fun _ _ => bytesText_inj) hrows)
    | _ => simp [Token.form, Token.tagged] at h
  | list as ih =>
    cases b with
    | list bs =>
      have hforms : as.map Token.form = bs.map Token.form := by
        simpa [Token.form, Token.tagged, formAll_eq] using h
      have has := (keyedAll_iff as).mp ha
      have hbs := (keyedAll_iff bs).mp hb
      exact reordered_list hforms fun a hmem b hmem' => ih a hmem (has a hmem) (hbs b hmem')
    | _ => simp [Token.form, Token.tagged] at h
  | map es ih =>
    cases b with
    | map fs =>
      have hforms : Token.sortKeys (Token.formEntries es) = Token.sortKeys (Token.formEntries fs) := by
        simpa [Token.form, Token.tagged] using h
      have hes := (keyedEntries_iff es).mp ha.2
      have hfs := (keyedEntries_iff fs).mp hb.2
      exact reordered_map ha.1 hb.1 hforms
        fun e hmem f hmem' => ih e hmem (hes e hmem) (hfs f hmem')
    | _ => simp [Token.form, Token.tagged] at h

theorem form_eq_of_reordered {a b : Attribute} (h : Reordered a b) (ha : a.Keyed) (hb : b.Keyed) :
    Token.form a = Token.form b := by
  induction h with
  | @byteRows rows rows' bytes =>
    have hrows := congrArg (List.map Token.bytesText) bytes
    simpa [Token.form, Token.tagged, Function.comp_def] using hrows
  | @list as bs size members ih =>
    have has := (keyedAll_iff as).mp ha
    have hbs := (keyedAll_iff bs).mp hb
    rw [Token.form, Token.form, formAll_eq, formAll_eq]
    congr 2
    refine List.ext_getElem (by simpa using size) fun i hi hi' => ?_
    rw [List.length_map] at hi hi'
    rw [List.getElem_map, List.getElem_map]
    exact ih i _ _ (List.getElem?_eq_getElem hi) (List.getElem?_eq_getElem hi')
      (has _ (List.getElem_mem hi)) (hbs _ (List.getElem_mem hi'))
  | @map es fs keys members ih =>
    have hes := (keyedEntries_iff es).mp ha.2
    have hfs := (keyedEntries_iff fs).mp hb.2
    rw [Token.form, Token.form, formEntries_eq, formEntries_eq]
    congr 2
    refine Token.sortKeys_congr (by simpa using ha.1) (by simpa using hb.1) fun key => ?_
    rw [get?_mapValues, get?_mapValues]
    cases hgeta : get? es key with
    | none =>
      have hgetb : get? fs key = none := by
        rw [get?_eq_none] at hgeta ⊢
        exact fun hmem => hgeta ((keys key).mpr hmem)
      rw [hgetb]
    | some a =>
      have hmem : key ∈ Entries.keys fs := (keys key).mp (List.mem_map_of_mem (mem_of_get? hgeta))
      cases hgetb : get? fs key with
      | none => exact absurd hmem ((get?_eq_none fs key).mp hgetb)
      | some b =>
        have hform := ih key a b hgeta hgetb (hes _ (mem_of_get? hgeta)) (hfs _ (mem_of_get? hgetb))
        rw [Option.map_some, Option.map_some, hform]
  | _ => rfl

/-- The form inside a token forgets the order of the entries of maps and nothing else. -/
theorem form_eq_iff {a b : Attribute} (ha : a.Keyed) (hb : b.Keyed) :
    Token.form a = Token.form b ↔ Reordered a b :=
  ⟨reordered_of_form_eq ha hb, fun h => form_eq_of_reordered h ha hb⟩

theorem keyed_ofSet {vs : List Value} {a : Attribute} (h : ofSet vs = .ok a) : a.Keyed := by
  rcases ofSet_inv h with ⟨-, ds, rfl, -⟩ | ⟨-, ⟨ss, rfl, -⟩ | ⟨bs, rfl, -⟩⟩ <;> trivial

theorem keyed_ofValues {vs : List Value} {as : List Attribute} (h : ofValues vs = .ok as)
    (hmembers : ∀ v ∈ vs, ∀ a, ofValue v = .ok a → a.Keyed) : ∀ a ∈ as, a.Keyed := by
  induction vs generalizing as with
  | nil =>
    obtain rfl := Except.ok.inj h
    simp
  | cons v vs ih =>
    obtain ⟨a, hv, h⟩ := Result.bind_eq_ok.mp h
    obtain ⟨as, hvs, h⟩ := Result.bind_eq_ok.mp h
    obtain rfl := Except.ok.inj h
    exact List.forall_mem_cons.mpr ⟨hmembers v List.mem_cons_self a hv,
      ih hvs fun w hw => hmembers w (List.mem_cons_of_mem _ hw)⟩

/-- The attribute values of a map are those of its entries, under their keys. -/
theorem ofEntries_accepted {es : Fields} {as : List (Text × Attribute)}
    (h : ofEntries es = .ok as) : as = mapValues Token.accepted es := by
  rw [Token.ofEntries_eq (Token.ofEntries_ok h)] at h
  exact (Except.ok.inj h).symm

theorem keyed_ofValue {v : Value} (hv : v.Keyed) {a : Attribute} (h : ofValue v = .ok a) :
    a.Keyed := by
  induction v using Value.partsInduction generalizing a with
  | step v ih =>
    cases v with
    | null | bool | text | blob =>
      obtain rfl := Except.ok.inj h
      trivial
    | number n =>
      obtain ⟨d, -, rfl⟩ := Result.map_eq_ok.mp h
      trivial
    | list vs | tuple vs =>
      obtain ⟨as, hvs, rfl⟩ := Result.map_eq_ok.mp h
      exact (keyedAll_iff as).mpr (keyed_ofValues hvs fun w hw b => ih w hw (hv.part hw))
    | set frozen vs => exact keyed_ofSet h
    | map es =>
      obtain ⟨as, hes, rfl⟩ := Result.map_eq_ok.mp h
      obtain rfl := ofEntries_accepted hes
      refine ⟨by simpa using hv.nodup, (keyedEntries_iff _).mpr fun f hf => ?_⟩
      obtain ⟨e, he, rfl⟩ := List.mem_map.mp hf
      have hmem := Value.snd_mem_parts he
      exact ih e.2 hmem (hv.part hmem) (Token.ofValue_eq (Token.ofEntries_ok hes e he))
    | _ => simp [ofValue] at h

end Attribute

/-- A document is written in no other way than any other. -/
theorem Json.write_inj {j k : Json} (hj : j.Textual) (hk : k.Textual) (h : j.write = k.write) :
    j = k := by
  have hread := read_write hj
  rw [h, read_write hk] at hread
  exact (Option.some.inj hread).symm

namespace Token

theorem tokenOf_inj {s t : String} (h : tokenOf s = tokenOf t) : s = t := by
  have hread := Base64.decodeUrlSafe_encode s.toUTF8.data.toList
  rw [← tokenOf, h, tokenOf, Base64.decodeUrlSafe_encode] at hread
  have hbytes := Array.toList_inj.mp (Option.some.inj hread)
  exact (String.toByteArray_inj.mp (ByteArray.ext hbytes)).symm

/-- The text in the token of a key holds the sorted form of its attribute values. -/
theorem encode_eq_of_ofEntries {es : Fields} {as : List (Text × Attribute)} (hne : es ≠ [])
    (hu : (Value.map es).Unbroken) (h : Attribute.ofEntries es = .ok as) :
    ∃ s : String, .ofList (Json.object [("lastKey", .object (sortKeys (formEntries as)))]).write =
        Text.whole s ∧
      encode (.map es) = .ok (some (.whole (String.ofList (tokenOf s)))) := by
  have htruthy : (Value.map es).truthy = true := by simpa [Value.truthy] using hne
  have hsorted : Attribute.ofEntries (sortKeys es) = .ok (sortKeys as) := by
    rw [ofEntries_eq fun e he => ofEntries_ok h e ((sortKeys_perm es).mem_iff.mp he),
      Attribute.ofEntries_accepted h, sortKeys_mapValues]
  obtain ⟨s, hs⟩ := (Text.unbroken_iff _).mp
    ((unbroken_document hsorted).mpr ((unbroken_sortKeys es).mpr hu))
  refine ⟨s, ?_, ?_⟩
  · rw [← hs, document, Attribute.formEntries_eq, Attribute.formEntries_eq, sortKeys_mapValues]
  · rw [encode, if_pos htruthy, attributes, hsorted, Result.ok_bind, hs]
    rfl

theorem textual_lastKey {as : List (Text × Attribute)} (h : (Attribute.map as).Keyed) :
    (Json.object [("lastKey", .object (sortKeys (formEntries as)))]).Textual := by
  obtain ⟨-, hbody, -⟩ := h.textual_form
  exact ⟨by simp [keys], hbody, trivial⟩

/-- Two keys without lone halves that the store accepts have one token just where their attribute
values differ at most in the order of entries. -/
theorem token_eq_iff_reordered (es fs : Fields) (hes : es ≠ []) (hfs : fs ≠ [])
    (hkeyed : (Value.map es).Keyed) (hkeyed' : (Value.map fs).Keyed)
    (hu : (Value.map es).Unbroken) (hu' : (Value.map fs).Unbroken)
    (as bs : List (Text × Attribute)) (has : Attribute.ofEntries es = .ok as)
    (hbs : Attribute.ofEntries fs = .ok bs) :
    ∃ s t, encode (.map es) = .ok (some s) ∧ encode (.map fs) = .ok (some t) ∧
      (s = t ↔ Attribute.Reordered (.map as) (.map bs)) := by
  have hmap {gs : Fields} {cs : List (Text × Attribute)} (h : Attribute.ofEntries gs = .ok cs) :
      Attribute.ofValue (.map gs) = .ok (.map cs) := by
    rw [Attribute.ofValue, h]
    rfl
  have ha := Attribute.keyed_ofValue hkeyed (hmap has)
  have hb := Attribute.keyed_ofValue hkeyed' (hmap hbs)
  obtain ⟨s, hs, hencode⟩ := encode_eq_of_ofEntries hes hu has
  obtain ⟨t, ht, hencode'⟩ := encode_eq_of_ofEntries hfs hu' hbs
  refine ⟨_, _, hencode, hencode', ?_⟩
  rw [← Attribute.form_eq_iff ha hb]
  constructor
  · intro h
    have hchars : tokenOf s = tokenOf t := by simpa [String.ofList_inj] using h
    obtain rfl := tokenOf_inj hchars
    have hwritten := congrArg Text.toList (hs.trans ht.symm)
    rw [Text.toList_ofList, Text.toList_ofList] at hwritten
    have hdocuments := Json.write_inj (textual_lastKey ha) (textual_lastKey hb) hwritten
    simpa [form, tagged] using hdocuments
  · intro h
    have hentries : sortKeys (formEntries as) = sortKeys (formEntries bs) := by
      simpa [form, tagged] using h
    rw [hentries, ht] at hs
    rw [Text.whole.inj hs]

/-- A nested key and the same key with its entries in another order at both depths. -/
def nestedKey : Fields := [("id", .text "a"), ("at", .map [("x", .int 1), ("y", .bool true)])]

def shuffledKey : Fields := [("at", .map [("y", .bool true), ("x", .int 1)]), ("id", .text "a")]

theorem token_eq_iff_reordered_shuffled :
    ∃ s t, encode (.map nestedKey) = .ok (some s) ∧ encode (.map shuffledKey) = .ok (some t) ∧
      s = t := by
  have hatom {v : Value} (hparts : v.parts = []) (hmap : ∀ es, v ≠ .map es) : v.Keyed :=
    Value.keyed_of_parts (fun es hes => absurd hes (hmap es)) (by simp [hparts])
  have htext : (Value.text "a").Keyed := hatom rfl (by simp)
  have hint : (Value.int 1).Keyed := hatom rfl (by simp [Value.int])
  have hbool : (Value.bool true).Keyed := hatom rfl (by simp)
  have hnested : (Value.map nestedKey).Keyed := by
    simp [nestedKey, Value.keyed_map_iff, htext, hint, hbool, keys]
  have hshuffled : (Value.map shuffledKey).Keyed := by
    simp [shuffledKey, Value.keyed_map_iff, htext, hint, hbool, keys]
  obtain ⟨s, t, hs, ht, hiff⟩ := token_eq_iff_reordered nestedKey shuffledKey (by simp [nestedKey])
    (by simp [shuffledKey]) hnested hshuffled
    (by simp [nestedKey, Value.Unbroken, Value.UnbrokenEntries, Value.int])
    (by simp [shuffledKey, Value.Unbroken, Value.UnbrokenEntries, Value.int]) _ _ rfl rfl
  refine ⟨s, t, hs, ht, hiff.mpr (Attribute.reordered_of_form_eq ?_ ?_ ?_)⟩
  · exact Attribute.keyed_ofValue hnested rfl
  · exact Attribute.keyed_ofValue hshuffled rfl
  · rfl

end Token

end TableGateway
