import TableGateway.Proofs.NumberFaults

/-!
# Faults of tokens

A token that does not hold a key is refused, with two exceptions. A map in it whose body is no map,
and a number in it that the store cannot hold, are faults of their own, wherever one of these is the
first thing that cannot be read.
-/
namespace TableGateway

namespace Json

/-- The induction over documents, with all members of arrays and objects at hand. -/
@[elab_as_elim]
theorem memberInduction {motive : Json → Prop} (null : motive .null)
    (bool : ∀ b, motive (.bool b)) (number : ∀ n, motive (.number n)) (text : ∀ s, motive (.text s))
    (array : ∀ js, (∀ j ∈ js, motive j) → motive (.array js))
    (object : ∀ es, (∀ e ∈ es, motive e.2) → motive (.object es)) (j : Json) : motive j := by
  refine @Json.rec motive (fun js => ∀ j ∈ js, motive j) (fun es => ∀ e ∈ es, motive e.2)
    (fun e => motive e.2) null bool number text array object ?_ ?_ ?_ ?_ ?_ j
  · simp
  · intro j js hj hjs k hk
    rcases List.mem_cons.mp hk with rfl | hk
    · exact hj
    · exact hjs k hk
  · simp
  · intro e es he hes f hf
    rcases List.mem_cons.mp hf with rfl | hf
    · exact he
    · exact hes f hf
  · intro k j hj
    exact hj

/-- The induction over documents in which an object of one entry is a tag over a body. -/
@[elab_as_elim]
theorem bodyInduction {motive : Json → Prop}
    (untagged : ∀ j, (∀ tag body, j ≠ .object [(tag, body)]) → motive j)
    (tagged : ∀ tag body, (∀ js, body = .array js → ∀ j ∈ js, motive j) →
      (∀ es, body = .object es → ∀ e ∈ es, motive e.2) → motive (.object [(tag, body)]))
    (j : Json) : motive j := by
  have hall : motive j ∧ (∀ js, j = .array js → ∀ i ∈ js, motive i) ∧
      ∀ es, j = .object es → ∀ e ∈ es, motive e.2 := by
    induction j using memberInduction with
    | array js ih =>
      refine ⟨untagged _ (by simp), ?_, by simp⟩
      rintro _ ⟨rfl⟩ i hi
      exact (ih i hi).1
    | object es ih =>
      refine ⟨?_, by simp, ?_⟩
      · match es, ih with
        | [], _ => exact untagged _ (by simp)
        | [(tag, body)], ih => 
          obtain ⟨-, hitems, hentries⟩ := ih (tag, body) (by simp)
          exact tagged tag body hitems hentries
        | _ :: _ :: _, _ => exact untagged _ (by simp)
      · rintro _ ⟨rfl⟩ e he
        exact (ih e he).1
    | _ => exact ⟨untagged _ (by simp), by simp, by simp⟩
  exact hall.1

end Json

namespace Token

open Attribute (checked decodeNumber)

theorem unpackAll_mapM (js : List Json) : unpackAll js = js.mapM unpack := by
  induction js with
  | nil => rfl
  | cons j js ih => rw [unpackAll, ih, List.mapM_cons]

theorem unpackEntries_mapM (es : List (Text × Json)) :
    unpackEntries es = es.mapM fun e => unpack e.2 >>= fun v => .ok (e.1, v) := by
  induction es with
  | nil => rfl
  | cons e es ih =>
    rw [unpackEntries, ih, List.mapM_cons]
    cases unpack e.2 <;> rfl

theorem readEntries_mapM (es : List (Text × Json)) :
    readEntries es = es.mapM fun e => unpack e.2 >>= Attribute.decode >>= fun v => .ok (e.1, v) := by
  induction es with
  | nil => rfl
  | cons e es ih =>
    rw [readEntries, ih, List.mapM_cons]
    cases unpack e.2 with
    | error f => rfl
    | ok v => cases hv : Attribute.decode v <;> simp [hv]

/-- Can a form be unpacked and then read? -/
def Readable (j : Json) : Prop := ∃ v, unpack j >>= Attribute.decode = .ok v

/-- Forms in which the first part that cannot be unpacked is a map with a body that is no map. -/
inductive Stray : Json → Prop where
  | body {j : Json} : (∀ es, j ≠ .object es) → Stray (tagged "M" j)
  | item {before after : List Json} {j : Json} : (∀ i ∈ before, ∃ v, unpack i = .ok v) → Stray j →
      Stray (tagged "L" (.array (before ++ j :: after)))
  | entry {before after : List (Text × Json)} {k : Text} {j : Json} :
      (∀ e ∈ before, ∃ v, unpack e.2 = .ok v) → Stray j →
      Stray (tagged "M" (.object (before ++ (k, j) :: after)))

theorem unpack_of_stray {j : Json} (h : Stray j) : unpack j = .error .noSuchPart := by
  induction h with
  | body h =>
    rename_i j
    rw [tagged, unpack]
    cases j with
    | object es => exact absurd rfl (h es)
    | _ => rfl
  | @item before after j hbefore _ ih =>
    have hall := Result.mapM_eq_error.mpr ⟨before, j, after, rfl, hbefore, ih⟩
    rw [tagged, unpack, unpackItems, unpackAll_mapM, hall]
    rfl
  | @entry before after k j hbefore _ ih =>
    have hall : unpackEntries (before ++ (k, j) :: after) = .error .noSuchPart := by
      rw [unpackEntries_mapM]
      refine Result.mapM_eq_error.mpr ⟨before, (k, j), after, rfl, ?_, by simp [ih]⟩
      intro e he
      obtain ⟨v, hv⟩ := hbefore e he
      exact ⟨(e.1, v), by simp [hv]⟩
    rw [tagged, unpack, unpackMap, hall]
    rfl

theorem isReported_readBytes {j : Json} {f : Fault} (h : readBytes j = .error f) : IsReported f := by
  rw [readBytes.eq_def] at h
  split at h
  · split at h
    · simp at h
    · obtain rfl := Except.error.inj h
      rfl
  · obtain rfl := Except.error.inj h
    rfl

theorem isReported_items {j : Json} {f : Fault} (h : items j = .error f) : IsReported f := by
  cases j with
  | array _ | object _ | text _ => cases h
  | null | bool _ | number _ =>
    obtain rfl := Except.error.inj h
    rfl

theorem unpack_untagged {j : Json} (h : ∀ tag body, j ≠ .object [(tag, body)]) :
    unpack j = .error (.badValue none) := by
  rw [unpack.eq_def]
  split
  · rename_i tag body
    exact absurd rfl (h tag body)
  · rfl

theorem unpackItems_fault {body : Json} {f : Fault} (h : unpackItems body = .error f) :
    (∃ before j after, body = .array (before ++ j :: after) ∧
      (∀ i ∈ before, ∃ v, unpack i = .ok v) ∧ unpack j = .error f) ∨ IsReported f := by
  rw [unpackItems.eq_def] at h
  split at h
  · rw [unpackAll_mapM] at h
    obtain ⟨before, j, after, rfl, hbefore, hj⟩ := Result.mapM_eq_error.mp h
    exact .inl ⟨before, j, after, rfl, hbefore, hj⟩
  all_goals cases h
  all_goals exact .inr rfl

theorem unpackMap_fault {body : Json} {f : Fault} (h : unpackMap body = .error f) :
    (∃ before k j after, body = .object (before ++ (k, j) :: after) ∧
      (∀ e ∈ before, ∃ v, unpack e.2 = .ok v) ∧ unpack j = .error f) ∨
    (f = .noSuchPart ∧ ∀ es, body ≠ .object es) := by
  rw [unpackMap.eq_def] at h
  split at h
  · rename_i es
    rw [unpackEntries_mapM] at h
    obtain ⟨before, ⟨k, j⟩, after, rfl, hbefore, hj⟩ := Result.mapM_eq_error.mp h
    refine .inl ⟨before, k, j, after, rfl, fun e he => ?_, ?_⟩
    · obtain ⟨b, hb⟩ := hbefore e he
      obtain ⟨v, hv, -⟩ := Result.bind_eq_ok.mp hb
      exact ⟨v, hv⟩
    · cases hu : unpack j with
      | ok v => simp [hu] at hj
      | error e => simpa [hu] using hj
  · rename_i hobject
    exact .inr ⟨(Except.error.inj h).symm, fun es hes => hobject es hes⟩

/-- A fault of unpacking is that of a stray body, or it is reported. -/
theorem unpack_fault (j : Json) (f : Fault) (h : unpack j = .error f) :
    (f = .noSuchPart ∧ Stray j) ∨ IsReported f := by
  induction j using Json.bodyInduction generalizing f with
  | untagged j hj =>
    rw [unpack_untagged hj] at h
    obtain rfl := Except.error.inj h
    exact .inr rfl
  | tagged tag body ihItems ihEntries =>
    rw [unpack.eq_def] at h
    simp only at h
    split at h
    · exact .inr (Result.fault_of_bind (fun _ => isReported_readBytes) (by simp) h)
    · refine .inr (Result.fault_of_bind (fun _ => isReported_items) (fun _ _ h => ?_) h)
      exact Result.fault_of_bind (fun _ => Result.fault_of_mapM fun _ _ => isReported_readBytes) (by simp) h
    · cases hbody : unpackItems body with
      | ok vs => simp [hbody] at h
      | error e =>
        obtain rfl : e = f := by simpa [hbody] using h
        obtain ⟨before, j, after, rfl, hbefore, hj⟩ | hreported := unpackItems_fault hbody
        · refine (ihItems _ rfl j (by simp) e hj).imp_left fun ⟨he, hstray⟩ => ⟨he, ?_⟩
          exact .item hbefore hstray
        · exact .inr hreported
    · cases hbody : unpackMap body with
      | ok es => simp [hbody] at h
      | error e =>
        obtain rfl : e = f := by simpa [hbody] using h
        obtain ⟨before, k, j, after, rfl, hbefore, hj⟩ | ⟨he, hobject⟩ := unpackMap_fault hbody
        · refine (ihEntries _ rfl (k, j) (by simp) e hj).imp_left fun ⟨he, hstray⟩ => ⟨he, ?_⟩
          exact .entry hbefore hstray
        · exact .inl ⟨he, .body hobject⟩
    all_goals cases h
    exact .inr rfl

/-- Forms in which the first part that cannot be read is a number that cannot be held. -/
inductive Unheld : Json → Prop where
  | number {body : Json} {f : Fault} : Attribute.decodeNumber body.toValue = .error f →
      IsOfNumber f → Unheld (tagged "N" body)
  | member {body : Json} {before after : List Value} {v : Value} {f : Fault} :
      body.toValue.elements = .ok (before ++ v :: after) →
      (∀ w ∈ before, ∃ n, Attribute.decodeNumber w = .ok n ∧ n.hashable) →
      Attribute.decodeNumber v = .error f → IsOfNumber f → Unheld (tagged "NS" body)
  | item {before after : List Json} {j : Json} : (∀ i ∈ before, Readable i) → Unheld j →
      Unheld (tagged "L" (.array (before ++ j :: after)))
  | entry {before after : List (Text × Json)} {k : Text} {j : Json} :
      (∀ e ∈ before, Readable e.2) → Unheld j →
      Unheld (tagged "M" (.object (before ++ (k, j) :: after)))

theorem readEntries_unpacked {es : List (Text × Json)} {fields : Fields}
    (h : unpackEntries es = .ok fields) :
    fields.mapM (fun e => Attribute.decode e.2 >>= fun v => .ok (e.1, v)) = readEntries es := by
  rw [unpackEntries_mapM] at h
  rw [Result.mapM_mapM h, readEntries_mapM]
  refine congrArg (es.mapM ·) (funext fun e => ?_)
  cases unpack e.2 <;> rfl

theorem unread_numbers {body : Json} {f : Fault}
    (h : Attribute.decodeSet decodeNumber body.toValue = .error f) :
    IsReported f ∨ IsOfNumber f ∧ Unheld (tagged "NS" body) := by
  rw [Attribute.decodeSet] at h
  cases hbody : body.toValue.elements with
  | error e =>
    obtain rfl : e = f := by simpa [hbody] using h
    exact .inl (Attribute.isReported_elements hbody)
  | ok vs =>
    rw [hbody, Result.ok_bind, Attribute.decodeMembers_mapM] at h
    cases hvs : vs.mapM (checked decodeNumber) with
    | ok ws => simp [hvs] at h
    | error e =>
      obtain rfl : e = f := by simpa [hvs] using h
      obtain ⟨before, v, after, rfl, hbefore, hv⟩ := Result.mapM_eq_error.mp hvs
      cases hnumber : decodeNumber v with
      | ok n =>
        refine .inl (Attribute.checked_fault rfl (by simp [hnumber]) hv)
      | error e' =>
        obtain rfl : e' = e := by simpa [checked, hnumber] using hv
        refine (Attribute.decodeNumber_fault hnumber).imp_right fun hf => ⟨hf, ?_⟩
        refine .member hbody (fun w hw => ?_) hnumber hf
        obtain ⟨n, hn⟩ := hbefore w hw
        exact ⟨n, Attribute.checked_eq_ok.mp hn⟩

/-- The two ways in which the items of a list are unpacked: one by one, or there are none. -/
theorem unpackItems_ok {body : Json} {vs : List Value} (h : unpackItems body = .ok vs) :
    (∃ js, body = .array js ∧ js.mapM unpack = .ok vs) ∨ vs = [] := by
  rw [unpackItems.eq_def] at h
  split at h
  · rename_i js
    exact .inl ⟨js, rfl, unpackAll_mapM js ▸ h⟩
  all_goals cases h
  all_goals exact .inr rfl

theorem entry_eq_error {k : Text} {x : Result Value} {f : Fault} :
    (x >>= fun v => (.ok (k, v) : Result (Text × Value))) = .error f ↔ x = .error f := by
  cases x <;> simp

theorem readable_of_entry {e : Text × Json}
    (h : ∃ b, (unpack e.2 >>= Attribute.decode >>= fun v => (.ok (e.1, v) : Result (Text × Value))) =
      .ok b) : Readable e.2 := by
  obtain ⟨b, hb⟩ := h
  obtain ⟨v, hv, -⟩ := Result.bind_eq_ok.mp hb
  exact ⟨v, hv⟩

/-- Is each fault of reading what is unpacked that of a number that cannot be held, or reported? -/
def ReadsOrUnheld (j : Json) : Prop :=
  ∀ v f, unpack j = .ok v → Attribute.decode v = .error f → IsReported f ∨ IsOfNumber f ∧ Unheld j

theorem unread_items {body : Json} {vs : List Value} {f : Fault} (hvs : unpackItems body = .ok vs)
    (h : vs.mapM Attribute.decode = .error f)
    (ih : ∀ js, body = .array js → ∀ j ∈ js, ReadsOrUnheld j) :
    IsReported f ∨ IsOfNumber f ∧ Unheld (tagged "L" body) := by
  obtain ⟨js, rfl, hjs⟩ | rfl := unpackItems_ok hvs
  · rw [Result.mapM_mapM hjs] at h
    obtain ⟨before, j, after, rfl, hbefore, hj⟩ := Result.mapM_eq_error.mp h
    obtain ⟨w, hw⟩ := Result.ok_of_mapM hjs j (by simp)
    rw [hw, Result.ok_bind] at hj
    exact (ih _ rfl j (by simp) w f hw hj).imp_right fun ⟨hf, hu⟩ => ⟨hf, .item hbefore hu⟩
  · simp at h

theorem unread_entries {body : Json} {fields : Fields} {f : Fault}
    (hfields : unpackMap body = .ok fields)
    (h : fields.mapM (fun e => Attribute.decode e.2 >>= fun v => .ok (e.1, v)) = .error f)
    (ih : ∀ es, body = .object es → ∀ e ∈ es, ReadsOrUnheld e.2) :
    IsReported f ∨ IsOfNumber f ∧ Unheld (tagged "M" body) := by
  cases body with
  | object es =>
    rw [readEntries_unpacked hfields, readEntries_mapM] at h
    rw [unpackMap, unpackEntries_mapM] at hfields
    obtain ⟨before, ⟨k, j⟩, after, rfl, hbefore, hj⟩ := Result.mapM_eq_error.mp h
    obtain ⟨e, he⟩ := Result.ok_of_mapM hfields (k, j) (by simp)
    obtain ⟨w, hw, -⟩ := Result.bind_eq_ok.mp he
    rw [entry_eq_error, hw, Result.ok_bind] at hj
    exact (ih _ rfl (k, j) (by simp) w f hw hj).imp_right fun ⟨hf, hu⟩ =>
      ⟨hf, .entry (fun e he => readable_of_entry (hbefore e he)) hu⟩
  | _ => cases hfields

/-- A fault of reading what is unpacked is that of a number that cannot be held, or it is reported. -/
theorem decode_fault (j : Json) : ReadsOrUnheld j := by
  induction j using Json.bodyInduction with
  | untagged j hj =>
    intro v f hv
    rw [unpack_untagged hj] at hv
    cases hv
  | tagged tag body ihItems ihEntries =>
    intro v f hv h
    rw [unpack.eq_def] at hv
    simp only at hv
    split at hv
    · obtain ⟨w, -, hv⟩ := Result.bind_eq_ok.mp hv
      obtain rfl := Except.ok.inj hv
      rw [Attribute.decode_bytes] at h
      exact .inl (Attribute.isReported_decodeBytes h)
    · obtain ⟨js, -, hv⟩ := Result.bind_eq_ok.mp hv
      obtain ⟨ws, -, hv⟩ := Result.bind_eq_ok.mp hv
      obtain rfl := Except.ok.inj hv
      rw [Attribute.decode_byteRows] at h
      exact .inl (Attribute.decodeSet_fault (fun _ => id)
        (fun _ _ => Attribute.isReported_decodeBytes) h)
    · obtain ⟨vs, hvs, hv⟩ := Result.bind_eq_ok.mp hv
      obtain rfl := Except.ok.inj hv
      rw [Attribute.decode_list, Result.map_eq_error] at h
      exact unread_items hvs h ihItems
    · obtain ⟨fields, hfields, hv⟩ := Result.bind_eq_ok.mp hv
      obtain rfl := Except.ok.inj hv
      rw [Attribute.decode_map, Result.map_eq_error] at h
      exact unread_entries hfields h ihEntries
    · obtain rfl := Except.ok.inj hv
      rw [Attribute.decode_texts] at h
      exact .inl (Attribute.decodeSet_fault (fun _ => id) (by simp) h)
    · obtain rfl := Except.ok.inj hv
      simp [Attribute.decode_text] at h
    · obtain rfl := Except.ok.inj hv
      rw [Attribute.decode_number] at h
      exact (Attribute.decodeNumber_fault h).imp_right fun hf => ⟨hf, .number h hf⟩
    · obtain rfl := Except.ok.inj hv
      simp [Attribute.decode_bool] at h
    · obtain rfl := Except.ok.inj hv
      simp [Attribute.decode_null] at h
    · obtain rfl := Except.ok.inj hv
      rw [Attribute.decode_numbers] at h
      exact unread_numbers h
    · cases hv

theorem decode_of_unheld {j : Json} (h : Unheld j) {v : Value} (hv : unpack j = .ok v) :
    ∃ f, Attribute.decode v = .error f ∧ IsOfNumber f := by
  induction h generalizing v with
  | @number body f hbody hf =>
    obtain rfl := Except.ok.inj hv
    exact ⟨f, by rw [Attribute.decode_number, hbody], hf⟩
  | @member body before after w f hbody hbefore hw hf =>
    obtain rfl := Except.ok.inj hv
    refine ⟨f, ?_, hf⟩
    have hmembers : Attribute.decodeMembers decodeNumber (before ++ w :: after) = .error f := by
      rw [Attribute.decodeMembers_mapM]
      refine Result.mapM_eq_error.mpr ⟨before, w, after, rfl, fun u hu => ?_, ?_⟩
      · obtain ⟨n, hn⟩ := hbefore u hu
        exact ⟨n, Attribute.checked_eq_ok.mpr hn⟩
      · rw [checked, hw]
        rfl
    rw [Attribute.decode_numbers, Attribute.decodeSet, hbody, Result.ok_bind, hmembers]
    rfl
  | @item before after j hbefore hj ih =>
    obtain ⟨vs, hvs, hv⟩ := Result.bind_eq_ok.mp hv
    obtain rfl := Except.ok.inj hv
    rw [unpackItems, unpackAll_mapM] at hvs
    obtain ⟨w, hw⟩ := Result.ok_of_mapM hvs j (by simp)
    obtain ⟨f, hdecode, hf⟩ := ih hw
    refine ⟨f, ?_, hf⟩
    rw [Attribute.decode_list, Result.map_eq_error, Result.mapM_mapM hvs]
    exact Result.mapM_eq_error.mpr ⟨before, j, after, rfl, hbefore, by rw [hw, Result.ok_bind, hdecode]⟩
  | @entry before after k j hbefore hj ih =>
    obtain ⟨fields, hfields, hv⟩ := Result.bind_eq_ok.mp hv
    obtain rfl := Except.ok.inj hv
    rw [unpackMap] at hfields
    have hall := hfields
    rw [unpackEntries_mapM] at hall
    obtain ⟨e, he⟩ := Result.ok_of_mapM hall (k, j) (by simp)
    obtain ⟨w, hw, -⟩ := Result.bind_eq_ok.mp he
    obtain ⟨f, hdecode, hf⟩ := ih hw
    refine ⟨f, ?_, hf⟩
    rw [Attribute.decode_map, Result.map_eq_error, readEntries_unpacked hfields, readEntries_mapM]
    refine Result.mapM_eq_error.mpr ⟨before, (k, j), after, rfl, fun d hd => ?_, ?_⟩
    · obtain ⟨u, hu⟩ := hbefore d hd
      exact ⟨(d.1, u), by rw [hu, Result.ok_bind]⟩
    · rw [entry_eq_error, hw, Result.ok_bind, hdecode]

/-- Forms whose fault in reading is not reported as the refusal of the token. -/
def Escapes (j : Json) : Prop := Stray j ∨ Unheld j ∧ ∃ v, unpack j = .ok v

theorem escapes_iff (j : Json) :
    Escapes j ↔ ∃ f, (unpack j >>= Attribute.decode) = .error f ∧ ¬IsReported f := by
  constructor
  · rintro (h | ⟨h, v, hv⟩)
    · exact ⟨.noSuchPart, by rw [unpack_of_stray h]; rfl, by simp [IsReported, reported]⟩
    · obtain ⟨f, hf, hnumber⟩ := decode_of_unheld h hv
      exact ⟨f, by rw [hv, Result.ok_bind, hf], not_isReported_of_isOfNumber hnumber⟩
  · rintro ⟨f, hf, hreported⟩
    cases hv : unpack j with
    | error e =>
      obtain rfl : e = f := by simpa [hv] using hf
      exact .inl ((unpack_fault j e hv).resolve_right hreported).2
    | ok v =>
      rw [hv, Result.ok_bind] at hf
      exact .inr ⟨((decode_fault j v f hv hf).resolve_left hreported).2, v, hv⟩

/-- The entries that the document inside a text holds under "lastKey". -/
def lastKeyIn (s : Text) : Option (List (Text × Json)) := do
  let t ← toText? (Text.trim (← s.chars?))
  (Json.read t.toList).bind lastKey?

theorem lastKeyIn_of_blank {s : Text} {cs : List Char} (hcs : s.chars? = some cs)
    (h : Text.trim cs = []) : lastKeyIn s = none := by
  rw [lastKeyIn, hcs, Option.bind_eq_bind, Option.bind_some, h]
  decide +kernel

theorem decode_eq (s : Text) : decode (.text s) =
    match lastKeyIn s with
    | none => refuse .invalidToken
    | some key => (readEntries key).mapError reported := by
  have hshown : ((Value.text s).orElse (.text "")).shown = .ok s := by
    rw [Value.orElse]
    split
    · rfl
    · rename_i hs
      obtain rfl : s = "" := by simpa [Value.truthy] using hs
      rfl
  rw [decode, hshown, Result.ok_bind]
  cases hs : s.chars? with
  | none =>
    rw [lastKeyIn, hs]
    rfl
  | some cs =>
    rw [Option.map_some]
    cases hcs : Text.trim cs with
    | nil => rw [lastKeyIn_of_blank hs hcs]
    | cons c cs =>
      rw [lastKeyIn, hs, Option.bind_eq_bind, Option.bind_some, hcs]
      simp only
      rw [decodeText]
      cases toText? (c :: cs) <;> rfl

theorem lastKeyIn_ne_nil {s : Text} {key : List (Text × Json)} (h : lastKeyIn s = some key) :
    key ≠ [] := by
  obtain ⟨cs, -, h⟩ := Option.bind_eq_some_iff.mp h
  obtain ⟨t, -, h⟩ := Option.bind_eq_some_iff.mp h
  obtain ⟨j, -, h⟩ := Option.bind_eq_some_iff.mp h
  rintro rfl
  rw [lastKey?.eq_def] at h
  split at h
  · split at h
    · cases h
    · rename_i hne heq
      obtain rfl := Option.some.inj h
      exact absurd rfl hne
    · cases h
  · cases h

theorem decode_of_error {s : Text} {key : List (Text × Json)} {f : Fault}
    (hkey : lastKeyIn s = some key) (h : readEntries key = .error f) :
    decode (.text s) = .error (reported f) := by
  rw [decode_eq, hkey]
  simp only [h]
  rfl

theorem decode_of_ok {s : Text} {key : List (Text × Json)} {es : Fields}
    (hkey : lastKeyIn s = some key) (h : readEntries key = .ok es) : decode (.text s) = .ok es := by
  rw [decode_eq, hkey]
  simp only [h]
  rfl

/-- The faults of a token other than its refusal. -/
theorem reported_of_not_isReported {j : Json} {f : Fault}
    (h : (unpack j >>= Attribute.decode) = .error f) :
    IsReported f ∨ f = .noSuchPart ∨ IsOfNumber f := by
  cases hv : unpack j with
  | error e =>
    obtain rfl : e = f := by simpa [hv] using h
    obtain ⟨he, -⟩ | he := unpack_fault j e hv
    · exact .inr (.inl he)
    · exact .inl he
  | ok v =>
    rw [hv, Result.ok_bind] at h
    exact (decode_fault j v f hv h).imp_right fun hf => .inr hf.1

/-- The first entry of a key that cannot be read, with its fault. -/
theorem readEntries_eq_error {key : List (Text × Json)} {f : Fault} :
    readEntries key = .error f ↔ ∃ before name j after, key = before ++ (name, j) :: after ∧
      (∀ e ∈ before, Readable e.2) ∧ (unpack j >>= Attribute.decode) = .error f := by
  rw [readEntries_mapM, Result.mapM_eq_error]
  constructor
  · rintro ⟨before, ⟨name, j⟩, after, hkey, hbefore, hj⟩
    exact ⟨before, name, j, after, hkey, fun e he => readable_of_entry (hbefore e he),
      entry_eq_error.mp hj⟩
  · rintro ⟨before, name, j, after, hkey, hbefore, hj⟩
    refine ⟨before, (name, j), after, hkey, fun e he => ?_, entry_eq_error.mpr hj⟩
    obtain ⟨v, hv⟩ := hbefore e he
    exact ⟨(e.1, v), by rw [hv, Result.ok_bind]⟩

theorem readEntries_ne_nil {key : List (Text × Json)} {es : Fields}
    (h : readEntries key = .ok es) (hkey : key ≠ []) : es ≠ [] := by
  cases key with
  | nil => exact absurd rfl hkey
  | cons e key =>
    rw [readEntries] at h
    obtain ⟨v, -, h⟩ := Result.bind_eq_ok.mp h
    obtain ⟨w, -, h⟩ := Result.bind_eq_ok.mp h
    obtain ⟨rest, -, h⟩ := Result.bind_eq_ok.mp h
    obtain rfl := Except.ok.inj h
    simp

/-- A token gives a key with an entry, or is refused, exactly when the first entry in it that cannot
be read, if there is one, is neither stray nor a number that cannot be held. Nothing else than these
two leaves the reader. -/
theorem decode_documented_iff (s : Text) :
    (((∃ key, decode (.text s) = .ok key ∧ key ≠ []) ∨ decode (.text s) = refuse .invalidToken) ↔
      ∀ before name j after, lastKeyIn s = some (before ++ (name, j) :: after) →
        (∀ e ∈ before, Readable e.2) → ¬Escapes j) ∧
    ∀ f, decode (.text s) = .error f →
      f = .refused .invalidToken ∨ f = .noSuchPart ∨ IsOfNumber f := by
  cases hkey : lastKeyIn s with
  | none =>
    have hrefused : decode (.text s) = refuse .invalidToken := by rw [decode_eq, hkey]
    refine ⟨⟨fun _ _ _ _ _ h => absurd h (by simp), fun _ => .inr hrefused⟩, fun f h => .inl ?_⟩
    exact (Except.error.inj (hrefused.symm.trans h)).symm
  | some key =>
    cases hread : readEntries key with
    | ok es =>
      have hdecode := decode_of_ok hkey hread
      refine ⟨⟨fun _ before name j after h hbefore hj => ?_, fun _ => .inl ⟨es, hdecode, ?_⟩⟩, ?_⟩
      · obtain rfl := Option.some.inj h
        obtain ⟨f, hf, -⟩ := (escapes_iff j).mp hj
        rw [readEntries_eq_error.mpr ⟨before, name, j, after, rfl, hbefore, hf⟩] at hread
        cases hread
      · exact readEntries_ne_nil hread (lastKeyIn_ne_nil hkey)
      · intro f h
        rw [hdecode] at h
        cases h
    | error f =>
      have hdecode := decode_of_error hkey hread
      obtain ⟨before, name, j, after, rfl, hbefore, hj⟩ := readEntries_eq_error.mp hread
      rw [hdecode]
      refine ⟨⟨?_, fun h => .inr ?_⟩, ?_⟩
      · rintro (⟨_, h, -⟩ | h) before' name' j' after' heq hbefore' hj'
        · cases h
        · obtain ⟨f', hf', hescapes⟩ := (escapes_iff j').mp hj'
          -- Both entries are the first that cannot be read, so their faults are one.
          have hread' := readEntries_eq_error.mpr ⟨before', name', j', after', rfl, hbefore', hf'⟩
          rw [← Option.some.inj heq, hread] at hread'
          obtain rfl := Except.error.inj hread'
          exact hescapes (Except.error.inj h)
      · have hj' := h before name j after rfl hbefore
        rw [escapes_iff] at hj'
        exact congrArg Except.error (by_contra fun hf => hj' ⟨f, hj, hf⟩)
      · intro g hg
        obtain rfl := Except.error.inj hg
        obtain hf | rfl | hf := reported_of_not_isReported hj
        · exact .inl hf
        · exact .inr (.inl rfl)
        · obtain rfl | ⟨signal, rfl⟩ := hf
          · exact .inr (.inr (.inl rfl))
          · exact .inr (.inr (.inr ⟨signal, rfl⟩))

/-- Is a token one that gives a key with an entry, or is refused? -/
def decodesAsDocumented (s : Text) : Bool :=
  match decode (.text s) with
  | .ok key => !key.isEmpty
  | .error (.refused .invalidToken) => true
  | .error _ => false

/-- The document {"lastKey":{"k":{"M":null}}} is neither. -/
theorem not_decode_documented :
    ¬∀ s : Text, (∃ key, decode (.text s) = .ok key ∧ key ≠ []) ∨
      decode (.text s) = refuse .invalidToken := by
  intro h
  have hdocumented : decodesAsDocumented "eyJsYXN0S2V5Ijp7ImsiOnsiTSI6bnVsbH19fQ==" = true := by
    rw [decodesAsDocumented]
    obtain ⟨key, hkey, hne⟩ | hrefused := h "eyJsYXN0S2V5Ijp7ImsiOnsiTSI6bnVsbH19fQ=="
    · rw [hkey]
      simpa using hne
    · rw [hrefused]
      rfl
  exact absurd hdocumented (by decide +kernel)

end Token

end TableGateway
