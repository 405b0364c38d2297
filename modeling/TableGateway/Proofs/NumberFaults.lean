import TableGateway.Proofs.Outcomes
import TableGateway.Proofs.Tags
import TableGateway.Token

/-!
# Faults of numbers and of sets

A number that is read from the form in requests has a fault of its own where the store cannot hold
it; all other faults of numbers, of bytes and of their sets are reported as a token that is no token.
-/
namespace TableGateway

namespace Token

/-- Is a fault reported as the refusal of the token? -/
def IsReported (f : Fault) : Prop := reported f = .refused .invalidToken

/-- Faults of a number that cannot be held. -/
def IsOfNumber (f : Fault) : Prop := f = .outOfRange ∨ ∃ signal, f = .unstorable signal

/-- A number that cannot be held is never taken for a token that is none. -/
theorem not_isReported_of_isOfNumber {f : Fault} (h : IsOfNumber f) : ¬IsReported f := by
  obtain rfl | ⟨signal, rfl⟩ := h <;> simp [IsReported, reported]

end Token

namespace Attribute

open Token (IsReported IsOfNumber)

/-- Faults of a number: the token is refused, or the number cannot be held. -/
def OfNumber (f : Fault) : Prop := IsReported f ∨ IsOfNumber f

theorem ofNumber_badValue (m : Option Text) : OfNumber (.badValue m) := .inl rfl

/-- A whole number beyond the machine's range cannot be held; what is no whole number is a bad
value. -/
theorem wholeOf_fault {v : Value} {f : Fault} (h : wholeOf v = .error f) : OfNumber f := by
  rw [wholeOf.eq_def] at h
  split at h
  · split at h
    · obtain rfl := Except.error.inj h
      exact .inr (.inl rfl)
    · cases h
  · obtain rfl := Except.error.inj h
    exact ofNumber_badValue none

theorem signOf_fault {v : Value} {f : Fault} (h : signOf v = .error f) : OfNumber f := by
  refine Result.fault_of_bind (fun _ => wholeOf_fault) (fun n f h => ?_) h
  split at h
  all_goals cases h
  exact ofNumber_badValue none

theorem digitOf_fault {v : Value} {f : Fault} (h : digitOf v = .error f) : OfNumber f := by
  refine Result.fault_of_bind (fun _ => wholeOf_fault) (fun n f h => ?_) h
  split at h
  all_goals cases h
  exact ofNumber_badValue none

theorem scaleOf_fault {v : Value} {f : Fault} (h : scaleOf v = .error f) : OfNumber f := by
  rw [scaleOf.eq_def] at h
  split at h
  · cases h
  · cases h
  · cases h
  · cases hw : wholeOf v with
    | ok n => simp [hw] at h
    | error e =>
      obtain rfl : e = f := by simpa [hw] using h
      exact wholeOf_fault hw

theorem digitsOf_fault {v : Value} {f : Fault} (h : digitsOf v = .error f) : OfNumber f := by
  rw [digitsOf.eq_def] at h
  split at h
  · exact Result.fault_of_mapM (fun _ _ => digitOf_fault) h
  · exact Result.fault_of_mapM (fun _ _ => digitOf_fault) h
  · obtain rfl := Except.error.inj h
    exact ofNumber_badValue none

/-- Sign, scale and digits are read in this order, each with the faults of a number. -/
theorem decimalOfRow_fault {vs : List Value} {f : Fault} (h : decimalOfRow vs = .error f) :
    OfNumber f := by
  rw [decimalOfRow.eq_def] at h
  split at h
  · refine Result.fault_of_bind (fun _ => signOf_fault) (fun _ _ h => ?_) h
    refine Result.fault_of_bind (fun _ => scaleOf_fault) (fun _ _ h => ?_) h
    exact Result.fault_of_bind (fun _ => digitsOf_fault) (by simp) h
  · obtain rfl := Except.error.inj h
    exact ofNumber_badValue none

/-- The store names the signal of a decimal that it cannot hold. -/
theorem storedDecimal_fault {d : Decimal} {f : Fault} (h : storedDecimal d = .error f) :
    OfNumber f := by
  rw [storedDecimal.eq_def] at h
  split at h
  · cases h
  · obtain rfl := Except.error.inj h
    exact .inr (.inr ⟨_, rfl⟩)

/-- Whatever the body, reading it as a number goes wrong as numbers do. -/
theorem decodeNumber_fault {body : Value} {f : Fault} (h : decodeNumber body = .error f) :
    OfNumber f := by
  have hstored : ∀ d f, (do return Value.number (.decimal (← storedDecimal d)) : Result Value) =
      .error f → OfNumber f :=
    fun d f h => Result.fault_of_bind (fun _ => storedDecimal_fault) (by simp) h
  rw [decodeNumber.eq_def] at h
  split at h
  · exact hstored _ f h
  · exact hstored _ f h
  · exact hstored _ f h
  · exact Result.fault_of_bind (fun _ => decimalOfRow_fault) hstored h
  · exact Result.fault_of_bind (fun _ => decimalOfRow_fault) hstored h
  · obtain rfl := Except.error.inj h
    exact .inl rfl

/-- Members read one by one, each with its check. -/
def checked (read : Value → Result Value) (v : Value) : Result Value :=
  read v >>= fun w => if w.hashable then .ok w else .error .wrongType

/-- The members of a set are read as a row is, so what holds of rows holds of them. -/
theorem decodeMembers_mapM (read : Value → Result Value) (vs : List Value) :
    decodeMembers read vs = vs.mapM (checked read) := by
  induction vs with
  | nil => rfl
  | cons v vs ih =>
    rw [decodeMembers, ih, List.mapM_cons, checked]
    cases read v with
    | error e => rfl
    | ok w => cases hw : w.hashable <;> simp [hw]

/-- Bytes have no faults but that of a token that is none. -/
theorem isReported_decodeBytes {v : Value} {f : Fault} (h : decodeBytes v = .error f) :
    IsReported f := by
  rw [decodeBytes.eq_def] at h
  split at h
  · split at h
    · obtain rfl := Except.error.inj h
      rfl
    · cases h
  · obtain rfl := Except.error.inj h
    rfl

theorem isReported_elements {v : Value} {f : Fault} (h : v.elements = .error f) : IsReported f := by
  rw [Value.elements] at h
  split at h
  · cases h
  · obtain rfl := Except.error.inj h
    rfl

theorem checked_fault {P : Fault → Prop} {read : Value → Result Value} {v : Value} {f : Fault}
    (hP : P .wrongType) (hread : ∀ f, read v = .error f → P f) (h : checked read v = .error f) :
    P f := by
  refine Result.fault_of_bind hread (fun w f h => ?_) h
  split at h
  · cases h
  · obtain rfl := Except.error.inj h
    exact hP

/-- A set has the faults of its members, and those of a body that is no row. -/
theorem decodeSet_fault {P : Fault → Prop} {read : Value → Result Value} {body : Value} {f : Fault}
    (hP : ∀ f, IsReported f → P f) (hread : ∀ v f, read v = .error f → P f)
    (h : decodeSet read body = .error f) : P f := by
  refine Result.fault_of_bind (fun f h => hP f (isReported_elements h)) (fun vs f h => ?_) h
  refine Result.fault_of_bind (fun f h => ?_) (by simp) h
  rw [decodeMembers_mapM] at h
  exact Result.fault_of_mapM (fun v _ => checked_fault (hP _ rfl) (hread v)) h

theorem checked_eq_ok {read : Value → Result Value} {v w : Value} :
    checked read v = .ok w ↔ read v = .ok w ∧ w.hashable := by
  rw [checked, Result.bind_eq_ok]
  constructor
  · rintro ⟨u, hu, h⟩
    split at h
    · rename_i hhash
      obtain rfl := Except.ok.inj h
      exact ⟨hu, hhash⟩
    · cases h
  · rintro ⟨hw, hhash⟩
    exact ⟨w, hw, by simp [hhash]⟩

/-- A list of attribute values is read as a row. -/
theorem decode_list (vs : List Value) :
    decode (.map [("L", .list vs)]) = .list <$> vs.mapM decode := by
  have hall : decodeAll vs = vs.mapM decode := by
    induction vs with
    | nil => rfl
    | cons v vs ih => rw [decodeAll, ih, List.mapM_cons]
  rw [decode_listBody, decodeList, hall]

/-- A map of attribute values is read as the row of its entries. -/
theorem decode_map (es : Fields) :
    decode (.map [("M", .map es)]) =
      .map <$> es.mapM fun e => decode e.2 >>= fun v => .ok (e.1, v) := by
  have hall : decodeEntries es = es.mapM fun e => decode e.2 >>= fun v => .ok (e.1, v) := by
    induction es with
    | nil => rfl
    | cons e es ih =>
      rw [decodeEntries, ih, List.mapM_cons]
      cases decode e.2 <;> rfl
  rw [decode_mapBody, decodeMap, hall]

end Attribute

end TableGateway
