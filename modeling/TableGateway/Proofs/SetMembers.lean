import Mathlib.Data.List.Chain
import Mathlib.Order.Basic
import TableGateway.Proofs.Settled

/-!
# Members of sets

The members of a set come without repetitions and in their order. A row of members that is made a set
again stays as it is: no member is the same as an earlier one, and none precedes the one before it,
since of two members at most one precedes the other.
-/
namespace TableGateway

namespace Decimal

theorem orderScaled_swap (c : Nat) (e : Int) (d : Nat) (f : Int) :
    orderScaled d f c e = (orderScaled c e d f).swap := by
  rw [orderScaled, orderScaled, Int.min_comm f e, ← Int.compare_swap]
  cases compare (e + ((digitsOf c).length : Int)) (f + ((digitsOf d).length : Int)) with
  | eq => exact (Nat.compare_swap _ _).symm
  | lt => rfl
  | gt => rfl

theorem orderFinite_swap (s : Bool) (c : Nat) (e : Int) (t : Bool) (d : Nat) (f : Int) :
    orderFinite t d f s c e = (orderFinite s c e t d f).swap := by
  cases c <;> cases d <;> cases s <;> cases t <;> first | rfl | exact orderScaled_swap _ _ _ _

/-- Looked at from the other side the order of two numbers is turned round. -/
theorem order?_swap (x y : Decimal) : y.order? x = (x.order? y).map Ordering.swap := by
  cases x with
  | finite s c e =>
    cases y with
    | finite t d f => exact congrArg some (orderFinite_swap s c e t d f)
    | infinite t => cases t <;> rfl
    | nan => rfl
  | infinite s =>
    cases y with
    | finite => cases s <;> rfl
    | infinite t => cases s <;> cases t <;> rfl
    | nan => rfl
  | nan => cases y <;> rfl

end Decimal

theorem Number.order?_swap (x y : Number) : y.order? x = (x.order? y).map Ordering.swap := by
  have hdecimals := Decimal.order?_swap x.toDecimal y.toDecimal
  cases x with
  | int m =>
    cases y with
    | int n => exact congrArg some (Int.compare_swap m n).symm
    | _ => exact hdecimals
  | _ => cases y <;> exact hdecimals

namespace Value

theorem sameNumber_comm (a b : Option Exact) : sameNumber a b = sameNumber b a := by
  cases a <;> cases b <;> simp [sameNumber, eq_comm]

/-- Where not both are texts, members go by size. -/
theorem precedes_numbers {v w : Value} (h : ¬∃ s t, v = .text s ∧ w = .text t) :
    precedes v w = match v.number?, w.number? with
      | some x, some y => x.lessThan y
      | _, _ => false := by
  cases v with
  | text s =>
    cases w with
    | text t => exact absurd ⟨s, t, rfl, rfl⟩ h
    | _ => rfl
  | _ => rfl

/-- Of two members at most one goes before the other. -/
theorem precedes_asymm {v w : Value} (h : precedes v w = true) : precedes w v = false := by
  by_cases htexts : ∃ s t, v = .text s ∧ w = .text t
  · obtain ⟨s, t, rfl, rfl⟩ := htexts
    have hlt : s < t := by simpa [precedes] using h
    simpa [precedes] using Text.lt_asymm hlt
  · have hswapped : ¬∃ t s, w = .text t ∧ v = .text s :=
      fun ⟨t, s, hw, hv⟩ => htexts ⟨s, t, hv, hw⟩
    rw [precedes_numbers htexts] at h
    rw [precedes_numbers hswapped]
    cases hv : v.number? with
    | none => simp [hv] at h
    | some x =>
      cases hw : w.number? with
      | none => simp [hw] at h
      | some y =>
        simp only [hv, hw, Number.lessThan, decide_eq_true_eq] at h
        simp [Number.lessThan, x.order?_swap y, h]

/-- A row of members of which none precedes the one before it. -/
def Arranged (vs : List Value) : Prop := vs.IsChain fun v w => precedes w v = false

theorem arranged_insertMember (v : Value) {vs : List Value} (h : Arranged vs) :
    Arranged (insertMember v vs) := by
  induction vs with
  | nil => exact .singleton v
  | cons w ws ih =>
    rw [insertMember]
    split
    · rename_i hbefore
      cases ws with
      | nil => exact .cons_cons (precedes_asymm hbefore) (.singleton v)
      | cons x ws =>
        obtain ⟨hwx, hws⟩ := List.isChain_cons_cons.mp h
        have hrest := ih hws
        rw [insertMember] at hrest ⊢
        split at hrest
        · rename_i hx
          rw [if_pos hx]
          exact .cons_cons hwx hrest
        · rename_i hx
          rw [if_neg hx]
          exact .cons_cons (precedes_asymm hbefore) hrest
    · rename_i hnot
      exact .cons_cons (by simpa using hnot) h

theorem arranged_arrange (vs : List Value) : Arranged (arrange vs) := by
  induction vs with
  | nil => exact .nil
  | cons v vs ih => exact arranged_insertMember v ih

/-- Members that are arranged stay where they are. -/
theorem arrange_of_arranged {vs : List Value} (h : Arranged vs) : arrange vs = vs := by
  induction vs with
  | nil => rfl
  | cons v vs ih =>
    cases vs with
    | nil => rfl
    | cons w ws =>
      obtain ⟨hvw, hws⟩ := List.isChain_cons_cons.mp h
      rw [arrange, ih hws, insertMember, hvw]
      rfl

/-- A row of members of which none is the same as an earlier one. -/
def Distinct (vs : List Value) : Prop := vs.Pairwise fun v w => same w v = false

theorem distinct_distinct (vs : List Value) : Distinct (distinct vs) := by
  have hfold : ∀ kept : List Value, Distinct kept → Distinct (vs.foldl
      (fun kept x => if kept.any (same x) then kept else kept ++ [x]) kept) := by
    induction vs with
    | nil => exact fun kept hkept => hkept
    | cons x vs ih =>
      intro kept hkept
      rw [List.foldl_cons]
      split
      · exact ih kept hkept
      · rename_i hnew
        refine ih _ (List.pairwise_append.mpr ⟨hkept, List.pairwise_singleton _ _, ?_⟩)
        intro v hv w hw
        obtain rfl := List.mem_singleton.mp hw
        simpa using fun hsame => hnew (List.any_eq_true.mpr ⟨v, hv, hsame⟩)
  exact hfold [] .nil

/-- Nothing is left out of members that are different. -/
theorem distinct_of_distinct {vs : List Value} (h : Distinct vs) : distinct vs = vs := by
  have hfold : ∀ kept : List Value, Distinct (kept ++ vs) → vs.foldl
      (fun kept x => if kept.any (same x) then kept else kept ++ [x]) kept = kept ++ vs := by
    clear h
    induction vs with
    | nil => simp
    | cons x vs ih =>
      intro kept hkept
      have hnew : ¬kept.any (same x) = true := by
        rw [List.any_eq_true]
        rintro ⟨v, hv, hsame⟩
        have hdistinct := (List.pairwise_append.mp hkept).2.2 v hv x (by simp)
        simp [hsame] at hdistinct
      rw [List.foldl_cons, if_neg hnew, ih _ (by simpa using hkept)]
      simp
  exact hfold [] h

/-- The members of a set made of a row, made a set again, are that set. -/
theorem ofMembers_members (frozen : Bool) {vs : List Value}
    (hsymm : ∀ v ∈ vs, ∀ w ∈ vs, same v w = same w v) :
    ofMembers frozen (arrange (distinct vs)) = ofMembers frozen vs := by
  have hperm := arrange_perm (distinct vs)
  have hdistinct : Distinct (arrange (distinct vs)) := by
    have hpairs := (List.Pairwise.and_mem.mp (distinct_distinct vs)).imp
      fun {v w} ⟨hv, hw, hsame⟩ => And.intro hsame
        ((hsymm v (mem_distinct v hv) w (mem_distinct w hw)).trans hsame)
    exact (hperm.symm.pairwise hpairs And.symm).imp And.left
  rw [ofMembers, distinct_of_distinct hdistinct, arrange_of_arranged (arranged_arrange _), ofMembers]

end Value

end TableGateway
