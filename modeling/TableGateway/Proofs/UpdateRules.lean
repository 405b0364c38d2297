import Mathlib.Data.List.Perm.Basic
import TableGateway.Proofs.Equality
import TableGateway.Proofs.UpdateRequest

/-!
# The rules for updates

An update that can be read breaks one of five rules or none. The first of them that it breaks is what
the check reports, and whether it breaks a rule depends on which properties it changes and tests and on
how often, but not on the order in which they come.
-/
namespace TableGateway.Update

open Entries

/-- What an update asks for, as it is read. -/
structure Proposal where
  sets : Fields
  removed : List Value
  changes : List AtomicOperation
  conditions : List Tree

namespace Proposal

/-- The properties that change, once for each change. A value that is null changes nothing. -/
def touched (p : Proposal) : List Value :=
  (keys (p.sets.filter fun e => !e.2.isNull)).map .text ++ p.removed ++ p.changes.map (·.property)

/-- The properties that are tested, once for each test at whatever depth. -/
def tested (p : Proposal) : List Value := (Tree.leavesAll p.conditions).map (·.property)

end Proposal

/-- A condition, or a description of one, that is read as the tree. -/
def ReadAs (d : Value) (t : Tree) : Prop :=
  ∃ record, Condition.parse d = .ok record ∧ Forest.readTree record = (some t, false)

/-- Is this what the parts of an update are read as? -/
structure Proposal.Of (values remove atomic conditions : Value) (p : Proposal) : Prop where
  sets : values.entriesOrNone = .ok p.sets
  removed : remove.elementsOrNone = .ok p.removed
  changes : ∃ raws, atomic.elementsOrNone = .ok raws ∧
    List.Forall₂ (fun raw o => AtomicOperation.parse raw = .ok o) raws p.changes
  conditions : ∃ ds, conditions.elementsOrNone = .ok ds ∧ List.Forall₂ ReadAs ds p.conditions

/-- Does the same stand at two places? -/
def Repeats (vs : List Value) : Prop := ∃ v w, [v, w].Sublist vs ∧ Value.same v w

/-- Can a value be a name? Every text can. -/
structure Nameable (v : Value) : Prop where
  hashable : v.hashable
  keyed : v.Keyed

/-- Each flaw with what it is that is wrong, in the order of the rules. -/
def rules (key : Fields) (p : Proposal) : List (UpdateFlaw × Prop) :=
  [(.invalidKey, ¬(key.length = 1 ∨ key.length = 2)),
    (.noMutation, p.touched = []),
    (.keyPropertyUpdated, ∃ name ∈ keys key, .text name ∈ p.touched),
    (.overlappingProperties, Repeats p.touched),
    (.duplicateCondition, Repeats p.tested)]

/-- The outcome of a check of rules one after the other. -/
inductive Judged : List (UpdateFlaw × Prop) → Result Unit → Prop where
  | accepted : Judged [] (.ok ())
  | broken {flaw : UpdateFlaw} {wrong : Prop} (h : wrong) (rest : List (UpdateFlaw × Prop)) :
    Judged ((flaw, wrong) :: rest) (.error (.malformedUpdate flaw))
  | kept {flaw : UpdateFlaw} {wrong : Prop} (h : ¬wrong) {rest : List (UpdateFlaw × Prop)}
    {outcome : Result Unit} (judged : Judged rest outcome) : Judged ((flaw, wrong) :: rest) outcome

namespace Judged

variable {rs ss : List (UpdateFlaw × Prop)} {outcome outcome' : Result Unit}

theorem eq_ok_iff (h : Judged rs outcome) : outcome = .ok () ↔ ∀ r ∈ rs, ¬r.2 := by
  induction h with
  | accepted => simp
  | broken h => simp [h]
  | kept h _ ih => rw [ih, List.forall_mem_cons, and_iff_right h]

theorem eq_error_iff (h : Judged rs outcome) (fault : Fault) :
    outcome = .error fault ↔ ∃ before r after, rs = before ++ r :: after ∧
      (∀ q ∈ before, ¬q.2) ∧ r.2 ∧ fault = .malformedUpdate r.1 := by
  induction h with
  | accepted => simp
  | @broken flaw wrong h rest =>
    constructor
    · intro hfault
      exact ⟨[], (flaw, wrong), rest, rfl, by simp, h, (Except.error.inj hfault).symm⟩
    · rintro ⟨before, r, after, hrs, hbefore, -, rfl⟩
      cases before with
      | nil => obtain ⟨rfl, -⟩ := List.cons.inj hrs; rfl
      | cons q before =>
        obtain ⟨rfl, -⟩ := List.cons.inj hrs
        exact absurd h (hbefore _ List.mem_cons_self)
  | @kept flaw wrong h rest outcome _ ih =>
    rw [ih]
    constructor
    · rintro ⟨before, r, after, rfl, hbefore, hr⟩
      exact ⟨(flaw, wrong) :: before, r, after, rfl, List.forall_mem_cons.mpr ⟨h, hbefore⟩, hr⟩
    · rintro ⟨before, r, after, hrs, hbefore, hr⟩
      cases before with
      | nil => obtain ⟨rfl, -⟩ := List.cons.inj hrs; exact absurd hr.1 h
      | cons q before =>
        obtain ⟨rfl, rfl⟩ := List.cons.inj hrs
        exact ⟨before, r, after, rfl, (List.forall_mem_cons.mp hbefore).2, hr⟩

/-- Rules that are broken alike have one outcome. -/
theorem congr (h : Judged rs outcome) (h' : Judged ss outcome')
    (halike : List.Forall₂ (fun r s => r.1 = s.1 ∧ (r.2 ↔ s.2)) rs ss) : outcome = outcome' := by
  induction h generalizing ss with
  | accepted =>
    cases halike
    cases h'
    rfl
  | broken h =>
    obtain ⟨s, ss, ⟨rfl, hwrong⟩, -, rfl⟩ := List.forall₂_cons_left_iff.mp halike
    cases h' with
    | broken => rfl
    | kept h' => exact absurd (hwrong.mp h) h'
  | kept h _ ih =>
    obtain ⟨s, ss, ⟨-, hwrong⟩, hrest, rfl⟩ := List.forall₂_cons_left_iff.mp halike
    cases h' with
    | broken h' => exact absurd (hwrong.mpr h') h
    | kept _ judged => exact ih judged hrest

/-- A check of one rule before the check of the others. -/
theorem check {flaw : UpdateFlaw} {c wrong : Prop} [Decidable c] (hc : c ↔ wrong)
    (h : Judged rs outcome) : Judged ((flaw, wrong) :: rs) (if c then refuseFlaw flaw else outcome) := by
  by_cases hbroken : c
  · rw [if_pos hbroken]
    exact .broken (hc.mp hbroken) rs
  · rw [if_neg hbroken]
    exact .kept (mt hc.mpr hbroken) h

end Judged

theorem refuseFlaw_bind {α β : Type} (flaw : UpdateFlaw) (go : α → Result β) :
    (refuseFlaw flaw >>= go) = refuseFlaw flaw := rfl

/-! Names. -/

theorem nameable_text (s : Text) : Nameable (.text s) where
  hashable := rfl
  keyed := Value.keyed_of_parts (by simp) (by simp [Value.parts])

theorem hasRepeats_iff (vs : List Value) : hasRepeats vs ↔ Repeats vs := by
  induction vs with
  | nil => simp [hasRepeats, Repeats]
  | cons x xs ih =>
    rw [hasRepeats, Bool.or_eq_true, ih, List.any_eq_true]
    constructor
    · rintro (⟨w, hw, hsame⟩ | ⟨v, w, hsub, hsame⟩)
      · exact ⟨x, w, (List.singleton_sublist.mpr hw).cons_cons x, hsame⟩
      · exact ⟨v, w, hsub.cons x, hsame⟩
    · rintro ⟨v, w, hsub, hsame⟩
      cases hsub with
      | cons _ hsub => exact .inr ⟨v, w, hsub, hsame⟩
      | cons_cons _ hsub => exact .inl ⟨w, List.singleton_sublist.mp hsub, hsame⟩

theorem repeats_eq {vs : List Value} (h : ∀ v ∈ vs, Nameable v) : repeats vs = .ok (hasRepeats vs) :=
  if_pos ((Value.allHashable_iff vs).mpr fun v hv => (h v hv).hashable)

theorem not_repeats_iff (vs : List Value) :
    ¬Repeats vs ↔ vs.Pairwise fun v w => ¬Value.same v w := by
  simp only [Repeats, List.pairwise_iff_forall_sublist, not_exists, not_and]

theorem repeats_of_perm {vs ws : List Value} (hp : vs.Perm ws) (h : ∀ v ∈ vs, Nameable v) :
    Repeats vs ↔ Repeats ws := by
  have hws : ∀ w ∈ ws, Nameable w := fun w hw => h w (hp.mem_iff.mpr hw)
  rw [← not_iff_not, not_repeats_iff, not_repeats_iff]
  -- A pair may have changed places, so sameness has to be symmetric.
  constructor
  · exact Value.pairwise_of_perm hp fun v hv w hw =>
      mt (Value.same_symm (h w hw).keyed (h v hv).keyed)
  · exact Value.pairwise_of_perm hp.symm fun v hv w hw =>
      mt (Value.same_symm (hws w hw).keyed (hws v hv).keyed)

/-! Readings. -/

theorem exists_records {ds : List Value} {ts : List Tree} (h : List.Forall₂ ReadAs ds ts) :
    ∃ records, Condition.parseAll ds = .ok records ∧ Forest.readTrees records = (ts, false) := by
  induction h with
  | nil => exact ⟨[], rfl, rfl⟩
  | cons hfirst _ ih =>
    obtain ⟨record, hparse, htree⟩ := hfirst
    obtain ⟨records, hparses, htrees⟩ := ih
    refine ⟨record :: records, ?_, ?_⟩
    · rw [Condition.parseAll, hparse, Result.ok_bind, hparses]
      rfl
    · rw [Forest.readTrees, htree, htrees]
      rfl

theorem read_eq {conditions : Value} {ds : List Value} {ts : List Tree}
    (hds : conditions.elements = .ok ds) (h : List.Forall₂ ReadAs ds ts) :
    Forest.read conditions = .ok ⟨ts, false⟩ := by
  obtain ⟨records, hparse, htrees⟩ := exists_records h
  rw [Forest.read, hds, Result.ok_bind, hparse, Result.ok_bind, Forest.ofRecords, htrees]
  rfl

theorem leavesAll_eq (ts : List Tree) : Tree.leavesAll ts = ts.flatMap Tree.leaves := by
  induction ts with
  | nil => rfl
  | cons t ts ih => rw [Tree.leavesAll, List.flatMap_cons, ih]

/-- What is read of the one is what is read of the other in some order. -/
def Reordered {α : Type} (read : Value → Result (List α)) (v w : Value) : Prop :=
  ∃ xs ys, read v = .ok xs ∧ read w = .ok ys ∧ xs.Perm ys

namespace Proposal

variable {key : Fields} {values remove atomic conditions : Value} {p : Proposal}

theorem Of.touched_eq (h : p.Of values remove atomic conditions) :
    Update.touched values remove atomic = .ok p.touched := by
  obtain ⟨raws, hraws, hchanges⟩ := h.changes
  rw [Update.touched, assignments, h.sets, removals, h.removed, operations, hraws]
  simp only [Result.ok_bind, Result.mapM_of_forall₂ hchanges, Result.pure_eq, touched]

theorem Of.conditionProperties_eq (h : p.Of values remove atomic conditions) :
    conditionProperties conditions = .ok p.tested := by
  obtain ⟨ds, hds, hread⟩ := h.conditions
  rw [Value.elementsOrNone] at hds
  rw [conditionProperties]
  split at hds
  · rw [if_pos ‹_›, read_eq hds hread]
    rfl
  · obtain rfl := Except.ok.inj hds
    rw [if_neg ‹_›, tested, List.forall₂_nil_left_iff.mp hread]
    rfl

theorem Of.judged (h : p.Of values remove atomic conditions)
    (hnames : ∀ v ∈ p.touched ++ p.tested, Nameable v) :
    Judged (rules key p) (validate (.map key) values remove atomic conditions) := by
  obtain ⟨htouched, htested⟩ := List.forall_mem_append.mp hnames
  have hcontains := anyM_contains_eq key fun v hv => (htouched v hv).hashable
  have hsize : (Value.map key).size = .ok key.length := by simp [Value.size, Value.elements?]
  simp only [validate, hsize, h.touched_eq, h.conditionProperties_eq, hcontains,
    repeats_eq htouched, repeats_eq htested, Result.ok_bind, refuseFlaw_bind]
  -- One test of the chain for each rule, in the order in which they are listed.
  refine .check (by omega) (.check List.isEmpty_iff (.check (any_has_iff key p.touched) ?_))
  exact .check (hasRepeats_iff p.touched) (.check (hasRepeats_iff p.tested) .accepted)

/-- Two updates that change and test the same properties as often have one outcome. -/
theorem Of.validate_congr {values' remove' atomic' conditions' : Value} {p' : Proposal}
    (h : p.Of values remove atomic conditions) (h' : p'.Of values' remove' atomic' conditions')
    (hnames : ∀ v ∈ p.touched ++ p.tested, Nameable v) (htouched : p.touched.Perm p'.touched)
    (htested : p.tested.Perm p'.tested) :
    validate (.map key) values remove atomic conditions =
      validate (.map key) values' remove' atomic' conditions' := by
  obtain ⟨hnamed, hnamed'⟩ := List.forall_mem_append.mp hnames
  have hnames' : ∀ v ∈ p'.touched ++ p'.tested, Nameable v := fun v hv =>
    hnames v ((htouched.append htested).mem_iff.mpr hv)
  refine (h.judged hnames).congr (h'.judged hnames')
    (.cons ⟨rfl, .rfl⟩ (.cons ⟨rfl, ?_⟩ (.cons ⟨rfl, ?_⟩ (.cons ⟨rfl, ?_⟩ (.cons ⟨rfl, ?_⟩ .nil)))))
  · exact ⟨fun hnil => (hnil ▸ htouched).nil_eq.symm, fun hnil => (hnil ▸ htouched).eq_nil⟩
  · simp only [htouched.mem_iff]
  · exact repeats_of_perm htouched hnamed
  · exact repeats_of_perm htested hnamed'

/-- What is read of a row in another order. -/
theorem Of.reordered {values' remove' atomic' conditions' : Value}
    (h : p.Of values remove atomic conditions)
    (hvalues : Reordered Value.entriesOrNone values values')
    (hremove : Reordered Value.elementsOrNone remove remove')
    (hatomic : Reordered Value.elementsOrNone atomic atomic')
    (hconditions : Reordered Value.elementsOrNone conditions conditions') :
    ∃ p' : Proposal, p'.Of values' remove' atomic' conditions' ∧ p.touched.Perm p'.touched ∧
      p.tested.Perm p'.tested := by
  obtain ⟨sets, sets', hsets, hsets', hsetsPerm⟩ := hvalues
  obtain ⟨removed, removed', hremoved, hremoved', hremovedPerm⟩ := hremove
  obtain ⟨raws, raws', hraws, hraws', hrawsPerm⟩ := hatomic
  obtain ⟨ds, ds', hds, hds', hdsPerm⟩ := hconditions
  obtain rfl := Except.ok.inj (hsets.symm.trans h.sets)
  obtain rfl := Except.ok.inj (hremoved.symm.trans h.removed)
  obtain ⟨_, hraws₁, hparse⟩ := h.changes
  obtain rfl := Except.ok.inj (hraws.symm.trans hraws₁)
  obtain ⟨_, hds₁, hread⟩ := h.conditions
  obtain rfl := Except.ok.inj (hds.symm.trans hds₁)
  -- What is read of a member goes where the member goes.
  obtain ⟨changes', hparse', hchangesPerm⟩ := List.perm_comp_forall₂ hrawsPerm.symm hparse
  obtain ⟨ts', hread', htsPerm⟩ := List.perm_comp_forall₂ hdsPerm.symm hread
  refine ⟨⟨sets', removed', changes', ts'⟩,
    ⟨hsets', hremoved', ⟨raws', hraws', hparse'⟩, ds', hds', hread'⟩, ?_, ?_⟩
  · exact ((((hsetsPerm.filter _).map _).map _).append hremovedPerm).append
      (hchangesPerm.symm.map _)
  · rw [tested, tested, leavesAll_eq, leavesAll_eq]
    exact (htsPerm.symm.flatMap_right _).map _

end Proposal

/-- Is the outcome that of the first rule that is broken? -/
structure Ruled (key : Fields) (p : Proposal) (outcome : Result Unit) : Prop where
  reasons : (rules key p).map (fun r => r.1.reason) =
    (["invalid_key", "no_mutation", "key_property_updated", "overlapping_properties",
      "duplicate_condition"] : List Text).map .text
  accepted : outcome = .ok () ↔ ∀ r ∈ rules key p, ¬r.2
  refused : ∀ fault, outcome = .error fault ↔ ∃ before r after, rules key p = before ++ r :: after ∧
    (∀ q ∈ before, ¬q.2) ∧ r.2 ∧ fault = .malformedUpdate r.1

/-- An update that can be read goes through where it breaks no rule, and otherwise the first rule that
it breaks is reported. The order of its parts makes no difference, at whatever depth. -/
theorem validate_by_rules (key : Fields) {values remove atomic conditions : Value} {p : Proposal}
    (h : p.Of values remove atomic conditions)
    (hnames : ∀ v ∈ p.touched ++ p.tested, Nameable v) :
    Ruled key p (validate (.map key) values remove atomic conditions) ∧
      (∀ values' remove' atomic' conditions', Reordered Value.entriesOrNone values values' →
        Reordered Value.elementsOrNone remove remove' → Reordered Value.elementsOrNone atomic atomic' →
        Reordered Value.elementsOrNone conditions conditions' →
        validate (.map key) values' remove' atomic' conditions' =
          validate (.map key) values remove atomic conditions) ∧
      ∀ values' remove' atomic' conditions' p', Proposal.Of values' remove' atomic' conditions' p' →
        p.touched.Perm p'.touched → p.tested.Perm p'.tested →
        validate (.map key) values' remove' atomic' conditions' =
          validate (.map key) values remove atomic conditions := by
  have hjudged : Judged (rules key p) (validate (.map key) values remove atomic conditions) :=
    h.judged hnames
  refine ⟨⟨rfl, hjudged.eq_ok_iff, hjudged.eq_error_iff⟩, ?_, ?_⟩
  · intro values' remove' atomic' conditions' hvalues hremove hatomic hconditions
    obtain ⟨p', h', htouched, htested⟩ := h.reordered hvalues hremove hatomic hconditions
    exact (h.validate_congr h' hnames htouched htested).symm
  · intro values' remove' atomic' conditions' p' h' htouched htested
    exact (h.validate_congr h' hnames htouched htested).symm

/-- Sets, removes and adds, and tests one property twice, of which once in a group. -/
def twiceTested : Proposal :=
  let group : Tree := .group [.leaf ⟨.text "x", .present, .and⟩, .leaf ⟨.text "y", .present, .and⟩] .and
  { sets := [("a", .null), ("b", .int 1)]
    removed := [.text "c"]
    changes := [⟨.text "n", .sum, .int 1, .null⟩]
    conditions := [group, .leaf ⟨.text "y", .absent, .or⟩] }

def conditionGroup : Value :=
  .map [("property", .text "x"), ("operation", .text "exists"),
    ("nested", .list [.map [("property", .text "y"), ("operation", .text "exists")]])]

def conditionAlone : Value := Condition.toValue ⟨.text "y", .absent, .or⟩

theorem validate_by_rules_twiceTested :
    let values : Value := .map twiceTested.sets
    let values' : Value := .map twiceTested.sets.reverse
    let remove : Value := .tuple twiceTested.removed
    let atomic : Value :=
      .list [.map [("property", .text "n"), ("type", .text "sum"), ("value", .int 1)]]
    let conditions : Value := .list [conditionGroup, conditionAlone]
    let conditions' : Value := .tuple [conditionAlone, conditionGroup]
    twiceTested.Of values remove atomic conditions ∧
      (∀ v ∈ twiceTested.touched ++ twiceTested.tested, Nameable v) ∧
      Ruled [("id", .int 7)] twiceTested
        (validate (.map [("id", .int 7)]) values remove atomic conditions) ∧
      validate (.map [("id", .int 7)]) values remove atomic conditions =
        .error (.malformedUpdate .duplicateCondition) ∧
      validate (.map [("id", .int 7)]) values' remove atomic conditions' =
        .error (.malformedUpdate .duplicateCondition) := by
  intro values values' remove atomic conditions conditions'
  have hof : twiceTested.Of values remove atomic conditions :=
    ⟨rfl, rfl, ⟨_, rfl, .cons rfl .nil⟩, _, rfl, .cons ⟨_, rfl, rfl⟩ (.cons ⟨_, rfl, rfl⟩ .nil)⟩
  have hnames : ∀ v ∈ twiceTested.touched ++ twiceTested.tested, Nameable v := by
    simp [twiceTested, Proposal.touched, Proposal.tested, Value.isNull, keys, Tree.leavesAll,
      Tree.leaves, nameable_text, Value.int]
  obtain ⟨hruled, hreordered, -⟩ := validate_by_rules [("id", .int 7)] hof hnames
  have hrefused : validate (.map [("id", .int 7)]) values remove atomic conditions =
      .error (.malformedUpdate .duplicateCondition) := rfl
  refine ⟨hof, hnames, hruled, hrefused, ?_⟩
  rw [hreordered values' remove atomic conditions' ⟨_, _, rfl, rfl, (List.reverse_perm _).symm⟩
    ⟨_, _, rfl, rfl, .refl _⟩ ⟨_, _, rfl, rfl, .refl _⟩ ⟨_, _, rfl, rfl, .swap _ _ _⟩, hrefused]

end TableGateway.Update
