import TableGateway.Description
import TableGateway.Proofs.RequestFields
import TableGateway.Proofs.Tokens

/-!
# Writes under conditions

A write with conditions carries their expression, in which every leaf stands in parentheses of its own.
The expression is empty just where the conditions have no leaf at all, which a row of empty groups is
enough for: such a row is not empty, so it passes for conditions.
-/
namespace TableGateway

open Entries TableGateway.Tree

/-- Does a text show a condition in its parentheses? -/
def Condition.ShownIn (e : Encoder) (c : Condition) (text : Text) : Prop :=
  ("(" ++ c.fragment e ++ ")").toList <:+: text.toList

theorem Condition.ShownIn.within {e : Encoder} {c : Condition} {text larger : Text}
    (h : c.ShownIn e text) (hlarger : text.toList <:+: larger.toList) : c.ShownIn e larger :=
  h.trans hlarger

namespace Tree

mutual

/-- The text of a tree is empty just where it has no leaf. -/
theorem text_eq_empty (e : Encoder) : (t : Tree) → (text e t = "" ↔ t.leaves = [])
  | leaf c => by simp [text, leaves]
  | group [] _ => by simp [text, joined, leaves, leavesAll]
  | group [t] _ => by
    rw [text, text_eq_empty e t]
    simp [leaves, leavesAll]
  | group (t :: u :: ts) _ => by
    have hinner : joined e "" (t :: u :: ts) = "" ↔ leavesAll (t :: u :: ts) = [] := by
      rw [joined_eq_empty e (t :: u :: ts) "", and_iff_right rfl]
    rw [text, leaves, ← hinner]
    · by_cases hempty : joined e "" (t :: u :: ts) = ""
      · simp [hempty]
      · simp [hempty]
    · simp

theorem joined_eq_empty (e : Encoder) : (ts : List Tree) → (written : Text) →
    (joined e written ts = "" ↔ written = "" ∧ leavesAll ts = [])
  | [], written => by simp [joined, leavesAll]
  | t :: ts, written => by
    have ht := text_eq_empty e t
    rw [joined, joined_eq_empty e ts, leavesAll, List.append_eq_nil_iff, ← ht]
    by_cases hnext : text e t = ""
    · simp [hnext]
    · by_cases hwritten : written = ""
      · simp [hnext, hwritten]
      · simp [hnext, hwritten]

end

theorem expression_eq_empty (e : Encoder) (ts : List Tree) :
    expression e ts = "" ↔ leavesAll ts = [] := by
  rw [expression, joined_eq_empty]
  simp

mutual

theorem shownIn_text (e : Encoder) : (t : Tree) → ∀ c ∈ t.leaves, c.ShownIn e (text e t)
  | leaf c, d, hd => by
    obtain rfl : d = c := by simpa [leaves] using hd
    exact List.infix_rfl
  | group [] _, d, hd => by simp [leaves, leavesAll] at hd
  | group [t] _, d, hd => by
    rw [text]
    exact shownIn_text e t d (by simpa [leaves, leavesAll] using hd)
  | group (t :: u :: ts) _, d, hd => by
    obtain ⟨-, hinner⟩ := shownIn_joined e (t :: u :: ts) ""
    have hd := hinner d hd
    rw [text]
    · have hfull : joined e "" (t :: u :: ts) ≠ "" := by
        intro hempty
        rw [hempty] at hd
        simpa [Condition.ShownIn] using List.infix_nil.mp hd
      rw [if_neg hfull]
      apply hd.within
      exact ⟨['('], [')'], by simp⟩
    · simp

/-- What is written stays there, and each member adds its leaves. -/
theorem shownIn_joined (e : Encoder) : (ts : List Tree) → (written : Text) →
    written.toList <:+: (joined e written ts).toList ∧
      ∀ c ∈ leavesAll ts, c.ShownIn e (joined e written ts)
  | [], written => ⟨List.infix_rfl, by simp [leavesAll]⟩
  | t :: ts, written => by
    have ht := shownIn_text e t
    rw [joined]
    obtain ⟨hwritten, hts⟩ := shownIn_joined e ts
      (if text e t = "" then written
        else if written = "" then text e t
        else written ++ " " ++ t.join.name ++ " " ++ text e t)
    constructor
    · apply List.IsInfix.trans ?_ hwritten
      split
      · exact List.infix_rfl
      · split
        · simp_all
        · exact ⟨[], (" " ++ t.join.name ++ " " ++ text e t).toList, by simp⟩
    · intro c hc
      rcases List.mem_append.mp hc with hc | hc
      · refine (ht c hc).within (List.IsInfix.trans ?_ hwritten)
        split
        · rename_i hempty
          simp [hempty]
        · split
          · exact List.infix_rfl
          · exact ⟨(written ++ " " ++ t.join.name ++ " ").toList, [], by simp⟩
      · exact hts c hc

end

theorem shownIn_expression (e : Encoder) (ts : List Tree) :
    ∀ c ∈ leavesAll ts, c.ShownIn e (expression e ts) :=
  (shownIn_joined e ts "").2

end Tree

/-- Does an expression say what a forest of conditions asks? -/
structure Guards (f : Forest) (text : Text) : Prop where
  unbroken : f.broken = false
  empty_iff : text = "" ↔ leavesAll f.trees = []
  shows : ∀ c ∈ leavesAll f.trees, c.ShownIn .ofCondition text

/-- The clause of conditions that are there. -/
theorem exists_conditionClause {conditions : Value} (hconditions : conditions.truthy = true)
    {c : Option Clause} (h : conditionClause conditions = .ok c) :
    ∃ f clause, Forest.read conditions = .ok f ∧ c = some clause ∧ Guards f clause.expression := by
  rw [conditionClause, if_pos hconditions] at h
  obtain ⟨f, hf, h⟩ := Result.bind_eq_ok.mp h
  obtain ⟨clause, hclause, rfl⟩ := Result.map_eq_ok.mp h
  obtain ⟨-, htext, -, -⟩ := Forest.compile_inv hclause
  obtain ⟨text, hwhole, -⟩ := Result.bind_eq_ok.mp hclause
  refine ⟨f, clause, hf, rfl, (Forest.whole_eq_ok.mp hwhole).2, ?_, ?_⟩
  · rw [htext]
    exact expression_eq_empty _ _
  · rw [htext]
    exact shownIn_expression _ _

/-- Does a request carry the expression of conditions? -/
def Guarded (conditions : Value) (req : Fields) : Prop :=
  ∃ f text, Forest.read conditions = .ok f ∧
    get? req "ConditionExpression" = some (.text text) ∧ Guards f text

theorem guarded_clauseFields {conditions : Value} {base : Fields} {c : Option Clause}
    (hbase : get? base "ConditionExpression" = none) (hconditions : conditions.truthy = true)
    (h : conditionClause conditions = .ok c) :
    Guarded conditions (base ++ clauseFields c "ConditionExpression") := by
  obtain ⟨f, clause, hf, rfl, hguards⟩ := exists_conditionClause hconditions h
  refine ⟨f, clause.expression, hf, ?_, hguards⟩
  rw [get?_append, hbase, Option.none_or, clauseFields, Clause.fields]
  simp

theorem CreateParams.guarded {p : CreateParams} (hconditions : p.conditions.truthy = true)
    {req : Fields} (h : p.request = .ok req) : Guarded p.conditions req := by
  obtain ⟨item, condition, -, hcondition, rfl⟩ := conditioned_inv h
  exact guarded_clauseFields (by simp) hconditions hcondition

theorem DeleteParams.guarded {p : DeleteParams} (hconditions : p.conditions.truthy = true)
    {req : Fields} (h : p.request = .ok req) : Guarded p.conditions req := by
  obtain ⟨key, condition, -, hcondition, rfl⟩ := conditioned_inv h
  exact guarded_clauseFields (by simp) hconditions hcondition

theorem ValidateParams.guarded {p : ValidateParams} (hconditions : p.conditions.truthy = true)
    {req : Fields} (h : p.request = .ok req) : Guarded p.conditions req := by
  obtain ⟨key, condition, -, hcondition, rfl⟩ := conditioned_inv h
  exact guarded_clauseFields (by simp) hconditions hcondition

theorem UpdateParams.guarded {create : SetMaker} {p : UpdateParams}
    (hconditions : p.conditions.truthy = true) {req : Fields} (h : p.requestWith create = .ok req) :
    Guarded p.conditions req := by
  rw [requestWith] at h
  obtain ⟨_, -, h⟩ := Result.bind_eq_ok.mp h
  obtain ⟨condition, hcondition, h⟩ := Result.bind_eq_ok.mp h
  obtain ⟨updateNames, -, h⟩ := Result.bind_eq_ok.mp h
  obtain ⟨names, -, h⟩ := Result.bind_eq_ok.mp h
  obtain ⟨updateValues, -, h⟩ := Result.bind_eq_ok.mp h
  obtain ⟨values, -, h⟩ := Result.bind_eq_ok.mp h
  obtain ⟨key, -, h⟩ := Result.bind_eq_ok.mp h
  obtain ⟨text, -, h⟩ := Result.bind_eq_ok.mp h
  obtain rfl := Except.ok.inj h
  obtain ⟨f, clause, hf, rfl, hguards⟩ := exists_conditionClause hconditions hcondition
  refine ⟨f, clause.expression, hf, ?_, hguards⟩
  cases values.isEmpty with
  | false => simp
  | true => simp

namespace TransactAction

def conditions : TransactAction → Value
  | create p => p.conditions
  | update p => p.conditions
  | delete p => p.conditions
  | validate p => p.conditions

/-- What the envelope of an action is called. -/
def kind : TransactAction → Text
  | create _ => "Put"
  | update _ => "Update"
  | delete _ => "Delete"
  | validate _ => "ConditionCheck"

theorem guarded_envelope {shape : SetShape} {a : TransactAction}
    (hconditions : a.conditions.truthy = true) {v : Value} (h : a.envelope shape = .ok v) :
    ∃ body, v = .map [(a.kind, .map body)] ∧ Guarded a.conditions body := by
  cases a with
  | create p =>
    obtain ⟨body, hbody, h⟩ := Result.bind_eq_ok.mp h
    exact ⟨body, (Except.ok.inj h).symm, p.guarded hconditions hbody⟩
  | update p =>
    obtain ⟨req, hreq, h⟩ := Result.bind_eq_ok.mp h
    obtain ⟨f, text, hf, htext, hguards⟩ := p.guarded hconditions hreq
    refine ⟨_, (Except.ok.inj h).symm, f, text, hf, ?_, hguards⟩
    rw [get?_erase_of_ne req (by decide), htext]
  | delete p =>
    obtain ⟨body, hbody, h⟩ := Result.bind_eq_ok.mp h
    exact ⟨body, (Except.ok.inj h).symm, p.guarded hconditions hbody⟩
  | validate p =>
    obtain ⟨body, hbody, h⟩ := Result.bind_eq_ok.mp h
    exact ⟨body, (Except.ok.inj h).symm, p.guarded hconditions hbody⟩

end TransactAction

/-- Is an action with these conditions in an envelope of its kind that carries them? -/
def GuardedAction (conditions action item : Value) : Prop :=
  ∀ a, TransactAction.ofValue? action = some a → a.conditions = conditions →
    ∃ body, item = .map [(a.kind, .map body)] ∧ Guarded conditions body

theorem Transaction.guarded_build {conditions : Value} (hconditions : conditions.truthy = true)
    {shape : SetShape} {actions : Value} {items : List Value} (h : build shape actions = .ok items) :
    ∃ vs, actions.elements = .ok vs ∧
      List.Forall₂ (GuardedAction conditions) (vs.filter fun v => !v.isNull) items := by
  obtain ⟨vs, hvs, hitems⟩ := build_inv h
  refine ⟨vs, hvs, hitems.imp ?_⟩
  rintro action item ⟨b, hb, henvelope⟩ a ha rfl
  obtain rfl := Option.some.inj (hb.symm.trans ha)
  exact b.guarded_envelope hconditions henvelope

/-- A validation is made of conditions that are there. -/
theorem Description.validation_inv {table key conditions v : Value}
    (h : Description.validation table key conditions = .ok v) :
    conditions.truthy = true ∧
      TransactAction.ofValue? v = some (.validate ⟨table, key, conditions⟩) := by
  rw [Description.validation] at h
  split at h
  · rename_i hconditions
    obtain rfl := Except.ok.inj h
    exact ⟨hconditions, rfl⟩
  · cases h

/-- Writes and checks under conditions carry their expression, which shows all their leaves and is
empty just where they have none. A validation has conditions, be they groups without leaves. -/
theorem conditions_guard (conditions : Value) :
    (∀ table key v : Value, Description.validation table key conditions = .ok v →
      conditions.truthy = true ∧
        TransactAction.ofValue? v = some (.validate ⟨table, key, conditions⟩)) ∧
    (conditions.truthy = true →
      (∀ c, conditionClause conditions = .ok c →
        ∃ f clause, Forest.read conditions = .ok f ∧ c = some clause ∧ Guards f clause.expression) ∧
      (∀ (p : CreateParams) (req : Fields), p.conditions = conditions → p.request = .ok req →
        Guarded conditions req) ∧
      (∀ (p : DeleteParams) (req : Fields), p.conditions = conditions → p.request = .ok req →
        Guarded conditions req) ∧
      (∀ (shape : SetShape) (p : UpdateParams) (req : Fields), p.conditions = conditions →
        p.request shape = .ok req → Guarded conditions req) ∧
      ∀ (shape : SetShape) (actions : Value) (items : List Value),
        Transaction.build shape actions = .ok items → ∃ vs, actions.elements = .ok vs ∧
          List.Forall₂ (GuardedAction conditions) (vs.filter fun v => !v.isNull) items) := by
  refine ⟨fun _ _ _ h => Description.validation_inv h, fun hconditions => ⟨?_, ?_, ?_, ?_, ?_⟩⟩
  · intro c h
    exact exists_conditionClause hconditions h
  · rintro p req rfl h
    exact p.guarded hconditions h
  · rintro p req rfl h
    exact p.guarded hconditions h
  · rintro shape p req rfl h
    exact p.guarded hconditions h
  · intro shape actions items h
    exact Transaction.guarded_build hconditions h

/-- A condition in a group of its own, behind a group without members. -/
def behindEmpty : Value :=
  .tuple [.record .group [.tuple [], .text "and"],
    .record .group [.tuple [Condition.toValue ⟨.text "age", .compare .lowerThan (.int 9), .and⟩],
      .text "or"]]

theorem conditions_guard_behindEmpty :
    let p : CreateParams := ⟨.text "t", .map [("id", .text "a")], behindEmpty⟩
    (∃ req, p.request = .ok req ∧ Guarded behindEmpty req) ∧
      ∃ v items vs, Description.validation (.text "t") (.map [("id", .text "a")]) behindEmpty = .ok v ∧
        TransactAction.ofValue? v =
          some (.validate ⟨.text "t", .map [("id", .text "a")], behindEmpty⟩) ∧
        Transaction.build .set (.list [v]) = .ok items ∧ (Value.list [v]).elements = .ok vs ∧
          List.Forall₂ (GuardedAction behindEmpty) (vs.filter fun v => !v.isNull) items := by
  intro p
  obtain ⟨hvalidation, hwrites⟩ := conditions_guard behindEmpty
  obtain ⟨-, hcreate, -, -, hbuild⟩ := hwrites rfl
  constructor
  · obtain ⟨req, hreq⟩ := Result.exists_of_isOk (x := p.request) (by decide +kernel)
    exact ⟨req, hreq, hcreate p req rfl hreq⟩
  · let v : Value := .record .validate [.text "t", .map [("id", .text "a")], behindEmpty]
    have hv : Description.validation (.text "t") (.map [("id", .text "a")]) behindEmpty = .ok v := rfl
    obtain ⟨items, hitems⟩ :=
      Result.exists_of_isOk (x := Transaction.build .set (.list [v])) (by decide +kernel)
    obtain ⟨vs, hvs, hguarded⟩ := hbuild .set (.list [v]) items hitems
    exact ⟨v, items, vs, hv, (hvalidation _ _ v hv).2, hitems, hvs, hguarded⟩

/-- A group without members alone: a validation of it is made, and checks nothing. -/
theorem empty_group_guards_nothing :
    ∃ v, Description.validation (.text "t") (.map [("id", .text "a")])
        (.list [.record .group [.tuple [], .text "and"]]) = .ok v ∧
      Transaction.build .set (.list [v]) = .ok [.map [("ConditionCheck", .map
        [("TableName", .text "t"), ("Key", .map [("id", .text "a")]),
          ("ConditionExpression", .text ""), ("ExpressionAttributeNames", .map [])])]] :=
  ⟨_, rfl, rfl⟩

end TableGateway
