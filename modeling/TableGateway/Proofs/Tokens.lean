import Mathlib.Data.List.Forall2
import TableGateway.Proofs.Bindings
import TableGateway.Proofs.ExpressionText

/-!
# Tokens in expressions

A token in a text is a '#' or a ':' with what stands behind it up to the next mark. The tokens in an
expression are those of its conditions, one after the other, and the two maps that go with it have
just these tokens as keys: names stand for properties and values for operands.
-/
namespace TableGateway

namespace Grammar

/-- The tokens that begin with a character, in the order in which they stand in a text. -/
def tokensOf (m : Letter) : List Letter → List Text
  | [] => []
  | c :: cs =>
    if c = m then Text.ofList (c :: cs.takeWhile fun d => !isMark d) :: tokensOf m cs
    else tokensOf m cs

theorem takeWhile_marked (a : List Letter) {r : List Letter} (hr : Marked r) :
    (a ++ r).takeWhile (fun d => !isMark d) = a.takeWhile fun d => !isMark d := by
  induction a with
  | nil =>
    cases r with
    | nil => rfl
    | cons c r => simp [hr c rfl]
  | cons c a ih => by_cases hc : isMark c <;> simp [hc, ih]

/-- A text that goes on with a mark has the tokens of both parts. -/
theorem tokensOf_append (m : Letter) (a : List Letter) {r : List Letter} (hr : Marked r) :
    tokensOf m (a ++ r) = tokensOf m a ++ tokensOf m r := by
  induction a with
  | nil => rfl
  | cons c a ih => by_cases hc : c = m <;> simp [tokensOf, hc, ih, takeWhile_marked a hr]

theorem tokensOf_free {m : Letter} {a : List Letter} (h : m ∉ a) (r : List Letter) :
    tokensOf m (a ++ r) = tokensOf m r := by
  induction a with
  | nil => rfl
  | cons c a ih =>
    simp only [List.mem_cons, not_or] at h
    rw [List.cons_append, tokensOf, if_neg (Ne.symm h.1), ih h.2]

theorem tokensOf_eq_nil {m : Letter} {a : List Letter} (h : m ∉ a) : tokensOf m a = [] := by
  simpa [tokensOf] using tokensOf_free h []

theorem notMem_of_plain {m : Letter} (hm : isMark m = true) {b : Text} (hb : Plain b) :
    m ∉ b.toList := by
  intro h
  simp [hb m h] at hm

/-- A token is read back where a mark or nothing follows it. -/
theorem tokensOf_token {m : Letter} (hm : isMark m = true) {b : Text} (hb : Plain b)
    {r : List Letter} (hr : Marked r) :
    tokensOf m (m :: (b.toList ++ r)) = (Text.singleton m ++ b) :: tokensOf m r := by
  have hbody : (b.toList ++ r).takeWhile (fun d => !isMark d) = b.toList := by
    rw [List.takeWhile_append_of_pos (by intro c hc; simp [hb c hc])]
    cases r with
    | nil => simp
    | cons c r => simp [hr c rfl]
  have htoken : Text.ofList (m :: b.toList) = Text.singleton m ++ b := by
    rw [← Text.toList_inj]
    simp
  rw [tokensOf, if_pos rfl, hbody, htoken, tokensOf_free (notMem_of_plain hm hb)]

/-- Tokens between which a text with no token of their kind stands. -/
theorem tokensOf_intercalate {separator : Text} (hs : Marked separator.toList)
    (hne : separator.toList ≠ []) (hfree : Letter.char ':' ∉ separator.toList)
    {bodies : List Text} (hb : ∀ b ∈ bodies, Plain b) {r : List Letter} (hr : Marked r) :
    tokensOf ':' ((separator.intercalate (bodies.map ((":" : Text) ++ ·))).toList ++ r) =
      bodies.map ((":" : Text) ++ ·) ++ tokensOf ':' r := by
  have hcolon : Text.singleton ':' = ":" := rfl
  induction bodies with
  | nil => simp
  | cons b bs ih =>
    have hplain := hb b (by simp)
    have hrest := ih fun b' hb' => hb b' (by simp [hb'])
    cases bs with
    | nil =>
      have htoken := tokensOf_token (m := ':') rfl hplain hr
      rw [hcolon] at htoken
      simpa using htoken
    | cons b' bs =>
      obtain ⟨c, cs, hcs⟩ := List.exists_cons_of_ne_nil hne
      have hmark : Marked (separator.toList ++
          ((separator.intercalate ((b' :: bs).map ((":" : Text) ++ ·))).toList ++ r)) := by
        rw [hcs] at hs ⊢
        exact marked_cons _ (hs c rfl)
      have hhead := tokensOf_token (m := ':') rfl hplain hmark
      rw [tokensOf_free hfree, hrest, hcolon] at hhead
      rw [List.map_cons, List.map_cons, Text.intercalate_cons_cons, ← List.map_cons]
      simpa [List.append_assoc] using hhead

end Grammar

open Grammar

/-- The operands of a test in their order. -/
def Test.operands : Test → List Value
  | .compare _ v => [v]
  | .present | .absent => []
  | .oneOf vs | .noneOf vs => vs
  | .between low high => [low, high]

namespace Condition

/-- The bodies of the value tokens of a condition. -/
def bodies (e : Encoder) (c : Condition) : List Text :=
  let body := e.token c.property.display
  match c.test with
  | .compare .. => [body]
  | .present | .absent => []
  | .oneOf vs | .noneOf vs => (List.range vs.length).map fun i => body ++ "_" ++ toString i
  | .between .. => [body ++ "_start", body ++ "_end"]

theorem plain_bodies {e : Encoder} {c : Condition} (h : Plain (e.token c.property.display)) :
    ∀ b ∈ c.bodies e, Plain b := by
  obtain ⟨property, test, join⟩ := c
  have indexed : ∀ i : Nat, Plain (e.token property.display ++ "_" ++ toString i) := fun i =>
    plain_append (plain_append h (by simp [Plain, isMark])) (plain_toString i)
  have start : Plain (e.token property.display ++ "_start") :=
    plain_append h (by simp [Plain, isMark])
  have stop : Plain (e.token property.display ++ "_end") :=
    plain_append h (by simp [Plain, isMark])
  cases test <;> simp_all [bodies]

theorem memberValues_eq (e : Encoder) (property : Text) (n : Nat) :
    e.memberValues property n =
      ((List.range n).map fun i => e.token property ++ "_" ++ toString i).map ((":" : Text) ++ ·) := by
  rw [Encoder.memberValues, List.map_map]
  apply List.map_congr_left
  intro i hi
  simp [Encoder.memberValue, Encoder.value, Text.append_assoc]

theorem valueBindings_tokens (e : Encoder) (c : Condition) :
    (c.valueBindings e).map Prod.fst = (c.bodies e).map ((":" : Text) ++ ·) := by
  obtain ⟨property, test, join⟩ := c
  cases test with
  | oneOf vs | noneOf vs =>
    rw [valueBindings, List.map_fst_zip (by simp [Encoder.memberValues]), memberValues_eq]
    rfl
  | _ =>
    simp [valueBindings, bodies, Encoder.value, Encoder.lowValue, Encoder.highValue,
      Text.append_assoc]

theorem valueBindings_operands (e : Encoder) (c : Condition) :
    (c.valueBindings e).map Prod.snd = c.test.operands := by
  obtain ⟨property, test, join⟩ := c
  cases test with
  | oneOf vs | noneOf vs =>
    rw [valueBindings, List.map_snd_zip (by simp [Encoder.memberValues])]
    rfl
  | _ => rfl

theorem operand_of_mem_valueBindings {e : Encoder} {c : Condition} {b : Text × Value}
    (hb : b ∈ c.valueBindings e) : b.2 ∈ c.test.operands :=
  c.valueBindings_operands e ▸ List.mem_map_of_mem hb

/-- The text of a condition is that of its operation around its own tokens. -/
theorem fragment_eq (e : Encoder) (c : Condition) :
    c.fragment e =
      (template c.test.operation).opening ++ ("#" ++ e.token c.property.display)
        ++ (template c.test.operation).middle
        ++ (template c.test.operation).separator.intercalate ((c.bodies e).map ((":" : Text) ++ ·))
        ++ (template c.test.operation).closing := by
  obtain ⟨property, test, join⟩ := c
  cases test with
  | compare how v =>
    cases how <;>
      simp [fragment, bodies, Encoder.name, Encoder.value, Test.operation, Comparison.operation,
        template, Text.append_assoc]
  | oneOf vs | noneOf vs =>
    simp [fragment, bodies, Encoder.name, memberValues_eq, Test.operation, template,
      Text.append_assoc, Function.comp_def]
  | _ =>
    simp [fragment, bodies, Encoder.name, Encoder.lowValue, Encoder.highValue, Encoder.value,
      Test.operation, template, Text.intercalate_cons_cons, Text.append_assoc,
      Text.whole_append_append]

theorem opening_notMem (o : Operation) {m : Letter} (hm : m = '#' ∨ m = ':') :
    m ∉ (template o).opening.toList := by
  rcases hm with rfl | rfl <;> cases o <;> simp [template]

theorem middle_notMem (o : Operation) {m : Letter} (hm : m = '#' ∨ m = ':') :
    m ∉ (template o).middle.toList := by
  rcases hm with rfl | rfl <;> cases o <;> simp [template]

theorem separator_notMem (o : Operation) {m : Letter} (hm : m = '#' ∨ m = ':') :
    m ∉ (template o).separator.toList := by
  rcases hm with rfl | rfl <;> cases o <;> simp [template]

theorem closing_notMem (o : Operation) {m : Letter} (hm : m = '#' ∨ m = ':') :
    m ∉ (template o).closing.toList := by
  rcases hm with rfl | rfl <;> cases o <;> simp [template]

theorem closing_marked (o : Operation) : Marked (template o).closing.toList := by
  cases o <;> simp [template, Marked, isMark]

theorem separator_marked (o : Operation) : Marked (template o).separator.toList := by
  obtain ⟨c, cs, hcs, hc, -⟩ := separator_head o
  rw [hcs]
  exact marked_cons _ hc

theorem separator_ne_nil (o : Operation) : (template o).separator.toList ≠ [] := by
  obtain ⟨c, cs, hcs, -⟩ := separator_head o
  simp [hcs]

/-- The value tokens of a condition with what stands between them. -/
def valueText (e : Encoder) (c : Condition) : List Letter :=
  ((template c.test.operation).separator.intercalate ((c.bodies e).map ((":" : Text) ++ ·))).toList

theorem fragment_toList (e : Encoder) (c : Condition) :
    (c.fragment e).toList = (template c.test.operation).opening.toList ++
      .char '#' :: ((e.token c.property.display).toList ++ ((template c.test.operation).middle.toList ++
        (c.valueText e ++ (template c.test.operation).closing.toList))) := by
  rw [fragment_eq, valueText]
  simp [Text.toList_append, List.append_assoc]

theorem valueText_marked (e : Encoder) (c : Condition) {r : List Letter} (hr : Marked r) :
    Marked (c.valueText e ++ r) := by
  rw [valueText]
  cases c.bodies e with
  | nil => simpa using hr
  | cons b bs =>
    cases bs with
    | nil => simpa using marked_cons _ rfl
    | cons b' bs => simpa [Text.intercalate_cons_cons] using marked_cons _ rfl

theorem valueText_notMem {e : Encoder} {c : Condition}
    (h : Plain (e.token c.property.display)) : Letter.char '#' ∉ c.valueText e := by
  have hbodies : ∀ b ∈ c.bodies e, Letter.char '#' ∉ b.toList := fun b hb =>
    notMem_of_plain rfl (plain_bodies h b hb)
  rw [valueText]
  generalize c.bodies e = bodies at hbodies
  induction bodies with
  | nil => simp
  | cons b bs ih =>
    have hb := hbodies b (by simp)
    have hrest := ih fun b' hb' => hbodies b' (by simp [hb'])
    cases bs with
    | nil => simpa using hb
    | cons b' bs =>
      rw [List.map_cons, List.map_cons, Text.intercalate_cons_cons, ← List.map_cons]
      simp only [Text.toList_append, List.mem_append, not_or]
      exact ⟨⟨⟨by simp, hb⟩, separator_notMem _ (.inl rfl)⟩, hrest⟩

/-- The one name token in the text of a condition is that of its property. -/
theorem tokensOf_fragment_name {e : Encoder} {c : Condition}
    (h : Plain (e.token c.property.display)) :
    tokensOf '#' (c.fragment e).toList = [e.name c.property.display] := by
  have hbehind : Letter.char '#' ∉ (template c.test.operation).middle.toList ++
      (c.valueText e ++ (template c.test.operation).closing.toList) := by
    simp [middle_notMem, closing_notMem, valueText_notMem h]
  have hmarked : Marked ((template c.test.operation).middle.toList ++
      (c.valueText e ++ (template c.test.operation).closing.toList)) :=
    middle_marked _ (valueText_marked e c (closing_marked _))
  rw [fragment_toList, tokensOf_free (opening_notMem _ (.inl rfl)), tokensOf_token rfl h hmarked,
    tokensOf_eq_nil hbehind]
  rfl

/-- The value tokens in the text of a condition are those of its operands. -/
theorem tokensOf_fragment_values {e : Encoder} {c : Condition}
    (h : Plain (e.token c.property.display)) :
    tokensOf ':' (c.fragment e).toList = (c.valueBindings e).map Prod.fst := by
  have hname : Letter.char ':' ∉ .char '#' :: (e.token c.property.display).toList := by
    simpa using notMem_of_plain (m := ':') rfl h
  rw [fragment_toList, tokensOf_free (opening_notMem _ (.inr rfl)), ← List.cons_append,
    tokensOf_free hname, tokensOf_free (middle_notMem _ (.inr rfl)), valueText,
    tokensOf_intercalate (separator_marked _) (separator_ne_nil _) (separator_notMem _ (.inr rfl))
      (plain_bodies h) (closing_marked _),
    tokensOf_eq_nil (closing_notMem _ (.inr rfl)), valueBindings_tokens, List.append_nil]

/-- Place by place the value tokens stand for the operands, if each is bound to something like its
operand. -/
theorem operands_stand {e : Encoder} {c : Condition} (h : Plain (e.token c.property.display))
    {alike : Value → Value → Prop} {m : Fields}
    (hs : ∀ b ∈ c.valueBindings e, Placeholder.Stands alike m b.1 b.2) :
    List.Forall₂ (Placeholder.Stands alike m) (tokensOf ':' (c.fragment e).toList)
      c.test.operands := by
  rw [tokensOf_fragment_values h, ← c.valueBindings_operands e, List.forall₂_map_left_iff,
    List.forall₂_map_right_iff, List.forall₂_same]
  exact hs

end Condition

namespace Tree

theorem tokensOf_parenthesized {m : Letter} (hm : m = '#' ∨ m = ':') (s : Text) :
    tokensOf m ("(" ++ s ++ ")").toList = tokensOf m s.toList := by
  have hopen : m ∉ [.char '('] := by rcases hm with rfl | rfl <;> decide
  have hclose : m ∉ [.char ')'] := by rcases hm with rfl | rfl <;> decide
  have htext : ("(" ++ s ++ ")").toList = [.char '('] ++ (s.toList ++ [.char ')']) := by simp
  rw [htext, tokensOf_free hopen, tokensOf_append m _ (marked_cons [] rfl), tokensOf_eq_nil hclose,
    List.append_nil]

theorem tokensOf_join {m : Letter} (hm : m = '#' ∨ m = ':') (s : Text) (j : Join) (t : Text) :
    tokensOf m (s ++ " " ++ j.name ++ " " ++ t).toList =
      tokensOf m s.toList ++ tokensOf m t.toList := by
  have hjoin : m ∉ (" " ++ j.name ++ " ").toList := by
    rcases hm with rfl | rfl <;> cases j <;> simp [Join.name]
  have htext : (s ++ " " ++ j.name ++ " " ++ t).toList =
      s.toList ++ ((" " ++ j.name ++ " ").toList ++ t.toList) := by
    simp [Text.toList_append, List.append_assoc]
  have hmarked : Marked ((" " ++ j.name ++ " ").toList ++ t.toList) := by
    simpa [Text.toList_append] using marked_cons _ rfl
  rw [htext, tokensOf_append m _ hmarked, tokensOf_free hjoin]

mutual

/-- The tokens of a tree are those of its conditions. Every written part begins with a parenthesis or
a space, so that no token goes on from one part into the next. -/
theorem tokensOf_text {m : Letter} (hm : m = '#' ∨ m = ':') (e : Encoder) : (t : Tree) →
    tokensOf m (text e t).toList = t.leaves.flatMap fun c => tokensOf m (c.fragment e).toList
  | leaf c => by rw [text, tokensOf_parenthesized hm, leaves, List.flatMap_singleton]
  | group [] _ => by simp [text, joined, leaves, leavesAll, tokensOf]
  | group [t] _ => by simpa [text, leaves, leavesAll] using tokensOf_text hm e t
  | group (t :: u :: ts) _ => by
    have hinner := tokensOf_joined hm e (t :: u :: ts) ""
    rw [text, leaves]
    · by_cases hempty : joined e "" (t :: u :: ts) = ""
      · rw [hempty] at hinner
        simpa [hempty, tokensOf] using hinner
      · simp only [hempty, if_false]
        rw [tokensOf_parenthesized hm, hinner]
        rfl
    · simp

theorem tokensOf_joined {m : Letter} (hm : m = '#' ∨ m = ':') (e : Encoder) : (ts : List Tree) →
    (written : Text) → tokensOf m (joined e written ts).toList =
      tokensOf m written.toList ++
        (leavesAll ts).flatMap fun c => tokensOf m (c.fragment e).toList
  | [], written => by simp [joined, leavesAll]
  | t :: ts, written => by
    have ht := tokensOf_text hm e t
    rw [joined, tokensOf_joined hm e ts, leavesAll, List.flatMap_append, ← ht, ← List.append_assoc]
    congr 1
    by_cases hnext : text e t = ""
    · simp [hnext, tokensOf]
    · by_cases hwritten : written = ""
      · simp [hnext, hwritten, tokensOf]
      · simp only [hnext, hwritten, if_false]
        exact tokensOf_join hm written t.join (text e t)

end

theorem tokensOf_expression {m : Letter} (hm : m = '#' ∨ m = ':') (e : Encoder) (ts : List Tree) :
    tokensOf m (expression e ts).toList =
      (leavesAll ts).flatMap fun c => tokensOf m (c.fragment e).toList := by
  simpa [expression, tokensOf] using tokensOf_joined hm e ts ""

theorem names_eq (e : Encoder) {ts : List Tree} (h : writable ts) :
    names e ts = Placeholder.bindAll [] (nameBindings e ts) := by
  rw [names, Placeholder.bindNames_eq e [] h, propertiesAll, nameBindings, List.map_map]
  rfl

theorem foldlM_bindOperands (e : Encoder) (target : Fields) {cs : List Condition}
    (h : ∀ c ∈ cs, c.property.hasDisplay) :
    cs.foldlM (Condition.bindOperands e) target =
      Placeholder.bindAll target (cs.flatMap (Condition.valueBindings e)) := by
  induction cs generalizing target with
  | nil => rfl
  | cons c cs ih =>
    have hone : c.bindOperands e target = Placeholder.bindAll target (c.valueBindings e) := by
      rw [Condition.bindOperands, Value.shown, if_pos (h c (by simp))]
      obtain ⟨property, test, join⟩ := c
      cases test <;> rfl
    rw [List.foldlM_cons, hone, List.flatMap_cons, Placeholder.bindAll_append]
    cases Placeholder.bindAll target (c.valueBindings e) with
    | ok next => exact ih next fun c' hc' => h c' (by simp [hc'])
    | error f => rfl

theorem hasDisplay_of_writable {ts : List Tree} (h : writable ts) :
    ∀ c ∈ leavesAll ts, c.property.hasDisplay := by
  simpa [writable, propertiesAll] using h

theorem values_eq (e : Encoder) {ts : List Tree} (h : writable ts) :
    values e ts = Placeholder.bindAll [] (valueBindings e ts) :=
  foldlM_bindOperands e [] (hasDisplay_of_writable h)

end Tree

namespace Forest

open TableGateway.Tree

theorem whole_eq_ok {α : Type} {f : Forest} {r : Result α} {a : α} :
    f.whole r = .ok a ↔ r = .ok a ∧ f.broken = false := by
  cases r with
  | ok b => by_cases hb : f.broken <;> simp [whole, hb]
  | error fault => simp [whole]

/-- What a forest is compiled to: its expression, and its bindings made in turn. -/
theorem compile_inv {e : Encoder} {f : Forest} {clause : Clause} (h : f.compile e = .ok clause) :
    writable f.trees ∧ clause.expression = Tree.expression e f.trees ∧
      Placeholder.bindAll [] (nameBindings e f.trees) = .ok clause.names ∧
      Placeholder.bindAll [] (valueBindings e f.trees) = .ok clause.values := by
  obtain ⟨text, htext, h⟩ := Result.bind_eq_ok.mp h
  obtain ⟨names, hnames, h⟩ := Result.bind_eq_ok.mp h
  obtain ⟨values, hvalues, h⟩ := Result.bind_eq_ok.mp h
  obtain rfl := Except.ok.inj h
  obtain ⟨htext, -⟩ := whole_eq_ok.mp htext
  obtain ⟨hnames, -⟩ := whole_eq_ok.mp hnames
  obtain ⟨hvalues, -⟩ := whole_eq_ok.mp hvalues
  have hw : writable f.trees := by
    by_contra hw
    simp [write, hw] at htext
  rw [write, if_pos hw] at htext
  exact ⟨hw, (Except.ok.inj htext).symm, names_eq e hw ▸ hnames, values_eq e hw ▸ hvalues⟩

/-- Trees compile as the forest of them does. -/
theorem compile_trees {e : Encoder} {ts : List Tree} {c : Clause}
    (h : Tree.compile e ts = .ok c) : compile e ⟨ts, false⟩ = .ok c := by
  have hwhole {α : Type} (r : Result α) : whole ⟨ts, false⟩ r = r := by
    cases r <;> simp [whole]
  rw [compile, expression, names, values, hwhole, hwhole, hwhole]
  exact h

/-- Are all bodies of tokens plain? -/
def PlainTokens (e : Encoder) (f : Forest) : Prop :=
  ∀ c ∈ leavesAll f.trees, Plain (e.token c.property.display)

theorem name_tokens {e : Encoder} {f : Forest} (h : f.PlainTokens e) :
    tokensOf '#' (Tree.expression e f.trees).toList = Entries.keys (nameBindings e f.trees) := by
  rw [tokensOf_expression (.inl rfl), List.flatMap_congr fun c hc =>
    Condition.tokensOf_fragment_name (h c hc), ← List.map_eq_flatMap, nameBindings, Entries.keys,
    List.map_map]
  rfl

theorem value_tokens {e : Encoder} {f : Forest} (h : f.PlainTokens e) :
    tokensOf ':' (Tree.expression e f.trees).toList = Entries.keys (valueBindings e f.trees) := by
  rw [tokensOf_expression (.inr rfl), List.flatMap_congr fun c hc =>
    Condition.tokensOf_fragment_values (h c hc), valueBindings, Entries.keys, List.map_flatMap]

/-- The tokens of an expression are the keys of its two maps. They are the tokens of its conditions in
turn. The one name token of a condition stands for its property, and its value tokens stand place by
place for its operands, of which a test of existence has none. -/
theorem compiled_tokens_stand (e : Encoder) (f : Forest) (clause : Clause)
    (hcompile : f.compile e = .ok clause) (hplain : f.PlainTokens e) :
    (∀ token, token ∈ tokensOf '#' clause.expression.toList ↔
      token ∈ Entries.keys clause.names) ∧
    (∀ token, token ∈ tokensOf ':' clause.expression.toList ↔
      token ∈ Entries.keys clause.values) ∧
    (∀ m : Letter, m = '#' ∨ m = ':' → tokensOf m clause.expression.toList =
      (leavesAll f.trees).flatMap fun c => tokensOf m (c.fragment e).toList) ∧
    ∀ c ∈ leavesAll f.trees,
      (∃ token, tokensOf '#' (c.fragment e).toList = [token] ∧
        Placeholder.Stands Value.Agrees clause.names token c.property ∧
        ∀ name, c.property = .text name → Entries.get? clause.names token = some (.text name)) ∧
      List.Forall₂ (Placeholder.Stands Value.Agrees clause.values)
        (tokensOf ':' (c.fragment e).toList) c.test.operands ∧
      ((∀ v ∈ c.test.operands, v.Definite) →
        List.Forall₂ (Placeholder.Stands (fun v w => v.same w) clause.values)
          (tokensOf ':' (c.fragment e).toList) c.test.operands) := by
  obtain ⟨-, htext, hnames, hvalues⟩ := compile_inv hcompile
  have hbound : ∀ c ∈ leavesAll f.trees, ∀ b ∈ c.valueBindings e,
      Placeholder.Stands Value.Agrees clause.values b.1 b.2 := fun c hc b hb =>
    Placeholder.stands_of_bindAll hvalues b (List.mem_flatMap.mpr ⟨c, hc, hb⟩)
  refine ⟨fun token => ?_, fun token => ?_, fun m hm => ?_, fun c hc =>
    ⟨?_, Condition.operands_stand (hplain c hc) (hbound c hc), fun hdefinite =>
      Condition.operands_stand (hplain c hc) fun b hb => ?_⟩⟩
  · rw [htext, name_tokens hplain, Placeholder.mem_keys_bindAll hnames]
    simp [Entries.keys]
  · rw [htext, value_tokens hplain, Placeholder.mem_keys_bindAll hvalues]
    simp [Entries.keys]
  · rw [htext, tokensOf_expression hm]
  · obtain ⟨bound, hbound, hagrees⟩ := Placeholder.stands_of_bindAll hnames (c.nameBinding e)
      (List.mem_map_of_mem hc)
    refine ⟨_, Condition.tokensOf_fragment_name (hplain c hc), ⟨bound, hbound, hagrees⟩, ?_⟩
    intro name hname
    have htextual : bound = .text name := Value.agrees_text (hname ▸ hagrees)
    rw [← htextual]
    exact hbound
  · obtain ⟨bound, hget, hagrees⟩ := hbound c hc b hb
    exact ⟨bound, hget, hagrees.same (hdefinite b.2 (Condition.operand_of_mem_valueBindings hb))⟩

/-- A row of operands, a condition whose token is that of the first of them, and one without any. -/
def sharedForest : Forest where
  trees :=
    [.leaf ⟨.text "a", .oneOf [.int 1, .text "x"], .and⟩,
      .group [.leaf ⟨.text "a_0", .compare .equal (.bool true), .or⟩,
        .leaf ⟨.text "a", .present, .and⟩] .or]
  broken := false

theorem compiled_tokens_stand_shared :
    ∃ clause, sharedForest.compile (.withStem "n_") = .ok clause ∧
      sharedForest.PlainTokens (.withStem "n_") ∧
      (∀ token, token ∈ tokensOf '#' clause.expression.toList ↔
        token ∈ Entries.keys clause.names) ∧
      (∀ token, token ∈ tokensOf ':' clause.expression.toList ↔
        token ∈ Entries.keys clause.values) ∧
      ∀ c ∈ leavesAll sharedForest.trees,
        List.Forall₂ (Placeholder.Stands Value.Agrees clause.values)
          (tokensOf ':' (c.fragment (.withStem "n_")).toList) c.test.operands := by
  have hplain : sharedForest.PlainTokens (.withStem "n_") := by
    simp [PlainTokens, sharedForest, leavesAll, leaves, Encoder.token, Encoder.withStem,
      Value.display, Plain, isMark]
  have hok : (sharedForest.compile (.withStem "n_")).isOk = true := by decide +kernel
  cases hcompile : sharedForest.compile (.withStem "n_") with
  | error fault => simp [hcompile, Except.isOk, Except.toBool] at hok
  | ok clause =>
    obtain ⟨hnames, hvalues, -, hleaves⟩ :=
      compiled_tokens_stand (.withStem "n_") sharedForest clause hcompile hplain
    exact ⟨clause, rfl, hplain, hnames, hvalues, fun c hc => (hleaves c hc).2.1⟩

end Forest

end TableGateway
