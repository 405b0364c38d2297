import Mathlib.Data.List.Nodup
import TableGateway.Proofs.Equality
import TableGateway.Proofs.Projection

/-!
# Conditions on different properties

The token of an operand is that of the property with an ending that the test puts behind it. An
ending is nothing or begins with the last underscore of the token, so that conditions on two properties
have a token in common only where one of them takes a single operand and has for its property that of
the other one with an ending of it. At most two conditions share a token, and a forest without such
neighbours always compiles.
-/
namespace TableGateway

namespace Placeholder

open Entries

/-- Where a row of bindings goes through, each content equals the first one of its token. -/
theorem equals_of_bindAll {target before after m : Fields} {token : Text} {content bound : Value}
    (h : bindAll target (before ++ (token, content) :: after) = .ok m)
    (hbound : get? (target ++ before) token = some bound) : bound.equals content = .ok true := by
  rw [bindAll_append] at h
  obtain ⟨next, hnext, h⟩ := Result.bind_eq_ok.mp h
  obtain ⟨last, hbind, -⟩ := Result.bind_eq_ok.mp h
  rw [← get?_bindAll hnext] at hbound
  rw [bind, hbound] at hbind
  obtain ⟨equal, hequal, hbind⟩ := Result.bind_eq_ok.mp hbind
  cases equal with
  | true => exact hequal
  | false => simp [refuse] at hbind

/-- A row of bindings stops at a content that does not equal the first one of its token. -/
theorem fault_of_bindAll {target bs : Fields} {fault : Fault} (h : bindAll target bs = .error fault) :
    ∃ before token content after bound, bs = before ++ (token, content) :: after ∧
      get? (target ++ before) token = some bound ∧
      (bound.equals content = .ok false ∧ fault = .refused (.collision token) ∨
        bound.equals content = .error fault) := by
  induction bs generalizing target with
  | nil => simp [bindAll] at h
  | cons b bs ih =>
    obtain ⟨token, content⟩ := b
    rw [bindAll] at h
    cases hbind : bind target token content with
    | ok next =>
      rw [hbind] at h
      obtain ⟨before, token', content', after, bound, rfl, hbound, hfault⟩ := ih h
      refine ⟨(token, content) :: before, token', content', after, bound, rfl, ?_, hfault⟩
      rw [get?_append, (bind_ok hbind).1, ← get?_append, List.append_assoc] at hbound
      exact hbound
    | error fault' =>
      obtain rfl : fault' = fault := by simpa [hbind] using h
      refine ⟨[], token, content, bs, ?_⟩
      rw [List.append_nil]
      rw [bind] at hbind
      cases hbound : get? target token with
      | none => simp [hbound] at hbind
      | some bound =>
        rw [hbound] at hbind
        refine ⟨bound, rfl, rfl, ?_⟩
        cases hequal : bound.equals content with
        | error fault'' => exact .inr (by simpa [hequal] using hbind)
        | ok equal => cases equal <;> simp_all [refuse]

/-- Do two bindings have different tokens or equal contents? -/
def Compatible (a b : Text × Value) : Prop := a.1 = b.1 → a.2.equals b.2 = .ok true

theorem bindAll_ok_of_compatible {bs : Fields} (h : bs.Pairwise Compatible) :
    ∃ m, bindAll [] bs = .ok m := by
  cases hbind : bindAll [] bs with
  | ok m => exact ⟨m, rfl⟩
  | error fault =>
    obtain ⟨before, token, content, after, bound, rfl, hbound, hfault⟩ := fault_of_bindAll hbind
    have hequal := (List.pairwise_append.mp h).2.2 _ (mem_of_get? hbound) (token, content)
      (by simp) rfl
    simp [hequal] at hfault

theorem pairwise_of_split {α : Type} {R : α → α → Prop} {bs : List α}
    (h : ∀ before a between b after, bs = before ++ a :: (between ++ b :: after) → R a b) :
    bs.Pairwise R := by
  induction bs with
  | nil => exact .nil
  | cons a bs ih =>
    refine List.pairwise_cons.mpr ⟨fun b hb => ?_, ih fun before c between d after hrow => ?_⟩
    · obtain ⟨between, after, rfl⟩ := List.append_of_mem hb
      exact h [] a between b after rfl
    · exact h (a :: before) c between d after (by rw [hrow, List.cons_append])

/-- Of two contents that came with one token, the second equals the first where that one came before
all others, and else both equal the one that did. -/
theorem both_equal_of_bindAll {before between after m : Fields} {token : Text} {v w : Value}
    (h : bindAll [] (before ++ (token, v) :: (between ++ (token, w) :: after)) = .ok m) :
    (get? before token = none → v.equals w = .ok true) ∧
      ∀ bound, get? before token = some bound →
        bound.equals v = .ok true ∧ bound.equals w = .ok true := by
  have hrow : before ++ (token, v) :: (between ++ (token, w) :: after) =
      (before ++ (token, v) :: between) ++ (token, w) :: after := by simp
  have hsecond := hrow ▸ h
  refine ⟨fun hfresh => ?_, fun bound hbound => ⟨?_, ?_⟩⟩
  · exact equals_of_bindAll hsecond (by simp [get?_append, hfresh])
  · exact equals_of_bindAll h (by simpa using hbound)
  · exact equals_of_bindAll hsecond (by simp [get?_append, hbound])

/-- Where no token comes a third time, each content has been compared with the other one of its
token. -/
theorem compatible_of_bindAll {bs m : Fields} (h : bindAll [] bs = .ok m)
    (htwice : ∀ token, (keys bs).count token ≤ 2) : bs.Pairwise Compatible := by
  refine pairwise_of_split ?_
  rintro before ⟨token, v⟩ between ⟨token', w⟩ after rfl htoken
  obtain rfl : token = token' := htoken
  refine (both_equal_of_bindAll h).1 ((get?_eq_none before token).mpr fun hearlier => ?_)
  have hone := List.one_le_count_iff.mpr hearlier
  have hthree := htwice token
  simp only [keys, List.map_append, List.map_cons, List.count_append, List.count_cons_self]
    at hone hthree
  omega

end Placeholder

open Placeholder TableGateway.Tree

/-- Two rows are cut at the last place of a member in the same way. -/
theorem eq_of_cut_last {α : Type} {a : α} {p q x y : List α} (hx : a ∉ x) (hy : a ∉ y)
    (h : p ++ a :: x = q ++ a :: y) : p = q := by
  rcases List.append_eq_append_iff.mp h with ⟨r, hq, hr⟩ | ⟨r, hp, hr⟩ <;> cases r <;> simp_all

theorem toString_inj {m n : Nat} (h : toString m = toString n) : m = n := by
  have hdigits : Nat.toDigits 10 m = Nat.toDigits 10 n := by
    rw [← String.toList_ofList (l := Nat.toDigits 10 m), ← String.toList_ofList (l := Nat.toDigits 10 n)]
    exact congrArg String.toList h
  rw [← Nat.ofDigitChars_ten_toDigits (n := m), hdigits, Nat.ofDigitChars_ten_toDigits]

namespace Test

/-- What a test puts behind the token of its property, for each of its operands. -/
def endings : Test → List Text
  | .compare .. => [""]
  | .present | .absent => []
  | .oneOf vs | .noneOf vs => (List.range vs.length).map fun i => "_" ++ toString i
  | .between .. => ["_start", "_end"]

theorem length_endings (t : Test) : t.endings.length = t.operands.length := by
  cases t <;> simp [endings, operands]

/-- An ending is nothing or an underscore and what has none. -/
theorem ending_cases {t : Test} {ending : Text} (h : ending ∈ t.endings) :
    (∃ how v, t = .compare how v ∧ ending = "") ∨
      ∃ body, Letter.char '_' ∉ body ∧ ending.toList = .char '_' :: body := by
  cases t with
  | compare how v => exact .inl ⟨how, v, rfl, by simpa [endings] using h⟩
  | present | absent => simp [endings] at h
  | oneOf vs | noneOf vs =>
    obtain ⟨i, -, rfl⟩ := List.mem_map.mp h
    refine .inr ⟨(toString i).toList.map .char, fun hmem => ?_, by simp⟩
    rw [show (toString i).toList = Nat.toDigits 10 i from String.toList_ofList] at hmem
    obtain ⟨c, hc, hunderscore⟩ := List.mem_map.mp hmem
    obtain rfl := Letter.char.inj hunderscore
    have hdigit := Nat.isDigit_of_mem_toDigits (by decide) (by decide) hc
    simp at hdigit
  | between low high =>
    simp only [endings, List.mem_cons, List.not_mem_nil, or_false] at h
    rcases h with rfl | rfl
    · exact .inr ⟨("start" : Text).toList, by simp, rfl⟩
    · exact .inr ⟨("end" : Text).toList, by simp, rfl⟩

theorem endings_nodup (t : Test) : t.endings.Nodup := by
  cases t with
  | oneOf vs | noneOf vs =>
    refine List.Nodup.map (fun i j hij => ?_) List.nodup_range
    exact toString_inj (by simpa using hij)
  | _ => simp [endings]

/-- The operands with their endings. -/
def parts (t : Test) : List (Text × Value) := t.endings.zip t.operands

theorem parts_fst (t : Test) : t.parts.map Prod.fst = t.endings :=
  List.map_fst_zip (Nat.le_of_eq t.length_endings)

theorem mem_endings {t : Test} {p : Text × Value} (h : p ∈ t.parts) : p.1 ∈ t.endings :=
  (List.of_mem_zip h).1

theorem mem_parts_compare {how : Comparison} {v w : Value} {ending : Text} :
    (ending, w) ∈ (Test.compare how v).parts ↔ ending = "" ∧ w = v := by
  simp [parts, endings, operands]

end Test

namespace Condition

theorem valueBindings_eq (e : Encoder) (c : Condition) :
    c.valueBindings e =
      c.test.parts.map fun p => (e.value c.property.display ++ p.1, p.2) := by
  obtain ⟨property, test, join⟩ := c
  cases test with
  | oneOf vs | noneOf vs =>
    simp [valueBindings, Test.parts, Test.endings, Test.operands, Encoder.memberValues,
      Encoder.memberValue, List.zip_map_left, Text.append_assoc, Function.comp_def, Prod.map]
  | _ =>
    simp [valueBindings, Test.parts, Test.endings, Test.operands, Encoder.lowValue,
      Encoder.highValue]

/-- Of two endings that make one token of two properties, exactly one is nothing. -/
theorem one_ending {c d : Condition} {s t : Text} (hs : s ∈ c.test.endings)
    (ht : t ∈ d.test.endings) (hne : c.property.display ≠ d.property.display)
    (h : c.property.display ++ s = d.property.display ++ t) :
    ((∃ how v, c.test = .compare how v) ∧ s = "" ∧ t ≠ "") ∨
      ((∃ how w, d.test = .compare how w) ∧ t = "" ∧ s ≠ "") := by
  rcases Test.ending_cases hs with ⟨how, v, hc, rfl⟩ | ⟨x, hx, hsx⟩ <;>
    rcases Test.ending_cases ht with ⟨how', w, hd, rfl⟩ | ⟨y, hy, hty⟩
  · exact absurd (by simpa using h) hne
  · exact .inl ⟨⟨how, v, hc⟩, rfl, by rintro rfl; simp at hty⟩
  · exact .inr ⟨⟨how', w, hd⟩, rfl, by rintro rfl; simp at hsx⟩
  · exfalso
    have hlist := congrArg Text.toList h
    rw [Text.toList_append, Text.toList_append, hsx, hty] at hlist
    exact hne (Text.toList_inj.mp (eq_of_cut_last hx hy hlist))

/-- Is the property of the first condition, which takes a single operand, that of the second one with
one of its endings? Then the two operands have one token. -/
def Extends (c d : Condition) (v w : Value) : Prop :=
  (∃ how, c.test = .compare how v) ∧
    ∃ ending : Text, ending ≠ "" ∧ (ending, w) ∈ d.test.parts ∧
      c.property.display = d.property.display ++ ending

theorem mem_valueBindings {e : Encoder} {c : Condition} {token : Text} {v : Value} :
    (token, v) ∈ c.valueBindings e ↔
      ∃ s, (s, v) ∈ c.test.parts ∧ e.value c.property.display ++ s = token := by
  simp [valueBindings_eq]

theorem withStem_value_inj {stem p q s t : Text} :
    (Encoder.withStem stem).value p ++ s = (Encoder.withStem stem).value q ++ t ↔
      p ++ s = q ++ t := by
  simp [Encoder.value, Encoder.token, Encoder.withStem, Text.append_assoc]

/-- Conditions on two properties bind one token just where the property of one of them, with the
single operand, extends that of the other; it is then the token of the longer property. -/
theorem shared_iff {stem : Text} {c d : Condition}
    (hne : c.property.display ≠ d.property.display) {token : Text} {v w : Value} :
    (token, v) ∈ c.valueBindings (.withStem stem) ∧
        (token, w) ∈ d.valueBindings (.withStem stem) ↔
      c.Extends d v w ∧ token = (Encoder.withStem stem).value c.property.display ∨
        d.Extends c w v ∧ token = (Encoder.withStem stem).value d.property.display := by
  rw [mem_valueBindings, mem_valueBindings]
  constructor
  · rintro ⟨⟨s, hs, rfl⟩, t, ht, htoken⟩
    rw [withStem_value_inj] at htoken
    rcases one_ending (Test.mem_endings hs) (Test.mem_endings ht) hne htoken.symm with
      ⟨⟨how, v', hc⟩, rfl, hending⟩ | ⟨⟨how, w', hd⟩, rfl, hending⟩
    · rw [hc, Test.mem_parts_compare] at hs
      exact .inl ⟨⟨⟨how, hs.2 ▸ hc⟩, t, hending, ht, by simpa using htoken.symm⟩, by simp⟩
    · rw [hd, Test.mem_parts_compare] at ht
      refine .inr ⟨⟨⟨how, ht.2 ▸ hd⟩, s, hending, hs, by simpa using htoken⟩, ?_⟩
      rw [← Text.append_empty (t := (Encoder.withStem stem).value d.property.display),
        withStem_value_inj, htoken]
  · rintro (⟨⟨⟨how, hc⟩, t, -, ht, htoken⟩, rfl⟩ | ⟨⟨⟨how, hd⟩, s, -, hs, htoken⟩, rfl⟩)
    · refine ⟨⟨"", by simp [hc, Test.mem_parts_compare], by simp⟩, t, ht, ?_⟩
      rw [← Text.append_empty (t := (Encoder.withStem stem).value c.property.display),
        withStem_value_inj, htoken, Text.append_empty]
    · refine ⟨⟨s, hs, ?_⟩, "", by simp [hd, Test.mem_parts_compare], by simp⟩
      rw [← Text.append_empty (t := (Encoder.withStem stem).value d.property.display),
        withStem_value_inj, htoken, Text.append_empty]

/-- Are the operands equal wherever the two conditions have one token? -/
def Harmless (c d : Condition) : Prop :=
  ∀ v w, c.Extends d v w ∨ d.Extends c w v → v.equals w = .ok true

theorem tokens_nodup (e : Encoder) (c : Condition) : (Entries.keys (c.valueBindings e)).Nodup := by
  have hkeys : Entries.keys (c.valueBindings e) =
      c.test.endings.map (e.value c.property.display ++ ·) := by
    rw [valueBindings_eq, Entries.keys, List.map_map, ← Test.parts_fst, List.map_map]
    rfl
  rw [hkeys]
  exact List.Nodup.map (fun s t hst => by simpa using hst) c.test.endings_nodup

end Condition

namespace Tree

/-- Bindings of one token come from two conditions, since no condition uses a token twice. -/
theorem shared_between (e : Encoder) (ts : List Tree) :
    (valueBindings e ts).Pairwise fun x y => x.1 = y.1 →
      ∃ c d, [c, d].Sublist (leavesAll ts) ∧ x ∈ c.valueBindings e ∧ y ∈ d.valueBindings e := by
  refine List.pairwise_flatMap.mpr ⟨fun c hc => ?_, ?_⟩
  · have hdistinct := List.pairwise_map.mp (c.tokens_nodup e)
    exact hdistinct.imp fun hne heq => absurd heq hne
  · exact List.pairwise_iff_forall_sublist.mpr fun {c d} hcd x hx y hy _ => ⟨c, d, hcd, hx, hy⟩

section Distinct

variable {ts : List Tree} (stem : Text)

theorem display_ne (hdistinct : ((leavesAll ts).map fun c => c.property.display).Nodup)
    {c d : Condition} (h : [c, d].Sublist (leavesAll ts)) :
    c.property.display ≠ d.property.display :=
  List.pairwise_iff_forall_sublist.mp (List.pairwise_map.mp hdistinct) h

theorem compatible_iff (hdistinct : ((leavesAll ts).map fun c => c.property.display).Nodup) :
    (valueBindings (.withStem stem) ts).Pairwise Compatible ↔
      (leavesAll ts).Pairwise Condition.Harmless := by
  constructor
  · intro h
    refine List.pairwise_iff_forall_sublist.mpr fun {c d} hcd v w hextends => ?_
    have hne := display_ne hdistinct hcd
    obtain ⟨token, htoken⟩ : ∃ token, (token, v) ∈ c.valueBindings (.withStem stem) ∧
        (token, w) ∈ d.valueBindings (.withStem stem) := by
      rcases hextends with hc | hd
      · exact ⟨_, (Condition.shared_iff hne).mpr (.inl ⟨hc, rfl⟩)⟩
      · exact ⟨_, (Condition.shared_iff hne).mpr (.inr ⟨hd, rfl⟩)⟩
    have hcross := List.pairwise_iff_forall_sublist.mp (List.pairwise_flatMap.mp h).2 hcd
    exact hcross (token, v) htoken.1 (token, w) htoken.2 rfl
  · intro h
    refine (shared_between (.withStem stem) ts).imp fun {x y} hshared htoken => ?_
    obtain ⟨c, d, hcd, hx, hy⟩ := hshared htoken
    obtain ⟨token, v⟩ := x
    obtain ⟨token', w⟩ := y
    obtain rfl : token = token' := htoken
    have hextends := (Condition.shared_iff (display_ne hdistinct hcd)).mp ⟨hx, hy⟩
    exact List.pairwise_iff_forall_sublist.mp h hcd v w (hextends.imp And.left And.left)

/-- The properties with the endings that their tokens take. -/
def pieces (ts : List Tree) : List (Text × Text) :=
  (leavesAll ts).flatMap fun c => c.test.endings.map (c.property.display, ·)

theorem keys_valueBindings (e : Encoder) (ts : List Tree) :
    Entries.keys (valueBindings e ts) = (pieces ts).map fun x => e.value x.1 ++ x.2 := by
  rw [valueBindings, pieces, Entries.keys, List.map_flatMap, List.map_flatMap]
  refine List.flatMap_congr fun c hc => ?_
  rw [Condition.valueBindings_eq, ← Test.parts_fst, List.map_map, List.map_map, List.map_map]
  rfl

theorem one_ending_pieces (hdistinct : ((leavesAll ts).map fun c => c.property.display).Nodup) :
    (pieces ts).Pairwise fun (x y : Text × Text) => x.1 ++ x.2 = y.1 ++ y.2 → (x.2 = "" ↔ y.2 ≠ "") := by
  refine List.pairwise_flatMap.mpr ⟨fun c hc => ?_, ?_⟩
  · refine List.pairwise_map.mpr (c.test.endings_nodup.imp fun {s t} hne hbody => ?_)
    exact absurd (by simpa using hbody) hne
  · refine (List.pairwise_map.mp hdistinct).imp fun {c d} hne x hx y hy hbody => ?_
    obtain ⟨s, hs, rfl⟩ := List.mem_map.mp hx
    obtain ⟨t, ht, rfl⟩ := List.mem_map.mp hy
    rcases Condition.one_ending hs ht hne hbody with ⟨-, hs, ht⟩ | ⟨-, ht, hs⟩ <;> simp [hs, ht]

/-- No token has three operands: of any two pieces of one token exactly one has an ending. -/
theorem token_count_le_two (hdistinct : ((leavesAll ts).map fun c => c.property.display).Nodup)
    (token : Text) : (Entries.keys (valueBindings (.withStem stem) ts)).count token ≤ 2 := by
  by_contra hcount
  rw [keys_valueBindings] at hcount
  have hthree := List.replicate_sublist_iff.mpr (Nat.lt_of_not_le hcount)
  obtain ⟨xs, hxs, htokens⟩ := List.sublist_map_iff.mp hthree
  obtain ⟨x, y, z, rfl⟩ := List.length_eq_three.mp (by simpa using (congrArg List.length htokens).symm)
  simp only [List.replicate, List.map_cons, List.map_nil, List.cons.injEq, and_true] at htokens
  obtain ⟨hx, hy, hz⟩ := htokens
  have hpairs := (one_ending_pieces hdistinct).sublist hxs
  simp only [List.pairwise_cons, List.mem_cons, List.not_mem_nil, or_false, forall_eq_or_imp,
    forall_eq] at hpairs
  obtain ⟨⟨hxy, hxz⟩, hyz, -⟩ := hpairs
  have hxy := hxy (Condition.withStem_value_inj.mp (hx.symm.trans hy))
  have hxz := hxz (Condition.withStem_value_inj.mp (hx.symm.trans hz))
  have hyz := hyz (Condition.withStem_value_inj.mp (hy.symm.trans hz))
  tauto

theorem names_bound (hdistinct : ((leavesAll ts).map fun c => c.property.display).Nodup) :
    ∃ m, Placeholder.bindAll [] (nameBindings (.withStem stem) ts) = .ok m := by
  apply bindAll_ok_of_compatible
  refine List.pairwise_map.mpr ((List.pairwise_map.mp hdistinct).imp fun {c d} hne htoken => ?_)
  exact absurd (Encoder.withStem_name_inj htoken) hne

/-- The operands of conditions on different properties are bound just where those that share a token
are equal. -/
theorem values_bound_iff (hdistinct : ((leavesAll ts).map fun c => c.property.display).Nodup) :
    (∃ m, Placeholder.bindAll [] (valueBindings (.withStem stem) ts) = .ok m) ↔
      (leavesAll ts).Pairwise Condition.Harmless := by
  rw [← compatible_iff stem hdistinct]
  constructor
  · rintro ⟨m, hm⟩
    exact compatible_of_bindAll hm (token_count_le_two stem hdistinct)
  · exact bindAll_ok_of_compatible

end Distinct

end Tree

namespace Forest

theorem compile_eq (e : Encoder) {f : Forest} (hwhole : f.broken = false) (hnames : writable f.trees) :
    f.compile e = do
      let names ← Placeholder.bindAll [] (nameBindings e f.trees)
      let values ← Placeholder.bindAll [] (valueBindings e f.trees)
      return ⟨Tree.expression e f.trees, names, values⟩ := by
  have hall {α : Type} (r : Result α) : f.whole r = r := by
    cases r <;> simp [whole, hwhole]
  rw [compile, expression, names, values, hall, hall, hall, write, if_pos hnames, names_eq e hnames,
    values_eq e hnames]
  rfl

/-- Conditions on different properties compile just where no two of them meet in a token with operands
that differ: one with a single operand whose property is that of the other with one of its endings.
What stops them else is a collision of such two. Operands that hold a non-number are left out. -/
theorem distinct_compile_iff (stem : Text) (f : Forest) (hwhole : f.broken = false)
    (hnames : writable f.trees)
    (hdistinct : ((leavesAll f.trees).map fun c => c.property.display).Nodup)
    (hoperands : ∀ c ∈ leavesAll f.trees, ∀ v ∈ c.test.operands, v.NaNFree) :
    ((∃ clause, f.compile (.withStem stem) = .ok clause) ↔
      (leavesAll f.trees).Pairwise Condition.Harmless) ∧
    ∀ fault, f.compile (.withStem stem) = .error fault →
      ∃ c d v w, [c, d].Sublist (leavesAll f.trees) ∧ ∃ token,
        (c.Extends d v w ∧ token = (Encoder.withStem stem).value c.property.display ∨
          d.Extends c w v ∧ token = (Encoder.withStem stem).value d.property.display) ∧
        Value.same v w = false ∧ fault = .refused (.collision token) := by
  obtain ⟨names, hbound⟩ := names_bound stem hdistinct
  rw [compile_eq _ hwhole hnames, hbound, Result.ok_bind]
  constructor
  · rw [← values_bound_iff stem hdistinct]
    cases Placeholder.bindAll [] (valueBindings (.withStem stem) f.trees) <;> simp
  · intro fault hfault
    have hvalues : Placeholder.bindAll [] (valueBindings (.withStem stem) f.trees) = .error fault := by
      cases hvalues : Placeholder.bindAll [] (valueBindings (.withStem stem) f.trees) <;>
        simp_all
    obtain ⟨before, token, w, after, v, hrow, hget, hfault⟩ := fault_of_bindAll hvalues
    have hpairs := shared_between (.withStem stem) f.trees
    rw [hrow] at hpairs
    obtain ⟨c, d, hcd, hv, hw⟩ := (List.pairwise_append.mp hpairs).2.2 _ (Entries.mem_of_get? hget)
      (token, w) (by simp) rfl
    refine ⟨c, d, v, w, hcd, token,
      (Condition.shared_iff (display_ne hdistinct hcd)).mp ⟨hv, hw⟩, ?_⟩
    have hfree := hoperands c (hcd.subset (by simp)) v (Condition.operand_of_mem_valueBindings hv)
    have hfree' := hoperands d (hcd.subset (by simp)) w (Condition.operand_of_mem_valueBindings hw)
    rw [Value.equals_of_nanFree hfree hfree'] at hfault
    simpa using hfault

/-- Bounds of a property, and in a group the property that is called like the token of the first. -/
def neighbours : Forest where
  trees :=
    [.leaf ⟨.text "p", .between (.int 1) (.int 2), .and⟩,
      .group [.leaf ⟨.text "p_start", .compare .equal (.int 5), .and⟩] .or]
  broken := false

theorem not_distinct_compile :
    neighbours.compile .plain = .error (.refused (.collision ":p_start")) ∧
      ¬ ∀ (stem : Text) (f : Forest), f.broken = false → writable f.trees →
        ((leavesAll f.trees).map fun c => c.property.display).Nodup →
        ∃ clause, f.compile (.withStem stem) = .ok clause := by
  have hcollision : neighbours.compile .plain = .error (.refused (.collision ":p_start")) := by
    rfl
  refine ⟨hcollision, fun h => ?_⟩
  obtain ⟨clause, hclause⟩ := h "" neighbours rfl rfl (by decide)
  rw [show Encoder.withStem "" = .plain from rfl, hcollision] at hclause
  simp at hclause

/-- A row of operands, and the property that is called like the token of the second, with the same
operand. -/
def peaceful : Forest where
  trees :=
    [.leaf ⟨.text "p_1", .compare .equal (.int 5), .and⟩,
      .group [.leaf ⟨.text "p", .oneOf [.int 1, .int 5], .and⟩, .leaf ⟨.text "q", .present, .or⟩] .or]
  broken := false

theorem distinct_compile_iff_peaceful :
    peaceful.broken = false ∧ writable peaceful.trees ∧
      ((leavesAll peaceful.trees).map fun c => c.property.display).Nodup ∧
      (∀ c ∈ leavesAll peaceful.trees, ∀ v ∈ c.test.operands, v.NaNFree) ∧
      (leavesAll peaceful.trees).Pairwise Condition.Harmless := by
  have hdistinct : ((leavesAll peaceful.trees).map fun c => c.property.display).Nodup := by decide
  have hint (n : Int) : (Value.int n).NaNFree :=
    Value.nanFree_of_parts (by simp [Value.int, Number.isNaN]) (by simp [Value.int, Value.parts])
  have hoperands : ∀ c ∈ leavesAll peaceful.trees, ∀ v ∈ c.test.operands, v.NaNFree := by
    simp [peaceful, leavesAll, leaves, Test.operands, hint]
  exact ⟨rfl, rfl, hdistinct, hoperands,
    (distinct_compile_iff "n_" peaceful rfl rfl hdistinct hoperands).1.mp
      (Result.exists_of_isOk (by decide +kernel))⟩

end Forest

end TableGateway
