import TableGateway.Proofs.Interference
import TableGateway.Request.Query

/-!
# Clauses with tokens of their own

The tokens of a clause begin with the stem under which it is compiled. Where no property of another
clause begins with that stem, the maps of the two have no token in common, and they are merged to the
one map followed by the other. Only the name of an operand can come to begin with a stem by its ending,
and only in one way.
-/
namespace TableGateway

open Entries TableGateway.Tree

/-- Does a text begin with a stem? -/
def Begins (stem s : Text) : Prop := stem.toList <+: s.toList

instance (stem s : Text) : Decidable (Begins stem s) :=
  inferInstanceAs (Decidable (stem.toList <+: s.toList))

/-- A map that is made of two which have no key in common, and in which all that they say holds. -/
structure DisjointUnion (m first second : Fields) : Prop where
  rows : m = first ++ second
  apart : ∀ key ∈ keys first, key ∉ keys second
  keepsFirst : ∀ key v, get? first key = some v → get? m key = some v
  keepsSecond : ∀ key v, get? second key = some v → get? m key = some v

theorem DisjointUnion.of_apart {first second : Fields} (h : ∀ key ∈ keys first, key ∉ keys second) :
    DisjointUnion (first ++ second) first second where
  rows := rfl
  apart := h
  keepsFirst key v hv := by rw [get?_append, hv, Option.some_or]
  keepsSecond key v hv := by
    have hfirst : get? first key = none := by
      rw [get?_eq_none]
      intro hkey
      exact h key hkey (List.mem_map_of_mem (mem_of_get? hv))
    rw [get?_append, hfirst, Option.none_or, hv]

namespace Placeholder

theorem bind_of_notMem {target : Fields} {token : Text} (h : token ∉ keys target)
    (content : Value) : bind target token content = .ok (target ++ [(token, content)]) := by
  rw [bind, (get?_eq_none target token).mpr h]

/-- Bindings of new tokens, no two of them the same, go to the end one after the other. -/
theorem bindAll_of_nodup {target bs : Fields} (h : (keys (target ++ bs)).Nodup) :
    bindAll target bs = .ok (target ++ bs) := by
  induction bs generalizing target with
  | nil => simp [bindAll]
  | cons b bs ih =>
    obtain ⟨token, content⟩ := b
    have hrow : target ++ (token, content) :: bs = target ++ [(token, content)] ++ bs := by simp
    have hfresh : token ∉ keys target := by
      rw [keys, List.map_append, List.nodup_append] at h
      intro hmem
      exact h.2.2 token hmem token (by simp) rfl
    rw [hrow] at h ⊢
    rw [bindAll, bind_of_notMem hfresh, Result.ok_bind]
    exact ih h

theorem nodup_of_bind {target m : Fields} {token : Text} {content : Value}
    (htarget : (keys target).Nodup) (h : bind target token content = .ok m) : (keys m).Nodup := by
  rw [bind] at h
  cases hget : get? target token with
  | none =>
    rw [hget] at h
    obtain rfl := Except.ok.inj h
    have hfresh := (get?_eq_none target token).mp hget
    rw [keys, List.map_append, List.nodup_append]
    refine ⟨htarget, by simp, ?_⟩
    rintro key hkey _ hlast rfl
    obtain rfl : key = token := by simpa using hlast
    exact hfresh hkey
  | some bound =>
    rw [hget] at h
    obtain ⟨equal, -, h⟩ := Result.bind_eq_ok.mp h
    cases equal with
    | false => simp [refuse] at h
    | true =>
      obtain rfl := Except.ok.inj h
      exact htarget

/-- No token is bound twice. -/
theorem nodup_of_bindAll {target bs m : Fields} (htarget : (keys target).Nodup)
    (h : bindAll target bs = .ok m) : (keys m).Nodup := by
  induction bs generalizing target with
  | nil =>
    obtain rfl := Except.ok.inj h
    exact htarget
  | cons b bs ih =>
    obtain ⟨token, content⟩ := b
    obtain ⟨next, hnext, h⟩ := Result.bind_eq_ok.mp h
    exact ih (nodup_of_bind htarget hnext) h

theorem nodup_of_bindAll_nil {bs m : Fields} (h : bindAll [] bs = .ok m) : (keys m).Nodup := by
  have hnil : (keys ([] : Fields)).Nodup := List.nodup_nil
  exact nodup_of_bindAll hnil h

/-- Maps that have no key in common are merged to the one followed by the other. -/
theorem merge_two {first second : Fields} (hfirst : (keys first).Nodup)
    (hsecond : (keys second).Nodup) (happart : ∀ key ∈ keys first, key ∉ keys second) :
    merge [first, second] = .ok (first ++ second) := by
  have hrow : [first, second].flatten = first ++ second := by simp
  have hnodup : (keys (first ++ second)).Nodup := by
    rw [keys, List.map_append, List.nodup_append]
    refine ⟨hfirst, hsecond, ?_⟩
    rintro key hkey _ hkey' rfl
    exact happart key hkey hkey'
  rw [merge, hrow]
  exact @bindAll_of_nodup [] _ hnodup

/-- A map merged with that of a clause, if there is one. -/
theorem merge_toList (f : Clause → Fields) {first : Fields} {c : Option Clause}
    (hfirst : (keys first).Nodup) (hsecond : (keys (c.elim [] f)).Nodup)
    (happart : ∀ key ∈ keys first, key ∉ keys (c.elim [] f)) :
    merge (first :: (c.map f).toList) = .ok (first ++ c.elim [] f) := by
  cases c with
  | some c => exact merge_two hfirst hsecond happart
  | none =>
    have hrow : [first].flatten = first := by simp
    rw [Option.map_none, Option.toList_none, merge, hrow, Option.elim_none, List.append_nil]
    exact @bindAll_of_nodup [] first hfirst

end Placeholder

/-- Two maps in which no key comes twice, without a key in common. -/
structure Bindings.Apart (first second : Bindings) : Prop where
  names : ∀ key ∈ keys first.names, key ∉ keys second.names
  values : ∀ key ∈ keys first.values, key ∉ keys second.values

/-- In neither map does a key come twice. -/
structure Bindings.Distinct (b : Bindings) : Prop where
  names : (keys b.names).Nodup
  values : (keys b.values).Nodup

namespace Bindings

/-- The bindings of a clause that may be left out. -/
def ofOption (c : Option Clause) : Bindings := c.elim .empty .ofClause

theorem ofOption_names (c : Option Clause) : (ofOption c).names = c.elim [] (·.names) := by
  cases c <;> rfl

theorem ofOption_values (c : Option Clause) : (ofOption c).values = c.elim [] (·.values) := by
  cases c <;> rfl

theorem empty_apart (b : Bindings) : Bindings.empty.Apart b where
  names := by simp [empty, keys]
  values := by simp [empty, keys]

theorem distinct_empty : Bindings.empty.Distinct := ⟨.nil, .nil⟩

/-- A clause whose tokens are not bound yet is added behind what is there. -/
theorem add_of_apart {b : Bindings} {c : Option Clause} (hb : b.Distinct) (hc : (ofOption c).Distinct)
    (h : b.Apart (ofOption c)) :
    b.add c = .ok ⟨b.names ++ (ofOption c).names, b.values ++ (ofOption c).values⟩ := by
  cases c with
  | none => simp [add, ofOption, empty]
  | some c =>
    have hnames : Placeholder.merge [b.names, c.names] = .ok (b.names ++ c.names) :=
      Placeholder.merge_two hb.names hc.names h.names
    have hvalues : Placeholder.merge [b.values, c.values] = .ok (b.values ++ c.values) :=
      Placeholder.merge_two hb.values hc.values h.values
    rw [add, hnames, Result.ok_bind, hvalues]
    rfl

end Bindings

namespace Forest

theorem distinct_of_compile {e : Encoder} {f : Forest} {c : Clause} (h : f.compile e = .ok c) :
    (Bindings.ofClause c).Distinct := by
  obtain ⟨-, -, hnames, hvalues⟩ := compile_inv h
  exact ⟨Placeholder.nodup_of_bindAll_nil hnames, Placeholder.nodup_of_bindAll_nil hvalues⟩

theorem mem_names_of_compile {e : Encoder} {f : Forest} {c : Clause} (h : f.compile e = .ok c)
    {token : Text} (htoken : token ∈ keys c.names) :
    ∃ d ∈ leavesAll f.trees, token = e.name d.property.display := by
  obtain ⟨-, -, hnames, -⟩ := compile_inv h
  rw [Placeholder.mem_keys_bindAll hnames] at htoken
  simpa [keys, nameBindings, Condition.nameBinding, eq_comm] using htoken

theorem mem_values_of_compile {e : Encoder} {f : Forest} {c : Clause} (h : f.compile e = .ok c)
    {token : Text} : token ∈ keys c.values ↔
      ∃ d ∈ leavesAll f.trees, ∃ ending ∈ d.test.endings, token = e.value d.property.display ++ ending := by
  obtain ⟨-, -, -, hvalues⟩ := compile_inv h
  rw [Placeholder.mem_keys_bindAll hvalues, keys_valueBindings, pieces, List.map_flatMap]
  simp [keys, Function.comp_def, eq_comm]

end Forest

namespace Encoder

theorem begins_name (stem property : Text) :
    Begins ("#" ++ stem) ((withStem stem).name property) := by
  simp [Begins, name, token, withStem]

theorem begins_value (stem property ending : Text) :
    Begins (":" ++ stem) ((withStem stem).value property ++ ending) := by
  simp [Begins, value, token, withStem]

theorem begins_plain_name {stem property : Text} :
    Begins ("#" ++ stem) (plain.name property) ↔ Begins stem property := by
  simp [Begins, name, token, plain, withStem]

theorem begins_plain_value {stem property : Text} :
    Begins (":" ++ stem) (plain.value property) ↔ Begins stem property := by
  simp [Begins, value, token, plain, withStem]

end Encoder

/-- Are all tokens different, and do they begin with a stem? -/
structure Bindings.Stemmed (stem : Text) (b : Bindings) : Prop extends b.Distinct where
  namesBegin : ∀ token ∈ keys b.names, Begins ("#" ++ stem) token
  valuesBegin : ∀ token ∈ keys b.values, Begins (":" ++ stem) token

theorem Bindings.stemmed_empty (stem : Text) : Bindings.empty.Stemmed stem where
  toDistinct := distinct_empty
  namesBegin := by simp [empty, keys]
  valuesBegin := by simp [empty, keys]

/-- Plain tokens of properties that do not begin with a stem are none of those that do. -/
theorem Bindings.Stemmed.apart {stem : Text} {b c : Bindings} (h : c.Stemmed stem)
    (hnames : ∀ token ∈ keys b.names, ∃ s, token = Encoder.plain.name s ∧ ¬ Begins stem s)
    (hvalues : ∀ token ∈ keys b.values, ∃ s, token = Encoder.plain.value s ∧ ¬ Begins stem s) :
    b.Apart c where
  names token htoken hmem := by
    obtain ⟨s, rfl, hs⟩ := hnames token htoken
    exact hs (Encoder.begins_plain_name.mp (h.namesBegin _ hmem))
  values token htoken hmem := by
    obtain ⟨s, rfl, hs⟩ := hvalues token htoken
    exact hs (Encoder.begins_plain_value.mp (h.valuesBegin _ hmem))

/-- Of two stems in front of one text one is in front of the other. -/
theorem begins_or_begins {mark stem stem' s : Text} (h : Begins (mark ++ stem) s)
    (h' : Begins (mark ++ stem') s) : Begins stem stem' ∨ Begins stem' stem := by
  refine (List.prefix_or_prefix_of_prefix h h').imp (fun hprefix => ?_) (fun hprefix => ?_) <;>
    simpa [Begins] using hprefix

theorem Bindings.Stemmed.apart_of_stems {stem stem' : Text} {b c : Bindings} (hb : b.Stemmed stem)
    (hc : c.Stemmed stem') (h : ¬ Begins stem stem') (h' : ¬ Begins stem' stem) : b.Apart c where
  names token htoken hmem :=
    (begins_or_begins (hb.namesBegin token htoken) (hc.namesBegin token hmem)).elim h h'
  values token htoken hmem :=
    (begins_or_begins (hb.valuesBegin token htoken) (hc.valuesBegin token hmem)).elim h h'

theorem Forest.stemmed_of_compile {stem : Text} {f : Forest} {c : Clause}
    (h : f.compile (.withStem stem) = .ok c) : (Bindings.ofClause c).Stemmed stem where
  toDistinct := distinct_of_compile h
  namesBegin token htoken := by
    obtain ⟨d, -, rfl⟩ := mem_names_of_compile h htoken
    exact Encoder.begins_name stem _
  valuesBegin token htoken := by
    obtain ⟨d, -, ending, -, rfl⟩ := (mem_values_of_compile h).mp htoken
    exact Encoder.begins_value stem _ ending

theorem stemmed_conditionClause {conditions : Value} {c : Option Clause}
    (h : conditionClause conditions = .ok c) : (Bindings.ofOption c).Stemmed "__condition_" := by
  rw [conditionClause] at h
  split at h
  · obtain ⟨f, -, h⟩ := Result.bind_eq_ok.mp h
    obtain ⟨clause, hclause, rfl⟩ := Result.map_eq_ok.mp h
    exact Forest.stemmed_of_compile hclause
  · obtain rfl := Except.ok.inj h
    exact Bindings.stemmed_empty _

/-- The clause of filters is nothing or what their conditions are compiled to. -/
theorem Filter.clause_cases {filters : Value} {c : Option Clause} (h : Filter.clause filters = .ok c) :
    ∃ cs, Filter.conditions filters = .ok cs ∧ (cs = [] ∧ c = none ∨
      ∃ clause, c = some clause ∧ (Forest.ofRecords cs).compile .ofFilter = .ok clause) := by
  obtain ⟨cs, hcs, h⟩ := Result.bind_eq_ok.mp h
  refine ⟨cs, hcs, ?_⟩
  split at h
  · rename_i hempty
    exact .inl ⟨List.isEmpty_iff.mp hempty, (Except.ok.inj h).symm⟩
  · obtain ⟨clause, hclause, rfl⟩ := Result.map_eq_ok.mp h
    exact .inr ⟨clause, rfl, hclause⟩

theorem stemmed_filterClause {filters : Value} {c : Option Clause}
    (h : Filter.clause filters = .ok c) : (Bindings.ofOption c).Stemmed "__filter_" := by
  obtain ⟨cs, -, ⟨-, rfl⟩ | ⟨clause, rfl, hclause⟩⟩ := Filter.clause_cases h
  · exact Bindings.stemmed_empty _
  · exact Forest.stemmed_of_compile hclause

end TableGateway
