import TableGateway.Proofs.Tokens
import TableGateway.Proofs.UpdateRequest

/-!
# Tokens in update expressions

The parts of an update expression stand between commas and blanks, so its tokens are those of the
parts: a name token for every name that the update uses, and a value token for each value that it sets
and each operation that it makes.
-/
namespace TableGateway

open Entries Grammar

namespace Grammar

variable {m : Letter}

/-- The tokens of a row of texts are those of the texts in turn, if what stands between two of them
begins with a mark and has no token. -/
theorem tokensOf_row {separator : Text} (hs : Marked separator.toList)
    (hne : separator.toList ≠ []) (hfree : m ∉ separator.toList) (texts : List Text) :
    tokensOf m (separator.intercalate texts).toList = texts.flatMap fun t => tokensOf m t.toList := by
  induction texts with
  | nil => simp [tokensOf]
  | cons t ts ih =>
    cases ts with
    | nil => simp
    | cons t' ts =>
      obtain ⟨c, cs, hcs⟩ := List.exists_cons_of_ne_nil hne
      have hmark : Marked (separator.toList ++ (separator.intercalate (t' :: ts)).toList) := by
        rw [hcs] at hs ⊢
        exact marked_cons _ (hs c rfl)
      rw [Text.intercalate_cons_cons, Text.toList_append, Text.toList_append,
        List.append_assoc, tokensOf_append m _ hmark, tokensOf_free hfree, ih]
      simp

theorem marked_iff {c : Letter} {cs : List Letter} : Marked (c :: cs) ↔ isMark c = true := by
  simp [Marked]

theorem marked_nil : Marked [] := by
  simp [Marked]

end Grammar

namespace Encoder

variable {e : Encoder} {property : Text} {r : List Letter}

theorem tokensOf_name (h : Plain (e.token property)) (hr : Marked r) :
    tokensOf '#' ((e.name property).toList ++ r) = e.name property :: tokensOf '#' r := by
  have hhash : Text.singleton '#' = "#" := rfl
  simpa [name, hhash] using tokensOf_token (m := '#') rfl h hr

theorem tokensOf_name_value (h : Plain (e.token property)) :
    tokensOf ':' ((e.name property).toList ++ r) = tokensOf ':' r :=
  tokensOf_free (by simpa [name] using notMem_of_plain (m := ':') rfl h) r

theorem tokensOf_value (h : Plain (e.token property)) (hr : Marked r) :
    tokensOf ':' ((e.value property).toList ++ r) = e.value property :: tokensOf ':' r := by
  have hcolon : Text.singleton ':' = ":" := rfl
  simpa [value, hcolon] using tokensOf_token (m := ':') rfl h hr

theorem tokensOf_value_name (h : Plain (e.token property)) :
    tokensOf '#' ((e.value property).toList ++ r) = tokensOf '#' r :=
  tokensOf_free (by simpa [value] using notMem_of_plain (m := '#') rfl h) r

theorem name_tokens (h : Plain (e.token property)) :
    tokensOf '#' (e.name property).toList = [e.name property] := by
  simpa [tokensOf] using tokensOf_name h marked_nil

theorem name_no_values (h : Plain (e.token property)) :
    tokensOf ':' (e.name property).toList = [] := by
  simpa [tokensOf] using tokensOf_name_value (r := []) h

theorem value_tokens (h : Plain (e.token property)) :
    tokensOf ':' (e.value property).toList = [e.value property] := by
  simpa [tokensOf] using tokensOf_value h marked_nil

theorem value_no_names (h : Plain (e.token property)) :
    tokensOf '#' (e.value property).toList = [] := by
  simpa [tokensOf] using tokensOf_value_name (r := []) h

end Encoder

namespace UpdateClauses

variable {m : Letter}

theorem tokensOf_part (hm : m = '#' ∨ m = ':') {keyword : Text} (hk : m ∉ keyword.toList)
    (fragments : List Text) :
    ((part keyword fragments).flatMap fun t => tokensOf m t.toList) =
      fragments.flatMap fun t => tokensOf m t.toList := by
  have hcomma : m ∉ (", " : Text).toList := by rcases hm with rfl | rfl <;> simp
  have hblank : m ∉ (" " : Text).toList := by rcases hm with rfl | rfl <;> simp
  rw [part]
  split
  · simp_all
  · rw [List.flatMap_singleton, Text.toList_append, Text.toList_append, List.append_assoc,
      tokensOf_free hk, tokensOf_free hblank, tokensOf_row (by simp [Marked, isMark]) (by simp) hcomma]

/-- The tokens of an update expression are those of its parts. -/
theorem tokensOf_text (hm : m = '#' ∨ m = ':') (c : UpdateClauses) :
    tokensOf m c.text.toList =
      (c.set ++ c.add ++ c.delete ++ c.remove).flatMap fun t => tokensOf m t.toList := by
  have hblank : m ∉ (" " : Text).toList := by rcases hm with rfl | rfl <;> simp
  have hkeywords : m ∉ ("SET" : Text).toList ∧ m ∉ ("ADD" : Text).toList ∧ m ∉ ("DELETE" : Text).toList ∧
      m ∉ ("REMOVE" : Text).toList := by
    rcases hm with rfl | rfl <;> simp
  obtain ⟨hset, hadd, hdelete, hremove⟩ := hkeywords
  rw [text, tokensOf_row (by simp [Marked, isMark]) (by simp) hblank]
  simp only [List.flatMap_append, tokensOf_part hm, hset, hadd, hdelete, hremove, not_false_eq_true]

end UpdateClauses

namespace AtomicOperation

variable {o : AtomicOperation}

theorem plain_token {n : Value} (h : PlainText n) : Plain (Encoder.plain.token n.display) := by
  obtain ⟨s, rfl, hs⟩ := h
  simpa [Encoder.plain, Encoder.withStem, Encoder.token, Value.display] using hs

/-- The parts of an update expression that an operation makes. -/
def fragments (o : AtomicOperation) : List Text :=
  o.setFragment?.toList ++ o.addFragment?.toList ++ o.deleteFragment?.toList

open Encoder in
/-- The name tokens in the part of an operation are those of the names that it uses. -/
theorem mem_name_tokens (h : o.PlainNames) (token : Text) :
    (token ∈ o.fragments.flatMap fun t => tokensOf '#' t.toList) ↔
      token ∈ o.names.map fun n => Encoder.plain.name n.display := by
  have hproperty := plain_token h.property
  have hreference := plain_token h.reference
  cases hc : o.change with
  | setIfNotExists =>
    have hnames : token ∈ o.names.map (fun n => Encoder.plain.name n.display) ↔
        token = name o.property ∨ token = name o.reference := by
      rw [names, reference]
      cases o.otherSource? <;> simp [name]
    rw [hnames]
    simp only [fragments, setFragment?, addFragment?, deleteFragment?, hc]
    simp [name, value, tokensOf, tokensOf_name, tokensOf_value_name, marked_iff, isMark,
      hproperty, hreference]
  | _ =>
    have hnone : o.otherSource? = none := by simp [otherSource?, hc]
    simp only [fragments, setFragment?, addFragment?, deleteFragment?, hc]
    simp [name, value, tokensOf, tokensOf_name, value_no_names, marked_iff, isMark, hproperty, names,
      hnone]

open Encoder in
/-- The one value token in the part of an operation is that of its property. -/
theorem value_tokens (h : o.PlainNames) :
    (o.fragments.flatMap fun t => tokensOf ':' t.toList) = [value o.property] := by
  have hproperty := plain_token h.property
  have hreference := plain_token h.reference
  cases hc : o.change with
  | _ =>
    simp only [fragments, setFragment?, addFragment?, deleteFragment?, hc]
    simp [name, value, tokensOf, tokensOf_name_value, tokensOf_value, Encoder.value_tokens, marked_iff,
      isMark, hproperty, hreference]

end AtomicOperation

namespace Update

open AtomicOperation

variable {sets : Fields} {ops : List AtomicOperation} {removed : List Value}

theorem mem_parts (part : Text) :
    part ∈ (clauses sets ops removed).set ++ (clauses sets ops removed).add
        ++ (clauses sets ops removed).delete ++ (clauses sets ops removed).remove ↔
      (∃ e ∈ sets, Encoder.plain.name e.1 ++ " = " ++ Encoder.plain.value e.1 = part) ∨
        (∃ o ∈ ops, part ∈ o.fragments) ∨ ∃ n ∈ removed, name n = part := by
  simp only [clauses, fragments, List.mem_append, List.mem_map, List.mem_filterMap,
    Option.mem_toList]
  constructor
  · rintro ((((h | ⟨o, ho, h⟩) | ⟨o, ho, h⟩) | ⟨o, ho, h⟩) | h)
    · exact .inl h
    · exact .inr (.inl ⟨o, ho, .inl (.inl h)⟩)
    · exact .inr (.inl ⟨o, ho, .inl (.inr h)⟩)
    · exact .inr (.inl ⟨o, ho, .inr h⟩)
    · exact .inr (.inr h)
  · rintro (h | ⟨o, ho, (h | h) | h⟩ | h)
    · exact .inl (.inl (.inl (.inl h)))
    · exact .inl (.inl (.inl (.inr ⟨o, ho, h⟩)))
    · exact .inl (.inl (.inr ⟨o, ho, h⟩))
    · exact .inl (.inr ⟨o, ho, h⟩)
    · exact .inr h

/-- The tokens of an update expression come from what it sets, from its operations and from what it
removes. -/
theorem mem_tokens {m : Letter} (hm : m = '#' ∨ m = ':') (token : Text) :
    token ∈ tokensOf m (clauses sets ops removed).text.toList ↔
      (∃ e ∈ sets, token ∈
        tokensOf m (Encoder.plain.name e.1 ++ " = " ++ Encoder.plain.value e.1).toList) ∨
      (∃ o ∈ ops, token ∈ o.fragments.flatMap fun t => tokensOf m t.toList) ∨
      ∃ n ∈ removed, token ∈ tokensOf m (name n).toList := by
  rw [UpdateClauses.tokensOf_text hm, List.mem_flatMap]
  simp_rw [mem_parts, or_and_right, exists_or]
  refine or_congr ?_ (or_congr ?_ ?_)
  · constructor
    · rintro ⟨part, ⟨e, he, rfl⟩, htoken⟩
      exact ⟨e, he, htoken⟩
    · rintro ⟨e, he, htoken⟩
      exact ⟨_, ⟨e, he, rfl⟩, htoken⟩
  · constructor
    · rintro ⟨part, ⟨o, ho, hpart⟩, htoken⟩
      exact ⟨o, ho, List.mem_flatMap.mpr ⟨part, hpart, htoken⟩⟩
    · rintro ⟨o, ho, htoken⟩
      obtain ⟨part, hpart, htoken⟩ := List.mem_flatMap.mp htoken
      exact ⟨part, ⟨o, ho, hpart⟩, htoken⟩
  · constructor
    · rintro ⟨part, ⟨n, hn, rfl⟩, htoken⟩
      exact ⟨n, hn, htoken⟩
    · rintro ⟨n, hn, htoken⟩
      exact ⟨_, ⟨n, hn, rfl⟩, htoken⟩

section Plain

variable (hsets : ∀ e ∈ sets, Plain e.1) (hops : ∀ o ∈ ops, o.PlainNames)
  (hremoved : ∀ n ∈ removed, PlainText n)

include hsets hops hremoved

open Encoder in
/-- The name tokens of an update expression are those of the names that it uses. -/
theorem mem_name_tokens (token : Text) :
    token ∈ tokensOf '#' (clauses sets ops removed).text.toList ↔
      token ∈ keys ((namesOf sets removed ops).map nameBinding) := by
  have hset : ∀ e ∈ sets, tokensOf '#' (plain.name e.1 ++ " = " ++ plain.value e.1).toList =
      [plain.name e.1] := by
    intro e he
    have hplain := plain_token ⟨e.1, rfl, hsets e he⟩
    rw [Value.display] at hplain
    simp [tokensOf, tokensOf_name, value_no_names, marked_iff, isMark, hplain]
  have hremove : ∀ n ∈ removed, tokensOf '#' (name n).toList = [plain.name n.display] :=
    fun n hn => name_tokens (plain_token (hremoved n hn))
  have hkeys : token ∈ keys ((namesOf sets removed ops).map nameBinding) ↔
      (∃ e ∈ sets, token ∈ [plain.name e.1]) ∨
        (∃ o ∈ ops, token ∈ o.names.map fun n => plain.name n.display) ∨
          ∃ n ∈ removed, token ∈ [plain.name n.display] := by
    simp only [namesOf, keys, List.map_append, List.mem_append, List.map_map, List.map_flatMap,
      List.mem_flatMap]
    rw [or_assoc, or_comm (a := token ∈ List.map _ removed)]
    have htext : ∀ s, (Value.text s).display = s := fun _ => rfl
    simp [nameBinding, htext, eq_comm]
  rw [mem_tokens (.inl rfl), hkeys]
  refine or_congr ?_ (or_congr ?_ ?_)
  · exact exists_congr fun e => and_congr_right fun he => by rw [hset e he]
  · exact exists_congr fun o => and_congr_right fun ho =>
      AtomicOperation.mem_name_tokens (hops o ho) token
  · exact exists_congr fun n => and_congr_right fun hn => by rw [hremove n hn]

open Encoder in
/-- The value tokens of an update expression are those of what it sets and of its operations. -/
theorem mem_value_tokens (token : Text) :
    token ∈ tokensOf ':' (clauses sets ops removed).text.toList ↔
      token ∈ (keys sets).map plain.value ∨
        token ∈ ops.map fun o : AtomicOperation => AtomicOperation.value o.property := by
  have hset : ∀ e ∈ sets, tokensOf ':' (plain.name e.1 ++ " = " ++ plain.value e.1).toList =
      [plain.value e.1] := by
    intro e he
    have hplain := plain_token ⟨e.1, rfl, hsets e he⟩
    rw [Value.display] at hplain
    simp [tokensOf, tokensOf_name_value, Encoder.value_tokens, hplain]
  have hremove : ∀ n ∈ removed, tokensOf ':' (name n).toList = [] :=
    fun n hn => name_no_values (plain_token (hremoved n hn))
  have hkeys : (token ∈ (keys sets).map plain.value ∨
      token ∈ ops.map fun o : AtomicOperation => AtomicOperation.value o.property) ↔
      (∃ e ∈ sets, token ∈ [plain.value e.1]) ∨ (∃ o ∈ ops, token ∈ [AtomicOperation.value o.property]) ∨
        ∃ n ∈ removed, token ∈ ([] : List Text) := by
    simp [keys, eq_comm]
  rw [mem_tokens (.inr rfl), hkeys]
  refine or_congr ?_ (or_congr ?_ ?_)
  · exact exists_congr fun e => and_congr_right fun he => by rw [hset e he]
  · exact exists_congr fun o => and_congr_right fun ho => by
      rw [AtomicOperation.value_tokens (hops o ho)]
  · exact exists_congr fun n => and_congr_right fun hn => by rw [hremove n hn]

end Plain

end Update

end TableGateway
