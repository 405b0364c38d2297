import TableGateway.Placeholder
import TableGateway.Proofs.Outcomes
import TableGateway.Proofs.Settled

/-!
# Tokens bound in turn

Where a row of bindings goes through, a token stands for the content that came with it first, and
every content that came with it later agrees with that one. Agreement is more than nothing only for
definite values, which are the same as themselves.
-/
namespace TableGateway

/-- Is a number one of those that stand for none? -/
def Number.isNaN : Number → Bool
  | .float .nan | .decimal (.nan ..) => true
  | _ => false

theorem Number.exactForm?_isSome (n : Number) : n.exactForm?.isSome = !n.isNaN := by
  cases n with
  | int n => rfl
  | float x => cases x <;> rfl
  | decimal d => cases d <;> rfl

namespace Value

mutual

/-- A value without non-numbers, in which no map has a key twice. -/
def Definite : Value → Prop
  | .number n => n.isNaN = false
  | .list vs | .tuple vs | .set _ vs | .record _ vs => DefiniteAll vs
  | .map es => (Entries.keys es).Nodup ∧ DefiniteEntries es
  | _ => True

def DefiniteAll : List Value → Prop
  | [] => True
  | v :: vs => Definite v ∧ DefiniteAll vs

def DefiniteEntries : List (Text × Value) → Prop
  | [] => True
  | (_, v) :: es => Definite v ∧ DefiniteEntries es

end

theorem same_number_self {n : Number} (h : n.isNaN = false) : same (.number n) (.number n) := by
  have hsome := n.exactForm?_isSome
  rw [h, Bool.not_false, Option.isSome_iff_exists] at hsome
  obtain ⟨x, hx⟩ := hsome
  simp [same, exactForm?, number?, hx, sameNumber]

theorem sameRow_self {vs : List Value} (h : ∀ v ∈ vs, same v v) : sameRow vs vs := by
  simpa using sameRow_map (f := id) h

theorem same_map_self {es : Fields} (hkeys : (Entries.keys es).Nodup)
    (h : ∀ e ∈ es, same e.2 e.2) : same (.map es) (.map es) :=
  same_map (f := id) hkeys (by simp [Entries.mapValues]) h

mutual

/-- A value that is definite throughout is the same as itself. -/
theorem same_self : (v : Value) → v.Definite → same v v
  | .null, _ => rfl
  | .bool b, _ => by simp [same, exactForm?, number?, Number.exactForm?, sameNumber]
  | .number n, h => same_number_self h
  | .text s, _ => by simp [same]
  | .blob b, _ => by simp [same]
  | .list vs, h | .tuple vs, h => sameRow_self (same_self_all vs h)
  | .set frozen vs, h => same_set (same_self_all vs h) frozen
  | .map es, h => same_map_self h.1 (same_self_entries es h.2)
  | .anything, _ => rfl
  | .object i, _ => by simp [same]
  | .record kind vs, h => by
    rw [same, sameRow_self (same_self_all vs h)]
    simp

theorem same_self_all : (vs : List Value) → DefiniteAll vs → ∀ v ∈ vs, same v v
  | [], _, v, hv => by simp at hv
  | w :: ws, h, v, hv => by
    rcases List.mem_cons.mp hv with hw | hv
    · rw [hw]
      exact same_self w h.1
    · exact same_self_all ws h.2 v hv

theorem same_self_entries : (es : List (Text × Value)) → DefiniteEntries es →
    ∀ e ∈ es, same e.2 e.2
  | [], _, e, he => by simp at he
  | (k, v) :: es, h, e, he => by
    rcases List.mem_cons.mp he with hv | he
    · rw [hv]
      exact same_self v h.1
    · exact same_self_entries es h.2 e he

end

/-- Is the first value the second one itself or the same as it? -/
def Agrees (v w : Value) : Prop := v = w ∨ same v w

theorem Agrees.same {v w : Value} (h : Agrees v w) (hw : w.Definite) : Value.same v w := by
  rcases h with rfl | h
  · exact same_self v hw
  · exact h

theorem agrees_text {v : Value} {s : Text} (h : Agrees v (.text s)) : v = .text s := by
  rcases h with h | h
  · exact h
  · cases v with
    | text t => simpa [Value.same] using h
    | _ => simp [Value.same, isNull, exactForm?, number?, sameNumber] at h

/-- What is found equal agrees. -/
theorem agrees_of_equals {v w : Value} (h : v.equals w = .ok true) : Agrees v w := by
  rw [equals] at h
  split at h
  · simp at h
  · exact .inr (Except.ok.inj h)

end Value

namespace Placeholder

open Entries

/-- Does the token stand in a map for something like the given content? -/
def Stands (alike : Value → Value → Prop) (m : Fields) (token : Text) (content : Value) : Prop :=
  ∃ bound, get? m token = some bound ∧ alike bound content

theorem bind_ok {target m : Fields} {token : Text} {content : Value}
    (h : bind target token content = .ok m) :
    (∀ key, get? m key = get? (target ++ [(token, content)]) key) ∧
      Stands Value.Agrees m token content := by
  rw [bind] at h
  cases hb : get? target token with
  | none =>
    rw [hb] at h
    obtain rfl := Except.ok.inj h
    refine ⟨fun key => rfl, content, ?_, .inl rfl⟩
    simp [get?_append, hb]
  | some bound =>
    rw [hb] at h
    obtain ⟨equal, hequal, h⟩ := Result.bind_eq_ok.mp h
    cases equal with
    | false => simp [refuse] at h
    | true =>
      obtain rfl := Except.ok.inj h
      refine ⟨fun key => ?_, bound, hb, Value.agrees_of_equals hequal⟩
      by_cases hk : token = key
      · subst hk
        simp [get?_append, hb]
      · simp [get?_append, hk]

/-- Every token stands for what came with it first. -/
theorem get?_bindAll {target bs m : Fields} (h : bindAll target bs = .ok m) (key : Text) :
    get? m key = get? (target ++ bs) key := by
  induction bs generalizing target with
  | nil =>
    obtain rfl := Except.ok.inj h
    rw [List.append_nil]
  | cons b bs ih =>
    obtain ⟨token, content⟩ := b
    obtain ⟨next, hbind, h⟩ := Result.bind_eq_ok.mp h
    rw [ih h, get?_append, (bind_ok hbind).1 key, ← get?_append, List.append_assoc]
    rfl

/-- A token that stands for something goes on doing so, whatever is bound after it. -/
theorem Stands.of_bindAll {alike : Value → Value → Prop} {target bs m : Fields}
    (h : bindAll target bs = .ok m) {token : Text} {content : Value}
    (hs : Stands alike target token content) : Stands alike m token content := by
  obtain ⟨bound, hb, ha⟩ := hs
  refine ⟨bound, ?_, ha⟩
  rw [get?_bindAll h, get?_append, hb, Option.some_or]

/-- No content is bound to a token that stands for another one. -/
theorem stands_of_bindAll {target bs m : Fields} (h : bindAll target bs = .ok m) :
    ∀ b ∈ bs, Stands Value.Agrees m b.1 b.2 := by
  induction bs generalizing target with
  | nil => simp
  | cons b bs ih =>
    obtain ⟨token, content⟩ := b
    obtain ⟨next, hbind, h⟩ := Result.bind_eq_ok.mp h
    intro b' hb'
    rcases List.mem_cons.mp hb' with rfl | hb'
    · exact (bind_ok hbind).2.of_bindAll h
    · exact ih h b' hb'

/-- The tokens that are bound are those that were and those of the row. -/
theorem mem_keys_bindAll {target bs m : Fields} (h : bindAll target bs = .ok m) (key : Text) :
    key ∈ keys m ↔ key ∈ keys target ∨ key ∈ keys bs := by
  have hnone := get?_eq_none m key
  rw [get?_bindAll h key, get?_eq_none] at hnone
  have hiff := not_iff_not.mp hnone
  rw [← hiff, keys, List.map_append, List.mem_append]
  rfl

/-- What is bound came with a token or was bound before. -/
theorem mem_bindAll {target bs m : Fields} (h : bindAll target bs = .ok m) :
    ∀ e ∈ m, e ∈ target ∨ e ∈ bs := by
  induction bs generalizing target with
  | nil =>
    obtain rfl := Except.ok.inj h
    exact fun e he => .inl he
  | cons b bs ih =>
    obtain ⟨token, content⟩ := b
    obtain ⟨next, hbind, h⟩ := Result.bind_eq_ok.mp h
    have hnext : ∀ e ∈ next, e ∈ target ∨ e = (token, content) := by
      rw [bind] at hbind
      cases hget : get? target token with
      | none =>
        rw [hget] at hbind
        obtain rfl := Except.ok.inj hbind
        simp
      | some bound =>
        rw [hget] at hbind
        obtain ⟨equal, -, hbind⟩ := Result.bind_eq_ok.mp hbind
        cases equal with
        | false => simp [refuse] at hbind
        | true =>
          obtain rfl := Except.ok.inj hbind
          exact fun e he => .inl he
    intro e he
    rcases ih h e he with he | he
    · exact (hnext e he).imp_right fun heq => by simp [heq]
    · exact .inr (List.mem_cons_of_mem _ he)

/-- Rows are bound one after the other. -/
theorem bindAll_append (target as bs : Fields) :
    bindAll target (as ++ bs) = bindAll target as >>= fun m => bindAll m bs := by
  induction as generalizing target with
  | nil => rfl
  | cons a as ih =>
    obtain ⟨token, content⟩ := a
    rw [List.cons_append, bindAll, bindAll]
    cases bind target token content with
    | ok m => exact ih m
    | error f => rfl

/-- Names that have a text are bound like any other content. -/
theorem bindNames_eq (e : Encoder) (target : Fields) {names : List Value}
    (h : names.all Value.hasDisplay) :
    bindNames e target names = bindAll target (names.map fun n => (e.name n.display, n)) := by
  induction names generalizing target with
  | nil => rfl
  | cons n names ih =>
    simp only [List.all_cons, Bool.and_eq_true] at h
    rw [bindNames, List.map_cons, bindAll, bindName, Value.shown, if_pos h.1]
    cases hb : bind target (e.name n.display) n with
    | ok m => simpa [hb] using ih m h.2
    | error f => simp [hb]

end Placeholder

end TableGateway
