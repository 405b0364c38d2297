import Mathlib.Logic.Relation
import TableGateway.Proofs.Collisions
import TableGateway.Session.Rehearsal

/-!
# Partial matches

What a rehearsal expects of a request is matched in part: a map may hold more than is expected of it, a
row may be a list where a tuple is expected, and whatever stands for anything matches all. Matching goes
on from one value to the next, so more in the request or less in what is expected of it keeps a match.
-/
namespace TableGateway.Rehearsal

open Entries Value

/-- Neither a map nor a row, so that it is compared as a whole. -/
structure Single (v : Value) : Prop where
  notMap : ∀ es, v ≠ .map es
  notRow : row? v = none

/-- Does the second value match what the first one expects? -/
inductive Matches : Value → Value → Prop where
  | anything (a : Value) : Matches .anything a
  | map {es fs : Fields} (present : ∀ e ∈ es, e.1 ∈ keys fs)
    (contents : ∀ e ∈ es, ∀ v, get? fs e.1 = some v → Matches e.2 v) : Matches (.map es) (.map fs)
  | row {v w : Value} {xs ys : List Value} (expected : row? v = some xs) (actual : row? w = some ys)
    (members : List.Forall₂ Matches xs ys) : Matches v w
  | equal {v w : Value} (single : Single v) (alike : same v w) : Matches v w

/-! Rows, maps and single values. -/

theorem parts_of_row {v : Value} {xs : List Value} (h : row? v = some xs) : parts v = xs := by
  cases v <;> simp_all [row?, parts]

theorem row_cases {v : Value} {xs : List Value} (h : row? v = some xs) :
    v = .list xs ∨ v = .tuple xs := by
  cases v <;> simp_all [row?]

theorem Single.of_same {v w : Value} (hv : Single v) (h : same v w) : Single w := by
  have hmap := hv.notMap
  have hrow := hv.notRow
  constructor
  · rintro es rfl
    cases v <;> simp_all [same, isNull, exactForm?, number?, sameNumber]
  · cases w with
    | list ws | tuple ws =>
      cases v <;> simp_all [same, isNull, exactForm?, number?, sameNumber, row?]
    | _ => rfl

theorem matches_map_iff {es : Fields} {a : Value} :
    Matches (.map es) a ↔
      ∃ fs, a = .map fs ∧ ∀ e ∈ es, ∃ v, get? fs e.1 = some v ∧ Matches e.2 v := by
  constructor
  · intro h
    cases h with
    | map present contents =>
      rename_i fs
      refine ⟨fs, rfl, fun e he => ?_⟩
      obtain ⟨v, hv⟩ := Option.ne_none_iff_exists'.mp fun hnone =>
        (get?_eq_none fs e.1).mp hnone (present e he)
      exact ⟨v, hv, contents e he v hv⟩
    | row expected => cases expected
    | equal single => exact absurd rfl (single.notMap es)
  · rintro ⟨fs, rfl, h⟩
    refine .map (fun e he => ?_) fun e he v hv => ?_
    · obtain ⟨v, hv, -⟩ := h e he
      exact List.mem_map.mpr ⟨(e.1, v), mem_of_get? hv, rfl⟩
    · obtain ⟨w, hw, hmatch⟩ := h e he
      obtain rfl : w = v := Option.some.inj (hw.symm.trans hv)
      exact hmatch

theorem matches_row_iff {v a : Value} {xs : List Value} (hv : row? v = some xs) :
    Matches v a ↔ ∃ ys, row? a = some ys ∧ List.Forall₂ Matches xs ys := by
  constructor
  · intro h
    cases h with
    | anything => cases hv
    | map => cases hv
    | row expected actual members =>
      obtain rfl := Option.some.inj (expected.symm.trans hv)
      exact ⟨_, actual, members⟩
    | equal single => cases single.notRow.symm.trans hv
  · rintro ⟨ys, ha, h⟩
    exact .row hv ha h

theorem matches_single_iff {v a : Value} (hv : Single v) :
    Matches v a ↔ v = .anything ∨ same v a := by
  constructor
  · intro h
    cases h with
    | anything => exact .inl rfl
    | map => exact absurd rfl (hv.notMap _)
    | row expected => cases hv.notRow.symm.trans expected
    | equal single alike => exact .inr alike
  · rintro (rfl | h)
    · exact .anything a
    · exact .equal hv h

/-- What a map matches, read from the side of the request. -/
theorem Matches.of_map {e : Value} {fs : Fields} (h : Matches e (.map fs)) : e = .anything ∨
    ∃ es, e = .map es ∧ ∀ x ∈ es, ∃ v, get? fs x.1 = some v ∧ Matches x.2 v := by
  cases h with
  | anything => exact .inl rfl
  | map present contents =>
    obtain ⟨_, ⟨⟩, hentries⟩ := matches_map_iff.mp (.map present contents)
    exact .inr ⟨_, rfl, hentries⟩
  | row _ actual => cases actual
  | equal single alike => exact absurd rfl ((single.of_same alike).notMap fs)

theorem Matches.of_row {e a : Value} {ys : List Value} (h : Matches e a) (ha : row? a = some ys) :
    e = .anything ∨ ∃ xs, row? e = some xs ∧ List.Forall₂ Matches xs ys := by
  cases h with
  | anything => exact .inl rfl
  | map => cases ha
  | row expected actual members =>
    obtain rfl := Option.some.inj (actual.symm.trans ha)
    exact .inr ⟨_, expected, members⟩
  | equal single alike => cases (single.of_same alike).notRow.symm.trans ha

/-! The first difference. -/

theorem difference?_eq_none {path : Text} {v w : Value} :
    difference? path v w = none ↔ same v w := by
  rw [difference?, ← Placeholder.equals_eq_true_iff]
  cases v.equals w with
  | error f => simp
  | ok equal => cases equal <;> simp

theorem mismatch?_single {v : Value} (hv : Single v) (hne : v ≠ .anything) (path : Text)
    (a : Value) : mismatch? path v a = difference? path v a := by
  cases v with
  | map es => exact absurd rfl (hv.notMap es)
  | list vs => cases hv.notRow
  | tuple vs => cases hv.notRow
  | anything => exact absurd rfl hne
  | _ => simp [mismatch?]

theorem mismatchEntries?_eq_none {es : Fields}
    (ih : ∀ e ∈ es, ∀ path a, mismatch? path e.2 a = none ↔ Matches e.2 a) (path : Text)
    (fs : Fields) : mismatchEntries? path es fs = none ↔
      ∀ e ∈ es, ∃ v, get? fs e.1 = some v ∧ Matches e.2 v := by
  induction es with
  | nil => simp [mismatchEntries?]
  | cons e es ihs =>
    obtain ⟨hfirst, hrest⟩ := List.forall_mem_cons.mp ih
    rw [List.forall_mem_cons, ← ihs hrest, mismatchEntries?]
    cases hget : get? fs e.1 with
    | none => simp
    | some v => simp [Option.or_eq_none_iff, hfirst]

theorem mismatchRow?_eq_none {xs : List Value}
    (ih : ∀ x ∈ xs, ∀ path a, mismatch? path x a = none ↔ Matches x a) (path : Text) (i : Nat)
    {ys : List Value} (hsize : xs.length = ys.length) :
    mismatchRow? path i xs ys = none ↔ List.Forall₂ Matches xs ys := by
  induction xs generalizing i ys with
  | nil =>
    obtain rfl := List.eq_nil_of_length_eq_zero hsize.symm
    simp [mismatchRow?]
  | cons x xs ihs =>
    cases ys with
    | nil => cases hsize
    | cons y ys =>
      obtain ⟨hfirst, hrest⟩ := List.forall_mem_cons.mp ih
      rw [List.forall₂_cons, ← ihs hrest (i + 1) (Nat.succ.inj hsize), mismatchRow?,
        Option.or_eq_none_iff, hfirst]

theorem mismatch?_row {v : Value} {xs : List Value} (hv : row? v = some xs)
    (ih : ∀ x ∈ xs, ∀ path a, mismatch? path x a = none ↔ Matches x a) (path : Text) (a : Value) :
    mismatch? path v a = none ↔ Matches v a := by
  rw [matches_row_iff hv]
  cases ha : row? a with
  | none => rcases row_cases hv with rfl | rfl <;> simp [mismatch?, ha]
  | some ys =>
    by_cases hsize : xs.length = ys.length
    · have hmembers := mismatchRow?_eq_none ih path 0 hsize
      rcases row_cases hv with rfl | rfl <;> simp [mismatch?, ha, hsize, hmembers]
    · have hnone : ¬List.Forall₂ Matches xs ys := fun h => hsize h.length_eq
      rcases row_cases hv with rfl | rfl <;> simp [mismatch?, ha, hsize, hnone]

theorem mismatch?_map {es : Fields}
    (ih : ∀ e ∈ es, ∀ path a, mismatch? path e.2 a = none ↔ Matches e.2 a) (path : Text)
    (a : Value) : mismatch? path (.map es) a = none ↔ Matches (.map es) a := by
  rw [matches_map_iff]
  cases a with
  | map fs => simpa [mismatch?] using mismatchEntries?_eq_none ih path fs
  | _ => simp [mismatch?]

/-- There is no difference just where the value matches, whatever the way to it is called. -/
theorem mismatch?_eq_none (path : Text) (e a : Value) :
    mismatch? path e a = none ↔ Matches e a := by
  induction e using partsInduction generalizing path a with
  | step e ih =>
    cases hrow : row? e with
    | some xs =>
      rw [parts_of_row hrow] at ih
      exact mismatch?_row hrow (fun x hx path a => ih x hx path a) path a
    | none =>
      by_cases hmap : ∃ es, e = .map es
      · obtain ⟨es, rfl⟩ := hmap
        exact mismatch?_map (fun x hx path a => ih x.2 (snd_mem_parts hx) path a) path a
      · have hsingle : Single e := ⟨fun es hes => hmap ⟨es, hes⟩, hrow⟩
        by_cases hany : e = .anything
        · subst hany
          simp [mismatch?, Matches.anything]
        · rw [mismatch?_single hsingle hany, difference?_eq_none, matches_single_iff hsingle,
            or_iff_right hany]

/-! Matching as an order. -/

theorem forall₂_of_mem {R S : Value → Value → Prop} {vs ws : List Value} (h : List.Forall₂ R vs ws)
    (himp : ∀ v ∈ vs, ∀ w, R v w → S v w) : List.Forall₂ S vs ws := by
  have hself : List.Forall₂ (fun w w' => w = w') ws ws := List.forall₂_refl ws
  exact forall₂_trans h hself fun v hv w _ hvw heq => heq ▸ himp v hv w hvw

/-- What is the same as the value that is expected matches it. -/
theorem matches_of_same {v w : Value} (h : same v w) : Matches v w := by
  induction v using partsInduction generalizing w with
  | step v ih =>
    cases v with
    | list vs =>
      obtain ⟨ws, rfl, hrow⟩ := row_of_same_list h
      exact .row rfl rfl (forall₂_of_mem hrow fun v hv w => ih v hv)
    | tuple vs =>
      obtain ⟨ws, rfl, hrow⟩ := row_of_same_tuple h
      exact .row rfl rfl (forall₂_of_mem hrow fun v hv w => ih v hv)
    | map es =>
      obtain ⟨fs, rfl⟩ := map_of_same_map h
      obtain ⟨hentries, -⟩ := same_map_iff.mp h
      refine matches_map_iff.mpr ⟨fs, rfl, fun e he => ?_⟩
      obtain ⟨v, hget, hsame⟩ := hentries e he
      exact ⟨v, hget, ih e.2 (snd_mem_parts he) hsame⟩
    | _ => exact .equal ⟨by simp, rfl⟩ h

namespace Matches

theorem refl {v : Value} (h : v.Definite) : Matches v v := matches_of_same (same_self v h)

theorem trans {e a b : Value} (h : Matches e a) (h' : Matches a b) : Matches e b := by
  induction e using partsInduction generalizing a b with
  | step e ih =>
    cases h with
    | anything => exact .anything b
    | map present contents =>
      obtain ⟨_, ⟨⟩, hentries⟩ := matches_map_iff.mp (.map present contents)
      obtain ⟨gs, rfl, hentries'⟩ := matches_map_iff.mp h'
      refine matches_map_iff.mpr ⟨gs, rfl, fun e he => ?_⟩
      obtain ⟨v, hv, hev⟩ := hentries e he
      obtain ⟨w, hw, hvw⟩ := hentries' (e.1, v) (mem_of_get? hv)
      exact ⟨w, hw, ih e.2 (snd_mem_parts he) hev hvw⟩
    | row expected actual members =>
      obtain ⟨zs, hb, members'⟩ := (matches_row_iff actual).mp h'
      rw [parts_of_row expected] at ih
      exact .row expected hb (forall₂_trans members members' fun x hx y z => ih x hx)
    -- What is the same as a single value is single too, so the second match compares as well.
    | equal single alike =>
      rcases (matches_single_iff (single.of_same alike)).mp h' with rfl | alike'
      · cases e <;> simp_all [same, isNull, exactForm?, number?, sameNumber, Matches.anything]
      · exact .equal single (same_trans alike alike')

end Matches

/-! Changes of one part. -/

/-- The second value is the first one with a part, reached through maps and rows, changed as told. -/
inductive PartChanged (change : Value → Value → Prop) : Value → Value → Prop where
  | here {v w : Value} (h : change v w) : PartChanged change v w
  | entry (before after : Fields) (key : Text) {v w : Value} (h : PartChanged change v w) :
    PartChanged change (.map (before ++ (key, v) :: after)) (.map (before ++ (key, w) :: after))
  | listMember (before after : List Value) {v w : Value} (h : PartChanged change v w) :
    PartChanged change (.list (before ++ v :: after)) (.list (before ++ w :: after))
  | tupleMember (before after : List Value) {v w : Value} (h : PartChanged change v w) :
    PartChanged change (.tuple (before ++ v :: after)) (.tuple (before ++ w :: after))

/-- A map with one more key. -/
inductive KeyAdded : Value → Value → Prop where
  | intro (before after : Fields) {key : Text} (v : Value) (fresh : key ∉ keys (before ++ after)) :
    KeyAdded (.map (before ++ after)) (.map (before ++ (key, v) :: after))

/-- What expects less: anything at all, or a map with one key less. -/
inductive Loosened : Value → Value → Prop where
  | anything (v : Value) : Loosened v .anything
  | dropped (before after : Fields) (key : Text) (v : Value) :
    Loosened (.map (before ++ (key, v) :: after)) (.map (before ++ after))

/-- A look-up after the content of an entry is replaced. -/
theorem get?_replaced {before after : Fields} {key name : Text} {u v w : Value}
    (h : get? (before ++ (key, v) :: after) name = some u) :
    get? (before ++ (key, w) :: after) name = some u ∨
      u = v ∧ get? (before ++ (key, w) :: after) name = some w := by
  rw [get?_append] at h ⊢
  cases hbefore : get? before name with
  | some u' => exact .inl (by simpa [hbefore] using h)
  | none =>
    by_cases hkey : key = name
    · exact .inr (by simpa [hbefore, hkey, eq_comm] using h)
    · exact .inl (by simpa [hbefore, hkey] using h)

theorem get?_added {before after : Fields} {key : Text} (fresh : key ∉ keys (before ++ after))
    {name : Text} {u : Value} (h : get? (before ++ after) name = some u) (v : Value) :
    get? (before ++ (key, v) :: after) name = some u := by
  have hne : key ≠ name := by
    rintro rfl
    exact fresh (List.mem_map.mpr ⟨(key, u), mem_of_get? h, rfl⟩)
  rwa [get?_append, get?_cons, if_neg hne, ← get?_append]

theorem forall₂_replaced {R : Value → Value → Prop} {v w : Value} (h : ∀ x, R x v → R x w)
    {xs before after : List Value} (hrow : List.Forall₂ R xs (before ++ v :: after)) :
    List.Forall₂ R xs (before ++ w :: after) := by
  induction before generalizing xs with
  | nil =>
    obtain ⟨x, rest, hx, hrest, rfl⟩ := List.forall₂_cons_right_iff.mp hrow
    exact .cons (h x hx) hrest
  | cons u before ih =>
    obtain ⟨x, rest, hx, hrest, rfl⟩ := List.forall₂_cons_right_iff.mp hrow
    exact .cons hx (ih hrest)

namespace Matches

theorem key_added {e a b : Value} (hadded : KeyAdded a b) (h : Matches e a) : Matches e b := by
  cases hadded with
  | intro before after v fresh =>
    rcases h.of_map with rfl | ⟨es, rfl, hentries⟩
    · exact .anything _
    · refine matches_map_iff.mpr ⟨_, rfl, fun x hx => ?_⟩
      obtain ⟨u, hget, hu⟩ := hentries x hx
      exact ⟨u, get?_added fresh hget v, hu⟩

theorem loosened {e e' a : Value} (hloosened : Loosened e e') (h : Matches e a) : Matches e' a := by
  cases hloosened with
  | anything => exact .anything a
  | dropped before after key v =>
    obtain ⟨fs, rfl, hentries⟩ := matches_map_iff.mp h
    refine matches_map_iff.mpr ⟨fs, rfl, fun x hx => hentries x ?_⟩
    exact ((List.sublist_cons_self _ after).append_left before).subset hx

variable {change : Value → Value → Prop}

/-- A change of a request that keeps what it matches does so at every part. -/
theorem of_request_changed (hchange : ∀ e v w, change v w → Matches e v → Matches e w)
    {e a b : Value} (hpart : PartChanged change a b) (h : Matches e a) : Matches e b := by
  induction hpart generalizing e with
  | here hhere => exact hchange e _ _ hhere h
  | entry before after key _ ih =>
    rcases h.of_map with rfl | ⟨es, rfl, hentries⟩
    · exact .anything _
    · refine matches_map_iff.mpr ⟨_, rfl, fun x hx => ?_⟩
      obtain ⟨u, hget, hu⟩ := hentries x hx
      rcases get?_replaced hget with hget' | ⟨rfl, hget'⟩
      · exact ⟨u, hget', hu⟩
      · exact ⟨_, hget', ih hu⟩
  | listMember before after _ ih | tupleMember before after _ ih =>
    rcases h.of_row rfl with rfl | ⟨xs, hxs, hrow⟩
    · exact .anything _
    · exact .row hxs rfl (forall₂_replaced (fun x hx => ih hx) hrow)

/-- A change of what is expected that keeps what matches it does so at every part. -/
theorem of_expected_changed (hchange : ∀ v w a, change v w → Matches v a → Matches w a)
    {e e' a : Value} (hpart : PartChanged change e e') (h : Matches e a) : Matches e' a := by
  induction hpart generalizing a with
  | here hhere => exact hchange _ _ a hhere h
  | entry before after key _ ih =>
    obtain ⟨fs, rfl, hentries⟩ := matches_map_iff.mp h
    refine matches_map_iff.mpr ⟨fs, rfl, fun x hx => ?_⟩
    rw [List.mem_append, List.mem_cons] at hx
    rcases hx with hx | rfl | hx
    · exact hentries x (by simp [hx])
    · obtain ⟨u, hget, hu⟩ := hentries (_, _) (List.mem_append_right _ List.mem_cons_self)
      exact ⟨u, hget, ih hu⟩
    · exact hentries x (by simp [hx])
  | listMember before after _ ih | tupleMember before after _ ih =>
    obtain ⟨ys, ha, hrow⟩ := (matches_row_iff rfl).mp h
    have hflip : List.Forall₂ (fun y x => Matches x y) ys _ := hrow.flip
    have hreplaced := forall₂_replaced (fun y => ih) hflip
    exact .row rfl ha hreplaced.flip

end Matches

/-- A request matches just where no difference is found, which is where it is what is expected up to
entries that are not named and kinds of rows. What is the same matches, matches go on from value to
value, and more keys in the request or less that is expected keep a match. -/
theorem matches_in_part :
    (∀ path e a, mismatch? path e a = none ↔ Matches e a) ∧
      (∀ v : Value, v.Definite → Matches v v) ∧ (∀ v w, same v w → Matches v w) ∧
      (∀ e a b, Matches e a → Matches a b → Matches e b) ∧
      (∀ e a b, Matches e a → Relation.ReflTransGen (PartChanged KeyAdded) a b → Matches e b) ∧
      ∀ e e' a, Matches e a → Relation.ReflTransGen (PartChanged Loosened) e e' → Matches e' a := by
  refine ⟨mismatch?_eq_none, fun v => Matches.refl, fun v w => matches_of_same,
    fun e a b => Matches.trans, fun e a b h hchanged => ?_, fun e e' a h hchanged => ?_⟩
  · induction hchanged with
    | refl => exact h
    | tail _ hstep ih => exact .of_request_changed (fun e v w => Matches.key_added) hstep ih
  · induction hchanged with
    | refl => exact h
    | tail _ hstep ih => exact .of_expected_changed (fun v w a => Matches.loosened) hstep ih

def expectedItem : Value :=
  .map [("Key", .map [("id", .text "a")]), ("Tags", .tuple [.int 1, .anything])]

/-- The same key with tags in a list, of which one is true and one is missing. -/
def requestedItem : Value :=
  .map [("TableName", .text "t"), ("Key", .map [("id", .text "a")]),
    ("Tags", .list [.bool true, .null])]

def requestedItemInFull : Value :=
  .map [("TableName", .text "t"), ("Key", .map [("id", .text "a"), ("sort", .int 2)]),
    ("Tags", .list [.bool true, .null])]

def expectedTags : Value := .map [("Tags", .anything)]

theorem matches_in_part_tagged :
    (mismatch? "get_item" expectedItem requestedItem = none ∧ Matches expectedItem requestedItem) ∧
      (requestedItem.Definite ∧ Matches requestedItem requestedItem) ∧
      (same (.int 1) (.bool true) ∧ Matches (.int 1) (.bool true)) ∧
      (Relation.ReflTransGen (PartChanged KeyAdded) requestedItem requestedItemInFull ∧
        Matches expectedItem requestedItemInFull) ∧
      (Relation.ReflTransGen (PartChanged Loosened) expectedItem expectedTags ∧
        Matches expectedTags requestedItem) ∧
      Matches expectedTags requestedItemInFull := by
  obtain ⟨hmatches, hrefl, hsame, htrans, hadded, hloosened⟩ := matches_in_part
  have hitem : Matches expectedItem requestedItem := (hmatches "get_item" _ _).mp rfl
  have hdefinite : requestedItem.Definite := by
    simp [requestedItem, Definite, DefiniteEntries, DefiniteAll, keys]
  have hmore : PartChanged KeyAdded requestedItem requestedItemInFull :=
    .entry [("TableName", .text "t")] _ "Key"
      (.here (.intro [("id", .text "a")] [] (.int 2) (by simp [keys])))
  have hfull := hadded _ _ _ hitem (.single hmore)
  have hless : PartChanged Loosened expectedItem (.map [("Tags", .tuple [.int 1, .anything])]) :=
    .here (.dropped [] _ "Key" _)
  have htags : PartChanged Loosened (.map [("Tags", .tuple [.int 1, .anything])]) expectedTags :=
    .entry [] [] "Tags" (.here (.anything _))
  have hchain := Relation.ReflTransGen.tail (.single hless) htags
  exact ⟨⟨rfl, hitem⟩, ⟨hdefinite, hrefl _ hdefinite⟩, ⟨rfl, hsame _ _ rfl⟩,
    ⟨.single hmore, hfull⟩, ⟨hchain, hloosened _ _ _ hitem hchain⟩,
    htrans _ _ _ (hloosened _ _ _ hitem hchain) (hadded _ _ _ (hrefl _ hdefinite) (.single hmore))⟩

end TableGateway.Rehearsal
