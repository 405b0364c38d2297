import TableGateway.Proofs.DecimalText
import TableGateway.Proofs.SortedKeys

/-!
# Settled values

What goes through a token comes back settled: entries by key and bytes in rows that cannot grow. A
settled value is the same as the value itself. The values that are looked at are those that can be
made: no key stands twice in a map, a set has members that can be such, and all numbers are finite.
-/
namespace TableGateway

/-- Is a number neither infinite nor a non-number? -/
def Number.IsFinite : Number → Prop
  | .int _ | .float (.finite ..) | .decimal (.finite ..) => True
  | _ => False

namespace Value

mutual

/-- Is a value well made, with finite numbers only? -/
def Regular : Value → Prop
  | .number n => n.IsFinite
  | .list vs | .tuple vs => RegularAll vs
  | .set _ vs => allHashable vs ∧ RegularAll vs
  | .map es => (Entries.keys es).Nodup ∧ RegularEntries es
  | _ => True

def RegularAll : List Value → Prop
  | [] => True
  | v :: vs => Regular v ∧ RegularAll vs

def RegularEntries : List (Text × Value) → Prop
  | [] => True
  | (_, v) :: es => Regular v ∧ RegularEntries es

end

theorem regularAll_iff (vs : List Value) : RegularAll vs ↔ ∀ v ∈ vs, Regular v := by
  induction vs with
  | nil => simp [RegularAll]
  | cons v vs ih => simp [RegularAll, ih]

theorem regularEntries_iff (es : Fields) : RegularEntries es ↔ ∀ e ∈ es, Regular e.2 := by
  induction es with
  | nil => simp [RegularEntries]
  | cons e es ih => simp [RegularEntries, ih]

theorem allHashable_iff (vs : List Value) : allHashable vs ↔ ∀ v ∈ vs, hashable v := by
  induction vs with
  | nil => simp [allHashable]
  | cons v vs ih => simp [allHashable, ih]

mutual

/-- A value with its maps by key and its bytes in rows that cannot grow. -/
def settled : Value → Value
  | .blob b => .blob { b with mutable := false }
  | .list vs => .list (settledAll vs)
  | .map es => .map (Token.sortKeys (settledEntries es))
  | v => v

def settledAll : List Value → List Value
  | [] => []
  | v :: vs => settled v :: settledAll vs

def settledEntries : List (Text × Value) → Fields
  | [] => []
  | (k, v) :: es => (k, settled v) :: settledEntries es

end

theorem settledAll_eq (vs : List Value) : settledAll vs = vs.map settled := by
  induction vs with
  | nil => rfl
  | cons v vs ih => rw [settledAll, ih, List.map_cons]

theorem settledEntries_eq (es : Fields) : settledEntries es = Entries.mapValues settled es := by
  induction es with
  | nil => rfl
  | cons e es ih => rw [settledEntries, ih, Entries.mapValues, Entries.mapValues, List.map_cons]

/-- A row is the same as its image where each member is. -/
theorem sameRow_map {f : Value → Value} {vs : List Value} (h : ∀ v ∈ vs, same v (f v)) :
    sameRow vs (vs.map f) := by
  induction vs with
  | nil => rfl
  | cons v vs ih =>
    rw [List.map_cons, sameRow, h v (by simp), Bool.true_and]
    exact ih fun w hw => h w (by simp [hw])

theorem sameWithin_of {vs ws : List Value} (h : ∀ v ∈ vs, ∃ w ∈ ws, same v w) :
    sameWithin vs ws := by
  induction vs with
  | nil => rfl
  | cons v vs ih =>
    rw [sameWithin, List.any_eq_true.mpr (h v (by simp)), Bool.true_and]
    exact ih fun w hw => h w (by simp [hw])

theorem sameAsSome_of {vs : List Value} {w : Value} (h : ∃ v ∈ vs, same v w) : sameAsSome vs w := by
  obtain ⟨v, hv, hs⟩ := h
  induction vs with
  | nil => simp at hv
  | cons x vs ih =>
    rw [sameAsSome, Bool.or_eq_true]
    rcases List.mem_cons.mp hv with rfl | hv
    · exact .inl hs
    · exact .inr (ih hv)

/-- A set is itself if its members are. -/
theorem same_set {vs : List Value} (h : ∀ v ∈ vs, same v v) (frozen : Bool) :
    same (.set frozen vs) (.set frozen vs) := by
  rw [same, sameWithin_of fun v hv => ⟨v, hv, h v hv⟩, Bool.true_and, List.all_eq_true]
  intro v hv
  exact sameAsSome_of ⟨v, hv, h v hv⟩

theorem sameEntries_of {es fs : Fields}
    (h : ∀ e ∈ es, ∃ w, Entries.get? fs e.1 = some w ∧ same e.2 w) : sameEntries es fs := by
  induction es with
  | nil => rfl
  | cons e es ih =>
    obtain ⟨k, v⟩ := e
    obtain ⟨w, hw, hs⟩ := h (k, v) (by simp)
    rw [sameEntries, hw]
    simp only at hs ⊢
    rw [hs, Bool.true_and]
    exact ih fun e he => h e (by simp [he])

/-- Maps are the same if each entry of the first is that of the second, which has no other keys. -/
theorem same_map {f : Value → Value} {es fs : Fields} (hes : (Entries.keys es).Nodup)
    (hp : fs.Perm (Entries.mapValues f es)) (h : ∀ e ∈ es, same e.2 (f e.2)) :
    same (.map es) (.map fs) := by
  have hget : ∀ key, Entries.get? fs key = (Entries.get? es key).map f := by
    intro key
    rw [Entries.get?_of_perm (by simpa using hes) hp, Entries.get?_mapValues]
  have hentries : sameEntries es fs := by
    refine sameEntries_of fun e he => ⟨f e.2, ?_, h e he⟩
    rw [hget, Entries.get?_of_mem hes (v := e.2) he, Option.map_some]
  rw [same, hentries, Bool.true_and, List.all_eq_true]
  intro e he
  have hkey : e.1 ∈ Entries.keys es := by
    have hmem := (hp.map Prod.fst).mem_iff.mp (List.mem_map_of_mem he)
    rwa [← Entries.keys, Entries.keys_mapValues] at hmem
  exact (Entries.has_iff_mem_keys es e.1).mpr hkey

/-- Members of a set are among those that it was made of. -/
theorem mem_distinct {vs : List Value} : ∀ v ∈ distinct vs, v ∈ vs := by
  have hfold : ∀ kept, ∀ v ∈ vs.foldl
      (fun kept x => if kept.any (same x) then kept else kept ++ [x]) kept, v ∈ kept ∨ v ∈ vs := by
    induction vs with
    | nil => intro kept v hv; exact .inl hv
    | cons x vs ih =>
      intro kept v hv
      rw [List.foldl_cons] at hv
      rcases ih _ v hv with hv | hv
      · by_cases h : kept.any (same x) = true
        · rw [if_pos h] at hv
          exact .inl hv
        · rw [if_neg h, List.mem_append, List.mem_singleton] at hv
          rcases hv with hv | rfl
          · exact .inl hv
          · exact .inr (by simp)
      · exact .inr (by simp [hv])
  intro v hv
  simpa using hfold [] v hv

theorem insertMember_perm (v : Value) (vs : List Value) : (insertMember v vs).Perm (v :: vs) := by
  induction vs with
  | nil => exact .refl _
  | cons w ws ih =>
    rw [insertMember]
    split
    · exact (ih.cons _).trans (.swap _ _ _)
    · exact .refl _

/-- Arranging only moves members. -/
theorem arrange_perm (vs : List Value) : (arrange vs).Perm vs := by
  induction vs with
  | nil => exact .refl _
  | cons v vs ih => exact (insertMember_perm v _).trans (ih.cons _)

/-- A set made of such values is itself. -/
theorem same_ofMembers {vs : List Value} (h : ∀ v ∈ vs, same v v) :
    same (ofMembers false vs) (ofMembers false vs) :=
  same_set (fun v hv => h v (mem_distinct v ((arrange_perm _).mem_iff.mp hv))) false

end Value

end TableGateway
