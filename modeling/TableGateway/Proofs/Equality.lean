import TableGateway.Proofs.Alike
import TableGateway.Proofs.Bindings
import TableGateway.Proofs.SetMembers

/-!
# Sameness

Two values are the same or not in either order, and what is the same as one of two values that are the
same is the same as the other. Only a map in which a key comes twice can tell the orders apart. No value
is the same as itself for certain: one that holds a non-number is not.
-/
namespace TableGateway.Value

open Entries

/-- The values one level down in a value. -/
def parts : Value → List Value
  | .list vs | .tuple vs | .set _ vs | .record _ vs => vs
  | .map es => es.map Prod.snd
  | _ => []

theorem snd_mem_parts {es : Fields} {e : Text × Value} (h : e ∈ es) : e.2 ∈ parts (.map es) :=
  List.mem_map_of_mem h

/-- Parts are smaller, which the induction over values goes down by. -/
theorem sizeOf_lt_of_mem_parts {v w : Value} (h : v ∈ parts w) : sizeOf v < sizeOf w := by
  cases w with
  | list vs | tuple vs | set _ vs | record _ vs =>
    have hmember : sizeOf v < sizeOf vs := List.sizeOf_lt_of_mem h
    simp only [list.sizeOf_spec, tuple.sizeOf_spec, set.sizeOf_spec, record.sizeOf_spec]
    omega
  | map es =>
    obtain ⟨⟨key, v⟩, he, rfl⟩ := List.mem_map.mp h
    have hmember := List.sizeOf_lt_of_mem he
    simp only [Prod.mk.sizeOf_spec] at hmember
    simp only [map.sizeOf_spec]
    omega
  | _ => simp [parts] at h

/-- What holds of a value whenever it holds of the values one level down holds of all values. -/
theorem partsInduction {motive : Value → Prop}
    (step : ∀ v, (∀ w ∈ parts v, motive w) → motive v) (v : Value) : motive v :=
  step v fun w _ => partsInduction step w
termination_by sizeOf v
decreasing_by exact sizeOf_lt_of_mem_parts ‹_›

/-- Does a value stand in another one, at whatever depth? -/
inductive Within : Value → Value → Prop where
  | here (v : Value) : Within v v
  | deeper {u v w : Value} (member : v ∈ parts w) (rest : Within u v) : Within u w

/-- Does no map in a value have a key twice? -/
def Keyed (v : Value) : Prop := ∀ es, Within (.map es) v → (keys es).Nodup

/-- Is no number in a value a non-number? -/
def NaNFree (v : Value) : Prop := ∀ n, Within (.number n) v → n.isNaN = false

theorem Keyed.nodup {es : Fields} (h : Keyed (.map es)) : (keys es).Nodup := h es (.here _)

theorem Keyed.part {v w : Value} (h : Keyed w) (hv : v ∈ parts w) : Keyed v :=
  fun es hes => h es (.deeper hv hes)

theorem NaNFree.number {n : Number} (h : NaNFree (.number n)) : n.isNaN = false := h n (.here _)

theorem NaNFree.part {v w : Value} (h : NaNFree w) (hv : v ∈ parts w) : NaNFree v :=
  fun n hn => h n (.deeper hv hn)

theorem keyed_of_parts {v : Value} (hmap : ∀ es, v = .map es → (keys es).Nodup)
    (hparts : ∀ w ∈ parts v, Keyed w) : Keyed v := by
  rintro es (_ | ⟨hmember, hrest⟩)
  · exact hmap es rfl
  · exact hparts _ hmember es hrest

/-- Keys are distinct throughout a map where they are in it and in its values. -/
theorem keyed_map_iff {es : Fields} :
    Keyed (.map es) ↔ (keys es).Nodup ∧ ∀ e ∈ es, Keyed e.2 := by
  refine ⟨fun h => ⟨h.nodup, fun e he => h.part (snd_mem_parts he)⟩, fun ⟨hkeys, hentries⟩ => ?_⟩
  refine keyed_of_parts (fun fs hfs => by cases hfs; exact hkeys) fun w hw => ?_
  obtain ⟨e, he, rfl⟩ := List.mem_map.mp hw
  exact hentries e he

theorem nanFree_of_parts {v : Value} (hnumber : ∀ n, v = .number n → n.isNaN = false)
    (hparts : ∀ w ∈ parts v, NaNFree w) : NaNFree v := by
  rintro n (_ | ⟨hmember, hrest⟩)
  · exact hnumber n rfl
  · exact hparts _ hmember n hrest

/-! Sameness of compound values, by their members. -/

theorem sameRow_iff {vs ws : List Value} :
    sameRow vs ws ↔ List.Forall₂ (fun v w => same v w) vs ws := by
  induction vs generalizing ws with
  | nil => cases ws <;> simp [sameRow]
  | cons v vs ih => cases ws <;> simp [sameRow, ih]

/-- Sets are the same where each member of one is the same as some member of the other. -/
theorem same_set_iff {frozen frozen' : Bool} {vs ws : List Value} :
    same (.set frozen vs) (.set frozen' ws) ↔
      (∀ v ∈ vs, ∃ w ∈ ws, same v w) ∧ ∀ w ∈ ws, ∃ v ∈ vs, same v w := by
  rw [same, Bool.and_eq_true, List.all_eq_true]
  constructor
  · exact fun ⟨hthere, hback⟩ =>
      ⟨exists_of_sameWithin hthere, fun w hw => exists_of_sameAsSome (hback w hw)⟩
  · exact fun ⟨hthere, hback⟩ => ⟨sameWithin_of hthere, fun w hw => sameAsSome_of (hback w hw)⟩

theorem exists_of_sameEntries {es fs : Fields} (h : sameEntries es fs) :
    ∀ e ∈ es, ∃ w, get? fs e.1 = some w ∧ same e.2 w := by
  induction es with
  | nil => simp
  | cons e es ih =>
    obtain ⟨key, v⟩ := e
    rw [sameEntries, Bool.and_eq_true] at h
    obtain ⟨hfirst, hrest⟩ := h
    intro e he
    rcases List.mem_cons.mp he with rfl | he
    · cases hget : get? fs key with
      | none => simp [hget] at hfirst
      | some w => exact ⟨w, rfl, by simpa [hget] using hfirst⟩
    · exact ih hrest e he

/-- Maps are the same where their look-ups are. -/
theorem same_map_iff {es fs : Fields} :
    same (.map es) (.map fs) ↔
      (∀ e ∈ es, ∃ w, get? fs e.1 = some w ∧ same e.2 w) ∧ ∀ f ∈ fs, f.1 ∈ keys es := by
  rw [same, Bool.and_eq_true, List.all_eq_true]
  simp only [has_iff_mem_keys]
  exact and_congr_left' ⟨exists_of_sameEntries, sameEntries_of⟩

/-- What counts as a number is the same as what has its exact value. -/
theorem same_of_number? {v : Value} (h : v.number?.isSome) (w : Value) :
    same v w = sameNumber v.exactForm? w.exactForm? := by
  cases v with
  | bool b => rw [same]
  | number n => rw [same]; rfl
  | _ => simp [number?] at h

/-! What a value of each kind is the same as. -/

theorem eq_of_same_null {v : Value} (h : same .null v) : v = .null := by
  cases v <;> simp_all [same, isNull]

theorem number?_isSome_of_same {v w : Value} (h : same v w) (hv : v.number?.isSome) :
    w.number?.isSome :=
  number?_of_same h ▸ hv

/-- Only a list is the same as a list, and it is so member by member. -/
theorem row_of_same_list {vs : List Value} {w : Value} (h : same (.list vs) w) :
    ∃ ws, w = .list ws ∧ List.Forall₂ (fun v w => same v w) vs ws := by
  cases w <;> simp_all [same, sameRow_iff]

theorem row_of_same_tuple {vs : List Value} {w : Value} (h : same (.tuple vs) w) :
    ∃ ws, w = .tuple ws ∧ List.Forall₂ (fun v w => same v w) vs ws := by
  cases w <;> simp_all [same, sameRow_iff]

theorem row_of_same_record {kind : RecordKind} {vs : List Value} {w : Value}
    (h : same (.record kind vs) w) :
    ∃ ws, w = .record kind ws ∧ List.Forall₂ (fun v w => same v w) vs ws := by
  cases w <;> simp_all [same, sameRow_iff]

theorem set_of_same_set {frozen : Bool} {vs : List Value} {w : Value}
    (h : same (.set frozen vs) w) : ∃ frozen' ws, w = .set frozen' ws := by
  cases w <;> simp_all [same]

theorem map_of_same_map {es : Fields} {w : Value} (h : same (.map es) w) : ∃ fs, w = .map fs := by
  cases w <;> simp_all [same]

theorem eq_of_same_anything {v : Value} (h : same .anything v) : v = .anything := by
  cases v <;> simp_all [same]

theorem eq_of_same_object {i : Nat} {v : Value} (h : same (.object i) v) : v = .object i := by
  cases v <;> simp_all [same]

/-! The laws. -/

theorem forall₂_symm {vs ws : List Value} (h : List.Forall₂ (fun v w => same v w) vs ws)
    (hsymm : ∀ v ∈ vs, ∀ w ∈ ws, same v w → same w v) :
    List.Forall₂ (fun w v => same w v) ws vs := by
  induction h with
  | nil => exact .nil
  | cons hfirst hrest ih =>
    refine .cons (hsymm _ List.mem_cons_self _ List.mem_cons_self hfirst) (ih fun v hv w hw => ?_)
    exact hsymm v (List.mem_cons_of_mem _ hv) w (List.mem_cons_of_mem _ hw)

theorem forall₂_trans {R S T : Value → Value → Prop} {us vs ws : List Value}
    (h : List.Forall₂ R us vs) (h' : List.Forall₂ S vs ws)
    (htrans : ∀ u ∈ us, ∀ v w, R u v → S v w → T u w) : List.Forall₂ T us ws := by
  induction h generalizing ws with
  | nil =>
    cases h'
    exact .nil
  | cons hfirst hrest ih =>
    cases h' with
    | cons hfirst' hrest' =>
      refine .cons (htrans _ List.mem_cons_self _ _ hfirst hfirst') (ih hrest' fun u hu => ?_)
      exact htrans u (List.mem_cons_of_mem _ hu)

/-- What holds of all pairs of a row and is symmetric in the row holds in any order of it. -/
theorem pairwise_of_perm {α : Type} {R : α → α → Prop} {xs ys : List α} (hp : xs.Perm ys)
    (hsymm : ∀ a ∈ xs, ∀ b ∈ xs, R a b → R b a) (h : xs.Pairwise R) : ys.Pairwise R := by
  have hpairs : xs.Pairwise fun a b => R a b ∧ R b a :=
    (List.Pairwise.and_mem.mp h).imp fun {a b} ⟨ha, hb, hab⟩ => ⟨hab, hsymm a ha b hb hab⟩
  exact (hp.pairwise hpairs And.symm).imp And.left

/-- Sameness goes both ways where no map has a key twice. -/
theorem same_symm {v w : Value} (hv : Keyed v) (hw : Keyed w) (h : same v w) : same w v := by
  induction v using partsInduction generalizing w with
  | step v ih =>
    cases v with
    | null =>
      obtain rfl := eq_of_same_null h
      rfl
    | bool b | number n =>
      have hnumber := number?_isSome_of_same h (by rfl)
      rw [same_of_number? (by rfl)] at h
      rwa [same_of_number? hnumber, sameNumber_comm]
    | text s =>
      obtain rfl := eq_of_same_text h
      exact h
    | blob b =>
      obtain ⟨c, rfl, hbytes⟩ := bytes_of_same_blob h
      simpa [same] using hbytes
    | list vs =>
      obtain ⟨ws, rfl, hrow⟩ := row_of_same_list h
      rw [same, sameRow_iff]
      exact forall₂_symm hrow fun v hmem w hmem' => ih v hmem (hv.part hmem) (hw.part hmem')
    | tuple vs =>
      obtain ⟨ws, rfl, hrow⟩ := row_of_same_tuple h
      rw [same, sameRow_iff]
      exact forall₂_symm hrow fun v hmem w hmem' => ih v hmem (hv.part hmem) (hw.part hmem')
    | set frozen vs =>
      obtain ⟨frozen', ws, rfl⟩ := set_of_same_set h
      obtain ⟨hthere, hback⟩ := same_set_iff.mp h
      have hsymm : ∀ v ∈ vs, ∀ w ∈ ws, same v w → same w v :=
        fun v hmem w hmem' => ih v hmem (hv.part hmem) (hw.part hmem')
      refine same_set_iff.mpr ⟨fun w hmem => ?_, fun v hmem => ?_⟩
      · obtain ⟨v, hmem', hsame⟩ := hback w hmem
        exact ⟨v, hmem', hsymm v hmem' w hmem hsame⟩
      · obtain ⟨w, hmem', hsame⟩ := hthere v hmem
        exact ⟨w, hmem', hsymm v hmem w hmem' hsame⟩
    | map es =>
      obtain ⟨fs, rfl⟩ := map_of_same_map h
      obtain ⟨hentries, hkeys⟩ := same_map_iff.mp h
      refine same_map_iff.mpr ⟨fun f hf => ?_, fun e he => ?_⟩
      · obtain ⟨e, he, hkey⟩ := List.mem_map.mp (hkeys f hf)
        obtain ⟨w, hget, hsame⟩ := hentries e he
        -- The key stands once in the second map, so what it finds there is this very entry.
        obtain rfl : f.2 = w := by
          rw [hkey, get?_of_mem hw.nodup hf] at hget
          exact Option.some.inj hget
        refine ⟨e.2, ?_, ih e.2 (snd_mem_parts he) (hv.part (snd_mem_parts he))
          (hw.part (snd_mem_parts hf)) hsame⟩
        rw [← hkey]
        exact get?_of_mem hv.nodup he
      · obtain ⟨w, hget, -⟩ := hentries e he
        exact List.mem_map.mpr ⟨(e.1, w), mem_of_get? hget, rfl⟩
    | anything =>
      obtain rfl := eq_of_same_anything h
      rfl
    | object i =>
      obtain rfl := eq_of_same_object h
      exact h
    | record kind vs =>
      obtain ⟨ws, rfl, hrow⟩ := row_of_same_record h
      rw [same, decide_eq_true rfl, Bool.true_and, sameRow_iff]
      exact forall₂_symm hrow fun v hmem w hmem' => ih v hmem (hv.part hmem) (hw.part hmem')

/-- Sameness goes on from one value to the next, in whatever forms their numbers are. -/
theorem same_trans {u v w : Value} (h : same u v) (h' : same v w) : same u w := by
  induction u using partsInduction generalizing v w with
  | step u ih =>
    cases u with
    | null =>
      obtain rfl := eq_of_same_null h
      exact h'
    | bool b | number n =>
      rw [same_of_number? (number?_isSome_of_same h (by rfl))] at h'
      rw [same_of_number? (by rfl)] at h ⊢
      revert h h'
      generalize exactForm? _ = x, exactForm? v = y, exactForm? w = z
      cases x <;> cases y <;> cases z <;> simp +contextual [sameNumber]
    | text s =>
      obtain rfl := eq_of_same_text h
      exact h'
    | blob b =>
      obtain ⟨c, rfl, hbytes⟩ := bytes_of_same_blob h
      obtain ⟨d, rfl, hbytes'⟩ := bytes_of_same_blob h'
      simp [same, hbytes, hbytes']
    | list us =>
      obtain ⟨vs, rfl, hrow⟩ := row_of_same_list h
      obtain ⟨ws, rfl, hrow'⟩ := row_of_same_list h'
      rw [same, sameRow_iff]
      exact forall₂_trans hrow hrow' fun u hu v w => ih u hu
    | tuple us =>
      obtain ⟨vs, rfl, hrow⟩ := row_of_same_tuple h
      obtain ⟨ws, rfl, hrow'⟩ := row_of_same_tuple h'
      rw [same, sameRow_iff]
      exact forall₂_trans hrow hrow' fun u hu v w => ih u hu
    | set frozen us =>
      obtain ⟨_, vs, rfl⟩ := set_of_same_set h
      obtain ⟨_, ws, rfl⟩ := set_of_same_set h'
      obtain ⟨hthere, hback⟩ := same_set_iff.mp h
      obtain ⟨hthere', hback'⟩ := same_set_iff.mp h'
      refine same_set_iff.mpr ⟨fun u hu => ?_, fun w hw => ?_⟩
      · obtain ⟨v, hv, huv⟩ := hthere u hu
        obtain ⟨w, hw, hvw⟩ := hthere' v hv
        exact ⟨w, hw, ih u hu huv hvw⟩
      · obtain ⟨v, hv, hvw⟩ := hback' w hw
        obtain ⟨u, hu, huv⟩ := hback v hv
        exact ⟨u, hu, ih u hu huv hvw⟩
    | map es =>
      obtain ⟨fs, rfl⟩ := map_of_same_map h
      obtain ⟨gs, rfl⟩ := map_of_same_map h'
      obtain ⟨hentries, hkeys⟩ := same_map_iff.mp h
      obtain ⟨hentries', hkeys'⟩ := same_map_iff.mp h'
      refine same_map_iff.mpr ⟨fun e he => ?_, fun g hg => ?_⟩
      · obtain ⟨v, hget, huv⟩ := hentries e he
        obtain ⟨w, hget', hvw⟩ := hentries' _ (mem_of_get? hget)
        exact ⟨w, hget', ih e.2 (snd_mem_parts he) huv hvw⟩
      · obtain ⟨f, hf, hkey⟩ := List.mem_map.mp (hkeys' g hg)
        exact hkey ▸ hkeys f hf
    | anything =>
      obtain rfl := eq_of_same_anything h
      exact h'
    | object i =>
      obtain rfl := eq_of_same_object h
      exact h'
    | record kind us =>
      obtain ⟨vs, rfl, hrow⟩ := row_of_same_record h
      obtain ⟨ws, rfl, hrow'⟩ := row_of_same_record h'
      rw [same, decide_eq_true rfl, Bool.true_and, sameRow_iff]
      exact forall₂_trans hrow hrow' fun u hu v w => ih u hu

/-! What cannot be told apart is not the same, and one of the two holds a non-number. -/

theorem isNaN_of_isSignaling {n : Number} (h : n.isSignaling) : n.isNaN := by
  rcases n with _ | _ | (_ | _ | _) <;> simp_all [Number.isSignaling, Number.isNaN]

theorem sameNumber_eq_false {m n : Number} (h : m.isSignaling || n.isSignaling) :
    sameNumber m.exactForm? n.exactForm? = false := by
  have hnone {k : Number} (hk : k.isSignaling) : k.exactForm? = none := by
    have hsome := k.exactForm?_isSome
    rw [isNaN_of_isSignaling hk] at hsome
    simpa using hsome
  rcases (Bool.or_eq_true _ _).mp h with h | h
  · rw [hnone h]
    rfl
  · rw [hnone h, sameNumber_comm]
    rfl

/-- Numbers clash where one of them signals. -/
theorem clashes_of_number? {v : Value} {n : Number} (h : v.number? = some n) (w : Value) :
    clashes v w = w.number?.any fun m => n.isSignaling || m.isSignaling := by
  cases v with
  | bool b =>
    obtain rfl := Option.some.inj h
    rw [clashes]
    rfl
  | number m =>
    obtain rfl := Option.some.inj h
    rw [clashes]
  | _ => simp [number?] at h

theorem NaNFree.isNaN {v : Value} {n : Number} (h : NaNFree v) (hn : v.number? = some n) :
    n.isNaN = false := by
  cases v with
  | bool b =>
    obtain rfl := Option.some.inj hn
    rfl
  | number m =>
    obtain rfl := Option.some.inj hn
    exact h.number
  | _ => simp [number?] at hn

theorem of_clashes_numbers {v w : Value} (h : clashes v w) (hv : v.number?.isSome) :
    same v w = false ∧ (NaNFree v → ¬NaNFree w) := by
  obtain ⟨n, hn⟩ := Option.isSome_iff_exists.mp hv
  rw [clashes_of_number? hn] at h
  cases hm : w.number? with
  | none => simp [hm] at h
  | some m =>
    rw [hm, Option.any_some] at h
    refine ⟨?_, fun hfree hfree' => ?_⟩
    · rw [same_of_number? hv, exactForm?, exactForm?, hn, hm]
      exact sameNumber_eq_false h
    · rcases (Bool.or_eq_true _ _).mp h with h | h
      · simpa [hfree.isNaN hn] using isNaN_of_isSignaling h
      · simpa [hfree'.isNaN hm] using isNaN_of_isSignaling h

/-- Where two rows cannot be told apart, two members cannot, which are the same if the rows are. -/
theorem clash_of_clashesRow {vs ws : List Value} (h : clashesRow vs ws) :
    ∃ v ∈ vs, ∃ w ∈ ws, clashes v w ∧ (sameRow vs ws → same v w) := by
  induction vs generalizing ws with
  | nil => simp [clashesRow] at h
  | cons v vs ih =>
    cases ws with
    | nil => simp [clashesRow] at h
    | cons w ws =>
      rw [clashesRow, Bool.or_eq_true, Bool.and_eq_true] at h
      simp only [sameRow, Bool.and_eq_true]
      rcases h with h | ⟨-, h⟩
      · exact ⟨v, List.mem_cons_self, w, List.mem_cons_self, h, And.left⟩
      · obtain ⟨v', hv, w', hw, hclash, hsame⟩ := ih h
        exact ⟨v', List.mem_cons_of_mem _ hv, w', List.mem_cons_of_mem _ hw, hclash,
          fun hrows => hsame hrows.2⟩

theorem clash_of_clashesEntries {es fs : Fields} (h : clashesEntries es fs) :
    ∃ e ∈ es, ∃ f ∈ fs, clashes e.2 f.2 ∧ (sameEntries es fs → same e.2 f.2) := by
  induction es with
  | nil => simp [clashesEntries] at h
  | cons e es ih =>
    obtain ⟨key, v⟩ := e
    rw [clashesEntries] at h
    cases hget : get? fs key with
    | none => simp [hget] at h
    | some w =>
      simp only [hget, Bool.or_eq_true, Bool.and_eq_true] at h
      simp only [sameEntries, hget, Bool.and_eq_true]
      rcases h with h | ⟨-, h⟩
      · exact ⟨(key, v), List.mem_cons_self, (key, w), mem_of_get? hget, h, And.left⟩
      · obtain ⟨e, he, f, hf, hclash, hsame⟩ := ih h
        exact ⟨e, List.mem_cons_of_mem _ he, f, hf, hclash, fun hrows => hsame hrows.2⟩

/-- Of two values that cannot be told apart, one holds a non-number, and they are not the same. -/
theorem of_clashes {v w : Value} (h : clashes v w) :
    same v w = false ∧ (NaNFree v → ¬NaNFree w) := by
  have hmembers {v w v' w' : Value} (hv : v' ∈ parts v) (hw : w' ∈ parts w)
      (hsame : same v w → same v' w')
      (ih : same v' w' = false ∧ (NaNFree v' → ¬NaNFree w')) :
      same v w = false ∧ (NaNFree v → ¬NaNFree w) := by
    refine ⟨Bool.eq_false_iff.mpr fun hs => ?_, fun hfree hfree' => ?_⟩
    · simp [hsame hs] at ih
    · exact ih.2 (hfree.part hv) (hfree'.part hw)
  induction v using partsInduction generalizing w with
  | step v ih =>
    cases v with
    | bool b | number n => exact of_clashes_numbers h rfl
    | list vs =>
      cases w with
      | list ws =>
        rw [clashes, Bool.and_eq_true] at h
        obtain ⟨v, hv, w, hw, hclash, hsame⟩ := clash_of_clashesRow h.2
        exact hmembers hv hw (by simpa [same] using hsame) (ih v hv hclash)
      | _ => simp [clashes] at h
    | tuple vs =>
      cases w with
      | tuple ws =>
        rw [clashes] at h
        obtain ⟨v, hv, w, hw, hclash, hsame⟩ := clash_of_clashesRow h
        exact hmembers hv hw (by simpa [same] using hsame) (ih v hv hclash)
      | _ => simp [clashes] at h
    | map es =>
      cases w with
      | map fs =>
        rw [clashes, Bool.and_eq_true] at h
        obtain ⟨e, he, f, hf, hclash, hsame⟩ := clash_of_clashesEntries h.2
        refine hmembers (snd_mem_parts he) (snd_mem_parts hf) (fun hs => hsame ?_)
          (ih e.2 (snd_mem_parts he) hclash)
        rw [same, Bool.and_eq_true] at hs
        exact hs.1
      | _ => simp [clashes] at h
    | record kind vs =>
      cases w with
      | record kind' ws =>
        rw [clashes, Bool.and_eq_true] at h
        obtain ⟨v, hv, w, hw, hclash, hsame⟩ := clash_of_clashesRow h.2
        refine hmembers hv hw (fun hs => hsame ?_) (ih v hv hclash)
        rw [same, Bool.and_eq_true] at hs
        exact hs.2
      | _ => simp [clashes] at h
    | _ => simp [clashes] at h

/-- Values without non-numbers are always told apart. -/
theorem equals_of_nanFree {v w : Value} (hv : NaNFree v) (hw : NaNFree w) :
    v.equals w = .ok (same v w) := by
  rw [equals, if_neg fun h => (of_clashes h).2 hv hw]

end TableGateway.Value
