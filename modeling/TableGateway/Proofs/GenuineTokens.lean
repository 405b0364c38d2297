import TableGateway.Proofs.Alike
import TableGateway.Proofs.DecodedValues
import TableGateway.Proofs.Normal

/-!
# Tokens of genuine keys

Texts, numbers, truth values and the members of sets of numbers or of texts are taken from a token as
they stand, so a token can be read as a key that has none. The keys that have a token of their own are
those of genuine values under names that can be encoded; one of these comes back from its token as it
was.
-/
namespace TableGateway

open Entries

/-- Numbers that come back from a token: whole ones that the store can hold, and decimals that are
taken. -/
def Number.Genuine : Number → Prop
  | .int n => (digitsOf n.natAbs).length ≤ Decimal.maxDigits
  | .float _ => False
  | .decimal d => d.Taken

namespace Value

/-- Members of which all are genuine numbers, all are texts without lone halves or all are bytes. -/
def OneKind (vs : List Value) : Prop :=
  (∀ v ∈ vs, ∃ n, v.number? = some n ∧ n.Genuine) ∨ (∀ v ∈ vs, ∃ s, v = .text s ∧ s.Unbroken) ∨
    ∀ v ∈ vs, ∃ b, v = .blob b

mutual

/-- Values without doubles, non-numbers, infinities above all numbers, whole numbers of too many
digits, sets of more than one kind, and lone halves in texts and keys. -/
def Genuine : Value → Prop
  | .null | .bool _ | .blob _ => True
  | .text s => s.Unbroken
  | .number n => n.Genuine
  | .list vs => GenuineAll vs
  | .set _ vs => OneKind vs
  | .map es => GenuineEntries es
  | _ => False

def GenuineAll : List Value → Prop
  | [] => True
  | v :: vs => Genuine v ∧ GenuineAll vs

def GenuineEntries : List (Text × Value) → Prop
  | [] => True
  | (k, v) :: es => k.Unbroken ∧ Genuine v ∧ GenuineEntries es

end

theorem genuineAll_iff (vs : List Value) : GenuineAll vs ↔ ∀ v ∈ vs, v.Genuine := by
  induction vs with
  | nil => simp [GenuineAll]
  | cons v vs ih => simp [GenuineAll, ih]

theorem genuineEntries_iff (es : Fields) :
    GenuineEntries es ↔ ∀ e ∈ es, e.1.Unbroken ∧ e.2.Genuine := by
  induction es with
  | nil => simp [GenuineEntries]
  | cons e es ih => simp [GenuineEntries, ih, and_assoc]

/-- The induction over values, with all members of lists and maps at hand. -/
@[elab_as_elim]
theorem memberInduction {motive : Value → Prop} (null : motive .null)
    (bool : ∀ b, motive (.bool b)) (number : ∀ n, motive (.number n)) (text : ∀ s, motive (.text s))
    (blob : ∀ b, motive (.blob b)) (list : ∀ vs, (∀ v ∈ vs, motive v) → motive (.list vs))
    (tuple : ∀ vs, motive (.tuple vs)) (set : ∀ frozen vs, motive (.set frozen vs))
    (map : ∀ es, (∀ e ∈ es, motive e.2) → motive (.map es)) (anything : motive .anything)
    (object : ∀ i, motive (.object i)) (record : ∀ kind vs, motive (.record kind vs)) (v : Value) :
    motive v := by
  refine @Value.rec motive (fun vs => ∀ v ∈ vs, motive v) (fun es => ∀ e ∈ es, motive e.2)
    (fun e => motive e.2) null bool number text blob list (fun vs _ => tuple vs)
    (fun frozen vs _ => set frozen vs) map anything object (fun kind vs _ => record kind vs)
    ?_ ?_ ?_ ?_ ?_ v
  · simp
  · exact fun v vs hv hvs => List.forall_mem_cons.mpr ⟨hv, hvs⟩
  · simp
  · exact fun e es he hes => List.forall_mem_cons.mpr ⟨he, hes⟩
  · exact fun _ _ hv => hv

theorem Genuine.unbroken {v : Value} (h : v.Genuine) : v.Unbroken := by
  induction v using memberInduction with
  | null | bool | number | blob => trivial
  | text s => exact h
  | list vs ih =>
    have hvs := (genuineAll_iff vs).mp h
    exact (unbrokenAll_iff vs).mpr fun v hv => ih v hv (hvs v hv)
  | set frozen vs =>
    refine (unbrokenAll_iff vs).mpr fun v hv => ?_
    rcases h with h | h | h
    · obtain ⟨n, hn, -⟩ := h v hv
      cases v with
      | bool | number => trivial
      | _ => cases hn
    · obtain ⟨s, rfl, hs⟩ := h v hv
      exact hs
    · obtain ⟨b, rfl⟩ := h v hv
      trivial
  | map es ih =>
    have hes := (genuineEntries_iff es).mp h
    exact (unbrokenEntries_iff es).mpr fun e he => ⟨(hes e he).1, ih e he (hes e he).2⟩
  | tuple | anything | object | record => exact h.elim

end Value

namespace Decimal

/-- Whole numbers that the store can hold. -/
theorem stored_whole {s : Bool} {c : Nat} :
    (∃ d, storedFinite s c 0 = .ok d) ↔ (digitsOf c).length ≤ maxDigits := by
  have hpositive : 0 < (digitsOf c).length := List.length_pos_iff.mpr (digitsOf_ne_nil c)
  constructor
  · rintro ⟨d, hd⟩
    by_contra hlong
    have hcount : maxDigits < (digitsOf c).length := by omega
    have hc : c ≠ 0 := by
      rintro rfl
      exact absurd hcount (by decide)
    simp only [storedFinite, if_neg hc, if_pos hcount] at hd
    split at hd
    · cases hd
    · split at hd
      · cases hd
      · split at hd
        · cases hd
        · split at hd <;> cases hd
  · intro hshort
    refine ⟨.finite s c 0, ?_⟩
    have hlow : ¬((0 : Int) < lastLimit) := by decide
    have htop : ¬topLimit < (0 : Int) + (digitsOf c).length - 1 := by
      simp only [topLimit, maxDigits] at hshort ⊢
      omega
    have hcount : ¬maxDigits < (digitsOf c).length := by omega
    by_cases hc : c = 0
    · subst hc
      rfl
    · simp only [storedFinite, if_neg hc, if_neg htop, hlow, false_and, if_false, if_neg hcount]

end Decimal

namespace Attribute

/-- A genuine number that was read has digits, which are read as the same number. -/
theorem digits_genuine {n : Number} (hg : n.Genuine) (hn : (Value.number n).Decoded) :
    ∃ d, digitsOfNumber n = .ok d ∧ Storable d ∧
      decimalValue d = .number (.decimal (decimalOf n)) ∧
      ∃ x, n.exactForm? = some x ∧ (Number.decimal (decimalOf n)).exactForm? = some x := by
  cases n with
  | int n =>
    obtain ⟨d, hd⟩ := Decimal.stored_whole (s := n < 0).mpr hg
    obtain rfl := Decimal.eq_of_storedFinite hd
    have hstored : (Decimal.ofInt n).stored = .ok (.ofInt n) := hd
    have hread : (Text.whole (Decimal.ofInt n).text).chars?.bind Decimal.read? = some (.ofInt n) :=
      Decimal.read?_text _ _ _
    refine ⟨(Decimal.ofInt n).text, ?_, ⟨.ofInt n, hread, hstored, trivial⟩, ?_, _, rfl, rfl⟩
    · simp [digitsOfNumber, storedDecimal, hstored]
    · rw [decimalValue, decimalOfText, hread]
      rfl
  | float => exact hg.elim
  | decimal d =>
    have hread : (Text.whole d.text).chars?.bind Decimal.read? = some d := read?_taken hg
    obtain ⟨x, hx⟩ := exactForm_of_taken hg
    refine ⟨d.text, digitsOfNumber_taken hn hg, ⟨d, hread, hn, hg⟩, ?_, x, hx, hx⟩
    rw [decimalValue, decimalOfText, hread]
    rfl

theorem ofValues_ok {vs : List Value} {as : List Attribute} (h : ofValues vs = .ok as) :
    ∀ v ∈ vs, ∃ a, ofValue v = .ok a := by
  induction vs generalizing as with
  | nil => simp
  | cons v vs ih =>
    obtain ⟨a, ha, h⟩ := Result.bind_eq_ok.mp h
    obtain ⟨bs, hbs, -⟩ := Result.bind_eq_ok.mp h
    exact List.forall_mem_cons.mpr ⟨⟨a, ha⟩, ih hbs⟩

end Attribute

namespace Value

/-- What counts as a number is the same as what has its exact value. -/
theorem same_of_number {v : Value} {n : Number} (h : v.number? = some n) (w : Value) :
    v.same w = sameNumber n.exactForm? w.exactForm? := by
  cases v with
  | bool b =>
    obtain rfl := Option.some.inj h
    rfl
  | number m =>
    obtain rfl := Option.some.inj h
    rfl
  | _ => cases h

/-- Each value of a row that is itself is the same as one that is kept. -/
theorem exists_same_distinct {vs : List Value} {v : Value} (hv : v ∈ vs) (h : v.same v) :
    ∃ w ∈ distinct vs, v.same w := by
  have hkept : ∀ (ws kept : List Value), ∀ w ∈ kept, w ∈ ws.foldl
      (fun kept x => if kept.any (same x) then kept else kept ++ [x]) kept := by
    intro ws
    induction ws with
    | nil => exact fun kept w hw => hw
    | cons x ws ih =>
      intro kept w hw
      rw [List.foldl_cons]
      split
      · exact ih kept w hw
      · exact ih _ w (List.mem_append_left _ hw)
  have hfold : ∀ kept, ∃ w ∈ vs.foldl
      (fun kept x => if kept.any (same x) then kept else kept ++ [x]) kept, v.same w := by
    induction vs with
    | nil => simp at hv
    | cons x vs ih =>
      intro kept
      rw [List.foldl_cons]
      rcases List.mem_cons.mp hv with rfl | hv
      · split
        · rename_i hany
          obtain ⟨w, hw, hsame⟩ := List.any_eq_true.mp hany
          exact ⟨w, hkept vs kept w hw, hsame⟩
        · exact ⟨v, hkept vs _ v (by simp), h⟩
      · exact ih hv _
  exact hfold []

/-- A set is the same as one made of other members, if each of its members is the same as whatever
one of these is the same as. -/
theorem same_set_ofMembers {vs ws : List Value} (frozen : Bool)
    (hthere : ∀ v ∈ vs, ∃ w ∈ ws, w.same w ∧ ∀ u, w.same u → v.same u)
    (hback : ∀ w ∈ ws, ∃ v ∈ vs, v.same w) : same (.set frozen vs) (ofMembers false ws) := by
  have hmem : ∀ w, w ∈ arrange (distinct ws) ↔ w ∈ distinct ws := fun w => (arrange_perm _).mem_iff
  rw [ofMembers, same, Bool.and_eq_true]
  refine ⟨sameWithin_of fun v hv => ?_, List.all_eq_true.mpr fun w hw => ?_⟩
  · obtain ⟨w, hw, hself, hsame⟩ := hthere v hv
    obtain ⟨u, hu, hwu⟩ := exists_same_distinct hw hself
    exact ⟨u, (hmem u).mpr hu, hsame u hwu⟩
  · exact sameAsSome_of (hback w (mem_distinct w ((hmem w).mp hw)))

/-- A value that goes over to an attribute value and comes back from it settled, as it was. -/
structure Restored (v : Value) : Prop where
  taken : ∃ a, Attribute.ofValue v = .ok a
  sound : (Token.accepted v).Sound
  same : v.same (Token.handedBack v)

theorem restored_of {v : Value} {a : Attribute} (ha : Attribute.ofValue v = .ok a) (hs : a.Sound)
    (h : v.same a.value.settled) : v.Restored := by
  have haccepted : Token.accepted v = a := by
    rw [Token.accepted, ha]
    rfl
  exact ⟨⟨a, ha⟩, haccepted ▸ hs, by rwa [Token.handedBack, haccepted]⟩

theorem restored_number {n : Number} (hn : (Value.number n).Decoded) (hg : n.Genuine) :
    (Value.number n).Restored := by
  obtain ⟨d, hd, hstorable, hvalue, x, hx, hy⟩ := Attribute.digits_genuine hg hn
  refine restored_of (a := .number d) ?_ hstorable ?_
  · rw [Attribute.ofValue, hd]
    rfl
  · rw [Attribute.value, hvalue]
    change (number n).same (number (.decimal (Attribute.decimalOf n))) = true
    simp [same, exactForm?, number?, hx, hy, sameNumber]

/-- A member that counts as a genuine number has digits, and no comparison tells it from the number
that they show. -/
theorem exists_digits {v : Value} (hv : v.Decoded) {n : Number} (hn : v.number? = some n)
    (hg : n.Genuine) : ∃ d, Attribute.digits v = .ok d ∧ Attribute.Storable d ∧
      ∀ w, v.same w = (Attribute.decimalValue d).same w := by
  have hdecoded : (Value.number n).Decoded := by
    cases v with
    | bool b =>
      obtain rfl := Option.some.inj hn
      trivial
    | number m =>
      obtain rfl := Option.some.inj hn
      exact hv
    | _ => cases hn
  obtain ⟨d, hd, hstorable, hvalue, x, hx, hy⟩ := Attribute.digits_genuine hg hdecoded
  refine ⟨d, ?_, hstorable, fun w => ?_⟩
  · rw [Attribute.digits, hn]
    exact hd
  · rw [same_of_number hn, hvalue, same, hx, hy]

theorem restored_numbers (frozen : Bool) {vs : List Value} (hvs : ∀ v ∈ vs, v.Decoded)
    (hg : ∀ v ∈ vs, ∃ n, v.number? = some n ∧ n.Genuine) : (Value.set frozen vs).Restored := by
  have hdigits : ∀ v ∈ vs, ∃ d, Attribute.digits v = .ok d ∧ Attribute.Storable d ∧
      ∀ w, v.same w = (Attribute.decimalValue d).same w := by
    intro v hv
    obtain ⟨n, hn, hgenuine⟩ := hg v hv
    exact exists_digits (hvs v hv) hn hgenuine
  obtain ⟨ds, hds⟩ := Result.exists_mapM fun v hv => (hdigits v hv).imp fun d hd => hd.1
  have hread : ∀ v ∈ vs, ∀ d, Attribute.digits v = .ok d → Attribute.Storable d ∧
      ∀ w, v.same w = (Attribute.decimalValue d).same w := by
    intro v hv d hd
    obtain ⟨d', hd', hrest⟩ := hdigits v hv
    obtain rfl := Except.ok.inj (hd'.symm.trans hd)
    exact hrest
  have hall : vs.all (·.number?.isSome) = true := by
    rw [List.all_eq_true]
    intro v hv
    obtain ⟨n, hn, -⟩ := hg v hv
    simp [hn]
  refine restored_of (a := .numbers ds) ?_ (fun d hd => ?_) ?_
  · rw [Attribute.ofValue, Attribute.ofSet, if_pos hall, hds]
    rfl
  · obtain ⟨v, hv, hvd⟩ := Result.exists_source_of_mapM hds d hd
    exact (hread v hv d hvd).1
  · refine same_set_ofMembers frozen (fun v hv => ?_) fun w hw => ?_
    · obtain ⟨d, hd, hvd⟩ := Result.exists_mem_of_mapM hds v hv
      obtain ⟨hstorable, hsame⟩ := hread v hv d hvd
      refine ⟨_, List.mem_map_of_mem hd, (Attribute.decodeNumber_digits hstorable).2.2, fun u hu => ?_⟩
      rw [hsame, hu]
    · obtain ⟨d, hd, rfl⟩ := List.mem_map.mp hw
      obtain ⟨v, hv, hvd⟩ := Result.exists_source_of_mapM hds d hd
      obtain ⟨hstorable, hsame⟩ := hread v hv d hvd
      refine ⟨v, hv, ?_⟩
      rw [hsame]
      exact (Attribute.decodeNumber_digits hstorable).2.2

theorem same_set_members {vs : List Value} (frozen : Bool) (h : ∀ v ∈ vs, v.same v) :
    same (.set frozen vs) (ofMembers false vs) :=
  same_set_ofMembers frozen (fun v hv => ⟨v, hv, h v hv, fun _ => id⟩) fun v hv => ⟨v, hv, h v hv⟩

theorem restored_texts (frozen : Bool) {vs : List Value} (hne : vs ≠ [])
    (h : ∀ v ∈ vs, ∃ s, v = .text s) : (Value.set frozen vs).Restored := by
  obtain ⟨ss, hss, hmap⟩ :=
    Attribute.ofSet_texts hne fun v hv => (h v hv).imp fun _ heq => heq.symm
  refine restored_of (a := .texts ss) hss trivial ?_
  rw [Attribute.value, hmap]
  refine same_set_members frozen fun v hv => ?_
  obtain ⟨s, rfl⟩ := h v hv
  simp [same]

theorem restored_byteRows (frozen : Bool) {vs : List Value} (hne : vs ≠ [])
    (hvs : ∀ v ∈ vs, v.hashable ∧ v.Decoded) (h : ∀ v ∈ vs, ∃ b, v = .blob b) :
    (Value.set frozen vs).Restored := by
  have hblobs : ∀ v ∈ vs, ∃ r : Bool × List UInt8, .blob ⟨r.2, r.1, true⟩ = v ∧ r.1 = false := by
    intro v hv
    obtain ⟨⟨bs, mutable, wrapped⟩, rfl⟩ := h v hv
    obtain ⟨hhash, hwrapped⟩ := hvs _ hv
    obtain rfl : wrapped = true := hwrapped
    exact ⟨(mutable, bs), rfl, by simpa [hashable] using hhash⟩
  obtain ⟨rows, hrows, hmap, hfixed⟩ := Attribute.ofSet_byteRows hne hblobs
  refine restored_of (a := .byteRows rows) hrows hfixed ?_
  rw [Attribute.value, hmap]
  refine same_set_members frozen fun v hv => ?_
  obtain ⟨b, rfl⟩ := h v hv
  simp [same]

theorem restored_set (frozen : Bool) {vs : List Value} (hvs : ∀ v ∈ vs, v.hashable ∧ v.Decoded)
    (h : OneKind vs) : (Value.set frozen vs).Restored := by
  -- A set of nothing goes over as one of numbers, whatever it was read from.
  by_cases hne : vs = []
  · subst hne
    exact restored_numbers frozen (by simp) (by simp)
  rcases h with h | h | h
  · exact restored_numbers frozen (fun v hv => (hvs v hv).2) h
  · exact restored_texts frozen hne fun v hv => (h v hv).imp fun _ hs => hs.1
  · exact restored_byteRows frozen hne hvs h

theorem restored_list {vs : List Value} (h : ∀ v ∈ vs, v.Restored) : (Value.list vs).Restored := by
  have hvalues : Attribute.ofValues vs = .ok (vs.map Token.accepted) := by
    induction vs with
    | nil => rfl
    | cons v vs ih =>
      rw [Attribute.ofValues, Token.ofValue_eq (h v (by simp)).taken,
        ih fun w hw => h w (by simp [hw])]
      rfl
  refine restored_of (a := .list (vs.map Token.accepted)) ?_ ?_ ?_
  · rw [Attribute.ofValue, hvalues]
    rfl
  · rw [Attribute.Sound, Attribute.soundAll_iff, List.forall_mem_map]
    exact fun v hv => (h v hv).sound
  · rw [Attribute.value, Attribute.values_eq, settled, settledAll_eq, same, List.map_map, List.map_map]
    exact sameRow_map fun v hv => (h v hv).same

theorem restored_map {es : Fields} (hkeys : (keys es).Nodup) (h : ∀ e ∈ es, e.2.Restored) :
    (Value.map es).Restored := by
  refine restored_of (a := .map (mapValues Token.accepted es)) ?_ ⟨by simpa using hkeys, ?_⟩ ?_
  · rw [Attribute.ofValue, Token.ofEntries_eq fun e he => (h e he).taken]
    rfl
  · rw [Attribute.soundEntries_iff, mapValues, List.forall_mem_map]
    exact fun e he => (h e he).sound
  · rw [Attribute.value, Attribute.valueEntries_eq, settled, settledEntries_eq]
    refine same_map (f := Token.handedBack) hkeys ?_ fun e he => (h e he).same
    simp only [mapValues, List.map_map]
    exact Token.sortKeys_perm _

/-- Genuine values that were read from a token come back from one. -/
theorem restored_of_genuine {v : Value} (hv : v.Decoded) (h : v.Genuine) : v.Restored := by
  induction v using memberInduction with
  | null => exact restored_of rfl trivial rfl
  | bool b => exact restored_of rfl trivial (by cases b <;> rfl)
  | number n => exact restored_number hv h
  | text s => exact restored_of rfl trivial (by simp [Attribute.value, settled, same])
  | blob b => exact restored_of rfl trivial (by simp [Attribute.value, settled, same])
  | list vs ih =>
    have hdecoded := (decodedAll_iff vs).mp hv
    have hgenuine := (genuineAll_iff vs).mp h
    exact restored_list fun w hw => ih w hw (hdecoded w hw) (hgenuine w hw)
  | set frozen vs =>
    have hhash := (allHashable_iff vs).mp hv.1
    have hdecoded := (decodedAll_iff vs).mp hv.2
    exact restored_set frozen (fun w hw => ⟨hhash w hw, hdecoded w hw⟩) h
  | map es ih =>
    have hdecoded := (decodedEntries_iff es).mp hv.2
    have hgenuine := (genuineEntries_iff es).mp h
    exact restored_map hv.1 fun e he => ih e he (hdecoded e he) (hgenuine e he).2
  | tuple | anything | object | record => exact hv.elim

theorem same_row {vs : List Value} {w : Value} (h : (Value.list vs).same w) :
    ∀ v ∈ vs, ∃ u, v.same u := by
  obtain ⟨ws, rfl⟩ : ∃ ws, w = .list ws := by
    cases w with
    | list ws => exact ⟨ws, rfl⟩
    | _ => cases h
  rw [same] at h
  induction vs generalizing ws with
  | nil => simp
  | cons v vs ih =>
    cases ws with
    | nil => cases h
    | cons u us =>
      rw [sameRow, Bool.and_eq_true] at h
      exact List.forall_mem_cons.mpr ⟨⟨u, h.1⟩, ih us h.2⟩

theorem same_entries {es : Fields} {w : Value} (h : (Value.map es).same w) :
    ∀ e ∈ es, ∃ u, e.2.same u := by
  obtain ⟨fs, rfl⟩ : ∃ fs, w = .map fs := by
    cases w with
    | map fs => exact ⟨fs, rfl⟩
    | _ => cases h
  rw [same, Bool.and_eq_true] at h
  have hentries := h.1
  clear h
  induction es with
  | nil => simp
  | cons e es ih =>
    obtain ⟨k, v⟩ := e
    rw [sameEntries, Bool.and_eq_true] at hentries
    refine List.forall_mem_cons.mpr ⟨?_, ih hentries.2⟩
    cases hget : get? fs k with
    | none => simp [hget] at hentries
    | some u => exact ⟨u, by simpa [hget] using hentries.1⟩

theorem same_members {frozen : Bool} {vs : List Value} {w : Value} (h : (Value.set frozen vs).same w) :
    ∀ v ∈ vs, ∃ u, v.same u := by
  obtain ⟨frozen', ws, rfl⟩ : ∃ frozen' ws, w = .set frozen' ws := by
    cases w with
    | set frozen' ws => exact ⟨frozen', ws, rfl⟩
    | _ => cases h
  rw [same, Bool.and_eq_true] at h
  intro v hv
  obtain ⟨u, -, hu⟩ := exists_of_sameWithin h.1 v hv
  exact ⟨u, hu⟩

/-- Numbers with digits that are the same as something are genuine. -/
theorem genuine_of_digits {v w : Value} {n : Number} (hn : v.number? = some n) {d : Text}
    (hd : Attribute.digitsOfNumber n = .ok d) (hsame : v.same w) : n.Genuine := by
  rw [same_of_number hn] at hsame
  cases n with
  | int n =>
    obtain ⟨d', hstored, -⟩ := Result.map_eq_ok.mp hd
    rw [Attribute.storedDecimal.eq_def] at hstored
    split at hstored
    · rename_i d'' hheld
      exact Decimal.stored_whole.mp ⟨d'', hheld⟩
    · cases hstored
  | float => cases hd
  | decimal d' =>
    cases d' with
    | finite => trivial
    | infinite s =>
      cases s with
      | true => exact rfl
      | false => cases hd
    | nan => cases hsame

theorem oneKind_of_ofSet {vs : List Value} {a : Attribute} (ha : Attribute.ofSet vs = .ok a)
    (hu : UnbrokenAll vs) (hsame : ∀ v ∈ vs, ∃ u, v.same u) : OneKind vs := by
  obtain ⟨hnumbers, ds, -, hds⟩ | ⟨-, ⟨ss, -, rfl⟩ | ⟨bs, -, rfl⟩⟩ := Attribute.ofSet_inv ha
  · refine .inl fun v hv => ?_
    obtain ⟨n, hn⟩ := Option.isSome_iff_exists.mp (hnumbers v hv)
    obtain ⟨d, -, hd⟩ := Result.exists_mem_of_mapM hds v hv
    obtain ⟨u, hu⟩ := hsame v hv
    rw [Attribute.digits, hn] at hd
    exact ⟨n, hn, genuine_of_digits hn hd hu⟩
  · refine .inr (.inl fun v hv => ?_)
    obtain ⟨s, -, rfl⟩ := List.mem_map.mp hv
    exact ⟨s, rfl, (unbrokenAll_iff _).mp hu _ hv⟩
  · exact .inr (.inr (by simp))

/-- Values without lone halves that were read from a token are genuine if they go over to attribute
values and are the same as something. -/
theorem genuine_of_accepted {v : Value} (hv : v.Decoded) (hu : v.Unbroken)
    (ha : ∃ a, Attribute.ofValue v = .ok a) (hsame : ∃ w, v.same w) : v.Genuine := by
  obtain ⟨a, ha⟩ := ha
  obtain ⟨w, hsame⟩ := hsame
  induction v using memberInduction generalizing a w with
  | null | bool | blob => trivial
  | text s => exact hu
  | number n =>
    obtain ⟨d, hd, -⟩ := Result.map_eq_ok.mp ha
    exact genuine_of_digits rfl hd hsame
  | list vs ih =>
    obtain ⟨as, has, -⟩ := Result.map_eq_ok.mp ha
    refine (genuineAll_iff vs).mpr fun v hmem => ?_
    obtain ⟨b, hb⟩ := Attribute.ofValues_ok has v hmem
    obtain ⟨u, hsame⟩ := same_row hsame v hmem
    exact ih v hmem ((decodedAll_iff vs).mp hv v hmem) ((unbrokenAll_iff vs).mp hu v hmem) b hb u
      hsame
  | set frozen vs => exact oneKind_of_ofSet ha hu (same_members hsame)
  | map es ih =>
    obtain ⟨as, has, -⟩ := Result.map_eq_ok.mp ha
    refine (genuineEntries_iff es).mpr fun e hmem => ?_
    obtain ⟨b, hb⟩ := Token.ofEntries_ok has e hmem
    obtain ⟨u, hsame⟩ := same_entries hsame e hmem
    obtain ⟨hkey, hvalue⟩ := (unbrokenEntries_iff es).mp hu e hmem
    exact ⟨hkey, ih e hmem ((decodedEntries_iff es).mp hv.2 e hmem) hvalue b hb u hsame⟩
  | tuple | anything | object | record => exact hv.elim

end Value

namespace Token

/-- Has a key a token of its own, which stands for a key that is the same? -/
def Reissued (key : Fields) : Prop :=
  ∃ token key', encode (.map key) = .ok (some token) ∧ decode (.text token) = .ok key' ∧
    (Value.map key).same (.map key')

theorem reissued_of_genuine {key : Fields} (hne : key ≠ []) (hkey : (Value.map key).Decoded)
    (h : (Value.map key).Genuine) : Reissued key := by
  have hgenuine := (Value.genuineEntries_iff key).mp h
  have hrestored : ∀ e ∈ key, e.2.Restored := fun e he =>
    Value.restored_of_genuine ((Value.decodedEntries_iff key).mp hkey.2 e he) (hgenuine e he).2
  have hsendable : Sendable key :=
    ⟨hne, hkey.1, h.unbroken, fun e he => (hrestored e he).taken, fun e he => (hrestored e he).sound⟩
  obtain ⟨token, hencode, -, hdecode⟩ := hsendable.exists_token
  refine ⟨token, _, hencode, hdecode, ?_⟩
  exact Value.same_map hkey.1 ((sortKeys_perm key).map _) fun e he => (hrestored e he).same

theorem genuine_of_reissued {key : Fields} (hkey : (Value.map key).Decoded) (h : Reissued key) :
    (Value.map key).Genuine := by
  obtain ⟨token, key', hencode, -, hsame⟩ := h
  have haccepted : ∃ a, Attribute.ofValue (.map key) = .ok a := by
    rw [Attribute.ofValue, ofEntries_eq (accepted_of_encode hencode)]
    exact ⟨_, rfl⟩
  exact Value.genuine_of_accepted hkey (unbroken_of_encode hencode) haccepted ⟨_, hsame⟩

/-- The key that a token stands for has a token that stands for the same key exactly when all values
in it are genuine and no name has a lone half. -/
theorem reissued_iff_genuine (s : Text) (key : Fields) (h : decode (.text s) = .ok key) :
    Reissued key ↔ (Value.map key).Genuine := by
  obtain ⟨hne, hkey⟩ := decoded_key h
  exact ⟨genuine_of_reissued hkey, reissued_of_genuine hne hkey⟩

/-- The document {"lastKey":{"id":{"S":"a"},"at":{"N":"1.50"}}} holds genuine values. -/
theorem reissued_iff_genuine_ordinary :
    ∃ key, decode (.text "eyJsYXN0S2V5Ijp7ImlkIjp7IlMiOiJhIn0sImF0Ijp7Ik4iOiIxLjUwIn19fQ==") = .ok key ∧
      (Reissued key ↔ (Value.map key).Genuine) := by
  obtain ⟨key, hkey⟩ := Result.exists_of_isOk (x := decode
    (.text "eyJsYXN0S2V5Ijp7ImlkIjp7IlMiOiJhIn0sImF0Ijp7Ik4iOiIxLjUwIn19fQ==")) (by decide +kernel)
  exact ⟨key, hkey, reissued_iff_genuine _ key hkey⟩

/-- Has the key that a text stands for, if it stands for one, a token of its own? -/
def hasToken (s : Text) : Bool :=
  match decode (.text s) with
  | .ok key => (encode (.map key)).isOk
  | .error _ => true

/-- The document {"lastKey":{"k":{"S":1.5}}} is read as a key with a double, which has no token. -/
theorem not_reissued :
    ¬∀ (s : Text) (key : Fields), decode (.text s) = .ok key → Reissued key := by
  intro h
  have hall : hasToken "eyJsYXN0S2V5Ijp7ImsiOnsiUyI6MS41fX19" = true := by
    rw [hasToken]
    cases hkey : decode (.text "eyJsYXN0S2V5Ijp7ImsiOnsiUyI6MS41fX19") with
    | error f => rfl
    | ok key =>
      obtain ⟨token, -, hencode, -⟩ := h _ key hkey
      simp only [hencode]
      rfl
  exact absurd hall (by decide +kernel)

end Token

end TableGateway
