import Schemata.Definition.Reading
import Schemata.Proofs.Session
import Schemata.Proofs.Validation.TupleReports

/-! Tuples with spread parts. The elements of a spread stand in the tuple as if they were written there, so the tuple
accepts the items that its parts accept one behind the other. -/
namespace Schemata

namespace Role

variable {roles : List Role}

theorem secondVariadic?_eq_none : secondVariadic? roles = none ↔ roles.countP (·.isVariadic) ≤ 1 := by
  have hlength : ∀ (roles : List Role) i, ((roles.zipIdx i).filter fun r => r.1.isVariadic).length =
      roles.countP (·.isVariadic) := by
    intro roles
    induction roles with
    | nil => exact fun _ => rfl
    | cons r roles ih =>
      intro i
      rw [List.zipIdx_cons, List.filter_cons, List.countP_cons]
      split_ifs <;> simp [ih]
  rw [secondVariadic?, Option.map_eq_none_iff, List.getElem?_eq_none_iff, hlength]

theorem descent?_eq_none (h : roles.Pairwise fun a b => a.rank ≤ b.rank) (i : Nat) : descent? i roles = none := by
  induction roles generalizing i with
  | nil => rfl
  | cons a roles ih =>
    obtain ⟨hfirst, hrest⟩ := List.pairwise_cons.mp h
    cases roles with
    | nil => rfl
    | cons b roles => rw [descent?, if_neg (Nat.not_lt.mpr (hfirst b List.mem_cons_self)), ih hrest]

/-- Among leading, variadic and trailing elements nothing else makes a tuple illegal. -/
theorem shapeError?_eq_none (hcount : roles.countP (·.isVariadic) ≤ 1) (hfull : ∀ r ∈ roles, r.rank ≠ 1 ∧ r.rank ≠ 2)
    (hstray : strayTrailing? 0 roles = none) (hsorted : roles.Pairwise fun a b => a.rank ≤ b.rank) :
    shapeError? roles = none := by
  have hbeside : besideTrailing? roles = none := by
    have homissible : omissible? roles = none := List.find?_eq_none.mpr fun r hr => by
      simpa using hfull r.1 (List.fst_mem_of_mem_zipIdx hr)
    rw [besideTrailing?, homissible, ite_self]
  rw [shapeError?, secondVariadic?_eq_none.mpr hcount, hbeside, hstray, descent?_eq_none hsorted]

theorem shapeError?_of_variadics (h : 1 < roles.countP (·.isVariadic)) : ∃ e, shapeError? roles = some e := by
  cases hsecond : secondVariadic? roles with
  | none => exact absurd (secondVariadic?_eq_none.mp hsecond) (Nat.not_le.mpr h)
  | some i => exact ⟨.secondVariadic i, by rw [shapeError?, hsecond]⟩

/-- Leading, variadic and trailing elements only, and each trailing one behind a variadic one. -/
def Full : Bool → List Role → Prop
  | _, [] => True
  | seen, r :: rest => (r.rank ≠ 1 ∧ r.rank ≠ 2) ∧ (r.isTrailing = true → seen = true) ∧ Full (seen || r.isVariadic) rest

theorem full_behind (h : ∀ r ∈ roles, r.rank ≠ 1 ∧ r.rank ≠ 2) : Full true roles := by
  induction roles with
  | nil => trivial
  | cons r roles ih =>
    obtain ⟨hr, hroles⟩ := List.forall_mem_cons.mp h
    exact ⟨hr, fun _ => rfl, ih hroles⟩

theorem Full.behind {seen : Bool} (h : Full seen roles) : ∀ r ∈ roles, r.rank ≠ 1 ∧ r.rank ≠ 2 := by
  induction roles generalizing seen with
  | nil => simp
  | cons r roles ih => exact List.forall_mem_cons.mpr ⟨h.1, ih h.2.2⟩

theorem Full.append {seen : Bool} {more : List Role} (h : Full seen roles) (hmore : Full false more) :
    Full seen (roles ++ more) := by
  induction roles generalizing seen with
  | nil =>
    cases seen with
    | false => exact hmore
    | true => exact full_behind hmore.behind
  | cons r roles ih => exact ⟨h.1, h.2.1, ih h.2.2⟩

theorem full_of_shape (h : shapeError? roles = none) (hfull : ∀ r ∈ roles, r.rank ≠ 1 ∧ r.rank ≠ 2) :
    Full false roles := by
  have hstray : strayTrailing? 0 roles = none := by
    unfold shapeError? at h
    split at h <;> simp_all
  clear h
  generalize 0 = i at hstray
  induction roles generalizing i with
  | nil => trivial
  | cons r roles ih =>
    obtain ⟨hr, hroles⟩ := List.forall_mem_cons.mp hfull
    unfold strayTrailing? at hstray
    split_ifs at hstray with hvariadic htrailing
    · refine ⟨hr, fun htrailing => ?_, hvariadic ▸ full_behind hroles⟩
      simp_all [isVariadic, isTrailing]
    · rw [Bool.not_eq_true] at hvariadic
      exact ⟨hr, fun h => absurd h htrailing, by simpa [hvariadic] using ih hroles (i + 1) hstray⟩

theorem Full.strayTrailing? (h : Full false roles) (i : Nat) : strayTrailing? i roles = none := by
  induction roles generalizing i with
  | nil => rfl
  | cons r roles ih =>
    obtain ⟨-, htrailing, hrest⟩ := h
    unfold Role.strayTrailing?
    split_ifs with hvariadic hr
    · rfl
    · exact absurd (htrailing hr) Bool.false_ne_true
    · rw [Bool.not_eq_true] at hvariadic
      exact ih (by simpa [hvariadic] using hrest) (i + 1)

end Role

namespace Element

section Matching

variable {S : Type} {takes : S → Value → Prop} {es fs : List (Element S)} {xs : List Value}

/-- The items in a row are those of the elements in a row: one for each, any number for a variadic one. -/
inductive Matches (takes : S → Value → Prop) : List (Element S) → List Value → Prop
  | nil : Matches takes [] []
  | one {e : Element S} {es : List (Element S)} {x : Value} {xs : List Value} :
      e.role.isVariadic = false → takes e.value x → Matches takes es xs → Matches takes (e :: es) (x :: xs)
  | many {e : Element S} {es : List (Element S)} {ms xs : List Value} :
      e.role.isVariadic = true → (∀ x ∈ ms, takes e.value x) → Matches takes es xs → Matches takes (e :: es) (ms ++ xs)

theorem matches_append :
    Matches takes (es ++ fs) xs ↔ ∃ as bs, as ++ bs = xs ∧ Matches takes es as ∧ Matches takes fs bs := by
  constructor
  · intro h
    induction es generalizing xs with
    | nil => exact ⟨[], xs, rfl, .nil, h⟩
    | cons e es ih =>
      cases h with
      | one hone hx hrest =>
        obtain ⟨as, bs, rfl, has, hbs⟩ := ih hrest
        exact ⟨_ :: as, bs, rfl, .one hone hx has, hbs⟩
      | many hmany hms hrest =>
        obtain ⟨as, bs, rfl, has, hbs⟩ := ih hrest
        exact ⟨_ ++ as, bs, List.append_assoc _ _ _, .many hmany hms has, hbs⟩
  · rintro ⟨as, bs, rfl, has, hbs⟩
    induction has with
    | nil => exact hbs
    | one hone hx _ ih => exact .one hone hx ih
    | many hmany hms _ ih =>
      rw [List.append_assoc]
      exact .many hmany hms ih

/-- The matter is one of the values and of what is variadic. -/
theorem Matches.like (hlike : List.Forall₂ (fun e f => e.role.isVariadic = f.role.isVariadic ∧ e.value = f.value) es fs)
    (h : Matches takes es xs) : Matches takes fs xs := by
  induction hlike generalizing xs with
  | nil => exact h
  | cons hef _ ih =>
    cases h with
    | one hone hx hrest => exact .one (hef.1 ▸ hone) (hef.2 ▸ hx) (ih hrest)
    | many hmany hms hrest => exact .many (hef.1 ▸ hmany) (hef.2 ▸ hms) (ih hrest)

theorem matches_singles (h : ∀ e ∈ es, e.role.isVariadic = false) :
    Matches takes es xs ↔ List.Forall₂ takes (es.map (·.value)) xs := by
  induction es generalizing xs with
  | nil =>
    constructor
    · rintro ⟨⟩
      exact .nil
    · rintro ⟨⟩
      exact .nil
  | cons e es ih =>
    obtain ⟨he, hes⟩ := List.forall_mem_cons.mp h
    constructor
    · intro hm
      cases hm with
      | one _ hx hrest => exact .cons hx ((ih hes).mp hrest)
      | many hmany => exact absurd hmany (by simp [he])
    · intro hm
      cases hm with
      | cons hx hrest => exact .one he hx ((ih hes).mpr hrest)

theorem matches_zip (h : ∀ e ∈ es, e.role.isVariadic = false) :
    Matches takes es xs ↔ es.length = xs.length ∧ ∀ t ∈ (es.map (·.value)).zip xs, takes t.1 t.2 := by
  rw [matches_singles h, List.forall₂_iff_zip, List.length_map]
  exact and_congr_right fun _ => ⟨fun hall t ht => hall ht, fun hall _ _ ht => hall _ ht⟩

theorem matches_variadic {e : Element S} (he : e.role.isVariadic = true) :
    Matches takes [e] xs ↔ ∀ x ∈ xs, takes e.value x := by
  constructor
  · intro h
    cases h with
    | one hone => exact absurd he (by simp [hone])
    | many _ hms hrest =>
      cases hrest
      simpa using hms
  · intro h
    rw [← List.append_nil xs]
    exact .many he h .nil

theorem not_variadic_of_fixed (es : List (Element S)) : ∀ e ∈ fixed es, e.role.isVariadic = false := by
  intro e he
  have := rank_lt_of_fixed he
  simp only [Role.isVariadic, beq_eq_false_iff_ne]
  omega

theorem not_variadic_of_trailing (es : List (Element S)) : ∀ e ∈ trailing es, e.role.isVariadic = false := by
  intro e he
  have hrank : e.role.rank = 4 := by simpa [Role.isTrailing] using (List.mem_filter.mp he).2
  simp [Role.isVariadic, hrank]

/-- A legal tuple has its variadic element, if there is one, between the fixed and the trailing ones. -/
theorem parts_of_shape (h : Role.shapeError? (es.map (·.role)) = none) :
    fixed es ++ ((variadic? es).toList ++ trailing es) = es := by
  have hsorted := ranks_of_shape h
  have hcount : es.countP (·.role.isVariadic) ≤ 1 := by
    have hsecond : Role.secondVariadic? (es.map (·.role)) = none := by
      unfold Role.shapeError? at h
      split at h <;> simp_all
    simpa [Function.comp_def] using Role.secondVariadic?_eq_none.mp hsecond
  have hbehind := filter_rank_append ((hsorted.sublist ((List.filter_sublist (p := fun e => 3 ≤ e.role.rank)).map _))) 4
  have hvariadic : (variadic? es).toList = es.filter fun e => e.role.isVariadic := by
    rw [variadic?, ← List.head?_filter]
    rw [List.countP_eq_length_filter] at hcount
    generalize es.filter (fun e => e.role.isVariadic) = rs at hcount
    cases rs with
    | nil => rfl
    | cons r rs =>
      obtain rfl : rs = [] := List.eq_nil_of_length_eq_zero (by simpa using hcount)
      rfl
  have hmiddle : (es.filter fun e => 3 ≤ e.role.rank).filter (fun e => e.role.rank < 4) =
      es.filter fun e => e.role.isVariadic := by
    rw [List.filter_filter]
    exact List.filter_congr fun e _ => by cases e.role <;> rfl
  have hend : (es.filter fun e => 3 ≤ e.role.rank).filter (fun e => 4 ≤ e.role.rank) = trailing es := by
    rw [List.filter_filter]
    exact List.filter_congr fun e _ => by cases e.role <;> rfl
  rw [hmiddle, hend, ← hvariadic] at hbehind
  rw [hbehind]
  exact filter_rank_append hsorted 3

theorem zip_append_right {α β : Type} {as : List α} {bs cs : List β} (h : as.length = bs.length) :
    as.zip (bs ++ cs) = as.zip bs := by
  rw [← List.append_nil as, List.zip_append h, List.zip_nil_left, List.append_nil, List.append_nil]

/-- Without optional places every fixed and every trailing element has an item. -/
theorem leastLength_of_full (hfull : ∀ e ∈ es, e.role.rank ≠ 1 ∧ e.role.rank ≠ 2) :
    leastLength es = (fixed es).length + (trailing es).length := by
  have hnone : ∀ p : Element S → Bool, (∀ e, p e = true → e.role.rank = 1 ∨ e.role.rank = 2) → es.countP p = 0 := by
    intro p hp
    refine List.countP_eq_zero.mpr fun e he hpe => ?_
    have := hfull e he
    have := hp e hpe
    omega
  have hdefaults : (es.countP fun e => e.role.default?.isSome) = 0 := hnone _ fun e he =>
    Or.inl (by cases hr : e.role <;> simp_all [Role.default?, Role.rank])
  have hoptionals : (es.countP fun e => e.role.isOptional) = 0 := hnone _ fun e he =>
    Or.inr (by simpa [Role.isOptional] using he)
  rw [leastLength_eq_add, length_fixed, length_trailing, hdefaults, hoptionals]
  omega

/-- A legal tuple without optional places has its items in their places just when they match it. -/
theorem matches_iff_places (h : Role.shapeError? (es.map (·.role)) = none)
    (hfull : ∀ e ∈ es, e.role.rank ≠ 1 ∧ e.role.rank ≠ 2) :
    Matches takes es xs ↔ Admits es xs.length ∧ ∀ t ∈ places es xs, takes t.1 t.2 := by
  have hs := settled_of_shape h
  rw [admits_iff hs, leastLength_of_full hfull]
  conv_lhs => rw [← parts_of_shape h]
  rw [matches_append]
  unfold places
  cases hv : variadic? es with
  | none =>
    have ht := hs hv
    simp only [ht, List.length_nil, Nat.add_zero, Nat.sub_zero, List.take_length, List.append_nil, Option.toList_none,
      forall_const, matches_zip (not_variadic_of_fixed es)]
    constructor
    · rintro ⟨as, bs, rfl, ⟨hlength, hall⟩, hnone⟩
      cases hnone
      rw [List.append_nil]
      exact ⟨⟨hlength.le, hlength.ge⟩, hall⟩
    · rintro ⟨⟨hlow, hhigh⟩, hall⟩
      exact ⟨xs, [], List.append_nil xs, ⟨Nat.le_antisymm hlow hhigh, hall⟩, .nil⟩
  | some e =>
    have he : e.role.isVariadic = true := by simpa using List.find?_some hv
    simp only [Option.toList_some, matches_append, matches_variadic he, reduceCtorEq, false_imp_iff, and_true,
      matches_zip (not_variadic_of_fixed es),
      matches_zip (not_variadic_of_trailing es), List.forall_mem_append, List.forall_mem_map]
    constructor
    · rintro ⟨as, _, rfl, ⟨hlead, has⟩, ms, bs, rfl, hms, htrail, hbs⟩
      have hfront : (as ++ (ms ++ bs)).take ((as ++ (ms ++ bs)).length - (trailing es).length) = as ++ ms := by
        rw [← List.append_assoc]
        exact List.take_left' (by simp [htrail]; omega)
      refine ⟨by simp [hlead, htrail], ?_, ?_, ?_⟩
      · rwa [hfront, zip_append_right (by simpa using hlead)]
      · rwa [hfront, List.drop_left' hlead.symm]
      · rwa [hfront, ← List.append_assoc, List.drop_left]
    · rintro ⟨hlength, hlead, hmiddle, htrail⟩
      have hfront : xs.take (fixed es).length =
          (xs.take (xs.length - (trailing es).length)).take (fixed es).length := by
        rw [List.take_take, Nat.min_eq_left (by omega)]
      have hbehind : (xs.take (xs.length - (trailing es).length)).drop (fixed es).length ++
          xs.drop (xs.length - (trailing es).length) = xs.drop (fixed es).length := by
        rw [← List.drop_append_of_le_length (by simp; omega), List.take_append_drop]
      refine ⟨_, _, List.take_append_drop _ _, ⟨by simp; omega, ?_⟩, _, _, hbehind, hmiddle, by simp; omega, ?_⟩
      · rw [← List.take_append_drop (fixed es).length (xs.take _), zip_append_right (by simp; omega)] at hlead
        rwa [hfront]
      · simpa using htrail

end Matching
end Element

namespace Engine

variable {es fs : List (Element Schema)} {seen : Bool}

theorem spliced_append (seen : Bool) (es fs : List (Element Schema)) : spliced seen (es ++ fs) =
    ((spliced (spliced seen es).1 fs).1, (spliced seen es).2 ++ (spliced (spliced seen es).1 fs).2) := by
  induction es generalizing seen with
  | nil => rfl
  | cons e es ih => simp only [List.cons_append, spliced, ih]

/-- Splicing leaves the values as they are, and what is variadic. -/
theorem spliced_like (seen : Bool) (es : List (Element Schema)) : List.Forall₂
    (fun e f => e.role.isVariadic = f.role.isVariadic ∧ e.value = f.value) es (spliced seen es).2 := by
  induction es generalizing seen with
  | nil => exact .nil
  | cons e es ih =>
    refine .cons ?_ (ih _)
    split_ifs with hmoved
    · have hlead : e.role.isLeading = true := (Bool.and_eq_true_iff.mp hmoved).2
      refine ⟨?_, rfl⟩
      have hrank : e.role.rank = 0 := by simpa [Role.isLeading] using hlead
      rw [Role.isVariadic, hrank]
      rfl
    · exact ⟨rfl, rfl⟩

theorem spliced_variadics (seen : Bool) (es : List (Element Schema)) :
    ((spliced seen es).2.map (·.role)).countP (·.isVariadic) = es.countP (·.role.isVariadic) := by
  have hlike := spliced_like seen es
  generalize (spliced seen es).2 = fs at hlike
  induction hlike with
  | nil => rfl
  | cons hef _ ih => rw [List.map_cons, List.countP_cons, List.countP_cons, ih, hef.1]

theorem spliced_behind (h : ∀ e ∈ es, (e.role.rank ≠ 1 ∧ e.role.rank ≠ 2) ∧ e.role.isVariadic = false) :
    ∀ f ∈ (spliced true es).2, f.role.rank = 4 := by
  induction es with
  | nil => simp [spliced]
  | cons e es ih =>
    obtain ⟨⟨hrank, hvariadic⟩, hes⟩ := List.forall_mem_cons.mp h
    refine List.forall_mem_cons.mpr ⟨?_, ih hes⟩
    obtain ⟨role, value⟩ := e
    cases role <;> first | rfl | simp_all [Role.rank, Role.isVariadic]

/-- With one variadic element at most the spliced elements are in order: leading ones in front of it, trailing ones
behind. -/
theorem spliced_ordered (hfull : Role.Full false (es.map (·.role))) (hcount : es.countP (·.role.isVariadic) ≤ 1) :
    (((spliced false es).2.map (·.role)).Pairwise fun a b => a.rank ≤ b.rank) ∧
      Role.Full false ((spliced false es).2.map (·.role)) := by
  induction es with
  | nil => exact ⟨.nil, trivial⟩
  | cons e es ih =>
    obtain ⟨role, value⟩ := e
    obtain ⟨hrank, htrailing, hrest⟩ := hfull
    rw [List.countP_cons] at hcount
    cases role with
    | leading =>
      obtain ⟨hsorted, hall⟩ := ih hrest (by simpa [Role.isVariadic, Role.rank] using hcount)
      exact ⟨.cons (fun _ _ => Nat.zero_le _) hsorted, hrank, htrailing, hall⟩
    | defaultable d => exact absurd rfl hrank.1
    | optional => exact absurd rfl hrank.2
    | variadic =>
      have hnone : ∀ f ∈ es, f.role.isVariadic = false := by
        have hzero : es.countP (·.role.isVariadic) = 0 := by simpa [Role.isVariadic, Role.rank] using hcount
        simpa [List.countP_eq_zero] using hzero
      have hranks : ∀ r ∈ (spliced true es).2.map (·.role), r.rank = 4 := List.forall_mem_map.mpr
        (spliced_behind fun f hf => ⟨hrest.behind _ (List.mem_map_of_mem hf), hnone f hf⟩)
      have hbehind : ∀ r ∈ (spliced true es).2.map (·.role), 3 ≤ r.rank := fun r hr => by
        rw [hranks r hr]
        decide
      refine ⟨.cons hbehind ?_, hrank, htrailing, Role.full_behind fun r hr => ?_⟩
      · exact List.pairwise_of_forall_mem_list fun a ha b hb => by rw [hranks a ha, hranks b hb]
      · rw [hranks r hr]
        decide
    | trailing => exact absurd (htrailing rfl) Bool.false_ne_true

/-- The one thing wrong with a spliced tuple is a second variadic element. -/
theorem shapeError?_spliced (hfull : Role.Full false (es.map (·.role))) :
    Role.shapeError? ((spliced false es).2.map (·.role)) = none ↔ es.countP (·.role.isVariadic) ≤ 1 := by
  constructor
  · intro h
    by_contra hcount
    rw [not_le, ← spliced_variadics false] at hcount
    obtain ⟨e, he⟩ := Role.shapeError?_of_variadics hcount
    rw [he] at h
    cases h
  · intro hcount
    obtain ⟨hsorted, hall⟩ := spliced_ordered hfull hcount
    exact Role.shapeError?_eq_none (by rwa [spliced_variadics]) hall.behind (hall.strayTrailing? 0) hsorted

end Engine

/-- A part of a tuple as it is written: an element, or a tuple that is spread. -/
inductive Piece where
  | item (e : Element Schema)
  | spread (es : List (Element Schema))

namespace Piece

variable {env : Env} {config : Config} {v : Value} {q : Value.Sequence} {items : List Value}

def elements : Piece → List (Element Schema)
  | item e => [e]
  | spread es => es

/-- A required element, or a tuple without optional elements and defaults. -/
def Required : Piece → Prop
  | item e => e.role = .leading
  | spread es => Role.shapeError? (es.map (·.role)) = none ∧
      ∀ e ∈ es, e.role.isOptional = false ∧ e.role.default? = none

/-- The values that a part stands for. -/
def Accepts (env : Env) (config : Config) : Piece → List Value → Prop
  | item e, vs => ∃ v, vs = [v] ∧ env.accepts config e.value v = .ok true
  | spread es, vs => env.accepts config (.tuple es) (.list vs) = .ok true

theorem rank_of_required {e : Element Schema} (h : e.role.isOptional = false ∧ e.role.default? = none) :
    e.role.rank ≠ 1 ∧ e.role.rank ≠ 2 := by
  obtain ⟨role, value⟩ := e
  cases role <;> simp_all [Role.isOptional, Role.default?, Role.rank]

theorem Required.full {p : Piece} (h : p.Required) : Role.Full false (p.elements.map (·.role)) := by
  cases p with
  | item e => simp [elements, show e.role = .leading from h, Role.Full, Role.rank, Role.isTrailing]
  | spread es =>
    refine Role.full_of_shape h.1 fun r hr => ?_
    obtain ⟨e, he, rfl⟩ := List.mem_map.mp hr
    exact rank_of_required (h.2 e he)

theorem full_of_required {ps : List Piece} (h : ∀ p ∈ ps, p.Required) :
    Role.Full false ((ps.flatMap elements).map (·.role)) := by
  induction ps with
  | nil => trivial
  | cons p ps ih =>
    obtain ⟨hp, hps⟩ := List.forall_mem_cons.mp h
    rw [List.flatMap_cons, List.map_append]
    exact hp.full.append (ih hps)

end Piece

namespace Env

variable {env : Env} {config : Config} {es : List (Element Schema)} {v : Value} {q : Value.Sequence} {items : List Value}

/-- A legal tuple without optional elements and defaults accepts the items that match it. -/
theorem accepts_tuple_iff_matches (h : Role.shapeError? (es.map (·.role)) = none)
    (hfull : ∀ e ∈ es, e.role.rank ≠ 1 ∧ e.role.rank ≠ 2) (hitems : v.items? = some (q, items)) :
    env.accepts config (.tuple es) v = .ok true ↔
      Element.Matches (fun s x => env.accepts config s x = .ok true) es items := by
  rw [Element.matches_iff_places h hfull]
  constructor
  · intro hv
    obtain ⟨q', items', hitems', hadmits, hall⟩ := places_of_accepts hv
    obtain ⟨rfl, rfl⟩ := Prod.mk.inj (Option.some.inj (hitems.symm.trans hitems'))
    exact ⟨hadmits, hall⟩
  · rintro ⟨hadmits, hall⟩
    refine accepts_of_places h hitems hadmits (Element.defaults_eq_nil fun t ht => ?_) hall
    exact (hfull _ (List.fst_mem_of_mem_zipIdx (List.mem_of_mem_drop ht))).1

end Env

namespace Piece

variable {env : Env} {config : Config} {ps : List Piece} {vs : List Value}

theorem accepts_iff_matches {p : Piece} (h : p.Required) : p.Accepts env config vs ↔
    Element.Matches (fun s x => env.accepts config s x = .ok true) p.elements vs := by
  cases p with
  | item e =>
    have he : ∀ f ∈ [e], f.role.isVariadic = false := by
      simp [show e.role = .leading from h, Role.isVariadic, Role.rank]
    rw [elements, Element.matches_singles he, List.map_singleton, List.forall₂_cons_left_iff]
    simp [Accepts, eq_comm, and_comm]
  | spread es =>
    exact Env.accepts_tuple_iff_matches h.1 (fun e he => rank_of_required (h.2 e he)) rfl

/-- Items match required parts in a row just when they split up among them. -/
theorem matches_flatMap (h : ∀ p ∈ ps, p.Required) :
    Element.Matches (fun s x => env.accepts config s x = .ok true) (ps.flatMap elements) vs ↔
      ∃ segments, segments.flatten = vs ∧ List.Forall₂ (Accepts env config) ps segments := by
  induction ps generalizing vs with
  | nil =>
    constructor
    · intro hnone
      cases hnone
      exact ⟨[], rfl, .nil⟩
    · rintro ⟨segments, rfl, hnone⟩
      cases hnone
      exact .nil
  | cons p ps ih =>
    obtain ⟨hp, hps⟩ := List.forall_mem_cons.mp h
    rw [List.flatMap_cons, Element.matches_append]
    constructor
    · rintro ⟨segment, rest, rfl, hsegment, hrest⟩
      obtain ⟨segments, rfl, hall⟩ := (ih hps).mp hrest
      exact ⟨segment :: segments, List.flatten_cons, .cons ((accepts_iff_matches hp).mpr hsegment) hall⟩
    · rintro ⟨_, rfl, hall⟩
      cases hall with
      | cons hsegment hall =>
        exact ⟨_, _, List.flatten_cons.symm, (accepts_iff_matches hp).mp hsegment, (ih hps).mpr ⟨_, rfl, hall⟩⟩

/-- The tuple of required parts accepts the items that split up among them. -/
theorem accepts_spliced {v : Value} {q : Value.Sequence} (h : ∀ p ∈ ps, p.Required)
    (hcount : (ps.flatMap elements).countP (·.role.isVariadic) ≤ 1) (hv : v.items? = some (q, vs)) :
    env.accepts config (.tuple (Engine.spliced false (ps.flatMap elements)).2) v = .ok true ↔
      ∃ segments, segments.flatten = vs ∧ List.Forall₂ (Accepts env config) ps segments := by
  have hshape := (Engine.shapeError?_spliced (full_of_required h)).mpr hcount
  have hfull := (Engine.spliced_ordered (full_of_required h) hcount).2.behind
  have hlike := Engine.spliced_like false (ps.flatMap elements)
  rw [Env.accepts_tuple_iff_matches hshape (fun e he => hfull _ (List.mem_map_of_mem he)) hv, ← matches_flatMap h]
  exact ⟨Element.Matches.like (hlike.flip.imp fun _ _ hef => ⟨hef.1.symm, hef.2.symm⟩), Element.Matches.like hlike⟩

theorem makeTuple_spliced (h : ∀ p ∈ ps, p.Required) :
    ((ps.flatMap elements).countP (·.role.isVariadic) ≤ 1 →
      Schema.makeTuple (Engine.spliced false (ps.flatMap elements)).2 =
        .ok (.tuple (Engine.spliced false (ps.flatMap elements)).2)) ∧
    (1 < (ps.flatMap elements).countP (·.role.isVariadic) →
      ∃ e, Schema.makeTuple (Engine.spliced false (ps.flatMap elements)).2 = .error (.shape e)) := by
  have hshape := Engine.shapeError?_spliced (full_of_required h)
  unfold Schema.makeTuple
  cases herror : Role.shapeError? ((Engine.spliced false (ps.flatMap elements)).2.map (·.role)) with
  | none => exact ⟨fun _ => rfl, fun hmany => absurd (hshape.mp herror) (Nat.not_le.mpr hmany)⟩
  | some e =>
    refine ⟨fun hcount => ?_, fun _ => ⟨e, rfl⟩⟩
    rw [hshape.mpr hcount] at herror
    cases herror

end Piece

namespace Engine

variable {scope : Option Nat} {policy : Policy} {close : Value → Value} {whole : Value}

/-- The parts of a tuple in the order in which they are read. -/
def readPieces (scope : Option Nat) (policy : Policy) (close : Value → Value) (whole : Value) :
    List Value → Engine (List Piece)
  | [] => pure []
  | [d] =>
    if d.isToken "..." then throw (.definition (.danglingSpread whole.printed))
    else do
      pure [.item (← element scope close false d (readHead scope policy close d) (read scope policy close d))]
  | d :: next :: rest =>
    if d.isToken "..." then do
      let es ← spreadOf scope (close next) (← read scope policy close next)
      pure (.spread es :: (← readPieces scope policy close whole rest))
    else do
      let e ← element scope close false d (readHead scope policy close d) (read scope policy close d)
      pure (.item e :: (← readPieces scope policy close whole (next :: rest)))

/-- An element is read as in front of all variadic ones and then moved behind the one that was seen. -/
theorem element_bind {α : Type} (seen : Bool) (d : Value) (head plain : Engine Schema) {k k' : Element Schema → Engine α}
    (h : ∀ e : Element Schema, e.role.isVariadic = false →
      k (if seen && e.role.isLeading then ⟨.trailing, e.value⟩ else e) = k' e) :
    element scope close seen d head plain >>= k = element scope close false d head plain >>= k' := by
  unfold element
  cases optionalElement? d with
  | some text =>
    simp only [bind_assoc, pure_bind]
    exact bind_congr fun s => by simpa [Role.isLeading, Role.rank] using h ⟨.optional, s⟩ rfl
  | none =>
    cases d.form with
    | optional =>
      simp only [bind_assoc, pure_bind]
      exact bind_congr fun s => by simpa [Role.isLeading, Role.rank] using h ⟨.optional, s⟩ rfl
    | default source =>
      simp only [bind_assoc, pure_bind]
      exact bind_congr fun s => bind_congr fun p => by
        simpa [Role.isLeading, Role.rank] using h ⟨.defaultable p, s⟩ rfl
    | plain =>
      simp only [bind_assoc, pure_bind]
      refine bind_congr fun s => ?_
      rw [if_neg Bool.false_ne_true, ← h ⟨.leading, s⟩ rfl]
      cases seen <;> rfl

/-- The elements of a tuple are those of its parts, spliced. -/
theorem readElements_eq (seen : Bool) (items : List Value) : readElements scope policy close whole seen items =
    readPieces scope policy close whole items >>= fun ps => pure (spliced seen (ps.flatMap Piece.elements)).2 := by
  fun_induction readPieces scope policy close whole items generalizing seen with
  | case1 => rfl
  | case2 d h =>
    unfold readElements
    rw [if_pos h]
    rfl
  | case3 d h =>
    unfold readElements
    rw [if_neg h]
    simp only [bind_assoc, pure_bind]
    exact element_bind seen d _ _ fun e _ => rfl
  | case4 d next rest h ih =>
    unfold readElements
    rw [if_pos h]
    simp only [bind_assoc, pure_bind, ih, List.flatMap_cons, spliced_append]
    rfl
  | case5 d next rest h ih =>
    unfold readElements
    rw [if_neg h]
    simp only [bind_assoc, pure_bind, ih]
    refine element_bind seen d _ _ fun e he => bind_congr fun ps => ?_
    simp only [List.flatMap_cons, Piece.elements, List.singleton_append, spliced, he, Bool.or_false]

/-- A definition that is a list: its items, and how they are closed, which matters for a list that contains itself. -/
inductive Listing (close : Value → Value) : Value → (Value → Value) → List Value → Prop
  | list (items : List Value) : Listing close (.list items) close items
  | tuple (label : Option Token) (items : List Value) : Listing close (.tuple label items) close items
  | knot (label : Token) (items : List Value) :
      Listing close (.knot label (.list items)) (close ∘ Value.bind label (.knot label (.list items))) items
  | tupleKnot (label : Token) (l : Option Token) (items : List Value) :
      Listing close (.knot label (.tuple l items)) (close ∘ Value.bind label (.knot label (.tuple l items))) items

variable {inner : Value → Value} {d : Value} {items : List Value} {s t : Session} {ps : List Piece}

theorem read_listing (hd : Listing close d inner items) (hreading : readingOf items = .tuple) :
    read scope policy close d =
      readPieces scope policy inner (close d) items >>= fun ps =>
        lift (Schema.makeTuple (spliced false (ps.flatMap Piece.elements)).2) := by
  have hassemble : read scope policy close d =
      readElements scope policy inner (close d) false items >>= fun es => lift (Schema.makeTuple es) := by
    cases hd <;> rw [read, assemble, hreading]
  simp only [hassemble, readElements_eq, bind_assoc, pure_bind]

/-- A tuple that is read accepts the items that split up among its parts, if all elements in it are required; and one
with two variadic elements is the only one that is refused. -/
theorem read_spread (hd : Listing close d inner items) (hreading : readingOf items = .tuple) :
    (∀ T t, (read scope policy close d).run s = (.ok T, t) →
      ∃ ps, (readPieces scope policy inner (close d) items).run s = (.ok ps, t) ∧ ((∀ p ∈ ps, p.Required) →
        ∀ (env : Env) (config : Config) (v : Value) (q : Value.Sequence) (vs : List Value), v.items? = some (q, vs) →
          (env.accepts config T v = .ok true ↔
            ∃ segments, segments.flatten = vs ∧ List.Forall₂ (Piece.Accepts env config) ps segments))) ∧
    ∀ ps t, (readPieces scope policy inner (close d) items).run s = (.ok ps, t) → (∀ p ∈ ps, p.Required) →
      ((∃ e u, (read scope policy close d).run s = (.error (.shape e), u)) ↔
        1 < (ps.flatMap Piece.elements).countP (·.role.isVariadic)) ∧
      ((ps.flatMap Piece.elements).countP (·.role.isVariadic) ≤ 1 →
        ∃ T, (read scope policy close d).run s = (.ok T, t)) := by
  rw [read_listing hd hreading, run_bind]
  constructor
  · intro T t hrun
    rcases hps : (readPieces scope policy inner (close d) items).run s with ⟨e | ps, u⟩
    · rw [hps] at hrun
      cases hrun
    · rw [hps] at hrun
      dsimp only at hrun
      rw [run_lift, Prod.mk.injEq] at hrun
      obtain ⟨hmake, rfl⟩ := hrun
      refine ⟨ps, rfl, fun hrequired env config v q vs hv => ?_⟩
      obtain ⟨hmakes, hrefuses⟩ := Piece.makeTuple_spliced hrequired
      rcases Nat.lt_or_ge 1 ((ps.flatMap Piece.elements).countP (·.role.isVariadic)) with hmany | hcount
      · obtain ⟨e, he⟩ := hrefuses hmany
        cases he.symm.trans hmake
      · obtain rfl := Except.ok.inj ((hmakes hcount).symm.trans hmake)
        exact Piece.accepts_spliced hrequired hcount hv
  · intro ps t hps hrequired
    obtain ⟨hmakes, hrefuses⟩ := Piece.makeTuple_spliced hrequired
    rw [hps]
    dsimp only
    rw [run_lift]
    refine ⟨⟨?_, fun hmany => ?_⟩, fun hcount => ⟨_, by rw [hmakes hcount]⟩⟩
    · rintro ⟨e, u, hrun⟩
      by_contra hcount
      rw [hmakes (not_lt.mp hcount)] at hrun
      cases hrun
    · obtain ⟨e, he⟩ := hrefuses hmany
      exact ⟨e, t, by rw [he]⟩

/-- A sheet: a name, numbers, a flag, then a spread pair of a flag and a name. -/
def sheet : List Value :=
  [.string "string", .string "...", .string "number[]", .string "boolean", .string "...",
    .list [.string "boolean", .string "string"]]

/-- The sheet with more names behind it. -/
def longSheet : List Value := sheet ++ [.string "...", .string "string[]"]

def sheetPieces : List Piece :=
  [.item ⟨.leading, .keyword .string⟩, .spread [⟨.variadic, .keyword .number⟩], .item ⟨.leading, .keyword .boolean⟩,
    .spread [⟨.leading, .keyword .boolean⟩, ⟨.leading, .keyword .string⟩]]

/-- What stands behind the numbers is counted from the end. The long sheet is refused. -/
theorem read_spread_sheet :
    let s := Session.start "app" Env.bare.hooks
    readingOf sheet = .tuple ∧ readingOf longSheet = .tuple ∧
      (∃ T, (read none .reject id (.list sheet)).run s = (.ok T, s) ∧ Env.bare.accepts .default T
        (.list [.string "a", .int 1, .int 2, .bool true, .bool false, .string "b"]) = .ok true) ∧
      ∃ e t, (read none .reject id (.list longSheet)).run s = (.error (.shape e), t) := by
  intro s
  have hlog : readingOf sheet = .tuple := rfl
  have hmore : readingOf longSheet = .tuple := rfl
  have hpieces : (readPieces none .reject id (.list sheet) sheet).run s = (.ok sheetPieces, s) := rfl
  have hrequired : ∀ p ∈ sheetPieces ++ [.spread [⟨.variadic, .keyword .string⟩]], p.Required := by
    simp [sheetPieces, Piece.Required, Role.isOptional, Role.rank, Role.default?]
    decide
  obtain ⟨hreturns, hresults⟩ := @read_spread none .reject id id _ _ s (.list sheet) hlog
  refine ⟨hlog, hmore, ?_, ?_⟩
  · have hsome := List.forall_mem_append.mp hrequired
    obtain ⟨T, hrun⟩ := (hresults sheetPieces s hpieces hsome.1).2 (by decide)
    obtain ⟨ps, hps, haccepts⟩ := hreturns T s hrun
    obtain rfl : sheetPieces = ps := Except.ok.inj (Prod.mk.inj (hpieces.symm.trans hps)).1
    refine ⟨T, hrun, (haccepts hsome.1 Env.bare .default _ .list _ rfl).mpr
      ⟨[[.string "a"], [.int 1, .int 2], [.bool true], [.bool false, .string "b"]], rfl, ?_⟩⟩
    exact .cons ⟨_, rfl, rfl⟩ (.cons rfl (.cons ⟨_, rfl, rfl⟩ (.cons rfl .nil)))
  · have hresults := (@read_spread none .reject id id _ _ s (.list longSheet) hmore).2
    exact (hresults (sheetPieces ++ [.spread [⟨.variadic, .keyword .string⟩]]) s rfl hrequired).1.mpr (by decide)

end Engine
end Schemata
