import Schemata.Proofs.Algebra.Paths
import Schemata.Proofs.Scope.Usable

/-! Lookups in usable schemas. They find usable schemas, and what else they may stop with is foreseen: beside errors of
schemas there is a text of digits that writes no number. -/
namespace Schemata

theorem Session.Sets.of_ambient {unset : Prop} {s : Session} {scope : Option Nat} (h : s.Sets unset none) :
    s.Sets unset scope := by
  intro e he
  unfold Session.configOf at he
  split at he
  · cases he
  · exact h e he

namespace Engine

/-- A text of digits that writes no number: some digit has no place value, or they are too many. -/
structure Unreadable (text : String) : Prop where
  digits : text.toList.all Text.isDigit = true
  broken : Text.digitLimit < text.toList.length ∨ ∃ c ∈ text.toList, Text.decimalValue? c = none

/-- What a step with the key may stop with. -/
def Amiss (quoted unset looped : Prop) (key : Value) (e : Fault) : Prop :=
  e.Foreseen quoted unset looped ∨ ∃ text, key = .string text ∧ Unreadable text

variable {α : Type} {quoted unset looped : Prop} {s₀ : Session} {scope : Option Nat} {key : Value}

theorem digitsValue_ends {text : String} (h : text.toList.all Text.isDigit = true) :
    Ends (digitsValue text) (fun _ => True) fun _ => Unreadable text := by
  have readable : ∀ cs : List Char, (∀ c ∈ cs, Text.decimalValue? c ≠ none) →
      ∃ ds, cs.mapM Text.decimalValue? = some ds := by
    intro cs
    induction cs with
    | nil => exact fun _ => ⟨[], rfl⟩
    | cons c cs ih =>
      intro hall
      obtain ⟨hc, hcs⟩ := List.forall_mem_cons.mp hall
      obtain ⟨d, hd⟩ := Option.ne_none_iff_exists'.mp hc
      obtain ⟨ds, hds⟩ := ih hcs
      exact ⟨d :: ds, by simp [hd, hds]⟩
  unfold digitsValue
  dsimp only
  split_ifs with hmany
  · exact ⟨h, Or.inl (hmany.trans_le (List.takeWhile_prefix _).length_le)⟩
  · cases hread : text.toList.mapM Text.decimalValue? with
    | some ds => trivial
    | none =>
      refine ⟨h, Or.inr ?_⟩
      by_contra hnone
      obtain ⟨ds, hds⟩ := readable text.toList fun c hc hno => hnone ⟨c, hc, hno⟩
      simp [hread] at hds

theorem position?_ends (hkey : key.Raw) :
    Ends (position? key) (fun _ => True) fun _ => ∃ text, key = .string text ∧ Unreadable text := by
  cases key with
  | number n => cases n <;> trivial
  | string text =>
    unfold position?
    dsimp only
    split_ifs with hdigits
    · rw [Bool.and_eq_true] at hdigits
      exact (digitsValue_ends hdigits.2).map (fun _ _ => trivial) |>.mono (fun _ h => h) fun _ h => ⟨text, rfl, h⟩
    · trivial
  | symbol _ => trivial
  | _ => exact hkey.elim

/-- An error of schemas that is not about a name ahead. -/
theorem missing_usable {s : Schema} {P : α → Prop} {I : Session → Prop} (hs : ∀ r, s ≠ .ref r) :
    Runs I (missing key s) P (Amiss quoted unset looped key) := by
  refine .throw (Or.inl fun h => ?_)
  cases s with
  | ref r => exact absurd rfl (hs r)
  | _ => cases h

variable {follow : Ref → Engine Schema}

theorem stepFound_usable {ms : List Schema} (h : ∀ m ∈ ms, Runs (Session.Near quoted s₀) (stepWith scope key follow m)
      (Schema.Usable quoted) (Amiss quoted unset looped key)) :
    Runs (Session.Near quoted s₀) (stepFound scope key follow ms) (fun values => ∀ t ∈ values, t.Usable quoted)
      (Amiss quoted unset looped key) := by
  induction ms with
  | nil => exact .pure (by simp)
  | cons m ms ih =>
    obtain ⟨hm, hms⟩ := List.forall_mem_cons.mp h
    refine Runs.bind (P := fun found : Option Schema => ∀ t, found = some t → t.Usable quoted) ?_ fun found hfound => ?_
    · have hsome : Runs (Session.Near quoted s₀) (some <$> stepWith scope key follow m)
          (fun found => ∀ t, found = some t → t.Usable quoted) (Amiss quoted unset looped key) := by
        rw [map_eq_pure_bind]
        refine hm.bind fun t ht => .pure ?_
        rintro _ ⟨⟩
        exact ht
      refine hsome.tryCatch fun e he => ?_
      split_ifs
      · exact .pure nofun
      · exact .throw he
    · refine (ih hms).bind fun values hvalues => .pure (List.forall_mem_append.mpr ⟨?_, hvalues⟩)
      exact fun t ht => hfound t (Option.mem_toList.mp ht)

section Steps

variable (hset : s₀.Sets unset none)
include hset

theorem unionOf_usable (other : Option Nat) {ss : List Schema} (hss : ∀ t ∈ ss, t.Usable quoted) :
    Runs (Session.Near quoted s₀) (union other ss) (Schema.Usable quoted) (Amiss quoted unset looped key) :=
  (union_usable hset.of_ambient hss).mono (fun _ h => h) fun _ => Or.inl

theorem valueAt_usable {o : ObjectShape Schema} (ho : (Schema.object o).Usable quoted) (raw : Value) :
    Runs (Session.Near quoted s₀) (valueAt scope o raw) (Schema.Usable quoted) (Amiss quoted unset looped raw) := by
  obtain ⟨hproperties, hindex⟩ := Schema.usable_object.mp ho
  unfold valueAt
  split
  · exact missing_usable (by simp)
  · rename_i k _
    split
    · rename_i p hp
      have hvalue := (hproperties p (ObjectShape.property?_mem hp).1).value
      split_ifs
      · exact unionOf_usable hset scope (by simpa [undefinedSchema] using hvalue)
      · exact .pure hvalue
    · split
      · exact missing_usable (by simp)
      · rename_i i hi
        refine (Runs.usable_env hset.of_ambient).bind fun e he => ?_
        have hadmits := Env.admits_ends Fault.Foreseen.expected (he.2 looped) (hindex i hi).1 k.toValue
        refine Runs.bind (.lift (hadmits.mono (fun _ h => h) fun _ => Or.inl)) fun taken _ => ?_
        split_ifs
        · exact .pure (hindex i hi).2
        · exact missing_usable (by simp)

theorem propertyValue_usable {o : ObjectShape Schema} (ho : (Schema.object o).Usable quoted) (hkey : key.Raw) :
    Runs (Session.Near quoted s₀) (propertyValue scope o key) (Schema.Usable quoted)
      (Amiss quoted unset looped key) := by
  have hvalue : Runs (Session.Near quoted s₀) (valueAt scope o key) (Schema.Usable quoted)
      (Amiss quoted unset looped key) := valueAt_usable hset ho key
  cases key with
  | string _ => exact hvalue
  | symbol _ => exact hvalue
  | number _ => exact hvalue
  | _ => exact hkey.elim

theorem elementValue_usable {es : List (Element Schema)} (hes : (Schema.tuple es).Usable quoted) (hkey : key.Raw) :
    Runs (Session.Near quoted s₀) (elementValue es key) (Schema.Usable quoted) (Amiss quoted unset looped key) := by
  have hvalue : ∀ e ∈ es, e.value.Usable quoted := fun e he => hes.element he
  unfold elementValue
  refine Runs.bind (.lift ((position?_ends hkey).mono (fun _ h => h) fun _ => Or.inr)) fun position _ => ?_
  cases position with
  | none => exact missing_usable (by simp)
  | some n =>
    dsimp only
    split
    · rename_i e he
      have he := hvalue e (List.mem_of_mem_filter (List.mem_of_getElem? he))
      split_ifs
      · exact unionOf_usable hset none (by simpa [undefinedSchema] using he)
      · exact .pure he
    · split
      · exact missing_usable (by simp)
      · rename_i e he
        refine unionOf_usable hset none (List.forall_mem_cons.mpr ⟨hvalue e (List.mem_of_find?_eq_some he), ?_⟩)
        exact List.forall_mem_map.mpr fun t ht => hvalue t (List.mem_of_mem_filter ht)

/-- A step uses only what the names that it consults lead to. -/
theorem stepWith_usable (hkey : key.Raw) {s : Schema} (hs : s.Usable quoted) (hfollow : ∀ r, s.Consults r →
      Runs (Session.Near quoted s₀) (follow r) (Schema.Usable quoted) (Amiss quoted unset looped key)) :
    Runs (Session.Near quoted s₀) (stepWith scope key follow s) (Schema.Usable quoted)
      (Amiss quoted unset looped key) := by
  induction s using Schema.induction_on_parts with
  | _ s ih =>
    cases s with
    | ref r => exact hfollow r .ref
    | object o => exact propertyValue_usable hset hs hkey
    | tuple es => exact elementValue_usable hset hs hkey
    | union bs =>
      cases bs with
      | nil => exact missing_usable (by simp [Schema.never])
      | cons b bs =>
        refine stepWith_union (P := fun _ => Schema.Usable quoted) (List.cons_ne_nil _ _)
          (fun m hm => ih m hm (hs.branch hm) fun r hr => hfollow r (.branch hm hr)) fun values hvalues => ?_
        refine unionOf_usable hset scope fun t ht => ?_
        obtain ⟨_, _, ht⟩ := forall₂_exists_right hvalues ht
        exact ht
    | intersection ms =>
      refine (stepFound_usable fun m hm => ih m hm (hs.member hm) fun r hr => hfollow r (.member hm hr)).bind
        fun values hvalues => ?_
      cases values with
      | nil => exact missing_usable (by simp)
      | cons t ts =>
        obtain ⟨ht, hts⟩ := List.forall_mem_cons.mp hvalues
        exact (meetAll_usable hset.of_ambient ht hts).mono (fun _ h => h) fun _ => Or.inl
    | constrained base cs => exact ih base (by simp [Schema.parts]) hs.base fun r hr => hfollow r (.base hr)
    | keyword _ => exact missing_usable (by simp)
    | literal _ => exact missing_usable (by simp)

variable (hloops : (s₀.env scope).Loops → looped)
include hloops

/-- The names behind which the step has looked make up a trail. When no more names may be followed, the trail came to one
of them twice. -/
theorem stepWithin_usable (hkey : key.Raw) (fuel : Nat) {rs : List Ref} {s : Schema} (hs : s.Usable quoted)
    (htrail : (s₀.env scope).Trail rs s) (hlength : rs.length + fuel = (s₀.env scope).slotCount + 1) :
    Runs (Session.Near quoted s₀) (stepWithin scope key fuel s) (Schema.Usable quoted)
      (Amiss quoted unset looped key) := by
  induction fuel generalizing rs s with
  | zero =>
    exact stepWith_usable hset hkey hs fun r _ => .throw (Or.inl fun _ => hloops (htrail.loops (by omega)))
  | succ fuel ih =>
    refine stepWith_usable hset hkey hs fun r hr => ?_
    refine (Runs.usable_env hset.of_ambient).bind fun e he => ?_
    obtain ⟨rfl, husable⟩ := he
    have hends := (Env.resolve_ends Fault.Foreseen.expected (husable looped) r)
    refine Runs.bind (P := fun t => t.Usable quoted ∧ (s₀.env scope).target r = .filled t) (.lift ?_) fun t ht => ?_
    · cases hrun : (s₀.env scope).resolve r with
      | ok t =>
        rw [hrun] at hends
        exact ⟨hends, Env.target_of_resolve hrun⟩
      | error e =>
        rw [hrun] at hends
        exact Or.inl hends
    · refine ih ht.1 (htrail.follow hr ht.2) ?_
      rw [List.length_cons]
      omega

theorem step_usable (hkey : key.Raw) {s : Schema} (hs : s.Usable quoted) :
    Runs (Session.Near quoted s₀) (step scope s key) (Schema.Usable quoted) (Amiss quoted unset looped key) := by
  refine (Runs.usable_env hset.of_ambient).bind fun e he => ?_
  obtain ⟨rfl, -⟩ := he
  exact stepWithin_usable hset hloops hkey _ hs (.start s) (by simp)

/-- Following a path stops with what one of its steps stops with. -/
theorem select_usable {path : List Value} (hpath : ∀ key ∈ path, key.Raw) {s : Schema} (hs : s.Usable quoted) :
    Runs (Session.Near quoted s₀) (select scope s path) (Schema.Usable quoted) fun e =>
      e.Foreseen quoted unset looped ∨ ∃ text, Value.string text ∈ path ∧ Unreadable text := by
  induction path generalizing s with
  | nil => exact .pure hs
  | cons key path ih =>
    obtain ⟨hkey, hpath⟩ := List.forall_mem_cons.mp hpath
    refine Runs.bind ((step_usable hset hloops hkey hs).mono (fun _ h => h) ?_) fun t ht =>
      (ih hpath ht).mono (fun _ h => h) ?_
    · rintro e (he | ⟨text, rfl, htext⟩)
      · exact Or.inl he
      · exact Or.inr ⟨text, List.mem_cons_self, htext⟩
    · rintro e (he | ⟨text, hmem, htext⟩)
      · exact Or.inl he
      · exact Or.inr ⟨text, List.mem_cons_of_mem _ hmem, htext⟩

end Steps

end Engine
end Schemata
