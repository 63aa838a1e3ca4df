import Schemata.Algebra.Domains
import Schemata.Proofs.Schema.Limits

/-! What the domains of a schema are worked out from, and the keys of the index signatures inside a schema. -/
namespace Schemata
namespace Schema

variable {s t k : Schema} {r : Ref} {follow follow' : Ref → Except Fault (Option DomainSet)}

/-- The domains of the schema are worked out from what the reference leads to. -/
inductive Consults : Schema → Ref → Prop
  | ref {r : Ref} : Consults (.ref r) r
  | base {s : Schema} {cs : List Constraint} {r : Ref} : Consults s r → Consults (.constrained s cs) r
  | branch {s : Schema} {bs : List Schema} {r : Ref} : s ∈ bs → Consults s r → Consults (.union bs) r
  | member {s : Schema} {ms : List Schema} {r : Ref} : s ∈ ms → Consults s r → Consults (.intersection ms) r

theorem Consults.of_into {S : Ref → Prop} (h : s.Consults r) (hs : s.Into S) : S r := by
  induction h with
  | ref => exact into_ref.mp hs
  | base _ ih => exact ih (into_constrained.mp hs)
  | branch hb _ ih => exact ih (into_union.mp hs _ hb)
  | member hm _ ih => exact ih (into_intersection.mp hs _ hm)

theorem unionDomains_congr {bs : List Schema} (h : ∀ s ∈ bs, s.domainsWith follow = s.domainsWith follow') :
    unionDomains follow bs = unionDomains follow' bs := by
  induction bs with
  | nil => rfl
  | cons s bs ih =>
    obtain ⟨hs, hbs⟩ := List.forall_mem_cons.mp h
    simp only [unionDomains, hs, ih hbs]

theorem memberDomains_congr {ms : List Schema} (h : ∀ s ∈ ms, s.domainsWith follow = s.domainsWith follow') :
    memberDomains follow ms = memberDomains follow' ms := by
  induction ms with
  | nil => rfl
  | cons s ms ih =>
    obtain ⟨hs, hms⟩ := List.forall_mem_cons.mp h
    simp only [memberDomains, hs, ih hms]

/-- Only what is consulted matters. -/
theorem domainsWith_congr (h : ∀ r, s.Consults r → follow r = follow' r) : s.domainsWith follow = s.domainsWith follow' := by
  induction s using induction_on_parts with
  | _ s ih =>
    cases s with
    | constrained s cs => exact ih s (by simp [parts]) fun r hr => h r (.base hr)
    | union bs => exact unionDomains_congr fun b hb => ih b hb fun r hr => h r (.branch hb hr)
    | intersection ms =>
      have hms : memberDomains follow ms = memberDomains follow' ms :=
        memberDomains_congr fun m hm => ih m hm fun r hr => h r (.member hm hr)
      simp only [domainsWith, hms]
    | ref r => exact h r .ref
    | _ => rfl

/-- An index signature with the key stands somewhere in the schema. -/
inductive Indexes : Schema → Schema → Prop
  | here {o : ObjectShape Schema} {i : IndexSignature Schema} : o.index = some i → Indexes (.object o) i.key
  | inside {s t k : Schema} : t ∈ s.parts → Indexes t k → Indexes s k

theorem Indexes.into {S : Ref → Prop} (h : s.Indexes k) (hs : s.Into S) : k.Into S := by
  induction h with
  | here hi => exact ((into_object.mp hs).index _ hi).1
  | inside ht _ ih => exact ih (hs.part ht)

theorem within_iff_into_indexes {l : Limits} : s.Within l ↔ s.Into l.ref ∧ ∀ k, s.Indexes k → l.key k := by
  constructor
  · refine fun h => ⟨into_iff_within.mpr (h.mono (fun _ hr => hr) fun _ _ => trivial), fun k hk => ?_⟩
    induction hk with
    | here hi => exact ((within_object.mp h).index _ hi).allowed
    | inside ht _ ih => exact ih (h.part ht)
  · rintro ⟨hinto, hkeys⟩
    induction s using induction_on_parts with
    | _ s ih =>
      refine .intro ?_ fun t ht => ih t ht (hinto.part ht) fun k hk => hkeys k (.inside ht hk)
      cases s with
      | ref r => exact into_ref.mp hinto
      | object o => exact fun i hi => hkeys i.key (.here hi)
      | _ => trivial

/-- The forms of an index key: keywords, names, nothing, and keywords under constraints. -/
def IsKeyForm : Schema → Prop
  | .keyword _ => True
  | .ref _ => True
  | .union [] => True
  | .constrained (.keyword _) _ => True
  | _ => False

/-- What is consulted for a key is the name that it is. -/
theorem IsKeyForm.eq_ref (h : k.IsKeyForm) (hr : k.Consults r) : k = .ref r := by
  cases hr with
  | ref => rfl
  | base hr =>
    rename_i s cs
    cases s with
    | keyword j => cases hr
    | _ => exact h.elim
  | branch hb =>
    cases hb with
    | _ => exact h.elim
  | member => exact h.elim

/-- Keys that are alike are one, or have the same domains whatever names lead to. -/
theorem IsKeyForm.alike {l : Likeness} (h : s.IsKeyForm) (hst : Alike l s t) :
    s = t ∨ t.IsKeyForm ∧ (∀ r, ¬ t.Consults r) ∧ ∀ follow, s.domainsWith follow = t.domainsWith follow := by
  have hform := hst.form
  cases s with
  | keyword j =>
    cases t <;> simp only [Form] at hform
    exact Or.inl (congrArg keyword hform)
  | ref r =>
    cases t <;> simp only [Form] at hform
    exact Or.inl (congrArg ref hform.1)
  | union bs =>
    cases bs with
    | nil =>
      cases t <;> simp only [Form] at hform
      exact Or.inl (congrArg union (List.forall₂_nil_left_iff.mp hst.parts).symm)
    | cons b bs => exact h.elim
  | constrained s cs =>
    cases s with
    | keyword j =>
      cases t <;> simp only [Form] at hform
      rename_i u ds
      obtain ⟨hbase, -⟩ := List.forall₂_cons.mp hst.parts
      have hkeyword := hbase.form
      cases u <;> simp only [Form] at hkeyword
      subst hkeyword
      refine Or.inr ⟨trivial, fun r hr => ?_, fun _ => rfl⟩
      cases hr with
      | base hr => cases hr
    | _ => exact h.elim
  | _ => exact h.elim

end Schema
end Schemata
