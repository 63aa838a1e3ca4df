import Schemata.Proofs.Algebra.Compose
import Schemata.Proofs.Algebra.Union

/-! What the intersection of two schemas promises: nothing that one of them refuses, and, where it is worked out
exactly, everything that both accept. -/
namespace Schemata
namespace Schema

/-- The schema `c` is an intersection of `a` and `b`: it stays in the fragment and has no value that one of them
has not. An exact one has all their common values. -/
structure Meets (env : Env) (d : Dialect) (exactly : Prop) (a b c : Schema) : Prop where
  fits : c.Every (Fits d)
  sound : ∀ v : Value, v.Formed → c.Member env true v → a.Member env true v ∧ b.Member env true v
  orderly : exactly → c.Orderly d
  complete : exactly → ∀ v : Value, v.Formed → v.NaNFree → a.Member env true v → b.Member env true v →
    c.Member env true v

/-- An error says of two schemas that they have no common value, where the intersection is exact. -/
def Apart (env : Env) (exactly : Prop) (a b : Schema) (e : Fault) : Prop :=
  exactly → e.isUnsatisfiable = true ∧
    ∀ v : Value, v.Formed → v.NaNFree → a.Member env true v → ¬ b.Member env true v

/-- The computation works out an intersection. -/
def Meeting (env : Env) (d : Dialect) (exactly : Prop) (a b : Schema) (x : Compose Schema) : Prop :=
  x.Yields (Meets env d exactly a b) (Apart env exactly a b)

section Rules

variable {env : Env} {d : Dialect} {exactly : Prop} {a b c a' b' : Schema}

/-- The intersection of schemas with the same values. -/
theorem Meets.congr (h : Meets env d exactly a' b' c)
    (ha : ∀ v, a.Member env true v ↔ a'.Member env true v) (hb : ∀ v, b.Member env true v ↔ b'.Member env true v) :
    Meets env d exactly a b c where
  fits := h.fits
  sound v hv hc := ⟨(ha v).mpr (h.sound v hv hc).1, (hb v).mpr (h.sound v hv hc).2⟩
  orderly := h.orderly
  complete he v hv hn hva hvb := h.complete he v hv hn ((ha v).mp hva) ((hb v).mp hvb)

theorem Apart.congr {e : Fault} (h : Apart env exactly a' b' e)
    (ha : ∀ v, a.Member env true v ↔ a'.Member env true v) (hb : ∀ v, b.Member env true v ↔ b'.Member env true v) :
    Apart env exactly a b e :=
  fun he => ⟨(h he).1, fun v hv hn hva hvb => (h he).2 v hv hn ((ha v).mp hva) ((hb v).mp hvb)⟩

theorem Meets.symm (h : Meets env d exactly b a c) : Meets env d exactly a b c where
  fits := h.fits
  sound v hv hc := (h.sound v hv hc).symm
  orderly := h.orderly
  complete he v hv hn hva hvb := h.complete he v hv hn hvb hva

theorem Apart.symm {e : Fault} (h : Apart env exactly b a e) : Apart env exactly a b e :=
  fun he => ⟨(h he).1, fun v hv hn hva hvb => (h he).2 v hv hn hvb hva⟩

theorem Meeting.symm {x : Compose Schema} (h : Meeting env d exactly b a x) : Meeting env d exactly a b x :=
  h.mono (fun _ h => h.symm) fun _ h => h.symm

/-- Of two schemas the smaller one is the intersection. -/
theorem Meets.left (ha : a.Every (Fits d)) (hr : exactly → a.Orderly d)
    (h : ∀ v : Value, v.Formed → a.Member env true v → b.Member env true v) : Meets env d exactly a b a where
  fits := ha
  sound v hv hmem := ⟨hmem, h v hv hmem⟩
  orderly := hr
  complete _ _ _ _ hva _ := hva

/-- Schemas apart meet in the schema without values. -/
theorem Meets.of_apart (h : exactly → ∀ v : Value, v.Formed → v.NaNFree → a.Member env true v → ¬ b.Member env true v) :
    Meets env d exactly a b .never where
  fits := .intro trivial (by simp [never, parts])
  sound _ _ hmem := absurd hmem not_member_never
  orderly _ := .intro ⟨trivial, trivial⟩ (by simp [never, parts])
  complete he v hv hn hva hvb := absurd hvb (h he v hv hn hva)

theorem Meeting.unsatisfiable {s t : Schema} {r : Emptiness}
    (h : exactly → ∀ v : Value, v.Formed → v.NaNFree → a.Member env true v → ¬ b.Member env true v) :
    Meeting env d exactly a b (Compose.unsatisfiable s t r) :=
  .throw fun he => ⟨rfl, h he⟩

/-- A conjunction has the common values of its members. -/
theorem Meets.conjunction {ms : List Schema} (hd : d.lazy) (hms : ∀ s ∈ ms, s.Every (Fits d))
    (hr : exactly → ms ≠ [] ∧ ∀ s ∈ ms, s.Orderly d ∧ ∃ es, s = .tuple es)
    (h : ∀ v, (∀ s ∈ ms, s.Member env true v) ↔ a.Member env true v ∧ b.Member env true v) :
    Meets env d exactly a b (.intersection ms) where
  fits := .intro hd hms
  sound v _ hmem := (h v).mp (member_intersection.mp hmem)
  orderly he := .intro ⟨hd, (hr he).1, fun s hs => ((hr he).2 s hs).2⟩ fun s hs => ((hr he).2 s hs).1
  complete _ v _ _ hva hvb := .intersection ((h v).mpr ⟨hva, hvb⟩)

/-- An optional place has no values where its schemas conflict. -/
theorem place_spec {meet : Schema → Schema → Compose Schema} (optional : Bool)
    (h : Meeting env d exactly a b (meet a b)) :
    (Compose.place meet a b optional).Yields (Meets env d exactly a b)
      fun e => Apart env exactly a b e ∧ (exactly → optional = false) := by
  refine Compose.Yields.place h (fun _ h => h) (fun e _ _ he => Meets.of_apart fun hexact => (he hexact).2)
    fun e he hno => ⟨he, fun hexact => hno.resolve_right ?_⟩
  simp [(he hexact).1]

end Rules

section Unions

variable {env : Env} {d : Dialect} {exactly : Prop} {b : Schema}

/-- Every result of a branch is an intersection, and branches without a result have nothing in common with the
other schema. -/
structure Results (env : Env) (d : Dialect) (exactly : Prop) (bs : List Schema) (b : Schema) (cs : List Schema) :
    Prop where
  source : ∀ c ∈ cs, ∃ s ∈ bs, Meets env d exactly s b c
  covers : exactly → ∀ s ∈ bs, (∃ c ∈ cs, Meets env d exactly s b c) ∨
    ∀ v : Value, v.Formed → v.NaNFree → s.Member env true v → ¬ b.Member env true v

theorem compatible_spec {one : Schema → Compose Schema} {bs : List Schema}
    (h : ∀ s ∈ bs, Meeting env d exactly s b (one s)) :
    (Env.compatible one bs).Yields (Results env d exactly bs b) fun _ => ¬ exactly := by
  have apart : ∀ s ∈ bs, (one s).Yields (Meets env d exactly s b) fun e =>
      (e.isUnsatisfiable = true → exactly →
        ∀ v : Value, v.Formed → v.NaNFree → s.Member env true v → ¬ b.Member env true v) ∧
      (e.isUnsatisfiable = false → ¬ exactly) := by
    refine fun s hs => (h s hs).mono (fun _ h => h) fun e he => ⟨fun _ hexact => (he hexact).2, fun hno hexact => ?_⟩
    simp [(he hexact).1] at hno
  exact (Compose.Yields.compatible apart).mono
    (fun cs hcs => ⟨hcs.1, fun hexact s hs => (hcs.2 s hs).imp_right fun h => h hexact⟩) fun _ h => h

/-- The union of the results is the intersection with the union. -/
theorem union_results {bs cs : List Schema} (h : Results env d exactly bs b cs) :
    Ends (env.union cs) (Meets env d exactly (.union bs) b) (Apart env exactly (.union bs) b) := by
  have sound : ∀ v : Value, v.Formed → (∃ c ∈ cs, c.Member env true v) →
      (union bs).Member env true v ∧ b.Member env true v := by
    rintro v hv ⟨c, hc, hmem⟩
    obtain ⟨s, hs, hmeets⟩ := h.source c hc
    exact ⟨.union hs (hmeets.sound v hv hmem).1, (hmeets.sound v hv hmem).2⟩
  have fits : ∀ c ∈ cs, c.Every (Fits d) := fun c hc => by
    obtain ⟨s, -, hmeets⟩ := h.source c hc
    exact hmeets.fits
  by_cases he : exactly
  · have orderly : ∀ c ∈ cs, c.Orderly d := fun c hc => by
      obtain ⟨s, -, hmeets⟩ := h.source c hc
      exact hmeets.orderly he
    obtain ⟨u, hu, hur, hiff⟩ := Env.union_exact orderly
    rw [hu]
    refine ⟨hur.mono fun _ h => h.1, fun v hv hmem => sound v hv ((hiff v hv.here).mp hmem), fun _ => hur, ?_⟩
    intro _ v hv hn hva hvb
    obtain ⟨s, hs, hvs⟩ := member_union.mp hva
    rcases h.covers he s hs with ⟨c, hc, hmeets⟩ | hapart
    · exact (hiff v hv.here).mpr ⟨c, hc, hmeets.complete he v hv hn hvs hvb⟩
    · exact absurd hvb (hapart v hv hn hvs)
  · cases hu : env.union cs with
    | error e => exact fun hexact => absurd hexact he
    | ok u =>
      obtain ⟨hfits, hsound⟩ := Env.union_sound fits hu
      exact ⟨hfits, fun v hv hmem => sound v hv (hsound v hv.here hmem), fun hexact => absurd hexact he,
        fun hexact => absurd hexact he⟩

/-- A union meets a schema by its branches. -/
theorem meetBranches_spec {one : Schema → Compose Schema} {bs : List Schema}
    (h : ∀ s ∈ bs, Meeting env d exactly s b (one s)) :
    Meeting env d exactly (.union bs) b (Env.meetBranches env (.union bs) b bs one) := by
  unfold Env.meetBranches
  refine ((compatible_spec h).mono (fun _ h => h) fun e hno he => absurd he hno).bind fun cs hcs => ?_
  split_ifs with hempty
  · obtain rfl := List.isEmpty_iff.mp hempty
    refine Meeting.unsatisfiable fun he v hv hn hva => ?_
    obtain ⟨s, hs, hvs⟩ := member_union.mp hva
    rcases hcs.covers he s hs with ⟨c, hc, -⟩ | hapart
    · simp at hc
    · exact hapart v hv hn hvs
  · exact .lift (union_results hcs)

end Unions

end Schema
end Schemata
